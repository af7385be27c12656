import TopcDB.Go.Basic

/-! # The header of a CL chunk (`writeCLMeta`, `readCLMeta`)

Twelve bytes: the number of samples, where the payload starts, the error bound in millionths with
the codec in its four high bits, and two bytes that stay zero. -/

namespace TopcDB.Chunkenc.CLMeta

open List Lib.Bits Go.Basic

inductive CompressType
  | simplebits
  | auto
  | bitPacking
  | varint
  | pFor
  | qSimple8b
  | huffman
  | sz3
  | machete
  | most
  | none
  deriving DecidableEq

/-- The number of a codec, in the order of the declaration. -/
def CompressType.code : CompressType → ℕ
  | simplebits => 0
  | auto => 1
  | bitPacking => 2
  | varint => 3
  | pFor => 4
  | qSimple8b => 5
  | huffman => 6
  | sz3 => 7
  | machete => 8
  | most => 9
  | none => 10

/-- The codec of a number, if it has one. -/
def CompressType.ofCode : ℕ → Option CompressType
  | 0 => some simplebits
  | 1 => some auto
  | 2 => some bitPacking
  | 3 => some varint
  | 4 => some pFor
  | 5 => some qSimple8b
  | 6 => some huffman
  | 7 => some sz3
  | 8 => some machete
  | 9 => some most
  | 10 => some none
  | _ => Option.none

@[simp] theorem ofCode_code (c : CompressType) : CompressType.ofCode c.code = some c := by
  cases c <;> rfl

theorem code_lt (c : CompressType) : c.code < 16 := by cases c <;> decide

def clHeaderSize : ℕ := 12

structure Header where
  num : U16
  ptr : U32
  errbound : ℚ
  ctype : Option CompressType
  deriving DecidableEq

/-- The ten bytes that are written. -/
def metaBytes (num : U16) (ptr : U32) (errbound : ℚ) (ctype : CompressType) : List Byte :=
  let e := beBytes 4 (uint32OfFloat (errbound * 1000000)).toNat
  beBytes 2 num.toNat ++ beBytes 4 ptr.toNat ++ e.modify 0 (· ||| BitVec.ofNat 8 ctype.code <<< 4)

def writeCLMeta (num : U16) (ptr : U32) (errbound : ℚ) (ctype : CompressType) (b : List Byte) :
    Except Fault (List Byte) :=
  if b.length < 10 then .error .panic else .ok (metaBytes num ptr errbound ctype ++ b.drop 10)

def readCLMeta (b : List Byte) : Except Fault Header :=
  if b.length < 10 then .error .panic
  else
    let e := beNat ((b.drop 6).take 4)
    .ok
      { num := BitVec.ofNat 16 (beNat (b.take 2))
        ptr := BitVec.ofNat 32 (beNat ((b.drop 2).take 4))
        errbound := (e % 2 ^ 28 : ℕ) / 1000000
        ctype := CompressType.ofCode (e / 2 ^ 28) }

/-- The error bound as the header stores it. -/
def storedErrbound (errbound : ℚ) : ℚ := (uint32OfFloat (errbound * 1000000)).toNat / 1000000

theorem length_metaBytes (num : U16) (ptr : U32) (errbound : ℚ) (ctype : CompressType) :
    (metaBytes num ptr errbound ctype).length = 10 := by simp [metaBytes]

theorem beNat_errbound {e : ℕ} (he : e < 2 ^ 28) (ctype : CompressType) :
    beNat ((beBytes 4 e).modify 0 (· ||| BitVec.ofNat 8 ctype.code <<< 4)) =
      ctype.code * 2 ^ 28 + e := by
  have hc := code_lt ctype
  have h0 : (BitVec.ofNat 8 (e >>> 24) ||| BitVec.ofNat 8 ctype.code <<< 4).toNat =
      ctype.code * 16 + e / 2 ^ 24 := by
    rw [BitVec.toNat_or, BitVec.toNat_shiftLeft, BitVec.toNat_ofNat, BitVec.toNat_ofNat,
      Nat.shiftLeft_eq, Nat.shiftRight_eq_div_pow, Nat.mod_eq_of_lt (by omega),
      Nat.mod_eq_of_lt (show ctype.code < 2 ^ 8 by omega), Nat.mod_eq_of_lt (by omega), Nat.or_comm,
      Nat.mul_comm, ← Nat.two_pow_add_eq_or_of_lt (show e / 2 ^ 24 < 2 ^ 4 by omega)]
  have hsplit : beNat ((beBytes 4 e).modify 0 (· ||| BitVec.ofNat 8 ctype.code <<< 4)) =
      256 * (256 * (256 * (ctype.code * 16 + e / 2 ^ 24) + e / 2 ^ 16 % 256) + e / 2 ^ 8 % 256) +
        e % 256 := by
    simp only [beBytes, Nat.reduceMul, modify_zero_cons, beNat, foldl_cons, foldl_nil,
      h0, BitVec.toNat_ofNat]
    simp only [Nat.shiftRight_eq_div_pow]
    omega
  rw [hsplit]
  omega

/-- **The header is read back.** -/
theorem readCLMeta_append {num : U16} {ptr : U32} {errbound : ℚ} {ctype : CompressType}
    (he : (uint32OfFloat (errbound * 1000000)).toNat < 2 ^ 28) (rest : List Byte) :
    readCLMeta (metaBytes num ptr errbound ctype ++ rest) =
      .ok ⟨num, ptr, storedErrbound errbound, some ctype⟩ := by
  have hlen := length_metaBytes num ptr errbound ctype
  have h2 : (metaBytes num ptr errbound ctype ++ rest).take 2 = beBytes 2 num.toNat := by
    rw [metaBytes, append_assoc, append_assoc, take_left' (length_beBytes _ _)]
  have h4 : ((metaBytes num ptr errbound ctype ++ rest).drop 2).take 4 = beBytes 4 ptr.toNat := by
    rw [metaBytes, append_assoc, append_assoc, drop_left' (length_beBytes _ _),
      take_left' (length_beBytes _ _)]
  have h6 : ((metaBytes num ptr errbound ctype ++ rest).drop 6).take 4 =
      (beBytes 4 (uint32OfFloat (errbound * 1000000)).toNat).modify 0
        (· ||| BitVec.ofNat 8 ctype.code <<< 4) := by
    rw [metaBytes, append_assoc, drop_left' (by simp), take_left' (by simp)]
  rw [readCLMeta, if_neg (by rw [length_append]; omega)]
  simp only [h2, h4, h6, beNat_errbound he, beNat_beBytes]
  rw [Nat.mod_eq_of_lt (show num.toNat < 2 ^ (8 * 2) by omega),
    Nat.mod_eq_of_lt (show ptr.toNat < 2 ^ (8 * 4) by omega),
    show (ctype.code * 2 ^ 28 + (uint32OfFloat (errbound * 1000000)).toNat) % 2 ^ 28 =
      (uint32OfFloat (errbound * 1000000)).toNat by omega,
    show (ctype.code * 2 ^ 28 + (uint32OfFloat (errbound * 1000000)).toNat) / 2 ^ 28 =
      ctype.code by omega]
  simp [storedErrbound]

/-! ### Which headers are kept -/

theorem toNat_millionths {k : ℕ} (hk : k < 2 ^ 32) :
    (uint32OfFloat ((k / 1000000 : ℚ) * 1000000)).toNat = k := by
  have hmul : (k / 1000000 : ℚ) * 1000000 = k := by field_simp
  rw [hmul, uint32OfFloat, truncRat_of_nonneg (Nat.cast_nonneg k), Int.floor_natCast,
    BitVec.ofInt_natCast, BitVec.toNat_ofNat, Nat.mod_eq_of_lt hk]

/-- The four values are read back after they were written, whatever was there before. -/
def Kept (num : U16) (ptr : U32) (errbound : ℚ) (ctype : CompressType) : Prop :=
  ∀ b : List Byte, 10 ≤ b.length → ∃ b', writeCLMeta num ptr errbound ctype b = .ok b' ∧
    readCLMeta b' = .ok ⟨num, ptr, errbound, some ctype⟩ ∧
    ∀ num' ptr' errbound' ctype',
      writeCLMeta num' ptr' errbound' ctype' b >>= writeCLMeta num ptr errbound ctype = .ok b'

/-- The reader takes the four high bits of the bound for the codec. -/
theorem Kept.errbound_lt {num : U16} {ptr : U32} {errbound : ℚ} {ctype : CompressType}
    (h : Kept num ptr errbound ctype) : errbound < 2 ^ 28 / 1000000 := by
  obtain ⟨b', -, hread, -⟩ := h (replicate 10 0) le_rfl
  rw [readCLMeta] at hread
  split_ifs at hread
  have he : _ = errbound := congrArg Header.errbound (Except.ok.inj hread)
  rw [← he]
  refine div_lt_div_of_pos_right ?_ (by norm_num)
  exact_mod_cast Nat.mod_lt _ (Nat.two_pow_pos 28)

/-- **The header is kept exactly when the bound has at most 28 bits**, in millionths. -/
theorem header_kept_iff (num : U16) (ptr : U32) (ctype : CompressType) {k : ℕ} (hk : k < 2 ^ 32) :
    Kept num ptr (k / 1000000) ctype ↔ k < 2 ^ 28 := by
  constructor
  · intro h
    have := h.errbound_lt
    rw [div_lt_div_iff_of_pos_right (by norm_num)] at this
    exact_mod_cast this
  · intro h28 b hb
    have hwrite : ∀ {num ptr errbound ctype} {b : List Byte}, 10 ≤ b.length →
        writeCLMeta num ptr errbound ctype b =
          .ok (metaBytes num ptr errbound ctype ++ b.drop 10) := fun hb => if_neg (by omega)
    refine ⟨_, hwrite hb, ?_, fun num' ptr' errbound' ctype' => ?_⟩
    · rw [readCLMeta_append (by rw [toNat_millionths hk]; exact h28), storedErrbound,
        toNat_millionths hk]
    · have hlen := length_metaBytes num' ptr' errbound' ctype'
      have h10 : 10 ≤ (metaBytes num' ptr' errbound' ctype' ++ b.drop 10).length := by
        rw [length_append]; omega
      rw [hwrite hb]
      refine (hwrite h10).trans ?_
      rw [drop_left' hlen]

theorem header_kept_iff_hundredth : Kept 3 40 ((10000 : ℕ) / 1000000) .qSimple8b :=
  (header_kept_iff 3 40 .qSimple8b (by decide)).2 (by decide)

/-- A bound of 28 bits and one more is read as zero. -/
theorem not_header_kept_large : ¬ Kept 3 40 ((2 ^ 28 : ℕ) / 1000000) .simplebits := fun h => by
  have := h.errbound_lt
  norm_num at this

end TopcDB.Chunkenc.CLMeta
