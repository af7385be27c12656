import TopcDB.Chunkenc.Bstream

/-! # Variable-length integers (`encoding/binary`)

`putVarint` is the byte string of `binary.PutVarint`: the zigzag code of the number in groups of
seven bits, the low group first. `readVarint` is `binary.ReadVarint` on the reader of a chunk; it
reads such a string back and stops behind it (`readVarint_append`). -/

namespace TopcDB.Chunkenc.Varint

open BitVec Lib.Bits Go.Basic Bstream

def maxVarintLen64 : ℕ := 10

/-- The loop of `binary.PutUvarint`, in a buffer of `n` bytes. -/
def putUvarintLoop : ℕ → U64 → List Byte
  | 0, _ => []
  | n + 1, x =>
    if x ≥ 0x80#64 then (x.setWidth 8 ||| 0x80#8) :: putUvarintLoop n (x >>> 7) else [x.setWidth 8]

def putUvarint (x : U64) : List Byte := putUvarintLoop maxVarintLen64 x

def putVarint (x : I64) : List Byte :=
  putUvarint (if x.slt 0#64 then ~~~(x <<< 1) else x <<< 1)

/-- The loop of `binary.ReadUvarint` from its step `i` on, with `n` steps left. -/
def readUvarintLoop : ℕ → ℕ → U64 → BReader → Except Err U64 × BReader
  | 0, _, _, r => (.error .overflow, r)
  | n + 1, i, x, r =>
    match readByte r with
    | (.error e, r) => (.error (if i > 0 ∧ e = .eof then .unexpectedEOF else e), r)
    | (.ok b, r) =>
      if b < 0x80#8 then
        if i = maxVarintLen64 - 1 ∧ b > 1#8 then (.error .overflow, r)
        else (.ok (x ||| (b.setWidth 64 <<< (7 * i))), r)
      else readUvarintLoop n (i + 1) (x ||| ((b &&& 0x7f#8).setWidth 64 <<< (7 * i))) r

def readUvarint (r : BReader) : Except Err U64 × BReader := readUvarintLoop maxVarintLen64 0 0 r

def readVarint (r : BReader) : Except Err I64 × BReader :=
  let p := readUvarint r
  (p.1.map fun ux => if ux &&& 1#64 ≠ 0#64 then ~~~(ux >>> 1) else ux >>> 1, p.2)

/-! ### One byte of the code -/

theorem toNat_low7 (x : U64) : (x.setWidth 8 &&& 0x7f#8).toNat = x.toNat % 2 ^ 7 := by
  rw [toNat_and, toNat_setWidth, show (0x7f#8).toNat = 2 ^ 7 - 1 from rfl,
    Nat.and_two_pow_sub_one_eq_mod]
  omega

theorem cont_byte (x : U64) : ¬ (x.setWidth 8 ||| 0x80#8) < 0x80#8 ∧
    (x.setWidth 8 ||| 0x80#8) &&& 0x7f#8 = x.setWidth 8 &&& 0x7f#8 := by
  generalize x.setWidth 8 = y
  constructor
  · rw [lt_def, toNat_or, not_lt]; exact Nat.right_le_or
  · rw [BitVec.and_comm, BitVec.and_or_distrib_left, show 0x7f#8 &&& 0x80#8 = 0#8 from rfl,
      or_zero, BitVec.and_comm]

theorem low7_or (x : U64) : (x.setWidth 8 &&& 0x7f#8).setWidth 64 ||| (x >>> 7) <<< 7 = x := by
  apply eq_of_toNat_eq
  rw [toNat_or, toNat_setWidth_of_le (by decide), toNat_low7, toNat_shiftLeft, toNat_ushiftRight,
    Nat.shiftRight_eq_div_pow, Nat.shiftLeft_eq, Nat.mod_eq_of_lt (a := _ * _) (by omega),
    Nat.or_comm, Nat.mul_comm, ← Nat.two_pow_add_eq_or_of_lt (Nat.mod_lt _ (by decide)),
    Nat.div_add_mod]

/-- From step `i` on, the reader puts the remaining groups `x` on top of what it has. -/
theorem readUvarintLoop_append : ∀ (n i : ℕ), n + i = maxVarintLen64 → 0 < n → ∀ {x a : U64}
    {r : BReader} {l : List Bool}, Wf r → x.toNat < 2 ^ (64 - 7 * i) →
    rest r = bytesBits (putUvarintLoop n x) ++ l →
    ∃ r', readUvarintLoop n i a r = (.ok (a ||| x <<< (7 * i)), r') ∧ Wf r' ∧ rest r' = l
  | 0, _, _, h0, _, _, _, _, _, _, _ => by omega
  | n + 1, i, hi, _, x, a, r, l, hw, hx, hr => by
    have h10 : maxVarintLen64 = 10 := rfl
    rw [putUvarintLoop] at hr
    by_cases hge : x ≥ 0x80#64
    · rw [if_pos hge, bytesBits_cons, List.append_assoc] at hr
      obtain ⟨r1, h1, h2, h3⟩ := readByte_append hw hr
      obtain ⟨hcont, hlow⟩ := cont_byte x
      have hge' : 128 ≤ x.toNat := hge
      have hin : 0 < n := by
        rcases Nat.eq_zero_or_pos n with h0 | h0
        · rw [show i = 9 by omega] at hx; simp at hx; omega
        · exact h0
      have hx' : (x >>> 7).toNat < 2 ^ (64 - 7 * (i + 1)) := by
        rw [toNat_ushiftRight, Nat.shiftRight_eq_div_pow,
          Nat.div_lt_iff_lt_mul (by decide), ← pow_add]
        rwa [show 64 - 7 * (i + 1) + 7 = 64 - 7 * i by omega]
      obtain ⟨r', e1, e2, e3⟩ := readUvarintLoop_append n (i + 1) (by omega) hin h2 hx' h3
      refine ⟨r', ?_, e2, e3⟩
      rw [readUvarintLoop, h1]
      simp only [if_neg hcont, hlow]
      rw [e1, BitVec.or_assoc, Nat.mul_succ, Nat.add_comm, BitVec.shiftLeft_add,
        ← shiftLeft_or_distrib, low7_or]
    · rw [if_neg hge, bytesBits_cons, bytesBits_nil, List.append_nil] at hr
      obtain ⟨r1, h1, h2, h3⟩ := readByte_append hw hr
      have hlt : x.toNat < 128 := not_le.1 hge
      have h8 : (x.setWidth 8).toNat = x.toNat := by
        rw [toNat_setWidth]; exact Nat.mod_eq_of_lt (by omega)
      have hlt8 : x.setWidth 8 < 0x80#8 := by rw [lt_def, h8]; exact hlt
      have hov : ¬ (i = maxVarintLen64 - 1 ∧ x.setWidth 8 > 1#8) := by
        rintro ⟨rfl, hgt⟩
        rw [gt_iff_lt, lt_def, h8, show (1#8).toNat = 1 from rfl] at hgt
        simp [h10] at hx
        omega
      have h64 : (x.setWidth 8).setWidth 64 = x :=
        eq_of_toNat_eq (by rw [toNat_setWidth_of_le (by decide), h8])
      refine ⟨r1, ?_, h2, h3⟩
      rw [readUvarintLoop, h1]
      simp only [if_pos hlt8, if_neg hov, h64]

theorem readUvarint_append {r : BReader} (h : Wf r) {x : U64} {l : List Bool}
    (hr : rest r = bytesBits (putUvarint x) ++ l) :
    ∃ r', readUvarint r = (.ok x, r') ∧ Wf r' ∧ rest r' = l := by
  obtain ⟨r', h1, h2, h3⟩ := readUvarintLoop_append maxVarintLen64 0 rfl (by decide) (a := 0) h
    (by simpa using x.isLt) hr
  refine ⟨r', ?_, h2, h3⟩
  rw [readUvarint]
  simpa using h1

theorem unzigzag (x : I64) :
    (if (if x.slt 0#64 then ~~~(x <<< 1) else x <<< 1) &&& 1#64 ≠ 0#64 then
      ~~~((if x.slt 0#64 then ~~~(x <<< 1) else x <<< 1) >>> 1)
    else (if x.slt 0#64 then ~~~(x <<< 1) else x <<< 1) >>> 1) = x := by
  have hneg : x.slt 0#64 ↔ 2 ^ 63 ≤ x.toNat := by rw [slt_zero_eq_msb, msb_eq_decide]; simp
  have hodd : ∀ y : U64, y &&& 1#64 ≠ 0#64 ↔ y.toNat % 2 = 1 := fun y => by
    rw [Ne, ← toNat_inj, toNat_and, show (1#64).toNat = 1 from rfl, Nat.and_one_is_mod,
      show (0#64).toNat = 0 from rfl]
    omega
  simp only [hodd, hneg]
  apply eq_of_toNat_eq
  split_ifs with h1 h2 h2 <;>
    simp only [toNat_not, toNat_ushiftRight, toNat_shiftLeft, Nat.shiftLeft_eq,
      Nat.shiftRight_eq_div_pow] at * <;> omega

/-- **A signed varint is read back.** -/
theorem readVarint_append {r : BReader} (h : Wf r) {x : I64} {l : List Bool}
    (hr : rest r = bytesBits (putVarint x) ++ l) :
    ∃ r', readVarint r = (.ok x, r') ∧ Wf r' ∧ rest r' = l := by
  obtain ⟨r', h1, h2, h3⟩ := readUvarint_append h hr
  refine ⟨r', ?_, h2, h3⟩
  rw [readVarint, h1]
  simp only [Except.map]
  rw [unzigzag]

theorem length_putUvarintLoop_le (n : ℕ) (x : U64) : (putUvarintLoop n x).length ≤ n := by
  induction n generalizing x with
  | zero => simp [putUvarintLoop]
  | succ n ih =>
    rw [putUvarintLoop]
    split_ifs
    · simpa using ih _
    · simp

theorem length_putVarint_le (x : I64) : (putVarint x).length ≤ maxVarintLen64 :=
  length_putUvarintLoop_le _ _

end TopcDB.Chunkenc.Varint
