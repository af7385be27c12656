import TopcDB.Lib.Codec
import TopcDB.Chunkenc.Varint

/-! # Buffers of bytes (`tsdb/encoding`)

What the methods of `Encbuf` append is the string of bytes they are given here as. The methods of
`Decbuf` take their value off the front of the buffer. An error is final: later reads do nothing, so
that the loops of a decoder only run on, and the value they build is not used. -/

namespace TopcDB.Tsdb.Encoding

open List BitVec Lib.Bits Lib.Codec Go.Basic Chunkenc Bstream Varint

variable {α : Type}

/-- A slice or a string. Its length is an `int`; `nil` is the empty slice. -/
abbrev Slice (α : Type) := {l : List α // l.length < 2 ^ 63}

/-! ### `Encbuf` -/

def putByte (c : Byte) : List Byte := [c]

def putBE64 (x : U64) : List Byte := beBytes 8 x.toNat

def putUvarint64 (x : U64) : List Byte := putUvarint x

def putVarint64 (x : I64) : List Byte := putVarint x

def putUvarint32 (x : U32) : List Byte := putUvarint64 (x.setWidth 64)

/-- `PutUvarint(len(s))`. -/
def putLen (s : Slice α) : List Byte := putUvarint64 (BitVec.ofNat 64 s.1.length)

def putUvarintStr (s : Slice Byte) : List Byte := putLen s ++ s.1

/-- The length of a slice and then its elements. -/
def putSlice (put : α → List Byte) (s : Slice α) : List Byte := putLen s ++ s.1.flatMap put

/-! ### `Decbuf` -/

/-- `ErrInvalidSize`, or a slice expression out of range. -/
inductive DecErr
  | invalidSize
  | panic
  deriving DecidableEq

abbrev Dec (α : Type) := Reader Byte DecErr α

def byte : Dec Byte
  | [] => .error .invalidSize
  | c :: b => .ok (c, b)

def be64 : Dec U64 := fun b =>
  if b.length < 8 then .error .invalidSize
  else .ok (BitVec.ofNat 64 (beNat (b.take 8)), b.drop 8)

/-- `Uvarint` of `encoding/binary`, which `varint.Uvarint` is taken to be, from its byte `i` on,
with `n` bytes left: the number and the bytes behind it. -/
def uvarintLoop : ℕ → ℕ → U64 → List Byte → Option (U64 × List Byte)
  | 0, _, _, _ => none
  | _ + 1, _, _, [] => none
  | n + 1, i, x, b :: bs =>
    if b < 0x80#8 then
      if i = maxVarintLen64 - 1 ∧ b > 1#8 then none
      else some (x ||| (b.setWidth 64 <<< (7 * i)), bs)
    else uvarintLoop n (i + 1) (x ||| ((b &&& 0x7f#8).setWidth 64 <<< (7 * i))) bs

def uvarint64 : Dec U64 := fun b =>
  match uvarintLoop maxVarintLen64 0 0 b with
  | none => .error .invalidSize
  | some p => .ok p

def varint64 : Dec I64 := do
  let ux ← uvarint64
  pure (if ux &&& 1#64 ≠ 0#64 then ~~~(ux >>> 1) else ux >>> 1)

def uvarint32 : Dec U32 := do
  let x ← uvarint64
  pure (x.setWidth 32)

/-- The bytes `d.B[:l]` of `UvarintBytes`. -/
def take (l : U64) : Dec (Slice Byte) := fun b =>
  if (b.length : ℤ) < l.toInt then .error .invalidSize
  else if h : l.toNat < 2 ^ 63 then
    .ok (⟨b.take l.toNat, lt_of_le_of_lt (length_take_le _ _) h⟩, b.drop l.toNat)
  else .error .panic

def uvarintBytes : Dec (Slice Byte) := do
  let l ← uvarint64
  take l

theorem toNat_toInt_lt (l : I64) : l.toInt.toNat < 2 ^ 63 := by
  have := toInt_lt (x := l)
  omega

/-- The number of elements, an `int`, and then that many elements. -/
def slice (d : Dec α) : Dec (Slice α) := do
  let l ← uvarint64
  let v ← times d l.toInt.toNat
  pure ⟨v.1, by rw [v.2]; exact toNat_toInt_lt l⟩

/-! ### What was put is read -/

theorem reads_byte (c : Byte) : Reads byte (putByte c) c := fun _ => rfl

theorem reads_be64 (x : U64) : Reads be64 (putBE64 x) x := by
  intro rest
  have hlen : (putBE64 x).length = 8 := length_beBytes 8 _
  have hlt : ¬ (putBE64 x ++ rest).length < 8 := by
    rw [length_append]
    omega
  rw [be64, if_neg hlt, take_left' hlen, drop_left' hlen, putBE64, beNat_beBytes,
    Nat.mod_eq_of_lt x.isLt, ofNat_toNat, setWidth_eq]

/-- On a string of bytes the loop reads as it does through the reader of a chunk. -/
theorem uvarintLoop_of_read : ∀ (n i : ℕ) (x : U64) {r r' : BReader} {b b' : List Byte} {v : U64},
    Wf r → rest r = bytesBits b → readUvarintLoop n i x r = (.ok v, r') → rest r' = bytesBits b' →
    uvarintLoop n i x b = some (v, b')
  | 0, _, _, _, _, _, _, _, _, _, he, _ => by cases he
  | n + 1, i, x, r, r', [], b', v, _, hr, he, _ => by
    rw [readUvarintLoop, readByte_nil hr] at he
    cases he
  | n + 1, i, x, r, r', c :: b, b', v, hw, hr, he, hr' => by
    rw [bytesBits_cons] at hr
    obtain ⟨r1, h1, h2, h3⟩ := readByte_append hw hr
    rw [readUvarintLoop, h1] at he
    rw [uvarintLoop]
    by_cases hc : c < 0x80#8
    · simp only [if_pos hc] at he ⊢
      split_ifs at he ⊢
      · cases he
      · obtain ⟨hv, rfl⟩ := Prod.mk.inj he
        rw [Except.ok.inj hv, bytesBits_injective (h3.symm.trans hr')]
    · simp only [if_neg hc] at he ⊢
      exact uvarintLoop_of_read n (i + 1) _ h2 h3 he hr'

theorem reads_uvarint64 (x : U64) : Reads uvarint64 (putUvarint64 x) x := by
  intro rest
  obtain ⟨r', h1, -, h3⟩ := readUvarint_append (wf_newBReader (putUvarint x ++ rest))
    (x := x) (l := bytesBits rest) (by rw [rest_newBReader, bytesBits_append])
  rw [uvarint64, putUvarint64,
    uvarintLoop_of_read _ _ _ (wf_newBReader _) (rest_newBReader _) h1 h3]

theorem reads_varint64 (x : I64) : Reads varint64 (putVarint64 x) x := by
  have h := (reads_uvarint64 (if x.slt 0#64 then ~~~(x <<< 1) else x <<< 1)).ret
    fun ux => if ux &&& 1#64 ≠ 0#64 then ~~~(ux >>> 1) else ux >>> 1
  rw [unzigzag] at h
  exact h

theorem reads_uvarint32 (x : U32) : Reads uvarint32 (putUvarint32 x) x := by
  have h := (reads_uvarint64 (x.setWidth 64)).ret fun y => y.setWidth 32
  rw [setWidth_setWidth_of_le _ (by decide), setWidth_eq] at h
  exact h

theorem toNat_len (s : Slice α) : (BitVec.ofNat 64 s.1.length).toNat = s.1.length := by
  rw [toNat_ofNat]
  omega

theorem toInt_len (s : Slice α) : (BitVec.ofNat 64 s.1.length).toInt = s.1.length := by
  rw [toInt_eq_toNat_cond, toNat_len, if_pos (by omega)]

theorem reads_uvarintBytes (s : Slice Byte) : Reads uvarintBytes (putUvarintStr s) s := by
  refine (reads_uvarint64 _).bind fun rest => ?_
  have hlt : ¬ ((s.1 ++ rest).length : ℤ) < s.1.length := by
    rw [length_append]
    omega
  rw [take, toInt_len, if_neg hlt, dif_pos (by rw [toNat_len]; exact s.2)]
  simp only [toNat_len, take_left, drop_left]

theorem reads_slice {d : Dec α} {put : α → List Byte} (h : ∀ a, Reads d (put a) a) (s : Slice α) :
    Reads (slice d) (putSlice put s) s := by
  have hn : (BitVec.ofNat 64 s.1.length).toInt.toNat = s.1.length := by
    rw [toInt_len, Int.toNat_natCast]
  refine (reads_uvarint64 _).bind ?_
  exact (Reads.times_of_eq h hn).ret fun v => (⟨v.1, by rw [v.2]; exact toNat_toInt_lt _⟩ : Slice α)

end TopcDB.Tsdb.Encoding
