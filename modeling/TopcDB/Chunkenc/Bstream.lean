import TopcDB.Go.Basic
import TopcDB.Lib.Packed

/-! # The bit stream of a chunk (`bstream.go`)

A `BStream` is a byte slice whose last byte has `count` right-most bits still free. `Holds b l` says
that the bits written so far are `l` and that the free bits are zero; every write appends to `l`
(`Holds.writeBit`, `Holds.writeByte`, `Holds.writeBits`).

A `BReader` keeps up to eight bytes of its stream in `buffer`, of which the `valid` right-most bits
have not been read. `rest r` are the bits still to come; a read of at most `rest r` bits returns the
first of them and leaves the others (`readBit_cons`, `readBits_append`), and a read at the end
reports `io.EOF` (`readBit_nil`, `readBits_nil`). -/

namespace TopcDB.Chunkenc.Bstream

open List Lib.Bits Go.Basic

/-! ### Writing -/

/-- A stream of bits; `count` right-most bits of the last byte are free. -/
structure BStream where
  stream : List Byte
  count : ℕ
  deriving DecidableEq

/-- `s[len(s)-1] = f(s[len(s)-1])`. -/
def modifyLast (f : Byte → Byte) (s : List Byte) : List Byte := s.modify (s.length - 1) f

variable (b : BStream)

def writeBit (bit : Bool) : BStream :=
  let b := if b.count = 0 then { stream := b.stream ++ [0], count := 8 } else b
  { stream := if bit then modifyLast (· ||| (1#8 <<< (b.count - 1))) b.stream else b.stream,
    count := b.count - 1 }

def writeByte (byt : Byte) : BStream :=
  if b.count = 0 then { b with stream := b.stream ++ [byt] }
  else
    { b with stream := modifyLast (· ||| (byt >>> (8 - b.count))) b.stream ++ [byt <<< b.count] }

/-- The first loop of `writeBits`: the top byte of `u`, `k` times. -/
def writeBytesLoop : ℕ → U64 → BStream → U64 × BStream
  | 0, u, b => (u, b)
  | k + 1, u, b => writeBytesLoop k (u <<< 8) (writeByte b ((u >>> 56).setWidth 8))

/-- The second loop of `writeBits`: the top bit of `u`, `k` times. -/
def writeBitsLoop : ℕ → U64 → BStream → BStream
  | 0, _, b => b
  | k + 1, u, b => writeBitsLoop k (u <<< 1) (writeBit b (u >>> 63 == 1))

/-- `writeBits` writes the `nbits` right-most bits of `u`, from left to right. -/
def writeBits (u : U64) (nbits : ℕ) : BStream :=
  let p := writeBytesLoop (nbits / 8) (u <<< (64 - nbits)) b
  writeBitsLoop (nbits % 8) p.1 p.2

/-! ### What a stream holds -/

/-- The bits written to `b` are `l`, and the free bits of the last byte are zero. -/
structure Holds (l : List Bool) : Prop where
  count_le : b.count ≤ 8
  bits : bytesBits b.stream = l ++ replicate b.count false

theorem holds_empty (s : List Byte) : Holds ⟨s, 0⟩ (bytesBits s) := ⟨by simp, by simp⟩

variable {l l' : List Bool} {b : BStream}

theorem Holds.length (h : Holds b l) : 8 * b.stream.length = l.length + b.count := by
  have := congrArg List.length h.bits
  simpa using this

/-- With free bits there is a last byte; its written bits end `l`, its free bits are zero. -/
theorem Holds.split (h : Holds b l) (hc : b.count ≠ 0) :
    ∃ s x, b.stream = s ++ [x] ∧ x.toNat % 2 ^ b.count = 0 ∧
      l = bytesBits s ++ toBits (8 - b.count) (x.toNat / 2 ^ b.count) := by
  have hlen := h.length
  have hne : b.stream ≠ [] := by
    intro h0; rw [h0] at hlen; simp at hlen; omega
  obtain ⟨s, x, hsx⟩ := (eq_nil_or_concat b.stream).resolve_left hne
  rw [concat_eq_append] at hsx
  have hb := h.bits
  rw [hsx, bytesBits_append, bytesBits_cons, bytesBits_nil, append_nil,
    toBits_split h.count_le, ← append_assoc] at hb
  obtain ⟨h1, h2⟩ := append_inj' hb (by simp)
  refine ⟨s, x, hsx, ?_, h1.symm⟩
  have h3 := congrArg ofBits h2
  rw [ofBits_toBits] at h3
  rw [h3, ← toBits_eq_replicate (Nat.zero_mod _), ofBits_toBits, Nat.zero_mod]

theorem modifyLast_concat (f : Byte → Byte) (s : List Byte) (x : Byte) :
    modifyLast f (s ++ [x]) = s ++ [f x] := by
  have h : ∀ s : List Byte, (s ++ [x]).modify s.length f = s ++ [f x] := by
    intro s
    induction s with
    | nil => rfl
    | cons y s ih => simp [ih]
  rw [modifyLast, length_append, length_singleton, Nat.add_sub_cancel, h]

variable {x y c m n k v : ℕ}

/-- Filling the free bits of a byte with `y` of `k` bits, of which `c` fit. -/
theorem toBits_or_fill (hc : c ≤ 8) (hx : x % 2 ^ c = 0) (hy : y < 2 ^ c) :
    toBits 8 (x ||| y) = toBits (8 - c) (x / 2 ^ c) ++ toBits c y := by
  have hxe : x = 2 ^ c * (x / 2 ^ c) := (Nat.mul_div_cancel' (Nat.dvd_of_mod_eq_zero hx)).symm
  have hor : x ||| y = 2 ^ c * (x / 2 ^ c) + y := by
    rw [Nat.two_pow_add_eq_or_of_lt hy, ← hxe]
  rw [toBits_split hc, hor]
  congr 1
  · rw [Nat.mul_add_div (Nat.two_pow_pos c), Nat.div_eq_of_lt hy, Nat.add_zero]
  · rw [← toBits_mod le_rfl, Nat.mul_add_mod, Nat.mod_eq_of_lt hy]

theorem Holds.newByte (h : Holds b l) (hc : b.count = 0) : Holds ⟨b.stream ++ [0], 8⟩ l := by
  refine ⟨le_rfl, ?_⟩
  rw [bytesBits_append, h.bits, hc]; simp; rfl

/-- `n` of the free bits are filled with `y`. -/
theorem Holds.fill {z : Byte} (h : Holds b l) (hc : b.count ≠ 0) (hn : n ≤ b.count)
    (hy : y < 2 ^ n) (hz : z.toNat = y * 2 ^ (b.count - n) % 2 ^ 8) :
    Holds ⟨modifyLast (· ||| z) b.stream, b.count - n⟩ (l ++ toBits n y) := by
  have hc8 := h.count_le
  obtain ⟨s, x, hs, hx, hl⟩ := h.split hc
  have hlt : y * 2 ^ (b.count - n) < 2 ^ b.count := by
    rw [show 2 ^ b.count = 2 ^ n * 2 ^ (b.count - n) by rw [← pow_add]; congr 1; omega]
    exact Nat.mul_lt_mul_of_pos_right hy (Nat.two_pow_pos _)
  rw [Nat.mod_eq_of_lt (hlt.trans_le (Nat.pow_le_pow_right (by omega) hc8))] at hz
  refine ⟨(Nat.sub_le _ _).trans hc8, ?_⟩
  rw [hs, modifyLast_concat, bytesBits_append, bytesBits_cons, bytesBits_nil, BitVec.toNat_or, hz,
    toBits_or_fill hc8 hx hlt, hl, toBits_split (Nat.sub_le _ n) (y * _),
    Nat.mul_div_cancel _ (Nat.two_pow_pos _), toBits_eq_replicate (Nat.mul_mod_left _ _),
    Nat.sub_sub_self hn]
  simp

theorem Holds.writeBit (h : Holds b l) (bit : Bool) : Holds (writeBit b bit) (l ++ [bit]) := by
  -- after the first statement of `writeBit` there is a free bit
  obtain ⟨b', hb', h', hc⟩ : ∃ b' : BStream,
      (if b.count = 0 then { stream := b.stream ++ [0], count := 8 } else b) = b' ∧
      Holds b' l ∧ b'.count ≠ 0 := by
    by_cases hc : b.count = 0
    · exact ⟨_, if_pos hc, h.newByte hc, by simp⟩
    · exact ⟨_, if_neg hc, h, hc⟩
  rw [Bstream.writeBit, hb']
  cases bit with
  | true =>
    refine h'.fill (n := 1) (y := 1) hc (by omega) (by decide) ?_
    rw [BitVec.toNat_shiftLeft, Nat.shiftLeft_eq]
    rfl
  | false =>
    have := h'.fill (z := 0#8) (n := 1) (y := 0) hc (by omega) (by decide) (by simp)
    rwa [show (· ||| 0#8) = id from funext fun _ => BitVec.or_zero, modifyLast, modify_id] at this

theorem Holds.writeByte (h : Holds b l) (byt : Byte) :
    Holds (writeByte b byt) (l ++ toBits 8 byt.toNat) := by
  unfold Bstream.writeByte
  split_ifs with hc
  · refine ⟨h.count_le, ?_⟩
    rw [bytesBits_append, h.bits, hc]; simp
  · have hc8 := h.count_le
    refine ⟨hc8, ?_⟩
    -- the left `count` bits of `byt` complete the last byte, the others start the next one
    have hhi : (byt >>> (8 - b.count)).toNat = byt.toNat / 2 ^ (8 - b.count) := by
      rw [BitVec.toNat_ushiftRight, Nat.shiftRight_eq_div_pow]
    have hlt : byt.toNat / 2 ^ (8 - b.count) < 2 ^ b.count := by
      rw [Nat.div_lt_iff_lt_mul (Nat.two_pow_pos _), ← pow_add, Nat.add_sub_cancel' hc8]
      exact byt.isLt
    have hlo : toBits 8 (byt <<< b.count).toNat =
        toBits (8 - b.count) byt.toNat ++ replicate b.count false := by
      rw [BitVec.toNat_shiftLeft, toBits_mod le_rfl, Nat.shiftLeft_eq, toBits_split hc8,
        Nat.mul_div_cancel _ (Nat.two_pow_pos _), toBits_eq_replicate (Nat.mul_mod_left _ _)]
    have hfill := h.fill (z := byt >>> (8 - b.count)) hc le_rfl hlt (by
      rw [Nat.sub_self, pow_zero, mul_one, ← hhi, Nat.mod_eq_of_lt (BitVec.isLt _)])
    rw [bytesBits_append, hfill.bits, bytesBits_cons, hlo,
      toBits_split (Nat.sub_le 8 b.count) byt.toNat, Nat.sub_sub_self hc8]
    simp

/-- The `n` left-most bits of a 64-bit word. -/
def topBits (n : ℕ) (u : U64) : List Bool := toBits n (u.toNat / 2 ^ (64 - n))

theorem topBits_add (h : m + n ≤ 64) (u : U64) :
    topBits (m + n) u = topBits m u ++ topBits n (u <<< m) := by
  unfold topBits
  rw [toBits_add, Nat.div_div_eq_div_mul, ← pow_add, show 64 - (m + n) + n = 64 - m by omega]
  congr 1
  refine toBits_congr fun i hi => ?_
  rw [Nat.testBit_div_two_pow, Nat.testBit_div_two_pow, BitVec.toNat_shiftLeft,
    Nat.testBit_mod_two_pow, Nat.testBit_shiftLeft]
  simp only [show i + (64 - n) < 64 by omega, show i + (64 - n) ≥ m by omega, decide_true,
    Bool.true_and]
  congr 1
  omega

theorem Holds.writeBytesLoop (hk : 8 * k ≤ 64) : ∀ {b : BStream} {l : List Bool},
    Holds b l → ∀ u : U64, Holds (writeBytesLoop k u b).2 (l ++ topBits (8 * k) u) ∧
      (writeBytesLoop k u b).1 = u <<< (8 * k) := by
  induction k with
  | zero => intro b l h u; simpa [Bstream.writeBytesLoop, topBits] using h
  | succ k ih =>
    intro b l h u
    obtain ⟨h1, h2⟩ := ih (by omega) (h.writeByte ((u >>> 56).setWidth 8)) (u <<< 8)
    refine ⟨?_, ?_⟩
    · rw [show 8 * (k + 1) = 8 + 8 * k by ring, topBits_add (by omega), ← append_assoc]
      have hb : toBits 8 ((u >>> 56).setWidth 8).toNat = topBits 8 u := by
        rw [BitVec.toNat_setWidth, toBits_mod le_rfl, BitVec.toNat_ushiftRight,
          Nat.shiftRight_eq_div_pow]
        rfl
      rw [← hb]; exact h1
    · rw [show 8 * (k + 1) = 8 + 8 * k by ring, BitVec.shiftLeft_add]; exact h2

theorem Holds.writeBitsLoop (hk : k ≤ 64) : ∀ {b : BStream} {l : List Bool},
    Holds b l → ∀ u : U64, Holds (writeBitsLoop k u b) (l ++ topBits k u) := by
  induction k with
  | zero => intro b l h u; simpa [Bstream.writeBitsLoop, topBits] using h
  | succ k ih =>
    intro b l h u
    have h1 := ih (by omega) (h.writeBit (u >>> 63 == 1)) (u <<< 1)
    have hb : topBits 1 u = [u >>> 63 == 1] := by
      have hlt : u.toNat / 2 ^ 63 < 2 := by have := u.isLt; omega
      rw [topBits, toBits_succ, toBits_zero, Nat.testBit_zero]
      congr 1
      rw [Bool.eq_iff_iff, decide_eq_true_eq, beq_iff_eq, ← BitVec.toNat_inj,
        BitVec.toNat_ushiftRight, Nat.shiftRight_eq_div_pow, Nat.mod_eq_of_lt hlt]
      rfl
    have hsplit : topBits (k + 1) u = [u >>> 63 == 1] ++ topBits k (u <<< 1) := by
      rw [Nat.add_comm, topBits_add (by omega), hb]
    rw [hsplit, ← append_assoc]
    exact h1

/-- **`writeBits` appends the `n` right-most bits of `u`.** -/
theorem Holds.writeBits (h : Holds b l) (u : U64) (hn : n ≤ 64) :
    Holds (writeBits b u n) (l ++ toBits n u.toNat) := by
  obtain ⟨h1, h2⟩ := h.writeBytesLoop (k := n / 8) (by omega) (u <<< (64 - n))
  have h3 := h1.writeBitsLoop (k := n % 8) (by omega) ((u <<< (64 - n)) <<< (8 * (n / 8)))
  have hn8 : 8 * (n / 8) + n % 8 = n := Nat.div_add_mod n 8
  rw [append_assoc, ← topBits_add (by omega), hn8] at h3
  have hu : topBits n (u <<< (64 - n)) = toBits n u.toNat := by
    refine toBits_congr fun i hi => ?_
    rw [Nat.testBit_div_two_pow, BitVec.toNat_shiftLeft, Nat.testBit_mod_two_pow,
      Nat.testBit_shiftLeft]
    simp only [show i + (64 - n) < 64 by omega, show i + (64 - n) ≥ 64 - n by omega, decide_true,
      Bool.true_and, Nat.add_sub_cancel]
  rw [hu] at h3
  unfold Bstream.writeBits
  simp only [h2]
  exact h3

/-! ### The free bits -/

/-- **Writing one item after the other** writes their bits one after the other. -/
theorem Holds.foldl {α : Type} {f : BStream → α → BStream} {bits : α → List Bool}
    (hf : ∀ (a : α) {b : BStream} {l : List Bool}, Holds b l → Holds (f b a) (l ++ bits a))
    (as : List α) (h : Holds b l) : Holds (as.foldl f b) (l ++ as.flatMap bits) := by
  induction as generalizing b l with
  | nil => simpa using h
  | cons a as ih => simpa using ih (hf a h)

theorem toNat_ofNat_pred (h0 : 0 < n) (hn : n < 2 ^ 64) :
    (BitVec.ofNat 64 n - 1#64).toNat = n - 1 := by
  rw [BitVec.toNat_sub, BitVec.toNat_ofNat, BitVec.toNat_ofNat]; omega

theorem count_writeBit_lt (h : b.count ≤ 8) (bit : Bool) : (writeBit b bit).count < 8 := by
  by_cases hc : b.count = 0
  · simp [writeBit, hc]
  · simp only [writeBit, if_neg hc]; omega

@[simp] theorem count_writeByte (b : BStream) (byt : Byte) : (writeByte b byt).count = b.count := by
  unfold writeByte; split_ifs <;> rfl

theorem count_writeBytesLoop (k : ℕ) (u : U64) (b : BStream) :
    (writeBytesLoop k u b).2.count = b.count := by
  induction k generalizing u b with
  | zero => rfl
  | succ k ih => rw [writeBytesLoop, ih, count_writeByte]

theorem count_writeBitsLoop_lt {u : U64} (h : b.count < 8) : (writeBitsLoop k u b).count < 8 := by
  induction k generalizing u b with
  | zero => exact h
  | succ k ih => exact ih (count_writeBit_lt h.le _)

theorem count_writeBits_lt (h : b.count < 8) (u : U64) (n : ℕ) : (writeBits b u n).count < 8 :=
  count_writeBitsLoop_lt (by rw [count_writeBytesLoop]; exact h)

/-- The bits say what the stream is, unless a whole byte of it is free. -/
theorem Holds.unique (h : Holds b l) (h' : Holds b' l) (hc : b.count < 8) (hc' : b'.count < 8) :
    b = b' := by
  have hlen := h.length
  have hlen' := h'.length
  obtain ⟨s, c⟩ := b
  obtain ⟨s', c'⟩ := b'
  obtain rfl : c = c' := by simp only at *; omega
  obtain rfl := bytesBits_injective (h.bits.trans h'.bits.symm)
  rfl

/-! ### Reading -/

/-- A reader: the `valid` right-most bits of `buffer` are unread, then `stream` from `streamOffset`
on; `last` is a copy of the last byte. -/
structure BReader where
  stream : List Byte
  streamOffset : ℕ
  buffer : U64
  valid : ℕ
  last : Byte
  deriving DecidableEq

def newBReader (b : List Byte) : BReader :=
  { stream := b, streamOffset := 0, buffer := 0, valid := 0, last := b.getLastD 0 }

/-- The loop of `loadNextBuffer`: byte `i` goes to bit `8 * (nbytes - i - 1)`. -/
def orBytes : List Byte → ℕ → U64 → U64
  | [], _, buffer => buffer
  | x :: xs, nbytes, buffer =>
    orBytes xs (nbytes - 1) (buffer ||| (x.setWidth 64 <<< (8 * (nbytes - 1))))

variable (r : BReader)

/-- `loadNextBuffer` loads at least `nbits` bits, if there are as many; `none` is its `false`. -/
def loadNextBuffer (nbits : ℕ) : Option BReader :=
  if r.streamOffset ≥ r.stream.length then none
  else if r.streamOffset + 8 < r.stream.length then
    some { r with
      buffer := BitVec.ofNat 64 (beNat ((r.stream.drop r.streamOffset).take 8))
      streamOffset := r.streamOffset + 8
      valid := 64 }
  else
    let nbytes := min (nbits / 8 + 1) (r.stream.length - r.streamOffset)
    let atEnd := r.streamOffset + nbytes = r.stream.length
    let skip := if atEnd then 1 else 0
    let buffer : U64 := if atEnd then r.last.setWidth 64 else 0
    some { r with
      buffer := orBytes ((r.stream.drop r.streamOffset).take (nbytes - skip)) nbytes buffer
      streamOffset := r.streamOffset + nbytes
      valid := nbytes * 8 }

def readBitFast : Except Err Bool × BReader :=
  if r.valid = 0 then (.error .eof, r)
  else
    let r := { r with valid := r.valid - 1 }
    (.ok ((r.buffer &&& (1#64 <<< r.valid)) != 0), r)

def readBit : Except Err Bool × BReader :=
  if r.valid = 0 then
    match loadNextBuffer r 1 with
    | none => (.error .eof, r)
    | some r => readBitFast r
  else readBitFast r

def readBitsFast (nbits : ℕ) : Except Err U64 × BReader :=
  if nbits > r.valid then (.error .eof, r)
  else
    let r := { r with valid := r.valid - nbits }
    (.ok ((r.buffer >>> r.valid) &&& ((1#64 <<< nbits) - 1)), r)

def readBits (nbits : ℕ) : Except Err U64 × BReader :=
  match if r.valid = 0 then loadNextBuffer r nbits else some r with
  | none => (.error .eof, r)
  | some r =>
    if nbits ≤ r.valid then readBitsFast r nbits
    else
      let n := nbits - r.valid
      let v := (r.buffer &&& ((1#64 <<< r.valid) - 1)) <<< n
      match loadNextBuffer { r with valid := 0 } n with
      | none => (.error .eof, { r with valid := 0 })
      | some r =>
        -- `valid - nbits` is a `uint8`: it wraps when the stream ends within the value
        let valid := (r.valid + 256 - n) % 256
        (.ok (v ||| ((r.buffer >>> valid) &&& ((1#64 <<< n) - 1))), { r with valid := valid })

def readByte (r : BReader) : Except Err Byte × BReader :=
  let p := readBits r 8
  (p.1.map (·.setWidth 8), p.2)

/-! ### What a reader still has to read -/

/-- The bits a reader has not returned. -/
def rest (r : BReader) : List Bool :=
  toBits r.valid r.buffer.toNat ++ bytesBits (r.stream.drop r.streamOffset)

/-- The buffer has at most 64 unread bits, and `last` is the last byte. -/
structure Wf (r : BReader) : Prop where
  valid_le : r.valid ≤ 64
  last_eq : r.last = r.stream.getLastD 0

theorem wf_newBReader (b : List Byte) : Wf (newBReader b) := ⟨by simp [newBReader], rfl⟩

@[simp] theorem rest_newBReader (b : List Byte) : rest (newBReader b) = bytesBits b := by
  simp [rest, newBReader]

theorem orBytes_acc (l : List Byte) (n : ℕ) (a : U64) : orBytes l n a = a ||| orBytes l n 0#64 := by
  induction l generalizing n a with
  | nil => simp [orBytes]
  | cons x l ih =>
    rw [orBytes, orBytes, ih, ih (n - 1) (0#64 ||| _), ← BitVec.or_assoc, ← BitVec.or_assoc]
    simp

theorem beNat_cons (x : Byte) (l : List Byte) :
    beNat (x :: l) = x.toNat * 2 ^ (8 * l.length) + beNat l := by
  rw [beNat_eq_ofBits, beNat_eq_ofBits, bytesBits_cons, ofBits_append, ofBits_toBits,
    Nat.mod_eq_of_lt x.isLt, length_bytesBits]

theorem beNat_lt (l : List Byte) : beNat l < 2 ^ (8 * l.length) := by
  have := ofBits_lt (bytesBits l)
  rwa [← beNat_eq_ofBits, length_bytesBits] at this

theorem toBits_beNat (l : List Byte) : toBits (8 * l.length) (beNat l) = bytesBits l := by
  rw [beNat_eq_ofBits, ← length_bytesBits, toBits_ofBits]

theorem toNat_orBytes : ∀ l : List Byte, l.length ≤ 8 → (orBytes l l.length 0#64).toNat = beNat l
  | [], _ => rfl
  | x :: l, h => by
    have hlt := (beNat_lt (x :: l)).trans_le
      (Nat.pow_le_pow_right (by decide) (Nat.mul_le_mul_left 8 h))
    rw [beNat_cons] at hlt
    have hx : (x.setWidth 64 <<< (8 * l.length)).toNat = x.toNat * 2 ^ (8 * l.length) := by
      rw [BitVec.toNat_shiftLeft, Nat.shiftLeft_eq, BitVec.toNat_setWidth_of_le (by decide)]
      exact Nat.mod_eq_of_lt (by omega)
    rw [length_cons, orBytes, orBytes_acc, Nat.add_sub_cancel, BitVec.zero_or, BitVec.toNat_or, hx,
      toNat_orBytes l (Nat.le_of_succ_le h), Nat.mul_comm,
      ← Nat.two_pow_add_eq_or_of_lt (beNat_lt l), beNat_cons, Nat.mul_comm]

/-- The last byte may also be put into the buffer at first. -/
theorem orBytes_concat (l : List Byte) (x : Byte) (a : U64) :
    orBytes (l ++ [x]) (l.length + 1) a = orBytes l (l.length + 1) (a ||| x.setWidth 64) := by
  induction l generalizing a with
  | nil => simp [orBytes]
  | cons y l ih =>
    rw [cons_append, length_cons, orBytes, orBytes, Nat.add_sub_cancel, ih]
    congr 1
    ac_rfl

variable {r : BReader}

/-- Loading keeps the bits to come, and brings `n` of them, or all, into the buffer. -/
theorem load_spec (h : Wf r) (hv : r.valid = 0) (hn : n ≤ 64) :
    (rest r = [] ∧ loadNextBuffer r n = none) ∨
    ∃ r', loadNextBuffer r n = some r' ∧ Wf r' ∧ rest r' = rest r ∧ 0 < r'.valid ∧
      (n ≤ r'.valid ∨ r'.valid = (rest r).length) := by
  have hrest : rest r = bytesBits (r.stream.drop r.streamOffset) := by simp [rest, hv]
  unfold loadNextBuffer
  split_ifs with h0 h8
  · left
    refine ⟨?_, rfl⟩
    rw [hrest, drop_eq_nil_of_le h0]; rfl
  · right
    refine ⟨_, rfl, ⟨le_rfl, h.last_eq⟩, ?_, by simp, Or.inl hn⟩
    have hlen : ((r.stream.drop r.streamOffset).take 8).length = 8 := by simp; omega
    have hbits := toBits_beNat ((r.stream.drop r.streamOffset).take 8)
    rw [hlen] at hbits
    rw [hrest]
    simp only [rest, BitVec.toNat_ofNat, toBits_mod le_rfl]
    rw [hbits, ← bytesBits_append, ← drop_drop, take_append_drop]
  · right
    set d := r.stream.drop r.streamOffset with hd
    set k := min (n / 8 + 1) (r.stream.length - r.streamOffset)
    have hk8 : k ≤ 8 := by omega
    have hdl : d.length = r.stream.length - r.streamOffset := by simp [hd]
    have hd' : r.stream.drop (r.streamOffset + k) = d.drop k := by rw [hd, drop_drop]
    have hl1 : (d.take k).length = k := by simp; omega
    -- the buffer is the first `k` bytes, the last of them taken from the copy
    have hbuf : (orBytes (d.take (k - if r.streamOffset + k = r.stream.length then 1 else 0)) k
        (if r.streamOffset + k = r.stream.length then r.last.setWidth 64 else 0)).toNat =
        beNat (d.take k) := by
      rw [← toNat_orBytes _ (by omega), hl1]
      split_ifs with hend
      · have hg : d.getLast? = r.stream.getLast? := by rw [hd, getLast?_drop, if_neg (by omega)]
        obtain ⟨s, x, hsx⟩ :=
          (eq_nil_or_concat' d).resolve_left (length_pos_iff.1 (by omega))
        have hx : r.last = x := by
          rw [h.last_eq, getLastD_eq_getLast?, ← hg, hsx]; simp
        have hks : k = s.length + 1 := by rw [hsx, length_append] at hdl; simp at hdl; omega
        rw [hsx, hx, hks, Nat.add_sub_cancel, take_left, take_of_length_le (by simp),
          orBytes_concat, BitVec.zero_or]
      · rfl
    refine ⟨_, rfl, ⟨by simp only; omega, h.last_eq⟩, ?_, by simp only; omega, ?_⟩
    · rw [hrest]
      simp only [rest, hbuf, hd']
      have hbits := toBits_beNat (d.take k)
      rw [hl1, Nat.mul_comm] at hbits
      rw [hbits, ← bytesBits_append, take_append_drop]
    · rw [hrest, length_bytesBits, hdl]
      simp only
      omega

/-- The unread bits after `n` of the `v` in the buffer are read. -/
theorem buffer_split (h : n ≤ v) (x : U64) :
    toBits v x.toNat = toBits n (x >>> (v - n)).toNat ++ toBits (v - n) x.toNat := by
  rw [toBits_split (show v - n ≤ v by omega), Nat.sub_sub_self h, BitVec.toNat_ushiftRight,
    Nat.shiftRight_eq_div_pow]

theorem and_mask (x : U64) (hn : n ≤ 64) :
    x &&& ((1#64 <<< n) - 1) = BitVec.ofNat 64 (ofBits (toBits n x.toNat)) := by
  have hmask : ((1#64 <<< n) - 1).toNat = 2 ^ n - 1 := Lib.Packed.toNat_mask (by decide) hn
  apply BitVec.eq_of_toNat_eq
  rw [BitVec.toNat_and, hmask, Nat.and_two_pow_sub_one_eq_mod, ofBits_toBits, BitVec.toNat_ofNat]
  exact (Nat.mod_eq_of_lt (lt_of_le_of_lt (Nat.mod_le _ _) x.isLt)).symm

theorem toNat_ofBits (h : l.length ≤ 64) : (BitVec.ofNat 64 (ofBits l)).toNat = ofBits l := by
  rw [BitVec.toNat_ofNat]
  exact Nat.mod_eq_of_lt ((ofBits_lt l).trans_le (Nat.pow_le_pow_right (by decide) h))

theorem ofNat_shiftLeft_or (h : l.length + l'.length ≤ 64) :
    BitVec.ofNat 64 (ofBits l) <<< l'.length ||| BitVec.ofNat 64 (ofBits l') =
      BitVec.ofNat 64 (ofBits (l ++ l')) := by
  have happ := toNat_ofBits (l := l ++ l') (by simpa using h)
  apply BitVec.eq_of_toNat_eq
  have hlt := ofBits_lt (l ++ l')
  have h64 : 2 ^ (l ++ l').length ≤ 2 ^ 64 := Nat.pow_le_pow_right (by decide) (by simpa using h)
  rw [BitVec.toNat_or, BitVec.toNat_shiftLeft, happ, toNat_ofBits (by omega),
    toNat_ofBits (by omega), Nat.shiftLeft_eq, ofBits_append]
  rw [ofBits_append] at hlt
  rw [Nat.mod_eq_of_lt (by omega), Nat.mul_comm, ← Nat.two_pow_add_eq_or_of_lt (ofBits_lt l')]

theorem readBitsFast_append (h : Wf r) (hr : rest r = l ++ l') (hl : l.length ≤ r.valid) :
    ∃ r', readBitsFast r l.length = (.ok (BitVec.ofNat 64 (ofBits l)), r') ∧ Wf r' ∧
      rest r' = l' := by
  have hv := h.valid_le
  unfold readBitsFast
  rw [if_neg (by omega)]
  have hr' := hr
  rw [rest, buffer_split hl, append_assoc] at hr'
  obtain ⟨h1, h2⟩ := append_inj hr' (by simp)
  refine ⟨{ r with valid := r.valid - l.length }, ?_, ⟨by simp only; omega, h.last_eq⟩, h2⟩
  simp only
  rw [and_mask _ (by omega), h1]

theorem readBits_append (h : Wf r) (hr : rest r = l ++ l') (h0 : l ++ l' ≠ [])
    (hl : l.length ≤ 64) :
    ∃ r', readBits r l.length = (.ok (BitVec.ofNat 64 (ofBits l)), r') ∧ Wf r' ∧ rest r' = l' := by
  -- the buffer is loaded first if it is empty
  obtain ⟨r1, hr1, hw1, hrest1, hv1, hor1⟩ : ∃ r1, (if r.valid = 0 then loadNextBuffer r l.length
      else some r) = some r1 ∧ Wf r1 ∧ rest r1 = l ++ l' ∧ 0 < r1.valid ∧
      (l.length ≤ r1.valid ∨ 0 < r.valid ∨ r1.valid = (l ++ l').length) := by
    by_cases hv : r.valid = 0
    · rcases load_spec h hv hl with ⟨he, -⟩ | ⟨r', h1, h2, h3, h4, h5⟩
      · exact absurd (hr.symm.trans he) h0
      · refine ⟨r', by rw [if_pos hv, h1], h2, by rw [h3, hr], h4, ?_⟩
        rw [hr] at h5
        exact h5.imp_right Or.inr
    · exact ⟨r, if_neg hv, h, hr, by omega, Or.inr (Or.inl (by omega))⟩
  unfold readBits
  rw [hr1]
  by_cases hfit : l.length ≤ r1.valid
  · obtain ⟨r', h1, h2, h3⟩ := readBitsFast_append hw1 hrest1 hfit
    exact ⟨r', by simp only [if_pos hfit, h1], h2, h3⟩
  · -- the value ends in the next buffer
    simp only [if_neg hfit]
    obtain ⟨l1, l2, rfl, hl1⟩ : ∃ l1 l2, l = l1 ++ l2 ∧ l1.length = r1.valid :=
      ⟨l.take r1.valid, l.drop r1.valid, (take_append_drop _ _).symm, by simp; omega⟩
    rw [rest, append_assoc] at hrest1
    obtain ⟨hb1, hb2⟩ := append_inj hrest1 (by simp [hl1])
    have hn : (l1 ++ l2).length - r1.valid = l2.length := by simp [hl1]
    rw [hn]
    have hl2 : 0 < l2.length := by omega
    have hw0 : Wf { r1 with valid := 0 } := ⟨by simp, hw1.last_eq⟩
    have hrest0 : rest { r1 with valid := 0 } = l2 ++ l' := by simp [rest, hb2]
    simp only [length_append] at hl
    rcases load_spec hw0 rfl (n := l2.length) (by omega) with ⟨he, -⟩ | ⟨r2, h1, h2, h3, h4, h5⟩
    · rw [hrest0] at he; simp at he; rw [he.1] at hl2; simp at hl2
    · rw [h1]
      rw [hrest0] at h3 h5
      have hv2 : l2.length ≤ r2.valid := by
        rcases h5 with h5 | h5
        · exact h5
        · rw [h5]; simp
      have hv2' := h2.valid_le
      have hval : (r2.valid + 256 - l2.length) % 256 = r2.valid - l2.length := by omega
      simp only [hval]
      have h3' := h3
      rw [rest, buffer_split hv2, append_assoc] at h3'
      obtain ⟨hc1, hc2⟩ := append_inj h3' (by simp)
      refine ⟨{ r2 with valid := r2.valid - l2.length }, ?_, ⟨by simp only; omega, h2.last_eq⟩, hc2⟩
      rw [and_mask _ (by omega), and_mask _ (by omega), hc1, hb1]
      congr 2
      exact ofNat_shiftLeft_or hl

theorem readBits_toBits (h : Wf r) (hr : rest r = toBits n x ++ l) (h0 : 0 < n) (hn : n ≤ 64) :
    ∃ r', readBits r n = (.ok (BitVec.ofNat 64 (x % 2 ^ n)), r') ∧ Wf r' ∧ rest r' = l := by
  have hlen := length_toBits n x
  have := readBits_append h hr (append_ne_nil_of_left_ne_nil (length_pos_iff.1 (by omega)) l)
    (by omega)
  rwa [hlen, ofBits_toBits] at this

theorem load_nil (hr : rest r = []) (n : ℕ) : r.valid = 0 ∧ loadNextBuffer r n = none := by
  rw [rest, append_eq_nil_iff] at hr
  have hv : r.valid = 0 := by have := congrArg List.length hr.1; simpa using this
  have ho : r.streamOffset ≥ r.stream.length := by
    have := congrArg List.length hr.2
    simp at this; omega
  exact ⟨hv, by rw [loadNextBuffer, if_pos ho]⟩

theorem readBits_nil (hr : rest r = []) (n : ℕ) : readBits r n = (.error .eof, r) := by
  obtain ⟨hv, hload⟩ := load_nil hr n
  unfold readBits
  rw [if_pos hv, hload]

theorem and_bit_ne_zero (h : v < 64) (x : U64) :
    ((x &&& (1#64 <<< v)) != 0) = x.toNat.testBit v := by
  have hne : BitVec.twoPow 64 v ≠ 0 := fun h0 => by
    have := congrArg BitVec.toNat h0
    rw [BitVec.toNat_twoPow_of_lt h] at this
    exact (Nat.two_pow_pos v).ne' this
  rw [← BitVec.twoPow_eq, BitVec.and_twoPow, BitVec.testBit_toNat]
  split_ifs with hb
  · rw [hb, bne_iff_ne]
    exact hne
  · simp [hb]

theorem readBit_cons (h : Wf r) {x : Bool} (hr : rest r = x :: l) :
    ∃ r', readBit r = (.ok x, r') ∧ Wf r' ∧ rest r' = l := by
  have fast : ∀ {r : BReader}, Wf r → rest r = x :: l → r.valid ≠ 0 →
      ∃ r', readBitFast r = (.ok x, r') ∧ Wf r' ∧ rest r' = l := by
    intro r h hr hv
    have hv64 := h.valid_le
    obtain ⟨v, hv'⟩ := Nat.exists_eq_succ_of_ne_zero hv
    rw [rest, hv', Nat.succ_eq_add_one, toBits_succ, cons_append] at hr
    obtain ⟨h1, h2⟩ := cons.inj hr
    unfold readBitFast
    rw [if_neg hv]
    refine ⟨{ r with valid := v }, ?_, ⟨by simp only; omega, h.last_eq⟩, h2⟩
    simp only [hv', Nat.succ_eq_add_one, Nat.add_sub_cancel]
    congr 2
    rw [← h1, and_bit_ne_zero (by omega)]
  unfold readBit
  by_cases hv : r.valid = 0
  · rw [if_pos hv]
    rcases load_spec h hv (n := 1) (by decide) with ⟨he, -⟩ | ⟨r', h1, h2, h3, h4, -⟩
    · rw [hr] at he; simp at he
    · rw [h1]; exact fast h2 (by rw [h3, hr]) (by omega)
  · rw [if_neg hv]; exact fast h hr hv

theorem readBit_nil (hr : rest r = []) : readBit r = (.error .eof, r) := by
  obtain ⟨hv, hload⟩ := load_nil hr 1
  unfold readBit
  rw [if_pos hv, hload]

theorem readByte_append (h : Wf r) {x : Byte} (hr : rest r = toBits 8 x.toNat ++ l) :
    ∃ r', readByte r = (.ok x, r') ∧ Wf r' ∧ rest r' = l := by
  obtain ⟨r', h1, h2, h3⟩ := readBits_append h hr (by simp [toBits]) (by simp)
  rw [length_toBits] at h1
  refine ⟨r', ?_, h2, h3⟩
  rw [readByte, h1, ofBits_toBits, Nat.mod_eq_of_lt x.isLt]
  simp [Except.map]

theorem readByte_nil (hr : rest r = []) : readByte r = (.error .eof, r) := by
  rw [readByte, readBits_nil hr]; rfl

/-! ### The fast reads

The timestamp decoder tries `readBitFast` and `readBitsFast` first and falls back on the full read
when they report that the buffer is too short. -/

def readBitOrFast (r : BReader) : Except Err Bool × BReader :=
  match readBitFast r with
  | (.ok bit, r) => (.ok bit, r)
  | (.error _, r) => readBit r

def readBitsOrFast (r : BReader) (nbits : ℕ) : Except Err U64 × BReader :=
  match readBitsFast r nbits with
  | (.ok bits, r) => (.ok bits, r)
  | (.error _, r) => readBits r nbits

theorem readBitOrFast_eq (r : BReader) : readBitOrFast r = readBit r := by
  by_cases h : r.valid = 0
  · rw [readBitOrFast, readBitFast, if_pos h]
  · rw [readBitOrFast, readBit, readBitFast, if_neg h, if_neg h]

theorem readBitsOrFast_eq (r : BReader) (hn : 0 < n) : readBitsOrFast r n = readBits r n := by
  unfold readBitsOrFast
  by_cases h : n > r.valid
  · rw [readBitsFast, if_pos h]
  · rw [readBits, if_neg (by omega)]
    simp only [if_pos (not_lt.1 h)]
    rw [readBitsFast, if_neg h]

/-! ### Any sequence of operations -/

/-- An operation of the writer, with whether the matching read is tried in its fast form first. -/
inductive BitOp
  | bit (x fast : Bool)
  | byte (x : Byte)
  | bits (v : U64) (n : Fin 65) (fast : Bool)

namespace BitOp

def write (b : BStream) : BitOp → BStream
  | bit x _ => writeBit b x
  | byte x => writeByte b x
  | bits v n _ => writeBits b v n

def written : BitOp → List Bool
  | bit x _ => [x]
  | byte x => toBits 8 x.toNat
  | bits v n _ => toBits n v.toNat

/-- The matching read returns what was written: of `bits`, the `n` right-most bits. -/
def Returns (r r' : BReader) : BitOp → Prop
  | bit x fast => (if fast then readBitOrFast r else readBit r) = (.ok x, r')
  | byte x => readByte r = (.ok x, r')
  | bits v n fast => (if fast then readBitsOrFast r n else readBits r n) =
      (.ok (BitVec.ofNat 64 (v.toNat % 2 ^ n.1)), r')

end BitOp

/-- Every read of the sequence returns what was written. -/
def ReadsBack : List BitOp → BReader → Prop
  | [], _ => True
  | op :: ops, r => ∃ r', op.Returns r r' ∧ ReadsBack ops r'

/-- A plain `readBits(0)` behind the last bit. -/
def EmptyTail (ops : List BitOp) : Prop :=
  ∃ v post, .bits v 0 false :: post <:+ ops ∧ post.flatMap BitOp.written = []

variable {op : BitOp}

theorem Holds.write (h : Holds b l) (op : BitOp) : Holds (op.write b) (l ++ op.written) := by
  cases op with
  | bit x _ => exact h.writeBit x
  | byte x => exact h.writeByte x
  | bits v n _ => exact h.writeBits v (by omega)

theorem count_write_lt (h : b.count < 8) (op : BitOp) : (op.write b).count < 8 := by
  cases op with
  | bit x _ => exact count_writeBit_lt h.le x
  | byte x => exact (count_writeByte b x).trans_lt h
  | bits v n _ => exact count_writeBits_lt h v n

/-- A read that finds its bits, or need not look for them, returns them. -/
theorem returns_written (h : Wf r) (hr : rest r = op.written ++ l)
    (hne : rest r = [] → ∀ v, op ≠ .bits v 0 false) :
    ∃ r', (∀ r'', op.Returns r r'' ↔ r'' = r') ∧ Wf r' ∧ rest r' = l := by
  cases op with
  | bit x fast =>
    obtain ⟨r', h1, h2⟩ := readBit_cons h hr
    exact ⟨r', by simp [BitOp.Returns, readBitOrFast_eq, h1, eq_comm], h2⟩
  | byte x =>
    obtain ⟨r', h1, h2⟩ := readByte_append h hr
    exact ⟨r', by simp [BitOp.Returns, h1, eq_comm], h2⟩
  | bits v n fast =>
    rw [BitOp.written] at hr
    have hlen := length_toBits n v.toNat
    obtain ⟨r', h1, h2⟩ : ∃ r', (if fast then readBitsOrFast r n else readBits r n) =
        (.ok (BitVec.ofNat 64 (ofBits (toBits n v.toNat))), r') ∧ Wf r' ∧ rest r' = l := by
      by_cases hfast : fast = true ∧ n.1 ≤ r.valid
      · obtain ⟨r', h1, h2⟩ := readBitsFast_append h hr (by omega)
        rw [hlen] at h1
        exact ⟨r', by simp only [hfast.1, if_true, readBitsOrFast, h1], h2⟩
      · -- the plain read, at once or after the fast one
        have hplain : (if fast then readBitsOrFast r n else readBits r n) = readBits r n := by
          cases fast with
          | false => rfl
          | true => exact readBitsOrFast_eq r (by simp at hfast; omega)
        have hrest : toBits n v.toNat ++ l ≠ [] := fun he => by
          have h0 : n.1 = 0 := by
            rw [← hlen, (append_eq_nil_iff.1 he).1, length_nil]
          refine hne (hr.trans he) v ?_
          rw [Fin.ext (b := 0) h0]
          cases fast <;> simp_all
        obtain ⟨r', h1, h2⟩ := readBits_append h hr hrest (by omega)
        exact ⟨r', by rw [hplain, ← h1, hlen], h2⟩
    exact ⟨r', by simp [BitOp.Returns, h1, ofBits_toBits, eq_comm], h2⟩

/-- The reads from a reader that has the bits of `ops` before it, and then the free bits. -/
theorem readsBack_iff : ∀ {ops : List BitOp} {r : BReader} {free : List Bool}, Wf r →
    rest r = ops.flatMap BitOp.written ++ free →
    (ReadsBack ops r ↔ ¬ (free = [] ∧ EmptyTail ops))
  | [], r, free, _, _ => by simp [ReadsBack, EmptyTail]
  | op :: ops, r, free, h, hr => by
    rw [flatMap_cons, append_assoc] at hr
    by_cases hend : rest r = [] ∧ ∃ v, op = .bits v 0 false
    · obtain ⟨hnil, v, rfl⟩ := hend
      obtain ⟨-, hops⟩ := append_eq_nil_iff.1 (hr.symm.trans hnil)
      obtain ⟨hops, hfree⟩ := append_eq_nil_iff.1 hops
      refine iff_of_false ?_ (not_not.2 ⟨hfree, v, ops, suffix_rfl, hops⟩)
      rintro ⟨r', h1, -⟩
      have h1 : readBits r 0 = _ := h1
      rw [readBits_nil hnil] at h1
      cases h1
    · obtain ⟨r', h1, h2, h3⟩ := returns_written h hr fun hnil v he => hend ⟨hnil, v, he⟩
      simp only [ReadsBack, h1, exists_eq_left]
      rw [readsBack_iff h2 h3, not_iff_not, and_congr_right_iff]
      rintro rfl
      constructor
      · rintro ⟨v, post, hpost, hnil⟩
        exact ⟨v, post, hpost.trans (suffix_cons _ _), hnil⟩
      · rintro ⟨v, post, hpost, hnil⟩
        rcases suffix_cons_iff.1 hpost with he | hpost
        · obtain ⟨rfl, rfl⟩ := cons.inj he
          refine absurd ⟨?_, v, rfl⟩ hend
          rw [hr, hnil]
          rfl
        · exact ⟨v, post, hpost, hnil⟩

/-- **Bit stream round trip.** What was written is read back, unless a plain `readBits(0)` stands
behind the last bit of a stream of whole bytes. -/
theorem readsBack_write_iff (ops : List BitOp) :
    ReadsBack ops (newBReader (ops.foldl BitOp.write ⟨[], 0⟩).stream) ↔
      ¬ (8 ∣ (ops.flatMap BitOp.written).length ∧ EmptyTail ops) := by
  have hb : Holds (ops.foldl BitOp.write ⟨[], 0⟩) (ops.flatMap BitOp.written) :=
    (holds_empty []).foldl (fun op _ _ h => h.write op) ops
  have hcount : (ops.foldl BitOp.write ⟨[], 0⟩).count < 8 :=
    foldlRecOn (motive := (BStream.count · < 8)) ops _ (by decide) fun _ h op _ =>
      count_write_lt h op
  have hlen := hb.length
  rw [readsBack_iff (wf_newBReader _) ((rest_newBReader _).trans hb.bits), replicate_eq_nil_iff]
  refine not_congr (and_congr_left fun _ => ?_)
  omega

/-- Nothing is written, and `readBits(0)` reports the end. -/
theorem not_readsBack_empty : ¬ ReadsBack [.bits 5 0 false]
    (newBReader ([BitOp.bits 5 0 false].foldl BitOp.write ⟨[], 0⟩).stream) := by
  rintro ⟨r, h, -⟩
  cases h

/-! ### The end of the stream -/

/-- Reads that returned the bits `l` of the slice `b`, the first ones, led to the reader. -/
inductive Reached (b : List Byte) : List Bool → BReader → Prop
  | new : Reached b [] (newBReader b)
  | read {l : List Bool} {r r' : BReader} (op : BitOp) (h : Reached b l r)
      (hbits : l ++ op.written <+: bytesBits b) (hret : op.Returns r r') :
      Reached b (l ++ op.written) r'

/-- `readBits(n)` reports the end exactly when fewer than `n` bits are left, and returns the next
bits of the slice otherwise. -/
def EndExact (b : List Byte) (l : List Bool) (r : BReader) (n : ℕ) : Prop :=
  ((readBits r n).1 = .error .eof ↔ 8 * b.length < l.length + n) ∧
    ∀ v, (readBits r n).1 = .ok v → l ++ toBits n v.toNat <+: bytesBits b

variable {s : List Byte}

theorem Reached.rest (h : Reached s l r) : Wf r ∧ l ++ rest r = bytesBits s := by
  induction h with
  | new => exact ⟨wf_newBReader s, rest_newBReader s⟩
  | @read l r r' op _ hbits hret ih =>
    obtain ⟨hw, hrest⟩ := ih
    rw [← hrest, prefix_append_right_inj] at hbits
    obtain ⟨l', hl'⟩ := hbits
    obtain ⟨r'', h1, h2, h3⟩ := returns_written hw hl'.symm fun hnil v he => by
      subst he
      have hret : readBits r 0 = _ := hret
      rw [readBits_nil hnil] at hret
      cases hret
    rw [(h1 r').1 hret, h3, append_assoc, hl']
    exact ⟨h2, hrest⟩

/-- With too few bits left the end is missed when the buffer has some of them and the stream
others. -/
theorem readBits_short (h : Wf r) (hlt : (rest r).length < n) (hn : n ≤ 64) :
    (readBits r n).1 = .error .eof ↔ ¬ (0 < r.valid ∧ r.streamOffset < r.stream.length) := by
  have hlen : ∀ r : BReader, (Bstream.rest r).length =
      r.valid + 8 * (r.stream.length - r.streamOffset) := fun r => by simp [Bstream.rest]
  have hr := hlen r
  by_cases hnil : Bstream.rest r = []
  · rw [readBits_nil hnil]
    simp [hnil] at hr
    simp; omega
  -- the second load decides
  obtain ⟨r1, h1, hv, hr1⟩ : ∃ r1, (if r.valid = 0 then loadNextBuffer r n else some r) = some r1 ∧
      r1.valid < n ∧ (r1.stream.length ≤ r1.streamOffset ↔
        ¬ (0 < r.valid ∧ r.streamOffset < r.stream.length)) := by
    by_cases hv : r.valid = 0
    · obtain ⟨r1, h1, -, h3, -, h5⟩ := (load_spec h hv hn).resolve_left fun h => hnil h.1
      have hr1 := hlen r1
      rw [h3] at hr1
      exact ⟨r1, by rw [if_pos hv, h1], by omega, by omega⟩
    · exact ⟨r, if_neg hv, by omega, by omega⟩
  rw [← hr1, readBits, h1]
  simp only [if_neg (not_le.2 hv)]
  unfold loadNextBuffer
  split_ifs <;> simp_all

/-- **The end of the stream** is detected exactly, unless the value begins in the buffer and ends
behind the last byte of a stream that is not all in the buffer. -/
theorem endExact_iff (h : Reached s l r) (h0 : 0 < n) (hn : n ≤ 64) : EndExact s l r n ↔
    ¬ (8 * s.length < l.length + n ∧ 0 < r.valid ∧ r.streamOffset < r.stream.length) := by
  obtain ⟨hw, hrest⟩ := h.rest
  have hlen := congrArg length hrest
  rw [length_append, length_bytesBits] at hlen
  by_cases hlt : 8 * s.length < l.length + n
  · have hshort := readBits_short hw (by omega : (Bstream.rest r).length < n) hn
    rw [EndExact, hshort]
    refine ⟨fun hx => by tauto, fun hx => ⟨by tauto, fun v hv => ?_⟩⟩
    rw [hshort.2 (by tauto)] at hv
    cases hv
  · obtain ⟨l₁, l₂, hr, rfl⟩ : ∃ l₁ l₂, Bstream.rest r = l₁ ++ l₂ ∧ l₁.length = n :=
      ⟨_, _, (take_append_drop n _).symm, by rw [length_take]; omega⟩
    obtain ⟨r', hread, -⟩ := readBits_append hw hr (by simp [length_pos_iff.1 h0]) hn
    refine iff_of_true ⟨by simp [hread, hlt], fun v hv => ?_⟩ (by tauto)
    rw [hread] at hv
    cases hv
    rw [toNat_ofBits hn, toBits_ofBits, ← hrest, hr, prefix_append_right_inj]
    exact prefix_append _ _

theorem endExact_iff_oneByte : EndExact [7] [] (newBReader [7]) 9 :=
  (endExact_iff .new (by decide) (by decide)).2 (by decide)

/-- After one of three bytes' bits, 64 more are returned. -/
theorem not_endExact_threeBytes :
    ∃ r, Reached [0, 0, 0] [false] r ∧ ¬ EndExact [0, 0, 0] [false] r 64 := by
  refine ⟨_, .read (.bit false false) .new (by decide) rfl, fun h => ?_⟩
  cases h.1.2 (by decide)

end TopcDB.Chunkenc.Bstream
