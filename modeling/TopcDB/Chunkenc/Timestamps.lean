import TopcDB.Chunkenc.Varint

/-! # Timestamps as differences of differences (`TimestampsDoD`, `nextTimestampDOD`)

The first timestamp is a varint, the second the varint of its difference, and every later one the
change of the difference in one of five sizes. The encoder and the decoder keep the same `Clock`:
how many timestamps there were, the last one and the last difference. `Clock.bits c t` is the code
of `t` after `c`; `append` writes it (`holds_append`) and `nextTimestampDOD` reads it back
(`next_append`). -/

namespace TopcDB.Chunkenc.Timestamps

open List BitVec Lib.Bits Go.Basic Bstream Varint

/-! ### The encoder -/

structure TimestampsDoD where
  b : BStream
  t : I64
  tDelta : I64
  num : ℕ
  deriving DecidableEq

/-- `x` is in the range that `nbits` bits code. -/
def bitRange (x : I64) (nbits : ℕ) : Bool :=
  -((2 : ℤ) ^ (nbits - 1) - 1) ≤ x.toInt ∧ x.toInt ≤ 2 ^ (nbits - 1)

/-- The cases of `Append` for a change `dod` of the difference. -/
def writeDod (b : BStream) (dod : I64) : BStream :=
  if dod = 0 then writeBit b false
  else if bitRange dod 14 then writeBits (writeBits b 0b10 2) dod 14
  else if bitRange dod 17 then writeBits (writeBits b 0b110 3) dod 17
  else if bitRange dod 20 then writeBits (writeBits b 0b1110 4) dod 20
  else writeBits (writeBits b 0b1111 4) dod 64

def append (td : TimestampsDoD) (t : I64) : TimestampsDoD :=
  if td.num = 0 then
    { td with b := (putVarint t).foldl writeByte td.b, t := t, num := td.num + 1 }
  else if td.num = 1 then
    let tDelta := t - td.t
    { b := (putVarint tDelta).foldl writeByte td.b, t := t, tDelta := tDelta, num := td.num + 1 }
  else
    let tDelta := t - td.t
    { b := writeDod td.b (tDelta - td.tDelta), t := t, tDelta := tDelta, num := td.num + 1 }

/-! ### The decoder -/

/-- The loop that reads the size prefix: at most `n` more bits, up to the first zero. -/
def readPrefix : ℕ → ℕ → BReader → Except Err ℕ × BReader
  | 0, d, r => (.ok d, r)
  | n + 1, d, r =>
    match readBitOrFast r with
    | (.error e, r) => (.error e, r)
    | (.ok false, r) => (.ok (2 * d), r)
    | (.ok true, r) => readPrefix n (2 * d + 1) r

/-- A change of `sz` bits; negative ones come back as high unsigned numbers. -/
def readSized (sz : ℕ) (r : BReader) : Except Err I64 × BReader :=
  let p := readBitsOrFast r sz
  (p.1.map fun bits => if bits > 1#64 <<< (sz - 1) then bits - 1#64 <<< sz else bits, p.2)

def readDod (r : BReader) : Except Err I64 × BReader :=
  match readPrefix 4 0 r with
  | (.error e, r) => (.error e, r)
  | (.ok 0b10, r) => readSized 14 r
  | (.ok 0b110, r) => readSized 17 r
  | (.ok 0b1110, r) => readSized 20 r
  | (.ok 0b1111, r) => readBits r 64
  | (.ok _, r) => (.ok 0, r)

/-- `nextTimestampDOD` after `numRead` timestamps: the new timestamp and difference. -/
def nextTimestampDOD (numRead : ℕ) (tr : BReader) (t tDelta : I64) :
    Except Err (I64 × I64) × BReader :=
  if numRead = 0 then
    let p := readVarint tr
    (p.1.map fun t => (t, tDelta), p.2)
  else if numRead = 1 then
    let p := readVarint tr
    (p.1.map fun tDelta => (t + tDelta, tDelta), p.2)
  else
    let p := readDod tr
    (p.1.map fun dod => (t + (tDelta + dod), tDelta + dod), p.2)

/-! ### The clock both keep -/

/-- How many timestamps there were, the last one, and the last difference. -/
structure Clock where
  num : ℕ
  t : I64
  tDelta : I64

namespace Clock

def zero : Clock := ⟨0, 0, 0⟩

variable (c : Clock)

def tick (t : I64) : Clock :=
  ⟨c.num + 1, t, if c.num = 0 then c.tDelta else t - c.t⟩

/-- The code of a change of the difference. -/
def dodBits (dod : I64) : List Bool :=
  if dod = 0 then [false]
  else if bitRange dod 14 then [true, false] ++ toBits 14 dod.toNat
  else if bitRange dod 17 then [true, true, false] ++ toBits 17 dod.toNat
  else if bitRange dod 20 then [true, true, true, false] ++ toBits 20 dod.toNat
  else [true, true, true, true] ++ toBits 64 dod.toNat

/-- The code of the timestamp `t` after `c`. -/
def bits (t : I64) : List Bool :=
  if c.num = 0 then bytesBits (putVarint t)
  else if c.num = 1 then bytesBits (putVarint (t - c.t))
  else dodBits (t - c.t - c.tDelta)

def ticks (ts : List I64) : Clock := ts.foldl tick c

def bitsOf : Clock → List I64 → List Bool
  | _, [] => []
  | c, t :: ts => c.bits t ++ bitsOf (c.tick t) ts

theorem bitsOf_append (ts ts' : List I64) :
    c.bitsOf (ts ++ ts') = c.bitsOf ts ++ (c.ticks ts).bitsOf ts' := by
  induction ts generalizing c with
  | nil => rfl
  | cons t ts ih => simp [bitsOf, ih, ticks]

theorem length_bits_le (t : I64) : (c.bits t).length ≤ 80 := by
  have h : ∀ x, (bytesBits (putVarint x)).length ≤ 80 := fun x => by
    have := length_putVarint_le x
    rw [length_bytesBits]; unfold maxVarintLen64 at this; omega
  unfold bits dodBits
  split_ifs <;> simp [h, -length_bytesBits]

theorem length_bitsOf_le (ts : List I64) : (c.bitsOf ts).length ≤ 80 * ts.length := by
  induction ts generalizing c with
  | nil => simp [bitsOf]
  | cons t ts ih =>
    have h1 := length_bits_le c t
    have h2 := ih (c.tick t)
    simp only [bitsOf, length_append, length_cons]; omega

end Clock

def TimestampsDoD.clock (td : TimestampsDoD) : Clock := ⟨td.num, td.t, td.tDelta⟩

@[simp] theorem clock_append (td : TimestampsDoD) (t : I64) :
    (append td t).clock = td.clock.tick t := by
  unfold append TimestampsDoD.clock Clock.tick
  split_ifs <;> simp_all

/-! ### Writing -/

variable {l : List Bool} {b : BStream}

theorem holds_foldl_writeByte (h : Holds b l) (s : List Byte) :
    Holds (s.foldl writeByte b) (l ++ bytesBits s) := Holds.foldl (fun x _ _ h => h.writeByte x) s h

theorem holds_writeDod (h : Holds b l) (dod : I64) :
    Holds (writeDod b dod) (l ++ Clock.dodBits dod) := by
  -- a prefix of `n` bits, then `m` bits of `dod`
  have two : ∀ {n m : ℕ} (p : U64), n ≤ 64 → m ≤ 64 →
      Holds (writeBits (writeBits b p n) dod m) (l ++ (toBits n p.toNat ++ toBits m dod.toNat)) :=
    fun p hn hm => by
      rw [← List.append_assoc]; exact (h.writeBits p hn).writeBits dod hm
  unfold writeDod Clock.dodBits
  split_ifs
  · exact h.writeBit false
  · exact two 0b10 (by decide) (by decide)
  · exact two 0b110 (by decide) (by decide)
  · exact two 0b1110 (by decide) (by decide)
  · exact two 0b1111 (by decide) (by decide)

/-- **`append` writes the code of the timestamp.** -/
theorem holds_append {td : TimestampsDoD} (h : Holds td.b l) (t : I64) :
    Holds (append td t).b (l ++ td.clock.bits t) := by
  unfold append Clock.bits TimestampsDoD.clock
  split_ifs
  · exact holds_foldl_writeByte h _
  · exact holds_foldl_writeByte h _
  · exact holds_writeDod h _

theorem count_writeDod_lt (h : b.count < 8) (dod : I64) : (writeDod b dod).count < 8 := by
  unfold writeDod
  split_ifs
  · exact count_writeBit_lt h.le _
  all_goals exact count_writeBits_lt (count_writeBits_lt h _ _) _ _

theorem count_append_lt {td : TimestampsDoD} (h : td.b.count < 8) (t : I64) :
    (append td t).b.count < 8 := by
  have hfold : ∀ s : List Byte, (s.foldl writeByte td.b).count < 8 := fun s =>
    foldlRecOn (motive := (BStream.count · < 8)) s _ h fun b hb x _ => by rwa [count_writeByte]
  unfold append
  split_ifs
  · exact hfold _
  · exact hfold _
  · exact count_writeDod_lt h _

/-! ### Reading back -/

variable {r : BReader}

theorem readPrefix_trues {n : ℕ} : ∀ (k : ℕ) {d : ℕ} {r : BReader}, Wf r →
    rest r = replicate k true ++ l →
    ∃ r', readPrefix (n + k) d r = readPrefix n (2 ^ k * (d + 1) - 1) r' ∧ Wf r' ∧ rest r' = l
  | 0, d, r, h, hr => ⟨r, by simp, h, hr⟩
  | k + 1, d, r, h, hr => by
    obtain ⟨r1, h1, hw, hr1⟩ := readBit_cons h hr
    obtain ⟨r2, h2, hw2, hr2⟩ := readPrefix_trues k (d := 2 * d + 1) hw hr1
    refine ⟨r2, ?_, hw2, hr2⟩
    rw [← Nat.add_assoc, readPrefix, readBitOrFast_eq, h1, pow_succ, Nat.mul_assoc]
    exact h2

/-- The prefix of a size: some ones, and a zero. -/
theorem readPrefix_code {n : ℕ} (k : ℕ) (h : Wf r)
    (hr : rest r = replicate k true ++ false :: l) :
    ∃ r', readPrefix (n + 1 + k) 0 r = (.ok (2 * (2 ^ k - 1)), r') ∧ Wf r' ∧ rest r' = l := by
  obtain ⟨r1, e1, w1, q1⟩ := readPrefix_trues k (n := n + 1) (d := 0) h hr
  obtain ⟨r', h1, h2, h3⟩ := readBit_cons w1 q1
  exact ⟨r', by rw [e1, readPrefix, readBitOrFast_eq, h1, Nat.mul_one], h2, h3⟩

theorem unsign {x : I64} {sz : ℕ} (hsz : sz = 14 ∨ sz = 17 ∨ sz = 20) (hr : bitRange x sz) :
    (if BitVec.ofNat 64 (x.toNat % 2 ^ sz) > 1#64 <<< (sz - 1) then
      BitVec.ofNat 64 (x.toNat % 2 ^ sz) - 1#64 <<< sz
    else BitVec.ofNat 64 (x.toNat % 2 ^ sz)) = x := by
  -- at each of the three sizes the powers are numerals
  rcases hsz with rfl | rfl | rfl <;>
  · simp only [bitRange, decide_eq_true_eq, toInt_eq_toNat_cond] at hr
    simp only [gt_iff_lt, lt_def]
    apply eq_of_toNat_eq
    split_ifs at hr ⊢ <;> simp at * <;> omega

theorem readSized_append (h : Wf r) {x : I64} {sz : ℕ} (hsz : sz = 14 ∨ sz = 17 ∨ sz = 20)
    (hx : bitRange x sz) (hr : rest r = toBits sz x.toNat ++ l) :
    ∃ r', readSized sz r = (.ok x, r') ∧ Wf r' ∧ rest r' = l := by
  obtain ⟨r', h1, h2, h3⟩ := readBits_toBits h hr (by omega) (by omega)
  refine ⟨r', ?_, h2, h3⟩
  rw [readSized, readBitsOrFast_eq r (by omega), h1]
  simp only [Except.map]
  rw [unsign hsz hx]

/-- The five sizes of a change are told apart and read back. -/
theorem readDod_append (h : Wf r) {dod : I64} (hr : rest r = Clock.dodBits dod ++ l) :
    ∃ r', readDod r = (.ok dod, r') ∧ Wf r' ∧ rest r' = l := by
  unfold Clock.dodBits at hr
  unfold readDod
  split_ifs at hr with h0 h14 h17 h20
  · obtain ⟨r1, e1, w1, q1⟩ := readPrefix_code 0 (n := 3) h hr
    exact ⟨r1, by rw [e1, h0]; rfl, w1, q1⟩
  · obtain ⟨r1, e1, w1, q1⟩ := readPrefix_code 1 (n := 2) h hr
    obtain ⟨r', e2, w2, q2⟩ := readSized_append w1 (by decide) h14 q1
    exact ⟨r', by rw [e1]; exact e2, w2, q2⟩
  · obtain ⟨r1, e1, w1, q1⟩ := readPrefix_code 2 (n := 1) h hr
    obtain ⟨r', e2, w2, q2⟩ := readSized_append w1 (by decide) h17 q1
    exact ⟨r', by rw [e1]; exact e2, w2, q2⟩
  · obtain ⟨r1, e1, w1, q1⟩ := readPrefix_code 3 (n := 0) h hr
    obtain ⟨r', e2, w2, q2⟩ := readSized_append w1 (by decide) h20 q1
    exact ⟨r', by rw [e1]; exact e2, w2, q2⟩
  · obtain ⟨r1, e1, w1, q1⟩ := readPrefix_trues 4 (n := 0) (d := 0) h hr
    obtain ⟨r', e5, w5, q5⟩ := readBits_toBits w1 q1 (by decide) le_rfl
    rw [Nat.mod_eq_of_lt dod.isLt, ofNat_toNat, setWidth_eq] at e5
    exact ⟨r', by rw [e1, readPrefix]; exact e5, w5, q5⟩

/-- **`nextTimestampDOD` reads the code of the next timestamp.** -/
theorem next_append (h : Wf r) (c : Clock) {t : I64} (hr : rest r = c.bits t ++ l) :
    ∃ r', nextTimestampDOD c.num r c.t c.tDelta = (.ok ((c.tick t).t, (c.tick t).tDelta), r') ∧
      Wf r' ∧ rest r' = l := by
  unfold Clock.bits at hr
  unfold nextTimestampDOD
  split_ifs at hr ⊢ with h0 h1
  · obtain ⟨r', e, w, q⟩ := readVarint_append h hr
    exact ⟨r', by simp [e, Except.map, Clock.tick, h0], w, q⟩
  · obtain ⟨r', e, w, q⟩ := readVarint_append h hr
    refine ⟨r', ?_, w, q⟩
    simp only [e, Except.map, Clock.tick, if_neg h0]
    rw [show c.t + (t - c.t) = t by grind]
  · obtain ⟨r', e, w, q⟩ := readDod_append h hr
    refine ⟨r', ?_, w, q⟩
    simp only [e, Except.map, Clock.tick, if_neg h0]
    rw [show c.tDelta + (t - c.t - c.tDelta) = t - c.t by grind, show c.t + (t - c.t) = t by grind]

end TopcDB.Chunkenc.Timestamps
