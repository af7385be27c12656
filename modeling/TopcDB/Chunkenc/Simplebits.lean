import TopcDB.Chunkenc.BitSelectors
import TopcDB.Chunkenc.Bstream

/-! # Simplebits payloads (`PackingAll`, `SimplebitsDecoder`)

The payload starts with the selectors: how many there are, and the width and the run length of each.
Groups follow: the number of a selector and as many values as it says, all of its width. The packer
takes the first selector that fits the next values, and never ends when none does. -/

namespace TopcDB.Chunkenc.Simplebits

open Lib.Bits Go.Basic Bstream Simple8b BitSelectors
open List hiding modifyLast
open BitVec hiding append_assoc

/-! ### The packer -/

/-- The inner loop of `bitsPack`, of at most `k` turns: `nbits` bits of `val` are left. -/
def packValueLoop : ℕ → U64 → ℕ → BStream → BStream
  | 0, _, _, b => b
  | k + 1, val, nbits, b =>
    if nbits = 0 then b
    else
      let write := min b.count nbits
      let toWrite := (val <<< (64 - nbits)) >>> (64 - write)
      let stream := modifyLast (· ||| (toWrite <<< (b.count - write)).setWidth 8) b.stream
      packValueLoop k val (nbits - write)
        (if b.count - write = 0 ∧ 0 < nbits - write then ⟨stream ++ [0], 8⟩
        else ⟨stream, b.count - write⟩)

/-- One turn of the outer loop of `bitsPack`. -/
def packValue (bits : ℕ) (b : BStream) (val : U64) : BStream :=
  packValueLoop bits val bits (if b.count = 0 then ⟨b.stream ++ [0], 8⟩ else b)

def bitsPack (src : List U64) (s : BitSelector) (b : BStream) : BStream :=
  (src.take s.n).foldl (packValue s.bits) (writeBits b s.selector s.len)

def maxSegmentsNumBitWidth : ℕ := bitWidth (BitVec.ofNat 64 (maxSegmentsNum - 1))
def maxBitsBitWidth : ℕ := bitWidth (BitVec.ofNat 64 maxWidth)
def maxNBitWidth : ℕ := bitWidth (BitVec.ofNat 64 maxN)

def writeSelectorMeta (selectors : List BitSelector) (b : BStream) : BStream :=
  selectors.foldl
    (fun b s => writeBits (writeBits b (BitVec.ofNat 64 s.bits - 1) maxBitsBitWidth)
      (BitVec.ofNat 64 s.n - 1) maxNBitWidth)
    (writeBits b (BitVec.ofNat 64 selectors.length - 1) maxSegmentsNumBitWidth)

/-- The loop of `PackingAll`. A turn that packs no value is repeated for ever. -/
def packingLoop (selectors : List BitSelector) : ℕ → List U64 → BStream → Except Fault BStream
  | _, [], b => .ok b
  | 0, _ :: _, _ => .error .hang
  | k + 1, v :: vs, b =>
    match selectors.find? fun s => canPack (v :: vs) s.n s.bits with
    | none => .error .hang
    | some s =>
      if s.n = 0 then .error .hang
      else packingLoop selectors k ((v :: vs).drop s.n) (bitsPack (v :: vs) s b)

def packingAll (src : List U64) (selectors : List BitSelector) : Except Fault BStream :=
  packingLoop selectors src.length src (writeSelectorMeta selectors ⟨[], 0⟩)

/-! ### The decoder -/

/-- The loop of `readSelectorMeta`: `k` selectors are left, and the next one has number `i`. -/
def readSelectors (segmentsNum : U64) : ℕ → ℕ → BReader → Option (List BitSelector) × BReader
  | 0, _, br => (some [], br)
  | k + 1, i, br =>
    match readBits br maxBitsBitWidth with
    | (.error _, br) => (none, br)
    | (.ok bits, br) =>
      match readBits br maxNBitWidth with
      | (.error _, br) => (none, br)
      | (.ok n, br) =>
        match readSelectors segmentsNum k (i + 1) br with
        | (none, br) => (none, br)
        | (some ss, br) =>
          (some (⟨(bits + 1).toNat, BitVec.ofNat 64 i, bitWidth segmentsNum, (n + 1).toNat⟩ :: ss),
            br)

def readSelectorMeta (br : BReader) : Option (List BitSelector) × BReader :=
  match readBits br maxSegmentsNumBitWidth with
  | (.error _, br) => (none, br)
  | (.ok segmentsNum, br) => readSelectors segmentsNum (segmentsNum + 1).toNat 0 br

structure SimplebitsDecoder where
  br : BReader
  selectors : List BitSelector
  currSelector : BitSelector
  currIdx : ℤ
  deriving DecidableEq

/-- There is no decoder when the selectors cannot be read. -/
def newSimplebitsDecoder (data : List Byte) : Option SimplebitsDecoder :=
  match readSelectorMeta (newBReader data) with
  | (none, _) => none
  | (some selectors, br) => some ⟨br, selectors, default, -1⟩

namespace SimplebitsDecoder

/-- `Next`: the error, and the decoder afterwards. A selector that does not exist is a panic. -/
def next (d : SimplebitsDecoder) : Except Fault (Option Err × SimplebitsDecoder) :=
  if d.currIdx = -1 ∨ (d.currSelector.n : ℤ) ≤ d.currIdx + 1 then
    match readBits d.br (d.selectors.headD default).len with
    | (.error err, br) => .ok (some err, { d with br := br })
    | (.ok selectorIdx, br) =>
      match d.selectors[selectorIdx.toNat]? with
      | none => .error .panic
      | some s => .ok (none, { d with br := br, currSelector := s, currIdx := 0 })
  else .ok (none, { d with currIdx := d.currIdx + 1 })

/-- `Read`, which takes an error for a zero. -/
def read (d : SimplebitsDecoder) : U64 × SimplebitsDecoder :=
  match readBits d.br d.currSelector.bits with
  | (.error _, br) => (0, { d with br := br })
  | (.ok v, br) => (v, { d with br := br })

end SimplebitsDecoder

/-! ### What the packer writes -/

@[simp] theorem maxSegmentsNumBitWidth_eq : maxSegmentsNumBitWidth = 4 := by decide
@[simp] theorem maxBitsBitWidth_eq : maxBitsBitWidth = 7 := by decide
@[simp] theorem maxNBitWidth_eq : maxNBitWidth = 5 := by decide

variable {l : List Bool} {b : BStream} {w y nbits bits x n maxBits : ℕ}

/-- The bits that one turn of the inner loop takes from the value. -/
theorem toWrite_eq (val : U64) (hn : nbits ≤ 64) (hw : w ≤ nbits) :
    ((val <<< (64 - nbits)) >>> (64 - w)).toNat = val.toNat % 2 ^ nbits / 2 ^ (nbits - w) := by
  have h1 : val.toNat * 2 ^ (64 - nbits) % 2 ^ 64 = val.toNat % 2 ^ nbits * 2 ^ (64 - nbits) := by
    conv_lhs => rw [show (2 : ℕ) ^ 64 = 2 ^ nbits * 2 ^ (64 - nbits) by
      rw [← pow_add]; congr 1; omega]
    rw [Nat.mul_mod_mul_right]
  rw [toNat_ushiftRight, toNat_shiftLeft, Nat.shiftLeft_eq, Nat.shiftRight_eq_div_pow,
    h1, show 2 ^ (64 - w) = 2 ^ (64 - nbits) * 2 ^ (nbits - w) by rw [← pow_add]; congr 1; omega,
    ← Nat.div_div_eq_div_mul, Nat.mul_div_cancel _ (Nat.two_pow_pos _)]

theorem holds_packValueLoop (val : U64) : ∀ (k : ℕ) {nbits : ℕ} {b : BStream} {l : List Bool},
    Holds b l → b.count ≠ 0 ∨ nbits = 0 → nbits ≤ k → nbits ≤ 64 →
    Holds (packValueLoop k val nbits b) (l ++ toBits nbits val.toNat)
  | 0, nbits, b, l, h, _, hk, _ => by
    rw [Nat.le_zero.1 hk]; simpa [packValueLoop] using h
  | k + 1, nbits, b, l, h, hc, hk, hn => by
    rw [packValueLoop]
    split_ifs with h0
    · rw [h0]; simpa using h
    · set w := min b.count nbits with hw
      have hy : val.toNat % 2 ^ nbits / 2 ^ (nbits - w) < 2 ^ w := by
        rw [Nat.div_lt_iff_lt_mul (Nat.two_pow_pos _), ← pow_add,
          show w + (nbits - w) = nbits by omega]
        exact Nat.mod_lt _ (Nat.two_pow_pos _)
      have hfill := h.fill (by omega) (by omega) hy
        (z := (((val <<< (64 - nbits)) >>> (64 - w)) <<< (b.count - w)).setWidth 8) (by
          rw [toNat_setWidth, toNat_shiftLeft, toWrite_eq val hn (by omega), Nat.shiftLeft_eq,
            Nat.mod_mod_of_dvd _ (by decide)])
      have hsplit : toBits nbits val.toNat =
          toBits w (val.toNat % 2 ^ nbits / 2 ^ (nbits - w)) ++ toBits (nbits - w) val.toNat := by
        rw [← toBits_mod le_rfl val.toNat, toBits_split (show nbits - w ≤ nbits by omega),
          show nbits - (nbits - w) = w by omega, toBits_mod (by omega)]
      rw [hsplit, ← append_assoc]
      dsimp only
      split_ifs with hnew
      · exact holds_packValueLoop val k (hfill.newByte hnew.1) (Or.inl (by simp)) (by omega)
          (by omega)
      · exact holds_packValueLoop val k hfill (by simp only; omega) (by omega) (by omega)

/-- **A value** is packed as its low `bits` bits. -/
theorem holds_packValue (h : Holds b l) (val : U64) (hb : bits ≤ 64) :
    Holds (packValue bits b val) (l ++ toBits bits val.toNat) := by
  unfold packValue
  split_ifs with hc
  · exact holds_packValueLoop val bits (h.newByte hc) (Or.inl (by simp)) le_rfl hb
  · exact holds_packValueLoop val bits h (Or.inl hc) le_rfl hb

/-- The bits of a group: the number of its selector, and its values. -/
def groupBits (s : BitSelector) (vs : List U64) : List Bool :=
  toBits s.len s.selector.toNat ++ vs.flatMap fun v => toBits s.bits v.toNat

theorem holds_foldl_packValue (hb : bits ≤ 64) (h : Holds b l) (vs : List U64) :
    Holds (vs.foldl (packValue bits) b) (l ++ vs.flatMap fun v => toBits bits v.toNat) :=
  Holds.foldl (fun v _ _ h => holds_packValue h v hb) vs h

variable {s : BitSelector}

theorem holds_bitsPack (h : Holds b l) (hlen : s.len ≤ 64) (hb : s.bits ≤ 64) (src : List U64) :
    Holds (bitsPack src s b) (l ++ groupBits s (src.take s.n)) := by
  have := holds_foldl_packValue hb (h.writeBits s.selector hlen) (src.take s.n)
  rw [append_assoc] at this
  exact this

/-! ### Plain packing -/

def bitsPack3 (src : List U64) (s : BitSelector) (b : BStream) : BStream :=
  (src.take s.n).foldl (fun b v => writeBits b v s.bits) (writeBits b s.selector s.len)

theorem count_packValueLoop_lt (val : U64) : ∀ (k : ℕ) {nbits : ℕ} {b : BStream}, nbits ≤ k →
    b.count ≤ 8 ∧ b.count ≠ 0 ∧ 0 < nbits ∨ b.count < 8 ∧ nbits = 0 →
    (packValueLoop k val nbits b).count < 8
  | 0, nbits, b, hk, hc => (hc.resolve_left (by omega)).1
  | k + 1, nbits, b, hk, hc => by
    rw [packValueLoop]
    split_ifs with h0
    · exact (hc.resolve_left (by omega)).1
    · dsimp only
      split_ifs with hnew
      · exact count_packValueLoop_lt val k (by omega) (.inl ⟨le_rfl, by simp, hnew.2⟩)
      · exact count_packValueLoop_lt val k (by omega) (.inr (by simp only; omega))

theorem count_bitsPack_lt (h : b.count < 8) (hb : 0 < s.bits) (src : List U64) :
    (bitsPack src s b).count < 8 := by
  refine foldlRecOn (motive := (BStream.count · < 8)) _ _
    (count_writeBits_lt h _ _) fun b h v _ => ?_
  unfold packValue
  split_ifs with hc
  · exact count_packValueLoop_lt v _ le_rfl (.inl ⟨le_rfl, by simp, hb⟩)
  · exact count_packValueLoop_lt v _ le_rfl (.inl ⟨h.le, hc, hb⟩)

/-- A run. -/
theorem bitsPack_eq (h : Holds b l) (hc : b.count < 8) (hlen : s.len ≤ 64) (hb : 0 < s.bits)
    (hb' : s.bits ≤ 64) (src : List U64) : bitsPack src s b = bitsPack3 src s b := by
  have h3 := Holds.foldl (fun (v : U64) _ _ h => h.writeBits v hb') (src.take s.n)
    (h.writeBits s.selector hlen)
  rw [append_assoc] at h3
  refine (holds_bitsPack h hlen hb' src).unique h3 (count_bitsPack_lt hc hb src) ?_
  exact foldlRecOn (motive := (BStream.count · < 8)) _ _ (count_writeBits_lt hc _ _)
    fun b h v _ => count_writeBits_lt h v _

/-- **Inlined packing is plain packing**: any runs give the same stream. -/
theorem foldl_bitsPack_eq (runs : List (List U64 × BitSelector)) (hruns : ∀ p ∈ runs,
    p.2.len ≤ 64 ∧ 0 < p.2.bits ∧ p.2.bits ≤ 64) (h : Holds b l) (hc : b.count < 8) :
    runs.foldl (fun b p => bitsPack p.1 p.2 b) b =
      runs.foldl (fun b p => bitsPack3 p.1 p.2 b) b := by
  induction runs generalizing b l with
  | nil => rfl
  | cons p runs ih =>
    rw [forall_mem_cons] at hruns
    obtain ⟨⟨hlen, hb, hb'⟩, hruns⟩ := hruns
    rw [foldl_cons, foldl_cons, ← bitsPack_eq h hc hlen hb hb']
    exact ih hruns (holds_bitsPack h hlen hb' p.1) (count_bitsPack_lt hc hb p.1)

theorem foldl_bitsPack_eq_run :
    [([5#64, 2#64], (⟨3, 1, 2, 2⟩ : BitSelector))].foldl (fun b p => bitsPack p.1 p.2 b) ⟨[], 0⟩ =
      [([5#64, 2#64], (⟨3, 1, 2, 2⟩ : BitSelector))].foldl
        (fun b p => bitsPack3 p.1 p.2 b) ⟨[], 0⟩ :=
  foldl_bitsPack_eq _ (by simp) (holds_empty []) (by decide)

/-! ### The selectors in the header -/

def metaBits (ss : List BitSelector) : List Bool :=
  toBits 4 (BitVec.ofNat 64 ss.length - 1#64).toNat ++ ss.flatMap fun s =>
    toBits 7 (BitVec.ofNat 64 s.bits - 1#64).toNat ++ toBits 5 (BitVec.ofNat 64 s.n - 1#64).toNat

/-- The selectors that the header stores for `ss`, numbered from `i` on. -/
def storedFrom (segmentsNum : U64) : ℕ → List BitSelector → List BitSelector
  | _, [] => []
  | i, s :: ss =>
    ⟨(BitVec.ofNat 64 s.bits - 1#64).toNat % 2 ^ 7 + 1, BitVec.ofNat 64 i, bitWidth segmentsNum,
      (BitVec.ofNat 64 s.n - 1#64).toNat % 2 ^ 5 + 1⟩ :: storedFrom segmentsNum (i + 1) ss

theorem holds_writeSelectorMeta (h : Holds b l) (ss : List BitSelector) :
    Holds (writeSelectorMeta ss b) (l ++ metaBits ss) := by
  have h0 := h.writeBits (BitVec.ofNat 64 ss.length - 1) (n := maxSegmentsNumBitWidth) (by simp)
  have hstep : ∀ (s : BitSelector) {b : BStream} {l : List Bool}, Holds b l →
      Holds (writeBits (writeBits b (BitVec.ofNat 64 s.bits - 1) maxBitsBitWidth)
        (BitVec.ofNat 64 s.n - 1) maxNBitWidth) (l ++
        (toBits 7 (BitVec.ofNat 64 s.bits - 1#64).toNat ++
          toBits 5 (BitVec.ofNat 64 s.n - 1#64).toNat)) := fun s b l h => by
    have h1 := h.writeBits (BitVec.ofNat 64 s.bits - 1) (n := maxBitsBitWidth) (by simp)
    simpa using h1.writeBits (BitVec.ofNat 64 s.n - 1) (n := maxNBitWidth) (by simp)
  have := Holds.foldl hstep ss h0
  rw [append_assoc] at this
  exact this

theorem toNat_ofNat_succ (hn : n ≤ 32) :
    (BitVec.ofNat 64 (x % 2 ^ n) + 1).toNat = x % 2 ^ n + 1 := by
  have h2 : 2 ^ n ≤ 2 ^ 32 := Nat.pow_le_pow_right (by omega) hn
  rw [toNat_add, toNat_ofNat, show (1 : U64).toNat = 1 from rfl]
  omega

theorem readSelectors_append (segmentsNum : U64) : ∀ (ss : List BitSelector) (i : ℕ) {br : BReader}
    {l : List Bool}, Wf br → (rest br = (ss.flatMap fun s =>
      toBits 7 (BitVec.ofNat 64 s.bits - 1#64).toNat ++
        toBits 5 (BitVec.ofNat 64 s.n - 1#64).toNat) ++ l) →
    ∃ br', readSelectors segmentsNum ss.length i br = (some (storedFrom segmentsNum i ss), br') ∧
      Wf br' ∧ rest br' = l
  | [], i, br, l, hw, hr => ⟨br, rfl, hw, hr⟩
  | s :: ss, i, br, l, hw, hr => by
    rw [flatMap_cons, append_assoc, append_assoc] at hr
    obtain ⟨br1, h1, hw1, hr1⟩ := readBits_toBits hw hr (by omega) (by omega)
    obtain ⟨br2, h2, hw2, hr2⟩ := readBits_toBits hw1 hr1 (by omega) (by omega)
    obtain ⟨br3, h3, hw3, hr3⟩ := readSelectors_append segmentsNum ss (i + 1) hw2 hr2
    refine ⟨br3, ?_, hw3, hr3⟩
    rw [length_cons, readSelectors, maxBitsBitWidth_eq, h1]
    simp only [maxNBitWidth_eq, h2, h3]
    rw [toNat_ofNat_succ (by omega), toNat_ofNat_succ (by omega)]
    rfl

variable {ss : List BitSelector}

/-- **The header is read back**, up to the size of its fields. -/
theorem readSelectorMeta_append (hne : ss ≠ []) (hlen : ss.length ≤ 16) {br : BReader} (hw : Wf br)
    (hr : rest br = metaBits ss ++ l) :
    ∃ br', readSelectorMeta br =
        (some (storedFrom (BitVec.ofNat 64 (ss.length - 1)) 0 ss), br') ∧
      Wf br' ∧ rest br' = l := by
  have hpos := length_pos_iff.2 hne
  rw [metaBits, toNat_ofNat_pred hpos (by omega), append_assoc] at hr
  obtain ⟨br1, h1, hw1, hr1⟩ := readBits_toBits hw hr (by omega) (by omega)
  obtain ⟨br2, h2, hw2, hr2⟩ :=
    readSelectors_append (BitVec.ofNat 64 (ss.length - 1)) ss 0 hw1 hr1
  refine ⟨br2, ?_, hw2, hr2⟩
  rw [readSelectorMeta, maxSegmentsNumBitWidth_eq, h1]
  have hsucc := toNat_ofNat_succ (x := ss.length - 1) (n := 4) (by omega)
  rw [Nat.mod_eq_of_lt (by omega)] at hsucc
  simp only [Nat.mod_eq_of_lt (show ss.length - 1 < 2 ^ 4 by omega), hsucc,
    show ss.length - 1 + 1 = ss.length by omega]
  exact h2

theorem storedFrom_eq (segmentsNum : U64) : ∀ (ss : List BitSelector) (i : ℕ),
    (∀ j (h : j < ss.length), ss[j].selector = BitVec.ofNat 64 (i + j)) →
    (∀ s ∈ ss, s.len = bitWidth segmentsNum ∧ (1 ≤ s.bits ∧ s.bits ≤ 64) ∧ 1 ≤ s.n ∧ s.n ≤ 32) →
    storedFrom segmentsNum i ss = ss
  | [], _, _, _ => rfl
  | s :: ss, i, hsel, h => by
    obtain ⟨hlen, hb, hn⟩ := h s mem_cons_self
    have h0 := hsel 0 (by simp)
    have htail := storedFrom_eq segmentsNum ss (i + 1)
      (fun j hj => by
        have := hsel (j + 1) (by simpa using hj)
        simpa [Nat.add_assoc, Nat.add_comm 1] using this)
      (fun t ht => h t (mem_cons_of_mem _ ht))
    rw [storedFrom, htail, toNat_ofNat_pred hb.1 (by omega), toNat_ofNat_pred hn.1 (by omega),
      show (s.bits - 1) % 2 ^ 7 + 1 = s.bits by omega, show (s.n - 1) % 2 ^ 5 + 1 = s.n by omega,
      ← hlen]
    simp only [getElem_cons_zero, Nat.add_zero] at h0
    rw [← h0]

theorem stored_eq (h : Encodable ss) : storedFrom (BitVec.ofNat 64 (ss.length - 1)) 0 ss = ss :=
  storedFrom_eq _ ss 0 (fun j hj => by simpa using h.selector_eq j hj)
    fun s hs => ⟨h.len_eq s hs, h.bits_range s hs, h.n_range s hs⟩

/-! ### Groups -/

/-- A group of the payload: a selector of `ss` and as many values as it packs, of its width. -/
structure GroupOk (ss : List BitSelector) (g : BitSelector × List U64) : Prop where
  mem : g.1 ∈ ss
  length : g.2.length = g.1.n
  small : ∀ v ∈ g.2, v.toNat < 2 ^ g.1.bits

variable (gs : List (BitSelector × List U64))

def groupsBits : List Bool :=
  gs.flatMap fun g => groupBits g.1 g.2

def groupsValues : List U64 := gs.flatMap Prod.snd

variable {r src vs : List U64}

theorem groupOk_of_canPack (hs : s ∈ ss) (hb : 1 ≤ s.bits ∧ s.bits ≤ 64)
    (hc : canPack r s.n s.bits = true) : s.n ≤ r.length ∧ GroupOk ss (s, r.take s.n) := by
  obtain ⟨hle, hall⟩ := (canPack_bits hb.1 hb.2).1 hc
  exact ⟨hle, hs, by simp [hle], hall⟩

/-- **Whatever the packer writes** are groups of the values. -/
theorem groups_of_packingLoop (hlen : ∀ s ∈ ss, s.len ≤ 64)
    (hb : ∀ s ∈ ss, 1 ≤ s.bits ∧ s.bits ≤ 64) : ∀ (k : ℕ) {r : List U64} {b b' : BStream}
    {l : List Bool}, Holds b l → packingLoop ss k r b = .ok b' →
      ∃ gs, Holds b' (l ++ groupsBits gs) ∧ groupsValues gs = r ∧ ∀ g ∈ gs, GroupOk ss g
  | k, [], b, b', l, h, hp => by
    rw [packingLoop] at hp
    cases hp
    exact ⟨[], by simpa [groupsBits] using h, rfl, by simp⟩
  | 0, v :: vs, b, b', l, _, hp => by simp [packingLoop] at hp
  | k + 1, v :: vs, b, b', l, h, hp => by
    rw [packingLoop] at hp
    cases hfind : ss.find? fun s => canPack (v :: vs) s.n s.bits with
    | none => simp [hfind] at hp
    | some s =>
      simp only [hfind] at hp
      split_ifs at hp with hn
      have hs := mem_of_find?_eq_some hfind
      have hc := find?_some hfind
      beta_reduce at hc
      obtain ⟨-, hok⟩ := groupOk_of_canPack hs (hb s hs) hc
      obtain ⟨gs, h2, h3, h4⟩ := groups_of_packingLoop hlen hb k
        (holds_bitsPack h (hlen s hs) (hb s hs).2 (v :: vs)) hp
      refine ⟨(s, (v :: vs).take s.n) :: gs, by simpa [groupsBits] using h2, ?_,
        forall_mem_cons.2 ⟨hok, h4⟩⟩
      rw [groupsValues, flatMap_cons, ← groupsValues, h3, take_append_drop]

/-- **The packer** returns, as long as every remainder it reaches, the ones with the property `P`,
fits some selector. -/
theorem packingLoop_ok {P : List U64 → Prop} (hn : ∀ s ∈ ss, 1 ≤ s.n)
    (hfit : ∀ r, r ≠ [] → P r → ∃ s ∈ ss, canPack r s.n s.bits = true)
    (hstep : ∀ r, P r → ∀ s ∈ ss, canPack r s.n s.bits = true → P (r.drop s.n)) :
    ∀ (k : ℕ) {r : List U64} {b : BStream}, r.length ≤ k → P r →
      ∃ b', packingLoop ss k r b = .ok b'
  | k, [], b, _, _ => ⟨b, by rw [packingLoop]⟩
  | 0, v :: vs, b, hk, _ => by simp at hk
  | k + 1, v :: vs, b, hk, hg => by
    obtain ⟨s, hfind⟩ : ∃ s, ss.find? (fun s => canPack (v :: vs) s.n s.bits) = some s :=
      Option.isSome_iff_exists.1 (find?_isSome.2 (hfit (v :: vs) (cons_ne_nil _ _) hg))
    have hs := mem_of_find?_eq_some hfind
    have hc := find?_some hfind
    beta_reduce at hc
    have hn1 := hn s hs
    rw [packingLoop, hfind]
    simp only
    rw [if_neg (by omega)]
    exact packingLoop_ok hn hfit hstep k (by rw [length_drop]; omega) (hstep _ hg s hs hc)

theorem groups_of_packingAll (he : Encodable ss) (h : packingAll src ss = .ok b) :
    ∃ gs, Holds b (metaBits ss ++ groupsBits gs) ∧ groupsValues gs = src ∧
      ∀ g ∈ gs, GroupOk ss g := by
  have h0 := holds_writeSelectorMeta (holds_empty []) ss
  rw [bytesBits_nil, nil_append] at h0
  refine groups_of_packingLoop (fun s hs => ?_) he.bits_range src.length h0 h
  rw [he.len_eq s hs]
  exact bitWidth_le _

theorem packingAll_spec (he : Encodable ss) (hc : Covers ss maxBits)
    (hsrc : ∀ v ∈ src, v.toNat < 2 ^ maxBits) :
    ∃ b gs, packingAll src ss = .ok b ∧ Holds b (metaBits ss ++ groupsBits gs) ∧
      groupsValues gs = src ∧ ∀ g ∈ gs, GroupOk ss g := by
  suffices hok : ∃ b, packingAll src ss = .ok b by
    obtain ⟨b, hb⟩ := hok
    exact ⟨b, (groups_of_packingAll he hb).imp fun gs h => ⟨hb, h⟩⟩
  refine packingLoop_ok (P := fun r => ∀ v ∈ r, v.toNat < 2 ^ maxBits)
    (fun s hs => (he.n_range s hs).1) (fun r hr hg => ?_)
    (fun r hg s hs hcp v hv => hg v (mem_of_mem_drop hv)) src.length le_rfl hsrc
  obtain ⟨s, hs, hbits, hn⟩ := hc
  refine ⟨s, hs, ?_⟩
  have hb := he.bits_range s hs
  rw [canPack_bits hb.1 hb.2, hn, hbits]
  exact ⟨length_pos_iff.2 hr, fun v hv => hg v (mem_of_mem_take hv)⟩

/-! ### Reading the groups -/

/-- The decoder has the values `vs` before it: the rest of a group, and further groups. -/
structure Reads (d : SimplebitsDecoder) (vs : List U64) : Prop where
  wf : Wf d.br
  enc : Encodable d.selectors
  state : ∃ cur gs pad, rest d.br = (cur.flatMap fun v => toBits d.currSelector.bits v.toNat) ++
      (groupsBits gs ++ pad) ∧
    vs = cur ++ groupsValues gs ∧ (∀ g ∈ gs, GroupOk d.selectors g) ∧
    (d.currIdx = -1 ∧ cur = [] ∨ d.currSelector ∈ d.selectors ∧ 0 ≤ d.currIdx ∧
      d.currIdx + 1 + cur.length = d.currSelector.n ∧ ∀ v ∈ cur, v.toNat < 2 ^ d.currSelector.bits)

variable {d : SimplebitsDecoder}

theorem read_append (hw : Wf d.br) (he : Encodable d.selectors)
    (hs : d.currSelector ∈ d.selectors) {v : U64} (hv : v.toNat < 2 ^ d.currSelector.bits)
    (hr : rest d.br = toBits d.currSelector.bits v.toNat ++ l) :
    ∃ br, d.read = (v, { d with br := br }) ∧ Wf br ∧ rest br = l := by
  have hb := he.bits_range _ hs
  obtain ⟨br, h1, h2, h3⟩ := readBits_toBits hw hr (by omega) hb.2
  refine ⟨br, ?_, h2, h3⟩
  rw [Nat.mod_eq_of_lt hv, ofNat_toNat, setWidth_eq] at h1
  rw [SimplebitsDecoder.read, h1]

theorem readSelector (he : Encodable ss) (hs : s ∈ ss) {br : BReader} (hw : Wf br)
    (hr : rest br = toBits s.len s.selector.toNat ++ l) :
    ∃ idx br', readBits br (ss.headD default).len = (.ok idx, br') ∧ ss[idx.toNat]? = some s ∧
      Wf br' ∧ rest br' = l := by
  obtain ⟨i, hi, rfl⟩ := mem_iff_getElem.1 hs
  have h16 := he.length_le
  have hlen := he.len_eq _ hs
  have hhead : (ss.headD default).len = ss[i].len := by
    obtain ⟨t, ts, hts⟩ := exists_cons_of_ne_nil he.ne_nil
    rw [hlen, ← he.len_eq t (by rw [hts]; exact mem_cons_self), hts]; rfl
  have hnum : (BitVec.ofNat 64 (ss.length - 1)).toNat = ss.length - 1 := by
    rw [toNat_ofNat]; omega
  have hsel : (ss[i].selector).toNat = i := by
    rw [he.selector_eq i hi, toNat_ofNat]; omega
  have hlt : i < 2 ^ ss[i].len := by
    have := (bitWidth_le_iff (bitWidth_pos (BitVec.ofNat 64 (ss.length - 1)))).1 le_rfl
    rw [← hlen, hnum] at this; omega
  have hpos : 0 < ss[i].len := by rw [hlen]; exact bitWidth_pos _
  have hle : ss[i].len ≤ 64 := by rw [hlen]; exact bitWidth_le _
  obtain ⟨br', h1, h2, h3⟩ := readBits_toBits hw hr hpos hle
  refine ⟨_, br', by rw [hhead]; exact h1, ?_, h2, h3⟩
  rw [hsel, Nat.mod_eq_of_lt hlt, toNat_ofNat, Nat.mod_eq_of_lt (by omega)]
  exact getElem?_eq_getElem hi

/-- **The next value** is decoded. -/
theorem Reads.next {v : U64} (h : Reads d (v :: vs)) :
    ∃ d1 d2, d.next = .ok (none, d1) ∧ d1.read = (v, d2) ∧ Reads d2 vs := by
  obtain ⟨cur, gs, pad, hr, hvs, hgs, hcur⟩ := h.state
  cases cur with
  | cons u cur =>
    -- inside a group
    rcases hcur with ⟨-, h0⟩ | ⟨hs, hidx, hlen, hsmall⟩
    · simp at h0
    · obtain ⟨rfl, rfl⟩ : v = u ∧ vs = cur ++ groupsValues gs := by simpa using hvs
      rw [length_cons] at hlen
      rw [flatMap_cons, append_assoc] at hr
      obtain ⟨br, h1, h2, h3⟩ :=
        read_append (d := { d with currIdx := d.currIdx + 1 }) h.wf h.enc hs
        (hsmall v mem_cons_self) hr
      refine ⟨_, _, ?_, h1, h2, h.enc, cur, gs, pad, h3, rfl, hgs, .inr ⟨hs, ?_, ?_, ?_⟩⟩
      · rw [SimplebitsDecoder.next, if_neg (by push_cast at hlen; omega)]
      · simp only; omega
      · simp only; push_cast at hlen; omega
      · exact fun w hw => hsmall w (mem_cons_of_mem _ hw)
  | nil =>
    -- at the start of a group, which has at least one value
    cases gs with
    | nil => simp [groupsValues] at hvs
    | cons g gs =>
      obtain ⟨s, us⟩ := g
      have hok := hgs _ mem_cons_self
      have hn := (h.enc.n_range s hok.mem).1
      cases us with
      | nil => have := hok.length; simp at this; omega
      | cons u us =>
        obtain ⟨rfl, rfl⟩ : v = u ∧ vs = us ++ groupsValues gs := by simpa [groupsValues] using hvs
        have hr' : rest d.br = toBits s.len s.selector.toNat ++ (toBits s.bits v.toNat ++
            ((us.flatMap fun v => toBits s.bits v.toNat) ++ (groupsBits gs ++ pad))) := by
          rw [hr]; simp [groupsBits, groupBits]
        obtain ⟨idx, br1, h1, h2, h3, h4⟩ := readSelector h.enc hok.mem h.wf hr'
        obtain ⟨br2, k1, k2, k3⟩ := read_append (d := ⟨br1, d.selectors, s, 0⟩) h3 h.enc hok.mem
          (hok.small v mem_cons_self) h4
        have hlen := hok.length
        simp only [length_cons] at hlen
        refine ⟨_, _, ?_, k1, k2, h.enc, us, gs, pad, k3, rfl,
          fun g hg => hgs g (mem_cons_of_mem _ hg), .inr ⟨hok.mem, le_rfl, ?_, ?_⟩⟩
        · have hcond : d.currIdx = -1 ∨ (d.currSelector.n : ℤ) ≤ d.currIdx + 1 := by
            rcases hcur with ⟨h0, -⟩ | ⟨-, -, h0, -⟩
            · exact Or.inl h0
            · simp at h0; omega
          rw [SimplebitsDecoder.next, if_pos hcond, h1]
          simp only [h2]
        · simp only; omega
        · exact fun w hw => hok.small w (mem_cons_of_mem _ hw)

/-- **The payload decodes.** -/
theorem reads_new (he : Encodable ss) {gs : List (BitSelector × List U64)}
    (hgs : ∀ g ∈ gs, GroupOk ss g) (h : Holds b (metaBits ss ++ groupsBits gs)) :
    ∃ d, newSimplebitsDecoder b.stream = some d ∧ Reads d (groupsValues gs) := by
  have hr : rest (newBReader b.stream) =
      metaBits ss ++ (groupsBits gs ++ replicate b.count false) := by
    rw [rest_newBReader, h.bits, append_assoc]
  obtain ⟨br, h1, h2, h3⟩ := readSelectorMeta_append he.ne_nil he.length_le (wf_newBReader _) hr
  rw [stored_eq he] at h1
  refine ⟨⟨br, ss, default, -1⟩, by rw [newSimplebitsDecoder, h1], h2, he, [], gs, _, h3, rfl, hgs,
    .inl ⟨rfl, rfl⟩⟩

end TopcDB.Chunkenc.Simplebits
