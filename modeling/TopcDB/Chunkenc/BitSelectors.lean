import TopcDB.Chunkenc.Simple8b

/-! # Choosing the widths of a Simplebits payload (`BitStatistics`, `BitSelectors`)

The planner counts how many values have each bit width, splits the widths from one to the largest
into at most sixteen segments by dynamic programming, and gives every segment a selector: the width
of its values and how many of them are packed together. Proportions and costs are rationals.

Whatever the proportions are, the selectors fit the fields of the header (`Encodable`), and the
last one packs a single value of the largest width, so that the packer never gets stuck. Both fail
only in the case of a largest width of at most one, whose single selector counts all values. -/

namespace TopcDB.Chunkenc.BitSelectors

open List Go.Basic

def maxSegmentsNum : ℕ := 16
def maxWidth : ℕ := 64
def maxN : ℕ := 16

structure BitCounter where
  bits : ℕ
  proportion : ℚ
  count : ℕ
  deriving DecidableEq, Inhabited

/-- The number of bits required to represent `v`. -/
def bitWidth (v : U64) : ℕ := if v = 0 then 1 else Nat.log2 v.toNat + 1

def widthCounts (src : List U64) : List ℕ :=
  src.foldl (fun cs v => cs.modify (bitWidth v) (· + 1)) (replicate (maxWidth + 1) 0)

/-- The largest width that occurs, the second result of `BitStatistics`. -/
def largestWidth (counts : List ℕ) : ℕ :=
  (range' 1 maxWidth).foldl (fun m bits => if 0 < counts.getD bits 0 then bits else m) 0

/-- The counters of all widths, and the largest width that occurs. -/
def bitStatistics (src : List U64) : List BitCounter × ℕ :=
  let counts := widthCounts src
  let counter (bits : ℕ) : BitCounter :=
    { bits := bits
      proportion := if 0 < counts.getD bits 0 ∧ 0 < bits then
        (counts.getD bits 0 : ℚ) / src.length else 0
      count := counts.getD bits 0 }
  ((range (maxWidth + 1)).map counter, largestWidth counts)

structure BitSelector where
  bits : ℕ
  selector : U64
  len : ℕ
  n : ℕ
  deriving DecidableEq, Inhabited

/-- The best split of the widths up to some width: its cost, the last width of every segment, and
the share of the values in it. -/
structure Segments where
  cost : ℚ
  bounds : List ℕ
  proportions : List ℚ
  deriving DecidableEq, Inhabited

/-! ### The dynamic program -/

def prefixProportions (bitCounters : List BitCounter) (maxBits : ℕ) : List ℚ :=
  (range maxBits).foldl
    (fun pp i => pp ++ [pp.getLastD 0 + (bitCounters.getD (i + 1) default).proportion]) [0]

variable (pp : List ℚ) (maxBits : ℕ)

def getProportionSum (start stop : ℕ) : ℚ :=
  if stop < start then 0 else pp.getD stop 0 - pp.getD (start - 1) 0

def firstRow : List Segments :=
  (range (maxBits + 1)).map fun j =>
    if j = 0 then default
    else
      { cost := getProportionSum pp 1 j * j, bounds := [j],
        proportions := [getProportionSum pp 1 j] }

/-- The candidates that `kNew` makes useless are removed from the back. The list is reversed. -/
def popBack (prev : List Segments) (kNew : ℕ) : List ℕ → List ℕ
  | k2 :: k1 :: dq =>
    let y1 := (prev.getD k1 default).cost
    let x1 := pp.getD k1 0
    let y2 := (prev.getD k2 default).cost
    let x2 := pp.getD k2 0
    if ((prev.getD kNew default).cost - y2) * (x2 - x1) ≤ (y2 - y1) * (pp.getD kNew 0 - x2) then
      popBack prev kNew (k1 :: dq)
    else k2 :: k1 :: dq
  | dq => dq

/-- The candidates that are worse at `j` than the ones behind them are removed from the front. -/
def popFront (prev : List Segments) (j : ℕ) : List ℕ → List ℕ
  | k1 :: k2 :: dq =>
    let y1 := (prev.getD k1 default).cost
    let x1 := pp.getD k1 0
    let y2 := (prev.getD k2 default).cost
    let x2 := pp.getD k2 0
    if y2 - y1 ≤ j * (x2 - x1) then popFront prev j (k2 :: dq) else k1 :: k2 :: dq
  | dq => dq

/-- The candidates for the end of the segment before the one that ends at `j`. -/
def candidates (prev : List Segments) (i : ℕ) (dq : List ℕ) (j : ℕ) : List ℕ :=
  popFront pp prev j
    (if i - 1 ≤ j - 1 then (popBack pp prev (j - 1) dq.reverse).reverse ++ [j - 1] else dq)

/-- The split of `s`, which ends at `k`, and one more segment up to `j`. -/
def extend (s : Segments) (k j : ℕ) : Segments where
  cost := s.cost + getProportionSum pp (k + 1) j * j
  bounds := s.bounds ++ [j]
  proportions := s.proportions ++ [getProportionSum pp (k + 1) j]

/-- One turn of the loop over `j` in row `i`. -/
def rowStep (prev : List Segments) (i : ℕ) (st : List ℕ × List Segments) (j : ℕ) :
    List ℕ × List Segments :=
  let dq := candidates pp prev i st.1 j
  (dq, st.2.set j (extend pp (prev.getD (dq.headD 0) default) (dq.headD 0) j))

/-- The row of `i` segments, from the row of one segment less. -/
def nextRow (prev : List Segments) (i : ℕ) : List Segments :=
  ((range' i (maxBits + 1 - i)).foldl (rowStep pp prev i)
    ([], replicate (maxBits + 1) default)).2

def dp : ℕ → List Segments
  | 0 => replicate (maxBits + 1) default
  | 1 => firstRow pp maxBits
  | i + 2 => nextRow pp maxBits (dp (i + 1)) (i + 2)

/-! ### The selectors -/

/-- The largest finite `float64`. -/
def maxFloat64 : ℚ := (2 ^ 53 - 1) * 2 ^ 971

def maxInt : ℤ := 2 ^ 63 - 1

/-- How many values of a segment with proportion `p` are packed together; infinitely many for one.
-/
def runLength (p : ℚ) : ℚ := if p = 1 then maxN else min (max (1 / (1 - p) - 1) 1) maxN

/-- The run length of segment `i`, which is one for the last. -/
def segmentN (s : Segments) (segNum i : ℕ) : ℚ :=
  if i < segNum - 1 then runLength (s.proportions.getD i 0) else 1

def fullCost (s : Segments) (segNum : ℕ) : ℚ :=
  let metaCost := bitWidth (BitVec.ofNat 64 (segNum - 1))
  (range segNum).foldl
    (fun c i => c + s.proportions.getD i 0 * metaCost / segmentN s segNum i) s.cost

/-- The number of segments of the cheapest split, and its cost. -/
def pickSegments (best : ℕ → Segments) (segNums : List ℕ) : Option ℕ × ℚ :=
  segNums.foldl (fun st segNum =>
    if (best segNum).bounds.length = 0 then st
    else if fullCost (best segNum) segNum < st.2 then (some segNum, fullCost (best segNum) segNum)
    else st) (none, maxFloat64)

def makeSelectors (s : Segments) (segNum : ℕ) : List BitSelector :=
  (range segNum).map fun i =>
    { bits := s.bounds.getD i 0
      selector := BitVec.ofNat 64 i
      len := bitWidth (BitVec.ofNat 64 (segNum - 1))
      n := (truncRat (segmentN s segNum i)).toNat }

/-- `BitSelectors`: the selectors, and the estimated number of bytes. -/
def bitSelectors (bitCounters : List BitCounter) (maxSegments maxBits totalNum : ℕ) :
    List BitSelector × ℤ :=
  if maxBits ≤ 1 then
    ([{ bits := maxBits, selector := 0, len := 1, n := totalNum }], totalNum / 8)
  else
    let best (segNum : ℕ) : Segments :=
      (dp (prefixProportions bitCounters maxBits) maxBits segNum).getD maxBits default
    match pickSegments best (range' 1 (min maxSegments maxBits)) with
    | (none, _) => ([{ bits := maxBits, selector := 0, len := 1, n := 1 }], maxInt)
    | (some segNum, globalMinCost) =>
      (makeSelectors (best segNum) segNum, truncRat (globalMinCost * totalNum / 8))

/-! ### Widths -/

theorem bitWidth_pos (v : U64) : 0 < bitWidth v := by unfold bitWidth; split_ifs <;> omega

variable {b w kNew k j i segNum maxBits : ℕ}

theorem bitWidth_le_iff {v : U64} (hb : 0 < b) : bitWidth v ≤ b ↔ v.toNat < 2 ^ b := by
  unfold bitWidth
  split_ifs with h
  · subst h
    simp; omega
  · have h0 : v.toNat ≠ 0 := fun h' => h (BitVec.eq_of_toNat_eq h')
    rw [← Nat.log2_lt h0]; omega

theorem bitWidth_le (v : U64) : bitWidth v ≤ 64 := (bitWidth_le_iff (by omega)).2 v.isLt

variable (src : List U64)

theorem foldl_modify {cs : List ℕ} (hcs : cs.length = 65) (w : ℕ) (hw : w < 65) :
    (src.foldl (fun cs v => cs.modify (bitWidth v) (· + 1)) cs).getD w 0 =
      cs.getD w 0 + src.countP fun v => bitWidth v = w := by
  induction src generalizing cs with
  | nil => simp
  | cons v src ih =>
    rw [foldl_cons, ih (by simpa using hcs), countP_cons]
    have hw' : w < cs.length := by omega
    have hm : (cs.modify (bitWidth v) (· + 1)).getD w 0 =
        cs.getD w 0 + if bitWidth v = w then 1 else 0 := by
      rw [getD_eq_getElem _ _ (by simpa using hw'), getD_eq_getElem _ _ hw',
        getElem_modify]
      split_ifs <;> rfl
    rw [hm]
    simp only [decide_eq_true_eq]
    omega

theorem getD_widthCounts (hw : w < 65) :
    (widthCounts src).getD w 0 = src.countP fun v => bitWidth v = w := by
  rw [widthCounts, foldl_modify src (by simp [maxWidth]) w hw,
    getD_eq_getElem _ _ (by rw [length_replicate]; exact hw), getElem_replicate,
    Nat.zero_add]

theorem widthCounts_pos {src : List U64} (hw : w < 65) :
    0 < (widthCounts src).getD w 0 ↔ ∃ v ∈ src, bitWidth v = w := by
  rw [getD_widthCounts src hw, countP_pos_iff]
  simp

theorem getD_bitStatistics (hw : w < 65) : (bitStatistics src).1.getD w default =
      ⟨w, if 0 < (widthCounts src).getD w 0 ∧ 0 < w then
        ((widthCounts src).getD w 0 : ℚ) / src.length else 0, (widthCounts src).getD w 0⟩ := by
  rw [getD_eq_getElem _ _ (by simpa [bitStatistics, maxWidth] using hw)]
  simp only [bitStatistics, getElem_map, getElem_range]

theorem largest_spec (p : ℕ → Prop) [DecidablePred p] (n : ℕ) :
    let m := (range' 1 n).foldl (fun m bits => if p bits then bits else m) 0
    m ≤ n ∧ (m = 0 ∨ p m) ∧ ∀ b, 1 ≤ b → b ≤ n → p b → b ≤ m := by
  induction n with
  | zero => exact ⟨le_rfl, Or.inl rfl, fun b h1 h2 _ => by omega⟩
  | succ n ih =>
    obtain ⟨h1, h2, h3⟩ := ih
    simp only [range'_1_concat, foldl_append, foldl_cons, foldl_nil]
    split_ifs with hp
    · exact ⟨by omega, Or.inr hp, fun b _ hb _ => by omega⟩
    · refine ⟨by omega, h2, fun b hb1 hb2 hb => ?_⟩
      rcases Nat.eq_or_lt_of_le hb2 with rfl | hlt
      · rw [Nat.add_comm] at hb; exact absurd hb hp
      · exact h3 b hb1 (by omega) hb

theorem maxBits_le : (bitStatistics src).2 ≤ 64 :=
  (largest_spec (fun bits => 0 < (widthCounts src).getD bits 0) 64).1

theorem bitWidth_le_maxBits {src : List U64} {v : U64} (hv : v ∈ src) :
    bitWidth v ≤ (bitStatistics src).2 :=
  (largest_spec (fun bits => 0 < (widthCounts src).getD bits 0) 64).2.2 _ (bitWidth_pos v)
    (bitWidth_le v) ((widthCounts_pos (by have := bitWidth_le v; omega)).2 ⟨v, hv, rfl⟩)

theorem exists_bitWidth_eq_maxBits {src : List U64} (h : src ≠ []) :
    ∃ v ∈ src, bitWidth v = (bitStatistics src).2 := by
  obtain ⟨u, l, rfl⟩ := exists_cons_of_ne_nil h
  have hu : bitWidth u ≤ (bitStatistics (u :: l)).2 := bitWidth_le_maxBits mem_cons_self
  have hpos := bitWidth_pos u
  have hle := maxBits_le (u :: l)
  rcases (largest_spec (fun bits => 0 < (widthCounts (u :: l)).getD bits 0) 64).2.1 with h0 | hp
  · have : (bitStatistics (u :: l)).2 = 0 := h0
    omega
  · exact (widthCounts_pos (by omega)).1 hp

/-! ### The table -/

structure Splits (s : Segments) (i j : ℕ) : Prop where
  length : s.bounds.length = i
  last : s.bounds.getLast? = some j
  range : ∀ b ∈ s.bounds, 1 ≤ b ∧ b ≤ j

variable {pp : List ℚ} {maxBits : ℕ} {prev : List Segments}

theorem popBack_suffix : ∀ (dq : List ℕ), popBack pp prev kNew dq <:+ dq
  | [] | [_] => suffix_rfl
  | k2 :: k1 :: dq => by
    rw [popBack]
    split_ifs
    · exact (popBack_suffix _).trans (suffix_cons _ _)
    · exact suffix_rfl

theorem popFront_suffix : ∀ (dq : List ℕ), popFront pp prev j dq <:+ dq
  | [] | [_] => suffix_rfl
  | k1 :: k2 :: dq => by
    rw [popFront]
    split_ifs
    · exact (popFront_suffix _).trans (suffix_cons _ _)
    · exact suffix_rfl

theorem popFront_ne_nil : ∀ {dq : List ℕ}, dq ≠ [] →
    popFront pp prev j dq ≠ []
  | [], h => h
  | [_], h => h
  | k1 :: k2 :: dq, _ => by
    simp only [popFront]
    split_ifs
    · exact popFront_ne_nil (cons_ne_nil _ _)
    · exact cons_ne_nil _ _

theorem headD_mem : ∀ {l : List ℕ}, l ≠ [] → l.headD 0 ∈ l
  | [], h => absurd rfl h
  | _ :: _, _ => mem_cons_self

theorem candidates_spec (pp : List ℚ) (prev : List Segments) {dq : List ℕ} (hi : 2 ≤ i)
    (hij : i ≤ j) (h : ∀ k ∈ dq, i - 1 ≤ k ∧ k < j) :
    candidates pp prev i dq j ≠ [] ∧ ∀ k ∈ candidates pp prev i dq j, i - 1 ≤ k ∧ k < j := by
  unfold candidates
  rw [if_pos (by omega)]
  refine ⟨popFront_ne_nil (by simp), fun k hk => ?_⟩
  rcases mem_append.1 ((popFront_suffix _).subset hk) with hk | hk
  · exact h k (mem_reverse.1 ((popBack_suffix _).subset (mem_reverse.1 hk)))
  · rw [mem_singleton] at hk; omega

theorem splits_extend {s : Segments} (hi : 2 ≤ i) (h : Splits s (i - 1) k) (hk : k < j) :
    Splits (extend pp s k j) i j := by
  refine ⟨by simp [extend, h.length]; omega, by simp [extend], fun b hb => ?_⟩
  rcases mem_append.1 hb with hb | hb
  · have := h.range b hb; omega
  · rw [mem_singleton] at hb; omega

/-- What the candidates keep up tells, of the first one of them, where an entry of the row comes
from. -/
theorem nextRow_spec {Q : ℕ → List ℕ → Prop} {P : ℕ → ℕ → Prop} (h0 : Q i [])
    (hstep : ∀ j dq, i ≤ j → j ≤ maxBits → Q j dq → Q (j + 1) (candidates pp prev i dq j) ∧
      P j ((candidates pp prev i dq j).headD 0)) (hij : i ≤ j) (hj : j ≤ maxBits) :
    ∃ k, P j k ∧
      (nextRow pp maxBits prev i).getD j default = extend pp (prev.getD k default) k j := by
  suffices h : ∀ n, i + n ≤ maxBits + 1 →
      let st := (range' i n).foldl (rowStep pp prev i) ([], replicate (maxBits + 1) default)
      Q (i + n) st.1 ∧ st.2.length = maxBits + 1 ∧ ∀ j, i ≤ j → j < i + n → ∃ k, P j k ∧
        st.2.getD j default = extend pp (prev.getD k default) k j from
    (h (maxBits + 1 - i) (by omega)).2.2 j hij (by omega)
  intro n
  induction n with
  | zero => exact fun _ => ⟨h0, by simp, fun j h1 h2 => by omega⟩
  | succ n ih =>
    intro hn
    obtain ⟨hQ, hlen, hdone⟩ := ih (by omega)
    obtain ⟨hQ', hP⟩ := hstep (i + n) _ (by omega) (by omega) hQ
    simp only [range'_1_concat, foldl_append, foldl_cons, foldl_nil, rowStep]
    refine ⟨hQ', by simpa using hlen, fun j h1 h2 => ?_⟩
    rcases (show j = i + n ∨ j < i + n by omega) with rfl | hlt
    · exact ⟨_, hP, by rw [getD_eq_getElem _ _ (by simp [hlen]; omega), getElem_set_self]⟩
    · rw [getD_eq_getElem?_getD, getElem?_set_ne (by omega), ← getD_eq_getElem?_getD]
      exact hdone j h1 hlt

/-- **Every entry of the table** from the diagonal on is a split. -/
theorem splits_dp : ∀ (i : ℕ), 1 ≤ i → ∀ j, i ≤ j → j ≤ maxBits →
    Splits ((dp pp maxBits i).getD j default) i j
  | 0, h, _, _, _ => by omega
  | 1, _, j, h1, h2 => by
    rw [dp, firstRow, getD_eq_getElem _ _ (by simp; omega), getElem_map,
      getElem_range, if_neg (by omega)]
    exact ⟨rfl, rfl, by simp; omega⟩
  | i + 2, _, j, h1, h2 => by
    have hprev : ∀ k, i + 2 - 1 ≤ k → k ≤ maxBits →
        Splits ((dp pp maxBits (i + 1)).getD k default) (i + 2 - 1) k :=
      fun k hk1 hk2 => splits_dp (i + 1) (by omega) k (by omega) hk2
    obtain ⟨k, ⟨hk1, hk2⟩, he⟩ := nextRow_spec (P := fun j k => i + 2 - 1 ≤ k ∧ k < j)
      (Q := fun j dq => ∀ k ∈ dq, i + 2 - 1 ≤ k ∧ k < j) (by simp) (fun j dq hij _ hdq => by
        obtain ⟨hne, hmem⟩ := candidates_spec pp (dp pp maxBits (i + 1)) (by omega) hij hdq
        refine ⟨fun k hk => ⟨(hmem k hk).1, (hmem k hk).2.trans (Nat.lt_succ_self j)⟩, hmem _ ?_⟩
        exact headD_mem hne) h1 h2
    rw [dp, he]
    exact splits_extend (by omega) (hprev k hk1 (by omega)) hk2

/-! ### What the planner returns -/

/-- The selectors fit the fields of the header, which does not store their numbers and lengths. -/
structure Encodable (ss : List BitSelector) : Prop where
  ne_nil : ss ≠ []
  length_le : ss.length ≤ 16
  selector_eq : ∀ i (h : i < ss.length), ss[i].selector = BitVec.ofNat 64 i
  len_eq : ∀ s ∈ ss, s.len = bitWidth (BitVec.ofNat 64 (ss.length - 1))
  bits_range : ∀ s ∈ ss, 1 ≤ s.bits ∧ s.bits ≤ 64
  n_range : ∀ s ∈ ss, 1 ≤ s.n ∧ s.n ≤ 32

/-- A selector packs any single value of at most `maxBits` bits. -/
def Covers (ss : List BitSelector) (maxBits : ℕ) : Prop := ∃ s ∈ ss, s.bits = maxBits ∧ s.n = 1

theorem segmentN_range (s : Segments) (segNum i : ℕ) :
    1 ≤ (truncRat (segmentN s segNum i)).toNat ∧ (truncRat (segmentN s segNum i)).toNat ≤ 16 := by
  have h : 1 ≤ segmentN s segNum i ∧ segmentN s segNum i ≤ 16 := by
    unfold segmentN runLength
    split_ifs
    · norm_num [maxN]
    · exact ⟨le_min (le_max_right _ _) (by norm_num [maxN]), min_le_right _ _⟩
    · norm_num
  rw [truncRat_of_nonneg (by linarith [h.1])]
  have h1 : (1 : ℤ) ≤ ⌊segmentN s segNum i⌋ := Int.le_floor.2 (by exact_mod_cast h.1)
  have h2 : ⌊segmentN s segNum i⌋ ≤ (16 : ℤ) := by
    have := Int.floor_le_floor h.2
    simpa using this
  omega

theorem encodable_makeSelectors {s : Segments} (h : Splits s segNum maxBits) (h1 : 1 ≤ segNum)
    (h16 : segNum ≤ 16) (h64 : maxBits ≤ 64) :
    Encodable (makeSelectors s segNum) ∧ Covers (makeSelectors s segNum) maxBits := by
  have hlen : (makeSelectors s segNum).length = segNum := by simp [makeSelectors]
  refine ⟨⟨fun h0 => ?_, by omega, fun i hi => ?_, fun b hb => ?_, fun b hb => ?_,
    fun b hb => ?_⟩, ?_⟩
  · rw [h0] at hlen; simp at hlen; omega
  · simp [makeSelectors]
  · obtain ⟨i, -, rfl⟩ := mem_map.1 hb
    rw [hlen]
  · obtain ⟨i, hi, rfl⟩ := mem_map.1 hb
    rw [mem_range] at hi
    have := h.range (s.bounds.getD i 0) (by
      rw [getD_eq_getElem _ _ (by rw [h.length]; exact hi)]; exact getElem_mem _)
    simp only; omega
  · obtain ⟨i, -, rfl⟩ := mem_map.1 hb
    have := segmentN_range s segNum i
    simp only; omega
  · refine ⟨_, mem_map.2 ⟨segNum - 1, mem_range.2 (by omega), rfl⟩, ?_, ?_⟩
    · have hl := h.last
      rw [getLast?_eq_getElem?, h.length] at hl
      simp [getD_eq_getElem?_getD, hl]
    · simp [segmentN, truncRat]

theorem pickSegments_mem (best : ℕ → Segments) : ∀ (segNums : List ℕ) (st : Option ℕ × ℚ) {n : ℕ},
    (segNums.foldl (fun st segNum =>
      if (best segNum).bounds.length = 0 then st
      else if fullCost (best segNum) segNum < st.2 then (some segNum, fullCost (best segNum) segNum)
      else st) st).1 = some n → st.1 = some n ∨ n ∈ segNums
  | [], st, n, h => Or.inl h
  | m :: segNums, st, n, h => by
    rw [foldl_cons] at h
    rcases pickSegments_mem best segNums _ h with h' | h'
    · split_ifs at h'
      · exact Or.inl h'
      · rw [Option.some.injEq] at h'; exact Or.inr (by simp [h'])
      · exact Or.inl h'
    · exact Or.inr (mem_cons_of_mem _ h')

/-- **The selectors** for a largest width of at least two fit the header, and leave no value of that
width out. -/
theorem encodable_bitSelectors (cs : List BitCounter) (total : ℕ) (h2 : 2 ≤ maxBits)
    (h64 : maxBits ≤ 64) :
    Encodable (bitSelectors cs maxSegmentsNum maxBits total).1 ∧
      Covers (bitSelectors cs maxSegmentsNum maxBits total).1 maxBits := by
  rw [bitSelectors, if_neg (by omega)]
  simp only
  split
  · refine ⟨⟨by simp, by simp, by simp, by simp [bitWidth], by simp; omega, by simp⟩,
      by simp [Covers]⟩
  · rename_i segNum cost hpick
    have hmem := pickSegments_mem _ _ _ (congrArg Prod.fst hpick)
    rw [mem_range'_1] at hmem
    simp only [reduceCtorEq, false_or] at hmem
    unfold maxSegmentsNum at hmem
    exact encodable_makeSelectors (splits_dp segNum (by omega) maxBits (by omega) le_rfl) (by omega)
      (by omega) h64

end TopcDB.Chunkenc.BitSelectors
