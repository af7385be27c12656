import TopcDB.Go.Basic
import TopcDB.Lib.HeapOrder
import Mathlib.Algebra.Order.BigOperators.Group.List

/-! # Merged series sets (`genericMergeSeriesSet`)

The series of several sets are merged in the order of their labels. The sets that are at a series
wait in a heap; those with the labels of the last merged series are the current ones, which are
advanced only by the following call. The heap and the current sets are references to the sets, which
the model keeps as indices into their list. -/

namespace TopcDB.Storage.MergeSets

open Lib.Heap Lib.HeapOrder Go.Basic
open List hiding set

variable {σ S L : Type}

/-- The methods of a `genericSeriesSet`, and the labels of its series. -/
structure SetOps (σ S L : Type) where
  next : σ → Bool × σ
  series : σ → S
  err : σ → Option Err
  labels : S → L

/-- There are no labels before the first series. -/
structure MergeSeriesSet (σ L : Type) where
  currentLabels : Option L
  heap : List ℕ
  sets : List (Option σ)
  currentSets : List ℕ
  seriesLimit : ℤ
  mergedSeries : ℕ

/-- What `newGenericMergeSeriesSet` returns: the only set, an `errorOnlySeriesSet` or a merged
one. -/
inductive NewSet (σ L : Type)
  | only (set : Option σ)
  | errorOnly (err : Err)
  | merged (c : MergeSeriesSet σ L)

section model

variable [LinearOrder L] (O : SetOps σ S L)

/-- The series of the `i`-th set; a nil set has none. -/
def seriesAt (sets : List (Option σ)) (i : ℕ) : Option S := (sets[i]?.join).map O.series

/-- `genericSeriesSetHeap.Less`. -/
def less (sets : List (Option σ)) (i j : ℕ) : Bool :=
  match seriesAt O sets i, seriesAt O sets j with
  | some a, some b => decide (O.labels a < O.labels b)
  | _, _ => false

/-- The loop of `newGenericMergeSeriesSet`, which skips the sets that are nil. -/
def startLoop : List ℕ → List (Option σ) → List ℕ → Except Err (List (Option σ) × List ℕ)
  | [], sets, h => .ok (sets, h)
  | i :: is, sets, h =>
    match sets[i]?.join with
    | none => startLoop is sets h
    | some set =>
      let sets := sets.set i (some (O.next set).2)
      let h := if (O.next set).1 then push (less O sets) h i else h
      match O.err (O.next set).2 with
      | some err => .error err
      | none => startLoop is sets h

def newGenericMergeSeriesSet (sets : List (Option σ)) (seriesLimit : ℤ) : NewSet σ L :=
  match sets with
  | [set] => .only set
  | sets =>
    match startLoop O (range sets.length) sets [] with
    | .error err => .errorOnly err
    | .ok (sets, h) => .merged ⟨none, h, sets, [], seriesLimit, 0⟩

/-- The current sets are advanced. -/
def advanceLoop : List ℕ → List (Option σ) → List ℕ → Except Fault (List (Option σ) × List ℕ)
  | [], sets, h => .ok (sets, h)
  | i :: is, sets, h =>
    match sets[i]?.join with
    | none => .error .panic
    | some set =>
      let sets := sets.set i (some (O.next set).2)
      advanceLoop is sets (if (O.next set).1 then push (less O sets) h i else h)

/-- The sets with the labels `lset` are popped: the heap and the current sets. -/
def popLoop (sets : List (Option σ)) (lset : L) :
    ℕ → List ℕ → List ℕ → Except Fault (List ℕ × List ℕ)
  | 0, _, _ => .error .hang
  | _ + 1, [], currentSets => .ok ([], currentSets)
  | k + 1, top :: h, currentSets =>
    match seriesAt O sets top with
    | none => .error .panic
    | some s =>
      if lset = O.labels s then
        match pop (less O sets) (top :: h) with
        | none => .error .panic
        | some (i, h) => popLoop sets lset k h (currentSets ++ [i])
      else .ok (top :: h, currentSets)

def nextLoop : ℕ → MergeSeriesSet σ L → Except Fault (Bool × MergeSeriesSet σ L)
  | 0, _ => .error .hang
  | k + 1, c =>
    match advanceLoop O c.currentSets c.sets c.heap with
    | .error fault => .error fault
    | .ok (sets, []) => .ok (false, { c with sets := sets, heap := [] })
    | .ok (sets, top :: h) =>
      match seriesAt O sets top with
      | none => .error .panic
      | some s =>
        match popLoop O sets (O.labels s) (h.length + 2) (top :: h) [] with
        | .error fault => .error fault
        | .ok (h, currentSets) =>
          let c := { c with
            sets := sets
            heap := h
            currentSets := currentSets
            currentLabels := some (O.labels s) }
          if currentSets = [] then nextLoop k c
          else .ok (true, { c with mergedSeries := c.mergedSeries + 1 })

namespace MergeSeriesSet

/-- `Next`, with at most `fuel` turns of its loop. -/
def next (fuel : ℕ) (c : MergeSeriesSet σ L) : Except Fault (Bool × MergeSeriesSet σ L) :=
  if 0 < c.seriesLimit ∧ c.seriesLimit ≤ c.mergedSeries then .ok (false, c) else nextLoop O fuel c

/-- `At`. -/
def merge (mergeFunc : List S → S) (c : MergeSeriesSet σ L) : Except Fault S :=
  match c.currentSets with
  | [i] =>
    match seriesAt O c.sets i with
    | none => .error .panic
    | some s => .ok s
  | is =>
    match is.mapM (seriesAt O c.sets) with
    | none => .error .panic
    | some series => .ok (mergeFunc series)

/-- `Err`, which calls the method of every set, nil or not. -/
def err (c : MergeSeriesSet σ L) : Except Fault (Option Err) :=
  c.sets.foldlM (fun e set =>
    match e, set with
    | some err, _ => .ok (some err)
    | none, none => .error .panic
    | none, some set => .ok (O.err set)) none

/-- The labels and the series of all calls of `Next` that return true. -/
def drain (mergeFunc : List S → S) (fuel : ℕ) : ℕ → MergeSeriesSet σ L →
    Except Fault (List (Option L × S))
  | 0, _ => .error .hang
  | k + 1, c =>
    match c.next O fuel with
    | .error fault => .error fault
    | .ok (false, _) => .ok []
    | .ok (true, c) =>
      match c.merge O mergeFunc with
      | .error fault => .error fault
      | .ok s => (drain mergeFunc fuel k c).map fun l => (c.currentLabels, s) :: l

end MergeSeriesSet

end model

/-! ### Sets that end well -/

variable (O : SetOps σ S L)

/-- The calls of `Next` on a set give the series `l`, and no error. -/
def Delivers : σ → List S → Prop
  | set, [] => (O.next set).1 = false ∧ O.err (O.next set).2 = none
  | set, s :: l => (O.next set).1 = true ∧ O.series (O.next set).2 = s ∧
      O.err (O.next set).2 = none ∧ Delivers (O.next set).2 l

/-- What a list of sets delivers; a nil set delivers nothing. -/
def Provides (set : Option σ) (l : List S) : Prop :=
  match set with
  | none => l = []
  | some set => Delivers O set l

def Ascends [LinearOrder L] (l : List S) : Prop := l.Pairwise fun x y => O.labels x < O.labels y

theorem Delivers.err_eq_none {O : SetOps σ S L} {set : σ} {l : List S} (h : Delivers O set l) :
    O.err (O.next set).2 = none := by
  cases l with
  | nil => exact h.2
  | cons s l => exact h.2.2.1

/-- What `At` makes of the series with the same labels. -/
def mergeOf (mergeFunc : List S → S) : List S → S
  | [s] => s
  | series => mergeFunc series

variable {sets : List (Option σ)}

theorem mapM_seriesAt {O : SetOps σ S L} :
    ∀ {is : List ℕ}, (∀ j ∈ is, ∃ s, seriesAt O sets j = some s) →
    is.mapM (seriesAt O sets) = some (is.filterMap (seriesAt O sets)) ∧
      (is.filterMap (seriesAt O sets)).length = is.length
  | [], _ => ⟨rfl, rfl⟩
  | i :: is, h => by
    obtain ⟨s, hs⟩ := h i mem_cons_self
    obtain ⟨h1, h2⟩ := mapM_seriesAt fun j (hj : j ∈ is) => h j (mem_cons_of_mem _ hj)
    rw [mapM_cons, hs, h1, filterMap_cons_some hs, length_cons, h2]
    exact ⟨rfl, rfl⟩

section ascending

variable [LinearOrder L] {O : SetOps σ S L}

/-- The series with the labels `u` that the first `n` sets have, one of each set. -/
def carriers (O : SetOps σ S L) (n : ℕ) (rem : ℕ → List S) (u : L) : List S :=
  (range n).filterMap fun j => (rem j).find? fun s => decide (O.labels s = u)

/-- What is left without the series with the labels `u`. -/
def without (O : SetOps σ S L) (u : L) (rem : ℕ → List S) (j : ℕ) : List S :=
  (rem j).filter fun s => decide (O.labels s ≠ u)

section

variable {s : S} {l : List S} {u : L} (h : Ascends O (s :: l)) (hu : u ≤ O.labels s)
include h hu

theorem labels_ne : ∀ x ∈ l, O.labels x ≠ u :=
  fun _ hx => (hu.trans_lt (rel_of_pairwise_cons h hx)).ne'

theorem find?_head :
    (s :: l).find? (fun s => decide (O.labels s = u)) =
      if O.labels s = u then some s else none := by
  have hnone : l.find? (fun s => decide (O.labels s = u)) = none := by
    simpa [find?_eq_none] using labels_ne h hu
  rw [find?_cons, hnone]
  by_cases hs : O.labels s = u <;> simp [hs]

theorem filter_head :
    (s :: l).filter (fun s => decide (O.labels s ≠ u)) = if O.labels s = u then l else s :: l := by
  have hl : l.filter (fun s => decide (O.labels s ≠ u)) = l := by
    simpa [filter_eq_self] using labels_ne h hu
  rw [filter_cons, hl]
  by_cases hs : O.labels s = u <;> simp [hs]

end

theorem ascends_filter {l : List S} (h : Ascends O l) (p : S → Bool) : Ascends O (l.filter p) :=
  h.sublist filter_sublist

theorem find?_without {u v : L} {rem : ℕ → List S} (hv : v ≠ u) (j : ℕ) :
    (without O u rem j).find? (fun s => decide (O.labels s = v)) =
      (rem j).find? fun s => decide (O.labels s = v) := by
  rw [without, find?_filter]
  congr 1
  funext s
  by_cases hs : O.labels s = v
  · simp [hs, hv]
  · simp [hs]

theorem carriers_without {u v : L} {rem : ℕ → List S} (hv : v ≠ u) {n : ℕ} :
    carriers O n (without O u rem) v = carriers O n rem v :=
  filterMap_congr fun j _ => find?_without hv j

end ascending

section state

variable [Inhabited L] (O : SetOps σ S L)

def labelsAt (sets : List (Option σ)) (i : ℕ) : L := ((seriesAt O sets i).map O.labels).getD default

variable {j i n : ℕ} {set set' : σ}

theorem labelsAt_eq {O : SetOps σ S L} (h : sets[j]?.join = some set) :
    labelsAt O sets j = O.labels (O.series set) := by
  rw [labelsAt, seriesAt, h]
  rfl

variable [LinearOrder L]

/-- The series `rem` that the sets have left: a set in the heap is at the first of them, a current
one has delivered the one before. -/
structure Holds (sets : List (Option σ)) (heap current : List ℕ) (rem : ℕ → List S) : Prop where
  nodup : (current ++ heap).Nodup
  waits : ∀ j ∈ heap, ∃ set l, sets[j]?.join = some set ∧ rem j = O.series set :: l ∧
    Delivers O set l
  stands : ∀ j ∈ current, ∀ set, sets[j]?.join = some set → Delivers O set (rem j)
  isNil : ∀ j ∈ current, sets[j]?.join = none → rem j = []
  ended : ∀ j, j ∉ heap → j ∉ current → rem j = []
  ascends : ∀ j, Ascends O (rem j)
  heap : IsHeap (heap.map (labelsAt O sets))

variable {O} {sets : List (Option σ)} {heap current : List ℕ} {rem : ℕ → List S}

theorem join_set_self (h : sets[j]?.join = some set) :
    (sets.set j (some set'))[j]?.join = some set' := by
  have hj : j < sets.length := by
    by_contra hj
    rw [getElem?_eq_none (by omega)] at h
    cases h
  rw [getElem?_set_self hj]
  rfl

theorem join_set_ne (h : i ≠ j) : (sets.set j (some set'))[i]?.join = sets[i]?.join := by
  rw [getElem?_set_ne (Ne.symm h)]

theorem isHeap_set (h : IsHeap (heap.map (labelsAt O sets))) (hi : i ∉ heap) :
    IsHeap (heap.map (labelsAt O (sets.set i (some set')))) := by
  have hmap : heap.map (labelsAt O (sets.set i (some set'))) = heap.map (labelsAt O sets) :=
    map_congr_left fun j hj => by
      have hji : j ≠ i := fun he => hi (he ▸ hj)
      rw [labelsAt, seriesAt, join_set_ne hji]
      rfl
  rwa [hmap]

theorem compares_less {l : List ℕ} (h : ∀ j ∈ l, ∃ set, sets[j]?.join = some set) :
    Compares (less O sets) (labelsAt O sets) l := by
  intro i hi j hj
  obtain ⟨a, ha⟩ := h i hi
  obtain ⟨b, hb⟩ := h j hj
  rw [labelsAt_eq ha, labelsAt_eq hb]
  simp only [less, seriesAt, ha, hb, Option.map_some]
  rfl

/-- **A current set is advanced**, and put into the heap when it has a series. -/
theorem Holds.advance (h : Holds O sets heap (i :: current) rem)
    (hset : sets[i]?.join = some set) :
    Holds O (sets.set i (some (O.next set).2))
      (if (O.next set).1 then push (less O (sets.set i (some (O.next set).2))) heap i else heap)
      current rem := by
  set sets' := sets.set i (some (O.next set).2)
  obtain ⟨hni, hnd⟩ := nodup_cons.1 h.nodup
  have hjoin : ∀ j ∈ current ++ heap,
      sets'[j]?.join = sets[j]?.join := fun j hj =>
    join_set_ne fun he => hni (he ▸ hj)
  have hheap : IsHeap (heap.map (labelsAt O sets')) :=
    isHeap_set h.heap fun hi => hni (mem_append_right _ hi)
  have hwaits : ∀ j ∈ heap, ∃ set' l, sets'[j]?.join = some set' ∧
      rem j = O.series set' :: l ∧ Delivers O set' l := fun j hj => by
    rw [hjoin j (mem_append_right _ hj)]
    exact h.waits j hj
  have hstands := fun j hj set' (hs : sets'[j]?.join = some set') =>
    h.stands j (mem_cons_of_mem _ hj) set' (hjoin j (mem_append_left _ hj) ▸ hs)
  have hnil := fun j hj (hs : sets'[j]?.join = none) =>
    h.isNil j (mem_cons_of_mem _ hj) (hjoin j (mem_append_left _ hj) ▸ hs)
  have hdel := h.stands i mem_cons_self set hset
  rcases hr : rem i with _ | ⟨s, l⟩ <;> rw [hr] at hdel
  · rw [if_neg (by simp [hdel.1])]
    refine ⟨hnd, hwaits, hstands, hnil, fun j h1 h2 => ?_, h.ascends, hheap⟩
    by_cases hji : j = i
    · rw [hji, hr]
    · exact h.ended j h1 (by simp [hji, h2])
  · obtain ⟨hnext, hs, -, hdel⟩ := hdel
    have hperm := push_perm (less O sets') heap i
    rw [← hs] at hr
    have hwaits' := forall_mem_cons.2 ⟨⟨_, l, join_set_self hset, hr, hdel⟩, hwaits⟩
    rw [if_pos hnext]
    refine ⟨((hperm.append_left current).trans perm_middle).nodup_iff.2 h.nodup,
      fun j hj => hwaits' j (hperm.mem_iff.1 hj), hstands, hnil, fun j h1 h2 => ?_, h.ascends,
      isHeap_map_push (compares_less fun j hj => ?_) hheap⟩
    · rw [hperm.mem_iff, mem_cons, not_or] at h1
      exact h.ended j h1.2 (by simp [h1.1, h2])
    · obtain ⟨set', -, hs', -⟩ := hwaits' j hj
      exact ⟨set', hs'⟩

theorem Holds.skip (h : Holds O sets heap (i :: current) rem) (hset : sets[i]?.join = none) :
    Holds O sets heap current rem where
  nodup := (nodup_cons.1 h.nodup).2
  waits := h.waits
  stands j hj := h.stands j (mem_cons_of_mem _ hj)
  isNil j hj := h.isNil j (mem_cons_of_mem _ hj)
  ended j h1 h2 := by
    by_cases hji : j = i
    · rw [hji]
      exact h.isNil i mem_cons_self hset
    · exact h.ended j h1 (by simp [hji, h2])
  ascends := h.ascends
  heap := h.heap

theorem startLoop_spec : ∀ {is : List ℕ} {sets : List (Option σ)} {heap : List ℕ},
    Holds O sets heap is rem →
    ∃ sets' heap', startLoop O is sets heap = .ok (sets', heap') ∧ Holds O sets' heap' [] rem ∧
      sets'.length = sets.length
  | [], sets, heap, h => ⟨sets, heap, rfl, h, rfl⟩
  | i :: is, sets, heap, h => by
    rw [startLoop]
    rcases hset : sets[i]?.join with _ | set
    · exact startLoop_spec (h.skip hset)
    · simp only [(h.stands i mem_cons_self set hset).err_eq_none]
      obtain ⟨sets', heap', h1, h2, h3⟩ := startLoop_spec (h.advance hset)
      exact ⟨sets', heap', h1, h2, h3.trans length_set⟩

theorem advanceLoop_spec : ∀ {is : List ℕ} {sets : List (Option σ)} {heap : List ℕ},
    Holds O sets heap is rem → (∀ j ∈ is, ∃ set, sets[j]?.join = some set) →
    ∃ sets' heap', advanceLoop O is sets heap = .ok (sets', heap') ∧ Holds O sets' heap' [] rem ∧
      sets'.length = sets.length
  | [], sets, heap, h, _ => ⟨sets, heap, rfl, h, rfl⟩
  | i :: is, sets, heap, h, hsome => by
    obtain ⟨set, hset⟩ := hsome i mem_cons_self
    have hni : i ∉ is := fun hi => (nodup_cons.1 h.nodup).1 (mem_append_left _ hi)
    have hsome' : ∀ j ∈ is, ∃ set', (sets.set i (some (O.next set).2))[j]?.join = some set' := by
      intro j hj
      rw [join_set_ne fun (he : j = i) => hni (he ▸ hj)]
      exact hsome j (mem_cons_of_mem _ hj)
    simp only [advanceLoop, hset]
    obtain ⟨sets', heap', h1, h2, h3⟩ := advanceLoop_spec (h.advance hset) hsome'
    exact ⟨sets', heap', h1, h2, h3.trans length_set⟩

/-- The loop pops exactly the sets with the smallest labels. -/
theorem popLoop_spec {lset : L} : ∀ {k : ℕ} {h : List ℕ} (current : List ℕ),
    (∀ j ∈ h, ∃ set, sets[j]?.join = some set) → IsHeap (h.map (labelsAt O sets)) →
    (∀ j ∈ h, lset ≤ labelsAt O sets j) → h.length < k →
    ∃ h' popped, popLoop O sets lset k h current = .ok (h', current ++ popped) ∧
      (popped ++ h').Perm h ∧ IsHeap (h'.map (labelsAt O sets)) ∧
      (∀ j ∈ popped, labelsAt O sets j = lset) ∧ ∀ j ∈ h', lset < labelsAt O sets j
  | 0, _, _, _, _, _, hk => by omega
  | _ + 1, [], current, _, hh, _, _ =>
    ⟨[], [], by rw [popLoop, append_nil], List.Perm.refl _, hh, by simp, by simp⟩
  | k + 1, top :: tl, current, hsome, hh, hle, hk => by
    obtain ⟨set, hset⟩ := hsome top mem_cons_self
    have hlab := labelsAt_eq (O := O) hset
    simp only [popLoop, seriesAt, hset, Option.map_some]
    split_ifs with heq
    · obtain ⟨i, h', hpop⟩ := pop_ne_nil (less O sets) (cons_ne_nil top tl)
      have hperm := pop_perm _ hpop
      obtain ⟨hh', hmin⟩ := isHeap_map_pop (compares_less hsome) hh hpop
      have hmem : ∀ j ∈ h', j ∈ top :: tl := fun j hj =>
        hperm.mem_iff.1 (mem_cons_of_mem _ hj)
      have hi : labelsAt O sets i = lset := by
        refine le_antisymm ?_ (hle i (hperm.mem_iff.1 mem_cons_self))
        rw [heq, ← hlab]
        exact hmin top mem_cons_self
      have hlen : h'.length + 1 = tl.length + 1 := by simpa using hperm.length_eq
      obtain ⟨h'', popped, e1, e2, e3, e4, e5⟩ := popLoop_spec (k := k) (current ++ [i])
        (fun j hj => hsome j (hmem j hj)) hh' (fun j hj => hle j (hmem j hj))
        (by rw [length_cons] at hk; omega)
      refine ⟨h'', i :: popped, by simp only [hpop, e1, append_assoc, singleton_append],
        (e2.cons i).trans hperm, e3, ?_, e5⟩
      rw [forall_mem_cons]
      exact ⟨hi, e4⟩
    · have hlt : lset < labelsAt O sets top :=
        lt_of_le_of_ne (hle top mem_cons_self) (by rwa [hlab])
      refine ⟨top :: tl, [], by rw [append_nil], List.Perm.refl _, hh, by simp, fun j hj => ?_⟩
      exact hlt.trans_le (hh.head_le rfl _ (mem_map_of_mem hj))

/-! ### One call of `Next` -/

/-- A call of `Next` that returns true: the current sets are those with the smallest labels `u`. -/
structure Steps (O : SetOps σ S L) (rem : ℕ → List S) (u : L) (c c' : MergeSeriesSet σ L) :
    Prop where
  labels : c'.currentLabels = some u
  limit : c'.seriesLimit = c.seriesLimit
  count : c'.mergedSeries = c.mergedSeries + 1
  length : c'.sets.length = c.sets.length
  nonempty : c'.currentSets ≠ []
  series : ∀ j ∈ c'.currentSets, ∃ s l, seriesAt O c'.sets j = some s ∧ rem j = s :: l ∧
    O.labels s = u
  least : ∀ j s l, rem j = s :: l → u ≤ O.labels s
  complete : ∀ j s l, rem j = s :: l → O.labels s = u → j ∈ c'.currentSets
  holds : Holds O c'.sets c'.heap c'.currentSets (without O u rem)

theorem nextLoop_spec {c : MergeSeriesSet σ L} (h : Holds O c.sets c.heap c.currentSets rem)
    (hsome : ∀ j ∈ c.currentSets, ∃ set, c.sets[j]?.join = some set) (k : ℕ) :
    ((∀ j, rem j = []) ∧ ∃ c', nextLoop O (k + 1) c = .ok (false, c')) ∨
    ∃ u c', nextLoop O (k + 1) c = .ok (true, c') ∧ Steps O rem u c c' := by
  obtain ⟨sets, heap, hadv, hold, hlen⟩ := advanceLoop_spec h hsome
  rcases heap with _ | ⟨top, tl⟩
  · exact .inl ⟨fun j => hold.ended j (by simp) (by simp), { c with sets := sets, heap := [] },
      by simp only [nextLoop, hadv]⟩
  right
  have hwait : ∀ j ∈ top :: tl, ∃ set, sets[j]?.join = some set := fun j hj =>
    let ⟨set, _, hset, _⟩ := hold.waits j hj
    ⟨set, hset⟩
  obtain ⟨set, l, hset, -, -⟩ := hold.waits top mem_cons_self
  have htop : seriesAt O sets top = some (O.series set) := by rw [seriesAt, hset]; rfl
  set u := O.labels (O.series set) with hu
  have hleast : ∀ j ∈ top :: tl, u ≤ labelsAt O sets j := fun j hj => by
    rw [hu, ← labelsAt_eq hset]
    exact hold.heap.head_le rfl _ (mem_map_of_mem hj)
  obtain ⟨h', popped, hpop, hperm, hheap', hlab, hgt⟩ := popLoop_spec (k := tl.length + 2) [] hwait
    hold.heap hleast (by rw [length_cons]; omega)
  rw [nil_append] at hpop
  have hnd : (popped ++ h').Nodup := hperm.nodup_iff.2 hold.nodup
  have hmem : ∀ {j}, j ∈ popped ++ h' ↔ j ∈ top :: tl := hperm.mem_iff
  have hne : popped ≠ [] := by
    rintro rfl
    refine absurd (hgt top (hmem.2 mem_cons_self)) ?_
    rw [labelsAt_eq hset]
    exact lt_irrefl u
  have hhead : ∀ j s l, rem j = s :: l → j ∈ top :: tl ∧ labelsAt O sets j = O.labels s := by
    intro j s l hr
    have hj : j ∈ top :: tl := by
      by_contra hj
      rw [hold.ended j hj (by simp)] at hr
      cases hr
    obtain ⟨set', l', hset', hr', -⟩ := hold.waits j hj
    obtain rfl : O.series set' = s := (cons.inj (hr'.symm.trans hr)).1
    exact ⟨hj, labelsAt_eq hset'⟩
  have hpopped : ∀ j ∈ popped, ∃ set' l', sets[j]?.join = some set' ∧
      rem j = O.series set' :: l' ∧ Delivers O set' l' ∧ O.labels (O.series set') = u := by
    intro j hj
    obtain ⟨set', l', hset', hr', hdel⟩ := hold.waits j (hmem.1 (mem_append_left _ hj))
    exact ⟨set', l', hset', hr', hdel, by rw [← labelsAt_eq hset', hlab j hj]⟩
  have hleast' : ∀ j s l, rem j = s :: l → u ≤ O.labels s := fun j s l hr => by
    obtain ⟨hj, he⟩ := hhead j s l hr
    rw [← he]
    exact hleast j hj
  refine ⟨u, ⟨some u, h', sets, popped, c.seriesLimit, c.mergedSeries + 1⟩,
    by simp only [nextLoop, hadv, htop, ← hu, hpop, if_neg hne], rfl, rfl, rfl, hlen, hne,
    fun j hj => ?_, hleast', fun j s l hr hs => ?_, hnd, fun j hj => ?_, fun j hj set' hs' => ?_,
    fun j hj hs' => ?_, fun j h1 h2 => ?_, fun j => ascends_filter (h.ascends j) _, hheap'⟩
  · obtain ⟨set', l', hset', hr', -, hs⟩ := hpopped j hj
    exact ⟨O.series set', l', by simp only [seriesAt, hset']; rfl, hr', hs⟩
  · obtain ⟨hj, he⟩ := hhead j s l hr
    rcases mem_append.1 (hmem.2 hj) with hj | hj
    · exact hj
    · exact absurd (hgt j hj) (by rw [he, hs]; exact lt_irrefl u)
  · obtain ⟨set', l', hset', hr', hdel⟩ := hold.waits j (hmem.1 (mem_append_right _ hj))
    refine ⟨set', l', hset', ?_, hdel⟩
    have hgt' := hgt j hj
    rw [labelsAt_eq hset'] at hgt'
    rw [without, hr', filter_head (hr' ▸ h.ascends j) hgt'.le, if_neg hgt'.ne']
  · obtain ⟨set'', l', hset'', hr', hdel, hs⟩ := hpopped j hj
    cases hset''.symm.trans hs'
    rw [without, hr', filter_head (hr' ▸ h.ascends j) hs.ge, if_pos hs]
    exact hdel
  · obtain ⟨set'', l', hset'', -⟩ := hpopped j hj
    simp only at hs'
    rw [hset''] at hs'
    cases hs'
  · rw [without, hold.ended j (fun hj => ?_) (by simp), filter_nil]
    rcases mem_append.1 (hmem.2 hj) with hj | hj
    · exact h2 hj
    · exact h1 hj

/-! ### Whole runs -/

/-- What draining has given: the labels `u` of all series in ascending order, each with the merge of
the series that carry it. -/
structure Yields (O : SetOps σ S L) (mergeFunc : List S → S) (n : ℕ) (rem : ℕ → List S)
    (out : List (Option L × S)) (us : List L) : Prop where
  labels : out.map Prod.fst = us.map some
  ascends : us.Pairwise (· < ·)
  covers : ∀ u, u ∈ us ↔ ∃ j < n, ∃ s ∈ rem j, O.labels s = u
  merges : ∀ u s, (some u, s) ∈ out →
    ∃ series, series.Perm (carriers O n rem u) ∧ s = mergeOf mergeFunc series

def total (n : ℕ) (rem : ℕ → List S) : ℕ := ((range n).map fun j => (rem j).length).sum

section steps

variable {u : L} {c c' : MergeSeriesSet σ L} {n : ℕ} (h : Steps O rem u c c')
  (hasc : ∀ j, Ascends O (rem j)) (hn : c'.sets.length = n)
include h

theorem Steps.nonNil : ∀ j ∈ c'.currentSets, ∃ set, c'.sets[j]?.join = some set := by
  intro j hj
  obtain ⟨s, l, hs, -⟩ := h.series j hj
  rw [seriesAt, Option.map_eq_some_iff] at hs
  obtain ⟨set, hset, -⟩ := hs
  exact ⟨set, hset⟩

theorem Steps.merge (mergeFunc : List S → S) :
    c'.merge O mergeFunc =
      .ok (mergeOf mergeFunc (c'.currentSets.filterMap (seriesAt O c'.sets))) := by
  have hsome : ∀ j ∈ c'.currentSets, ∃ s, seriesAt O c'.sets j = some s := fun j hj =>
    let ⟨s, _, hs, _⟩ := h.series j hj
    ⟨s, hs⟩
  obtain ⟨hmap, hlen⟩ := mapM_seriesAt hsome
  unfold MergeSeriesSet.merge
  rcases hc : c'.currentSets with _ | ⟨i, _ | ⟨j, is⟩⟩
  · exact absurd hc h.nonempty
  · obtain ⟨s, hs⟩ := hsome i (by rw [hc]; exact mem_cons_self)
    simp only [filterMap_cons_some hs, filterMap_nil, hs, mergeOf]
  · rw [hc] at hmap hlen
    simp only [hmap]
    rcases hf : (i :: j :: is).filterMap (seriesAt O c'.sets) with _ | ⟨a, _ | ⟨b, l⟩⟩
    · rw [hf] at hlen; simp at hlen
    · rw [hf] at hlen; simp at hlen
    · rfl

include hasc

theorem Steps.find? (j : ℕ) :
    (rem j).find? (fun s => decide (O.labels s = u)) =
      if j ∈ c'.currentSets then seriesAt O c'.sets j else none := by
  rcases hr : rem j with _ | ⟨s, l⟩
  · rw [if_neg]
    · rfl
    · intro hj
      obtain ⟨s, l, -, hr', -⟩ := h.series j hj
      rw [hr] at hr'
      cases hr'
  · rw [find?_head (hr ▸ hasc j) (h.least j s l hr)]
    by_cases hj : j ∈ c'.currentSets
    · obtain ⟨s', l', hs, hr', hlab⟩ := h.series j hj
      obtain ⟨rfl, -⟩ := cons.inj (hr.symm.trans hr')
      rw [if_pos hj, if_pos hlab, hs]
    · rw [if_neg hj, if_neg fun hlab => hj (h.complete j s l hr hlab)]

include hn

omit hasc in
theorem Steps.lt (hj : j ∈ c'.currentSets) : j < n := by
  obtain ⟨set, hset⟩ := h.nonNil j hj
  by_contra hlt
  rw [getElem?_eq_none (by omega)] at hset
  cases hset

theorem Steps.perm :
    (c'.currentSets.filterMap (seriesAt O c'.sets)).Perm (carriers O n rem u) := by
  have hnd : c'.currentSets.Nodup := (nodup_append.1 h.holds.nodup).1
  have hperm : ((range n).filter fun j => decide (j ∈ c'.currentSets)).Perm c'.currentSets := by
    refine (perm_ext_iff_of_nodup (nodup_range.filter _) hnd).2 fun j => ?_
    rw [mem_filter, mem_range, decide_eq_true_iff]
    exact and_iff_right_of_imp (h.lt hn)
  have hcar : carriers O n rem u = ((range n).filter fun j => decide (j ∈ c'.currentSets)).filterMap
      (seriesAt O c'.sets) := by
    rw [carriers, filterMap_filter]
    refine filterMap_congr fun j _ => ?_
    rw [h.find? hasc j]
    simp only [decide_eq_true_iff]
  rw [hcar]
  exact (hperm.filterMap _).symm

theorem Steps.total_lt : total n (without O u rem) < total n rem := by
  obtain ⟨j, hj⟩ := exists_mem_of_ne_nil _ h.nonempty
  obtain ⟨s, l, -, hr, hs⟩ := h.series j hj
  refine sum_lt_sum _ _ (fun i _ => length_filter_le _ _)
    ⟨j, mem_range.2 (h.lt hn hj), ?_⟩
  rw [without, hr, filter_head (hr ▸ hasc j) hs.ge, if_pos hs, length_cons]
  exact Nat.lt_succ_self _

theorem Steps.yields {mergeFunc : List S → S} {out : List (Option L × S)} {us : List L}
    (hy : Yields O mergeFunc n (without O u rem) out us) :
    Yields O mergeFunc n rem
      ((some u, mergeOf mergeFunc (c'.currentSets.filterMap (seriesAt O c'.sets))) :: out)
      (u :: us) := by
  have hgt : ∀ j, ∀ s ∈ without O u rem j, u < O.labels s := by
    intro j s hs
    obtain ⟨hs, hne⟩ := mem_filter.1 hs
    refine lt_of_le_of_ne ?_ (Ne.symm (of_decide_eq_true hne))
    rcases hr : rem j with _ | ⟨x, l⟩ <;> rw [hr] at hs
    · cases hs
    · rcases mem_cons.1 hs with rfl | hs
      · exact h.least j s l hr
      · exact (h.least j x l hr).trans (rel_of_pairwise_cons (hr ▸ hasc j) hs).le
  have hus : ∀ v ∈ us, u < v := by
    intro v hv
    obtain ⟨j, -, s, hs, rfl⟩ := (hy.covers v).1 hv
    exact hgt j s hs
  refine ⟨by rw [map_cons, map_cons, hy.labels], List.Pairwise.cons hus hy.ascends,
    fun v => ?_, fun v s hv => ?_⟩
  · rw [mem_cons, hy.covers]
    constructor
    · rintro (rfl | ⟨j, hj, s, hs, hsv⟩)
      · obtain ⟨j, hj⟩ := exists_mem_of_ne_nil _ h.nonempty
        obtain ⟨s, l, -, hr, hs⟩ := h.series j hj
        exact ⟨j, h.lt hn hj, s, by rw [hr]; exact mem_cons_self, hs⟩
      · exact ⟨j, hj, s, (mem_filter.1 hs).1, hsv⟩
    · rintro ⟨j, hj, s, hs, rfl⟩
      by_cases hne : O.labels s = u
      · exact Or.inl hne
      · exact .inr ⟨j, hj, s, mem_filter.2 ⟨hs, by simpa using hne⟩, rfl⟩
  · rcases mem_cons.1 hv with hv | hv
    · obtain ⟨hvu, rfl⟩ := Prod.mk.inj hv
      cases hvu
      exact ⟨_, h.perm hasc hn, rfl⟩
    · have hmem : some v ∈ us.map some := hy.labels ▸ mem_map_of_mem (f := Prod.fst) hv
      obtain ⟨v', hv', he⟩ := mem_map.1 hmem
      obtain rfl := Option.some.inj he
      obtain ⟨series, hperm, hs⟩ := hy.merges v' s hv
      exact ⟨series, carriers_without (hus v' hv').ne' ▸ hperm, hs⟩

end steps

theorem drain_spec (mergeFunc : List S → S) (fuel : ℕ) : ∀ {k : ℕ} {c : MergeSeriesSet σ L}
    {rem : ℕ → List S}, Holds O c.sets c.heap c.currentSets rem →
    (∀ j ∈ c.currentSets, ∃ set, c.sets[j]?.join = some set) → c.sets.length = n →
    c.seriesLimit ≤ 0 → total n rem < k →
    ∃ out us, c.drain O mergeFunc (fuel + 1) k = .ok out ∧ Yields O mergeFunc n rem out us
  | 0, _, _, _, _, _, _, hk => by omega
  | k + 1, c, rem, h, hsome, hn, hlim, hk => by
    have hnext : c.next O (fuel + 1) = nextLoop O (fuel + 1) c := by
      rw [MergeSeriesSet.next, if_neg (by omega)]
    rcases nextLoop_spec h hsome fuel with ⟨hnil, c', hloop⟩ | ⟨u, c', hloop, hs⟩
    · refine ⟨[], [], by rw [MergeSeriesSet.drain, hnext, hloop], rfl, List.Pairwise.nil,
        fun u => ?_, by simp⟩
      simp [hnil]
    · have hn' : c'.sets.length = n := hs.length.trans hn
      have hlt := hs.total_lt h.ascends hn'
      obtain ⟨out, us, hdrain, hy⟩ := drain_spec mergeFunc fuel (k := k) hs.holds hs.nonNil hn'
        (by rw [hs.limit]; exact hlim) (by omega)
      refine ⟨_, u :: us, ?_, hs.yields h.ascends hn' hy⟩
      rw [MergeSeriesSet.drain, hnext, hloop]
      simp only [hs.merge, hdrain, Except.map, hs.labels]

end state

/-! ### The limit -/

section

variable [LinearOrder L] (O : SetOps σ S L) (mergeFunc : List S → S)

/-- The loop of `Next` does not look at the limit and the counter. -/
theorem nextLoop_limit (limit : ℤ) (m : ℕ) : ∀ (k : ℕ) (c : MergeSeriesSet σ L),
    nextLoop O k { c with seriesLimit := limit, mergedSeries := m } =
      (nextLoop O k c).map fun r => (r.1, { r.2 with
        seriesLimit := limit
        mergedSeries := if r.1 then m + 1 else m })
  | 0, _ => rfl
  | k + 1, c => by
    rw [nextLoop, nextLoop]
    simp only
    rcases advanceLoop O c.currentSets c.sets c.heap with fault | ⟨sets, _ | ⟨top, h⟩⟩
    · rfl
    · rfl
    · simp only
      rcases seriesAt O sets top with _ | s
      · rfl
      · simp only
        rcases popLoop O sets (O.labels s) (h.length + 2) (top :: h) [] with fault | ⟨h', current⟩
        · rfl
        · simp only
          split_ifs
          · exact nextLoop_limit limit m k ⟨some (O.labels s), h', sets, current, _, _⟩
          · rfl

/-- A limit cuts what is drained without one. -/
theorem drain_limit (limit : ℕ) (hl : 0 < limit) (fuel : ℕ) : ∀ {k m : ℕ} {c : MergeSeriesSet σ L}
    {out : List (Option L × S)}, m ≤ limit →
    ({ c with seriesLimit := 0, mergedSeries := m } : MergeSeriesSet σ L).drain O mergeFunc fuel k =
      .ok out →
    ({ c with seriesLimit := limit, mergedSeries := m } : MergeSeriesSet σ L).drain O
      mergeFunc fuel k =
      .ok (out.take (limit - m))
  | 0, _, _, _, _, h => by cases h
  | k + 1, m, c, out, hm, h => by
    rw [MergeSeriesSet.drain, MergeSeriesSet.next] at h ⊢
    rw [if_neg (by simp)] at h
    by_cases hlim : m = limit
    · subst hlim
      rw [if_pos ⟨by simpa using hl, le_rfl⟩, Nat.sub_self, take_zero]
    · rw [if_neg (by simp only [Nat.cast_le, not_and_or]; right; omega)]
      rw [nextLoop_limit] at h ⊢
      rcases hn : nextLoop O fuel c with fault | ⟨b, c'⟩ <;> rw [hn] at h
      · cases h
      · cases b with
        | false =>
          cases h
          rw [take_nil]
          rfl
        | true =>
          have hmerge : ∀ limit m, ({ c' with seriesLimit := limit, mergedSeries := m } :
              MergeSeriesSet σ L).merge O mergeFunc = c'.merge O mergeFunc := fun _ _ => rfl
          simp only [Except.map, if_true, hmerge] at h ⊢
          rcases hs : c'.merge O mergeFunc with fault | s
          · simp [hs] at h
          · simp only [hs] at h ⊢
            rcases hd : ({ c' with seriesLimit := 0, mergedSeries := m + 1 } :
                MergeSeriesSet σ L).drain O mergeFunc fuel k with fault | out'
            · simp [hd] at h
            · rw [hd] at h
              cases h
              rw [drain_limit limit hl fuel (by omega) hd]
              simp only [show limit - m = limit - (m + 1) + 1 by omega, take_succ_cons]

end

/-! ### All series of all sets -/

section

variable [LinearOrder L] {O : SetOps σ S L}

theorem carriers_getD (ls : List (List S)) (u : L) :
    carriers O ls.length (fun j => ls.getD j []) u =
      ls.filterMap fun l => l.find? fun s => decide (O.labels s = u) := by
  have hls : ls = (range ls.length).map fun j => ls.getD j [] :=
    ext_getElem (by simp) fun j h1 h2 => by simp [getElem?_eq_getElem h1]
  conv_rhs => rw [hls]
  rw [carriers, filterMap_map]
  rfl

theorem Yields.lists {mergeFunc : List S → S} {ls : List (List S)} {out : List (Option L × S)}
    {us : List L} (h : Yields O mergeFunc ls.length (fun j => ls.getD j []) out us) :
    (∀ u, u ∈ us ↔ ∃ l ∈ ls, ∃ s ∈ l, O.labels s = u) ∧
      ∀ u s, (some u, s) ∈ out → ∃ series,
        series.Perm (ls.filterMap fun l => l.find? fun s => decide (O.labels s = u)) ∧
        s = mergeOf mergeFunc series := by
  refine ⟨fun u => ?_, fun u s hmem => ?_⟩
  · rw [h.covers]
    constructor
    · rintro ⟨j, hj, s, hs, hu⟩
      rw [getD_eq_getElem _ _ hj] at hs
      exact ⟨_, getElem_mem hj, s, hs, hu⟩
    · rintro ⟨l, hl, s, hs, hu⟩
      obtain ⟨j, hj, rfl⟩ := getElem_of_mem hl
      exact ⟨j, hj, s, by rwa [getD_eq_getElem _ _ hj], hu⟩
  · obtain ⟨series, hperm, hs⟩ := h.merges u s hmem
    rw [carriers_getD] at hperm
    exact ⟨series, hperm, hs⟩

variable [Inhabited L]

theorem holds_start {ls : List (List S)} (hp : List.Forall₂ (Provides O) sets ls)
    (hasc : ∀ l ∈ ls, Ascends O l) :
    Holds O sets [] (range sets.length) fun j => ls.getD j [] := by
  have hget : ∀ j < sets.length, ∀ set, sets[j]?.join = set → Provides O set (ls.getD j []) := by
    rintro j hj set rfl
    rw [getD_eq_getElem _ _ (hp.length_eq ▸ hj), getElem?_eq_getElem hj]
    exact hp.get hj (hp.length_eq ▸ hj)
  refine ⟨by simpa using nodup_range, by simp, fun j hj set hset => ?_, fun j hj hset => ?_,
    fun j _ hj => ?_, fun j => ?_, fun i h0 hi => by simp at hi⟩
  · exact hget j (mem_range.1 hj) _ hset
  · exact hget j (mem_range.1 hj) _ hset
  · rw [mem_range, hp.length_eq, not_lt] at hj
    exact getD_eq_default _ _ hj
  · by_cases hj : j < ls.length
    · rw [getD_eq_getElem _ _ hj]
      exact hasc _ (getElem_mem hj)
    · rw [getD_eq_default _ _ (not_lt.1 hj)]
      exact List.Pairwise.nil

/-- **Draining a merged series set** gives the labels of all series in ascending order, up to the
limit, each with the merge of the series that carry it, one of each set that has it. -/
theorem drain_merged {sets : List (Option σ)} {ls : List (List S)} (h2 : 2 ≤ sets.length)
    (hp : List.Forall₂ (Provides O) sets ls) (hasc : ∀ l ∈ ls, Ascends O l) (limit : ℤ)
    (mergeFunc : List S → S) (fuel : ℕ) {k : ℕ} (hk : (ls.map length).sum < k) :
    ∃ c out, ∃ us : List L, newGenericMergeSeriesSet O sets limit = .merged c ∧
      c.drain O mergeFunc (fuel + 1) k = .ok out ∧ us.Pairwise (· < ·) ∧
      (∀ u, u ∈ us ↔ ∃ l ∈ ls, ∃ s ∈ l, O.labels s = u) ∧
      out.map Prod.fst = (if 0 < limit then us.take limit.toNat else us).map some ∧
      ∀ u s, (some u, s) ∈ out → ∃ series,
        series.Perm (ls.filterMap fun l => l.find? fun s => decide (O.labels s = u)) ∧
        s = mergeOf mergeFunc series := by
  obtain ⟨sets', heap, hstart, hold, hlen⟩ := startLoop_spec (holds_start hp hasc)
  have hlen' : sets'.length = ls.length := hlen.trans hp.length_eq
  have htotal : total ls.length (fun j => ls.getD j []) = (ls.map length).sum :=
    congrArg sum (ext_getElem (by simp) fun j h1 h2 => by
      have hj : j < ls.length := by simpa using h1
      simp [getElem?_eq_getElem hj])
  have hnew : newGenericMergeSeriesSet O sets limit =
      .merged ⟨none, heap, sets', [], limit, 0⟩ := by
    rcases sets with _ | ⟨a, _ | ⟨b, sets⟩⟩
    · simp at h2
    · simp at h2
    · simp only [newGenericMergeSeriesSet, hstart]
  have hfull : ∀ lim : ℤ, lim ≤ 0 → ∃ full us,
      (⟨none, heap, sets', [], lim, 0⟩ : MergeSeriesSet σ L).drain O mergeFunc (fuel + 1) k =
        .ok full ∧ Yields O mergeFunc ls.length (fun j => ls.getD j []) full us := fun lim hlim =>
    drain_spec mergeFunc fuel (c := ⟨none, heap, sets', [], lim, 0⟩) hold (by simp) hlen' hlim
      (by rw [htotal]; exact hk)
  by_cases hlim : 0 < limit
  · obtain ⟨full, us, hdrain, hy⟩ := hfull 0 le_rfl
    obtain ⟨hcover, hmerge⟩ := hy.lists
    obtain ⟨n, rfl⟩ := Int.eq_ofNat_of_zero_le hlim.le
    have hcut := drain_limit O mergeFunc n (by omega) (fuel + 1) (m := 0)
      (c := ⟨none, heap, sets', [], 0, 0⟩) (Nat.zero_le n) hdrain
    refine ⟨_, full.take n, us, hnew, hcut, hy.ascends, hcover, ?_, fun u s hmem =>
      hmerge u s (take_subset _ _ hmem)⟩
    rw [if_pos hlim, map_take, hy.labels, map_take]
    rfl
  · obtain ⟨full, us, hdrain, hy⟩ := hfull limit (not_lt.1 hlim)
    obtain ⟨hcover, hmerge⟩ := hy.lists
    exact ⟨_, full, us, hnew, hdrain, hy.ascends, hcover, by rw [if_neg hlim, hy.labels], hmerge⟩

end

/-- A set over a list: the series it is at, and those to come. -/
def listSet : SetOps (ℕ × List ℕ) ℕ ℕ where
  next
    | (s, []) => (false, s, [])
    | (_, s :: l) => (true, s, l)
  series := Prod.fst
  err _ := none
  labels := id

theorem delivers_listSet : ∀ (l : List ℕ) (s : ℕ), Delivers listSet (s, l) l
  | [], _ => ⟨rfl, rfl⟩
  | s :: l, _ => ⟨rfl, rfl, rfl, delivers_listSet l s⟩

/-- Three sets, the first of which is nil. -/
theorem drain_merged_lists : ∃ c out, ∃ us : List ℕ,
    newGenericMergeSeriesSet listSet [none, some (0, [1, 3]), some (0, [3])] 1 = .merged c ∧
      c.drain listSet sum 1 4 = .ok out ∧ us.Pairwise (· < ·) ∧
      (∀ u, u ∈ us ↔ ∃ l ∈ [[], [1, 3], [3]], ∃ s ∈ l, listSet.labels s = u) ∧
      out.map Prod.fst = (if (0 : ℤ) < 1 then us.take (1 : ℤ).toNat else us).map some ∧
      ∀ u s, (some u, s) ∈ out → ∃ series,
        series.Perm ([[], [1, 3], [3]].filterMap fun l =>
          l.find? fun s => decide (listSet.labels s = u)) ∧ s = mergeOf sum series := by
  have hp : List.Forall₂ (Provides listSet) [none, some (0, [1, 3]), some (0, [3])]
      [[], [1, 3], [3]] :=
    .cons (by rw [Provides]) (.cons (delivers_listSet _ _) (.cons (delivers_listSet _ _) .nil))
  refine drain_merged (by decide) hp (fun l hl => ?_) 1 sum 0 (by decide)
  simp only [mem_cons, not_mem_nil, or_false] at hl
  rcases hl with rfl | rfl | rfl <;> simp [Ascends, listSet]

/-- `Err` panics when one of the sets is nil and none has an error. -/
theorem err_of_nil {O : SetOps σ S L} {c : MergeSeriesSet σ L} (hnil : none ∈ c.sets)
    (herr : ∀ set, some set ∈ c.sets → O.err set = none) : c.err O = .error .panic := by
  obtain ⟨pre, post, hsets⟩ := append_of_mem hnil
  unfold MergeSeriesSet.err
  rw [hsets] at herr ⊢
  clear hnil hsets
  induction pre with
  | nil => rfl
  | cons set pre ih =>
    cases set with
    | none => rfl
    | some set =>
      rw [cons_append, foldlM_cons]
      simp only [herr set mem_cons_self]
      exact ih fun set' hs' => herr set' (mem_cons_of_mem _ hs')

end TopcDB.Storage.MergeSets
