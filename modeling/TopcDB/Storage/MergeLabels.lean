import Mathlib.Data.Int.Notation
import Mathlib.Data.List.Basic
import Mathlib.Order.Lattice

/-! # Merging the results of label queriers (`mergeGenericQuerier.mergeResults`)

The queriers are split in halves until one is left, and the lists are merged on the way back. A
limit cuts every list before and after it is merged. That loses nothing of the first entries of the
union (`take_mergeStrings`), however the queriers are split. The symbols of blocks are merged on
demand, by iterators over iterators (`Symbols`). -/

namespace TopcDB.Storage.MergeLabels

open List

/-- A `labelGenericQueriers`, by the ways `SplitByHalf` will split it. -/
inductive LabelGenericQueriers (R : Type) where
  | none
  | one (q : R)
  | halves (a b : LabelGenericQueriers R)

def LabelGenericQueriers.all {R : Type} : LabelGenericQueriers R → List R
  | none => []
  | one q => [q]
  | halves a b => a.all ++ b.all

/-- `genericQueriers`, split in the middle. -/
def genericQueriers {R : Type} : List R → LabelGenericQueriers R
  | [] => .none
  | [q] => .one q
  | q :: q' :: l => .halves (genericQueriers ((q :: q' :: l).take ((l.length + 2) / 2)))
    (genericQueriers ((q :: q' :: l).drop ((l.length + 2) / 2)))
termination_by l => l.length
decreasing_by all_goals grind

theorem all_genericQueriers {R : Type} (l : List R) : (genericQueriers l).all = l := by
  fun_induction genericQueriers l with
  | case1 => rfl
  | case2 q => rfl
  | case3 q q' l ih1 ih2 => rw [LabelGenericQueriers.all, ih1, ih2, take_append_drop]

variable {α E : Type} [LinearOrder α]

/-- `truncateToLimit`, for hints that may be nil. -/
def truncateToLimit (hints : Option ℤ) (s : List α) : List α :=
  match hints with
  | none => s
  | some limit => if 0 < limit ∧ limit < s.length then s.take limit.toNat else s

def mergeStrings : List α → List α → List α
  | x :: a, y :: b =>
    if x = y then x :: mergeStrings a b
    else if x < y then x :: mergeStrings a (y :: b)
    else y :: mergeStrings (x :: a) b
  | [], b => b
  | a, [] => a

/-- `mergeResults`, where a querier is the result that `resultsFn` has for it. -/
def mergeResults (hints : Option ℤ) :
    LabelGenericQueriers (Except E (List α)) → Except E (List α)
  | .none => .ok []
  | .one r => r
  | .halves a b => do
    let s1 ← mergeResults hints a
    let s2 ← mergeResults hints b
    return truncateToLimit hints
      (mergeStrings (truncateToLimit hints s1) (truncateToLimit hints s2))

/-- The sorted union of some lists without duplicates. -/
structure IsUnion (ls : List (List α)) (u : List α) : Prop where
  sorted : u.Pairwise (· < ·)
  mem_iff : ∀ x, x ∈ u ↔ ∃ l ∈ ls, x ∈ l

theorem mergeStrings_nil (a : List α) : mergeStrings a [] = a := by
  cases a <;> rw [mergeStrings]
  nofun

theorem mem_mergeStrings (a b : List α) (z : α) : z ∈ mergeStrings a b ↔ z ∈ a ∨ z ∈ b := by
  fun_induction mergeStrings a b with
  | case1 x a b ih => grind
  | case2 x a y b hne hlt ih => grind
  | case3 x a y b hne hge ih => grind
  | case4 b => simp
  | case5 a => simp

theorem sorted_mergeStrings (a b : List α) (ha : a.Pairwise (· < ·)) (hb : b.Pairwise (· < ·)) :
    (mergeStrings a b).Pairwise (· < ·) := by
  fun_induction mergeStrings a b with
  | case4 b => exact hb
  | case5 a => exact ha
  | _ =>
    simp only [pairwise_cons, mem_mergeStrings, mem_cons] at *
    grind

/-- **The first entries of a merge** come from the first entries of the lists. -/
theorem take_mergeStrings (a b : List α) {n m k : ℕ} (hm : n ≤ m) (hk : n ≤ k) :
    (mergeStrings (a.take m) (b.take k)).take n = (mergeStrings a b).take n := by
  induction n generalizing a b m k with
  | zero => simp
  | succ n ih =>
    obtain ⟨m, rfl⟩ := Nat.exists_eq_succ_of_ne_zero (show m ≠ 0 by omega)
    obtain ⟨k, rfl⟩ := Nat.exists_eq_succ_of_ne_zero (show k ≠ 0 by omega)
    rcases a with _ | ⟨x, a⟩
    · rw [take_nil, mergeStrings, mergeStrings, take_take, Nat.min_eq_left hk]
    · rcases b with _ | ⟨y, b⟩
      · simp [mergeStrings, take_take, Nat.min_eq_left (Nat.le_of_succ_le_succ hm)]
      · rw [take_succ_cons, take_succ_cons, mergeStrings, mergeStrings]
        split_ifs
        · exact congrArg (cons x) (ih a b (by omega) (by omega))
        · exact congrArg (cons x) (ih a (y :: b) (m := m) (k := k + 1) (by omega) (by omega))
        · exact congrArg (cons y) (ih (x :: a) b (m := m + 1) (k := k) (by omega) (by omega))

variable (hints : Option ℤ)

theorem truncateToLimit_eq (s : List α) : truncateToLimit hints s =
    if 0 < hints.getD 0 then s.take (hints.getD 0).toNat else s := by
  rcases hints with _ | limit
  · rfl
  · rw [truncateToLimit, Option.getD_some]
    split_ifs with h hpos
    · rfl
    · omega
    · exact (take_of_length_le (by omega)).symm
    · rfl

theorem truncateToLimit_twice (s : List α) :
    truncateToLimit hints (truncateToLimit hints s) = truncateToLimit hints s := by
  simp only [truncateToLimit_eq]
  split_ifs
  · rw [take_take, Nat.min_self]
  · rfl

theorem truncateToLimit_mergeStrings (a b : List α) :
    truncateToLimit hints (mergeStrings (truncateToLimit hints a) (truncateToLimit hints b)) =
      truncateToLimit hints (mergeStrings a b) := by
  simp only [truncateToLimit_eq]
  split_ifs
  · exact take_mergeStrings a b (Nat.le_refl _) (Nat.le_refl _)
  · rfl

/-- The result of a single querier is not cut before it is merged. -/
theorem mergeResults_spec (q : LabelGenericQueriers (Except E (List α))) {ls : List (List α)}
    (hq : q.all = ls.map .ok) (hs : ∀ l ∈ ls, l.Pairwise (· < ·)) :
    ∃ u s, IsUnion ls u ∧ mergeResults hints q = .ok s ∧
      truncateToLimit hints s = truncateToLimit hints u ∧
      (2 ≤ ls.length → s = truncateToLimit hints u) := by
  induction q generalizing ls with
  | none =>
    obtain rfl := map_eq_nil_iff.1 hq.symm
    exact ⟨[], [], ⟨.nil, by simp⟩, rfl, rfl, by simp⟩
  | one r =>
    obtain ⟨l, rfl, rfl⟩ := map_eq_singleton_iff.1 hq.symm
    exact ⟨l, l, ⟨hs l mem_cons_self, by simp⟩, rfl, rfl, by simp⟩
  | halves a b iha ihb =>
    obtain ⟨la, lb, rfl, ha, hb⟩ := map_eq_append_iff.1 hq.symm
    obtain ⟨u, s, hu, hrun, hcut, -⟩ := iha ha.symm fun l hl => hs l (mem_append_left _ hl)
    obtain ⟨v, t, hv, hrun', hcut', -⟩ := ihb hb.symm fun l hl => hs l (mem_append_right _ hl)
    have hres : mergeResults hints (.halves a b) = .ok (truncateToLimit hints
        (mergeStrings (truncateToLimit hints s) (truncateToLimit hints t))) := by
      rw [mergeResults, hrun, hrun']
      rfl
    rw [hcut, hcut', truncateToLimit_mergeStrings] at hres
    refine ⟨mergeStrings u v, _, ⟨sorted_mergeStrings u v hu.sorted hv.sorted, fun x => ?_⟩, hres,
      truncateToLimit_twice hints _, fun _ => rfl⟩
    simp only [mem_mergeStrings, hu.mem_iff, hv.mem_iff, mem_append, or_and_right, exists_or]

/-- **The merged results** of several queriers are the sorted union of their lists, cut to its first
entries when there is a limit. -/
theorem mergeResults_union (q : LabelGenericQueriers (Except E (List α))) (ls : List (List α))
    (hq : q.all = ls.map .ok) (h2 : 2 ≤ ls.length) (hs : ∀ l ∈ ls, l.Pairwise (· < ·)) :
    ∃ u, IsUnion ls u ∧ mergeResults hints q =
      .ok (if 0 < hints.getD 0 then u.take (hints.getD 0).toNat else u) := by
  obtain ⟨u, s, hu, hrun, -, hcut⟩ := mergeResults_spec hints q hq hs
  rw [hcut h2, truncateToLimit_eq] at hrun
  exact ⟨u, hu, hrun⟩

theorem mergeResults_union_two : ∃ u, IsUnion [[1, 4], [2, 4], [3]] u ∧
    mergeResults (E := Unit) (some 2) (genericQueriers [.ok [1, 4], .ok [2, 4], .ok [3]]) =
      .ok (u.take 2) :=
  mergeResults_union (some 2) _ [[1, 4], [2, 4], [3]] (all_genericQueriers _)
    (by decide) (by decide)

/-! ### Symbols, merged on demand -/

/-- `index.StringIter`. -/
structure StringIter (ι α E : Type) where
  next : ι → Bool × ι
  atString : ι → α
  err : ι → Option E

/-- The symbols of a block, or a `mergedStringIter`. -/
inductive Symbols (ι α E : Type) where
  | block (it : ι)
  | merged (a b : Symbols ι α E) (aok bok : Bool) (cur : α) (err : Option E)

namespace Symbols

variable {ι : Type} (I : StringIter ι α E)

def atString : Symbols ι α E → α
  | block it => I.atString it
  | merged _ _ _ _ cur _ => cur

def err : Symbols ι α E → Option E
  | block it => I.err it
  | merged _ _ _ _ _ err => err

def next : Symbols ι α E → Bool × Symbols ι α E
  | block it => ((I.next it).1, block (I.next it).2)
  | merged a b aok bok cur err =>
    let (aok', a') := a.next
    let (bok', b') := b.next
    if (!aok && !bok) || err.isSome then (false, merged a b aok bok cur err)
    else if !aok then (true, merged a b' aok bok' (b.atString I) (b'.err I))
    else if !bok then (true, merged a' b aok' bok (a.atString I) (a'.err I))
    else if a.atString I < b.atString I then (true, merged a' b aok' bok (a.atString I) (a'.err I))
    else if b.atString I < a.atString I then (true, merged a b' aok bok' (b.atString I) (b'.err I))
    else (true, merged a' b' aok' bok' (b.atString I) ((a'.err I).or (b'.err I)))

def newMergedStringIter [Inhabited α] (a b : Symbols ι α E) : Symbols ι α E :=
  merged (a.next I).2 (b.next I).2 (a.next I).1 (b.next I).1 default none

/-- The loop of `PopulateBlock` over the blocks but the first. -/
def merge [Inhabited α] (symbols : Symbols ι α E) (blocks : List ι) : Symbols ι α E :=
  blocks.foldl (fun symbols it => newMergedStringIter I symbols (block it)) symbols

/-- The calls of `Next`, of which `p` is the first, deliver the strings and end without an error. -/
def Delivers : List α → Bool × Symbols ι α E → Prop
  | [], (ok, it) => ok = false ∧ it.err I = none
  | x :: l, (ok, it) => ok = true ∧ it.atString I = x ∧ it.err I = none ∧ Delivers l (it.next I)

variable {I}

theorem Delivers.err : ∀ {l : List α} {p : Bool × Symbols ι α E}, Delivers I l p → p.2.err I = none
  | [], _, h => h.2
  | _ :: _, _, h => h.2.2.1

theorem delivers_cons {it a b : Symbols ι α E} {aok bok : Bool} {x : α} {l : List α}
    (hn : it.next I = (true, merged a b aok bok x none))
    (h : Delivers I l ((merged a b aok bok x none).next I)) : Delivers I (x :: l) (it.next I) := by
  rw [hn]
  exact ⟨rfl, rfl, rfl, h⟩

theorem delivers_merged : ∀ (la lb : List α) {a b : Symbols ι α E} {aok bok : Bool} (cur : α),
    Delivers I la (aok, a) → Delivers I lb (bok, b) →
    Delivers I (mergeStrings la lb) ((merged a b aok bok cur none).next I)
  | [], [], _, _, _, _, _, ha, hb => by
    rw [mergeStrings, ha.1, hb.1]
    exact ⟨rfl, rfl⟩
  | [], y :: lb, _, b, _, _, _, ha, ⟨hok, hy, _, hb⟩ => by
    have h := delivers_merged [] lb y ha hb
    rw [mergeStrings] at h ⊢
    exact delivers_cons (by simp [next, ha.1, hok, hy, hb.err]) h
  | x :: la, [], a, _, _, _, _, ⟨hok, hx, _, ha⟩, hb => by
    have h := delivers_merged la [] x ha hb
    rw [mergeStrings_nil] at h ⊢
    exact delivers_cons (by simp [next, hb.1, hok, hx, ha.err]) h
  | x :: la, y :: lb, a, b, _, _, _, ha, hb => by
    obtain ⟨haok, hx, -, ha'⟩ := id ha
    obtain ⟨hbok, hy, -, hb'⟩ := id hb
    rw [mergeStrings]
    split_ifs with he hlt
    · exact delivers_cons (by simp_all [next, ha'.err, hb'.err]) (delivers_merged la lb x ha' hb')
    · exact delivers_cons (by simp_all [next, ha'.err])
        (delivers_merged la (y :: lb) x ha' hb)
    · have hgt := lt_of_le_of_ne (not_lt.1 hlt) (Ne.symm he)
      exact delivers_cons (by simp_all [next, hb'.err]) (delivers_merged (x :: la) lb y ha hb')
termination_by la lb => la.length + lb.length

/-- An iterator over the strings of a sorted list without duplicates. -/
def Sorts (I : StringIter ι α E) (it : ι) (l : List α) : Prop :=
  Delivers I l ((block it).next I) ∧ l.Pairwise (· < ·)

theorem delivers_merge [Inhabited α] {blocks : List ι} {ls : List (List α)}
    (h : Forall₂ (Sorts I) blocks ls) : ∀ {ks : List (List α)} {s : Symbols ι α E} {u : List α},
    Delivers I u (s.next I) → IsUnion ks u →
    ∃ u', IsUnion (ks ++ ls) u' ∧ Delivers I u' ((s.merge I blocks).next I) := by
  induction h with
  | nil => exact fun hs hu => ⟨_, by rwa [append_nil], hs⟩
  | @cons it l blocks ls hb _ ih =>
    intro ks s u hs hu
    rw [append_cons]
    refine ih (delivers_merged u l default hs hb.1)
      ⟨sorted_mergeStrings u l hu.sorted hb.2, fun x => ?_⟩
    simp [mem_mergeStrings, hu.mem_iff, or_and_right, exists_or]

/-- **The symbols of all blocks.** Merged one after another, the iterators deliver the sorted union
of their strings and end without an error. -/
theorem delivers_symbols [Inhabited α] {it : ι} {l : List α} {blocks : List ι} {ls : List (List α)}
    (h : Forall₂ (Sorts I) (it :: blocks) (l :: ls)) :
    ∃ u, IsUnion (l :: ls) u ∧ Delivers I u (((block it).merge I blocks).next I) :=
  let ⟨hit, h⟩ := forall₂_cons.1 h
  delivers_merge h hit.1 (⟨hit.2, by simp⟩ : IsUnion [l] l)

/-- The entries of a list behind the first. -/
def tailIter : StringIter (List ℕ) ℕ Unit :=
  ⟨fun l => (1 < l.length, l.tail), (·.headD 0), fun _ => none⟩

theorem delivers_symbols_two : ∃ u, IsUnion [[1, 4], [2, 4]] u ∧
    Delivers tailIter u (((block [0, 1, 4]).merge tailIter [[0, 2, 4]]).next tailIter) :=
  delivers_symbols (by simp [Sorts, Delivers, next, atString, Symbols.err, tailIter])

end Symbols

end TopcDB.Storage.MergeLabels
