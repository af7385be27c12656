import Mathlib.Data.List.Basic

/-! # Binary heaps in a list (`container/heap`)

The operations of Go's `container/heap` on the list that holds the heap, for any comparison `less`.
A loop that moves an element along a branch of the tree gets as many turns as there are elements,
which is more than the branch is long. Every operation only permutes the elements. -/

namespace TopcDB.Lib.Heap

variable {α : Type} (less : α → α → Bool) (l : List α)

def lessAt (i j : ℕ) : Bool :=
  match l[i]?, l[j]? with
  | some x, some y => less x y
  | _, _ => false

def swap (i j : ℕ) : List α :=
  match l[i]?, l[j]? with
  | some x, some y => (l.set i y).set j x
  | _, _ => l

/-- The element at `j` moves up. -/
def up : ℕ → List α → ℕ → List α
  | 0, l, _ => l
  | k + 1, l, j =>
    let i := (j - 1) / 2
    if i = j || !lessAt less l j i then l else up k (swap l i j) i

/-- The element at `i` moves down, inside the first `n` elements. -/
def down : ℕ → List α → ℕ → ℕ → List α
  | 0, l, _, _ => l
  | k + 1, l, i, n =>
    let j1 := 2 * i + 1
    if n ≤ j1 then l
    else
      let j := if j1 + 1 < n && lessAt less l (j1 + 1) j1 then j1 + 1 else j1
      if !lessAt less l j i then l else down k (swap l i j) j n

def init : List α :=
  (List.range (l.length / 2)).reverse.foldl (fun h i => down less l.length h i l.length) l

def push (x : α) : List α := up less (l.length + 1) (l ++ [x]) l.length

/-- The first element, and the heap without it. -/
def pop : Option (α × List α) :=
  let h := down less l.length (swap l 0 (l.length - 1)) 0 (l.length - 1)
  h.getLast?.map fun x => (x, h.dropLast)

theorem swap_perm (i j : ℕ) : (swap l i j).Perm l := by
  unfold swap
  split
  · rename_i x y hx hy
    obtain ⟨hi, rfl⟩ := List.getElem?_eq_some_iff.1 hx
    obtain ⟨hj, rfl⟩ := List.getElem?_eq_some_iff.1 hy
    exact List.set_set_perm hi hj
  · exact List.Perm.refl l

theorem up_perm : ∀ (k : ℕ) (l : List α) (j : ℕ), (up less k l j).Perm l
  | 0, l, _ => List.Perm.refl l
  | k + 1, l, j => by
    rw [up]
    split_ifs
    · exact List.Perm.refl l
    · exact (up_perm k _ _).trans (swap_perm l _ _)

theorem down_perm : ∀ (k : ℕ) (l : List α) (i n : ℕ), (down less k l i n).Perm l
  | 0, l, _, _ => List.Perm.refl l
  | k + 1, l, i, n => by
    have key : ∀ j, (if !lessAt less l j i then l else down less k (swap l i j) j n).Perm l := by
      intro j
      split_ifs
      · exact List.Perm.refl l
      · exact (down_perm k _ _ n).trans (swap_perm l _ _)
    rw [down]
    by_cases hn : n ≤ 2 * i + 1
    · rw [if_pos hn]
    · rw [if_neg hn]
      exact key _

theorem init_perm : (init less l).Perm l := by
  have key : ∀ (is : List ℕ) (n : ℕ) (h : List α),
      (is.foldl (fun h i => down less n h i n) h).Perm h := by
    intro is n
    induction is with
    | nil => exact List.Perm.refl
    | cons i is ih => exact fun h => (ih _).trans (down_perm less n h i n)
  exact key _ _ l

theorem push_perm (x : α) : (push less l x).Perm (x :: l) :=
  (up_perm less _ _ _).trans (List.perm_append_singleton x l)

theorem push_ne_nil (x : α) : push less l x ≠ [] := fun h => by
  have hperm := push_perm less l x
  rw [h] at hperm
  exact absurd hperm.symm.eq_nil (by simp)

theorem pop_perm {l l' : List α} {x : α} (h : pop less l = some (x, l')) : (x :: l').Perm l := by
  obtain ⟨y, hy, he⟩ := Option.map_eq_some_iff.1 h
  obtain ⟨rfl, rfl⟩ := Prod.mk.inj he
  have hsplit := List.dropLast_append_getLast? y hy
  refine (List.perm_append_singleton y _).symm.trans ?_
  rw [hsplit]
  exact (down_perm less _ _ _ _).trans (swap_perm l _ _)

theorem pop_ne_nil {l : List α} (h : l ≠ []) : ∃ x l', pop less l = some (x, l') := by
  have hne : down less l.length (swap l 0 (l.length - 1)) 0 (l.length - 1) ≠ [] := fun h0 => by
    have hp := (down_perm less l.length _ 0 (l.length - 1)).trans (swap_perm l 0 (l.length - 1))
    rw [h0] at hp
    exact h hp.symm.eq_nil
  exact ⟨_, _, by rw [pop, List.getLast?_eq_some_getLast hne]; rfl⟩

end TopcDB.Lib.Heap
