import Mathlib.Data.List.Sort

/-! # Sorting by a comparison

`sort.Sort` and `sort.Slice` order a list by a function `less`. When `less` compares a key, and no
two elements have the same one, the sorted list depends on the elements only and not on their order
before (`sortBy_eq_of_perm`), nor on the sorting algorithm. -/

namespace TopcDB.Lib.Sort

variable {α β : Type} [LinearOrder β] {less : α → α → Bool} {key : α → β}

/-- The list in the order of `less`. -/
def sortBy (less : α → α → Bool) (l : List α) : List α :=
  l.insertionSort fun x y => less y x = false

theorem sortBy_perm (less : α → α → Bool) (l : List α) : (sortBy less l).Perm l :=
  List.perm_insertionSort _ l

theorem pairwise_sortBy (hkey : ∀ x y, less x y = true ↔ key x < key y) (l : List α) :
    (sortBy less l).Pairwise fun x y => key x ≤ key y := by
  have hle : ∀ x y, less y x = false ↔ key x ≤ key y := fun x y => by
    rw [← not_lt, ← hkey, Bool.not_eq_true]
  have : Std.Total fun x y => less y x = false :=
    ⟨fun x y => by rw [hle, hle]; exact le_total _ _⟩
  have : IsTrans α fun x y => less y x = false :=
    ⟨fun x y z hxy hyz => by rw [hle] at *; exact hxy.trans hyz⟩
  exact (List.pairwise_insertionSort _ l).imp fun h => (hle _ _).1 h

/-- **Sorting forgets the order.** -/
theorem sortBy_eq_of_perm (hkey : ∀ x y, less x y = true ↔ key x < key y) {l l' : List α}
    (hinj : ∀ x ∈ l, ∀ y ∈ l, key x = key y → x = y) (hp : l.Perm l') :
    sortBy less l = sortBy less l' := by
  refine List.Perm.eq_of_pairwise (fun x y hx hy hxy hyx => ?_) (pairwise_sortBy hkey l)
    (pairwise_sortBy hkey l') (((sortBy_perm less l).trans hp).trans (sortBy_perm less l').symm)
  exact hinj x ((sortBy_perm less l).mem_iff.1 hx) y
    (hp.mem_iff.2 ((sortBy_perm less l').mem_iff.1 hy)) (le_antisymm hxy hyx)

end TopcDB.Lib.Sort
