import Mathlib.Data.List.Basic

/-! # Binary search

The search over `0, …, n - 1` for the first index a monotone predicate holds at. On a list along
which the predicate only changes from false to true it splits the list there (`searchList_spec`). -/

namespace TopcDB.Lib.Search

/-- The loop over the indices from `i` below `j`, of at most `k` turns. -/
def searchLoop (f : ℕ → Bool) : ℕ → ℕ → ℕ → ℕ
  | 0, i, _ => i
  | k + 1, i, j =>
    if i < j then
      if f ((i + j) / 2) then searchLoop f k i ((i + j) / 2)
      else searchLoop f k ((i + j) / 2 + 1) j
    else i

def search (n : ℕ) (f : ℕ → Bool) : ℕ := searchLoop f n 0 n

theorem searchLoop_le (f : ℕ → Bool) : ∀ k {i j : ℕ}, i ≤ j → searchLoop f k i j ≤ j
  | 0, _, _, hij => hij
  | k + 1, i, j, hij => by
    rw [searchLoop]
    split_ifs with hlt hf
    · exact Nat.le_trans (searchLoop_le f k (by omega)) (by omega)
    · exact searchLoop_le f k (by omega)
    · exact hij

/-- The loop keeps the predicate false before `i` and true from `j` on. -/
theorem searchLoop_spec {f : ℕ → Bool} {n : ℕ} (hmono : ∀ i j, i ≤ j → j < n → f i → f j) :
    ∀ k i j, j ≤ n → i ≤ j → j - i ≤ k → (∀ x < i, f x = false) → (∀ x, j ≤ x → x < n → f x) →
      searchLoop f k i j ≤ n ∧ (∀ x < searchLoop f k i j, f x = false) ∧
        ∀ x, searchLoop f k i j ≤ x → x < n → f x
  | 0, i, j, hn, hij, hk, hlo, hhi => by
    obtain rfl : i = j := by omega
    exact ⟨hn, hlo, hhi⟩
  | k + 1, i, j, hn, hij, hk, hlo, hhi => by
    rw [searchLoop]
    split_ifs with hlt hf
    · refine searchLoop_spec hmono k i _ (by omega) (by omega) (by omega) hlo fun x hx hxn => ?_
      exact hmono _ x hx hxn hf
    · refine searchLoop_spec hmono k _ j hn (by omega) (by omega) (fun x hx => ?_) hhi
      by_contra h
      exact hf (hmono x _ (by omega) (by omega) (by simpa using h))
    · obtain rfl : i = j := by omega
      exact ⟨hn, hlo, hhi⟩

theorem search_spec {f : ℕ → Bool} {n : ℕ} (hmono : ∀ i j, i ≤ j → j < n → f i → f j) :
    search n f ≤ n ∧ (∀ x < search n f, f x = false) ∧ ∀ x, search n f ≤ x → x < n → f x :=
  searchLoop_spec hmono n 0 n (Nat.le_refl n) (Nat.zero_le n) (by omega) (by omega) (by omega)

variable {α : Type}

/-- The index of the first element with `p`, when `p` holds from some element on. -/
def searchList (l : List α) (p : α → Bool) : ℕ := search l.length fun i => l[i]?.all p

theorem searchList_le (l : List α) (p : α → Bool) : searchList l p ≤ l.length :=
  searchLoop_le _ _ (Nat.zero_le _)

/-- **The search splits the list.** -/
theorem searchList_spec {l : List α} {p : α → Bool} (h : l.Pairwise fun x y => p x → p y) :
    searchList l p ≤ l.length ∧ (∀ x ∈ l.take (searchList l p), p x = false) ∧
      ∀ x ∈ l.drop (searchList l p), p x := by
  have hmono : ∀ i j, i ≤ j → j < l.length → l[i]?.all p → l[j]?.all p := by
    intro i j hij hj hi
    rw [List.getElem?_eq_getElem (by omega)] at hi ⊢
    rcases Nat.eq_or_lt_of_le hij with rfl | hlt
    · exact hi
    · exact List.pairwise_iff_getElem.1 h i j (by omega) hj hlt hi
  obtain ⟨hle, hlo, hhi⟩ := search_spec hmono
  refine ⟨hle, fun x hx => ?_, fun x hx => ?_⟩
  · obtain ⟨i, hi, rfl⟩ := List.getElem_of_mem hx
    rw [List.length_take] at hi
    have := hlo i (by unfold searchList at hi; omega)
    rw [List.getElem?_eq_getElem (by omega), Option.all_some] at this
    rwa [List.getElem_take]
  · obtain ⟨i, hi, rfl⟩ := List.getElem_of_mem hx
    rw [List.length_drop] at hi
    have := hhi (searchList l p + i) (Nat.le_add_right _ _) (by omega)
    rw [List.getElem?_eq_getElem (by omega), Option.all_some] at this
    rwa [List.getElem_drop]

end TopcDB.Lib.Search
