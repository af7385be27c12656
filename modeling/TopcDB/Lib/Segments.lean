import Mathlib.Data.List.Forall2

/-! # Segments of a list

A list is cut into segments of a given length, the last of which may be shorter. Conversely, a list
of lists is known from its elements once the lengths of its parts are bounded. -/

namespace TopcDB.Lib.Segments

open List

variable {α β : Type} {j i n b : ℕ}

theorem mem_head?_of_take {xs : List α} {x : α} (h : x ∈ (xs.take j).head?) : x ∈ xs.head? := by
  rw [head?_take] at h
  split_ifs at h
  · cases h
  · exact h

/-! ### Related lists -/

variable {R S : α → β → Prop} {xs : List α} {ys : List β}

theorem exists_getElem?_of_forall₂ (h : Forall₂ R xs ys) {y : β} (hy : ys[i]? = some y) :
    ∃ x, xs[i]? = some x ∧ R x y := by
  induction h generalizing i with
  | nil => cases hy
  | cons h _ ih =>
    cases i with
    | zero =>
      rw [getElem?_cons_zero, Option.some.injEq] at hy
      exact ⟨_, rfl, hy ▸ h⟩
    | succ i => exact ih hy

theorem exists_left_of_forall₂ (h : Forall₂ R xs ys) {y : β} (hy : y ∈ ys) :
    ∃ x ∈ xs, R x y := by
  obtain ⟨i, hi⟩ := getElem?_of_mem hy
  obtain ⟨x, hx, hr⟩ := exists_getElem?_of_forall₂ h hi
  exact ⟨x, mem_of_getElem? hx, hr⟩

theorem forall₂_imp_of_mem (h : Forall₂ R xs ys) (hs : ∀ x, ∀ y ∈ ys, R x y → S x y) :
    Forall₂ S xs ys := by
  induction h with
  | nil => exact Forall₂.nil
  | cons h _ ih =>
    refine Forall₂.cons (hs _ _ mem_cons_self h) (ih fun x y hy => ?_)
    exact hs x y (mem_cons_of_mem _ hy)

theorem exists_forall₂ : ∀ {xs : List α}, (∀ x ∈ xs, ∃ y, R x y) → ∃ ys, Forall₂ R xs ys
  | [], _ => ⟨[], Forall₂.nil⟩
  | x :: xs, h => by
    rw [forall_mem_cons] at h
    obtain ⟨⟨y, hy⟩, h'⟩ := h
    obtain ⟨ys, hys⟩ := exists_forall₂ h'
    exact ⟨y :: ys, Forall₂.cons hy hys⟩

theorem forall₂_comp {γ : Type} {Q : β → γ → Prop} {T : α → γ → Prop} {zs : List γ}
    (h : Forall₂ R xs ys) (hq : Forall₂ Q ys zs)
    (ht : ∀ x y z, R x y → Q y z → T x z) : Forall₂ T xs zs := by
  induction h generalizing zs with
  | nil =>
    cases hq
    exact Forall₂.nil
  | cons h _ ih =>
    obtain _ | ⟨hz, hzs⟩ := hq
    exact Forall₂.cons (ht _ _ _ h hz) (ih hzs)

theorem forall₂_takeWhile {p : α → Bool} {q : β → Bool} (h : Forall₂ R xs ys)
    (hpq : ∀ x, ∀ y ∈ ys, R x y → p x = q y) :
    Forall₂ R (xs.takeWhile p) (ys.takeWhile q) := by
  induction h with
  | nil => exact Forall₂.nil
  | @cons x y xs ys h _ ih =>
    rw [takeWhile_cons, takeWhile_cons, hpq x y mem_cons_self h]
    split_ifs
    · exact Forall₂.cons h (ih fun x y hy => hpq x y (mem_cons_of_mem _ hy))
    · exact Forall₂.nil

theorem mapM_eq_ok {ε : Type} {f : α → Except ε β} (h : Forall₂ (fun x y => f x = .ok y) xs ys) :
    xs.mapM f = .ok ys := by
  induction h with
  | nil => rfl
  | cons h _ ih => simp only [mapM_cons, h, ih, bind, Except.bind, pure, Except.pure]

/-! ### Cutting -/

/-- The list `cur ++ l` cut into segments of `n` elements; `cur` is the first one so far. -/
def cutFrom (n : ℕ) : List α → List α → List (List α)
  | cur, [] => [cur]
  | cur, x :: l => if n ≤ cur.length then cur :: cutFrom n [x] l else cutFrom n (cur ++ [x]) l

/-- A list cut into segments of `n` elements. -/
def cut (n : ℕ) : List α → List (List α)
  | [] => []
  | x :: l => cutFrom n [x] l

theorem flatten_cutFrom (n : ℕ) : ∀ cur l : List α, (cutFrom n cur l).flatten = cur ++ l
  | cur, [] => by simp [cutFrom]
  | cur, x :: l => by
    rw [cutFrom]
    split_ifs
    · rw [flatten_cons, flatten_cutFrom n]; rfl
    · rw [flatten_cutFrom n, append_assoc]; rfl

theorem flatten_cut (n : ℕ) : ∀ l : List α, (cut n l).flatten = l
  | [] => rfl
  | x :: l => flatten_cutFrom n [x] l

theorem ne_nil_of_mem_cutFrom : ∀ {cur l : List α}, cur ≠ [] →
    ∀ seg ∈ cutFrom n cur l, seg ≠ []
  | cur, [], hne, seg, hs => by
    rw [cutFrom, mem_singleton] at hs
    rwa [hs]
  | cur, x :: l, hne, seg, hs => by
    rw [cutFrom] at hs
    split_ifs at hs
    · rcases mem_cons.1 hs with rfl | hs
      · exact hne
      · exact ne_nil_of_mem_cutFrom (by simp) seg hs
    · exact ne_nil_of_mem_cutFrom (by simp) seg hs

theorem ne_nil_of_mem_cut {l : List α} : ∀ seg ∈ cut n l, seg ≠ [] := by
  cases l with
  | nil => simp [cut]
  | cons x l => exact ne_nil_of_mem_cutFrom (by simp)

theorem forall_length_cutFrom_iff (hn : 1 ≤ n) : ∀ {l cur : List α}, cur.length ≤ n →
    ((∀ seg ∈ cutFrom n cur l, seg.length < b) ↔ n < b ∨ cur.length + l.length < b)
  | [], cur, hc => by
    simp only [cutFrom, mem_singleton, forall_eq, length_nil]
    omega
  | x :: l, cur, hc => by
    rw [cutFrom]
    split_ifs with hfull
    · rw [forall_mem_cons, forall_length_cutFrom_iff hn (by simpa using hn)]
      simp only [length_cons, length_nil]
      omega
    · have hlen : (cur ++ [x]).length = cur.length + 1 := by simp
      rw [forall_length_cutFrom_iff hn (by omega), hlen, length_cons]
      omega

theorem forall_length_cut_iff (hn : 1 ≤ n) (hb : 0 < b) (l : List α) :
    (∀ seg ∈ cut n l, seg.length < b) ↔ n < b ∨ l.length < b := by
  cases l with
  | nil => simp [cut, hb]
  | cons x l =>
    rw [cut, forall_length_cutFrom_iff hn (by simpa using hn), length_singleton,
      length_cons, Nat.add_comm]

theorem length_cut_le (n : ℕ) (l : List α) : (cut n l).length ≤ l.length := by
  have hle : ∀ {xs : List (List α)}, (∀ x ∈ xs, x ≠ []) → xs.length ≤ xs.flatten.length :=
    fun {xs} h => by
    induction xs with
    | nil => exact Nat.le_refl _
    | cons x xs ih =>
      rw [forall_mem_cons] at h
      have hx := length_pos_iff.2 h.1
      have := ih h.2
      simp only [flatten_cons, length_cons, length_append]
      omega
  have := hle (ne_nil_of_mem_cut (n := n) (l := l))
  rwa [flatten_cut] at this

theorem length_flatten_le {xs : List (List α)} {ys : List (List β)}
    (h : Forall₂ (fun x y => x.length ≤ y.length) xs ys) :
    xs.flatten.length ≤ ys.flatten.length := by
  induction h with
  | nil => exact Nat.le_refl _
  | cons h _ ih =>
    simp only [flatten_cons, length_append]
    omega

/-- Lists of lists with the same elements are equal when the parts of one are not longer than those
of the other. -/
theorem eq_of_flatten_eq {xs ys : List (List α)}
    (h : Forall₂ (fun x y => x.length ≤ y.length) xs ys) (hf : xs.flatten = ys.flatten) :
    xs = ys := by
  induction h with
  | nil => rfl
  | @cons x y xs ys h hs ih =>
    rw [flatten_cons, flatten_cons] at hf
    have hlen := congrArg length hf
    rw [length_append, length_append] at hlen
    have hrest := length_flatten_le hs
    obtain ⟨rfl, hf'⟩ := append_inj hf (by omega)
    rw [ih hf']

end TopcDB.Lib.Segments
