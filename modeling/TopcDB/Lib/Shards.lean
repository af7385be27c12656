import Mathlib.Data.List.FinRange

/-! # Lists that are split by their owners

A dispatcher splits a list of entries into one part for each of `n` owners and hands the parts out
in the order of the owners. The entries of an owner keep their order (`filterMap_split`). -/

namespace TopcDB.Lib.Shards

open List

variable {α β : Type} {n : ℕ}

/-- The parts that are not empty, with their owners. -/
def split (owner : α → Fin n) (l : List α) : List (Fin n × List α) :=
  (List.finRange n).filterMap fun i =>
    let part := l.filter fun a => owner a = i
    if part = [] then none else some (i, part)

variable {owner : α → Fin n} {l : List α}

theorem owner_of_mem_split {p : Fin n × List α} (hp : p ∈ split owner l) :
    ∀ a ∈ p.2, owner a = p.1 := by
  obtain ⟨i, -, hi⟩ := mem_filterMap.1 hp
  simp only [Option.ite_none_left_eq_some, Option.some.injEq] at hi
  obtain ⟨-, rfl⟩ := hi
  intro a ha
  simpa using (mem_filter.1 ha).2

theorem flatMap_split : (split owner l).flatMap Prod.snd =
    (List.finRange n).flatMap fun i => l.filter fun a => owner a = i := by
  rw [split]
  induction List.finRange n with
  | nil => rfl
  | cons i is ih =>
    rw [flatMap_cons, filterMap_cons, ← ih]
    by_cases hpart : (l.filter fun a => owner a = i) = []
    · simp [hpart]
    · simp [hpart]

/-- A list is nothing but the part of one of its indices, if the others have none. -/
theorem flatMap_eq_of_forall_ne {ι : Type} {f : ι → List β} {i : ι} :
    ∀ {is : List ι}, is.Nodup → i ∈ is → (∀ j, j ≠ i → f j = []) → is.flatMap f = f i
  | [], _, hi, _ => by simp at hi
  | j :: js, hnodup, hi, hne => by
    obtain ⟨hj, hjs⟩ := nodup_cons.1 hnodup
    rw [flatMap_cons]
    rcases mem_cons.1 hi with rfl | hi
    · have hrest : js.flatMap f = [] :=
        flatMap_eq_nil_iff.2 fun k hk => hne k fun hki => hj (hki ▸ hk)
      rw [hrest, append_nil]
    · have hji : j ≠ i := fun hji => hj (hji ▸ hi)
      rw [hne j hji, nil_append]
      exact flatMap_eq_of_forall_ne hjs hi hne

/-- **The entries of one owner keep their order.** -/
theorem filterMap_split {f : α → Option β} {i : Fin n} (hf : ∀ a, (f a).isSome → owner a = i) :
    ((split owner l).flatMap Prod.snd).filterMap f = l.filterMap f := by
  have hpart : ∀ j, (l.filter fun a => owner a = j).filterMap f =
      if j = i then l.filterMap f else [] := by
    intro j
    rw [filterMap_filter]
    split_ifs with hj
    · refine filterMap_congr fun a _ => ?_
      rcases hfa : f a with _ | b
      · simp
      · simp [hj, hf a (by rw [hfa]; rfl)]
    · rw [filterMap_eq_nil_iff]
      intro a _
      by_cases ha : owner a = j
      · rcases hfa : f a with _ | b
        · simp
        · exact absurd (ha.symm.trans (hf a (by rw [hfa]; rfl))) hj
      · simp [ha]
  rw [flatMap_split, filterMap_flatMap,
    flatMap_eq_of_forall_ne (nodup_finRange n) (mem_finRange i)
      fun j hj => by rw [hpart, if_neg hj], hpart, if_pos rfl]

end TopcDB.Lib.Shards
