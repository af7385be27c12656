import Mathlib.Data.List.Nodup
import Mathlib.Data.List.Perm.Basic

/-! # Finite maps as lists of entries

A map is a list of entries with distinct keys. The order of the entries carries no meaning: a loop
over a map sees them in the order that a `RangeOrder` chooses. -/

namespace TopcDB.Lib.Assoc

open List

structure AssocMap (κ ν : Type) where
  entries : List (κ × ν)
  nodup : (entries.map Prod.fst).Nodup

/-- The order in which a loop visits a collection: any permutation of it. -/
structure RangeOrder (α : Type) where
  visit : List α → List α
  perm : ∀ l, (visit l).Perm l

/-- The order of the list itself. -/
instance (α : Type) : Inhabited (RangeOrder α) := ⟨⟨fun l => l, List.Perm.refl⟩⟩

variable {κ ν : Type} [DecidableEq κ]

namespace AssocMap

def empty : AssocMap κ ν := ⟨[], nodup_nil⟩

variable (m : AssocMap κ ν)

def keys : List κ := m.entries.map Prod.fst

def get? (k : κ) : Option ν := m.entries.lookup k

/-- The entries after `k` is set to `v`. -/
def setEntries (l : List (κ × ν)) (k : κ) (v : ν) : List (κ × ν) :=
  if k ∈ l.map Prod.fst then l.map fun p => if p.1 = k then (k, v) else p else l ++ [(k, v)]

theorem keys_setEntries (l : List (κ × ν)) (k : κ) (v : ν) :
    (setEntries l k v).map Prod.fst =
      if k ∈ l.map Prod.fst then l.map Prod.fst else l.map Prod.fst ++ [k] := by
  unfold setEntries
  split_ifs with h
  · rw [map_map]
    refine map_congr_left fun p _ => ?_
    simp only [Function.comp]
    split_ifs with hk
    · exact hk.symm
    · rfl
  · simp

def set (k : κ) (v : ν) : AssocMap κ ν where
  entries := setEntries m.entries k v
  nodup := by
    rw [keys_setEntries]
    split_ifs with h
    · exact m.nodup
    · exact m.nodup.append (nodup_singleton k) (by simpa using h)

/-! ### Reading a map -/

theorem get?_eq_some_iff (k : κ) (v : ν) : m.get? k = some v ↔ (k, v) ∈ m.entries := by
  obtain ⟨l, hl⟩ := m
  simp only [get?]
  induction l with
  | nil => simp
  | cons p l ih =>
    obtain ⟨k', v'⟩ := p
    rw [map_cons, nodup_cons] at hl
    rw [lookup_cons, mem_cons]
    by_cases hk : k = k'
    · subst hk
      have : (k, v) ∉ l := fun h => hl.1 (mem_map.2 ⟨(k, v), h, rfl⟩)
      simp [this, eq_comm]
    · simp [beq_eq_false_iff_ne.2 hk, hk, ih hl.2]

theorem get?_eq_none_iff (k : κ) : m.get? k = none ↔ k ∉ m.keys := by
  rw [Option.eq_none_iff_forall_ne_some]
  simp [get?_eq_some_iff, keys]

theorem mem_entries_set (k k' : κ) (v v' : ν) :
    (k', v') ∈ (m.set k v).entries ↔
      k' = k ∧ v' = v ∨ k' ≠ k ∧ (k', v') ∈ m.entries := by
  simp only [set, setEntries]
  split_ifs with h
  · obtain ⟨p, hp, hpk⟩ := mem_map.1 h
    rw [mem_map]
    constructor
    · rintro ⟨q, hq, he⟩
      split_ifs at he with hk
      · exact .inl ⟨(Prod.mk.inj he).1.symm, (Prod.mk.inj he).2.symm⟩
      · subst he; exact .inr ⟨hk, hq⟩
    · rintro (⟨rfl, rfl⟩ | ⟨hk, hq⟩)
      · exact ⟨p, hp, by rw [if_pos hpk]⟩
      · exact ⟨(k', v'), hq, by rw [if_neg hk]⟩
  · rw [mem_append, mem_singleton, Prod.mk.injEq]
    constructor
    · rintro (hq | hq)
      · exact .inr ⟨fun e => h (e ▸ mem_map_of_mem hq), hq⟩
      · exact Or.inl hq
    · rintro (hq | hq)
      · exact Or.inr hq
      · exact Or.inl hq.2

theorem get?_set (k k' : κ) (v : ν) :
    (m.set k v).get? k' = if k' = k then some v else m.get? k' := by
  refine Option.ext fun v' => ?_
  rw [get?_eq_some_iff, mem_entries_set]
  split_ifs with h
  · simp [h, eq_comm]
  · simp [h, get?_eq_some_iff]

theorem mem_keys_set (k k' : κ) (v : ν) : k' ∈ (m.set k v).keys ↔ k' = k ∨ k' ∈ m.keys := by
  simp only [keys, set, keys_setEntries]
  split_ifs with h
  · exact ⟨Or.inr, fun h' => h'.elim (fun e => e ▸ h) fun h' => h'⟩
  · simp [or_comm]

theorem entries_set_of_notMem {m : AssocMap κ ν} {k : κ} (h : k ∉ m.keys) (v : ν) :
    (m.set k v).entries = m.entries ++ [(k, v)] := by
  simp only [set, setEntries]
  exact if_neg h

theorem keys_set (k : κ) (v : ν) :
    (m.set k v).keys = if k ∈ m.keys then m.keys else m.keys ++ [k] :=
  keys_setEntries m.entries k v

def erase (k : κ) : AssocMap κ ν where
  entries := m.entries.filter fun p => p.1 ≠ k
  nodup := m.nodup.sublist (filter_sublist.map Prod.fst)

theorem keys_erase (k : κ) : (m.erase k).keys = m.keys.filter (· ≠ k) := by
  rw [keys, keys, filter_map]
  rfl

theorem get?_erase (k k' : κ) : (m.erase k).get? k' = if k' = k then none else m.get? k' := by
  refine Option.ext fun v => ?_
  rw [get?_eq_some_iff, erase, mem_filter, decide_eq_true_eq]
  split_ifs with h
  · simp [h]
  · simp [h, get?_eq_some_iff]

end AssocMap

end TopcDB.Lib.Assoc
