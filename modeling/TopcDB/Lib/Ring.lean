import Mathlib.Data.List.Basic
import Mathlib.Data.Nat.ModEq

/-! # Ring buffers

A buffer of cells read cyclically from a first position holds a queue. The four things done with
such a buffer are laws about the queue: a value written behind the last one is pushed, the first
position moved on drops the front, a full buffer copied to the beginning of a longer one holds the
same queue, and the first position may be reduced modulo the length at any time. -/

namespace TopcDB.Lib.Ring

open List

variable {α : Type}

/-- Read cyclically from position `first`, the buffer holds the queue `q`. -/
structure Holds (buf : List α) (first : ℕ) (q : List α) : Prop where
  fits : q.length ≤ buf.length
  cell : ∀ i < q.length, buf[(first + i) % buf.length]? = q[i]?

variable {buf : List α} {first : ℕ} {q : List α} {x : α}

theorem holds_nil (buf : List α) (first : ℕ) : Holds buf first [] :=
  ⟨Nat.zero_le _, fun _ hi => absurd hi (Nat.not_lt_zero _)⟩

theorem succ_wrap {n pos : ℕ} (h : pos < n) :
    (if pos + 1 = n then 0 else pos + 1) = (pos + 1) % n := by
  split_ifs with he
  · rw [he, Nat.mod_self]
  · exact (Nat.mod_eq_of_lt (by omega)).symm

theorem Holds.mod_iff : Holds buf (first % buf.length) q ↔ Holds buf first q := by
  constructor <;> intro h <;> refine ⟨h.fits, fun i hi => ?_⟩
  · rw [← h.cell i hi, Nat.mod_add_mod]
  · rw [← h.cell i hi, Nat.mod_add_mod]

theorem Holds.front (h : Holds buf first (x :: q)) : buf[first % buf.length]? = some x := by
  have h0 := h.cell 0 (by simp)
  rwa [Nat.add_zero, getElem?_cons_zero] at h0

theorem Holds.mod_lt (h : Holds buf first (x :: q)) : first % buf.length < buf.length :=
  Nat.mod_lt _ (Nat.lt_of_lt_of_le (Nat.succ_pos _) h.fits)

theorem Holds.pop (h : Holds buf first (x :: q)) : Holds buf (first + 1) q := by
  refine ⟨Nat.le_of_succ_le h.fits, fun i hi => ?_⟩
  have hc := h.cell (i + 1) (by simpa using hi)
  rw [getElem?_cons_succ] at hc
  rw [← hc, Nat.add_assoc, Nat.add_comm 1 i]

theorem Holds.push (h : Holds buf first q) (hq : q.length < buf.length) (x : α) :
    Holds (buf.set ((first + q.length) % buf.length) x) first (q ++ [x]) := by
  have hpos : 0 < buf.length := by omega
  refine ⟨by rw [length_append, length_set]; exact hq, fun i hi => ?_⟩
  rw [length_append, length_singleton] at hi
  rw [length_set]
  rcases Nat.lt_succ_iff_lt_or_eq.1 hi with hlt | rfl
  · have hne : (first + q.length) % buf.length ≠ (first + i) % buf.length := by
      intro he
      -- the two positions are less than one round apart
      have hd := (Nat.modEq_iff_dvd' (show first + i ≤ first + q.length by omega)).1 he.symm
      have := Nat.le_of_dvd (by omega) hd
      omega
    rw [getElem?_set_ne hne, h.cell i hlt, getElem?_append_left hlt]
  · rw [getElem?_set_self (Nat.mod_lt _ hpos), getElem?_concat_length]

/-- A full buffer, unrolled into the beginning of a longer one. -/
theorem Holds.unroll (h : Holds buf first q) (hq : q.length = buf.length)
    (hf : first ≤ buf.length) (pad : List α) :
    Holds (buf.drop first ++ buf.take first ++ pad) 0 q := by
  have hlen : (buf.drop first ++ buf.take first).length = buf.length := by
    rw [length_append, length_drop, length_take]; omega
  refine ⟨by rw [length_append, hlen]; omega, fun i hi => ?_⟩
  rw [Nat.zero_add, Nat.mod_eq_of_lt (by rw [length_append, hlen]; omega),
    getElem?_append_left (by omega), ← h.cell i hi]
  rcases Nat.lt_or_ge i (buf.length - first) with hlt | hge
  · rw [getElem?_append_left (by rw [length_drop]; exact hlt), getElem?_drop,
      Nat.mod_eq_of_lt (by omega)]
  · have hmod : (first + i) % buf.length = i - (buf.length - first) := by
      rw [Nat.mod_eq_sub_mod (by omega), Nat.mod_eq_of_lt (by omega)]; omega
    rw [getElem?_append_right (by rw [length_drop]; exact hge), length_drop,
      getElem?_take_of_lt (by omega), hmod]

end TopcDB.Lib.Ring
