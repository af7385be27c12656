import Mathlib.Data.Nat.Bitwise
import Mathlib.Data.List.Basic
import Mathlib.Tactic.Ring

/-! # Fields packed into a machine word

A word of `w` bits holds a list of numbers of `b` bits each, the first one lowest, and a tag above
them. `field_tagged` reads a field back and `shiftRight_tagged` the tag. -/

namespace TopcDB.Lib.Packed

open List BitVec

variable {w : ℕ}

/-- The words of a list, each one `b` bits above the one before it, from bit `s` on. -/
def packFields (b : ℕ) : ℕ → List (BitVec w) → BitVec w
  | _, [] => 0#w
  | s, x :: xs => x <<< s ||| packFields b (s + b) xs

/-- The `i`-th field of `b` bits. -/
def field (b : ℕ) (v : BitVec w) (i : ℕ) : BitVec w := v >>> (i * b) &&& (1#w <<< b - 1#w)

variable {b k j i : ℕ}

theorem toNat_mask (hw : 0 < w) (hb : b ≤ w) : (1#w <<< b - 1#w).toNat = 2 ^ b - 1 := by
  have h1 : 1 < 2 ^ w := Nat.one_lt_two_pow (by omega)
  have h3 := Nat.two_pow_pos b
  rw [toNat_sub, toNat_shiftLeft, toNat_ofNat, Nat.mod_eq_of_lt h1,
    Nat.shiftLeft_eq, one_mul]
  rcases Nat.eq_or_lt_of_le hb with rfl | hlt
  · rw [Nat.mod_self, Nat.add_zero, Nat.mod_eq_of_lt (by omega)]
  · have h2 : 2 ^ b < 2 ^ w := Nat.pow_lt_pow_right (by omega) hlt
    rw [Nat.mod_eq_of_lt h2, show 2 ^ w - 1 + 2 ^ b = 2 ^ b - 1 + 2 ^ w by omega,
      Nat.add_mod_right, Nat.mod_eq_of_lt (by omega)]

theorem getLsbD_field (hb : b < w) (v : BitVec w) (i j : ℕ) :
    (field b v i).getLsbD j = (decide (j < b) && v.getLsbD (i * b + j)) := by
  have hm : (1#w <<< b - 1#w).getLsbD j = decide (j < b) := by
    rw [BitVec.getLsbD, toNat_mask (by omega) hb.le, Nat.testBit_two_pow_sub_one]
  rw [field, getLsbD_and, getLsbD_ushiftRight, hm, Bool.and_comm]

theorem toNat_field_lt (hb : b < w) (v : BitVec w) (i : ℕ) : (field b v i).toNat < 2 ^ b := by
  have h := Nat.two_pow_pos b
  rw [field, toNat_and, toNat_mask (by omega) hb.le]
  exact lt_of_le_of_lt Nat.and_le_right (by omega)

theorem getLsbD_of_lt_pow {x : BitVec w} (h : x.toNat < 2 ^ b) (hk : b ≤ k) :
    x.getLsbD k = false := by
  rw [BitVec.getLsbD]
  exact Nat.testBit_lt_two_pow (h.trans_le (Nat.pow_le_pow_right (by omega) hk))

/-! ### The bits of a packed word -/

theorem getLsbD_packFields_below : ∀ {s : ℕ} (l : List (BitVec w)), k < s →
    (packFields b s l).getLsbD k = false
  | _, [], _ => by simp [packFields]
  | s, x :: l, h => by
    rw [packFields, getLsbD_or, getLsbD_packFields_below l (show k < s + b by omega)]
    simp [h]

theorem getLsbD_packFields_above : ∀ {s : ℕ} {l : List (BitVec w)},
    (∀ x ∈ l, x.toNat < 2 ^ b) → s + b * l.length ≤ k → (packFields b s l).getLsbD k = false
  | _, [], _, _ => by simp [packFields]
  | s, x :: l, hl, h => by
    rw [length_cons, Nat.mul_succ] at h
    have hx : x.getLsbD (k - s) = false :=
      getLsbD_of_lt_pow (hl x mem_cons_self) (by omega)
    rw [packFields, getLsbD_or, getLsbD_packFields_above
      (fun y hy => hl y (mem_cons_of_mem _ hy)) (show s + b + b * l.length ≤ k by omega)]
    simp [hx]

theorem getLsbD_packFields (hj : j < b) : ∀ {s i : ℕ} {l : List (BitVec w)}
    (_ : ∀ x ∈ l, x.toNat < 2 ^ b) (_ : s + b * l.length ≤ w) (hi : i < l.length),
    (packFields b s l).getLsbD (s + (i * b + j)) = l[i].getLsbD j
  | _, _, [], _, _, hi => by simp at hi
  | s, 0, x :: l, _, hw, _ => by
    rw [length_cons, Nat.mul_succ] at hw
    rw [packFields, getLsbD_or, getLsbD_packFields_below l (by omega)]
    simp [show s + j < w by omega, getLsbD_eq_getElem (show j < w by omega)]
  | s, i + 1, x :: l, hl, hw, hi => by
    rw [length_cons, Nat.mul_succ] at hw
    rw [length_cons] at hi
    have hx : x.getLsbD (s + ((i + 1) * b + j) - s) = false :=
      getLsbD_of_lt_pow (hl x mem_cons_self) (by rw [Nat.succ_mul]; omega)
    have ih := getLsbD_packFields hj (s := s + b) (i := i)
      (fun y hy => hl y (mem_cons_of_mem _ hy)) (by omega) (by omega)
    rw [packFields, getLsbD_or, getLsbD_shiftLeft, hx,
      show s + ((i + 1) * b + j) = s + b + (i * b + j) by ring, ih]
    simp

/-! ### Reading a tagged word -/

variable {b p : ℕ} {l : List (BitVec w)} (hl : ∀ x ∈ l, x.toNat < 2 ^ b) (hp : b * l.length ≤ p)
include hl hp

/-- **Reading a field back.** -/
theorem field_tagged (hb : b < w) (hpw : p ≤ w) (tag : BitVec w) (hi : i < l.length) :
    field b (tag <<< p ||| packFields b 0 l) i = l[i] := by
  refine eq_of_getLsbD_eq fun j hj => ?_
  rw [getLsbD_field hb]
  rcases Nat.lt_or_ge j b with hjb | hjb
  · have hk : i * b + j < p := by
      have : (i + 1) * b ≤ l.length * b := Nat.mul_le_mul_right b hi
      rw [Nat.succ_mul] at this
      rw [Nat.mul_comm] at hp
      omega
    have := getLsbD_packFields hjb (s := 0) hl (by omega) hi
    rw [Nat.zero_add] at this
    rw [getLsbD_or, this]
    simp [hjb, hk]
  · rw [getLsbD_of_lt_pow (hl _ (getElem_mem hi)) hjb]
    simp [show ¬ j < b by omega]

/-- **Reading the tag back.** -/
theorem shiftRight_tagged {tag : BitVec w} (ht : tag.toNat < 2 ^ (w - p)) :
    (tag <<< p ||| packFields b 0 l) >>> p = tag := by
  refine eq_of_getLsbD_eq fun j hj => ?_
  rw [getLsbD_ushiftRight, getLsbD_or, getLsbD_packFields_above hl (by omega)]
  rcases Nat.lt_or_ge j (w - p) with hjp | hjp
  · simp [show p + j < w by omega, getLsbD_eq_getElem hj]
  · rw [getLsbD_of_lt_pow ht hjp]
    simp [show ¬ p + j < w by omega]

end TopcDB.Lib.Packed
