import TopcDB.Lib.Bits
import Mathlib.Data.Rat.Floor

/-! # The Go values of the model

Machine integers are bit vectors: `uint64` and `int64` are the same 64 bits, compared and divided
as unsigned or as two's complement numbers. A `float64` is read as a rational number. A statement
that stops the program is a `Fault`: a run-time panic (an index or a slice out of range, a nil
pointer), or a loop that never ends. An error a function returns is an `Err`. -/

namespace TopcDB.Go.Basic

abbrev U16 := BitVec 16
abbrev U32 := BitVec 32
abbrev U64 := BitVec 64
abbrev I64 := BitVec 64

inductive Fault
  | panic
  | hang
  deriving DecidableEq

/-- The errors of `io`, `encoding/binary` and of the Simple8b encoder. -/
inductive Err
  | eof
  | unexpectedEOF
  | overflow
  | valueOutOfBounds (src : List U64)
  | someValueOutOfBounds
  deriving DecidableEq

variable {ε α β : Type}

theorem map_eq_ok {x : Except ε α} {f : α → β} {y : β} (h : x.map f = .ok y) :
    ∃ a, x = .ok a ∧ f a = y := by
  cases x with
  | error e => cases h
  | ok a => exact ⟨a, rfl, Except.ok.inj h⟩

theorem bind_eq_ok {x : Except ε α} {f : α → Except ε β} {y : β}
    (h : x >>= f = .ok y) : ∃ a, x = .ok a ∧ f a = .ok y := by
  rcases x with e | a
  · cases h
  · exact ⟨a, rfl, h⟩

theorem ok_bind (a : α) (f : α → Except ε β) : (Except.ok a >>= f) = f a := rfl

theorem error_bind (e : ε) (f : α → Except ε β) : (Except.error e >>= f) = .error e := rfl

theorem sle_eq_false {x y : I64} : x.sle y = false ↔ y.toInt < x.toInt := by
  rw [BitVec.sle_eq_decide, decide_eq_false_iff_not, not_le]

theorem slt_eq_false {x y : I64} : x.slt y = false ↔ y.toInt ≤ x.toInt := by
  rw [BitVec.slt_eq_decide, decide_eq_false_iff_not, not_lt]

theorem toInt_pred {t : I64} (h : -2 ^ 63 < t.toInt) : (t - 1).toInt = t.toInt - 1 := by
  have hhi := t.toInt_lt
  rw [BitVec.toInt_sub, show (1 : I64).toInt = 1 from rfl]
  exact Int.bmod_eq_of_le (by omega) (by omega)

/-- The division rounds towards zero. -/
theorem mul_tdiv_bounds {t w : ℤ} (hw : 0 < w) :
    0 ≤ t ∧ t - w < w * t.tdiv w ∧ w * t.tdiv w ≤ t ∧ (t < w → w * t.tdiv w = 0) ∨
      t < 0 ∧ t ≤ w * t.tdiv w ∧ w * t.tdiv w ≤ 0 := by
  have h := Int.tmod_add_mul_tdiv t w
  rcases le_or_gt 0 t with ht | ht
  · have h0 := Int.tmod_nonneg w ht
    have h1 := Int.tmod_lt_of_pos t hw
    refine .inl ⟨ht, by omega, by omega, fun hlt => ?_⟩
    rw [Int.tdiv_eq_zero_of_lt ht hlt, mul_zero]
  · have hmul := mul_nonneg hw.le (Int.tdiv_nonneg (neg_nonneg.2 ht.le) hw.le)
    have h0 := Int.tmod_nonneg w (neg_nonneg.2 ht.le)
    rw [Int.neg_tdiv, mul_neg] at hmul
    rw [Int.neg_tmod] at h0
    omega

/-- The multiple of `w` that a division gives does not wrap. -/
theorem toInt_mul_sdiv {t w : I64} (hw : 0 < w.toInt) :
    (w * t.sdiv w).toInt = w.toInt * t.toInt.tdiv w.toInt := by
  have hlo := t.le_toInt
  have hhi := t.toInt_lt
  have hb := mul_tdiv_bounds (t := t.toInt) hw
  rw [BitVec.toInt_mul, BitVec.toInt_sdiv_of_ne_or_ne _ _
    (.inr fun h => by rw [h] at hw; exact absurd hw (by decide))]
  exact Int.bmod_eq_of_le (by omega) (by omega)

/-- `b[i:]`. -/
def sliceFrom {α : Type} (b : List α) (i : ℕ) : Except Fault (List α) :=
  if i ≤ b.length then .ok (b.drop i) else .error .panic

/-- `b[i:j]`. -/
def slice {α : Type} (b : List α) (i j : ℕ) : Except Fault (List α) :=
  if i ≤ j ∧ j ≤ b.length then .ok ((b.take j).drop i) else .error .panic

/-- A rational rounded towards zero, as a conversion to an integer type does. -/
def truncRat (x : ℚ) : ℤ := x.num.tdiv x.den

theorem truncRat_of_nonneg {x : ℚ} (h : 0 ≤ x) : truncRat x = ⌊x⌋ := by
  rw [truncRat, Rat.floor_def', Int.tdiv_eq_ediv_of_nonneg (Rat.num_nonneg.2 h)]

/-- `int64(x)` of a float. A value out of range gives the indefinite integer of amd64. -/
def int64OfFloat (x : ℚ) : I64 :=
  if -2 ^ 63 ≤ truncRat x ∧ truncRat x < 2 ^ 63 then BitVec.ofInt 64 (truncRat x)
  else BitVec.ofNat 64 (2 ^ 63)

/-- `uint32(x)` of a float. -/
def uint32OfFloat (x : ℚ) : U32 := BitVec.ofInt 32 (truncRat x)

end TopcDB.Go.Basic
