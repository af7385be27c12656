import Mathlib.Data.Nat.Bitwise
import Mathlib.Data.List.Basic
import Mathlib.Tactic.Ring

/-! # Bit strings, most significant bit first

`toBits n x` is the list of the `n` low bits of `x`, the highest of them first, and `ofBits` reads
such a list back as a number. A string of `m + n` bits is the string of its `m` high bits followed
by the string of its `n` low ones (`toBits_add`); all shifting and masking of a bit stream is an
instance of this one splitting. -/

namespace TopcDB.Lib.Bits

open List

/-- The `n` low bits of `x`, most significant first. -/
def toBits : ℕ → ℕ → List Bool
  | 0, _ => []
  | n + 1, x => x.testBit n :: toBits n x

/-- The number a bit string denotes, most significant bit first. -/
def ofBits (l : List Bool) : ℕ := l.foldl (fun acc b => 2 * acc + b.toNat) 0

@[simp] theorem toBits_zero (x : ℕ) : toBits 0 x = [] := rfl

theorem toBits_succ (n x : ℕ) : toBits (n + 1) x = x.testBit n :: toBits n x := rfl

@[simp] theorem length_toBits (n x : ℕ) : (toBits n x).length = n := by
  induction n with
  | zero => rfl
  | succ n ih => simp [toBits_succ, ih]

/-! ### Bit strings of numbers -/

theorem toBits_congr {n x y : ℕ} (h : ∀ i < n, x.testBit i = y.testBit i) :
    toBits n x = toBits n y := by
  induction n with
  | zero => rfl
  | succ n ih =>
    rw [toBits_succ, toBits_succ, h n (by omega), ih fun i hi => h i (by omega)]

/-- **Splitting**: the high bits, then the low bits. -/
theorem toBits_add (m n x : ℕ) : toBits (m + n) x = toBits m (x / 2 ^ n) ++ toBits n x := by
  induction m with
  | zero => simp
  | succ m ih =>
    rw [show m + 1 + n = (m + n) + 1 by omega, toBits_succ, toBits_succ, ih,
      Nat.testBit_div_two_pow, cons_append]

theorem toBits_split {n c : ℕ} (h : c ≤ n) (x : ℕ) :
    toBits n x = toBits (n - c) (x / 2 ^ c) ++ toBits c x := by
  obtain ⟨m, rfl⟩ := Nat.exists_eq_add_of_le' h
  rw [Nat.add_sub_cancel, toBits_add]

theorem toBits_mod {n k : ℕ} (h : n ≤ k) (x : ℕ) : toBits n (x % 2 ^ k) = toBits n x := by
  refine toBits_congr fun i hi => ?_
  rw [Nat.testBit_mod_two_pow]
  simp [show i < k by omega]

theorem toBits_eq_replicate {n x : ℕ} (h : x % 2 ^ n = 0) :
    toBits n x = List.replicate n false := by
  rw [← toBits_mod le_rfl x, h]
  induction n with
  | zero => rfl
  | succ n ih =>
    rw [toBits_succ, Nat.zero_testBit, replicate_succ, ih]
    exact Nat.mod_eq_zero_of_dvd ((pow_dvd_pow 2 (by omega)).trans (Nat.dvd_of_mod_eq_zero h))

/-! ### Reading back -/

@[simp] theorem ofBits_nil : ofBits [] = 0 := rfl

variable (l : List Bool)

theorem foldl_ofBits (a : ℕ) :
    l.foldl (fun acc b => 2 * acc + b.toNat) a = a * 2 ^ l.length + ofBits l := by
  induction l generalizing a with
  | nil => simp
  | cons b l ih =>
    rw [ofBits, foldl_cons, foldl_cons, ih, ih (2 * 0 + b.toNat), length_cons]
    ring

theorem ofBits_append (l l' : List Bool) :
    ofBits (l ++ l') = ofBits l * 2 ^ l'.length + ofBits l' := by
  rw [ofBits, foldl_append, foldl_ofBits]; rfl

theorem ofBits_cons (b : Bool) (l : List Bool) :
    ofBits (b :: l) = b.toNat * 2 ^ l.length + ofBits l := by
  rw [show b :: l = [b] ++ l from rfl, ofBits_append]; simp [ofBits]

theorem ofBits_lt : ofBits l < 2 ^ l.length := by
  induction l with
  | nil => simp
  | cons b l ih =>
    rw [ofBits_cons, length_cons, pow_succ]
    cases b <;> simp <;> omega

/-- **Reading a number's bits** gives its low part. -/
theorem ofBits_toBits (n x : ℕ) : ofBits (toBits n x) = x % 2 ^ n := by
  induction n with
  | zero => simp [Nat.mod_one]
  | succ n ih =>
    rw [toBits_succ, ofBits_cons, length_toBits, ih, Nat.toNat_testBit]
    rw [pow_succ, Nat.mod_mul, Nat.add_comm, Nat.mul_comm]

theorem toBits_ofBits : toBits l.length (ofBits l) = l := by
  induction l with
  | nil => rfl
  | cons b l ih =>
    have hlt := ofBits_lt l
    rw [length_cons, toBits_succ, ofBits_cons]
    congr 1
    · rw [Nat.mul_comm, Nat.testBit_two_pow_mul_add _ hlt]
      cases b <;> simp
    · rw [← toBits_mod le_rfl, Nat.add_comm, Nat.add_mul_mod_self_right, Nat.mod_eq_of_lt hlt, ih]

/-! ### Byte strings -/

abbrev Byte := BitVec 8

variable (l : List Byte)

/-- The bits of a byte string, the first byte first. -/
def bytesBits : List Bool := l.flatMap fun b => toBits 8 b.toNat

/-- The `k` low bytes of `x`, big endian. -/
def beBytes : ℕ → ℕ → List Byte
  | 0, _ => []
  | k + 1, x => BitVec.ofNat 8 (x >>> (8 * k)) :: beBytes k x

/-- The number a byte string denotes, big endian. -/
def beNat : ℕ := l.foldl (fun acc b => 256 * acc + b.toNat) 0

@[simp] theorem bytesBits_nil : bytesBits [] = [] := rfl

@[simp] theorem bytesBits_cons (b : Byte) (l : List Byte) :
    bytesBits (b :: l) = toBits 8 b.toNat ++ bytesBits l := by simp [bytesBits]

@[simp] theorem bytesBits_append (l l' : List Byte) :
    bytesBits (l ++ l') = bytesBits l ++ bytesBits l' := by simp [bytesBits]

@[simp] theorem length_bytesBits : (bytesBits l).length = 8 * l.length := by
  induction l with
  | nil => rfl
  | cons b l ih => simp [ih]; ring

@[simp] theorem length_beBytes (k x : ℕ) : (beBytes k x).length = k := by
  induction k with
  | zero => rfl
  | succ k ih => simp [beBytes, ih]

theorem bytesBits_beBytes (k x : ℕ) : bytesBits (beBytes k x) = toBits (8 * k) x := by
  induction k with
  | zero => rfl
  | succ k ih =>
    rw [beBytes, bytesBits_cons, ih, show 8 * (k + 1) = 8 + 8 * k by ring, toBits_add,
      BitVec.toNat_ofNat, toBits_mod le_rfl, Nat.shiftRight_eq_div_pow]

theorem beNat_eq_ofBits : beNat l = ofBits (bytesBits l) := by
  have key : ∀ (l : List Byte) (a : ℕ), l.foldl (fun acc b => 256 * acc + b.toNat) a =
      a * 2 ^ (8 * l.length) + ofBits (bytesBits l) := by
    intro l
    induction l with
    | nil => simp
    | cons b l ih =>
      intro a
      rw [foldl_cons, ih, bytesBits_cons, ofBits_append, ofBits_toBits, length_bytesBits,
        Nat.mod_eq_of_lt b.isLt, length_cons]
      ring
  rw [beNat, key]; simp

theorem beNat_beBytes (k x : ℕ) : beNat (beBytes k x) = x % 2 ^ (8 * k) := by
  rw [beNat_eq_ofBits, bytesBits_beBytes, ofBits_toBits]

theorem exists_append_of_bytesBits {s : List Byte} : ∀ {p : List Byte} {l : List Bool},
    bytesBits s = bytesBits p ++ l → ∃ q, s = p ++ q ∧ bytesBits q = l := by
  induction s with
  | nil =>
    intro p l h
    cases p with
    | nil => exact ⟨[], rfl, h⟩
    | cons x p =>
      have := congrArg List.length h
      simp at this; omega
  | cons y s ih =>
    intro p l h
    cases p with
    | nil => exact ⟨y :: s, rfl, h⟩
    | cons x p =>
      rw [bytesBits_cons, bytesBits_cons, append_assoc] at h
      obtain ⟨h1, h2⟩ := append_inj h (by simp)
      obtain ⟨q, rfl, hq⟩ := ih h2
      have hxy : y = x := by
        have := congrArg ofBits h1
        rw [ofBits_toBits, ofBits_toBits, Nat.mod_eq_of_lt y.isLt, Nat.mod_eq_of_lt x.isLt] at this
        exact BitVec.eq_of_toNat_eq this
      exact ⟨q, by rw [hxy]; rfl, hq⟩

theorem bytesBits_injective : Function.Injective bytesBits := fun s p h => by
  obtain ⟨q, rfl, hq⟩ := exists_append_of_bytesBits (h.trans (append_nil _).symm)
  have hlen := congrArg length hq
  rw [length_bytesBits, length_nil] at hlen
  rw [length_eq_zero_iff.1 (by omega : q.length = 0), append_nil]

end TopcDB.Lib.Bits
