import TopcDB.Go.Basic

/-! # Zigzag codes of differences

A signed difference is coded as an unsigned number, small for differences close to zero on both
sides. The appender and the iterator of a CL chunk use the code for the differences of quantised
values, the Huffman table for the differences of frequencies. The code itself loses nothing, but
its readers halve it as a signed number: they get the difference back exactly when the code and its
successor are below `2 ^ 63` (`addCode_zigzag_iff`). -/

namespace TopcDB.Chunkenc.Zigzag

open BitVec Go.Basic

def zigzag (d : I64) : U64 := if !d.slt 0#64 then d <<< 1 else -2 * d - 1

/-- How the iterator adds a coded difference to the quantiser. -/
def addCode (quantizer : I64) (fdelta : U64) : I64 :=
  if fdelta % 2 = 0 then quantizer + fdelta.sdiv 2 else quantizer - (fdelta + 1).sdiv 2

/-- How the iterator adds a coded difference to the value. -/
def addValue (errbound val : ℚ) (fdelta : U64) : ℚ :=
  if fdelta % 2 = 0 then val + errbound * fdelta.toNat else val - errbound * (fdelta + 1).toNat

/-- How the Huffman table reads a coded difference. -/
def uncode (times : I64) : I64 :=
  if times.srem 2 = 0 then times.sdiv 2 else (-(times + 1)).sdiv 2

/-- A code that its readers decode. -/
def Readable (c : U64) : Prop := c.toNat + 1 < 2 ^ 63

instance (c : U64) : Decidable (Readable c) := inferInstanceAs (Decidable (_ < _))

variable {d q : I64}

theorem zigzag_of_nonneg (h : 0 ≤ d.toInt) : ((zigzag d).toNat : ℤ) = 2 * d.toInt := by
  have hd := toInt_eq_toNat_cond d
  have hs : d.slt 0#64 = false := by
    rw [slt_eq_false, toInt_zero]; omega
  rw [zigzag, hs, if_pos (by decide), toNat_shiftLeft, Nat.shiftLeft_eq]
  split_ifs at hd <;> omega

theorem zigzag_of_neg (h : d.toInt < 0) : ((zigzag d).toNat : ℤ) = -2 * d.toInt - 1 := by
  have hd := toInt_eq_toNat_cond d
  have hs : d.slt 0#64 = true := by
    rw [slt_iff_toInt_lt, toInt_zero]; omega
  rw [zigzag, hs, if_neg (by decide), show (-2 * d - 1 : I64) = -(d + d) - 1#64 by grind, toNat_sub,
    toNat_neg, toNat_add, toNat_ofNat]
  split_ifs at hd <;> omega

theorem exists_zigzag_eq (c : U64) : ∃ d, zigzag d = c := by
  rcases Nat.even_or_odd' c.toNat with ⟨k, hk | hk⟩
  · have hd : (BitVec.ofInt 64 k).toInt = k := by
      rw [toInt_ofInt, Int.bmod_def]; split_ifs <;> omega
    refine ⟨BitVec.ofInt 64 k, eq_of_toNat_eq ?_⟩
    have := zigzag_of_nonneg (d := BitVec.ofInt 64 k) (by omega)
    omega
  · have hd : (BitVec.ofInt 64 (-(k + 1))).toInt = -(k + 1) := by
      rw [toInt_ofInt, Int.bmod_def]; split_ifs <;> omega
    refine ⟨BitVec.ofInt 64 (-(k + 1)), eq_of_toNat_eq ?_⟩
    have := zigzag_of_neg (d := BitVec.ofInt 64 (-(k + 1))) (by omega)
    omega

variable {c : U64}

theorem Readable.toNat_succ (h : Readable c) : (c + 1).toNat = c.toNat + 1 := by
  unfold Readable at h
  rw [toNat_add, show (1 : U64).toNat = 1 from rfl]; omega

theorem readable_zigzag : Readable (zigzag d) ↔ -2 ^ 62 < d.toInt ∧ d.toInt < 2 ^ 62 := by
  unfold Readable
  rcases lt_or_ge d.toInt 0 with hd | hd
  · have := zigzag_of_neg hd; omega
  · have := zigzag_of_nonneg hd; omega

/-! ### Reading a code -/

theorem mod_two_eq_zero : c % 2 = 0 ↔ c.toNat % 2 = 0 := by
  rw [← toNat_inj]; rfl

theorem toInt_sdiv_two (h : c.toNat < 2 ^ 63) : (c.sdiv 2).toInt = c.toNat / 2 := by
  have hc : c.toInt = c.toNat := toInt_eq_toNat_of_lt (by omega)
  rw [toInt_sdiv_of_ne_or_ne _ _ (Or.inr (by decide)), hc,
    show (2 : I64).toInt = 2 from rfl, Int.tdiv_eq_ediv_of_nonneg (by omega)]

theorem addCode_zigzag (h : Readable (zigzag d)) : addCode q (zigzag d) = q + d := by
  have hr := h
  unfold Readable at hr
  rcases lt_or_ge d.toInt 0 with hd | hd
  · have e := zigzag_of_neg hd
    have hs := h.toNat_succ
    have hhalf : (zigzag d + 1).sdiv 2 = -d := by
      apply eq_of_toInt_eq
      rw [toInt_sdiv_two (by omega), hs, toInt_neg, Int.bmod_def]
      split_ifs <;> omega
    rw [addCode, if_neg (by rw [mod_two_eq_zero]; omega), hhalf]
    grind
  · have e := zigzag_of_nonneg hd
    have hhalf : (zigzag d).sdiv 2 = d := by
      apply eq_of_toInt_eq
      rw [toInt_sdiv_two (by omega)]; omega
    rw [addCode, if_pos (by rw [mod_two_eq_zero]; omega), hhalf]

theorem toInt_sdiv_two_of_ge (h : 2 ^ 63 ≤ c.toNat) (he : c.toNat % 2 = 0) :
    (c.sdiv 2).toInt = c.toNat / 2 - 2 ^ 63 := by
  have hc : c.toInt = c.toNat - 2 ^ 64 := by
    rw [toInt_eq_toNat_cond, if_neg (by omega)]; rfl
  rw [toInt_sdiv_of_ne_or_ne _ _ (Or.inr (by decide)), hc, show (2 : I64).toInt = 2 from rfl,
    Int.tdiv_eq_ediv_of_dvd (by omega)]
  omega

def topBit : I64 := BitVec.ofNat 64 (2 ^ 63)

theorem toInt_add_topBit (x : I64) :
    (x + topBit).toInt = if x.toInt < 0 then x.toInt + 2 ^ 63 else x.toInt - 2 ^ 63 := by
  have hmin := le_toInt (x := x)
  have hmax := toInt_lt (x := x)
  rw [toInt_add, show topBit.toInt = -2 ^ 63 by decide, Int.bmod_def]
  split_ifs <;> omega

/-- A code that is not readable is read with the wrong top bit. -/
theorem addCode_zigzag_of_not (h : ¬ Readable (zigzag d)) :
    addCode q (zigzag d) = q + d + topBit := by
  unfold Readable at h
  unfold addCode
  rcases lt_or_ge d.toInt 0 with hd | hd
  · have e := zigzag_of_neg hd
    have h1 : (zigzag d + 1).toNat = ((zigzag d).toNat + 1) % 2 ^ 64 := toNat_add _ _
    have hhalf : (zigzag d + 1).sdiv 2 = -(d + topBit) := by
      apply eq_of_toInt_eq
      rw [toInt_neg, toInt_add_topBit, if_pos hd, Int.bmod_def]
      rcases Nat.lt_or_ge ((zigzag d).toNat + 1) (2 ^ 64) with h64 | h64
      · rw [toInt_sdiv_two_of_ge (by omega) (by omega)]
        split_ifs <;> omega
      · rw [toInt_sdiv_two (by omega)]
        split_ifs <;> omega
    rw [if_neg (by rw [mod_two_eq_zero]; omega), hhalf]
    grind
  · have e := zigzag_of_nonneg hd
    have hhalf : (zigzag d).sdiv 2 = d + topBit := by
      apply eq_of_toInt_eq
      rw [toInt_sdiv_two_of_ge (by omega) (by omega), toInt_add_topBit, if_neg (by omega)]
      omega
    rw [if_pos (by rw [mod_two_eq_zero]; omega), hhalf]
    grind

/-- **A difference is read back exactly when its code is readable.** -/
theorem addCode_zigzag_iff : addCode q (zigzag d) = q + d ↔ Readable (zigzag d) := by
  refine ⟨fun h => ?_, addCode_zigzag⟩
  by_contra hr
  rw [addCode_zigzag_of_not hr] at h
  have h0 : topBit = 0 := by grind
  exact absurd h0 (by decide)

theorem addCode_add (q x : I64) (c : U64) : addCode (q + x) c = addCode q c + x := by
  unfold addCode
  split_ifs <;> grind

/-- The code of the least difference has no successor, and adds nothing. -/
theorem addValue_zigzag (e v : ℚ) (d : I64) :
    addValue e v (zigzag d) = v + 2 * e * if d = topBit then 0 else d.toInt := by
  split_ifs with htop
  · rw [htop, addValue, if_neg (by decide), show zigzag topBit + 1 = 0 by decide]
    simp
  rcases lt_or_ge d.toInt 0 with hd | hd
  · have hz := zigzag_of_neg hd
    have hmin : d.toInt ≠ -2 ^ 63 := fun h => htop (eq_of_toInt_eq h)
    have hs : ((zigzag d + 1).toNat : ℤ) = -2 * d.toInt := by
      rw [toNat_add, show (1 : U64).toNat = 1 from rfl]
      have := le_toInt d
      omega
    rw [addValue, if_neg (by rw [mod_two_eq_zero]; omega),
      show ((zigzag d + 1).toNat : ℚ) = (((zigzag d + 1).toNat : ℤ) : ℚ) from rfl, hs]
    push_cast
    ring
  · have hz := zigzag_of_nonneg hd
    rw [addValue, if_pos (by rw [mod_two_eq_zero]; omega),
      show ((zigzag d).toNat : ℚ) = (((zigzag d).toNat : ℤ) : ℚ) from rfl, hz]
    push_cast
    ring

theorem uncode_zigzag (h : Readable (zigzag d)) : uncode (zigzag d) = d := by
  have hr := h
  unfold Readable at hr
  have hc : (zigzag d).toInt = (zigzag d).toNat := toInt_eq_toNat_of_lt (by omega)
  have hmod : (zigzag d).srem 2 = 0 ↔ zigzag d % 2 = 0 := by
    rw [mod_two_eq_zero, ← toInt_inj, toInt_srem, hc, show (2 : I64).toInt = 2 from rfl,
      show (0 : I64).toInt = 0 from rfl, Int.tmod_eq_emod_of_nonneg (by omega)]
    omega
  have ha := addCode_zigzag (q := 0#64) h
  rw [BitVec.zero_add] at ha
  rw [uncode]
  unfold addCode at ha
  split_ifs with h0
  · rw [if_pos (hmod.1 h0), BitVec.zero_add] at ha
    exact ha
  · rw [if_neg (mt hmod.2 h0), BitVec.zero_sub] at ha
    refine Eq.trans (eq_of_toInt_eq ?_) ha
    have hs := h.toNat_succ
    have hs' : (zigzag d + 1).toInt = (zigzag d).toNat + 1 := by
      rw [toInt_eq_toNat_of_lt (by omega), hs]; rfl
    have hn : (-(zigzag d + 1)).toInt = -((zigzag d).toNat + 1) := by
      rw [toInt_neg, hs', Int.bmod_def]; split_ifs <;> omega
    rw [toInt_sdiv_of_ne_or_ne _ _ (Or.inr (by decide)), hn, toInt_neg,
      toInt_sdiv_two (by omega), hs, show (2 : I64).toInt = 2 from rfl, Int.neg_tdiv,
      Int.tdiv_eq_ediv_of_nonneg (by omega), Int.bmod_def]
    split_ifs <;> omega

end TopcDB.Chunkenc.Zigzag
