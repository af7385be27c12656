import TopcDB.Chunkenc.HeadChunk
import TopcDB.Chunkenc.HuffmanChunk
import Mathlib.Data.List.Chain

/-! # The error bound

`Append` rounds a value to the nearest multiple of twice the error bound (`quantize_spec`), and what
an iterator reads is that multiple (`samplesOf_deltaCodes`), so the error is the one of the rounding
at every position of a chunk. Quantised values up to `2 ^ 58` keep the codes in the range of
Simple8b, but for one: the code of the jump from one end of the range to the other is `2 ^ 60`. -/

namespace TopcDB.Chunkenc.ErrorBound

open List Lib.Machine Go.Basic Zigzag Huffman CLMeta CLChunk CLIterate CLAppend HeadChunk
open HuffmanChunk

/-! ### Rounding -/

theorem truncRat_neg (x : ℚ) : truncRat (-x) = -truncRat x := by
  rw [truncRat, truncRat, Rat.num_neg_eq_neg_num, Rat.den_neg_eq_den, Int.neg_tdiv]

/-- Adding a half on the side of the sign and cutting off rounds to the nearest integer. -/
theorem abs_truncRat_sub_le (x : ℚ) :
    |(truncRat (if 0 ≤ x then x + 1 / 2 else x - 1 / 2) : ℚ) - x| ≤ 1 / 2 := by
  split_ifs with h
  · have h1 := Int.floor_le (x + 1 / 2)
    have h2 := Int.lt_floor_add_one (x + 1 / 2)
    rw [truncRat_of_nonneg (by linarith), abs_le]
    constructor <;> linarith
  · have h1 := Int.floor_le (-x + 1 / 2)
    have h2 := Int.lt_floor_add_one (-x + 1 / 2)
    rw [show x - 1 / 2 = -(-x + 1 / 2) by ring, truncRat_neg, truncRat_of_nonneg (by linarith),
      abs_le]
    push_cast
    constructor <;> linarith

/-- **A value is rounded** to within the error bound, here in units of twice the bound. -/
theorem quantize_spec {e v : ℚ} (he : 0 < e) (hv : |v| / (2 * e) < 2 ^ 58) :
    |((quantize e v).toInt : ℚ) - v / (2 * e)| ≤ 1 / 2 ∧ |(quantize e v).toInt| ≤ 2 ^ 58 := by
  have he' : 0 < 2 * e := by linarith
  set x := v / (2 * e) with hx
  have hsign : 0 ≤ v ↔ 0 ≤ x := by rw [hx, le_div_iff₀ he', zero_mul]
  have hxlt : |x| < 2 ^ 58 := by rwa [hx, abs_div, abs_of_pos he']
  set n := truncRat (if 0 ≤ x then x + 1 / 2 else x - 1 / 2) with hn
  have hround : |(n : ℚ) - x| ≤ 1 / 2 := abs_truncRat_sub_le x
  obtain ⟨hr1, hr2⟩ := abs_le.1 hround
  obtain ⟨hx1, hx2⟩ := abs_lt.1 hxlt
  have hle : n ≤ 2 ^ 58 := by
    have : (n : ℚ) < ((2 ^ 58 + 1 : ℤ) : ℚ) := by push_cast; linarith
    exact Int.lt_add_one_iff.1 (by exact_mod_cast this)
  have hge : -2 ^ 58 ≤ n := by
    have : ((-2 ^ 58 - 1 : ℤ) : ℚ) < (n : ℚ) := by push_cast; linarith
    have : -2 ^ 58 - 1 < n := by exact_mod_cast this
    omega
  have hq : quantize e v = BitVec.ofInt 64 n := by
    have hint : quantize e v = int64OfFloat (if 0 ≤ x then x + 1 / 2 else x - 1 / 2) := by
      unfold quantize
      simp only [hsign]
      split_ifs <;> rfl
    rw [hint, int64OfFloat, ← hn, if_pos (by omega)]
  have htoInt : (quantize e v).toInt = n := by
    rw [hq, BitVec.toInt_ofInt, Int.bmod_def]
    split_ifs <;> omega
  rw [htoInt, abs_le (a := n)]
  exact ⟨hround, hge, hle⟩

theorem abs_quantize_sub_le {e v : ℚ} (he : 0 < e) (hv : |v| / (2 * e) < 2 ^ 58) :
    |2 * e * (quantize e v).toInt - v| ≤ e := by
  have he' : 0 < 2 * e := by linarith
  calc |2 * e * (quantize e v).toInt - v|
      = 2 * e * |((quantize e v).toInt : ℚ) - v / (2 * e)| := by
        rw [← abs_of_pos he', ← abs_mul, mul_sub, abs_of_pos he', mul_div_cancel₀ v he'.ne']
    _ ≤ 2 * e * (1 / 2) := mul_le_mul_of_nonneg_left (quantize_spec he hv).1 he'.le
    _ = e := by ring

/-! ### Codes of quantised values -/

/-- The range of the quantised values. -/
def InRange (q : I64) : Prop := |q.toInt| ≤ 2 ^ 58

section InRange

variable {q q' : I64} (h : InRange q) (h' : InRange q')
include h h'

theorem InRange.toInt_sub : (q' - q).toInt = q'.toInt - q.toInt := by
  rw [InRange, abs_le] at h h'
  rw [BitVec.toInt_sub, Int.bmod_def]
  split_ifs <;> omega

theorem InRange.readable : Readable (zigzag (q' - q)) := by
  rw [readable_zigzag, InRange.toInt_sub h h']
  rw [InRange, abs_le] at h h'
  omega

theorem InRange.toNat_code :
    q'.toInt < q.toInt ∧ ((zigzag (q' - q)).toNat : ℤ) = 2 * (q.toInt - q'.toInt) - 1 ∨
      q.toInt ≤ q'.toInt ∧ ((zigzag (q' - q)).toNat : ℤ) = 2 * (q'.toInt - q.toInt) := by
  have hsub := InRange.toInt_sub h h'
  rcases lt_or_ge (q' - q).toInt 0 with hd | hd
  · have := zigzag_of_neg hd; omega
  · have := zigzag_of_nonneg hd; omega

theorem InRange.code_le : (zigzag (q' - q)).toNat ≤ 2 ^ 60 := by
  have hcode := InRange.toNat_code h h'
  rw [InRange, abs_le] at h h'
  omega

/-- Only the jump from the least to the greatest value is not in the range of Simple8b. -/
theorem InRange.code_lt (hj : ¬ (q.toInt = -2 ^ 58 ∧ q'.toInt = 2 ^ 58)) :
    (zigzag (q' - q)).toNat < 2 ^ 60 := by
  have hcode := InRange.toNat_code h h'
  rw [InRange, abs_le] at h h'
  omega

theorem InRange.code_pos (hne : q ≠ q') : 0 < (zigzag (q' - q)).toNat := by
  have hcode := InRange.toNat_code h h'
  have hne' : q.toInt ≠ q'.toInt := fun he => hne (BitVec.eq_of_toInt_eq he)
  omega

end InRange

theorem small_deltaCodes : ∀ {qs : List I64} {q : I64}, (∀ x ∈ q :: qs, InRange x) →
    (q :: qs).IsChain (fun x y => ¬ (x.toInt = -2 ^ 58 ∧ y.toInt = 2 ^ 58)) →
    Small (deltaCodes q qs)
  | [], _, _, _ => by simp [CLIterate.Small, deltaCodes]
  | q' :: qs, q, hr, hj => by
    obtain ⟨h0, hr'⟩ := forall_mem_cons.1 hr
    obtain ⟨hj0, hj'⟩ := isChain_cons_cons.1 hj
    rw [CLIterate.Small, deltaCodes, forall_mem_cons]
    exact ⟨h0.code_lt (hr' q' mem_cons_self) hj0, small_deltaCodes hr' hj'⟩

/-- The least value is not reached without a code in between. -/
theorem small_or_exists : ∀ {qs : List I64} {q : I64}, (∀ x ∈ q :: qs, InRange x) →
    q.toInt ≠ -2 ^ 58 → Small (deltaCodes q qs) ∨
      ∃ c ∈ deltaCodes q qs, 0 < c.toNat ∧ c.toNat < 2 ^ 60
  | [], _, _, _ => by simp [CLIterate.Small, deltaCodes]
  | q' :: qs, q, hr, hq => by
    obtain ⟨h0, hr'⟩ := forall_mem_cons.1 hr
    have hlt := h0.code_lt (hr' q' mem_cons_self) fun h => hq h.1
    by_cases heq : q = q'
    · subst heq
      rcases small_or_exists hr' hq with hs | ⟨c, hc, hpos⟩
      · refine Or.inl ?_
        rw [CLIterate.Small, deltaCodes, forall_mem_cons]
        exact ⟨hlt, hs⟩
      · exact .inr ⟨c, mem_cons_of_mem _ hc, hpos⟩
    · exact .inr ⟨_, mem_cons_self, h0.code_pos (hr' q' mem_cons_self) heq, hlt⟩

theorem code_le_of_mem : ∀ {qs : List I64} {q : I64}, (∀ x ∈ q :: qs, InRange x) →
    ∀ c ∈ deltaCodes q qs, c.toNat ≤ 2 ^ 60
  | [], _, _ => by simp [deltaCodes]
  | q' :: qs, q, hr => by
    obtain ⟨h0, hr'⟩ := forall_mem_cons.1 hr
    rw [deltaCodes, forall_mem_cons]
    exact ⟨h0.code_le (hr' q' mem_cons_self), code_le_of_mem hr'⟩

theorem dense_deltaCodes {qs : List I64} (hr : ∀ x ∈ qs, InRange x) : Dense (deltaCodes 0 qs) := by
  have hr' : ∀ x ∈ (0 : I64) :: qs, InRange x := 
    forall_mem_cons.2 ⟨by simp [InRange], hr⟩
  rcases small_or_exists hr' (by decide) with hs | ⟨c', hc', hpos, hlt⟩
  · exact dense_of_small hs
  · intro c hc
    have hle := code_le_of_mem hr' c hc
    by_cases h : c.toNat < 2 ^ 60
    · exact Or.inl h
    · exact .inr ⟨c', hc', by omega, by omega⟩

/-- **What is read is the multiple of the quantised value**, at every position. -/
theorem samplesOf_deltaCodes (e : ℚ) : ∀ {l : List (I64 × I64)} {q : I64},
    (∀ x ∈ q :: l.map Prod.snd, InRange x) →
    samplesOf e q (2 * e * q.toInt) ((l.map Prod.fst).zip (deltaCodes q (l.map Prod.snd))) =
      l.map (sampleAt e)
  | [], _, _ => rfl
  | (t, x) :: l, q, hr => by
    obtain ⟨h0, hr'⟩ := forall_mem_cons.1 hr
    have hx : InRange x := hr' x mem_cons_self
    have hcode : addCode q (zigzag (x - q)) = x := by
      rw [addCode_zigzag (h0.readable hx)]; grind
    have hval : addValue e (2 * e * q.toInt) (zigzag (x - q)) = 2 * e * x.toInt := by
      have hne : x - q ≠ topBit := fun h => absurd (h0.readable hx) (by rw [h]; decide)
      rw [addValue_zigzag, if_neg hne, h0.toInt_sub hx]
      push_cast
      ring
    simp only [map_cons, deltaCodes, zip_cons_cons, samplesOf, hcode, hval,
      samplesOf_deltaCodes e hr', sampleAt]

theorem samplesOf_new (e : ℚ) {l : List (I64 × I64)} (hr : ∀ q ∈ l.map Prod.snd, InRange q) :
    samplesOf e 0 0 ((l.map Prod.fst).zip (deltaCodes 0 (l.map Prod.snd))) =
      l.map (sampleAt e) := by
  have hs := samplesOf_deltaCodes e (q := 0) (forall_mem_cons.2 ⟨by simp [InRange], hr⟩)
  rwa [show 2 * e * ((0 : I64).toInt : ℚ) = 0 by simp] at hs

/-! ### Calls of `Append` -/

def appendValues (a : CLAppender) : List (I64 × ℚ) → Except Fault CLAppender
  | [] => .ok a
  | (t, v) :: l => do
    let a ← a.append t v
    appendValues a l

def quantized (e : ℚ) (l : List (I64 × ℚ)) : List (I64 × I64) :=
  l.map fun p => (p.1, quantize e p.2)

theorem appendValues_of_run (ext : Extern) : ∀ {l : List (I64 × ℚ)} {a a' : CLAppender},
    keepsFloats a.ctype = false →
    run (exec ext) a (appends (quantized a.errbound l)) = .ok (a', []) → appendValues a l = .ok a'
  | [], a, a', _, h => by
    obtain ⟨rfl, -⟩ : a = a' ∧ _ := Prod.mk.inj (Except.ok.inj h)
    rfl
  | (t, v) :: l, a, a', hc, h => by
    obtain ⟨a1, e, es, hstep, hrun, hnil⟩ := run_cons_eq_ok h
    obtain ⟨a1, h1, heq⟩ := map_eq_ok hstep
    cases heq
    obtain rfl : [] = es := hnil
    have hk := (keeps_appendQuantizer h1).1
    rw [appendValues, append_eq_appendQuantizer hc, h1]
    refine appendValues_of_run ext (hk.ctype ▸ hc) ?_
    rw [hk.errbound]
    exact hrun

/-! ### The round trip -/

theorem storedErrbound_millionths {k : ℕ} (hk : k < 2 ^ 28) :
    BoundFits (k / 1000000) ∧ storedErrbound (k / 1000000) = k / 1000000 := by
  have hnat := toNat_millionths (show k < 2 ^ 32 by omega)
  exact ⟨by rw [BoundFits, hnat]; exact hk, by rw [storedErrbound, hnat]⟩

/-- A jump between the two ends of the range. -/
def Jumps (e : ℚ) (p p' : I64 × ℚ) : Prop :=
  p.2 / (2 * e) ≤ -(2 ^ 58 - 1 / 2) ∧ 2 ^ 58 - 1 / 2 ≤ p'.2 / (2 * e)

/-- The lists of values a codec takes. -/
def Takes (e : ℚ) (l : List (I64 × ℚ)) : CompressType → Prop
  | .qSimple8b => l.IsChain fun p p' => ¬ Jumps e p p'
  | .huffman => l ≠ []
  | _ => False

/-- The values `samples` are those of the list `l`, with errors up to the bound. -/
def Within (e : ℚ) (l : List (I64 × ℚ)) (samples : List Sample) : Prop :=
  List.Forall₂ (fun p s => s.t = p.1 ∧ |s.val - p.2| ≤ e ∧ s.val = 2 * e * s.quantizer.toInt) l
    samples

section values

variable {e : ℚ} {l : List (I64 × ℚ)} (he : 0 < e) (hv : ∀ p ∈ l, |p.2| / (2 * e) < 2 ^ 58)
include he hv

theorem inRange_quantized : ∀ q ∈ (quantized e l).map Prod.snd, InRange q := by
  intro q hq
  simp only [quantized, map_map, mem_map, Function.comp_apply] at hq
  obtain ⟨p, hp, rfl⟩ := hq
  exact (quantize_spec he (hv p hp)).2

theorem within_map_sampleAt : Within e l ((quantized e l).map (sampleAt e)) := by
  rw [Within, quantized, map_map, List.forall₂_map_right_iff, List.forall₂_same]
  intro p hp
  exact ⟨rfl, abs_quantize_sub_le he (hv p hp), rfl⟩

theorem small_quantized (hj : l.IsChain fun p p' => ¬ Jumps e p p') :
    Small (deltaCodes 0 ((quantized e l).map Prod.snd)) := by
  refine small_deltaCodes
    (forall_mem_cons.2 ⟨by simp [InRange], inRange_quantized he hv⟩) ?_
  rw [isChain_cons, quantized, map_map, isChain_map]
  refine ⟨fun _ _ h => absurd h.1 (by decide), hj.imp_of_mem_imp ?_⟩
  rintro p p' hp hp' hn ⟨hq, hq'⟩
  -- a value that is rounded to an end of the range is within a half of it
  have h1 := (abs_le.1 (quantize_spec he (hv p hp)).1).1
  have h2 := (abs_le.1 (quantize_spec he (hv p' hp')).1).2
  simp only [Function.comp_apply] at hq hq'
  rw [hq] at h1
  rw [hq'] at h2
  push_cast at h1 h2
  exact hn ⟨by linarith, by linarith⟩

end values

/-- **The error bound holds at every position**: the values read are multiples of twice the bound,
within the bound of those appended. -/
theorem decodeChunk_within (ext : Extern) {k : ℕ} (hk : 1 ≤ k) (hk' : k < 2 ^ 28)
    {l : List (I64 × ℚ)} (hlen : l.length ≤ 65535)
    (hv : ∀ p ∈ l, |p.2| / (2 * (k / 1000000)) < 2 ^ 58) {ctype : CompressType}
    (ht : Takes (k / 1000000) l ctype) (ranges : Ranges) :
    ∃ a a', appendValues
        (((appender newCLChunk).setErrorBound (k / 1000000)).setCompressType ctype) l =
        .ok a ∧
      a.compact ext ranges = .ok (a', none) ∧
      ∀ order, ∃ samples, decodeChunk ext order a'.b.stream = .ok (samples, none) ∧
        Within (k / 1000000) l samples := by
  set e : ℚ := k / 1000000 with he
  have hpos : 0 < e := by
    rw [he]; positivity
  obtain ⟨hfits, hstored⟩ := storedErrbound_millionths hk'
  rw [← he] at hfits hstored
  have hlen' : (quantized e l).length < 2 ^ 16 := by rw [quantized, length_map]; omega
  -- what the samples are is the same for both codecs
  have hwithin : ∀ a' : CLAppender, DecodesTo a'.b.stream (storedErrbound e) (quantized e l) →
      ∀ order, ∃ samples, decodeChunk ext order a'.b.stream = .ok (samples, none) ∧
        Within e l samples := by
    intro a' hd order
    refine ⟨_, hd ext order, ?_⟩
    rw [hstored, samplesOf_new e (inRange_quantized hpos hv)]
    exact within_map_sampleAt hpos hv
  cases ctype with
  | qSimple8b =>
    have hs := small_quantized hpos hv ht
    have hadm : Admissible (appends (quantized e l)) :=
      ⟨by rwa [appended_appends], by rwa [appended_appends]⟩
    obtain ⟨a, hrun, hh, hb⟩ := (head_new hfits).run ext hadm
    rw [appended_appends] at hh
    obtain ⟨a', hcomp, -, -, hd⟩ := hh.compact hlen' hs ext ranges
    rw [hb] at hd
    exact ⟨a, a', appendValues_of_run ext rfl hrun, hcomp, hwithin a' hd⟩
  | huffman =>
    obtain ⟨a, hrun, hbuf, hk, -⟩ :=
      (buffered_new e .huffman).run_appends ext (quantized e l) rfl
    have hb : a.errbound = e := hk.errbound
    obtain ⟨a', hcomp, -, -, hd, -⟩ := Buffered.compact_huffman hbuf hlen' (hb ▸ hfits) hk.ctype
      (by simpa [quantized] using (show l ≠ [] from ht))
      (dense_deltaCodes (inRange_quantized hpos hv)) ext ranges
    rw [hb] at hd
    exact ⟨a, a', appendValues_of_run ext rfl hrun, hcomp, hwithin a' hd⟩
  | _ => exact ht.elim

theorem decodeChunk_within_hundredth :
    ∃ a a', appendValues
        (((appender newCLChunk).setErrorBound ((10000 : ℕ) / 1000000)).setCompressType .qSimple8b)
        [(1000, 5 / 4), (2000, -7 / 3)] = .ok a ∧
      a.compact default default = .ok (a', none) ∧
      ∀ order, ∃ samples, decodeChunk default order a'.b.stream = .ok (samples, none) ∧
        Within ((10000 : ℕ) / 1000000) [(1000, 5 / 4), (2000, -7 / 3)] samples :=
  decodeChunk_within default (by decide) (by decide) (by decide)
    (by simp only [forall_mem_cons]; norm_num [abs_of_pos, abs_of_neg])
    (by norm_num [Takes, Jumps]) default

/-- The values at the two ends of the range, and no value at all. -/
theorem not_decodeChunk_within :
    (∃ a, appendValues (((appender newCLChunk).setErrorBound ((1 : ℕ) / 1000000)).setCompressType
          .qSimple8b)
          [(0, -(2 ^ 58 - 1 / 4) * (2 / 1000000)), (1, (2 ^ 58 - 1 / 4) * (2 / 1000000))] = .ok a ∧
      (a.compact default default).map Prod.snd =
        .ok (some (.valueOutOfBounds [1152921504606846976]))) ∧
    ∃ a, appendValues (((appender newCLChunk).setErrorBound ((1 : ℕ) / 1000000)).setCompressType
        .huffman) [] = .ok a ∧ a.compact default default = .error .panic := by
  have hq : (appendValues (((appender newCLChunk).setErrorBound ((1 : ℕ) / 1000000)).setCompressType
      .qSimple8b)
      [(0, -(2 ^ 58 - 1 / 4) * (2 / 1000000)), (1, (2 ^ 58 - 1 / 4) * (2 / 1000000))]).map
        (fun a => (a.compact default default).map Prod.snd) =
      .ok (.ok (some (.valueOutOfBounds [1152921504606846976]))) := by decide +kernel
  obtain ⟨a, ha, hc⟩ := map_eq_ok hq
  exact ⟨⟨a, ha, hc⟩, _, rfl, by decide +kernel⟩

end TopcDB.Chunkenc.ErrorBound
