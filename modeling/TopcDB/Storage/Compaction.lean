import TopcDB.Storage.Series

/-! # What compaction does to values

The chunks of a series are chained and encoded anew. The value of a sample is twice the error bound
stored in its chunk, times its quantiser. The encoder copies the quantisers, but the new chunks
store the default error bound whatever the sources store: values are kept when that is the bound of
the source, or when the value is zero. -/

namespace TopcDB.Storage.Compaction

open BitVec List Lib.Bits Lib.Assoc Lib.Segments Go.Basic Chunkenc Zigzag Timestamps Huffman CLMeta
open CLChunk Chunk CLIterate HuffmanChunk Merge Series

variable {H FH A FA : Type}

/-! ### Sources -/

/-- The sample an iterator is at. -/
def sampleAt (it : CLIterator) : Sample := ⟨it.t, it.quantizer, it.val⟩

theorem ctype_nextDelta {d d' : Decoder} {c : Option U64} (h : d.nextDelta = .ok (c, d')) :
    d'.ctype = d.ctype := by
  unfold Decoder.nextDelta at h
  split at h
  · split at h <;> (cases h; rfl)
  · cases h
  · cases h; rfl
  · cases h
  · split at h
    · cases h
    · cases h; rfl
    · cases h; rfl
  · split at h <;> (cases h; rfl)
  · cases h; rfl

variable {it it' : CLIterator}

theorem next_frame (h : it.next = .ok (true, it')) :
    it.err = none ∧ it'.err = none ∧ it'.numRead = it.numRead + 1 ∧ it'.numTotal = it.numTotal ∧
      it'.errbound = it.errbound ∧ it'.decoder.ctype = it.decoder.ctype := by
  unfold CLIterator.next at h
  split_ifs at h with h0
  · simp at h
  · have he : it.err = none := by
      cases hc : it.err with
      | none => rfl
      | some e => simp [hc] at h0
    rcases hts : nextTimestampDOD it.numRead it.tr it.t it.tDelta with ⟨e | ⟨t, tDelta⟩, tr⟩
    · simp [hts] at h
    · simp only [hts] at h
      split at h
      · split at h
        · cases h
        · cases h
          exact ⟨he, he, rfl, rfl, rfl, rfl⟩
      · split at h
        · cases h
        · simp at h
        · rename_i hd
          cases h
          exact ⟨he, he, rfl, rfl, rfl, ctype_nextDelta hd⟩

theorem seek_self (he : it.err = none) (hn : it.numRead ≠ 0) : seek it it.t = .ok (.float, it) := by
  rw [seek, he, Option.isSome_none, if_neg Bool.false_ne_true, seekLoop, if_neg]
  rintro (hlt | h0)
  · simp [slt_eq_decide] at hlt
  · exact hn h0

theorem runs_of_drain (H FH : Type) : ∀ {k : ℕ} {it it' : CLIterator} {samples : List Sample},
    drain k it = .ok (samples, it') → it.err = none → it'.err = none →
    ∃ its : List CLIterator, Runs (clIterator H FH) it (its.map (Prod.mk .float)) ∧
      its.map sampleAt = samples ∧
      ∀ x ∈ its, x.errbound = it.errbound ∧ x.decoder.ctype = it.decoder.ctype
  | 0, _, _, _, h, _, _ => by simp [drain] at h
  | k + 1, it, it', samples, h, he, he' => by
    obtain ⟨hn, rfl⟩ | ⟨it1, samples1, hn, hd, rfl⟩ := drain_succ h
    · exact ⟨[], ⟨he, it', by simp [clIterator, hn, Except.map], he'⟩, rfl, by simp⟩
    · obtain ⟨-, he1, hread, -, hb, hc⟩ := next_frame hn
      obtain ⟨its, hruns, hmap, hall⟩ := runs_of_drain H FH hd he1 he'
      refine ⟨it1 :: its, ⟨he, by decide, by simp [clIterator, hn, Except.map],
        seek_self he1 (by omega), hruns⟩, by rw [map_cons, hmap]; rfl, ?_⟩
      rintro x (_ | ⟨_, hx⟩)
      · exact ⟨hb, hc⟩
      · exact ⟨(hall x hx).1.trans hb, (hall x hx).2.trans hc⟩

/-! ### Values -/

/-- The value of the sample an iterator is at, with its timestamp. -/
def valueAt (it : CLIterator) : I64 × ℚ := (it.t, 2 * it.errbound * it.quantizer.toInt)

/-- The values a chunk decodes to. -/
def valuesOf (ext : Extern) (order : RangeOrder (U64 × I64)) (b : List Byte) :
    Except Fault (List (I64 × ℚ)) := do
  let h ← readCLMeta b
  let (samples, _) ← decodeChunk ext order b
  return samples.map fun s => (s.t, 2 * h.errbound * s.quantizer.toInt)

/-- The value of a sample is the same under the default error bound; `flipped` says that its
quantiser is read with the wrong top bit. -/
def Kept (flipped : Bool) (it : CLIterator) : Prop :=
  if flipped then it.errbound = 0 ∧ it.quantizer = topBit
  else it.errbound = defaultErrbound ∨ it.quantizer = 0

/-- All values are the same under the default error bound. A code that is not readable changes the
top bit of the quantisers behind it. -/
def KeptFrom : Bool → I64 → List CLIterator → Prop
  | _, _, [] => True
  | flipped, q, it :: its =>
    Kept (flipped ^^ !decide (Readable (zigzag (it.quantizer - q)))) it ∧
      KeptFrom (flipped ^^ !decide (Readable (zigzag (it.quantizer - q)))) it.quantizer its

/-- What is added to a quantiser that is read with the wrong top bit. -/
def flip (flipped : Bool) : I64 := if flipped then topBit else 0

theorem kept_iff (he : 0 ≤ it.errbound) (flipped : Bool) :
    2 * defaultErrbound * ((it.quantizer + flip flipped).toInt : ℚ) =
      2 * it.errbound * it.quantizer.toInt ↔ Kept flipped it := by
  have hzero : it.quantizer.toInt = 0 ↔ it.quantizer = 0 := by
    rw [← toInt_inj]; simp
  cases flipped with
  | false =>
    rw [flip, if_neg Bool.false_ne_true,
      show it.quantizer + 0 = it.quantizer from BitVec.add_zero _,
      Kept, if_neg Bool.false_ne_true, ← hzero, mul_assoc, mul_assoc, mul_right_inj' two_ne_zero,
      mul_eq_mul_right_iff, Int.cast_eq_zero]
    exact or_congr_left eq_comm
  | true =>
    have hmin := le_toInt (x := it.quantizer)
    have hmax := toInt_lt (x := it.quantizer)
    rw [flip, if_pos rfl, toInt_add_topBit, Kept, if_pos rfl]
    constructor
    · -- the wrong top bit changes the sign
      intro h
      have hd : (0 : ℚ) < 2 * defaultErrbound := by norm_num [defaultErrbound]
      split_ifs at h with hneg
      · have hl : (0 : ℚ) ≤ 2 * defaultErrbound * ((it.quantizer.toInt + 2 ^ 63 : ℤ) : ℚ) :=
          mul_nonneg hd.le (by exact_mod_cast (by omega : 0 ≤ it.quantizer.toInt + 2 ^ 63))
        have hr : 2 * it.errbound * (it.quantizer.toInt : ℚ) ≤ 0 :=
          mul_nonpos_of_nonneg_of_nonpos (by linarith) (by exact_mod_cast hneg.le)
        have hl0 : ((it.quantizer.toInt + 2 ^ 63 : ℤ) : ℚ) = 0 :=
          (mul_eq_zero_iff_left hd.ne').1 (le_antisymm (h ▸ hr) hl)
        have hr0 : 2 * it.errbound * (it.quantizer.toInt : ℚ) = 0 := le_antisymm hr (h ▸ hl)
        refine ⟨?_, ?_⟩
        · rcases mul_eq_zero.1 hr0 with h2 | h2
          · linarith
          · exact absurd (Int.cast_eq_zero.1 h2) hneg.ne
        · apply eq_of_toInt_eq
          rw [show topBit.toInt = -2 ^ 63 by decide]
          have := Int.cast_eq_zero.1 hl0
          omega
      · have hl : 2 * defaultErrbound * ((it.quantizer.toInt - 2 ^ 63 : ℤ) : ℚ) < 0 :=
          mul_neg_of_pos_of_neg hd (by exact_mod_cast (by omega : it.quantizer.toInt - 2 ^ 63 < 0))
        have hr : 0 ≤ 2 * it.errbound * (it.quantizer.toInt : ℚ) :=
          mul_nonneg (by linarith) (by exact_mod_cast not_lt.1 hneg)
        rw [h] at hl
        exact absurd hl (not_lt.2 hr)
    · rintro ⟨h0, hq⟩
      rw [h0, hq]
      norm_num [show topBit.toInt = -2 ^ 63 by decide]

theorem addCode_flip (flipped : Bool) (q q' : I64) :
    addCode (q + flip flipped) (zigzag (q' - q)) =
      q' + flip (flipped ^^ !decide (Readable (zigzag (q' - q)))) := by
  rw [addCode_add]
  by_cases h : Readable (zigzag (q' - q))
  · rw [addCode_zigzag h, decide_eq_true h]
    cases flipped <;> grind
  · rw [addCode_zigzag_of_not h, decide_eq_false h]
    have htop : topBit + topBit = 0 := by decide
    cases flipped <;> simp only [flip] <;> grind

/-- The values read from the codes of some quantisers. -/
theorem map_samplesOf_eq_iff (e : ℚ) :
    ∀ {its : List CLIterator} (flipped : Bool) (q : I64) (val : ℚ),
    (∀ it ∈ its, 0 ≤ it.errbound) →
    ((samplesOf e (q + flip flipped) val
        ((its.map CLIterator.t).zip (deltaCodes q (its.map CLIterator.quantizer)))).map
      (fun s => (s.t, 2 * defaultErrbound * (s.quantizer.toInt : ℚ))) = its.map valueAt ↔
        KeptFrom flipped q its)
  | [], _, _, _, _ => by simp [deltaCodes, samplesOf, KeptFrom]
  | it :: its, flipped, q, val, he => by
    rw [forall_mem_cons] at he
    simp only [map_cons, deltaCodes, zip_cons_cons, samplesOf, cons.injEq]
    rw [addCode_flip, map_samplesOf_eq_iff e _ _ _ he.2, KeptFrom, valueAt, Prod.mk.injEq,
      kept_iff he.1]
    simp

/-! ### Segments -/

/-- The values of a segment survive: they can be counted, their table can be written, and they are
the same under the default error bound. -/
def SegmentKept (seg : List CLIterator) : Prop :=
  seg.length < 2 ^ 16 ∧ Dense (deltaCodes 0 (seg.map CLIterator.quantizer)) ∧ KeptFrom false 0 seg

theorem map_tq (seg : List CLIterator) : (seg.map tq).map Prod.fst = seg.map CLIterator.t ∧
    (seg.map tq).map Prod.snd = seg.map CLIterator.quantizer := by
  simp [tq, Function.comp_def]

variable {order : RangeOrder (U64 × I64)} {ext : Extern}

theorem length_valuesOf {b : List Byte} {vals : List (I64 × ℚ)}
    (h : valuesOf ext order b = .ok vals) : vals.length < 2 ^ 16 := by
  unfold valuesOf at h
  obtain ⟨m, -, h⟩ := bind_eq_ok h
  obtain ⟨⟨samples, err⟩, hd, h⟩ := bind_eq_ok h
  rw [← Except.ok.inj h, length_map]
  exact length_decodeChunk hd

section segment

variable {seg : List CLIterator} (hne : seg ≠ []) (he : ∀ it ∈ seg, 0 ≤ it.errbound)
  {a : CLAppender} (ha : FloatApp a (seg.map tq))
include hne he ha

theorem compact_values (hl : seg.length < 2 ^ 16)
    (hd : Dense (deltaCodes 0 (seg.map CLIterator.quantizer))) (ext : Extern) (ranges : Ranges)
    (order : RangeOrder (U64 × I64)) :
    ∃ a' vals, a.compact ext ranges = .ok (a', none) ∧
      valuesOf ext order a'.b.stream = .ok vals ∧ vals.length = seg.length ∧
      (vals = seg.map valueAt ↔ KeptFrom false 0 seg) := by
  obtain ⟨a', hcomp, -, hdec, payload, hchunk⟩ := ha.compact (by simpa using hne)
    (by simpa using hl) (by rwa [(map_tq seg).2]) ext ranges
  have hvals := hdec ext order
  rw [(map_tq seg).1, (map_tq seg).2] at hvals
  have hiff := map_samplesOf_eq_iff defaultErrbound false 0 0 he
  rw [show (0 : I64) + flip false = 0 by decide] at hiff
  refine ⟨a', _, hcomp, ?_, ?_, hiff⟩
  · rw [valuesOf, hchunk.readCLMeta, hvals, storedErrbound_default]
    rfl
  · simp [length_samplesOf]

theorem segmentKept_of_values {ranges : Ranges} {a' : CLAppender} {e : Option Err}
    {vals : List (I64 × ℚ)} (hcomp : a.compact ext ranges = .ok (a', e))
    (hvals : valuesOf ext order a'.b.stream = .ok vals) :
    vals.length ≤ seg.length ∧ (vals = seg.map valueAt → SegmentKept seg) := by
  have hlen := length_valuesOf hvals
  by_cases hl : seg.length < 2 ^ 16
  · have hd := (map_tq seg).2 ▸ ha.dense_of_compact hcomp
    obtain ⟨a1, vals1, h1, h2, h3, h4⟩ := compact_values hne he ha hl hd ext ranges order
    cases h1.symm.trans hcomp
    cases h2.symm.trans hvals
    exact ⟨h3.le, fun heq => ⟨hl, hd, h4.1 heq⟩⟩
  · refine ⟨by omega, fun heq => ?_⟩
    rw [heq, length_map] at hlen
    exact absurd hlen hl

end segment

/-! ### All segments -/

/-- A chunk decodes to the values `vals`. -/
def DecodesToValues (ext : Extern) (order : RangeOrder (U64 × I64)) (chk : Meta A FA)
    (vals : List (I64 × ℚ)) : Prop :=
  ∃ b, chk.chunk = .cl b ∧ valuesOf ext order b.stream = .ok vals

section chunks

variable {ext : Extern} {order : RangeOrder (U64 × I64)} {chks : List (Meta A FA)}
  {segs : List (List CLIterator)} (hs : ∀ seg ∈ segs, seg ≠ [] ∧ ∀ it ∈ seg, 0 ≤ it.errbound)
include hs

theorem values_of_chunks {vals : List (List (I64 × ℚ))}
    (h : Forall₂ (DecodesToValues ext order) chks vals)
    (hc : Forall₂ (ChunkOf Quantized CLIterator.t ext) chks segs) :
    Forall₂ (fun vs seg => vs.length ≤ (seg.map valueAt).length ∧
      (vs = seg.map valueAt → SegmentKept seg)) vals segs := by
  have hmem : Forall₂ (fun chk seg => seg ∈ segs ∧ ChunkOf Quantized CLIterator.t ext chk seg)
      chks segs := forall₂_imp_of_mem hc fun _ _ hseg h => ⟨hseg, h⟩
  refine forall₂_comp h.flip hmem fun vs chk seg hv hchk => ?_
  obtain ⟨b, hb, hvals⟩ := hv
  obtain ⟨hseg, a, ranges, a', e, ha, hcomp, rfl⟩ := hchk
  obtain rfl : a'.b = b := AnyChunk.cl.inj hb
  rw [length_map]
  exact segmentKept_of_values (hs seg hseg).1 (hs seg hseg).2 ha hcomp hvals

theorem chunks_of_kept (order : RangeOrder (U64 × I64)) (hk : ∀ seg ∈ segs, SegmentKept seg)
    {r : Except Fault (List (Meta A FA))} (hw : Writes Quantized CLIterator.t ext r [] segs) :
    ∃ new, r = .ok new ∧ Forall₂ (DecodesToValues ext order) new (segs.map (map valueAt)) := by
  simp only [forall₂_map_right_iff]
  refine hw.exists_chunks fun seg hseg a ranges ha => ?_
  obtain ⟨hl, hd, hkept⟩ := hk seg hseg
  obtain ⟨a', vals, h1, h2, -, h4⟩ :=
    compact_values (hs seg hseg).1 (hs seg hseg).2 ha hl hd ext ranges order
  exact ⟨a', h1, a'.b, rfl, by rw [h2, h4.2 hkept]⟩

end chunks

/-! ### The iterators of the sources -/

/-- The bytes of a chunk that exposes quantisers and decodes to `samples`, with the order in which
its decoder visits a map. -/
def Source (ext : Extern) (p : List Byte × RangeOrder (U64 × I64)) (samples : List Sample) : Prop :=
  decodeChunk ext p.2 p.1 = .ok (samples, none) ∧
    ∃ m ctype, readCLMeta p.1 = .ok m ∧ m.ctype = some ctype ∧ quantizes ctype

/-- The position of an iterator over the chunk `p`. -/
structure PositionIn (ext : Extern) (p : List Byte × RangeOrder (U64 × I64)) (it : CLIterator) :
    Prop where
  quantizes : quantizes it.decoder.ctype
  errbound : 0 ≤ it.errbound
  value : ∃ vals, valuesOf ext p.2 p.1 = .ok vals ∧ valueAt it ∈ vals

theorem errbound_nonneg {b : List Byte} {m : Header} (h : readCLMeta b = .ok m) :
    0 ≤ m.errbound := by
  unfold readCLMeta at h
  split_ifs at h
  rw [← Except.ok.inj h]
  positivity

variable {samples : List Sample}

theorem decodeChunk_runs (H FH : Type) {b : List Byte} {hdr : Header}
    (hm : readCLMeta b = .ok hdr) (hdec : decodeChunk ext order b = .ok (samples, none)) :
    ∃ (it : CLIterator) (its : List CLIterator), reset ext order b = .ok (some it) ∧
      Runs (clIterator H FH) it (its.map (Prod.mk .float)) ∧ its.map sampleAt = samples ∧
      its.length < it.numTotal + 1 ∧
      ∀ x ∈ its, x.errbound = hdr.errbound ∧ hdr.ctype = some x.decoder.ctype := by
  obtain ⟨it, it', hr, hd, he'⟩ := decodeChunk_eq_ok hdec
  obtain ⟨hdr', hm', hopen, -, hb, he, -⟩ := reset_spec hr
  cases hm'.symm.trans hm
  obtain ⟨its, hruns, hmap, hall⟩ := runs_of_drain H FH hd he he'
  have hlen := length_drain hd
  rw [← hmap, length_map] at hlen
  refine ⟨it, its, hr, hruns, hmap, hlen, fun x hx => ?_⟩
  obtain ⟨hxb, hxc⟩ := hall x hx
  exact ⟨hxb.trans hb, by rw [hxc, openDecoder_ctype hopen]⟩

theorem source_runs (H FH : Type) {p : List Byte × RangeOrder (U64 × I64)}
    (h : Source ext p samples) :
    ∃ (it : CLIterator) (its : List CLIterator), reset ext p.2 p.1 = .ok (some it) ∧
      Runs (clIterator H FH) it (its.map (Prod.mk .float)) ∧ its.length = samples.length ∧
      ∀ x ∈ its, PositionIn ext p x := by
  obtain ⟨hdec, m, ctype, hm, hc, hq⟩ := h
  obtain ⟨it, its, hr, hruns, hmap, -, hall⟩ := decodeChunk_runs H FH hm hdec
  refine ⟨it, its, hr, hruns, by rw [← hmap, length_map], fun x hx => ?_⟩
  obtain ⟨hxb, hxc⟩ := hall x hx
  have hct : ctype = x.decoder.ctype := Option.some.inj (hc.symm.trans hxc)
  refine ⟨by rwa [← hct], by rw [hxb]; exact errbound_nonneg hm,
    samples.map fun s => (s.t, 2 * m.errbound * s.quantizer.toInt), ?_,
    mem_map.2 ⟨sampleAt x, hmap ▸ mem_map_of_mem hx, ?_⟩⟩
  · rw [valuesOf, hm, hdec]
    rfl
  · rw [valueAt, hxb]
    rfl

/-- The position of an iterator over one of the chunks `srcs`, which are all of floats. -/
def FromSources (ext : Extern) (srcs : List (List Byte × RangeOrder (U64 × I64))) (typ : ValueType)
    (it : CLIterator) : Prop :=
  typ = .float ∧ ∃ p ∈ srcs, PositionIn ext p it

theorem sources_run (H FH : Type) {srcs : List (List Byte × RangeOrder (U64 × I64))}
    {decoded : List (List Sample)} (h : Forall₂ (Source ext) srcs decoded) :
    ∃ its ls, Forall₂ (fun p it => reset ext p.2 p.1 = .ok (some it)) srcs its ∧
      Forall₂ (Runs (clIterator H FH)) its ls ∧
      totalCalls ls = (decoded.map fun l => l.length + 1).sum ∧
      ∀ l ∈ ls, ∀ x ∈ l, FromSources ext srcs x.1 x.2 := by
  induction h with
  | nil => exact ⟨[], [], Forall₂.nil, Forall₂.nil, rfl, by simp⟩
  | @cons p samples srcs decoded hp _ ih =>
    obtain ⟨its, ls, h1, h2, h3, h4⟩ := ih
    obtain ⟨it, xs, hreset, hruns, hlen, hall⟩ := source_runs H FH hp
    refine ⟨it :: its, xs.map (Prod.mk .float) :: ls, Forall₂.cons hreset h1,
      Forall₂.cons hruns h2, ?_, ?_⟩
    · rw [totalCalls] at h3 ⊢
      rw [map_cons, sum_cons, h3, map_cons, sum_cons, length_map, hlen]
    · rintro l (_ | ⟨_, hl⟩) x hx
      · obtain ⟨y, hy, rfl⟩ := mem_map.1 hx
        exact ⟨rfl, p, mem_cons_self, hall y hy⟩
      · obtain ⟨hf, p', hp', hpos⟩ := h4 l hl x hx
        exact ⟨hf, p', mem_cons_of_mem _ hp', hpos⟩

/-! ### Compaction -/

/-- The chunks made of the samples of the iterators `its` decode to the values of the samples
`visited`. -/
def KeepsValues (C : Codecs H FH A FA) (ranges : ℕ → Ranges) (order : RangeOrder (U64 × I64))
    (split : ℤ) (fuel : ℕ) (its visited : List CLIterator) : Prop :=
  ∃ chks vals, seriesToChunkEncoder C ranges (clIterator H FH) split fuel
      (chainSampleIteratorFromIterators its) = .ok (.ok chks) ∧
    Forall₂ (DecodesToValues C.ext order) chks vals ∧ vals.flatten = visited.map valueAt

/-- The iterator of the chosen source at every sample a chained iterator visits. -/
def Visited (H FH : Type) (fuel : ℕ) (its visited : List CLIterator) : Prop :=
  ∃ vs c, visits (clIterator H FH) fuel fuel (chainSampleIteratorFromIterators its) = .ok (vs, c) ∧
    Forall₂ (fun v it => v.2.current = .ok it) vs visited

/-- A chained iterator visits samples that have quantisers, without an error. -/
def VisitsAll (H FH : Type) (fuel : ℕ) (its visited : List CLIterator) : Prop :=
  ∃ vs c, visits (clIterator H FH) fuel fuel (chainSampleIteratorFromIterators its) = .ok (vs, c) ∧
    c.err (clIterator H FH) = [] ∧ Forall₂ (fun v it => v.2.current = .ok it) vs visited ∧
    Forall₂ (Visits (clIterator H FH)) vs visited

variable {fuel : ℕ} {its visited : List CLIterator}

theorem VisitsAll.toVisited (h : VisitsAll H FH fuel its visited) : Visited H FH fuel its visited :=
  let ⟨vs, c, hv, _, hcur, _⟩ := h
  ⟨vs, c, hv, hcur⟩

theorem keepsValues_iff_segments {C : Codecs H FH A FA} {ranges : ℕ → Ranges} {split : ℤ}
    (h : VisitsAll H FH fuel its visited) (he : ∀ it ∈ visited, 0 ≤ it.errbound) :
    KeepsValues C ranges order split fuel its visited ↔
      ∀ seg ∈ cut (segmentSize split) visited, SegmentKept seg := by
  obtain ⟨vs, c, hv, herr, -, hvis⟩ := h
  obtain ⟨r, hr, hw⟩ := seriesToChunkEncoder_cut (C := C) hv herr hvis
  have hflat := flatten_cut (segmentSize split) visited
  have hs : ∀ seg ∈ cut (segmentSize split) visited, seg ≠ [] ∧ ∀ it ∈ seg, 0 ≤ it.errbound := by
    intro seg hseg
    refine ⟨ne_nil_of_mem_cut seg hseg, fun it hit => he it ?_⟩
    rw [← hflat]
    exact mem_flatten_of_mem hseg hit
  have hvalues : visited.map valueAt =
      ((cut (segmentSize split) visited).map (map valueAt)).flatten := by
    conv_lhs => rw [← hflat, map_flatten]
  unfold KeepsValues
  rw [hr, hvalues]
  constructor
  · rintro ⟨chks, vals, henc, hdec, hf⟩
    rcases hw with ⟨new, rfl, hc⟩ | ⟨fault, rfl, -⟩
    · cases Except.ok.inj henc
      have hvals := values_of_chunks hs hdec hc
      have heq := eq_of_flatten_eq (forall₂_map_right_iff.2 (hvals.imp fun _ _ h => h.1)) hf
      rw [heq, forall₂_map_left_iff, forall₂_same] at hvals
      exact fun seg hseg => (hvals seg hseg).2 rfl
    · cases henc
  · intro hk
    obtain ⟨new, rfl, hall⟩ := chunks_of_kept hs order hk hw
    exact ⟨new, _, rfl, hall, rfl⟩

/-- A chained iterator over sources visits samples of theirs that have quantisers. -/
theorem visited_of_sources {srcs : List (List Byte × RangeOrder (U64 × I64))}
    {decoded : List (List Sample)} (hne : srcs ≠ []) (hsrc : Forall₂ (Source ext) srcs decoded)
    (hfuel : (decoded.map fun l => l.length + 1).sum < fuel) :
    ∃ its visited, Forall₂ (fun p it => reset ext p.2 p.1 = .ok (some it)) srcs its ∧
      VisitsAll H FH fuel its visited ∧ ∀ it ∈ visited, ∃ p ∈ srcs, PositionIn ext p it := by
  obtain ⟨its, ls, hreset, hruns, htotal, hall⟩ := sources_run H FH hsrc
  have hits : its ≠ [] := by
    rintro rfl
    exact hne (length_eq_zero_iff.1 hreset.length_eq)
  obtain ⟨k, rfl⟩ : ∃ k, fuel = k + 1 := ⟨fuel - 1, by omega⟩
  obtain ⟨vs, c, ss, hv, herr, hss, hQ, -⟩ := visits_chain (k := k) (Q := FromSources ext srcs)
    hruns hall hits (keeps_true (clIterator H FH)) (R := fun _ _ _ => True)
    (fun {_ _ _ s _ _} _ => ⟨(clIterator H FH).atT s, trivial, rfl, trivial⟩) rfl trivial
    (by omega : totalCalls ls ≤ k + 1) (by omega)
  have hvis : Forall₂ (fun v x => FromSources ext srcs x.1 x.2 ∧ SampleOf v x) vs ss :=
    ((forall₂_and_left _ _).2 ⟨hQ, hss.flip⟩).flip
  refine ⟨its, ss.map Prod.snd, hreset, ⟨vs, c, hv, herr,
    forall₂_map_right_iff.2 (hss.imp fun _ _ h => h.2), forall₂_map_right_iff.2 (hvis.imp ?_)⟩, ?_⟩
  · rintro v x ⟨⟨htyp, p, -, hin⟩, hx, hc⟩
    exact ⟨hx.trans htyp, by rw [hc]; rfl, hin.quantizes⟩
  · exact forall_mem_map.2 fun x hx => (hQ x hx).2

/-- **Compaction keeps the values** of the samples it visits exactly when the chunks can be written
and every value is the same under the default error bound. -/
theorem keepsValues_iff (C : Codecs H FH A FA) (ranges : ℕ → Ranges)
    (order : RangeOrder (U64 × I64)) (split : ℤ)
    {srcs : List (List Byte × RangeOrder (U64 × I64))} {decoded : List (List Sample)}
    (hne : srcs ≠ []) (hsrc : Forall₂ (Source C.ext) srcs decoded) {fuel : ℕ}
    (hfuel : (decoded.map fun l => l.length + 1).sum < fuel) :
    ∃ its visited, Forall₂ (fun p it => reset C.ext p.2 p.1 = .ok (some it)) srcs its ∧
      Visited H FH fuel its visited ∧
      (∀ it ∈ visited, ∃ p ∈ srcs, ∃ vals, valuesOf C.ext p.2 p.1 = .ok vals ∧ valueAt it ∈ vals) ∧
      (KeepsValues C ranges order split fuel its visited ↔
        ∀ seg ∈ cut (segmentSize split) visited, SegmentKept seg) := by
  obtain ⟨its, visited, hreset, hv, hpos⟩ := visited_of_sources hne hsrc hfuel
  refine ⟨its, visited, hreset, hv.toVisited, fun it hit => ?_, ?_⟩
  · obtain ⟨p, hp, hin⟩ := hpos it hit
    exact ⟨p, hp, hin.value⟩
  · refine keepsValues_iff_segments hv fun it hit => ?_
    obtain ⟨p, -, hin⟩ := hpos it hit
    exact hin.errbound

theorem source_hundredth : Source default (storedChunk, default) [⟨1000, 50, 1⟩] := by
  refine ⟨decodeChunk_storedChunk, ⟨1, 14, 1 / 100, some .qSimple8b⟩, .qSimple8b, ?_,
    rfl, by decide⟩
  decide +kernel

theorem keepsValues_iff_hundredth :
    ∃ its visited, Forall₂ (fun p it => reset default p.2 p.1 = .ok (some it))
        [((storedChunk, default) : List Byte × RangeOrder (U64 × I64))] its ∧
      Visited Unit Unit 3 its visited ∧
      (∀ it ∈ visited, ∃ p ∈ [((storedChunk, default) : List Byte × RangeOrder (U64 × I64))],
        ∃ vals, valuesOf default p.2 p.1 = .ok vals ∧ valueAt it ∈ vals) ∧
      (KeepsValues (default : Codecs Unit Unit Unit Unit) default default 1000 3 its visited ↔
        ∀ seg ∈ cut (segmentSize 1000) visited, SegmentKept seg) := by
  exact keepsValues_iff (default : Codecs Unit Unit Unit Unit) default default 1000 (by simp)
    (.cons source_hundredth .nil) (by decide)

/-- A chunk with the error bound 0.05 that holds the quantiser 50, which stands for the value 5. -/
def twentiethChunk : List Byte :=
  [0, 1, 0, 0, 0, 14, 80, 0, 195, 80, 0, 0, 208, 15, 240, 0, 0, 0, 0, 0, 0, 100]

/-- What compaction makes of it: a chunk with the error bound 0.01. -/
def compactedTwentieth : List Byte :=
  [0, 1, 0, 0, 0, 14, 96, 0, 39, 16, 0, 0, 208, 15, 0, 0, 0, 8, 0, 0, 0, 8, 240, 0, 0, 0, 0, 0, 0,
    100, 240, 0, 0, 0, 0, 0, 0, 2]

theorem not_keepsValues_twentieth :
    ∃ it, reset default default twentiethChunk = .ok (some it) ∧
      ∀ visited, Visited Unit Unit 3 [it] visited →
        ¬ KeepsValues (default : Codecs Unit Unit Unit Unit) default default 1000 3 [it]
          visited := by
  have hsome : (reset default default twentiethChunk).map Option.isSome = .ok true := by
    decide +kernel
  have hvisits : (reset default default twentiethChunk).map (Option.map fun it =>
      (visits (clIterator Unit Unit) 3 3 (chainSampleIteratorFromIterators [it])).map fun r =>
        r.1.map fun v => v.2.current.map valueAt) = .ok (some (.ok [.ok (1000, 5)])) := by
    decide +kernel
  have henc : (reset default default twentiethChunk).map (Option.map fun it =>
      seriesToChunkEncoder (default : Codecs Unit Unit Unit Unit) default
        (clIterator Unit Unit) 1000 3
        (chainSampleIteratorFromIterators [it])) =
      .ok (some (.ok (.ok [⟨1000, 1000, .cl ⟨compactedTwentieth, 0⟩⟩]))) := by
    decide +kernel
  have hvals : valuesOf default default compactedTwentieth = .ok [(1000, 1)] := by decide +kernel
  obtain ⟨_ | it, hr, hit⟩ := map_eq_ok hsome
  · cases hit
  rw [hr] at hvisits henc
  refine ⟨it, hr, ?_⟩
  rintro visited ⟨vs, c, hv, hcur⟩ ⟨chks, vals, hchks, hdec, hflat⟩
  -- the one value visited is 5, the one value of the chunk is 1
  have hvisited : visited.map valueAt = [(1000, 5)] := by
    simp only [Except.map, Option.map_some, hv, Except.ok.injEq, Option.some.injEq] at hvisits
    obtain ⟨v, rfl, hval⟩ := map_eq_singleton_iff.1 hvisits
    obtain ⟨x, ⟨⟩, hx, ⟨⟩, rfl⟩ := forall₂_cons_left_iff.1 hcur
    simp only [hx, Except.ok.injEq] at hval
    rw [map_singleton, hval]
  simp only [Except.map, Option.map_some, hchks, Except.ok.injEq, Option.some.injEq] at henc
  subst henc
  obtain ⟨l, ⟨⟩, ⟨b, hb, hl⟩, ⟨⟩, rfl⟩ := forall₂_cons_left_iff.1 hdec
  cases hb
  cases hvals.symm.trans hl
  rw [hvisited] at hflat
  exact absurd hflat (by decide +kernel)

end TopcDB.Storage.Compaction
