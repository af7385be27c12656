import TopcDB.Storage.SplitMerge

/-! # The chunks that the encoder writes

`seriesToChunkEncoder` as the encoder of a `CompactChunkIterator`, for the chunks of a series of
floats. When no two samples have the same timestamp, a run with a split writes them all, in order,
segment by segment. A chunk counts its samples in 16 bits, and the table of its codes must be dense:
`exact_iff_encodable` says when every chunk has the samples that were appended to it. -/

namespace TopcDB.Storage.EncoderChunks

open List Lib.Bits Lib.Assoc Lib.Segments Go.Basic Chunkenc Huffman CLChunk Chunk CLIterate CLAppend
open HuffmanChunk Merge MergeOrder Series AnySeries CompactChunk Overlap DefaultMerge SplitMerge

variable {σ H FH A FA : Type}

/-! ### Samples -/

variable (I : Iterator σ H FH)

/-- The quantiser that the encoder takes from an iterator: its own, or else that of its value. -/
def quantizerAt (s : σ) : I64 :=
  match (I.cl s).filter fun it => quantizes it.decoder.ctype with
  | some it => it.quantizer
  | none =>
    match I.atFloat s with
    | .ok (_, v) => quantize defaultErrbound v
    | .error _ => 0

/-- The sample that the encoder takes from an iterator. -/
def handedAt (x : ValueType × σ) : I64 × I64 := (I.atT x.2, quantizerAt I x.2)

/-- The iterator is at a sample that is a float. -/
structure FloatAt (x : ValueType × σ) : Prop where
  type : x.1 = .float
  value : ∃ v, I.atFloat x.2 = .ok (I.atT x.2, v)
  cl : ∀ it, I.cl x.2 = some it → it.t = I.atT x.2

variable {I : Iterator σ H FH}

theorem feeds_of_floatAt {v : ValueType × ChainSampleIterator σ} {x : ValueType × σ}
    (hv : SampleOf v x) (hx : FloatAt I x) : Feeds FloatApp Prod.fst I v (handedAt I x) := by
  obtain ⟨val, hval⟩ := hx.value
  have hvisit : VisitOf I v ((.chain v.2 : SeriesIterator σ Empty), I.atT x.2, val) :=
    ⟨hv.1.trans hx.type, rfl, by simp only [ChainSampleIterator.atFloat, hv.2, ok_bind, hval]⟩
  refine feeds_of_handed hvisit ?_
  simp only [handed, ChainSampleIterator.compressType, ChainSampleIterator.atQuantizer,
    ChainSampleIterator.atFloat, hv.2, bind, Except.bind, hval, pure, Except.pure, handedAt,
    quantizerAt]
  rcases hc : I.cl x.2 with _ | it
  · rfl
  · by_cases hq : quantizes it.decoder.ctype = true
    · simp [hq, Option.filter, hx.cl it hc]
    · simp [hq, Option.filter]

variable {ss l l' series : List (ValueType × σ)}

theorem encode_writes (C : Codecs H FH A FA) (ranges : ℕ → Ranges) (split : ℤ) {fuel : ℕ}
    {c c' : ChainSampleIterator σ} {vs : List (ValueType × ChainSampleIterator σ)}
    (hv : visits I fuel fuel c = .ok (vs, c')) (herr : c'.err I = [])
    (hss : Forall₂ SampleOf vs ss) (hf : ∀ x ∈ ss, FloatAt I x) :
    ∃ r, seriesToChunkEncoder C ranges I split fuel c = r.map .ok ∧
      Writes FloatApp Prod.fst C.ext r [] (cut (segmentSize split) (ss.map (handedAt I))) := by
  refine encodeSeries_cut floatApp_new hv herr (forall₂_map_right_iff.2 ?_)
  exact forall₂_imp_of_mem hss fun v x hx h => feeds_of_floatAt h (hf x hx)

/-! ### Chunks -/

variable {seg : List (I64 × I64)} (ext : Extern)

theorem map_t_samplesOf (e : ℚ) : ∀ (l : List (I64 × I64)) (q q' : I64) (val : ℚ),
    (samplesOf e q' val ((l.map Prod.fst).zip (deltaCodes q (l.map Prod.snd)))).map Sample.t =
      l.map Prod.fst
  | [], _, _, _ => rfl
  | (t, x) :: l, q, q', val => by
    simp only [map_cons, deltaCodes, zip_cons_cons, samplesOf, map_t_samplesOf e l]

theorem chunkOf_of_dense (hne : seg ≠ []) (hl : seg.length < 2 ^ 16)
    (hd : Dense (deltaCodes 0 (seg.map Prod.snd))) {a : CLAppender} (ha : FloatApp a seg)
    (ranges : Ranges) (order : RangeOrder (U64 × I64)) :
    ∃ a' samples, a.compact ext ranges = .ok (a', none) ∧ numSamples a'.b.stream = seg.length ∧
      decodeChunk ext order a'.b.stream = .ok (samples, none) ∧
      samples.map Sample.t = seg.map Prod.fst := by
  obtain ⟨a', hcomp, hb, hdec, -⟩ := ha.compact hne hl hd ext ranges
  refine ⟨a', _, hcomp, ?_, hdec ext order, map_t_samplesOf _ seg 0 0 0⟩
  rw [hb.stamped.counter, length_map, Nat.zero_add, Nat.mod_eq_of_lt hl]

/-- A chunk never counts more samples than were appended, and those only below 65536. -/
theorem chunkOf_counts (hne : seg ≠ []) {chk : Meta A FA}
    (h : ChunkOf FloatApp Prod.fst ext chk seg) :
    Dense (deltaCodes 0 (seg.map Prod.snd)) ∧
      ∃ b, chk.chunk = .cl b ∧ numSamples b.stream ≤ seg.length := by
  obtain ⟨a, ranges, a', e, ha, hcomp, rfl⟩ := h
  have hd := ha.dense_of_compact hcomp
  refine ⟨hd, a'.b, rfl, ?_⟩
  by_cases hl : seg.length < 2 ^ 16
  · obtain ⟨a1, -, h1, hnum, -⟩ := chunkOf_of_dense ext hne hl hd ha ranges default
    cases h1.symm.trans hcomp
    exact hnum.le
  · exact (numSamples_lt _).le.trans (not_lt.1 hl)

/-! ### Runs over the chunks of a series -/

/-- The chunks of series with the iterators `I`, encoded by `seriesToChunkEncoder`. -/
def encoderChunks (C : Codecs H FH A FA) (ranges : ℕ → Ranges) (fuel : ℕ) (I : Iterator σ H FH)
    (bytes : Meta A FA → List Byte) (iterator : Meta A FA → Except Fault σ) :
    Chunks (Meta A FA) σ H FH where
  minTime := Meta.minTime
  maxTime := Meta.maxTime
  bytes := bytes
  iterator := iterator
  I := I
  encode split c := seriesToChunkEncoder C ranges I split fuel c

variable {μ : Type} {S : Chunks μ σ H FH} {held : μ → List (ValueType × σ)}

/-- The samples of the chunks, which have different timestamps, in order. -/
structure SeriesOf (I : Iterator σ H FH) (held : μ → List (ValueType × σ)) (chks : List μ)
    (series : List (ValueType × σ)) : Prop where
  ascends : Ascends I series
  perm : series.Perm (chks.flatMap held)
  floats : ∀ x ∈ series, FloatAt I x

theorem Ascends.eq_of_mem_iff (h : Ascends I l) (h' : Ascends I l') (hmem : ∀ x, x ∈ l ↔ x ∈ l') :
    l = l' := by
  have hnodup : ∀ {l : List (ValueType × σ)}, Ascends I l → l.Nodup := fun h =>
    h.imp fun hlt he => by rw [he] at hlt; exact lt_irrefl _ hlt
  refine Perm.eq_of_pairwise (fun x y _ _ hxy hyx => ?_) h h'
    ((perm_ext_iff_of_nodup (hnodup h) (hnodup h')).2 hmem)
  exact absurd hxy (lt_asymm hyx)

/-- Merging the chunks gives the series, without a sample at the smallest int64. -/
theorem eq_filter_of_merges {chks : List μ} (hs : SeriesOf S.I held chks series)
    (hm : Merges S.I (chks.map held) ss) :
    ss = series.filter fun x => minInt64.toInt < time S.I x.2 := by
  have hmem : ∀ x, x ∈ series ↔ ∃ l ∈ chks.map held, x ∈ l := fun x => by
    rw [hs.perm.mem_iff, mem_flatMap]
    simp
  have htimes : (series.map fun x => time S.I x.2).Nodup :=
    (pairwise_map.2 hs.ascends).imp ne_of_lt
  refine Ascends.eq_of_mem_iff hm.ascends (hs.ascends.filter _) fun x => ?_
  rw [mem_filter, decide_eq_true_eq]
  constructor
  · intro hx
    exact ⟨(hmem x).2 (hm.mem x hx), ((hm.covers _).1 ⟨x, hx, rfl⟩).1⟩
  · rintro ⟨hx, hlt⟩
    obtain ⟨l, hl, hxl⟩ := (hmem x).1 hx
    obtain ⟨y, hy, he⟩ := (hm.covers _).2 ⟨hlt, l, hl, x, hxl, rfl⟩
    rwa [← inj_on_of_nodup_map htimes ((hmem y).2 (hm.mem y hy)) hx he]

theorem mergeEncode_writes {C : Codecs H FH A FA} {ranges : ℕ → Ranges} {fuel : ℕ}
    {bytes : Meta A FA → List Byte} {iterator : Meta A FA → Except Fault σ}
    {held : Meta A FA → List (ValueType × σ)} (split : ℤ) {chks : List (Meta A FA)}
    (hne : chks ≠ [])
    (hc : ∀ m ∈ chks, Covers (encoderChunks C ranges fuel I bytes iterator) held m)
    (hs : SeriesOf I held chks series) (hfuel : 2 * count held chks < fuel) :
    ∃ r, mergeEncode (encoderChunks C ranges fuel I bytes iterator) split chks = r.map .ok ∧
      Writes FloatApp Prod.fst C.ext r [] (cut (segmentSize split)
        ((series.filter fun x => minInt64.toInt < time I x.2).map (handedAt I))) := by
  set S := encoderChunks C ranges fuel I bytes iterator
  obtain ⟨its, vs, c, ss, hits, hv, herr, hss, hm⟩ := visits_chunks hne hc hfuel
  obtain rfl : ss = _ := eq_filter_of_merges (S := S) hs hm
  obtain ⟨r, hr, hw⟩ := encode_writes C ranges split hv herr hss
    fun x hx => hs.floats x (mem_of_mem_filter hx)
  refine ⟨r, ?_, hw⟩
  rw [mergeEncode, if_neg (by simpa using hne)]
  simp only [hits, ok_bind]
  exact hr

/-! ### What a run writes -/

variable (C : Codecs H FH A FA) (ranges : ℕ → Ranges) (order : RangeOrder (U64 × I64)) (fuel : ℕ)
  (I : Iterator σ H FH) (bytes : Meta A FA → List Byte) (iterator : Meta A FA → Except Fault σ)

/-- A chunk of the samples `seg`, which counts them. -/
def Counts (ext : Extern) (chk : Meta A FA) (seg : List (I64 × I64)) : Prop :=
  ChunkOf FloatApp Prod.fst ext chk seg ∧ ∃ b, chk.chunk = .cl b ∧ numSamples b.stream = seg.length

/-- A run with a split ends well, every chunk counts its samples, and together the chunks decode to
one sample for every sample of the series. -/
def Exact (k : ℕ) (split : ℤ) (iterators : List (ChunkIterator (Meta A FA)))
    (series : List (ValueType × σ)) : Prop :=
  ∃ out segs decoded,
    DrainsSplit (encoderChunks C ranges fuel I bytes iterator) k split iterators out ∧
    segs.flatten = series.map (handedAt I) ∧ Forall₂ (Counts C.ext) out segs ∧
    Forall₂ (DecodesToSamples C.ext order) out decoded ∧
    decoded.flatten.map Sample.t = series.map fun x => I.atT x.2

/-- The segments of the series can be counted, and the tables of their codes written. -/
def Encodable (split : ℤ) (series : List (ValueType × σ)) : Prop :=
  (segmentSize split < 2 ^ 16 ∨ series.length < 2 ^ 16) ∧
    ∀ seg ∈ cut (segmentSize split) (series.map (handedAt I)),
      Dense (deltaCodes 0 (seg.map Prod.snd))

theorem segmentSize_pos (split : ℤ) : 1 ≤ segmentSize split := by
  rw [segmentSize]
  omega

theorem encodable_iff (split : ℤ) (series : List (ValueType × σ)) :
    Encodable I split series ↔ ∀ seg ∈ cut (segmentSize split) (series.map (handedAt I)),
      seg.length < 2 ^ 16 ∧ Dense (deltaCodes 0 (seg.map Prod.snd)) := by
  have h := forall_length_cut_iff (segmentSize_pos split) (b := 2 ^ 16) (by norm_num)
    (series.map (handedAt I))
  rw [length_map] at h
  rw [Encodable, ← h]
  exact ⟨fun h seg hs => ⟨h.1 seg hs, h.2 seg hs⟩,
    fun h => ⟨fun seg hs => (h seg hs).1, fun seg hs => (h seg hs).2⟩⟩

variable {C ranges order fuel I bytes iterator} {held : Meta A FA → List (ValueType × σ)}
  {iterators : List (ChunkIterator (Meta A FA))} {series : List (ValueType × σ)} {k : ℕ} {split : ℤ}

variable {segs : List (List (I64 × I64))}

theorem exists_chunks_of_encodable (order : RangeOrder (U64 × I64)) (hne : ∀ seg ∈ segs, seg ≠ [])
    (hsegs : ∀ seg ∈ segs, seg.length < 2 ^ 16 ∧ Dense (deltaCodes 0 (seg.map Prod.snd)))
    {r : Except Fault (List (Meta A FA))} (hw : Writes FloatApp Prod.fst C.ext r [] segs) :
    ∃ out, r = .ok out ∧ Forall₂ (Counts C.ext) out segs ∧
      ∃ decoded, Forall₂ (DecodesToSamples C.ext order) out decoded ∧
        decoded.flatten.map Sample.t = segs.flatten.map Prod.fst := by
  obtain ⟨new, hr, hall⟩ := hw.exists_chunks (Q := fun chk seg => Counts C.ext chk seg ∧
    ∃ samples, DecodesToSamples C.ext order chk samples ∧ samples.map Sample.t = seg.map Prod.fst)
    fun seg hseg a rs ha => by
      obtain ⟨a', samples, h1, hnum, hdec, ht⟩ := chunkOf_of_dense C.ext (hne seg hseg)
        (hsegs seg hseg).1 (hsegs seg hseg).2 ha rs order
      exact ⟨a', h1, ⟨⟨a, rs, a', none, ha, h1, rfl⟩, a'.b, rfl, hnum⟩, samples,
        ⟨a'.b, rfl, hdec⟩, ht⟩
  refine ⟨new, hr, hall.imp fun _ _ h => h.1, ?_⟩
  clear hw hr hsegs hne
  induction hall with
  | nil => exact ⟨[], Forall₂.nil, rfl⟩
  | cons h _ ih =>
    obtain ⟨-, samples, hdec, ht⟩ := h
    obtain ⟨decoded, hall', ht'⟩ := ih
    refine ⟨samples :: decoded, Forall₂.cons hdec hall', ?_⟩
    rw [flatten_cons, map_append, ht, ht', flatten_cons, map_append]

/-- The segments of `l'` are encodable, and `l'` is not shorter than `l`, if chunks count what was
appended to them. -/
theorem encodable_of_counts {out : List (Meta A FA)}
    {l l' : List (I64 × I64)} (hl : l'.length = l.length → l' = l)
    (hle : l'.length ≤ l.length)
    (hout : Forall₂ (ChunkOf FloatApp Prod.fst C.ext) out (cut (segmentSize split) l'))
    (hcounts : Forall₂ (Counts C.ext) out segs) (hflat : segs.flatten = l) :
    l'.length = l.length ∧ ∀ seg ∈ cut (segmentSize split) l,
      seg.length < 2 ^ 16 ∧ Dense (deltaCodes 0 (seg.map Prod.snd)) := by
  have hout' : Forall₂ (fun chk seg' => Dense (deltaCodes 0 (seg'.map Prod.snd)) ∧
      ∃ b, chk.chunk = .cl b ∧ numSamples b.stream ≤ seg'.length)
        out (cut (segmentSize split) l') :=
    forall₂_imp_of_mem hout fun chk seg' hseg' h =>
      chunkOf_counts C.ext (ne_nil_of_mem_cut seg' hseg') h
  -- no chunk counts more samples than it got
  have hlen : Forall₂ (fun seg seg' : List (I64 × I64) => seg.length ≤ seg'.length ∧
      seg.length < 2 ^ 16 ∧ Dense (deltaCodes 0 (seg'.map Prod.snd))) segs
      (cut (segmentSize split) l') := by
    refine forall₂_comp hcounts.flip hout' fun seg chk seg' h h' => ?_
    obtain ⟨-, b, hb, hnum⟩ := h
    obtain ⟨hd, b', hb', hnum'⟩ := h'
    obtain rfl : b = b' := AnyChunk.cl.inj (hb.symm.trans hb')
    rw [← hnum]
    exact ⟨hnum', numSamples_lt _, hd⟩
  have hsum := length_flatten_le (hlen.imp fun _ _ h => h.1)
  rw [hflat, flatten_cut] at hsum
  have heq := le_antisymm hle hsum
  obtain rfl := hl heq
  obtain rfl : segs = cut (segmentSize split) l' :=
    eq_of_flatten_eq (hlen.imp fun _ _ h => h.1) (by rw [hflat, flatten_cut])
  exact ⟨rfl, fun seg hseg => (forall₂_same.1 hlen seg hseg).2⟩

/-- **A run with a split is exact** if and only if there is a chunk, no sample is at the smallest
int64, and the segments can be encoded. -/
theorem exact_iff_encodable (herr : ∀ it ∈ iterators, it.err = none)
    (hc : ∀ m ∈ chunksOf iterators, Covers (encoderChunks C ranges fuel I bytes iterator) held m)
    (hs : SeriesOf I held (chunksOf iterators) series)
    (hsplit : defaultSeriesToChunkEncoderSplit < split)
    (hfuel : 2 * count held (chunksOf iterators) < fuel) (hk : series.length < k) :
    Exact C ranges order fuel I bytes iterator k split iterators series ↔
      chunksOf iterators ≠ [] ∧ (∀ x ∈ series, minInt64.toInt < time I x.2) ∧
        Encodable I split series := by
  rw [encodable_iff]
  constructor
  · rintro ⟨out, segs, decoded, hd, hflat, hcounts, -⟩
    have hne : chunksOf iterators ≠ [] := fun h => not_drainsSplit_nil hsplit h out hd
    obtain ⟨r, hr, hw⟩ := mergeEncode_writes split hne hc hs hfuel
    rcases hw with ⟨new, rfl, hout⟩ | ⟨fault, rfl, -⟩
    · have hlen : new.length < k := by
        have h1 := hout.length_eq
        have h2 := length_cut_le (segmentSize split)
          ((series.filter fun x => minInt64.toInt < time I x.2).map (handedAt I))
        rw [length_map] at h2
        have h3 := length_filter_le (fun x => decide (minInt64.toInt < time I x.2)) series
        omega
      obtain rfl := drainsSplit_unique hd (drainsSplit_of_mergeEncode hsplit herr hr hlen)
      obtain ⟨h1, h2⟩ := encodable_of_counts (l := series.map (handedAt I)) (fun h => by
        rw [length_map, length_map, length_filter_eq_length_iff] at h
        rw [filter_eq_self.2 h]) (by
        rw [length_map, length_map]
        exact length_filter_le _ _) hout hcounts hflat
      rw [length_map, length_map, length_filter_eq_length_iff] at h1
      exact ⟨hne, fun x hx => of_decide_eq_true (h1 x hx), h2⟩
    · exact absurd hd (not_drainsSplit_of_error hsplit hr out)
  · rintro ⟨hne, hlate, hsegs⟩
    obtain ⟨r, hr, hw⟩ := mergeEncode_writes split hne hc hs hfuel
    have hfilter : (series.filter fun x => minInt64.toInt < time I x.2) = series :=
      filter_eq_self.2 fun x hx => decide_eq_true (hlate x hx)
    rw [hfilter] at hw
    obtain ⟨out, rfl, hcounts, decoded, hdec, ht⟩ :=
      exists_chunks_of_encodable order ne_nil_of_mem_cut hsegs hw
    rw [flatten_cut, map_map] at ht
    refine ⟨out, _, decoded, drainsSplit_of_mergeEncode hsplit herr hr ?_, flatten_cut _ _, hcounts,
      hdec, ht⟩
    have h1 := hcounts.length_eq
    have h2 := length_cut_le (segmentSize split) (series.map (handedAt I))
    rw [length_map] at h2
    omega

end TopcDB.Storage.EncoderChunks
