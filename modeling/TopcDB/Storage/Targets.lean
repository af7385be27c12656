import TopcDB.Chunkenc.Unencodable
import TopcDB.Storage.Compaction

/-! # The codec of the chunks that compaction writes

`promtool` chooses the codec of new chunks by the package variable `DefaultCtype`. Compaction hands
the samples of the head's chunks over as quantisers, and `Compact` takes the values from the buffer
of the codec: those of the codecs that keep values themselves are never filled by a quantiser, so
that SZ3, Machete and MOST chunks get no value at all (`losesNone_iff`). -/

namespace TopcDB.Storage.Targets

open List Lib.Bits Lib.Assoc Lib.Machine Lib.Segments Go.Basic Chunkenc Simple8bStream Huffman
open CLMeta CLChunk Chunk CLIterate CLAppend HeadChunk HuffmanChunk Unencodable Merge Series
open Compaction

variable {H FH A FA : Type}

/-- The codecs that `benchmarkCompress` can choose. -/
def configurable : CompressType → Bool
  | .huffman | .qSimple8b | .sz3 | .machete | .most => true
  | _ => false

/-- `Compact` gives `n` values to the codec. -/
def Hands (a : CLAppender) (n : ℕ) : Prop :=
  match a.ctype with
  | .qSimple8b => ∃ vs, vs.length = n ∧ a.encoder = newSimple8bEncoder.writeAll vs
  | .pFor => a.integerBuffer.length = n
  | .machete | .most | .sz3 => a.floatBuffer.length = n
  | _ => a.intDeltaBuffer.length = n

/-- A new chunk has got the samples of the segment. -/
def Sent (d : Defaults) (ext : Extern) (a : CLAppender) (seg : List CLIterator) : Prop :=
  run (exec ext) (appenderOf d newCLChunk) (appends (seg.map tq)) = .ok (a, [])

/-- The chunk has all samples of the segment: the codec got a value for each, and as many are read
back as the chunk counts. -/
def Complete (d : Defaults) (ext : Extern) (order : RangeOrder (U64 × I64)) (chk : Meta A FA)
    (seg : List CLIterator) : Prop :=
  ∃ a ranges a' e, Sent d ext a seg ∧ Hands a seg.length ∧ a.compact ext ranges = .ok (a', e) ∧
    chk.chunk = .cl a'.b ∧ numSamples a'.b.stream = seg.length ∧
    ∃ samples, decodeChunk ext order a'.b.stream = .ok (samples, none) ∧ samples.length = seg.length

/-- The segments that a chunk of the codec takes. -/
def Fits (ctype : CompressType) (seg : List CLIterator) : Prop :=
  seg.length < 2 ^ 16 ∧
    match ctype with
    | .huffman => Dense (deltaCodes 0 (seg.map CLIterator.quantizer))
    | .qSimple8b => Small (deltaCodes 0 (seg.map CLIterator.quantizer))
    | _ => False

/-! ### What the appenders hold -/

theorem floatBuffer_appendQuantizer {a a' : CLAppender} {t q : I64}
    (h : a.appendQuantizer t q = .ok a') : a'.floatBuffer = a.floatBuffer := by
  obtain ⟨a1, h1, rfl⟩ := map_eq_ok h
  unfold CLAppender.stamp at h1
  split_ifs at h1
  cases h1
  cases a.ctype <;> simp only [CLAppender.pushDelta]

variable {d : Defaults} {ext : Extern} {a : CLAppender} {seg : List CLIterator}

theorem sent_nil : Sent d ext (appenderOf d newCLChunk) [] := rfl

theorem Sent.stamped (h : Sent d ext a seg) : Stamped a 0 ((seg.map tq).map Prod.fst) ∧
    a.ctype = d.ctype ∧ a.errbound = d.errbound := by
  obtain ⟨a', hrun, hs, hk, -⟩ :=
    (buffered_new d.errbound d.ctype).stamped.run_appends ext (seg.map tq)
  cases hrun.symm.trans h
  exact ⟨by simpa using hs, hk.ctype, hk.errbound⟩

theorem Sent.append (h : Sent d ext a seg) (it : CLIterator) :
    ∃ a', a.appendQuantizer it.t it.quantizer = .ok a' ∧ Sent d ext a' (seg ++ [it]) := by
  obtain ⟨a', ha, -⟩ := h.stamped.1.append it.t it.quantizer
  refine ⟨a', ha, ?_⟩
  have hstep : exec ext a (.append it.t it.quantizer) = .ok (a', none) := by rw [exec, ha]; rfl
  have := run_concat h hstep
  rw [Sent, map_append, appends, map_append]
  exact this

theorem Sent.floatBuffer : ∀ {seg : List CLIterator} {a : CLAppender}, Sent d ext a seg →
    a.floatBuffer = [] := by
  intro seg
  induction seg using reverseRecOn with
  | nil =>
    intro a h
    cases h
    rfl
  | append_singleton seg it ih =>
    intro a h
    obtain ⟨a1, hrun, -⟩ :=
      (buffered_new d.errbound d.ctype).stamped.run_appends ext (seg.map tq)
    have h1 : Sent d ext a1 seg := hrun
    obtain ⟨a2, h2, hs⟩ := h1.append it
    cases hs.symm.trans h
    rw [floatBuffer_appendQuantizer h2, ih h1]

theorem Sent.buffered (h : Sent d ext a seg) (hd : d.ctype = .huffman) :
    Buffered a 0 (seg.map tq) := by
  have hbuf : buffers (appenderOf d newCLChunk).ctype := by
    show buffers d.ctype
    rw [hd]; rfl
  obtain ⟨a', hrun, hb, -⟩ :=
    (buffered_new d.errbound d.ctype).run_appends ext (seg.map tq) hbuf
  cases hrun.symm.trans h
  simpa using hb

theorem Sent.fed (h : Sent d ext a seg) (hd : d.ctype = .qSimple8b) : Fed (seg.map tq) a := by
  have hnew : Fed [] (appenderOf d newCLChunk) := ⟨hd, rfl, rfl, rfl, rfl⟩
  obtain ⟨a', hrun, hf⟩ := hnew.run_appends ext (seg.map tq)
  cases hrun.symm.trans h
  simpa using hf

theorem Sent.head (h : Sent d ext a seg) (hd : d.ctype = .qSimple8b) (he : BoundFits d.errbound)
    (hl : seg.length < 2 ^ 16) (hs : Small (deltaCodes 0 (seg.map CLIterator.quantizer))) :
    Head (seg.map tq) a := by
  have hadm : Admissible (appends (seg.map tq)) := by
    rw [Admissible, appended_appends, (map_tq seg).2]
    exact ⟨by simpa using hl, hs⟩
  have hnew : Head [] (appenderOf d newCLChunk) := by
    rw [appenderOf, hd]
    exact head_new he
  obtain ⟨a', hrun, hh, -⟩ := hnew.run ext hadm
  cases hrun.symm.trans h
  rwa [appended_appends] at hh

/-! ### One chunk -/

variable {d : Defaults} {ext : Extern} {order : RangeOrder (U64 × I64)} {seg : List CLIterator}

theorem not_complete_floats (hd : keepsFloats d.ctype) (hne : seg ≠ []) (chk : Meta A FA) :
    ¬ Complete d ext order chk seg := by
  rintro ⟨a, ranges, a', e, hsent, hands, -⟩
  have hlen : a.floatBuffer.length = seg.length := by
    unfold Hands at hands
    rw [hsent.stamped.2.1] at hands
    cases hc : d.ctype <;> rw [hc] at hd hands <;> first | exact hands | exact absurd hd (by decide)
  rw [hsent.floatBuffer] at hlen
  exact hne (length_eq_zero_iff.1 hlen.symm)

theorem Complete.length_lt {chk : Meta A FA} (h : Complete d ext order chk seg) :
    seg.length < 2 ^ 16 := by
  obtain ⟨a, ranges, a', e, -, -, -, -, hnum, -⟩ := h
  rw [← hnum]
  exact numSamples_lt _

theorem fits_of_complete (hd : configurable d.ctype) (hne : seg ≠ []) {chk : Meta A FA}
    (h : Complete d ext order chk seg) : Fits d.ctype seg := by
  refine ⟨h.length_lt, ?_⟩
  by_cases hf : keepsFloats d.ctype
  · exact absurd h (not_complete_floats hf hne chk)
  · obtain ⟨a, ranges, a', e, hsent, -, hcomp, -, -, samples, hdec, -⟩ := h
    cases hc : d.ctype <;> rw [hc] at hf hd <;> first | exact absurd hd (by decide) | skip
    · -- QSimple8b: without the words there is no header
      by_contra hs
      have hs' : ¬ Small (deltaCodes 0 ((seg.map tq).map Prod.snd)) := by rwa [(map_tq seg).2]
      obtain ⟨a1, err, h1, hb⟩ := (hsent.fed hc).compact_error hs'
      cases h1.symm.trans hcomp
      rw [hb, decodeChunk_headless (hsent.fed hc).length (hsent.fed hc).zeros] at hdec
      cases hdec
    · -- Huffman: without the table there is no stream
      have hs := Buffered.dense_of_compact (hsent.buffered hc) (hsent.stamped.2.1.trans hc) hcomp
      rw [(map_tq seg).2] at hs
      exact hs.2
    all_goals exact absurd hf (by decide)

theorem compact_of_fits (he : BoundFits d.errbound) (hne : seg ≠ []) (h : Fits d.ctype seg)
    {a : CLAppender} (hsent : Sent d ext a seg) (ranges : Ranges) :
    ∃ a', a.compact ext ranges = .ok (a', none) ∧ ∀ (order : RangeOrder (U64 × I64))
      (chk : Meta A FA), chk.chunk = .cl a'.b → Complete d ext order chk seg := by
  obtain ⟨hl, hfit⟩ := h
  have hlt : (seg.map tq).length < 2 ^ 16 := by simpa using hl
  obtain ⟨hst, hct, heb⟩ := hsent.stamped
  -- what both codecs have in common
  have key : ∀ {a' : CLAppender} {e : ℚ}, Hands a seg.length →
      a.compact ext ranges = .ok (a', none) →
      Stamped a' 0 ((seg.map tq).map Prod.fst) → DecodesTo a'.b.stream e (seg.map tq) →
      ∀ (order : RangeOrder (U64 × I64)) (chk : Meta A FA), chk.chunk = .cl a'.b →
        Complete d ext order chk seg := by
    intro a' e hands hcomp hs hdec order chk hchk
    refine ⟨a, ranges, a', none, hsent, hands, hcomp, hchk, ?_, _, hdec ext order, ?_⟩
    · rw [hs.counter]
      simp only [Nat.zero_add, length_map]
      exact Nat.mod_eq_of_lt hl
    · simp [length_samplesOf]
  cases hc : d.ctype <;> rw [hc] at hfit <;> first | exact absurd hfit not_false | skip
  · have hs : Small (deltaCodes 0 ((seg.map tq).map Prod.snd)) := by rwa [(map_tq seg).2]
    obtain ⟨a', hcomp, hh, -, hdec⟩ := (hsent.head hc he hl hfit).compact hlt hs ext ranges
    refine ⟨a', hcomp, key ?_ hcomp hh.stamped hdec⟩
    unfold Hands
    rw [hct, hc]
    exact ⟨_, by simp, (hsent.fed hc).encoder⟩
  · have hs : Dense (deltaCodes 0 ((seg.map tq).map Prod.snd)) := by rwa [(map_tq seg).2]
    obtain ⟨a', hcomp, hb, -, hdec, -⟩ := Buffered.compact_huffman (hsent.buffered hc) hlt
      (heb ▸ he) (hct.trans hc) (by simpa using hne) hs ext ranges
    refine ⟨a', hcomp, key ?_ hcomp hb.stamped hdec⟩
    unfold Hands
    rw [hct, hc]
    show a.intDeltaBuffer.length = seg.length
    rw [(hsent.buffered hc).buffer]
    simp

/-! ### All chunks -/

/-- Every chunk of the samples of the iterators `its` has all its samples, which are `visited`. -/
def LosesNone (C : Codecs H FH A FA) (ranges : ℕ → Ranges) (order : RangeOrder (U64 × I64))
    (d : Defaults) (split : ℤ) (fuel : ℕ) (its visited : List CLIterator) : Prop :=
  ∃ chks, encodeSeries C ranges d (clIterator H FH) (noIterator H FH) split fuel
      (.chain (chainSampleIteratorFromIterators its)) = .ok (.ok chks) ∧
    List.Forall₂ (Complete d C.ext order) chks (cut (segmentSize split) visited)

theorem losesNone_iff_fits {C : Codecs H FH A FA} {ranges : ℕ → Ranges}
    {order : RangeOrder (U64 × I64)} {d : Defaults} {split : ℤ} {fuel : ℕ}
    {its visited : List CLIterator} (hd : configurable d.ctype) (he : BoundFits d.errbound)
    (h : VisitsAll H FH fuel its visited) :
    LosesNone C ranges order d split fuel its visited ↔
      ∀ seg ∈ cut (segmentSize split) visited, Fits d.ctype seg := by
  obtain ⟨vs, c, hv, herr, -, hvis⟩ := h
  have hne : ∀ seg ∈ cut (segmentSize split) visited, seg ≠ [] := ne_nil_of_mem_cut
  constructor
  · rintro ⟨chks, -, hall⟩ seg hseg
    obtain ⟨chk, -, hc⟩ := exists_left_of_forall₂ hall hseg
    exact fits_of_complete hd (hne seg hseg) hc
  · intro hfits
    have hcut : ∃ r, encodeSeries C ranges d (clIterator H FH) (noIterator H FH) split fuel
        (.chain (chainSampleIteratorFromIterators its)) = r.map .ok ∧
        Writes (Sent d C.ext) CLIterator.t C.ext r [] (cut (segmentSize split) visited) :=
      encodeSeries_cut sent_nil hv herr
        (hvis.imp fun v it h => feeds_of_visits (fun a l it ha => Sent.append ha it) h)
    obtain ⟨r, hr, hw⟩ := hcut
    obtain ⟨new, rfl, hall⟩ := hw.exists_chunks (Q := Complete d C.ext order)
      fun seg hseg a rs ha => by
        obtain ⟨a', h1, hcomplete⟩ := compact_of_fits he (hne seg hseg) (hfits seg hseg) ha rs
        exact ⟨a', h1, hcomplete order _ rfl⟩
    exact ⟨new, hr, hall⟩

/-- **No value is lost** exactly when all segments fit into a chunk of the chosen codec. -/
theorem losesNone_iff (C : Codecs H FH A FA) (ranges : ℕ → Ranges)
    (order : RangeOrder (U64 × I64)) {d : Defaults} (hd : configurable d.ctype)
    (he : BoundFits d.errbound) (split : ℤ) {srcs : List (List Byte × RangeOrder (U64 × I64))}
    {decoded : List (List Sample)} (hne : srcs ≠ [])
    (hsrc : List.Forall₂ (Source C.ext) srcs decoded) {fuel : ℕ}
    (hfuel : (decoded.map fun l => l.length + 1).sum < fuel) :
    ∃ its visited, List.Forall₂ (fun p it => reset C.ext p.2 p.1 = .ok (some it)) srcs its ∧
      Visited H FH fuel its visited ∧
      (LosesNone C ranges order d split fuel its visited ↔
        ∀ seg ∈ cut (segmentSize split) visited, Fits d.ctype seg) := by
  obtain ⟨its, visited, hreset, hv, -⟩ := visited_of_sources hne hsrc hfuel
  exact ⟨its, visited, hreset, hv.toVisited, losesNone_iff_fits hd he hv⟩

theorem losesNone_iff_headChunk :
    ∃ its visited, List.Forall₂ (fun p it => reset default p.2 p.1 = .ok (some it))
        [((storedChunk, default) : List Byte × RangeOrder (U64 × I64))] its ∧
      Visited Unit Unit 3 its visited ∧
      (LosesNone (default : Codecs Unit Unit Unit Unit) default default
          ⟨.qSimple8b, defaultErrbound⟩ 1000 3 its visited ↔
        ∀ seg ∈ cut (segmentSize 1000) visited, Fits .qSimple8b seg) := by
  exact losesNone_iff (default : Codecs Unit Unit Unit Unit) default default
    (d := ⟨.qSimple8b, defaultErrbound⟩) (by decide) boundFits_default 1000 (by simp)
    (.cons source_hundredth .nil) (by decide)

/-- SZ3 gets no value for the sample, and `Compact` panics. -/
theorem not_losesNone_sz3 :
    ∃ it, reset default default storedChunk = .ok (some it) ∧
      encodeSeries (default : Codecs Unit Unit Unit Unit) default ⟨.sz3, defaultErrbound⟩
          (clIterator Unit Unit) (noIterator Unit Unit) 1000 3
          (.chain (chainSampleIteratorFromIterators [it])) = .error .panic ∧
      ∀ visited, ¬ LosesNone (default : Codecs Unit Unit Unit Unit) default default
        ⟨.sz3, defaultErrbound⟩ 1000 3 [it] visited := by
  have henc : (reset default default storedChunk).map (Option.map fun it =>
      encodeSeries (default : Codecs Unit Unit Unit Unit) default ⟨.sz3, defaultErrbound⟩
        (clIterator Unit Unit) (noIterator Unit Unit) 1000 3
        (.chain (chainSampleIteratorFromIterators [it]))) = .ok (some (.error .panic)) := by
    decide +kernel
  obtain ⟨r, hr, hpanic⟩ := map_eq_ok henc
  obtain ⟨it, rfl, hit⟩ := Option.map_eq_some_iff.1 hpanic
  refine ⟨it, hr, hit, ?_⟩
  rintro visited ⟨chks, hchks, -⟩
  cases hit.symm.trans hchks

end TopcDB.Storage.Targets
