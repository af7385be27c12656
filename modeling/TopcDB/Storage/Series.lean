import TopcDB.Chunkenc.HuffmanChunk
import TopcDB.Lib.Segments
import TopcDB.Storage.Merge

/-! # Encoding a series to chunks (`seriesToChunkEncoder`)

The samples of a series are written to new chunks. A chunk ends when the type of the samples changes
or when it has as many samples as the split allows. Floats go to CL chunks: the quantiser itself
when the source has one, else the value. Where floats are concerned the iterator of the series has
to be a chained one. What the encoder makes of the floats a chained iterator visits is stated once,
for any property of the appender that is kept sample by sample (`encodeSeries_cut`). -/

namespace TopcDB.Storage.Series

open List Lib.Segments Go.Basic Chunkenc Huffman CLMeta CLChunk Chunk CLIterate CLAppend
open HuffmanChunk Merge

variable {σ τ H FH A FA : Type}

def defaultSeriesToChunkEncoderSplit : ℤ := 1000

def maxInt64 : I64 := BitVec.ofNat 64 (2 ^ 63 - 1)

theorem toInt_maxInt64 : maxInt64.toInt = 2 ^ 63 - 1 := by decide

/-- `chunks.Meta`. -/
structure Meta (A FA : Type) where
  minTime : I64
  maxTime : I64
  chunk : AnyChunk A FA
  deriving DecidableEq

/-- What comes from outside: the libraries of CL chunks, the codecs of histograms, and how the hint
of a histogram is dropped. -/
structure Codecs (H FH A FA : Type) where
  ext : Extern
  hist : HistogramCodec H A
  fhist : HistogramCodec FH FA
  unknown : H → H
  funknown : FH → FH
  deriving Inhabited

/-- The variables of the loop. Without an appender there is no chunk yet. -/
structure Encoding (A FA : Type) where
  chks : List (Meta A FA)
  app : Option (App A FA)
  mint : I64
  maxt : I64
  i : ℕ
  lastType : ValueType

/-- The codecs whose iterator exposes quantisers. -/
def quantizes : CompressType → Bool
  | .auto | .bitPacking | .huffman | .qSimple8b | .simplebits => true
  | _ => false

/-- What `Series.Iterator` returns: a chained iterator, or one of another type. -/
inductive SeriesIterator (σ τ : Type)
  | chain (c : ChainSampleIterator σ)
  | other (s : τ)

/-- There are no iterators of other types. -/
def noIterator (H FH : Type) : Iterator Empty H FH where
  next := Empty.elim
  seek s := s.elim
  atFloat := Empty.elim
  atHistogram := Empty.elim
  atFloatHistogram := Empty.elim
  atT := Empty.elim
  err := Empty.elim
  cl := Empty.elim

variable (I : Iterator σ H FH) (J : Iterator τ H FH)

def SeriesIterator.next (fuel : ℕ) : SeriesIterator σ τ →
    Except Fault (ValueType × SeriesIterator σ τ)
  | .chain c => (c.next I fuel).map fun p => (p.1, .chain p.2)
  | .other s => (J.next s).map fun p => (p.1, .other p.2)

def SeriesIterator.err : SeriesIterator σ τ → List Err
  | .chain c => c.err I
  | .other s => (J.err s).toList

def SeriesIterator.atHistogram (unknown : H → H) : SeriesIterator σ τ → Except Fault (I64 × H)
  | .chain c => c.atHistogram I unknown
  | .other s => J.atHistogram s

def SeriesIterator.atFloatHistogram (unknown : FH → FH) : SeriesIterator σ τ →
    Except Fault (I64 × FH)
  | .chain c => c.atFloatHistogram I unknown
  | .other s => J.atFloatHistogram s

/-- The float case: the sample is appended, and its timestamp returned. The type assertions panic
unless the iterator is a chained one. -/
def appendFloat (it : SeriesIterator σ τ) (a : CLAppender) : Except Fault (I64 × CLAppender) :=
  match it with
  | .other _ => .error .panic
  | .chain c => do
    if quantizes (← c.compressType I) then
      let (t, q) ← c.atQuantizer I
      return (t, ← a.appendQuantizer t q)
    else
      let (t, v) ← c.atFloat I
      return (t, ← a.append t v)

variable (C : Codecs H FH A FA) (ranges : ℕ → Ranges) (d : Defaults)

/-- The open chunk is compacted if it is a CL chunk, without its error, and added by `appendChunk`;
`ranges n` are the orders in which the `n`-th one visits its maps. -/
def Encoding.close (st : Encoding A FA) : Except Fault (List (Meta A FA)) :=
  match st.app with
  | none => .ok st.chks
  | some (.cl a) => (a.compact C.ext (ranges st.chks.length)).map fun p =>
      st.chks ++ [⟨st.mint, st.maxt, .cl p.1.b⟩]
  | some app => .ok (st.chks ++ [⟨st.mint, st.maxt, app.chunk⟩])

/-- `NewEmptyChunk` and its appender, for the type of a sample. -/
def newApp : ValueType → Option (App A FA)
  | .float => some (.cl (appenderOf d newCLChunk))
  | .histogram => some (.histogram C.hist.new)
  | .floatHistogram => some (.floatHistogram C.fhist.new)
  | .none => none

/-- The end of a turn: a sample at `t` was appended. -/
def Encoding.visit (st : Encoding A FA) (app : App A FA) (t : I64) : Encoding A FA :=
  { st with
    app := some app
    maxt := t
    mint := if st.mint = maxInt64 then t else st.mint
    i := st.i + 1 }

def Encoding.appendHistogram {V B : Type} (codec : HistogramCodec V B) (app : B → App A FA)
    (st : Encoding A FA) (a : B) (t : I64) (v : V) : Encoding A FA :=
  match codec.append none a t v with
  | (a, none) => st.visit (app a) t
  | (_, some (a, true)) => st.visit (app a) t
  | (old, some (a, false)) =>
    let st : Encoding A FA :=
      { st with
        chks := st.chks ++ [⟨st.mint, st.maxt, (app old).chunk⟩]
        mint := maxInt64
        i := 0 }
    st.visit (app a) t

variable (I : Iterator σ H FH) (J : Iterator τ H FH) (split : ℤ)

/-- A new chunk is started when the type changes or the open chunk is full. -/
def Encoding.start (st : Encoding A FA) (typ : ValueType) : Except Fault (Encoding A FA) :=
  if typ ≠ st.lastType ∨ split ≤ st.i then
    (st.close C ranges).map fun chks => ⟨chks, newApp C d typ, maxInt64, st.maxt, 0, typ⟩
  else .ok st

/-- A turn of the loop, for a sample of type `typ` of the iterator `it`. -/
def Encoding.step (st : Encoding A FA) (typ : ValueType) (it : SeriesIterator σ τ) :
    Except Fault (Encoding A FA) := do
  let st ← st.start C ranges d split typ
  match typ, st.app with
  | .float, some (.cl a) =>
    let (t, a) ← appendFloat I it a
    return st.visit (.cl a) t
  | .histogram, some (.histogram a) =>
    let (t, h) ← it.atHistogram I J C.unknown
    return st.appendHistogram C.hist .histogram a t h
  | .floatHistogram, some (.floatHistogram a) =>
    let (t, fh) ← it.atFloatHistogram I J C.funknown
    return st.appendHistogram C.fhist .floatHistogram a t fh
  | _, _ => .error .panic

def encodeLoop (fuel : ℕ) : ℕ → SeriesIterator σ τ → Encoding A FA →
    Except Fault (SeriesIterator σ τ × Encoding A FA)
  | 0, _, _ => .error .hang
  | k + 1, it, st =>
    match it.next I J fuel with
    | .error fault => .error fault
    | .ok (.none, it) => .ok (it, st)
    | .ok (typ, it) => st.step C ranges d I J split typ it >>= encodeLoop fuel k it

/-- `seriesToChunkEncoder.Iterator` for any iterator and any values of the package variables: the
chunks, or the errors of the series. -/
def encodeSeries (fuel : ℕ) (it : SeriesIterator σ τ) :
    Except Fault (Except (List Err) (List (Meta A FA))) := do
  let (it, st) ← encodeLoop C ranges d I J split fuel fuel it
    ⟨[], none, maxInt64, minInt64, 0, .none⟩
  if it.err I J ≠ [] then return .error (it.err I J)
  else return .ok (← st.close C ranges)

/-- `seriesToChunkEncoder.Iterator` for a chained iterator. -/
def seriesToChunkEncoder (fuel : ℕ) (c : ChainSampleIterator σ) :
    Except Fault (Except (List Err) (List (Meta A FA))) :=
  encodeSeries C ranges default I (noIterator H FH) split fuel (.chain c)

/-- The turns of the loop for the samples `vs`. -/
def encodeVisits (vs : List (ValueType × ChainSampleIterator σ)) (st : Encoding A FA) :
    Except Fault (Encoding A FA) :=
  vs.foldlM (fun (st : Encoding A FA) v => st.step C ranges d I J split v.1 (.chain v.2)) st

/-! ### The loop over the visited samples -/

variable {C : Codecs H FH A FA} {ranges : ℕ → Ranges} {d : Defaults} {I : Iterator σ H FH}
  {J : Iterator τ H FH} {split : ℤ}

/-- The encoder is a fold over what its iterator visits. -/
theorem encodeLoop_eq {fuel : ℕ} : ∀ {k : ℕ} {c c' : ChainSampleIterator σ}
    {vs : List (ValueType × ChainSampleIterator σ)} (st : Encoding A FA),
    visits I fuel k c = .ok (vs, c') → encodeLoop C ranges d I J split fuel k (.chain c) st =
      (encodeVisits C ranges d I J split vs st).map fun st => (.chain c', st)
  | 0, _, _, _, _, h => by simp [visits] at h
  | k + 1, c, c', vs, st, h => by
    rw [encodeLoop, SeriesIterator.next]
    rw [visits] at h
    rcases hn : c.next I fuel with fault | ⟨typ, c1⟩
    · simp [hn] at h
    · rw [hn] at h
      cases typ with
      | none =>
        cases h
        rfl
      | _ =>
        obtain ⟨⟨vs1, c2⟩, hv, heq⟩ := map_eq_ok h
        cases heq
        rw [encodeVisits, foldlM_cons]
        simp only [Except.map]
        rcases st.step C ranges d I J split _ (.chain c1) with fault | st1
        · rfl
        · exact encodeLoop_eq st1 hv

variable {v : ValueType × ChainSampleIterator σ}

theorem encodeVisits_cons {st st1 : Encoding A FA}
    (h : st.step C ranges d I J split v.1 (.chain v.2) = .ok st1)
    (vs : List (ValueType × ChainSampleIterator σ)) :
    encodeVisits C ranges d I J split (v :: vs) st = encodeVisits C ranges d I J split vs st1 := by
  rw [encodeVisits, foldlM_cons, h]; rfl

/-! ### Segments of floats -/

def minTimeOf (ts : List I64) : I64 :=
  ts.foldl (fun mint t => if mint = maxInt64 then t else mint) maxInt64

def maxTimeOf (ts : List I64) : I64 := ts.getLastD minInt64

theorem minTimeOf_concat (ts : List I64) (t : I64) :
    minTimeOf (ts ++ [t]) = if minTimeOf ts = maxInt64 then t else minTimeOf ts := by
  rw [minTimeOf, foldl_append]; rfl

def segmentSize (split : ℤ) : ℕ := (max split 1).toNat

section floats

variable {X : Type} (P : CLAppender → List X → Prop) (time : X → I64)

/-- The visit appends the sample `x`, and keeps what the appender is known to hold. -/
structure Feeds (I : Iterator σ H FH) (v : ValueType × ChainSampleIterator σ) (x : X) : Prop where
  typ : v.1 = .float
  feed : ∀ a l, P a l →
    ∃ a', appendFloat I (.chain v.2 : SeriesIterator σ Empty) a = .ok (time x, a') ∧ P a' (l ++ [x])

/-- The chunk of a segment. -/
def ChunkOf (ext : Extern) (chk : Meta A FA) (seg : List X) : Prop :=
  ∃ a ranges a' e, P a seg ∧ a.compact ext ranges = .ok (a', e) ∧
    chk = ⟨minTimeOf (seg.map time), maxTimeOf (seg.map time), .cl a'.b⟩

/-- The segments are written to one chunk each, unless `Compact` fails for one of them. -/
def Writes (ext : Extern) (r : Except Fault (List (Meta A FA))) (chks : List (Meta A FA))
    (segs : List (List X)) : Prop :=
  (∃ new, r = .ok (chks ++ new) ∧ Forall₂ (ChunkOf P time ext) new segs) ∨
    ∃ fault, r = .error fault ∧ ∃ seg ∈ segs, ∃ a ranges, P a seg ∧
      a.compact ext ranges = .error fault

variable {P} {time} {seg l cur xs : List X} {r : Except Fault (List (Meta A FA))}

theorem Writes.cons {ext : Extern} {chks : List (Meta A FA)}
    {chk : Meta A FA} {segs : List (List X)} (hc : ChunkOf P time ext chk seg)
    (h : Writes P time ext r (chks ++ [chk]) segs) : Writes P time ext r chks (seg :: segs) := by
  rcases h with ⟨new, hr, hf⟩ | ⟨fault, hr, seg', hs, h'⟩
  · exact .inl ⟨chk :: new, by rw [hr, append_assoc]; rfl, Forall₂.cons hc hf⟩
  · exact .inr ⟨fault, hr, seg', mem_cons_of_mem _ hs, h'⟩

/-- Every segment gets its chunk if `Compact` does not fail for any. -/
theorem Writes.exists_chunks {ext : Extern}
    {segs : List (List X)} {Q : Meta A FA → List X → Prop} (hw : Writes P time ext r [] segs)
    (hQ : ∀ seg ∈ segs, ∀ a ranges, P a seg → ∃ a', a.compact ext ranges = .ok (a', none) ∧
      Q ⟨minTimeOf (seg.map time), maxTimeOf (seg.map time), .cl a'.b⟩ seg) :
    ∃ new, r = .ok new ∧ Forall₂ Q new segs := by
  rcases hw with ⟨new, rfl, hc⟩ | ⟨fault, -, seg, hseg, a, rs, ha, hcomp⟩
  · refine ⟨new, rfl, forall₂_imp_of_mem hc ?_⟩
    rintro chk seg hseg ⟨a, rs, a', e, ha, hcomp, rfl⟩
    obtain ⟨a1, h1, hq⟩ := hQ seg hseg a rs ha
    cases h1.symm.trans hcomp
    exact hq
  · obtain ⟨a', h1, -⟩ := hQ seg hseg a rs ha
    rw [hcomp] at h1
    cases h1

variable {C : Codecs H FH A FA} {ranges : ℕ → Ranges} {d : Defaults} {I : Iterator σ H FH}
  {J : Iterator τ H FH} {split : ℤ} {st st1 : Encoding A FA} {a : CLAppender}

theorem start_full (happ : st.app = some (.cl a)) (hfull : split ≤ (st.i : ℤ)) :
    st.start C ranges d split .float = (a.compact C.ext (ranges st.chks.length)).map fun p =>
      ⟨st.chks ++ [⟨st.mint, st.maxt, .cl p.1.b⟩], some (.cl (appenderOf d newCLChunk)), maxInt64,
        st.maxt, 0, .float⟩ := by
  rw [Encoding.start, if_pos (Or.inr hfull)]
  simp only [Encoding.close, happ, newApp]
  rcases a.compact C.ext (ranges st.chks.length) with fault | p <;> rfl

theorem start_open (ht : st.lastType = .float) (hi : ¬ split ≤ (st.i : ℤ)) :
    st.start C ranges d split .float = .ok st := by
  rw [Encoding.start, if_neg]
  rintro (hne | hle)
  · exact hne ht.symm
  · exact hi hle

theorem step_of_feeds {x : X} (hv : Feeds P time I v x)
    (hst : st.start C ranges d split .float = .ok st1) (happ : st1.app = some (.cl a)) (ha : P a l)
    : ∃ a', P a' (l ++ [x]) ∧
      st.step C ranges d I J split v.1 (.chain v.2) = .ok (st1.visit (.cl a') (time x)) := by
  obtain ⟨a', happend, ha'⟩ := hv.feed a l ha
  refine ⟨a', ha', ?_⟩
  have hfeed : appendFloat I (.chain v.2 : SeriesIterator σ τ) a = .ok (time x, a') := happend
  simp only [Encoding.step, hv.typ, hst, ok_bind, happ, hfeed, pure, Except.pure]

/-- The open chunk has the samples `cur`. -/
structure Open (P : CLAppender → List X → Prop) (time : X → I64) (st : Encoding A FA)
    (a : CLAppender) (cur : List X) : Prop where
  app : st.app = some (.cl a)
  holds : P a cur
  ne_nil : cur ≠ []
  lastType : st.lastType = .float
  i : st.i = cur.length
  mint : st.mint = minTimeOf (cur.map time)
  maxt : st.maxt = maxTimeOf (cur.map time)

theorem open_visit {x : X} (ha : P a (cur ++ [x])) (ht : st.lastType = .float)
    (hi : st.i = cur.length) (hm : st.mint = minTimeOf (cur.map time)) :
    Open P time (st.visit (.cl a) (time x)) a (cur ++ [x]) where
  app := rfl
  holds := ha
  ne_nil := by simp
  lastType := ht
  i := by simp [Encoding.visit, hi]
  mint := by rw [map_append, map_singleton, minTimeOf_concat, ← hm]; rfl
  maxt := by simp [Encoding.visit, maxTimeOf]

variable {vs : List (ValueType × ChainSampleIterator σ)}

theorem encodeVisits_cutFrom (hnew : P (appenderOf d newCLChunk) [])
    (h : Forall₂ (Feeds P time I) vs xs) (hopen : Open P time st a cur) :
    Writes P time C.ext (encodeVisits C ranges d I J split vs st >>=
      Encoding.close C ranges) st.chks
      (cutFrom (segmentSize split) cur xs) := by
  induction h generalizing cur st a with
  | nil =>
    show Writes P time C.ext (st.close C ranges) _ [cur]
    rcases hc : a.compact C.ext (ranges st.chks.length) with fault | ⟨a', e⟩
    · exact .inr ⟨fault, by simp only [Encoding.close, hopen.app, hc, Except.map], cur,
        mem_cons_self, a, _, hopen.holds, hc⟩
    · exact .inl ⟨[⟨st.mint, st.maxt, .cl a'.b⟩],
        by simp only [Encoding.close, hopen.app, hc, Except.map],
        Forall₂.cons ⟨a, _, a', e, hopen.holds, hc, by rw [hopen.mint, hopen.maxt]⟩
          Forall₂.nil⟩
  | @cons v x vs xs hv h ih =>
    have hpos := length_pos_iff.2 hopen.ne_nil
    have hfull : split ≤ (st.i : ℤ) ↔ segmentSize split ≤ cur.length := by
      rw [hopen.i, segmentSize]; omega
    rw [cutFrom]
    split_ifs with hn
    · have hstart : st.start C ranges d split .float = _ := start_full hopen.app (hfull.2 hn)
      rcases hc : a.compact C.ext (ranges st.chks.length) with fault | ⟨a', e⟩
      · rw [hc] at hstart
        have hstep : st.step C ranges d I J split v.1 (.chain v.2) = .error fault := by
          simp only [Encoding.step, hv.typ, hstart, Except.map, bind, Except.bind]
        refine .inr ⟨fault, ?_, cur, mem_cons_self, a, _, hopen.holds, hc⟩
        rw [encodeVisits, foldlM_cons, hstep]; rfl
      · rw [hc] at hstart
        obtain ⟨a1, ha1, hstep⟩ := step_of_feeds hv hstart rfl hnew
        rw [encodeVisits_cons hstep]
        exact Writes.cons ⟨a, _, a', e, hopen.holds, hc, by rw [hopen.mint, hopen.maxt]⟩
          (ih (open_visit ha1 rfl rfl rfl))
    · have hstart : st.start C ranges d split .float = .ok st :=
        start_open hopen.lastType fun hle => hn (hfull.1 hle)
      obtain ⟨a', ha', hstep⟩ := step_of_feeds hv hstart hopen.app hopen.holds
      rw [encodeVisits_cons hstep]
      exact ih (open_visit ha' hopen.lastType hopen.i hopen.mint)

/-- **The chunks of a series of floats**: one for each segment. -/
theorem encodeSeries_cut (hnew : P (appenderOf d newCLChunk) []) {fuel : ℕ}
    {c c' : ChainSampleIterator σ} (hv : visits I fuel fuel c = .ok (vs, c')) (herr : c'.err I = [])
    (h : Forall₂ (Feeds P time I) vs xs) :
    ∃ r, encodeSeries C ranges d I J split fuel (.chain c) = r.map .ok ∧
      Writes P time C.ext r [] (cut (segmentSize split) xs) := by
  set st0 : Encoding A FA := ⟨[], none, maxInt64, minInt64, 0, .none⟩
  refine ⟨encodeVisits C ranges d I J split vs st0 >>= Encoding.close C ranges, ?_, ?_⟩
  · rw [encodeSeries, encodeLoop_eq _ hv]
    rcases encodeVisits C ranges d I J split vs st0 with fault | st
    · rfl
    · simp only [Except.map, bind, Except.bind, SeriesIterator.err, herr, ne_eq, not_true_eq_false,
        if_false, pure, Except.pure]
  · cases h with
    | nil => exact .inl ⟨[], rfl, Forall₂.nil⟩
    | @cons v x vs xs hvis h =>
      have hstart : st0.start C ranges d split .float =
          .ok ⟨[], some (.cl (appenderOf d newCLChunk)), maxInt64, minInt64, 0, .float⟩ := by
        rw [Encoding.start, if_pos (Or.inl (by simp [st0]))]; rfl
      obtain ⟨a1, ha1, hstep⟩ := step_of_feeds hvis hstart rfl hnew
      rw [encodeVisits_cons hstep]
      exact encodeVisits_cutFrom hnew h (open_visit ha1 rfl rfl rfl)

end floats

/-! ### Quantisers -/

/-- The visit of a sample of a chunk whose iterator exposes quantisers. -/
def Visits (I : Iterator σ H FH) (v : ValueType × ChainSampleIterator σ) (it : CLIterator) : Prop :=
  v.1 = .float ∧ v.2.current.map I.cl = .ok (some it) ∧ quantizes it.decoder.ctype

/-- What a visited sample is written as. -/
def tq (it : CLIterator) : I64 × I64 := (it.t, it.quantizer)

theorem feeds_of_visits {P : CLAppender → List CLIterator → Prop} {I : Iterator σ H FH}
    (happend : ∀ a l it, P a l →
      ∃ a', a.appendQuantizer it.t it.quantizer = .ok a' ∧ P a' (l ++ [it])) {it : CLIterator}
    (hv : Visits I v it) : Feeds P CLIterator.t I v it := by
  obtain ⟨htyp, hcur, hq⟩ := hv
  refine ⟨htyp, fun a l ha => ?_⟩
  obtain ⟨a', h1, h2⟩ := happend a l it ha
  refine ⟨a', ?_, h2⟩
  obtain ⟨s, hc, hcl⟩ := map_eq_ok hcur
  simp only [appendFloat, ChainSampleIterator.compressType, ChainSampleIterator.atQuantizer, hc,
    hcl, hq, if_true, h1, ok_bind, pure, Except.pure]

/-- A new chunk of floats with the samples `l`, under the initial values of the package
variables. -/
structure FloatApp (a : CLAppender) (l : List (I64 × I64)) : Prop where
  buffered : Buffered a 0 l
  ctype : a.ctype = .huffman
  errbound : a.errbound = defaultErrbound

theorem floatApp_new : FloatApp (appenderOf default newCLChunk) [] :=
  ⟨buffered_new _ _, rfl, rfl⟩

theorem FloatApp.append {l : List (I64 × I64)} (h : FloatApp a l) (t q : I64) :
    ∃ a', a.appendQuantizer t q = .ok a' ∧ FloatApp a' (l ++ [(t, q)]) := by
  obtain ⟨a', ha, hb, hk, -⟩ := h.buffered.append (by rw [h.ctype]; rfl) t q
  exact ⟨a', ha, hb, hk.ctype.trans h.ctype, hk.errbound.trans h.errbound⟩

theorem storedErrbound_default : storedErrbound defaultErrbound = defaultErrbound := by
  decide +kernel

section compact

variable {a : CLAppender} {l : List (I64 × I64)} (h : FloatApp a l)
include h

theorem FloatApp.compact (hne : l ≠ []) (hl : l.length < 2 ^ 16)
    (hd : Dense (deltaCodes 0 (l.map Prod.snd))) (ext : Extern) (ranges : Ranges) :
    ∃ a', a.compact ext ranges = .ok (a', none) ∧ Buffered a' 0 l ∧
      DecodesTo a'.b.stream defaultErrbound l ∧ ∃ payload, IsChunk a'.b.stream a.num defaultErrbound
        .huffman a.timestamps.b.stream payload := by
  have hcomp := Buffered.compact_huffman h.buffered hl (h.errbound ▸ boundFits_default) h.ctype hne
    hd ext ranges
  rw [h.errbound, storedErrbound_default] at hcomp
  obtain ⟨a', hcomp, hb, -, hdec⟩ := hcomp
  exact ⟨a', hcomp, hb, hdec⟩

theorem FloatApp.dense_of_compact {ext : Extern} {ranges : Ranges} {r : CLAppender × Option Err}
    (hcomp : a.compact ext ranges = .ok r) : Dense (deltaCodes 0 (l.map Prod.snd)) :=
  (Buffered.dense_of_compact h.buffered h.ctype hcomp).2

end compact

/-- The appender has the quantisers of the segment. -/
def Quantized (a : CLAppender) (seg : List CLIterator) : Prop := FloatApp a (seg.map tq)

/-- **The chunks of a series** whose samples all have quantisers: one for each segment. -/
theorem seriesToChunkEncoder_cut {C : Codecs H FH A FA} {ranges : ℕ → Ranges} {I : Iterator σ H FH}
    {split : ℤ} {fuel : ℕ} {c c' : ChainSampleIterator σ} (hv : visits I fuel fuel c = .ok (vs, c'))
    (herr : c'.err I = []) {its : List CLIterator} (h : Forall₂ (Visits I) vs its) :
    ∃ r, seriesToChunkEncoder C ranges I split fuel c = r.map .ok ∧
      Writes Quantized CLIterator.t C.ext r [] (cut (segmentSize split) its) := by
  refine encodeSeries_cut (P := Quantized) floatApp_new hv herr (h.imp fun v it hvis => ?_)
  refine feeds_of_visits (fun a l it ha => ?_) hvis
  obtain ⟨a', h1, h2⟩ := FloatApp.append ha it.t it.quantizer
  exact ⟨a', h1, by rw [Quantized, map_append]; exact h2⟩

end TopcDB.Storage.Series
