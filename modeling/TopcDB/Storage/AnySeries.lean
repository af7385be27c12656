import TopcDB.Chunkenc.ErrorBound
import TopcDB.Lib.Search
import TopcDB.Storage.Compaction

/-! # Encoding the series of any iterator

`NewSeriesToChunkEncoder` takes any series. Where floats are concerned it only knows chained
iterators: the type assertion panics for every other one that has a sample, a list iterator for
example. For a chained iterator the quantiser of a sample is copied when the current iterator has
one, else its value is quantised, so that every sample stays within the default error bound exactly
when that quantiser is near to its value (`encodes_iff`). -/

namespace TopcDB.Storage.AnySeries

open List Lib.Assoc Lib.Segments Lib.Search Go.Basic Chunkenc Huffman CLChunk Chunk CLIterate
open CLAppend ErrorBound Merge Series

variable {σ τ H FH A FA : Type}

/-! ### List iterators -/

/-- `chunks.Sample`. -/
inductive AnySample (H FH : Type)
  | float (t : I64) (f : ℚ)
  | histogram (t : I64) (h : H)
  | floatHistogram (t : I64) (fh : FH)

def AnySample.t : AnySample H FH → I64
  | .float t _ | .histogram t _ | .floatHistogram t _ => t

def AnySample.type : AnySample H FH → ValueType
  | .float _ _ => .float
  | .histogram _ _ => .histogram
  | .floatHistogram _ _ => .floatHistogram

structure ListSeriesIterator (H FH : Type) where
  samples : List (AnySample H FH)
  idx : ℤ

namespace ListSeriesIterator

/-- `NewListSeriesIterator`. -/
def new (samples : List (AnySample H FH)) : ListSeriesIterator H FH := ⟨samples, -1⟩

variable (it : ListSeriesIterator H FH)

/-- `samples.Get` at the current index. -/
def get : Option (AnySample H FH) :=
  if 0 ≤ it.idx then it.samples[it.idx.toNat]? else none

/-- The type of the current sample, `ValNone` behind the last one. -/
def type : ValueType := (it.get.map AnySample.type).getD .none

def next : ValueType × ListSeriesIterator H FH :=
  let it := { it with idx := it.idx + 1 }
  (it.type, it)

def seek (t : I64) : ValueType × ListSeriesIterator H FH :=
  let it := { it with idx := if it.idx = -1 then 0 else it.idx }
  match it.get with
  | none => (.none, it)
  | some s =>
    if t.sle s.t then (s.type, it)
    else
      let rest := it.samples.drop it.idx.toNat
      let it := { it with idx := it.idx + searchList rest fun s => t.sle s.t }
      (it.type, it)

end ListSeriesIterator

/-- `listSeriesIterator`; `toFloat` converts a histogram of integers. -/
def listSeriesIterator (toFloat : H → FH) : Iterator (ListSeriesIterator H FH) H FH where
  next it := .ok it.next
  seek it t := .ok (it.seek t)
  atFloat it :=
    match it.get with
    | some (.float t f) => .ok (t, f)
    | _ => .error .panic
  atHistogram it :=
    match it.get with
    | some (.histogram t h) => .ok (t, h)
    | _ => .error .panic
  atFloatHistogram it :=
    match it.get with
    | some (.histogram t h) => .ok (t, toFloat h)
    | some (.floatHistogram t fh) => .ok (t, fh)
    | _ => .error .panic
  atT it := (it.get.map AnySample.t).getD 0
  err _ := none
  cl _ := none

/-! ### Samples of a series -/

variable (I : Iterator σ H FH) (J : Iterator τ H FH)

def SeriesIterator.atFloat : SeriesIterator σ τ → Except Fault (I64 × ℚ)
  | .chain c => c.atFloat I
  | .other s => J.atFloat s

/-- The iterator of a series has exactly the floats `l`, and ends without an error after `k` calls
of `Next` at most. -/
def Presents (fuel : ℕ) : ℕ → SeriesIterator σ τ → List (SeriesIterator σ τ × I64 × ℚ) → Prop
  | 0, _, _ => False
  | _ + 1, it, [] => ∃ it', it.next I J fuel = .ok (.none, it') ∧ it'.err I J = []
  | k + 1, it, (it', s) :: l => it.next I J fuel = .ok (.float, it') ∧
      SeriesIterator.atFloat I J it' = .ok s ∧ Presents fuel k it' l

/-- The sample that `appendFloat` hands to a chunk with the default error bound. -/
def handed : SeriesIterator σ τ → Except Fault (I64 × I64)
  | .other _ => .error .panic
  | .chain c => do
    if quantizes (← c.compressType I) then c.atQuantizer I
    else
      let (t, v) ← c.atFloat I
      return (t, quantize defaultErrbound v)

/-- What is handed over is near to the sample. -/
def Near (x : SeriesIterator σ τ × I64 × ℚ) : Prop :=
  ∃ q, handed I x.1 = .ok (x.2.1, q) ∧ |2 * defaultErrbound * q.toInt - x.2.2| ≤ defaultErrbound

/-! ### The property -/

/-- A chunk of the samples decodes to them, each with the multiple of twice the error bound that its
quantiser stands for. -/
def RoundTrips (ext : Extern) (order : RangeOrder (U64 × I64)) (seg : List (I64 × I64)) : Prop :=
  ∀ a ranges, FloatApp a seg → ∃ a', a.compact ext ranges = .ok (a', none) ∧
    decodeChunk ext order a'.b.stream = .ok (seg.map (sampleAt defaultErrbound), none)

/-- A chunk decodes to the samples `l`. -/
def DecodesToSamples (ext : Extern) (order : RangeOrder (U64 × I64)) (chk : Meta A FA)
    (l : List Sample) : Prop :=
  ∃ b, chk.chunk = .cl b ∧ decodeChunk ext order b.stream = .ok (l, none)

/-- The chunks of the series decode to its samples, within the default error bound. -/
def Encodes (C : Codecs H FH A FA) (ranges : ℕ → Ranges) (order : RangeOrder (U64 × I64))
    (I : Iterator σ H FH) (J : Iterator τ H FH) (split : ℤ) (fuel : ℕ) (it : SeriesIterator σ τ)
    (samples : List (I64 × ℚ)) : Prop :=
  ∃ chks decoded, encodeSeries C ranges default I J split fuel it = .ok (.ok chks) ∧
    List.Forall₂ (DecodesToSamples C.ext order) chks decoded ∧
    List.Forall₂ (fun (s : Sample) x => s.t = x.1 ∧ |s.val - x.2| ≤ defaultErrbound)
      decoded.flatten samples

/-! ### Chained iterators -/

variable {I : Iterator σ H FH} {J : Iterator τ H FH} {fuel : ℕ}

/-- A sample of a chained iterator at its visit. -/
def VisitOf (I : Iterator σ H FH) (v : ValueType × ChainSampleIterator σ)
    (x : SeriesIterator σ τ × I64 × ℚ) : Prop :=
  v.1 = .float ∧ x.1 = .chain v.2 ∧ v.2.atFloat I = .ok x.2

theorem visits_of_presents : ∀ {k : ℕ} {c : ChainSampleIterator σ}
    {l : List (SeriesIterator σ τ × I64 × ℚ)}, Presents I J fuel k (.chain c) l →
    ∃ vs c', visits I fuel k c = .ok (vs, c') ∧ c'.err I = [] ∧ List.Forall₂ (VisitOf I) vs l
  | 0, _, _, h => h.elim
  | k + 1, c, [], ⟨it', hn, he⟩ => by
    obtain ⟨⟨typ, c'⟩, hn', heq⟩ := map_eq_ok hn
    cases heq
    exact ⟨[], c', by simp only [visits, hn'], he, List.Forall₂.nil⟩
  | k + 1, c, (it', s) :: l, ⟨hn, hs, hl⟩ => by
    obtain ⟨⟨typ, c1⟩, hn', heq⟩ := map_eq_ok hn
    cases heq
    obtain ⟨vs, c', hv, he, hall⟩ := visits_of_presents hl
    refine ⟨(.float, c1) :: vs, c', ?_, he, List.Forall₂.cons ⟨rfl, rfl, hs⟩ hall⟩
    simp only [visits, hn', hv, Except.map]

variable {x : SeriesIterator σ τ × I64 × ℚ} {v : ValueType × ChainSampleIterator σ}

theorem exists_handed (h : VisitOf I v x) : ∃ p, handed I x.1 = .ok p := by
  obtain ⟨-, hx, hs⟩ := h
  obtain ⟨s, hc, -⟩ := bind_eq_ok hs
  rw [hx]
  simp only [handed, ChainSampleIterator.compressType, ChainSampleIterator.atQuantizer, hc, hs,
    bind, Except.bind, pure, Except.pure]
  rcases I.cl s with _ | it
  · exact ⟨_, rfl⟩
  · simp only
    split_ifs <;> exact ⟨_, rfl⟩

theorem feeds_of_handed {p : I64 × I64} (h : VisitOf I v x)
    (hp : handed I x.1 = .ok p) : Feeds FloatApp Prod.fst I v p := by
  obtain ⟨htyp, hx, hs⟩ := h
  refine ⟨htyp, fun a l ha => ?_⟩
  obtain ⟨a', happend, ha'⟩ := ha.append p.1 p.2
  refine ⟨a', ?_, ha'⟩
  rw [hx] at hp
  rcases hc : v.2.compressType I with fault | ct
  · simp [handed, hc, bind, Except.bind] at hp
  · simp only [handed, hc, hs, ok_bind, pure, Except.pure] at hp
    simp only [appendFloat, hc, hs, bind, Except.bind, pure, Except.pure]
    split_ifs at hp ⊢
    · rw [hp]
      simp only [happend]
    · cases hp
      rw [append_eq_appendQuantizer (by rw [ha.ctype]; rfl), ha.errbound, happend]

/-! ### Chunks of any series -/

variable {C : Codecs H FH A FA} {ranges : ℕ → Ranges} {order : RangeOrder (U64 × I64)}
  {I : Iterator σ H FH} {J : Iterator τ H FH} {split : ℤ} {fuel : ℕ}

variable {it : SeriesIterator σ τ}

theorem next_other {s : τ} {typ : ValueType}
    (h : SeriesIterator.next I J fuel (.other s) = .ok (typ, it)) : ∃ s', it = .other s' := by
  obtain ⟨p, -, heq⟩ := map_eq_ok h
  exact ⟨p.2, (Prod.mk.inj heq).2.symm⟩

theorem encodeSeries_other {s : τ}
    {l : List (SeriesIterator σ τ × I64 × ℚ)} (h : Presents I J fuel fuel (.other s) (x :: l)) :
    encodeSeries C ranges default I J split fuel (.other s) = .error .panic := by
  obtain _ | k := fuel
  · exact h.elim
  obtain ⟨hn, -, -⟩ := h
  obtain ⟨s', hs'⟩ := next_other hn
  rw [hs'] at hn
  have hstart : (⟨[], none, maxInt64, minInt64, 0, .none⟩ : Encoding A FA).start C ranges default
      split .float =
      .ok ⟨[], some (.cl (appenderOf default newCLChunk)), maxInt64, minInt64, 0, .float⟩ := by
    rw [Encoding.start, if_pos (Or.inl (by simp))]; rfl
  simp only [encodeSeries, encodeLoop, hn, Encoding.step, hstart, appendFloat, bind, Except.bind]

theorem encodeSeries_nil (h : Presents I J fuel fuel it []) :
    encodeSeries C ranges default I J split fuel it = .ok (.ok []) := by
  obtain _ | k := fuel
  · exact h.elim
  obtain ⟨it', hn, herr⟩ := h
  simp only [encodeSeries, encodeLoop, hn, ok_bind, herr, ne_eq, not_true_eq_false,
    if_false, Encoding.close, pure, Except.pure]

theorem forall₂_near_iff {xs : List (SeriesIterator σ τ × I64 × ℚ)} {qs : List (I64 × I64)}
    (h : List.Forall₂ (fun x p => handed I x.1 = .ok p) xs qs) :
    List.Forall₂ (fun (s : Sample) x => s.t = x.1 ∧ |s.val - x.2| ≤ defaultErrbound)
      (qs.map (sampleAt defaultErrbound)) (xs.map Prod.snd) ↔ ∀ x ∈ xs, Near I x := by
  induction h with
  | nil => simp
  | @cons x p xs qs hx _ ih =>
    rw [map_cons, map_cons, forall₂_cons, ih, forall_mem_cons]
    refine and_congr_left fun _ => ⟨fun ⟨ht, hv⟩ => ⟨p.2, ?_, hv⟩, ?_⟩
    · rw [hx, ← show p.1 = x.2.1 from ht]
    · rintro ⟨q, hq, hv⟩
      cases hx.symm.trans hq
      exact ⟨rfl, hv⟩

theorem exists_chunks {segs : List (List (I64 × I64))}
    (hcodec : ∀ seg ∈ segs, RoundTrips C.ext order seg)
    {r : Except Fault (List (Meta A FA))} (hw : Writes FloatApp Prod.fst C.ext r [] segs) :
    ∃ chks, r = .ok chks ∧ List.Forall₂ (DecodesToSamples C.ext order) chks
      (segs.map (map (sampleAt defaultErrbound))) := by
  simp only [forall₂_map_right_iff]
  refine hw.exists_chunks fun seg hseg a rs ha => ?_
  obtain ⟨a', h1, hdec⟩ := hcodec seg hseg a rs ha
  exact ⟨a', h1, a'.b, rfl, hdec⟩

theorem decodesToSamples_unique (ext : Extern) (order : RangeOrder (U64 × I64)) :
    Relator.RightUnique (DecodesToSamples ext order : Meta A FA → List Sample → Prop) := by
  rintro chk l l' ⟨b, hb, hl⟩ ⟨b', hb', hl'⟩
  obtain rfl : b = b' := AnyChunk.cl.inj (hb.symm.trans hb')
  simpa using hl.symm.trans hl'

/-- **Encoding a series keeps its samples** within the default error bound exactly when every sample
is handed over near to its value, with codecs that round-trip what they are handed. -/
theorem encodes_iff (it : SeriesIterator σ τ) (xs : List (SeriesIterator σ τ × I64 × ℚ))
    (hit : Presents I J fuel fuel it xs)
    (hcodec : ∀ qs, List.Forall₂ (fun x p => handed I x.1 = .ok p) xs qs →
      ∀ seg ∈ cut (segmentSize split) qs, RoundTrips C.ext order seg) :
    Encodes C ranges order I J split fuel it (xs.map Prod.snd) ↔ ∀ x ∈ xs, Near I x := by
  cases it with
  | other s =>
    cases xs with
    | nil =>
      refine iff_of_true ⟨[], [], encodeSeries_nil hit, List.Forall₂.nil, List.Forall₂.nil⟩ ?_
      simp
    | cons x xs =>
      refine iff_of_false ?_ fun hall => ?_
      · rintro ⟨chks, decoded, henc, -⟩
        rw [encodeSeries_other hit] at henc
        cases henc
      · obtain ⟨q, hq, -⟩ := hall x mem_cons_self
        obtain _ | k := fuel
        · exact hit.elim
        obtain ⟨s', hs'⟩ := next_other hit.1
        rw [hs'] at hq
        cases hq
  | chain c =>
    obtain ⟨vs, c', hv, herr, hvis⟩ := visits_of_presents hit
    obtain ⟨qs, hqs⟩ : ∃ qs, List.Forall₂ (fun x p => handed I x.1 = .ok p) xs qs := by
      refine exists_forall₂ fun x hx => ?_
      obtain ⟨v, -, h⟩ := exists_left_of_forall₂ hvis hx
      exact exists_handed h
    have hfeeds : List.Forall₂ (Feeds FloatApp Prod.fst I) vs qs :=
      forall₂_comp hvis hqs fun v x p h hp => feeds_of_handed h hp
    obtain ⟨r, hr, hw⟩ := encodeSeries_cut floatApp_new hv herr hfeeds
    obtain ⟨chks, rfl, hdec⟩ := exists_chunks (hcodec qs hqs) hw
    have hflat : ((cut (segmentSize split) qs).map (map (sampleAt defaultErrbound))).flatten =
        qs.map (sampleAt defaultErrbound) := by
      rw [← map_flatten, flatten_cut]
    rw [← forall₂_near_iff hqs, ← hflat]
    constructor
    · rintro ⟨chks', decoded, henc, hdec', hall⟩
      obtain rfl : chks = chks' := by
        rw [hr] at henc
        exact Except.ok.inj (Except.ok.inj henc)
      rwa [← (decodesToSamples_unique C.ext order).forall₂ hdec' hdec]
    · exact fun hall => ⟨chks, _, hr, hdec, hall⟩

theorem roundTrips_of_inRange (ext : Extern) (order : RangeOrder (U64 × I64))
    {seg : List (I64 × I64)} (hne : seg ≠ []) (hl : seg.length < 2 ^ 16)
    (hr : ∀ q ∈ seg.map Prod.snd, InRange q) : RoundTrips ext order seg := by
  intro a ranges ha
  obtain ⟨a', hcomp, -, hdec, -⟩ := ha.compact hne hl (dense_deltaCodes hr) ext ranges
  exact ⟨a', hcomp, by rw [hdec ext order, samplesOf_new _ hr]⟩

/-- A list with the value 1 at 1000. -/
def oneSample : ListSeriesIterator Unit Unit := .new [.float 1000 1]

def atSample : ListSeriesIterator Unit Unit := ⟨[.float 1000 1], 0⟩

/-- A chained iterator over the list. -/
def chained (idx : ℤ) (h : Option (List ℕ)) (curr : Option ℕ) (lastT : I64) :
    SeriesIterator (ListSeriesIterator Unit Unit) Empty :=
  .chain ⟨[⟨[.float 1000 1], idx⟩], h, curr, lastT, false⟩

theorem encodes_iff_oneSample :
    Encodes (default : Codecs Unit Unit Unit Unit) default default (listSeriesIterator id)
        (noIterator Unit Unit) 1000 3 (.chain (chainSampleIteratorFromIterators [oneSample]))
        [(1000, 1)] ↔
      ∀ x ∈ [(chained 0 (some []) (some 0) 1000, (1000 : I64), (1 : ℚ))],
        Near (listSeriesIterator id) x := by
  refine encodes_iff (J := noIterator Unit Unit) _
    [(chained 0 (some []) (some 0) 1000, (1000 : I64), (1 : ℚ))] ⟨rfl, rfl, ?_⟩
    fun qs hqs seg hseg => ?_
  · exact ⟨chained 1 (some []) none 1000, rfl, rfl⟩
  · obtain ⟨q, ⟨⟩, hq, ⟨⟩, rfl⟩ := forall₂_cons_left_iff.1 hqs
    have hq' : q = (1000, 50) := by
      have hv : handed (listSeriesIterator id) (chained 0 (some []) (some 0) 1000) =
          .ok (1000, 50) := by decide +kernel
      exact Except.ok.inj (hq.symm.trans hv)
    subst hq'
    obtain rfl : seg = [(1000, 50)] := by simpa [cut, cutFrom] using hseg
    exact roundTrips_of_inRange _ _ (by simp) (by simp) (by simp [InRange])

/-- The encoder panics on a list iterator. -/
theorem not_encodes_oneSample :
    Presents (noIterator Unit Unit) (listSeriesIterator id) 3 3 (.other oneSample)
        [(.other atSample, (1000 : I64), (1 : ℚ))] ∧
      encodeSeries (default : Codecs Unit Unit Unit Unit) default default (noIterator Unit Unit)
        (listSeriesIterator id) 1000 3 (.other oneSample) = .error .panic ∧
      ¬ Encodes (default : Codecs Unit Unit Unit Unit) default default (noIterator Unit Unit)
        (listSeriesIterator id) 1000 3 (.other oneSample) [(1000, 1)] := by
  have hp : Presents (noIterator Unit Unit) (listSeriesIterator id) 3 3 (.other oneSample)
      [(.other atSample, (1000 : I64), (1 : ℚ))] := ⟨rfl, rfl, .other ⟨_, 1⟩, rfl, rfl⟩
  have henc : encodeSeries (default : Codecs Unit Unit Unit Unit) default default
      (noIterator Unit Unit) (listSeriesIterator id) 1000 3 (.other oneSample) = .error .panic :=
    encodeSeries_other hp
  refine ⟨hp, henc, ?_⟩
  rintro ⟨chks, decoded, h, -⟩
  rw [henc] at h
  cases h

end TopcDB.Storage.AnySeries
