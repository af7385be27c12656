import TopcDB.Storage.EncoderChunks
import TopcDB.Tsdb.Tombstones

/-! # Chunks written anew for deletions

When deletion intervals overlap a chunk, `populateCurrForSingleChunk` writes the samples that are
left to a new chunk. It finds the quantisers by reflection on the wrapped iterator, and so panics on
every float iterator without those methods: that of an XOR chunk, and the `stopIterator` of a head
chunk part of which is hidden. `reencodes_iff` says when the new chunk has what is left. -/

namespace TopcDB.Tsdb.PopulateSingle

open List Lib.Bits Lib.Assoc Go.Basic Chunkenc Zigzag CLMeta CLChunk Chunk Huffman CLIterate
open CLAppend HuffmanChunk ErrorBound Storage Merge MergeOrder Series Deleted Tombstones

variable {σ H FH A FA : Type}

/-! ### Reflection -/

/-- The methods that reflection finds by name. -/
structure Methods (σ : Type) where
  compressType : σ → Except Fault CompressType
  atQuantizer : σ → Except Fault (I64 × I64)

/-- An iterator whose type has the methods, or has not: then calling them panics. -/
structure Reflected (σ H FH : Type) where
  I : Iterator σ H FH
  methods : Option (Methods σ)

/-- An iterator over a CL chunk. -/
def clReflected (H FH : Type) : Reflected CLIterator H FH :=
  ⟨clIterator H FH, some ⟨fun it => .ok it.decoder.ctype, fun it => .ok (it.t, it.quantizer)⟩⟩

/-- `stopIterator`, which returns the first samples only. It embeds the interface `Iterator`, and
has no other methods. -/
structure StopIterator (σ : Type) where
  iter : σ
  i : ℤ
  stopAfter : ℤ

def stopIterator (I : Iterator σ H FH) : Iterator (StopIterator σ) H FH where
  next it :=
    if it.stopAfter ≤ it.i + 1 then .ok (.none, it)
    else (I.next it.iter).map fun p => (p.1, { it with iter := p.2, i := it.i + 1 })
  seek it t := (I.seek it.iter t).map fun p => (p.1, { it with iter := p.2 })
  atFloat it := I.atFloat it.iter
  atHistogram it := I.atHistogram it.iter
  atFloatHistogram it := I.atFloatHistogram it.iter
  atT it := I.atT it.iter
  err it := I.err it.iter
  cl _ := none

def stopReflected (I : Iterator σ H FH) : Reflected (StopIterator σ) H FH := ⟨stopIterator I, none⟩

theorem reads_stopIterator {I : Iterator σ H FH} : ∀ {l : List (ValueType × σ)} {s : σ} {i n : ℤ},
    Runs I s l → n - (i + 1) ≤ l.length →
    ∃ l', Reads (stopIterator I) ⟨s, i, n⟩ l' ∧
      l'.map (fun x => (x.1, x.2.iter)) = l.take (n - (i + 1)).toNat
  | l, s, i, n, hr, hn => by
    by_cases hstop : n ≤ i + 1
    · refine ⟨[], ⟨⟨s, i, n⟩, by simp only [stopIterator, if_pos hstop], hr.err⟩, ?_⟩
      rw [show (n - (i + 1)).toNat = 0 by omega]
      rfl
    · cases l with
      | nil =>
        simp only [length_nil, Nat.cast_zero] at hn
        omega
      | cons x l =>
        obtain ⟨typ, s'⟩ := x
        obtain ⟨-, htyp, hnext, -, hruns⟩ := hr
        have hlen : n - (i + 1 + 1) ≤ l.length := by
          simp only [length_cons, Nat.cast_add, Nat.cast_one] at hn
          omega
        obtain ⟨l', hl', hmap⟩ := reads_stopIterator hruns hlen
        refine ⟨(typ, ⟨s', i + 1, n⟩) :: l', ⟨htyp, ?_, hl'⟩, ?_⟩
        · simp only [stopIterator, if_neg hstop, hnext, Except.map]
        · rw [map_cons, hmap, show (n - (i + 1)).toNat = (n - (i + 1 + 1)).toNat + 1 by omega,
            take_succ_cons]

/-! ### The function -/

/-- The appenders of histograms, with `appendOnly` set. -/
structure HistogramAppends (V A : Type) where
  new : A
  append : A → I64 → V → Except Err A

/-- What the function takes from outside. -/
structure Appends (H FH A FA : Type) where
  ext : Extern
  hist : HistogramAppends H A
  fhist : HistogramAppends FH FA

/-- The errors that are wrapped in `iterate chunk while re-encoding`: that of the iterator or of an
appender, `found value type %v in %s chunk`, and `value type %v unsupported`. -/
inductive PopulateErr
  | iterate (e : Err)
  | foundValueType (vt : ValueType) (chunk : ValueType)
  | unsupported (vt : ValueType)
  deriving DecidableEq

/-- The fields that the function sets. -/
structure Populate (A FA : Type) where
  err : Option PopulateErr
  minTime : I64
  maxTime : I64
  chunk : Option (AnyChunk A FA)

/-- The codecs whose quantisers are copied. -/
def requantizes : CompressType → Bool
  | .qSimple8b | .bitPacking | .huffman => true
  | _ => false

def appendReflected (R : Reflected σ H FH) (M : Methods σ) (ctype : CompressType) (s : σ)
    (a : CLAppender) : Except Fault (I64 × CLAppender) := do
  if requantizes ctype then
    let (t, q) ← M.atQuantizer s
    return (t, ← a.appendQuantizer t q)
  else
    let (t, v) ← R.I.atFloat s
    return (t, ← a.append t v)

/-- The loops of the function: the samples from the current one on are appended while they are of
type `typ`. The last timestamp is returned. -/
def appendLoop {B : Type} (D : Iterator (DeletedIterator σ) H FH) (typ : ValueType)
    (append : DeletedIterator σ → B → Except Fault (Except PopulateErr (I64 × B))) :
    ℕ → ValueType → DeletedIterator σ → I64 → B →
      Except Fault (Option PopulateErr × DeletedIterator σ × I64 × B)
  | 0, _, _, _, _ => .error .hang
  | k + 1, vt, it, t, b =>
    if vt = .none then .ok (none, it, t, b)
    else if vt ≠ typ then .ok (some (.foundValueType vt typ), it, t, b)
    else do
      match ← append it b with
      | .error e => return (some e, it, t, b)
      | .ok (t, b) =>
        let (vt, it) ← D.next it
        appendLoop D typ append k vt it t b

variable (C : Appends H FH A FA) (ranges : Ranges) (R : Reflected σ H FH) (k : ℕ)

/-- The case of a type: the chunk with the last timestamp, and the error and iterator at the end. -/
def populateType (vt : ValueType) (it : DeletedIterator σ) :
    Except Fault (Option PopulateErr × DeletedIterator σ × I64 × Option (AnyChunk A FA)) :=
  let D := deletedIterator R.I k
  match vt with
  | .float =>
    match R.methods with
    | none => .error .panic
    | some M => do
      let ctype ← M.compressType it.iter
      let (e, it, t, a) ← appendLoop D .float
        (fun it a => (appendReflected R M ctype it.iter a).map .ok) k vt it 0
        (appenderOf default newCLChunk)
      let (a, _) ← a.compact C.ext ranges
      return (e, it, t, some (.cl a.b))
  | .histogram => do
    let (e, it, t, a) ← appendLoop D .histogram
      (fun it a => do
        let (t, h) ← D.atHistogram it
        return (C.hist.append a t h).mapError .iterate |>.map fun a => (t, a)) k vt it 0 C.hist.new
    return (e, it, t, some (.histogram a))
  | .floatHistogram => do
    let (e, it, t, a) ← appendLoop D .floatHistogram
      (fun it a => do
        let (t, h) ← D.atFloatHistogram it
        return (C.fhist.append a t h).mapError .iterate |>.map fun a => (t, a))
      k vt it 0 C.fhist.new
    return (e, it, t, some (.floatHistogram a))
  | .none => .ok (some (.unsupported vt), it, 0, none)

def populateCurrForSingleChunk (it : DeletedIterator σ) (p : Populate A FA) :
    Except Fault (Bool × Populate A FA) := do
  let D := deletedIterator R.I k
  let (vt, it) ← D.next it
  if vt = .none then
    match D.err it with
    | some e => return (false, { p with err := some (.iterate e) })
    | none => return (false, p)
  else
    let p := { p with minTime := D.atT it }
    let (err, it, t, newChunk) ← populateType C ranges R k vt it
    match err with
    | some e => return (false, { p with err := some e })
    | none =>
      match D.err it with
      | some e => return (false, { p with err := some (.iterate e) })
      | none => return (true, { p with chunk := newChunk, maxTime := t })

/-! ### What is written -/

/-- The iterator is at a float, which its methods know with a quantiser. -/
structure SampleAt (R : Reflected σ H FH) (ctype : CompressType) (x : ValueType × σ)
    (smp : Sample) : Prop where
  type : x.1 = .float
  t : R.I.atT x.2 = smp.t
  value : R.I.atFloat x.2 = .ok (smp.t, smp.val)
  methods : ∀ M ∈ R.methods, M.compressType x.2 = .ok ctype ∧
    M.atQuantizer x.2 = .ok (smp.t, smp.quantizer)

/-- What is appended for a sample: its quantiser, or that of its value. -/
def requantized (ctype : CompressType) (smp : Sample) : I64 × I64 :=
  (smp.t, if requantizes ctype then smp.quantizer else quantize defaultErrbound smp.val)

/-- What a chunk of the quantisers reads as. -/
def readBack (l : List (I64 × I64)) : List Sample :=
  samplesOf defaultErrbound 0 0 ((l.map Prod.fst).zip (deltaCodes 0 (l.map Prod.snd)))

/-- The values are those of the quantisers, after the quantiser `q` and the value `v`: they differ
by 0.02 times what the quantisers differ by. The least difference counts for nothing. -/
def ReadAs : I64 → ℚ → List (I64 × ℚ) → Prop
  | _, _, [] => True
  | q, v, (q', v') :: l =>
    v + 2 * defaultErrbound * (if q' - q = topBit then 0 else (q' - q).toInt) = v' ∧ ReadAs q' v' l

theorem map_val_samplesOf_iff {α : Type} (p : α → I64 × I64) (val : α → ℚ) :
    ∀ (l : List α) (q q₀ : I64) (v : ℚ), (samplesOf defaultErrbound q₀ v
        (((l.map p).map Prod.fst).zip (deltaCodes q ((l.map p).map Prod.snd)))).map Sample.val =
      l.map val ↔ ReadAs q v (l.map fun x => ((p x).2, val x))
  | [], _, _, _ => by simp [deltaCodes, samplesOf, ReadAs]
  | x :: l, q, q₀, v => by
    simp only [map_cons, deltaCodes, zip_cons_cons, samplesOf, cons.injEq, ReadAs, addValue_zigzag]
    refine and_congr_right fun hv => ?_
    rw [hv]
    exact map_val_samplesOf_iff p val l _ _ _

theorem map_t_readBack (l : List (I64 × I64)) : (readBack l).map Sample.t = l.map Prod.fst :=
  EncoderChunks.map_t_samplesOf _ l 0 0 0

variable {R : Reflected σ H FH} {M : Methods σ} {ctype : CompressType}

theorem appendReflected_of {s : σ} {smp : Sample} (hv : R.I.atFloat s = .ok (smp.t, smp.val))
    (hq : requantizes ctype → M.atQuantizer s = .ok (smp.t, smp.quantizer)) {a : CLAppender}
    {l : List (I64 × I64)} (ha : FloatApp a l) :
    ∃ a', appendReflected R M ctype s a = .ok (smp.t, a') ∧
      FloatApp a' (l ++ [requantized ctype smp]) := by
  obtain ⟨a', happend, ha'⟩ := ha.append smp.t (requantized ctype smp).2
  refine ⟨a', ?_, ha'⟩
  by_cases hct : requantizes ctype = true
  · simp only [requantized, if_pos hct] at happend
    simp only [appendReflected, if_pos hct, hq hct, ok_bind, happend, pure, Except.pure]
  · simp only [requantized, if_neg hct] at happend
    simp only [appendReflected, if_neg hct, hv, ok_bind, pure, Except.pure,
      append_eq_appendQuantizer (show keepsFloats a.ctype = false by rw [ha.ctype]; rfl),
      ha.errbound, happend]

theorem appendLoop_spec (hM : R.methods = some M) {D : Iterator (DeletedIterator σ) H FH} :
    ∀ {xs : List (ValueType × DeletedIterator σ)} {smps : List Sample} {vt : ValueType}
      {it : DeletedIterator σ} {smp : Sample} {k : ℕ} {t : I64} {a : CLAppender}
      {l : List (I64 × I64)},
      SampleAt R ctype (vt, it.iter) smp →
      Forall₂ (fun x => SampleAt R ctype (x.1, x.2.iter)) xs smps → Reads D it xs →
      FloatApp a l → xs.length + 1 < k →
      ∃ it' a', appendLoop D .float (fun it a => (appendReflected R M ctype it.iter a).map .ok) k vt
          it t a = .ok (none, it', (smps.getLastD smp).t, a') ∧ D.err it' = none ∧
        FloatApp a' (l ++ (smp :: smps).map (requantized ctype))
  | _, _, _, _, _, 0, _, _, _, _, _, _, _, hk => by omega
  | xs, smps, vt, it, smp, k + 1, t, a, l, hx, hxs, hr, ha, hk => by
    obtain ⟨a1, happend, ha1⟩ := appendReflected_of hx.value (fun _ => (hx.methods M hM).2) ha
    have hvt : vt = .float := hx.type
    subst hvt
    have hstep : appendLoop D .float (fun it a => (appendReflected R M ctype it.iter a).map .ok)
        (k + 1) .float it t a = (D.next it >>= fun p => appendLoop D .float
          (fun it a => (appendReflected R M ctype it.iter a).map .ok) k p.1 p.2 smp.t a1) := by
      rw [appendLoop, if_neg (by decide), if_neg (by decide), happend]
      rfl
    cases hxs with
    | nil =>
      obtain ⟨it', hn, herr⟩ := hr
      obtain ⟨k, rfl⟩ : ∃ j, k = j + 1 := ⟨k - 1, by simp at hk; omega⟩
      refine ⟨it', a1, ?_, herr, ha1⟩
      rw [hstep, hn]
      simp only [ok_bind, appendLoop, if_pos, getLastD_nil]
    | @cons x smp' xs smps hx' hxs' =>
      obtain ⟨-, hn, hr'⟩ := hr
      obtain ⟨it', a', hloop, herr, ha'⟩ := appendLoop_spec (D := D) hM hx' hxs' hr' ha1
        (show xs.length + 1 < k by simp at hk; omega)
      refine ⟨it', a', ?_, herr, by simpa using ha'⟩
      rw [hstep, hn, getLastD_cons]
      exact hloop

/-! ### What is read back -/

variable {l : List (I64 × I64)}

theorem dense_of_inRange (hin : ∀ x ∈ l, InRange x.2) : Dense (deltaCodes 0 (l.map Prod.snd)) :=
  dense_deltaCodes (forall_mem_map.2 hin)

theorem readBack_of_inRange (hin : ∀ x ∈ l, InRange x.2) :
    readBack l = l.map (sampleAt defaultErrbound) :=
  samplesOf_new _ (forall_mem_map.2 hin)

/-! ### The property -/

def leftOf (intervals : List Interval) (samples : List Sample) : List Sample :=
  samples.filter fun smp => !deleted intervals smp.t

/-- The chunk has the samples `left`, with their values when the error bound `e` of the source is
that of new chunks. -/
def Holds (ext : Extern) (order : RangeOrder (U64 × I64)) (e : ℚ) (chunk : Option (AnyChunk A FA))
    (left : List Sample) : Prop :=
  ∃ b decoded, chunk = some (.cl b) ∧ decodeChunk ext order b.stream = .ok (decoded, none) ∧
    decoded.map Sample.t = left.map Sample.t ∧
    (e = defaultErrbound → decoded.map Sample.val = left.map Sample.val)

/-- The function does not panic; when true, the new chunk holds what is left of the samples, with
its bounds, and when false without an error, nothing is left. -/
def Reencodes (C : Appends H FH A FA) (ranges : Ranges) (order : RangeOrder (U64 × I64))
    (R : Reflected σ H FH) (k : ℕ) (e : ℚ) (it : DeletedIterator σ) (p : Populate A FA)
    (left : List Sample) : Prop :=
  ∃ ok p', populateCurrForSingleChunk C ranges R k it p = .ok (ok, p') ∧
    (ok = true → Holds C.ext order e p'.chunk left ∧ left.head?.map Sample.t = some p'.minTime ∧
      left.getLast?.map Sample.t = some p'.maxTime) ∧
    (ok = false → p'.err = none → left = [])

/-- A chunk can count the samples, the table of their codes can be written, and under equal error
bounds the values are those of the quantisers. -/
def Rewritable (ctype : CompressType) (e : ℚ) (left : List Sample) : Prop :=
  left.length < 2 ^ 16 ∧
    Dense (deltaCodes 0 ((left.map (requantized ctype)).map Prod.snd)) ∧
    (e = defaultErrbound → ReadAs 0 0 (left.map fun smp => ((requantized ctype smp).2, smp.val)))

section property

variable (C : Appends H FH A FA) (ranges : Ranges) (order : RangeOrder (U64 × I64)) (e : ℚ)
  (p : Populate A FA) {R : Reflected σ H FH} {ctype : CompressType} {k : ℕ}
  {it : DeletedIterator σ} {x : ValueType × DeletedIterator σ}
  {xs : List (ValueType × DeletedIterator σ)}

theorem holds_iff {left : List Sample} (hne : left ≠ []) {a : CLAppender}
    (ha : FloatApp a (left.map (requantized ctype))) :
    (∃ a' err, a.compact C.ext ranges = .ok (a', err) ∧
      Holds C.ext order e (some (.cl a'.b) : Option (AnyChunk A FA)) left) ↔
    Rewritable ctype e left := by
  have hne' : left.map (requantized ctype) ≠ [] := by simpa using hne
  have hts : (left.map (requantized ctype)).map Prod.fst = left.map Sample.t := by
    rw [map_map]
    rfl
  rw [Rewritable, ← map_val_samplesOf_iff _ _ _ _ 0]
  constructor
  · rintro ⟨a', err, hcomp, b, decoded, hb, hdec, ht, hv⟩
    obtain rfl : a'.b = b := AnyChunk.cl.inj (Option.some.inj hb)
    have hl : left.length < 2 ^ 16 := by
      have := congrArg length ht
      rw [length_map, length_map] at this
      rw [← this]
      exact length_decodeChunk hdec
    have hd := ha.dense_of_compact hcomp
    obtain ⟨a1, h1, -, hdec1, -⟩ := ha.compact hne' (by simpa using hl) hd C.ext ranges
    cases h1.symm.trans hcomp
    cases (hdec1 C.ext order).symm.trans hdec
    exact ⟨hl, hd, hv⟩
  · rintro ⟨hl, hd, hv⟩
    obtain ⟨a', hcomp, -, hdec, -⟩ := ha.compact hne' (by simpa using hl) hd C.ext ranges
    exact ⟨a', none, hcomp, a'.b, readBack _, rfl, hdec C.ext order,
      by rw [map_t_readBack, hts], hv⟩

theorem populate_of_left {M : Methods σ} (hM : R.methods = some M) {smp : Sample}
    {smps : List Sample} (hx : SampleAt R ctype (x.1, x.2.iter) smp)
    (hxs : Forall₂ (fun x => SampleAt R ctype (x.1, x.2.iter)) xs smps)
    (hr : Reads (deletedIterator R.I k) it (x :: xs)) (hk : xs.length + 1 < k) :
    ∃ a, FloatApp a ((smp :: smps).map (requantized ctype)) ∧
      populateCurrForSingleChunk C ranges R k it p = (a.compact C.ext ranges).map fun c =>
        (true, ⟨p.err, smp.t, (smps.getLastD smp).t, some (.cl c.1.b)⟩) := by
  obtain ⟨htyp, hn, hr'⟩ := hr
  obtain ⟨hct, -⟩ := hx.methods M hM
  obtain ⟨it', a, hloop, herr, ha⟩ := appendLoop_spec (t := 0) hM hx hxs hr' floatApp_new hk
  refine ⟨a, ha, ?_⟩
  have hvt : x.1 = .float := hx.type
  have ht : (deletedIterator R.I k).atT x.2 = smp.t := hx.t
  rw [hvt] at hn hloop
  have hct' : M.compressType x.2.iter = .ok ctype := hct
  have htype : populateType C ranges R k .float x.2 = (a.compact C.ext ranges).map fun c =>
      (none, it', (smps.getLastD smp).t, some (.cl c.1.b)) := by
    simp only [populateType, hM, hct', hloop, ok_bind]
    rcases a.compact C.ext ranges with fault | c
    · rfl
    · rfl
  simp only [populateCurrForSingleChunk, hn, bind, Except.bind, htype, ht]
  rcases a.compact C.ext ranges with fault | c
  · rfl
  · simp only [Except.map, herr]
    rfl

theorem populate_of_no_methods (hM : R.methods = none) (hx : x.1 = .float)
    (hr : Reads (deletedIterator R.I k) it (x :: xs)) :
    populateCurrForSingleChunk C ranges R k it p = .error .panic := by
  obtain ⟨-, hn, -⟩ := hr
  rw [hx] at hn
  simp only [populateCurrForSingleChunk, hn, ok_bind, populateType, hM]
  rfl

/-- A head chunk of which all but the first samples are hidden: the function panics as soon as one
of those is left. -/
theorem populate_stopIterator {I : Iterator σ H FH} {s : σ} {l : List (ValueType × σ)} {n : ℕ}
    {intervals : List Interval} (hr : Runs I s l) (hn : n ≤ l.length)
    (hfloat : ∀ x ∈ l, x.1 = .float) (ha : Ascends I l) (hs : Sorted intervals) (hk : l.length < k)
    (hleft : survivors I intervals (l.take n) ≠ []) :
    populateCurrForSingleChunk C ranges (stopReflected I) k ⟨⟨s, -1, n⟩, intervals⟩ p =
      .error .panic := by
  obtain ⟨l1, hr1, hmap1⟩ := reads_stopIterator (i := -1) (n := n) hr (by omega)
  rw [show ((n : ℤ) - (-1 + 1)).toNat = n by omega] at hmap1
  have htake : Ascends (stopIterator I) l1 := by
    have h : Ascends I (l1.map fun x => (x.1, x.2.iter)) := by
      rw [hmap1]
      exact ha.sublist (take_sublist _ _)
    rw [Ascends, pairwise_map] at h
    exact h
  have hlen : l1.length < k := by
    have := congrArg length hmap1
    rw [length_map, length_take] at this
    omega
  obtain ⟨l2, hr2, hmap2⟩ := reads_deletedIterator hr1 htake hs hlen
  have hsurv : (survivors (stopIterator I) intervals l1).map (fun x => (x.1, x.2.iter)) =
      survivors I intervals (l.take n) := by
    rw [← hmap1, survivors, survivors, filter_map]
    rfl
  rw [← hmap2] at hsurv
  obtain _ | ⟨x, xs⟩ := l2
  · exact absurd hsurv.symm hleft
  · have hmem : (x.1, x.2.iter.iter) ∈ survivors I intervals (l.take n) := by
      rw [← hsurv]
      exact mem_map_of_mem mem_cons_self
    exact populate_of_no_methods C ranges p rfl
      (hfloat _ (mem_of_mem_take (mem_of_mem_filter hmem))) hr2

variable {C ranges order e p}

/-- **Chunks are written anew rightly** if and only if the chunk has an iterator, and nothing is
left, or the iterator has the methods that reflection looks for and what is left can be rewritten.
-/
theorem reencodes_iff {s : σ} {l : List (ValueType × σ)} {samples : List Sample}
    {intervals : List Interval} (hsrc : R.I.next s = .error .panic ∨ Reads R.I s l)
    (hl : Forall₂ (SampleAt R ctype) l samples) (ha : Ascends R.I l) (hs : Sorted intervals)
    (hk : l.length + 1 < k) :
    Reencodes C ranges order R k e ⟨s, intervals⟩ p (leftOf intervals samples) ↔
      R.I.next s ≠ .error .panic ∧ (leftOf intervals samples = [] ∨
        R.methods.isSome ∧ Rewritable ctype e (leftOf intervals samples)) := by
  rcases hsrc with hnil | hr
  · -- the iterator is nil
    refine iff_of_false ?_ fun h => h.1 hnil
    rintro ⟨ok, p', hpop, -⟩
    obtain ⟨k, rfl⟩ : ∃ j, k = j + 1 := ⟨k - 1, by omega⟩
    have hn : (deletedIterator R.I (k + 1)).next ⟨s, intervals⟩ = .error .panic := by
      simp only [deletedIterator, DeletedIterator.next, hnil]
    simp only [populateCurrForSingleChunk, hn, bind, Except.bind] at hpop
    cases hpop
  · have hnext : R.I.next s ≠ .error .panic := by
      intro h
      cases l with
      | nil => obtain ⟨s', hn, -⟩ := hr; rw [hn] at h; cases h
      | cons x l => obtain ⟨-, hn, -⟩ := hr; rw [hn] at h; cases h
    rw [and_iff_right hnext]
    obtain ⟨l', hr', hmap⟩ := reads_deletedIterator hr ha hs (show l.length < k by omega)
    have hleft : Forall₂ (SampleAt R ctype) (l'.map fun x => (x.1, x.2.iter))
        (leftOf intervals samples) := by
      rw [hmap]
      exact rel_filter (fun x smp h => by simp [h.t]) hl
    rw [forall₂_map_left_iff] at hleft
    have hlen : l'.length ≤ l.length := by
      have := congrArg length hmap
      rw [length_map] at this
      rw [this]
      exact length_filter_le _ _
    generalize leftOf intervals samples = left at hleft
    cases hleft with
    | nil =>
      obtain ⟨it', hn, herr⟩ := hr'
      refine iff_of_true ⟨false, p, ?_, by simp, fun _ _ => rfl⟩ (Or.inl rfl)
      simp only [populateCurrForSingleChunk, hn, ok_bind, if_true, herr, pure, Except.pure]
    | @cons x smp xs smps hx hxs =>
      rw [or_iff_right (cons_ne_nil smp smps)]
      rcases hM : R.methods with _ | M
      · -- reflection finds no method
        refine iff_of_false ?_ fun h => Bool.false_ne_true h.1
        rintro ⟨ok, p', hpop, -⟩
        rw [populate_of_no_methods C ranges p hM hx.type hr'] at hpop
        cases hpop
      · rw [and_iff_right (show (some M).isSome = true from rfl)]
        obtain ⟨a, hfa, hpop⟩ := populate_of_left C ranges p hM hx hxs hr'
          (by rw [length_cons] at hlen; omega)
        rw [← holds_iff C ranges order e (cons_ne_nil smp smps) hfa]
        constructor
        · rintro ⟨ok, p', h, htrue, -⟩
          rw [hpop] at h
          obtain ⟨⟨a', err⟩, hcomp, heq⟩ := map_eq_ok h
          cases heq
          exact ⟨a', err, hcomp, (htrue rfl).1⟩
        · rintro ⟨a', err, hcomp, hholds⟩
          refine ⟨true, ⟨p.err, smp.t, (smps.getLastD smp).t, some (.cl a'.b)⟩,
            by rw [hpop, hcomp]; rfl,
            fun _ => ⟨hholds, rfl, ?_⟩, by simp⟩
          rw [getLast?_cons, Option.map_some, getLastD_eq_getLast?]

end property

/-! ### CL chunks -/

variable {ctype : CompressType}

/-- The iterator of a CL chunk, and one that hides all but its first samples. -/
theorem sampleAt_cl {it : CLIterator} (hc : it.decoder.ctype = ctype) :
    SampleAt (clReflected H FH) ctype (.float, it) (Compaction.sampleAt it) := by
  refine ⟨rfl, rfl, rfl, fun M hM => ?_⟩
  cases hM
  exact ⟨congrArg Except.ok hc, rfl⟩

theorem source_cl (H FH : Type) {ext : Extern} {order : RangeOrder (U64 × I64)} {b : List Byte}
    {samples : List Sample} {hdr : Header} (hm : readCLMeta b = .ok hdr)
    (hc : hdr.ctype = some ctype) (hdec : decodeChunk ext order b = .ok (samples, none)) :
    ∃ it l, reset ext order b = .ok (some it) ∧ Runs (clIterator H FH) it l ∧
      Forall₂ (SampleAt (clReflected H FH) ctype) l samples := by
  obtain ⟨it, its, hr, hruns, hmap, -, hall⟩ := Compaction.decodeChunk_runs H FH hm hdec
  refine ⟨it, its.map (Prod.mk .float), hr, hruns, ?_⟩
  rw [← hmap, forall₂_map_left_iff, forall₂_map_right_iff, forall₂_same]
  exact fun x hx => sampleAt_cl (Option.some.inj ((hall x hx).2.symm.trans hc))

theorem rewritable_of_inRange {e : ℚ} {left : List Sample} (hc : requantizes ctype)
    (hl : left.length < 2 ^ 16)
    (hq : ∀ smp ∈ left, InRange smp.quantizer ∧
      (e = defaultErrbound → smp.val = 2 * defaultErrbound * smp.quantizer.toInt)) :
    Rewritable ctype e left := by
  have hreq : ∀ smp, (requantized ctype smp).2 = smp.quantizer :=
    fun smp => by simp [requantized, hc]
  have hin : ∀ x ∈ left.map (requantized ctype), InRange x.2 :=
    forall_mem_map.2 fun smp hsmp => by rw [hreq]; exact (hq smp hsmp).1
  refine ⟨hl, dense_of_inRange hin, fun he => ?_⟩
  rw [← map_val_samplesOf_iff _ _ _ _ 0, ← readBack, readBack_of_inRange hin, map_map, map_map]
  refine map_congr_left fun smp hsmp => ?_
  rw [(hq smp hsmp).2 he]
  simp [requantized, hc, sampleAt]

def noAppends : Appends Unit Unit Unit Unit :=
  ⟨default, ⟨(), fun _ _ _ => .ok ()⟩, ⟨(), fun _ _ _ => .ok ()⟩⟩

theorem source_pairChunk : ∃ it l, reset default default pairChunk = .ok (some it) ∧
    Runs (clIterator Unit Unit) it l ∧
    Forall₂ (SampleAt (clReflected Unit Unit) .huffman) l pairSamples := by
  have hm : readCLMeta pairChunk = .ok ⟨2, 16, 1 / 100, some .huffman⟩ := by decide +kernel
  exact source_cl Unit Unit hm rfl (by decide +kernel)

/-- Three floats, of which one was appended after the iterator was made. -/
def threeFloats : AnySeries.ListSeriesIterator Unit Unit :=
  .new [.float 1000 1, .float 2000 2, .float 3000 3]

theorem ascends_threeFloats : Ascends (AnySeries.listSeriesIterator id)
    (DefaultMerge.states threeFloats.samples 0 threeFloats.samples) := by
  unfold Ascends
  decide

theorem populate_stopIterator_list : populateCurrForSingleChunk noAppends default
    (stopReflected (AnySeries.listSeriesIterator id)) 4 ⟨⟨threeFloats, -1, (2 : ℕ)⟩, [⟨0, 1500⟩]⟩
    ⟨none, 0, 0, none⟩ = .error .panic :=
  populate_stopIterator _ _ _ (DefaultMerge.runs_states id _ (i := 0) rfl) (by decide) (by decide)
    ascends_threeFloats (pairwise_singleton ..) (by decide) (by decide)

/-- **Deletions in any order** hide the samples in their ranges, and no others. -/
theorem reads_deletions {I : Iterator σ H FH} {s : σ} {l : List (ValueType × σ)} {k : ℕ}
    {ns : List Interval} (hr : Deleted.Reads I s l) (ha : Ascends I l) (hk : l.length < k)
    (hns : ∀ n ∈ ns, Proper n ∧ n.maxt ≠ maxInt64) :
    ∃ ins l', ns.foldlM add [] = .ok ins ∧ Deleted.Reads (deletedIterator I k) ⟨s, ins⟩ l' ∧
      l'.map (fun x => (x.1, x.2.iter)) = survivors I ns l := by
  obtain ⟨ins, hadd, hc, hd⟩ := foldlM_add canonical_nil hns
  have hs : Sorted ins := hc.apart.imp_of_mem fun ha _ hlt => (hc.proper _ ha).trans (by omega)
  obtain ⟨l', hl', hmap⟩ := reads_deletedIterator hr ha hs hk
  exact ⟨ins, l', hadd, hl', hmap.trans (survivors_congr fun x _ => hd _)⟩

theorem reads_deletions_list : ∃ ins l', [⟨2500, 3500⟩, ⟨0, 1500⟩].foldlM add [] = .ok ins ∧
    Deleted.Reads (deletedIterator (AnySeries.listSeriesIterator id) 4) ⟨threeFloats, ins⟩ l' ∧
    l'.map (fun x => (x.1, x.2.iter)) = [(.float, { threeFloats with idx := 1 })] :=
  reads_deletions (reads_of_runs (DefaultMerge.runs_states id _ (i := 0) rfl))
    ascends_threeFloats (by decide) (by simp [Proper]; decide)

theorem reencodes_iff_pairChunk : ∃ it, reset default default pairChunk = .ok (some it) ∧
    Reencodes noAppends default default (clReflected Unit Unit) 4 defaultErrbound
      ⟨it, [⟨0, 1500⟩]⟩ ⟨none, 0, 0, none⟩ [⟨2000, 100, 2⟩] := by
  obtain ⟨it, l, hr, hruns, hl⟩ := source_pairChunk
  have hleft : leftOf [⟨0, 1500⟩] pairSamples = [⟨2000, 100, 2⟩] := by decide +kernel
  have hnext : (clIterator Unit Unit).next it ≠ .error .panic := by
    obtain _ | ⟨x, l⟩ := l
    · cases hl
    · rw [hruns.2.2.1]
      exact fun h => by cases h
  refine ⟨it, hr, ?_⟩
  rw [← hleft]
  have hasc := (ascends_iff (hl.imp fun _ _ hx => hx.t)).2 (by decide +kernel)
  refine (reencodes_iff (Or.inr (reads_of_runs hruns)) hl hasc (by simp [Sorted])
    (by rw [hl.length_eq]; decide)).2 ⟨hnext, .inr ⟨rfl, ?_⟩⟩
  rw [hleft]
  refine rewritable_of_inRange rfl (by decide) fun smp hsmp => ?_
  rw [mem_singleton.1 hsmp]
  exact ⟨by simp [InRange], fun _ => by decide +kernel⟩

/-- The function panics on a head chunk whose second sample is hidden, and on an XOR chunk, whose
iterators have no method `CompressType`. -/
theorem not_reencodes_hidden :
    (∃ it, reset default default pairChunk = .ok (some it) ∧
      ¬ Reencodes noAppends default default (stopReflected (clIterator Unit Unit)) 4 defaultErrbound
        ⟨⟨it, -1, 1⟩, [⟨1500, 3000⟩]⟩ ⟨none, 0, 0, none⟩ [⟨1000, 50, 1⟩]) ∧
    ¬ Reencodes noAppends default default
      (⟨AnySeries.listSeriesIterator id, none⟩ : Reflected _ Unit Unit) 4 defaultErrbound
      ⟨AnySeries.ListSeriesIterator.new [.float 1000 1], [⟨1500, 3000⟩]⟩
      ⟨none, 0, 0, none⟩ [⟨1000, 0, 1⟩] := by
  constructor
  · have hpanic : (reset default default pairChunk).map (Option.map fun it =>
        (populateCurrForSingleChunk noAppends default (stopReflected (clIterator Unit Unit)) 4
          ⟨⟨it, -1, 1⟩, [⟨1500, 3000⟩]⟩ ⟨none, 0, 0, none⟩).map fun _ => ()) =
        .ok (some (.error .panic)) := by decide +kernel
    obtain ⟨it, l, hr, -⟩ := source_pairChunk
    refine ⟨it, hr, ?_⟩
    rintro ⟨ok, p', hpop, -⟩
    rw [hr] at hpanic
    simp only [Except.map, Option.map_some, hpop, Except.ok.injEq, Option.some.injEq] at hpanic
    cases hpanic
  · have hpanic : (populateCurrForSingleChunk noAppends default
        (⟨AnySeries.listSeriesIterator id, none⟩ : Reflected _ Unit Unit) 4
        ⟨AnySeries.ListSeriesIterator.new [.float 1000 1], [⟨1500, 3000⟩]⟩
        ⟨none, 0, 0, none⟩).map (fun _ => ()) = .error .panic := by decide +kernel
    rintro ⟨ok, p', hpop, -⟩
    rw [hpop] at hpanic
    cases hpanic

end TopcDB.Tsdb.PopulateSingle
