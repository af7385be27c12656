import TopcDB.Tsdb.OooSeries

/-! # Appenders of the head (`headAppender`) and its garbage collection

Every step of the machine is what the source does under one lock. An appender finds the series of a
call first, in the maps of the head, and then buffers the sample under the lock of the series; a
commit or a rollback goes through the buffered samples one by one. A removed series stays in the
list of all series, without being in the maps, since appenders may still refer to it.

A step that its appender cannot take leaves all as it is, so that every list of steps is a
schedule. -/

namespace TopcDB.Tsdb.HeadAppender

open Go.Basic Chunkenc.Huffman ReadIsolation HeadSeries OooSeries

variable {L F H FH A FA : Type}

/-! ### Data -/

/-- What comes from outside: the constants and predicates of floats and histograms, and whether a
series may be created for a label set. -/
structure HeadEnv (L F H FH A FA : Type) extends Env F H FH A FA where
  zero : F
  isStaleNaN : F → Bool
  /-- `histogram.Histogram{}` -/
  emptyHistogram : H
  emptyFloatHistogram : FH
  /-- `histogram.Histogram{Sum: v}` -/
  sumHistogram : F → H
  sumFloatHistogram : F → FH
  validate : H → Bool
  validateFloat : FH → Bool
  equals : H → H → Bool
  equalsFloat : FH → FH → Bool
  accepts : L → Bool

/-- The options of the head that appenders read. `NewHead` refuses other values of `OOOCapMax`. -/
structure HeadOpts extends ChunkOpts where
  oooCapMax : ℕ
  oooCapMax_pos : 0 < oooCapMax
  oooCapMax_le : oooCapMax ≤ 255
  enableNativeHistograms : Bool
  enableOOONativeHistograms : Bool

/-- A series of the head; `hashed` and `listed` say that it is in the map by labels and in the map
by reference. -/
structure Series (L F H FH A FA : Type) where
  lset : L
  mem : MemSeries F H FH A FA
  ooo : Option (OOOFields H FH)
  pendingCommit : Bool
  hashed : Bool
  listed : Bool

inductive Phase
  | opened
  | committing
  | rollingBack
  | closed
  deriving DecidableEq

/-- An appender, with the samples that its loops have not gone through, each with the position of
its series; `found` is the series of the current call. -/
structure Appender (F H FH : Type) where
  minValidTime : I64
  headMaxt : I64
  oooTimeWindow : I64
  discardOutOfOrder : Bool
  appendID : ℕ
  cleanupAppendIDsBelow : ℕ
  found : Option ℕ
  created : Bool
  samples : List (ℕ × I64 × F)
  histograms : List (ℕ × I64 × H)
  floatHistograms : List (ℕ × I64 × FH)
  phase : Phase

structure World (L F H FH A FA : Type) where
  series : List (Series L F H FH A FA)
  lastSeriesID : ℕ
  appenders : List (Appender F H FH)
  mapper : Mapper A FA

/-! ### Admission of histograms -/

inductive HistogramErr
  | duplicateSampleForTimestamp
  | oooNativeHistogramsDisabled
  | tooOldSample
  | outOfBounds
  | outOfOrderSample
  deriving DecidableEq

/-- What `appendableHistogram` and `appendableFloatHistogram` share; `same` says that the histogram
equals the last one. -/
def appendableKind (s : MemSeries F H FH A FA) (same : Bool) (t headMaxt minValidTime : I64)
    (oooTimeWindow : I64) (oooHistogramsEnabled : Bool) : Bool × I64 × Option HistogramErr :=
  let outOfOrder :=
    if (0 : I64).slt oooTimeWindow && (headMaxt - oooTimeWindow).sle t then
      (true, headMaxt - t,
        if oooHistogramsEnabled then none else some .oooNativeHistogramsDisabled)
    else if (0 : I64).slt oooTimeWindow then (true, headMaxt - t, some .tooOldSample)
    else if t.slt minValidTime then (false, headMaxt - t, some .outOfBounds)
    else (false, headMaxt - t, some .outOfOrderSample)
  if minValidTime.sle t then
    if s.headChunks = [] then (false, 0, none)
    else if s.maxTime.slt t then (false, 0, none)
    else if t = s.maxTime then
      (false, 0, if same then none else some .duplicateSampleForTimestamp)
    else outOfOrder
  else outOfOrder

variable (E : HeadEnv L F H FH A FA) (o : HeadOpts)

/-- `appendableHistogram`. No histogram equals a missing one. -/
def appendableHistogram (s : MemSeries F H FH A FA) (t : I64) (h : H)
    (headMaxt minValidTime oooTimeWindow : I64) : Bool × I64 × Option HistogramErr :=
  appendableKind s (s.lastHistogramValue.any (E.equals h)) t headMaxt minValidTime oooTimeWindow
    o.enableOOONativeHistograms

def appendableFloatHistogram (s : MemSeries F H FH A FA) (t : I64) (fh : FH)
    (headMaxt minValidTime oooTimeWindow : I64) : Bool × I64 × Option HistogramErr :=
  appendableKind s (s.lastFloatHistogramValue.any (E.equalsFloat fh)) t headMaxt minValidTime
    oooTimeWindow o.enableOOONativeHistograms

/-! ### Calls -/

/-- What a call returns. A stale marker for a series of histograms goes on as a call of
`AppendHistogram`. -/
inductive Reply (F H FH : Type)
  | ref (ref : ℕ)
  | histogram (h : H)
  | floatHistogram (fh : FH)
  | outOfBounds
  | outOfOrderSample
  | appendable (e : MemSeries.AppendErr F)
  | nativeHistogramsDisabled
  | invalidHistogram
  | appendableHistogram (e : HistogramErr)
  | ctNewerThanSample
  | outOfOrderCT

/-- A series without a last histogram, if the call created it, gets an empty one. -/
def Series.startHistograms (s : Series L F H FH A FA) (created : Bool) : Series L F H FH A FA :=
  if created && s.mem.lastHistogramValue.isNone && s.mem.lastFloatHistogramValue.isNone then
    { s with mem := { s.mem with lastHistogramValue := some E.emptyHistogram } }
  else s

def Series.startFloatHistograms (s : Series L F H FH A FA) (created : Bool) :
    Series L F H FH A FA :=
  if created && s.mem.lastHistogramValue.isNone && s.mem.lastFloatHistogramValue.isNone then
    { s with mem := { s.mem with lastFloatHistogramValue := some E.emptyFloatHistogram } }
  else s

namespace Appender

variable [DecidableEq F] (x : Appender F H FH) (i : ℕ) (s : Series L F H FH A FA) (t : I64)

/-- `appendable`, with the bounds of the appender. -/
def verdict (v : F) : Bool × I64 × Option (MemSeries.AppendErr F) :=
  s.mem.appendable t v x.headMaxt x.minValidTime x.oooTimeWindow

/-- `appendableHistogram`, with the bounds of the appender. -/
def histogramVerdict (h : H) : Bool × I64 × Option HistogramErr :=
  appendableHistogram E o s.mem t h x.headMaxt x.minValidTime x.oooTimeWindow

/-- `appendableFloatHistogram`, with the bounds of the appender. -/
def floatHistogramVerdict (fh : FH) : Bool × I64 × Option HistogramErr :=
  appendableFloatHistogram E o s.mem t fh x.headMaxt x.minValidTime x.oooTimeWindow

/-- **`Append`** of a sample for the series `s` at the position `i`. -/
def append (v : F) : Reply F H FH × Appender F H FH × Series L F H FH A FA :=
  if x.oooTimeWindow = 0 && t.slt x.minValidTime then (.outOfBounds, x, s)
  else if E.isStaleNaN v && s.mem.lastHistogramValue.isSome then
    (.histogram (E.sumHistogram v), x, s)
  else if E.isStaleNaN v && s.mem.lastFloatHistogramValue.isSome then
    (.floatHistogram (E.sumFloatHistogram v), x, s)
  else
    match x.verdict s t v with
    | (_, _, some e) => (.appendable e, x, s)
    | (isOOO, _, none) =>
      if isOOO && x.discardOutOfOrder then (.outOfOrderSample, x, s)
      else
        (.ref s.mem.ref, { x with samples := x.samples ++ [(i, t, v)] },
          { s with pendingCommit := true })

/-- **`AppendCTZeroSample`.** The series is marked before the sample is refused for being out of
order. -/
def appendCTZeroSample (t ct : I64) : Reply F H FH × Appender F H FH × Series L F H FH A FA :=
  if t.sle ct then (.ctNewerThanSample, x, s)
  else
    match x.verdict s ct E.zero with
    | (_, _, some e) => (.appendable e, x, s)
    | (true, _, none) => (.outOfOrderCT, x, { s with pendingCommit := true })
    | (false, _, none) =>
      (.ref s.mem.ref, { x with samples := x.samples ++ [(i, ct, E.zero)] },
        { s with pendingCommit := true })

/-- The checks of `AppendHistogram` that do not look at the series. -/
def histogramRefused (h : Option H) (fh : Option FH) : Option (Reply F H FH) :=
  if !o.enableNativeHistograms then some .nativeHistogramsDisabled
  else if (x.oooTimeWindow = 0 || !o.enableOOONativeHistograms) && t.slt x.minValidTime then
    some .outOfBounds
  else if (h.any fun h => !E.validate h) || fh.any fun fh => !E.validateFloat fh then
    some .invalidHistogram
  else none

/-- **`AppendHistogram`.** A histogram of integers marks the series when it is refused. -/
def appendHistogram (h : Option H) (fh : Option FH) :
    Reply F H FH × Appender F H FH × Series L F H FH A FA :=
  match x.histogramRefused E o t h fh with
  | some r => (r, x, s)
  | none =>
    match h, fh with
    | some h, _ =>
      let s := s.startHistograms E x.created
      match x.histogramVerdict E o s t h with
      | (_, _, some e) => (.appendableHistogram e, x, { s with pendingCommit := true })
      | (_, _, none) => (.ref s.mem.ref, { x with histograms := x.histograms ++ [(i, t, h)] }, s)
    | none, some fh =>
      let s := s.startFloatHistograms E x.created
      match x.floatHistogramVerdict E o s t fh with
      | (_, _, some e) => (.appendableHistogram e, x, s)
      | (_, _, none) =>
        (.ref s.mem.ref, { x with floatHistograms := x.floatHistograms ++ [(i, t, fh)] },
          { s with pendingCommit := true })
    | none, none => (.ref s.mem.ref, x, s)

end Appender

/-! ### Commit and rollback -/

namespace Series

variable (s : Series L F H FH A FA)

/-- What both loops do last for every sample. -/
def settle (bound : ℕ) : Except Fault (Series L F H FH A FA) := do
  let txs ← s.mem.txs.cleanupAppendIDsBelow bound
  .ok { s with mem := { s.mem with txs := txs }, pendingCommit := false }

/-- What the loops of `Commit` share: a sample is dropped when refused, inserted when out of order,
and appended else. -/
def store {ε : Type} (s : Series L F H FH A FA) (mapper : Mapper A FA) (ranges : Ranges)
    (t : I64) (v : F) (h : Option H) (fh : Option FH)
    (append : Except Fault (Bool × Bool × MemSeries F H FH A FA)) :
    Bool × I64 × Option ε → Except Fault (Series L F H FH A FA × Mapper A FA)
  | (_, _, some _) => .ok (s, mapper)
  | (true, _, none) =>
    (OOOFields.insert E.toEnv s.ooo mapper o.oooCapMax ranges t v h fh o.errorBound).map fun p =>
      ({ s with ooo := some p.ooo }, p.mapper)
  | (false, _, none) => append.map fun p => ({ s with mem := p.2.2 }, mapper)

/-- A turn of a loop of `Commit`. -/
def commitKind {ε : Type} (s : Series L F H FH A FA) (mapper : Mapper A FA) (ranges : Ranges)
    (x : Appender F H FH) (verdict : Bool × I64 × Option ε) (t : I64) (v : F) (h : Option H)
    (fh : Option FH) (append : Except Fault (Bool × Bool × MemSeries F H FH A FA)) :
    Except Fault (Series L F H FH A FA × Mapper A FA) := do
  let p ← s.store E o mapper ranges t v h fh append verdict
  (p.1.settle x.cleanupAppendIDsBelow).map fun s => (s, p.2)

/-- One turn of `commitSamples`. -/
def commitSample [DecidableEq F] (s : Series L F H FH A FA) (mapper : Mapper A FA) (ranges : Ranges)
    (x : Appender F H FH) (t : I64) (v : F) : Except Fault (Series L F H FH A FA × Mapper A FA) :=
  s.commitKind E o mapper ranges x (x.verdict s t v) t v none none
    (s.mem.append E.toEnv o.toChunkOpts ranges t v x.appendID)

/-- One turn of `commitHistograms`. -/
def commitHistogram (mapper : Mapper A FA) (ranges : Ranges) (x : Appender F H FH) (t : I64)
    (h : H) : Except Fault (Series L F H FH A FA × Mapper A FA) :=
  s.commitKind E o mapper ranges x (x.histogramVerdict E o s t h) t E.zero (some h) none
    (s.mem.appendHistogram E.toEnv o.toChunkOpts ranges t h x.appendID)

/-- One turn of `commitFloatHistograms`. -/
def commitFloatHistogram (mapper : Mapper A FA) (ranges : Ranges) (x : Appender F H FH) (t : I64)
    (fh : FH) : Except Fault (Series L F H FH A FA × Mapper A FA) :=
  s.commitKind E o mapper ranges x (x.floatHistogramVerdict E o s t fh) t E.zero none (some fh)
    (s.mem.appendFloatHistogram E.toEnv o.toChunkOpts ranges t fh x.appendID)

/-- **The check of `stripeSeries.gc`**: whether the series stays, and the series without its old
chunks. -/
def check (mint : I64) (minOOOMmapRef : ℕ) : Bool × Series L F H FH A FA :=
  let s := { s with
    mem := (s.mem.truncateChunksBefore mint).2, ooo := (OOOFields.truncate minOOOMmapRef s.ooo).2 }
  (!s.mem.mmappedChunks.isEmpty || !s.mem.headChunks.isEmpty || s.pendingCommit ||
    s.ooo.any fun p => !p.oooMmappedChunks.isEmpty || p.oooHeadChunk.isSome, s)

end Series

inductive Buffered (F H FH : Type)
  | float (t : I64) (v : F)
  | histogram (t : I64) (h : H)
  | floatHistogram (t : I64) (fh : FH)

/-- The next sample of the loops, with the position of its series and what is left: floats,
histograms, then float histograms, which `Rollback` has no loop for. -/
def Appender.next (x : Appender F H FH) : Option (ℕ × Buffered F H FH × Appender F H FH) :=
  match x.samples, x.histograms, x.floatHistograms with
  | (i, t, v) :: rest, _, _ => some (i, .float t v, { x with samples := rest })
  | [], (i, t, h) :: rest, _ => some (i, .histogram t h, { x with histograms := rest })
  | [], [], (i, t, fh) :: rest =>
    if x.phase = .committing then
      some (i, .floatHistogram t fh, { x with floatHistograms := rest })
    else none
  | [], [], [] => none

/-- One turn of the loops of `Commit` or `Rollback`. -/
def Series.turn [DecidableEq F] (s : Series L F H FH A FA) (mapper : Mapper A FA) (ranges : Ranges)
    (x : Appender F H FH) (b : Buffered F H FH) :
    Except Fault (Series L F H FH A FA × Mapper A FA) :=
  if x.phase = .committing then
    match b with
    | .float t v => s.commitSample E o mapper ranges x t v
    | .histogram t h => s.commitHistogram E o mapper ranges x t h
    | .floatHistogram t fh => s.commitFloatHistogram E o mapper ranges x t fh
  else (s.settle x.cleanupAppendIDsBelow).map fun s => (s, mapper)

/-! ### The head -/

inductive Op (L F H FH : Type)
  /-- `Head.appender`, which reads the bounds and the ids of the head -/
  | appender (minValidTime headMaxt oooTimeWindow : I64) (discardOutOfOrder : Bool)
    (appendID cleanupAppendIDsBelow : ℕ)
  /-- the beginning of a call: `getByID` -/
  | getByID (a ref : ℕ)
  /-- `getOrCreate` for a series that was not found: the map by labels is set -/
  | getOrCreate (a : ℕ) (lset : L)
  /-- the end of `getOrSet`: the map by reference is set -/
  | setByID (a : ℕ)
  | append (a : ℕ) (t : I64) (v : F)
  | appendCTZeroSample (a : ℕ) (t ct : I64)
  | appendHistogram (a : ℕ) (t : I64) (h : Option H) (fh : Option FH)
  /-- the beginning of `Commit`, up to the write of the log, which may fail -/
  | commit (a : ℕ) (logged : Bool)
  | rollback (a : ℕ)
  /-- a turn of the loops of `Commit` or `Rollback`, or their end -/
  | advance (a : ℕ) (ranges : Ranges)
  /-- the check of `gc` for the series at a position -/
  | gc (i : ℕ) (mint : I64) (minOOOMmapRef : ℕ)

namespace World

variable (w : World L F H FH A FA)

/-- The appender `a`, when it is open, with the series of its current call. -/
def target (a : ℕ) : Option (Appender F H FH × ℕ × Series L F H FH A FA) := do
  let x ← w.appenders[a]?
  guard (x.phase = .opened)
  let i ← x.found
  let s ← w.series[i]?
  return (x, i, s)

/-- A call under the lock of the series. -/
def call (a : ℕ)
    (f : Appender F H FH → ℕ → Series L F H FH A FA →
      Reply F H FH × Appender F H FH × Series L F H FH A FA) :
    World L F H FH A FA × Option (Reply F H FH) :=
  match w.target a with
  | none => (w, none)
  | some (x, i, s) =>
    let (r, x, s) := f x i s
    ({ w with series := w.series.set i s, appenders := w.appenders.set a x }, some r)

/-- The appender `a`, when it is open, is changed. -/
def update (a : ℕ) (f : Appender F H FH → Appender F H FH) : World L F H FH A FA :=
  match w.appenders[a]? with
  | none => w
  | some x =>
    if x.phase = .opened then { w with appenders := w.appenders.set a (f x) } else w

/-- `getByID` for the appender `a`. -/
def getByID (a ref : ℕ) : World L F H FH A FA :=
  let found := w.series.findIdx? fun s => s.listed && s.mem.ref = ref
  w.update a fun x => { x with found := found, created := false }

/-- `getOrCreate` for the appender `a`, up to the map by labels. -/
def getOrCreate [DecidableEq L] (w : World L F H FH A FA) (a : ℕ) (lset : L) :
    World L F H FH A FA :=
  if (w.appenders[a]?.bind Appender.found).isSome || !E.accepts lset then w
  else
    match w.series.findIdx? fun s => s.hashed && s.lset = lset with
    | some i => w.update a fun x => { x with found := some i, created := false }
    | none =>
      let s : Series L F H FH A FA :=
        ⟨lset, newMemSeries (w.lastSeriesID + 1) E.zero, none, false, true, false⟩
      let w' := { w with series := w.series ++ [s], lastSeriesID := w.lastSeriesID + 1 }
      w'.update a fun x => { x with found := some w.series.length, created := true }

/-- The map by reference gets the series that the appender `a` has created. -/
def setByID (a : ℕ) : World L F H FH A FA :=
  match w.target a with
  | none => w
  | some (x, i, s) =>
    if x.created then { w with series := w.series.set i { s with listed := true } } else w

/-- A turn of the loops of the appender `a`, or their end. -/
def advance [DecidableEq F] (w : World L F H FH A FA) (a : ℕ) (ranges : Ranges) :
    Except Fault (World L F H FH A FA) :=
  match w.appenders[a]? with
  | none => .ok w
  | some x =>
    if x.phase = .opened ∨ x.phase = .closed then .ok w
    else
      match x.next with
      | none => .ok { w with appenders := w.appenders.set a { x with phase := .closed } }
      | some (i, b, x') =>
        match w.series[i]? with
        | none => .error .panic
        | some s => (s.turn E o w.mapper ranges x b).map fun p =>
          { w with
            series := w.series.set i p.1, mapper := p.2, appenders := w.appenders.set a x' }

/-- The check of `gc` for the series at the position `i`, if it is in the map by labels. -/
def gc (i : ℕ) (mint : I64) (minOOOMmapRef : ℕ) : World L F H FH A FA :=
  match w.series[i]? with
  | none => w
  | some s =>
    if s.hashed then
      let (keep, s) := s.check mint minOOOMmapRef
      { w with series :=
        w.series.set i (if keep then s else { s with hashed := false, listed := false }) }
    else w

end World

/-- **A step of the head.** -/
def exec [DecidableEq L] [DecidableEq F] (w : World L F H FH A FA) :
    Op L F H FH → Except Fault (World L F H FH A FA × Option (Reply F H FH))
  | .appender minValidTime headMaxt oooTimeWindow discard appendID cleanup =>
    .ok ({ w with appenders := w.appenders ++
      [⟨minValidTime, headMaxt, oooTimeWindow, discard, appendID, cleanup, none, false, [], [], [],
        .opened⟩] }, none)
  | .getByID a ref => .ok (w.getByID a ref, none)
  | .getOrCreate a lset => .ok (w.getOrCreate E a lset, none)
  | .setByID a => .ok (w.setByID a, none)
  | .append a t v => .ok (w.call a fun x i s => x.append E i s t v)
  | .appendCTZeroSample a t ct => .ok (w.call a fun x i s => x.appendCTZeroSample E i s t ct)
  | .appendHistogram a t h fh => .ok (w.call a fun x i s => x.appendHistogram E o i s t h fh)
  | .commit a logged =>
    .ok (w.update a fun x => { x with phase := if logged then .committing else .rollingBack }, none)
  | .rollback a => .ok (w.update a fun x => { x with phase := .rollingBack }, none)
  | .advance a ranges => (w.advance E o a ranges).map fun w => (w, none)
  | .gc i mint minOOOMmapRef => .ok (w.gc i mint minOOOMmapRef, none)

end TopcDB.Tsdb.HeadAppender
