import TopcDB.Chunkenc.HeadChunk
import TopcDB.Storage.Series
import TopcDB.Tsdb.ReadIsolation

/-! # The series of the head (`memSeries`)

A chunk is shared by the list of head chunks and by the appender of the series, so that chunks are
cells of a store and are referred to by their index; a cell holds a chunk with its appender. The
list of head chunks is kept newest first, as the source links it. The chunk mapper is a list to
which chunks are written, referred to by their position.

What the model leaves open are the values of floats, of which only the bits are compared, the codecs
of histograms, and `computeChunkEndTime`, which computes with floats. The order in which `Compact`
visits its maps is an argument of every call that compacts. -/

namespace TopcDB.Tsdb.HeadSeries

open Lib.Assoc Go.Basic Chunkenc CLChunk Chunk Huffman ReadIsolation
open Storage.Merge (minInt64)
open Storage.Series (maxInt64)

variable {F H FH A FA : Type}

/-! ### Data -/

/-- The encodings that the head asks for. -/
inductive Encoding
  | cl
  | histogram
  | floatHistogram
  deriving DecidableEq

/-- What the series takes from outside: the number of samples and of bytes of a histogram chunk
among it. -/
structure Env (F H FH A FA : Type) where
  ext : Extern
  value : F → ℚ
  hist : HistogramCodec H A
  fhist : HistogramCodec FH FA
  histSamples : A → ℕ
  fhistSamples : FA → ℕ
  histBytes : A → ℕ
  fhistBytes : FA → ℕ
  computeChunkEndTime : I64 → I64 → I64 → ℚ → I64

/-- `chunkOpts`. `NewHead` refuses a chunk range below 1. -/
structure ChunkOpts where
  chunkRange : I64
  samplesPerChunk : ℕ
  errorBound : ℚ
  chunkRange_pos : 0 < chunkRange.toInt

/-- `memChunk`, without the link to the older one. -/
structure MemChunk where
  chunk : ℕ
  minTime : I64
  maxTime : I64
  deriving DecidableEq

structure MmappedChunk where
  ref : ℕ
  numSamples : U16
  minTime : I64
  maxTime : I64
  deriving DecidableEq

abbrev Mapper (A FA : Type) := List (AnyChunk A FA)

structure MemSeries (F H FH A FA : Type) where
  ref : ℕ
  cells : List (App A FA)
  mmappedChunks : List MmappedChunk
  headChunks : List MemChunk
  firstChunkID : ℕ
  nextAt : I64
  histogramChunkHasComputedEndTime : Bool
  lastValue : F
  lastHistogramValue : Option H
  lastFloatHistogramValue : Option FH
  app : Option ℕ
  txs : TxRing

/-- `newMemSeries`, where `zero` is the float 0. -/
def newMemSeries (ref : ℕ) (zero : F) : MemSeries F H FH A FA where
  ref := ref
  cells := []
  mmappedChunks := []
  headChunks := []
  firstChunkID := 0
  nextAt := minInt64
  histogramChunkHasComputedEndTime := false
  lastValue := zero
  lastHistogramValue := none
  lastFloatHistogramValue := none
  app := none
  txs := newTxRing 0

/-- `rangeForTimestamp`: the division truncates. -/
def rangeForTimestamp (t width : I64) : I64 := t.sdiv width * width + width

/-! ### Chunks and appenders -/

/-- `Encoding`. -/
def encodingOf : App A FA → Encoding
  | .cl _ => .cl
  | .histogram _ => .histogram
  | .floatHistogram _ => .floatHistogram

def estimatedSize (a : CLAppender) : ℕ :=
  match a.ctype with
  | .sz3 | .machete | .most => a.timestamps.b.stream.length + a.floatBuffer.length
  | .qSimple8b => a.timestamps.b.stream.length + a.encoder.bytes.length
  | _ => a.timestamps.b.stream.length + a.num.toNat

variable (E : Env F H FH A FA)

/-- `Chunk.NumSamples`. -/
def anySamples : AnyChunk A FA → ℕ
  | .cl b => numSamples b.stream
  | .histogram a => E.histSamples a
  | .floatHistogram a => E.fhistSamples a

/-- `NumSamples` of the chunk of an appender. -/
def chunkSamples (a : App A FA) : ℕ := anySamples E a.chunk

/-- `len(Chunk.Bytes())`. -/
def chunkBytes : App A FA → ℕ
  | .cl a => a.b.stream.length
  | .histogram a => E.histBytes a
  | .floatHistogram a => E.fhistBytes a

/-- `NewEmptyChunk` with `Appender`. -/
def newApp : Encoding → App A FA
  | .cl => .cl (appender newCLChunk)
  | .histogram => .histogram E.hist.new
  | .floatHistogram => .floatHistogram E.fhist.new

namespace MemSeries

variable (s : MemSeries F H FH A FA) (o : ChunkOpts) (ranges : Ranges) (t : I64)

/-- The cell of a head chunk. A nil pointer panics. -/
def cell (i : ℕ) : Except Fault (App A FA) :=
  match s.cells[i]? with
  | none => .error .panic
  | some a => .ok a

/-- `s.headChunks`, where it is read from. -/
def newest : Except Fault MemChunk :=
  match s.headChunks with
  | [] => .error .panic
  | c :: _ => .ok c

/-- A field of the newest head chunk is set. -/
def setNewest (c : MemChunk) : MemSeries F H FH A FA :=
  { s with headChunks := c :: s.headChunks.tail }

/-- `s.app`, where it is called. -/
def appCell : Except Fault (App A FA) :=
  match s.app with
  | none => .error .panic
  | some i => s.cell i

/-- `Compact` of the cell `i`, whose error is ignored. -/
def compactCell (i : ℕ) (a : CLAppender) : Except Fault (MemSeries F H FH A FA) :=
  (a.compact E.ext ranges).map fun p => { s with cells := s.cells.set i (.cl p.1) }

/-- `if s.app != nil { s.app.(*chunkenc.CLAppender).Compact() }`. -/
def compactApp : Except Fault (MemSeries F H FH A FA) :=
  match s.app with
  | none => .ok s
  | some i =>
    match s.cells[i]? with
    | some (.cl a) => s.compactCell E ranges i a
    | _ => .error .panic

/-- The compaction of `cutNewHeadChunk`, which checks the type of the appender. -/
def compactOld : Except Fault (MemSeries F H FH A FA) :=
  match s.app with
  | none => .ok s
  | some i =>
    match s.cells[i]? with
    | some (.cl a) => s.compactCell E ranges i a
    | some _ => .ok s
    | none => .error .panic

/-- The beginning of `cutNewHeadChunk`: a new chunk, the newest of the list. -/
def linkChunk (mint : I64) (e : Encoding) (chunkRange : I64) : MemSeries F H FH A FA :=
  { s with
    headChunks := ⟨s.cells.length, mint, minInt64⟩ :: s.headChunks
    cells := s.cells ++ [newApp E e]
    nextAt := rangeForTimestamp mint chunkRange }

/-- **`cutNewHeadChunk`.** The new chunk is linked before the old one is compacted. The error bound
is an argument that is not used. -/
def cutNewHeadChunk (mint : I64) (e : Encoding) (chunkRange : I64) (_errbound : ℚ) :
    Except Fault (MemSeries F H FH A FA) := do
  let i := s.cells.length
  let s ← (s.linkChunk E mint e chunkRange).compactOld E ranges
  -- the assertion that the new appender is one of a CL chunk
  match s.cells[i]? with
  | some (.cl a) =>
    .ok { s with cells := s.cells.set i (.cl (a.setCompressType .qSimple8b)), app := some i }
  | _ => .error .panic

/-! ### Floats -/

/-- The beginning of both preprocessors: a series without head chunks gets one, unless its m-mapped
chunks reach `t`. Whether one was created, or nothing for a sample out of order. -/
def openHead (e : Encoding) : Except Fault (Option (MemSeries F H FH A FA × Bool)) :=
  match s.headChunks with
  | _ :: _ => .ok (some (s, false))
  | [] =>
    if s.mmappedChunks.getLast?.any fun c => t.sle c.maxTime then .ok none
    else (s.cutNewHeadChunk E ranges t e o.chunkRange o.errorBound).map fun s => some (s, true)

/-- A new chunk is cut when `cond` holds. -/
def cutIf (e : Encoding) (created cond : Bool) : Except Fault (MemSeries F H FH A FA × Bool) :=
  if cond then
    (s.cutNewHeadChunk E ranges t e o.chunkRange o.errorBound).map fun s => (s, true)
  else .ok (s, created)

/-- `maxBytesPerXORChunk` of `appendPreprocessor`. -/
def maxBytesPerXORChunk : ℕ := 32768 - 19

/-- The size of the newest chunk as `appendPreprocessor` takes it, and whether the appender is one
of a CL chunk. -/
def chunkSize : Except Fault (ℕ × Bool) := do
  let c ← s.newest
  let a ← s.cell c.chunk
  match s.app with
  | none => .ok (chunkBytes E a, false)
  | some i =>
    match ← s.cell i with
    | .cl b => .ok (estimatedSize b, true)
    | _ => .ok (chunkBytes E a, false)

/-- The number of samples as `appendPreprocessor` takes it: that of the appender if it was one of a
CL chunk before any cut. -/
def appSamples (ok : Bool) : Except Fault ℕ := do
  let c ← s.newest
  let a ← s.cell c.chunk
  if ok then
    match ← s.appCell with
    | .cl b => .ok b.num.toNat
    | _ => .error .panic
  else .ok (chunkSamples E a)

/-- The first sample sets the beginning of the chunk. -/
def startTimes (numSamples : ℕ) : Except Fault (MemSeries F H FH A FA) := do
  let c ← s.newest
  if numSamples = 0 then
    .ok { s.setNewest { c with minTime := t } with nextAt := rangeForTimestamp t o.chunkRange }
  else .ok s

/-- At a quarter of the samples the end of the chunk is predicted. -/
def predictEnd (numSamples : ℕ) : Except Fault (MemSeries F H FH A FA) := do
  let c ← s.newest
  if numSamples = o.samplesPerChunk / 4 then
    .ok { s with nextAt := E.computeChunkEndTime c.minTime c.maxTime s.nextAt 4 }
  else .ok s

/-- The end of `appendPreprocessor`; `ok` says that the appender was one of a CL chunk. -/
def planFloat (e : Encoding) (created ok : Bool) :
    Except Fault (Bool × Bool × MemSeries F H FH A FA) := do
  let a ← s.cell (← s.newest).chunk
  let (s, created) ← s.cutIf E o ranges t e created (encodingOf a ≠ e)
  let numSamples ← s.appSamples E ok
  let s ← s.startTimes o t numSamples
  let s ← s.predictEnd E o numSamples
  let (s, created) ← s.cutIf E o ranges t e created
    (s.nextAt.sle t || o.samplesPerChunk * 2 ≤ numSamples)
  .ok (true, created, s)

/-- **`appendPreprocessor`**: whether the sample is in order and a chunk was created, and the
series, whose newest chunk takes the sample. -/
def appendPreprocessor (e : Encoding) : Except Fault (Bool × Bool × MemSeries F H FH A FA) := do
  match ← s.openHead E o ranges t e with
  | none => .ok (false, false, s)
  | some (s, created) =>
    if t.sle (← s.newest).maxTime then .ok (false, created, s)
    else
      let (size, ok) ← s.chunkSize E
      let (s, created) ← s.cutIf E o ranges t e created (!created && maxBytesPerXORChunk < size)
      s.planFloat E o ranges t e created ok

/-- The ring gets the id of an append with isolation. -/
def addTx (appendID : ℕ) : MemSeries F H FH A FA :=
  if 0 < appendID then { s with txs := s.txs.add appendID } else s

/-- **`append`**: whether the sample is in order, and whether a chunk was created. -/
def append (v : F) (appendID : ℕ) : Except Fault (Bool × Bool × MemSeries F H FH A FA) := do
  let (sampleInOrder, created, s) ← s.appendPreprocessor E o ranges t .cl
  if !sampleInOrder then .ok (false, created, s)
  else
    match s.app, ← s.appCell with
    | some i, .cl a =>
      let a ← a.append t (E.value v)
      let s := { s with cells := s.cells.set i (.cl a) }
      let c ← s.newest
      let s := s.setNewest { c with maxTime := t }
      let s := { s with
        lastValue := v, lastHistogramValue := none, lastFloatHistogramValue := none }
      .ok (true, created, s.addTx appendID)
    | _, _ => .error .panic

/-! ### Histograms -/

def targetBytesPerHistogramChunk : ℕ := 1024

def minSamplesPerHistogramChunk : ℕ := 10

/-- The end of `histogramsAppendPreprocessor`, for the newest chunk of the asked encoding. -/
def planHistogram (e : Encoding) (created : Bool) :
    Except Fault (Bool × Bool × MemSeries F H FH A FA) := do
  let a ← s.cell (← s.newest).chunk
  let numSamples := chunkSamples E a
  let numBytes := chunkBytes E a
  let s ← s.startTimes o t numSamples
  let c ← s.newest
  let nextChunkRangeStart :=
    if s.histogramChunkHasComputedEndTime then rangeForTimestamp c.minTime o.chunkRange
    else s.nextAt
  let s :=
    if !s.histogramChunkHasComputedEndTime && targetBytesPerHistogramChunk / 4 ≤ numBytes then
      { s with
        nextAt := E.computeChunkEndTime c.minTime c.maxTime s.nextAt
          (targetBytesPerHistogramChunk / numBytes)
        histogramChunkHasComputedEndTime := true }
    else s
  let (s, created) ← s.cutIf E o ranges t e created
    ((s.nextAt.sle t || targetBytesPerHistogramChunk * 2 ≤ numBytes) &&
      (minSamplesPerHistogramChunk ≤ numSamples || nextChunkRangeStart.sle t))
  .ok (true, created, if created then { s with histogramChunkHasComputedEndTime := false } else s)

def histogramsAppendPreprocessor (e : Encoding) :
    Except Fault (Bool × Bool × MemSeries F H FH A FA) := do
  match ← s.openHead E o ranges t e with
  | none => .ok (false, false, s)
  | some (s, created) =>
    if t.sle (← s.newest).maxTime then .ok (false, created, s)
    else
      let a ← s.cell (← s.newest).chunk
      let (s, created) ← s.cutIf E o ranges t e created (encodingOf a ≠ e)
      s.planHistogram E o ranges t e created

/-- What `appendHistogram` and `appendFloatHistogram` share: `select` finds the appenders of their
kind, the others panic, and `setLast` sets the last value. -/
def appendKind {V B : Type} (select : App A FA → Option B) (wrap : B → App A FA)
    (codec : HistogramCodec V B) (e : Encoding)
    (setLast : MemSeries F H FH A FA → V → MemSeries F H FH A FA) (s : MemSeries F H FH A FA)
    (o : ChunkOpts) (ranges : Ranges) (t : I64) (h : V) (appendID : ℕ) :
    Except Fault (Bool × Bool × MemSeries F H FH A FA) := do
  let prevApp := (s.app.bind fun i => s.cells[i]?).bind select
  let (sampleInOrder, created, s) ← s.histogramsAppendPreprocessor E o ranges t e
  if !sampleInOrder then .ok (false, created, s)
  else
    match s.app, select (← s.appCell) with
    | some i, some b =>
      -- the appender before is of use for a new chunk only
      let (b, new) := codec.append (if created then prevApp else none) b t h
      let s : MemSeries F H FH A FA := { s with cells := s.cells.set i (wrap b) }
      let s := (setLast s h).addTx appendID
      let c ← s.newest
      match new with
      | none => .ok (true, created, s.setNewest { c with maxTime := t })
      | some (n, true) =>
        let s := s.setNewest { c with chunk := s.cells.length, maxTime := t }
        .ok (true, false, { s with cells := s.cells ++ [wrap n], app := some s.cells.length })
      | some (n, false) =>
        .ok (true, true, { s with
          headChunks := ⟨s.cells.length, t, t⟩ :: s.headChunks
          cells := s.cells ++ [wrap n]
          app := some s.cells.length
          nextAt := rangeForTimestamp t o.chunkRange })
    | _, _ => .error .panic

def appendHistogram (h : H) (appendID : ℕ) : Except Fault (Bool × Bool × MemSeries F H FH A FA) :=
  appendKind E (fun | .histogram a => some a | _ => none) .histogram E.hist .histogram
    (fun s h => { s with lastHistogramValue := some h, lastFloatHistogramValue := none })
    s o ranges t h appendID

def appendFloatHistogram (fh : FH) (appendID : ℕ) :
    Except Fault (Bool × Bool × MemSeries F H FH A FA) :=
  appendKind E (fun | .floatHistogram a => some a | _ => none) .floatHistogram E.fhist
    .floatHistogram
    (fun s fh => { s with lastHistogramValue := none, lastFloatHistogramValue := some fh })
    s o ranges t fh appendID

/-! ### M-mapping and truncation -/

/-- The loop of `mmapChunks` over the chunks to write, oldest first. -/
def mmapLoop : List MemChunk → MemSeries F H FH A FA × Mapper A FA →
    Except Fault (MemSeries F H FH A FA × Mapper A FA)
  | [], p => .ok p
  | chk :: chks, (s, mapper) => do
    let a ← s.cell chk.chunk
    let m : MmappedChunk :=
      ⟨mapper.length, BitVec.ofNat 16 (chunkSamples E a), chk.minTime, chk.maxTime⟩
    mmapLoop chks ({ s with mmappedChunks := s.mmappedChunks ++ [m] }, mapper ++ [a.chunk])

/-- **`mmapChunks`**: all head chunks but the newest are written. -/
def mmapChunks (mapper : Mapper A FA) : Except Fault (MemSeries F H FH A FA × Mapper A FA) :=
  (mmapLoop E s.headChunks.tail.reverse (s, mapper)).map fun p =>
    ({ p.1 with headChunks := p.1.headChunks.take 1 }, p.2)

/-- **`truncateChunksBefore`** in order: the newest head chunk that ends before `mint` goes with all
older ones and all m-mapped ones; without one, the m-mapped chunks up to the first that reaches
`mint` go. -/
def truncateChunksBefore (mint : I64) : ℕ × MemSeries F H FH A FA :=
  let kept := s.headChunks.takeWhile fun c => !c.maxTime.slt mint
  if kept.length < s.headChunks.length then
    let removed := s.headChunks.length - kept.length + s.mmappedChunks.length
    (removed, { s with
      headChunks := kept, mmappedChunks := [], firstChunkID := s.firstChunkID + removed })
  else
    let removed := (s.mmappedChunks.takeWhile fun c => c.maxTime.slt mint).length
    (removed, { s with
      mmappedChunks := s.mmappedChunks.drop removed, firstChunkID := s.firstChunkID + removed })

/-- **`resetSeriesWithMMappedChunks`**, with the m-mapped chunks that were found for the series. -/
def resetSeriesWithMMappedChunks (mmc : List MmappedChunk) : MemSeries F H FH A FA :=
  { s with mmappedChunks := mmc, nextAt := 0, headChunks := [], app := none }

/-! ### Admission -/

def maxTime : I64 :=
  match s.headChunks, s.mmappedChunks.getLast? with
  | c :: _, _ => c.maxTime
  | [], some m => m.maxTime
  | [], none => minInt64

def minTime : I64 :=
  match s.mmappedChunks, s.headChunks.getLast? with
  | m :: _, _ => m.minTime
  | [], some c => c.minTime
  | [], none => minInt64

inductive AppendErr (F : Type)
  | duplicateHistogramToFloat (t : I64) (v : F)
  | duplicateFloat (t : I64) (existing v : F)
  | tooOldSample
  | outOfBounds
  | outOfOrderSample

/-- The end of `appendable`, for samples that cannot go in the in-order chunk. -/
def appendableOOO (t headMaxt minValidTime oooTimeWindow : I64) :
    Bool × I64 × Option (AppendErr F) :=
  if (0 : I64).slt oooTimeWindow && (headMaxt - oooTimeWindow).sle t then (true, headMaxt - t, none)
  else if (0 : I64).slt oooTimeWindow then (true, headMaxt - t, some .tooOldSample)
  else if t.slt minValidTime then (false, headMaxt - t, some .outOfBounds)
  else (false, headMaxt - t, some .outOfOrderSample)

/-- **`appendable`**: whether the sample is out of order, by how much, and the error. The values are
compared by their bits. -/
def appendable [DecidableEq F] (s : MemSeries F H FH A FA) (t : I64) (v : F)
    (headMaxt minValidTime oooTimeWindow : I64) : Bool × I64 × Option (AppendErr F) :=
  if minValidTime.sle t then
    if s.headChunks = [] then (false, 0, none)
    else if s.maxTime.slt t then (false, 0, none)
    else if t = s.maxTime then
      if s.lastHistogramValue.isSome || s.lastFloatHistogramValue.isSome then
        (false, 0, some (.duplicateHistogramToFloat t v))
      else if s.lastValue ≠ v then (false, 0, some (.duplicateFloat t s.lastValue v))
      else (false, 0, none)
    else appendableOOO t headMaxt minValidTime oooTimeWindow
  else appendableOOO t headMaxt minValidTime oooTimeWindow

/-! ### Reads -/

structure ChunkRead (A FA : Type) where
  chunk : AnyChunk A FA
  minTime : I64
  maxTime : I64
  headChunk : Bool
  isOpen : Bool

/-- **`chunk`**: the chunk with the given id, none when it is not found. A reference that the mapper
does not know is a corruption. -/
def chunk (mapper : Mapper A FA) (ranges : Ranges) (id : ℕ) :
    Except Fault (Option (ChunkRead A FA) × MemSeries F H FH A FA) :=
  let ix : ℤ := (id : ℤ) - s.firstChunkID
  if ix < 0 ∨ (s.mmappedChunks.length : ℤ) + s.headChunks.length - 1 < ix then .ok (none, s)
  else
    match s.mmappedChunks[ix.toNat]? with
    | some m =>
      match mapper[m.ref]? with
      | none => .error .panic
      | some b => .ok (some ⟨b, m.minTime, m.maxTime, false, false⟩, s)
    | none => do
      let offset := s.headChunks.length - (ix.toNat - s.mmappedChunks.length) - 1
      let s ← s.compactApp E ranges
      match s.headChunks[offset]? with
      | none => .ok (none, s)
      | some c =>
        let a ← s.cell c.chunk
        .ok (some ⟨a.chunk, c.minTime, c.maxTime, true, offset = 0⟩, s)

/-- A chunk as `iterator` gets it: a head chunk, which its appender still writes to, or one that was
read from the mapper. -/
inductive ChunkPtr (A FA : Type)
  | cell (i : ℕ)
  | mapped (c : AnyChunk A FA)

/-- The chunk at the moment. -/
def deref : ChunkPtr A FA → Except Fault (AnyChunk A FA)
  | .cell i => (s.cell i).map App.chunk
  | .mapped c => .ok c

/-- What `Chunk.Iterator` gives. A CL chunk of an unknown codec has a nil iterator; the iterators of
histograms do not look at the chunk when they are made. -/
inductive Opened (A FA : Type)
  | cl (it : Option CLIterator)
  | histogram (a : A)
  | floatHistogram (a : FA)

def openChunk (order : RangeOrder (U64 × I64)) : AnyChunk A FA → Except Fault (Opened A FA)
  | .cl b => (reset E.ext order b.stream).map .cl
  | .histogram a => .ok (.histogram a)
  | .floatHistogram a => .ok (.floatHistogram a)

/-- The iterators of `iterator`: `nopIterator`, that of the chunk and a `stopIterator` around it. -/
inductive ChunkIterator (A FA : Type)
  | nop
  | all (it : Opened A FA)
  | stop (it : Opened A FA) (stopAfter : ℕ)

/-- **`iterator`** for the chunk `c` with the given id. The samples are counted before the appender
is compacted, the chunk is opened afterwards. -/
def iterator (order : RangeOrder (U64 × I64)) (id : ℕ) (c : ChunkPtr A FA)
    (isoState : Option IsolationState) :
    Except Fault (ChunkIterator A FA × MemSeries F H FH A FA) := do
  let numSamples := anySamples E (← s.deref c)
  let s ← s.compactApp E ranges
  let counts ← s.headChunks.mapM fun c => (s.cell c.chunk).map (chunkSamples E)
  let stop ← stopAfter s.txs (s.mmappedChunks.map fun m => m.numSamples.toNat) counts s.firstChunkID
    id numSamples isoState
  if stop = 0 then .ok (.nop, s)
  else
    let it ← openChunk E order (← s.deref c)
    .ok (if stop = numSamples then .all it else .stop it stop, s)

/-- The newest chunk in a snapshot record, with the last value of its kind. -/
structure SnapshotChunk (F H FH A FA : Type) where
  minTime : I64
  maxTime : I64
  chunk : AnyChunk A FA
  last : F ⊕ H ⊕ FH

/-- `encodeToSnapshotRecord`, up to the bytes of the record: encoding a nil histogram panics. -/
def encodeToSnapshotRecord :
    Except Fault (Option (SnapshotChunk F H FH A FA) × MemSeries F H FH A FA) := do
  let s ← s.compactApp E ranges
  match s.headChunks with
  | [] => .ok (none, s)
  | c :: _ =>
    let a ← s.cell c.chunk
    match a, s.lastHistogramValue, s.lastFloatHistogramValue with
    | .cl _, _, _ => .ok (some ⟨c.minTime, c.maxTime, a.chunk, .inl s.lastValue⟩, s)
    | .histogram _, some h, _ => .ok (some ⟨c.minTime, c.maxTime, a.chunk, .inr (.inl h)⟩, s)
    | .floatHistogram _, _, some fh =>
      .ok (some ⟨c.minTime, c.maxTime, a.chunk, .inr (.inr fh)⟩, s)
    | _, _, _ => .error .panic

/-! ### The list of chunks -/

def newHeadChunkRef (hsr chunkID : ℕ) : Except Fault ℕ :=
  if 2 ^ 40 ≤ hsr ∨ 2 ^ 24 ≤ chunkID then .error .panic else .ok (hsr * 2 ^ 24 + chunkID)

/-- `unpackHeadChunkRef`: the series, the chunk, and whether it is one out of order. -/
def unpackHeadChunkRef (ref : ℕ) : ℕ × ℕ × Bool :=
  (ref / 2 ^ 24, ref % 2 ^ 24 % 2 ^ 23, decide (2 ^ 23 ≤ ref % 2 ^ 24))

/-- `chunks.Meta`. -/
structure Meta where
  minTime : I64
  maxTime : I64
  ref : ℕ
  deriving DecidableEq

def overlapsClosedInterval (mint1 maxt1 mint2 maxt2 : I64) : Bool :=
  mint1.sle maxt2 && mint2.sle maxt1

/-- The loops of `appendSeriesChunks` over chunks with their times, the times listed and the
position of the first. -/
def listChunks (s : MemSeries F H FH A FA) (mint maxt : I64) :
    ℕ → List ((I64 × I64) × I64) → Except Fault (List Meta)
  | _, [] => .ok []
  | pos, ((minTime, maxTime), listed) :: cs => do
    let ms ← listChunks s mint maxt (pos + 1) cs
    if overlapsClosedInterval minTime maxTime mint maxt then
      let ref ← newHeadChunkRef s.ref (s.firstChunkID + pos)
      .ok (⟨minTime, listed, ref⟩ :: ms)
    else .ok ms

/-- The head chunks oldest first; the newest one is listed as open. -/
def headTimes : List ((I64 × I64) × I64) :=
  match s.headChunks with
  | [] => []
  | c :: cs => (cs.reverse.map fun c => ((c.minTime, c.maxTime), c.maxTime)) ++
    [((c.minTime, c.maxTime), maxInt64)]

/-- **`appendSeriesChunks`.** -/
def appendSeriesChunks (mint maxt : I64) : Except Fault (List Meta) := do
  let mmapped ← s.listChunks mint maxt 0
    (s.mmappedChunks.map fun m => ((m.minTime, m.maxTime), m.maxTime))
  let head ← s.listChunks mint maxt s.mmappedChunks.length s.headTimes
  .ok (mmapped ++ head)

end MemSeries

/-- A head for rational numbers and histograms without content, which ends chunks where their range
does. -/
def plainEnv : Env ℚ Unit Unit Unit Unit where
  ext := default
  value := id
  hist := default
  fhist := default
  histSamples := fun _ => 0
  fhistSamples := fun _ => 0
  histBytes := fun _ => 0
  fhistBytes := fun _ => 0
  computeChunkEndTime := fun _ _ max _ => max

/-- The default options, with the given error bound. -/
def plainOpts (errorBound : ℚ) : ChunkOpts := ⟨7200000, 120, errorBound, by decide⟩

end TopcDB.Tsdb.HeadSeries
