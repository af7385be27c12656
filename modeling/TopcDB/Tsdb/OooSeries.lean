import TopcDB.Tsdb.HeadSeries
import TopcDB.Tsdb.OooHead

/-! # The out-of-order part of a series (`memSeriesOOOFields`)

Samples out of order go to a chunk of their own, which is encoded and written to the mapper when it
is full. The error bound of the options is given to that chunk, but the encoding does not ask for
it. -/

namespace TopcDB.Tsdb.OooSeries

open Go.Basic Chunkenc CLChunk Chunk Huffman HeadSeries OooHead
open Storage.Merge (minInt64)
open Storage.Series (maxInt64)

variable {F H FH A FA : Type}

structure OOOHeadChunk (H FH : Type) where
  chunk : OOOChunk H FH
  minTime : I64
  maxTime : I64

structure OOOFields (H FH : Type) where
  oooMmappedChunks : List MmappedChunk
  oooHeadChunk : Option (OOOHeadChunk H FH)
  firstOOOChunkID : ℕ

def oooChunkIDMask : ℕ := 2 ^ 23

variable (E : Env F H FH A FA)

/-- `Chunk.NumSamples`, of a chunk without its appender. -/
def numSamplesOf : AnyChunk A FA → ℕ
  | .cl b => numSamples b.stream
  | .histogram a => E.histSamples a
  | .floatHistogram a => E.fhistSamples a

namespace OOOFields

/-- The loop of `mmapCurrentOOOHeadChunk`: chunks beyond the number that can be referred to are
dropped. -/
def writeLoop : List (OooHead.MemChunk A FA) → List MmappedChunk × Mapper A FA × List ℕ →
    List MmappedChunk × Mapper A FA × List ℕ
  | [], p => p
  | c :: cs, (mmapped, mapper, refs) =>
    if oooChunkIDMask - 1 ≤ mmapped.length then (mmapped, mapper, refs)
    else
      let m : MmappedChunk :=
        ⟨mapper.length, BitVec.ofNat 16 (numSamplesOf E c.chunk), c.minTime, c.maxTime⟩
      writeLoop cs (mmapped ++ [m], mapper ++ [c.chunk], refs ++ [mapper.length])

variable (s : OOOFields H FH)

/-- **`mmapCurrentOOOHeadChunk`**, with the references of the chunks that were written. -/
def mmapCurrentOOOHeadChunk (mapper : Mapper A FA) (ranges : Ranges) :
    Except Fault (OOOFields H FH × Mapper A FA × List ℕ) :=
  match s.oooHeadChunk with
  | none => .ok (s, mapper, [])
  | some c => do
    let chks ← c.chunk.toEncodedChunks E.ext ranges E.hist E.fhist minInt64 maxInt64
    let (mmapped, mapper, refs) := writeLoop E chks (s.oooMmappedChunks, mapper, [])
    .ok ({ s with oooMmappedChunks := mmapped, oooHeadChunk := none }, mapper, refs)

/-- **`cutNewOOOHeadChunk`.** -/
def cutNewOOOHeadChunk (mapper : Mapper A FA) (ranges : Ranges) (mint : I64) (errbound : ℚ) :
    Except Fault (OOOHeadChunk H FH × OOOFields H FH × Mapper A FA × List ℕ) := do
  let (s, mapper, refs) ← s.mmapCurrentOOOHeadChunk E mapper ranges
  let c : OOOHeadChunk H FH := ⟨newOOOChunkWithErrorBound errbound, mint, minInt64⟩
  .ok (c, { s with oooHeadChunk := some c }, mapper, refs)

/-- What `memSeries.insert` returns: whether the sample was inserted and a chunk created, and the
references of the chunks written. -/
structure Inserted (H FH A FA : Type) where
  ok : Bool
  chunkCreated : Bool
  mmapRefs : List ℕ
  ooo : OOOFields H FH
  mapper : Mapper A FA

/-- The sample is put into the chunk `c`, which is new when `created` says so. -/
def insertInto (c : OOOHeadChunk H FH) (mapper : Mapper A FA) (created : Bool)
    (refs : List ℕ) (t : I64) (v : F) (h : Option H) (fh : Option FH) : Inserted H FH A FA :=
  let (ok, chunk) := c.chunk.insert t (E.value v) h fh
  let c :=
    if ok then
      ⟨chunk, if created || t.slt c.minTime then t else c.minTime,
        if created || c.maxTime.slt t then t else c.maxTime⟩
    else { c with chunk := chunk }
  ⟨ok, created, refs, { s with oooHeadChunk := some c }, mapper⟩

/-- **`memSeries.insert`.** A series without an out-of-order part gets one. -/
def insert (s : Option (OOOFields H FH)) (mapper : Mapper A FA) (oooCapMax : ℕ) (ranges : Ranges)
    (t : I64) (v : F) (h : Option H) (fh : Option FH) (errbound : ℚ) :
    Except Fault (Inserted H FH A FA) :=
  let s := s.getD ⟨[], none, 0⟩
  match s.oooHeadChunk.filter fun c => c.chunk.samples.length ≠ oooCapMax with
  | some c => .ok (s.insertInto E c mapper false [] t v h fh)
  | none => do
    let (c, s, mapper, refs) ← s.cutNewOOOHeadChunk E mapper ranges t errbound
    .ok (s.insertInto E c mapper true refs t v h fh)

/-- `truncateChunksBefore` for the chunks out of order: those up to the reference go, and with the
last a part without a head chunk. -/
def truncate (minOOOMmapRef : ℕ) : Option (OOOFields H FH) → ℕ × Option (OOOFields H FH)
  | none => (0, none)
  | some s =>
    if s.oooMmappedChunks = [] then (0, some s)
    else
      let removed := (s.oooMmappedChunks.takeWhile fun c => c.ref ≤ minOOOMmapRef).length
      let s := { s with
        oooMmappedChunks := s.oooMmappedChunks.drop removed
        firstOOOChunkID := s.firstOOOChunkID + removed }
      (removed,
        if s.oooMmappedChunks.isEmpty && s.oooHeadChunk.isNone then none else some s)

end OOOFields

end TopcDB.Tsdb.OooSeries
