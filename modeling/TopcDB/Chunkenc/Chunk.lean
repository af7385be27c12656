import TopcDB.Chunkenc.CLChunk

/-! # Chunks of any encoding and their iterators (`Chunk`, `Iterator`)

Floats are kept in CL chunks. The codecs of histograms are left open: the model only knows that an
appender of theirs takes a sample and may start another chunk. -/

namespace TopcDB.Chunkenc.Chunk

open Go.Basic Bstream CLChunk

/-! ### Chunks -/

/-- What the encoding takes from a histogram codec: a new appender with its chunk, and the append of
a sample, given the appender before if it is of this kind. It may start another chunk, to which the
samples so far are moved when it is a recoded one. -/
structure HistogramCodec (V A : Type) where
  new : A
  append : Option A → A → I64 → V → A × Option (A × Bool)
  deriving Inhabited

/-- An appender with its chunk. -/
inductive App (A FA : Type)
  | cl (a : CLAppender)
  | histogram (a : A)
  | floatHistogram (a : FA)

/-- A chunk. Those of histograms are what their appenders make of them. -/
inductive AnyChunk (A FA : Type)
  | cl (b : BStream)
  | histogram (a : A)
  | floatHistogram (a : FA)
  deriving DecidableEq

def App.chunk {A FA : Type} : App A FA → AnyChunk A FA
  | cl a => .cl a.b
  | histogram a => .histogram a
  | floatHistogram a => .floatHistogram a

/-! ### Iterators -/

inductive ValueType
  | none
  | float
  | histogram
  | floatHistogram
  deriving DecidableEq

/-- `chunkenc.Iterator` over the states `σ`; `cl` is the type assertion to `*CLIterator`. -/
structure Iterator (σ H FH : Type) where
  next : σ → Except Fault (ValueType × σ)
  seek : σ → I64 → Except Fault (ValueType × σ)
  atFloat : σ → Except Fault (I64 × ℚ)
  atHistogram : σ → Except Fault (I64 × H)
  atFloatHistogram : σ → Except Fault (I64 × FH)
  atT : σ → I64
  err : σ → Option Err
  cl : σ → Option CLIterator

def seekLoop (t : I64) : ℕ → CLIterator → Except Fault (ValueType × CLIterator)
  | 0, _ => .error .hang
  | k + 1, it =>
    if it.t.slt t ∨ it.numRead = 0 then
      match it.next with
      | .error fault => .error fault
      | .ok (false, it) => .ok (.none, it)
      | .ok (true, it) => seekLoop t k it
    else .ok (.float, it)

/-- `CLIterator.Seek`. An iterator has at most as many samples before it as it has in total. -/
def seek (it : CLIterator) (t : I64) : Except Fault (ValueType × CLIterator) :=
  if it.err.isSome then .ok (.none, it) else seekLoop t (it.numTotal + 1) it

/-- An iterator over a CL chunk. -/
def clIterator (H FH : Type) : Iterator CLIterator H FH where
  next it := it.next.map fun p => (if p.1 then .float else .none, p.2)
  seek := seek
  atFloat it := .ok (it.t, it.val)
  atHistogram _ := .error .panic
  atFloatHistogram _ := .error .panic
  atT it := it.t
  err it := it.err
  cl it := some it

end TopcDB.Chunkenc.Chunk
