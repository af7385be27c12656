import TopcDB.Storage.MergeOrder
import TopcDB.Storage.Series

/-! # Merging chunk iterators (`CompactChunkIterator`)

The chunk iterators of one series wait in a heap, ordered by the bounds of their current chunks. A
chunk that overlaps no other one is passed on. Chunks that overlap are chained and encoded anew, and
the new chunks but the first go back into the heap. With a split above the default all chunks are
chained and encoded at once.

The iterator only asks a chunk for its bounds, its bytes and its samples, and the encoder is the one
of the package, so both are parameters. -/

namespace TopcDB.Storage.CompactChunk

open Lib.Bits Lib.Heap Go.Basic Chunkenc Chunk Merge
open Series (defaultSeriesToChunkEncoderSplit)

/-- What is asked of a `chunks.Meta`, and `seriesToChunkEncoder.Iterator` for a split and a chained
iterator. -/
structure Chunks (μ σ H FH : Type) where
  minTime : μ → I64
  maxTime : μ → I64
  bytes : μ → List Byte
  iterator : μ → Except Fault σ
  I : Iterator σ H FH
  encode : ℤ → ChainSampleIterator σ → Except Fault (Except (List Err) (List μ))

/-- A chunk iterator: the chunks it delivers, and its error at the end. -/
structure ChunkIterator (μ : Type) where
  chks : List μ
  err : Option Err

/-- The heap holds the iterators at a chunk: this one, and those to come. What
`SetSeriesToChunkEncoderSplit` makes is a list of chunks or an error. -/
structure CompactChunkIterator (μ : Type) where
  iterators : List (ChunkIterator μ)
  h : Option (List (μ × List μ))
  err : List Err
  curr : Option μ
  seriesToChunkEncoderSplit : ℤ
  mergeItr : Option (Except (List Err) (List μ))

/-- The iterator of `NewCompactingChunkSeriesMerger`. -/
def newCompactChunkIterator {μ : Type} (iterators : List (ChunkIterator μ)) :
    CompactChunkIterator μ :=
  ⟨iterators, none, [], none, 0, none⟩

variable {μ σ H FH : Type} (S : Chunks μ σ H FH)

/-- `chunkIteratorHeap.Less`. -/
def less (x y : μ × List μ) : Bool :=
  if S.minTime x.1 = S.minTime y.1 then (S.maxTime x.1).slt (S.maxTime y.1)
  else (S.minTime x.1).slt (S.minTime y.1)

/-- An iterator goes back into the heap if it has another chunk. -/
def pushNext (h : List (μ × List μ)) : List μ → List (μ × List μ)
  | [] => h
  | m :: rest => push (less S) h (m, rest)

/-- The merged series is encoded. Without series `ChainedSeriesMerge` returns nil, on which the
encoder panics. -/
def mergeEncode (split : ℤ) (merging : List μ) : Except Fault (Except (List Err) (List μ)) :=
  if merging.isEmpty then .error .panic
  else do
    let iterators ← merging.mapM S.iterator
    S.encode split (chainSampleIteratorFromIterators iterators)

/-- A perfect duplicate. -/
def duplicate (next prev : μ) : Bool :=
  S.minTime next = S.minTime prev && S.maxTime next = S.maxTime prev && S.bytes next = S.bytes prev

/-- The loop that collects the chunks that overlap the current one. -/
def overlapLoop : ℕ → List (μ × List μ) → List μ → I64 → μ →
    Except Fault (List (μ × List μ) × List μ)
  | 0, _, _, _, _ => .error .hang
  | k + 1, h, overlapping, oMaxTime, prev =>
    match h with
    | [] => .ok ([], overlapping)
    | top :: _ =>
      let next := top.1
      if oMaxTime.slt (S.minTime next) then .ok (h, overlapping)
      else
        match pop (less S) h with
        | none => .error .panic
        | some (it, h) =>
          let h := pushNext S h it.2
          if duplicate S next prev then overlapLoop k h overlapping oMaxTime prev
          else
            overlapLoop k h (overlapping ++ [next])
              (if oMaxTime.slt (S.maxTime next) then S.maxTime next else oMaxTime) next

/-- How many chunks the iterators of a heap have. -/
def pendingChunks (h : List (μ × List μ)) : ℕ := (h.map fun it => it.2.length + 1).sum

namespace CompactChunkIterator

variable (c : CompactChunkIterator μ)

def setSeriesToChunkEncoderSplit (split : ℤ) : Except Fault (CompactChunkIterator μ) :=
  let c := { c with seriesToChunkEncoderSplit := split }
  if defaultSeriesToChunkEncoderSplit < split then
    (mergeEncode S split (c.iterators.flatMap ChunkIterator.chks)).map fun r =>
      { c with
        iterators := c.iterators.map fun it => { it with chks := [] }
        mergeItr := some r }
  else .ok c

/-- The heap, which is filled by the first call of `Next`. -/
def start : List (μ × List μ) :=
  match c.h with
  | some h => h
  | none => c.iterators.foldl (fun h it => pushNext S h it.chks) []

/-- `Next` behind its first lines, with the heap `h`. A split below the default one is the default.
-/
def nextFrom (h : List (μ × List μ)) : Except Fault (Bool × CompactChunkIterator μ) :=
  match pop (less S) h with
  | none => .ok (false, c)
  | some (it, h) => do
    let curr := it.1
    let h := pushNext S h it.2
    let (h, overlapping) ←
      overlapLoop S (pendingChunks h + 1) h [] (S.maxTime curr) curr
    let c := { c with h := some h, curr := some curr }
    if overlapping.isEmpty then return (true, c)
    match ← mergeEncode S defaultSeriesToChunkEncoderSplit (overlapping ++ [curr]) with
    | .error errs => return (false, { c with err := errs })
    | .ok [] => .error .panic
    | .ok (m :: rest) => return (true, { c with h := some (pushNext S h rest), curr := some m })

def next : Except Fault (Bool × CompactChunkIterator μ) :=
  if defaultSeriesToChunkEncoderSplit < c.seriesToChunkEncoderSplit then
    match c.mergeItr with
    | none => .error .panic
    | some (.error errs) => .ok (false, { c with err := errs })
    | some (.ok []) => .ok (false, { c with err := [] })
    | some (.ok (m :: rest)) => .ok (true, { c with curr := some m, mergeItr := some (.ok rest) })
  else c.nextFrom S (c.start S)

/-- `Err`, at the end of all iterators. -/
def errs : List Err := c.iterators.filterMap ChunkIterator.err ++ c.err

/-- The chunks of a loop over `Next`, and the state at its end. -/
def drain : ℕ → CompactChunkIterator μ → Except Fault (List μ × CompactChunkIterator μ)
  | 0, _ => .error .hang
  | k + 1, c =>
    match c.next S with
    | .error fault => .error fault
    | .ok (false, c) => .ok ([], c)
    | .ok (true, c) =>
      match c.curr with
      | none => .error .panic
      | some m => (drain k c).map fun p => (m :: p.1, p.2)

end CompactChunkIterator

end TopcDB.Storage.CompactChunk
