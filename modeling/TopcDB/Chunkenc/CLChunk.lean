import TopcDB.Chunkenc.BitPacking
import TopcDB.Chunkenc.CLMeta
import TopcDB.Chunkenc.Huffman
import TopcDB.Chunkenc.Simplebits
import TopcDB.Chunkenc.Timestamps

/-! # CL chunks (`CLChunk`, `CLAppender`, `CLIterator`)

A chunk is a byte stream. Its appender keeps the timestamps and the coded differences of the
quantised values in buffers of its own and only counts the samples in the stream; `Compact` writes
the header, the timestamps and the payload of the appender's codec. The appender holds a pointer to
the stream of the chunk, which is why its state carries the stream. -/

namespace TopcDB.Chunkenc.CLChunk

open Lib.Bits Lib.Assoc Go.Basic Bstream Timestamps Zigzag Simple8b Simple8bStream Huffman
open BitSelectors Simplebits BitPacking CLMeta

/-- `DefaultCtype`, which only a command line flag of a test tool changes. -/
def defaultCtype : CompressType := .huffman

/-- `DefaultErrbound`, as the codec above. -/
def defaultErrbound : ℚ := 1 / 100

/-- What comes from outside: the logarithm of the cost estimate, and SZ3, MOST and Machete, which
compress the values themselves. -/
structure Extern where
  log2 : ℚ → ℚ
  szCompress : List ℚ → ℚ → ℕ → List Byte
  szDecompress : List Byte → ℕ → List ℚ
  mostCompress : List ℚ → ℚ → List Byte
  mostDecompress : List Byte → ℚ → List ℚ
  macheteCompress : List ℚ → ℚ → List Byte
  macheteDecompress : List Byte → ℕ → List ℚ
  deriving Inhabited

def sz3MinChunkSize : ℕ := 1000

/-- A new chunk: an empty header. -/
def newCLChunk : BStream := ⟨List.replicate clHeaderSize 0#8, 0⟩

/-- `NumSamples`, for a stream that holds the counter. -/
def numSamples (b : List Byte) : ℕ := beNat (b.take 2)

/-! ### The appender -/

structure CLAppender where
  b : BStream
  timestamps : TimestampsDoD
  v : I64
  num : U16
  ctype : CompressType
  errbound : ℚ
  encoder : Simple8bEncoder
  integerBuffer : List I64
  intDeltaBuffer : List U64
  floatBuffer : List ℚ
  maxBits : ℕ
  bitCounters : Option (List BitCounter)
  bitSelectors : Option (List BitSelector)
  deriving DecidableEq

/-- `CLChunk.Appender`, whose buffers are empty whatever the chunk holds. -/
def appender (chunk : BStream) : CLAppender where
  b := chunk
  timestamps := ⟨⟨[], 0⟩, 0, 0, 0⟩
  v := 0
  num := 0
  ctype := defaultCtype
  errbound := defaultErrbound
  encoder := newSimple8bEncoder
  integerBuffer := []
  intDeltaBuffer := []
  floatBuffer := []
  maxBits := 0
  bitCounters := none
  bitSelectors := none

/-- How a value is quantised: rounded to the nearest multiple of twice the error bound. -/
def quantize (errbound v : ℚ) : I64 :=
  if 0 ≤ v then int64OfFloat (v / (2 * errbound) + 1 / 2)
  else int64OfFloat (v / (2 * errbound) - 1 / 2)

namespace CLAppender

def setErrorBound (a : CLAppender) (errbound : ℚ) : CLAppender := { a with errbound := errbound }

def setCompressType (a : CLAppender) (ctype : CompressType) : CLAppender :=
  { a with ctype := ctype }

end CLAppender

/-- The package variables that `Appender` reads. -/
structure Defaults where
  ctype : CompressType
  errbound : ℚ

/-- Their initial values. -/
instance : Inhabited Defaults := ⟨⟨defaultCtype, defaultErrbound⟩⟩

/-- `CLChunk.Appender` under given values of the package variables. -/
def appenderOf (d : Defaults) (chunk : BStream) : CLAppender :=
  ((appender chunk).setErrorBound d.errbound).setCompressType d.ctype

namespace CLAppender

variable (a : CLAppender)

/-- The first lines of `Append` and `AppendQuantizer`: the timestamp is written, and the counter in
the stream is raised. -/
def stamp (t : I64) : Except Fault CLAppender :=
  if a.b.stream.length < 2 then .error .panic
  else
    let num := BitVec.ofNat 16 (numSamples a.b.stream) + 1
    .ok
      { a with
        timestamps := append a.timestamps t
        num := num
        b := { a.b with stream := beBytes 2 num.toNat ++ a.b.stream.drop 2 } }

/-- The steps 2 and 3 of `Append` and `AppendQuantizer`. The error of `Write` is ignored. -/
def pushDelta (f2i : I64) : CLAppender :=
  let fdelta := f2i - a.v
  let a := { a with v := f2i }
  match a.ctype with
  | .pFor => { a with integerBuffer := a.integerBuffer ++ [fdelta] }
  | .qSimple8b => { a with encoder := (a.encoder.write (zigzag fdelta)).1 }
  | .auto | .simplebits | .bitPacking | .varint | .huffman =>
    { a with intDeltaBuffer := a.intDeltaBuffer ++ [zigzag fdelta] }
  | _ => a

def append (t : I64) (v : ℚ) : Except Fault CLAppender :=
  (a.stamp t).map fun a =>
    match a.ctype with
    | .machete | .most | .sz3 => { a with floatBuffer := a.floatBuffer ++ [v] }
    | _ => a.pushDelta (quantize a.errbound v)

def appendQuantizer (t v : I64) : Except Fault CLAppender :=
  (a.stamp t).map fun a => a.pushDelta v

/-! ### Estimates of `Auto` -/

/-- One turn of the loop over the sorted keys: the largest widths so far, the last key and its
frequency. -/
def metaStep (freqMap : TimesTab) (st : ℕ × ℕ × U64 × I64) (key : U64) : ℕ × ℕ × U64 × I64 :=
  let (max1, max2, lastKey, lastFreq) := st
  let freq := timesOf freqMap key
  (max max1 (bitWidth (key - lastKey)),
    max max2 (bitWidth (if lastFreq.slt freq then freq - lastFreq else lastFreq - freq)), key, freq)

variable (ext : Extern) (ranges : Ranges)

def estimateHuffmanSize (buffer : List U64) : ℤ :=
  if buffer.length = 0 then maxInt
  else
    let freqMap := countTimes buffer
    let entropy := ((ranges 0).visit freqMap.entries).foldl
      (fun e p => if 0 < p.2.toInt then e - p.2.toInt * ext.log2 (p.2.toInt / buffer.length) else e)
      (0 : ℚ)
    let keys := sortedKeys (ranges 1) freqMap
    let (max1, max2, _, _) := keys.foldl (metaStep freqMap) (0, 0, 0, 0)
    ⌈entropy / 8⌉ + ((max1 + max2 + 1) * keys.length / 8 : ℕ)

/-- The proportion of the values with widths from `i` to `j`. -/
def proportion (bitCounters : List BitCounter) (i j : ℕ) : ℚ :=
  (List.range' i (j + 1 - i)).foldl (fun p k => p + (bitCounters.getD k default).proportion) 0

/-- The statistics are computed once. -/
def withCounters : CLAppender :=
  match a.bitCounters with
  | some _ => a
  | none =>
    { a with
      bitCounters := some (bitStatistics a.intDeltaBuffer).1
      maxBits := (bitStatistics a.intDeltaBuffer).2 }

/-- The selectors and their cost, from the statistics. -/
def plan : List BitSelector × ℤ :=
  BitSelectors.bitSelectors (a.bitCounters.getD []) maxSegmentsNum a.maxBits a.intDeltaBuffer.length

/-- The selectors are computed once. -/
def withSelectors : CLAppender :=
  match a.bitSelectors with
  | some _ => a
  | none => { a with bitSelectors := some a.plan.1 }

variable (a : CLAppender)

/-- The choice of `Auto` from the statistics. The payload is already there when it is QSimple8b. -/
def chooseCodec : CLAppender × Except Err (List Byte) :=
  let counters := a.bitCounters.getD []
  let p8bits := proportion counters 1 8
  let p12bits := p8bits + proportion counters 9 12
  if 99 / 100 < p8bits then ({ a with ctype := .huffman }, .ok [])
  else if 4 / 5 < p8bits ∧ 19 / 20 < p12bits then
    ({ a with ctype := .qSimple8b }, encodeAll a.intDeltaBuffer)
  else
    let huffmanCost := estimateHuffmanSize ext ranges a.intDeltaBuffer
    let a := { a with bitSelectors := some a.plan.1 }
    if huffmanCost < a.plan.2 then ({ a with ctype := .huffman }, .ok [])
    else ({ a with ctype := .simplebits }, .ok [])

/-! ### `Compact` -/

/-- The first part of `Compact`: the payload of the Simple8b encoder, or the choice of `Auto`. -/
def prepare : CLAppender × Except Err (List Byte) :=
  match a.ctype with
  | .qSimple8b => ({ a with encoder := a.encoder.getBytes.1 }, a.encoder.getBytes.2)
  | .auto => chooseCodec ext ranges a.withCounters
  | _ => (a, .ok [])

def payloadPtr : ℕ :=
  let ptr := a.timestamps.b.stream.length + clHeaderSize
  if a.timestamps.b.count = 8 then ptr - 1 else ptr

/-- The last line of `Compact`. -/
def writeMeta (ptr : ℕ) : Except Fault CLAppender :=
  (writeCLMeta a.num (BitVec.ofNat 32 ptr) a.errbound a.ctype a.b.stream).map fun stream =>
    { a with b := { a.b with stream := stream } }

/-- The Huffman case of `Compact`. The encoder's stream replaces the one of the chunk; a missing
stream is a nil pointer. -/
def compactHuffman (ptr : ℕ) : Except Fault CLAppender :=
  match huffmanEncodeWithoutTimesMap ranges a.intDeltaBuffer ptr with
  | none => .error .panic
  | some b =>
    let stream := b.stream.take clHeaderSize ++
      a.timestamps.b.stream.take (ptr - clHeaderSize) ++ b.stream.drop ptr
    writeMeta { a with b := ⟨stream, b.count⟩ } ptr

/-- The codecs of floats read the first value, whether there is one or not. -/
def compressFloats (compress : List ℚ → List Byte) : Except Fault (CLAppender × List Byte) :=
  if a.floatBuffer = [] then .error .panic else .ok (a, compress a.floatBuffer)

/-- The payload of the other codecs; `data` is the one that is already there. -/
def payload (data : List Byte) : Except Fault (CLAppender × List Byte) :=
  match a.ctype with
  | .simplebits =>
    let a := a.withCounters.withSelectors
    (packingAll a.intDeltaBuffer (a.bitSelectors.getD [])).map fun b => (a, b.stream)
  | .bitPacking => .ok (a, (bitPackingAll a.intDeltaBuffer).stream)
  | .varint => .ok (a, (varintPackingAll a.intDeltaBuffer).stream)
  | .pFor => .ok (a, (pForPackingAll a.integerBuffer).stream)
  | .sz3 =>
    a.compressFloats fun vs => ext.szCompress vs a.errbound (max a.num.toNat sz3MinChunkSize)
  | .most => a.compressFloats fun vs => ext.mostCompress vs a.errbound
  | .machete => a.compressFloats fun vs => ext.macheteCompress vs a.errbound
  | _ => .ok (a, data)

/-- The end of `Compact`. The stream is rebuilt only when it gets longer. -/
def finish (ptr : ℕ) (data : List Byte) : Except Fault CLAppender :=
  let stream := if a.b.stream.length < ptr + data.length then
      List.replicate clHeaderSize 0#8 ++ a.timestamps.b.stream.take (ptr - clHeaderSize) ++ data
    else a.b.stream
  writeMeta { a with b := { a.b with stream := stream } } ptr

/-- `Compact`: the appender afterwards and the error. The estimates visit the first two maps, the
Huffman encoder the next two. -/
def compact : Except Fault (CLAppender × Option Err) :=
  let ptr := a.payloadPtr
  match a.prepare ext ranges with
  | (a, .error err) => .ok (a, some err)
  | (a, .ok data) =>
    match a.ctype with
    | .huffman => (a.compactHuffman (fun i => ranges (i + 2)) ptr).map fun a => (a, none)
    | _ =>
      match a.payload ext data with
      | .error fault => .error fault
      | .ok (a, data) => (a.finish ptr data).map fun a => (a, none)

end CLAppender

/-! ### The iterator -/

/-- The decoder of the chunk's codec. A Huffman or Simplebits decoder may be nil. -/
inductive Decoder
  | qSimple8b (d : Simple8bDecoder)
  | huffman (d : Option HuffmanDecoder)
  | simplebits (d : Option SimplebitsDecoder)
  | bitPacking (d : BitPackingDecoder)
  | floats (ctype : CompressType) (data : List ℚ)
  deriving DecidableEq

namespace Decoder

/-- The codec an iterator reports. -/
def ctype : Decoder → CompressType
  | qSimple8b _ => .qSimple8b
  | huffman _ => .huffman
  | simplebits _ => .simplebits
  | bitPacking _ => .bitPacking
  | floats c _ => c

/-- The switch of `Next` for the codecs of quantised values: the coded difference, or none when
`Next` ends there. -/
def nextDelta : Decoder → Except Fault (Option U64 × Decoder)
  | qSimple8b d =>
    match d.next with
    | (false, d) => .ok (none, qSimple8b d)
    | (true, d) => .ok (some d.read, qSimple8b d)
  | huffman none => .error .panic
  | huffman (some d) => .ok (d.next.1, huffman (some d.next.2))
  | simplebits none => .error .panic
  | simplebits (some d) =>
    match d.next with
    | .error fault => .error fault
    | .ok (some _, d) => .ok (none, simplebits (some d))
    | .ok (none, d) => .ok (some d.read.1, simplebits (some d.read.2))
  -- the iterator ends when the decoder has a value, and goes on when it has none
  | bitPacking d =>
    match d.next with
    | (true, d) => .ok (none, bitPacking d)
    | (false, d) => .ok (some d.read.1, bitPacking d.read.2)
  | floats c data => .ok (none, floats c data)

end Decoder

structure CLIterator where
  tr : BReader
  decoder : Decoder
  numTotal : ℕ
  numRead : ℕ
  t : I64
  tDelta : I64
  val : ℚ
  quantizer : I64
  errbound : ℚ
  err : Option Err
  deriving DecidableEq

/-- The decoder that `Reset` opens, if it knows the codec. -/
def openDecoder (ext : Extern) (order : RangeOrder (U64 × I64)) (h : Header) (b : List Byte) :
    Except Fault (Option Decoder) :=
  let ptr := h.ptr.toNat
  match h.ctype with
  | some .qSimple8b => (sliceFrom b ptr).map fun s => some (.qSimple8b (newSimple8bDecoder s))
  | some .huffman => (newHuffmanDecoder order b ptr).map fun d => some (.huffman d)
  | some .simplebits => (sliceFrom b ptr).map fun s => some (.simplebits (newSimplebitsDecoder s))
  | some .bitPacking =>
    (sliceFrom b ptr).map fun s => some (.bitPacking (newBitPackingDecoder s h.num.toNat))
  | some .sz3 =>
    (sliceFrom b ptr).map fun s =>
      some (.floats .sz3 (ext.szDecompress s (max h.num.toNat sz3MinChunkSize)))
  | some .most =>
    (sliceFrom b ptr).map fun s => some (.floats .most (ext.mostDecompress s h.errbound))
  | some .machete =>
    (sliceFrom b ptr).map fun s => some (.floats .machete (ext.macheteDecompress s h.num.toNat))
  | _ => .ok none

/-- `Reset`: the iterator at the start of a chunk, or none when it returns false. -/
def reset (ext : Extern) (order : RangeOrder (U64 × I64)) (b : List Byte) :
    Except Fault (Option CLIterator) := do
  let h ← readCLMeta b
  match ← openDecoder ext order h b with
  | none => return none
  | some decoder =>
    let s ← slice b clHeaderSize h.ptr.toNat
    return some
      { tr := newBReader s
        decoder := decoder
        numTotal := h.num.toNat
        numRead := 0
        t := 0
        tDelta := 0
        val := 0
        quantizer := 0
        errbound := h.errbound
        err := none }

namespace CLIterator

/-- The end of `Next`, for the codecs of quantised values. -/
def addDelta (it : CLIterator) (fdelta : U64) : CLIterator :=
  { it with
    val := addValue it.errbound it.val fdelta
    quantizer := addCode it.quantizer fdelta
    numRead := it.numRead + 1 }

/-- `Next`: whether there is a sample, and the iterator afterwards. -/
def next (it : CLIterator) : Except Fault (Bool × CLIterator) :=
  if it.err.isSome ∨ it.numRead = it.numTotal then .ok (false, it)
  else
    match nextTimestampDOD it.numRead it.tr it.t it.tDelta with
    | (.error err, tr) => .ok (false, { it with tr := tr, err := some err })
    | (.ok (t, tDelta), tr) =>
      let it := { it with tr := tr, t := t, tDelta := tDelta }
      match it.decoder with
      | .floats _ data =>
        match data[it.numRead]? with
        | none => .error .panic
        | some val => .ok (true, { it with val := val, numRead := it.numRead + 1 })
      | d =>
        match d.nextDelta with
        | .error fault => .error fault
        | .ok (none, d) => .ok (false, { it with decoder := d })
        | .ok (some fdelta, d) => .ok (true, { it with decoder := d }.addDelta fdelta)

end CLIterator

/-- What `At` and `AtQuantizer` give at a position. -/
structure Sample where
  t : I64
  quantizer : I64
  val : ℚ
  deriving DecidableEq

/-- A loop over an iterator up to the first `ValNone`: the samples, and the iterator at the end. -/
def drain : ℕ → CLIterator → Except Fault (List Sample × CLIterator)
  | 0, _ => .error .hang
  | k + 1, it =>
    match it.next with
    | .error fault => .error fault
    | .ok (false, it) => .ok ([], it)
    | .ok (true, it) => (drain k it).map fun p => (⟨it.t, it.quantizer, it.val⟩ :: p.1, p.2)

/-- The samples of a chunk, `numTotal` at most, and `Err` at the end. A chunk of an unknown codec
has a nil iterator. -/
def decodeChunk (ext : Extern) (order : RangeOrder (U64 × I64)) (b : List Byte) :
    Except Fault (List Sample × Option Err) := do
  match ← reset ext order b with
  | none => .error .panic
  | some it =>
    let (samples, it) ← drain (it.numTotal + 1) it
    return (samples, it.err)

end TopcDB.Chunkenc.CLChunk
