import TopcDB.Tsdb.Record

/-! # Records of histograms

Integer and float histograms have the same fields, all of them 64 bits wide where the two differ: a
count is a `uint64` or a `float64`, a bucket an `int64` (the difference to the one before) or a
`float64`. Their codes differ in how counts and buckets are put. `EncodeHistogram` and
`EncodeFloatHistogram` put every field but `CustomValues`, so that a record is decoded to its
samples if and only if none of them has custom bounds (`decode_encode_histograms_iff`). -/

namespace TopcDB.Tsdb.HistogramRecord

open Lib.Bits Lib.Codec Go.Basic Encoding Record

/-! ### Histograms -/

structure Span where
  offset : BitVec 32
  length : U32
  deriving DecidableEq

/-- `histogram.Histogram`, and `histogram.FloatHistogram` with floats for the counts and buckets. -/
structure Histogram where
  counterResetHint : Byte
  schema : BitVec 32
  zeroThreshold : U64
  zeroCount : U64
  count : U64
  sum : U64
  positiveSpans : Slice Span
  negativeSpans : Slice Span
  positiveBuckets : Slice U64
  negativeBuckets : Slice U64
  customValues : Slice U64
  deriving DecidableEq

abbrev FloatHistogram := Histogram

/-! ### Comparing floats by their bits -/

/-- The position of a bit pattern among those that are numbers; both zeros have the same. -/
def floatKey (x : U64) : ℤ := if x.msb then -(x.toNat % 2 ^ 63 : ℕ) else x.toNat

def isNaN (x : U64) : Bool := x.toNat % 2 ^ 63 > 0x7ff0000000000000

def floatLt (x y : U64) : Bool := !isNaN x && !isNaN y && floatKey x < floatKey y

def floatLe (x y : U64) : Bool := !isNaN x && !isNaN y && floatKey x ≤ floatKey y

def floatEq (x y : U64) : Bool := !isNaN x && !isNaN y && floatKey x = floatKey y

/-- `math.Inf(1)` and `math.Inf(-1)`. -/
def posInf : U64 := 0x7ff0000000000000

def negInf : U64 := 0xfff0000000000000

/-! ### `Validate` -/

/-- The errors of the checks, with the numbers of their texts. -/
inductive CheckErr
  | spanNegativeOffset (n : ℕ) (offset : BitVec 32)
  | spansBucketsMismatch (need : I64) (numBuckets : ℕ)
  | negativeBucketCount (n : ℕ) (c : U64)
  | customBucketsInvalid (prev curr : U64)
  | customBucketsInfinite
  | customBucketsMismatch (bounds : ℕ) (total : I64)
  deriving DecidableEq

/-- The errors of `Validate`: those of the checks as "custom buckets: %w", "positive side: %w" and
"negative side: %w", and its own. -/
inductive ValidateErr
  | custom (e : CheckErr)
  | positiveSide (e : CheckErr)
  | negativeSide (e : CheckErr)
  | customZeroCount
  | customZeroThreshold
  | customNegativeSpans
  | customNegativeBuckets
  | exponentialCustomBounds
  | countNotBigEnough (sum count : U64)
  | countMismatch (sum count : U64)
  deriving DecidableEq

/-- The loop over the spans from span `n` on, with offsets checked from number `first` on: the
buckets and the total length. -/
def spanLoop (first : ℕ) : ℕ → I64 → I64 → List Span → Except CheckErr (I64 × I64)
  | _, spanBuckets, total, [] => .ok (spanBuckets, total)
  | n, spanBuckets, total, span :: spans =>
    if n ≥ first ∧ span.offset.slt 0 then .error (.spanNegativeOffset (n + 1) span.offset)
    else spanLoop first (n + 1) (spanBuckets + span.length.setWidth 64)
      (total + (span.length.setWidth 64 + span.offset.signExtend 64)) spans

def checkHistogramSpans (spans : List Span) (numBuckets : ℕ) : Except CheckErr Unit := do
  let (spanBuckets, _) ← spanLoop 1 0 0 0 spans
  if spanBuckets ≠ BitVec.ofNat 64 numBuckets then
    .error (.spansBucketsMismatch spanBuckets numBuckets)
  else .ok ()

/-- The loop of `checkHistogramBuckets` from bucket `i` on. `neg` is `c < 0`, and `add` adds `c` to
the count. -/
def bucketLoop (deltas : Bool) (neg : U64 → Bool) (add : U64 → U64 → U64) :
    ℕ → U64 → U64 → List U64 → Except CheckErr U64
  | _, _, count, [] => .ok count
  | i, last, count, bucket :: buckets =>
    let c := if deltas then last + bucket else bucket
    if neg c then .error (.negativeBucketCount (i + 1) c)
    else bucketLoop deltas neg add (i + 1) c (add count c) buckets

/-- The loop over the custom bounds; the result is the last one. -/
def boundLoop : U64 → List U64 → Except CheckErr U64
  | prev, [] => .ok prev
  | prev, curr :: bounds =>
    if floatLe curr prev then .error (.customBucketsInvalid prev curr) else boundLoop curr bounds

def checkHistogramCustomBounds (bounds : List U64) (spans : List Span) (numBuckets : ℕ) :
    Except CheckErr Unit := do
  let prev ← boundLoop negInf bounds
  if floatEq prev posInf then .error .customBucketsInfinite
  else
    let (spanBuckets, total) ← spanLoop 0 0 0 0 spans
    if spanBuckets ≠ BitVec.ofNat 64 numBuckets then
      .error (.spansBucketsMismatch spanBuckets numBuckets)
    else if (BitVec.ofNat 64 (bounds.length + 1)).slt total then
      .error (.customBucketsMismatch bounds.length total)
    else .ok ()

/-- `IsCustomBucketsSchema`: the schema is -53. -/
def isCustomBucketsSchema (s : BitVec 32) : Bool := s = BitVec.ofInt 32 (-53)

/-- What the two `Validate` share, given `ZeroCount != 0` and the check of buckets: the counts of
the negative and of the positive buckets. -/
def validateFields (zero : U64 → Bool) (check : List U64 → Except CheckErr U64) (h : Histogram) :
    Except ValidateErr (U64 × U64) := do
  let nCount ←
    if isCustomBucketsSchema h.schema then
      (checkHistogramCustomBounds h.customValues.1 h.positiveSpans.1
        h.positiveBuckets.1.length).mapError .custom
      if !zero h.zeroCount then throw .customZeroCount
      if !floatEq h.zeroThreshold 0 then throw .customZeroThreshold
      if h.negativeSpans.1.length > 0 then throw .customNegativeSpans
      if h.negativeBuckets.1.length > 0 then throw .customNegativeBuckets
      pure 0
    else
      (checkHistogramSpans h.positiveSpans.1 h.positiveBuckets.1.length).mapError .positiveSide
      (checkHistogramSpans h.negativeSpans.1 h.negativeBuckets.1.length).mapError .negativeSide
      let nCount ← (check h.negativeBuckets.1).mapError .negativeSide
      if h.customValues.1 ≠ [] then throw .exponentialCustomBounds
      pure nCount
  let pCount ← (check h.positiveBuckets.1).mapError .positiveSide
  pure (nCount, pCount)

def Histogram.validate (h : Histogram) : Except ValidateErr Unit := do
  let (nCount, pCount) ←
    validateFields (· = 0) (bucketLoop true (·.slt 0) (· + ·) 0 0 0) h
  let sumOfBuckets := nCount + pCount + h.zeroCount
  if isNaN h.sum then
    if sumOfBuckets > h.count then throw (.countNotBigEnough sumOfBuckets h.count)
  else if sumOfBuckets ≠ h.count then throw (.countMismatch sumOfBuckets h.count)

/-- `FloatHistogram.Validate`. It does not read the sum of the buckets. -/
def FloatHistogram.validate (h : FloatHistogram) : Except ValidateErr Unit := do
  let _ ← validateFields (floatEq · 0)
    (bucketLoop false (floatLt · 0) (fun count _ => count) 0 0 0) h

/-! ### The code of a histogram -/

def putSpan (s : Span) : List Byte := putVarint64 (s.offset.signExtend 64) ++ putUvarint32 s.length

def span : Dec Span := do
  let offset ← varint64
  let length ← uvarint32
  pure ⟨offset.setWidth 32, length⟩

/-- `EncodeHistogram` and `EncodeFloatHistogram`, given the codes of a count and of a bucket. -/
def encodeWith (putCount putBucket : U64 → List Byte) (h : Histogram) : List Byte :=
  putByte h.counterResetHint ++ (putVarint64 (h.schema.signExtend 64) ++
    (putBE64 h.zeroThreshold ++ (putCount h.zeroCount ++ (putCount h.count ++ (putBE64 h.sum ++
      (putSlice putSpan h.positiveSpans ++ (putSlice putSpan h.negativeSpans ++
        (putSlice putBucket h.positiveBuckets ++ putSlice putBucket h.negativeBuckets))))))))

/-- `DecodeHistogram` and `DecodeFloatHistogram`. The histogram was the zero value before. -/
def decodeWith (count bucket : Dec U64) : Dec Histogram := do
  let counterResetHint ← byte
  let schema ← varint64
  let zeroThreshold ← be64
  let zeroCount ← count
  let cnt ← count
  let sum ← be64
  let positiveSpans ← slice span
  let negativeSpans ← slice span
  let positiveBuckets ← slice bucket
  let negativeBuckets ← slice bucket
  pure { counterResetHint, schema := schema.setWidth 32, zeroThreshold, zeroCount, count := cnt,
         sum, positiveSpans, negativeSpans, positiveBuckets, negativeBuckets,
         customValues := ⟨[], by decide⟩ }

def encodeHistogram (h : Histogram) : List Byte := encodeWith putUvarint64 putVarint64 h

def encodeFloatHistogram (h : FloatHistogram) : List Byte := encodeWith putBE64 putBE64 h

def decodeHistogram : Dec Histogram := decodeWith uvarint64 varint64

def decodeFloatHistogram : Dec FloatHistogram := decodeWith be64 be64

/-! ### The records -/

/-- `RefHistogramSample`, and `RefFloatHistogramSample` with a float histogram. -/
structure RefHistogramSample where
  ref : U64
  t : I64
  h : Histogram
  deriving DecidableEq

abbrev RefFloatHistogramSample := RefHistogramSample

variable (histograms : List RefHistogramSample)

def encodeHistogramSamples (b : List Byte) : List Byte :=
  encodeBased .histogramSamples RefHistogramSample.ref RefHistogramSample.t
    (fun s => encodeHistogram s.h) histograms b

def decodeHistogramSamples (rec : List Byte) : Except DecodeErr (List RefHistogramSample) :=
  decodeBased .histogramSamples "histograms" RefHistogramSample.mk decodeHistogram histograms rec

variable (histograms : List RefFloatHistogramSample)

def encodeFloatHistogramSamples (b : List Byte) : List Byte :=
  encodeBased .floatHistogramSamples RefHistogramSample.ref RefHistogramSample.t
    (fun s => encodeFloatHistogram s.h) histograms b

def decodeFloatHistogramSamples (rec : List Byte) :
    Except DecodeErr (List RefFloatHistogramSample) :=
  decodeBased .floatHistogramSamples "histograms" RefHistogramSample.mk decodeFloatHistogram
    histograms rec

/-! ### What is read back -/

theorem setWidth_signExtend (x : BitVec 32) : (x.signExtend 64).setWidth 32 = x := by
  apply BitVec.eq_of_getLsbD_eq
  intro i hi
  simp [BitVec.getLsbD_signExtend, hi]
  omega

theorem reads_span (s : Span) : Reads span (putSpan s) s := by
  have h : Reads span (putSpan s) ⟨(s.offset.signExtend 64).setWidth 32, s.length⟩ :=
    (reads_varint64 _).bind ((reads_uvarint32 s.length).ret _)
  rwa [setWidth_signExtend] at h

def Histogram.clear (h : Histogram) : Histogram := { h with customValues := ⟨[], by decide⟩ }

/-- **A histogram is read back without its custom bounds.** -/
theorem reads_decodeWith {count bucket : Dec U64} {putCount putBucket : U64 → List Byte}
    (hc : ∀ x, Reads count (putCount x) x) (hb : ∀ x, Reads bucket (putBucket x) x)
    (h : Histogram) :
    Reads (decodeWith count bucket) (encodeWith putCount putBucket h) h.clear := by
  have hs := fun l => reads_slice reads_span l
  have hbs := fun l => reads_slice hb l
  have hread : Reads (decodeWith count bucket) (encodeWith putCount putBucket h)
      { h.clear with schema := (h.schema.signExtend 64).setWidth 32 } :=
    (reads_byte _).bind ((reads_varint64 _).bind ((reads_be64 _).bind ((hc _).bind ((hc _).bind
      ((reads_be64 _).bind ((hs _).bind ((hs _).bind ((hbs _).bind ((hbs _).ret _)))))))))
  rwa [setWidth_signExtend] at hread

/-- The sample with its histogram read back. -/
def RefHistogramSample.clear (s : RefHistogramSample) : RefHistogramSample :=
  { s with h := s.h.clear }

theorem decodeHistogramSamples_encode (hs acc : List RefHistogramSample) :
    decodeHistogramSamples acc (encodeHistogramSamples hs []) =
      .ok (acc ++ hs.map RefHistogramSample.clear) := by
  have hread : ∀ s : RefHistogramSample, Reads decodeHistogram (encodeHistogram s.h) s.h.clear :=
    fun s => reads_decodeWith reads_uvarint64 reads_varint64 s.h
  rw [decodeHistogramSamples, encodeHistogramSamples, decodeBased_encodeBased hread]
  rfl

theorem decodeFloatHistogramSamples_encode (hs acc : List RefFloatHistogramSample) :
    decodeFloatHistogramSamples acc (encodeFloatHistogramSamples hs []) =
      .ok (acc ++ hs.map RefHistogramSample.clear) := by
  have hread : ∀ s : RefHistogramSample,
      Reads decodeFloatHistogram (encodeFloatHistogram s.h) s.h.clear :=
    fun s => reads_decodeWith reads_be64 reads_be64 s.h
  rw [decodeFloatHistogramSamples, encodeFloatHistogramSamples, decodeBased_encodeBased hread]
  rfl

theorem clear_eq_iff (s : RefHistogramSample) : s.clear = s ↔ s.h.customValues.1 = [] := by
  obtain ⟨ref, t, ⟨_, _, _, _, _, _, _, _, _, _, customValues, hlen⟩⟩ := s
  simp [RefHistogramSample.clear, Histogram.clear, eq_comm]

theorem map_clear_eq_iff (hs : List RefHistogramSample) :
    hs.map RefHistogramSample.clear = hs ↔ ∀ s ∈ hs, s.h.customValues.1 = [] := by
  have hid : hs.map RefHistogramSample.clear = hs ↔
      hs.map RefHistogramSample.clear = hs.map id := by rw [List.map_id]
  rw [hid, List.map_inj_left]
  exact forall₂_congr fun s _ => clear_eq_iff s

/-- **A record of histograms, integer or float, is decoded to the samples it was made of if and only
if none of them has custom bounds.** -/
theorem decode_encode_histograms_iff (hs : List RefHistogramSample)
    (fhs : List RefFloatHistogramSample) :
    (decodeHistogramSamples [] (encodeHistogramSamples hs []) = .ok hs ↔
      ∀ s ∈ hs, s.h.customValues.1 = []) ∧
    (decodeFloatHistogramSamples [] (encodeFloatHistogramSamples fhs []) = .ok fhs ↔
      ∀ s ∈ fhs, s.h.customValues.1 = []) := by
  constructor
  · rw [decodeHistogramSamples_encode, List.nil_append, Except.ok.injEq, map_clear_eq_iff]
  · rw [decodeFloatHistogramSamples_encode, List.nil_append, Except.ok.injEq, map_clear_eq_iff]

/-- A histogram of custom buckets: one bound, 1, and one observation below it. -/
def customBuckets (one : U64) : Histogram where
  counterResetHint := 0
  schema := BitVec.ofInt 32 (-53)
  zeroThreshold := 0
  zeroCount := 0
  count := one
  sum := 0x3fe0000000000000
  positiveSpans := ⟨[⟨0, 1⟩], by decide⟩
  negativeSpans := ⟨[], by decide⟩
  positiveBuckets := ⟨[one], by simp⟩
  negativeBuckets := ⟨[], by decide⟩
  customValues := ⟨[0x3ff0000000000000], by decide⟩

/-- Both the integer and the float histogram of one observation are valid, and lose their bound. -/
theorem not_decode_encode_customBuckets :
    (customBuckets 1).validate = .ok () ∧
    decodeHistogramSamples [] (encodeHistogramSamples [⟨1, 0, customBuckets 1⟩] []) ≠
      .ok [⟨1, 0, customBuckets 1⟩] ∧
    FloatHistogram.validate (customBuckets 0x3ff0000000000000) = .ok () ∧
    decodeFloatHistogramSamples []
        (encodeFloatHistogramSamples [⟨1, 0, customBuckets 0x3ff0000000000000⟩] []) ≠
      .ok [⟨1, 0, customBuckets 0x3ff0000000000000⟩] := by
  refine ⟨by decide, ?_, by decide, ?_⟩
  · rw [decodeHistogramSamples_encode, Ne, Except.ok.injEq]
    decide
  · rw [decodeFloatHistogramSamples_encode, Ne, Except.ok.injEq]
    decide

end TopcDB.Tsdb.HistogramRecord
