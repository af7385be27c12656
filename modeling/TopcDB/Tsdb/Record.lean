import TopcDB.Tsdb.Encoding
import TopcDB.Tsdb.Deleted

/-! # The records of the log (`tsdb/record`)

A record is a byte for its type and then its entries, one behind the other without a frame. Samples,
histograms and exemplars are coded against the reference and the time of the first one. Every record
of the encoder is decoded to the entries it was made of (`decodeEntries_encodeEntries`,
`decodeBased_encodeBased`).

A `float64` is its bit pattern. Memory is not bounded: a number of elements that no buffer holds
ends in `ErrInvalidSize`. -/

namespace TopcDB.Tsdb.Record

open List Lib.Bits Lib.Codec Go.Basic Chunkenc.Varint Encoding Deleted

variable {α γ : Type}

/-! ### Types of records -/

/-- `record.Type` without `Unknown`. -/
inductive RecordType
  | series
  | samples
  | tombstones
  | exemplars
  | mmapMarkers
  | metadata
  | histogramSamples
  | floatHistogramSamples
  deriving DecidableEq

def RecordType.code : RecordType → Byte
  | .series => 1
  | .samples => 2
  | .tombstones => 3
  | .exemplars => 4
  | .mmapMarkers => 5
  | .metadata => 6
  | .histogramSamples => 7
  | .floatHistogramSamples => 8

/-- `Decoder.Type`; `none` is `Unknown`. -/
def typeOf : List Byte → Option RecordType
  | [] => none
  | c :: _ =>
    [.series, .samples, .tombstones, .exemplars, .mmapMarkers, .metadata, .histogramSamples,
      .floatHistogramSamples].find? fun t : RecordType => t.code = c

theorem typeOf_code (t : RecordType) (b : List Byte) : typeOf (t.code :: b) = some t := by
  cases t <;> rfl

/-- The errors of the decoder: "invalid record type", the error of the buffer by itself or as
"decode error after %d …", and "unexpected %d bytes left in entry". -/
inductive DecodeErr
  | recordType
  | buffer (e : DecErr)
  | after (n : ℕ) (entries : String) (e : DecErr)
  | left (n : ℕ)
  deriving DecidableEq

/-- What follows the loop of a decoder. -/
def finish (wrap : ℕ → DecErr → DecodeErr) :
    Except (ℕ × DecErr) (List α × List Byte) → Except DecodeErr (List α)
  | .error (n, e) => .error (wrap n e)
  | .ok (l, b) => if b.length > 0 then .error (.left b.length) else .ok l

/-! ### Records without a base -/

/-- The record of `l`, behind `b`. -/
def encodeEntries (typ : RecordType) (put : α → List Byte) (l : List α) (b : List Byte) :
    List Byte :=
  b ++ (putByte typ.code ++ l.flatMap put)

/-- The entries of the record, behind `acc`. -/
def decodeEntries (typ : RecordType) (wrap : ℕ → DecErr → DecodeErr) (d : Dec α) (acc : List α) :
    List Byte → Except DecodeErr (List α)
  | [] => .error .recordType
  | c :: b =>
    if c ≠ typ.code then .error .recordType else finish wrap (loop d b.length acc b)

/-- The error of `dec.Err()` as it is. -/
def plain (_ : ℕ) (e : DecErr) : DecodeErr := .buffer e

variable {wrap : ℕ → DecErr → DecodeErr} {typ : RecordType} {d : Dec γ}

theorem decodeEntries_encodeEntries {put : α → List Byte} {f : α → γ}
    (h : ∀ a, Reads d (put a) (f a)) (hne : ∀ a, put a ≠ []) (l : List α) (acc : List γ) :
    decodeEntries typ wrap d acc (encodeEntries typ put l []) = .ok (acc ++ l.map f) := by
  show decodeEntries typ wrap d acc (typ.code :: l.flatMap put) = _
  rw [decodeEntries, if_neg (not_not.2 rfl), loop_flatMap h hne l _ acc le_rfl]
  rfl

theorem eq_ok_of_finish {r : Except (ℕ × DecErr) (List α × List Byte)} {l : List α}
    (h : finish wrap r = .ok l) : r = .ok (l, []) := by
  rcases r with ⟨n, e⟩ | ⟨l', b⟩
  · cases h
  · rw [finish] at h
    split_ifs at h with hb
    obtain rfl : b = [] := eq_nil_of_length_eq_zero (by omega)
    cases h
    rfl

theorem forall_of_decodeEntries {d : Dec α} {p : α → Prop} (hd : Always d p) {rec : List Byte}
    {l : List α} (h : decodeEntries typ wrap d [] rec = .ok l) : ∀ a ∈ l, p a := by
  rcases rec with _ | ⟨c, b⟩
  · cases h
  · rw [decodeEntries] at h
    split_ifs at h
    exact hd.loop (eq_ok_of_finish h) (by simp)

/-! ### Records with a base -/

/-- The record of `l`, behind `b`, with references and times relative to the first entry. -/
def encodeBased (typ : RecordType) (ref : α → U64) (t : α → I64) (put : α → List Byte) (l : List α)
    (b : List Byte) : List Byte :=
  b ++ (putByte typ.code ++ match l with
    | [] => []
    | first :: _ => putBE64 (ref first) ++ (putBE64 (t first) ++ l.flatMap fun s =>
        putVarint64 (ref s - ref first) ++ (putVarint64 (t s - t first) ++ put s)))

/-- One entry: the differences to the base, and the rest of it. -/
def basedEntry (mk : U64 → I64 → γ → α) (d : Dec γ) (baseRef : U64) (baseTime : I64) : Dec α := do
  let dref ← varint64
  let dtime ← varint64
  let x ← d
  pure (mk (baseRef + dref) (baseTime + dtime) x)

def base : Dec (U64 × I64) := do
  let baseRef ← be64
  let baseTime ← be64
  pure (baseRef, baseTime)

/-- The entries of the record, behind `acc`; `entries` is their name in the error. -/
def decodeBased (typ : RecordType) (entries : String) (mk : U64 → I64 → γ → α) (d : Dec γ)
    (acc : List α) : List Byte → Except DecodeErr (List α)
  | [] => .error .recordType
  | c :: b =>
    if c ≠ typ.code then .error .recordType
    else if b.length = 0 then .ok acc
    else finish (fun n e => .after n entries e) (match base b with
      | .error e => .error (acc.length, e)
      | .ok ((baseRef, baseTime), b) => loop (basedEntry mk d baseRef baseTime) b.length acc b)

theorem reads_base (ref : U64) (t : I64) : Reads base (putBE64 ref ++ putBE64 t) (ref, t) :=
  (reads_be64 ref).bind ((reads_be64 t).ret fun t => (ref, t))

variable {mk : U64 → I64 → γ → α}

theorem reads_basedEntry {b : List Byte} {x : γ} (h : Reads d b x) (baseRef ref : U64)
    (baseTime t : I64) :
    Reads (basedEntry mk d baseRef baseTime)
      (putVarint64 (ref - baseRef) ++ (putVarint64 (t - baseTime) ++ b)) (mk ref t x) := by
  have hread : Reads (basedEntry mk d baseRef baseTime)
      (putVarint64 (ref - baseRef) ++ (putVarint64 (t - baseTime) ++ b))
      (mk (baseRef + (ref - baseRef)) (baseTime + (t - baseTime)) x) :=
    (reads_varint64 _).bind ((reads_varint64 _).bind (h.ret _))
  rw [BitVec.add_comm baseRef, BitVec.sub_add_cancel, BitVec.add_comm baseTime,
    BitVec.sub_add_cancel] at hread
  exact hread

theorem putVarint64_ne_nil (x : I64) : putVarint64 x ≠ [] := by
  rw [putVarint64, putVarint, putUvarint, maxVarintLen64, putUvarintLoop]
  split_ifs <;> simp

theorem decodeBased_encodeBased {entries : String} {ref : α → U64} {t : α → I64}
    {put : α → List Byte} {body : α → γ} (h : ∀ a, Reads d (put a) (body a)) (l acc : List α) :
    decodeBased typ entries mk d acc (encodeBased typ ref t put l []) =
      .ok (acc ++ l.map fun a => mk (ref a) (t a) (body a)) := by
  rcases l with _ | ⟨first, l⟩
  · show decodeBased typ entries mk d acc [typ.code] = _
    rw [decodeBased, if_neg (not_not.2 rfl), if_pos length_nil, map_nil, append_nil]
  · show decodeBased typ entries mk d acc (typ.code :: (putBE64 (ref first) ++ (putBE64 (t first) ++
      (first :: l).flatMap fun s =>
        putVarint64 (ref s - ref first) ++ (putVarint64 (t s - t first) ++ put s)))) = _
    rw [decodeBased, if_neg (not_not.2 rfl), if_neg (by simp [putBE64]), ← append_assoc,
      reads_base]
    simp only
    rw [loop_flatMap (fun a => reads_basedEntry (h a) (ref first) (ref a) (t first) (t a))
      (fun a => by simp [putVarint64_ne_nil]) (first :: l) _ acc le_rfl]
    rfl

theorem forall_of_decodeBased {entries : String} {p : α → Prop} {q : γ → Prop} (hd : Always d q)
    (hmk : ∀ ref t x, q x → p (mk ref t x)) {rec : List Byte} {l : List α}
    (h : decodeBased typ entries mk d [] rec = .ok l) : ∀ a ∈ l, p a := by
  have hentry : ∀ ref t, Always (basedEntry mk d ref t) p := fun ref t =>
    (always_true _).bind fun _ _ => (always_true _).bind fun _ _ => hd.bind fun x hx =>
      always_pure (hmk _ _ x hx)
  rcases rec with _ | ⟨c, b⟩
  · cases h
  · rw [decodeBased] at h
    split_ifs at h
    · cases h
      simp
    · have hloop := eq_ok_of_finish h
      rcases hb : base b with e | ⟨⟨ref, t⟩, b'⟩
      · rw [hb] at hloop
        cases hloop
      · rw [hb] at hloop
        exact (hentry ref t).loop hloop (by simp)

/-! ### Labels -/

structure Label where
  name : Slice Byte
  value : Slice Byte
  deriving DecidableEq

abbrev Labels := Slice Label

def putLabel (l : Label) : List Byte := putUvarintStr l.name ++ putUvarintStr l.value

def encodeLabels (lbls : Labels) : List Byte := putSlice putLabel lbls

def label : Dec Label := do
  let lName ← uvarintBytes
  let lValue ← uvarintBytes
  pure ⟨lName, lValue⟩

def decodeLabels : Dec Labels := slice label

theorem reads_label (l : Label) : Reads label (putLabel l) l :=
  (reads_uvarintBytes l.name).bind ((reads_uvarintBytes l.value).ret _)

theorem reads_labels (lbls : Labels) : Reads decodeLabels (encodeLabels lbls) lbls :=
  reads_slice reads_label lbls

/-! ### Series -/

structure RefSeries where
  ref : U64
  labels : Labels
  deriving DecidableEq

def putRefSeries (s : RefSeries) : List Byte := putBE64 s.ref ++ encodeLabels s.labels

def refSeries : Dec RefSeries := do
  let ref ← be64
  let lset ← decodeLabels
  pure ⟨ref, lset⟩

def encodeSeries (series : List RefSeries) (b : List Byte) : List Byte :=
  encodeEntries .series putRefSeries series b

def decodeSeries (series : List RefSeries) (rec : List Byte) : Except DecodeErr (List RefSeries) :=
  decodeEntries .series plain refSeries series rec

theorem reads_refSeries (s : RefSeries) : Reads refSeries (putRefSeries s) s :=
  (reads_be64 s.ref).bind ((reads_labels s.labels).ret _)

theorem decodeSeries_encodeSeries (series acc : List RefSeries) :
    decodeSeries acc (encodeSeries series []) = .ok (acc ++ series) := by
  rw [decodeSeries, encodeSeries, decodeEntries_encodeEntries reads_refSeries
    (fun s => by simp [putRefSeries, putBE64, ← length_eq_zero_iff]), map_id']

/-! ### Samples -/

structure RefSample where
  ref : U64
  t : I64
  v : U64
  deriving DecidableEq

def encodeSamples (samples : List RefSample) (b : List Byte) : List Byte :=
  encodeBased .samples RefSample.ref RefSample.t (fun s => putBE64 s.v) samples b

/-- `Decoder.Samples` with an empty slice: one that is too small is not kept. -/
def decodeSamples (rec : List Byte) : Except DecodeErr (List RefSample) :=
  decodeBased .samples "samples" RefSample.mk be64 [] rec

theorem decodeSamples_encodeSamples (samples : List RefSample) :
    decodeSamples (encodeSamples samples []) = .ok samples := by
  have hread : ∀ s : RefSample, Reads be64 (putBE64 s.v) s.v := fun s => reads_be64 s.v
  rw [decodeSamples, encodeSamples, decodeBased_encodeBased hread, map_id', nil_append]

/-! ### Tombstones -/

structure Stone where
  ref : U64
  intervals : List Interval
  deriving DecidableEq

/-- The entries of a stone, one for each interval. -/
def putStone (s : Stone) : List Byte :=
  s.intervals.flatMap fun iv => putBE64 s.ref ++ (putVarint64 iv.mint ++ putVarint64 iv.maxt)

def stone : Dec Stone := do
  let ref ← be64
  let mint ← varint64
  let maxt ← varint64
  pure ⟨ref, [⟨mint, maxt⟩]⟩

/-- `Encoder.Tombstones`. -/
def encodeTombstones (tstones : List Stone) (b : List Byte) : List Byte :=
  encodeEntries .tombstones putStone tstones b

/-- `Decoder.Tombstones`: a stone for each interval. -/
def decodeTombstones (tstones : List Stone) (rec : List Byte) : Except DecodeErr (List Stone) :=
  decodeEntries .tombstones plain stone tstones rec

/-- The stones of a stone's intervals. -/
def Stone.split (s : Stone) : List Stone := s.intervals.map fun iv => ⟨s.ref, [iv]⟩

theorem decodeTombstones_encodeTombstones (tstones acc : List Stone) :
    decodeTombstones acc (encodeTombstones tstones []) =
      .ok (acc ++ tstones.flatMap Stone.split) := by
  -- the entries are those of the pairs of a reference and an interval
  have hput : tstones.flatMap putStone =
      (tstones.flatMap fun s => s.intervals.map fun iv => (s.ref, iv)).flatMap fun p =>
        putBE64 p.1 ++ (putVarint64 p.2.mint ++ putVarint64 p.2.maxt) := by
    simp only [flatMap_assoc, flatMap_map]
    rfl
  have hread : ∀ p : U64 × Interval, Reads stone
      (putBE64 p.1 ++ (putVarint64 p.2.mint ++ putVarint64 p.2.maxt)) ⟨p.1, [p.2]⟩ := fun p =>
    (reads_be64 p.1).bind ((reads_varint64 p.2.mint).bind ((reads_varint64 p.2.maxt).ret _))
  have henc : encodeTombstones tstones [] = encodeEntries .tombstones
      (fun p => putBE64 p.1 ++ (putVarint64 p.2.mint ++ putVarint64 p.2.maxt))
      (tstones.flatMap fun s => s.intervals.map fun iv => (s.ref, iv)) [] := by
    rw [encodeTombstones, encodeEntries, encodeEntries, hput]
  rw [decodeTombstones, henc, decodeEntries_encodeEntries hread
    (fun p => by simp [putBE64, ← length_eq_zero_iff])]
  simp only [map_flatMap, map_map]
  rfl

/-! ### Exemplars -/

structure RefExemplar where
  ref : U64
  t : I64
  v : U64
  labels : Labels
  deriving DecidableEq

def exemplarBody : Dec (U64 × Labels) := do
  let val ← be64
  let lset ← decodeLabels
  pure (val, lset)

def encodeExemplars (exemplars : List RefExemplar) (b : List Byte) : List Byte :=
  encodeBased .exemplars RefExemplar.ref RefExemplar.t
    (fun ex => putBE64 ex.v ++ encodeLabels ex.labels) exemplars b

def decodeExemplars (exemplars : List RefExemplar) (rec : List Byte) :
    Except DecodeErr (List RefExemplar) :=
  decodeBased .exemplars "exemplars" (fun ref t x => ⟨ref, t, x.1, x.2⟩) exemplarBody exemplars rec

theorem reads_exemplarBody (ex : RefExemplar) :
    Reads exemplarBody (putBE64 ex.v ++ encodeLabels ex.labels) (ex.v, ex.labels) :=
  (reads_be64 ex.v).bind ((reads_labels ex.labels).ret _)

theorem decodeExemplars_encodeExemplars (exemplars acc : List RefExemplar) :
    decodeExemplars acc (encodeExemplars exemplars []) = .ok (acc ++ exemplars) := by
  rw [decodeExemplars, encodeExemplars, decodeBased_encodeBased reads_exemplarBody, map_id']

/-! ### Metadata -/

structure RefMetadata where
  ref : U64
  typ : Byte
  unit : Slice Byte
  help : Slice Byte
  deriving DecidableEq

/-- `unitMetaName` and `helpMetaName`. -/
def unitMetaName : Slice Byte := ⟨[0x55, 0x4e, 0x49, 0x54], by decide⟩

def helpMetaName : Slice Byte := ⟨[0x48, 0x45, 0x4c, 0x50], by decide⟩

/-- The two fields a decoder knows, with one more field taken in. -/
def setField (m : Slice Byte × Slice Byte) (field : Label) : Slice Byte × Slice Byte :=
  if field.name = unitMetaName then (field.value, m.2)
  else if field.name = helpMetaName then (m.1, field.value)
  else m

def putMetadata (m : RefMetadata) : List Byte :=
  putUvarint64 m.ref ++ (putByte m.typ ++ (putUvarint64 2 ++
    (putLabel ⟨unitMetaName, m.unit⟩ ++ putLabel ⟨helpMetaName, m.help⟩)))

def refMetadata : Dec RefMetadata := do
  let ref ← uvarint64
  let typ ← byte
  let numFields ← uvarint64
  let fields ← times label numFields.toInt.toNat
  let m := fields.1.foldl setField (⟨[], by decide⟩, ⟨[], by decide⟩)
  pure ⟨ref, typ, m.1, m.2⟩

def encodeMetadata (metadata : List RefMetadata) (b : List Byte) : List Byte :=
  encodeEntries .metadata putMetadata metadata b

def decodeMetadata (metadata : List RefMetadata) (rec : List Byte) :
    Except DecodeErr (List RefMetadata) :=
  decodeEntries .metadata plain refMetadata metadata rec

theorem reads_refMetadata (m : RefMetadata) : Reads refMetadata (putMetadata m) m := by
  have hfields : Reads (times label (2#64).toInt.toNat)
      (putLabel ⟨unitMetaName, m.unit⟩ ++ putLabel ⟨helpMetaName, m.help⟩)
      ⟨[⟨unitMetaName, m.unit⟩, ⟨helpMetaName, m.help⟩], rfl⟩ := by
    simpa using Reads.times reads_label [⟨unitMetaName, m.unit⟩, ⟨helpMetaName, m.help⟩]
  exact (reads_uvarint64 m.ref).bind ((reads_byte m.typ).bind ((reads_uvarint64 2).bind
    (hfields.ret _)))

theorem decodeMetadata_encodeMetadata (metadata acc : List RefMetadata) :
    decodeMetadata acc (encodeMetadata metadata []) = .ok (acc ++ metadata) := by
  rw [decodeMetadata, encodeMetadata, decodeEntries_encodeEntries reads_refMetadata
    (fun m => by simp [putMetadata, putByte]), map_id']

/-! ### Markers -/

structure RefMmapMarker where
  ref : U64
  mmapRef : U64
  deriving DecidableEq

def mmapMarker : Dec RefMmapMarker := do
  let ref ← be64
  let mmapRef ← be64
  pure ⟨ref, mmapRef⟩

def encodeMmapMarkers (markers : List RefMmapMarker) (b : List Byte) : List Byte :=
  encodeEntries .mmapMarkers (fun s => putBE64 s.ref ++ putBE64 s.mmapRef) markers b

def decodeMmapMarkers (markers : List RefMmapMarker) (rec : List Byte) :
    Except DecodeErr (List RefMmapMarker) :=
  decodeEntries .mmapMarkers (fun n e => .after n "mmap markers" e) mmapMarker markers rec

theorem decodeMmapMarkers_encodeMmapMarkers (markers acc : List RefMmapMarker) :
    decodeMmapMarkers acc (encodeMmapMarkers markers []) = .ok (acc ++ markers) := by
  have hread : ∀ s : RefMmapMarker, Reads mmapMarker (putBE64 s.ref ++ putBE64 s.mmapRef) s :=
    fun s => (reads_be64 s.ref).bind ((reads_be64 s.mmapRef).ret _)
  rw [decodeMmapMarkers, encodeMmapMarkers, decodeEntries_encodeEntries hread
    (fun s => by simp [putBE64, ← length_eq_zero_iff]), map_id']

/-- The record has the type, and is decoded to `l`. -/
def Decodes (typ : RecordType) (decode : List α → List Byte → Except DecodeErr (List α))
    (rec : List Byte) (l : List α) : Prop :=
  typeOf rec = some typ ∧ decode [] rec = .ok l

/-- **Every record is decoded to what it was made of**, tombstones to one for each interval. -/
theorem decode_encode_records (series : List RefSeries) (samples : List RefSample)
    (tstones : List Stone) (exemplars : List RefExemplar) (markers : List RefMmapMarker)
    (metadata : List RefMetadata) :
    Decodes .series decodeSeries (encodeSeries series []) series ∧
    Decodes .samples (fun _ => decodeSamples) (encodeSamples samples []) samples ∧
    Decodes .tombstones decodeTombstones (encodeTombstones tstones [])
      (tstones.flatMap Stone.split) ∧
    Decodes .exemplars decodeExemplars (encodeExemplars exemplars []) exemplars ∧
    Decodes .mmapMarkers decodeMmapMarkers (encodeMmapMarkers markers []) markers ∧
    Decodes .metadata decodeMetadata (encodeMetadata metadata []) metadata :=
  ⟨⟨typeOf_code _ _, decodeSeries_encodeSeries series []⟩,
    ⟨typeOf_code _ _, decodeSamples_encodeSamples samples⟩,
    ⟨typeOf_code _ _, decodeTombstones_encodeTombstones tstones []⟩,
    ⟨typeOf_code _ _, decodeExemplars_encodeExemplars exemplars []⟩,
    ⟨typeOf_code _ _, decodeMmapMarkers_encodeMmapMarkers markers []⟩,
    typeOf_code _ _, decodeMetadata_encodeMetadata metadata []⟩

end TopcDB.Tsdb.Record
