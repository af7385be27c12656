import TopcDB.Wlog.RoundTrip
import TopcDB.Tsdb.HistogramRecord

/-! # Checkpoints (`checkpoint.go`)

A checkpoint reads the records of the previous checkpoint and of some segments, drops the entries
that are not needed any more, and writes the others to segments of its own; records are collected
as slices of one buffer and logged in batches. What it writes is what a filter leaves of all
entries, in their order, and the latest metadata of every series that is kept
(`checkpoint_content`). -/

namespace TopcDB.Wlog.Checkpoint

open List Lib.Bits Lib.Assoc Lib.Codec Go.Basic Tsdb.Record Tsdb.HistogramRecord Layout Writer
open Reading RoundTrip
open Tsdb.Encoding (Dec)

variable {α : Type}

/-- The errors of `Checkpoint`: "unexpected gap to last checkpoint", "decode …", "read segments". -/
inductive CheckpointErr
  | gap (expected requested : ℕ)
  | decode (entries : String) (e : DecodeErr)
  | read (e : Reading.Err)

/-! ### The segments -/

/-- The directory of a log: its most recent checkpoint, with the number it is named after, and its
segments. -/
structure Dir where
  checkpoint : Option (ℕ × List (List Byte))
  segments : List (ℕ × List Byte)

/-- The files of the segments with a number from `first` to `last`. -/
def Dir.range (d : Dir) (first last : ℕ) : List (List Byte) :=
  (d.segments.filter fun s => first ≤ s.1 ∧ s.1 ≤ last).map Prod.snd

/-- The segments a checkpoint of the segments `first` to `last` reads. -/
def sources (d : Dir) (first last : ℕ) : Except CheckpointErr (List (List Byte)) :=
  match d.checkpoint with
  | none => .ok (d.range first last)
  | some (idx, files) =>
    if first > idx + 1 then .error (.gap (idx + 1) first)
    else .ok (files ++ d.range (idx + 1) last)

/-! ### Records -/

/-- The variables of the loop: `recs` holds slices of `buf`, by their bounds; `logged` are the calls
of `cp.Log`. -/
structure Batch where
  buf : List Byte
  recs : List (ℕ × ℕ)
  latestMetadataMap : AssocMap U64 RefMetadata
  logged : List (List (List Byte))

def slices (buf : List Byte) (recs : List (ℕ × ℕ)) : List (List Byte) :=
  recs.map fun p => (buf.take p.2).drop p.1

/-- The entries that satisfy `p`, encoded behind `buf` if there are any. -/
def keepEntries (entries : String)
    (dec : List α → List Byte → Except DecodeErr (List α)) (enc : List α → List Byte → List Byte)
    (p : α → Bool) (rec buf : List Byte) : Except CheckpointErr (List Byte) :=
  match dec [] rec with
  | .error e => .error (.decode entries e)
  | .ok l =>
    let repl := l.filter p
    .ok (if 0 < repl.length then enc repl buf else buf)

/-- What follows the encoding: the new bytes are a record, and records are logged in batches of
1 MB. -/
def Batch.add (s : Batch) (buf : List Byte) : Batch :=
  if (buf.drop s.buf.length).length = 0 then { s with buf := buf }
  else
    let recs := s.recs ++ [(s.buf.length, buf.length)]
    if buf.length > 1 * 1024 * 1024 then
      { s with buf := [], recs := [], logged := s.logged ++ [slices buf recs] }
    else { s with buf := buf, recs := recs }

variable (keep : U64 → Bool) (mint : I64)

/-- The metadata of a kept series goes to the map. -/
def collectMetadata (latest : AssocMap U64 RefMetadata) (metadata : List RefMetadata) :
    AssocMap U64 RefMetadata :=
  metadata.foldl (fun latest m => if keep m.ref then latest.set m.ref m else latest) latest

def step (s : Batch) (rec : List Byte) : Except CheckpointErr Batch :=
  match typeOf rec with
  | some .series =>
    (keepEntries "series" decodeSeries encodeSeries (fun x => keep x.ref) rec s.buf).map s.add
  | some .samples =>
    (keepEntries "samples" (fun _ => decodeSamples) encodeSamples (fun x => mint.sle x.t) rec
      s.buf).map s.add
  | some .histogramSamples =>
    (keepEntries "histogram samples" decodeHistogramSamples encodeHistogramSamples
      (fun x => mint.sle x.t) rec s.buf).map s.add
  | some .floatHistogramSamples =>
    (keepEntries "float histogram samples" decodeFloatHistogramSamples encodeFloatHistogramSamples
      (fun x => mint.sle x.t) rec s.buf).map s.add
  | some .tombstones =>
    (keepEntries "deletes" decodeTombstones encodeTombstones
      (fun x => x.intervals.any fun iv => mint.sle iv.maxt) rec s.buf).map s.add
  | some .exemplars =>
    (keepEntries "exemplars" decodeExemplars encodeExemplars (fun x => mint.sle x.t) rec
      s.buf).map s.add
  | some .metadata =>
    match decodeMetadata [] rec with
    | .error e => .error (.decode "metadata" e)
    | .ok metadata =>
      .ok ({ s with latestMetadataMap := collectMetadata keep s.latestMetadataMap metadata }.add
        s.buf)
  | some .mmapMarkers | none => .ok s

/-- The calls of `cp.Log` for the records a reader returned; `order` is that of the map. -/
def checkpointLog (order : RangeOrder (U64 × RefMetadata))
    (input : List (List Byte) × Option Reading.Err) :
    Except CheckpointErr (List (List (List Byte))) := do
  let s ← input.1.foldlM (step keep mint) ⟨[], [], .empty, []⟩
  match input.2 with
  | some e => .error (.read e)
  | none =>
    let calls := s.logged ++ [slices s.buf s.recs]
    if 0 < s.latestMetadataMap.entries.length then
      let latestMetadata := (order.visit s.latestMetadataMap.entries).map Prod.snd
      pure (calls ++ [[encodeMetadata latestMetadata []]])
    else pure calls

/-- `DefaultSegmentSize`, in pages. -/
def defaultPages : ℕ := 128 * 1024 * 1024 / pageSize

/-- `Checkpoint`: the files of the new checkpoint. -/
def checkpoint (chunk : ℕ → ℕ → ℕ) (k : Codecs) (compress : CompressionType)
    (order : RangeOrder (U64 × RefMetadata)) (d : Dir) (first last : ℕ) :
    Except CheckpointErr (List (List Byte)) := do
  let files ← sources d first last
  let calls ← checkpointLog keep mint order (readAll chunk k files)
  pure (logAll k (newSize defaultPages compress) calls).files

/-! ### Entries -/

/-- An entry of a record, of any of the types that a checkpoint reads. -/
inductive Entry
  | series (s : RefSeries)
  | sample (s : RefSample)
  | histogram (s : RefHistogramSample)
  | floatHistogram (s : RefFloatHistogramSample)
  | tombstone (s : Stone)
  | exemplar (e : RefExemplar)
  | metadata (m : RefMetadata)

def tagged (entries : String) (tag : α → Entry) :
    Except DecodeErr (List α) → Except CheckpointErr (List Entry)
  | .error e => .error (.decode entries e)
  | .ok l => .ok (l.map tag)

/-- The entries of a record; one of another type counts as empty. -/
def entries (rec : List Byte) : Except CheckpointErr (List Entry) :=
  match typeOf rec with
  | some .series => tagged "series" .series (decodeSeries [] rec)
  | some .samples => tagged "samples" .sample (decodeSamples rec)
  | some .histogramSamples =>
    tagged "histogram samples" .histogram (decodeHistogramSamples [] rec)
  | some .floatHistogramSamples =>
    tagged "float histogram samples" .floatHistogram (decodeFloatHistogramSamples [] rec)
  | some .tombstones => tagged "deletes" .tombstone (decodeTombstones [] rec)
  | some .exemplars => tagged "exemplars" .exemplar (decodeExemplars [] rec)
  | some .metadata => tagged "metadata" .metadata (decodeMetadata [] rec)
  | some .mmapMarkers | none => .ok []

/-- The entries of the records, one record behind the other. -/
def allEntries : List (List Byte) → Except CheckpointErr (List Entry)
  | [] => .ok []
  | rec :: recs => do
    let es ← entries rec
    let rest ← allEntries recs
    pure (es ++ rest)

/-- The entries a checkpoint keeps in their place. -/
def Entry.kept (keep : U64 → Bool) (mint : I64) : Entry → Bool
  | .series s => keep s.ref
  | .sample s => mint.sle s.t
  | .histogram s => mint.sle s.t
  | .floatHistogram s => mint.sle s.t
  | .tombstone s => s.intervals.any fun iv => mint.sle iv.maxt
  | .exemplar e => mint.sle e.t
  | .metadata _ => false

def Entry.metadata? : Entry → Option RefMetadata
  | .metadata m => some m
  | _ => none

/-- The latest metadata of a series. -/
def latest (es : List Entry) (ref : U64) : Option RefMetadata :=
  (es.filterMap Entry.metadata?).reverse.find? fun m => m.ref = ref

/-- A record of a type that a checkpoint writes. -/
def Known (rec : List Byte) : Prop := typeOf rec ≠ none ∧ typeOf rec ≠ some .mmapMarkers

/-- The records hold what a checkpoint keeps of the entries `es`. -/
structure Content (keep : U64 → Bool) (mint : I64) (es : List Entry) (recs : List (List Byte)) :
    Prop where
  entries : ∃ ms : List RefMetadata,
    allEntries recs = .ok (es.filter (Entry.kept keep mint) ++ ms.map .metadata) ∧
    (ms.map RefMetadata.ref).Nodup ∧ ∀ m, m ∈ ms ↔ keep m.ref = true ∧ latest es m.ref = some m
  known : ∀ rec ∈ recs, Known rec

theorem allEntries_append {l l' : List (List Byte)} {es es' : List Entry}
    (h : allEntries l = .ok es) (h' : allEntries l' = .ok es') :
    allEntries (l ++ l') = .ok (es ++ es') := by
  induction l generalizing es with
  | nil =>
    cases h
    exact h'
  | cons rec l ih =>
    rw [allEntries] at h
    obtain ⟨e₁, h₁, h⟩ := bind_eq_ok h
    obtain ⟨e₂, h₂, h⟩ := bind_eq_ok h
    cases h
    rw [cons_append, allEntries, h₁, ih h₂, append_assoc]
    rfl

/-! ### One record -/

/-- All records, logged or still in the buffer. -/
def Batch.outs (s : Batch) : List (List Byte) := s.logged.flatten ++ slices s.buf s.recs

/-- The slices lie in the buffer. -/
def Batch.Within (s : Batch) : Prop := ∀ p ∈ s.recs, p.2 ≤ s.buf.length

variable {buf rec : List Byte}

theorem slices_append {recs : List (ℕ × ℕ)} (h : ∀ p ∈ recs, p.2 ≤ buf.length) (new : List Byte) :
    slices (buf ++ new) recs = slices buf recs := by
  refine map_congr_left fun p hp => ?_
  rw [take_append_of_le_length (h p hp)]

variable {s s₁ s₂ : Batch}

theorem Batch.outs_add (h : s.Within) (new : List Byte) :
    (s.add (s.buf ++ new)).outs = s.outs ++ (if new = [] then [] else [new]) ∧
      (s.add (s.buf ++ new)).Within ∧
      (s.add (s.buf ++ new)).latestMetadataMap = s.latestMetadataMap := by
  have hslices : slices (s.buf ++ new) (s.recs ++ [(s.buf.length, (s.buf ++ new).length)]) =
      slices s.buf s.recs ++ [new] := by
    rw [slices, map_append, ← slices, slices_append h, map_singleton, take_length,
      drop_left]
  rw [Batch.add, drop_left]
  by_cases hnew : new = []
  · subst hnew
    simpa [Batch.outs] using h
  · rw [if_neg (by simpa using hnew), if_neg hnew]
    split_ifs
    · refine ⟨?_, fun p hp => absurd hp (by simp), rfl⟩
      simp only [Batch.outs, hslices, flatten_append, flatten_singleton]
      simp [slices]
    · refine ⟨by simp only [Batch.outs, hslices, append_assoc], fun p hp => ?_, rfl⟩
      rcases mem_append.1 hp with hp | hp
      · exact (h p hp).trans (by simp)
      · rw [mem_singleton.1 hp]

section Steps

variable {keep : U64 → Bool} {mint : I64}

/-- What a record with the entries `es` adds. -/
structure Adds (keep : U64 → Bool) (mint : I64) (s s' : Batch) (es : List Entry) : Prop where
  within : s'.Within
  outs : ∃ new, s'.outs = s.outs ++ new ∧
    allEntries new = .ok (es.filter (Entry.kept keep mint)) ∧ ∀ rec ∈ new, Known rec
  latest : s'.latestMetadataMap =
    collectMetadata keep s.latestMetadataMap (es.filterMap Entry.metadata?)

/-- A step for a record: an error of the decoder, or what the record's entries add. -/
def StepOf (keep : U64 → Bool) (mint : I64) (s : Batch) (rec : List Byte)
    (r : Except CheckpointErr Batch) : Prop :=
  (∃ e, entries rec = .error e ∧ r = .error e) ∨
    ∃ es s', entries rec = .ok es ∧ r = .ok s' ∧ Adds keep mint s s' es

theorem stepOf_keepEntries {typ : RecordType} {name : String}
    {dec : List α → List Byte → Except DecodeErr (List α)} {enc : List α → List Byte → List Byte}
    {p : α → Bool} {tag : α → Entry} (hw : s.Within) (hrec : typeOf rec = some typ)
    (htyp : typ ≠ .mmapMarkers) (henc : ∀ l b, enc l b = b ++ enc l [])
    (hout : ∀ l, typeOf (enc l []) = some typ)
    (hent : ∀ r, typeOf r = some typ → entries r = tagged name tag (dec [] r))
    (hread : ∀ l, dec [] rec = .ok l → dec [] (enc (l.filter p) []) = .ok (l.filter p))
    (hkept : ∀ x, (tag x).kept keep mint = p x) (hmeta : ∀ x, (tag x).metadata? = none) :
    StepOf keep mint s rec ((keepEntries name dec enc p rec s.buf).map s.add) := by
  rcases hdec : dec [] rec with e | l
  · refine .inl ⟨_, by rw [hent rec hrec, hdec]; rfl, ?_⟩
    rw [keepEntries, hdec]
    rfl
  · -- the new bytes of the buffer
    obtain ⟨new, hnew, hall, hknown⟩ : ∃ new,
        keepEntries name dec enc p rec s.buf = .ok (s.buf ++ new) ∧
        allEntries (if new = [] then [] else [new]) =
          .ok ((l.map tag).filter (Entry.kept keep mint)) ∧
        (new ≠ [] → Known new) := by
      have hfilter : (l.map tag).filter (Entry.kept keep mint) = (l.filter p).map tag := by
        rw [filter_map]
        congr 1
        exact filter_congr fun x _ => hkept x
      rw [keepEntries, hdec, hfilter]
      by_cases hnil : l.filter p = []
      · exact ⟨[], by simp [hnil], by simp [hnil, allEntries], fun h => absurd rfl h⟩
      · have hne : enc (l.filter p) [] ≠ [] := fun h => by
          have := hout (l.filter p)
          rw [h] at this
          cases this
        refine ⟨enc (l.filter p) [], ?_, ?_, fun _ => ?_⟩
        · rw [← henc]
          simp [length_pos_iff.2 hnil]
        · rw [if_neg hne, allEntries, hent _ (hout _), hread l hdec]
          simp [tagged, allEntries]
          rfl
        · rw [Known, hout]
          exact ⟨by simp, fun h => htyp (Option.some.inj h)⟩
    obtain ⟨houts, hwithin, hlatest⟩ := Batch.outs_add hw new
    refine .inr ⟨l.map tag, s.add (s.buf ++ new), by rw [hent rec hrec, hdec]; rfl,
      by rw [hnew]; rfl, hwithin, ⟨_, houts, hall, ?_⟩, ?_⟩
    · intro r hr
      split_ifs at hr with hnil
      · cases hr
      · rw [mem_singleton.1 hr]
        exact hknown hnil
    · rw [hlatest, filterMap_map]
      have hnone : (Entry.metadata? ∘ tag) = fun _ => none := funext hmeta
      rw [hnone]
      simp [collectMetadata]

theorem split_of_decodeTombstones {l : List Stone} (h : decodeTombstones [] rec = .ok l) :
    ∀ s ∈ l, s.split = [s] := by
  refine forall_of_decodeEntries ?_ h
  exact (always_true _).bind fun ref _ => (always_true _).bind fun mint _ =>
    (always_true _).bind fun maxt _ => always_pure rfl

theorem clear_of_decodeWith (count bucket : Dec U64) :
    Always (decodeWith count bucket) fun h => h.clear = h := by
  iterate 10 refine (always_true _).bind fun _ _ => ?_
  exact always_pure rfl

theorem clear_of_decodeBased {typ : RecordType} {count bucket : Dec U64}
    {l : List RefHistogramSample}
    (h : decodeBased typ "histograms" RefHistogramSample.mk (decodeWith count bucket) [] rec =
      .ok l) : ∀ s ∈ l, s.clear = s := by
  refine forall_of_decodeBased (clear_of_decodeWith count bucket) (fun ref t x hx => ?_) h
  rw [RefHistogramSample.clear, hx]

theorem map_filter_of_forall {f : α → α} {l : List α} (h : ∀ x ∈ l, f x = x) (p : α → Bool) :
    (l.filter p).map f = l.filter p := by
  rw [map_congr_left fun x hx => h x (mem_of_mem_filter hx), map_id']

/-- **One record.** -/
theorem stepOf_step (hw : s.Within) (rec : List Byte) :
    StepOf keep mint s rec (step keep mint s rec) := by
  rw [step]
  rcases hrec : typeOf rec with _ | typ
  · refine .inr ⟨[], s, by rw [entries, hrec], rfl, hw, ⟨[], by simp, rfl, by simp⟩, rfl⟩
  · cases typ
    case' series | samples | histogramSamples | floatHistogramSamples | tombstones | exemplars =>
      refine stepOf_keepEntries hw hrec (by decide) (fun _ _ => rfl) (fun l => typeOf_code _ _)
        (fun r hr => by rw [entries, hr]) (fun l hl => ?_) (fun _ => rfl) (fun _ => rfl)
    case series => rw [decodeSeries_encodeSeries, nil_append]
    case samples => rw [decodeSamples_encodeSamples]
    case histogramSamples =>
      rw [decodeHistogramSamples_encode, nil_append,
        map_filter_of_forall (clear_of_decodeBased hl)]
    case floatHistogramSamples =>
      rw [decodeFloatHistogramSamples_encode, nil_append,
        map_filter_of_forall (clear_of_decodeBased hl)]
    case tombstones =>
      have hsplit := split_of_decodeTombstones hl
      rw [decodeTombstones_encodeTombstones, nil_append,
        flatMap_congr fun s hs => hsplit s (mem_of_mem_filter hs),
        flatMap_singleton']
    case exemplars => rw [decodeExemplars_encodeExemplars, nil_append]
    case metadata =>
      simp only
      rcases hdec : decodeMetadata [] rec with e | ms
      · exact .inl ⟨_, by rw [entries, hrec]; simp only; rw [hdec]; rfl, rfl⟩
      · let s₁ : Batch := ⟨s.buf, s.recs, collectMetadata keep s.latestMetadataMap ms, s.logged⟩
        obtain ⟨houts, hwithin, hlatest⟩ := Batch.outs_add (s := s₁) hw []
        rw [append_nil] at houts hwithin hlatest
        refine .inr ⟨ms.map .metadata, s₁.add s₁.buf,
          by rw [entries, hrec]; simp only; rw [hdec]; rfl,
          rfl, hwithin, ⟨[], houts, ?_, by simp⟩, ?_⟩
        · have hnone : (ms.map Entry.metadata).filter (Entry.kept keep mint) = [] := by
            simp [filter_eq_nil_iff, Entry.kept]
          rw [hnone]
          rfl
        · have hall : (ms.map Entry.metadata).filterMap Entry.metadata? = ms := by
            simp [filterMap_map, Entry.metadata?, Function.comp_def]
          rw [hlatest, hall]
    case mmapMarkers =>
      refine .inr ⟨[], s, by rw [entries, hrec], rfl, hw, ⟨[], by simp, rfl, by simp⟩, rfl⟩

/-! ### All records -/

theorem Adds.trans {es₁ es₂ : List Entry} (h₁ : Adds keep mint s s₁ es₁)
    (h₂ : Adds keep mint s₁ s₂ es₂) : Adds keep mint s s₂ (es₁ ++ es₂) := by
  obtain ⟨new₁, houts₁, hall₁, hknown₁⟩ := h₁.outs
  obtain ⟨new₂, houts₂, hall₂, hknown₂⟩ := h₂.outs
  refine ⟨h₂.within, ⟨new₁ ++ new₂, by rw [houts₂, houts₁, append_assoc], ?_, ?_⟩, ?_⟩
  · rw [filter_append]
    exact allEntries_append hall₁ hall₂
  · intro r hr
    exact (mem_append.1 hr).elim (hknown₁ r) (hknown₂ r)
  · rw [h₂.latest, h₁.latest, filterMap_append, collectMetadata, collectMetadata,
      collectMetadata, foldl_append]

variable (keep mint) in
/-- **The loop** adds what the entries of all records add, or stops at the first record that is not
decoded. -/
theorem foldlM_step (recs : List (List Byte)) (hw : s.Within) :
    (∃ e, allEntries recs = .error e ∧ recs.foldlM (step keep mint) s = .error e) ∨
      ∃ es s', allEntries recs = .ok es ∧ recs.foldlM (step keep mint) s = .ok s' ∧
        Adds keep mint s s' es := by
  induction recs generalizing s with
  | nil => exact .inr ⟨[], s, rfl, rfl, hw, ⟨[], by simp, rfl, by simp⟩, rfl⟩
  | cons rec recs ih =>
    rw [allEntries, foldlM_cons]
    obtain ⟨e, hent, hstep⟩ | ⟨es, s₁, hent, hstep, hadds⟩ := stepOf_step hw rec
    · exact .inl ⟨e, by rw [hent]; rfl, by rw [hstep]; rfl⟩
    · rw [hent, hstep]
      obtain ⟨e, hall, hrun⟩ | ⟨es', s', hall, hrun, hadds'⟩ := ih hadds.within
      · exact .inl ⟨e, by rw [hall]; rfl, hrun⟩
      · exact .inr ⟨es ++ es', s', by rw [hall]; rfl, hrun, hadds.trans hadds'⟩

theorem get?_collectMetadata (m : AssocMap U64 RefMetadata) (ms : List RefMetadata) (ref : U64) :
    (collectMetadata keep m ms).get? ref =
      if keep ref then (ms.reverse.find? fun x => x.ref = ref).or (m.get? ref) else m.get? ref := by
  induction ms using List.reverseRecOn with
  | nil => simp [collectMetadata]
  | append_singleton ms x ih =>
    rw [collectMetadata, foldl_concat, ← collectMetadata, reverse_append,
      reverse_singleton, singleton_append, find?_cons]
    by_cases hx : keep x.ref = true
    · rw [if_pos hx, AssocMap.get?_set, ih]
      by_cases href : ref = x.ref
      · simp [href, hx]
      · simp [href, Ne.symm href]
    · rw [if_neg hx, ih]
      split_ifs with hkeep
      · have href : x.ref ≠ ref := fun h => hx (h ▸ hkeep)
        simp [href]
      · rfl

end Steps

theorem metadata_of_map {keep : U64 → Bool} {es : List Entry} {m : AssocMap U64 RefMetadata}
    (hm : m = collectMetadata keep .empty (es.filterMap Entry.metadata?))
    (order : RangeOrder (U64 × RefMetadata)) :
    (((order.visit m.entries).map Prod.snd).map RefMetadata.ref).Nodup ∧
      ∀ x, x ∈ (order.visit m.entries).map Prod.snd ↔
        keep x.ref = true ∧ latest es x.ref = some x := by
  have hget : ∀ ref, m.get? ref = if keep ref then latest es ref else none := by
    intro ref
    have hnone : (AssocMap.empty : AssocMap U64 RefMetadata).get? ref = none := rfl
    rw [hm, get?_collectMetadata, hnone, Option.or_none]
    rfl
  have hmem : ∀ p, p ∈ m.entries ↔ keep p.1 = true ∧ latest es p.1 = some p.2 := by
    rintro ⟨ref, x⟩
    rw [← AssocMap.get?_eq_some_iff, hget]
    split_ifs with hk <;> simp [hk]
  -- an entry is stored under its own reference
  have href : ∀ p ∈ m.entries, p.2.ref = p.1 := by
    intro p hp
    simpa using find?_some ((hmem p).1 hp).2
  have hperm := order.perm m.entries
  constructor
  · have hmap : ((order.visit m.entries).map Prod.snd).map RefMetadata.ref =
        (order.visit m.entries).map Prod.fst := by
      rw [map_map]
      exact map_congr_left fun p hp => href p (hperm.mem_iff.1 hp)
    rw [hmap]
    exact (hperm.map Prod.fst).nodup_iff.2 m.nodup
  · intro x
    rw [mem_map]
    constructor
    · rintro ⟨p, hp, rfl⟩
      have hp := hperm.mem_iff.1 hp
      rw [href p hp]
      exact (hmem p).1 hp
    · rintro ⟨hk, hlat⟩
      exact ⟨(x.ref, x), hperm.mem_iff.2 ((hmem _).2 ⟨hk, hlat⟩), rfl⟩

/-! ### The checkpoint -/

variable (keep : U64 → Bool) (mint : I64) (order : RangeOrder (U64 × RefMetadata))

theorem checkpointLog_content (input : List (List Byte) × Option Reading.Err) :
    (∃ e, allEntries input.1 = .error e ∧ checkpointLog keep mint order input = .error e) ∨
    ∃ es, allEntries input.1 = .ok es ∧
      ((∃ e, input.2 = some e ∧ checkpointLog keep mint order input = .error (.read e)) ∨
        input.2 = none ∧ ∃ calls, checkpointLog keep mint order input = .ok calls ∧
          Content keep mint es calls.flatten) := by
  have hw : Batch.Within ⟨[], [], .empty, []⟩ := fun p hp => absurd hp (by simp)
  obtain ⟨e, hall, hrun⟩ | ⟨es, s, hall, hrun, hadds⟩ :=
    foldlM_step keep mint input.1 hw
  · exact .inl ⟨e, hall, by rw [checkpointLog, hrun]; rfl⟩
  · refine .inr ⟨es, hall, ?_⟩
    rcases herr : input.2 with _ | e
    · refine .inr ⟨rfl, ?_⟩
      obtain ⟨new, houts, hnew, hknown⟩ := hadds.outs
      obtain ⟨hnodup, hmem⟩ := metadata_of_map hadds.latest order
      have hflat : (s.logged ++ [slices s.buf s.recs]).flatten = new := by
        rw [flatten_append, flatten_singleton]
        exact houts
      have hlog : checkpointLog keep mint order input =
          if 0 < s.latestMetadataMap.entries.length then
            .ok (s.logged ++ [slices s.buf s.recs] ++
              [[encodeMetadata ((order.visit s.latestMetadataMap.entries).map Prod.snd) []]])
          else .ok (s.logged ++ [slices s.buf s.recs]) := by
        rw [checkpointLog, hrun, herr]
        rfl
      rw [hlog]
      set ms := (order.visit s.latestMetadataMap.entries).map Prod.snd with hms
      split_ifs with hpos
      · have htyp : typeOf (encodeMetadata ms []) = some .metadata := typeOf_code _ _
        have hmeta : entries (encodeMetadata ms []) = .ok (ms.map .metadata) := by
          rw [entries, htyp]
          simp only
          rw [decodeMetadata_encodeMetadata]
          rfl
        refine ⟨_, rfl, ⟨ms, ?_, hnodup, hmem⟩, ?_⟩
        · rw [flatten_append, hflat]
          refine allEntries_append hnew ?_
          show (entries (encodeMetadata ms []) >>= fun es => pure (es ++ [])) = _
          rw [hmeta]
          exact congrArg Except.ok (append_nil _)
        · rw [flatten_append, hflat, flatten_singleton]
          intro r hr
          rcases mem_append.1 hr with hr | hr
          · exact hknown r hr
          · rw [mem_singleton.1 hr, Known, htyp]
            exact ⟨by simp, by simp⟩
      · have hnil : ms = [] := by
          have hent : s.latestMetadataMap.entries = [] := eq_nil_of_length_eq_zero (by omega)
          rw [hms, hent, (order.perm []).eq_nil]
          rfl
        rw [hnil] at hmem
        refine ⟨_, rfl, ⟨[], ?_, by simp, hmem⟩, by rwa [hflat]⟩
        rw [hflat, map_nil, append_nil, hnew]
    · refine .inl ⟨e, rfl, ?_⟩
      rw [checkpointLog, hrun, herr]
      rfl

/-- **The content of a checkpoint.** Either the segments cannot be taken together, or a record of
them is not decoded, or the reader ends with an error, and the checkpoint fails with that error; or
the records of the new checkpoint, as a reader returns them, hold in the same order the entries of
the segments' records that are kept, and behind them the latest metadata of every kept series. -/
theorem checkpoint_content (chunk : ℕ → ℕ → ℕ) (k : Codecs) (compress : CompressionType) (d : Dir)
    (first last : ℕ) :
    (∃ e, sources d first last = .error e ∧
      checkpoint keep mint chunk k compress order d first last = .error e) ∨
    ∃ files, sources d first last = .ok files ∧
      ((∃ e, allEntries (readAll chunk k files).1 = .error e ∧
        checkpoint keep mint chunk k compress order d first last = .error e) ∨
      ∃ es, allEntries (readAll chunk k files).1 = .ok es ∧
        ((∃ e, (readAll chunk k files).2 = some e ∧
          checkpoint keep mint chunk k compress order d first last = .error (.read e)) ∨
        (readAll chunk k files).2 = none ∧
          ∃ out, checkpoint keep mint chunk k compress order d first last = .ok out ∧
            (readAll chunk k out).2 = none ∧ Content keep mint es (readAll chunk k out).1)) := by
  rw [checkpoint]
  rcases hsrc : sources d first last with e | files
  · exact .inl ⟨e, rfl, rfl⟩
  · refine .inr ⟨files, rfl, ?_⟩
    have hok : ∀ f : List (List Byte) → Except CheckpointErr (List (List Byte)),
        (Except.ok files >>= f) = f files := fun _ => rfl
    rw [hok]
    obtain ⟨e, hall, hlog⟩ | ⟨es, hall, ⟨e, herr, hlog⟩ | ⟨herr, calls, hlog, hcont⟩⟩ :=
      checkpointLog_content keep mint order (readAll chunk k files)
    · exact .inl ⟨e, hall, by rw [hlog]; rfl⟩
    · exact .inr ⟨es, hall, .inl ⟨e, herr, by rw [hlog]; rfl⟩⟩
    · obtain ⟨groups, hgroups, hfiles⟩ := fileOf_logAll k defaultPages compress calls
      refine .inr ⟨es, hall, .inr ⟨herr, _, by rw [hlog]; rfl, ?_⟩⟩
      rw [readAll_files chunk k hfiles, hgroups]
      exact ⟨rfl, hcont⟩

end TopcDB.Wlog.Checkpoint
