import TopcDB.Tsdb.HeadAppender
import TopcDB.Tsdb.Record

/-! # The write-behind log of a commit (`appenderCommitContext`)

A commit inserts its samples out of order into the head chunks of their series and collects what it
did in records: the samples it inserted, and a marker wherever a series got a new head chunk. The
records are flushed before each marker, so that they have the order in which the chunks changed
(`Logs.commit`), whatever series the samples are of. -/

namespace TopcDB.Tsdb.WblCommit

open Option Function List Lib.Bits Lib.Assoc Lib.Machine Go.Basic Chunkenc.Huffman Record HeadSeries
open OooHead OooSeries HeadAppender
open Storage.Merge (minInt64)
open Storage.Series (maxInt64)

variable {H FH A FA : Type}

/-! ### The commit -/

/-- What `appendable` says of a sample of the appender. -/
inductive Verdict
  | refused
  | inOrder
  | outOfOrder
  deriving DecidableEq

/-- `appenderCommitContext`, as far as out-of-order floats go. -/
structure CommitContext where
  wblSamples : List RefSample
  oooMmapMarkers : Option (AssocMap U64 (List U64))
  oooRecords : List (List Byte)

/-- The markers of a map that is visited in the order `order`. -/
def markersOf (order : RangeOrder (U64 × List U64)) (m : AssocMap U64 (List U64)) :
    List RefMmapMarker :=
  (order.visit m.entries).flatMap fun e => e.2.map fun mmapRef => ⟨e.1, mmapRef⟩

namespace CommitContext

variable (acc : CommitContext) (order : RangeOrder (U64 × List U64))

/-- **`collectOOORecords`**: the markers come first, as a chunk is m-mapped before the sample that
found it full. -/
def collectOOORecords : CommitContext :=
  let markers := match acc.oooMmapMarkers with
    | some m => [encodeMmapMarkers (markersOf order m) []]
    | none => []
  let samples := if acc.wblSamples = [] then [] else [encodeSamples acc.wblSamples []]
  ⟨[], none, acc.oooRecords ++ markers ++ samples⟩

/-- A series got a new chunk. -/
def addMarkers (ref : U64) (mmapRefs : List ℕ) : CommitContext :=
  let acc :=
    match acc.oooMmapMarkers.bind fun m => m.get? ref with
    | none => acc.collectOOORecords order
    | some r => if r ≠ [] then acc.collectOOORecords order else acc
  -- no chunk was written to disk, so an initial marker is set for the series
  let markers := if 0 < mmapRefs.length then mmapRefs.map (BitVec.ofNat 64) else [0]
  { acc with oooMmapMarkers := some ((acc.oooMmapMarkers.getD .empty).set ref markers) }

/-- What the commit notes of an insertion. -/
def add (s : RefSample) (ok chunkCreated : Bool) (mmapRefs : List ℕ) : CommitContext :=
  let acc := if chunkCreated then acc.addMarkers order s.ref mmapRefs else acc
  if ok then { acc with wblSamples := acc.wblSamples ++ [s] } else acc

end CommitContext

/-- The head: its series by their references, with their out-of-order parts, and its WBL. -/
structure Head (H FH A FA : Type) where
  refs : List U64
  ooo : U64 → Option (OOOFields H FH)
  mapper : Mapper A FA
  wbl : List (List Byte)

def newHead : Head H FH A FA := ⟨[], fun _ => none, [], []⟩

variable (E : Env U64 H FH A FA) (o : HeadOpts)

variable (order : RangeOrder (U64 × List U64)) (ranges : Ranges)

/-- One turn of `commitSamples`; only samples out of order concern the WBL. -/
def commitSample (p : CommitContext × Head H FH A FA) (verdict : Verdict) (s : RefSample) :
    Except Fault (CommitContext × Head H FH A FA) :=
  match verdict with
  | .refused | .inOrder => .ok p
  | .outOfOrder =>
    (OOOFields.insert E (p.2.ooo s.ref) p.2.mapper o.oooCapMax ranges s.t s.v none none
      o.errorBound).map fun i =>
      (p.1.add order s i.ok i.chunkCreated i.mmapRefs,
        { p.2 with ooo := Function.update p.2.ooo s.ref (some i.ooo), mapper := i.mapper })

def commitSamples : List (Verdict × RefSample) → CommitContext × Head H FH A FA →
    Except Fault (CommitContext × Head H FH A FA)
  | [], p => .ok p
  | (verdict, s) :: rest, p => do
    let p ← commitSample E o order ranges p verdict s
    commitSamples rest p

/-- `Commit`. The appender has samples of series of the head only. -/
def commit (samples : List (Verdict × RefSample)) (h : Head H FH A FA) :
    Except Fault (Head H FH A FA) := do
  let samples := samples.filter fun p => p.2.ref ∈ h.refs
  let (acc, h) ← commitSamples E o order ranges samples (⟨[], none, []⟩, h)
  .ok { h with wbl := h.wbl ++ (acc.collectOOORecords order).oooRecords }

/-- A compaction of the out-of-order head m-maps the head chunk of the series; it does not write to
the WBL. -/
def mmapOOO (ref : U64) (h : Head H FH A FA) : Except Fault (Head H FH A FA) :=
  match h.ooo ref with
  | none => .ok h
  | some s => do
    let (s, mapper, _) ← s.mmapCurrentOOOHeadChunk E h.mapper ranges
    .ok { h with ooo := Function.update h.ooo ref (some s), mapper := mapper }

inductive Op
  | create (ref : U64)
  | commit (order : RangeOrder (U64 × List U64)) (ranges : Ranges)
      (samples : List (Verdict × RefSample))
  | mmapOOO (ranges : Ranges) (ref : U64)

def exec (h : Head H FH A FA) : Op → Except Fault (Head H FH A FA × Option Empty)
  | .create ref => .ok ({ h with refs := if ref ∈ h.refs then h.refs else ref :: h.refs }, none)
  | .commit order ranges samples => (commit E o order ranges samples h).map fun h => (h, none)
  | .mmapOOO ranges ref => (mmapOOO E ranges ref h).map fun h => (h, none)

/-! ### One head chunk -/

/-- The samples of the head chunk of a series. -/
def headSamples (s : Option (OOOFields H FH)) : Option (List (OOOSample H FH)) :=
  (s.bind (·.oooHeadChunk)).map (·.chunk.samples)

/-- What happens to a head chunk. -/
inductive Change
  | clear
  | put (t : I64) (v : ℚ)

/-- The samples after one was inserted; a chunk that is full is left for a new one. -/
def put (cap : ℕ) (c : Option (List (OOOSample H FH))) (t : I64) (v : ℚ) : List (OOOSample H FH) :=
  match c.filter fun l => l.length ≠ cap with
  | none => [⟨t, v, none, none⟩]
  | some l => ((⟨l, 0⟩ : OOOChunk H FH).insert t v none none).2.samples

def change (cap : ℕ) (c : Option (List (OOOSample H FH))) : Change → Option (List (OOOSample H FH))
  | .clear => none
  | .put t v => some (put cap c t v)

/-- The samples of a head chunk: floats in the order of their times, not too many. -/
structure Floats (cap : ℕ) (l : List (OOOSample H FH)) : Prop where
  sorted : l.Pairwise fun x y => x.t.toInt < y.t.toInt
  floats : ∀ s ∈ l, s.h = none ∧ s.fh = none
  length_le : l.length ≤ cap

theorem insert_errbound (l : List (OOOSample H FH)) (e : ℚ) (t : I64) (v : ℚ) :
    (⟨l, e⟩ : OOOChunk H FH).insert t v none none =
      (((⟨l, 0⟩ : OOOChunk H FH).insert t v none none).1,
        ⟨((⟨l, 0⟩ : OOOChunk H FH).insert t v none none).2.samples, e⟩) := by
  unfold OOOChunk.insert
  split_ifs with hlast
  · rfl
  · simp only
    split
    · rfl
    · split_ifs <;> rfl

variable {cap : ℕ} {c : Option (List (OOOSample H FH))} {l : List (OOOSample H FH)}

theorem Floats.insert (h : Floats cap l) (hlt : l.length ≠ cap)
    (t : I64) (v : ℚ) : Floats cap ((⟨l, 0⟩ : OOOChunk H FH).insert t v none none).2.samples := by
  have hle := h.length_le
  rcases insert_cases (o := ⟨l, 0⟩) h.sorted t v none none with
    ⟨heq, -⟩ | ⟨l₁, l₂, hl, heq, hbefore, hafter⟩
  · rw [heq]
    exact h
  · obtain rfl : l = l₁ ++ l₂ := hl
    rw [heq]
    obtain ⟨h₁, h₂, h₁₂⟩ := pairwise_append.1 h.sorted
    refine ⟨?_, ?_, ?_⟩
    · refine pairwise_append.2 ⟨h₁, pairwise_cons.2 ⟨hafter, h₂⟩, fun x hx y hy => ?_⟩
      rcases mem_cons.1 hy with rfl | hy
      · exact hbefore x hx
      · exact h₁₂ x hx y hy
    · intro s hs
      simp only [mem_append, mem_cons] at hs
      rcases hs with hs | rfl | hs
      · exact h.floats s (mem_append_left _ hs)
      · exact ⟨rfl, rfl⟩
      · exact h.floats s (mem_append_right _ hs)
    · simp only [length_append, length_cons] at hle hlt ⊢
      omega

theorem floats_put (hcap : 0 < cap) (hc : ∀ l, c = some l → Floats cap l) (t : I64) (v : ℚ) :
    Floats cap (put cap c t v) := by
  rw [put]
  split
  · exact ⟨pairwise_singleton _ _, by simp, hcap⟩
  · rename_i l hl
    obtain ⟨hl, hlt⟩ := filter_eq_some_iff.1 hl
    exact (hc l hl).insert (by simpa using hlt) t v

theorem exists_toEncodedChunks (h : Floats o.oooCapMax l) (e : ℚ)
    (ranges : Ranges) (mint maxt : I64) :
    ∃ chks, (⟨l, e⟩ : OOOChunk H FH).toEncodedChunks E.ext ranges E.hist E.fhist mint maxt =
      .ok chks ∧ ∀ c ∈ chks, Blank c.chunk := by
  rw [OOOChunk.toEncodedChunks]
  split_ifs
  · exact ⟨[], rfl, by simp⟩
  obtain ⟨st, hloop, ⟨-, rfl⟩ | ⟨hne, a, cmint, cmaxt, rfl, hfa⟩⟩ :=
    Holding.loop E.ext ranges E.hist E.fhist mint maxt (.inl ⟨rfl, rfl⟩) h.sorted h.floats
  · exact ⟨[], by rw [hloop]; rfl, by simp⟩
  · have hlen : (ranged mint maxt l).length < 2 ^ 16 := by
      have h₁ : (ranged mint maxt l).length ≤ l.length := by
        rw [ranged, length_map]
        exact length_filter_le _ _
      have h₂ := h.length_le
      have h₃ := o.oooCapMax_le
      omega
    obtain ⟨a', hcompact, -⟩ := hfa.compact hne hlen E.ext ranges
    refine ⟨_, by rw [hloop]; simp only [ok_bind, Encoding.close, hcompact]; rfl, ?_⟩
    simpa using ⟨_, rfl, decode_floatApp hfa hne hlen hcompact⟩

theorem insert_eq_of_false {c : OOOChunk H FH} {t : I64} {v : ℚ}
    (hok : (c.insert t v none none).1 = false) : (c.insert t v none none).2 = c := by
  unfold OOOChunk.insert at hok ⊢
  split_ifs at hok ⊢ with hlast
  simp only at hok ⊢
  split at hok
  · simp at hok
  · split_ifs at hok ⊢ with ht
    · rfl

variable {E o}

/-- **`mmapCurrentOOOHeadChunk`** leaves no head chunk. -/
theorem mmapCurrentOOOHeadChunk_floats {s : OOOFields H FH}
    (hs : ∀ l, headSamples (some s) = some l → Floats o.oooCapMax l) (mapper : Mapper A FA)
    (ranges : Ranges) : ∃ s' mapper' refs,
      s.mmapCurrentOOOHeadChunk E mapper ranges = .ok (s', mapper', refs) ∧
      s'.oooHeadChunk = none := by
  rw [OOOFields.mmapCurrentOOOHeadChunk]
  rcases hc : s.oooHeadChunk with _ | c
  · exact ⟨s, mapper, [], rfl, hc⟩
  · obtain ⟨chks, henc, -⟩ := exists_toEncodedChunks E o
      (hs c.chunk.samples (by simp [headSamples, hc])) c.chunk.errbound ranges minInt64 maxInt64
    simp only [henc]
    exact ⟨_, _, _, rfl, rfl⟩

/-- **`memSeries.insert`** of a float: a new chunk has only that float, and one that is not inserted
changes nothing. -/
theorem insert_floats {s : Option (OOOFields H FH)}
    (hs : ∀ l, headSamples s = some l → Floats o.oooCapMax l) (mapper : Mapper A FA)
    (ranges : Ranges) (t : I64) (v : U64) (e : ℚ) :
    ∃ i, OOOFields.insert E s mapper o.oooCapMax ranges t v none none e = .ok i ∧
      headSamples (some i.ooo) = some (put o.oooCapMax (headSamples s) t (E.value v)) ∧
      (i.chunkCreated = true → i.ok = true ∧
        headSamples (some i.ooo) = some (put o.oooCapMax none t (E.value v))) ∧
      (i.chunkCreated = false → headSamples s ≠ none ∧
        (i.ok = false → headSamples (some i.ooo) = headSamples s)) := by
  have hinto : ∀ (s : OOOFields H FH) (c : OOOHeadChunk H FH) mapper created refs,
      headSamples (some (s.insertInto E c mapper created refs t v none none).ooo) =
        some (c.chunk.insert t (E.value v) none none).2.samples := by
    intro s c mapper created refs
    simp only [OOOFields.insertInto, headSamples, bind_some, map_some]
    split_ifs <;> rfl
  have hhead : headSamples s =
      ((s.getD ⟨[], none, 0⟩).oooHeadChunk).map (·.chunk.samples) := by
    cases s <;> rfl
  rw [OOOFields.insert]
  generalize s.getD ⟨[], none, 0⟩ = s' at hhead ⊢
  rw [hhead] at hs ⊢
  rcases hfull : s'.oooHeadChunk.filter fun c => c.chunk.samples.length ≠ o.oooCapMax with _ | c
  · have hput : ((s'.oooHeadChunk).map (·.chunk.samples)).filter
        (fun l => l.length ≠ o.oooCapMax) = none := by
      rw [filter_eq_none_iff] at hfull ⊢
      rintro l hl
      obtain ⟨c, hc, rfl⟩ := map_eq_some_iff.1 hl
      exact hfull c hc
    obtain ⟨s'', mapper', refs, hmmap, -⟩ :=
      mmapCurrentOOOHeadChunk_floats (E := E) hs mapper ranges
    have hnew : (newOOOChunkWithErrorBound e : OOOChunk H FH).insert t (E.value v) none none =
        (true, ⟨[⟨t, E.value v, none, none⟩], e⟩) := rfl
    simp only [hfull, OOOFields.cutNewOOOHeadChunk, hmmap]
    refine ⟨_, rfl, ?_, fun _ => ⟨?_, ?_⟩, fun hcreated => ?_⟩
    · rw [hinto, hnew, put, hput]
    · simp [OOOFields.insertInto, hnew]
    · rw [hinto, hnew]
      rfl
    · simp [OOOFields.insertInto] at hcreated
  · obtain ⟨hc, hlen⟩ := filter_eq_some_iff.1 hfull
    have hput : (some c.chunk.samples).filter (fun l => l.length ≠ o.oooCapMax) =
        some c.chunk.samples := filter_eq_some_iff.2 ⟨rfl, hlen⟩
    have hinsert := insert_errbound c.chunk.samples c.chunk.errbound t (E.value v)
    simp only [hfull]
    refine ⟨_, rfl, ?_, fun hcreated => ?_, fun _ => ⟨by simp [hc], fun hok => ?_⟩⟩
    · rw [hinto, hc, map_some, put, hput]
      exact congrArg (fun p => some p.2.samples) hinsert
    · simp [OOOFields.insertInto] at hcreated
    · rw [hinto, insert_eq_of_false hok, hc]
      rfl

/-! ### The events of the WBL -/

inductive Event
  | marker (m : RefMmapMarker)
  | sample (s : RefSample)

/-- The events of a record; one of another type counts as empty. -/
def eventsOf (rec : List Byte) : Except DecodeErr (List Event) :=
  match typeOf rec with
  | some .samples => (decodeSamples rec).map fun l => l.map .sample
  | some .mmapMarkers => (decodeMmapMarkers [] rec).map fun l => l.map .marker
  | _ => .ok []

theorem eventsOf_encodeSamples (l : List RefSample) :
    eventsOf (encodeSamples l []) = .ok (l.map .sample) := by
  rw [eventsOf, show typeOf (encodeSamples l []) = some .samples from typeOf_code _ _]
  simp only
  rw [decodeSamples_encodeSamples]
  rfl

theorem eventsOf_encodeMmapMarkers (l : List RefMmapMarker) :
    eventsOf (encodeMmapMarkers l []) = .ok (l.map .marker) := by
  rw [eventsOf, show typeOf (encodeMmapMarkers l []) = some .mmapMarkers from typeOf_code _ _]
  simp only
  rw [decodeMmapMarkers_encodeMmapMarkers]
  rfl

inductive Events : List (List Byte) → List Event → Prop
  | nil : Events [] []
  | cons {rec : List Byte} {recs : List (List Byte)} {l evs : List Event}
      (hrec : eventsOf rec = .ok l) (hrecs : Events recs evs) : Events (rec :: recs) (l ++ evs)

variable {evs evs' l : List Event}

theorem Events.append {recs recs' : List (List Byte)} (h : Events recs evs) (h' : Events recs' evs')
    : Events (recs ++ recs') (evs ++ evs') := by
  induction h with
  | nil => exact h'
  | cons hrec _ ih =>
    rw [append_assoc]
    exact .cons hrec ih

theorem events_singleton {rec : List Byte} (h : eventsOf rec = .ok l) : Events [rec] l := by
  simpa using Events.cons h .nil

/-- The events that are not in records yet. -/
def CommitContext.pending (acc : CommitContext) : List Event :=
  (acc.oooMmapMarkers.elim [] fun m => (markersOf default m).map .marker) ++
    acc.wblSamples.map .sample

/-- What a commit did is in the WBL, in its records or to be collected; the last markers collected
are of one series. -/
structure Recorded (wbl : List (List Byte)) (acc : CommitContext) (evs : List Event) : Prop where
  events : ∃ old, Events (wbl ++ acc.oooRecords) old ∧ evs = old ++ acc.pending
  single : ∀ m, acc.oooMmapMarkers = some m → ∃ ref markers, m.entries = [(ref, markers)] ∧
    markers ≠ []

theorem markersOf_single {m : AssocMap U64 (List U64)} {p : U64 × List U64} (h : m.entries = [p])
    (order : RangeOrder (U64 × List U64)) : markersOf order m = markersOf default m := by
  have hperm := order.perm m.entries
  rw [h, perm_singleton] at hperm
  rw [markersOf, markersOf, h, hperm]
  rfl

section recorded

variable {wbl : List (List Byte)} {acc : CommitContext} {evs : List Event}

variable (h : Recorded wbl acc evs)
include h

theorem Recorded.addSample (s : RefSample) :
    Recorded wbl { acc with wblSamples := acc.wblSamples ++ [s] } (evs ++ [.sample s]) := by
  obtain ⟨old, hold, rfl⟩ := h.events
  exact ⟨⟨old, hold, by simp [CommitContext.pending]⟩, h.single⟩

variable (order : RangeOrder (U64 × List U64))

theorem Recorded.collectOOORecords :
    Recorded wbl (acc.collectOOORecords order) evs := by
  obtain ⟨old, hold, rfl⟩ := h.events
  refine ⟨⟨old ++ acc.pending, ?_,
      by simp [CommitContext.pending, CommitContext.collectOOORecords]⟩,
    fun m hm => by simp [CommitContext.collectOOORecords] at hm⟩
  simp only [CommitContext.collectOOORecords, CommitContext.pending, ← append_assoc]
  refine (hold.append ?_).append ?_
  · rcases hm : acc.oooMmapMarkers with _ | m
    · exact .nil
    · obtain ⟨ref, markers, hone, -⟩ := h.single m hm
      rw [elim_some, ← markersOf_single hone order]
      exact events_singleton (eventsOf_encodeMmapMarkers _)
  · split_ifs with hnil
    · rw [hnil]
      exact .nil
    · exact events_singleton (eventsOf_encodeSamples _)

theorem Recorded.addMarkers (ref : U64) (mmapRefs : List ℕ) : ∃ markers : List U64, markers ≠ [] ∧
      Recorded wbl (acc.addMarkers order ref mmapRefs)
        (evs ++ markers.map fun mmapRef => .marker ⟨ref, mmapRef⟩) := by
  -- whatever series the markers are of, they are flushed
  have hflush : acc.addMarkers order ref mmapRefs =
      { acc.collectOOORecords order with oooMmapMarkers := some (AssocMap.empty.set ref
        (if 0 < mmapRefs.length then mmapRefs.map (BitVec.ofNat 64) else [0])) } := by
    have hpast : ∀ r, (acc.oooMmapMarkers.bind fun m => m.get? ref) = some r → r ≠ [] := by
      intro r hr
      obtain ⟨m, hm, hget⟩ := bind_eq_some_iff.1 hr
      obtain ⟨ref', markers, hone, hne⟩ := h.single m hm
      rw [AssocMap.get?_eq_some_iff, hone, mem_singleton] at hget
      rwa [(Prod.mk.inj hget).2]
    rw [CommitContext.addMarkers]
    rcases hr : acc.oooMmapMarkers.bind fun m => m.get? ref with _ | r
    · rfl
    · simp only [if_pos (hpast r hr)]
      rfl
  have hne : (if 0 < mmapRefs.length then mmapRefs.map (BitVec.ofNat 64) else [0]) ≠ [] := by
    split_ifs with hlen
    · exact ne_nil_of_length_pos (by rwa [length_map])
    · simp
  obtain ⟨old, hold, hevs⟩ := (h.collectOOORecords order).events
  obtain rfl : evs = old := by
    rw [hevs]
    simp [CommitContext.pending, CommitContext.collectOOORecords]
  refine ⟨_, hne, ⟨evs, ?_, ?_⟩, ?_⟩
  · rw [hflush]
    exact hold
  · rw [hflush]
    simp [CommitContext.pending, CommitContext.collectOOORecords, markersOf, AssocMap.set,
      AssocMap.empty, AssocMap.setEntries, default]
  · rw [hflush]
    rintro m ⟨rfl⟩
    exact ⟨ref, _, rfl, hne⟩

end recorded

/-! ### Whole runs -/

variable (E) in
/-- What an event does to the head chunk of a series. -/
def Event.change (ref : U64) : Event → Option Change
  | .marker m => if m.ref = ref then some .clear else none
  | .sample s => if s.ref = ref then some (.put s.t (E.value s.v)) else none

variable (E) in
/-- The head chunk that the events leave to a series. -/
def chunkOf (cap : ℕ) (ref : U64) (evs : List Event) : Option (List (OOOSample H FH)) :=
  (evs.filterMap (Event.change E ref)).foldl (change cap) none

variable {cap : ℕ} {ref : U64} {evs : List Event}

theorem chunkOf_append (evs new : List Event) : chunkOf E cap ref (evs ++ new) =
    (new.filterMap (Event.change E ref)).foldl (change cap) (chunkOf E cap ref evs) := by
  rw [chunkOf, filterMap_append, foldl_append, chunkOf]

theorem chunkOf_sample (s : RefSample) : chunkOf E cap ref (evs ++ [.sample s]) =
    if s.ref = ref then some (put cap (chunkOf E cap ref evs) s.t (E.value s.v))
    else chunkOf E cap ref evs := by
  rw [chunkOf_append]
  by_cases href : s.ref = ref <;> simp [Event.change, href, change]

theorem chunkOf_markers (ref' : U64) {markers : List U64} (hne : markers ≠ []) :
    chunkOf E cap ref (evs ++ markers.map fun mmapRef => .marker ⟨ref', mmapRef⟩) =
      if ref' = ref then none else chunkOf E cap ref evs := by
  rw [chunkOf_append, filterMap_map]
  by_cases href : ref' = ref
  · have hclear : (Event.change E ref ∘ fun mmapRef => Event.marker ⟨ref', mmapRef⟩) =
        fun _ => some Change.clear := funext fun _ => if_pos href
    obtain ⟨l, last, rfl⟩ := (eq_nil_or_concat' markers).resolve_left hne
    rw [hclear, if_pos href]
    simp [change]
  · have hnone : (Event.change E ref ∘ fun mmapRef => Event.marker ⟨ref', mmapRef⟩) =
        fun _ => none := funext fun _ => if_neg href
    rw [hnone, if_neg href]
    simp

variable (E o) in
/-- The WBL has the head chunks: what its events leave to a series is its head chunk, unless a
compaction has m-mapped that. -/
structure Logs (compacted : U64 → Prop) (acc : CommitContext) (h : Head H FH A FA) : Prop where
  floats : ∀ ref l, headSamples (h.ooo ref) = some l → Floats o.oooCapMax l
  recorded : ∃ evs, Recorded h.wbl acc evs ∧ ∀ ref,
    headSamples (h.ooo ref) = chunkOf E o.oooCapMax ref evs ∨
      headSamples (h.ooo ref) = none ∧ compacted ref

section logs

variable {compacted : U64 → Prop} {acc : CommitContext} {h : Head H FH A FA}
  (hl : Logs E o compacted acc h)
include hl

/-- A series changes, and what is recorded goes on with events of that series. -/
theorem Logs.update {acc' : CommitContext} {ref : U64}
    {s : OOOFields H FH} (mapper : Mapper A FA) (evs : List Event)
    (hrec : ∀ ref', headSamples (h.ooo ref') = chunkOf E o.oooCapMax ref' evs ∨
      headSamples (h.ooo ref') = none ∧ compacted ref')
    (hfloats : ∀ l, headSamples (some s) = some l → Floats o.oooCapMax l)
    (hrec' : Recorded h.wbl acc' evs')
    (hsame : ∀ ref', ref' ≠ ref → chunkOf E o.oooCapMax ref' evs' = chunkOf E o.oooCapMax ref' evs)
    (hs : headSamples (some s) = chunkOf E o.oooCapMax ref evs' ∨
      headSamples (some s) = none ∧ compacted ref) :
    Logs E o compacted acc'
      { h with ooo := Function.update h.ooo ref (some s), mapper := mapper } := by
  refine ⟨(forall_update_iff h.ooo fun _ s => ∀ l, headSamples s = some l → Floats _ l).2
    ⟨hfloats, fun ref' _ => hl.floats ref'⟩, evs', hrec', (forall_update_iff h.ooo fun ref' s =>
      headSamples s = chunkOf E o.oooCapMax ref' evs' ∨ headSamples s = none ∧ compacted ref').2
    ⟨hs, fun ref' href => ?_⟩⟩
  rw [hsame ref' href]
  exact hrec ref'

variable (order : RangeOrder (U64 × List U64)) (ranges : Ranges)

/-- **A turn of `commitSamples`** keeps the log. -/
theorem Logs.commitSample (verdict : Verdict) (s : RefSample) :
    ∃ acc' h', commitSample E o order ranges (acc, h) verdict s = .ok (acc', h') ∧
      Logs E o compacted acc' h' := by
  cases verdict with
  | refused | inOrder => exact ⟨acc, h, rfl, hl⟩
  | outOfOrder =>
    obtain ⟨i, hins, hput, hcreated, hkept⟩ :=
      insert_floats (E := E) (o := o) (hl.floats s.ref) h.mapper ranges s.t s.v o.errorBound
    obtain ⟨evs, hrec, hevs⟩ := hl.recorded
    have hfloats : ∀ l, headSamples (some i.ooo) = some l → Floats o.oooCapMax l := by
      rintro l hl'
      rw [hput] at hl'
      obtain rfl := Option.some.inj hl'
      exact floats_put o.oooCapMax_pos (hl.floats s.ref) s.t _
    refine ⟨_, _, by rw [WblCommit.commitSample, hins]; rfl, ?_⟩
    rcases hc : i.chunkCreated with _ | _
    · obtain ⟨hsome, hdup⟩ := hkept hc
      have hhead := (hevs s.ref).resolve_right fun hnone => hsome hnone.1
      rcases hok : i.ok with _ | _
      · refine hl.update i.mapper evs hevs hfloats hrec (fun _ _ => rfl) (.inl ?_)
        rw [hdup hok, hhead]
      · refine hl.update i.mapper evs hevs hfloats (hrec.addSample s) (fun ref' href => ?_)
          (.inl ?_)
        · rw [chunkOf_sample, if_neg href.symm]
        · rw [chunkOf_sample, if_pos rfl, hput, hhead]
    · obtain ⟨hok, hnew⟩ := hcreated hc
      obtain ⟨markers, hne, hmarkers⟩ := hrec.addMarkers order s.ref i.mmapRefs
      rw [CommitContext.add, hok]
      refine hl.update i.mapper evs hevs hfloats (hmarkers.addSample s) (fun ref' href => ?_)
        (.inl ?_)
      · rw [chunkOf_sample, if_neg href.symm, chunkOf_markers _ hne, if_neg href.symm]
      · rw [chunkOf_sample, if_pos rfl, chunkOf_markers _ hne, if_pos rfl, hnew]

omit hl in
theorem Logs.commitSamples :
    ∀ (samples : List (Verdict × RefSample)) {acc : CommitContext} {h : Head H FH A FA},
    Logs E o compacted acc h →
    ∃ acc' h', commitSamples E o order ranges samples (acc, h) = .ok (acc', h') ∧
      Logs E o compacted acc' h'
  | [], acc, h, hl => ⟨acc, h, rfl, hl⟩
  | (verdict, s) :: rest, acc, h, hl => by
    obtain ⟨acc₁, h₁, hstep, hl₁⟩ := hl.commitSample order ranges verdict s
    obtain ⟨acc₂, h₂, hrest, hl₂⟩ := Logs.commitSamples rest hl₁
    refine ⟨acc₂, h₂, ?_, hl₂⟩
    rw [WblCommit.commitSamples, hstep]
    exact hrest

theorem logs_collect : Logs E o compacted ⟨[], none, []⟩
      { h with wbl := h.wbl ++ (acc.collectOOORecords order).oooRecords } := by
  obtain ⟨evs, hrec, hevs⟩ := hl.recorded
  refine ⟨hl.floats, evs, ⟨?_, fun m hm => by simp at hm⟩, hevs⟩
  obtain ⟨old, hold, rfl⟩ := (hrec.collectOOORecords order).events
  exact ⟨old, by simpa using hold, by simp [CommitContext.pending, CommitContext.collectOOORecords]⟩

omit hl in
/-- **A commit** keeps the log. -/
theorem Logs.commit (hl : Logs E o compacted ⟨[], none, []⟩ h)
    (samples : List (Verdict × RefSample)) :
    ∃ h', commit E o order ranges samples h = .ok h' ∧ Logs E o compacted ⟨[], none, []⟩ h' := by
  obtain ⟨acc', h', hrun, hl'⟩ := Logs.commitSamples order ranges
    (samples.filter fun p => p.2.ref ∈ h.refs) hl
  refine ⟨_, ?_, logs_collect hl' order⟩
  rw [WblCommit.commit, hrun]
  rfl

theorem Logs.mono {compacted' : U64 → Prop}
    (himp : ∀ ref, compacted ref → compacted' ref) : Logs E o compacted' acc h := by
  obtain ⟨evs, hrec, hevs⟩ := hl.recorded
  exact ⟨hl.floats, evs, hrec, fun ref => (hevs ref).imp_right (And.imp_right (himp ref))⟩

/-- A compaction m-maps a head chunk that the WBL still has. -/
theorem Logs.mmapOOO (ref : U64) :
    ∃ h', mmapOOO E ranges ref h = .ok h' ∧
      Logs E o (fun ref' => compacted ref' ∨ ref' = ref) acc h' := by
  rw [WblCommit.mmapOOO]
  rcases hs : h.ooo ref with _ | s
  · exact ⟨h, rfl, hl.mono fun _ => .inl⟩
  · obtain ⟨s', mapper', refs, hmmap, hnone⟩ := mmapCurrentOOOHeadChunk_floats (E := E) (s := s)
      (fun l hl' => hl.floats ref l (hs ▸ hl')) h.mapper ranges
    have hhead : headSamples (some s') = none := by simp [headSamples, hnone]
    refine ⟨{ h with ooo := Function.update h.ooo ref (some s'), mapper := mapper' },
      by simp only [hmmap]; rfl, ?_⟩
    have hl' : Logs E o (fun ref' => compacted ref' ∨ ref' = ref) acc h := hl.mono fun _ => .inl
    obtain ⟨evs, hrec, hevs⟩ := hl'.recorded
    refine hl'.update mapper' evs hevs (fun l hl => ?_) hrec (fun _ _ => rfl)
      (.inr ⟨hhead, .inr rfl⟩)
    rw [hhead] at hl
    cases hl

end logs

/-- **The WBL of a run**: commits of floats do not fault, and what their records leave to a series
is its head chunk, unless a compaction has m-mapped that. -/
theorem logs_run (ops : List Op) : ∃ h : Head H FH A FA,
    run (exec E o) newHead ops = .ok (h, []) ∧
      Logs E o (fun ref => ∃ ranges, .mmapOOO ranges ref ∈ ops) ⟨[], none, []⟩ h := by
  have hnew : Logs E o (fun ref => ∃ ranges, Op.mmapOOO ranges ref ∈ []) ⟨[], none, []⟩
      (newHead : Head H FH A FA) :=
    ⟨fun ref l hl => by simp [newHead, headSamples] at hl, [], ⟨⟨[], .nil, rfl⟩, by simp⟩,
      fun ref => .inl rfl⟩
  refine run_invariant (fun ops h => Logs E o (fun ref => ∃ ranges, Op.mmapOOO ranges ref ∈ ops)
    ⟨[], none, []⟩ h) (fun _ => True) (fun _ _ _ => trivial) (fun ops op h _ hl => ?_) hnew trivial
  have hmono : ∀ ref, (∃ ranges, .mmapOOO ranges ref ∈ ops) →
      ∃ ranges, .mmapOOO ranges ref ∈ ops ++ [op] :=
    fun ref ⟨ranges, hmem⟩ => ⟨ranges, mem_append_left _ hmem⟩
  cases op with
  | create ref => exact ⟨_, rfl, (hl.mono hmono).floats, (hl.mono hmono).recorded⟩
  | commit order ranges samples =>
    obtain ⟨h', hrun, hl'⟩ := (hl.mono hmono).commit order ranges samples
    exact ⟨h', by rw [exec, hrun]; rfl, hl'⟩
  | mmapOOO ranges ref =>
    obtain ⟨h', hrun, hl'⟩ := hl.mmapOOO ranges ref
    refine ⟨h', by rw [exec, hrun]; rfl, hl'.mono fun ref' hor => ?_⟩
    rcases hor with hold | rfl
    · exact hmono ref' hold
    · exact ⟨ranges, by simp⟩

end TopcDB.Tsdb.WblCommit
