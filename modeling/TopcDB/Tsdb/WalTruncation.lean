import TopcDB.Lib.Machine
import TopcDB.Wlog.Checkpoint

/-! # Truncation of the write-ahead log (`head.go`)

The garbage collection of the head removes series, `truncateWAL` replaces old segments by a
checkpoint, and a restart reads the log back. A sample of the log can only be used while a series
record of its reference comes before it, so a checkpoint keeps the records of the series of the
head and of those the head has `deleted` not long ago. As long as the label sets of the log are not
replayed under another reference that has samples, and no sample of a series that was deleted is
younger than the truncation, every sample has its record (`noOrphans_of_careful`). -/

namespace TopcDB.Tsdb.WalTruncation

open List Lib.Machine Go.Basic Record Wlog.Checkpoint
open Lib.Bits (Byte)

variable {L : Type}

/-! ### The log -/

/-- What a record says about one series: its labels, or that it has a sample. -/
inductive LogEntry (L : Type)
  | series (ref : ℕ) (lset : L)
  | sample (ref : ℕ) (t : ℤ)
  deriving DecidableEq

namespace LogEntry

def ref : LogEntry L → ℕ
  | series ref _ => ref
  | sample ref _ => ref

def time? : LogEntry L → Option ℤ
  | series _ _ => none
  | sample _ t => some t

/-- Whether a checkpoint keeps the entry. -/
def kept (keep : ℕ → Bool) (mint : ℤ) : LogEntry L → Bool
  | series ref _ => keep ref
  | sample _ t => mint ≤ t

end LogEntry

/-- Every sample comes after a series record of its reference. -/
def Preceded (log : List (LogEntry L)) : Prop :=
  ∀ pre ref t post, log = pre ++ .sample ref t :: post → ∃ lset, .series ref lset ∈ pre

/-- The entry of a record that a checkpoint sees, as an entry of the log. -/
def ofEntry : Entry → Option (LogEntry Labels)
  | .series s => some (.series s.ref.toNat s.labels)
  | .sample s => some (.sample s.ref.toNat s.t.toInt)
  | .histogram s => some (.sample s.ref.toNat s.t.toInt)
  | .floatHistogram s => some (.sample s.ref.toNat s.t.toInt)
  | .tombstone _ | .exemplar _ | .metadata _ => none

theorem ofEntry_kept (keep : ℕ → Bool) (mint : I64) (e : Entry) (l : LogEntry Labels)
    (h : ofEntry e = some l) :
    Entry.kept (fun ref => keep ref.toNat) mint e = l.kept keep mint.toInt := by
  cases e <;> simp only [ofEntry, Option.some.injEq, reduceCtorEq] at h <;> subst h <;>
    simp [Entry.kept, LogEntry.kept, BitVec.sle_eq_decide]

theorem filterMap_ofEntry (keep : ℕ → Bool) (mint : I64) (es : List Entry) :
    (es.filter (Entry.kept (fun ref => keep ref.toNat) mint)).filterMap ofEntry =
      (es.filterMap ofEntry).filter (LogEntry.kept keep mint.toInt) := by
  rw [filterMap_filter, filter_filterMap]
  refine filterMap_congr fun e _ => ?_
  rcases h : ofEntry e with _ | l
  · simp
  · simp [ofEntry_kept keep mint e l h, Option.filter]

/-- **A checkpoint filters the log**: what is left of the entries it reads. -/
theorem content_log {keep : ℕ → Bool} {mint : I64} {es : List Entry} {recs : List (List Byte)}
    (h : Content (fun ref => keep ref.toNat) mint es recs) :
    ∃ es', allEntries recs = .ok es' ∧
      es'.filterMap ofEntry = (es.filterMap ofEntry).filter (LogEntry.kept keep mint.toInt) := by
  obtain ⟨ms, hall, -⟩ := h.entries
  refine ⟨_, hall, ?_⟩
  rw [filterMap_append, filterMap_ofEntry, filterMap_map]
  simp [Function.comp_def, ofEntry]

/-! ### The head and its log -/

/-- A series of the head: of its in-order chunks, oldest first, the largest timestamps. -/
structure MemSeries (L : Type) where
  ref : ℕ
  lset : L
  chunks : List ℤ
  deriving DecidableEq

variable (s : MemSeries L)

/-- A sample behind the last one does not come to the in-order chunks. -/
def MemSeries.append (t : ℤ) (cut : Bool) : MemSeries L :=
  match s.chunks.getLast? with
  | none => { s with chunks := [t] }
  | some maxTime =>
    if t ≤ maxTime then s
    else if cut then { s with chunks := s.chunks ++ [t] }
    else { s with chunks := s.chunks.dropLast ++ [t] }

theorem MemSeries.id_append (t : ℤ) (cut : Bool) :
    (s.append t cut).ref = s.ref ∧ (s.append t cut).lset = s.lset := by
  unfold MemSeries.append
  split <;> [exact ⟨rfl, rfl⟩; split_ifs <;> exact ⟨rfl, rfl⟩]

def MemSeries.truncateChunksBefore (mint : ℤ) : MemSeries L :=
  { s with chunks := s.chunks.dropWhile (· < mint) }

/-- The head, and the log in its directory: the last checkpoint, the segments from number `first`
on, and the active segment. -/
structure Head (L : Type) where
  checkpoint : List (LogEntry L)
  first : ℕ
  segments : List (List (LogEntry L))
  active : List (LogEntry L)
  series : List (MemSeries L)
  deleted : ℕ → Option ℕ
  lastSeriesID : ℕ
  lastWALTruncationTime : ℤ

namespace Head

variable (h : Head L)

/-- The number of the segment that is being written. -/
def last : ℕ := h.first + h.segments.length

def files : List (List (LogEntry L)) := h.segments ++ [h.active]

/-- The log, as a replay reads it. -/
def log : List (LogEntry L) := h.checkpoint ++ h.files.flatten

def getByID (ref : ℕ) : Option (MemSeries L) := h.series.find? (·.ref = ref)

def write (e : LogEntry L) : Head L := { h with active := h.active ++ [e] }

def nextSegment : Head L := { h with segments := h.files, active := [] }

/-- `getOrCreate`, with the series record of the commit. -/
def create [DecidableEq L] (lset : L) : Head L :=
  match h.series.find? (·.lset = lset) with
  | some _ => h
  | none =>
    let ref := h.lastSeriesID + 1
    { h.write (.series ref lset) with
      series := h.series ++ [⟨ref, lset, []⟩]
      lastSeriesID := ref }

/-- The commit of a sample of a series of the head. -/
def logSample (ref : ℕ) (t : ℤ) (cut : Bool) : Head L :=
  match h.getByID ref with
  | none => h
  | some _ =>
    { h.write (.sample ref t) with
      series := h.series.map fun s => if s.ref = ref then s.append t cut else s }

/-- `Head.gc`; the series in `busy` have a pending commit or out-of-order chunks left. -/
def gc (mint : ℤ) (busy : ℕ → Bool) : Head L :=
  let truncated := h.series.map (·.truncateChunksBefore mint)
  let deleted := truncated.filter fun s => s.chunks.isEmpty && !busy s.ref
  { h with
    series := truncated.filter fun s => !(s.chunks.isEmpty && !busy s.ref)
    deleted := fun ref => if ref ∈ deleted.map (·.ref) then some h.last else h.deleted ref }

/-- The last segment of the checkpoint that `truncateWAL` makes, if it makes one. -/
def checkpointLast (mint : ℤ) : Option ℕ :=
  -- the segment that is being written is never considered
  let last := h.first + (h.segments.length - 1) * 2 / 3
  if mint ≤ h.lastWALTruncationTime ∨ last ≤ h.first then none else some last

def keep (last ref : ℕ) : Bool :=
  (h.getByID ref).isSome || (h.deleted ref).any (last < ·)

/-- What a checkpoint of the segments up to `last` reads. -/
def older (last : ℕ) : List (LogEntry L) :=
  h.checkpoint ++ (h.files.take (last + 1 - h.first)).flatten

def truncateWAL (mint : ℤ) : Head L :=
  if mint ≤ h.lastWALTruncationTime then h
  else
    let next := { h.nextSegment with lastWALTruncationTime := mint }
    match h.checkpointLast mint with
    | none => next
    | some last =>
      { next with
        checkpoint := (h.older last).filter (LogEntry.kept (h.keep last) mint)
        first := last + 1
        segments := next.segments.drop (last + 1 - h.first)
        deleted := fun ref => (h.deleted ref).filter (last < ·) }

end Head

/-- The head while the log is replayed. -/
structure Replay (L : Type) where
  series : List (MemSeries L)
  multiRef : ℕ → Option ℕ
  lastSeriesID : ℕ

/-- What a restart finds besides the log: the `MinValidTime` of the blocks, the m-mapped chunks of
every reference, where the replay cuts chunks, and what its garbage collection sees. -/
structure Start where
  minValidTime : ℤ
  minTime : ℤ
  mmapped : ℕ → List ℤ
  cut : ℕ → ℤ → Bool
  busy : ℕ → Bool

/-- `loadWAL`, for one entry. -/
def Replay.load [DecidableEq L] (o : Start) (r : Replay L) : LogEntry L → Replay L
  | .series ref lset =>
    let lastSeriesID := max r.lastSeriesID ref
    match r.series.find? (·.lset = lset) with
    | none => ⟨r.series ++ [⟨ref, lset, o.mmapped ref⟩], r.multiRef, lastSeriesID⟩
    | some mSeries =>
      ⟨r.series.map fun s => if s.ref = mSeries.ref then { s with chunks := o.mmapped ref } else s,
        fun other => if other = ref then some mSeries.ref else r.multiRef other, lastSeriesID⟩
  | .sample ref t =>
    if t < o.minValidTime then r
    else
      let ref := (r.multiRef ref).getD ref
      { r with series := r.series.map fun s =>
        if s.ref = ref then s.append t (o.cut ref t) else s }

def Replay.loadAll [DecidableEq L] (o : Start) (log : List (LogEntry L)) : Replay L :=
  log.foldl (Replay.load o) ⟨[], fun _ => none, 0⟩

def minInt64 : ℤ := -2 ^ 63

/-- The log is opened with a new segment, replayed by `Head.Init`, and the head is collected. -/
def Head.restart [DecidableEq L] (h : Head L) (o : Start) : Head L :=
  let r := Replay.loadAll o h.log
  { h.nextSegment with
    series := r.series
    deleted := fun _ => none
    lastSeriesID := r.lastSeriesID
    lastWALTruncationTime := minInt64 : Head L }.gc (max o.minTime o.minValidTime) o.busy

def newHead : Head L := ⟨[], 0, [], [], [], fun _ => none, 0, minInt64⟩

inductive Op (L : Type)
  | create (lset : L)
  | logSample (ref : ℕ) (t : ℤ) (cut : Bool)
  | nextSegment
  | gc (mint : ℤ) (busy : ℕ → Bool)
  | truncateWAL (mint : ℤ)
  | restart (o : Start)

def step [DecidableEq L] (h : Head L) : Op L → Head L
  | .create lset => h.create lset
  | .logSample ref t cut => h.logSample ref t cut
  | .nextSegment => h.nextSegment
  | .gc mint busy => h.gc mint busy
  | .truncateWAL mint => h.truncateWAL mint
  | .restart o => h.restart o

/-! ### When no sample is orphaned -/

/-- Every sample that is as young as the last truncation comes after a series record of its
reference. -/
def NoOrphans (h : Head L) : Prop :=
  ∀ pre ref t post, h.log = pre ++ .sample ref t :: post → h.lastWALTruncationTime ≤ t →
    ∃ lset, .series ref lset ∈ pre

/-- The record of `b` gives labels that `a` gave to another reference. -/
def renames [DecidableEq L] : LogEntry L → LogEntry L → Bool
  | .series ref lset, .series ref' lset' => lset = lset' && ref ≠ ref'
  | _, _ => false

/-- A checkpoint is made when the samples of series deleted up to its last segment are before it;
the log is replayed when no reference that is mapped to another has samples. -/
def Careful [DecidableEq L] (h : Head L) : Op L → Prop
  | .truncateWAL mint => ∀ last ∈ h.checkpointLast mint, ∀ e ∈ h.log, ∀ t ∈ e.time?,
      mint ≤ t → ∀ k ∈ h.deleted e.ref, last < k
  | .restart _ => h.log.Pairwise fun a b =>
      renames a b → ∀ e ∈ h.log, e.time?.isSome → e.ref ≠ b.ref
  | _ => True

instance [DecidableEq L] (h : Head L) (op : Op L) : Decidable (Careful h op) := by
  cases op <;> unfold Careful <;> infer_instance

/-! ### The order of the log -/

theorem preceded_snoc {log : List (LogEntry L)} {e : LogEntry L} (h : Preceded log)
    (he : e.time?.isSome → ∃ lset, .series e.ref lset ∈ log) : Preceded (log ++ [e]) := by
  intro pre ref t post hlog
  rcases eq_nil_or_concat' post with rfl | ⟨post, e', rfl⟩
  · obtain ⟨rfl, he'⟩ := append_inj' hlog rfl
    cases he'
    exact he rfl
  · rw [← cons_append, ← append_assoc] at hlog
    obtain ⟨hlog, -⟩ := append_inj' hlog rfl
    exact h pre ref t post hlog

variable {mint t : ℤ}

/-- A filter of the older part leaves the samples with their records, if it keeps the records of
all samples that are left. -/
theorem preceded_filter {keep : ℕ → Bool} {old new : List (LogEntry L)} (h : Preceded (old ++ new))
    (hold : ∀ ref t, .sample ref t ∈ old → mint ≤ t → keep ref = true)
    (hnew : ∀ ref t, .sample ref t ∈ new → keep ref = true) :
    Preceded (old.filter (LogEntry.kept keep mint) ++ new) := by
  have hafter : ∀ c ref t post, new = c ++ .sample ref t :: post →
      ∃ lset, .series ref lset ∈ old.filter (LogEntry.kept keep mint) ++ c := by
    intro c ref t post hc
    obtain ⟨lset, hmem⟩ := h (old ++ c) ref t post (by rw [hc, append_assoc])
    have hkeep := hnew ref t (by simp [hc])
    refine ⟨lset, ?_⟩
    rw [mem_append] at hmem ⊢
    exact hmem.imp_left fun hm => mem_filter.2 ⟨hm, hkeep⟩
  intro pre ref t post hlog
  rcases append_eq_append_iff.1 hlog with ⟨c, rfl, hc⟩ | ⟨c, hpre, hc⟩
  · exact hafter c ref t post hc
  · rcases c with _ | ⟨e, c⟩
    · rw [append_nil] at hpre
      simpa [hpre] using hafter [] ref t post hc.symm
    · obtain ⟨rfl, -⟩ := cons.inj hc
      -- the filter dropped what stood between the entries before the sample and the sample
      obtain ⟨l₁, l₂, rfl, rfl, hl₂⟩ := filter_eq_append_iff.1 hpre
      obtain ⟨gap, rest, rfl, hgap, hmint, -⟩ := filter_eq_cons_iff.1 hl₂
      obtain ⟨lset, hmem⟩ := h (l₁ ++ gap) ref t (rest ++ new) (by simp)
      have hkeep := hold ref t (by simp) (by simpa [LogEntry.kept] using hmint)
      refine ⟨lset, ?_⟩
      rcases mem_append.1 hmem with hm | hm
      · exact mem_filter.2 ⟨hm, hkeep⟩
      · exact absurd hkeep (by simpa [LogEntry.kept] using hgap _ hm)

/-! ### The references of the head -/

namespace Head

variable {h : Head L}

def refs (h : Head L) : List ℕ := h.series.map (·.ref)

variable {ref lastSeriesID last : ℕ}

theorem getByID_isSome : (h.getByID ref).isSome ↔ ref ∈ h.refs := by
  simp [getByID, refs]

@[simp] theorem log_write (e : LogEntry L) : (h.write e).log = h.log ++ [e] := by
  simp [write, log, files]

@[simp] theorem log_nextSegment : h.nextSegment.log = h.log := by simp [log, nextSegment, files]

def numbered (h : Head L) : List (List (LogEntry L) × ℕ) := h.files.zipIdx h.first

theorem le_last {f : List (LogEntry L) × ℕ} (hf : f ∈ h.numbered) : f.2 ≤ h.last := by
  have := snd_lt_add_of_mem_zipIdx hf
  simp only [files, length_append, length_singleton] at this
  rw [last]
  omega

@[simp] theorem numbered_nextSegment :
    h.nextSegment.numbered = h.numbered ++ [([], h.last + 1)] := by
  simp [numbered, zipIdx_append, nextSegment, last, files, Nat.add_assoc]

theorem numbered_write (e : LogEntry L) : (h.write e).numbered =
    h.segments.zipIdx h.first ++ [(h.active ++ [e], h.last)] := by
  simp [numbered, zipIdx_append, write, last, files]

theorem numbered_eq :
    h.numbered = h.segments.zipIdx h.first ++ [(h.active, h.last)] := by
  simp [numbered, zipIdx_append, last, files]

/-- What ties the head to its log. -/
structure Inv (h : Head L) : Prop where
  preceded : Preceded h.log
  known : ∀ ref t, .sample ref t ∈ h.log → ref ∈ h.refs ∨ ∃ k, h.deleted ref = some k
  placed : ∀ ref k, ref ∉ h.refs → h.deleted ref = some k → ∀ f ∈ h.numbered, ∀ t,
    .sample ref t ∈ f.1 → f.2 ≤ k
  recorded : ∀ ref ∈ h.refs, ∃ lset, .series ref lset ∈ h.log

theorem inv_newHead : (newHead : Head L).Inv where
  preceded := fun pre ref t post hlog => by simp [newHead, log, files] at hlog
  known := fun ref t hmem => by simp [newHead, log, files] at hmem
  placed := fun ref k _ hk => by simp [newHead] at hk
  recorded := fun ref hmem => by simp [newHead, refs] at hmem

variable {busy : ℕ → Bool}

theorem mem_refs_gc (href : ref ∈ h.refs) :
    ref ∈ (h.gc mint busy).refs ∨ (h.gc mint busy).deleted ref = some h.last := by
  obtain ⟨s, hs, rfl⟩ := mem_map.1 href
  have htrunc : s.truncateChunksBefore mint ∈ h.series.map (·.truncateChunksBefore mint) :=
    mem_map_of_mem hs
  by_cases hgone : ((s.truncateChunksBefore mint).chunks.isEmpty &&
      !busy (s.truncateChunksBefore mint).ref) = true
  · exact .inr (if_pos (mem_map.2 ⟨_, mem_filter.2 ⟨htrunc, hgone⟩, rfl⟩))
  · exact .inl (mem_map.2 ⟨_, mem_filter.2 ⟨htrunc,
      by rw [Bool.eq_false_of_not_eq_true hgone]; rfl⟩, rfl⟩)

theorem refs_gc_subset (href : ref ∈ (h.gc mint busy).refs) : ref ∈ h.refs := by
  obtain ⟨s, hs, rfl⟩ := mem_map.1 href
  obtain ⟨s, hs', rfl⟩ := mem_map.1 (mem_filter.1 hs).1
  exact mem_map.2 ⟨s, hs', rfl⟩

theorem deleted_gc (h : Head L) (mint : ℤ) (busy : ℕ → Bool) (ref : ℕ) :
    (h.gc mint busy).deleted ref = some h.last ∨
      (h.gc mint busy).deleted ref = h.deleted ref :=
  ite_eq_or_eq _ _ _

/-- The entries of the segments behind a checkpoint. -/
def newer (h : Head L) (last : ℕ) : List (LogEntry L) :=
  (h.files.drop (last + 1 - h.first)).flatten

theorem log_eq_older (last : ℕ) : h.log = h.older last ++ h.newer last := by
  rw [log, older, newer, append_assoc, ← flatten_append, take_append_drop]

section

variable (hl : h.checkpointLast mint = some last)
include hl

theorem lt_of_checkpointLast :
    h.lastWALTruncationTime < mint ∧ h.first < last ∧ last < h.last := by
  rw [checkpointLast] at hl
  split_ifs at hl with hguard
  rw [not_or, not_le, not_le] at hguard
  cases hl
  refine ⟨hguard.1, hguard.2, ?_⟩
  rw [Head.last]
  omega

theorem mem_numbered_of_drop {f : List (LogEntry L) × ℕ}
    (hf : f ∈ (h.files.drop (last + 1 - h.first)).zipIdx (last + 1)) :
    f ∈ h.numbered ∧ last < f.2 := by
  obtain ⟨-, hfirst, hlast⟩ := lt_of_checkpointLast hl
  refine ⟨?_, le_snd_of_mem_zipIdx hf⟩
  have hlen : last + 1 - h.first ≤ h.files.length := by
    rw [files, length_append, length_singleton]
    rw [Head.last] at hlast
    omega
  rw [numbered, ← take_append_drop (last + 1 - h.first) h.files, zipIdx_append,
    length_take, Nat.min_eq_left hlen, show h.first + (last + 1 - h.first) = last + 1 by omega]
  exact mem_append_right _ hf

end

/-! ### One step -/

section

variable (hi : h.Inv)
include hi

theorem Inv.nextSegment : h.nextSegment.Inv where
  preceded := by rw [log_nextSegment]; exact hi.preceded
  known := by rw [log_nextSegment]; exact hi.known
  recorded := by rw [log_nextSegment]; exact hi.recorded
  placed := by
    intro ref k href hk f hf t ht
    rw [numbered_nextSegment, mem_append, mem_singleton] at hf
    rcases hf with hf | rfl
    · exact hi.placed ref k href hk f hf t ht
    · simp at ht

theorem Inv.write {series : List (MemSeries L)} {e : LogEntry L}
    (hseries : ∀ ref ∈ series.map (·.ref), ref ∈ h.refs ∨ ∃ lset, e = .series ref lset)
    (hrefs : ∀ ref ∈ h.refs, ref ∈ series.map (·.ref)) (he : e.ref ∈ series.map (·.ref)) :
    Inv { h.write e with series := series, lastSeriesID := lastSeriesID } where
  preceded := by
    show Preceded (h.write e).log
    rw [log_write]
    refine preceded_snoc hi.preceded fun htime => ?_
    rcases hseries _ he with href | ⟨lset, hlset⟩
    · exact hi.recorded _ href
    · rw [hlset] at htime
      simp [LogEntry.time?] at htime
  known := by
    intro ref t hmem
    replace hmem : LogEntry.sample ref t ∈ (h.write e).log := hmem
    rw [log_write, mem_append, mem_singleton] at hmem
    rcases hmem with hmem | rfl
    · exact (hi.known ref t hmem).imp_left (hrefs ref)
    · exact .inl he
  placed := by
    intro ref k href hk f hf t ht
    replace hf : f ∈ (h.write e).numbered := hf
    have hold := hi.placed ref k (fun hmem => href (hrefs ref hmem)) hk
    rw [numbered_write, mem_append, mem_singleton] at hf
    rw [numbered_eq] at hold
    rcases hf with hf | rfl
    · exact hold f (mem_append_left _ hf) t ht
    · rcases mem_append.1 ht with ht | ht
      · exact hold (h.active, h.last) (by simp) t ht
      · rw [← mem_singleton.1 ht] at he
        exact absurd he href
  recorded := by
    intro ref href
    show ∃ lset, .series ref lset ∈ (h.write e).log
    rw [log_write]
    rcases hseries ref href with href | ⟨lset, hlset⟩
    · obtain ⟨lset, hmem⟩ := hi.recorded ref href
      exact ⟨lset, mem_append_left _ hmem⟩
    · exact ⟨lset, by simp [hlset]⟩

theorem Inv.create [DecidableEq L] (lset : L) : (h.create lset).Inv := by
  unfold Head.create
  split
  · exact hi
  · refine hi.write (fun ref href => ?_) (fun ref href => ?_) ?_
    · rw [map_append, mem_append] at href
      exact href.imp_right fun href => ⟨lset, by simp [mem_singleton.1 href]⟩
    · rw [map_append]
      exact mem_append_left _ href
    · simp [LogEntry.ref]

theorem Inv.logSample (ref : ℕ) (t : ℤ) (cut : Bool) :
    (h.logSample ref t cut).Inv := by
  unfold Head.logSample
  split
  · exact hi
  · rename_i s hs
    have hrefs : (h.series.map fun s => if s.ref = ref then s.append t cut else s).map (·.ref) =
        h.refs := by
      rw [map_map, refs]
      refine map_congr_left fun s _ => ?_
      simp only [Function.comp_apply]
      split_ifs
      · exact (s.id_append t cut).1
      · rfl
    have href : ref ∈ h.refs := getByID_isSome.1 (by rw [hs]; rfl)
    exact hi.write (fun r hr => .inl (hrefs ▸ hr)) (fun r hr => hrefs ▸ hr) (hrefs ▸ href)

theorem Inv.gc (mint : ℤ) (busy : ℕ → Bool) : (h.gc mint busy).Inv where
  preceded := hi.preceded
  known := by
    intro ref t hmem
    rcases hi.known ref t hmem with href | ⟨k, hk⟩
    · exact (mem_refs_gc href).imp_right fun hlast => ⟨_, hlast⟩
    · rcases deleted_gc h mint busy ref with hd | hd
      · exact .inr ⟨_, hd⟩
      · exact .inr ⟨k, hd.trans hk⟩
  placed := by
    intro ref k href hk f hf t ht
    have hcases : (h.gc mint busy).deleted ref = some h.last ∨
        ref ∉ h.refs ∧ h.deleted ref = some k := by
      by_cases href' : ref ∈ h.refs
      · exact .inl ((mem_refs_gc href').resolve_left href)
      · exact (deleted_gc h mint busy ref).imp_right fun hd => ⟨href', hd.symm.trans hk⟩
    rcases hcases with hlast | ⟨href', hk'⟩
    · rw [Option.some.inj (hk.symm.trans hlast)]
      exact le_last (h := h) hf
    · exact hi.placed ref k href' hk' f hf t ht
  recorded := fun ref href => hi.recorded ref (refs_gc_subset href)

/-- The reference of a sample that stays is one that `keep` keeps. -/
theorem Inv.keep_of_sample (hmem : .sample ref t ∈ h.log)
    (hdel : ∀ k, ref ∉ h.refs → h.deleted ref = some k → last < k) : h.keep last ref = true := by
  rw [keep, Bool.or_eq_true]
  by_cases href : ref ∈ h.refs
  · exact .inl (getByID_isSome.2 href)
  · obtain ⟨k, hk⟩ := (hi.known ref t hmem).resolve_left href
    refine .inr ?_
    rw [hk]
    exact decide_eq_true (hdel k href hk)

section checkpoint

variable (hl : h.checkpointLast mint = some last)
include hl

/-- A sample behind a checkpoint is of a series of the head, or of one deleted behind it. -/
theorem Inv.lt_of_newer (hmem : .sample ref t ∈ h.newer last) (k : ℕ) (href : ref ∉ h.refs)
    (hk : h.deleted ref = some k) : last < k := by
  obtain ⟨file, hfile, ht⟩ := mem_flatten.1 hmem
  rw [← zipIdx_map_fst (last + 1) (h.files.drop (last + 1 - h.first))] at hfile
  obtain ⟨f, hf, rfl⟩ := mem_map.1 hfile
  obtain ⟨hf, hlt⟩ := mem_numbered_of_drop hl hf
  exact lt_of_lt_of_le hlt (hi.placed ref k href hk f hf t ht)

/-- The samples that a checkpoint leaves, and those behind it, are of references it keeps. -/
theorem Inv.keep_of_left [DecidableEq L] (hc : Careful h (.truncateWAL mint))
    (hmem : .sample ref t ∈ h.older last ∧ mint ≤ t ∨ .sample ref t ∈ h.newer last) :
    .sample ref t ∈ h.log ∧ ∀ k, ref ∉ h.refs → h.deleted ref = some k → last < k := by
  rw [log_eq_older last, mem_append]
  rcases hmem with ⟨hmem, ht⟩ | hmem
  · refine ⟨.inl hmem, fun k _ hk => hc last hl (.sample ref t) ?_ t rfl ht k hk⟩
    rw [log_eq_older last]
    exact mem_append_left _ hmem
  · exact ⟨.inr hmem, hi.lt_of_newer hl hmem⟩

/-- What a checkpoint makes of the head and its log keeps the samples usable. -/
theorem Inv.checkpoint [DecidableEq L] (hc : Careful h (.truncateWAL mint)) {h' : Head L}
    (hlog : h'.log = (h.older last).filter (LogEntry.kept (h.keep last) mint) ++ h.newer last)
    (hnum : ∀ f ∈ h'.numbered, f ∈ h.numbered ∨ f.1 = []) (hrefs : h'.refs = h.refs)
    (hdel : ∀ ref, h'.deleted ref = (h.deleted ref).filter (last < ·)) : h'.Inv := by
  have hleft : ∀ {ref t}, .sample ref t ∈ h'.log →
      .sample ref t ∈ h.older last ∧ mint ≤ t ∨ .sample ref t ∈ h.newer last := by
    intro ref t hmem
    rw [hlog, mem_append, mem_filter] at hmem
    exact hmem.imp_left fun hm => ⟨hm.1, of_decide_eq_true hm.2⟩
  have hkeep : ∀ {ref t}, .sample ref t ∈ h.older last ∧ mint ≤ t ∨ .sample ref t ∈ h.newer last →
      h.keep last ref = true := fun hmem =>
    hi.keep_of_sample (hi.keep_of_left hl hc hmem).1 (hi.keep_of_left hl hc hmem).2
  refine ⟨?_, ?_, ?_, ?_⟩
  · rw [hlog]
    exact preceded_filter (log_eq_older last ▸ hi.preceded)
      (fun ref t hmem ht => hkeep (.inl ⟨hmem, ht⟩)) fun ref t hmem => hkeep (.inr hmem)
  · intro ref t hmem
    obtain ⟨hmem, hlt⟩ := hi.keep_of_left hl hc (hleft hmem)
    rw [hrefs, hdel]
    by_cases href : ref ∈ h.refs
    · exact .inl href
    · obtain ⟨k, hk⟩ := (hi.known ref t hmem).resolve_left href
      exact .inr ⟨k, Option.filter_eq_some_iff.2 ⟨hk, decide_eq_true (hlt k href hk)⟩⟩
  · intro ref k href hk f hf t ht
    rw [hrefs] at href
    rw [hdel] at hk
    rcases hnum f hf with hf | hf
    · exact hi.placed ref k href (Option.filter_eq_some_iff.1 hk).1 f hf t ht
    · simp [hf] at ht
  · intro ref href
    rw [hrefs] at href
    obtain ⟨lset, hmem⟩ := hi.recorded ref href
    have hkept : h.keep last ref = true := by rw [keep, getByID_isSome.2 href, Bool.true_or]
    rw [log_eq_older last, mem_append] at hmem
    exact ⟨lset, by rw [hlog, mem_append, mem_filter]; exact hmem.imp_left (⟨·, hkept⟩)⟩

end checkpoint

theorem Inv.truncateWAL [DecidableEq L] (hc : Careful h (.truncateWAL mint)) :
    (h.truncateWAL mint).Inv := by
  unfold Head.truncateWAL
  split_ifs with hmint
  · exact hi
  rcases hl : h.checkpointLast mint with _ | last
  · exact { hi.nextSegment with }
  refine hi.checkpoint hl hc ?_ ?_ rfl fun _ => rfl
  · simp [log, files, newer, Head.nextSegment]
  · intro f hf
    replace hf : f ∈ (h.files.drop (last + 1 - h.first) ++ [[]]).zipIdx (last + 1) := hf
    rw [zipIdx_append, mem_append] at hf
    exact hf.imp (fun hf => (mem_numbered_of_drop hl hf).1) fun hf => by
      simp only [zipIdx_singleton, mem_singleton] at hf
      rw [hf]

end

end Head

/-! ### The replay -/

section

variable [DecidableEq L] {o : Start} {log : List (LogEntry L)}

theorem loadAll_snoc (log : List (LogEntry L)) (e : LogEntry L) :
    Replay.loadAll o (log ++ [e]) = (Replay.loadAll o log).load o e := by
  rw [Replay.loadAll, foldl_append]
  rfl

variable (r : Replay L)

def Replay.ids : List (ℕ × L) := r.series.map fun s => (s.ref, s.lset)

omit [DecidableEq L] in
theorem map_ids {series : List (MemSeries L)} {f : MemSeries L → MemSeries L}
    (hf : ∀ s, (f s).ref = s.ref ∧ (f s).lset = s.lset) :
    (series.map f).map (fun s => (s.ref, s.lset)) = series.map fun s => (s.ref, s.lset) := by
  rw [map_map]
  exact map_congr_left fun s _ => Prod.ext (hf s).1 (hf s).2

theorem ids_load_sample (ref : ℕ) (t : ℤ) : (r.load o (.sample ref t)).ids = r.ids := by
  simp only [Replay.load]
  split_ifs
  · rfl
  · refine map_ids fun s => ?_
    split_ifs
    · exact s.id_append t _
    · exact ⟨rfl, rfl⟩

theorem ids_load_series (ref : ℕ) (lset : L) : (r.load o (.series ref lset)).ids =
      if lset ∈ r.ids.map Prod.snd then r.ids else r.ids ++ [(ref, lset)] := by
  have hmem : lset ∈ r.ids.map Prod.snd ↔ (r.series.find? (·.lset = lset)).isSome := by
    simp [Replay.ids]
  rw [Replay.load]
  rcases hfind : r.series.find? (·.lset = lset) with _ | mSeries
  · rw [if_neg (by simp [hmem, hfind])]
    simp only [hfind]
    simp [Replay.ids]
  · rw [if_pos (by simp [hmem, hfind])]
    simp only [hfind]
    refine map_ids fun s => ?_
    split_ifs <;> exact ⟨rfl, rfl⟩

theorem ids_load (e : LogEntry L) : (r.load o e).ids = r.ids ∨
    ∃ p : ℕ × L, e = .series p.1 p.2 ∧ (r.load o e).ids = r.ids ++ [p] := by
  rcases e with ⟨ref, lset⟩ | ⟨ref, t⟩
  · rw [ids_load_series]
    split_ifs
    · exact .inl rfl
    · exact .inr ⟨_, rfl, rfl⟩
  · exact .inl (ids_load_sample r ref t)

theorem mem_log_of_ids {p : ℕ × L} (hp : p ∈ (Replay.loadAll o log).ids) :
    .series p.1 p.2 ∈ log := by
  induction log using reverseRecOn with
  | nil => simp [Replay.loadAll, Replay.ids] at hp
  | append_singleton log e ih =>
    rw [loadAll_snoc] at hp
    rw [mem_append, mem_singleton]
    obtain h | ⟨q, he, h⟩ := ids_load (o := o) (Replay.loadAll o log) e <;> rw [h] at hp
    · exact .inl (ih hp)
    · rw [mem_append, mem_singleton] at hp
      exact hp.imp ih fun hp => by rw [he, hp]

/-- A replay has a series for every reference with a series record, other than those it maps to an
older reference. -/
theorem mem_ids_of_log {P : ℕ → Prop} (hlog : log.Pairwise fun a b => renames a b → ¬ P b.ref)
    {ref : ℕ} {lset : L} (hP : P ref) (hmem : .series ref lset ∈ log) :
    ref ∈ (Replay.loadAll o log).ids.map Prod.fst := by
  induction log using reverseRecOn with
  | nil => simp at hmem
  | append_singleton log e ih =>
    rw [pairwise_append] at hlog
    rw [loadAll_snoc]
    rcases mem_append.1 hmem with hmem | hmem
    · have hold := ih hlog.1 hmem
      obtain h | ⟨q, -, h⟩ := ids_load (o := o) (Replay.loadAll o log) e <;> rw [h]
      · exact hold
      · rw [map_append]
        exact mem_append_left _ hold
    · rw [← mem_singleton.1 hmem, ids_load_series]
      split_ifs with hlset
      · obtain ⟨p, hp, rfl⟩ := mem_map.1 hlset
        -- the labels are there under a reference, which can only be the same one
        have hren := hlog.2.2 _ (mem_log_of_ids hp) e (by simp)
        rw [← mem_singleton.1 hmem] at hren
        by_cases href : p.1 = ref
        · exact mem_map.2 ⟨p, hp, href⟩
        · exact absurd hP (hren (by simp [renames, href]))
      · simp

theorem Head.Inv.restart {h : Head L} (hi : h.Inv) (hc : Careful h (.restart o)) :
    (h.restart o).Inv := by
  have hrefs : (Replay.loadAll o h.log).ids.map Prod.fst =
      (Replay.loadAll o h.log).series.map (·.ref) := by
    simp [Replay.ids, Function.comp_def]
  refine Inv.gc (h := { h.nextSegment with
    series := (Replay.loadAll o h.log).series
    deleted := fun _ => none
    lastSeriesID := (Replay.loadAll o h.log).lastSeriesID
    lastWALTruncationTime := minInt64 }) ⟨hi.nextSegment.preceded, fun ref t hmem => .inl ?_,
      fun ref k _ hk => by simp at hk, fun ref href => ?_⟩ _ _
  · replace hmem : .sample ref t ∈ h.nextSegment.log := hmem
    rw [Head.log_nextSegment] at hmem
    obtain ⟨pre, post, hlog⟩ := append_of_mem hmem
    obtain ⟨lset, hrec⟩ := hi.preceded pre ref t post hlog
    show ref ∈ (Replay.loadAll o h.log).series.map (·.ref)
    rw [← hrefs]
    refine mem_ids_of_log (P := fun ref => ∃ t, .sample ref t ∈ h.log)
      (hc.imp fun hren hb => ?_) ⟨t, hmem⟩ (hlog ▸ mem_append_left _ hrec)
    rintro ⟨t, ht⟩
    exact hren hb _ ht rfl rfl
  · replace href : ref ∈ (Replay.loadAll o h.log).series.map (·.ref) := href
    rw [← hrefs] at href
    obtain ⟨p, hp, rfl⟩ := mem_map.1 href
    exact ⟨p.2, by rw [← Head.log_nextSegment] at hp; exact mem_log_of_ids hp⟩

end

/-! ### Whole runs -/

theorem Head.Inv.step [DecidableEq L] {h : Head L} (hi : h.Inv) {op : Op L} (hc : Careful h op) :
    (step h op).Inv := by
  cases op with
  | create lset => exact hi.create lset
  | logSample ref t cut => exact hi.logSample ref t cut
  | nextSegment => exact hi.nextSegment
  | gc mint busy => exact hi.gc mint busy
  | truncateWAL mint => exact hi.truncateWAL hc
  | restart o => exact hi.restart hc

/-- **No sample is orphaned**: while every checkpoint and restart is careful, the samples of the log
come after a series record of their reference. -/
theorem noOrphans_of_careful [DecidableEq L] {ops : List (Op L)}
    (hc : Along (total step) Careful newHead ops) : NoOrphans (ops.foldl step newHead) := by
  have hi : (ops.foldl step newHead).Inv :=
    foldl_keeps_along (fun _ _ hi hc => hi.step hc) Head.inv_newHead hc
  exact fun pre ref t post hlog _ => hi.preceded pre ref t post hlog

/-- A restart without m-mapped chunks, after which no series is busy. -/
def coldStart (minValidTime minTime : ℤ) : Start :=
  ⟨minValidTime, minTime, fun _ => [], fun _ _ => false, fun _ => false⟩

/-- A series is collected, the log is truncated and replayed, and truncated again. -/
def carefulRun : List (Op ℕ) :=
  [.create 0, .logSample 1 10 false, .gc 20 fun _ => false, .create 1, .logSample 2 30 false,
    .nextSegment, .nextSegment, .nextSegment, .truncateWAL 25, .restart (coldStart 20 30),
    .logSample 2 40 false, .nextSegment, .nextSegment, .nextSegment, .truncateWAL 35]

theorem noOrphans_carefulRun : Along (total step) Careful newHead carefulRun ∧
    NoOrphans (carefulRun.foldl step newHead) :=
  have hc : Along (total step) Careful newHead carefulRun := along_of_check (by decide +kernel)
  ⟨hc, noOrphans_of_careful hc⟩

/-- A series is collected and comes back under another reference, which the replay maps to the
first; the record of the second is neither in the head nor among the deleted ones. -/
def comesBack : List (Op ℕ) :=
  [.create 0, .logSample 1 10 false, .gc 20 fun _ => false, .create 0, .logSample 2 30 false,
    .restart (coldStart 20 30), .nextSegment, .nextSegment, .nextSegment, .truncateWAL 25]

theorem not_noOrphans_comesBack : ¬ NoOrphans (comesBack.foldl step newHead) := by
  intro h
  obtain ⟨lset, hmem⟩ := h [.series 1 0] 2 30 [] (by decide +kernel) (by decide +kernel)
  simp at hmem

end TopcDB.Tsdb.WalTruncation
