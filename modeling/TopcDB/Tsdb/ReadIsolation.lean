import TopcDB.Go.Basic
import TopcDB.Lib.Ring
import TopcDB.Lib.Machine
import Mathlib.Data.List.TakeWhile

/-! # Isolation of appends and reads

Every append has an id; a series keeps the ids of its newest samples in a ring, and a reader's state
says which ids it must not see. `stopAfter` is what the iterator of a head chunk computes from
these: the ring holds the ids of the last samples of the series, so that the samples after the chunk
are taken off its end, and the first id in it that the reader must not see bounds what is read.

Ids are cut off the front of a ring below a watermark that an appender was given when it began. The
watermark never sinks (`Watermarks`), so that an id that has been cut off is one that no open reader
and no later one hides, and the ring decides as the whole history of the series would
(`stopAfter_isGreatest`). -/

namespace TopcDB.Tsdb.ReadIsolation

open List Go.Basic Lib.Machine Lib.Ring

/-! ### The isolation of the head -/

/-- `isolationState`: what one reader must not see. -/
structure IsolationState where
  maxAppendID : ℕ
  incompleteAppends : List ℕ
  lowWatermark : ℕ
  isolationDisabled : Bool
  deriving DecidableEq

/-- `isolation`: the open appends in the order of `appendsOpenList`, whose head element keeps the
last id, and the open reads, newest first, each under its own number. -/
structure Isolation where
  appendsOpen : List ℕ
  lastAppendID : ℕ
  readsOpen : List (ℕ × IsolationState)
  disabled : Bool

def newIsolation (disabled : Bool) : Isolation := ⟨[], 0, [], disabled⟩

variable (i : Isolation)

/-- `appendsOpenList.next.appendID`: the list is circular through its head element. -/
def Isolation.lowestAppendID : ℕ := i.appendsOpen.headD i.lastAppendID

def Isolation.lowWatermark : ℕ :=
  if i.disabled then 0
  else match i.readsOpen.getLast? with
    | some r => r.2.lowWatermark
    | none => i.lowestAppendID

def Isolation.state (reader : ℕ) : IsolationState × Isolation :=
  let s := ⟨i.lastAppendID, i.appendsOpen, i.lowestAppendID, i.disabled⟩
  (s, { i with readsOpen := (reader, s) :: i.readsOpen })

def Isolation.close (reader : ℕ) : Isolation :=
  { i with readsOpen := i.readsOpen.filter fun r => r.1 ≠ reader }

/-- `newAppendID`: the id, and the watermark at this moment. -/
def Isolation.newAppendID : (ℕ × ℕ) × Isolation :=
  if i.disabled then ((0, 0), i)
  else
    let i := { i with
      lastAppendID := i.lastAppendID + 1, appendsOpen := i.appendsOpen ++ [i.lastAppendID + 1] }
    ((i.lastAppendID, i.lowWatermark), i)

def Isolation.closeAppend (appendID : ℕ) : Isolation :=
  if i.disabled then i else { i with appendsOpen := i.appendsOpen.erase appendID }

/-- The test of `memSeries.iterator` on one id. -/
def IsolationState.hides (s : IsolationState) (appendID : ℕ) : Bool :=
  !(decide (appendID ≤ s.maxAppendID) && !s.incompleteAppends.contains appendID)

/-! ### The ring of append ids -/

/-- A ring of fewer than 2^31 ids. The source counts them in a `uint32`, whose double in `grow`
wraps at 2^31, and the samples of a chunk in a `uint16`. -/
structure TxRing where
  txIDs : List ℕ
  txIDFirst : ℕ
  txIDCount : ℕ

def newTxRing (capacity : ℕ) : TxRing := ⟨replicate capacity 0, 0, 0⟩

/-- A full ring is copied to the beginning of one twice as long. -/
def TxRing.grow (r : TxRing) : TxRing :=
  if r.txIDCount = r.txIDs.length then
    let newLen := if r.txIDCount * 2 = 0 then 4 else r.txIDCount * 2
    { r with
      txIDs := r.txIDs.drop r.txIDFirst ++ r.txIDs.take r.txIDFirst ++
        replicate (newLen - r.txIDs.length) 0
      txIDFirst := 0 }
  else r

def TxRing.add (r : TxRing) (appendID : ℕ) : TxRing :=
  let r := r.grow
  { r with
    txIDs := r.txIDs.set ((r.txIDFirst + r.txIDCount) % r.txIDs.length) appendID
    txIDCount := r.txIDCount + 1 }

/-- The loop of `cleanupAppendIDsBelow`: the first position and the count it leaves. -/
def cleanupLoop (ids : List ℕ) (bound : ℕ) : ℕ → ℕ → ℕ → Except Fault (ℕ × ℕ)
  | 0, first, _ => .ok (first, 0)
  | count + 1, first, pos =>
    match ids[pos]? with
    | none => .error .panic
    | some id =>
      if id < bound then
        cleanupLoop ids bound count (first + 1) (if pos + 1 = ids.length then 0 else pos + 1)
      else .ok (first, count + 1)

def TxRing.cleanupAppendIDsBelow (r : TxRing) (bound : ℕ) : Except Fault TxRing :=
  if r.txIDs.length = 0 then .ok r
  else do
    let (first, count) ← cleanupLoop r.txIDs bound r.txIDCount r.txIDFirst r.txIDFirst
    .ok { r with txIDFirst := first % r.txIDs.length, txIDCount := count }

/-- The loop of `memSeries.iterator` over the ids to consider: at the first hidden one, how many are
left, itself included. -/
def scan (ids : List ℕ) (hides : ℕ → Bool) : ℕ → ℕ → Except Fault (Option ℕ)
  | 0, _ => .ok none
  | left + 1, pos =>
    match ids[pos]? with
    | none => .error .panic
    | some id =>
      if hides id then .ok (some (left + 1))
      else scan ids hides left (if pos + 1 = ids.length then 0 else pos + 1)

/-- `appendIDsToConsider` of `memSeries.iterator`, for a chunk of `numSamples` samples, from the
numbers of samples of the m-mapped and of the head chunks, newest first. -/
def appendIDsToConsider (txs : TxRing) (mmappedChunks headChunks : List ℕ)
    (firstChunkID id numSamples : ℕ) : ℤ :=
  let ix : ℤ := (id : ℤ) - firstChunkID
  let totalSamples := mmappedChunks.sum + headChunks.sum
  let previousSamples := (mmappedChunks.take ix.toNat).sum +
    (headChunks.reverse.take (ix - mmappedChunks.length).toNat).sum
  (txs.txIDCount : ℤ) - ((totalSamples : ℤ) - ((previousSamples : ℤ) + numSamples))

/-- **`stopAfter` of `memSeries.iterator`.** -/
def stopAfter (txs : TxRing) (mmappedChunks headChunks : List ℕ) (firstChunkID id numSamples : ℕ)
    (isoState : Option IsolationState) : Except Fault ℕ :=
  match isoState with
  | none => .ok numSamples
  | some st =>
    if st.isolationDisabled then .ok numSamples
    else do
      let left := appendIDsToConsider txs mmappedChunks headChunks firstChunkID id numSamples
      match ← scan txs.txIDs st.hides left.toNat txs.txIDFirst with
      | none => .ok numSamples
      | some left => .ok ((numSamples : ℤ) - left).toNat

/-! ### The ring as a queue -/

/-- The ring holds the ids `ids`. -/
structure TxRing.Keeps (r : TxRing) (ids : List ℕ) : Prop where
  count : r.txIDCount = ids.length
  cells : Holds r.txIDs r.txIDFirst ids
  first : r.txIDFirst < r.txIDs.length ∨ r.txIDFirst = 0

theorem keeps_newTxRing (capacity : ℕ) : (newTxRing capacity).Keeps [] :=
  ⟨rfl, holds_nil _ _, .inr rfl⟩

variable {r : TxRing} {ids : List ℕ}

theorem TxRing.Keeps.grow (h : r.Keeps ids) :
    r.grow.Keeps ids ∧ ids.length < r.grow.txIDs.length := by
  unfold TxRing.grow
  have hc := h.count
  have hfits := h.cells.fits
  have hfirst := h.first
  split
  · refine ⟨⟨h.count, h.cells.unroll (by omega) (by omega) _, .inr rfl⟩, ?_⟩
    simp only [length_append, length_drop, length_take, length_replicate]
    split_ifs <;> omega
  · exact ⟨h, by omega⟩

theorem TxRing.Keeps.add (h : r.Keeps ids) (appendID : ℕ) :
    (r.add appendID).Keeps (ids ++ [appendID]) := by
  obtain ⟨hg, hlt⟩ := h.grow
  have hpush := hg.cells.push hlt appendID
  rw [← hg.count] at hpush
  refine ⟨by simp [TxRing.add, hg.count], hpush, ?_⟩
  have hf := hg.first
  simpa only [TxRing.add, length_set] using hf

theorem first_mod (h : r.Keeps ids) : r.txIDFirst % r.txIDs.length = r.txIDFirst := by
  rcases h.first with hf | hf
  · exact Nat.mod_eq_of_lt hf
  · rw [hf, Nat.zero_mod]

theorem cleanupLoop_spec (buf : List ℕ) (bound : ℕ) : ∀ (ids : List ℕ) (first : ℕ),
    Holds buf first ids → ∃ first',
      cleanupLoop buf bound ids.length first (first % buf.length) =
        .ok (first', (ids.dropWhile (· < bound)).length) ∧
      Holds buf first' (ids.dropWhile (· < bound))
  | [], first, h => ⟨first, rfl, h⟩
  | id :: ids, first, h => by
    rw [length_cons, cleanupLoop, h.front]
    by_cases hid : id < bound
    · simp only [hid, if_true, succ_wrap h.mod_lt, Nat.mod_add_mod]
      simpa only [dropWhile_cons, hid, decide_true, if_true]
        using cleanupLoop_spec buf bound ids (first + 1) h.pop
    · exact ⟨first, by simp [hid], by simpa [hid] using h⟩

theorem TxRing.Keeps.cleanup (h : r.Keeps ids) (bound : ℕ) :
    ∃ r', r.cleanupAppendIDsBelow bound = .ok r' ∧ r'.Keeps (ids.dropWhile (· < bound)) := by
  unfold TxRing.cleanupAppendIDsBelow
  split_ifs with h0
  · have hids : ids = [] := length_eq_zero_iff.1 (by have := h.cells.fits; omega)
    exact ⟨r, rfl, by simpa [hids] using h⟩
  · obtain ⟨first', hl, hc⟩ := cleanupLoop_spec r.txIDs bound ids r.txIDFirst h.cells
    rw [first_mod h] at hl
    rw [h.count, hl]
    exact ⟨_, rfl, rfl, Holds.mod_iff.2 hc, .inl (Nat.mod_lt _ (Nat.pos_of_ne_zero h0))⟩

/-- The scan stops at the first hidden id, after `k` ids. -/
theorem scan_spec (buf : List ℕ) (hides : ℕ → Bool) : ∀ (left : ℕ) (ids : List ℕ) (first : ℕ),
    Holds buf first ids → left ≤ ids.length → ∃ k found,
      scan buf hides left (first % buf.length) = .ok found ∧ found.getD 0 + k = left ∧
      (∀ id ∈ ids.take k, hides id = false) ∧ (k < left → ∃ x ∈ ids[k]?, hides x = true)
  | 0, ids, first, _, _ => ⟨0, none, rfl, rfl, by simp, nofun⟩
  | left + 1, [], first, _, hle => absurd hle (by simp)
  | left + 1, id :: ids, first, h, hle => by
    rw [scan, h.front]
    cases hid : hides id with
    | true => exact ⟨0, some (left + 1), by simp [hid], rfl, by simp, fun _ => ⟨id, rfl, hid⟩⟩
    | false =>
      simp only [hid, reduceCtorEq, if_false, succ_wrap h.mod_lt, Nat.mod_add_mod]
      obtain ⟨k, found, hs, hk, hv, hx⟩ :=
        scan_spec buf hides left ids (first + 1) h.pop (by simpa using hle)
      refine ⟨k + 1, found, hs, by omega, ?_, fun hlt => hx (by omega)⟩
      rw [take_succ_cons]
      exact forall_mem_cons.2 ⟨hid, hv⟩

/-! ### Appenders, a series and its readers

The chunks of the series are given by their samples, and a sample by the append that added it; a
sample restored by the replay of the write-ahead log belongs to no append and has no id in the
ring. -/

/-- The parts of `memSeries` that isolation reads; the head chunks are kept newest first. -/
structure Series where
  mmappedChunks : List (List (Option ℕ))
  headChunks : List (List (Option ℕ))
  firstChunkID : ℕ
  txs : TxRing

variable (s : Series)

/-- The chunks, oldest first: the chunk with id `firstChunkID + ix` is the one at `ix`. -/
def Series.chunks : List (List (Option ℕ)) := s.mmappedChunks ++ s.headChunks.reverse

/-- `append` with an append id: the sample goes to the newest chunk or to a new one. -/
def Series.append (appendID : ℕ) (cut : Bool) : Series :=
  { s with
    headChunks := match s.headChunks with
      | [] => [[some appendID]]
      | c :: older => if cut then [some appendID] :: c :: older else (c ++ [some appendID]) :: older
    txs := s.txs.add appendID }

def Series.mmapChunks : Series :=
  { s with
    mmappedChunks := s.mmappedChunks ++ s.headChunks.tail.reverse
    headChunks := s.headChunks.take 1 }

/-- Truncation of the `k` oldest chunks. -/
def Series.truncate (k : ℕ) : Series :=
  { s with
    mmappedChunks := s.mmappedChunks.drop k
    headChunks := s.headChunks.take (s.headChunks.length - (k - s.mmappedChunks.length))
    firstChunkID := s.firstChunkID + min k s.chunks.length }

/-- The bound for the first `numSamples` samples of the chunk with the given id. -/
def Series.stopAfter (id numSamples : ℕ) (isoState : IsolationState) : Except Fault ℕ :=
  ReadIsolation.stopAfter s.txs (s.mmappedChunks.map length) (s.headChunks.map length)
    s.firstChunkID id numSamples (some isoState)

/-- What `headAppender` keeps of `newAppendID`. -/
structure Appender where
  appendID : ℕ
  cleanupAppendIDsBelow : ℕ
  deriving DecidableEq

/-- The state of a run: the open appenders, the number of readers, the appends begun and the samples
of the truncated chunks. -/
structure World where
  iso : Isolation
  series : Series
  appenders : List Appender
  readers : ℕ
  begun : List ℕ
  truncated : List (Option ℕ)

inductive Op
  | newAppender
  | append (a : Appender) (cut : Bool)
  | cleanup (a : Appender)
  | closeAppend (a : Appender)
  | mmapChunks
  | truncate (k : ℕ)
  | openRead
  | closeRead (reader : ℕ)
  deriving DecidableEq

variable (w : World)

def World.newAppender : World :=
  let ((id, low), iso) := w.iso.newAppendID
  { w with iso := iso, appenders := w.appenders ++ [⟨id, low⟩], begun := w.begun ++ [id] }

def World.openRead : World :=
  { w with iso := (w.iso.state w.readers).2, readers := w.readers + 1 }

/-- One step. Only an open appender adds samples, cleans up and closes. -/
def step : Op → Except Fault (World × Option Err)
  | .newAppender => .ok (w.newAppender, none)
  | .append a cut =>
    if a ∈ w.appenders then .ok ({ w with series := w.series.append a.appendID cut }, none)
    else .ok (w, none)
  | .cleanup a =>
    if a ∈ w.appenders then do
      let txs ← w.series.txs.cleanupAppendIDsBelow a.cleanupAppendIDsBelow
      .ok ({ w with series := { w.series with txs := txs } }, none)
    else .ok (w, none)
  | .closeAppend a =>
    if a ∈ w.appenders then
      .ok ({ w with
        iso := w.iso.closeAppend a.appendID
        appenders := w.appenders.filter fun b => b.appendID ≠ a.appendID }, none)
    else .ok (w, none)
  | .mmapChunks => .ok ({ w with series := w.series.mmapChunks }, none)
  | .truncate k =>
    .ok ({ w with
      series := w.series.truncate k
      truncated := w.truncated ++ (w.series.chunks.take k).flatten }, none)
  | .openRead => .ok (w.openRead, none)
  | .closeRead reader => .ok ({ w with iso := w.iso.close reader }, none)

/-- A series as the replay left it, with an empty ring. -/
def restored (mmappedChunks headChunks : List ℕ) (firstChunkID capacity : ℕ) : World where
  iso := newIsolation false
  series := ⟨mmappedChunks.map fun n => replicate n none,
    headChunks.map fun n => replicate n none, firstChunkID, newTxRing capacity⟩
  appenders := []
  readers := 0
  begun := []
  truncated := []

/-- Every sample the series ever had, in the order of its chunks. -/
def World.history : List (Option ℕ) := w.truncated ++ w.series.chunks.flatten

/-! ### The watermark -/

/-- What the open appends and reads satisfy; `appenders` are the open appenders and `begun` the
appends so far. -/
structure Watermarks (i : Isolation) (appenders : List Appender) (begun : List ℕ) : Prop where
  enabled : i.disabled = false
  begun : ∀ id, id ∈ begun ↔ 1 ≤ id ∧ id ≤ i.lastAppendID
  opened : i.appendsOpen = appenders.map Appender.appendID
  sorted : i.appendsOpen.Pairwise (· < ·)
  known : ∀ id ∈ i.appendsOpen, 1 ≤ id ∧ id ≤ i.lastAppendID
  reads : i.readsOpen.Pairwise fun newer older => older.2.lowWatermark ≤ newer.2.lowWatermark
  lowest : ∀ r ∈ i.readsOpen, r.2.lowWatermark ≤ i.lowestAppendID
  hidden : ∀ r ∈ i.readsOpen, ∀ id, r.2.hides id = true → r.2.lowWatermark ≤ id
  enabled_reads : ∀ r ∈ i.readsOpen, r.2.isolationDisabled = false
  bounds : ∀ a ∈ appenders, a.cleanupAppendIDsBelow ≤ i.lowWatermark

section

variable {i : Isolation} {appenders : List Appender} {begun : List ℕ}
  (h : Watermarks i appenders begun)

include h

theorem Watermarks.le_read {r : ℕ × IsolationState} (hr : r ∈ i.readsOpen) :
    i.lowWatermark ≤ r.2.lowWatermark := by
  unfold Isolation.lowWatermark
  obtain ⟨newer, o, hl⟩ :=
    (eq_nil_or_concat' i.readsOpen).resolve_left (ne_nil_of_mem hr)
  simp only [h.enabled, reduceCtorEq, if_false, hl, getLast?_append,
    getLast?_singleton, Option.some_or]
  have hp := h.reads
  rw [hl, pairwise_append] at hp
  rw [hl, mem_append, mem_singleton] at hr
  rcases hr with hr | rfl
  · exact hp.2.2 r hr o (by simp)
  · exact le_refl _

theorem Watermarks.le_lowest : i.lowWatermark ≤ i.lowestAppendID := by
  unfold Isolation.lowWatermark
  simp only [h.enabled, reduceCtorEq, if_false]
  split
  · exact h.lowest _ (mem_of_getLast? (by assumption))
  · exact le_refl _

omit h in
theorem lowWatermark_mono {j : Isolation} (hr : j.readsOpen = i.readsOpen)
    (hd : j.disabled = i.disabled) (hl : i.lowestAppendID ≤ j.lowestAppendID) :
    i.lowWatermark ≤ j.lowWatermark := by
  unfold Isolation.lowWatermark
  rw [hr, hd]
  split_ifs
  · exact le_refl _
  · split
    · exact le_refl _
    · exact hl

/-- The lowest open append, or the last one, is not above any append that is open or to come. -/
theorem Watermarks.lowest_le {id : ℕ} (hid : id ∈ i.appendsOpen ∨ i.lastAppendID ≤ id) :
    i.lowestAppendID ≤ id := by
  unfold Isolation.lowestAppendID
  have hs := h.sorted
  have hk := h.known
  rcases he : i.appendsOpen with _ | ⟨first, rest⟩ <;> rw [he] at hs hk hid
  · exact hid.resolve_left (by simp)
  · rw [headD_cons]
    rcases hid with hm | hlast
    · rcases mem_cons.1 hm with rfl | hm
      · exact le_refl _
      · exact ((pairwise_cons.1 hs).1 id hm).le
    · exact (hk first (by simp)).2.trans hlast

/-- Appends are opened or closed, and the lowest open one does not sink. -/
theorem Watermarks.of_appends {j : Isolation} {appenders' : List Appender} {begun' : List ℕ}
    (hr : j.readsOpen = i.readsOpen) (hd : j.disabled = i.disabled)
    (hlow : i.lowestAppendID ≤ j.lowestAppendID)
    (hbegun : ∀ id, id ∈ begun' ↔ 1 ≤ id ∧ id ≤ j.lastAppendID)
    (hopened : j.appendsOpen = appenders'.map Appender.appendID)
    (hsorted : j.appendsOpen.Pairwise (· < ·))
    (hknown : ∀ id ∈ j.appendsOpen, 1 ≤ id ∧ id ≤ j.lastAppendID)
    (hbounds : ∀ a ∈ appenders', a ∈ appenders ∨ a.cleanupAppendIDsBelow = j.lowWatermark) :
    Watermarks j appenders' begun' ∧ i.lowWatermark ≤ j.lowWatermark := by
  have hmono := lowWatermark_mono hr hd hlow
  refine ⟨⟨hd.trans h.enabled, hbegun, hopened, hsorted, hknown, hr ▸ h.reads, fun r hm => ?_,
    hr ▸ h.hidden, hr ▸ h.enabled_reads, fun a ha => ?_⟩, hmono⟩
  · exact (h.lowest r (hr ▸ hm)).trans hlow
  · rcases hbounds a ha with ha | ha
    · exact (h.bounds a ha).trans hmono
    · exact ha.le

theorem Watermarks.newAppendID : ∃ id low i', i.newAppendID = ((id, low), i') ∧
    Watermarks i' (appenders ++ [⟨id, low⟩]) (begun ++ [id]) ∧
    i.lowWatermark ≤ i'.lowWatermark ∧ i'.readsOpen = i.readsOpen := by
  obtain ⟨i', hi'⟩ : ∃ j : Isolation, j = { i with
      lastAppendID := i.lastAppendID + 1, appendsOpen := i.appendsOpen ++ [i.lastAppendID + 1] } :=
    ⟨_, rfl⟩
  have hopen : i'.appendsOpen = i.appendsOpen ++ [i.lastAppendID + 1] := by rw [hi']
  have hlast : i'.lastAppendID = i.lastAppendID + 1 := by rw [hi']
  have hlow : i.lowestAppendID ≤ i'.lowestAppendID := by
    unfold Isolation.lowestAppendID
    rw [hopen, hlast]
    rcases i.appendsOpen with _ | ⟨first, rest⟩ <;> simp
  refine ⟨i.lastAppendID + 1, i'.lowWatermark, i', ?_, ?_⟩
  · unfold Isolation.newAppendID
    simp only [h.enabled, reduceCtorEq, if_false, hi']
  · rw [← and_assoc]
    refine ⟨h.of_appends (by rw [hi']) (by rw [hi']) hlow (fun id => ?_) ?_ ?_ (fun id hid => ?_)
      fun a ha => ?_, by rw [hi']⟩
    · rw [mem_append, h.begun, mem_singleton, hlast]
      omega
    · rw [hopen, map_append, h.opened]
      rfl
    · rw [hopen]
      refine pairwise_append.2 ⟨h.sorted, pairwise_singleton _ _, fun a ha b hb => ?_⟩
      have := (h.known a ha).2
      rw [mem_singleton.1 hb]
      omega
    · rw [hopen, mem_append, mem_singleton] at hid
      have := hid.imp_left (h.known id)
      omega
    · exact (mem_append.1 ha).imp_right fun ha => by rw [mem_singleton.1 ha]

theorem Watermarks.closeAppend (id : ℕ) :
    Watermarks (i.closeAppend id) (appenders.filter fun b => b.appendID ≠ id) begun ∧
      i.lowWatermark ≤ (i.closeAppend id).lowWatermark := by
  have heq : i.closeAppend id = { i with appendsOpen := i.appendsOpen.erase id } := by
    unfold Isolation.closeAppend
    simp only [h.enabled, reduceCtorEq, if_false]
  have hsub : (i.appendsOpen.erase id).Sublist i.appendsOpen := erase_sublist
  rw [heq]
  refine h.of_appends rfl rfl (h.lowest_le ?_) h.begun ?_ (h.sorted.sublist hsub)
    (fun a ha => h.known a (hsub.subset ha)) fun a ha => .inl (mem_filter.1 ha).1
  · unfold Isolation.lowestAppendID
    rcases he : i.appendsOpen.erase id with _ | ⟨first, rest⟩
    · exact .inr le_rfl
    · exact .inl (hsub.subset (by rw [he]; exact mem_cons_self))
  · have hnd : i.appendsOpen.Nodup := h.sorted.imp fun hlt => Nat.ne_of_lt hlt
    have he : i.appendsOpen.erase id = i.appendsOpen.filter (· != id) := hnd.erase_eq_filter id
    rw [he, h.opened, filter_map]
    exact congrArg _ (filter_congr fun b _ => by by_cases hb : b.appendID = id <;> simp [hb])

theorem Watermarks.state (reader : ℕ) : Watermarks (i.state reader).2 appenders begun ∧
    i.lowWatermark ≤ (i.state reader).2.lowWatermark := by
  obtain ⟨s, hs⟩ : ∃ s, s = (i.state reader).1 := ⟨_, rfl⟩
  have hlow : s.lowWatermark = i.lowestAppendID := by rw [hs]; rfl
  have hreads : (i.state reader).2.readsOpen = (reader, s) :: i.readsOpen := by rw [hs]; rfl
  have hmono : i.lowWatermark ≤ (i.state reader).2.lowWatermark := by
    unfold Isolation.lowWatermark
    rw [show (i.state reader).2.disabled = i.disabled from rfl, hreads]
    rcases i.readsOpen with _ | ⟨r, rs⟩
    · simp [hlow]
    · rw [getLast?_cons_cons]
      exact le_refl _
  have hhidden : ∀ id, s.hides id = true → s.lowWatermark ≤ id := by
    intro id hid
    -- what a new state hides is open now or has not begun
    simp only [IsolationState.hides, hs, Isolation.state, Bool.not_eq_true', Bool.and_eq_false_iff,
      decide_eq_false_iff_not, Bool.not_eq_false', contains_iff_mem] at hid
    rw [hlow]
    exact h.lowest_le (hid.symm.imp_right fun hlt => (Nat.lt_of_not_le hlt).le)
  exact ⟨{ h with
    reads := hreads ▸ pairwise_cons.2 ⟨fun r hr => hlow ▸ h.lowest r hr, h.reads⟩
    lowest := hreads ▸ forall_mem_cons.2 ⟨hlow.le, h.lowest⟩
    hidden := hreads ▸ forall_mem_cons.2 ⟨hhidden, h.hidden⟩
    enabled_reads := hreads ▸ forall_mem_cons.2 ⟨by rw [hs]; exact h.enabled, h.enabled_reads⟩
    bounds := fun a ha => (h.bounds a ha).trans hmono }, hmono⟩

theorem Watermarks.close (reader : ℕ) : Watermarks (i.close reader) appenders begun ∧
    i.lowWatermark ≤ (i.close reader).lowWatermark := by
  have hsub : (i.close reader).readsOpen.Sublist i.readsOpen := filter_sublist
  have hmono : i.lowWatermark ≤ (i.close reader).lowWatermark := by
    have hle := h.le_lowest
    have hr : ∀ r ∈ (i.close reader).readsOpen, i.lowWatermark ≤ r.2.lowWatermark :=
      fun r hr => h.le_read (hsub.subset hr)
    conv_rhs => unfold Isolation.lowWatermark
    rw [show (i.close reader).disabled = i.disabled from rfl]
    simp only [h.enabled, reduceCtorEq, if_false]
    split
    · exact hr _ (mem_of_getLast? (by assumption))
    · exact hle
  exact ⟨{ h with
    reads := h.reads.sublist hsub
    lowest := fun r hr => h.lowest r (hsub.subset hr)
    hidden := fun r hr => h.hidden r (hsub.subset hr)
    enabled_reads := fun r hr => h.enabled_reads r (hsub.subset hr)
    bounds := fun a ha => (h.bounds a ha).trans hmono }, hmono⟩

end

/-! ### The ring against the history -/

/-- **The invariant of a run**: the ring keeps the ids of the newest samples, and those before were
added by appends below the watermark, or by none. -/
structure Aligned (w : World) : Prop where
  marks : Watermarks w.iso w.appenders w.begun
  begun : ∀ id, some id ∈ w.history → id ∈ w.begun
  ring : ∃ dropped ids, w.history = dropped ++ ids.map some ∧ w.series.txs.Keeps ids ∧
    ∀ id, some id ∈ dropped → id < w.iso.lowWatermark

theorem aligned_restored (mmappedChunks headChunks : List ℕ) (firstChunkID capacity : ℕ) :
    Aligned (restored mmappedChunks headChunks firstChunkID capacity) := by
  obtain ⟨w, hw⟩ : ∃ w, w = restored mmappedChunks headChunks firstChunkID capacity := ⟨_, rfl⟩
  have hnone : ∀ id, some id ∉ w.history := by
    intro id hid
    simp [hw, World.history, restored, Series.chunks] at hid
  rw [← hw]
  refine ⟨?_, fun id hid => absurd hid (hnone id), w.history, [], by simp, ?_,
    fun id hid => absurd hid (hnone id)⟩
  · rw [hw]
    constructor <;> simp [restored, newIsolation]
    omega
  · rw [hw]
    exact keeps_newTxRing capacity

variable {w w' : World}

/-- A step that keeps the history and the ring, and does not lower the watermark. -/
theorem Aligned.of_marks (h : Aligned w) (hm : Watermarks w'.iso w'.appenders w'.begun)
    (hb : ∀ id ∈ w.begun, id ∈ w'.begun) (hl : w.iso.lowWatermark ≤ w'.iso.lowWatermark)
    (hh : w'.history = w.history) (ht : w'.series.txs = w.series.txs) : Aligned w' := by
  obtain ⟨dropped, ids, he, hk, hlt⟩ := h.ring
  refine ⟨hm, fun id hid => hb id (h.begun id (hh ▸ hid)), dropped, ids, hh.trans he, ht ▸ hk, ?_⟩
  exact fun id hid => (hlt id hid).trans_le hl

theorem chunks_append (s : Series) (appendID : ℕ) (cut : Bool) :
    (s.append appendID cut).chunks.flatten = s.chunks.flatten ++ [some appendID] := by
  unfold Series.append Series.chunks
  rcases s.headChunks with _ | ⟨c, older⟩
  · simp
  · cases cut <;> simp

theorem chunks_mmapChunks (s : Series) : s.mmapChunks.chunks = s.chunks := by
  unfold Series.mmapChunks Series.chunks
  rcases s.headChunks with _ | ⟨c, older⟩ <;> simp

theorem chunks_truncate (s : Series) (k : ℕ) : (s.truncate k).chunks = s.chunks.drop k := by
  unfold Series.truncate Series.chunks
  rw [drop_append, drop_reverse]

theorem Aligned.append (h : Aligned w) {a : Appender} (ha : a ∈ w.appenders) (cut : Bool) :
    Aligned { w with series := w.series.append a.appendID cut } := by
  have hh : World.history { w with series := w.series.append a.appendID cut } =
      w.history ++ [some a.appendID] := by
    rw [World.history, chunks_append, ← append_assoc, World.history]
  obtain ⟨dropped, ids, he, hk, hlt⟩ := h.ring
  refine ⟨h.marks, fun id hid => ?_, dropped, ids ++ [a.appendID], ?_, hk.add a.appendID, hlt⟩
  · rw [hh, mem_append, mem_singleton] at hid
    rcases hid with hid | hid
    · exact h.begun id hid
    · rw [Option.some.inj hid, h.marks.begun]
      exact h.marks.known _ (h.marks.opened ▸ mem_map_of_mem ha)
  · rw [hh, he, map_append, append_assoc]
    rfl

/-- The ids an appender cuts off lie below its bound, hence below the watermark. -/
theorem Aligned.cleanup (h : Aligned w) {a : Appender} (ha : a ∈ w.appenders) :
    ∃ txs, w.series.txs.cleanupAppendIDsBelow a.cleanupAppendIDsBelow = .ok txs ∧
      Aligned { w with series := { w.series with txs := txs } } := by
  obtain ⟨dropped, ids, he, hk, hlt⟩ := h.ring
  obtain ⟨txs, hc, hk'⟩ := hk.cleanup a.cleanupAppendIDsBelow
  refine ⟨txs, hc, h.marks, h.begun, dropped ++ (ids.takeWhile
    (· < a.cleanupAppendIDsBelow)).map some, _, ?_, hk', ?_⟩
  · rw [append_assoc, ← map_append, takeWhile_append_dropWhile]
    exact he
  · intro id hid
    rw [mem_append] at hid
    rcases hid with hid | hid
    · exact hlt id hid
    · obtain ⟨x, hx, hxe⟩ := mem_map.1 hid
      have hb := mem_takeWhile_imp hx
      rw [decide_eq_true_eq, Option.some.inj hxe] at hb
      exact hb.trans_le (h.marks.bounds a ha)

/-- **Every step keeps the invariant** and the reads it does not close, and no step faults. -/
theorem step_aligned (h : Aligned w) (op : Op) : ∃ w', step w op = .ok (w', none) ∧ Aligned w' ∧
    ∀ r ∈ w.iso.readsOpen, op ≠ .closeRead r.1 → r ∈ w'.iso.readsOpen := by
  cases op with
  | newAppender =>
    obtain ⟨id, low, i', he, hm, hl, hreads⟩ := h.marks.newAppendID
    refine ⟨_, rfl, ?_⟩
    have hw : w.newAppender = { w with
        iso := i', appenders := w.appenders ++ [⟨id, low⟩], begun := w.begun ++ [id] } := by
      rw [World.newAppender, he]
    rw [hw]
    exact ⟨h.of_marks hm (fun id hid => mem_append_left _ hid) hl rfl rfl,
      fun r hr _ => hreads ▸ hr⟩
  | append a cut =>
    by_cases ha : a ∈ w.appenders
    · exact ⟨_, if_pos ha, h.append ha cut, fun _ hr _ => hr⟩
    · exact ⟨w, if_neg ha, h, fun _ hr _ => hr⟩
  | cleanup a =>
    by_cases ha : a ∈ w.appenders
    · obtain ⟨txs, hc, h'⟩ := h.cleanup ha
      refine ⟨_, ?_, h', fun _ hr _ => hr⟩
      rw [step, if_pos ha, hc]
      rfl
    · exact ⟨w, if_neg ha, h, fun _ hr _ => hr⟩
  | closeAppend a =>
    by_cases ha : a ∈ w.appenders
    · obtain ⟨hm, hl⟩ := h.marks.closeAppend a.appendID
      refine ⟨_, if_pos ha, h.of_marks hm (fun _ hid => hid) hl rfl rfl, fun _ hr _ => ?_⟩
      simpa only [Isolation.closeAppend, h.marks.enabled, reduceCtorEq, if_false] using hr
    · exact ⟨w, if_neg ha, h, fun _ hr _ => hr⟩
  | mmapChunks =>
    refine ⟨_, rfl, h.of_marks h.marks (fun _ hid => hid) (le_refl _) ?_ rfl, fun _ hr _ => hr⟩
    rw [World.history, World.history, chunks_mmapChunks]
  | truncate k =>
    refine ⟨_, rfl, h.of_marks h.marks (fun _ hid => hid) (le_refl _) ?_ rfl, fun _ hr _ => hr⟩
    rw [World.history, World.history, chunks_truncate, append_assoc, ← flatten_append,
      take_append_drop]
  | openRead =>
    obtain ⟨hm, hl⟩ := h.marks.state w.readers
    exact ⟨_, rfl, h.of_marks hm (fun _ hid => hid) hl rfl rfl, fun _ hr _ => mem_cons_of_mem _ hr⟩
  | closeRead reader =>
    obtain ⟨hm, hl⟩ := h.marks.close reader
    exact ⟨_, rfl, h.of_marks hm (fun _ hid => hid) hl rfl rfl, fun r hr hop =>
      mem_filter.2 ⟨hr, decide_eq_true fun he => hop (he ▸ rfl)⟩⟩

theorem run_aligned (h : Aligned w) (ops : List Op) :
    ∃ w', run step w ops = .ok (w', []) ∧ Aligned w' :=
  run_invariant (fun _ => Aligned) (fun _ => True) (fun _ _ _ => trivial)
    (fun _ op _ _ h => let ⟨w', hs, h', _⟩ := step_aligned h op; ⟨w', hs, h'⟩) h trivial

theorem run_reads {r : ℕ × IsolationState} {ops : List Op} (h : Aligned w)
    (hrun : run step w ops = .ok (w', [])) (hops : Op.closeRead r.1 ∉ ops)
    (hr : r ∈ w.iso.readsOpen) : r ∈ w'.iso.readsOpen := by
  obtain ⟨w1, hrun1, -, hr1⟩ := run_invariant (fun _ w => Aligned w ∧ r ∈ w.iso.readsOpen)
    (Op.closeRead r.1 ∉ ·) (fun _ _ h hm => h (mem_append_left _ hm)) (fun is op w hops hw => by
      obtain ⟨w1, hs, h1, hreads⟩ := step_aligned hw.1 op
      exact ⟨w1, hs, h1, hreads r hw.2 fun he => hops (by simp [he])⟩) ⟨h, hr⟩ hops
  cases hrun1.symm.trans hrun
  exact hr1

/-! ### What the bound is -/

variable {dropped chunk : List (Option ℕ)} {ids buf : List ℕ}

/-- A prefix of the history, where the ids of its end are known. -/
theorem mem_take_history {j : ℕ} {id : ℕ} (h : some id ∈ (dropped ++ ids.map some).take j) :
    some id ∈ dropped ∨ id ∈ ids.take (j - dropped.length) := by
  rw [take_append, mem_append, ← map_take] at h
  rcases h with h | h
  · exact .inl (mem_of_mem_take h)
  · obtain ⟨x, hx, he⟩ := mem_map.1 h
    exact .inr (Option.some.inj he ▸ hx)

/-- **The bound from the ring is the bound from the history**: the samples before the ids in the
ring are not hidden, and the scan finds the first hidden one of the rest. -/
theorem isGreatest_of_scan {first : ℕ} {hides : ℕ → Bool} (hk : Holds buf first ids)
    (hd : ∀ id, some id ∈ dropped → hides id = false) {start n : ℕ}
    (hn : start + n ≤ dropped.length + ids.length) :
    ∃ found, scan buf hides (start + n - dropped.length) (first % buf.length) = .ok found ∧
      IsGreatest {m | m ≤ n ∧ (m = 0 ∨ ∀ id,
        some id ∈ (dropped ++ ids.map some).take (start + m) → hides id = false)}
        (n - found.getD 0) := by
  obtain ⟨k, found, hs, hleft, hv, hx⟩ :=
    scan_spec buf hides (start + n - dropped.length) ids first hk (by omega)
  refine ⟨found, hs, ⟨Nat.sub_le _ _, ?_⟩, ?_⟩
  · rcases Nat.eq_zero_or_pos (n - found.getD 0) with h0 | hpos
    · exact .inl h0
    · refine .inr fun id hid => ?_
      rcases mem_take_history hid with hid | hid
      · exact hd id hid
      · exact hv id ((take_sublist_take_left (by omega)).subset hid)
  · rintro m ⟨hm, h0 | hvis⟩
    · omega
    · by_contra hlt
      -- the prefix reaches beyond the hidden id
      obtain ⟨x, hget, hhid⟩ := hx (by omega)
      have hmem : some x ∈ (dropped ++ ids.map some).take (start + m) := by
        rw [take_append, mem_append, ← map_take]
        refine .inr (mem_map_of_mem (mem_of_getElem? (i := k) ?_))
        rw [getElem?_take, if_pos (by omega)]
        exact hget
      rw [hvis x hmem] at hhid
      exact Bool.false_ne_true hhid

theorem appendIDsToConsider_eq (s : Series) (hk : s.txs.Keeps ids) (ix n : ℕ) :
    appendIDsToConsider s.txs (s.mmappedChunks.map length) (s.headChunks.map length)
        s.firstChunkID (s.firstChunkID + ix) n =
      (ids.length : ℤ) - ((s.chunks.flatten.length : ℤ) -
        ((s.chunks.take ix).flatten.length + n)) := by
  have hix : ((s.firstChunkID + ix : ℕ) : ℤ) - s.firstChunkID = ix := by omega
  have hix' : ((ix : ℤ) - s.mmappedChunks.length).toNat = ix - s.mmappedChunks.length := by omega
  have htotal : s.chunks.flatten.length =
      (s.mmappedChunks.map length).sum + (s.headChunks.map length).sum := by
    rw [Series.chunks, length_flatten, map_append, sum_append, map_reverse,
      sum_reverse]
  have hprev : (s.chunks.take ix).flatten.length = ((s.mmappedChunks.map length).take ix).sum +
      ((s.headChunks.map length).reverse.take (ix - s.mmappedChunks.length)).sum := by
    rw [Series.chunks, take_append, length_flatten, map_append, sum_append,
      map_take, map_take, map_reverse]
  simp only [appendIDsToConsider, hix, hix', length_map, Int.toNat_natCast, hk.count, htotal,
    hprev]

theorem flatten_chunks {s : Series} {ix : ℕ} (hc : s.chunks[ix]? = some chunk) :
    ∃ after, s.chunks.flatten = (s.chunks.take ix).flatten ++ (chunk ++ after) := by
  obtain ⟨hix, hget⟩ := List.getElem?_eq_some_iff.1 hc
  refine ⟨(s.chunks.drop (ix + 1)).flatten, ?_⟩
  conv_lhs => rw [← take_append_drop ix s.chunks, flatten_append,
    drop_eq_getElem_cons hix, flatten_cons, hget]

theorem Aligned.stopAfter (h : Aligned w) {r : ℕ × IsolationState} (hr : r ∈ w.iso.readsOpen)
    {ix n : ℕ} (hc : w.series.chunks[ix]? = some chunk) (hn : n ≤ chunk.length) :
    ∃ k, w.series.stopAfter (w.series.firstChunkID + ix) n r.2 = .ok k ∧
      IsGreatest {m | m ≤ n ∧ (m = 0 ∨ ∀ id,
        some id ∈ w.truncated ++ (w.series.chunks.take ix).flatten ++ chunk.take m →
          r.2.hides id = false)} k := by
  obtain ⟨dropped, ids, he, hk, hlt⟩ := h.ring
  obtain ⟨before, hb⟩ : ∃ l, l = w.truncated ++ (w.series.chunks.take ix).flatten := ⟨_, rfl⟩
  obtain ⟨after, hsplit⟩ := flatten_chunks hc
  have hhist : w.history = before ++ (chunk ++ after) := by
    rw [World.history, hsplit, hb, append_assoc]
  -- a prefix of the chunk ends a prefix of the history
  have htake : ∀ m ≤ n, before ++ chunk.take m =
      (dropped ++ ids.map some).take (before.length + m) := by
    intro m hm
    rw [← he, hhist, take_length_add_append, take_append_of_le_length (hm.trans hn)]
  have hlens := congrArg length (hhist.symm.trans he)
  have htot := congrArg length hsplit
  simp only [length_append, length_map] at hlens htot
  have hd : ∀ id, some id ∈ dropped → r.2.hides id = false := by
    intro id hid
    by_contra hne
    have := h.marks.hidden r hr id (by simpa using hne)
    have := h.marks.le_read hr
    have := hlt id hid
    omega
  obtain ⟨found, hs, hg⟩ := isGreatest_of_scan hk.cells hd
    (show before.length + n ≤ dropped.length + ids.length by omega)
  rw [first_mod hk] at hs
  refine ⟨n - found.getD 0, ?_, ?_, ?_⟩
  · have hleft := appendIDsToConsider_eq w.series hk ix n
    rw [htot] at hleft
    simp only [Series.stopAfter, ReadIsolation.stopAfter, h.marks.enabled_reads r hr,
      reduceCtorEq, if_false, hleft]
    rw [show ((ids.length : ℤ) - ((((w.series.chunks.take ix).flatten.length +
      (chunk.length + after.length) : ℕ) : ℤ) -
        ((w.series.chunks.take ix).flatten.length + n))).toNat
      = before.length + n - dropped.length by omega, hs]
    cases found with
    | none => rfl
    | some left => exact congrArg Except.ok (by rw [Option.getD_some]; omega)
  · refine ⟨hg.1.1, hg.1.2.imp_right fun hv id hid => hv id ?_⟩
    rwa [← hb, htake _ hg.1.1] at hid
  · intro m hm
    refine hg.2 ⟨hm.1, hm.2.imp_right fun hv id hid => hv id ?_⟩
    rwa [← hb, htake m hm.1]

/-- **Isolation of a reader.** From any restored series, after any steps a reader takes its state,
and further steps follow among which it is not closed. The bound for the first `n` samples of a
chunk is then the length of the longest prefix of them up to whose end every sample of the series
was added by an append that had begun and was no longer open when the state was taken, or by the
replay. -/
theorem stopAfter_isGreatest (mmappedChunks headChunks : List ℕ) (firstChunkID capacity : ℕ)
    (ops₁ ops₂ : List Op) :
    ∃ w₁ w₂, run step (restored mmappedChunks headChunks firstChunkID capacity) ops₁ =
        .ok (w₁, []) ∧
      run step w₁.openRead ops₂ = .ok (w₂, []) ∧
      (Op.closeRead w₁.readers ∉ ops₂ → ∀ ix n chunk, w₂.series.chunks[ix]? = some chunk →
        n ≤ chunk.length →
        ∃ k, w₂.series.stopAfter (w₂.series.firstChunkID + ix) n (w₁.iso.state w₁.readers).1 =
            .ok k ∧
          IsGreatest {m | m ≤ n ∧ (m = 0 ∨ ∀ id,
            some id ∈ w₂.truncated ++ (w₂.series.chunks.take ix).flatten ++ chunk.take m →
              id ∈ w₁.begun ∧ id ∉ w₁.appenders.map Appender.appendID)} k) := by
  obtain ⟨w₁, hr₁, h₁⟩ := run_aligned
    (aligned_restored mmappedChunks headChunks firstChunkID capacity) ops₁
  obtain ⟨w, hs, h, -⟩ := step_aligned h₁ .openRead
  obtain rfl : w₁.openRead = w := by simpa [step] using hs
  obtain ⟨w₂, hr₂, h₂⟩ := run_aligned h ops₂
  refine ⟨w₁, w₂, hr₁, hr₂, fun hops ix n chunk hc hn => ?_⟩
  have hread : (w₁.readers, (w₁.iso.state w₁.readers).1) ∈ w₂.iso.readsOpen :=
    run_reads h hr₂ hops (mem_cons_self)
  obtain ⟨k, hk, hg⟩ := h₂.stopAfter hread hc hn
  -- on ids that were ever given out, the state hides what was open or had not begun
  have hhides : ∀ id, 1 ≤ id → ((w₁.iso.state w₁.readers).1.hides id = false ↔
      id ∈ w₁.begun ∧ id ∉ w₁.appenders.map Appender.appendID) := by
    intro id hid
    rw [h₁.marks.begun, ← h₁.marks.opened, IsolationState.hides, Bool.not_eq_false',
      Bool.and_eq_true, decide_eq_true_eq, Bool.not_eq_true', ← Bool.not_eq_true,
      contains_iff_mem]
    simp only [Isolation.state, hid, true_and]
  have hpos : ∀ m id, some id ∈ w₂.truncated ++ (w₂.series.chunks.take ix).flatten ++
      chunk.take m → 1 ≤ id := by
    intro m id hid
    refine ((h₂.marks.begun id).1 (h₂.begun id ?_)).1
    obtain ⟨after, hsplit⟩ := flatten_chunks hc
    rw [World.history, hsplit, ← append_assoc, mem_append]
    exact (mem_append.1 hid).imp_right
      fun hm => mem_append_left _ (mem_of_mem_take hm)
  refine ⟨k, hk, ?_⟩
  have hset : ∀ m, (∀ id, some id ∈ w₂.truncated ++ (w₂.series.chunks.take ix).flatten ++
      chunk.take m → (w₁.iso.state w₁.readers).1.hides id = false) ↔
      ∀ id, some id ∈ w₂.truncated ++ (w₂.series.chunks.take ix).flatten ++ chunk.take m →
        id ∈ w₁.begun ∧ id ∉ w₁.appenders.map Appender.appendID :=
    fun m => forall₂_congr fun id hid => hhides id (hpos m id hid)
  simpa only [hset] using hg

/-- Of two samples in one chunk, the second of an append still open, a reader gets one. -/
example : (run step (restored [] [] 0 4) [.newAppender, .append ⟨1, 1⟩ false, .closeAppend ⟨1, 1⟩,
    .newAppender, .append ⟨2, 2⟩ false]).map
      (fun p => p.1.series.stopAfter 0 2 (p.1.iso.state p.1.readers).1) = .ok (.ok 1) := by
  rfl

end TopcDB.Tsdb.ReadIsolation
