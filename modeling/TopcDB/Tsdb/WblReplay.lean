import TopcDB.Lib.Shards
import TopcDB.Tsdb.WblCommit
import Mathlib.Algebra.Order.BigOperators.Group.Finset
import Mathlib.Data.Fintype.BigOperators

/-! # Replay of the write-behind log (`Head.loadWBL`)

The replay hands the samples and markers of the WBL out to workers, each of which inserts the
samples of its own series and clears their head chunks at markers. Whatever the schedule is, the
changes of a series are made in the order of the log (`Inv.step`), so that the series get the head
chunks back that they had before the restart (`replay_head`). -/

namespace TopcDB.Tsdb.WblReplay

open Function List Lib.Bits Lib.Shards Lib.Machine Go.Basic Chunkenc.Huffman Record HeadSeries
open OooHead OooSeries HeadAppender WblCommit

variable {H FH A FA : Type}

local instance : LawfulBEq U64 := inferInstance

/-! ### The replay -/

/-- What a replay is started with: the number of workers, the sizes of batches (5000 samples) and
channels (300 items), the series of the head, the references mapped to others, and the last m-mapped
chunk. -/
structure Setup where
  concurrency : ℕ
  concurrency_pos : 0 < concurrency
  batch : ℕ
  batch_pos : 0 < batch
  buffer : ℕ
  buffer_pos : 0 < buffer
  refs : List U64
  multiRef : U64 → Option U64
  lastMmapRef : U64
  ranges : Ranges

/-- `wblSubsetProcessorInputItem`. -/
inductive Item
  | mmappedSeries (ref : U64)
  | samples (l : List RefSample)

/-- A worker: its channel, and what is left of the samples it has received. -/
structure Worker where
  input : List Item
  hand : List RefSample

/-- The head while the WBL is replayed; `outbox` has the items that are to be sent next. -/
structure World (n : ℕ) (H FH A FA : Type) where
  ooo : U64 → Option (OOOFields H FH)
  mapper : Mapper A FA
  segments : List (List (List Byte))
  records : List (List Byte)
  samples : List RefSample
  markers : List RefMmapMarker
  outbox : List (Fin n × Item)
  workers : Fin n → Worker

inductive Failure
  | fault (f : Fault)
  | decode (e : DecodeErr)

/-- `ChunkDiskMapperRef.Unpack`. -/
def unpack (ref : U64) : ℕ × ℕ := (ref.toNat / 2 ^ 32, ref.toNat % 2 ^ 32)

namespace Setup

variable (R : Setup)

def owner (ref : U64) : Fin R.concurrency :=
  ⟨ref.toNat % R.concurrency, Nat.mod_lt _ R.concurrency_pos⟩

def resolve (ref : U64) : U64 := (R.multiRef ref).getD ref

/-- A chunk that was not there when the m-mapped chunks were loaded. -/
def missing (mmapRef : U64) : Bool :=
  let (lastSeq, lastOff) := unpack R.lastMmapRef
  let (seq, off) := unpack mmapRef
  lastSeq < seq || seq = lastSeq && lastOff < off

def sendMarker (m : RefMmapMarker) : List (Fin R.concurrency × Item) :=
  if R.missing m.mmapRef then []
  else if R.resolve m.ref ∈ R.refs then
    [(R.owner (R.resolve m.ref), .mmappedSeries (R.resolve m.ref))]
  else []

def sendSamples (l : List RefSample) : List (Fin R.concurrency × Item) :=
  (split (fun s => R.owner s.ref) (l.map fun s => { s with ref := R.resolve s.ref })).map fun p =>
    (p.1, .samples p.2)

end Setup

def Worker.idle (k : Worker) : Bool := k.input.isEmpty && k.hand.isEmpty

variable (E : Env U64 H FH A FA) (o : HeadOpts) (R : Setup) (w : World R.concurrency H FH A FA)

def decode (rec : List Byte) : Except Failure (World R.concurrency H FH A FA) :=
  match typeOf rec with
  | some .samples =>
    match decodeSamples rec with
    | .ok l => .ok { w with samples := l }
    | .error e => .error (.decode e)
  | some .mmapMarkers =>
    match decodeMmapMarkers [] rec with
    | .ok l => .ok { w with markers := l }
    | .error e => .error (.decode e)
  | _ => .ok w

/-- A step of the dispatcher. It waits while a channel is full, and for the workers at the end of
every segment. -/
def dispatch : Except Failure (World R.concurrency H FH A FA) :=
  match w.outbox with
  | (i, item) :: rest =>
    let k := w.workers i
    if k.input.length < R.buffer then
      .ok { w with
        outbox := rest
        workers := update w.workers i { k with input := k.input ++ [item] } }
    else .ok w
  | [] =>
    if 0 < w.samples.length then
      .ok { w with
        outbox := R.sendSamples (w.samples.take R.batch)
        samples := w.samples.drop R.batch }
    else
      match w.markers with
      | m :: rest => .ok { w with outbox := R.sendMarker m, markers := rest }
      | [] =>
        match w.records with
        | rec :: rest => decode R { w with records := rest } rec
        | [] =>
          match w.segments with
          | [] => .ok w
          | segment :: rest =>
            if ∀ i, (w.workers i).idle then .ok { w with records := segment, segments := rest }
            else .ok w

/-- All samples till now have been m-mapped. -/
def clearHead (s : OOOFields H FH) : OOOFields H FH := { s with oooHeadChunk := none }

/-- A step of `processWBLSamples`. -/
def process (i : Fin R.concurrency) : Except Failure (World R.concurrency H FH A FA) :=
  let k := w.workers i
  match k.hand with
  | s :: rest =>
    let w := { w with workers := update w.workers i { k with hand := rest } }
    if s.ref ∈ R.refs then
      match OOOFields.insert E (w.ooo s.ref) w.mapper o.oooCapMax R.ranges s.t s.v none none
        o.errorBound with
      | .error fault => .error (.fault fault)
      | .ok p =>
        .ok { w with ooo := update w.ooo s.ref (some p.ooo), mapper := p.mapper }
    else .ok w
  | [] =>
    match k.input with
    | [] => .ok w
    | .mmappedSeries ref :: rest =>
      .ok { w with
        ooo := update w.ooo ref ((w.ooo ref).map clearHead)
        workers := update w.workers i ⟨rest, []⟩ }
    | .samples l :: rest => .ok { w with workers := update w.workers i ⟨rest, l⟩ }

inductive Actor (n : ℕ)
  | dispatcher
  | worker (i : Fin n)

/-- **A step of the replay.** -/
def step :
    Actor R.concurrency → Except Failure (World R.concurrency H FH A FA × Option Empty)
  | .dispatcher => (dispatch R w).map fun w => (w, none)
  | .worker i => (process E o R w i).map fun w => (w, none)

/-- The start of a replay of the segments: the m-mapped chunks of the series are loaded. -/
def start (R : Setup) (mmapped : U64 → List MmappedChunk) (mapper : Mapper A FA)
    (segments : List (List (List Byte))) : World R.concurrency H FH A FA :=
  ⟨fun ref => if mmapped ref = [] then none else some ⟨mmapped ref, none, 0⟩, mapper, segments, [],
    [], [], [], fun _ => ⟨[], []⟩⟩

structure World.Finished {n : ℕ} (w : World n H FH A FA) : Prop where
  segments : w.segments = []
  records : w.records = []
  samples : w.samples = []
  markers : w.markers = []
  outbox : w.outbox = []
  workers : ∀ i, (w.workers i).idle = true

/-! ### What is left to do -/

def ref : Event → U64
  | .marker m => m.ref
  | .sample s => s.ref

def Item.events : Item → List Event
  | .mmappedSeries ref => [.marker ⟨ref, 0⟩]
  | .samples l => l.map .sample

def Worker.events (k : Worker) : List Event := k.hand.map .sample ++ k.input.flatMap Item.events

variable {E : Env U64 H FH A FA} {o : HeadOpts} {R : Setup} {r r₀ mmapRef : U64}

theorem change_eq_none {e : Event} (h : ref e ≠ r) : Event.change E r e = none := by
  cases e <;> exact if_neg h

variable {evs : List Event}

theorem filterMap_change_eq_nil (h : ∀ e ∈ evs, ref e ≠ r) :
    evs.filterMap (Event.change E r) = [] :=
  filterMap_eq_nil_iff.2 fun e he => change_eq_none (h e he)

namespace World

variable (w : World R.concurrency H FH A FA)

/-- What is still to happen to a series, if the records that are left have the events `evs`. -/
def left (r : U64) (evs : List Event) : List Event :=
  (w.workers (R.owner r)).events ++ (w.outbox.flatMap fun p => p.2.events) ++
    w.samples.map .sample ++ w.markers.map .marker ++ evs

/-- The head chunk that the replay will leave to a series. -/
def outcome (E : Env U64 H FH A FA) (cap : ℕ) (w : World R.concurrency H FH A FA) (r : U64)
    (evs : List Event) : Option (List (OOOSample H FH)) :=
  ((w.left r evs).filterMap (Event.change E r)).foldl (change cap) (headSamples (w.ooo r))

def rest : List (List Byte) := w.records ++ w.segments.flatten

end World

variable (R) in
/-- The chunks of the markers have been loaded. -/
def Loaded (evs : List Event) : Prop := ∀ m, .marker m ∈ evs → R.missing m.mmapRef = false

variable (E o) in
/-- Every worker has events of its own series only, and each series will come to its target. -/
structure Inv (target : U64 → Option (List (OOOSample H FH))) (w : World R.concurrency H FH A FA) :
    Prop where
  floats : ∀ r l, headSamples (w.ooo r) = some l → Floats o.oooCapMax l
  outbox : ∀ p ∈ w.outbox, ∀ e ∈ p.2.events, R.owner (ref e) = p.1
  workers : ∀ i, ∀ e ∈ (w.workers i).events, R.owner (ref e) = i
  markers : Loaded R (w.markers.map .marker)
  outcome : ∃ evs, Events w.rest evs ∧ Loaded R evs ∧
    ∀ r ∈ R.refs, w.outcome E o.oooCapMax r evs = target r

section invariant

variable {target : U64 → Option (List (OOOSample H FH))} {w : World R.concurrency H FH A FA}
  {i : Fin R.concurrency} (hi : Inv E o target w)

include hi

theorem Inv.moved {w' : World R.concurrency H FH A FA}
    (hooo : w'.ooo = w.ooo) (hrest : w'.rest = w.rest)
    (houtbox : ∀ p ∈ w'.outbox, ∀ e ∈ p.2.events, R.owner (ref e) = p.1)
    (hworkers : ∀ i, ∀ e ∈ (w'.workers i).events, R.owner (ref e) = i)
    (hmarkers : Loaded R (w'.markers.map .marker))
    (hleft : ∀ r ∈ R.refs, ∀ evs, (w'.left r evs).filterMap (Event.change E r) =
      (w.left r evs).filterMap (Event.change E r)) : Inv E o target w' := by
  obtain ⟨evs, hevs, hloaded, hout⟩ := hi.outcome
  refine ⟨by rw [hooo]; exact hi.floats, houtbox, hworkers, hmarkers, evs, hrest ▸ hevs, hloaded,
    fun r hr => ?_⟩
  rw [← hout r hr, World.outcome, World.outcome, hleft r hr, hooo]

omit hi in
theorem events_push (k : Worker) (item : Item) :
    Worker.events { k with input := k.input ++ [item] } = k.events ++ item.events := by
  simp [Worker.events]

theorem Inv.send {item : Item} {rest : List (Fin R.concurrency × Item)}
    (hout : w.outbox = (i, item) :: rest) :
    Inv E o target { w with
      outbox := rest
      workers := update w.workers i
        { w.workers i with input := (w.workers i).input ++ [item] } } := by
  have hbox := hi.outbox
  rw [hout] at hbox
  obtain ⟨hitem, hrest⟩ := forall_mem_cons.1 hbox
  refine hi.moved rfl rfl hrest ((forall_update_iff w.workers fun j k =>
    ∀ e ∈ k.events, R.owner (ref e) = j).2 ⟨fun e he => ?_, fun j _ => hi.workers j⟩) hi.markers
    fun r _ evs => ?_
  · rw [events_push, mem_append] at he
    exact he.elim (hi.workers i e) (hitem e)
  · by_cases hr : R.owner r = i
    · subst hr
      simp [World.left, hout, events_push]
    · have hnil : item.events.filterMap (Event.change E r) = [] :=
        filterMap_change_eq_nil fun e he hne => hr (hne ▸ hitem e he)
      simp [World.left, hout, update_of_ne hr, hnil]

variable (hm : ∀ r, R.multiRef r = none)

include hm

omit hi in
theorem resolve_eq (r : U64) : R.resolve r = r := by
  rw [Setup.resolve, hm]
  rfl

omit hi in
theorem events_sendSamples (l : List RefSample) :
    ((R.sendSamples l).flatMap fun p => p.2.events) =
      ((split (fun s : RefSample => R.owner s.ref) l).flatMap Prod.snd).map .sample := by
  have hl : (l.map fun s : RefSample => { s with ref := R.resolve s.ref }) = l := by
    rw [map_congr_left fun s _ => by rw [resolve_eq hm]]
    exact map_id _
  rw [Setup.sendSamples, hl, flatMap_map, map_flatMap]
  rfl

theorem Inv.sendSamples (hout : w.outbox = []) : Inv E o target { w with
      outbox := R.sendSamples (w.samples.take R.batch)
      samples := w.samples.drop R.batch } := by
  refine hi.moved rfl rfl (fun p hp e he => ?_) hi.workers hi.markers fun r _ evs => ?_
  · obtain ⟨q, hq, rfl⟩ := mem_map.1 hp
    obtain ⟨s, hs, rfl⟩ := mem_map.1 he
    exact owner_of_mem_split hq s hs
  · have hsplit : ((R.sendSamples (w.samples.take R.batch)).flatMap fun p => p.2.events).filterMap
        (Event.change E r) =
          ((w.samples.take R.batch).map .sample).filterMap (Event.change E r) := by
      rw [events_sendSamples hm, filterMap_map, filterMap_map]
      refine filterMap_split (i := R.owner r) fun s hs => ?_
      by_contra hne
      have hnone : Event.change E r (.sample s) = none :=
        change_eq_none (e := .sample s) fun hr => hne (congrArg R.owner hr)
      simp [hnone] at hs
    have htake : (w.samples.take R.batch).map Event.sample ++ (w.samples.drop R.batch).map .sample =
        w.samples.map .sample := by
      rw [← map_append, take_append_drop]
    rw [World.left, World.left, hout, ← htake]
    simp only [filterMap_append, hsplit, flatMap_nil, append_nil,
      append_assoc]

theorem Inv.sendMarker (hout : w.outbox = []) (hsamples : w.samples = []) {m : RefMmapMarker}
    {rest : List RefMmapMarker} (hmarkers : w.markers = m :: rest) :
    Inv E o target { w with outbox := R.sendMarker m, markers := rest } := by
  have hloaded := hi.markers
  rw [hmarkers] at hloaded
  have hm' : R.missing m.mmapRef = false := hloaded m (by simp)
  have hsend : R.sendMarker m =
      if m.ref ∈ R.refs then [(R.owner m.ref, .mmappedSeries m.ref)] else [] := by
    simp [Setup.sendMarker, hm', resolve_eq hm]
  refine hi.moved rfl rfl (fun p hp e he => ?_) hi.workers
    (fun m' hm' => hloaded m' (by simpa using .inr (by simpa using hm'))) fun r hr evs => ?_
  · replace hp : p ∈ R.sendMarker m := hp
    rw [hsend] at hp
    split_ifs at hp
    · rw [mem_singleton] at hp
      subst hp
      rw [mem_singleton.1 he]
      rfl
    · simp at hp
  · simp only [World.left, hout, hsamples, hmarkers, hsend]
    by_cases href : m.ref ∈ R.refs
    · rw [if_pos href]
      by_cases hmr : m.ref = r <;> simp [Item.events, Event.change, hmr]
    · have hne : m.ref ≠ r := fun h => href (h ▸ hr)
      simp [href, Event.change, hne]

omit hi hm in
theorem decode_other {rec : List Byte} (hsam : typeOf rec ≠ some .samples)
    (hmar : typeOf rec ≠ some .mmapMarkers) : decode R w rec = .ok w := by
  unfold decode
  split
  · exact absurd ‹_› hsam
  · exact absurd ‹_› hmar
  · rfl

omit hm in
theorem Inv.decode (hsamples : w.samples = []) (hmarkers : w.markers = []) {rec : List Byte}
    {rest : List (List Byte)}
    (hrec : w.records = rec :: rest) :
    ∃ w', decode R { w with records := rest } rec = .ok w' ∧ Inv E o target w' ∧
      w'.records = rest ∧ w'.segments = w.segments := by
  obtain ⟨evs, hevs, hloaded, houtcome⟩ := hi.outcome
  rw [World.rest, hrec, cons_append] at hevs
  cases hevs with
  | @cons _ _ l evs hl hevs =>
  have hnext : ∀ samples markers, samples.map Event.sample ++ markers.map Event.marker = l →
      Inv E o target { w with records := rest, samples := samples, markers := markers } := by
    rintro samples markers rfl
    refine ⟨hi.floats, hi.outbox, hi.workers, fun m hm => hloaded m (by simp_all), evs, hevs,
      fun m hm => hloaded m (mem_append_right _ hm), fun r hr => ?_⟩
    rw [← houtcome r hr, World.outcome, World.outcome, World.left, World.left, hsamples, hmarkers]
    simp [append_assoc]
  rw [eventsOf] at hl
  split at hl
  · rename_i htype
    obtain ⟨samples, hdec, rfl⟩ := map_eq_ok hl
    refine ⟨_, by simp only [WblReplay.decode, htype, hdec], hnext samples w.markers ?_, rfl, rfl⟩
    rw [hmarkers, map_nil, append_nil]
  · rename_i htype
    obtain ⟨markers, hdec, rfl⟩ := map_eq_ok hl
    refine ⟨_, by simp only [WblReplay.decode, htype, hdec], hnext w.samples markers ?_, rfl, rfl⟩
    rw [hsamples, map_nil, nil_append]
  · rename_i hsam hmar
    cases hl
    exact ⟨_, decode_other hsam hmar, hnext w.samples w.markers (by rw [hsamples, hmarkers]; rfl),
      rfl, rfl⟩

def Worker.load (k : Worker) : ℕ :=
  k.hand.length + (k.input.map fun item => 1 + item.events.length).sum

/-- Everything that is left, what is nearer to its end last. -/
def measure (w : World R.concurrency H FH A FA) : ℕ ×ₗ ℕ ×ₗ ℕ ×ₗ ℕ ×ₗ ℕ :=
  toLex (w.segments.length, toLex (w.records.length, toLex (w.samples.length + w.markers.length,
    toLex (w.outbox.length, ∑ i, (w.workers i).load))))

omit hi hm

theorem lt_of_fst {α β : Type} [Preorder α] [Preorder β] {a a' : α} (b b' : β) (h : a < a') :
    toLex (a, b) < toLex (a', b') :=
  Prod.Lex.toLex_lt_toLex.2 (.inl h)

theorem lt_of_snd {α β : Type} [Preorder α] [Preorder β] (a : α) {b b' : β} (h : b < b') :
    toLex (a, b) < toLex (a, b') :=
  Prod.Lex.toLex_lt_toLex.2 (.inr ⟨rfl, h⟩)

include hi

include hm in
/-- **A step of the dispatcher.** It waits for workers only. -/
theorem Inv.dispatch : ∃ w', step E o R w .dispatcher = .ok (w', none) ∧ Inv E o target w' ∧
    ((∀ i, (w.workers i).idle = true) → ¬ w.Finished → measure w' < measure w) := by
  rw [step, WblReplay.dispatch]
  rcases hout : w.outbox with _ | ⟨⟨i, item⟩, rest⟩
  · simp only
    by_cases hsamples : 0 < w.samples.length
    · rw [if_pos hsamples]
      refine ⟨_, rfl, hi.sendSamples hm hout, fun _ _ => ?_⟩
      refine lt_of_snd _ (lt_of_snd _ (lt_of_fst _ _ ?_))
      have := R.batch_pos
      simp only [length_drop]
      omega
    rw [if_neg hsamples]
    replace hsamples : w.samples = [] := eq_nil_of_length_eq_zero (by omega)
    rcases hmarkers : w.markers with _ | ⟨m, rest⟩
    · rcases hrec : w.records with _ | ⟨rec, rest⟩
      · rcases hseg : w.segments with _ | ⟨segment, rest⟩
        · exact ⟨w, rfl, hi, fun hidle hfin =>
            absurd ⟨hseg, hrec, hsamples, hmarkers, hout, hidle⟩ hfin⟩
        · simp only
          split_ifs with hidle
          · refine ⟨_, rfl, hi.moved rfl ?_ (by simp) hi.workers (by simp [Loaded])
              fun _ _ _ => ?_, fun _ _ => lt_of_fst _ _ (by simp [hseg])⟩
            · simp [World.rest, hrec, hseg]
            · simp [World.left, hout, hmarkers]
          · exact ⟨w, rfl, hi, fun h _ => absurd h hidle⟩
      · obtain ⟨w', hdec, hi', hrec', hseg'⟩ := hi.decode hsamples hmarkers hrec
        rw [hout, hmarkers] at hdec
        refine ⟨w', congrArg _ hdec, hi', fun _ _ => ?_⟩
        rw [measure, measure, hseg', hrec', hrec]
        exact lt_of_snd _ (lt_of_fst _ _ (by simp))
    · refine ⟨_, rfl, hi.sendMarker hm hout hsamples hmarkers, fun _ _ => ?_⟩
      exact lt_of_snd _ (lt_of_snd _ (lt_of_fst _ _ (by simp [hmarkers])))
  · simp only
    split_ifs with hfull
    · exact ⟨_, rfl, hi.send hout, fun _ _ =>
        lt_of_snd _ (lt_of_snd _ (lt_of_snd _ (lt_of_fst _ _ (by simp [hout]))))⟩
    · refine ⟨w, rfl, hi, fun hidle _ => ?_⟩
      have hempty := hidle i
      rw [Worker.idle, Bool.and_eq_true, List.isEmpty_iff] at hempty
      rw [hempty.1] at hfull
      exact absurd R.buffer_pos hfull

variable {k : Worker}

theorem Inv.pop {e : Event}
    (hk : (w.workers i).events = e :: k.events) {ooo : U64 → Option (OOOFields H FH)}
    (mapper : Mapper A FA) (hfloats : ∀ r l, headSamples (ooo r) = some l → Floats o.oooCapMax l)
    (hooo : ∀ r ∈ R.refs, headSamples (ooo r) = (Event.change E r e).elim (headSamples (w.ooo r))
      (change o.oooCapMax (headSamples (w.ooo r)))) :
    Inv E o target { w with
      ooo := ooo, mapper := mapper, workers := update w.workers i k } := by
  have hown := hi.workers i
  rw [hk] at hown
  obtain ⟨he, hrest⟩ := forall_mem_cons.1 hown
  obtain ⟨evs, hevs, hloaded, hout⟩ := hi.outcome
  refine ⟨hfloats, hi.outbox, (forall_update_iff w.workers fun j k =>
    ∀ e ∈ k.events, R.owner (ref e) = j).2 ⟨hrest, fun j _ => hi.workers j⟩, hi.markers, evs,
    hevs, hloaded, fun r hr => ?_⟩
  rw [← hout r hr, World.outcome, World.outcome]
  simp only [World.left, hooo r hr]
  by_cases hri : R.owner r = i
  · subst hri
    rw [update_self, hk]
    simp only [cons_append, filterMap_cons]
    rcases Event.change E r e with _ | x <;> rfl
  · rw [update_of_ne hri, change_eq_none fun her : ref e = r => hri (her ▸ he)]
    rfl

omit hi in
theorem load_update_lt (h : k.load < (w.workers i).load) :
    ∑ j, (update w.workers i k j).load < ∑ j, (w.workers j).load := by
  have hle := (forall_update_iff w.workers fun j k => k.load ≤ (w.workers j).load).2
    ⟨h.le, fun _ _ => le_rfl⟩
  exact Finset.sum_lt_sum (fun j _ => hle j) ⟨i, Finset.mem_univ i, by rwa [update_self]⟩

omit hi in
theorem measure_lt (h : k.load < (w.workers i).load)
    (ooo : U64 → Option (OOOFields H FH)) (mapper : Mapper A FA) :
    measure { w with ooo := ooo, mapper := mapper, workers := update w.workers i k } <
      measure w :=
  lt_of_snd _ (lt_of_snd _ (lt_of_snd _ (lt_of_snd _ (load_update_lt h))))

variable {s : Option (OOOFields H FH)}

theorem floats_update (hs : ∀ l, headSamples s = some l → Floats o.oooCapMax l) :
    ∀ r l, headSamples (update w.ooo r₀ s r) = some l → Floats o.oooCapMax l :=
  (forall_update_iff w.ooo fun _ s => ∀ l, headSamples s = some l → Floats _ l).2
    ⟨hs, fun r _ => hi.floats r⟩

omit hi in
theorem headSamples_update {e : Event} (he : ref e = r₀) {x : Change}
    (hx : Event.change E r₀ e = some x)
    (hs : headSamples s = change o.oooCapMax (headSamples (w.ooo r₀)) x) (r : U64) :
    headSamples (update w.ooo r₀ s r) = (Event.change E r e).elim (headSamples (w.ooo r))
      (change o.oooCapMax (headSamples (w.ooo r))) := by
  by_cases hr : r = r₀
  · rw [hr, update_self, hx, hs]
    rfl
  · rw [update_of_ne hr, change_eq_none fun h => hr (h.symm.trans he)]
    rfl

theorem Inv.processMarker {rest : List Item} (hhand : (w.workers i).hand = [])
    (hinput : (w.workers i).input = .mmappedSeries r₀ :: rest) :
    Inv E o target { w with
      ooo := update w.ooo r₀ ((w.ooo r₀).map clearHead)
      workers := update w.workers i ⟨rest, []⟩ } := by
  have hevents : (w.workers i).events = .marker ⟨r₀, 0⟩ :: Worker.events ⟨rest, []⟩ := by
    simp [Worker.events, hhand, hinput, Item.events]
  have hclear : headSamples ((w.ooo r₀).map clearHead) = none := by
    cases w.ooo r₀ <;> rfl
  refine hi.pop hevents w.mapper (floats_update hi fun l hl => ?_) fun r _ =>
    headSamples_update (E := E) (e := .marker ⟨r₀, 0⟩) (x := .clear) rfl (if_pos rfl) hclear r
  rw [hclear] at hl
  cases hl

theorem Inv.receive {l : List RefSample} {rest : List Item} (hhand : (w.workers i).hand = [])
    (hinput : (w.workers i).input = .samples l :: rest) :
    Inv E o target { w with workers := update w.workers i ⟨rest, l⟩ } := by
  have hevents : Worker.events ⟨rest, l⟩ = (w.workers i).events := by
    simp [Worker.events, hhand, hinput, Item.events]
  have hsame := (forall_update_iff w.workers fun j k => k.events = (w.workers j).events).2
    ⟨hevents, fun _ _ => rfl⟩
  refine hi.moved rfl rfl hi.outbox (fun j e he => ?_) hi.markers fun r _ evs => ?_
  · simp only [hsame] at he
    exact hi.workers j e he
  · simp only [World.left, hsame]

theorem Inv.processSample {s : RefSample} {rest : List RefSample}
    (hhand : (w.workers i).hand = s :: rest) :
    ∃ w', process E o R w i = .ok w' ∧ Inv E o target w' ∧ measure w' < measure w := by
  have hload : Worker.load { w.workers i with hand := rest } < (w.workers i).load := by
    simp [Worker.load, hhand]
  have hevents : (w.workers i).events =
      .sample s :: Worker.events { w.workers i with hand := rest } := by
    simp [Worker.events, hhand]
  simp only [WblReplay.process, hhand]
  by_cases hknown : s.ref ∈ R.refs
  · obtain ⟨p, hins, hput, -, -⟩ := insert_floats (E := E) (o := o) (hi.floats s.ref) w.mapper
      R.ranges s.t s.v o.errorBound
    rw [if_pos hknown, hins]
    refine ⟨_, rfl, hi.pop hevents p.mapper (floats_update hi fun l hl => ?_) fun r _ =>
      headSamples_update (E := E) (e := .sample s) rfl (if_pos rfl) hput r, measure_lt hload _ _⟩
    rw [hput] at hl
    cases hl
    exact floats_put o.oooCapMax_pos (hi.floats s.ref) s.t _
  · rw [if_neg hknown]
    refine ⟨_, rfl, hi.pop hevents w.mapper hi.floats fun r hr => ?_, measure_lt hload _ _⟩
    have hne : s.ref ≠ r := fun h => hknown (h ▸ hr)
    rw [change_eq_none (e := .sample s) hne]
    rfl

/-- **A step of a worker.** -/
theorem Inv.process (i : Fin R.concurrency) :
    ∃ w', step E o R w (.worker i) = .ok (w', none) ∧ Inv E o target w' ∧
      ((w.workers i).idle = false → measure w' < measure w) := by
  rw [step]
  rcases hhand : (w.workers i).hand with _ | ⟨s, rest⟩
  · rcases hinput : (w.workers i).input with _ | ⟨item, rest⟩
    · refine ⟨w, by simp only [WblReplay.process, hhand, hinput]; rfl, hi, fun hidle => ?_⟩
      simp [Worker.idle, hhand, hinput] at hidle
    · have hload : (w.workers i).load = 1 + item.events.length +
          (rest.map fun item => 1 + item.events.length).sum := by
        simp [Worker.load, hhand, hinput]
      cases item with
      | mmappedSeries r₀ =>
        refine ⟨_, by simp only [WblReplay.process, hhand, hinput]; rfl,
          hi.processMarker hhand hinput, fun _ => measure_lt ?_ _ w.mapper⟩
        rw [hload]
        simp only [Worker.load, Item.events, length_nil, length_singleton]
        omega
      | samples l =>
        refine ⟨_, by simp only [WblReplay.process, hhand, hinput]; rfl, hi.receive hhand hinput,
          fun _ => measure_lt ?_ w.ooo w.mapper⟩
        rw [hload]
        simp only [Worker.load, Item.events, length_map]
        omega
  · obtain ⟨w', hstep, hi', hlt⟩ := hi.processSample hhand
    exact ⟨w', by rw [hstep]; rfl, hi', fun _ => hlt⟩

include hm

theorem Inv.step (a : Actor R.concurrency) :
    ∃ w', step E o R w a = .ok (w', none) ∧ Inv E o target w' := by
  cases a with
  | dispatcher =>
    obtain ⟨w', hstep, hi', -⟩ := hi.dispatch hm
    exact ⟨w', hstep, hi'⟩
  | worker i =>
    obtain ⟨w', hstep, hi', -⟩ := hi.process i
    exact ⟨w', hstep, hi'⟩

/-- While the replay is not at its end, a worker that is not idle or the dispatcher can go on. -/
theorem Inv.progress (hfin : ¬ w.Finished) :
    ∃ a w', WblReplay.step E o R w a = .ok (w', none) ∧ Inv E o target w' ∧
      measure w' < measure w := by
  by_cases hidle : ∀ i, (w.workers i).idle = true
  · obtain ⟨w', hstep, hi', hlt⟩ := hi.dispatch hm
    exact ⟨.dispatcher, w', hstep, hi', hlt hidle hfin⟩
  · obtain ⟨i, hbusy⟩ := not_forall.1 hidle
    obtain ⟨w', hstep, hi', hlt⟩ := hi.process i
    exact ⟨.worker i, w', hstep, hi', hlt (Bool.eq_false_of_not_eq_true hbusy)⟩

end invariant

/-! ### Whole replays -/

/-- The chunks of all markers in the WBL have been loaded. -/
def Durable (lastMmapRef : U64) (wbl : List (List Byte)) : Prop :=
  ∀ rec ∈ wbl, ∀ evs, eventsOf rec = .ok evs → ∀ m, .marker m ∈ evs → m.mmapRef ≤ lastMmapRef

theorem missing_eq_false (h : mmapRef ≤ R.lastMmapRef) : R.missing mmapRef = false := by
  have hle : mmapRef.toNat ≤ R.lastMmapRef.toNat := h
  rw [Bool.eq_false_iff]
  intro hmissing
  simp only [Setup.missing, unpack, Bool.or_eq_true, Bool.and_eq_true] at hmissing
  rcases hmissing with hseq | ⟨hseq, hoff⟩
  · have := of_decide_eq_true hseq
    omega
  · have := of_decide_eq_true hseq
    have := of_decide_eq_true hoff
    omega

theorem loaded_of_durable {wbl : List (List Byte)} (hd : Durable R.lastMmapRef wbl)
    (hevs : Events wbl evs) : Loaded R evs := by
  induction hevs with
  | nil => exact fun m hm => by simp at hm
  | @cons rec recs l evs hrec _ ih =>
    intro m hm
    rcases mem_append.1 hm with hm | hm
    · exact missing_eq_false (hd rec (by simp) l hrec m hm)
    · exact ih (fun rec' hrec' => hd rec' (mem_cons_of_mem _ hrec')) m hm

theorem headSamples_start (mmapped : U64 → List MmappedChunk) (mapper : Mapper A FA)
    (segments : List (List (List Byte))) (r : U64) :
    headSamples ((start R mmapped mapper segments : World _ H FH A FA).ooo r) = none := by
  simp only [start]
  split_ifs <;> rfl

theorem inv_start {segments : List (List (List Byte))} (hevs : Events segments.flatten evs)
    (hd : Durable R.lastMmapRef segments.flatten) (mmapped : U64 → List MmappedChunk)
    (mapper : Mapper A FA) :
    Inv E o (fun r => chunkOf E o.oooCapMax r evs)
      (start R mmapped mapper segments : World _ H FH A FA) := by
  refine ⟨fun r l hl => ?_, by simp [start], by simp [start, Worker.events],
    by simp [start, Loaded], evs, hevs, loaded_of_durable hd hevs, fun r _ => ?_⟩
  · rw [headSamples_start] at hl
    cases hl
  · rw [World.outcome, headSamples_start]
    rfl

theorem Inv.finished {target : U64 → Option (List (OOOSample H FH))}
    {w : World R.concurrency H FH A FA} (hi : Inv E o target w) (hfin : w.Finished)
    (hr : r ∈ R.refs) : headSamples (w.ooo r) = target r := by
  obtain ⟨evs, hevs, -, hout⟩ := hi.outcome
  have hidle := hfin.workers (R.owner r)
  simp only [Worker.idle, Bool.and_eq_true, List.isEmpty_iff] at hidle
  rw [World.rest, hfin.records, hfin.segments] at hevs
  cases hevs
  rw [← hout r hr, World.outcome]
  simp [World.left, Worker.events, hidle, hfin.outbox, hfin.samples, hfin.markers]

/-- **A replay of the events of the WBL** neither faults nor errs under any schedule and can always
be brought to its end, and then every series has the head chunk of its events. -/
theorem replay_events {segments : List (List (List Byte))} (hevs : Events segments.flatten evs)
    (hm : ∀ r, R.multiRef r = none) (hd : Durable R.lastMmapRef segments.flatten)
    (mmapped : U64 → List MmappedChunk) (mapper : Mapper A FA) (sched : List (Actor _)) :
    ∃ w : World _ H FH A FA, run (step E o R) (start R mmapped mapper segments) sched =
        .ok (w, []) ∧
      (∃ more w', run (step E o R) w more = .ok (w', []) ∧ w'.Finished) ∧
      (w.Finished → ∀ r ∈ R.refs, headSamples (w.ooo r) = chunkOf E o.oooCapMax r evs) := by
  obtain ⟨w, hw, hi⟩ : ∃ w, run (step E o R) (start R mmapped mapper segments) sched = .ok (w, []) ∧
      Inv E o (fun r => chunkOf E o.oooCapMax r evs) w :=
    run_invariant (fun _ w => Inv E o _ w) (fun _ => True) (fun _ _ _ => trivial)
      (fun _ a _ _ hi => hi.step hm a) (inv_start hevs hd mmapped mapper) trivial
  refine ⟨w, hw, ?_, fun hfin r hr => hi.finished hfin hr⟩
  exact exists_run_of_progress measure (fun w hi hfin => hi.progress hm hfin) w hi

/-- **A replay of the WBL reproduces the head chunks.** Commits of floats do not fault, a replay
neither faults nor errs under any schedule and can always be brought to its end, and then every
series has the samples in its head chunk that it had before, if it had a head chunk or no compaction
has m-mapped one. -/
theorem replay_head (ops : List Op) : ∃ h : Head H FH A FA,
    run (exec E o) newHead ops = .ok (h, []) ∧
    ∀ R : Setup, R.refs = h.refs → (∀ r, R.multiRef r = none) → Durable R.lastMmapRef h.wbl →
    ∀ segments : List (List (List Byte)), segments.flatten = h.wbl →
    ∀ (mmapped : U64 → List MmappedChunk) (mapper : Mapper A FA) (sched : List (Actor _)),
    ∃ w, run (step E o R) (start R mmapped mapper segments) sched = .ok (w, []) ∧
      (∃ more w', run (step E o R) w more = .ok (w', []) ∧ w'.Finished) ∧
      (w.Finished → ∀ r ∈ h.refs,
        (headSamples (h.ooo r) ≠ none ∨ ∀ ranges, .mmapOOO ranges r ∉ ops) →
        headSamples (w.ooo r) = headSamples (h.ooo r)) := by
  obtain ⟨h, hrun, hl⟩ := logs_run (E := E) (o := o) ops
  obtain ⟨evs, hrec, hhead⟩ := hl.recorded
  refine ⟨h, hrun, fun R hrefs hm hd segments hseg mmapped mapper sched => ?_⟩
  obtain ⟨old, hold, rfl⟩ := hrec.events
  have hevs : Events segments.flatten (old ++ CommitContext.pending ⟨[], none, []⟩) := by
    rw [hseg]
    simpa [CommitContext.pending] using hold
  obtain ⟨w, hw, hmore, hend⟩ := replay_events hevs hm (hseg ▸ hd) mmapped mapper sched
  refine ⟨w, hw, hmore, fun hfin r hr hor => ?_⟩
  rw [hend hfin r (hrefs ▸ hr)]
  rcases hhead r with hsame | ⟨hnone, ranges, hmem⟩
  · exact hsame.symm
  · rcases hor with hne | hno
    · exact absurd hnone hne
    · exact absurd hmem (hno ranges)

/-- The bits of a float do not matter to the log. -/
def bitsEnv : Env U64 Unit Unit Unit Unit where
  ext := default
  value := fun bits => bits.toNat
  hist := default
  fhist := default
  histSamples := fun _ => 0
  fhistSamples := fun _ => 0
  histBytes := fun _ => 0
  fhistBytes := fun _ => 0
  computeChunkEndTime := fun _ _ max _ => max

def oneSampleOpts : HeadOpts :=
  ⟨plainOpts 0, 1, Nat.one_pos, by decide, false, false⟩

/-- Two workers, after all chunks have been loaded. -/
def twoWorkers (refs : List U64) : Setup :=
  ⟨2, Nat.two_pos, 5000, by decide, 300, by decide, refs, fun _ => none, BitVec.allOnes 64, default⟩

theorem durable_twoWorkers (refs : List U64) (wbl : List (List Byte)) :
    Durable (twoWorkers refs).lastMmapRef wbl :=
  fun _ _ _ _ m _ => BitVec.le_def.2
    (by simpa [twoWorkers] using Nat.le_of_lt_succ m.mmapRef.isLt)

/-- A sample out of order, whose chunk a compaction m-maps without a marker. -/
def compactedRun : List Op :=
  [.create 1, .commit default default [(.outOfOrder, ⟨1, 1000, 7⟩)], .mmapOOO default 1]

/-- Two samples more, in chunks of one. -/
def cutRun : List Op :=
  compactedRun ++ [.commit default default
    [(.outOfOrder, ⟨1, 2000, 9⟩), (.inOrder, ⟨1, 4000, 8⟩), (.outOfOrder, ⟨1, 3000, 9⟩)]]

theorem replay_head_cutRun : ∃ h : Head Unit Unit Unit Unit,
    run (exec bitsEnv oneSampleOpts) newHead cutRun = .ok (h, []) ∧
    ∀ sched, ∃ w, run (step bitsEnv oneSampleOpts (twoWorkers h.refs))
        (start _ (fun _ => []) [] [h.wbl]) sched = .ok (w, []) ∧
      (∃ more w', run (step bitsEnv oneSampleOpts _) w more = .ok (w', []) ∧ w'.Finished) ∧
      (w.Finished → headSamples (w.ooo 1) = headSamples (h.ooo 1)) := by
  have hhead : (run (exec bitsEnv oneSampleOpts) newHead cutRun).map (fun p =>
      (p.1.refs, (headSamples (p.1.ooo 1)).isSome)) = .ok ([1], true) := by decide +kernel
  obtain ⟨h, hrun, hreplay⟩ := replay_head (E := bitsEnv) (o := oneSampleOpts) cutRun
  rw [hrun] at hhead
  obtain ⟨hrefs, hsome⟩ := Prod.mk.inj (Except.ok.inj hhead)
  refine ⟨h, hrun, fun sched => ?_⟩
  obtain ⟨w, hw, hmore, hend⟩ := hreplay (twoWorkers h.refs) rfl (fun _ => rfl)
    (durable_twoWorkers _ _) [h.wbl] (by simp) (fun _ => []) [] sched
  exact ⟨w, hw, hmore, fun hfin => hend hfin 1 (hrefs ▸ mem_singleton_self 1)
    (.inl (Option.isSome_iff_ne_none.1 hsome))⟩

/-- The m-mapped chunks that a restart loads. -/
def mmappedOf (h : Head Unit Unit Unit Unit) (r : U64) : List MmappedChunk :=
  (h.ooo r).elim [] (·.oooMmappedChunks)

/-- The chunk that was m-mapped comes back into the head. -/
theorem not_replay_head_compacted : ∃ h : Head Unit Unit Unit Unit,
    run (exec bitsEnv oneSampleOpts) newHead compactedRun = .ok (h, []) ∧ 1 ∈ h.refs ∧
    Durable (twoWorkers h.refs).lastMmapRef h.wbl ∧
    ∃ sched w, run (step bitsEnv oneSampleOpts (twoWorkers h.refs))
        (start _ (mmappedOf h) h.mapper [h.wbl]) sched = .ok (w, []) ∧ w.Finished ∧
      headSamples (h.ooo 1) = none ∧ headSamples (w.ooo 1) = some [⟨1000, 7, none, none⟩] := by
  have hhead : (run (exec bitsEnv oneSampleOpts) newHead compactedRun).map (fun p =>
      (p.2.length, p.1.refs, (headSamples (p.1.ooo 1)).isNone, p.1.wbl)) =
      .ok (0, [1], true, [encodeMmapMarkers [⟨1, 0⟩] [], encodeSamples [⟨1, 1000, 7⟩] []]) := by
    decide +kernel
  obtain ⟨⟨h, es⟩, hrun, hval⟩ := map_eq_ok hhead
  simp only [Prod.mk.injEq, length_eq_zero_iff, Option.isNone_iff_eq_none] at hval
  obtain ⟨rfl, hrefs, hnone, hwbl⟩ := hval
  have hevs : Events [h.wbl].flatten ([.marker ⟨1, 0⟩] ++ ([.sample ⟨1, 1000, 7⟩] ++ [])) := by
    rw [flatten_singleton, hwbl]
    exact .cons (eventsOf_encodeMmapMarkers _) (.cons (eventsOf_encodeSamples _) .nil)
  have hgo := replay_events (E := bitsEnv) (o := oneSampleOpts) (R := twoWorkers h.refs) hevs
    (fun _ => rfl) (durable_twoWorkers _ _) (mmappedOf h) h.mapper
  obtain ⟨w, hw, ⟨more, w', hmore, hfin⟩, -⟩ := hgo []
  obtain ⟨w'', hw'', -, hend⟩ := hgo more
  obtain rfl : start _ (mmappedOf h) h.mapper [h.wbl] = w := by simpa using hw
  obtain rfl : w' = w'' := by simpa [hmore] using hw''
  have hmem : 1 ∈ h.refs := hrefs ▸ mem_singleton_self 1
  exact ⟨h, hrun, hmem, durable_twoWorkers _ _, more, w', hmore, hfin, hnone, hend hfin 1 hmem⟩

end TopcDB.Tsdb.WblReplay
