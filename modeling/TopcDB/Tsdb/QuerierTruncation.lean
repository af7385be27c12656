import TopcDB.Lib.Machine
import Mathlib.Algebra.Order.Group.Int

/-! # Queriers and the truncation of the head

`DB.Querier` registers a read with the head, looks whether a truncation is in process, and may drop
or renew its head querier then. A truncation waits for the reads that overlap its range, and
collects the chunks before its time afterwards. One of out-of-order chunks goes by references
instead of times. The chunks are those of all series; none is appended meanwhile.

A read whose range ends before the least time of the head is not waited for, though it may list a
chunk that begins before that end. One that ends before the time of a truncation in process is
dropped, and then registered again, too late, if it overlaps the out-of-order range
(`listed_lost`). No other querier loses a chunk (`listed_found`). -/

namespace TopcDB.Tsdb.QuerierTruncation

open List Lib.Machine

structure Chunk where
  ref : ℕ
  minTime : ℤ
  maxTime : ℤ
  le : minTime ≤ maxTime
  deriving DecidableEq

/-- `OverlapsClosedInterval`. -/
abbrev Chunk.Overlaps (c : Chunk) (mint maxt : ℤ) : Prop := c.minTime ≤ maxt ∧ mint ≤ c.maxTime

/-- What is done under the compaction mutex. A truncation to `mint` is `ready` when the blocks are
reloaded, `passed` between its wait and the store of the minimum time, and `raised` between the last
store of that and the end. -/
inductive Compaction
  | idle
  | ready (mint : ℤ)
  | waiting (mint : ℤ)
  | passed (mint : ℤ)
  | gc (mint : ℤ)
  | raised (mint : ℤ)
  | waitingOOO (ref : ℕ)
  | gcOOO (ref : ℕ)

/-- `memTruncationInProcess`, with `lastMemoryTruncationTime`. -/
@[simp] def Compaction.inProcess : Compaction → Option ℤ
  | .waiting mint | .passed mint | .gc mint | .raised mint => some mint
  | _ => none

structure Head where
  chunks : List Chunk
  oooChunks : List Chunk
  minTime : ℤ
  lastGarbageCollectedMmapRef : ℕ
  compaction : Compaction

/-- A head querier: from where its read is registered, and the least times that its index and chunk
reader accept. That of the chunk reader is set after the registration. -/
structure HeadQuerier where
  mint : ℤ
  lower : ℤ
  floor : Option ℤ

/-- How far `DB.Querier` has come. -/
inductive Stage
  | begun
  | registered (inoMint : ℤ) (hq : HeadQuerier)
  | renewing (newMint : ℤ)
  | checked (inoMint : ℤ) (hq : Option HeadQuerier)
  | opened (inoMint : ℤ) (hq : Option HeadQuerier) (minRef : Option ℕ)
  | closed

structure Querier where
  mint : ℤ
  maxt : ℤ
  overlapsOOO : Bool
  stage : Stage
  listed : List Chunk
  listedOOO : List Chunk

variable (q : Querier)

/-- `DB.Querier` has not returned, and holds the lock of the blocks. -/
def Querier.creating : Bool :=
  match q.stage with
  | .opened .. | .closed => false
  | _ => true

/-- The beginnings of the open reads; all end at `maxt`. -/
def Querier.reads : List ℤ :=
  match q.stage with
  | .registered _ hq => [hq.mint]
  | .checked _ hq => (hq.map HeadQuerier.mint).toList
  | .opened _ hq minRef => (hq.map HeadQuerier.mint).toList ++ (minRef.map fun _ => q.mint).toList
  | _ => []

/-- The open read of out-of-order chunks. -/
def Querier.oooRead : Option ℕ :=
  match q.stage with
  | .opened _ _ minRef => minRef
  | _ => none

/-- The index reader lists the chunk: that of `HeadAndOOOQuerier` from `inoMint` on. -/
def Querier.Lists (c : Chunk) : Prop :=
  match q.stage with
  | .opened inoMint _ (some _) => c.Overlaps inoMint q.maxt
  | .opened _ (some hq) none => c.Overlaps hq.lower q.maxt
  | _ => False

instance (q : Querier) (c : Chunk) : Decidable (q.Lists c) := by
  unfold Querier.Lists
  split <;> infer_instance

/-- The chunk reader finds the chunk. Only that of the head tests the time range again. -/
def Querier.Finds (h : Head) (q : Querier) (c : Chunk) : Prop :=
  c ∈ h.chunks ∧ match q.stage with
    | .opened _ (some hq) none => ∃ floor ∈ hq.floor, c.Overlaps floor q.maxt
    | _ => True

/-- A step of a querier. The numbers are what it read from the minimum time on the way, which never
sinks. -/
inductive Call
  | skip
  | register (m₁ m₂ : ℤ)
  | chunksRange
  | check
  | renew (m : ℤ)
  | finish
  | list (c : Chunk)
  | listOOO (c : Chunk)
  | close

/-- `chunksRange`, after the read is registered. -/
def HeadQuerier.chunksRange (hq : HeadQuerier) (h : Head) : HeadQuerier :=
  if hq.floor = none then { hq with floor := some (max h.minTime hq.mint) } else hq

/-- **`DB.Querier`**, then the calls of `Series` and `Close`. -/
def Querier.call (h : Head) (q : Querier) (k : Call) : Querier :=
  match q.stage, k with
  | .begun, .skip =>
    if q.maxt < h.minTime ∧ q.overlapsOOO = false then { q with stage := .closed } else q
  | .begun, .register m₁ m₂ =>
    if m₁ ≤ m₂ ∧ m₂ ≤ h.minTime ∧ (m₁ ≤ q.maxt ∨ q.overlapsOOO = true) then
      { q with stage := .registered (max m₁ q.mint) ⟨q.mint, max m₂ q.mint, none⟩ }
    else q
  | .registered inoMint hq, .chunksRange =>
    { q with stage := .registered inoMint (hq.chunksRange h) }
  | .registered inoMint hq, .check =>
    if hq.floor = none then q else
    -- `IsQuerierCollidingWithTruncation`
    match h.compaction.inProcess with
    | none => { q with stage := .checked inoMint (some hq) }
    | some memTruncTime =>
      if q.maxt < memTruncTime then { q with stage := .checked inoMint none }
      else if q.mint < memTruncTime then { q with stage := .renewing memTruncTime }
      else { q with stage := .checked inoMint (some hq) }
  | .renewing newMint, .renew m =>
    if m ≤ h.minTime then
      { q with stage := .checked newMint (some ⟨newMint, max m newMint, none⟩) }
    else q
  | .checked inoMint hq, .chunksRange =>
    { q with stage := .checked inoMint (hq.map (·.chunksRange h)) }
  | .checked inoMint hq, .finish =>
    if hq.any (·.floor = none) then q else
    let minRef := if q.overlapsOOO then some h.lastGarbageCollectedMmapRef else none
    { q with stage := .opened inoMint hq minRef }
  | .opened .., .list c =>
    if c ∈ h.chunks ∧ q.Lists c then { q with listed := c :: q.listed } else q
  | .opened _ _ (some minRef), .listOOO c =>
    if c ∈ h.oooChunks ∧ c.Overlaps q.mint q.maxt ∧ (minRef = 0 ∨ minRef < c.ref) then
      { q with listedOOO := c :: q.listedOOO }
    else q
  | .opened .., .close => { q with stage := .closed, listed := [], listedOOO := [] }
  | _, _ => q

inductive Turn
  | reload (mint : ℤ)
  | start
  | pass
  | store
  | collect (c : Chunk)
  | startOOO (ref : ℕ)
  | passOOO
  | collectOOO (c : Chunk)
  | done (m : ℤ)
  | clear

/-- After a collection the minimum time may rise to the first time of the chunks that are left. -/
def Head.rise (h : Head) (m : ℤ) (co : Compaction) : Head :=
  if (∀ c ∈ h.chunks, h.minTime ≤ c.maxTime) ∧ h.minTime ≤ m ∧
      (m = h.minTime ∨ ∀ c ∈ h.chunks, m ≤ c.minTime) then
    { h with minTime := m, compaction := co }
  else h

/-- **`truncateMemory`** and **`truncateOOO`**, chunk by chunk. -/
def Head.turn (queriers : List Querier) (h : Head) (k : Turn) : Head :=
  match h.compaction, k with
  | .idle, .reload mint =>
    if h.minTime < mint ∧ ∀ q ∈ queriers, q.creating = false then
      { h with compaction := .ready mint }
    else h
  | .ready mint, .start => { h with compaction := .waiting mint }
  | .waiting mint, .pass =>
    -- `WaitForPendingReadersInTimeRange`
    if ∀ q ∈ queriers, ∀ a ∈ q.reads, ¬ (a ≤ mint - 1 ∧ h.minTime ≤ q.maxt) then
      { h with compaction := .passed mint }
    else h
  | .passed mint, .store => { h with minTime := mint, compaction := .gc mint }
  | .gc _, .collect c | .gcOOO _, .collect c =>
    if c.maxTime < h.minTime then { h with chunks := h.chunks.filter (· ≠ c) } else h
  | .idle, .startOOO ref =>
    if 0 < ref ∧ ∀ q ∈ queriers, q.creating = false then
      { h with lastGarbageCollectedMmapRef := ref, compaction := .waitingOOO ref }
    else h
  | .waitingOOO ref, .passOOO =>
    -- `HasOpenReadsAtOrBefore`
    if ∀ q ∈ queriers, ∀ minRef ∈ q.oooRead, ¬ minRef < ref then
      { h with compaction := .gcOOO ref }
    else h
  | .gcOOO ref, .collectOOO c =>
    if c.ref ≤ ref then { h with oooChunks := h.oooChunks.filter (· ≠ c) } else h
  | .gc mint, .done m => h.rise m (.raised mint)
  | .raised _, .clear => { h with compaction := .idle }
  | .gcOOO _, .done m => h.rise m .idle
  | _, _ => h

structure System where
  head : Head
  queriers : List Querier

inductive Op
  | querier (mint maxt : ℤ) (overlapsOOO : Bool)
  | call (i : ℕ) (k : Call)
  | turn (k : Turn)

def step (s : System) : Op → System
  | .querier mint maxt overlapsOOO =>
    if mint ≤ maxt then
      { s with queriers := s.queriers ++ [⟨mint, maxt, overlapsOOO, .begun, [], []⟩] }
    else s
  | .call i k =>
    match s.queriers[i]? with
    | none => s
    | some q => { s with queriers := s.queriers.set i (q.call s.head k) }
  | .turn k => { s with head := s.head.turn s.queriers k }

/-- The time before which chunks are gone, or go without further waiting. -/
def Head.bound (h : Head) : ℤ :=
  match h.compaction with
  | .passed mint => mint
  | _ => h.minTime

/-- The range does not end too early: not before the bound when the read is registered and, with
out-of-order chunks, not before a truncation in process at the check. -/
def Fits (h : Head) (q : Querier) (k : Call) : Prop :=
  match q.stage, k with
  | .begun, .register _ _ => h.bound ≤ q.maxt
  | .registered _ _, .check => q.overlapsOOO = true → ∀ t ∈ h.compaction.inProcess, t ≤ q.maxt
  | _, _ => True

instance (h : Head) (q : Querier) (k : Call) : Decidable (Fits h q k) := by
  unfold Fits
  split <;> infer_instance

def Guard (s : System) : Op → Prop
  | .call i k => ∀ q ∈ s.queriers[i]?, Fits s.head q k
  | _ => True

instance (s : System) (op : Op) : Decidable (Guard s op) := by
  unfold Guard
  split <;> infer_instance

/-! ### What protects a querier -/

/-- The time of the truncation, from the reload on. -/
@[simp] def Compaction.time : Compaction → Option ℤ
  | .ready mint | .waiting mint | .passed mint | .gc mint => some mint
  | _ => none

/-- The time before which chunks are collected. -/
@[simp] def Compaction.removes : Compaction → Option ℤ
  | .passed mint | .gc mint => some mint
  | _ => none

theorem inProcess_of_removes {co : Compaction} {t : ℤ} (h : co.removes = some t) :
    co.inProcess = some t := by
  cases co <;> simp_all

theorem eq_of_inProcess {co : Compaction} {t t' : ℤ} (h : co.inProcess = some t)
    (h' : co.time = some t') : t' = t := by
  cases co <;> simp_all

structure HeadOk (h : Head) : Prop where
  clean : (∀ t, h.compaction ≠ .gc t) → ∀ c ∈ h.chunks, h.minTime ≤ c.maxTime
  gc : ∀ t, h.compaction = .gc t → h.minTime = t
  later : ∀ t ∈ h.compaction.time, h.minTime ≤ t
  ooo : ∀ r, h.compaction = .waitingOOO r ∨ h.compaction = .gcOOO r →
    h.lastGarbageCollectedMmapRef = r ∧ 0 < r

variable (h : Head)

/-- A truncation to come waits for a read up to `maxt`, if there are chunks for it. -/
def Ahead (maxt : ℤ) : Prop := ∀ c ∈ h.chunks, c.minTime ≤ maxt → h.bound ≤ maxt

/-- The truncation that has waited leaves the chunks of the range. -/
def Clear (mint maxt : ℤ) : Prop :=
  ∀ c ∈ h.chunks, c.Overlaps mint maxt → ∀ t ∈ h.compaction.removes, t ≤ c.maxTime

/-- A head querier that may be used. -/
structure Kept (maxt inoMint : ℤ) (hq : HeadQuerier) : Prop where
  ahead : Ahead h maxt
  clear : Clear h inoMint maxt
  mint : hq.mint ≤ inoMint
  range : hq.mint ≤ maxt
  lower : inoMint ≤ hq.lower
  floor : ∀ floor ∈ hq.floor, ∀ c ∈ h.chunks, c.Overlaps hq.lower maxt → floor ≤ c.maxTime

def StageOk (q : Querier) : Prop :=
  match q.stage with
  | .registered inoMint hq => Ahead h q.maxt ∧ hq.mint = q.mint ∧ q.mint ≤ inoMint ∧
      inoMint ≤ hq.lower ∧ ∀ floor ∈ hq.floor, floor ≤ max h.minTime q.mint
  | .renewing t => t ≤ q.maxt ∧ Ahead h q.maxt ∧ Clear h t q.maxt ∧ ∀ t' ∈ h.compaction.time, t' = t
  | .checked inoMint hq =>
    (q.overlapsOOO = true → hq ≠ none) ∧ ∀ x ∈ hq, Kept h q.maxt inoMint x
  | .opened inoMint hq minRef => (minRef ≠ none → hq ≠ none) ∧
      (∀ x ∈ hq, x.floor ≠ none ∧ Kept h q.maxt inoMint x) ∧
      ∀ m ∈ minRef, ∀ r, h.compaction = .gcOOO r → r ≤ m
  | _ => True

structure Good (q : Querier) : Prop where
  range : q.mint ≤ q.maxt
  stage : StageOk h q
  listed : ∀ c ∈ q.listed, q.Lists c ∧ c ∈ h.chunks
  listedOOO : ∀ c ∈ q.listedOOO, c ∈ h.oooChunks ∧ ∃ m ∈ q.oooRead, m = 0 ∨ m < c.ref

structure Inv (queriers : List Querier) : Prop where
  head : HeadOk h
  good : ∀ q ∈ queriers, Good h q

variable {h h' : Head} {q : Querier} {maxt : ℤ}

theorem Ahead.mono (ha : Ahead h maxt) (hsub : ∀ c ∈ h'.chunks, c ∈ h.chunks)
    (hb : h'.bound ≤ h.bound) : Ahead h' maxt :=
  fun c hc hle => hb.trans (ha c (hsub c hc) hle)

theorem Clear.mono {l : ℤ} (hc : Clear h l maxt) (hsub : ∀ c ∈ h'.chunks, c ∈ h.chunks)
    (hr : ∀ t ∈ h'.compaction.removes, t ∈ h.compaction.removes) : Clear h' l maxt :=
  fun c hm ho t ht => hc c (hsub c hm) ho t (hr t ht)

/-- **A step of the head**, seen by a querier: `hmove` is about a read that begins at `a`. -/
theorem Good.head (hg : Good h q) (hsub : ∀ c ∈ h'.chunks, c ∈ h.chunks)
    (hmin : h.minTime ≤ h'.minTime) (hlisted : ∀ c ∈ q.listed, c ∈ h.chunks → c ∈ h'.chunks)
    (hlistedOOO : ∀ c ∈ q.listedOOO, c ∈ h.oooChunks → c ∈ h'.oooChunks)
    (hmove : ∀ a l, a ≤ l → a ≤ q.maxt → a ∈ q.reads ∨ q.stage = .renewing a → Ahead h q.maxt →
      Ahead h' q.maxt ∧ (Clear h l q.maxt → Clear h' l q.maxt))
    (htime : q.creating = true → ∀ t ∈ h'.compaction.time, t ∈ h.compaction.time)
    (hooo : ∀ r, h'.compaction = .gcOOO r → h.compaction = .gcOOO r ∨ ∀ m ∈ q.oooRead, r ≤ m) :
    Good h' q := by
  have hkept : ∀ {i x}, x.mint ∈ q.reads → Kept h q.maxt i x → Kept h' q.maxt i x :=
    fun hx hk =>
      have hm := hmove _ _ hk.mint hk.range (.inl hx) hk.ahead
      ⟨hm.1, hm.2 hk.clear, hk.mint, hk.range, hk.lower,
        fun f hf c hc => hk.floor f hf c (hsub c hc)⟩
  refine ⟨hg.range, ?_, fun c hc => (hg.listed c hc).imp_right (hlisted c hc),
    fun c hc => (hg.listedOOO c hc).imp_left (hlistedOOO c hc)⟩
  have hst := hg.stage
  unfold StageOk at hst ⊢
  rcases hs : q.stage with _ | ⟨inoMint, hq⟩ | t | ⟨inoMint, hq⟩ | ⟨inoMint, hq, minRef⟩ | _ <;>
    simp only [hs] at hst ⊢
  · obtain ⟨ha, hm, hino, hlow, hfl⟩ := hst
    refine ⟨(hmove _ _ (hm ▸ hino) (hm ▸ hg.range) (.inl (by simp [Querier.reads, hs])) ha).1, hm,
      hino, hlow, fun f hf => (hfl f hf).trans (max_le_max hmin le_rfl)⟩
  · obtain ⟨ht, ha, hc, htm⟩ := hst
    have hm := hmove _ _ le_rfl ht (.inr hs) ha
    exact ⟨ht, hm.1, hm.2 hc, fun t' ht' => htm t' (htime (by simp [Querier.creating, hs]) t' ht')⟩
  · exact ⟨hst.1, fun x hx => hkept (by simp_all [Querier.reads]) (hst.2 x hx)⟩
  · refine ⟨hst.1, fun x hx => (hst.2.1 x hx).imp_right (hkept (by simp_all [Querier.reads])),
      fun m hm r hr => ?_⟩
    exact (hooo r hr).elim (hst.2.2 m hm r) fun h => h m (by simpa [Querier.oooRead, hs] using hm)

variable {c : Chunk}

theorem Good.kept (hg : Good h q) (hc : q.Lists c) :
    ∃ inoMint x, Kept h q.maxt inoMint x ∧ c.Overlaps inoMint q.maxt := by
  have hst := hg.stage
  unfold StageOk at hst
  unfold Querier.Lists at hc
  rcases hs : q.stage with _ | _ | _ | _ | ⟨inoMint, _ | x, _ | minRef⟩ | _ <;>
    simp only [hs] at hst hc
  · exact absurd rfl (hst.1 (by simp))
  · have hk := (hst.2.1 x rfl).2
    exact ⟨inoMint, x, hk, hc.1, hk.lower.trans hc.2⟩
  · exact ⟨inoMint, x, (hst.2.1 x rfl).2, hc⟩

theorem Good.finds (hg : Good h q) (hl : q.Lists c) (hc : c ∈ h.chunks) : q.Finds h c := by
  refine ⟨hc, ?_⟩
  have hst := hg.stage
  unfold StageOk at hst
  unfold Querier.Lists at hl
  split <;> rename_i hs
  · simp only [hs] at hst hl
    obtain ⟨hfloor, hk⟩ := hst.2.1 _ rfl
    obtain ⟨f, hf⟩ := Option.ne_none_iff_exists'.1 hfloor
    exact ⟨f, hf, hl.1, hk.floor f hf c hc hl⟩
  · trivial

theorem Good.ooo (hg : Good h q) {m r : ℕ} (hm : m ∈ q.oooRead) (hr : h.compaction = .gcOOO r) :
    r ≤ m := by
  have hst := hg.stage
  unfold StageOk at hst
  unfold Querier.oooRead at hm
  rcases hs : q.stage with _ | _ | _ | _ | ⟨inoMint, hq, minRef⟩ | _ <;>
    simp only [hs, Option.mem_def, reduceCtorEq] at hst hm
  exact hst.2.2 m hm r hr

theorem Clear.minTime_le {l : ℤ} (hcl : Clear h l maxt) (hh : HeadOk h)
    (hc : c ∈ h.chunks) (ho : c.Overlaps l maxt) : h.minTime ≤ c.maxTime := by
  by_cases hgc : ∃ t, h.compaction = .gc t
  · obtain ⟨t, ht⟩ := hgc
    rw [hh.gc t ht]
    exact hcl c hc ho t (by simp [ht])
  · exact hh.clean (fun t ht => hgc ⟨t, ht⟩) c hc

theorem bound_eq (hr : h.compaction.removes = none) : h.bound = h.minTime := by
  unfold Head.bound
  split
  · simp_all
  · rfl

theorem ne_gc (hr : h.compaction.removes = none) (t : ℤ) : h.compaction ≠ .gc t := by
  rintro hc
  simp [hc] at hr

section turns

variable {qs : List Querier} (hi : Inv h qs)
include hi

theorem Inv.phase (hold : h.compaction.removes = none) {co : Compaction} (hnew : co.removes = none)
    {ref : ℕ} (hlater : ∀ t ∈ co.time, h.minTime ≤ t)
    (hooo : ∀ r, co = .waitingOOO r ∨ co = .gcOOO r → ref = r ∧ 0 < r)
    (htime : ∀ q ∈ qs, q.creating = true → ∀ t ∈ co.time, t ∈ h.compaction.time)
    (hread : ∀ q ∈ qs, ∀ r, co = .gcOOO r → ∀ m ∈ q.oooRead, r ≤ m) :
    Inv { h with lastGarbageCollectedMmapRef := ref, compaction := co } qs := by
  refine ⟨⟨fun _ => hi.head.clean (ne_gc hold), fun t ht => ?_, hlater, hooo⟩, fun q hq => ?_⟩
  · exact absurd ht (ne_gc (h := { h with compaction := co }) hnew t)
  · refine (hi.good q hq).head (fun _ hc => hc) le_rfl (fun _ _ hc => hc) (fun _ _ hc => hc)
      (fun _ _ _ _ _ ha => ⟨?_, fun _ => ?_⟩) (htime q hq) fun r hr => .inr (hread q hq r hr)
    · refine ha.mono (fun _ hc => hc) ?_
      rw [bound_eq hold]
      exact (bound_eq
        (h := { h with lastGarbageCollectedMmapRef := ref, compaction := co }) hnew).le
    · exact fun c _ _ t ht => absurd (hnew ▸ ht) (Option.not_mem_none t)

/-- **The end of the wait**: a read that is left begins after the time, or ends before the head. -/
theorem Inv.pass {mint : ℤ} (hcomp : h.compaction = .waiting mint)
    (hwait : ∀ q ∈ qs, ∀ a ∈ q.reads, ¬ (a ≤ mint - 1 ∧ h.minTime ≤ q.maxt)) :
    Inv { h with compaction := .passed mint } qs := by
  refine ⟨⟨fun _ => hi.head.clean (by simp [hcomp]), by simp, ?_, by simp⟩, fun q hq => ?_⟩
  · simpa [hcomp] using hi.head.later
  · have hg := hi.good q hq
    refine hg.head (fun _ hc => hc) le_rfl (fun _ _ hc => hc) (fun _ _ hc => hc)
      (fun a l hal hap hread ha => ?_)
      (fun _ t ht => by simpa [hcomp] using ht) (by simp)
    have hle : ∀ c ∈ h.chunks, c.minTime ≤ q.maxt → mint ≤ a := by
      intro c hc hcm
      have hb := ha c hc hcm
      rw [bound_eq (by simp [hcomp])] at hb
      rcases hread with hread | hren
      · have := hwait q hq a hread
        omega
      · have hst := hg.stage
        simp only [StageOk, hren] at hst
        exact (hst.2.2.2 mint (by simp [hcomp])).le
    refine ⟨fun c hc hcm => (hle c hc hcm).trans hap, fun _ c hc ho t ht => ?_⟩
    obtain rfl : mint = t := by simpa using ht
    exact (hle c hc ho.1).trans (hal.trans ho.2)

theorem Inv.collect {c : Chunk} (hlt : c.maxTime < h.minTime) :
    Inv { h with chunks := h.chunks.filter (· ≠ c) } qs := by
  have hsub : ∀ x ∈ h.chunks.filter (· ≠ c), x ∈ h.chunks := fun x hx => (mem_filter.1 hx).1
  refine ⟨⟨fun hc x hx => hi.head.clean hc x (hsub x hx), hi.head.gc, hi.head.later, hi.head.ooo⟩,
    fun q hq => ?_⟩
  have hg := hi.good q hq
  refine hg.head hsub le_rfl (fun x hx hmem => ?_) (fun _ _ hx => hx)
    (fun _ _ _ _ _ ha => ⟨ha.mono hsub le_rfl, fun hc => hc.mono hsub fun _ ht => ht⟩)
    (fun _ _ ht => ht) fun _ hr => .inl hr
  refine mem_filter.2 ⟨hmem, decide_eq_true fun he => ?_⟩
  obtain ⟨inoMint, y, hk, ho⟩ := hg.kept (hg.listed x hx).1
  have := hk.clear.minTime_le hi.head hmem ho
  rw [he] at this
  omega

/-- The end of a collection: the chunks that are left reach the new minimum time. -/
theorem Inv.rise (hb : h.bound = h.minTime) (m : ℤ) {co : Compaction}
    (hco : co = .idle ∨ ∃ mint, co = .raised mint) : Inv (h.rise m co) qs := by
  unfold Head.rise
  split_ifs with hdone
  case neg => exact hi
  obtain ⟨hclean, hm, hrise⟩ := hdone
  have hremoves : co.removes = none := by rcases hco with rfl | ⟨mint, rfl⟩ <;> rfl
  have htime : ∀ t, co.time ≠ some t := by rcases hco with rfl | ⟨mint, rfl⟩ <;> simp
  have hooo : ∀ r, co ≠ .waitingOOO r ∧ co ≠ .gcOOO r := by
    rcases hco with rfl | ⟨mint, rfl⟩ <;> simp
  refine ⟨⟨fun _ c hc => ?_, fun t ht => ?_, fun t ht => absurd ht (htime t), by simp [hooo]⟩,
    fun q hq => ?_⟩
  · rcases hrise with rfl | hrise
    · exact hclean c hc
    · exact (hrise c hc).trans c.le
  · exact absurd ht (ne_gc (h := { h with compaction := co }) hremoves t)
  · have hg := hi.good q hq
    refine hg.head (fun _ hc => hc) hm (fun _ _ hc => hc) (fun _ _ hc => hc)
      (fun _ _ _ _ _ ha => ⟨fun c hc hcm => ?_,
        fun hcl => hcl.mono (fun _ hc => hc) fun t ht => ?_⟩)
      (fun _ t ht => absurd ht (htime t)) (by simp [hooo])
    · rw [bound_eq (h := { h with minTime := m, compaction := co }) hremoves]
      rcases hrise with rfl | hrise
      · exact hb ▸ ha c hc hcm
      · exact (hrise c hc).trans hcm
    · exact nomatch hremoves.symm.trans ht

/-- **Every step of a compaction** keeps the invariant. -/
theorem Inv.turn (k : Turn) : Inv (h.turn qs k) qs := by
  have hh := hi.head
  unfold Head.turn
  split <;> rename_i hcomp
  · split_ifs with hc
    · refine hi.phase (by simp [hcomp]) rfl (by simpa using hc.1.le) (by simp) (fun q hq hcr => ?_)
        (by simp)
      simp [hc.2 q hq] at hcr
    · exact hi
  · exact hi.phase (by simp [hcomp]) rfl (by simpa [hcomp] using hh.later) (by simp)
      (by simp [hcomp]) (by simp)
  · split_ifs with hc
    exacts [hi.pass hcomp hc, hi]
  · -- the minimum time is what it was bound to be
    rename_i mint
    have hmin : h.minTime ≤ mint := hh.later mint (by simp [hcomp])
    refine ⟨⟨by simp, by simp, by simp, by simp⟩, fun q hq => ?_⟩
    exact (hi.good q hq).head (fun _ hc => hc) hmin (fun _ _ hc => hc) (fun _ _ hc => hc)
      (fun _ _ _ _ _ ha => ⟨ha.mono (fun _ hc => hc) (by simp [Head.bound, hcomp]),
        fun hc => hc.mono (fun _ hc => hc) (by simp [hcomp])⟩) (by simp [hcomp]) (by simp)
  · split_ifs with hc
    exacts [hi.collect hc, hi]
  · split_ifs with hc
    exacts [hi.collect hc, hi]
  · split_ifs with hc
    · exact hi.phase (by simp [hcomp]) rfl (by simp) (by simpa using hc.1) (by simp) (by simp)
    · exact hi
  · rename_i ref
    split_ifs with hc
    · exact hi.phase (by simp [hcomp]) rfl (by simp) (by simpa using hh.ooo ref (.inl hcomp))
        (by simp) (by simpa using hc)
    · exact hi
  · rename_i ref c
    split_ifs with hc
    · refine ⟨{ hh with }, fun q hq => ?_⟩
      refine (hi.good q hq).head (fun _ hc => hc) le_rfl (fun _ _ hc => hc) (fun x hx hmem => ?_)
        (fun _ _ _ _ _ ha => ⟨ha, fun hc => hc⟩) (fun _ _ ht => ht) fun _ hr => .inl hr
      obtain ⟨-, m, hm, hlt⟩ := (hi.good q hq).listedOOO x hx
      have hrm := (hi.good q hq).ooo hm hcomp
      have hpos := (hh.ooo ref (.inr hcomp)).2
      refine mem_filter.2 ⟨hmem, decide_eq_true fun he => ?_⟩
      rw [he] at hlt
      omega
    · exact hi
  · exact hi.rise (by simp [Head.bound, hcomp]) _ (.inr ⟨_, rfl⟩)
  · exact hi.phase (by simp [hcomp]) rfl (by simp) (by simp) (by simp) (by simp)
  · exact hi.rise (by simp [Head.bound, hcomp]) _ (.inl rfl)
  · exact hi

end turns

/-! ### The steps of a querier -/

/-- The minimum time is not after the chunks that may be used. -/
theorem Kept.chunksRange {inoMint : ℤ} {hq : HeadQuerier} (hk : Kept h maxt inoMint hq)
    (hh : HeadOk h) : Kept h maxt inoMint (hq.chunksRange h) := by
  unfold HeadQuerier.chunksRange
  split_ifs
  · refine { hk with floor := fun f hf c hc ho => ?_ }
    have hfloor : max h.minTime hq.mint = f := by simpa using hf
    have := hk.clear.minTime_le hh hc ⟨ho.1, hk.lower.trans ho.2⟩
    have := hk.mint
    have := hk.lower
    have := ho.2
    dsimp only at this
    omega
  · exact hk

/-- Nothing is listed before `DB.Querier` returns. -/
theorem Good.advance (hg : Good h q) (hcr : q.creating = true) {st : Stage}
    (hst : StageOk h { q with stage := st }) : Good h { q with stage := st } := by
  have hlists : ∀ c, ¬ q.Lists c := by
    intro c hc
    unfold Querier.Lists at hc
    split at hc <;> simp_all [Querier.creating]
  have hread : q.oooRead = none := by
    unfold Querier.oooRead
    split <;> simp_all [Querier.creating]
  refine ⟨hg.range, hst, fun c hc => absurd (hg.listed c hc).1 (hlists c), fun c hc => ?_⟩
  obtain ⟨-, m, hm, -⟩ := hg.listedOOO c hc
  simp [hread] at hm

/-- **The check for a collision** keeps the head querier only if no chunk of its range goes. -/
theorem Good.check (hh : HeadOk h) (hg : Good h q) {inoMint : ℤ} {hq : HeadQuerier}
    (hs : q.stage = .registered inoMint hq) (hfit : Fits h q .check) :
    Good h (q.call h .check) := by
  have hst := hg.stage
  have hcr : q.creating = true := by simp [Querier.creating, hs]
  simp only [StageOk, hs] at hst
  obtain ⟨ha, hm, hino, hlow, hfl⟩ := hst
  have hkept : Clear h inoMint q.maxt → Kept h q.maxt inoMint hq := fun hcl =>
    ⟨ha, hcl, hm ▸ hino, hm ▸ hg.range, hlow, fun f hf c hc ho => by
      have := hcl.minTime_le hh hc ⟨ho.1, hlow.trans ho.2⟩
      have := hfl f hf
      omega⟩
  simp only [Fits, hs] at hfit
  unfold Querier.call
  simp only [hs]
  split_ifs
  · exact hg
  cases ht : h.compaction.inProcess with
  | none =>
    refine hg.advance hcr ⟨by simp, fun x hx => ?_⟩
    obtain rfl : hq = x := by simpa using hx
    exact hkept fun c _ _ t hr => absurd (ht.symm.trans (inProcess_of_removes hr)) (by simp)
  | some t =>
    have hremoves : ∀ t' ∈ h.compaction.removes, t' = t := fun t' hr =>
      Option.some.inj ((inProcess_of_removes hr).symm.trans ht)
    have htime : ∀ t' ∈ h.compaction.time, t' = t := fun t' hr => eq_of_inProcess ht hr
    simp only
    split_ifs with hlt hlt'
    · refine hg.advance hcr ⟨fun hooo => ?_, by simp⟩
      exact absurd (hfit hooo t ht) (by omega)
    · refine hg.advance hcr ⟨not_lt.1 hlt, ha, fun c _ ho t' hr => ?_, htime⟩
      exact hremoves t' hr ▸ ho.2
    · refine hg.advance hcr ⟨by simp, fun x hx => ?_⟩
      obtain rfl : hq = x := by simpa using hx
      refine hkept fun c _ ho t' hr => ?_
      have := hremoves t' hr
      omega

/-- **Every step of a querier** keeps what protects it. -/
theorem Good.call (hh : HeadOk h) (hg : Good h q) {k : Call} (hfit : Fits h q k) :
    Good h (q.call h k) := by
  have hst := hg.stage
  unfold StageOk at hst
  unfold Querier.call
  split <;> rename_i hs
  · split_ifs
    · exact hg.advance (by simp [Querier.creating, hs]) trivial
    · exact hg
  · split_ifs with hm
    · simp only [Fits, hs] at hfit
      exact hg.advance (by simp [Querier.creating, hs]) ⟨fun _ _ _ => hfit, rfl, le_max_right _ _,
        max_le_max hm.1 le_rfl, by simp⟩
    · exact hg
  · rename_i inoMint hq
    simp only [hs] at hst
    refine hg.advance (by simp [Querier.creating, hs]) ?_
    unfold HeadQuerier.chunksRange
    split_ifs
    · exact ⟨hst.1, hst.2.1, hst.2.2.1, hst.2.2.2.1, by simp [hst.2.1, le_total]⟩
    · exact hst
  · have hcheck := hg.check hh hs hfit
    simp only [Querier.call, hs] at hcheck
    exact hcheck
  · rename_i t m
    simp only [hs] at hst
    obtain ⟨ht, ha, hcl, -⟩ := hst
    split_ifs
    · refine hg.advance (by simp [Querier.creating, hs]) ⟨by simp, fun x hx => ?_⟩
      obtain rfl : (⟨t, max m t, none⟩ : HeadQuerier) = x := by simpa using hx
      exact ⟨ha, hcl, le_rfl, ht, le_max_right m t, by simp⟩
    · exact hg
  · simp only [hs] at hst
    refine hg.advance (by simp [Querier.creating, hs]) ⟨by simpa using hst.1, fun x hx => ?_⟩
    obtain ⟨y, hy, rfl⟩ := Option.map_eq_some_iff.1 hx
    exact (hst.2 y hy).chunksRange hh
  · simp only [hs] at hst
    split
    · exact hg
    rename_i hfloor
    refine hg.advance (by simp [Querier.creating, hs])
      ⟨fun hne => ?_, fun x hx => ⟨fun hx' => hfloor ?_, hst.2 x hx⟩, fun m hm r hr => ?_⟩
    · exact hst.1 (by by_contra ho; simp [ho] at hne)
    · exact (Option.any_eq_true _ _).2 ⟨x, hx, by simpa using hx'⟩
    · rw [← (hh.ooo r (.inr hr)).1]
      by_cases ho : q.overlapsOOO = true <;> simp_all
  · split_ifs with hc
    · exact ⟨hg.range, hg.stage, forall_mem_cons.2 ⟨hc.symm, hg.listed⟩, hg.listedOOO⟩
    · exact hg
  · split_ifs with hc
    · refine ⟨hg.range, hg.stage, hg.listed, forall_mem_cons.2 ⟨⟨hc.1, ?_⟩, hg.listedOOO⟩⟩
      exact ⟨_, by simp [Querier.oooRead, hs], hc.2.2⟩
    · exact hg
  · exact ⟨hg.range, trivial, by simp, by simp⟩
  · exact hg

theorem Inv.step {s : System} (hi : Inv s.head s.queriers) {op : Op} (hop : Guard s op) :
    Inv (step s op).head (step s op).queriers := by
  cases op with
  | querier mint maxt overlapsOOO =>
    unfold QuerierTruncation.step
    simp only
    split_ifs with hle
    · refine ⟨hi.head, fun q hq => ?_⟩
      rcases mem_append.1 hq with hq | hq
      · exact hi.good q hq
      · obtain rfl := mem_singleton.1 hq
        exact ⟨hle, trivial, by simp, by simp⟩
    · exact hi
  | call i k =>
    unfold QuerierTruncation.step
    simp only
    split <;> rename_i hq
    · exact hi
    · rename_i q
      refine ⟨hi.head, fun x hx => ?_⟩
      rcases mem_or_eq_of_mem_set hx with hx | rfl
      · exact hi.good x hx
      · exact (hi.good q (mem_of_getElem? hq)).call hi.head (hop q hq)
  | turn k => exact hi.turn k

/-- **No chunk is pulled from under a reader** in a run whose queriers end late enough. -/
theorem listed_found (h : Head) (hidle : h.compaction = .idle)
    (hclean : ∀ c ∈ h.chunks, h.minTime ≤ c.maxTime) (ops : List Op)
    (hops : Along (total step) Guard ⟨h, []⟩ ops) :
    ∀ q ∈ (ops.foldl step ⟨h, []⟩).queriers,
      (∀ c ∈ q.listed, q.Finds (ops.foldl step ⟨h, []⟩).head c) ∧
      ∀ c ∈ q.listedOOO, c ∈ (ops.foldl step ⟨h, []⟩).head.oooChunks := by
  have hstep : ∀ s op, Inv s.head s.queriers → Guard s op →
      Inv (step s op).head (step s op).queriers := fun s op hi => hi.step
  have h0 : Inv h [] :=
    ⟨⟨fun _ => hclean, by simp [hidle], by simp [hidle], by simp [hidle]⟩, by simp⟩
  have hi := foldl_keeps_along hstep h0 hops
  intro q hq
  have hg := hi.good q hq
  exact ⟨fun c hc => hg.finds (hg.listed c hc).1 (hg.listed c hc).2,
    fun c hc => (hg.listedOOO c hc).1⟩

/-- A querier at the head, which a truncation waits for, and the truncation behind it. -/
def waitedRun : List Op :=
  [.querier 0 150 true, .call 0 (.register 0 0), .call 0 .chunksRange, .call 0 .check,
    .call 0 .finish, .call 0 (.list ⟨1, 50, 90, by decide⟩),
    .call 0 (.listOOO ⟨2, 60, 80, by decide⟩),
    .turn (.reload 100), .turn .start, .turn .pass]

/-- A head with a chunk in order and one out of order. -/
def twoChunks : Head := ⟨[⟨1, 50, 90, by decide⟩], [⟨2, 60, 80, by decide⟩], 0, 0, .idle⟩

theorem listed_found_run :
    ∃ q ∈ (waitedRun.foldl step ⟨twoChunks, []⟩).queriers,
      (∃ c ∈ q.listed, q.Finds (waitedRun.foldl step ⟨twoChunks, []⟩).head c) ∧
      ∃ c ∈ q.listedOOO, c ∈ (waitedRun.foldl step ⟨twoChunks, []⟩).head.oooChunks := by
  have hfound := listed_found twoChunks rfl (by decide) waitedRun
    (along_of_check (by decide +kernel)) _ (mem_of_getElem? (i := 0) rfl)
  exact ⟨_, mem_of_getElem? (i := 0) rfl, ⟨_, mem_cons_self, hfound.1 _ mem_cons_self⟩,
    _, mem_cons_self, hfound.2 _ mem_cons_self⟩

/-- A querier of the out-of-order range comes between the wait of a truncation and its store. Its
head querier is dropped, but the chunk is listed and then collected. -/
theorem listed_lost : ∃ (h : Head) (ops : List Op), h.compaction = .idle ∧
    (∀ c ∈ h.chunks, h.minTime ≤ c.maxTime) ∧ ∃ q ∈ (ops.foldl step ⟨h, []⟩).queriers,
      ∃ c ∈ q.listed, ¬ q.Finds (ops.foldl step ⟨h, []⟩).head c := by
  let c : Chunk := ⟨1, 50, 90, by decide⟩
  refine ⟨⟨[c], [], 0, 0, .idle⟩, [.turn (.reload 100), .turn .start, .turn .pass,
    .querier 0 90 true, .call 0 (.register 0 0), .call 0 .chunksRange, .call 0 .check,
    .call 0 .finish, .call 0 (.list c), .turn .store, .turn (.collect c)], rfl, by decide,
    ⟨0, 90, true, .opened 0 none (some 0), [c], []⟩, ?_, c, by decide, ?_⟩
  · exact mem_of_getElem? (i := 0) rfl
  · exact fun hf => absurd hf.1 (by decide +kernel)

end TopcDB.Tsdb.QuerierTruncation
