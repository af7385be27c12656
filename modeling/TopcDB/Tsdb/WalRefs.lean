import TopcDB.Tsdb.WalDispatch

/-! # Deletions and metadata in the replay of the log

A series may be logged under several references. Its samples are found under all of them, its
tombstones and its metadata only under the first. What was logged for a series is told by a ledger,
once with references as samples are sent under them (`resolved`) and once as the dispatcher takes
them (`direct`); the replay gives the second (`dispatchAll_faithful`), and so the first exactly when
all that was logged under other references was logged under the first as well (`restored_iff`). -/

namespace TopcDB.Tsdb.WalRefs

open Function List Go.Basic Deleted Tombstones WalDispatch

variable {L F H FH M : Type}

/-! ### Ledgers -/

/-- What was logged for the series at each position: the intervals, and the latest metadata. -/
structure Ledger (M : Type) where
  intervals : ℕ → List Interval
  metadata : ℕ → Option M

def Ledger.empty : Ledger M := ⟨fun _ => [], fun _ => none⟩

variable (target : Registry L → ℕ → Option ℕ) (minValidTime : I64) (r : Registry L) (led : Ledger M)

/-- An interval is noted for its series, if there is one, unless it ends before the valid time. -/
def Ledger.addInterval (stone : ℕ × Interval) : Ledger M :=
  if stone.2.maxt.slt minValidTime then led
  else
    match target r stone.1 with
    | none => led
    | some i =>
      { led with intervals := update led.intervals i (led.intervals i ++ [stone.2]) }

def Ledger.addMetadata (entry : ℕ × M) : Ledger M :=
  match target r entry.1 with
  | none => led
  | some i => { led with metadata := update led.metadata i (some entry.2) }

def Ledger.note : Record L F H FH M → Ledger M
  | .tombstones stones => (intervalsOf stones).foldl (Ledger.addInterval target minValidTime r) led
  | .metadata entries => entries.foldl (Ledger.addMetadata target r) led
  | _ => led

def after [DecidableEq L] (r : Registry L) : Record L F H FH M → Registry L
  | .series series => series.foldl (fun r entry => (r.addSeries entry.1 entry.2).2) r
  | _ => r

/-- **The ledger of a log**, where `target` finds the series of a reference. -/
def ledger [DecidableEq L] (target : Registry L → ℕ → Option ℕ) (minValidTime : I64) :
    Registry L → Ledger M → List (Record L F H FH M) → Ledger M
  | _, led, [] => led
  | r, led, record :: wal =>
    ledger target minValidTime (after r record) (led.note target minValidTime r record) wal

/-- The series of a reference as the dispatcher takes it for tombstones and metadata. -/
def direct (r : Registry L) (ref : ℕ) : Option ℕ := r.byID ref

/-- The series that gets the samples of a reference. -/
def resolved (r : Registry L) (ref : ℕ) : Option ℕ := r.byID (r.resolve ref)

/-! ### What the dispatcher keeps -/

/-- The head agrees with a ledger. -/
structure Faithful (h : Head L M) (led : Ledger M) : Prop where
  ids : ∀ ref i, h.registry.byID ref = some i → ∃ lset, h.registry.objects[i]? = some (ref, lset)
  fresh : ∀ i, h.registry.objects.length ≤ i → led.intervals i = []
  canonical : ∀ ref, Canonical (h.tombstones ref)
  covers : ∀ ref t, deleted (h.tombstones ref) t = true ↔
    ∃ i lset, h.registry.objects[i]? = some (ref, lset) ∧ deleted (led.intervals i) t = true
  metadata : h.metadata = led.metadata

theorem faithful_empty : Faithful (Head.empty : Head L M) Ledger.empty where
  ids := by simp [Head.empty, Registry.empty]
  fresh := by simp [Ledger.empty]
  canonical := fun _ => canonical_nil
  covers := by simp [Head.empty, Registry.empty, deleted]
  metadata := rfl

variable {h h' : Head L M} {led : Ledger M} {minValidTime : I64}

theorem Faithful.addStone (hf : Faithful h led) {stone : ℕ × Interval}
    (hp : ¬ stone.2.maxt.slt minValidTime → Proper stone.2)
    (hs : h.addStone minValidTime stone = .ok h') :
    Faithful h' (led.addInterval direct minValidTime h.registry stone) ∧
      h'.registry = h.registry := by
  obtain ⟨ref, itv⟩ := stone
  unfold Head.addStone at hs
  unfold Ledger.addInterval direct
  dsimp only at hs ⊢
  split_ifs at hs ⊢ with hold
  · cases hs
    exact ⟨hf, rfl⟩
  · rcases hid : h.registry.byID ref with _ | i
    · simp only [hid] at hs
      cases hs
      exact ⟨{ hf with }, rfl⟩
    · simp only [hid] at hs
      obtain ⟨ins, hadd, rfl⟩ := map_eq_ok hs
      obtain ⟨hcan, hdel⟩ := add_spec (hf.canonical ref) (hp hold) hadd
      obtain ⟨lset, hobj⟩ := hf.ids ref i hid
      have hi := (List.getElem?_eq_some_iff.1 hobj).1
      dsimp only
      refine ⟨⟨hf.ids, fun j hj => ?_, fun ref' => ?_, fun ref' t => ?_, hf.metadata⟩, rfl⟩
      · have hne : j ≠ i := fun h0 => absurd hi (not_lt.2 (h0 ▸ hj))
        simpa only [update_of_ne hne] using hf.fresh j hj
      · rcases eq_or_ne ref' ref with rfl | hne
        · simpa using hcan
        · simpa [hne] using hf.canonical ref'
      · have hupdate : ∀ j,
            deleted (update led.intervals i (led.intervals i ++ [itv]) j) t =
            (deleted (led.intervals j) t || (decide (j = i) && itv.inBounds t)) := fun j => by
          rcases eq_or_ne j i with rfl | hne
          · simp [deleted]
          · simp [hne]
        simp only [hupdate, Bool.or_eq_true, Bool.and_eq_true, decide_eq_true_iff, and_or_left,
          exists_or]
        rcases eq_or_ne ref' ref with rfl | hne
        · simp only [update_self, hdel, Bool.or_eq_true, hf.covers]
          refine or_congr_right ⟨fun hb => ⟨i, lset, hobj, rfl, hb⟩, fun hb => ?_⟩
          exact hb.choose_spec.choose_spec.2.2
        · rw [update_of_ne hne, hf.covers]
          refine ⟨.inl, fun hc => hc.resolve_right ?_⟩
          rintro ⟨j, lset', hobj', rfl, -⟩
          rw [hobj] at hobj'
          exact hne (congrArg Prod.fst (Option.some.inj hobj')).symm

theorem Faithful.addMetadata (hf : Faithful h led) (entry : ℕ × M) :
    Faithful (h.addMetadata entry) (led.addMetadata direct h.registry entry) ∧
      (h.addMetadata entry).registry = h.registry := by
  unfold Head.addMetadata Ledger.addMetadata direct
  rcases hid : h.registry.byID entry.1 with _ | i
  · simp only [hid, and_true]
    exact { hf with }
  · simp only [hid, and_true]
    exact { hf with metadata := by rw [hf.metadata] }

theorem faithful_addStone_foldlM : ∀ {stones : List (ℕ × Interval)} {h h' : Head L M}
    {led : Ledger M}, Faithful h led →
    (∀ stone ∈ stones, ¬ stone.2.maxt.slt minValidTime → Proper stone.2) →
    stones.foldlM (Head.addStone minValidTime) h = .ok h' →
    Faithful h' (stones.foldl (Ledger.addInterval direct minValidTime h.registry) led) ∧
      h'.registry = h.registry
  | [], h, h', led, hf, _, hs => by
    cases hs
    exact ⟨hf, rfl⟩
  | stone :: stones, h, h', led, hf, hp, hs => by
    rw [foldlM_cons] at hs
    obtain ⟨h1, h1s, hs⟩ := bind_eq_ok hs
    rw [forall_mem_cons] at hp
    obtain ⟨hf1, hr1⟩ := hf.addStone hp.1 h1s
    obtain ⟨hf', hr'⟩ := faithful_addStone_foldlM hf1 hp.2 hs
    rw [hr1] at hf' hr'
    exact ⟨hf', hr'⟩

theorem faithful_addMetadata_foldl : ∀ (entries : List (ℕ × M)) {h : Head L M} {led : Ledger M},
    Faithful h led →
    Faithful (entries.foldl Head.addMetadata h)
        (entries.foldl (Ledger.addMetadata direct h.registry) led) ∧
      (entries.foldl Head.addMetadata h).registry = h.registry
  | [], _, _, hf => ⟨hf, rfl⟩
  | entry :: entries, h, led, hf => by
    obtain ⟨hf1, hr1⟩ := hf.addMetadata entry
    obtain ⟨hf', hr'⟩ := faithful_addMetadata_foldl entries hf1
    rw [hr1] at hf' hr'
    exact ⟨hf', hr'⟩

section records

variable [DecidableEq L]

theorem addSeries_cases (r : Registry L) (ref : ℕ) (lset : L) :
    ((r.addSeries ref lset).2.objects = r.objects ∧ (r.addSeries ref lset).2.byID = r.byID) ∨
      (r.addSeries ref lset).2.objects = r.objects ++ [(ref, lset)] ∧
        (r.addSeries ref lset).2.byID = update r.byID ref (some r.objects.length) := by
  unfold Registry.addSeries Registry.getOrCreateWithID
  cases r.byLabels lset with
  | some i => exact .inl ⟨rfl, rfl⟩
  | none => exact .inr ⟨rfl, rfl⟩

theorem Faithful.addSeries (hf : Faithful h led) (ref : ℕ) (lset : L) :
    Faithful { h with registry := (h.registry.addSeries ref lset).2 } led := by
  rcases addSeries_cases h.registry ref lset with ⟨hobj, hid⟩ | ⟨hobj, hid⟩
  · exact ⟨by rw [hobj, hid]; exact hf.ids, by rw [hobj]; exact hf.fresh, hf.canonical,
      by rw [hobj]; exact hf.covers, hf.metadata⟩
  · have hold : ∀ {i : ℕ} {p : ℕ × L}, h.registry.objects[i]? = some p →
        (h.registry.objects ++ [(ref, lset)])[i]? = some p := fun hp => by
      rwa [List.getElem?_append_left (List.getElem?_eq_some_iff.1 hp).1]
    refine ⟨fun ref' i hi => ?_, fun i hi => hf.fresh i ?_, hf.canonical, fun ref' t => ?_,
      hf.metadata⟩
    · rw [hid] at hi
      rw [hobj]
      rcases eq_or_ne ref' ref with rfl | hne
      · rw [update_self] at hi
        cases hi
        exact ⟨lset, by simp⟩
      · rw [update_of_ne hne] at hi
        obtain ⟨lset', hp⟩ := hf.ids ref' i hi
        exact ⟨lset', hold hp⟩
    · rw [hobj, length_append] at hi
      omega
    · rw [hobj, hf.covers]
      constructor
      · rintro ⟨i, lset', hp, ht⟩
        exact ⟨i, lset', hold hp, ht⟩
      · rintro ⟨i, lset', hp, ht⟩
        rcases lt_or_ge i h.registry.objects.length with hlt | hge
        · rw [getElem?_append_left hlt] at hp
          exact ⟨i, lset', hp, ht⟩
        · -- the new series has no intervals yet
          rw [hf.fresh i hge] at ht
          cases ht

/-- The intervals of a record are proper, but for those that end before the valid time: the replay
skips them. -/
def ProperRecord (minValidTime : I64) : Record L F H FH M → Prop
  | .tombstones stones =>
    ∀ stone ∈ intervalsOf stones, ¬ stone.2.maxt.slt minValidTime → Proper stone.2
  | _ => True

theorem faithful_addSeries_foldl (n : ℕ) : ∀ (series : List (ℕ × L)) {h : Head L M}
    (sent : List (ℕ × Item F H FH)), Faithful h led →
    Faithful (series.foldl (Head.addSeries n) (h, sent)).1 led ∧
      (series.foldl (Head.addSeries n) (h, sent)).1.registry =
        series.foldl (fun r entry => (r.addSeries entry.1 entry.2).2) h.registry
  | [], _, _, hf => ⟨hf, rfl⟩
  | entry :: series, h, sent, hf => by
    have hf' := hf.addSeries entry.1 entry.2
    exact faithful_addSeries_foldl n series _ hf'

variable {n : ℕ} {sent : List (ℕ × Item F H FH)}

/-- **One record** is dealt with as its references say. -/
theorem dispatch_faithful {record : Record L F H FH M} (hf : Faithful h led)
    (hp : ProperRecord minValidTime record)
    (hd : dispatch n minValidTime h record = .ok (h', sent)) :
    Faithful h' (led.note direct minValidTime h.registry record) ∧
      h'.registry = after h.registry record := by
  cases record with
  | series series =>
    obtain ⟨rfl, -⟩ := Prod.mk.inj (Except.ok.inj hd)
    exact faithful_addSeries_foldl n series _ hf
  | tombstones stones =>
    obtain ⟨h1, hs, hr⟩ := map_eq_ok hd
    cases hr
    exact faithful_addStone_foldlM hf hp hs
  | metadata entries =>
    cases hd
    exact faithful_addMetadata_foldl entries hf
  | samples _ | exemplars | histogramSamples _ | floatHistogramSamples _ =>
    cases hd
    exact ⟨hf, rfl⟩

/-- **The replay gives the direct ledger.** -/
theorem dispatchAll_faithful : ∀ {wal : List (Record L F H FH M)} {h h' : Head L M}
    {led : Ledger M} {sent : List (ℕ × Item F H FH)}, Faithful h led →
    (∀ record ∈ wal, ProperRecord minValidTime record) →
    dispatchAll n minValidTime h wal = .ok (h', sent) →
    Faithful h' (ledger direct minValidTime h.registry led wal) ∧
      h'.registry = wal.foldl after h.registry
  | [], h, h', led, sent, hf, _, hd => by
    cases hd
    exact ⟨hf, rfl⟩
  | record :: wal, h, h', led, sent, hf, hp, hd => by
    rw [forall_mem_cons] at hp
    obtain ⟨⟨h1, sent1⟩, h1d, hrest⟩ := bind_eq_ok hd
    obtain ⟨⟨h2, sent2⟩, h2d, hr⟩ := map_eq_ok hrest
    cases hr
    obtain ⟨hf1, hr1⟩ := dispatch_faithful hf hp.1 h1d
    obtain ⟨hf2, hr2⟩ := dispatchAll_faithful hf1 hp.2 h2d
    rw [hr1] at hf2 hr2
    exact ⟨hf2, hr2⟩

/-! ### What is restored -/

/-- **The head after the replay has what was logged** for each series: its tombstones cover the
intervals, and its metadata are the latest. -/
structure Restored (h : Head L M) (led : Ledger M) : Prop where
  intervals : ∀ i ref lset, h.registry.objects[i]? = some (ref, lset) → ∀ itv ∈ led.intervals i,
    ∀ t, itv.inBounds t = true → deleted (h.tombstones ref) t = true
  metadata : ∀ i < h.registry.objects.length, h.metadata i = led.metadata i

/-- All that one ledger has is in another one, for the series or one with the same reference. -/
structure LoggedAgain (objects : List (ℕ × L)) (led own : Ledger M) : Prop where
  intervals : ∀ i ref lset, objects[i]? = some (ref, lset) → ∀ itv ∈ led.intervals i,
    ∀ t, itv.inBounds t = true →
      ∃ j lset', objects[j]? = some (ref, lset') ∧ deleted (own.intervals j) t = true
  metadata : ∀ i < objects.length, own.metadata i = led.metadata i

def registered (wal : List (Record L F H FH M)) : Registry L := wal.foldl after .empty

def logged (target : Registry L → ℕ → Option ℕ) (minValidTime : I64)
    (wal : List (Record L F H FH M)) : Ledger M :=
  ledger target minValidTime .empty .empty wal

/-- **Deletions and metadata are restored** exactly when all that was logged for a series was logged
under the reference of the series itself. Of the logs with proper intervals the replay returns at
least for those whose intervals do not end with the largest time (`add_returns_iff`). -/
theorem restored_iff (n : ℕ) (minValidTime : I64) {wal : List (Record L F H FH M)}
    (hp : ∀ record ∈ wal, ProperRecord minValidTime record)
    (hd : dispatchAll n minValidTime .empty wal = .ok (h, sent)) :
    Restored h (logged resolved minValidTime wal) ↔
      LoggedAgain (registered wal).objects (logged resolved minValidTime wal)
        (logged direct minValidTime wal) := by
  obtain ⟨hf, hr⟩ : Faithful h (logged direct minValidTime wal) ∧ h.registry = registered wal :=
    dispatchAll_faithful faithful_empty hp hd
  rw [← hr]
  constructor
  · rintro ⟨hi, hm⟩
    refine ⟨fun i ref lset hobj itv hitv t ht => ?_, fun i hlt => ?_⟩
    · exact (hf.covers ref t).1 (hi i ref lset hobj itv hitv t ht)
    · rw [← hm i hlt, hf.metadata]
  · rintro ⟨hi, hm⟩
    refine ⟨fun i ref lset hobj itv hitv t ht => ?_, fun i hlt => ?_⟩
    · exact (hf.covers ref t).2 (hi i ref lset hobj itv hitv t ht)
    · rw [← hm i hlt, hf.metadata]

end records

/-- A series is logged, with metadata and a deletion, and then again under the reference 2. -/
def repeated : List (Record Unit Unit Unit Unit ℕ) :=
  [.series [(1, ())], .metadata [(1, 7)], .tombstones [⟨1, [⟨0, 10⟩]⟩], .series [(2, ())],
    .samples [(2, 20, ())]]

/-- The deletion is restored, and the samples of the second reference are sent under the first. -/
theorem restored_iff_repeated :
    ∃ h sent, dispatchAll 2 0 .empty repeated = .ok (h, sent) ∧
      (Restored h (logged resolved 0 repeated) ↔
        LoggedAgain (registered repeated).objects (logged resolved 0 repeated)
          (logged direct 0 repeated)) ∧
      deleted (h.tombstones 1) 5 = true ∧ h.metadata 0 = some 7 := by
  obtain ⟨⟨h, sent⟩, hd, hv⟩ := map_eq_ok (show (dispatchAll 2 0 .empty repeated).map
    (fun p => (deleted (p.1.tombstones 1) 5, p.1.metadata 0)) = .ok (true, some 7) by
      decide +kernel)
  obtain ⟨hdel, hmeta⟩ := Prod.mk.inj hv
  refine ⟨h, sent, hd, restored_iff 2 0 ?_ hd, hdel, hmeta⟩
  simp [repeated, ProperRecord, intervalsOf, Proper]

/-- A series is logged again under the reference 2, and then a deletion under that reference. -/
def renamed : List (Record Unit Unit Unit Unit ℕ) :=
  [.series [(1, ())], .series [(2, ())], .tombstones [⟨2, [⟨0, 10⟩]⟩], .metadata [(2, 7)]]

/-- The deletion is lost. -/
theorem not_restored_renamed :
    ∃ h sent, dispatchAll 2 0 .empty renamed = .ok (h, sent) ∧
      ¬ Restored h (logged resolved 0 renamed) := by
  obtain ⟨⟨h, sent⟩, hd, hv⟩ := map_eq_ok (show (dispatchAll 2 0 .empty renamed).map
    (fun p => (p.1.registry.objects, deleted (p.1.tombstones 1) 5)) = .ok ([(1, ())], false) by
      decide +kernel)
  obtain ⟨hobj, hdel⟩ := Prod.mk.inj hv
  refine ⟨h, sent, hd, fun hr => ?_⟩
  have := hr.intervals 0 1 () (by rw [hobj]; rfl) ⟨0, 10⟩ (by decide +kernel) 5 (by decide)
  rw [hdel] at this
  cases this

end TopcDB.Tsdb.WalRefs
