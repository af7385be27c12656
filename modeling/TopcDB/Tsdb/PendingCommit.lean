import TopcDB.Tsdb.HeadAppender

/-! # Series with samples that wait for a commit

`pendingCommit` is one mark for all appenders: the first commit or rollback of a sample takes it
away. A histogram of integers is buffered without it, a refused one and a zero sample out of order
leave it behind, and a rollback does not take it from the series of float histograms. `Disciplined`
says when a step does none of that, which is exactly when it keeps the invariant `Marks`
(`marks_iff_disciplined`); in every run of such steps no series with a waiting sample is collected,
and no mark is left over (`run_protected`). -/

namespace TopcDB.Tsdb.PendingCommit

open List Lib.Machine Go.Basic Chunkenc.Huffman HeadSeries HeadAppender

variable {L F H FH A FA : Type}

/-! ### Waiting samples -/

variable (x : Appender F H FH)

/-- The series of the samples that are buffered, in the order of the loops of `Commit`. -/
def buffered : List ℕ :=
  x.samples.map Prod.fst ++ x.histograms.map Prod.fst ++ x.floatHistograms.map Prod.fst

/-- The series of the samples that wait for a commit. -/
def waiting : List ℕ :=
  match x.phase with
  | .opened | .committing => buffered x
  | .rollingBack | .closed => []

/-- The series whose mark the loops still take away. -/
def clearing : List ℕ :=
  match x.phase with
  | .opened | .committing => buffered x
  | .rollingBack => x.samples.map Prod.fst ++ x.histograms.map Prod.fst
  | .closed => []

variable (w : World L F H FH A FA)

/-- Some open appender has buffered a sample for the series that is not committed. -/
def Waits (i : ℕ) : Prop := ∃ x ∈ w.appenders, i ∈ waiting x

def Clears (i : ℕ) : Prop := ∃ x ∈ w.appenders, i ∈ clearing x

def Marked (i : ℕ) : Prop :=
  ∃ s, w.series[i]? = some s ∧ s.pendingCommit = true

/-- **The invariant**: the series of waiting samples are marked, and every mark is still taken
away. -/
structure Marks : Prop where
  marked : ∀ i, Waits w i → Marked w i
  cleared : ∀ i, Marked w i → Clears w i

/-- A series that is in the maps of the head as before. -/
def place (s : Series L F H FH A FA) : Bool × Bool := (s.hashed, s.listed)

section discipline

variable [DecidableEq L] [DecidableEq F] (E : HeadEnv L F H FH A FA) (o : HeadOpts)

variable (w : World L F H FH A FA)

/-- **What the mark is for**: no collection removes a series with a waiting sample, and once all
appenders are closed no series is marked. -/
structure Protected : Prop where
  kept : ∀ i, Waits w i → ∀ mint minOOOMmapRef w' r,
    exec E o w (.gc i mint minOOOMmapRef) = .ok (w', r) →
    w'.series[i]?.map place = w.series[i]?.map place
  settled : (∀ x ∈ w.appenders, x.phase = .closed) → ∀ s ∈ w.series, s.pendingCommit = false

/-! ### The discipline -/

/-- A rollback takes every mark of the appender away, or leaves it to others. -/
def RollsBack (a : ℕ) : Prop :=
  ∀ x ∈ w.appenders[a]?, x.phase = .opened → ∀ i ∈ x.floatHistograms.map Prod.fst,
    i ∈ x.samples.map Prod.fst ++ x.histograms.map Prod.fst ∨
      ∃ y ∈ w.appenders.eraseIdx a, i ∈ clearing y

/-- **When a step is without harm**, told from the state before it. -/
def Disciplined : Op L F H FH → Prop
  | .appendCTZeroSample a t ct => ∀ p ∈ w.target a, t.sle ct = false →
    (p.1.verdict p.2.2 ct E.zero).1 = true → (p.1.verdict p.2.2 ct E.zero).2.2.isNone →
      Clears w p.2.1
  | .appendHistogram a t h fh => ∀ p ∈ w.target a, (p.1.histogramRefused E o t h fh).isNone →
    ∀ g ∈ h,
      if (p.1.histogramVerdict E o (p.2.2.startHistograms E p.1.created) t g).2.2.isNone then
        p.2.2.pendingCommit = true
      else Clears w p.2.1
  | .commit a logged => logged = true ∨ RollsBack w a
  | .rollback a => RollsBack w a
  | .advance a _ => ∀ x ∈ w.appenders[a]?, x.phase ≠ .opened → x.phase ≠ .closed →
    ∀ p ∈ x.next, p.1 ∉ waiting p.2.2 ∧ ∀ y ∈ w.appenders.eraseIdx a, p.1 ∉ waiting y
  | _ => True

instance (w : World L F H FH A FA) (op : Op L F H FH) : Decidable (Disciplined E o w op) := by
  cases op <;> unfold Disciplined <;> (try unfold RollsBack Clears) <;> infer_instance

end discipline

/-! ### One element is replaced -/

variable {α : Type} {l : List α} {a : ℕ} {x : α} {P : α → Prop}

theorem exists_mem_set (h : l[a]? = some x) (y : α) :
    (∃ z ∈ l.set a y, P z) ↔ P y ∨ ∃ z ∈ l.eraseIdx a, P z := by
  have hlt := (List.getElem?_eq_some_iff.1 h).1
  simp only [(set_perm_cons_eraseIdx hlt y).mem_iff, exists_mem_cons_iff]

theorem exists_mem_iff (h : l[a]? = some x) : (∃ z ∈ l, P z) ↔ P x ∨ ∃ z ∈ l.eraseIdx a, P z := by
  obtain ⟨hlt, hx⟩ := List.getElem?_eq_some_iff.1 h
  rw [← exists_mem_set h x, ← hx, set_getElem_self]

variable (E : HeadEnv L F H FH A FA) (o : HeadOpts) {w w' : World L F H FH A FA} {a i : ℕ}
  {x x' : Appender F H FH} {s s' : Series L F H FH A FA}

theorem marked_set (h : w.series[i]? = some s) (hw : w'.series = w.series.set i s') (j : ℕ) :
    Marked w' j ↔ (j = i ∧ s'.pendingCommit = true) ∨ (j ≠ i ∧ Marked w j) := by
  have hlt := (List.getElem?_eq_some_iff.1 h).1
  unfold Marked
  rw [hw]
  rcases eq_or_ne j i with rfl | hne
  · simp [hlt]
  · simp [hne, getElem?_set_ne hne.symm]

/-- The state after the appender `a` and the series `i` have changed. -/
structure Moves (w : World L F H FH A FA) (a : ℕ) (x x' : Appender F H FH) (i : ℕ)
    (s s' : Series L F H FH A FA) (w' : World L F H FH A FA) : Prop where
  appender : w.appenders[a]? = some x
  appenders : w'.appenders = w.appenders.set a x'
  one : w.series[i]? = some s
  series : w'.series = w.series.set i s'

theorem Moves.waits_iff (h : Moves w a x x' i s s' w') (j : ℕ) :
    Waits w' j ↔ j ∈ waiting x' ∨ ∃ y ∈ w.appenders.eraseIdx a, j ∈ waiting y := by
  unfold Waits
  rw [h.appenders]
  exact exists_mem_set h.appender x'

theorem Moves.clears_iff (h : Moves w a x x' i s s' w') (j : ℕ) :
    Clears w' j ↔ j ∈ clearing x' ∨ ∃ y ∈ w.appenders.eraseIdx a, j ∈ clearing y := by
  unfold Clears
  rw [h.appenders]
  exact exists_mem_set h.appender x'

theorem waits_iff (h : w.appenders[a]? = some x) (j : ℕ) :
    Waits w j ↔ j ∈ waiting x ∨ ∃ y ∈ w.appenders.eraseIdx a, j ∈ waiting y :=
  exists_mem_iff h

theorem clears_iff (h : w.appenders[a]? = some x) (j : ℕ) :
    Clears w j ↔ j ∈ clearing x ∨ ∃ y ∈ w.appenders.eraseIdx a, j ∈ clearing y :=
  exists_mem_iff h

/-- **A change of what waits and is marked** that keeps the invariant. -/
theorem Marks.of_iff (h : Marks w) (hwaits : ∀ j, Waits w' j → Waits w j)
    (hclears : ∀ j, Clears w j → Clears w' j) (hmarked : ∀ j, Marked w' j ↔ Marked w j) :
    Marks w' :=
  ⟨fun j hj => (hmarked j).2 (h.marked j (hwaits j hj)),
    fun j hj => hclears j (h.cleared j ((hmarked j).1 hj))⟩

/-! ### Calls -/

theorem waiting_opened (h : x.phase = .opened) : waiting x = buffered x := by simp [waiting, h]

theorem clearing_opened (h : x.phase = .opened) : clearing x = buffered x := by simp [clearing, h]

theorem target_eq_some (h : w.target a = some (x, i, s)) :
    w.appenders[a]? = some x ∧ x.phase = .opened ∧ w.series[i]? = some s := by
  unfold World.target at h
  simp only [bind, Option.bind_eq_some_iff] at h
  obtain ⟨y, hy, u, hg, j, -, t, ht, hr⟩ := h
  cases hr
  refine ⟨hy, ?_, ht⟩
  by_contra hne
  simp [guard, hne, failure] at hg

variable (hm : Moves w a x x' i s s' w') (hx : x.phase = .opened) (hx' : x'.phase = .opened)

include hm hx hx'

theorem marks_iff_clears (h : Marks w) (hb : buffered x' = buffered x)
    (hs : s.pendingCommit = true → s'.pendingCommit = true) :
    Marks w' ↔ (s'.pendingCommit = true → Clears w i) := by
  have hclears : ∀ j, Clears w' j ↔ Clears w j := fun j => by
    rw [hm.clears_iff, clears_iff hm.appender, clearing_opened hx, clearing_opened hx', hb]
  have hmarked := marked_set hm.one hm.series
  constructor
  · exact fun h' hp => (hclears i).1 (h'.cleared i ((hmarked i).2 (.inl ⟨rfl, hp⟩)))
  · refine fun hp => ⟨fun j hj => ?_, fun j hj => (hclears j).2 ?_⟩
    · rw [hm.waits_iff, waiting_opened hx', hb, ← waiting_opened hx, ← waits_iff hm.appender] at hj
      obtain ⟨s0, hs0, hp0⟩ := h.marked j hj
      rcases eq_or_ne j i with rfl | hne
      · cases hm.one.symm.trans hs0
        exact (hmarked j).2 (.inl ⟨rfl, hs hp0⟩)
      · exact (hmarked j).2 (.inr ⟨hne, s0, hs0, hp0⟩)
    · rcases (hmarked j).1 hj with ⟨rfl, hp'⟩ | ⟨-, hj⟩
      · exact hp hp'
      · exact h.cleared j hj

theorem marks_iff_pending (h : Marks w) (hb : ∀ j, j ∈ buffered x' ↔ j = i ∨ j ∈ buffered x) :
    Marks w' ↔ s'.pendingCommit = true := by
  have hmarked := marked_set hm.one hm.series
  constructor
  · intro h'
    have hw : Waits w' i :=
      (hm.waits_iff i).2 (.inl ((waiting_opened hx').symm ▸ (hb i).2 (.inl rfl)))
    rcases (hmarked i).1 (h'.marked i hw) with ⟨-, hp⟩ | ⟨hne, -⟩
    · exact hp
    · exact absurd rfl hne
  · refine fun hp => ⟨fun j hj => ?_, fun j hj => ?_⟩
    · rcases eq_or_ne j i with rfl | hne
      · exact (hmarked j).2 (.inl ⟨rfl, hp⟩)
      · refine (hmarked j).2 (.inr ⟨hne, h.marked j ?_⟩)
        rw [hm.waits_iff, waiting_opened hx', hb, ← waiting_opened hx] at hj
        rw [waits_iff hm.appender]
        exact hj.imp_left fun hj => hj.resolve_left hne
    · rw [hm.clears_iff, clearing_opened hx', hb]
      rcases (hmarked j).1 hj with ⟨rfl, -⟩ | ⟨-, hj⟩
      · exact .inl (.inl rfl)
      · have := (clears_iff hm.appender j).1 (h.cleared j hj)
        rw [clearing_opened hx] at this
        exact this.imp_left .inr

theorem marks_of_refused (h : Marks w) (hb : buffered x' = buffered x)
    (hs : s'.pendingCommit = s.pendingCommit) : Marks w' :=
  (marks_iff_clears hm hx hx' h hb (hs ▸ id)).2 fun hp => h.cleared i ⟨s, hm.one, hs ▸ hp⟩

omit hm hx hx'

/-- **A call under the lock of its series** keeps the invariant when it does so for the appender and
the series that it finds. -/
theorem marks_call_iff {f : Appender F H FH → ℕ → Series L F H FH A FA →
      Reply F H FH × Appender F H FH × Series L F H FH A FA}
    {D : Appender F H FH × ℕ × Series L F H FH A FA → Prop} (h : Marks w)
    (hf : ∀ x i s w', x.phase = .opened → Moves w a x (f x i s).2.1 i s (f x i s).2.2 w' →
      (Marks w' ↔ D (x, i, s))) :
    Marks (w.call a f).1 ↔ ∀ p ∈ w.target a, D p := by
  rcases ht : w.target a with _ | ⟨x, i, s⟩
  · simp [World.call, ht, h]
  · obtain ⟨ha, ho, hs⟩ := target_eq_some ht
    simp only [World.call, ht, Option.mem_some_iff, forall_eq']
    exact hf x i s _ ho ⟨ha, rfl, hs, rfl⟩

section calls

theorem mem_buffered_sample (y : I64 × F) (j : ℕ) :
    j ∈ buffered { x with samples := x.samples ++ [(i, y)] } ↔ j = i ∨ j ∈ buffered x := by
  simp only [buffered, map_append, map_cons, map_nil, mem_append, mem_singleton]
  tauto

theorem mem_buffered_histogram (y : I64 × H) (j : ℕ) :
    j ∈ buffered { x with histograms := x.histograms ++ [(i, y)] } ↔ j = i ∨ j ∈ buffered x := by
  simp only [buffered, map_append, map_cons, map_nil, mem_append, mem_singleton]
  tauto

theorem mem_buffered_floatHistogram (y : I64 × FH) (j : ℕ) :
    j ∈ buffered { x with floatHistograms := x.floatHistograms ++ [(i, y)] } ↔
      j = i ∨ j ∈ buffered x := by
  simp only [buffered, map_append, map_cons, map_nil, mem_append, mem_singleton]
  rw [← or_assoc, or_comm]

@[simp] theorem pendingCommit_startHistograms (created : Bool) :
    (s.startHistograms E created).pendingCommit = s.pendingCommit := by
  unfold Series.startHistograms; split_ifs <;> rfl

@[simp] theorem pendingCommit_startFloatHistograms (created : Bool) :
    (s.startFloatHistograms E created).pendingCommit = s.pendingCommit := by
  unfold Series.startFloatHistograms; split_ifs <;> rfl

variable [DecidableEq F]

/-- **`Append`.** -/
theorem marks_append (h : Marks w) (a : ℕ) (t : I64) (v : F) :
    Marks (w.call a fun x i s => x.append E i s t v).1 := by
  refine (marks_call_iff (D := fun _ => True) h fun x i s w' ho hm => ?_).2 fun _ _ => trivial
  refine iff_true_intro ?_
  unfold Appender.append at hm
  split_ifs at hm
  · exact marks_of_refused hm ho ho h rfl rfl
  · exact marks_of_refused hm ho ho h rfl rfl
  · exact marks_of_refused hm ho ho h rfl rfl
  · split at hm
    · exact marks_of_refused hm ho ho h rfl rfl
    · split_ifs at hm
      · exact marks_of_refused hm ho ho h rfl rfl
      · exact (marks_iff_pending hm ho ho h (mem_buffered_sample _)).2 rfl

/-- **`AppendCTZeroSample`** marks a series for a sample out of order, which is not buffered. -/
theorem marks_appendCTZeroSample_iff (h : Marks w) (a : ℕ) (t ct : I64) :
    Marks (w.call a fun x i s => x.appendCTZeroSample E i s t ct).1 ↔
      Disciplined E o w (.appendCTZeroSample a t ct) := by
  refine marks_call_iff h fun x i s w' ho hm => ?_
  unfold Appender.appendCTZeroSample at hm
  split_ifs at hm with hct
  · simpa [hct] using marks_of_refused hm ho ho h rfl rfl
  · obtain ⟨⟨isOOO, delta, err⟩, hv⟩ : ∃ v, x.verdict s ct E.zero = v := ⟨_, rfl⟩
    simp only [hv, Bool.not_eq_true] at hct hm ⊢
    rcases err with _ | e
    · rcases isOOO with _ | _
      · simpa using (marks_iff_pending hm ho ho h (mem_buffered_sample _)).2 rfl
      · simpa [hct] using marks_iff_clears hm ho ho h rfl fun _ => rfl
    · simpa using marks_of_refused hm ho ho h rfl rfl

/-- **`AppendHistogram`**: a histogram of integers is buffered without a mark, and marks the series
when it is refused. -/
theorem marks_appendHistogram_iff (h : Marks w) (a : ℕ) (t : I64) (hist : Option H)
    (fh : Option FH) :
    Marks (w.call a fun x i s => x.appendHistogram E o i s t hist fh).1 ↔
      Disciplined E o w (.appendHistogram a t hist fh) := by
  refine marks_call_iff h fun x i s w' ho hm => ?_
  unfold Appender.appendHistogram at hm
  rcases hr : x.histogramRefused E o t hist fh with _ | r
  · simp only [hr] at hm
    rcases hist with _ | g
    · rcases fh with _ | fg
      · simpa using marks_of_refused hm ho ho h rfl rfl
      · dsimp only at hm
        split at hm
        · simpa using marks_of_refused hm ho ho h rfl (by simp)
        · simpa using (marks_iff_pending hm ho ho h (mem_buffered_floatHistogram _)).2 rfl
    · dsimp only at hm
      split at hm <;> rename_i hv
      · simpa [hv] using marks_iff_clears hm ho ho h rfl fun _ => rfl
      · simpa [hv] using marks_iff_pending hm ho ho h (mem_buffered_histogram _)
  · simp only [hr] at hm
    simpa [hr] using marks_of_refused hm ho ho h rfl rfl

end calls

/-! ### Commit and rollback -/

theorem marks_of_update {f : Appender F H FH → Appender F H FH} (h : Marks w)
    (hf : ∀ x, x.phase = .opened → waiting (f x) = waiting x ∧ clearing (f x) = clearing x) :
    Marks (w.update a f) := by
  unfold World.update
  rcases ha : w.appenders[a]? with _ | x
  · exact h
  · dsimp only
    split_ifs with hx
    · obtain ⟨hwait, hclear⟩ := hf x hx
      refine h.of_iff (fun j hj => ?_) (fun j hj => ?_) fun j => Iff.rfl
      · rw [waits_iff ha, ← hwait]
        exact (exists_mem_set ha (f x)).1 hj
      · rw [clears_iff ha, ← hclear] at hj
        exact (exists_mem_set ha (f x)).2 hj
    · exact h

/-- **The beginning of a rollback** gives up the float histograms, whose series stay marked. -/
theorem marks_rollback_iff (h : Marks w) (a : ℕ) :
    Marks (w.update a fun x => { x with phase := .rollingBack }) ↔ RollsBack w a := by
  unfold World.update RollsBack
  rcases ha : w.appenders[a]? with _ | x
  · simp [h]
  · simp only [Option.mem_some_iff, forall_eq']
    split_ifs with hx
    · simp only [hx, true_imp_iff]
      constructor
      · intro h' i hi
        have hwaits : Waits w i := (waits_iff ha i).2
          (.inl (waiting_opened hx ▸ mem_append_right _ hi))
        exact (exists_mem_set ha _).1 (h'.cleared i (h.marked i hwaits))
      · refine fun hr => ⟨fun j hj => h.marked j ?_, fun j hj => ?_⟩
        · have hothers := ((exists_mem_set ha _).1 hj).resolve_left (by simp [waiting])
          exact (waits_iff ha j).2 (.inr hothers)
        · refine (exists_mem_set ha _).2 ?_
          rcases (clears_iff ha j).1 (h.cleared j hj) with hb | hy
          · rw [clearing_opened hx] at hb
            rcases mem_append.1 hb with hb | hb
            · exact .inl hb
            · exact hr j hb
          · exact .inr hy
    · simp [hx, h]

variable {b : Buffered F H FH}

/-- **The next sample** is the first of those whose mark is still taken away. -/
theorem clearing_of_next (hx : x.phase ≠ .opened) (hx' : x.phase ≠ .closed)
    (h : x.next = some (i, b, x')) :
    clearing x = i :: clearing x' ∧ ∀ j ∈ waiting x', j ∈ waiting x := by
  have hphase : x.phase = .committing ∨ x.phase = .rollingBack := by
    cases hp : x.phase <;> simp_all
  unfold Appender.next at h
  split at h
  · cases h
    rcases hphase with hp | hp <;> simp_all [clearing, waiting, buffered]
  · cases h
    rcases hphase with hp | hp <;> simp_all [clearing, waiting, buffered]
  · split_ifs at h with hp
    cases h
    simp_all [clearing, waiting, buffered]
  · cases h

theorem clearing_of_next_none (hx : x.phase ≠ .opened) (h : x.next = none) : clearing x = [] := by
  unfold Appender.next at h
  split at h
  · cases h
  · cases h
  · split_ifs at h
    cases hp : x.phase <;> simp_all [clearing]
  · cases hp : x.phase <;> simp_all [clearing, buffered]

section turns

variable {E o} {ranges : Ranges} {mapper mapper' : Mapper A FA}

theorem pendingCommit_of_settle {bound : ℕ} (h : s.settle bound = .ok s') :
    s'.pendingCommit = false := by
  obtain ⟨txs, -, h⟩ := bind_eq_ok h
  cases h
  rfl

theorem pendingCommit_of_commitKind {ε : Type} {verdict : Bool × I64 × Option ε} {t : I64} {v : F}
    {g : Option H} {fg : Option FH} {append : Except Fault (Bool × Bool × MemSeries F H FH A FA)}
    (h : s.commitKind E o mapper ranges x verdict t v g fg append = .ok (s', mapper')) :
    s'.pendingCommit = false := by
  obtain ⟨p, -, h⟩ := bind_eq_ok h
  obtain ⟨s1, hs, h⟩ := map_eq_ok h
  cases h
  exact pendingCommit_of_settle hs

/-- **A turn of the loops** takes the mark away. -/
theorem pendingCommit_of_turn [DecidableEq F] (h : s.turn E o mapper ranges x b = .ok (s', mapper'))
    : s'.pendingCommit = false := by
  unfold Series.turn at h
  split_ifs at h
  · cases b with
    | float _ _ | histogram _ _ | floatHistogram _ _ => exact pendingCommit_of_commitKind h
  · obtain ⟨s1, hs, h⟩ := map_eq_ok h
    cases h
    exact pendingCommit_of_settle hs

end turns

/-- **A turn** does no harm when no other sample of the series waits. -/
theorem marks_turn_iff (h : Marks w) (hm : Moves w a x x' i s s' w') (hx : x.phase ≠ .opened)
    (hx' : x.phase ≠ .closed) (hn : x.next = some (i, b, x')) (hs : s'.pendingCommit = false) :
    Marks w' ↔ i ∉ waiting x' ∧ ∀ y ∈ w.appenders.eraseIdx a, i ∉ waiting y := by
  obtain ⟨hclear, hwait⟩ := clearing_of_next hx hx' hn
  have hmarked : ∀ j, Marked w' j ↔ j ≠ i ∧ Marked w j := fun j => by
    rw [marked_set hm.one hm.series, hs]
    simp
  constructor
  · intro h'
    have hno : ¬ Waits w' i := fun hi => ((hmarked i).1 (h'.marked i hi)).1 rfl
    rw [hm.waits_iff, not_or] at hno
    exact ⟨hno.1, fun y hy hi => hno.2 ⟨y, hy, hi⟩⟩
  · rintro ⟨hown, hothers⟩
    refine ⟨fun j hj => (hmarked j).2 ?_, fun j hj => ?_⟩
    · rw [hm.waits_iff] at hj
      refine ⟨?_, h.marked j ((waits_iff hm.appender j).2 (hj.imp_left (hwait j)))⟩
      rintro rfl
      rcases hj with hj | ⟨y, hy, hj⟩
      · exact hown hj
      · exact hothers y hy hj
    · obtain ⟨hne, hj⟩ := (hmarked j).1 hj
      have := (clears_iff hm.appender j).1 (h.cleared j hj)
      rw [hclear, mem_cons] at this
      rw [hm.clears_iff]
      exact this.imp_left fun hj => hj.resolve_left hne

theorem marks_of_end (h : Marks w) (ha : w.appenders[a]? = some x) (hx : x.phase ≠ .opened)
    (hn : x.next = none) :
    Marks { w with appenders := w.appenders.set a { x with phase := .closed } } := by
  have hclear := clearing_of_next_none hx hn
  refine h.of_iff (fun j hj => ?_) (fun j hj => ?_) fun j => Iff.rfl
  · exact (waits_iff ha j).2 (.inr (((exists_mem_set ha _).1 hj).resolve_left (by simp [waiting])))
  · refine (exists_mem_set ha _).2 (.inr ?_)
    exact ((clears_iff ha j).1 hj).resolve_left (by simp [hclear])

/-! ### Series and collections -/

theorem marks_of_set (h : Marks w) (hs : w.series[i]? = some s)
    (hp : s'.pendingCommit = s.pendingCommit) : Marks { w with series := w.series.set i s' } := by
  refine h.of_iff (fun _ => id) (fun _ => id) fun j => ?_
  rw [marked_set hs rfl, hp]
  rcases eq_or_ne j i with rfl | hne
  · simp [Marked, hs]
  · simp [hne]

theorem marks_of_created (h : Marks w) (hs : s.pendingCommit = false) (n : ℕ) :
    Marks { w with series := w.series ++ [s], lastSeriesID := n } := by
  refine h.of_iff (fun _ => id) (fun _ => id) fun j => ?_
  unfold Marked
  dsimp only
  rcases lt_trichotomy j w.series.length with hj | rfl | hj
  · rw [getElem?_append_left hj]
  · simp [hs]
  · rw [getElem?_append_right hj.le, getElem?_eq_none_iff.2 (by simp; omega),
      getElem?_eq_none_iff.2 hj.le]

theorem marks_of_opened (h : Marks w) (hb : buffered x = []) (hx : x.phase = .opened) :
    Marks { w with appenders := w.appenders ++ [x] } := by
  refine h.of_iff (fun j hj => ?_) (fun j hj => ?_) fun j => Iff.rfl
  · obtain ⟨y, hy, hj⟩ := hj
    rcases mem_append.1 hy with hy | hy
    · exact ⟨y, hy, hj⟩
    · obtain rfl := mem_singleton.1 hy
      rw [waiting_opened hx, hb] at hj
      cases hj
  · obtain ⟨y, hy, hj⟩ := hj
    exact ⟨y, mem_append_left _ hy, hj⟩

/-- **A marked series passes the check.** -/
theorem check_of_pendingCommit (h : s.pendingCommit = true) (mint : I64) (minOOOMmapRef : ℕ) :
    (s.check mint minOOOMmapRef).1 = true := by
  simp [Series.check, h]

theorem marks_getOrCreate [DecidableEq L] (h : Marks w) (a : ℕ) (lset : L) :
    Marks (w.getOrCreate E a lset) := by
  unfold World.getOrCreate
  split_ifs
  · exact h
  · split
    · exact marks_of_update h fun x _ => ⟨rfl, rfl⟩
    · exact marks_of_update (marks_of_created h rfl _) fun x _ => ⟨rfl, rfl⟩

theorem marks_setByID (h : Marks w) (a : ℕ) : Marks (w.setByID a) := by
  unfold World.setByID
  rcases ht : w.target a with _ | ⟨x, i, s⟩
  · exact h
  · dsimp only
    split_ifs
    · exact marks_of_set h (target_eq_some ht).2.2 rfl
    · exact h

theorem marks_gc (h : Marks w) (i : ℕ) (mint : I64) (minOOOMmapRef : ℕ) :
    Marks (w.gc i mint minOOOMmapRef) := by
  unfold World.gc
  rcases hs : w.series[i]? with _ | s
  · exact h
  · dsimp only
    split_ifs
    · exact marks_of_set h hs rfl
    · exact marks_of_set h hs rfl
    · exact h

/-- **A collection** leaves a marked series where it is. -/
theorem place_gc (hs : w.series[i]? = some s) (hp : s.pendingCommit = true) (mint : I64)
    (minOOOMmapRef : ℕ) :
    (w.gc i mint minOOOMmapRef).series[i]?.map place = w.series[i]?.map place := by
  have hlt := (List.getElem?_eq_some_iff.1 hs).1
  simp only [World.gc, hs, check_of_pendingCommit hp, if_true]
  split_ifs
  · simp [hlt, place, Series.check]
  · rw [hs]

/-! ### Steps and runs -/

def AtRest (w : World L F H FH A FA) : Prop :=
  w.appenders = [] ∧ ∀ s ∈ w.series, s.pendingCommit = false

theorem AtRest.marks (h : AtRest w) : Marks w := by
  refine ⟨fun i hi => ?_, fun i hi => ?_⟩
  · obtain ⟨x, hx, -⟩ := hi
    rw [h.1] at hx
    cases hx
  · obtain ⟨s, hs, hp⟩ := hi
    rw [h.2 s (mem_of_getElem? hs)] at hp
    cases hp

section runs

variable [DecidableEq L] [DecidableEq F] {E o} {op : Op L F H FH} {r : Option (Reply F H FH)}

omit [DecidableEq L] in
theorem marks_advance_iff {ranges : Ranges} (h : Marks w)
    (hadv : w.advance E o a ranges = .ok w') :
    Marks w' ↔ Disciplined E o w (.advance a ranges) := by
  unfold World.advance at hadv
  unfold Disciplined
  rcases ha : w.appenders[a]? with _ | x
  · simp only [ha] at hadv
    cases hadv
    simp [ha, h]
  · simp only [ha, Option.mem_some_iff, forall_eq'] at hadv ⊢
    split_ifs at hadv with hx
    · cases hadv
      rcases hx with hx | hx <;> simp [hx, h]
    · obtain ⟨hx, hx'⟩ := not_or.1 hx
      simp only [ne_eq, hx, hx', not_false_eq_true, true_imp_iff]
      rcases hn : x.next with _ | ⟨i, b, x'⟩
      · simp only [hn] at hadv
        cases hadv
        simpa using marks_of_end h ha hx hn
      · simp only [hn] at hadv
        split at hadv
        · cases hadv
        · rename_i s hs
          obtain ⟨⟨s', mapper⟩, hturn, rfl⟩ := map_eq_ok hadv
          simpa using marks_turn_iff h ⟨ha, rfl, hs, rfl⟩ hx hx' hn (pendingCommit_of_turn hturn)

/-- **A step keeps the invariant exactly when it is disciplined.** -/
theorem marks_iff_disciplined (h : Marks w) (hexec : exec E o w op = .ok (w', r)) :
    Marks w' ↔ Disciplined E o w op := by
  cases op with
  | appender => cases hexec; exact iff_of_true (marks_of_opened h rfl rfl) trivial
  | getByID a ref =>
    cases hexec
    exact iff_of_true (marks_of_update h fun x _ => ⟨rfl, rfl⟩) trivial
  | getOrCreate a lset => cases hexec; exact iff_of_true (marks_getOrCreate E h a lset) trivial
  | setByID a => cases hexec; exact iff_of_true (marks_setByID h a) trivial
  | append a t v =>
    obtain rfl : (w.call a _).1 = w' := congrArg Prod.fst (Except.ok.inj hexec)
    exact iff_of_true (marks_append E h a t v) trivial
  | appendCTZeroSample a t ct =>
    obtain rfl : (w.call a _).1 = w' := congrArg Prod.fst (Except.ok.inj hexec)
    exact marks_appendCTZeroSample_iff E o h a t ct
  | appendHistogram a t g fg =>
    obtain rfl : (w.call a _).1 = w' := congrArg Prod.fst (Except.ok.inj hexec)
    exact marks_appendHistogram_iff E o h a t g fg
  | commit a logged =>
    cases hexec
    cases logged with
    | true =>
      refine iff_of_true (marks_of_update h fun x hx => ?_) (.inl rfl)
      simp [waiting, clearing, hx, buffered]
    | false => simpa [Disciplined] using marks_rollback_iff h a
  | rollback a => cases hexec; exact marks_rollback_iff h a
  | advance a ranges =>
    obtain ⟨w1, hadv, hr⟩ := map_eq_ok hexec
    cases hr
    exact marks_advance_iff h hadv
  | gc i mint minOOOMmapRef =>
    cases hexec
    exact iff_of_true (marks_gc h i mint minOOOMmapRef) trivial

theorem Marks.protects (h : Marks w) : Protected E o w := by
  refine ⟨fun i hi mint minOOOMmapRef w' r hexec => ?_, fun hclosed s hs => ?_⟩
  · obtain ⟨s, hs, hp⟩ := h.marked i hi
    cases hexec
    exact place_gc hs hp mint minOOOMmapRef
  · obtain ⟨i, hi⟩ := mem_iff_getElem?.1 hs
    by_contra hp
    obtain ⟨x, hx, hi⟩ := h.cleared i ⟨s, hi, by simpa using hp⟩
    simp [clearing, hclosed x hx] at hi

/-- **Pending samples protect their series** in every run of disciplined steps. -/
theorem run_protected (E : HeadEnv L F H FH A FA) (o : HeadOpts) {w w' : World L F H FH A FA}
    (hw : AtRest w) (ops : List (Op L F H FH)) (hops : Along (exec E o) (Disciplined E o) w ops)
    {rs : List (Reply F H FH)} (hrun : run (exec E o) w ops = .ok (w', rs)) : Protected E o w' :=
  (run_keeps_along (fun _ _ _ _ h hd hexec => (marks_iff_disciplined h hexec).2 hd) hw.marks hops
    hrun).protects

/-- A head of series without labels, for rational numbers and histograms without content. -/
def plainHead : HeadEnv Unit ℚ Unit Unit Unit Unit where
  toEnv := plainEnv
  zero := 0
  isStaleNaN := fun _ => false
  emptyHistogram := ()
  emptyFloatHistogram := ()
  sumHistogram := fun _ => ()
  sumFloatHistogram := fun _ => ()
  validate := fun _ => true
  validateFloat := fun _ => true
  equals := fun _ _ => true
  equalsFloat := fun _ _ => true
  accepts := fun _ => true

def plainHeadOpts : HeadOpts where
  toChunkOpts := plainOpts (1 / 100)
  oooCapMax := 32
  oooCapMax_pos := by decide
  oooCapMax_le := by decide
  enableNativeHistograms := true
  enableOOONativeHistograms := false

def freshHead : World Unit ℚ Unit Unit Unit Unit := ⟨[], 0, [], []⟩

/-- An appender creates a series, buffers a sample and commits it. -/
def committed : List (Op Unit ℚ Unit Unit) :=
  [.appender 0 0 0 false 1 0, .getByID 0 0, .getOrCreate 0 (), .setByID 0, .append 0 1000 5,
    .gc 0 2000 0, .commit 0 true, .advance 0 default, .advance 0 default]

theorem run_protected_committed :
    ∃ w rs, run (exec plainHead plainHeadOpts) freshHead committed = .ok (w, rs) ∧
      Protected plainHead plainHeadOpts w := by
  obtain ⟨⟨w, rs⟩, hrun, -⟩ := map_eq_ok (show
    (run (exec plainHead plainHeadOpts) freshHead committed).map (fun p => p.1.series.length) =
      .ok 1 by decide +kernel)
  exact ⟨w, rs, hrun, run_protected plainHead plainHeadOpts ⟨rfl, by simp [freshHead]⟩ committed
    (along_of_check (by decide +kernel)) hrun⟩

/-- Two appenders buffer samples for one series; the first one rolls back. -/
def shared : List (Op Unit ℚ Unit Unit) :=
  [.appender 0 0 0 false 1 0, .appender 0 0 0 false 2 0, .getByID 0 0, .getOrCreate 0 (),
    .setByID 0, .append 0 1000 5, .getByID 1 1, .append 1 1000 7, .rollback 0,
    .advance 0 default, .advance 0 default]

/-- The sample of the second appender still waits, and a collection removes its series. -/
theorem not_protected_shared :
    ∃ w rs, run (exec plainHead plainHeadOpts) freshHead shared = .ok (w, rs) ∧
      ¬ Protected plainHead plainHeadOpts w := by
  obtain ⟨⟨w, rs⟩, hrun, hw⟩ := map_eq_ok (show
    (run (exec plainHead plainHeadOpts) freshHead shared).map (fun p =>
      (decide (∃ x ∈ p.1.appenders, 0 ∈ waiting x), p.1.series[0]?.map place,
        (p.1.gc 0 2000 0).series[0]?.map place)) =
      .ok (true, some (true, true), some (false, false)) by decide +kernel)
  simp only [Prod.mk.injEq, decide_eq_true_iff] at hw
  obtain ⟨hwaits, hbefore, hafter⟩ := hw
  refine ⟨w, rs, hrun, fun h => ?_⟩
  have := h.kept 0 hwaits 2000 0 _ _ rfl
  rw [hbefore, hafter] at this
  cases this

end runs

/-! ### Zero samples at created timestamps

The calls once the series is found, with the lock of the series and the largest time of the
appender. -/

/-- The lock of a series: whether it is held, and how often it was taken. -/
structure Mutex where
  held : Bool
  taken : ℕ

def Mutex.lock (m : Mutex) : Mutex := ⟨true, m.taken + 1⟩

/-- Releasing a lock that is not held stops the program. -/
def Mutex.unlock (m : Mutex) : Except Fault Mutex :=
  if m.held then .ok ⟨false, m.taken⟩ else .error .panic

/-- The lock before a call. -/
def free : Mutex := ⟨false, 0⟩

/-- A call that has returned. -/
structure ZeroCall (L F H FH A FA : Type) where
  reply : Reply F H FH
  x : Appender F H FH
  maxt : I64
  s : Series L F H FH A FA
  lock : Mutex

variable (x : Appender F H FH) (maxt : I64) (i : ℕ) (s : Series L F H FH A FA)

def extend (ct : I64) : I64 := if maxt.slt ct then ct else maxt

/-- **`AppendCTZeroSample`**, which takes the lock for the check and for the mark alone. -/
def appendCTZeroSample [DecidableEq F] (t ct : I64) : Except Fault (ZeroCall L F H FH A FA) := do
  let r := x.appendCTZeroSample E i s t ct
  let lock ← if t.sle ct then .ok free else free.lock.unlock
  .ok { reply := r.1, x := r.2.1, s := r.2.2, lock
        maxt := if r.1 matches .ref _ then extend maxt ct else maxt }

/-- The two cases of the switch up to the check: the series, the appender with the zero histogram
in its buffer, and the verdict, which is asked for as if histograms could be out of order. -/
def checked (ct : I64) : Option H → Option FH →
    Option (Series L F H FH A FA × Appender F H FH × Bool × I64 × Option HistogramErr)
  | some _, _ =>
    let s := s.startHistograms E x.created
    some (s, { x with histograms := x.histograms ++ [(i, ct, E.emptyHistogram)] },
      appendableKind s.mem (s.mem.lastHistogramValue.any (E.equals E.emptyHistogram)) ct x.headMaxt
        x.minValidTime x.oooTimeWindow true)
  | none, some _ =>
    let s := s.startFloatHistograms E x.created
    some (s, { x with floatHistograms := x.floatHistograms ++ [(i, ct, E.emptyFloatHistogram)] },
      appendableKind s.mem (s.mem.lastFloatHistogramValue.any (E.equalsFloat E.emptyFloatHistogram))
        ct x.headMaxt x.minValidTime x.oooTimeWindow true)
  | none, none => none

/-- **`AppendHistogramCTZeroSample`.** -/
def appendHistogramCTZeroSample (t ct : I64) (h : Option H) (fh : Option FH) :
    Except Fault (ZeroCall L F H FH A FA) :=
  if !o.enableNativeHistograms then .ok ⟨.nativeHistogramsDisabled, x, maxt, s, free⟩
  else if t.sle ct then .ok ⟨.ctNewerThanSample, x, maxt, s, free⟩
  else
    match checked E x i s ct h fh with
    | none => .ok ⟨.ref s.mem.ref, x, extend maxt ct, s, free⟩
    | some (s, x', isOOO, _, err) => do
      -- after an error the lock is released, and only one kind of error ends the call
      let lock ← if err.isSome then free.lock.unlock else .ok free.lock
      if err matches some .outOfOrderSample then .ok ⟨.outOfOrderCT, x, maxt, s, lock⟩
      else
        let lock ← lock.unlock
        if isOOO then .ok ⟨.outOfOrderCT, x, maxt, s, lock⟩
        else .ok ⟨.ref s.mem.ref, x', extend maxt ct, { s with pendingCommit := true }, lock⟩

/-- The fields of a series that a refused sample has to leave alone. -/
def lastValues (s : Series L F H FH A FA) : Bool × F × Option H × Option FH :=
  (s.pendingCommit, s.mem.lastValue, s.mem.lastHistogramValue, s.mem.lastFloatHistogramValue)

/-- The contract of a call `c` whose check gives `verdict`: the lock is taken and released once, and
a sample that is refused or out of order is answered by an error and changes nothing. -/
def Obeys {ε : Type} (verdict : Bool × I64 × Option ε) (c : ZeroCall L F H FH A FA) : Prop :=
  c.lock = ⟨false, 1⟩ ∧ (verdict.1 ∨ verdict.2.2.isSome →
    (∀ ref, c.reply ≠ .ref ref) ∧ c.x = x ∧ c.maxt = maxt ∧ lastValues c.s = lastValues s)

/-- Both calls return, and keep the contract when they come to the check. -/
def Contract [DecidableEq F] (t ct : I64) (h : Option H) (fh : Option FH) : Prop :=
  (∃ c, appendCTZeroSample E x maxt i s t ct = .ok c ∧
    (ct.slt t → Obeys x maxt s (x.verdict s ct E.zero) c)) ∧
  ∃ c, appendHistogramCTZeroSample E o x maxt i s t ct h fh = .ok c ∧
    (o.enableNativeHistograms → ct.slt t → ∀ p ∈ checked E x i s ct h fh,
      Obeys x maxt s p.2.2 c)

/-- The series was created by the call and has no histogram, so that it is given one. -/
def Starts : Prop :=
  x.created ∧ s.mem.lastHistogramValue = none ∧ s.mem.lastFloatHistogramValue = none

variable {x s}

theorem lastValues_checked_iff {ct : I64} {h : Option H} {fh : Option FH}
    {p : Series L F H FH A FA × Appender F H FH × Bool × I64 × Option HistogramErr}
    (hp : p ∈ checked E x i s ct h fh) : lastValues p.1 = lastValues s ↔ ¬ Starts x s := by
  rcases h with _ | h <;> rcases fh with _ | fh <;> simp only [checked, Option.mem_def] at hp
  · cases hp
  all_goals
    cases hp
    simp only [lastValues, Series.startHistograms, Series.startFloatHistograms, Starts]
    split <;> simp_all

/-- **Zero samples keep the contract of an append** exactly when no float is out of order for a
series that no sample waits for, and no check of a histogram fails in another way than for its
order, or refuses one for a series that the call has created. -/
theorem contract_iff [DecidableEq F] (t ct : I64) (h : Option H) (fh : Option FH) :
    Contract E o x maxt i s t ct h fh ↔
      (ct.slt t → (x.verdict s ct E.zero).1 → (x.verdict s ct E.zero).2.2 = none →
        s.pendingCommit) ∧
      (o.enableNativeHistograms → ct.slt t → ∀ p ∈ checked E x i s ct h fh,
        (p.2.2.2.2 = none ∨ p.2.2.2.2 = some .outOfOrderSample) ∧
          (p.2.2.1 ∨ p.2.2.2.2.isSome → ¬ Starts x s)) := by
  by_cases hct : ct.slt t
  case neg =>
    have hle : t.sle ct = true := by simpa [BitVec.sle_eq_not_slt] using hct
    refine iff_of_true ⟨?_, ?_⟩ ⟨fun h => absurd h hct, fun _ h => absurd h hct⟩
    · rw [appendCTZeroSample, if_pos hle]
      exact ⟨_, rfl, fun h => absurd h hct⟩
    · rw [appendHistogramCTZeroSample, if_pos hle]
      split_ifs <;> exact ⟨_, rfl, fun _ h => absurd h hct⟩
  have hle : t.sle ct = false := by rw [BitVec.sle_eq_not_slt, hct]; rfl
  have hunlock : free.lock.unlock = .ok ⟨false, 1⟩ := rfl
  have hagain : (⟨false, 1⟩ : Mutex).unlock = .error .panic := rfl
  refine and_congr ?_ ?_
  · rcases hv : x.verdict s ct E.zero with ⟨_ | _, d, _ | e⟩ <;>
      simp [Obeys, appendCTZeroSample, Appender.appendCTZeroSample, hle, hv, lastValues, hct,
        hunlock, ok_bind]
  · unfold appendHistogramCTZeroSample
    by_cases ho : o.enableNativeHistograms
    case neg => simp [ho]
    rcases hp : checked E x i s ct h fh with _ | ⟨s', x', isOOO, d, err⟩
    · simp [ho, hle]
    have hvalues := lastValues_checked_iff E i hp
    rcases isOOO with _ | _ <;> rcases err with _ | (_ | _ | _ | _ | _) <;>
      simp [ho, hct, hle, hunlock, hagain, hvalues, Obeys, ok_bind, error_bind]

/-- A series without samples, as a head makes it. -/
def freshSeries : Series Unit ℚ Unit Unit Unit Unit :=
  ⟨(), newMemSeries 1 plainHead.zero, none, false, true, true⟩

/-- The appender of a head that takes no samples before the time 1000. -/
def lateAppender : Appender ℚ Unit Unit :=
  ⟨1000, 1000, 0, false, 1, 0, some 0, true, [], [], [], .opened⟩

/-- A counter that was created at the time 0 and has a histogram at the time 2000. -/
theorem not_contract_outOfBounds :
    ¬ Contract plainHead plainHeadOpts lateAppender 0 0 freshSeries 2000 0 (some ()) none := by
  rintro ⟨-, c, hc, -⟩
  exact nomatch hc

end TopcDB.Tsdb.PendingCommit
