import TopcDB.Storage.Overlap

/-! # Runs of a compacting iterator

What `CompactChunkIterator` does without a split. What a group of overlapping chunks is merged to is
delivered chunk by chunk before any other one, so that the chunks delivered are disjoint and hold
every timestamp once (`drain_spec`). Two things can go wrong: a sample at the smallest int64 gets
lost when its chunk is merged, and a group without other samples makes `Next` panic. -/

namespace TopcDB.Storage.MergeRun

open Lib.Heap Chunkenc.Chunk Merge MergeOrder CompactChunk Overlap CompactChunkIterator
open List hiding count

variable {μ σ H FH X : Type} (S : Chunks μ σ H FH) (held : μ → List (ValueType × σ))

/-! ### What can be merged -/

/-- The chunk has a sample later than the smallest int64. -/
def HasLate (m : μ) : Prop :=
  ∃ u, minInt64.toInt < u ∧ HasTime S held m u

/-- Chunks that overlap are linked to one with a sample that merging keeps. -/
def Filled (l : List μ) : Prop :=
  ∀ m ∈ l, ∀ m' ∈ l, Overlaps S m m' → ¬ duplicate S m m' →
    ∃ m'' ∈ l, Linked S l m m'' ∧ HasLate S held m''

/-- A chunk with a sample at the smallest int64 overlaps only duplicates of it. -/
def Alone (l : List μ) : Prop :=
  ∀ m ∈ l, ∀ m' ∈ l, HasTime S held m minInt64.toInt → Overlaps S m m' → duplicate S m m'

variable {S held} {l l' rest out : List μ}

/-- Chunks can be put aside that do not overlap the others. -/
theorem filled_iff_of_disjoint (hsub : ∀ x ∈ l', x ∈ l)
    (hl : ∀ x ∈ l, x ∈ l' ∨ ∀ y ∈ l', ¬ Overlaps S y x)
    (hrest : ∀ m ∈ l, m ∉ l' → ∀ m' ∈ l, m' ∉ l' → Overlaps S m m' → ¬ duplicate S m m' →
      ∃ m'' ∈ l, Linked S l m m'' ∧ HasLate S held m'') : Filled S held l ↔ Filled S held l' := by
  constructor
  · intro h m hm m' hm' ho hd
    obtain ⟨m'', -, hlink, hlate⟩ := h m (hsub m hm) m' (hsub m' hm') ho hd
    obtain ⟨hmem, hlink'⟩ := hlink.of_disjoint hl hm
    exact ⟨m'', hmem, hlink', hlate⟩
  · intro h m hm m' hm' ho hd
    by_cases hin : m ∈ l'
    · have hin' := (hl m' hm').resolve_right fun hno => hno m hin ho
      obtain ⟨m'', hmem, hlink, hlate⟩ := h m hin m' hin' ho hd
      exact ⟨m'', hsub m'' hmem, hlink.mono hsub, hlate⟩
    · refine hrest m hm hin m' hm' (fun hin' => ?_) ho hd
      exact (hl m hm).resolve_left hin m' hin' ho.symm

theorem filled_perm (h : l.Perm l') : Filled S held l ↔ Filled S held l' :=
  filled_iff_of_disjoint (fun _ hx => h.mem_iff.2 hx) (fun _ hx => Or.inl (h.mem_iff.1 hx))
    fun _ hm hm' => absurd (h.mem_iff.1 hm) hm'

variable {curr m0 m x y m' p : μ}

/-- When the first chunk overlaps another one, no sample at the smallest int64 is alone. -/
theorem Alone.not_hasTime (h : Alone S held l) (hc : ∀ m ∈ l, Covers S held m) (hcurr : curr ∈ l)
    (hmin : ∀ m ∈ l, tmin S curr ≤ tmin S m) (hm0 : m0 ∈ l) (hle : tmin S m0 ≤ tmax S curr)
    (hd : ¬ duplicate S m0 curr) (hm : m ∈ l) : ¬ HasTime S held m minInt64.toInt := by
  intro hu
  refine hd ?_
  have htmin : ∀ m' ∈ l, tmin S m ≤ tmax S m' := fun m' hm' =>
    ((hc m hm).of_hasTime hu).1.trans ((minInt64_le _).trans (hc m' hm').le)
  have h1 := h m hm curr hcurr hu ⟨htmin curr hcurr, (hmin m hm).trans (hc m hm).le⟩
  have h2 := h m hm m0 hm0 hu ⟨htmin m0 hm0, by rwa [(bounds_of_duplicate h1).2]⟩
  exact duplicate_trans (duplicate_symm h2) h1

/-! ### One call of `Next` -/

variable (S held)

/-- What holds between the calls. All samples to come are in `P`. -/
structure Ready (P : ValueType × σ → Prop) (h : List (μ × List μ)) : Prop where
  heaped : Heaped S h
  covers : ∀ m ∈ pend h, Covers S held m
  same : SameTimes S held (pend h)
  mem : ∀ m ∈ pend h, ∀ x ∈ held m, P x

/-- The chunk `m` is delivered, and `h'` is left of the heap `h`. -/
structure Delivers (view : ValueType × σ → X) (P : ValueType × σ → Prop) (h : List (μ × List μ))
    (m : μ) (h' : List (μ × List μ)) : Prop where
  ready : Ready S held P h'
  filled : Filled S held (pend h) ↔ Filled S held (pend h')
  covers : Covers S held m
  after : ∀ b, (∀ x ∈ pend h, b < tmin S x) → b < tmin S m
  before : ∀ x ∈ pend h', tmax S m < tmin S x
  times : ∀ u, minInt64.toInt < u →
    ((∃ x ∈ pend h, HasTime S held x u) ↔ ∃ x ∈ m :: pend h', HasTime S held x u)
  first : HasTime S held m minInt64.toInt ↔
    (∃ x ∈ pend h, HasTime S held x minInt64.toInt) ∧ Alone S held (pend h)
  samples : ∀ x ∈ m :: pend h', ∀ y ∈ held x, ∃ x' ∈ pend h, ∃ z ∈ held x', view z = view y
  count_le : count held (m :: pend h') ≤ count held (pend h)

variable {S held}

theorem count_perm (h : l.Perm l') : count held l = count held l' := (h.map _).sum_eq

theorem count_nil : count held [] = 0 := rfl

theorem count_append (l l' : List μ) : count held (l ++ l') = count held l + count held l' := by
  rw [count, map_append, sum_append]; rfl

theorem count_cons (m : μ) (l : List μ) :
    count held (m :: l) = max (held m).length 1 + count held l := by
  rw [count, map_cons, sum_cons]; rfl

section step

variable {view : ValueType × σ → X} {P : ValueType × σ → Prop} {h h1 h' : List (μ × List μ)}
  {curr : μ} {new dup : List μ} {t : ℤ} (hr : Ready S held P h)
  (hg : Groups S h1 [curr] new dup h' t) (hperm : (pend h).Perm (curr :: pend h1))
include hg hperm

theorem perm_group : (pend h).Perm ((new ++ [curr]) ++ (dup ++ pend h')) := by
  refine hperm.trans ((hg.perm.cons curr).trans ?_)
  rw [append_assoc, singleton_append]
  exact perm_middle.symm

theorem mem_pend_iff (x : μ) : x ∈ pend h ↔ (x ∈ new ++ [curr] ∨ x ∈ dup) ∨ x ∈ pend h' := by
  rw [(perm_group hg hperm).mem_iff, mem_append, mem_append (s := dup), or_assoc]

theorem mem_of_group (hx : x ∈ new ++ [curr]) : x ∈ pend h :=
  (mem_pend_iff hg hperm x).2 (Or.inl (Or.inl hx))

theorem mem_of_left (hx : x ∈ pend h') : x ∈ pend h :=
  (mem_pend_iff hg hperm x).2 (Or.inr hx)

omit hperm in
theorem exists_duplicate (hx : x ∈ new ++ [curr] ∨ x ∈ dup) :
    ∃ m ∈ new ++ [curr], duplicate S x m := by
  rcases hx with hx | hx
  · exact ⟨x, hx, duplicate_iff.2 ⟨rfl, rfl, rfl⟩⟩
  · obtain ⟨m, hm, hd⟩ := hg.same x hx
    exact ⟨m, by simpa [or_comm] using hm, hd⟩

omit hperm in
/-- The group and its duplicates end before the others begin. -/
theorem tmax_group_le (hx : x ∈ new ++ [curr] ∨ x ∈ dup) : tmax S x ≤ t := by
  obtain ⟨m, hm, hd⟩ := exists_duplicate hg hx
  rw [(bounds_of_duplicate hd).2]
  exact hg.le m (by simpa [or_comm] using hm)

omit hperm in
theorem duplicate_of_single (hnew : new = []) (hx : x ∈ new ++ [curr] ∨ x ∈ dup)
    (hy : y ∈ new ++ [curr] ∨ y ∈ dup) : duplicate S x y := by
  obtain ⟨a, ha, hda⟩ := exists_duplicate hg hx
  obtain ⟨b, hb, hdb⟩ := exists_duplicate hg hy
  rw [hnew, nil_append, mem_singleton] at ha hb
  rw [ha] at hda
  rw [hb] at hdb
  exact duplicate_trans hda (duplicate_symm hdb)

theorem left_or_disjoint (x : μ) (hx : x ∈ pend h) :
    x ∈ pend h' ∨ ∀ y ∈ pend h', ¬ Overlaps S y x := by
  rcases (mem_pend_iff hg hperm x).1 hx with hx | hx
  · exact Or.inr fun y hy ho => absurd (ho.1.trans (tmax_group_le hg hx)) (not_le.2 (hg.lt y hy))
  · exact Or.inl hx

include hr

/-- A timestamp of the group or a duplicate is one of the group. -/
theorem Ready.exists_hasTime (hx : x ∈ new ++ [curr] ∨ x ∈ dup) {u : ℤ} (hu : HasTime S held x u) :
    ∃ m ∈ new ++ [curr], HasTime S held m u := by
  obtain ⟨m, hm, hd⟩ := exists_duplicate hg hx
  have hx' : x ∈ pend h := (mem_pend_iff hg hperm x).2 (Or.inl hx)
  exact ⟨m, hm, (hr.same x hx' m (mem_of_group hg hperm hm) hd u).1 hu⟩

/-- The timestamps to come are those of the group and those left. -/
theorem Ready.hasTime_iff (u : ℤ) : (∃ x ∈ pend h, HasTime S held x u) ↔
    (∃ x ∈ new ++ [curr], HasTime S held x u) ∨ ∃ x ∈ pend h', HasTime S held x u := by
  constructor
  · rintro ⟨x, hx, hu⟩
    rcases (mem_pend_iff hg hperm x).1 hx with hx' | hx'
    · exact Or.inl (hr.exists_hasTime hg hperm hx' hu)
    · exact .inr ⟨x, hx', hu⟩
  · rintro (⟨x, hx, hu⟩ | ⟨x, hx, hu⟩)
    · exact ⟨x, mem_of_group hg hperm hx, hu⟩
    · exact ⟨x, mem_of_left hg hperm hx, hu⟩

theorem Ready.left : Ready S held P h' :=
  have hsub : ∀ m ∈ pend h', m ∈ pend h := fun _ hm => mem_of_left hg hperm hm
  ⟨hg.heaped, fun m hm => hr.covers m (hsub m hm), hr.same.mono hsub,
    fun m hm => hr.mem m (hsub m hm)⟩

/-- The chunks of the group and the duplicates are linked to the first one. -/
theorem Ready.linked (hlink : ∀ m ∈ new ++ [curr], Linked S (pend h) curr m)
    (hx : x ∈ new ++ [curr] ∨ x ∈ dup) : Linked S (pend h) curr x := by
  obtain ⟨m, hm, hd⟩ := exists_duplicate hg hx
  have hx' : x ∈ pend h := (mem_pend_iff hg hperm x).2 (Or.inl hx)
  obtain ⟨h1, h2⟩ := bounds_of_duplicate hd
  have hle := (hr.covers x hx').le
  exact (hlink m hm).tail ⟨mem_of_group hg hperm hm, hx', by rwa [← h1], by rwa [← h2]⟩

/-- When the group is one chunk or has a sample that is kept, the others decide. -/
theorem Ready.filled_iff (hlink : ∀ m ∈ new ++ [curr], Linked S (pend h) curr m)
    (hlate : new = [] ∨ ∃ m ∈ new ++ [curr], HasLate S held m) :
    Filled S held (pend h) ↔ Filled S held (pend h') := by
  refine filled_iff_of_disjoint (fun x hx => mem_of_left hg hperm hx) (left_or_disjoint hg hperm)
    fun m hm hmn m' hm' hmn' ho hd => ?_
  have hin := ((mem_pend_iff hg hperm m).1 hm).resolve_right hmn
  have hin' := ((mem_pend_iff hg hperm m').1 hm').resolve_right hmn'
  rcases hlate with rfl | ⟨m'', hm'', hlate⟩
  · exact absurd (duplicate_of_single hg rfl hin hin') hd
  · exact ⟨m'', mem_of_group hg hperm hm'',
      (hr.linked hg hperm hlink hin).symm.trans (hlink m'' hm''), hlate⟩

theorem Ready.not_filled (hmin : ∀ m ∈ pend h, tmin S curr ≤ tmin S m) (hm0 : m0 ∈ new)
    (hle : tmin S m0 ≤ tmax S curr) (hd : ¬ duplicate S m0 curr)
    (hno : ∀ m ∈ new ++ [curr], ¬ HasLate S held m) : ¬ Filled S held (pend h) := by
  intro hfill
  have hcurr : curr ∈ new ++ [curr] := by simp
  have hm0' : m0 ∈ pend h := mem_of_group hg hperm (mem_append_left _ hm0)
  obtain ⟨m, hm, hlink, u, hlt, hu⟩ := hfill curr (mem_of_group hg hperm hcurr) m0 hm0'
    ⟨(hmin m0 hm0').trans (hr.covers m0 hm0').le, hle⟩ fun h => hd (duplicate_symm h)
  -- links do not leave the group
  have hin : m ∈ (new ++ [curr]) ++ dup := by
    refine (hlink.of_disjoint (fun x hx => ?_) (mem_append_left _ hcurr)).1
    rcases (mem_pend_iff hg hperm x).1 hx with hx | hx
    · exact Or.inl (mem_append.2 hx)
    · refine Or.inr fun y hy ho => ?_
      exact absurd (ho.2.trans (tmax_group_le hg (mem_append.1 hy))) (not_le.2 (hg.lt x hx))
  obtain ⟨m', hm', hu'⟩ := hr.exists_hasTime hg hperm (mem_append.1 hin) hu
  exact hno m' hm' ⟨u, hlt, hu'⟩

theorem Ready.first_iff (hnew : new = []) : HasTime S held curr minInt64.toInt ↔
    (∃ x ∈ pend h, HasTime S held x minInt64.toInt) ∧ Alone S held (pend h) := by
  have hcurr : curr ∈ new ++ [curr] := by simp
  have hcurr' := mem_of_group hg hperm hcurr
  -- a chunk that begins at the smallest int64 is not left for later
  have hearly : ∀ x ∈ pend h, tmin S x ≤ t → x ∈ new ++ [curr] ∨ x ∈ dup := fun x hx hle =>
    ((mem_pend_iff hg hperm x).1 hx).resolve_right fun hx' => absurd hle (not_le.2 (hg.lt x hx'))
  have hbegin : ∀ x ∈ pend h, HasTime S held x minInt64.toInt → x ∈ new ++ [curr] ∨ x ∈ dup :=
    fun x hx hu => hearly x hx <| calc
      tmin S x ≤ minInt64.toInt := ((hr.covers x hx).of_hasTime hu).1
      _ ≤ tmin S curr := minInt64_le _
      _ ≤ tmax S curr := (hr.covers curr hcurr').le
      _ ≤ t := tmax_group_le hg (Or.inl hcurr)
  constructor
  · refine fun hu => ⟨⟨curr, hcurr', hu⟩, fun x hx y hy hux ho => ?_⟩
    have hx' := hbegin x hx hux
    exact duplicate_of_single hg hnew hx' (hearly y hy (ho.2.trans (tmax_group_le hg hx')))
  · rintro ⟨⟨x, hx, hu⟩, -⟩
    have hd := duplicate_of_single hg hnew (hbegin x hx hu) (Or.inl hcurr)
    exact (hr.same x hx curr hcurr' hd _).1 hu

theorem delivers_curr (hlink : ∀ m ∈ new ++ [curr], Linked S (pend h) curr m) (hnew : new = []) :
    Delivers S held view P h curr h' := by
  have hcurr : curr ∈ pend h := hperm.mem_iff.2 mem_cons_self
  refine ⟨hr.left hg hperm, hr.filled_iff hg hperm hlink (Or.inl hnew), hr.covers curr hcurr,
    fun b hb => hb curr hcurr, fun x hx => ?_, fun u _ => ?_, hr.first_iff hg hperm hnew,
    fun x hx y hy => ⟨x, ?_, y, hy, rfl⟩, ?_⟩
  · exact (hg.le curr (by simp)).trans_lt (hg.lt x hx)
  · rw [hr.hasTime_iff hg hperm, exists_mem_cons_iff, hnew]
    simp
  · rcases mem_cons.1 hx with rfl | hx
    · exact hcurr
    · exact mem_of_left hg hperm hx
  · rw [count_perm (perm_group hg hperm)]
    simp only [hnew, nil_append, count_append, count_cons, count_nil]
    omega

omit hr hg hperm in
theorem eq_of_overlaps (hd : l.Pairwise fun m m' => tmax S m < tmin S m') (hm : m ∈ l)
    (hm' : m' ∈ l) (ho : Overlaps S m m') : m = m' := by
  obtain ⟨i, hi, rfl⟩ := List.getElem_of_mem hm
  obtain ⟨j, hj, rfl⟩ := List.getElem_of_mem hm'
  have hget := pairwise_iff_getElem.1 hd
  rcases lt_trichotomy i j with hij | rfl | hij
  · exact absurd ho.2 (not_le.2 (hget i j hi hj hij))
  · rfl
  · exact absurd ho.1 (not_le.2 (hget j i hj hi hij))

omit hr hg hperm in
theorem Ready.pushNext (hr : Ready S held P h) (hc : ∀ m ∈ l, Covers S held m)
    (hd : l.Pairwise fun m m' => tmax S m < tmin S m')
    (hlt : ∀ m ∈ l, ∀ x ∈ pend h, tmax S m < tmin S x) (hP : ∀ m ∈ l, ∀ x ∈ held m, P x) :
    Ready S held P (pushNext S h l) ∧
      (Filled S held (pend (CompactChunk.pushNext S h l)) ↔ Filled S held (pend h)) := by
  have hmem : ∀ m, m ∈ pend (CompactChunk.pushNext S h l) ↔ m ∈ l ∨ m ∈ pend h := fun m => by
    rw [(pend_pushNext h l).mem_iff, mem_append]
  have hcovers : ∀ m ∈ pend (CompactChunk.pushNext S h l), Covers S held m := fun m hm =>
    ((hmem m).1 hm).elim (hc m) (hr.covers m)
  have hno : ∀ m ∈ l, ∀ x ∈ pend h, ¬ Overlaps S x m := fun m hm x hx ho =>
    absurd ho.1 (not_le.2 (hlt m hm x hx))
  refine ⟨⟨hr.heaped.pushNext (hd.imp_of_mem fun hm _ h => (hc _ hm).le.trans h.le), hcovers,
    fun m hm m' hm' hdup => ?_, fun m hm => ((hmem m).1 hm).elim (hP m) (hr.mem m)⟩, ?_⟩
  · have ho : Overlaps S m m' := by
      obtain ⟨h1, h2⟩ := bounds_of_duplicate hdup
      have := (hcovers m hm).le
      exact ⟨by rwa [← h2], by rwa [← h1]⟩
    rcases (hmem m).1 hm with hm | hm <;> rcases (hmem m').1 hm' with hm' | hm'
    · rw [eq_of_overlaps hd hm hm' ho]
      exact fun _ => Iff.rfl
    · exact absurd ho.symm (hno m hm m' hm')
    · exact absurd ho (hno m' hm' m hm)
    · exact hr.same m hm m' hm' hdup
  · refine filled_iff_of_disjoint (fun x hx => (hmem x).2 (Or.inr hx))
      (fun x hx => ((hmem x).1 hx).symm.imp_right (hno x)) fun m hm hmn m' hm' hmn' ho hdup => ?_
    have := eq_of_overlaps hd (((hmem m).1 hm).resolve_right hmn)
      (((hmem m').1 hm').resolve_right hmn') ho
    exact absurd (duplicate_iff.2 ⟨by rw [this], by rw [this], by rw [this]⟩) hdup

/-- A merged group is delivered from its first chunk on. -/
theorem delivers_merged (hPv : ∀ x y, view x = view y → P x → P y)
    (hmin : ∀ m ∈ pend h, tmin S curr ≤ tmin S m)
    (hlink : ∀ m ∈ new ++ [curr], Linked S (pend h) curr m) (hm0 : m0 ∈ new)
    (hle : tmin S m0 ≤ tmax S curr) (hd : ¬ duplicate S m0 curr)
    (hm : MergedTo S held view (new ++ [curr]) (p :: rest)) :
    Delivers S held view P h p (pushNext S h' rest) := by
  have hmemg : ∀ {x}, x ∈ new ++ [curr] → x ∈ pend h := fun {x} hx => mem_of_group hg hperm hx
  have hrest := pend_pushNext (S := S) h' rest
  have hp0 : p ∈ p :: rest := mem_cons_self
  have htail : ∀ {m}, m ∈ rest → m ∈ p :: rest := mem_cons_of_mem p
  obtain ⟨hfirst, hdisj⟩ := pairwise_cons.1 hm.disjoint
  have hbefore : ∀ m ∈ p :: rest, ∀ x ∈ pend h', tmax S m < tmin S x := fun m hm' x hx => by
    obtain ⟨-, m', hm'', hu⟩ := (hm.times _).1 ⟨m, hm', (hm.tight m hm').hasTime.2⟩
    calc tmax S m ≤ tmax S m' := ((hr.covers m' (hmemg hm'')).of_hasTime hu).2
      _ ≤ t := tmax_group_le hg (Or.inl hm'')
      _ < tmin S x := hg.lt x hx
  have hfrom : ∀ x ∈ p :: rest, ∀ y ∈ held x, ∃ x' ∈ pend h, ∃ z ∈ held x', view z = view y :=
    fun x hx y hy => by
      obtain ⟨m', hm', z, hz, he⟩ := hm.samples x hx y hy
      exact ⟨m', hmemg hm', z, hz, he⟩
  have hmem' : ∀ {x}, x ∈ pend (pushNext S h' rest) ↔ x ∈ rest ∨ x ∈ pend h' := fun {x} => by
    rw [hrest.mem_iff, mem_append]
  obtain ⟨hlt0, m1, hm1, hu1⟩ := (hm.times _).1 ⟨p, hp0, (hm.tight p hp0).hasTime.1⟩
  obtain ⟨hready, hfilled⟩ := (hr.left hg hperm).pushNext (l := rest)
    (fun m hm' => hm.covers m (htail hm')) hdisj (fun m hm' => hbefore m (htail hm'))
    fun m hm' x hx => by
      obtain ⟨x', hx', z, hz, he⟩ := hfrom m (htail hm') x hx
      exact hPv z x he (hr.mem x' hx' z hz)
  refine ⟨hready, (hr.filled_iff hg hperm hlink (.inr ⟨m1, hm1, _, hlt0, hu1⟩)).trans hfilled.symm,
    hm.covers p hp0, fun b hb => ?_, fun x hx => ?_, fun u hu => ?_, ⟨fun hu => ?_, ?_⟩,
    fun x hx y hy => ?_, ?_⟩
  · exact (hb m1 (hmemg hm1)).trans_le ((hr.covers m1 (hmemg hm1)).of_hasTime hu1).1
  · rcases hmem'.mp hx with hx | hx
    · exact hfirst x hx
    · exact hbefore p hp0 x hx
  · have htimes := hm.times u
    simp only [hu, true_and] at htimes
    rw [hr.hasTime_iff hg hperm, ← htimes]
    simp only [exists_mem_cons_iff, hmem', or_and_right, exists_or, or_assoc]
  · exact absurd ((hm.times _).1 ⟨p, hp0, hu⟩).1 (lt_irrefl _)
  · rintro ⟨⟨x, hx, hu⟩, halone⟩
    exact absurd hu (halone.not_hasTime hr.covers (hmemg (by simp)) hmin
      (hmemg (mem_append_left _ hm0)) hle hd hx)
  · rcases mem_cons.1 hx with rfl | hx
    · exact hfrom x hp0 y hy
    · rcases hmem'.mp hx with hx | hx
      · exact hfrom x (htail hx) y hy
      · exact ⟨x, mem_of_left hg hperm hx, y, hy, rfl⟩
  · have hcount := hm.count_le
    rw [count_cons, count_perm hrest, count_perm (perm_group hg hperm)]
    simp only [count_append, count_cons] at hcount ⊢
    omega

end step

variable {view : ValueType × σ → X} {P : ValueType × σ → Prop} {fuel : ℕ}

/-- **One call of `Next`** delivers a chunk as long as there is one, or panics on a group that keeps
no sample. -/
theorem nextFrom_spec (c : CompactChunkIterator μ)
    (hround : RoundTrips S held view P fuel Series.defaultSeriesToChunkEncoderSplit)
    (hview : ∀ x y, view x = view y → time S.I x.2 = time S.I y.2)
    (hPv : ∀ x y, view x = view y → P x → P y) {h : List (μ × List μ)} (hr : Ready S held P h)
    (hne : h ≠ []) (hfuel : 2 * count held (pend h) < fuel) :
    (∃ m h', c.nextFrom S h = .ok (true, { c with h := some h', curr := some m }) ∧
      Delivers S held view P h m h') ∨
    (c.nextFrom S h = .error .panic ∧ ¬ Filled S held (pend h)) := by
  obtain ⟨it, h0, hpop⟩ := pop_ne_nil (CompactChunk.less S) hne
  obtain ⟨hh0, hord, hperm0, hmin⟩ := hr.heaped.pop hpop
  have hperm : (pend h).Perm (it.1 :: pend (pushNext S h0 it.2)) :=
    hperm0.trans ((pend_pushNext h0 it.2).symm.cons it.1)
  have hit : it.1 ∈ pend h := hperm.mem_iff.2 mem_cons_self
  have hsub0 : ∀ m ∈ pend (pushNext S h0 it.2), m ∈ pend h := fun m hm =>
    hperm.mem_iff.2 (mem_cons_of_mem _ hm)
  have hreach : Reaches S (pend h) it.1 [it.1] (S.maxTime it.1).toInt (pushNext S h0 it.2) :=
    ⟨by simp [tmax], ⟨it.1, by simp, rfl⟩, by simpa using fun x hx => hmin x (hsub0 x hx),
      by simpa using ⟨hit, Relation.ReflTransGen.refl⟩⟩
  obtain ⟨new, dup, h', t, hloop, hg, hlink, hhead⟩ :=
    overlapLoop_spec (k := pendingChunks (pushNext S h0 it.2) + 1) [] it.1
      (hh0.pushNext hord.of_cons) (by rw [pendingChunks_eq]; exact Nat.lt_succ_self _)
      mem_cons_self hreach fun m hm => ⟨hsub0 m hm, (hr.covers m (hsub0 m hm)).le⟩
  rw [nil_append] at hloop
  have hlink' : ∀ m ∈ new ++ [it.1], Linked S (pend h) it.1 m := fun m hm =>
    hlink m (by simpa [or_comm] using hm)
  rcases new with _ | ⟨m0, new⟩
  · refine .inl ⟨it.1, h', ?_, delivers_curr hr hg hperm hlink' rfl⟩
    simp only [nextFrom, hpop, hloop, bind, Except.bind, isEmpty_nil,
      if_true, pure, Except.pure]
  · obtain ⟨hle, hd⟩ := hhead m0 rfl
    have hsub : ∀ m ∈ m0 :: new ++ [it.1], m ∈ pend h := fun m hm => mem_of_group hg hperm hm
    have hcount : count held (m0 :: new ++ [it.1]) ≤ count held (pend h) := by
      rw [count_perm (perm_group hg hperm), count_append _ (dup ++ pend h')]
      exact Nat.le_add_right _ _
    obtain ⟨merged, henc, hm⟩ := mergeEncode_spec (by simp) (fun m hm => hr.covers m (hsub m hm))
      (by omega) hround (fun m hm => hr.mem m (hsub m hm)) hview
    rcases merged with _ | ⟨p, rest⟩
    · refine .inr ⟨?_, hr.not_filled hg hperm hmin mem_cons_self hle hd fun m hm' hlate => ?_⟩
      · simp only [nextFrom, hpop, hloop, bind, Except.bind, isEmpty_cons,
          reduceCtorEq, if_false, henc]
      · -- the timestamp would be one of what the group is merged to
        obtain ⟨u, hlt, hu⟩ := hlate
        obtain ⟨m', hmem, -⟩ := (hm.times u).2 ⟨hlt, m, hm', hu⟩
        cases hmem
    · refine .inl ⟨p, pushNext S h' rest, ?_,
        delivers_merged hr hg hperm hPv hmin hlink' mem_cons_self hle hd hm⟩
      simp only [nextFrom, hpop, hloop, bind, Except.bind, isEmpty_cons,
        reduceCtorEq, if_false, henc, pure, Except.pure]

/-! ### Whole runs -/

/-- The chunks `out` are a merge of the chunks `l`, but for the smallest int64. -/
structure Delivered (S : Chunks μ σ H FH) (held : μ → List (ValueType × σ))
    (view : ValueType × σ → X) (l out : List μ) : Prop where
  covers : ∀ m ∈ out, Covers S held m
  disjoint : out.Pairwise fun m m' => tmax S m < tmin S m'
  ascends : Ascends S.I (out.flatMap held)
  times : ∀ u, minInt64.toInt < u →
    ((∃ m ∈ out, HasTime S held m u) ↔ ∃ m ∈ l, HasTime S held m u)
  first : (∃ m ∈ out, HasTime S held m minInt64.toInt) ↔
    (∃ m ∈ l, HasTime S held m minInt64.toInt) ∧ Alone S held l
  samples : ∀ m ∈ out, ∀ x ∈ held m, ∃ m' ∈ l, ∃ y ∈ held m', view y = view x

theorem delivered_nil {view : ValueType × σ → X} : Delivered S held view [] [] :=
  ⟨by simp, List.Pairwise.nil, List.Pairwise.nil, by simp, by simp, by simp⟩

variable {view : ValueType × σ → X} {P : ValueType × σ → Prop} {fuel : ℕ}

theorem Delivered.cons {h h' : List (μ × List μ)} (hd : Delivers S held view P h m h')
    (hm : Delivered S held view (pend h') out) (hafter : ∀ x ∈ out, tmax S m < tmin S x) :
    Delivered S held view (pend h) (m :: out) := by
  have hcovers := forall_mem_cons.2 ⟨hd.covers, hm.covers⟩
  have hdisj := List.Pairwise.cons hafter hm.disjoint
  refine ⟨hcovers, hdisj, ascends_flatMap hcovers hdisj, fun u hu => ?_, ?_, ?_⟩
  · rw [hd.times u hu, exists_mem_cons_iff, exists_mem_cons_iff, hm.times u hu]
  · rw [← hd.first, exists_mem_cons_iff, or_iff_left]
    rintro ⟨x, hx, hu⟩
    have := calc tmin S x ≤ minInt64.toInt := ((hm.covers x hx).of_hasTime hu).1
      _ ≤ tmin S m := minInt64_le _
      _ ≤ tmax S m := hd.covers.le
    exact absurd this (not_le.2 (hafter x hx))
  · refine forall_mem_cons.2 ⟨hd.samples m mem_cons_self, fun x hx y hy => ?_⟩
    obtain ⟨x', hx', z, hz, he⟩ := hm.samples x hx y hy
    obtain ⟨x'', hx'', w, hw, he'⟩ := hd.samples x' (mem_cons_of_mem _ hx') z hz
    exact ⟨x'', hx'', w, hw, he'.trans he⟩

/-- What a loop over `Next` does with the heap `l` of chunks to come. -/
def Drains (S : Chunks μ σ H FH) (held : μ → List (ValueType × σ)) (view : ValueType × σ → X)
    (k : ℕ) (c : CompactChunkIterator μ) (l : List μ) : Prop :=
  (Filled S held l → ∃ out c', drain S k c = .ok (out, c') ∧
    c'.iterators = c.iterators ∧ c'.err = c.err ∧
    (∀ b, (∀ x ∈ l, b < tmin S x) → ∀ m ∈ out, b < tmin S m) ∧ Delivered S held view l out) ∧
  (¬ Filled S held l → drain S k c = .error .panic)

/-- **A loop over `Next`** delivers a merge of the chunks, or panics. -/
theorem drain_spec (hround : RoundTrips S held view P fuel Series.defaultSeriesToChunkEncoderSplit)
    (hview : ∀ x y, view x = view y → time S.I x.2 = time S.I y.2)
    (hPv : ∀ x y, view x = view y → P x → P y) :
    ∀ {k : ℕ} {c : CompactChunkIterator μ}, c.seriesToChunkEncoderSplit ≤ 1000 →
      Ready S held P (c.start S) → 2 * count held (pend (c.start S)) < fuel →
      count held (pend (c.start S)) < k → Drains S held view k c (pend (c.start S))
  | 0, _, _, _, _, hk => by omega
  | k + 1, c, hsplit, hr, hfuel, hk => by
    have hnext : c.next S = c.nextFrom S (c.start S) := by
      rw [CompactChunkIterator.next, if_neg]
      exact not_lt.2 hsplit
    rcases hh : c.start S with _ | ⟨it, h⟩
    · refine ⟨fun _ => ⟨[], c, ?_, rfl, rfl, by simp, delivered_nil⟩, fun hno => absurd ?_ hno⟩
      · have hpop : pop (CompactChunk.less S) ([] : List (μ × List μ)) = none := rfl
        simp only [drain, hnext, hh, nextFrom, hpop]
      · exact fun m hm => absurd hm (by simp [pend])
    · rw [← hh]
      rcases nextFrom_spec c hround hview hPv hr (by rw [hh]; simp) hfuel with
        ⟨m, h', hn, hd⟩ | ⟨hn, hno⟩
      · have hcount := hd.count_le
        rw [count_cons] at hcount
        have ih : Drains S held view k { c with h := some h', curr := some m } (pend h') :=
          drain_spec hround hview hPv hsplit hd.ready
            (by show 2 * count held (pend h') < fuel; omega)
            (by show count held (pend h') < k; omega)
        refine ⟨fun hfill => ?_, fun hno => ?_⟩
        · obtain ⟨out, c', hdrain, hits, herr, hafter, hm⟩ := ih.1 (hd.filled.1 hfill)
          refine ⟨m :: out, c', ?_, hits, herr, fun b hb => ?_, hm.cons hd (hafter _ hd.before)⟩
          · simp only [drain, hnext, hn, hdrain, Except.map]
          · have hm0 := hd.after b hb
            refine forall_mem_cons.2 ⟨hm0, fun x hx => ?_⟩
            exact hm0.trans_le (hd.covers.le.trans (hafter _ hd.before x hx).le)
        · have hpanic := ih.2 fun h => hno (hd.filled.2 h)
          simp only [drain, hnext, hn, hpanic, Except.map]
      · refine ⟨fun h => absurd h hno, fun _ => ?_⟩
        simp only [drain, hnext, hn]

theorem start_spec : ∀ {iterators : List (ChunkIterator μ)} {h : List (μ × List μ)}, Heaped S h →
    (∀ it ∈ iterators, InOrder S it.chks) →
    Heaped S (iterators.foldl (fun h it => pushNext S h it.chks) h) ∧
      (pend (iterators.foldl (fun h it => pushNext S h it.chks) h)).Perm
        (iterators.flatMap ChunkIterator.chks ++ pend h)
  | [], h, hh, _ => ⟨hh, List.Perm.refl _⟩
  | it :: iterators, h, hh, ho => by
    rw [forall_mem_cons] at ho
    obtain ⟨h1, h2⟩ := start_spec (hh.pushNext ho.1) ho.2
    refine ⟨h1, h2.trans ?_⟩
    rw [flatMap_cons, append_assoc]
    refine ((pend_pushNext h it.chks).append_left _).trans ?_
    rw [← append_assoc, ← append_assoc]
    exact perm_append_comm.append_right _

end TopcDB.Storage.MergeRun
