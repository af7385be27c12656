import TopcDB.Tsdb.CompactPlan

/-! # Compaction converges

Every plan for blocks on disk names several of them, or one with tombstones. Several are replaced by
at most one block, and the one by a block without tombstones or by none: the number of blocks falls,
or it stays and fewer of them have tombstones. So planning and compacting ends, and where it ends no
two blocks overlap, since the first thing that is planned for are overlaps. -/

namespace TopcDB.Tsdb.CompactConverges

open List Go.Basic CompactLevel CompactPlan

variable {D : Type}

/-! ### The source -/

/-- A compactor with overlapping compaction. Its ranges divide, and a block without tombstones has
no share of them. -/
structure OverlapCompactor extends LeveledCompactor where
  ranges_pos : ∀ iv ∈ ranges, 0 < iv.toInt
  overlapping : enableOverlappingCompaction = true
  manyTombstones_zero : ∀ n, manyTombstones 0 n = false

/-- The blocks of a database, each in a directory of its own. -/
structure Blocks (D : Type) where
  metas : List (DirMeta D)
  nodup : (metas.map DirMeta.dir).Nodup

/-- `Plan` does not call `plan` when there are no blocks. -/
def planAll (c : LeveledCompactor) (blocks : Blocks D) : Except Fault (List D) :=
  if blocks.metas = [] then .ok [] else plan c blocks.metas

/-- What a compaction has written: the identifier and the number of series of the new block. -/
structure Written where
  uid : ULID
  numSeries : U64

/-- Directories of new blocks. -/
structure NewDir (D : Type) where
  dir : List D → D
  notMem : ∀ ds, dir ds ∉ ds

section turns

variable [DecidableEq D] (blocks : Blocks D)

/-- The metas that `Compact` reads for the planned directories. -/
def Blocks.planned (dirs : List D) : List BlockMeta :=
  dirs.filterMap fun dir =>
    (blocks.metas.find? fun dm => dm.dir = dir).map DirMeta.toBlockMeta

def Blocks.remove (dirs : List D) : Blocks D :=
  ⟨blocks.metas.filter fun dm => dm.dir ∉ dirs,
    blocks.nodup.sublist ((filter_sublist).map _)⟩

/-- The planned blocks make room for a new one without tombstones. -/
def Blocks.replace (new : NewDir D) (dirs : List D) (m : BlockMeta) (numSeries : U64) : Blocks D :=
  ⟨⟨m, new.dir (blocks.metas.map DirMeta.dir), false, 0, numSeries⟩ :: (blocks.remove dirs).metas,
    nodup_cons.2 ⟨fun h => new.notMem _
      (((filter_sublist).map DirMeta.dir).subset h), (blocks.remove dirs).nodup⟩⟩

/-- **One turn of planning and compacting.** A compaction that is left with no samples writes
nothing. -/
def compactOnce (c : LeveledCompactor) (new : NewDir D) (written : Option Written)
    (blocks : Blocks D) : Except Fault (Blocks D) := do
  let dirs ← planAll c blocks
  if dirs = [] then .ok blocks
  else
    match written with
    | none => .ok (blocks.remove dirs)
    | some w => do
      let m ← compactBlockMetas w.uid (blocks.planned dirs)
      .ok (blocks.replace new dirs m w.numSeries)

/-- The blocks after some turns, of which the compactions wrote what `written` says. -/
def compactTurns (c : LeveledCompactor) (new : NewDir D) (written : ℕ → Option Written)
    (blocks : Blocks D) : ℕ → Except Fault (Blocks D)
  | 0 => .ok blocks
  | n + 1 => compactTurns c new written blocks n >>= compactOnce c new (written n)

end turns

/-! ### What is planned -/

theorem infix_of_mem_splitLoop {tr : I64} : ∀ {k : ℕ} {ds p : List (DirMeta D)},
    p ∈ splitLoop tr k ds → p <:+: ds
  | 0, ds, p, hp => by simp [splitLoop] at hp
  | k + 1, [], p, hp => by simp [splitLoop] at hp
  | k + 1, dm :: ds, p, hp => by
    rw [splitLoop] at hp
    dsimp only at hp
    split_ifs at hp
    · rcases mem_cons.1 hp with rfl | hp
      · exact (List.takeWhile_prefix _).isInfix
      · exact (infix_of_mem_splitLoop hp).trans (dropWhile_suffix _).isInfix
    · exact (infix_of_mem_splitLoop hp).trans (suffix_cons _ _).isInfix

variable {ds dms : List (DirMeta D)}

theorem selectLoop_several {highTime : I64} : ∀ ivs : List I64,
    selectLoop ds highTime ivs = [] ∨
      selectLoop ds highTime ivs <:+: ds ∧ 1 < (selectLoop ds highTime ivs).length
  | [] => .inl rfl
  | iv :: ivs => by
    rw [selectLoop]
    cases hfind : (splitByRange ds iv).find? (picked highTime iv) with
    | none => exact selectLoop_several ivs
    | some p =>
      refine .inr ⟨infix_of_mem_splitLoop (mem_of_find?_eq_some hfind), ?_⟩
      have hp := find?_some hfind
      unfold picked at hp
      split at hp
      · simp only [Bool.and_eq_true, decide_eq_true_eq] at hp
        exact hp.2.2
      · simp at hp

theorem overlapLoop_several : ∀ {ds : List (DirMeta D)} {prev : DirMeta D} {maxt : I64},
    (overlapLoop prev maxt true ds).Sublist (ds.map DirMeta.dir) ∧
      (overlapLoop prev maxt false ds = [] ∨
        (overlapLoop prev maxt false ds).Sublist ((prev :: ds).map DirMeta.dir) ∧
          1 < (overlapLoop prev maxt false ds).length)
  | [], _, _ => ⟨nil_sublist _, .inl rfl⟩
  | d :: ds, prev, maxt => by
    have hrec := fun maxt' => @overlapLoop_several ds d maxt'
    simp only [overlapLoop, if_true, reduceCtorEq, if_false, nil_append]
    split_ifs with hlt hmax hmax
    · exact ⟨(hrec _).1.cons_cons _, .inr ⟨((hrec _).1.cons_cons _).cons_cons _, by simp⟩⟩
    · exact ⟨(hrec _).1.cons_cons _, .inr ⟨((hrec _).1.cons_cons _).cons_cons _, by simp⟩⟩
    · exact ⟨nil_sublist _, (hrec _).2.imp id fun h => ⟨h.1.cons _, h.2⟩⟩
    · exact ⟨nil_sublist _, (hrec _).2.imp id fun h => ⟨h.1.cons _, h.2⟩⟩

theorem tombstoneLoop_some {c : OverlapCompactor} (ds : List (DirMeta D)) :
    tombstoneLoop c.toLeveledCompactor ds = [] ∨
      ∃ dm ∈ ds, tombstoneLoop c.toLeveledCompactor ds = [dm.dir] ∧ 0 < dm.numTombstones := by
  induction ds with
  | nil => exact .inl rfl
  | cons dm ds ih =>
    rw [tombstoneLoop]
    split_ifs with hshort hall hmany
    · exact .inr ⟨dm, mem_cons_self, rfl, hall.1⟩
    · exact .inl rfl
    · refine .inr ⟨dm, mem_cons_self, rfl, ?_⟩
      by_contra hzero
      have : dm.numTombstones = 0 := by simpa using hzero
      rw [this, c.manyTombstones_zero] at hmany
      cases hmany
    · obtain hnil | ⟨d, hd, he⟩ := ih
      · exact .inl hnil
      · exact .inr ⟨d, mem_cons_of_mem _ hd, he⟩

/-- **What `plan` returns**: several blocks, or one with tombstones, or nothing, and then none
overlaps the ones before. -/
theorem plan_spec (c : OverlapCompactor) (hne : dms ≠ []) :
    ∃ p, plan c.toLeveledCompactor dms = .ok p ∧
      (p = [] ∧ selectOverlappingDirs c.toLeveledCompactor (c.byMinTime dms) = [] ∨
        p.Sublist ((c.byMinTime dms).map DirMeta.dir) ∧ 1 < p.length ∨
        ∃ dm ∈ dms, p = [dm.dir] ∧ 0 < dm.numTombstones) := by
  have hperm := c.byMinTime_perm dms
  have hne' := byMinTime_ne_nil (c := c.toLeveledCompactor) hne
  unfold plan
  dsimp only
  split_ifs with hover hsel
  · refine ⟨_, rfl, .inr (.inl ?_)⟩
    unfold selectOverlappingDirs at hover ⊢
    rw [if_pos c.overlapping] at hover ⊢
    cases hb : c.byMinTime dms with
    | nil => exact absurd hb hne'
    | cons d ds =>
      rw [hb] at hover
      exact (overlapLoop_several.2).resolve_left hover
  · refine ⟨_, rfl, .inr (.inl ?_)⟩
    have hsel' : selectDirs c.toLeveledCompactor (c.byMinTime dms).dropLast <:+:
          (c.byMinTime dms).dropLast ∧
        1 < (selectDirs c.toLeveledCompactor (c.byMinTime dms).dropLast).length := by
      unfold selectDirs at hsel ⊢
      split
      · rename_i hlast
        rw [hlast] at hsel
        exact absurd rfl hsel
      · rename_i last hlast
        rw [hlast] at hsel
        exact (selectLoop_several _).resolve_left hsel
    rw [length_map]
    exact ⟨(hsel'.1.sublist.trans (dropLast_sublist _)).map _, hsel'.2⟩
  · refine ⟨_, rfl, ?_⟩
    rcases tombstoneLoop_some (c := c) (c.byMinTime dms).dropLast.reverse with ht | ⟨dm, hdm, ht⟩
    · exact .inl ⟨ht, by simpa using hover⟩
    · refine .inr (.inr ⟨dm, ?_, ht⟩)
      exact hperm.mem_iff.1 ((dropLast_sublist _).subset (mem_reverse.1 hdm))

/-! ### Where it ends -/

theorem overlapLoop_eq_nil : ∀ {ds : List (DirMeta D)} {prev : DirMeta D} {maxt : I64},
    overlapLoop prev maxt false ds = [] →
      (∀ d ∈ ds, maxt.toInt ≤ d.minTime.toInt) ∧
        ds.Pairwise fun a b => a.maxTime.toInt ≤ b.minTime.toInt
  | [], _, _, _ => ⟨by simp, .nil⟩
  | d :: ds, prev, maxt, h => by
    rw [overlapLoop] at h
    simp only [reduceCtorEq, if_false] at h
    by_cases hlt : d.minTime.slt maxt = true
    · rw [if_pos hlt] at h
      simp at h
    · rw [if_neg hlt] at h
      obtain ⟨hle, hpair⟩ := overlapLoop_eq_nil h
      have hmax : maxt.toInt ≤ (if maxt.slt d.maxTime then d.maxTime else maxt).toInt ∧
          d.maxTime.toInt ≤ (if maxt.slt d.maxTime then d.maxTime else maxt).toInt := by
        rw [BitVec.slt_eq_decide]
        split_ifs with h <;> rw [decide_eq_true_iff] at h <;> omega
      rw [BitVec.slt_iff_toInt_lt, not_lt] at hlt
      exact ⟨forall_mem_cons.2 ⟨hlt, fun e he => hmax.1.trans (hle e he)⟩,
        pairwise_cons.2 ⟨fun e he => hmax.2.trans (hle e he), hpair⟩⟩

theorem apart_of_selectOverlappingDirs {c : OverlapCompactor}
    (h : selectOverlappingDirs c.toLeveledCompactor (c.byMinTime dms) = []) :
    dms.Pairwise fun a b => Apart a.toBlockMeta b.toBlockMeta := by
  refine ((c.byMinTime_perm dms).pairwise_iff fun h => Or.symm h).1 ?_
  unfold selectOverlappingDirs at h
  rw [if_pos c.overlapping] at h
  show (c.byMinTime dms).Pairwise _
  cases hb : c.byMinTime dms with
  | nil => exact .nil
  | cons d ds =>
    rw [hb] at h
    obtain ⟨hle, hpair⟩ := overlapLoop_eq_nil h
    exact pairwise_cons.2 ⟨fun e he => .inl (hle e he), hpair.imp .inl⟩

/-! ### Progress -/

section

variable [DecidableEq D] {c : OverlapCompactor} {new : NewDir D} {blocks blocks' : Blocks D}
  {dirs : List D}

/-- The number of blocks, and how many of them have tombstones. -/
def Blocks.measure (blocks : Blocks D) : ℕ ×ₗ ℕ :=
  toLex (blocks.metas.length, blocks.metas.countP fun dm => 0 < dm.numTombstones)

theorem length_remove (hsub : ∀ dir ∈ dirs, dir ∈ blocks.metas.map DirMeta.dir)
    (hnodup : dirs.Nodup) :
    (blocks.remove dirs).metas.length + dirs.length ≤ blocks.metas.length := by
  have hsplit := length_eq_length_filter_add (l := blocks.metas)
    fun dm : DirMeta D => decide (dm.dir ∉ dirs)
  have hge : dirs.length ≤
      (blocks.metas.filter fun dm => !decide (dm.dir ∉ dirs)).length := by
    rw [← length_map (f := DirMeta.dir)]
    refine (subperm_of_subset hnodup fun dir hdir => ?_).length_le
    obtain ⟨dm, hdm, rfl⟩ := mem_map.1 (hsub dir hdir)
    exact mem_map_of_mem (mem_filter.2 ⟨hdm, by simpa using hdir⟩)
  show (blocks.metas.filter _).length + _ ≤ _
  omega

theorem length_replace (m : BlockMeta) (n : U64) :
    (blocks.replace new dirs m n).metas.length = (blocks.remove dirs).metas.length + 1 := rfl

theorem countP_replace (m : BlockMeta) (n : U64) :
    (blocks.replace new dirs m n).metas.countP (fun dm => 0 < dm.numTombstones) =
      (blocks.remove dirs).metas.countP fun dm => 0 < dm.numTombstones :=
  countP_cons_of_neg (by simp)

theorem countP_remove {dm : DirMeta D} (hdm : dm ∈ blocks.metas) (hpos : 0 < dm.numTombstones) :
    (blocks.remove [dm.dir]).metas.countP (fun dm => 0 < dm.numTombstones) <
      blocks.metas.countP fun dm => 0 < dm.numTombstones := by
  obtain ⟨s, t, hst⟩ := append_of_mem hdm
  have hs := (filter_sublist (p := fun d : DirMeta D => decide (d.dir ∉ [dm.dir]))
    (l := s)).countP_le (p := fun dm => decide (0 < dm.numTombstones))
  have ht := (filter_sublist (p := fun d : DirMeta D => decide (d.dir ∉ [dm.dir]))
    (l := t)).countP_le (p := fun dm => decide (0 < dm.numTombstones))
  simp only [Blocks.remove, hst, filter_append, countP_append]
  rw [filter_cons_of_neg (by simp), countP_cons_of_pos (by simpa using hpos)]
  omega

/-- **What is planned can be compacted**, and then the blocks are closer to the end. -/
theorem measure_lt (c : OverlapCompactor) (new : NewDir D)
    (hplan : dirs.Sublist ((c.byMinTime blocks.metas).map DirMeta.dir) ∧ 1 < dirs.length ∨
      ∃ dm ∈ blocks.metas, dirs = [dm.dir] ∧ 0 < dm.numTombstones) :
    (blocks.remove dirs).measure < blocks.measure ∧
      ∀ m n, (blocks.replace new dirs m n).measure < blocks.measure := by
  have hperm := c.byMinTime_perm blocks.metas
  have hdirs : (∀ dir ∈ dirs, dir ∈ blocks.metas.map DirMeta.dir) ∧ dirs.Nodup := by
    rcases hplan with ⟨hsub, -⟩ | ⟨dm, hdm, rfl, -⟩
    · exact ⟨fun dir h => (hperm.map _).mem_iff.1 (hsub.subset h),
        ((hperm.map DirMeta.dir).nodup_iff.2 blocks.nodup).sublist hsub⟩
    · exact ⟨by simpa using ⟨dm, hdm, rfl⟩, nodup_singleton _⟩
  have hlen := length_remove hdirs.1 hdirs.2
  have hne : 0 < dirs.length := by
    rcases hplan with ⟨-, hlen⟩ | ⟨dm, -, rfl, -⟩
    · omega
    · simp
  refine ⟨Prod.Lex.toLex_lt_toLex.2 (.inl (by omega)), fun m n => Prod.Lex.toLex_lt_toLex.2 ?_⟩
  rw [length_replace, countP_replace]
  rcases hplan with ⟨-, hlen⟩ | ⟨dm, hdm, rfl, hpos⟩
  · exact .inl (by dsimp only; omega)
  · rcases lt_or_eq_of_le (show (blocks.remove [dm.dir]).metas.length + 1 ≤ blocks.metas.length
      from hlen) with hlt | heq
    · exact .inl hlt
    · exact .inr ⟨heq, countP_remove hdm hpos⟩

theorem exists_compactBlockMetas (uid : ULID) {dir : D} (hdir : dir ∈ dirs)
    (hmem : dir ∈ blocks.metas.map DirMeta.dir) :
    ∃ m, compactBlockMetas uid (blocks.planned dirs) = .ok m := by
  obtain ⟨dm, hdm, rfl⟩ := mem_map.1 hmem
  have hfound : ∃ b, b ∈ blocks.planned dirs := by
    have hsome : (blocks.metas.find? fun d => d.dir = dm.dir).isSome :=
      find?_isSome.2 ⟨dm, hdm, by simp⟩
    obtain ⟨d, hd⟩ := Option.isSome_iff_exists.1 hsome
    exact ⟨d.toBlockMeta, mem_filterMap.2 ⟨dm.dir, hdir, by rw [hd, Option.map_some]⟩⟩
  cases hp : blocks.planned dirs with
  | nil =>
    obtain ⟨b, hb⟩ := hfound
    rw [hp] at hb
    cases hb
  | cons b bs => exact ⟨_, rfl⟩

/-- **A turn** is the last one, and no two blocks overlap, or it brings the blocks closer to the
end. -/
theorem compactOnce_spec (c : OverlapCompactor) (new : NewDir D) (written : Option Written)
    (blocks : Blocks D) :
    ∃ blocks', compactOnce c.toLeveledCompactor new written blocks = .ok blocks' ∧
      (planAll c.toLeveledCompactor blocks = .ok [] ∧
          blocks.metas.Pairwise (fun a b => Apart a.toBlockMeta b.toBlockMeta) ∨
        blocks'.measure < blocks.measure) := by
  unfold compactOnce planAll
  by_cases hnil : blocks.metas = []
  · rw [if_pos hnil]
    exact ⟨blocks, rfl, .inl ⟨rfl, by rw [hnil]; exact .nil⟩⟩
  · rw [if_neg hnil]
    obtain ⟨p, hp, ⟨rfl, hover⟩ | hplan⟩ := plan_spec c hnil
    · exact ⟨blocks, by rw [hp]; rfl, .inl ⟨hp, apart_of_selectOverlappingDirs hover⟩⟩
    · have hlt := measure_lt c new hplan
      have hperm := c.byMinTime_perm blocks.metas
      obtain ⟨dir, hdir, hmem⟩ : ∃ dir ∈ p, dir ∈ blocks.metas.map DirMeta.dir := by
        rcases hplan with ⟨hsub, hlen⟩ | ⟨dm, hdm, rfl, -⟩
        · obtain ⟨dir, hdir⟩ := exists_mem_of_length_pos (by omega : 0 < p.length)
          exact ⟨dir, hdir, (hperm.map _).mem_iff.1 (hsub.subset hdir)⟩
        · exact ⟨dm.dir, by simp, mem_map_of_mem hdm⟩
      rw [hp]
      show ∃ b, (if p = [] then _ else _) = Except.ok b ∧ _
      rw [if_neg (ne_nil_of_mem hdir)]
      cases written with
      | none => exact ⟨_, rfl, .inr hlt.1⟩
      | some w =>
        obtain ⟨m, hm⟩ := exists_compactBlockMetas w.uid hdir hmem
        refine ⟨blocks.replace new p m w.numSeries, ?_, .inr (hlt.2 m _)⟩
        dsimp only
        rw [hm]
        rfl

end

/-- **Compaction converges**: whatever it writes, after some turns nothing is planned, and no two
blocks overlap. -/
theorem compaction_converges [DecidableEq D] (c : OverlapCompactor) (new : NewDir D)
    (written : ℕ → Option Written) (blocks : Blocks D) :
    ∃ n blocks', compactTurns c.toLeveledCompactor new written blocks n = .ok blocks' ∧
      planAll c.toLeveledCompactor blocks' = .ok [] ∧
      blocks'.metas.Pairwise fun a b => Apart a.toBlockMeta b.toBlockMeta := by
  have hok : ∀ n, ∃ b, compactTurns c.toLeveledCompactor new written blocks n = .ok b := by
    intro n
    induction n with
    | zero => exact ⟨blocks, rfl⟩
    | succ n ih =>
      obtain ⟨b, hb⟩ := ih
      obtain ⟨b', hb', -⟩ := compactOnce_spec c new (written n) b
      exact ⟨b', by rw [compactTurns, hb]; exact hb'⟩
  choose after hafter using hok
  obtain ⟨n, hn⟩ := WellFounded.not_rel_apply_succ (r := (· < ·)) fun n => (after n).measure
  obtain ⟨b', hb', hlast⟩ := compactOnce_spec c new (written n) (after n)
  have hnext : after (n + 1) = b' := by
    have := hafter (n + 1)
    rw [compactTurns, hafter n] at this
    exact Except.ok.inj (this.symm.trans hb')
  rcases hlast with hlast | hlt
  · exact ⟨n, after n, hafter n, hlast⟩
  · exact absurd (hnext ▸ hlt) hn

/-- Directories with numbers for names. -/
def numbered : NewDir ℕ :=
  ⟨fun ds => ds.sum + 1, fun ds h => by
    have := le_sum_of_mem h
    omega⟩

def overlapping : OverlapCompactor :=
  ⟨compactor 10 [40], by simp [compactor], rfl, fun _ => rfl⟩

/-- Two of the blocks overlap, and of the block before the newest one everything was deleted. -/
example : ((compactTurns overlapping.toLeveledCompactor numbered
      (fun n => if n = 0 then some ⟨7, 3⟩ else none)
      ⟨[block 3 50 60, block 1 0 20, { block 4 45 50 with numTombstones := 1 }, block 2 10 30],
        by decide⟩ 2).toOption.map fun b =>
        b.metas.map fun dm => (dm.dir, dm.minTime, dm.maxTime)) =
    some [(11, 0, 30), (3, 50, 60)] := by
  decide +kernel

end TopcDB.Tsdb.CompactConverges
