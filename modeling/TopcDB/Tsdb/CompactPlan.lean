import TopcDB.Tsdb.CompactLevel

/-! # Plans of the compactor (`LeveledCompactor.plan`)

Blocks are grouped by aligned ranges of time, and the first group that is ready is compacted into
one block. For blocks that do not overlap the plan is a run of neighbours without the newest one, so
that the compacted block overlaps none of the others, and it fits into one aligned range
(`plan_sane`). The beginning of a range is computed with 64 bits: for blocks that begin less than
one range after the least time it comes out wrong, and groups may then have any length. This does no
harm to a plan that was found with a smaller range.

What the model leaves open is the comparison of two floats that tells a block with many
tombstones, and in which order blocks with the same first time are sorted. -/

namespace TopcDB.Tsdb.CompactPlan

open Int List Relation Lib.Sort Go.Basic CompactLevel
open Storage.Merge (minInt64)
open Storage.Series (maxInt64)

variable {D : Type}

/-! ### The source -/

/-- A directory with the meta of its block, which also says whether its compaction failed and counts
its tombstones and series. -/
structure DirMeta (D : Type) extends BlockMeta where
  dir : D
  failed : Bool
  numTombstones : U64
  numSeries : U64
  deriving DecidableEq

/-- `NewLeveledCompactor` refuses an empty list of ranges. -/
structure LeveledCompactor where
  ranges : List I64
  ranges_ne : ranges ≠ []
  enableOverlappingCompaction : Bool
  /-- `float64(NumTombstones)/float64(NumSeries+1) > 0.05` -/
  manyTombstones : U64 → U64 → Bool
  /-- The `slices.SortFunc` of `plan`, which is not stable. -/
  byMinTime {D : Type} : List (DirMeta D) → List (DirMeta D)
  byMinTime_perm {D : Type} (ds : List (DirMeta D)) : (byMinTime ds).Perm ds
  byMinTime_sorted {D : Type} (ds : List (DirMeta D)) :
    (byMinTime ds).Pairwise fun a b => a.minTime.toInt ≤ b.minTime.toInt

/-- The start of the aligned range of size `tr` for a block that begins at `mint`. -/
def rangeStart (mint tr : I64) : I64 :=
  if (0 : I64).sle mint then tr * mint.sdiv tr else tr * (mint - tr + 1).sdiv tr

/-- The loop of `splitByRange`, of at most `k` turns: a block that does not fit is skipped, else all
that end in its range are a group. -/
def splitLoop (tr : I64) : ℕ → List (DirMeta D) → List (List (DirMeta D))
  | 0, _ => []
  | _, [] => []
  | k + 1, dm :: ds =>
    let t0 := rangeStart dm.minTime tr
    let fits := fun d : DirMeta D => !(t0 + tr).slt d.maxTime
    if fits dm then
      ((dm :: ds).takeWhile fits) :: splitLoop tr k ((dm :: ds).dropWhile fits)
    else splitLoop tr k ds

/-- `splitByRange`. Every turn takes at least one block. -/
def splitByRange (ds : List (DirMeta D)) (tr : I64) : List (List (DirMeta D)) :=
  splitLoop tr ds.length ds

/-- Whether a group is picked: no compaction failed, and it has several blocks which span the range
or lie before the most recent block. -/
def picked (highTime iv : I64) (p : List (DirMeta D)) : Bool :=
  !(p.any fun dm => dm.failed) &&
    match p.head?, p.getLast? with
    | some first, some last =>
      (last.maxTime - first.minTime == iv || last.maxTime.sle highTime) &&
        1 < p.length
    | _, _ => false

/-- The loop of `selectDirs` over the ranges. -/
def selectLoop (ds : List (DirMeta D)) (highTime : I64) : List I64 → List (DirMeta D)
  | [] => []
  | iv :: ivs =>
    match (splitByRange ds iv).find? (picked highTime iv) with
    | some p => p
    | none => selectLoop ds highTime ivs

def selectDirs (c : LeveledCompactor) (ds : List (DirMeta D)) : List (DirMeta D) :=
  match ds.getLast? with
  | none => []
  | some last => selectLoop ds last.minTime c.ranges.tail

/-- The loop of `selectOverlappingDirs`, after the block `prev`; `found` says that the first overlap
was seen. -/
def overlapLoop (prev : DirMeta D) (globalMaxt : I64) (found : Bool) :
    List (DirMeta D) → List D
  | [] => []
  | d :: ds =>
    let globalMaxt' := if globalMaxt.slt d.maxTime then d.maxTime else globalMaxt
    if d.minTime.slt globalMaxt then
      (if found then [] else [prev.dir]) ++ d.dir :: overlapLoop d globalMaxt' true ds
    else if found then []
    else overlapLoop d globalMaxt' false ds

def selectOverlappingDirs (c : LeveledCompactor) (ds : List (DirMeta D)) : List D :=
  if c.enableOverlappingCompaction then
    match ds with
    | [] => []
    | d :: ds => overlapLoop d d.maxTime false ds
  else []

/-- The loop of `plan` over the blocks, the most recent first, for one with many tombstones. -/
def tombstoneLoop (c : LeveledCompactor) : List (DirMeta D) → List D
  | [] => []
  | dm :: ds =>
    if (dm.maxTime - dm.minTime).slt (c.ranges.getD (c.ranges.length / 2) 0) then
      if 0 < dm.numTombstones ∧ dm.numSeries ≤ dm.numTombstones then [dm.dir] else []
    else if c.manyTombstones dm.numTombstones dm.numSeries then [dm.dir]
    else tombstoneLoop c ds

/-- **`plan`.** Without a block there is none to leave out. -/
def plan (c : LeveledCompactor) (dms : List (DirMeta D)) : Except Fault (List D) :=
  let dms := c.byMinTime dms
  if selectOverlappingDirs c dms ≠ [] then .ok (selectOverlappingDirs c dms)
  else if dms = [] then .error .panic
  else if selectDirs c dms.dropLast ≠ [] then .ok ((selectDirs c dms.dropLast).map DirMeta.dir)
  else .ok (tombstoneLoop c dms.dropLast.reverse)

/-! ### Aligned ranges -/

variable {mint maxt tr : I64}

/-- The division that rounds towards zero, as the source uses it for negative times. -/
theorem tdiv_of_neg {m w : ℤ} (hm : m < 0) (hw : 0 < w) : (m - w + 1).tdiv w = m / w := by
  have hneg : m - w + 1 = -(w - 1 - m) := by ring
  have hmod := emod_add_mul_ediv m w
  have hlo := emod_nonneg m hw.ne'
  have hhi := emod_lt_of_pos m hw
  rw [hneg, Int.neg_tdiv, Int.tdiv_eq_ediv_of_nonneg (by omega), neg_eq_iff_eq_neg]
  have hsplit : w - 1 - m = (w - 1 - m % w) + -(m / w) * w := by linarith
  rw [hsplit, add_mul_ediv_right _ _ hw.ne', ediv_eq_zero_of_lt (by omega) (by omega),
    zero_add]

/-- The block begins less than one range after the least time. -/
def Underflows (mint tr : I64) : Prop := mint.toInt - tr.toInt + 1 < -2 ^ 63

instance (mint tr : I64) : Decidable (Underflows mint tr) := inferInstanceAs (Decidable (_ < _))

/-- **The start of the range** is the multiple of its size below the block. -/
theorem toInt_rangeStart (htr : 0 < tr.toInt) (hu : ¬ Underflows mint tr) :
    (rangeStart mint tr).toInt = tr.toInt * (mint.toInt / tr.toInt) := by
  have hhi := BitVec.toInt_lt (x := mint)
  unfold rangeStart
  rw [BitVec.sle_eq_decide, show (0 : I64).toInt = 0 from rfl]
  split_ifs with h0 <;> rw [decide_eq_true_iff] at h0 <;> rw [toInt_mul_sdiv htr]
  · rw [Int.tdiv_eq_ediv_of_nonneg h0]
  · have hx : (mint - tr + 1).toInt = mint.toInt - tr.toInt + 1 := by
      unfold Underflows at hu
      rw [BitVec.toInt_add, BitVec.toInt_sub, show (1 : I64).toInt = 1 from rfl,
        bmod_add_bmod]
      exact bmod_eq_of_le (by omega) (by omega)
    rw [hx, tdiv_of_neg (by omega) htr]

/-! ### Groups -/

variable (ds : List (DirMeta D))

/-- Blocks in the order of time, none of which is empty. -/
structure Ordered : Prop where
  apart : ds.Pairwise fun a b => a.maxTime.toInt ≤ b.minTime.toInt
  lasting : ∀ dm ∈ ds, dm.minTime.toInt < dm.maxTime.toInt

/-- The blocks lie in one aligned range of the given size. -/
def Aligned (iv : I64) : Prop :=
  ∃ k : ℤ, ∀ dm ∈ ds, iv.toInt * k ≤ dm.minTime.toInt ∧ dm.maxTime.toInt ≤ iv.toInt * k + iv.toInt

/-- The block lies in the aligned range with the number `k`. -/
def Within (tr : I64) (k : ℤ) (dm : DirMeta D) : Prop :=
  tr.toInt * k ≤ dm.minTime.toInt ∧ dm.maxTime.toInt ≤ tr.toInt * k + tr.toInt

instance (tr : I64) (k : ℤ) (dm : DirMeta D) : Decidable (Within tr k dm) :=
  inferInstanceAs (Decidable (_ ∧ _))

/-- The aligned range of a block can be computed, and ends at a time. -/
def Bounded (tr : I64) (dm : DirMeta D) : Prop :=
  ¬ Underflows dm.minTime tr ∧ tr.toInt * (dm.minTime.toInt / tr.toInt) + tr.toInt < 2 ^ 63

/-- A group of the given size is ready to be compacted. -/
def Ready (highTime iv : I64) : Prop :=
  ∃ k : ℤ, iv.toInt * k + iv.toInt < 2 ^ 63 ∧
    picked highTime iv (ds.filter fun dm => Within iv k dm) = true

/-- No block begins less than one range after the least time, for all ranges up to the first one of
which a group is ready. -/
def Clear (highTime : I64) : List I64 → Prop
  | [] => True
  | iv :: ivs =>
    (∀ dm ∈ ds, ¬ Underflows dm.minTime iv) ∧ (Ready ds highTime iv ∨ Clear highTime ivs)

variable {ds p : List (DirMeta D)} {tr : I64}

theorem Ordered.of_infix (h : Ordered ds) (hp : p <:+: ds) : Ordered p :=
  ⟨h.apart.sublist hp.sublist, fun dm hdm => h.lasting dm (hp.subset hdm)⟩

section ranges

variable {dm : DirMeta D}

theorem toInt_rangeEnd (htr : 0 < tr.toInt) (hb : Bounded tr dm) :
    (rangeStart dm.minTime tr + tr).toInt =
      tr.toInt * (dm.minTime.toInt / tr.toInt) + tr.toInt := by
  have hmod := emod_add_mul_ediv dm.minTime.toInt tr.toInt
  have hrem := emod_lt_of_pos dm.minTime.toInt htr
  have hlo := BitVec.le_toInt dm.minTime
  rw [BitVec.toInt_add, toInt_rangeStart htr hb.1]
  exact bmod_eq_of_le (by omega) (by have := hb.2; omega)

/-- A wrapped end lies before all blocks, so that none of them fits. -/
theorem bounded_of_fits (htr : 0 < tr.toInt) (hu : ¬ Underflows dm.minTime tr)
    (hlt : dm.minTime.toInt < dm.maxTime.toInt)
    (hfits : (rangeStart dm.minTime tr + tr).slt dm.maxTime = false) : Bounded tr dm := by
  refine ⟨hu, not_le.1 fun hwrap => ?_⟩
  have hhi := BitVec.toInt_lt (x := tr)
  have hmod := emod_add_mul_ediv dm.minTime.toInt tr.toInt
  have hrem := emod_nonneg dm.minTime.toInt htr.ne'
  have hmint := BitVec.toInt_lt (x := dm.minTime)
  rw [slt_eq_false, BitVec.toInt_add, toInt_rangeStart htr hu] at hfits
  -- the block begins at 0 or later, and the wrapped end is negative
  have hneg : (tr.toInt * (dm.minTime.toInt / tr.toInt) + tr.toInt).bmod (2 ^ 64) < 0 := by
    rw [bmod_def]
    split_ifs <;> omega
  omega

theorem Within.ediv {k : ℤ} (htr : 0 < tr.toInt) (hlt : dm.minTime.toInt < dm.maxTime.toInt)
    (h : Within tr k dm) : dm.minTime.toInt / tr.toInt = k := by
  refine le_antisymm (Int.le_of_lt_add_one (Int.ediv_lt_of_lt_mul htr ?_))
    (Int.le_ediv_of_mul_le htr (mul_comm k _ ▸ h.1))
  have := h.2
  rw [add_mul, one_mul, mul_comm k]
  omega

/-- The blocks that end in the range of the first one lie in that range. -/
theorem Ordered.within (h : Ordered (dm :: ds)) (htr : 0 < tr.toInt) :
    ∀ d ∈ dm :: ds, d.maxTime.toInt ≤ tr.toInt * (dm.minTime.toInt / tr.toInt) + tr.toInt →
      Within tr (dm.minTime.toInt / tr.toInt) d := by
  have hmod := emod_add_mul_ediv dm.minTime.toInt tr.toInt
  have hrem := emod_nonneg dm.minTime.toInt htr.ne'
  have hlast := h.lasting dm mem_cons_self
  refine fun d hd hmax => ⟨?_, hmax⟩
  rcases mem_cons.1 hd with rfl | hd
  · omega
  · have := (pairwise_cons.1 h.apart).1 d hd
    omega

/-- The blocks behind a group end after its range. -/
theorem Ordered.lt_of_mem_dropWhile (h : Ordered ds) {e : ℤ} {f : DirMeta D → Bool}
    (hf : ∀ d, f d = true ↔ d.maxTime.toInt ≤ e) : ∀ d ∈ ds.dropWhile f, e < d.maxTime.toInt := by
  have hord := h.of_infix (dropWhile_suffix (l := ds) f).isInfix
  rcases hd : ds.dropWhile f with _ | ⟨x, xs⟩
  · simp
  · have hx : ¬ f x = true := by
      have := head_dropWhile_not f (l := ds) (by simp [hd])
      simpa [hd] using this
    rw [hd] at hord
    rw [hf, not_le] at hx
    refine forall_mem_cons.2 ⟨hx, fun d hd => ?_⟩
    have := (pairwise_cons.1 hord.apart).1 d hd
    have := hord.lasting d (mem_cons_of_mem _ hd)
    omega

end ranges

/-- What the loop does with blocks in order: those of one range are a group, and a block is left out
that lies in no range, or in one whose end is not a time. -/
inductive Splits (tr : I64) : List (DirMeta D) → List (List (DirMeta D)) → Prop
  | nil : Splits tr [] []
  | group {g rest : List (DirMeta D)} {gs : List (List (DirMeta D))} {k : ℤ} (hne : g ≠ [])
      (hin : ∀ d ∈ g, Within tr k d) (hrest : ∀ d ∈ rest, ¬ Within tr k d) (h : Splits tr rest gs) :
      Splits tr (g ++ rest) (g :: gs)
  | skip {dm : DirMeta D} {ds : List (DirMeta D)} {gs : List (List (DirMeta D))}
      (hout : ∀ k, tr.toInt * k + tr.toInt < 2 ^ 63 → ¬ Within tr k dm) (h : Splits tr ds gs) :
      Splits tr (dm :: ds) gs

theorem splits_splitLoop (htr : 0 < tr.toInt) : ∀ {n : ℕ} {ds : List (DirMeta D)}, ds.length ≤ n →
    Ordered ds → (∀ dm ∈ ds, ¬ Underflows dm.minTime tr) → Splits tr ds (splitLoop tr n ds)
  | 0, [], _, _, _ | _ + 1, [], _, _, _ => .nil
  | n + 1, dm :: ds, hn, h, hu => by
    have hlast := h.lasting dm mem_cons_self
    have hrec : ∀ {ds' : List (DirMeta D)}, ds' <:+ ds → Splits tr ds' (splitLoop tr n ds') :=
      fun hsuf => splits_splitLoop htr (hsuf.length_le.trans (Nat.le_of_succ_le_succ hn))
        (h.of_infix (hsuf.trans (suffix_cons _ _)).isInfix)
        fun d hd => hu d (mem_cons_of_mem _ (hsuf.subset hd))
    rw [splitLoop]
    dsimp only
    split_ifs with hfits
    · set f : DirMeta D → Bool := fun d => !(rangeStart dm.minTime tr + tr).slt d.maxTime
      have hdm : f dm = true := hfits
      have hb := bounded_of_fits htr (hu dm mem_cons_self) hlast (by simpa using hfits)
      have hf : ∀ d, f d = true ↔
          d.maxTime.toInt ≤ tr.toInt * (dm.minTime.toInt / tr.toInt) + tr.toInt := fun d => by
        rw [Bool.not_eq_true', slt_eq_false, toInt_rangeEnd htr hb]
      have hgroup : Splits tr ((dm :: ds).takeWhile f ++ (dm :: ds).dropWhile f)
          ((dm :: ds).takeWhile f :: splitLoop tr n ((dm :: ds).dropWhile f)) := by
        refine .group (k := dm.minTime.toInt / tr.toInt) ?_ (fun d hd => ?_) (fun d hd hw => ?_)
          (hrec ?_)
        · rw [takeWhile_cons_of_pos hdm]
          exact cons_ne_nil _ _
        · exact h.within htr d ((List.takeWhile_prefix f).subset hd)
            ((hf d).1 (all_eq_true.1 all_takeWhile d hd))
        · exact absurd hw.2 (not_le.2 (h.lt_of_mem_dropWhile hf d hd))
        · rw [dropWhile_cons_of_pos hdm]
          exact dropWhile_suffix f
      rwa [takeWhile_append_dropWhile] at hgroup
    · refine .skip (fun k hk hw => hfits ?_) (hrec (suffix_refl ds))
      -- the range is that of the block
      have hdiv := hw.ediv htr hlast
      have hb : Bounded tr dm := ⟨hu dm mem_cons_self, by rw [hdiv]; exact hk⟩
      rw [Bool.not_eq_true', slt_eq_false, toInt_rangeEnd htr hb, hdiv]
      exact hw.2

variable {gs : List (List (DirMeta D))}

/-- **Every group** is a run of neighbours in one aligned range. -/
theorem Splits.mem (h : Splits tr ds gs) : ∀ g ∈ gs, g ≠ [] ∧ g <:+: ds ∧ Aligned g tr := by
  induction h with
  | nil => simp
  | group hne hin _ _ ih =>
    refine forall_mem_cons.2 ⟨⟨hne, (prefix_append _ _).isInfix, _, hin⟩, fun g hg => ?_⟩
    exact (ih g hg).imp_right (.imp_left fun hinf => hinf.trans (suffix_append _ _).isInfix)
  | skip _ _ ih =>
    exact fun g hg => (ih g hg).imp_right (.imp_left fun hinf =>
      hinf.trans (suffix_cons _ _).isInfix)

/-- **The blocks of a range** are one of the groups. -/
theorem Splits.filter_mem (h : Splits tr ds gs) (htr : 0 < tr.toInt) {k : ℤ}
    (hk : tr.toInt * k + tr.toInt < 2 ^ 63)
    (hlast : ∀ d ∈ ds, d.minTime.toInt < d.maxTime.toInt)
    (hne : (ds.filter fun d => Within tr k d) ≠ []) : (ds.filter fun d => Within tr k d) ∈ gs := by
  induction h with
  | nil => exact absurd rfl hne
  | @group g rest gs k' _ hin hrest _ ih =>
    rw [forall_mem_append] at hlast
    rw [filter_append] at hne ⊢
    by_cases he : k' = k
    · subst he
      rw [filter_eq_self.2 fun d hd => decide_eq_true (hin d hd),
        filter_eq_nil_iff.2 fun d hd hw => hrest d hd (of_decide_eq_true hw), append_nil]
      exact mem_cons_self
    · -- no block lies in two ranges
      have hnone : g.filter (fun d => Within tr k d) = [] :=
        filter_eq_nil_iff.2 fun d hd hw => he <| by
        rw [← (hin d hd).ediv htr (hlast.1 d hd), (of_decide_eq_true hw).ediv htr (hlast.1 d hd)]
      rw [hnone, nil_append] at hne ⊢
      exact mem_cons_of_mem _ (ih hlast.2 hne)
  | skip hout _ ih =>
    rw [filter_cons_of_neg (by simpa using hout k hk)] at hne ⊢
    exact ih (forall_mem_cons.1 hlast).2 hne

/-- A group is picked of a range for which one is ready. -/
theorem selectLoop_spec {highTime : I64} (h : Ordered ds) : ∀ {ivs : List I64},
    (∀ iv ∈ ivs, 0 < iv.toInt) → Clear ds highTime ivs →
    selectLoop ds highTime ivs = [] ∨ selectLoop ds highTime ivs <:+: ds ∧
      ∃ iv ∈ ivs, Aligned (selectLoop ds highTime ivs) iv
  | [], _, _ => .inl rfl
  | iv :: ivs, hpos, hclear => by
    have hiv := hpos iv mem_cons_self
    rw [selectLoop]
    cases hfind : (splitByRange ds iv).find? (picked highTime iv) with
    | some p =>
      obtain ⟨-, hin, hal⟩ := (splits_splitLoop hiv le_rfl h hclear.1).mem p
        (mem_of_find?_eq_some hfind)
      exact .inr ⟨hin, iv, mem_cons_self, hal⟩
    | none =>
      have hnot : ¬ Ready ds highTime iv := by
        rintro ⟨k, hk, hp⟩
        have hne : (ds.filter fun d => Within iv k d) ≠ [] := fun hnil => by
          rw [hnil] at hp
          cases hp
        exact find?_eq_none.1 hfind _
          ((splits_splitLoop hiv le_rfl h hclear.1).filter_mem hiv hk h.lasting hne) hp
      exact (selectLoop_spec h (fun iv hiv => hpos iv (mem_cons_of_mem _ hiv))
        (hclear.2.resolve_left hnot)).imp id fun ⟨hin, iv', hiv', hal⟩ =>
          ⟨hin, iv', mem_cons_of_mem _ hiv', hal⟩

theorem selectDirs_spec (c : LeveledCompactor) (hpos : ∀ iv ∈ c.ranges, 0 < iv.toInt)
    (h : Ordered ds) (hclear : ∀ last ∈ ds.getLast?, Clear ds last.minTime c.ranges.tail) :
    selectDirs c ds = [] ∨
      selectDirs c ds <:+: ds ∧ ∃ iv ∈ c.ranges, Aligned (selectDirs c ds) iv := by
  unfold selectDirs
  cases hlast : ds.getLast? with
  | none => exact .inl rfl
  | some last =>
    exact (selectLoop_spec h (fun iv hiv => hpos iv (mem_of_mem_tail hiv)) (hclear last hlast)).imp
      id fun ⟨hin, iv, hiv, hal⟩ => ⟨hin, iv, mem_of_mem_tail hiv, hal⟩

/-! ### Overlaps and tombstones -/

/-- Half-open ranges that do not overlap. -/
def Apart (a b : BlockMeta) : Prop :=
  a.maxTime.toInt ≤ b.minTime.toInt ∨ b.maxTime.toInt ≤ a.minTime.toInt

/-- Blocks sorted by their first times, none of which is empty. -/
structure Sorted (ds : List (DirMeta D)) : Prop where
  sorted : ds.Pairwise fun a b => a.minTime.toInt ≤ b.minTime.toInt
  lasting : ∀ dm ∈ ds, dm.minTime.toInt < dm.maxTime.toInt

/-- The half-open ranges intersect. -/
def Overlaps (a b : DirMeta D) : Prop := ¬ Apart a.toBlockMeta b.toBlockMeta

/-- All blocks are linked by overlaps among them. -/
def Connected (comp : List (DirMeta D)) : Prop :=
  ∀ a ∈ comp, ∀ b ∈ comp, EqvGen (fun x y => x ∈ comp ∧ y ∈ comp ∧ Overlaps x y) a b

/-- `comp` is the first connected component of the overlap graph with several blocks. -/
structure FirstComponent (before comp after : List (DirMeta D)) : Prop where
  several : 2 ≤ comp.length
  connected : Connected comp
  closed : ∀ a ∈ comp, ∀ b ∈ after, ¬ Overlaps a b
  alone : before.Pairwise fun a b => ¬ Overlaps a b
  alone_of : ∀ a ∈ before, ∀ b ∈ comp ++ after, ¬ Overlaps a b

variable {acc : List (DirMeta D)} {prev m d : DirMeta D}

theorem Connected.concat (h : Connected acc) (hm : m ∈ acc) (ho : Overlaps m d) :
    Connected (acc ++ [d]) := by
  have hroot : ∀ x ∈ acc ++ [d], EqvGen
      (fun x y => x ∈ acc ++ [d] ∧ y ∈ acc ++ [d] ∧ Overlaps x y) m x := by
    intro x hx
    rcases mem_append.1 hx with hx | hx
    · exact EqvGen.mono (fun _ _ ⟨hx, hy, ho⟩ => ⟨mem_append_left _ hx, mem_append_left _ hy, ho⟩)
        _ _ (h m hm x hx)
    · rw [mem_singleton.1 hx]
      exact .rel _ _ ⟨mem_append_left _ hm, mem_append_right _ mem_cons_self, ho⟩
  intro a ha b hb
  exact .trans _ _ _ (.symm _ _ (hroot a ha)) (hroot b hb)

/-- The new `globalMaxt` is the end of a block that was seen. -/
theorem exists_last (m d : DirMeta D) (acc : List (DirMeta D)) (hm : m ∈ acc)
    (hmax : ∀ a ∈ acc, a.maxTime.toInt ≤ m.maxTime.toInt) : ∃ m' ∈ acc ++ [d],
      (if decide (m.maxTime.toInt < d.maxTime.toInt) then d.maxTime else m.maxTime) = m'.maxTime ∧
      ∀ a ∈ acc ++ [d], a.maxTime.toInt ≤ m'.maxTime.toInt := by
  by_cases hb : m.maxTime.toInt < d.maxTime.toInt
  · refine ⟨d, by simp, by simp [hb], forall_mem_append.2 ⟨fun a ha => ?_, by simp⟩⟩
    exact (hmax a ha).trans hb.le
  · exact ⟨m, by simp [hm], by simp [hb], forall_mem_append.2 ⟨hmax, by simpa using hb⟩⟩

/-- Once there is an overlap: `m` is the block of the component so far that ends last. -/
theorem overlapLoop_found : ∀ {ds acc : List (DirMeta D)} (prev : DirMeta D) {m : DirMeta D},
    Sorted (acc ++ ds) → Connected acc → m ∈ acc → (∀ a ∈ acc, a.maxTime.toInt ≤ m.maxTime.toInt) →
    ∃ pre post, ds = pre ++ post ∧ overlapLoop prev m.maxTime true ds = pre.map DirMeta.dir ∧
      Connected (acc ++ pre) ∧ ∀ a ∈ acc ++ pre, ∀ b ∈ post, a.maxTime.toInt ≤ b.minTime.toInt
  | [], acc, prev, m, _, hc, _, _ => ⟨[], [], rfl, rfl, by rwa [append_nil], by simp⟩
  | d :: ds, acc, prev, m, h, hc, hm, hmax => by
    have hle := (pairwise_append.1 h.sorted).2.2
    rw [overlapLoop, BitVec.slt_eq_decide, BitVec.slt_eq_decide]
    by_cases hlt : d.minTime.toInt < m.maxTime.toInt
    · have hd := h.lasting d (by simp)
      have ho : Overlaps m d := by
        have := hle m hm d mem_cons_self
        unfold Overlaps Apart
        omega
      obtain ⟨m', hm', heq, hmax'⟩ := exists_last m d acc hm hmax
      obtain ⟨pre, post, rfl, hrun, hc', hpost⟩ := overlapLoop_found d
        (by simpa using h) (hc.concat hm ho) hm' hmax'
      refine ⟨d :: pre, post, rfl, ?_, by simpa using hc', by simpa using hpost⟩
      rw [if_pos (decide_eq_true hlt), if_pos rfl, heq, hrun]
      rfl
    · refine ⟨[], d :: ds, rfl, by simp [hlt], by rwa [append_nil], fun a ha b hb => ?_⟩
      rw [append_nil] at ha
      have hdb : d.minTime.toInt ≤ b.minTime.toInt := by
        rcases mem_cons.1 hb with rfl | hb
        · exact le_rfl
        · exact (pairwise_cons.1 (pairwise_append.1 h.sorted).2.1).1 b hb
      have := hmax a ha
      omega

/-- Before the first overlap the block before ends last. -/
theorem overlapLoop_spec : ∀ {ds : List (DirMeta D)} {prev : DirMeta D}, Sorted (prev :: ds) →
    (overlapLoop prev prev.maxTime false ds = [] ∧ Ordered (prev :: ds)) ∨
    ¬ (prev :: ds).Pairwise (fun a b => ¬ Overlaps a b) ∧
    ∃ before comp after, prev :: ds = before ++ (comp ++ after) ∧
      overlapLoop prev prev.maxTime false ds = comp.map DirMeta.dir ∧
      FirstComponent before comp after
  | [], prev, h => .inl ⟨rfl, pairwise_singleton _ _, h.lasting⟩
  | d :: ds, prev, h => by
    obtain ⟨hle, htail⟩ := pairwise_cons.1 h.sorted
    have hd := h.lasting d (by simp)
    have hp := h.lasting prev mem_cons_self
    have hpd := hle d mem_cons_self
    rw [overlapLoop, BitVec.slt_eq_decide, BitVec.slt_eq_decide]
    by_cases hlt : d.minTime.toInt < prev.maxTime.toInt
    · have ho : Overlaps prev d := by
        unfold Overlaps Apart
        omega
      have hc : Connected [prev] := fun a ha b hb => by
        rw [mem_singleton.1 ha, mem_singleton.1 hb]
        exact .refl _
      obtain ⟨m, hm, heq, hmax⟩ := exists_last prev d [prev] mem_cons_self (by simp)
      obtain ⟨pre, post, rfl, hrun, hc', hpost⟩ := overlapLoop_found d h
        (hc.concat mem_cons_self ho) hm hmax
      refine .inr ⟨fun hno => (pairwise_cons.1 hno).1 d mem_cons_self ho, [], prev :: d :: pre,
        post, rfl, ?_, by simp, hc', fun a ha b hb ho => ho (.inl (hpost a ha b hb)), .nil, by simp⟩
      rw [if_pos (decide_eq_true hlt), heq, hrun]
      rfl
    · have hall : ∀ b ∈ d :: ds, prev.maxTime.toInt ≤ b.minTime.toInt := fun b hb => by
        rcases mem_cons.1 hb with rfl | hb
        · omega
        · have := (pairwise_cons.1 htail).1 b hb
          omega
      have hnext : prev.maxTime.toInt < d.maxTime.toInt := by omega
      simp only [hlt, hnext, decide_true, decide_false, if_true, reduceCtorEq, if_false]
      rcases overlapLoop_spec ⟨htail, fun b hb => h.lasting b (mem_cons_of_mem _ hb)⟩ with
        ⟨hrun, hord⟩ | ⟨hno, before, comp, after, heq, hrun, hf⟩
      · exact .inl ⟨hrun, pairwise_cons.2 ⟨hall, hord.apart⟩, h.lasting⟩
      · refine .inr ⟨fun hp => hno (pairwise_cons.1 hp).2, prev :: before, comp, after,
          by rw [heq]; rfl, hrun, hf.several, hf.connected, hf.closed,
          pairwise_cons.2 ⟨fun b hb ho => ho (.inl (hall b ?_)), hf.alone⟩,
          forall_mem_cons.2 ⟨fun b hb ho => ho (.inl (hall b ?_)), hf.alone_of⟩⟩
        · exact heq ▸ mem_append_left _ hb
        · exact heq ▸ mem_append_right _ hb

theorem Ordered.sorted (h : Ordered ds) : Sorted ds :=
  ⟨h.apart.imp_of_mem fun ha _ hab => (h.lasting _ ha).le.trans hab, h.lasting⟩

theorem selectOverlappingDirs_of_ordered (c : LeveledCompactor) (h : Ordered ds) :
    selectOverlappingDirs c ds = [] := by
  unfold selectOverlappingDirs
  split_ifs
  · cases ds with
    | nil => rfl
    | cons d ds =>
      rcases overlapLoop_spec h.sorted with ⟨hrun, -⟩ | ⟨hno, -⟩
      · exact hrun
      · exact absurd (h.apart.imp fun hab ho => ho (.inl hab)) hno
  · rfl

theorem tombstoneLoop_spec (c : LeveledCompactor) : ∀ ds : List (DirMeta D),
    tombstoneLoop c ds = [] ∨ ∃ dm ∈ ds, tombstoneLoop c ds = [dm.dir]
  | [] => .inl rfl
  | dm :: ds => by
    rw [tombstoneLoop]
    split_ifs
    · exact .inr ⟨dm, mem_cons_self, rfl⟩
    · exact .inl rfl
    · exact .inr ⟨dm, mem_cons_self, rfl⟩
    · exact (tombstoneLoop_spec c ds).imp id fun ⟨d, hd, he⟩ => ⟨d, mem_cons_of_mem _ hd, he⟩

/-! ### Plans -/

/-- **A plan that keeps blocks disjoint**: `run` are neighbours in time, without the last block of
all; the block made of them overlaps none of the others; and several of them lie in one aligned
range of a configured size. -/
structure Sane (c : LeveledCompactor) (dms before run after : List (DirMeta D)) : Prop where
  neighbours : c.byMinTime dms = before ++ (run ++ after)
  notNewest : run ≠ [] → after ≠ []
  disjoint : ∀ uid m, compactBlockMetas uid (run.map DirMeta.toBlockMeta) = .ok m →
    (before.map DirMeta.toBlockMeta ++ m :: after.map DirMeta.toBlockMeta).Pairwise Apart
  aligned : 1 < run.length → ∃ iv ∈ c.ranges, Aligned run iv

variable {c : LeveledCompactor} {dms before run after : List (DirMeta D)}

theorem byMinTime_ne_nil (hne : dms ≠ []) : c.byMinTime dms ≠ [] :=
  fun h => hne (h ▸ c.byMinTime_perm dms).nil_eq.symm

/-- The blocks of a head of the list are before all others. -/
theorem ordered_byMinTime (hapart : dms.Pairwise fun a b => Apart a.toBlockMeta b.toBlockMeta)
    (hlasting : ∀ dm ∈ dms, dm.minTime.toInt < dm.maxTime.toInt) : Ordered (c.byMinTime dms) := by
  have hperm := c.byMinTime_perm dms
  have hlast : ∀ dm ∈ c.byMinTime dms, dm.minTime.toInt < dm.maxTime.toInt := fun dm hdm =>
    hlasting dm (hperm.mem_iff.1 hdm)
  have hap : (c.byMinTime dms).Pairwise fun a b => Apart a.toBlockMeta b.toBlockMeta :=
    (hperm.pairwise_iff fun h => Or.symm h).2 hapart
  refine ⟨?_, hlast⟩
  refine ((c.byMinTime_sorted dms).and hap).imp_of_mem fun {a b} ha hb hab => ?_
  have h1 := hlast b hb
  rcases hab.2 with h2 | h2
  · exact h2
  · have := hab.1
    omega

/-- **A run of neighbours** can be replaced by the block that it is compacted to. -/
theorem sane_of_ordered (h : Ordered (c.byMinTime dms))
    (hsplit : c.byMinTime dms = before ++ (run ++ after)) (hafter : run ≠ [] → after ≠ [])
    (hal : 1 < run.length → ∃ iv ∈ c.ranges, Aligned run iv) :
    Sane c dms before run after := by
  refine ⟨hsplit, hafter, fun uid m hm => ?_, hal⟩
  have hp := h.apart
  rw [hsplit] at hp
  obtain ⟨hb, hra, hbra⟩ := pairwise_append.1 hp
  obtain ⟨hr, ha, hrun⟩ := pairwise_append.1 hra
  obtain ⟨⟨b1, hb1, hmin⟩, b2, hb2, hmax⟩ := compactBlockMetas_times hm
  obtain ⟨d1, hd1, rfl⟩ := mem_map.1 hb1
  obtain ⟨d2, hd2, rfl⟩ := mem_map.1 hb2
  have himp : ∀ {l : List (DirMeta D)},
      l.Pairwise (fun a b => a.maxTime.toInt ≤ b.minTime.toInt) →
      (l.map DirMeta.toBlockMeta).Pairwise Apart := fun hl =>
    pairwise_map.2 (hl.imp fun hab => Or.inl hab)
  refine pairwise_append.2 ⟨himp hb, pairwise_cons.2 ⟨?_, himp ha⟩, ?_⟩
  · intro b hb'
    obtain ⟨d, hd, rfl⟩ := mem_map.1 hb'
    exact Or.inl (by rw [hmax]; exact hrun d2 hd2 d hd)
  · intro a ha' b hb'
    obtain ⟨d, hd, rfl⟩ := mem_map.1 ha'
    rcases mem_cons.1 hb' with rfl | hb'
    · exact Or.inl (by rw [hmin]; exact hbra d hd d1 (mem_append_left _ hd1))
    · obtain ⟨d', hd', rfl⟩ := mem_map.1 hb'
      exact Or.inl (hbra d hd d' (mem_append_right _ hd'))

/-- **Every plan for disjoint blocks keeps them disjoint**, when no block but the newest begins less
than one range after the least time, up to the range of which a group is ready. -/
theorem plan_sane (c : LeveledCompactor) (hpos : ∀ iv ∈ c.ranges, 0 < iv.toInt) (hne : dms ≠ [])
    (hapart : dms.Pairwise fun a b => Apart a.toBlockMeta b.toBlockMeta)
    (hlasting : ∀ dm ∈ dms, dm.minTime.toInt < dm.maxTime.toInt)
    (hclear : ∀ last ∈ (c.byMinTime dms).dropLast.getLast?,
      Clear (c.byMinTime dms).dropLast last.minTime c.ranges.tail) :
    ∃ before run after, plan c dms = .ok (run.map DirMeta.dir) ∧ Sane c dms before run after := by
  have h := ordered_byMinTime (c := c) hapart hlasting
  have hne' := byMinTime_ne_nil (c := c) hne
  have hlast := dropLast_append_getLast hne'
  have hdrop : Ordered (c.byMinTime dms).dropLast := h.of_infix (List.dropLast_prefix _).isInfix
  -- a run of the blocks before the newest one
  have hrun : ∀ {run : List (DirMeta D)}, run <:+: (c.byMinTime dms).dropLast →
      (1 < run.length → ∃ iv ∈ c.ranges, Aligned run iv) →
      ∃ before after, Sane c dms before run after := fun ⟨before, after, he⟩ hal => by
    refine ⟨before, after ++ [(c.byMinTime dms).getLast hne'], sane_of_ordered h ?_ (by simp) hal⟩
    rw [← append_assoc, ← append_assoc, he, hlast]
  unfold plan
  simp only [selectOverlappingDirs_of_ordered c h, ne_eq, not_true_eq_false, if_false, hne']
  by_cases hnil : selectDirs c (c.byMinTime dms).dropLast = []
  · simp only [hnil, not_true_eq_false, if_false]
    rcases tombstoneLoop_spec c (c.byMinTime dms).dropLast.reverse with ht | ⟨dm, hdm, ht⟩
    · obtain ⟨before, after, hs⟩ := hrun (List.nil_infix) (by simp)
      exact ⟨before, [], after, by rw [ht]; rfl, hs⟩
    · obtain ⟨s, t, he⟩ := append_of_mem (mem_reverse.1 hdm)
      have hin : [dm] <:+: (c.byMinTime dms).dropLast := ⟨s, t, by rw [he]; simp⟩
      obtain ⟨before, after, hs⟩ := hrun hin (by simp)
      exact ⟨before, [dm], after, by rw [ht]; rfl, hs⟩
  · obtain ⟨hin, iv, hiv, hal⟩ := (selectDirs_spec c hpos hdrop hclear).resolve_left hnil
    obtain ⟨before, after, hs⟩ := hrun hin fun _ => ⟨iv, hiv, hal⟩
    exact ⟨before, _, after, by rw [if_pos hnil], hs⟩

/-- A block with nothing but its times. -/
def block (dir : ℕ) (mint maxt : I64) : DirMeta ℕ :=
  { ulid := 0, minTime := mint, maxTime := maxt, compaction := ⟨1, [], []⟩, dir := dir,
    failed := false, numTombstones := 0, numSeries := 1 }

/-- A compactor with the given ranges. -/
def compactor (r : I64) (rs : List I64) : LeveledCompactor where
  ranges := r :: rs
  ranges_ne := cons_ne_nil _ _
  enableOverlappingCompaction := true
  manyTombstones := fun _ _ => false
  byMinTime := sortBy fun a b => a.minTime.slt b.minTime
  byMinTime_perm := sortBy_perm _
  byMinTime_sorted := pairwise_sortBy fun a b => by rw [BitVec.slt_iff_toInt_lt]

/-- The first block begins less than one range of size 10 after the least time. -/
def scattered : List (DirMeta ℕ) :=
  [block 0 (minInt64 + 6) (minInt64 + 7), block 1 0 1, block 2 1 2, block 3 20 21]

/-- The next two blocks are ready in a range of size 5, so that the last range is not tried. -/
theorem plan_sane_scattered :
    ∃ before run after,
      plan (compactor 1 [5, 10]) (block 4 30 31 :: scattered) = .ok (run.map DirMeta.dir) ∧
      Sane (compactor 1 [5, 10]) (block 4 30 31 :: scattered) before run after ∧
      run.map DirMeta.dir = [1, 2] := by
  have hapart : (block 4 30 31 :: scattered).Pairwise fun a b =>
      Apart a.toBlockMeta b.toBlockMeta := by
    unfold Apart
    decide +kernel
  have hpos : ∀ iv ∈ (compactor 1 [5, 10]).ranges, 0 < iv.toInt := by
    simp [compactor]
  have hsorted : ((compactor 1 [5, 10]).byMinTime (block 4 30 31 :: scattered)).dropLast =
      scattered := by
    decide +kernel
  have hclear : Clear scattered 20 [5, 10] :=
    ⟨by decide +kernel, .inl ⟨0, by decide +kernel, by decide +kernel⟩⟩
  obtain ⟨before, run, after, hp, hs⟩ :=
    plan_sane (compactor 1 [5, 10]) hpos (by simp) hapart (by decide +kernel) fun last hl => by
      rw [hsorted] at hl ⊢
      obtain rfl : block 3 20 21 = last := Option.some.inj hl
      exact hclear
  have hplan : plan (compactor 1 [5, 10]) (block 4 30 31 :: scattered) = .ok [1, 2] := by
    decide +kernel
  exact ⟨before, run, after, hp, hs, Except.ok.inj (hp.symm.trans hplan)⟩

/-- **The selected blocks** are those of the first component with several blocks. -/
theorem selectOverlappingDirs_first (c : LeveledCompactor) (he : c.enableOverlappingCompaction)
    (h : Sorted ds) :
    (selectOverlappingDirs c ds = [] ↔ ds.Pairwise fun a b => ¬ Overlaps a b) ∧
    (selectOverlappingDirs c ds ≠ [] → ∃ before comp after, ds = before ++ (comp ++ after) ∧
      selectOverlappingDirs c ds = comp.map DirMeta.dir ∧ FirstComponent before comp after) := by
  unfold selectOverlappingDirs
  rw [if_pos he]
  rcases ds with _ | ⟨d, ds⟩
  · simp
  · rcases overlapLoop_spec h with ⟨hrun, hord⟩ | ⟨hno, before, comp, after, heq, hrun, hf⟩
    · have hno := hord.apart.imp fun {a b} hab (ho : Overlaps a b) => ho (.inl hab)
      exact ⟨iff_of_true hrun hno, fun hne => absurd hrun hne⟩
    · refine ⟨iff_of_false (fun hnil => ?_) hno, fun _ => ⟨before, comp, after, heq, hrun, hf⟩⟩
      have := hf.several
      rw [map_eq_nil_iff.1 (hrun.symm.trans hnil)] at this
      simp at this

theorem selectOverlappingDirs_first_three :
    ∃ before comp after, [block 0 0 9, block 1 10 20, block 2 15 18, block 3 19 30] =
      before ++ (comp ++ after) ∧ [1, 2, 3] = comp.map DirMeta.dir ∧
      FirstComponent before comp after :=
  (selectOverlappingDirs_first (compactor 1 [5]) rfl ⟨by decide +kernel, by decide +kernel⟩).2
    (by decide +kernel)

/-- Blocks of which the first one begins at the least time. -/
def early : List (DirMeta ℕ) :=
  [block 0 minInt64 (minInt64 + 1), block 1 0 1, block 2 (maxInt64 - 2) (maxInt64 - 1),
    block 3 (maxInt64 - 1) maxInt64]

/-- The first two blocks are compacted, although the time between them is longer than any range. -/
theorem not_sane_early :
    early.Pairwise (fun a b => Apart a.toBlockMeta b.toBlockMeta) ∧
      (∀ dm ∈ early, dm.minTime.toInt < dm.maxTime.toInt) ∧
      ¬ ∃ before run after, plan (compactor 1 [5]) early = .ok (run.map DirMeta.dir) ∧
        Sane (compactor 1 [5]) early before run after := by
  refine ⟨by unfold Apart; decide, by decide, ?_⟩
  rintro ⟨before, run, after, hp, hs⟩
  have hplan : plan (compactor 1 [5]) early = .ok [0, 1] := by decide +kernel
  have hdirs : run.map DirMeta.dir = [0, 1] := (Except.ok.inj (hplan.symm.trans hp)).symm
  have hlen : 1 < run.length := by
    rw [← length_map, hdirs]
    decide
  -- the first two blocks are those of the plan
  have hmem : ∀ dm ∈ early, dm.dir < 2 → dm ∈ run := fun dm hdm hdir => by
    have hsub : ∀ d ∈ run, d ∈ early := fun d hd => by
      have : d ∈ (compactor 1 [5]).byMinTime early := by rw [hs.neighbours]; simp [hd]
      exact (sortBy_perm _ early).mem_iff.1 this
    have hinj : ∀ d ∈ early, ∀ d' ∈ early, d.dir = d'.dir → d = d' := by decide +kernel
    obtain ⟨d, hd, he⟩ := mem_map.1 (show dm.dir ∈ run.map DirMeta.dir by
      rw [hdirs]
      simp
      omega)
    rwa [← hinj d (hsub d hd) dm hdm he]
  obtain ⟨iv, hiv, k, hk⟩ := hs.aligned hlen
  have hfirst := hk (block 0 minInt64 (minInt64 + 1)) (hmem _ (by simp [early]) (by decide))
  have hsecond := hk (block 1 0 1) (hmem _ (by simp [early]) (by decide))
  have hmin : (block 0 minInt64 (minInt64 + 1)).minTime.toInt = -2 ^ 63 := by decide
  have hmax : (block 1 0 1).maxTime.toInt = 1 := by decide
  have hsize : ∀ iv ∈ (compactor 1 [5]).ranges, iv.toInt ≤ 5 :=
    forall_mem_cons.2 ⟨by decide, forall_mem_singleton.2 (by decide)⟩
  have := hsize iv hiv
  omega

/-! ### All groups -/

/-- **A grouping by aligned ranges**: the groups are runs of neighbours in order, each within one
range, no two of them within the same; what fits into a range is in a group. -/
structure Grouped (tr : I64) (ds : List (DirMeta D)) (groups : List (List (DirMeta D))) : Prop where
  ordered : groups.flatten <+ ds
  runs : ∀ g ∈ groups, g ≠ [] ∧ g <:+: ds
  within : ∀ g ∈ groups, Aligned g tr
  apart : groups.Pairwise fun g g' => ∀ a ∈ g, ∀ b ∈ g', ∀ k, Within tr k a → ¬ Within tr k b
  kept : ∀ dm ∈ ds, (∃ k, Within tr k dm) → dm ∈ groups.flatten

theorem Splits.grouped (h : Splits tr ds gs) (htr : 0 < tr.toInt)
    (hlast : ∀ d ∈ ds, d.minTime.toInt < d.maxTime.toInt) (hb : ∀ d ∈ ds, Bounded tr d) :
    Grouped tr ds gs := by
  have hmem := h.mem
  suffices hall : gs.flatten <+ ds ∧
      gs.Pairwise (fun g g' => ∀ a ∈ g, ∀ b ∈ g', ∀ k, Within tr k a → ¬ Within tr k b) ∧
      ∀ d ∈ ds, (∃ k, Within tr k d) → d ∈ gs.flatten from
    ⟨hall.1, fun g hg => ⟨(hmem g hg).1, (hmem g hg).2.1⟩, fun g hg => (hmem g hg).2.2, hall.2.1,
      hall.2.2⟩
  clear hmem
  induction h with
  | nil => exact ⟨.slnil, .nil, by simp⟩
  | @group g rest gs k _ hin hrest _ ih =>
    rw [forall_mem_append] at hlast hb
    obtain ⟨hsub, hapart, hkept⟩ := ih hlast.2 hb.2
    refine ⟨hsub.append_left g, pairwise_cons.2 ⟨fun g' hg' a ha b hb j hja hjb => ?_, hapart⟩,
      forall_mem_append.2 ⟨fun d hd _ => mem_append_left _ hd,
        fun d hd hk => mem_append_right _ (hkept d hd hk)⟩⟩
    obtain rfl : k = j := by
      rw [← (hin a ha).ediv htr (hlast.1 a ha), hja.ediv htr (hlast.1 a ha)]
    exact hrest b (hsub.subset (mem_flatten.2 ⟨g', hg', hb⟩)) hjb
  | @skip dm ds gs hout _ ih =>
    rw [forall_mem_cons] at hlast hb
    obtain ⟨hsub, hapart, hkept⟩ := ih hlast.2 hb.2
    refine ⟨hsub.cons _, hapart, forall_mem_cons.2 ⟨fun ⟨k, hk⟩ => ?_, hkept⟩⟩
    have hend := hb.1.2
    rw [hk.ediv htr hlast.1] at hend
    exact absurd hk (hout k hend)

/-- **`splitByRange`** groups blocks by aligned ranges, as long as the ends of these are times. -/
theorem splitByRange_grouped (htr : 0 < tr.toInt) (h : Ordered ds) (hb : ∀ dm ∈ ds, Bounded tr dm) :
    Grouped tr ds (splitByRange ds tr) :=
  (splits_splitLoop htr le_rfl h fun dm hdm => (hb dm hdm).1).grouped htr h.lasting hb

theorem splitByRange_grouped_two : Grouped 10 [block 0 (-7) (-2), block 1 3 12]
    (splitByRange [block 0 (-7) (-2), block 1 3 12] 10) :=
  splitByRange_grouped (by decide) ⟨by decide, by decide⟩ (by unfold Bounded; decide)

/-- The range of the last times ends after all times: its blocks are left out. -/
theorem not_grouped_last : ¬ Grouped 4 [block 0 (maxInt64 - 1) maxInt64]
    (splitByRange [block 0 (maxInt64 - 1) maxInt64] 4) := fun h =>
  nomatch h.kept _ mem_cons_self ⟨2 ^ 61 - 1, by decide, by decide⟩

end TopcDB.Tsdb.CompactPlan
