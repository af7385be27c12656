import TopcDB.Tsdb.PendingCommit
import TopcDB.Tsdb.Tombstones

/-! # Deletions in the head (`Head.Delete`)

A deletion is clamped to the times of the head and then to those of each series that it selects, and
becomes one interval among the tombstones of the series. Neither clamp looks whether anything is
left, and the times of a series are those of its chunks in order. Along every run of deletions and
appends the tombstones are as they should be exactly when no request falls beside a series, and none
is meant for samples beside the chunks in order (`run_exact_iff`).

`PostingsForMatchers` selects the series whose labels match, which is a predicate here; the log is
written without errors. -/

namespace TopcDB.Tsdb.HeadDelete

open Function List Lib.Machine Go.Basic Chunkenc.Huffman Deleted Tombstones HeadSeries OooSeries
open HeadAppender PendingCommit
open Storage.Merge (minInt64)
open Storage.Series (maxInt64)

variable {L F H FH A FA : Type}

/-! ### The head -/

/-- The series by their references, and the times and tombstones of the head; `held` has the
timestamps that each series has taken. -/
structure Head (L F H FH A FA : Type) where
  refs : List ℕ
  refs_nodup : refs.Nodup
  series : ℕ → Series L F H FH A FA
  mapper : Mapper A FA
  minTime : I64
  maxTime : I64
  tombstones : ℕ → List Interval
  held : ℕ → List I64

def clampInterval (a b mint maxt : I64) : I64 × I64 :=
  (if a.slt mint then mint else a, if maxt.slt b then maxt else b)

namespace Head

/-- The interval of a deletion for the series `ref`, none for a series without chunks in order. -/
def clamped (h : Head L F H FH A FA) (mint maxt : I64) (ref : ℕ) : Option Interval :=
  let (mint, maxt) := clampInterval mint maxt h.minTime h.maxTime
  let t0 := (h.series ref).mem.minTime
  let t1 := (h.series ref).mem.maxTime
  if t0 = minInt64 ∨ t1 = minInt64 then none
  else
    let (t0, t1) := clampInterval mint maxt t0 t1
    some ⟨t0, t1⟩

def stones (h : Head L F H FH A FA) (mint maxt : I64) (matched : L → Bool) : List (ℕ × Interval) :=
  h.refs.filterMap fun ref =>
    if matched (h.series ref).lset then (h.clamped mint maxt ref).map fun itv => (ref, itv)
    else none

end Head

def addInterval (tombstones : ℕ → List Interval) (stone : ℕ × Interval) :
    Except Fault (ℕ → List Interval) :=
  (add (tombstones stone.1) stone.2).map fun ins => update tombstones stone.1 ins

/-- **`Head.Delete`.** -/
def Head.delete (h : Head L F H FH A FA) (mint maxt : I64) (matched : L → Bool) :
    Except Fault (Head L F H FH A FA) :=
  ((h.stones mint maxt matched).foldlM addInterval h.tombstones).map fun tombstones =>
    { h with tombstones := tombstones }

inductive Op (L F H FH : Type)
  | create (ref : ℕ) (lset : L)
  /-- a turn of `commitSamples`, with the bounds of its appender -/
  | append (ref : ℕ) (x : Appender F H FH) (ranges : Ranges) (t : I64) (v : F)
  /-- the times of a commit -/
  | updateMinMaxTime (mint maxt : I64)
  | delete (mint maxt : I64) (matched : L → Bool)

section steps

variable (E : HeadEnv L F H FH A FA) (o : HeadOpts) [DecidableEq F]

/-- Whether a turn of `commitSamples` takes its sample. -/
def taken (s : Series L F H FH A FA) (mapper : Mapper A FA) (ranges : Ranges) (x : Appender F H FH)
    (t : I64) (v : F) : Except Fault Bool :=
  match x.verdict s t v with
  | (_, _, some _) => .ok false
  | (true, _, none) =>
    (OOOFields.insert E.toEnv s.ooo mapper o.oooCapMax ranges t v none none o.errorBound).map
      fun p => p.ok
  | (false, _, none) =>
    (s.mem.append E.toEnv o.toChunkOpts ranges t v x.appendID).map fun p => p.1

variable (h : Head L F H FH A FA)

/-- A float is committed to the series `ref`. -/
def Head.append (ref : ℕ) (x : Appender F H FH) (ranges : Ranges) (t : I64)
    (v : F) : Except Fault (Head L F H FH A FA) := do
  let ok ← taken E o (h.series ref) h.mapper ranges x t v
  let (s, mapper) ← (h.series ref).commitSample E o h.mapper ranges x t v
  .ok { h with
    series := update h.series ref s
    mapper := mapper
    held := update h.held ref (if ok then h.held ref ++ [t] else h.held ref) }

/-- A new series for a reference that is not in use. -/
def Head.create (ref : ℕ) (lset : L) : Head L F H FH A FA :=
  if hnew : ref ∈ h.refs then h
  else { h with
    refs := ref :: h.refs
    refs_nodup := nodup_cons.2 ⟨hnew, h.refs_nodup⟩
    series := update h.series ref
      ⟨lset, newMemSeries ref E.zero, none, false, true, true⟩
    held := update h.held ref [] }

/-- **A step of the head.** -/
def exec : Op L F H FH → Except Fault (Head L F H FH A FA × Option Empty)
  | .create ref lset => .ok (h.create E ref lset, none)
  | .append ref x ranges t v => (h.append E o ref x ranges t v).map fun h => (h, none)
  | .updateMinMaxTime mint maxt =>
    .ok ({ h with
      minTime := if mint.slt h.minTime then mint else h.minTime
      maxTime := if h.maxTime.slt maxt then maxt else h.maxTime }, none)
  | .delete mint maxt matched => (h.delete mint maxt matched).map fun h => (h, none)

end steps

/-! ### What a deletion should do -/

/-- `t` lies in the request. -/
def within (mint maxt t : I64) : Prop := mint.toInt ≤ t.toInt ∧ t.toInt ≤ maxt.toInt

instance (mint maxt t : I64) : Decidable (within mint maxt t) := inferInstanceAs (Decidable (_ ∧ _))

/-- **A deletion is exact**: it returns, the tombstones of every series are canonical, and of the
samples held they cover those they did before and those asked for. -/
def Exact (h : Head L F H FH A FA) : Op L F H FH → Prop
  | .delete mint maxt matched => ∃ h', h.delete mint maxt matched = .ok h' ∧ ∀ ref ∈ h.refs,
      Canonical (h'.tombstones ref) ∧ ∀ t ∈ h.held ref, (deleted (h'.tombstones ref) t = true ↔
        deleted (h.tombstones ref) t = true ∨
          matched (h.series ref).lset = true ∧ within mint maxt t)
  | _ => True

/-- The intervals `ins` of a series can take the interval of a request, and no other sample it holds
was asked for. -/
def Fitting (ins : List Interval) (held : List I64) (mint maxt : I64) : Option Interval → Prop
  | none => ∀ t ∈ held, within mint maxt t → deleted ins t = true
  | some n =>
    (if n.mint.toInt ≤ n.maxt.toInt then Reaches ins n else ∃ i ∈ ins, Spans i n) ∧
      ∀ t ∈ held, within mint maxt t → n.inBounds t = true ∨ deleted ins t = true

instance (ins : List Interval) (held : List I64) (mint maxt : I64) :
    ∀ n, Decidable (Fitting ins held mint maxt n)
  -- over the list, not over all of the timestamps
  | none => List.decidableBAll (fun t => within mint maxt t → deleted ins t = true) held
  | some n => @instDecidableAnd _ _ inferInstance
    (List.decidableBAll (fun t => within mint maxt t → n.inBounds t = true ∨ deleted ins t = true)
      held)

/-- **A deletion is clean**: the request fits each series that it selects. -/
def Clean (h : Head L F H FH A FA) : Op L F H FH → Prop
  | .delete mint maxt matched => ∀ ref ∈ h.refs, matched (h.series ref).lset = true →
      Fitting (h.tombstones ref) (h.held ref) mint maxt (h.clamped mint maxt ref)
  | _ => True

instance (h : Head L F H FH A FA) : ∀ op, Decidable (Clean h op)
  | .delete mint maxt matched =>
    inferInstanceAs (Decidable (∀ ref ∈ h.refs, matched (h.series ref).lset = true →
      Fitting (h.tombstones ref) (h.held ref) mint maxt (h.clamped mint maxt ref)))
  | .create _ _ | .append .. | .updateMinMaxTime _ _ => .isTrue trivial

/-! ### One series -/

variable {ins : List Interval} {n : Interval} {held : List I64} {mint maxt : I64}

/-- What the intervals of a series should be after a deletion that selects it. -/
def ExactFor (ins r : List Interval) (held : List I64) (mint maxt : I64) : Prop :=
  Canonical r ∧ ∀ t ∈ held,
    (deleted r t = true ↔ deleted ins t = true ∨ within mint maxt t)

theorem exactFor_proper_iff (h : Canonical ins) (hn : n.mint.toInt ≤ n.maxt.toInt)
    (hlo : mint.toInt ≤ n.mint.toInt) (hhi : n.maxt.toInt ≤ maxt.toInt) :
    (∃ r, add ins n = .ok r ∧ ExactFor ins r held mint maxt) ↔
      Fitting ins held mint maxt (some n) := by
  have hin : ∀ t, n.inBounds t = true → within mint maxt t := fun t ht => by
    obtain ⟨h1, h2⟩ := inBounds_iff.1 ht
    exact ⟨hlo.trans h1, h2.trans hhi⟩
  rw [Fitting, if_pos hn, ← add_returns_iff h]
  constructor
  · rintro ⟨r, hr, -, hexact⟩
    obtain ⟨-, hcov⟩ := add_spec h hn hr
    refine ⟨⟨r, hr⟩, fun t ht hw => ?_⟩
    have := (hexact t ht).2 (.inr hw)
    rw [hcov, Bool.or_eq_true] at this
    exact this.symm
  · rintro ⟨⟨r, hr⟩, hall⟩
    obtain ⟨hcan, hcov⟩ := add_spec h hn hr
    refine ⟨r, hr, hcan, fun t ht => ?_⟩
    rw [hcov, Bool.or_eq_true]
    constructor
    · rintro (hd | hb)
      · exact .inl hd
      · exact .inr (hin t hb)
    · rintro (hd | hw)
      · exact .inl hd
      · exact (hall t ht hw).symm

theorem exactFor_improper_iff (h : Canonical ins) (hn : ¬ n.mint.toInt ≤ n.maxt.toInt) :
    (∃ r, add ins n = .ok r ∧ ExactFor ins r held mint maxt) ↔
      Fitting ins held mint maxt (some n) := by
  have hin : ∀ t, n.inBounds t ≠ true := fun t ht => by
    obtain ⟨h1, h2⟩ := inBounds_iff.1 ht
    omega
  rw [Fitting, if_neg hn]
  obtain ⟨r, hr, ⟨rfl, hspan⟩ | ⟨hmem, hspan⟩⟩ := add_of_improper h (not_le.1 hn)
  · simp only [hspan, true_and, hin, Bool.false_eq_true, false_or]
    constructor
    · rintro ⟨r', hr', -, hexact⟩ t ht hw
      cases hr.symm.trans hr'
      exact (hexact t ht).2 (.inr hw)
    · intro hall
      exact ⟨r, hr, h, fun t ht => ⟨.inl, fun hc => hc.elim id (hall t ht)⟩⟩
  · refine iff_of_false ?_ fun hc => hspan hc.1
    rintro ⟨r', hr', hcan, -⟩
    cases hr.symm.trans hr'
    exact hn (hcan.proper n hmem)

theorem exactFor_iff (h : Canonical ins) (hlo : mint.toInt ≤ n.mint.toInt)
    (hhi : n.maxt.toInt ≤ maxt.toInt) :
    (∃ r, add ins n = .ok r ∧ ExactFor ins r held mint maxt) ↔
      Fitting ins held mint maxt (some n) := by
  by_cases hn : n.mint.toInt ≤ n.maxt.toInt
  · exact exactFor_proper_iff h hn hlo hhi
  · exact exactFor_improper_iff h hn

/-! ### The stones of a deletion -/

theorem clampInterval_within (a b mint maxt : I64) :
    a.toInt ≤ (clampInterval a b mint maxt).1.toInt ∧
      (clampInterval a b mint maxt).2.toInt ≤ b.toInt := by
  simp only [clampInterval, BitVec.slt_iff_toInt_lt]
  split_ifs <;> constructor <;> omega

section stones

variable {h h' : Head L F H FH A FA} {mint maxt : I64} {matched : L → Bool} {ref : ℕ} {n : Interval}

theorem clamped_within (hn : h.clamped mint maxt ref = some n) :
    mint.toInt ≤ n.mint.toInt ∧ n.maxt.toInt ≤ maxt.toInt := by
  have hhead := clampInterval_within mint maxt h.minTime h.maxTime
  unfold Head.clamped at hn
  dsimp only at hn
  split_ifs at hn
  cases hn
  have hseries := clampInterval_within (clampInterval mint maxt h.minTime h.maxTime).1
    (clampInterval mint maxt h.minTime h.maxTime).2 (h.series ref).mem.minTime
    (h.series ref).mem.maxTime
  exact ⟨hhead.1.trans hseries.1, hseries.2.trans hhead.2⟩

theorem mem_stones : (ref, n) ∈ h.stones mint maxt matched ↔
    ref ∈ h.refs ∧ matched (h.series ref).lset = true ∧ h.clamped mint maxt ref = some n := by
  simp only [Head.stones, mem_filterMap]
  constructor
  · rintro ⟨ref', href, heq⟩
    split_ifs at heq with hm
    obtain ⟨itv, hc, he⟩ := Option.map_eq_some_iff.1 heq
    cases he
    exact ⟨href, hm, hc⟩
  · rintro ⟨href, hm, hc⟩
    exact ⟨ref, href, by rw [if_pos hm, hc]; rfl⟩

theorem nodup_stones (h : Head L F H FH A FA) (mint maxt : I64) (matched : L → Bool) :
    ((h.stones mint maxt matched).map Prod.fst).Nodup := by
  rw [Head.stones, map_filterMap]
  refine h.refs_nodup.filterMap fun a a' b hb hb' => ?_
  have hfst : ∀ {c : ℕ}, b ∈ (if matched (h.series c).lset then
      (h.clamped mint maxt c).map fun itv => (c, itv) else none).map Prod.fst → b = c := by
    intro c hc
    split_ifs at hc
    · obtain ⟨p, hp, rfl⟩ := Option.map_eq_some_iff.1 hc
      obtain ⟨itv, -, rfl⟩ := Option.map_eq_some_iff.1 hp
      rfl
    · cases hc
  rw [← hfst hb, ← hfst hb']

/-- Every stone is added to the intervals of its series, which no other stone is for. -/
theorem addInterval_foldlM : ∀ {stones : List (ℕ × Interval)} {tombstones r : ℕ → List Interval},
    (stones.map Prod.fst).Nodup → stones.foldlM addInterval tombstones = .ok r →
    (∀ stone ∈ stones, add (tombstones stone.1) stone.2 = .ok (r stone.1)) ∧
      ∀ ref ∉ stones.map Prod.fst, r ref = tombstones ref
  | [], tombstones, r, _, hr => by
    cases hr
    simp
  | stone :: stones, tombstones, r, hnd, hr => by
    rw [map_cons, nodup_cons] at hnd
    rw [foldlM_cons] at hr
    obtain ⟨tombs, hadd, hrest⟩ := bind_eq_ok hr
    obtain ⟨ins, hins, rfl⟩ := map_eq_ok hadd
    obtain ⟨hin, hout⟩ := addInterval_foldlM hnd.2 hrest
    refine ⟨forall_mem_cons.2 ⟨?_, fun p hp => ?_⟩, fun ref href => ?_⟩
    · rw [hins, hout _ hnd.1, update_self]
    · have hne : p.1 ≠ stone.1 := fun h0 => hnd.1 (h0 ▸ mem_map_of_mem hp)
      have := hin p hp
      rwa [update_of_ne hne] at this
    · rw [map_cons, mem_cons, not_or] at href
      rw [hout ref href.2, update_of_ne href.1]

theorem returns_addInterval_foldlM : ∀ {stones : List (ℕ × Interval)}
    {tombstones : ℕ → List Interval}, (stones.map Prod.fst).Nodup →
    (∀ stone ∈ stones, ∃ ins, add (tombstones stone.1) stone.2 = .ok ins) →
    ∃ r, stones.foldlM addInterval tombstones = .ok r
  | [], tombstones, _, _ => ⟨tombstones, rfl⟩
  | stone :: stones, tombstones, hnd, hall => by
    rw [map_cons, nodup_cons] at hnd
    rw [forall_mem_cons] at hall
    obtain ⟨⟨ins, hins⟩, hall⟩ := hall
    have hrest : ∀ p ∈ stones, ∃ ins', add (update tombstones stone.1 ins p.1) p.2 =
        .ok ins' := fun p hp => by
      have hne : p.1 ≠ stone.1 := fun h0 => hnd.1 (h0 ▸ mem_map_of_mem hp)
      rw [update_of_ne hne]
      exact hall p hp
    obtain ⟨r, hr⟩ := returns_addInterval_foldlM hnd.2 hrest
    refine ⟨r, ?_⟩
    rw [foldlM_cons, addInterval, hins]
    exact hr

/-- **`Head.Delete`** series by series. -/
theorem delete_spec (hd : h.delete mint maxt matched = .ok h') :
    (∀ ref ∈ h.refs, matched (h.series ref).lset = true → ∀ n,
      h.clamped mint maxt ref = some n → add (h.tombstones ref) n = .ok (h'.tombstones ref)) ∧
    ∀ ref, (∀ n, (ref, n) ∉ h.stones mint maxt matched) → h'.tombstones ref = h.tombstones ref := by
  obtain ⟨r, hr, rfl⟩ := map_eq_ok hd
  obtain ⟨hin, hout⟩ := addInterval_foldlM (nodup_stones h mint maxt matched) hr
  refine ⟨fun ref href hm n hn => hin (ref, n) (mem_stones.2 ⟨href, hm, hn⟩), fun ref hno => ?_⟩
  refine hout ref fun hmem => ?_
  obtain ⟨⟨ref', n⟩, hp, rfl⟩ := mem_map.1 hmem
  exact hno n hp

theorem not_mem_stones_of_none (hn : h.clamped mint maxt ref = none) (n : Interval) :
    (ref, n) ∉ h.stones mint maxt matched := fun hmem => by
  rw [(mem_stones.1 hmem).2.2] at hn
  cases hn

section

variable (hc : ∀ ref, Canonical (h.tombstones ref))
include hc

theorem exists_add_of_clean (hclean : Clean h (.delete mint maxt matched))
    (hs : (ref, n) ∈ h.stones mint maxt matched) :
    ∃ r, add (h.tombstones ref) n = .ok r ∧
      ExactFor (h.tombstones ref) r (h.held ref) mint maxt := by
  obtain ⟨href, hm, hn⟩ := mem_stones.1 hs
  obtain ⟨hlo, hhi⟩ := clamped_within hn
  have hfit := hclean ref href hm
  rw [hn] at hfit
  exact (exactFor_iff (hc ref) hlo hhi).2 hfit

theorem clean_of_exact (hexact : Exact h (.delete mint maxt matched)) :
    Clean h (.delete mint maxt matched) := by
  obtain ⟨h', hd, hexact⟩ := hexact
  intro ref href hm
  obtain ⟨hin, hout⟩ := delete_spec hd
  obtain ⟨hcan, hcov⟩ := hexact ref href
  simp only [hm, true_and] at hcov
  cases hn : h.clamped mint maxt ref with
  | none =>
    intro t ht hw
    rw [← hout ref (not_mem_stones_of_none hn)]
    exact (hcov t ht).2 (.inr hw)
  | some n =>
    obtain ⟨hlo, hhi⟩ := clamped_within hn
    exact (exactFor_iff (hc ref) hlo hhi).1 ⟨_, hin ref href hm n hn, hcan, hcov⟩

theorem exact_of_clean (hclean : Clean h (.delete mint maxt matched)) :
    Exact h (.delete mint maxt matched) := by
  obtain ⟨r, hr⟩ : ∃ r, (h.stones mint maxt matched).foldlM addInterval h.tombstones = .ok r := by
    refine returns_addInterval_foldlM (nodup_stones h mint maxt matched) fun stone hs => ?_
    obtain ⟨ins, hins, -⟩ := exists_add_of_clean hc hclean hs
    exact ⟨ins, hins⟩
  have hd : h.delete mint maxt matched = .ok { h with tombstones := r } := by
    rw [Head.delete, hr]; rfl
  obtain ⟨hin, hout⟩ := delete_spec hd
  dsimp only at hin hout
  refine ⟨_, hd, fun ref href => ?_⟩
  dsimp only
  by_cases hm : matched (h.series ref).lset = true
  · simp only [hm, true_and]
    cases hn : h.clamped mint maxt ref with
    | none =>
      have hfit := hclean ref href hm
      rw [hn] at hfit
      rw [hout ref (not_mem_stones_of_none hn)]
      exact ⟨hc ref, fun t ht => ⟨.inl, fun hor => hor.elim id (hfit t ht)⟩⟩
    | some n =>
      obtain ⟨ins, hins, hex⟩ := exists_add_of_clean hc hclean (mem_stones.2 ⟨href, hm, hn⟩)
      cases hins.symm.trans (hin ref href hm n hn)
      exact hex
  · rw [hout ref fun n hmem => hm (mem_stones.1 hmem).2.1]
    exact ⟨hc ref, fun t _ => by simp [hm]⟩

/-- **One step** is exact exactly when it is clean. -/
theorem exact_iff_clean (op : Op L F H FH) : Exact h op ↔ Clean h op := by
  cases op with
  | create _ _ | append _ _ _ _ _ | updateMinMaxTime _ _ => exact Iff.rfl
  | delete mint maxt matched => exact ⟨clean_of_exact hc, exact_of_clean hc⟩

end

end stones

/-! ### Runs -/

section

variable (E : HeadEnv L F H FH A FA) (o : HeadOpts) [DecidableEq F]

/-- No other step touches the tombstones, and a deletion only those of its series. -/
theorem exec_canonical {h h' : Head L F H FH A FA} {op : Op L F H FH} {e : Option Empty}
    (hc : ∀ ref, Canonical (h.tombstones ref)) (hexact : Exact h op)
    (hs : exec E o h op = .ok (h', e)) : ∀ ref, Canonical (h'.tombstones ref) := by
  cases op with
  | create ref lset =>
    cases hs
    unfold Head.create
    split_ifs <;> exact hc
  | append ref x ranges t v =>
    obtain ⟨h1, h1s, he⟩ := map_eq_ok hs
    cases he
    obtain ⟨ok, -, hrest⟩ := bind_eq_ok h1s
    obtain ⟨p, -, hp⟩ := bind_eq_ok hrest
    cases hp
    exact hc
  | updateMinMaxTime mint maxt =>
    cases hs
    exact hc
  | delete mint maxt matched =>
    obtain ⟨h1, h1s, he⟩ := map_eq_ok hs
    cases he
    obtain ⟨h2, h2s, hexact⟩ := hexact
    cases h1s.symm.trans h2s
    intro ref
    by_cases href : ref ∈ h.refs
    · exact (hexact ref href).1
    · rw [(delete_spec h1s).2 ref fun n hmem => href (mem_stones.1 hmem).1]
      exact hc ref

/-- **All deletions of a run are exact** exactly when all of them are clean. -/
theorem run_exact_iff (h : Head L F H FH A FA) (hc : ∀ ref, Canonical (h.tombstones ref))
    (ops : List (Op L F H FH)) :
    Along (exec E o) Exact h ops ↔ Along (exec E o) Clean h ops :=
  along_iff (fun _ op hc => exact_iff_clean hc op)
    (fun _ _ _ _ hc hexact hs => exec_canonical E o hc hexact hs) hc

end

def emptyHead : Head Unit ℚ Unit Unit Unit Unit where
  refs := []
  refs_nodup := nodup_nil
  series := fun ref => ⟨(), newMemSeries ref 0, none, false, true, true⟩
  mapper := []
  minTime := maxInt64
  maxTime := minInt64
  tombstones := fun _ => []
  held := fun _ => []

def openAppender : Appender ℚ Unit Unit :=
  ⟨0, 0, 0, false, 0, 0, none, false, [], [], [], .committing⟩

/-- A series with one sample. -/
def oneSample : List (Op Unit ℚ Unit Unit) :=
  [.create 1 (), .append 1 openAppender default 1000 5, .updateMinMaxTime 1000 1000]

/-- Requests that reach over the samples, with an append between them. -/
theorem run_exact_iff_reaching :
    Along (exec plainHead plainHeadOpts) Exact emptyHead (oneSample ++
      [.delete 500 1500 fun _ => true, .append 1 openAppender default 2000 6,
        .updateMinMaxTime 2000 2000, .delete 1000 9000 fun _ => true]) :=
  (run_exact_iff plainHead plainHeadOpts emptyHead (fun _ => canonical_nil) _).2
    (along_of_check (by decide +kernel))

/-- A request for times after those of the series. -/
theorem not_exact_beside :
    ∃ h, run (exec plainHead plainHeadOpts) emptyHead oneSample = .ok (h, []) ∧
      ¬ Exact h (.delete 5000 6000 fun _ => true) := by
  obtain ⟨⟨h, es⟩, hrun, hv⟩ := map_eq_ok (show
    (run (exec plainHead plainHeadOpts) emptyHead oneSample).map (fun p =>
      (p.1.refs, p.1.tombstones 1, p.1.clamped 5000 6000 1)) =
      .ok ([1], [], some ⟨5000, 1000⟩) by decide +kernel)
  obtain ⟨hrefs, htomb, hclamped⟩ : h.refs = [1] ∧ h.tombstones 1 = [] ∧
      h.clamped 5000 6000 1 = some ⟨5000, 1000⟩ := by simpa using hv
  have href : 1 ∈ h.refs := by rw [hrefs]; simp
  obtain rfl : es = [] := eq_nil_iff_forall_not_mem.2 fun e _ => e.elim
  refine ⟨h, hrun, ?_⟩
  rintro ⟨h', hd, hexact⟩
  have hadd := (delete_spec hd).1 1 href rfl _ hclamped
  rw [htomb] at hadd
  have hproper := (hexact 1 href).1.proper ⟨5000, 1000⟩ (by rw [← Except.ok.inj hadd]; simp)
  exact absurd hproper (show ¬ (5000 : I64).toInt ≤ (1000 : I64).toInt by decide)

end TopcDB.Tsdb.HeadDelete
