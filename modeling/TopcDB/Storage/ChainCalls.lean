import TopcDB.Storage.ClLaws
import Mathlib.Algebra.Order.BigOperators.Group.List

/-! # Calls of `Next` and `Seek`

Every call on a chained iterator moves to the first timestamp of all iterators that it may move to,
and shows a sample that one of them has there (`calls_visit`). -/

namespace TopcDB.Storage.ChainCalls

open List Lib.Heap Lib.HeapOrder Go.Basic Chunkenc CLMeta CLChunk Chunk Merge MergeOrder AnySeries
open ChainSeek ClLaws

variable {σ H FH : Type}

/-! ### The loop of `Seek` -/

section

variable (I : Iterator σ H FH) (ls : List (List (AnySample H FH)))

/-- The loop of `Seek` to `t` before the iterators `is`: those in the heap are at their first sample
from `t` on, the other ones have ended. -/
structure Seeking (t : ℤ) (its : List σ) (is h : List ℕ) : Prop where
  length : its.length = ls.length
  range : ∀ j ∈ h, j < its.length
  nodup : (is ++ h).Nodup
  todo : ∀ j ∈ is, ∀ s ∈ its[j]?, ∀ l ∈ ls[j]?, Past I l (t - 1) s
  sits : ∀ j ∈ h, ∀ s ∈ its[j]?, ∀ l ∈ ls[j]?, Sits I l (t - 1) s ∧ t ≤ time I s
  ended : ∀ j, j ∉ is → j ∉ h → ∀ s ∈ its[j]?, ∀ l ∈ ls[j]?, Ended I l s ∧ AllBefore l t
  heap : IsHeap (h.map (timeAt I its))

variable {I ls}

theorem isHeap_set {its : List σ} {h : List ℕ} {j : ℕ} {s : σ} (hh : IsHeap (h.map (timeAt I its)))
    (hj : j ∉ h) : IsHeap (h.map (timeAt I (its.set j s))) := by
  have hmap : h.map (timeAt I (its.set j s)) = h.map (timeAt I its) :=
    map_congr_left fun i hi => timeAt_set_of_ne _ fun he => hj (he ▸ hi)
  rwa [hmap]

theorem seekLoop_spec {t : I64} : ∀ {is : List ℕ} {its : List σ} {h : List ℕ},
    Seeking I ls t.toInt its is h → (∀ j ∈ is, j < its.length) →
    ∃ its' h', chainSeekLoop I t is its h = .ok (true, its', h') ∧
      Seeking I ls t.toInt its' [] h'
  | [], its, h, hs, _ => ⟨its, h, rfl, hs⟩
  | i :: is, its, h, hs, hr => by
    have hi : i < its.length := hr i mem_cons_self
    have hget : its[i]? = some its[i] := getElem?_eq_getElem hi
    obtain ⟨l0, hl⟩ : ∃ l0, ls[i]? = some l0 := ⟨_, getElem?_eq_getElem (hs.length ▸ hi)⟩
    obtain ⟨hni, hnd⟩ := nodup_cons.1 hs.nodup
    have hih : i ∉ h := fun hm => hni (mem_append_right _ hm)
    have hiis : i ∉ is := fun hm => hni (mem_append_left _ hm)
    have hset : ∀ s, (its.set i s)[i]? = some s := fun s => getElem?_set_self hi
    have hother : ∀ s j, j ≠ i → (its.set i s)[j]? = its[j]? := fun s j hj =>
      getElem?_set_ne (Ne.symm hj)
    have htodo : ∀ s, ∀ j ∈ is, ∀ s' ∈ (its.set i s)[j]?, ∀ l ∈ ls[j]?,
        Past I l (t.toInt - 1) s' := fun s j hj s' hs' l hl' => by
      rw [hother s j fun he => hiis (he ▸ hj)] at hs'
      exact hs.todo j (mem_cons_of_mem _ hj) s' hs' l hl'
    have hsits : ∀ s, ∀ j ∈ h, ∀ s' ∈ (its.set i s)[j]?, ∀ l ∈ ls[j]?,
        Sits I l (t.toInt - 1) s' ∧ t.toInt ≤ time I s' := fun s j hj s' hs' l hl' => by
      rw [hother s j fun he => hih (he ▸ hj)] at hs'
      exact hs.sits j hj s' hs' l hl'
    have hended : ∀ s j, j ≠ i → j ∉ is → j ∉ h → ∀ s' ∈ (its.set i s)[j]?, ∀ l ∈ ls[j]?,
        Ended I l s' ∧ AllBefore l t.toInt := fun s j hji h1 h2 s' hs' l hl' => by
      rw [hother s j hji] at hs'
      exact hs.ended j (by simp [hji, h1]) h2 s' hs' l hl'
    have hrange : ∀ s, ∀ j ∈ is, j < (its.set i s).length := fun s j hj => by
      rw [length_set]; exact hr j (mem_cons_of_mem _ hj)
    rcases (hs.todo i mem_cons_self _ hget _ hl).seek with
      ⟨typ, s', hseek, htyp, hsit, htime⟩ | ⟨s', hseek, he, hb⟩
    · simp only [chainSeekLoop, hget, hseek, if_pos htyp]
      have hperm := push_perm (less I (its.set i s')) h i
      have hrange' : ∀ j ∈ i :: h, j < (its.set i s').length := by
        rw [length_set, forall_mem_cons]
        exact ⟨hi, hs.range⟩
      refine seekLoop_spec ⟨by rw [length_set, hs.length], fun j hj =>
        hrange' j (hperm.mem_iff.1 hj), ?_, htodo s', fun j hj s2 hs2 l hl2 => ?_,
        fun j h1 h2 => ?_, isHeap_map_push (compares_less hrange') (isHeap_set hs.heap hih)⟩
        (hrange s')
      · exact ((hperm.append_left is).trans perm_middle).nodup_iff.2 hs.nodup
      · rcases mem_cons.1 (hperm.mem_iff.1 hj) with rfl | hj
        · cases (hset s').symm.trans hs2
          cases hl.symm.trans hl2
          exact ⟨hsit, htime⟩
        · exact hsits s' j hj s2 hs2 l hl2
      · rw [hperm.mem_iff, mem_cons, not_or] at h2
        exact hended s' j h2.1 h1 h2.2
    · have herr : I.err s' = none := (laws I _).err_ended he
      simp only [chainSeekLoop, hget, hseek, ne_eq, not_true_eq_false, if_false, herr,
        Option.isSome_none, Bool.false_eq_true]
      refine seekLoop_spec ⟨by rw [length_set, hs.length], fun j hj => ?_, hnd, htodo s',
        hsits s', fun j h1 h2 s2 hs2 l hl2 => ?_, isHeap_set hs.heap hih⟩ (hrange s')
      · rw [length_set]; exact hs.range j hj
      · by_cases hji : j = i
        · subst hji
          cases (hset s').symm.trans hs2
          cases hl.symm.trans hl2
          exact ⟨he, hb⟩
        · exact hended s' j hji h1 h2 s2 hs2 l hl2

end

/-! ### The heap that `Seek` builds -/

section

variable (I : Iterator σ H FH) (ls : List (List (AnySample H FH)))

/-- The timestamps of all samples. -/
def Union (u : ℤ) : Prop := ∃ l ∈ ls, ∃ x ∈ l, x.t.toInt = u

/-- The state is at a sample that one of the iterators has. -/
def HeldBy (typ : ValueType) (s : σ) : Prop := ∃ l ∈ ls, ∃ x ∈ l, typ = x.type ∧ ShowsSample I s x

/-- The iterator `j` is at its first sample from `t` on, the `k`-th one, and has `r` left. -/
structure HeadAt (t : ℤ) (its : List σ) (j : ℕ) (r : List (ValueType × σ)) (s : σ)
    (l : List (AnySample H FH)) (k : ℕ) (x : AnySample H FH) : Prop where
  state : its[j]? = some s
  list : ls[j]? = some l
  sample : l[k]? = some x
  passed : Passed I l (k + 1) s
  before : AllBefore (l.take k) t
  le : t ≤ x.t.toInt
  runs : Runs I s r
  left : Forall₂ (SampleAt I) (l.drop (k + 1)) r

variable {I ls} {t : ℤ} {its : List σ} {h : List ℕ} {l : List (AnySample H FH)} {x : AnySample H FH}
  {j k : ℕ} {r : List (ValueType × σ)} {s : σ}

theorem HeadAt.shows (hd : HeadAt I ls t its j r s l k x) : ShowsSample I s x :=
  (laws I l).shows hd.sample hd.passed

theorem HeadAt.time_eq (hd : HeadAt I ls t its j r s l k x) : time I s = x.t.toInt :=
  congrArg _ hd.shows.t

theorem Seeking.exists_rem (hs : Seeking I ls t its [] h) :
    ∃ rem : ℕ → List (ValueType × σ), (∀ j ∉ h, rem j = []) ∧
      ∀ j ∈ h, ∃ s l k x, HeadAt I ls t its j (rem j) s l k x := by
  have hex : ∀ j : ℕ, ∃ r : List (ValueType × σ), (j ∉ h → r = []) ∧
      (j ∈ h → ∃ s l k x, HeadAt I ls t its j r s l k x) := by
    intro j
    by_cases hj : j ∈ h
    · have hget := getElem?_eq_getElem (hs.range j hj)
      have hl := getElem?_eq_getElem (hs.length ▸ hs.range j hj)
      obtain ⟨⟨k, x, hx, hp, hb⟩, ht⟩ := hs.sits j hj _ hget _ hl
      obtain ⟨r, hr, hall⟩ := Passed.runs rfl hp
      rw [sub_add_cancel] at hb
      rw [time, ((laws I _).shows hx hp).t] at ht
      exact ⟨r, fun h' => absurd hj h', fun _ => ⟨_, _, k, x, hget, hl, hx, hp, hb, ht, hr, hall⟩⟩
    · exact ⟨[], fun _ => rfl, fun h' => absurd h' hj⟩
  choose rem h1 h2 using hex
  exact ⟨rem, h1, h2⟩

theorem Seeking.err (hs : Seeking I ls t its [] h) : ∀ s ∈ its, I.err s = none := by
  intro s hmem
  obtain ⟨j, hj⟩ := mem_iff_getElem?.mp hmem
  have hl := List.getElem?_eq_getElem (hs.length ▸ (List.getElem?_eq_some_iff.1 hj).1)
  by_cases hjh : j ∈ h
  · obtain ⟨⟨k, x, -, hp, -⟩, -⟩ := hs.sits j hjh s hj _ hl
    exact (laws I _).err hp
  · exact (laws I _).err_ended (hs.ended j (by simp) hjh s hj _ hl).1

section rem

variable {rem : ℕ → List (ValueType × σ)}

theorem HeadAt.lt (hd : HeadAt I ls t its j (rem j) s l k x)
    (hasc : l.Pairwise fun x y => x.t.toInt < y.t.toInt) :
    Ascends I (rem j) ∧ ∀ y ∈ rem j, time I s < time I y.2 := by
  have hdrop : l.drop k = x :: l.drop (k + 1) := by
    obtain ⟨hk, rfl⟩ := List.getElem?_eq_some_iff.1 hd.sample
    exact drop_eq_getElem_cons hk
  have hpw : (x :: l.drop (k + 1)).Pairwise fun x y => x.t.toInt < y.t.toInt :=
    hdrop ▸ hasc.sublist (drop_sublist k l)
  rw [pairwise_cons] at hpw
  constructor
  · exact (ascends_iff (atT_eq hd.left)).2 hpw.2
  · intro y hy
    obtain ⟨y', hy', he⟩ := (exists_time_iff (atT_eq hd.left)).1 ⟨y, hy, rfl⟩
    rw [hd.time_eq, ← he]
    exact hpw.1 y' hy'

variable (hs : Seeking I ls t its [] h)
  (hrem : ∀ j ∈ h, ∃ s l k x, HeadAt I ls t its j (rem j) s l k x)
include hs hrem

theorem Seeking.sound (hnil : ∀ j ∉ h, rem j = []) : Sound I (HeldBy I ls) its h h rem where
  err := hs.err
  nodup := hs.nodup
  runs j hj := by
    obtain ⟨s, l, k, x, hd⟩ := hrem j hj
    exact ⟨s, hd.state, hd.runs⟩
  waits j hj := by
    obtain ⟨s, l, k, x, hd⟩ := hrem j hj
    have hself := (laws I l).seek_self hd.sample hd.passed (t := I.atT s) (by rw [hd.shows.t])
    exact ⟨s, x.type, hd.state, type_ne_none x, hself, l, mem_of_getElem? hd.list, x,
      mem_of_getElem? hd.sample, rfl, hd.shows⟩
  mem j y hy := by
    by_cases hj : j ∈ h
    · obtain ⟨s, l, k, x, hd⟩ := hrem j hj
      obtain ⟨x', hx', htyp, hshow⟩ := Lib.Segments.exists_left_of_forall₂ hd.left hy
      exact ⟨l, mem_of_getElem? hd.list, x', drop_subset _ _ hx', htyp, hshow⟩
    · rw [hnil j hj] at hy
      cases hy

section

variable (hasc : ∀ l ∈ ls, l.Pairwise fun x y => x.t.toInt < y.t.toInt)
include hasc

theorem Seeking.ahead {τ : ℤ} (hτ : τ ≤ t) : Ahead I its h h rem τ := by
  have hfacts : ∀ j ∈ h, Ascends I (rem j) ∧ τ ≤ timeAt I its j ∧
      ∀ y ∈ rem j, timeAt I its j < time I y.2 := by
    intro j hj
    obtain ⟨s, l, k, x, hd⟩ := hrem j hj
    obtain ⟨h1, h2⟩ := hd.lt (hasc l (mem_of_getElem? hd.list))
    rw [timeAt_eq hd.state]
    exact ⟨h1, by rw [hd.time_eq]; exact hτ.trans hd.le, h2⟩
  exact ⟨fun j hj => (hfacts j hj).1,
    fun j hj y hy => (hfacts j hj).2.1.trans ((hfacts j hj).2.2 y hy).le, hs.range,
    fun j hj => (hfacts j hj).2.1, fun j hj => (hfacts j hj).2.2, hs.heap⟩

/-- What is to come after `Seek`: the timestamps of all samples from `t` on. -/
theorem Seeking.pending_iff (u : ℤ) : Union ls u ∧ t ≤ u ↔ Pending I its h h rem u := by
  constructor
  · rintro ⟨⟨l, hl, x, hx, rfl⟩, ht⟩
    obtain ⟨j, hj⟩ := mem_iff_getElem?.mp hl
    have hget := List.getElem?_eq_getElem (hs.length ▸ (List.getElem?_eq_some_iff.1 hj).1)
    by_cases hjh : j ∈ h
    · obtain ⟨s, l', k, x', hd⟩ := hrem j hjh
      obtain rfl : l' = l := Option.some.inj (hd.list.symm.trans hj)
      obtain ⟨hk, hxk⟩ := List.getElem?_eq_some_iff.1 hd.sample
      rw [← take_append_drop k l', mem_append, drop_eq_getElem_cons hk, hxk,
        mem_cons] at hx
      rcases hx with hx | rfl | hx
      · exact absurd (hd.before x hx) (not_lt.2 ht)
      · exact .inl ⟨j, hjh, by rw [timeAt_eq hd.state, hd.time_eq]⟩
      · exact .inr ⟨j, hjh, (exists_time_iff (atT_eq hd.left)).2 ⟨x, hx, rfl⟩⟩
    · exact absurd ((hs.ended j (by simp) hjh _ hget l hj).2 x hx) (not_lt.2 ht)
  · rintro (⟨j, hj, rfl⟩ | ⟨j, hj, y, hy, rfl⟩)
    · obtain ⟨s, l, k, x, hd⟩ := hrem j hj
      rw [timeAt_eq hd.state, hd.time_eq]
      exact ⟨⟨l, mem_of_getElem? hd.list, x, mem_of_getElem? hd.sample, rfl⟩, hd.le⟩
    · obtain ⟨s, l, k, x, hd⟩ := hrem j hj
      have hlt := (hd.lt (hasc l (mem_of_getElem? hd.list))).2 y hy
      obtain ⟨x', hx', he⟩ := (exists_time_iff (atT_eq hd.left)).1 ⟨y, hy, rfl⟩
      refine ⟨⟨l, mem_of_getElem? hd.list, x', drop_subset _ _ hx', he⟩, ?_⟩
      rw [hd.time_eq] at hlt
      exact hd.le.trans hlt.le

end

/-- How many calls of `Next` all iterators take together. -/
def allCalls (ls : List (List (AnySample H FH))) : ℕ := (ls.map fun l => l.length + 1).sum

theorem Seeking.left_le : left rem h ≤ allCalls ls := by
  have hsum : allCalls ls =
      ((List.range ls.length).map fun j => (ls.getD j []).length + 1).sum := by
    refine congrArg List.sum (ext_getElem (by simp) fun j h1 h2 => ?_)
    have hj : j < ls.length := by simpa using h1
    simp [getElem?_eq_getElem hj]
  obtain ⟨h', hperm, hsub⟩ : h.Subperm (List.range ls.length) :=
    subperm_of_subset hs.nodup fun j hj => mem_range.2 (hs.length ▸ hs.range j hj)
  rw [left, hsum]
  calc (h.map fun j => (rem j).length + 1).sum
      ≤ (h.map fun j => (ls.getD j []).length + 1).sum := by
        refine sum_le_sum fun j hj => ?_
        obtain ⟨s, l, k, x, hd⟩ := hrem j hj
        rw [getD_eq_getElem?_getD, hd.list, Option.getD_some, ← hd.left.length_eq,
          length_drop]
        omega
    _ = (h'.map fun j => (ls.getD j []).length + 1).sum := (hperm.symm.map _).sum_eq
    _ ≤ _ := (hsub.map _).sum_le_sum fun _ _ => Nat.zero_le _

end rem

end

/-! ### One call -/

section

variable (I : Iterator σ H FH) (ls : List (List (AnySample H FH)))

/-- What the loop of `Next` keeps after the timestamp `t`. -/
def callInv (t : I64) : Invariant σ := (nextInv I (t, Union ls)).and (behindInv I ls t)

/-- A chained iterator at a sample of type `typ` with the timestamp `τ`: the later timestamps are to
come, and nothing after `τ` is behind. -/
def Stands (typ : ValueType) (c : ChainSampleIterator σ) (τ : ℤ) : Prop :=
  ∃ h i rem s, c.h = some h ∧ c.curr = some i ∧ c.iterators[i]? = some s ∧ c.lastT = I.atT s ∧
    time I s = τ ∧ Sound I (HeldBy I ls) c.iterators (i :: h) h rem ∧
    left rem (i :: h) ≤ allCalls ls ∧ HeldBy I ls typ s ∧
    (callInv I ls (I.atT s)).live c.iterators (i :: h) h rem ∧ ∀ l ∈ ls[i]?, Sits I l τ s

/-- A call has moved to the first timestamp after `t`, or there is none. -/
def Moves (t : ℤ) (typ : ValueType) (c : ChainSampleIterator σ) : Prop :=
  typ = .none ∧ (∀ u, Union ls u → u ≤ t) ∨
    ∃ τ, Stands I ls typ c τ ∧ t < τ ∧ Union ls τ ∧ ∀ u, Union ls u → t < u → τ ≤ u

variable {I ls} {typ : ValueType} {c : ChainSampleIterator σ} {τ : ℤ}

theorem keeps_call (I : Iterator σ H FH) (ls : List (List (AnySample H FH))) (t : I64) :
    Keeps I t (callInv I ls t) := (keeps_next I (t, Union ls)).and (keeps_behind I ls t)

theorem moves_of_ends {m : ℕ} {t : I64} (he : Ends I (HeldBy I ls) (callInv I ls t) m typ c)
    (hm : m ≤ allCalls ls + 1) : Moves I ls t.toInt typ c := by
  rcases he with ⟨rfl, -, hnone, -⟩ |
    ⟨-, h, i, rem, s, hh, hi, hget, hlast, hs, hleft, hq, ⟨ha, hlt, hT⟩, -, hb, hsits⟩
  · exact .inl ⟨rfl, hnone⟩
  simp only at hlt hT
  have hsits' : ∀ l ∈ ls[i]?, Sits I l (time I s) s := fun l hl => (hsits l hl).mono hlt.le
  refine .inr ⟨time I s, ⟨h, i, rem, s, hh, hi, hget, hlast, rfl, hs, by omega, hq,
    ⟨⟨ha, fun u hu => ?_⟩, hb.mono hlt.le, fun j hj hjh s' hs' l hl => ?_⟩, hsits'⟩, hlt,
    (hT _ hlt).2 (.inl rfl), fun u hu htu => ?_⟩
  · have hu' : time I s < u := hu
    refine (hT u (hlt.trans hu')).trans ?_
    rw [and_iff_right hu', or_iff_right hu'.ne']
  · obtain rfl := (mem_cons.1 hj).resolve_right hjh
    cases hget.symm.trans hs'
    exact (hsits' l hl).over le_rfl
  · rcases (hT u htu).1 hu with rfl | ⟨hlt', -⟩
    · exact le_rfl
    · exact hlt'.le

theorem next_moves {fuel : ℕ} (h : Stands I ls typ c τ) (hf : allCalls ls ≤ fuel) :
    ∃ typ' c', c.next I fuel = .ok (typ', c') ∧ Moves I ls τ typ' c' := by
  obtain ⟨h0, i, rem, s, hh, hi, -, hlast, rfl, hs, hleft, -, hlive, -⟩ := h
  obtain ⟨typ', c', hn, hends⟩ := nextLoop_spec (k := fuel)
    (p := ⟨c.iterators, h0, i, c.lastT, c.consecutive, false⟩) (keeps_call I ls (I.atT s)) hs hlive
    hlast (hleft.trans hf)
  exact ⟨typ', c', by simp only [ChainSampleIterator.next, hh, hi, hn],
    moves_of_ends hends (by simp only; omega)⟩

theorem seek_moves {t : I64} (hlen : c.iterators.length = ls.length)
    (hasc : ∀ l ∈ ls, l.Pairwise fun x y => x.t.toInt < y.t.toInt)
    (hpast : ∀ j : ℕ, ∀ s ∈ c.iterators[j]?, ∀ l ∈ ls[j]?, Past I l (t.toInt - 1) s)
    (hlast : c.lastT.toInt < t.toInt) :
    ∃ typ c', chainSeek I c t = .ok (typ, c') ∧ Moves I ls (t.toInt - 1) typ c' := by
  have hc : c.curr.filter (fun _ => t.sle c.lastT) = none := by
    have hsle : t.sle c.lastT = false := by
      rw [sle_eq_false]; omega
    rw [hsle]
    cases c.curr <;> rfl
  have hstart : Seeking I ls t.toInt c.iterators (range c.iterators.length) [] := by
    refine ⟨hlen, by simp, by simpa using nodup_range, fun j _ => hpast j, by simp,
      fun j hj _ s hs => ?_, fun i h0 hi => by simp at hi⟩
    exact absurd (List.mem_range.2 (List.getElem?_eq_some_iff.1 hs).1) hj
  obtain ⟨its, h, hloop, hs⟩ := seekLoop_spec hstart fun j hj => mem_range.1 hj
  have hpred := toInt_pred ((BitVec.le_toInt c.lastT).trans_lt (by omega : _ < t.toInt))
  obtain ⟨rem, hnil, hrem⟩ := hs.exists_rem
  have hsound := hs.sound hrem hnil
  have hahead := hs.ahead hrem hasc (by omega : t.toInt - 1 ≤ t.toInt)
  have hpend : ∀ u, t.toInt - 1 < u → (Union ls u ↔ Pending I its h h rem u) := fun u hu => by
    rw [← hs.pending_iff hrem hasc, and_iff_left (by omega)]
  by_cases hne : h = []
  · subst hne
    refine ⟨.none, ⟨its, some [], none, c.lastT, false⟩, by
      simp only [chainSeek, hc, hloop]; rfl, .inl ⟨rfl, fun u hu => ?_⟩⟩
    by_contra hlt
    have := (hpend u (not_le.1 hlt)).1 hu
    simp [Pending] at this
  · have hbeh : Behind I ls its h (t.toInt - 1) := by
      refine ⟨hs.length, hs.nodup, fun j s hjs l hjl => ?_, fun j hj s hjs l hjl =>
        (hs.sits j hj s hjs l hjl).1⟩
      by_cases hj : j ∈ h
      · exact (hs.sits j hj s hjs l hjl).1.past
      · obtain ⟨he, hb⟩ := hs.ended j (by simp) hj s hjs l hjl
        exact .inr ⟨he, by rwa [sub_add_cancel]⟩
    obtain ⟨i, h', s, typ, hpop, hperm, hget, hset, htyp, hseek, hq, hs'⟩ := hsound.top hne
    have hnew : I.atT s ≠ t - 1 := fun he => by
      obtain ⟨s', l, k, x, hd⟩ := hrem i (hperm.mem_iff.1 mem_cons_self)
      cases hd.state.symm.trans hget
      have h1 := hd.time_eq
      have h2 := hd.le
      rw [time, he, hpred] at h1
      omega
    rw [← hpred] at hahead hpend hbeh
    have hlive : (callInv I ls (t - 1)).live its h h rem :=
      ⟨⟨hahead, hpend⟩, hbeh, fun j hj hn => absurd hj hn⟩
    have hfound := ((keeps_call I ls (t - 1)).pop hlive hpop hget).2 hnew
    refine ⟨typ, ⟨its, some h', some i, I.atT s, false⟩, ?_,
      hpred ▸ moves_of_ends (.inr ⟨htyp, h', i, rem, s, rfl, rfl, hget, rfl, hs', ?_, hq,
        hfound⟩) le_rfl⟩
    · simp only [chainSeek, hc, hloop, hpop, hget, chainSeekAt, hseek, Except.map, hset]
    · rw [left_perm rem hperm]
      exact Nat.lt_succ_of_le (hs.left_le hrem)

theorem seek_stays {t : I64} (h : Stands I ls typ c τ) (ht : t.toInt ≤ τ) :
    ∃ typ', chainSeek I c t = .ok (typ', c) ∧ Stands I ls typ' c τ := by
  obtain ⟨h0, i, rem, s, hh, hi, hget, hlast, rfl, hs, hleft, -, hlive, hsits⟩ := h
  obtain ⟨l, hl⟩ := hlive.2.1.exists_list hget
  obtain ⟨k, x, hx, hp, -⟩ := hsits l hl
  have hshow := (laws I l).shows hx hp
  have hseek : I.seek s c.lastT = .ok (x.type, s) :=
    (laws I l).seek_self hx hp (by rw [hlast, hshow.t])
  have hsle : t.sle c.lastT = true := by
    rw [BitVec.sle_iff_toInt_le, hlast]
    exact ht
  have hset : c.iterators.set i s = c.iterators := by
    obtain ⟨hlt', rfl⟩ := List.getElem?_eq_some_iff.1 hget
    exact set_getElem_self hlt'
  refine ⟨x.type, ?_, h0, i, rem, s, hh, hi, hget, hlast, rfl, hs, hleft,
    ⟨l, mem_of_getElem? hl, x, mem_of_getElem? hx, rfl, hshow⟩, hlive, hsits⟩
  simp only [chainSeek, hi, hsle, Option.filter_some, if_true, chainSeekAt, hget, hseek, Except.map,
    hset]
  rw [← hi]

section

variable {rs : List (List (ValueType × σ))} (h : Forall₂ (Forall₂ (SampleAt I)) ls rs)
include h

theorem totalCalls_eq : totalCalls rs = allCalls ls := by
  induction h with
  | nil => rfl
  | cons h _ ih =>
    rw [totalCalls, allCalls, map_cons, map_cons, sum_cons, sum_cons,
      h.length_eq]
    exact congrArg _ ih

theorem union_iff (u : ℤ) :
    (∃ r ∈ rs, ∃ y ∈ r, time I y.2 = u) ↔ Union ls u := by
  unfold Union
  induction h with
  | nil => simp
  | @cons l r ls rs h _ ih =>
    rw [exists_mem_cons_iff, exists_mem_cons_iff, ih, exists_time_iff (atT_eq h)]

end

section inputs

variable {its : List σ} (hin : Forall₂ (Input I) its ls)
include hin

theorem exists_runs :
    ∃ rs, Forall₂ (Runs I) its rs ∧ Forall₂ (Forall₂ (SampleAt I)) ls rs := by
  induction hin with
  | nil => exact ⟨[], Forall₂.nil, Forall₂.nil⟩
  | cons h _ ih =>
    obtain ⟨rs, h1, h2⟩ := ih
    obtain ⟨r, hr, hall⟩ := h.start.runs rfl
    exact ⟨r :: rs, Forall₂.cons hr h1, Forall₂.cons hall h2⟩

theorem exists_input {l : List (AnySample H FH)} (hl : l ∈ ls) : ∃ s, Input I s l :=
  let ⟨s, _, hs⟩ := Lib.Segments.exists_left_of_forall₂ hin hl
  ⟨s, hs⟩

/-- Nothing is behind at the start. -/
theorem past_start (t : ℤ) :
    ∀ j : ℕ, ∀ s ∈ its[j]?, ∀ l ∈ ls[j]?, Over I l t s ∧ Past I l t s := by
  intro j s hs l hl
  obtain ⟨hj, rfl⟩ := List.getElem?_eq_some_iff.1 hs
  obtain ⟨hj', rfl⟩ := List.getElem?_eq_some_iff.1 hl
  have h : Passed I ls[j] 0 its[j] := (hin.get hj hj').start
  exact ⟨⟨0, h, nofun⟩, .inl ⟨0, h, nofun⟩⟩

theorem first_next {fuel : ℕ} (hne : its ≠ []) (hf : allCalls ls ≤ fuel) :
    ∃ typ c, (chainSampleIteratorFromIterators its).next I fuel = .ok (typ, c) ∧
      Moves I ls minInt64.toInt typ c := by
  obtain ⟨rs, hruns, hall⟩ := exists_runs hin
  have hQ : ∀ r ∈ rs, ∀ y ∈ r, HeldBy I ls y.1 y.2 := by
    intro r hr y hy
    obtain ⟨l, hl, hlr⟩ := Lib.Segments.exists_left_of_forall₂ hall hr
    obtain ⟨x, hx, htyp, hshow⟩ := Lib.Segments.exists_left_of_forall₂ hlr hy
    exact ⟨l, hl, x, hx, htyp, hshow⟩
  have hasc : ∀ r ∈ rs, Ascends I r := by
    intro r hr
    obtain ⟨l, hl, hlr⟩ := Lib.Segments.exists_left_of_forall₂ hall hr
    obtain ⟨s, hs⟩ := exists_input hin hl
    exact (ascends_iff (atT_eq hlr)).2 hs.ascends
  have hnext := nextInv_start its hasc
  rw [show (fun u => ∃ r ∈ rs, ∃ y ∈ r, time I y.2 = u) = Union ls from
    funext fun u => propext (union_iff hall u)] at hnext
  have hpast := past_start hin minInt64.toInt
  have hbeh : Behind I ls its [] minInt64.toInt :=
    ⟨hin.length_eq, nodup_nil, fun j s hs l hl => (hpast j s hs l hl).2, by simp⟩
  obtain ⟨typ, c, hn, hends⟩ := next_chain hruns hQ hne (keeps_call I ls minInt64)
    ⟨hnext, hbeh, fun j _ _ s hs l hl => (hpast j s hs l hl).1⟩ ((totalCalls_eq hall).le.trans hf)
  exact ⟨typ, c, hn, moves_of_ends hends ((totalCalls_eq hall).le.trans (Nat.le_succ _))⟩

end inputs

end

/-! ### Sequences of calls -/

/-- The timestamps that a call may move to, from the current one. -/
def Reach : Option ℤ → Call → ℤ → Prop
  | none, .next, _ => True
  | some τ, .next, u => τ < u
  | none, .seek t, u => t.toInt ≤ u
  | some τ, .seek t, u => if t.toInt ≤ τ then u = τ else t.toInt ≤ u

/-- What a chained iterator reads at the sample `x` of one of its iterators, with the hint about
counter resets dropped after a change of the iterator. -/
def ChainReads (I : Iterator σ H FH) (unknown : H → H) (funknown : FH → FH)
    (c : ChainSampleIterator σ) : AnySample H FH → Prop
  | .float t f => c.atFloat I = .ok (t, f)
  | .histogram t h => c.atHistogram I unknown = .ok (t, if c.consecutive then h else unknown h)
  | .floatHistogram t fh =>
    c.atFloatHistogram I funknown = .ok (t, if c.consecutive then fh else funknown fh)

section visits

variable (I : Iterator σ H FH) (unknown : H → H) (funknown : FH → FH)
  (ls : List (List (AnySample H FH)))

/-- The results of calls at the timestamp `cur`: each is at the first timestamp that the call may
move to, with a sample that one of the iterators has there; without one, `ValNone` ends the calls.
-/
def Visits : Option ℤ → List Call → List (ValueType × ChainSampleIterator σ) → Prop
  | _, [], rs => rs = []
  | _, _ :: _, [] => False
  | cur, k :: ks, (typ, c) :: rs =>
    typ = .none ∧ rs = [] ∧ (∀ u, Union ls u → ¬ Reach cur k u) ∨
    ∃ l ∈ ls, ∃ x ∈ l, typ = x.type ∧ ChainReads I unknown funknown c x ∧ Reach cur k x.t.toInt ∧
      (∀ u, Union ls u → Reach cur k u → x.t.toInt ≤ u) ∧ Visits (some x.t.toInt) ks rs

variable {I ls} {its : List σ} {fuel : ℕ} {c : ChainSampleIterator σ}

theorem chainReads_of_current {s : σ} {x : AnySample H FH} (hc : c.current = .ok s)
    (hx : ReadsSample I s x) : ChainReads I unknown funknown c x := by
  cases x with
  | float t f =>
    have hread : I.atFloat s = .ok (t, f) := hx
    simp [ChainReads, ChainSampleIterator.atFloat, hc, hread, ok_bind]
  | histogram t h =>
    have hread : I.atHistogram s = .ok (t, h) := hx
    simp [ChainReads, ChainSampleIterator.atHistogram, hc, hread, ok_bind, pure,
      Except.pure]
  | floatHistogram t fh =>
    have hread : I.atFloatHistogram s = .ok (t, fh) := hx
    simp [ChainReads, ChainSampleIterator.atFloatHistogram, hc, hread, ok_bind, pure,
      Except.pure]

variable {typ : ValueType}

theorem Stands.sample {τ : ℤ} (h : Stands I ls typ c τ) :
    ∃ l ∈ ls, ∃ x ∈ l, typ = x.type ∧ x.t.toInt = τ ∧
      ChainReads I unknown funknown c x := by
  obtain ⟨h0, i, rem, s, -, hi, hget, -, hτ, -, -, ⟨l, hl, x, hx, htyp, hshow⟩, -⟩ := h
  have hcur : c.current = .ok s := by
    simp only [ChainSampleIterator.current, hi, Option.bind_some, hget]
  refine ⟨l, hl, x, hx, htyp, ?_, chainReads_of_current unknown funknown hcur hshow.reads⟩
  rw [← hτ, time, hshow.t]

theorem Stands.lastT {τ : ℤ} (h : Stands I ls typ c τ) : c.lastT.toInt = τ := by
  obtain ⟨h0, i, rem, s, -, -, -, hlast, hτ, -⟩ := h
  rw [hlast]
  exact hτ

/-- A state in which the calls go on: a new iterator, or one at a sample. -/
def Ready (I : Iterator σ H FH) (ls : List (List (AnySample H FH))) (its : List σ) :
    Option ℤ → ChainSampleIterator σ → Prop
  | none, c => c = chainSampleIteratorFromIterators its
  | some τ, c => ∃ typ, Stands I ls typ c τ

/-- How a call ends: at the first timestamp it may move to, or there is none. -/
def CallEnds (I : Iterator σ H FH) (ls : List (List (AnySample H FH))) (cur : Option ℤ) (k : Call)
    (typ : ValueType) (c : ChainSampleIterator σ) : Prop :=
  typ = .none ∧ (∀ u, Union ls u → ¬ Reach cur k u) ∨
    ∃ τ, Stands I ls typ c τ ∧ Reach cur k τ ∧ ∀ u, Union ls u → Reach cur k u → τ ≤ u

/-- A call that moves after a timestamp `t`. -/
theorem callEnds_of_moves {cur : Option ℤ} {k : Call} {t : ℤ}
    (hr : ∀ u, Union ls u → (Reach cur k u ↔ t < u)) (h : Moves I ls t typ c) :
    CallEnds I ls cur k typ c := by
  rcases h with ⟨rfl, hnone⟩ | ⟨τ, hst, hlt, hU, hmin⟩
  · exact .inl ⟨rfl, fun u hu hk => absurd ((hr u hu).1 hk) (not_lt.2 (hnone u hu))⟩
  · exact .inr ⟨τ, hst, (hr τ hU).2 hlt, fun u hu hk => hmin u hu ((hr u hu).1 hk)⟩

variable (hne : its ≠ []) (hin : Forall₂ (Input I) its ls) (hf : allCalls ls ≤ fuel)
include hne hin hf

/-- **One call.** -/
theorem call_ends {cur : Option ℤ} {k : Call} (h : Ready I ls its cur c)
    (hk : ∀ t, k = .seek t → minInt64.toInt < t.toInt) :
    ∃ typ c', call I fuel c k = .ok (typ, c') ∧ CallEnds I ls cur k typ c' := by
  have hasc : ∀ l ∈ ls, l.Pairwise fun x y => x.t.toInt < y.t.toInt := fun l hl =>
    let ⟨_, hs⟩ := exists_input hin hl
    hs.ascends
  have habove : ∀ u, Union ls u → minInt64.toInt < u := by
    rintro u ⟨l, hl, x, hx, rfl⟩
    obtain ⟨s, hs⟩ := exists_input hin hl
    exact hs.above x hx
  rcases cur with _ | τ <;> cases k with
  | next => ?_
  | seek t => ?_
  · obtain rfl := h
    obtain ⟨typ, c', hn, hm⟩ := first_next hin hne hf
    exact ⟨typ, c', hn, callEnds_of_moves (fun u hu => iff_of_true trivial (habove u hu)) hm⟩
  · obtain rfl := h
    obtain ⟨typ, c', hn, hm⟩ := seek_moves (c := chainSampleIteratorFromIterators its)
      hin.length_eq hasc (fun j s hs l hl => (past_start hin _ j s hs l hl).2) (hk t rfl)
    exact ⟨typ, c', hn, callEnds_of_moves (fun u _ => by rw [Reach]; omega) hm⟩
  · obtain ⟨typ, hst⟩ := h
    obtain ⟨typ', c', hn, hm⟩ := next_moves hst hf
    exact ⟨typ', c', hn, callEnds_of_moves (fun u _ => Iff.rfl) hm⟩
  · obtain ⟨typ, hst⟩ := h
    by_cases ht : t.toInt ≤ τ
    · obtain ⟨typ', hn, hst'⟩ := seek_stays hst ht
      refine ⟨typ', c, hn, .inr ⟨τ, hst', ?_, fun u _ hu => ?_⟩⟩
      · rw [Reach, if_pos ht]
      · rw [Reach, if_pos ht] at hu
        exact hu.ge
    · have hlast := hst.lastT
      obtain ⟨h0, i, rem, s, -, -, -, -, rfl, -, -, -, ⟨-, hbeh, -⟩, -⟩ := hst
      obtain ⟨typ', c', hn, hm⟩ := seek_moves (t := t) hbeh.length hasc
        (fun j s hs l hl => (hbeh.past j s hs l hl).mono (Int.le_sub_one_of_lt (not_le.1 ht)))
        (by rw [hlast]; omega)
      refine ⟨typ', c', hn, callEnds_of_moves (fun u _ => ?_) hm⟩
      rw [Reach, if_neg ht]
      omega

theorem runCalls_visits : ∀ {ks : List Call} {cur : Option ℤ} {c : ChainSampleIterator σ},
    Ready I ls its cur c → (∀ t, .seek t ∈ ks → minInt64.toInt < t.toInt) →
    ∃ rs, runCalls I fuel ks c = .ok rs ∧ Visits I unknown funknown ls cur ks rs
  | [], _, _, _, _ => ⟨[], rfl, rfl⟩
  | k :: ks, cur, c, h, hk => by
    obtain ⟨typ, c', hcall, hends⟩ := call_ends hne hin hf h
      fun t ht => hk t (ht ▸ mem_cons_self)
    rcases hends with ⟨rfl, hnone⟩ | ⟨τ, hst, hreach, hmin⟩
    · exact ⟨[(.none, c')], by simp only [runCalls, hcall], .inl ⟨rfl, rfl, hnone⟩⟩
    · have hready : Ready I ls its (some τ) c' := ⟨typ, hst⟩
      obtain ⟨rs, hrun, hvis⟩ := runCalls_visits hready
        fun t ht => hk t (mem_cons_of_mem _ ht)
      obtain ⟨l, hl, x, hx, htyp, rfl, hread⟩ := hst.sample unknown funknown
      refine ⟨(typ, c') :: rs, ?_, .inr ⟨l, hl, x, hx, htyp, hread, hreach, hmin, hvis⟩⟩
      have ht : typ ≠ .none := htyp ▸ type_ne_none x
      rw [runCalls, hcall]
      cases typ with
      | none => exact absurd rfl ht
      | _ => simp only [hrun, Except.map]

/-- **A chained iterator visits the union of the timestamps of its iterators**, whatever calls of
`Next` and `Seek` are made. -/
theorem calls_visit (ks : List Call) (hk : ∀ t, .seek t ∈ ks → minInt64.toInt < t.toInt) :
    ∃ rs, runCalls I fuel ks (chainSampleIteratorFromIterators its) = .ok rs ∧
      Visits I unknown funknown ls none ks rs :=
  runCalls_visits unknown funknown hne hin hf rfl hk

end visits

/-- Two iterators over a chunk with one sample at 1000: `Seek` to 500 comes to it, `Next` skips the
second one. -/
theorem calls_visit_twice : ∃ it, reset default default Compaction.twentiethChunk =
      .ok (some it) ∧ ∃ rs, runCalls (clIterator Unit Unit) 4 [.seek 500, .next]
        (chainSampleIteratorFromIterators [it, it]) = .ok rs ∧
      Visits (clIterator Unit Unit) id id
        [clSamples [⟨1000, 50, 5⟩], clSamples [⟨1000, 50, 5⟩]] none
        [.seek 500, .next] rs := by
  have hm : readCLMeta Compaction.twentiethChunk =
      .ok ⟨1, 14, 1 / 20, some .qSimple8b⟩ := by decide +kernel
  have hdec : decodeChunk default default Compaction.twentiethChunk =
      .ok ([⟨1000, 50, 5⟩], none) := by decide +kernel
  obtain ⟨it, hr, hin⟩ := input_cl Unit Unit hm hdec rfl (by simp) (by decide)
  refine ⟨it, hr, calls_visit id id (by simp) (.cons hin (.cons hin .nil)) (by decide) _ ?_⟩
  intro t ht
  obtain rfl : t = 500 := by simpa using ht
  decide

end TopcDB.Storage.ChainCalls
