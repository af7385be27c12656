import TopcDB.Storage.AnySeries
import TopcDB.Storage.MergeOrder

/-! # `Seek` of chained iterators

`Seek` positions all iterators anew and rebuilds the heap from them, so that a mix of `Next` and
`Seek` meets them at different positions. The iterators obey the laws that the interface asks for
(`Laws`). What every call keeps is that the samples an iterator has left behind are not after the
current timestamp (`Behind`). -/

namespace TopcDB.Storage.ChainSeek

open List Lib.Heap Go.Basic Chunkenc.Chunk Merge MergeOrder AnySeries

variable {σ H FH : Type}

/-! ### `Seek` -/

variable (I : Iterator σ H FH)

/-- The loop of `Seek` over all iterators. It ends early, with false, when one of them reports an
error. -/
def chainSeekLoop (t : I64) : List ℕ → List σ → List ℕ → Except Fault (Bool × List σ × List ℕ)
  | [], iterators, h => .ok (true, iterators, h)
  | i :: is, iterators, h =>
    match iterators[i]? with
    | none => .error .panic
    | some s =>
      match I.seek s t with
      | .error fault => .error fault
      | .ok (typ, s) =>
        let iterators := iterators.set i s
        if typ ≠ .none then chainSeekLoop t is iterators (push (less I iterators) h i)
        else if (I.err s).isSome then .ok (false, iterators, h)
        else chainSeekLoop t is iterators h

/-- The iterator at `i` is asked for its sample at `lastT`. -/
def chainSeekAt (c : ChainSampleIterator σ) (i : ℕ) :
    Except Fault (ValueType × ChainSampleIterator σ) :=
  match c.iterators[i]? with
  | none => .error .panic
  | some s => (I.seek s c.lastT).map fun p => (p.1, { c with iterators := c.iterators.set i p.2 })

/-- `chainSampleIterator.Seek`. -/
def chainSeek (c : ChainSampleIterator σ) (t : I64) :
    Except Fault (ValueType × ChainSampleIterator σ) :=
  match c.curr.filter fun _ => t.sle c.lastT with
  | some i => chainSeekAt I c i
  | none =>
    match chainSeekLoop I t (range c.iterators.length) c.iterators [] with
    | .error fault => .error fault
    | .ok (false, iterators, h) => .ok (.none, ⟨iterators, some h, c.curr, c.lastT, false⟩)
    | .ok (true, iterators, h) =>
      match pop (less I iterators) h with
      | none => .ok (.none, ⟨iterators, some h, none, c.lastT, false⟩)
      | some (i, h) =>
        match iterators[i]? with
        | none => .error .panic
        | some s => chainSeekAt I ⟨iterators, some h, some i, I.atT s, false⟩ i

/-- A call of a reader. -/
inductive Call
  | next
  | seek (t : I64)

def call (fuel : ℕ) (c : ChainSampleIterator σ) :
    Call → Except Fault (ValueType × ChainSampleIterator σ)
  | .next => c.next I fuel
  | .seek t => chainSeek I c t

/-- The results of a sequence of calls, up to the first `ValNone`. -/
def runCalls (fuel : ℕ) : List Call → ChainSampleIterator σ →
    Except Fault (List (ValueType × ChainSampleIterator σ))
  | [], _ => .ok []
  | k :: ks, c =>
    match call I fuel c k with
    | .error fault => .error fault
    | .ok (.none, c) => .ok [(.none, c)]
    | .ok (typ, c) => (runCalls fuel ks c).map fun rs => (typ, c) :: rs

/-! ### Iterators with positions -/

section positions

variable (I : Iterator σ H FH) (l : List (AnySample H FH))

/-- The value that an iterator reads at a sample. -/
def ReadsSample (s : σ) : AnySample H FH → Prop
  | .float t f => I.atFloat s = .ok (t, f)
  | .histogram t h => I.atHistogram s = .ok (t, h)
  | .floatHistogram t fh => I.atFloatHistogram s = .ok (t, fh)

/-- The iterator is at the sample `x`. -/
structure ShowsSample (s : σ) (x : AnySample H FH) : Prop where
  t : I.atT s = x.t
  reads : ReadsSample I s x

/-- All samples are before the timestamp `t`. -/
def AllBefore (t : ℤ) : Prop := ∀ y ∈ l, y.t.toInt < t

/-- The laws of an iterator over the samples `l`. In `passed i` it has gone over the first `i`
samples and is at the last of these; in `ended` it is behind all. `Seek` goes to the first sample
from `t` on and stays when it is there. After the end there need not be a law about `Seek` to a
timestamp passed. -/
structure Laws (passed : ℕ → σ → Prop) (ended : σ → Prop) : Prop where
  le : ∀ {i s}, passed i s → i ≤ l.length
  err : ∀ {i s}, passed i s → I.err s = none
  err_ended : ∀ {s}, ended s → I.err s = none
  shows : ∀ {i s x}, l[i]? = some x → passed (i + 1) s → ShowsSample I s x
  next : ∀ {i s x}, l[i]? = some x → passed i s →
    ∃ s', I.next s = .ok (x.type, s') ∧ passed (i + 1) s'
  next_end : ∀ {s}, passed l.length s → ∃ s', I.next s = .ok (.none, s') ∧ ended s'
  seek_self : ∀ {i s x} {t : I64}, l[i]? = some x → passed (i + 1) s → t.toInt ≤ x.t.toInt →
    I.seek s t = .ok (x.type, s)
  seek : ∀ {i j s x} {t : I64}, l[j]? = some x → passed i s → i ≤ j →
    AllBefore (l.take j) t.toInt → t.toInt ≤ x.t.toInt →
    ∃ s', I.seek s t = .ok (x.type, s') ∧ passed (j + 1) s'
  seek_end : ∀ {i s} {t : I64}, passed i s → AllBefore l t.toInt →
    ∃ s', I.seek s t = .ok (.none, s') ∧ ended s'
  seek_ended : ∀ {s} {t : I64}, ended s → AllBefore l t.toInt →
    ∃ s', I.seek s t = .ok (.none, s') ∧ ended s'

/-- The iterator obeys the laws, and has gone over the first `i` samples. -/
def Passed (i : ℕ) (s : σ) : Prop :=
  ∃ passed ended, Laws I l passed ended ∧ passed i s

/-- The iterator obeys the laws, and is behind all samples. -/
def Ended (s : σ) : Prop :=
  ∃ passed ended, Laws I l passed ended ∧ ended s

/-- A new iterator over samples with ascending timestamps above the smallest int64. -/
structure Input (s : σ) (l : List (AnySample H FH)) : Prop where
  start : Passed I l 0 s
  ascends : l.Pairwise fun x y => x.t.toInt < y.t.toInt
  above : ∀ x ∈ l, minInt64.toInt < x.t.toInt

theorem laws : Laws I l (Passed I l) (Ended I l) where
  le := fun ⟨_, _, h, hp⟩ => h.le hp
  err := fun ⟨_, _, h, hp⟩ => h.err hp
  err_ended := fun ⟨_, _, h, hp⟩ => h.err_ended hp
  shows := fun hx ⟨_, _, h, hp⟩ => h.shows hx hp
  next := fun hx ⟨p, e, h, hp⟩ =>
    let ⟨s', hn, hp'⟩ := h.next hx hp
    ⟨s', hn, p, e, h, hp'⟩
  next_end := fun ⟨p, e, h, hp⟩ =>
    let ⟨s', hn, hp'⟩ := h.next_end hp
    ⟨s', hn, p, e, h, hp'⟩
  seek_self := fun hx ⟨_, _, h, hp⟩ => h.seek_self hx hp
  seek := fun hx ⟨p, e, h, hp⟩ hle hb ht =>
    let ⟨s', hn, hp'⟩ := h.seek hx hp hle hb ht
    ⟨s', hn, p, e, h, hp'⟩
  seek_end := fun ⟨p, e, h, hp⟩ hb =>
    let ⟨s', hn, hp'⟩ := h.seek_end hp hb
    ⟨s', hn, p, e, h, hp'⟩
  seek_ended := fun ⟨p, e, h, hp⟩ hb =>
    let ⟨s', hn, hp'⟩ := h.seek_ended hp hb
    ⟨s', hn, p, e, h, hp'⟩

variable {I l} {s : σ}

theorem type_ne_none (x : AnySample H FH) : x.type ≠ .none := by
  cases x <;> simp [AnySample.type]

/-- The type and the state of a call of `Next` that gives the sample `x`. -/
def SampleAt (I : Iterator σ H FH) (x : AnySample H FH) (y : ValueType × σ) : Prop :=
  y.1 = x.type ∧ ShowsSample I y.2 x

theorem atT_eq {r : List (ValueType × σ)} (h : Forall₂ (SampleAt I) l r) :
    Forall₂ (fun y x => I.atT y.2 = x.t) r l := h.flip.imp fun _ _ hy => hy.2.t

theorem Passed.runs : ∀ {rest : List (AnySample H FH)} {i : ℕ} {s : σ}, l.drop i = rest →
    Passed I l i s →
    ∃ r, Runs I s r ∧ Forall₂ (SampleAt I) rest r
  | [], i, s, hrest, h => by
    have hi : i = l.length := le_antisymm ((laws I l).le h) (drop_eq_nil_iff.1 hrest)
    obtain ⟨s', hn, he⟩ := (laws I l).next_end (hi ▸ h)
    exact ⟨[], ⟨(laws I l).err h, s', hn, (laws I l).err_ended he⟩, Forall₂.nil⟩
  | x :: rest, i, s, hrest, h => by
    have hget : l[i]? = some x := by
      rw [← head?_drop, hrest]; rfl
    have hdrop : l.drop (i + 1) = rest := by
      rw [← drop_drop, hrest]; rfl
    obtain ⟨s', hn, hp⟩ := (laws I l).next hget h
    obtain ⟨r, hr, hall⟩ := Passed.runs hdrop hp
    have hshow := (laws I l).shows hget hp
    refine ⟨(x.type, s') :: r, ⟨(laws I l).err h, type_ne_none x, hn, ?_, hr⟩,
      Forall₂.cons ⟨rfl, hshow⟩ hall⟩
    exact (laws I l).seek_self hget hp (by rw [hshow.t])

theorem exists_first : ∀ {l : List (AnySample H FH)} {t : ℤ}, ¬ AllBefore l t →
    ∃ j x, l[j]? = some x ∧ AllBefore (l.take j) t ∧ t ≤ x.t.toInt
  | [], t, h => absurd (fun y hy => by cases hy) h
  | x :: l, t, h => by
    by_cases hx : x.t.toInt < t
    · obtain ⟨j, y, hget, hb, ht⟩ := exists_first (l := l) (t := t) fun hl =>
        h (forall_mem_cons.2 ⟨hx, hl⟩)
      exact ⟨j + 1, y, hget, forall_mem_cons.2 ⟨hx, hb⟩, ht⟩
    · exact ⟨0, x, rfl, (fun y hy => by cases hy), not_lt.1 hx⟩

/-! ### What lies behind -/

variable (I l)

/-- The samples behind the iterator are not after `τ`. -/
def Past (τ : ℤ) (s : σ) : Prop :=
  (∃ i, Passed I l i s ∧ AllBefore (l.take (i - 1)) (τ + 1)) ∨ Ended I l s ∧ AllBefore l (τ + 1)

/-- The iterator is at a sample, and those before it are not after `τ`. -/
def Sits (τ : ℤ) (s : σ) : Prop :=
  ∃ k x, l[k]? = some x ∧ Passed I l (k + 1) s ∧ AllBefore (l.take k) (τ + 1)

/-- Neither the samples behind the iterator nor its own one are after `τ`. -/
def Over (τ : ℤ) (s : σ) : Prop :=
  ∃ i, Passed I l i s ∧ AllBefore (l.take i) (τ + 1)

variable {I l} {t t' τ τ' : ℤ}

theorem AllBefore.mono (h : AllBefore l t) (ht : t ≤ t') : AllBefore l t' :=
  fun y hy => (h y hy).trans_le ht

theorem Past.mono (h : Past I l τ s) (ht : τ ≤ τ') : Past I l τ' s :=
  h.imp (fun ⟨i, hp, hb⟩ => ⟨i, hp, hb.mono (by omega)⟩) fun ⟨he, hb⟩ => ⟨he, hb.mono (by omega)⟩

theorem Sits.mono (h : Sits I l τ s) (ht : τ ≤ τ') : Sits I l τ' s :=
  let ⟨k, x, hx, hp, hb⟩ := h
  ⟨k, x, hx, hp, hb.mono (by omega)⟩

theorem Sits.past (h : Sits I l τ s) : Past I l τ s :=
  let ⟨k, _, _, hp, hb⟩ := h
  .inl ⟨k + 1, hp, hb⟩

theorem Sits.over (h : Sits I l τ s) (ht : time I s ≤ τ) : Over I l τ s := by
  obtain ⟨k, x, hx, hp, hb⟩ := h
  refine ⟨k + 1, hp, fun y hy => ?_⟩
  have htime : time I s = x.t.toInt := congrArg _ ((laws I l).shows hx hp).t
  rw [take_add_one, hx, mem_append] at hy
  rcases hy with hy | hy
  · exact hb y hy
  · obtain rfl := mem_singleton.1 hy
    omega

theorem Over.next {x : ValueType × σ} (h : Over I l τ s) (hn : I.next s = .ok x)
    (hx : x.1 ≠ .none) : Sits I l τ x.2 := by
  obtain ⟨i, hp, hb⟩ := h
  rcases hy : l[i]? with _ | y
  · obtain rfl : i = l.length := le_antisymm ((laws I l).le hp) (getElem?_eq_none_iff.1 hy)
    obtain ⟨s', hn', -⟩ := (laws I l).next_end hp
    cases hn.symm.trans hn'
    exact absurd rfl hx
  · obtain ⟨s', hn', hp'⟩ := (laws I l).next hy hp
    cases hn.symm.trans hn'
    exact ⟨i, y, hy, hp', hb⟩

theorem Over.next_end {s' : σ} (h : Over I l τ s) (hn : I.next s = .ok (.none, s')) :
    Ended I l s' ∧ AllBefore l (τ + 1) := by
  obtain ⟨i, hp, hb⟩ := h
  rcases hy : l[i]? with _ | y
  · obtain rfl : i = l.length := le_antisymm ((laws I l).le hp) (getElem?_eq_none_iff.1 hy)
    obtain ⟨s2, hn', he⟩ := (laws I l).next_end hp
    cases hn.symm.trans hn'
    exact ⟨he, by rwa [take_length] at hb⟩
  · obtain ⟨s2, hn', -⟩ := (laws I l).next hy hp
    exact absurd (Prod.mk.inj (Except.ok.inj (hn.symm.trans hn'))).1.symm (type_ne_none y)

theorem Past.seek {t : I64} (h : Past I l (t.toInt - 1) s) :
    (∃ typ s', I.seek s t = .ok (typ, s') ∧ typ ≠ .none ∧ Sits I l (t.toInt - 1) s' ∧
      t.toInt ≤ time I s') ∨
    ∃ s', I.seek s t = .ok (.none, s') ∧ Ended I l s' ∧ AllBefore l t.toInt := by
  simp only [Past, Sits, sub_add_cancel] at h ⊢
  rcases h with ⟨i, hp, hb⟩ | ⟨he, hb⟩
  · by_cases hall : AllBefore l t.toInt
    · obtain ⟨s', hs, he⟩ := (laws I l).seek_end hp hall
      exact .inr ⟨s', hs, he, hall⟩
    · obtain ⟨j, x, hx, hbj, ht⟩ := exists_first hall
      have htime : ∀ s', Passed I l (j + 1) s' → t.toInt ≤ time I s' := fun s' hp' => by
        rwa [time, ((laws I l).shows hx hp').t]
      by_cases hij : i ≤ j
      · obtain ⟨s', hs, hp'⟩ := (laws I l).seek hx hp hij hbj ht
        exact .inl ⟨x.type, s', hs, type_ne_none x, ⟨j, x, hx, hp', hbj⟩, htime s' hp'⟩
      · -- the first sample from `t` on is the one of the iterator
        have hj : i = j + 1 := by
          by_contra hne
          refine absurd ht (not_le.2 (hb x (mem_of_getElem? (i := j) ?_)))
          rw [getElem?_take_of_lt (by omega), hx]
        subst hj
        exact .inl ⟨x.type, s, (laws I l).seek_self hx hp ht, type_ne_none x,
          ⟨j, x, hx, hp, hbj⟩, htime s hp⟩
  · obtain ⟨s', hs, he'⟩ := (laws I l).seek_ended he hb
    exact .inr ⟨s', hs, he', hb⟩

end positions

/-! ### What `Next` leaves behind -/

variable (I : Iterator σ H FH) (ls : List (List (AnySample H FH)))

/-- No iterator has left a sample after `τ` behind, and those in the heap are at a sample. -/
structure Behind (its : List σ) (h : List ℕ) (τ : ℤ) : Prop where
  length : its.length = ls.length
  nodup : h.Nodup
  past : ∀ j : ℕ, ∀ s ∈ its[j]?, ∀ l ∈ ls[j]?, Past I l τ s
  waits : ∀ j ∈ h, ∀ s ∈ its[j]?, ∀ l ∈ ls[j]?, Sits I l τ s

/-- The live iterators that do not wait have no sample after `τ` behind, nor are they at one. -/
def Overs (its : List σ) (live h : List ℕ) (τ : ℤ) : Prop :=
  ∀ j ∈ live, j ∉ h → ∀ s ∈ its[j]?, ∀ l ∈ ls[j]?, Over I l τ s

/-- What lies behind in the loop after the timestamp `t`. -/
def behindInv (t : I64) : Invariant σ where
  live its live h _ := Behind I ls its h t.toInt ∧ Overs I ls its live h t.toInt
  shown its j s live h _ := its[j]? = some s ∧ j ∉ h ∧ Behind I ls its h t.toInt ∧
    (∀ l ∈ ls[j]?, Sits I l t.toInt s) ∧ Overs I ls its live h t.toInt
  found its i s h _ := i ∉ h ∧ Behind I ls its h t.toInt ∧ ∀ l ∈ ls[i]?, Sits I l t.toInt s
  none := True

variable {I ls} {its : List σ} {h : List ℕ} {τ : ℤ}

theorem Behind.mono (hb : Behind I ls its h τ) {τ' : ℤ} (ht : τ ≤ τ') : Behind I ls its h τ' where
  length := hb.length
  nodup := hb.nodup
  past j s hs l hl := (hb.past j s hs l hl).mono ht
  waits j hj s hs l hl := (hb.waits j hj s hs l hl).mono ht

variable {j : ℕ}

theorem Behind.exists_list (hb : Behind I ls its h τ) {s : σ} (hs : its[j]? = some s) :
    ∃ l, ls[j]? = some l :=
  ⟨_, List.getElem?_eq_getElem (hb.length ▸ (List.getElem?_eq_some_iff.1 hs).1)⟩

theorem Behind.set (hb : Behind I ls its h τ) {s : σ} (hj : j ∉ h)
    (hp : ∀ l ∈ ls[j]?, Past I l τ s) : Behind I ls (its.set j s) h τ where
  length := by rw [length_set, hb.length]
  nodup := hb.nodup
  past i s' hs' l hl := by
    by_cases hi : i = j
    · subst hi
      obtain ⟨hlt, -⟩ := List.getElem?_eq_some_iff.1 hs'
      rw [length_set] at hlt
      cases (List.getElem?_set_self hlt).symm.trans hs'
      exact hp l hl
    · rw [getElem?_set_ne (Ne.symm hi)] at hs'
      exact hb.past i s' hs' l hl
  waits i hi s' hs' l hl := by
    have hij : j ≠ i := fun he => hj (he ▸ hi)
    rw [getElem?_set_ne hij] at hs'
    exact hb.waits i hi s' hs' l hl

theorem Behind.push (hb : Behind I ls its h τ) (hn : j ∉ h)
    (hj : ∀ s ∈ its[j]?, ∀ l ∈ ls[j]?, Sits I l τ s) :
    Behind I ls its (push (less I its) h j) τ where
  length := hb.length
  nodup := (push_perm (less I its) h j).nodup_iff.2 (nodup_cons.2 ⟨hn, hb.nodup⟩)
  past := hb.past
  waits i hi := by
    rcases mem_cons.1 ((push_perm (less I its) h j).mem_iff.1 hi) with rfl | hi
    · exact hj
    · exact hb.waits i hi

theorem Overs.set {live : List ℕ} (ho : Overs I ls its (j :: live) h τ) (hj : j ∉ live)
    (s : σ) : Overs I ls (its.set j s) live h τ := fun k hk hkh s' hs' => by
  rw [getElem?_set_ne fun (he : j = k) => hj (he ▸ hk)] at hs'
  exact ho k (mem_cons_of_mem _ hk) hkh s' hs'

theorem keeps_behind (I : Iterator σ H FH) (ls : List (List (AnySample H FH))) (t : I64) :
    Keeps I t (behindInv I ls t) where
  perm hperm h := ⟨h.1, fun j hj => h.2 j (hperm.mem_iff.1 hj)⟩
  consume {its j s x live h rem l} ha hw hj hs hn hx _ := by
    have hsit : ∀ l ∈ ls[j]?, Sits I l t.toInt x.2 := fun l hl =>
      (ha.2 j mem_cons_self hw s hs l hl).next hn hx
    exact ⟨getElem?_set_self (List.getElem?_eq_some_iff.1 hs).1, hw,
      ha.1.set hw fun l hl => (hsit l hl).past, hsit, ha.2.set hj _⟩
  ended ha hw hj hs hn _ :=
    ⟨ha.1.set hw fun l hl => .inr ((ha.2 _ mem_cons_self hw _ hs l hl).next_end hn), ha.2.set hj _⟩
  skip hb ht := by
    obtain ⟨hs, hw, hb, hsit, ho⟩ := hb
    refine ⟨hb, fun k hk hkh s' hs' l hl => ?_⟩
    rcases mem_cons.1 hk with rfl | hk
    · cases hs.symm.trans hs'
      exact (hsit l hl).over (by rw [time, ht])
    · exact ho k hk hkh s' hs' l hl
  push {its j s live h rem} hb := by
    obtain ⟨hs, hw, hb, hsit, ho⟩ := hb
    refine ⟨hb.push hw fun s' hs' l hl => ?_, fun k hk hkh => ?_⟩
    · cases hs.symm.trans hs'
      exact hsit l hl
    · rw [(push_perm (less I its) h j).mem_iff, mem_cons, not_or] at hkh
      exact ho k ((mem_cons.1 hk).resolve_left hkh.1) hkh.2
  found hb _ _ :=
    let ⟨_, hw, hb, hsit, _⟩ := hb
    ⟨hw, hb, hsit⟩
  pop {its i s h h' rem} ha hpop hs := by
    have hmem : ∀ j ∈ i :: h', j ∈ h := fun j => (pop_perm _ hpop).mem_iff.1
    obtain ⟨hi, hnd⟩ := nodup_cons.1 ((pop_perm _ hpop).nodup_iff.2 ha.1.nodup)
    have hb : Behind I ls its h' t.toInt :=
      ⟨ha.1.length, hnd, ha.1.past, fun j hj => ha.1.waits j (hmem j (mem_cons_of_mem _ hj))⟩
    have hsit := ha.1.waits i (hmem i mem_cons_self) s hs
    exact ⟨⟨hs, hi, hb, hsit, fun j hj hn => absurd hj hn⟩, fun _ => ⟨hi, hb, hsit⟩⟩
  none _ := trivial

end TopcDB.Storage.ChainSeek
