import TopcDB.Storage.MergeOrder

/-! # Iterators without deleted samples

`DeletedIterator` wraps an iterator and skips the samples in some intervals of time. It drops an
interval as soon as a sample is later, so that it reads the samples outside of all intervals when
those are sorted and the timestamps ascend (`reads_deletedIterator`). -/

namespace TopcDB.Tsdb.Deleted

open List Go.Basic Chunkenc.Chunk Storage Merge MergeOrder

variable {σ H FH : Type}

/-! ### Intervals -/

/-- `tombstones.Interval`. -/
structure Interval where
  mint : I64
  maxt : I64
  deriving DecidableEq

def Interval.inBounds (tr : Interval) (t : I64) : Bool := tr.mint.sle t && t.sle tr.maxt

def deleted (intervals : List Interval) (t : I64) : Bool := intervals.any fun tr => tr.inBounds t

/-- The intervals are in the order of `Mint`. -/
def Sorted (intervals : List Interval) : Prop :=
  intervals.Pairwise fun tr tr' => tr.mint.toInt ≤ tr'.mint.toInt

theorem inBounds_iff {tr : Interval} {t : I64} :
    tr.inBounds t ↔ tr.mint.toInt ≤ t.toInt ∧ t.toInt ≤ tr.maxt.toInt := by
  simp [Interval.inBounds, BitVec.sle_eq_decide]

/-! ### The iterator -/

structure DeletedIterator (σ : Type) where
  iter : σ
  intervals : List Interval

/-- The inner loop of `Next`: whether the sample at `ts` is skipped, and the intervals left. -/
def skip (ts : I64) : List Interval → Bool × List Interval
  | [] => (false, [])
  | tr :: intervals =>
    if tr.inBounds ts then (true, tr :: intervals)
    else if ts.sle tr.maxt then (false, tr :: intervals)
    else skip ts intervals

def DeletedIterator.next (I : Iterator σ H FH) :
    ℕ → DeletedIterator σ → Except Fault (ValueType × DeletedIterator σ)
  | 0, _ => .error .hang
  | k + 1, it =>
    match I.next it.iter with
    | .error fault => .error fault
    | .ok (.none, s) => .ok (.none, { it with iter := s })
    | .ok (typ, s) =>
      match skip (I.atT s) it.intervals with
      | (true, intervals) => next I k ⟨s, intervals⟩
      | (false, intervals) => .ok (typ, ⟨s, intervals⟩)

/-- The inner loop of `Seek`, which asks first whether the sample is before the interval. -/
def skipSeek (ts : I64) : List Interval → Bool × List Interval
  | [] => (false, [])
  | itv :: intervals =>
    if ts.slt itv.mint then (false, itv :: intervals)
    else if itv.maxt.slt ts then skipSeek ts intervals
    else (true, itv :: intervals)

def DeletedIterator.seek (I : Iterator σ H FH) (k : ℕ) (it : DeletedIterator σ) (t : I64) :
    Except Fault (ValueType × DeletedIterator σ) :=
  if (I.err it.iter).isSome then .ok (.none, it)
  else
    match I.seek it.iter t with
    | .error fault => .error fault
    | .ok (.none, s) => .ok (.none, { it with iter := s })
    | .ok (typ, s) =>
      match skipSeek (I.atT s) it.intervals with
      | (true, intervals) => next I k ⟨s, intervals⟩
      | (false, intervals) => .ok (typ, ⟨s, intervals⟩)

/-- A `DeletedIterator` as an iterator. It has no other methods than an iterator has. -/
def deletedIterator (I : Iterator σ H FH) (k : ℕ) : Iterator (DeletedIterator σ) H FH where
  next := DeletedIterator.next I k
  seek := DeletedIterator.seek I k
  atFloat it := I.atFloat it.iter
  atHistogram it := I.atHistogram it.iter
  atFloatHistogram it := I.atFloatHistogram it.iter
  atT it := I.atT it.iter
  err it := I.err it.iter
  cl _ := none

/-! ### What it reads -/

/-- The iterator in the state `s` has the samples `l` left, and ends without an error. -/
def Reads (I : Iterator σ H FH) : σ → List (ValueType × σ) → Prop
  | s, [] => ∃ s', I.next s = .ok (.none, s') ∧ I.err s' = none
  | s, (typ, s') :: l => typ ≠ .none ∧ I.next s = .ok (typ, s') ∧ Reads I s' l

variable {I : Iterator σ H FH}

theorem reads_of_runs : ∀ {l : List (ValueType × σ)} {s : σ}, Runs I s l →
    Reads I s l
  | [], _, h => h.2
  | _ :: _, _, h => ⟨h.2.1, h.2.2.1, reads_of_runs h.2.2.2.2⟩

def survivors (I : Iterator σ H FH) (intervals : List Interval) (l : List (ValueType × σ)) :
    List (ValueType × σ) :=
  l.filter fun x => !deleted intervals (I.atT x.2)

/-- The inner loop decides rightly, and drops only intervals that are over. -/
theorem skip_spec (ts : I64) : ∀ {intervals : List Interval}, Sorted intervals →
    (skip ts intervals).1 = deleted intervals ts ∧ Sorted (skip ts intervals).2 ∧
      ∀ t : I64, ts.toInt ≤ t.toInt → deleted (skip ts intervals).2 t = deleted intervals t
  | [], h => ⟨rfl, h, fun _ _ => rfl⟩
  | tr :: intervals, h => by
    rw [skip]
    split_ifs with hin hle
    · exact ⟨by simp [deleted, hin], h, fun _ _ => rfl⟩
    · -- the sample is before this interval, and so before all others
      refine ⟨?_, h, fun _ _ => rfl⟩
      have hlt : ts.toInt < tr.mint.toInt := by
        rw [inBounds_iff, not_and_or] at hin
        rw [BitVec.sle_iff_toInt_le] at hle
        omega
      have hno : ∀ tr' ∈ tr :: intervals, tr'.inBounds ts = false := by
        intro tr' htr'
        have hmint : tr.mint.toInt ≤ tr'.mint.toInt := by
          rcases mem_cons.1 htr' with rfl | htr'
          · exact le_rfl
          · exact rel_of_pairwise_cons h htr'
        rw [Bool.eq_false_iff, ne_eq, inBounds_iff]
        omega
      exact (any_eq_false.2 fun tr' htr' => by rw [hno tr' htr']; decide).symm
    · obtain ⟨h1, h2, h3⟩ := skip_spec ts h.of_cons
      rw [BitVec.sle_iff_toInt_le, not_le] at hle
      have hover : ∀ t : I64, ts.toInt ≤ t.toInt → tr.inBounds t = false := fun t ht => by
        rw [Bool.eq_false_iff, ne_eq, inBounds_iff]
        omega
      refine ⟨?_, h2, fun t ht => ?_⟩
      · rw [h1, deleted, deleted, any_cons, hover ts le_rfl, Bool.false_or]
      · rw [h3 t ht, deleted, deleted, any_cons, hover t ht, Bool.false_or]

variable {l : List (ValueType × σ)}

theorem survivors_congr {intervals intervals' : List Interval}
    (h : ∀ x ∈ l, deleted intervals' (I.atT x.2) = deleted intervals (I.atT x.2)) :
    survivors I intervals' l = survivors I intervals l :=
  filter_congr fun x hx => by rw [h x hx]

theorem next_spec : ∀ {k : ℕ} {l : List (ValueType × σ)} {s : σ}
    {intervals : List Interval}, Reads I s l → Ascends I l → Sorted intervals → l.length < k →
    (survivors I intervals l = [] ∧ ∃ s' intervals', DeletedIterator.next I k ⟨s, intervals⟩ =
      .ok (.none, ⟨s', intervals'⟩) ∧ I.err s' = none) ∨
    ∃ x l' intervals', survivors I intervals l = x :: survivors I intervals' l' ∧ x.1 ≠ .none ∧
      DeletedIterator.next I k ⟨s, intervals⟩ = .ok (x.1, ⟨x.2, intervals'⟩) ∧ Reads I x.2 l' ∧
      Ascends I l' ∧ Sorted intervals' ∧ l'.length < l.length
  | 0, _, _, _, _, _, _, hk => by omega
  | k + 1, [], s, intervals, ⟨s', hn, he⟩, _, _, _ =>
    .inl ⟨rfl, s', intervals, by simp only [DeletedIterator.next, hn], he⟩
  | k + 1, (typ, s') :: l, s, intervals, ⟨htyp, hn, hr⟩, ha, hs, hk => by
    obtain ⟨hdel, hs', hsame⟩ := skip_spec (I.atT s') hs
    have hcongr : survivors I (skip (I.atT s') intervals).2 l = survivors I intervals l :=
      survivors_congr fun y hy => hsame _ (rel_of_pairwise_cons ha hy).le
    rcases hskip : skip (I.atT s') intervals with ⟨del, intervals'⟩
    rw [hskip] at hdel hs' hcongr
    have hstep : DeletedIterator.next I (k + 1) ⟨s, intervals⟩ =
        if del then DeletedIterator.next I k ⟨s', intervals'⟩ else .ok (typ, ⟨s', intervals'⟩) := by
      cases typ <;> cases del <;> simp_all [DeletedIterator.next]
    cases del with
    | true =>
      rw [if_pos rfl] at hstep
      have hcons : survivors I intervals ((typ, s') :: l) = survivors I intervals' l := by
        rw [hcongr, survivors, filter_cons_of_neg (by simp [← hdel])]
        rfl
      rcases next_spec hr ha.of_cons hs' (Nat.lt_of_succ_lt_succ hk) with ⟨h0, s1, i1, h1⟩ |
        ⟨y, l', i1, h0, hy, h1, h2, h3, h4, h5⟩
      · exact .inl ⟨hcons.trans h0, s1, i1, hstep ▸ h1⟩
      · exact .inr ⟨y, l', i1, hcons.trans h0, hy, hstep ▸ h1, h2, h3, h4,
          h5.trans (Nat.lt_succ_self _)⟩
    | false =>
      rw [if_neg Bool.false_ne_true] at hstep
      refine .inr ⟨(typ, s'), l, intervals', ?_, htyp, hstep, hr, ha.of_cons, hs',
        Nat.lt_succ_self _⟩
      rw [hcongr, survivors, filter_cons_of_pos (by simp [← hdel])]
      rfl

/-- **A deleted iterator reads the samples outside of its intervals.** -/
theorem reads_deletedIterator {k : ℕ} {s : σ} {intervals : List Interval}
    (hr : Reads I s l) (ha : Ascends I l) (hs : Sorted intervals) (hk : l.length < k) :
    ∃ l', Reads (deletedIterator I k) ⟨s, intervals⟩ l' ∧
      l'.map (fun x => (x.1, x.2.iter)) = survivors I intervals l := by
  obtain ⟨n, hn⟩ : ∃ n, n = l.length := ⟨_, rfl⟩
  induction n using Nat.strongRecOn generalizing l s intervals with
  | ind n ih =>
    rcases next_spec hr ha hs hk with ⟨h0, s', intervals', h1, h2⟩ |
      ⟨x, l', intervals', h0, hx, h1, h2, h3, h4, h5⟩
    · exact ⟨[], ⟨⟨s', intervals'⟩, h1, h2⟩, by rw [h0]; rfl⟩
    · obtain ⟨l1, hr1, hmap⟩ := ih l'.length (hn ▸ h5) h2 h3 h4 (h5.trans hk) rfl
      refine ⟨(x.1, ⟨x.2, intervals'⟩) :: l1, ⟨hx, h1, hr1⟩, ?_⟩
      rw [map_cons, hmap, h0]

end TopcDB.Tsdb.Deleted
