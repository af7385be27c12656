import TopcDB.Lib.HeapOrder
import TopcDB.Storage.Merge

/-! # The order of chained iterators

When the timestamps of every iterator ascend, a chained iterator visits every timestamp of theirs
once, in ascending order (`visits_ascending`). There is one exception: `lastT` starts at the
smallest int64, and a sample with this timestamp counts as one that was visited before. -/

namespace TopcDB.Storage.MergeOrder

open Function List Lib.Heap Lib.HeapOrder Go.Basic Chunkenc.Chunk Merge

variable {σ H FH : Type} (I : Iterator σ H FH)

def time (s : σ) : ℤ := (I.atT s).toInt

def timeAt (its : List σ) (i : ℕ) : ℤ := (its[i]?.map (time I)).getD 0

def Ascends (l : List (ValueType × σ)) : Prop := l.Pairwise fun x y => time I x.2 < time I y.2

section

variable {I} {β : Type} {g : β → I64} {l : List (ValueType × σ)} {ys : List β}
  (h : Forall₂ (fun x y => I.atT x.2 = g y) l ys)
include h

theorem map_time : l.map (fun x => time I x.2) = ys.map fun y => (g y).toInt := by
  rw [← forall₂_eq_eq_eq, forall₂_map_left_iff, forall₂_map_right_iff]
  exact h.imp fun x y hx => congrArg BitVec.toInt hx

theorem ascends_iff : Ascends I l ↔ ys.Pairwise fun y y' => (g y).toInt < (g y').toInt := by
  rw [Ascends, ← pairwise_map (R := (· < ·)), map_time h, pairwise_map]

theorem exists_time_iff {u : ℤ} : (∃ x ∈ l, time I x.2 = u) ↔ ∃ y ∈ ys, (g y).toInt = u := by
  rw [← mem_map (f := fun x : ValueType × σ => time I x.2), map_time h, mem_map]

end

/-- The timestamp `u` is to come: it is that of a waiting iterator, or of a sample that a live one
has left. -/
def Pending (its : List σ) (live waiting : List ℕ) (rem : ℕ → List (ValueType × σ))
    (u : ℤ) : Prop :=
  (∃ i ∈ waiting, timeAt I its i = u) ∨ ∃ i ∈ live, ∃ x ∈ rem i, time I x.2 = u

/-- The iterators are ahead of the timestamp `t`, and wait in the order of a heap. -/
structure Ahead (its : List σ) (live waiting : List ℕ) (rem : ℕ → List (ValueType × σ)) (t : ℤ) :
    Prop where
  ascends : ∀ i ∈ live, Ascends I (rem i)
  le : ∀ i ∈ live, ∀ x ∈ rem i, t ≤ time I x.2
  range : ∀ i ∈ waiting, i < its.length
  wait : ∀ i ∈ waiting, t ≤ timeAt I its i
  lt : ∀ i ∈ waiting, ∀ x ∈ rem i, timeAt I its i < time I x.2
  heap : IsHeap (waiting.map (timeAt I its))

variable {I} {its : List σ} {live waiting : List ℕ} {rem : ℕ → List (ValueType × σ)} {t : ℤ} {j : ℕ}
  {l : List (ValueType × σ)} {x : ValueType × σ}

theorem Ascends.head_le (h : Ascends I l) (hx : l.head? = some x) :
    ∀ y ∈ l, time I x.2 ≤ time I y.2 := by
  obtain ⟨tl, rfl⟩ := head?_eq_some_iff.1 hx
  rw [forall_mem_cons]
  exact ⟨le_rfl, fun y hy => (rel_of_pairwise_cons h hy).le⟩

theorem Ascends.le_last (h : Ascends I l) (hx : l.getLast? = some x) :
    ∀ y ∈ l, time I y.2 ≤ time I x.2 := by
  obtain ⟨init, rfl⟩ := getLast?_eq_some_iff.1 hx
  intro y hy
  rcases mem_append.1 hy with hy | hy
  · exact ((pairwise_append.1 h).2.2 y hy x mem_cons_self).le
  · rw [mem_singleton.1 hy]

theorem timeAt_eq {s : σ} (h : its[j]? = some s) : timeAt I its j = time I s := by
  rw [timeAt, h]; rfl

variable {i m curr fuel k : ℕ}

theorem less_eq {s : σ} (hj : its[j]? = some s) (hi : i < its.length) :
    less I its j i = decide (time I s < timeAt I its i) := by
  have hi' := getElem?_eq_getElem hi
  simp only [less, hj, hi', timeAt_eq hi', BitVec.slt_eq_decide]
  rfl

theorem compares_less {l : List ℕ} (h : ∀ i ∈ l, i < its.length) :
    Compares (less I its) (timeAt I its) l := by
  intro i hi j hj
  have hi' := getElem?_eq_getElem (h i hi)
  rw [less_eq hi' (h j hj), timeAt_eq hi']
  rfl

theorem timeAt_set_of_ne (s : σ) (h : i ≠ j) : timeAt I (its.set j s) i = timeAt I its i := by
  rw [timeAt, getElem?_set_ne (Ne.symm h)]; rfl

theorem Ahead.mono (h : Ahead I its live waiting rem t) {live' : List ℕ}
    (hl : ∀ i ∈ live', i ∈ live) : Ahead I its live' waiting rem t where
  ascends i hi := h.ascends i (hl i hi)
  le i hi := h.le i (hl i hi)
  range := h.range
  wait := h.wait
  lt := h.lt
  heap := h.heap

/-- The iterator `j` goes on to its next sample, which is then neither left nor waiting. -/
theorem Ahead.consume (h : Ahead I its (j :: live) waiting rem t) (hw : j ∉ waiting) (hj : j ∉ live)
    (hr : rem j = x :: l) :
    Ahead I (its.set j x.2) (j :: live) waiting (update rem j l) t ∧
      t ≤ time I x.2 ∧ (∀ y ∈ l, time I x.2 < time I y.2) ∧
      ∀ u, Pending I its (j :: live) waiting rem u ↔ u = time I x.2 ∨
        Pending I (its.set j x.2) (j :: live) waiting (update rem j l) u := by
  have hasc : Ascends I (x :: l) := hr ▸ h.ascends j mem_cons_self
  have hne : ∀ i ∈ waiting, i ≠ j := fun i hi he => hw (he ▸ hi)
  have hnl : ∀ i ∈ live, i ≠ j := fun i hi he => hj (he ▸ hi)
  have hmap : waiting.map (timeAt I (its.set j x.2)) = waiting.map (timeAt I its) :=
    map_congr_left fun i hi => timeAt_set_of_ne _ (hne i hi)
  refine ⟨⟨fun i hi => ?_, fun i hi y hy => ?_, fun i hi => ?_, fun i hi => ?_, fun i hi => ?_, ?_⟩,
    h.le j mem_cons_self x (by rw [hr]; exact mem_cons_self),
    fun y => rel_of_pairwise_cons hasc, fun u => ?_⟩
  · rcases mem_cons.1 hi with rfl | hi
    · rw [update_self]
      exact hasc.of_cons
    · rw [update_of_ne (hnl i hi)]
      exact h.ascends i (mem_cons_of_mem _ hi)
  · rcases mem_cons.1 hi with rfl | hi
    · rw [update_self] at hy
      exact h.le i mem_cons_self y (by rw [hr]; exact mem_cons_of_mem _ hy)
    · rw [update_of_ne (hnl i hi)] at hy
      exact h.le i (mem_cons_of_mem _ hi) y hy
  · rw [length_set]
    exact h.range i hi
  · rw [timeAt_set_of_ne _ (hne i hi)]
    exact h.wait i hi
  · rw [timeAt_set_of_ne _ (hne i hi), update_of_ne (hne i hi)]
    exact h.lt i hi
  · rw [hmap]
    exact h.heap
  · simp only [Pending, exists_mem_cons_iff, update_self, hr]
    have h1 : (∃ i ∈ waiting, timeAt I (its.set j x.2) i = u) ↔
        ∃ i ∈ waiting, timeAt I its i = u :=
      exists_congr fun i => and_congr_right fun hi => by rw [timeAt_set_of_ne _ (hne i hi)]
    have h2 : (∃ i ∈ live, ∃ y ∈ update rem j l i, time I y.2 = u) ↔
        ∃ i ∈ live, ∃ y ∈ rem i, time I y.2 = u :=
      exists_congr fun i => and_congr_right fun hi => by rw [update_of_ne (hnl i hi)]
    rw [h1, h2, eq_comm (a := u), or_assoc, or_left_comm]

theorem Ahead.ended (h : Ahead I its (j :: live) waiting rem t) (hw : j ∉ waiting)
    (hr : rem j = []) (s : σ) : Ahead I (its.set j s) live waiting rem t ∧
      ∀ u, Pending I its (j :: live) waiting rem u ↔
        Pending I (its.set j s) live waiting rem u := by
  have htime : ∀ i ∈ waiting, timeAt I (its.set j s) i = timeAt I its i := fun i hi =>
    timeAt_set_of_ne _ fun he => hw (he ▸ hi)
  refine ⟨⟨fun i hi => h.ascends i (mem_cons_of_mem _ hi),
    fun i hi => h.le i (mem_cons_of_mem _ hi), fun i hi => ?_, fun i hi => ?_, fun i hi => ?_, ?_⟩,
    fun u => ?_⟩
  · rw [length_set]
    exact h.range i hi
  · rw [htime i hi]
    exact h.wait i hi
  · rw [htime i hi]
    exact h.lt i hi
  · rw [map_congr_left htime]
    exact h.heap
  · simp only [Pending, exists_mem_cons_iff, hr, not_mem_nil, false_and, exists_false,
      false_or]
    refine or_congr_left (exists_congr fun i => and_congr_right fun hi => ?_)
    rw [htime i hi]

theorem Ahead.push (h : Ahead I its (j :: live) waiting rem t) {s : σ} (hs : its[j]? = some s)
    (ht : t ≤ time I s) (hlt : ∀ x ∈ rem j, time I s < time I x.2) :
    Ahead I its (j :: live) (push (less I its) waiting j) rem t ∧
      ∀ u, Pending I its (j :: live) (push (less I its) waiting j) rem u ↔ u = time I s ∨
        Pending I its (j :: live) waiting rem u := by
  have hperm := push_perm (less I its) waiting j
  have hmem : ∀ {i}, i ∈ Lib.Heap.push (less I its) waiting j ↔ i = j ∨ i ∈ waiting := by
    intro i
    rw [hperm.mem_iff, mem_cons]
  have hrange : ∀ i ∈ j :: waiting, i < its.length := by
    intro i hi
    rcases mem_cons.1 hi with rfl | hi
    · exact (List.getElem?_eq_some_iff.1 hs).1
    · exact h.range i hi
  have htime := timeAt_eq (I := I) hs
  refine ⟨⟨h.ascends, h.le, fun i hi => ?_, fun i hi => ?_, fun i hi => ?_,
    isHeap_map_push (compares_less hrange) h.heap⟩, fun u => ?_⟩
  · exact hrange i (mem_cons.2 (hmem.1 hi))
  · rcases hmem.1 hi with rfl | hi
    · rwa [htime]
    · exact h.wait i hi
  · rcases hmem.1 hi with rfl | hi
    · rwa [htime]
    · exact h.lt i hi
  · simp only [Pending, hmem, or_and_right, exists_or, exists_eq_left, htime,
      eq_comm (a := u), or_assoc]

/-! ### One call of `Next` -/

/-- The last timestamp, and the timestamps that are to come. -/
abbrev Goal := I64 × (ℤ → Prop)

/-- After `g.1` the iterators are ahead of it and have the timestamps in `g.2` to come, of which the
sample found is the first. -/
def nextInv (I : Iterator σ H FH) (g : Goal) : Invariant σ where
  live its live h rem := Ahead I its live h rem g.1.toInt ∧
    ∀ u, g.1.toInt < u → (g.2 u ↔ Pending I its live h rem u)
  shown its j s live h rem := its[j]? = some s ∧ g.1.toInt ≤ time I s ∧
    (∀ x ∈ rem j, time I s < time I x.2) ∧ Ahead I its (j :: live) h rem g.1.toInt ∧
    ∀ u, g.1.toInt < u → (g.2 u ↔ u = time I s ∨ Pending I its (j :: live) h rem u)
  found its i s h rem := Ahead I its (i :: h) h rem (time I s) ∧ g.1.toInt < time I s ∧
    ∀ u, g.1.toInt < u → (g.2 u ↔ u = time I s ∨ time I s < u ∧ Pending I its (i :: h) h rem u)
  none := ∀ u, g.2 u → u ≤ g.1.toInt

variable {g : Goal}

/-- A sample that no waiting iterator is before is the next one. -/
theorem nextInv_found {h0 : List ℕ} {s : σ} (h : (nextInv I g).shown its j s h0 h0 rem)
    (hnew : I.atT s ≠ g.1) (hfirst : ∀ i ∈ h0, time I s ≤ timeAt I its i) :
    (nextInv I g).found its j s h0 rem := by
  obtain ⟨-, hle, hrem, ha, hT⟩ := h
  have hall : ∀ i ∈ j :: h0, ∀ x ∈ rem i, time I s < time I x.2 := by
    intro i hi x hx
    rcases mem_cons.1 hi with rfl | hi
    · exact hrem x hx
    · exact (hfirst i hi).trans_lt (ha.lt i hi x hx)
  refine ⟨⟨ha.ascends, fun i hi x hx => (hall i hi x hx).le, ha.range, hfirst, ha.lt, ha.heap⟩,
    lt_of_le_of_ne hle fun he => hnew (BitVec.eq_of_toInt_eq he.symm), fun u hu => ?_⟩
  rw [hT u hu]
  refine or_congr_right' fun hne => (and_iff_right_of_imp fun hp => ?_).symm
  refine lt_of_le_of_ne ?_ (Ne.symm hne)
  rcases hp with ⟨i, hi, rfl⟩ | ⟨i, hi, x, hx, rfl⟩
  · exact hfirst i hi
  · exact (hall i hi x hx).le

theorem Ahead.pop {h h' : List ℕ} {s : σ} (ha : Ahead I its h h rem t)
    (hpop : pop (less I its) h = some (i, h')) (hget : its[i]? = some s) :
    Ahead I its (i :: h') h' rem t ∧ t ≤ time I s ∧ (∀ x ∈ rem i, time I s < time I x.2) ∧
      (∀ k ∈ h', time I s ≤ timeAt I its k) ∧
      ∀ u, Pending I its h h rem u ↔ u = time I s ∨ Pending I its (i :: h') h' rem u := by
  obtain ⟨hheap, hmin⟩ := isHeap_map_pop (compares_less ha.range) ha.heap hpop
  have htime := timeAt_eq (I := I) hget
  rw [htime] at hmin
  have hmem : ∀ {k}, k ∈ i :: h' ↔ k ∈ h := (pop_perm _ hpop).mem_iff
  have hi : i ∈ h := hmem.1 mem_cons_self
  have hsub : ∀ k ∈ h', k ∈ h := fun k hk => hmem.1 (mem_cons_of_mem _ hk)
  refine ⟨⟨fun k hk => ha.ascends k (hmem.1 hk), fun k hk => ha.le k (hmem.1 hk),
    fun k hk => ha.range k (hsub k hk), fun k hk => ha.wait k (hsub k hk),
    fun k hk => ha.lt k (hsub k hk), hheap⟩, htime ▸ ha.wait i hi, htime ▸ ha.lt i hi,
    fun k hk => hmin k (hsub k hk), fun u => ?_⟩
  -- without the iterator `i` only its timestamp is no longer to come
  have h1 : (∃ k ∈ h, timeAt I its k = u) ↔ u = time I s ∨ ∃ k ∈ h', timeAt I its k = u := by
    simp only [← hmem, exists_mem_cons_iff, htime, eq_comm]
  have h2 : (∃ k ∈ h, ∃ x ∈ rem k, time I x.2 = u) ↔
      ∃ k ∈ i :: h', ∃ x ∈ rem k, time I x.2 = u := by
    simp only [hmem]
  rw [Pending, h1, h2, or_assoc]
  rfl

theorem keeps_next (I : Iterator σ H FH) (g : Goal) : Keeps I g.1 (nextInv I g) where
  perm hperm h := by
    refine ⟨h.1.mono fun i hi => hperm.mem_iff.1 hi, fun u hu => (h.2 u hu).trans ?_⟩
    simp only [Pending, hperm.mem_iff]
  consume h hw hj hs _ _ hr := by
    obtain ⟨ha, hle, hlt, hpend⟩ := h.1.consume hw hj hr
    refine ⟨getElem?_set_self (List.getElem?_eq_some_iff.1 hs).1, hle, ?_, ha, fun u hu =>
      (h.2 u hu).trans (hpend u)⟩
    rwa [update_self]
  ended h hw _ _ _ hr :=
    let ⟨ha, hpend⟩ := h.1.ended hw hr _
    ⟨ha, fun u hu => (h.2 u hu).trans (hpend u)⟩
  skip h ht := by
    obtain ⟨-, -, -, ha, hT⟩ := h
    refine ⟨ha, fun u hu => (hT u hu).trans (or_iff_right ?_)⟩
    rw [time, ht]
    exact hu.ne'
  push h := by
    obtain ⟨hs, hle, hrem, ha, hT⟩ := h
    obtain ⟨ha', hpend⟩ := ha.push hs hle hrem
    exact ⟨ha', fun u hu => (hT u hu).trans (hpend u).symm⟩
  found {its j s h rem} hb hnew htop := by
    refine nextInv_found hb hnew fun i hi => ?_
    obtain ⟨hs, -, -, ha, -⟩ := hb
    obtain ⟨top, tl, rfl⟩ := exists_cons_of_ne_nil (ne_nil_of_mem hi)
    have hless := htop top rfl
    rw [less_eq hs (ha.range top mem_cons_self), decide_eq_true_iff] at hless
    exact hless.le.trans (ha.heap.head_le rfl _ (mem_map_of_mem hi))
  pop h hpop hs := by
    obtain ⟨ha, hle, hrem, hfirst, hpend⟩ := h.1.pop hpop hs
    have hb : (nextInv I g).shown _ _ _ _ _ _ :=
      ⟨hs, hle, hrem, ha, fun u hu => (h.2 u hu).trans (hpend u)⟩
    exact ⟨hb, fun hnew => nextInv_found hb hnew hfirst⟩
  none h u hu := by
    by_contra hlt
    simpa [Pending] using (h.2 u (not_le.1 hlt)).1 hu

/-! ### Whole runs -/

/-- The samples `ss` are a merge of the lists `ls`: one for each timestamp but the smallest int64,
in ascending order. -/
structure Merges (I : Iterator σ H FH) (ls : List (List (ValueType × σ)))
    (ss : List (ValueType × σ)) : Prop where
  mem : ∀ x ∈ ss, ∃ l ∈ ls, x ∈ l
  ascends : Ascends I ss
  covers : ∀ u, (∃ x ∈ ss, time I x.2 = u) ↔
    minInt64.toInt < u ∧ ∃ l ∈ ls, ∃ x ∈ l, time I x.2 = u

/-- The sample `s` is the first one to come after `g.1`, and leaves the later ones to come. -/
def Comes (I : Iterator σ H FH) (g : Goal) (s : σ) (g' : Goal) : Prop :=
  g'.1 = I.atT s ∧ g.1.toInt < time I s ∧
    ∀ u, g.1.toInt < u → (g.2 u ↔ u = time I s ∨ time I s < u ∧ g'.2 u)

theorem ascends_of_trace : ∀ {ss : List (ValueType × σ)} {g : Goal},
    Trace (Comes I) (fun g => (nextInv I g).none) g ss →
    Ascends I ss ∧ (∀ x ∈ ss, g.1.toInt < time I x.2) ∧
      ∀ u, g.1.toInt < u → (g.2 u ↔ ∃ x ∈ ss, time I x.2 = u)
  | [], g, h => by
    refine ⟨Pairwise.nil, by simp, fun u hu => ?_⟩
    simp only [not_mem_nil, false_and, exists_false, iff_false]
    exact fun hu' => absurd (h u hu') (not_le.2 hu)
  | (typ, s) :: ss, g, ⟨g', ⟨hg', hlt, hT⟩, h⟩ => by
    obtain ⟨hasc, hfirst, hcov⟩ := ascends_of_trace h
    rw [hg'] at hfirst hcov
    refine ⟨Pairwise.cons hfirst hasc,
      forall_mem_cons.2 ⟨hlt, fun x hx => hlt.trans (hfirst x hx)⟩, fun u hu => ?_⟩
    rw [hT u hu, exists_mem_cons_iff, eq_comm (a := u)]
    refine or_congr_right' fun hne => ⟨fun ⟨hsu, hu'⟩ => (hcov u hsu).1 hu', ?_⟩
    rintro ⟨x, hx, rfl⟩
    exact ⟨hfirst x hx, (hcov _ (hfirst x hx)).2 ⟨x, hx, rfl⟩⟩

variable {ls : List (List (ValueType × σ))}

theorem nextInv_start (its : List σ) (hasc : ∀ l ∈ ls, Ascends I l) :
    (nextInv I (minInt64, fun u => ∃ l ∈ ls, ∃ x ∈ l, time I x.2 = u)).live its (range ls.length) []
      fun i => ls.getD i [] := by
  have hget : ∀ i ∈ range ls.length, ls.getD i [] ∈ ls := fun i hi => by
    rw [getD_eq_getElem _ _ (mem_range.1 hi)]
    exact getElem_mem _
  refine ⟨⟨fun i hi => hasc _ (hget i hi), fun i _ x _ => minInt64_le _, by simp, by simp, by simp,
    fun c h0 hc => by simp at hc⟩, fun u _ => ⟨?_, ?_⟩⟩
  · rintro ⟨l, hl, x, hx, hu⟩
    obtain ⟨i, hi, rfl⟩ := getElem_of_mem hl
    exact .inr ⟨i, mem_range.2 hi, x, by simpa only [getD_eq_getElem _ _ hi] using hx, hu⟩
  · rintro (⟨i, hi, -⟩ | ⟨i, hi, x, hx, hu⟩)
    · simp at hi
    · exact ⟨_, hget i hi, x, hx, hu⟩

/-- **A chained iterator merges its iterators.** -/
theorem visits_ascending (hr : Forall₂ (Runs I) its ls)
    (hasc : ∀ l ∈ ls, Ascends I l) (hne : its ≠ []) (hf : totalCalls ls ≤ fuel)
    (hk : totalCalls ls ≤ k) :
    ∃ vs c ss, visits I fuel (k + 1) (chainSampleIteratorFromIterators its) = .ok (vs, c) ∧
      c.err I = [] ∧ Forall₂ SampleOf vs ss ∧ Merges I ls ss := by
  obtain ⟨vs, c', ss, hv, herr, hall, hQ, htr⟩ := visits_chain (R := Comes I)
    (Q := fun typ s => ∃ l ∈ ls, (typ, s) ∈ l) hr (fun l hl x hx => ⟨l, hl, hx⟩) hne (keeps_next I)
    (fun {g its i s h rem} ⟨ha, hlt, hT⟩ =>
      ⟨(I.atT s, Pending I its (i :: h) h rem), ⟨rfl, hlt, hT⟩, rfl, ha, fun _ _ => Iff.rfl⟩) rfl
    (nextInv_start its hasc) hf hk
  obtain ⟨hasc', hfirst, hcov⟩ := ascends_of_trace htr
  refine ⟨vs, c', ss, hv, herr, hall, hQ, hasc', fun u => ⟨?_, ?_⟩⟩
  · rintro ⟨x, hx, rfl⟩
    exact ⟨hfirst x hx, (hcov _ (hfirst x hx)).2 ⟨x, hx, rfl⟩⟩
  · rintro ⟨hu, hl⟩
    exact (hcov u hu).1 hl

end TopcDB.Storage.MergeOrder
