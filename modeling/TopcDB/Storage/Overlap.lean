import TopcDB.Storage.CompactChunk
import Mathlib.Algebra.Order.BigOperators.Group.List

/-! # Chunks that overlap

The chunks still to come in a `CompactChunkIterator` are those of the iterators in its heap. A loop
takes a group of overlapping chunks out of it, linked by their overlaps; all others begin after the
end of the group (`overlapLoop_spec`). The group is then encoded anew (`mergeEncode_spec`). -/

namespace TopcDB.Storage.Overlap

open List Lib.Heap Lib.HeapOrder Lib.Segments Go.Basic Chunkenc.Chunk Merge MergeOrder CompactChunk

variable {μ σ H FH X : Type} (S : Chunks μ σ H FH)

/-! ### The heap of chunk iterators -/

def tmin (m : μ) : ℤ := (S.minTime m).toInt

def tmax (m : μ) : ℤ := (S.maxTime m).toInt

/-- The bounds of the current chunk, by which the iterators are compared. -/
def bounds (it : μ × List μ) : ℤ ×ₗ ℤ := toLex (tmin S it.1, tmax S it.1)

/-- The chunks still to come. -/
def pend (h : List (μ × List μ)) : List μ := h.flatMap fun it => it.1 :: it.2

def InOrder (l : List μ) : Prop := l.Pairwise fun m m' => tmin S m ≤ tmin S m'

/-- Iterators in the order of a heap, each with its chunks in order. -/
structure Heaped (h : List (μ × List μ)) : Prop where
  heap : IsHeap (h.map (bounds S))
  inOrder : ∀ it ∈ h, InOrder S (it.1 :: it.2)

variable {S}

theorem less_eq (x y : μ × List μ) :
    CompactChunk.less S x y = keyLess (bounds S x) (bounds S y) := by
  have hmin : S.minTime x.1 = S.minTime y.1 ↔ tmin S x.1 = tmin S y.1 := BitVec.toInt_inj.symm
  rw [CompactChunk.less, keyLess, BitVec.slt_eq_decide, BitVec.slt_eq_decide]
  simp only [bounds, Prod.Lex.toLex_lt_toLex, hmin]
  split_ifs with he
  · simp [he, tmax]
  · simp only [he, false_and, or_false]
    rfl

theorem compares_less (l : List (μ × List μ)) : Compares (CompactChunk.less S) (bounds S) l :=
  fun x _ y _ => less_eq x y

theorem heaped_nil : Heaped S [] := ⟨fun c h0 hc => by simp at hc, by simp⟩

variable {h h' : List (μ × List μ)}

theorem pend_perm (hp : h.Perm h') : (pend h).Perm (pend h') :=
  hp.flatMap_right _

theorem pend_pushNext (h : List (μ × List μ)) : ∀ l, (pend (pushNext S h l)).Perm (l ++ pend h)
  | [] => Perm.refl _
  | m :: rest => pend_perm (push_perm _ h (m, rest))

theorem Heaped.pushNext (hh : Heaped S h) : ∀ {l : List μ}, InOrder S l →
    Heaped S (pushNext S h l)
  | [], _ => hh
  | m :: rest, hl => by
    refine ⟨isHeap_map_push (compares_less _) hh.heap, fun it hit => ?_⟩
    rcases mem_cons.1 ((push_perm _ h (m, rest)).mem_iff.1 hit) with rfl | hit
    · exact hl
    · exact hh.inOrder it hit

theorem Heaped.pop {it : μ × List μ} (hh : Heaped S h)
    (hp : pop (CompactChunk.less S) h = some (it, h')) :
    Heaped S h' ∧ InOrder S (it.1 :: it.2) ∧ (pend h).Perm (it.1 :: (it.2 ++ pend h')) ∧
      ∀ m ∈ pend h, tmin S it.1 ≤ tmin S m := by
  have hperm := pop_perm _ hp
  obtain ⟨hheap, hmin⟩ := isHeap_map_pop (compares_less h) hh.heap hp
  refine ⟨⟨hheap, fun x hx => hh.inOrder x (hperm.mem_iff.1 (mem_cons_of_mem _ hx))⟩,
    hh.inOrder it (hperm.mem_iff.1 mem_cons_self), (pend_perm hperm).symm, fun m hm => ?_⟩
  obtain ⟨x, hx, hmx⟩ := mem_flatMap.1 hm
  have hle : tmin S it.1 ≤ tmin S x.1 := by
    rcases Prod.Lex.le_iff.1 (hmin x hx) with hlt | ⟨heq, -⟩
    · exact hlt.le
    · exact heq.le
  rcases mem_cons.1 hmx with rfl | hmx
  · exact hle
  · exact hle.trans (rel_of_pairwise_cons (hh.inOrder x hx) hmx)

theorem pendingChunks_eq (h : List (μ × List μ)) : pendingChunks h = (pend h).length := by
  rw [pendingChunks, pend, length_flatMap]
  rfl

/-! ### Groups of overlapping chunks -/

def Overlaps (S : Chunks μ σ H FH) (m m' : μ) : Prop := tmin S m ≤ tmax S m' ∧ tmin S m' ≤ tmax S m

/-- The chunks are linked by overlaps of chunks in the list. -/
def Linked (S : Chunks μ σ H FH) (l : List μ) : μ → μ → Prop :=
  Relation.ReflTransGen fun m m' => m ∈ l ∧ m' ∈ l ∧ Overlaps S m m'

variable {m m' m'' prev root : μ} {l l' group new : List μ}

theorem Linked.symm (h : Linked S l m m') : Linked S l m' m := by
  induction h with
  | refl => exact Relation.ReflTransGen.refl
  | tail _ hstep ih => exact ih.head ⟨hstep.2.1, hstep.1, hstep.2.2.2, hstep.2.2.1⟩

theorem Linked.mono (hl : ∀ x ∈ l, x ∈ l') (h : Linked S l m m') : Linked S l' m m' :=
  Relation.ReflTransGen.mono (fun _ _ ⟨hm, hm', ho⟩ => ⟨hl _ hm, hl _ hm', ho⟩) _ _ h

/-- The links of a chunk of `l'` stay in `l'` when no other chunk of `l` overlaps one in `l'`. -/
theorem Linked.of_disjoint (hl : ∀ x ∈ l, x ∈ l' ∨ ∀ y ∈ l', ¬ Overlaps S y x) (hm : m ∈ l')
    (h : Linked S l m m') : m' ∈ l' ∧ Linked S l' m m' := by
  induction h with
  | refl => exact ⟨hm, Relation.ReflTransGen.refl⟩
  | tail _ hstep ih =>
    have hmem := (hl _ hstep.2.1).resolve_right fun hno => hno _ ih.1 hstep.2.2
    exact ⟨hmem, ih.2.tail ⟨ih.1, hmem, hstep.2.2⟩⟩

theorem duplicate_iff : duplicate S m m' ↔
    S.minTime m = S.minTime m' ∧ S.maxTime m = S.maxTime m' ∧ S.bytes m = S.bytes m' := by
  simp [duplicate, and_assoc]

theorem duplicate_symm (h : duplicate S m m') : duplicate S m' m := by
  rw [duplicate_iff] at h ⊢
  exact ⟨h.1.symm, h.2.1.symm, h.2.2.symm⟩

theorem duplicate_trans (h : duplicate S m m') (h' : duplicate S m' m'') : duplicate S m m'' := by
  rw [duplicate_iff] at h h' ⊢
  exact ⟨h.1.trans h'.1, h.2.1.trans h'.2.1, h.2.2.trans h'.2.2⟩

theorem bounds_of_duplicate (h : duplicate S m m') :
    tmin S m = tmin S m' ∧ tmax S m = tmax S m' := by
  rw [tmin, tmax, (duplicate_iff.1 h).1, (duplicate_iff.1 h).2.1]
  exact ⟨rfl, rfl⟩

/-- What the loop makes of the heap `h` and the chunks `group` found so far: it adds `new`, drops
`dup`, and leaves `h'`. -/
structure Groups (S : Chunks μ σ H FH) (h : List (μ × List μ)) (group new dup : List μ)
    (h' : List (μ × List μ)) (oMaxTime : ℤ) : Prop where
  heaped : Heaped S h'
  perm : (pend h).Perm (new ++ (dup ++ pend h'))
  same : ∀ m ∈ dup, ∃ m' ∈ group ++ new, duplicate S m m'
  le : ∀ m ∈ group ++ new, tmax S m ≤ oMaxTime
  lt : ∀ m ∈ pend h', oMaxTime < tmin S m

variable {h h1 h' : List (μ × List μ)} {group new dup : List μ} {m : μ} {t : ℤ}

theorem Groups.drop (hg : Groups S h1 group new dup h' t) (hperm : (pend h).Perm (m :: pend h1))
    (hprev : prev ∈ group) (hm : duplicate S m prev) :
    Groups S h group new (m :: dup) h' t where
  heaped := hg.heaped
  perm := hperm.trans ((hg.perm.cons m).trans perm_middle.symm)
  same := by
    rw [forall_mem_cons]
    exact ⟨⟨prev, mem_append_left _ hprev, hm⟩, hg.same⟩
  le := hg.le
  lt := hg.lt

theorem Groups.add (hg : Groups S h1 (group ++ [m]) new dup h' t)
    (hperm : (pend h).Perm (m :: pend h1)) : Groups S h group (m :: new) dup h' t where
  heaped := hg.heaped
  perm := hperm.trans (hg.perm.cons m)
  same := by simpa using hg.same
  le := by simpa using hg.le
  lt := hg.lt

/-- The group found so far: it ends at `oMaxTime`, begins before all other chunks, and is linked to
its first chunk `root` by chunks in `l`. -/
structure Reaches (S : Chunks μ σ H FH) (l : List μ) (root : μ) (group : List μ) (oMaxTime : ℤ)
    (h : List (μ × List μ)) : Prop where
  le : ∀ m ∈ group, tmax S m ≤ oMaxTime
  attained : ∃ m ∈ group, tmax S m = oMaxTime
  first : ∀ m ∈ group, ∀ x ∈ pend h, tmin S m ≤ tmin S x
  linked : ∀ m ∈ group, m ∈ l ∧ Linked S l root m

theorem Reaches.mono {t : ℤ} (hr : Reaches S l root group t h) (hsub : ∀ x ∈ pend h', x ∈ pend h) :
    Reaches S l root group t h' :=
  ⟨hr.le, hr.attained, fun m hm x hx => hr.first m hm x (hsub x hx), hr.linked⟩

theorem Reaches.add {t t' : ℤ} (hr : Reaches S l root group t h) (hm : m ∈ pend h) (hl : m ∈ l)
    (hle : tmin S m ≤ t) (hm' : tmin S m ≤ tmax S m) (ht' : t' = max t (tmax S m))
    (hsub : ∀ x ∈ pend h', x ∈ pend h ∧ tmin S m ≤ tmin S x) :
    Reaches S l root (group ++ [m]) t' h' := by
  obtain ⟨g, hg, hgt⟩ := hr.attained
  have hlink : Linked S l root m :=
    (hr.linked g hg).2.tail ⟨(hr.linked g hg).1, hl, (hr.first g hg m hm).trans hm', by rwa [hgt]⟩
  refine ⟨?_, ?_, ?_, ?_⟩
  · rw [forall_mem_append, forall_mem_singleton, ht']
    exact ⟨fun x hx => (hr.le x hx).trans (le_max_left _ _), le_max_right _ _⟩
  · rw [ht']
    rcases le_total t (tmax S m) with h1 | h1
    · exact ⟨m, by simp, (max_eq_right h1).symm⟩
    · exact ⟨g, by simp [hg], hgt.trans (max_eq_left h1).symm⟩
  · rw [forall_mem_append, forall_mem_singleton]
    exact ⟨fun x hx y hy => hr.first x hx y (hsub y hy).1, fun y hy => (hsub y hy).2⟩
  · rw [forall_mem_append, forall_mem_singleton]
    exact ⟨hr.linked, hl, hlink⟩

theorem overlapLoop_spec : ∀ {k : ℕ} {h : List (μ × List μ)} {group : List μ}
    (overlapping : List μ) {oMaxTime : I64} (prev : μ), Heaped S h → (pend h).length < k →
    prev ∈ group → Reaches S l root group oMaxTime.toInt h →
    (∀ m ∈ pend h, m ∈ l ∧ tmin S m ≤ tmax S m) →
    ∃ new dup h' t, overlapLoop S k h overlapping oMaxTime prev = .ok (h', overlapping ++ new) ∧
      Groups S h group new dup h' t ∧ (∀ m ∈ group ++ new, Linked S l root m) ∧
      ∀ m ∈ new.head?, tmin S m ≤ oMaxTime.toInt ∧ ¬ duplicate S m prev
  | 0, _, _, _, _, _, _, hk, _, _, _ => by omega
  | k + 1, [], group, overlapping, oMaxTime, prev, hh, _, _, hreach, _ => by
    refine ⟨[], [], [], oMaxTime.toInt, by rw [overlapLoop, append_nil], ⟨hh, Perm.refl _,
      by simp, by simpa using hreach.le, by simp [pend]⟩, fun m hm => ?_, by simp⟩
    exact (hreach.linked m (by simpa using hm)).2
  | k + 1, top :: tl, group, overlapping, oMaxTime, prev, hh, hk, hprev, hreach, hl => by
    obtain ⟨it, h', hpop⟩ := pop_ne_nil (CompactChunk.less S) (cons_ne_nil top tl)
    cases head?_of_pop hpop
    obtain ⟨hh', hord, hperm, hmin⟩ := hh.pop hpop
    rw [overlapLoop]
    simp only [hpop]
    by_cases hbreak : oMaxTime.slt (S.minTime top.1) = true
    · -- all other chunks begin later than the group ends
      rw [if_pos hbreak]
      rw [BitVec.slt_iff_toInt_lt] at hbreak
      refine ⟨[], [], top :: tl, oMaxTime.toInt, by rw [append_nil], ⟨hh, Perm.refl _,
        by simp, by simpa using hreach.le, fun m hm => lt_of_lt_of_le hbreak (hmin m hm)⟩,
        fun m hm => ?_, by simp⟩
      exact (hreach.linked m (by simpa using hm)).2
    · rw [if_neg hbreak]
      rw [BitVec.slt_iff_toInt_lt, not_lt] at hbreak
      have hh1 : Heaped S (pushNext S h' top.2) := hh'.pushNext hord.of_cons
      have hperm1 : (pend (top :: tl)).Perm (top.1 :: pend (pushNext S h' top.2)) :=
        hperm.trans ((pend_pushNext h' top.2).symm.cons top.1)
      have hlen : (pend (pushNext S h' top.2)).length < k := by
        have := hperm1.length_eq
        rw [length_cons] at this
        omega
      have htop : top.1 ∈ pend (top :: tl) := hperm1.mem_iff.2 mem_cons_self
      have hsub : ∀ m ∈ pend (pushNext S h' top.2), m ∈ pend (top :: tl) := fun m hm =>
        hperm1.mem_iff.2 (mem_cons_of_mem _ hm)
      have hl' : ∀ m ∈ pend (pushNext S h' top.2), m ∈ l ∧ tmin S m ≤ tmax S m := fun m hm =>
        hl m (hsub m hm)
      by_cases hdup : duplicate S top.1 prev = true
      · rw [if_pos hdup]
        obtain ⟨new, dup, h'', t, hloop, hg, hlink, hhead⟩ :=
          overlapLoop_spec overlapping prev hh1 hlen hprev (hreach.mono hsub) hl'
        exact ⟨new, top.1 :: dup, h'', t, hloop, hg.drop hperm1 hprev hdup, hlink, hhead⟩
      · rw [if_neg hdup]
        set oMax := if oMaxTime.slt (S.maxTime top.1) = true then S.maxTime top.1 else oMaxTime
          with hoMax
        have hmax : oMax.toInt = max oMaxTime.toInt (tmax S top.1) := by
          rw [hoMax, BitVec.slt_eq_decide]
          simp only [decide_eq_true_eq]
          split_ifs with hlt
          · exact (max_eq_right hlt.le).symm
          · exact (max_eq_left (not_lt.1 hlt)).symm
        have hreach' : Reaches S l root (group ++ [top.1]) oMax.toInt (pushNext S h' top.2) :=
          hreach.add htop (hl top.1 htop).1 hbreak (hl top.1 htop).2 hmax fun x hx =>
            ⟨hsub x hx, hmin x (hsub x hx)⟩
        obtain ⟨new, dup, h'', t, hloop, hg, hlink, -⟩ :=
          overlapLoop_spec (overlapping ++ [top.1]) top.1 hh1 hlen (by simp) hreach' hl'
        refine ⟨top.1 :: new, dup, h'', t, by rw [hloop, append_assoc]; rfl, hg.add hperm1,
          by simpa using hlink, ?_⟩
        rintro m ⟨⟩
        exact ⟨hbreak, hdup⟩

/-! ### Chunks and their samples -/

variable (S) (held : μ → List (ValueType × σ))

/-- The timestamp `u` is one of the chunk `m`, which holds the samples `held m`. -/
def HasTime (m : μ) (u : ℤ) : Prop :=
  ∃ x ∈ held m, time S.I x.2 = u

/-- Chunks with the same bounds and bytes have the same timestamps. -/
def SameTimes (l : List μ) : Prop :=
  ∀ m ∈ l, ∀ m' ∈ l, duplicate S m m' → ∀ u, HasTime S held m u ↔ HasTime S held m' u

/-- A chunk whose bounds cover its samples. -/
structure Covers (m : μ) : Prop where
  le : tmin S m ≤ tmax S m
  runs : ∃ s, S.iterator m = .ok s ∧ Runs S.I s (held m)
  ascends : Ascends S.I (held m)
  bounds : ∀ x ∈ held m, tmin S m ≤ time S.I x.2 ∧ time S.I x.2 ≤ tmax S m

/-- A chunk whose bounds are its first and its last timestamp. -/
structure Tight (m : μ) : Prop where
  runs : ∃ s, S.iterator m = .ok s ∧ Runs S.I s (held m)
  first : (held m).head?.map (fun x => time S.I x.2) = some (tmin S m)
  last : (held m).getLast?.map (fun x => time S.I x.2) = some (tmax S m)

/-- The encoder round-trips lists of samples in `P`: the new chunks hold the samples that the
chained iterator visits, up to `view`. -/
def RoundTrips (view : ValueType × σ → X) (P : ValueType × σ → Prop) (fuel : ℕ)
    (split : ℤ) : Prop :=
  ∀ its vs c ss, visits S.I fuel fuel (chainSampleIteratorFromIterators its) = .ok (vs, c) →
    c.err S.I = [] → Forall₂ SampleOf vs ss → Ascends S.I ss → (∀ x ∈ ss, P x) →
    ∃ new, S.encode split (chainSampleIteratorFromIterators its) = .ok (.ok new) ∧
      (∀ m ∈ new, Tight S held m) ∧ (new.flatMap held).map view = ss.map view

/-- How many samples the chunks hold; a chunk without samples counts as one. -/
def count (l : List μ) : ℕ :=
  (l.map fun m => max (held m).length 1).sum

variable {S held}

theorem exists_hasTime_iff {u : ℤ} :
    (∃ m ∈ l, HasTime S held m u) ↔ ∃ x ∈ l.flatMap held, time S.I x.2 = u := by
  simp only [HasTime, mem_flatMap]
  exact ⟨fun ⟨m, hm, x, hx, hu⟩ => ⟨x, ⟨m, hm, hx⟩, hu⟩,
    fun ⟨x, ⟨m, hm, hx⟩, hu⟩ => ⟨m, hm, x, hx, hu⟩⟩

theorem SameTimes.mono (h : SameTimes S held l) (hl : ∀ m ∈ l', m ∈ l) :
    SameTimes S held l' := fun m hm m' hm' => h m (hl m hm) m' (hl m' hm')

theorem Tight.covers (h : Tight S held m) (ha : Ascends S.I (held m)) :
    Covers S held m ∧ held m ≠ [] := by
  obtain ⟨x, hx, hmin⟩ := Option.map_eq_some_iff.1 h.first
  obtain ⟨y, hy, hmax⟩ := Option.map_eq_some_iff.1 h.last
  have hle : ∀ z ∈ held m, tmin S m ≤ time S.I z.2 ∧ time S.I z.2 ≤ tmax S m := by
    rw [← hmin, ← hmax]
    exact fun z hz => ⟨ha.head_le hx z hz, ha.le_last hy z hz⟩
  refine ⟨⟨?_, h.runs, ha, hle⟩, fun hnil => by simp [hnil] at hx⟩
  rw [← hmin]
  exact (hle x (mem_of_head? hx)).2

theorem Tight.hasTime (h : Tight S held m) :
    HasTime S held m (tmin S m) ∧ HasTime S held m (tmax S m) := by
  obtain ⟨x, hx, hmin⟩ := Option.map_eq_some_iff.1 h.first
  obtain ⟨y, hy, hmax⟩ := Option.map_eq_some_iff.1 h.last
  exact ⟨⟨x, mem_of_head? hx, hmin⟩, ⟨y, mem_of_getLast? hy, hmax⟩⟩

theorem Covers.of_hasTime (h : Covers S held m) {u : ℤ} (hu : HasTime S held m u) :
    tmin S m ≤ u ∧ u ≤ tmax S m := by
  obtain ⟨x, hx, rfl⟩ := hu
  exact h.bounds x hx

theorem pairwise_of_tight : ∀ {new : List μ}, (∀ m ∈ new, Tight S held m) →
    Ascends S.I (new.flatMap held) →
    (∀ m ∈ new, Covers S held m ∧ held m ≠ []) ∧ new.Pairwise fun m m' => tmax S m < tmin S m'
  | [], _, _ => ⟨by simp, Pairwise.nil⟩
  | m :: new, ht, ha => by
    rw [flatMap_cons, Ascends, pairwise_append] at ha
    obtain ⟨ham, han, hcross⟩ := ha
    rw [forall_mem_cons] at ht
    obtain ⟨ih1, ih2⟩ := pairwise_of_tight ht.2 han
    refine ⟨forall_mem_cons.2 ⟨ht.1.covers ham, ih1⟩, Pairwise.cons (fun m' hm' => ?_) ih2⟩
    obtain ⟨y, hy, hmax⟩ := Option.map_eq_some_iff.1 ht.1.last
    obtain ⟨x, hx, hmin⟩ := Option.map_eq_some_iff.1 (ht.2 m' hm').first
    rw [← hmin, ← hmax]
    exact hcross y (mem_of_getLast? hy) x
      (mem_flatMap.2 ⟨m', hm', mem_of_head? hx⟩)

theorem ascends_flatMap (hc : ∀ m ∈ l, Covers S held m)
    (hd : l.Pairwise fun m m' => tmax S m < tmin S m') : Ascends S.I (l.flatMap held) := by
  refine pairwise_flatMap.2 ⟨fun m hm => (hc m hm).ascends, ?_⟩
  refine hd.imp_of_mem fun {m m'} hm hm' hlt x hx y hy => ?_
  calc time S.I x.2 ≤ tmax S m := ((hc m hm).bounds x hx).2
    _ < tmin S m' := hlt
    _ ≤ time S.I y.2 := ((hc m' hm').bounds y hy).1

variable {view : ValueType × σ → X} {P : ValueType × σ → Prop} {fuel : ℕ} {split : ℤ}
  {group : List μ}

theorem exists_iterators (h : ∀ m ∈ group, Covers S held m) :
    ∃ its, group.mapM S.iterator = .ok its ∧ Forall₂ (Runs S.I) its (group.map held) := by
  obtain ⟨its, hits⟩ := exists_forall₂ fun m hm => (h m hm).runs
  refine ⟨its, mapM_eq_ok (hits.imp fun _ _ h => h.1), ?_⟩
  exact (forall₂_map_left_iff.2 (hits.imp fun _ _ h => h.2)).flip

/-- What the group is merged to. -/
structure MergedTo (S : Chunks μ σ H FH) (held : μ → List (ValueType × σ))
    (view : ValueType × σ → X) (group new : List μ) : Prop where
  covers : ∀ m ∈ new, Covers S held m
  ne_nil : ∀ m ∈ new, held m ≠ []
  tight : ∀ m ∈ new, Tight S held m
  disjoint : new.Pairwise fun m m' => tmax S m < tmin S m'
  times : ∀ u, (∃ m ∈ new, HasTime S held m u) ↔
    minInt64.toInt < u ∧ ∃ m ∈ group, HasTime S held m u
  samples : ∀ m ∈ new, ∀ x ∈ held m, ∃ m' ∈ group, ∃ y ∈ held m', view y = view x
  count_le : count held new ≤ count held group

theorem sum_length_le (l : List μ) : (l.map fun m => (held m).length).sum ≤ count held l :=
  sum_le_sum fun _ _ => Nat.le_max_left _ _

theorem sum_length_eq (h : ∀ m ∈ l, held m ≠ []) :
    (l.map fun m => (held m).length).sum = count held l := by
  refine congrArg sum (map_congr_left fun m hm => ?_)
  have := length_pos_iff.2 (h m hm)
  omega

variable {ss : List (ValueType × σ)}

theorem length_le_count {I : Iterator σ H FH} (ha : Ascends I ss)
    (hfrom : ∀ x ∈ ss, ∃ m ∈ group, x ∈ held m) : ss.length ≤ count held group := by
  have hnodup : ss.Nodup := ha.imp fun h he => by rw [he] at h; exact lt_irrefl _ h
  have hsub : ss ⊆ group.flatMap held := fun x hx => mem_flatMap.2 (hfrom x hx)
  have hle := (subperm_of_subset hnodup hsub).length_le
  rw [length_flatMap] at hle
  exact hle.trans (sum_length_le group)

theorem mergedTo_of_merges (hm : Merges S.I (group.map held) ss)
    (htight : ∀ m ∈ new, Tight S held m) (hmap : (new.flatMap held).map view = ss.map view)
    (hview : ∀ x y, view x = view y → time S.I x.2 = time S.I y.2) :
    MergedTo S held view group new := by
  have heq : Forall₂ (· = ·) ((new.flatMap held).map view) (ss.map view) := by
    rw [hmap]
    exact forall₂_refl _
  have hall : Forall₂ (fun x y => view x = view y) (new.flatMap held) ss :=
    forall₂_map_right_iff.1 (forall₂_map_left_iff.1 heq)
  have htime : Forall₂ (fun x y => S.I.atT x.2 = S.I.atT y.2) (new.flatMap held) ss :=
    hall.imp fun x y h => BitVec.eq_of_toInt_eq (hview x y h)
  have hasc : Ascends S.I (new.flatMap held) := (ascends_iff htime).2 hm.ascends
  have hfrom : ∀ x ∈ ss, ∃ m ∈ group, x ∈ held m := by
    simpa only [mem_map, exists_exists_and_eq_and] using hm.mem
  obtain ⟨hcovers, hdisj⟩ := pairwise_of_tight htight hasc
  have hne : ∀ m ∈ new, held m ≠ [] := fun m hm' => (hcovers m hm').2
  refine ⟨fun m hm' => (hcovers m hm').1, hne, htight, hdisj, fun u => ?_, fun m hm' x hx => ?_, ?_⟩
  · rw [exists_hasTime_iff]
    refine (exists_time_iff htime).trans ((hm.covers u).trans ?_)
    simp only [mem_map, exists_exists_and_eq_and, HasTime]
  · have hmem : view x ∈ ss.map view := by
      rw [← hmap]
      exact mem_map_of_mem (mem_flatMap.2 ⟨m, hm', hx⟩)
    obtain ⟨y, hy, he⟩ := mem_map.1 hmem
    obtain ⟨m', hm'', hy'⟩ := hfrom y hy
    exact ⟨m', hm'', y, hy', he⟩
  · have hlen := congrArg length hmap
    rw [length_map, length_map, length_flatMap] at hlen
    rw [← sum_length_eq hne, hlen]
    exact length_le_count hm.ascends hfrom

theorem calls_le (held : μ → List (ValueType × σ)) (l : List μ) :
    (l.map fun m => (held m).length + 1).sum ≤ 2 * count held l := by
  induction l with
  | nil => exact Nat.le_refl _
  | cons m l ih =>
    simp only [count, map_cons, sum_cons] at ih ⊢
    omega

theorem visits_chunks (hne : group ≠ []) (hc : ∀ m ∈ group, Covers S held m)
    (hfuel : 2 * count held group < fuel) :
    ∃ its vs c ss, group.mapM S.iterator = .ok its ∧
      visits S.I fuel fuel (chainSampleIteratorFromIterators its) = .ok (vs, c) ∧ c.err S.I = [] ∧
      Forall₂ SampleOf vs ss ∧ Merges S.I (group.map held) ss := by
  obtain ⟨its, hits, hruns⟩ := exists_iterators hc
  have hits' : its ≠ [] := by
    rintro rfl
    have := hruns.length_eq
    simp only [length_nil, length_map] at this
    exact hne (length_eq_zero_iff.1 this.symm)
  have hasc : ∀ l ∈ group.map held, Ascends S.I l :=
    forall_mem_map.2 fun m hm => (hc m hm).ascends
  have htotal : totalCalls (group.map held) < fuel := by
    rw [totalCalls, map_map]
    exact (calls_le held group).trans_lt hfuel
  obtain ⟨k, rfl⟩ : ∃ k, fuel = k + 1 := ⟨fuel - 1, by omega⟩
  obtain ⟨vs, c, ss, h⟩ := visits_ascending (k := k) hruns hasc hits' (by omega : _ ≤ k + 1)
    (by omega)
  exact ⟨its, vs, c, ss, hits, h⟩

theorem mergeEncode_spec (hne : group ≠ []) (hc : ∀ m ∈ group, Covers S held m)
    (hfuel : 2 * count held group < fuel) (hround : RoundTrips S held view P fuel split)
    (hP : ∀ m ∈ group, ∀ x ∈ held m, P x)
    (hview : ∀ x y, view x = view y → time S.I x.2 = time S.I y.2) :
    ∃ new, mergeEncode S split group = .ok (.ok new) ∧ MergedTo S held view group new := by
  obtain ⟨its, vs, c, ss, hits, hv, herr, hss, hm⟩ := visits_chunks hne hc hfuel
  obtain ⟨new, henc, htight, hmap⟩ := hround its vs c ss hv herr hss hm.ascends fun x hx => by
    obtain ⟨l, hl, hxl⟩ := hm.mem x hx
    obtain ⟨m, hm', rfl⟩ := mem_map.1 hl
    exact hP m hm' x hxl
  refine ⟨new, ?_, mergedTo_of_merges hm htight hmap hview⟩
  rw [mergeEncode, if_neg (by simpa using hne)]
  simp only [hits, ok_bind, henc]

end TopcDB.Storage.Overlap
