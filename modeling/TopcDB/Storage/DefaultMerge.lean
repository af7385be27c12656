import TopcDB.Storage.AnySeries
import TopcDB.Storage.MergeRun

/-! # Merging chunk iterators without a split

The result on whole runs of `CompactChunkIterator` with the default split: the chunks delivered are
disjoint and hold the timestamps of all chunks, provided that those overlapping can be merged
(`drain_merged_iff`). Chunks that are lists of samples, with an encoder that cuts a list, are an
instance of the parameters. -/

namespace TopcDB.Storage.DefaultMerge

open List Lib.Segments Go.Basic Chunkenc.Chunk Merge MergeOrder Series AnySeries CompactChunk
open Overlap MergeRun CompactChunkIterator

variable {μ σ H FH X : Type}

def chunksOf (iterators : List (ChunkIterator μ)) : List μ := iterators.flatMap ChunkIterator.chks

/-- The sample looks like one of the chunks in the list. -/
def FromChunks (held : μ → List (ValueType × σ)) (view : ValueType × σ → X) (l : List μ)
    (x : ValueType × σ) : Prop :=
  ∃ m ∈ l, ∃ y ∈ held m, view y = view x

variable {held : μ → List (ValueType × σ)} {view : ValueType × σ → X}

theorem FromChunks.congr {l : List μ}
    (x y : ValueType × σ) (he : view x = view y) (h : FromChunks held view l x) :
    FromChunks held view l y := by
  obtain ⟨m, hm, z, hz, hzx⟩ := h
  exact ⟨m, hm, z, hz, hzx.trans he⟩

/-- The chunks `out` are a merge of the chunks `l`. -/
structure Merged (S : Chunks μ σ H FH) (held : μ → List (ValueType × σ))
    (view : ValueType × σ → X) (l out : List μ) : Prop where
  covers : ∀ m ∈ out, Covers S held m
  disjoint : out.Pairwise fun m m' => tmax S m < tmin S m'
  ascends : Ascends S.I (out.flatMap held)
  times : ∀ u, (∃ m ∈ out, HasTime S held m u) ↔ ∃ m ∈ l, HasTime S held m u
  samples : ∀ m ∈ out, ∀ x ∈ held m, ∃ m' ∈ l, ∃ y ∈ held m', view y = view x

theorem merged_iff_alone {S : Chunks μ σ H FH} {l out : List μ} (h : Delivered S held view l out) :
    Merged S held view l out ↔ Alone S held l := by
  constructor
  · intro hm x hx y hy hu
    exact ((h.first.1 ((hm.times _).2 ⟨x, hx, hu⟩)).2) x hx y hy hu
  · intro halone
    refine { h with times := fun u => ?_ }
    by_cases hu : minInt64.toInt < u
    · exact h.times u hu
    · -- no timestamp is smaller
      by_cases heq : u = minInt64.toInt
      · rw [heq, h.first, and_iff_left halone]
      · have hno : ∀ m, ¬ HasTime S held m u := by
          rintro m ⟨x, -, rfl⟩
          exact heq (le_antisymm (not_lt.1 hu) (minInt64_le _))
        simp [hno]

/-- A chunk iterator without errors delivers chunks in order of `MinTime` whose bounds cover their
samples. -/
structure Family (S : Chunks μ σ H FH) (held : μ → List (ValueType × σ))
    (iterators : List (ChunkIterator μ)) : Prop where
  err : ∀ it ∈ iterators, it.err = none
  inOrder : ∀ it ∈ iterators, InOrder S it.chks
  covers : ∀ m ∈ chunksOf iterators, Covers S held m

section merged

variable {S : Chunks μ σ H FH} {held : μ → List (ValueType × σ)} {view : ValueType × σ → X}
  {iterators : List (ChunkIterator μ)} {fuel k : ℕ}

theorem ready_start (view : ValueType × σ → X) (hf : Family S held iterators)
    (hsame : SameTimes S held (chunksOf iterators)) :
    Ready S held (FromChunks held view (chunksOf iterators))
        ((newCompactChunkIterator iterators).start S) ∧
      (pend ((newCompactChunkIterator iterators).start S)).Perm (chunksOf iterators) := by
  obtain ⟨hh, hperm⟩ := start_spec heaped_nil hf.inOrder
  have hperm' : (pend ((newCompactChunkIterator iterators).start S)).Perm (chunksOf iterators) := by
    refine hperm.trans ?_
    rw [show pend ([] : List (μ × List μ)) = [] from rfl, append_nil]
    exact Perm.refl _
  exact ⟨⟨hh, fun m h => hf.covers m (hperm'.mem_iff.1 h), hsame.mono fun m h =>
    hperm'.mem_iff.1 h, fun m h x hx => ⟨m, hperm'.mem_iff.1 h, x, hx, rfl⟩⟩, hperm'⟩

theorem alone_perm {l l' : List μ} (h : l.Perm l') : Alone S held l ↔ Alone S held l' := by
  simp only [Alone, h.mem_iff]

theorem delivered_of_perm {l l' out : List μ} (h : l.Perm l') (hm : Delivered S held view l out) :
    Delivered S held view l' out := by
  refine ⟨hm.covers, hm.disjoint, hm.ascends, fun u hu => ?_, ?_, fun m hm' x hx => ?_⟩
  · rw [hm.times u hu]
    simp only [h.mem_iff]
  · rw [hm.first, alone_perm h]
    simp only [h.mem_iff]
  · obtain ⟨m', hmem, hy⟩ := hm.samples m hm' x hx
    exact ⟨m', h.mem_iff.1 hmem, hy⟩

variable (hf : Family S held iterators)
  (hview : ∀ x y, view x = view y → time S.I x.2 = time S.I y.2)
  (hround : RoundTrips S held view (FromChunks held view (chunksOf iterators)) fuel
    defaultSeriesToChunkEncoderSplit)
  (hfuel : 2 * count held (chunksOf iterators) < fuel) (hk : count held (chunksOf iterators) < k)
  (hsame : SameTimes S held (chunksOf iterators))

include hf hview hround hfuel hk hsame

theorem drain_default :
    (Filled S held (chunksOf iterators) → ∃ out c',
      drain S k (newCompactChunkIterator iterators) = .ok (out, c') ∧
        c'.errs = [] ∧ Delivered S held view (chunksOf iterators) out) ∧
    (¬ Filled S held (chunksOf iterators) →
      drain S k (newCompactChunkIterator iterators) = .error .panic) := by
  obtain ⟨hr, hperm⟩ := ready_start view hf hsame
  have hcount : count held _ = count held _ := count_perm hperm
  obtain ⟨h1, h2⟩ := drain_spec (k := k) (c := newCompactChunkIterator iterators) hround hview
    FromChunks.congr (show (0 : ℤ) ≤ 1000 by decide) hr (by rw [hcount]; exact hfuel)
    (by rw [hcount]; exact hk)
  refine ⟨fun hfill => ?_, fun hno => h2 fun hfill => hno ((filled_perm hperm).1 hfill)⟩
  obtain ⟨out, c', hdrain, hits, herr, -, hm⟩ := h1 ((filled_perm hperm).2 hfill)
  refine ⟨out, c', hdrain, ?_, delivered_of_perm hperm hm⟩
  rw [errs, hits, herr]
  simpa [newCompactChunkIterator] using hf.err

/-- **Merging overlapping chunks** delivers disjoint and ascending chunks that hold the timestamps
of all chunks, each once and with a sample that one of them has there, exactly when merging keeps a
sample of every group, and no sample at the smallest int64 has to be merged. -/
theorem drain_merged_iff :
    (∃ out c', drain S k (newCompactChunkIterator iterators) = .ok (out, c') ∧
      c'.errs = [] ∧ Merged S held view (chunksOf iterators) out) ↔
    Filled S held (chunksOf iterators) ∧ Alone S held (chunksOf iterators) := by
  obtain ⟨hdrain, hpanic⟩ := drain_default hf hview hround hfuel hk hsame
  constructor
  · rintro ⟨out, c', h, -, hm⟩
    by_cases hfill : Filled S held (chunksOf iterators)
    · obtain ⟨out', c'', h', -, hd⟩ := hdrain hfill
      cases h'.symm.trans h
      exact ⟨hfill, (merged_iff_alone hd).1 hm⟩
    · rw [hpanic hfill] at h
      cases h
  · rintro ⟨hfill, halone⟩
    obtain ⟨out, c', h, herr, hd⟩ := hdrain hfill
    exact ⟨out, c', h, herr, (merged_iff_alone hd).2 halone⟩

end merged

/-! ### Chunks that are lists -/

/-- The states of a list iterator at the samples `rest`, from the `i`-th one on. -/
def states (l : List (AnySample H FH)) : ℕ → List (AnySample H FH) →
    List (ValueType × ListSeriesIterator H FH)
  | _, [] => []
  | i, s :: rest => (s.type, ⟨l, i⟩) :: states l (i + 1) rest

theorem get_eq (l : List (AnySample H FH)) (i : ℕ) :
    (⟨l, i⟩ : ListSeriesIterator H FH).get = l[i]? := by
  simp [ListSeriesIterator.get]

theorem type_ne_none (s : AnySample H FH) : s.type ≠ .none := by
  cases s <;> simp [AnySample.type]

theorem get_of_drop {l rest : List X} {i : ℕ} {s : X} (h : l.drop i = s :: rest) :
    l[i]? = some s ∧ l.drop (i + 1) = rest :=
  ⟨by rw [← head?_drop, h]; rfl, by rw [← drop_drop, h]; rfl⟩

theorem runs_states (toFloat : H → FH) (l : List (AnySample H FH)) :
    ∀ {rest : List (AnySample H FH)} {i : ℕ}, l.drop i = rest →
      Runs (listSeriesIterator toFloat) ⟨l, (i : ℤ) - 1⟩ (states l i rest)
  | [], i, hrest => by
    refine ⟨rfl, ⟨l, i⟩, ?_, rfl⟩
    have hget : l[i]? = none := by simpa using hrest
    simp [listSeriesIterator, ListSeriesIterator.next, ListSeriesIterator.type, get_eq, hget]
  | s :: rest, i, hrest => by
    obtain ⟨hget, hdrop⟩ := get_of_drop hrest
    have hruns := runs_states toFloat l hdrop
    rw [Nat.cast_succ, add_sub_cancel_right] at hruns
    refine ⟨rfl, type_ne_none s, ?_, ?_, hruns⟩
    · simp [listSeriesIterator, ListSeriesIterator.next, ListSeriesIterator.type, get_eq, hget]
    · have hidx : ((i : ℤ) = -1) = False := by simp
      simp [listSeriesIterator, ListSeriesIterator.seek, get_eq, hget, hidx, BitVec.sle]

theorem map_get_states (l : List (AnySample H FH)) :
    ∀ {rest : List (AnySample H FH)} {i : ℕ}, l.drop i = rest →
      (states l i rest).map (fun x => x.2.get) = rest.map some
  | [], _, _ => rfl
  | s :: rest, i, hrest => by
    obtain ⟨hget, hdrop⟩ := get_of_drop hrest
    rw [states, map_cons, map_get_states l hdrop, get_eq, hget]
    rfl

/-- A list of floats as a chunk. -/
structure ListChunk where
  minTime : I64
  maxTime : I64
  samples : List (I64 × ℚ)

def floats (l : List (I64 × ℚ)) : List (AnySample Unit Unit) := l.map fun p => .float p.1 p.2

/-- The chunk of a list, with its first and its last timestamp. -/
def chunkOf (l : List (I64 × ℚ)) : ListChunk :=
  ⟨(l.head?.map Prod.fst).getD 0, (l.getLast?.map Prod.fst).getD 0, l⟩

/-- Lists as chunks. The encoder cuts the samples it is given. -/
def listChunks (fuel : ℕ) : Chunks ListChunk (ListSeriesIterator Unit Unit) Unit Unit where
  minTime := ListChunk.minTime
  maxTime := ListChunk.maxTime
  bytes m := m.samples.map fun p => p.1.setWidth 8
  iterator m := .ok (.new (floats m.samples))
  I := listSeriesIterator id
  encode split c := do
    let (vs, _) ← visits (listSeriesIterator id) fuel fuel c
    let samples ← vs.mapM fun v => v.2.atFloat (listSeriesIterator id)
    return .ok ((cut (segmentSize split) samples).map chunkOf)

variable (m : ListChunk)

def listHeld : List (ValueType × ListSeriesIterator Unit Unit) :=
  states (floats m.samples) 0 (floats m.samples)

variable (x : ValueType × ListSeriesIterator Unit Unit)

def sampleOf : Option (AnySample Unit Unit) := x.2.get

variable {fuel : ℕ}

theorem map_sampleOf : (listHeld m).map sampleOf = (floats m.samples).map some :=
  map_get_states _ rfl

theorem time_eq :
    time (listChunks fuel).I x.2 = (((sampleOf x).map AnySample.t).getD 0).toInt := rfl

theorem map_time :
    (listHeld m).map (fun x => time (listChunks fuel).I x.2) =
      m.samples.map fun p => p.1.toInt := by
  calc (listHeld m).map (fun x => time (listChunks fuel).I x.2)
      = ((listHeld m).map sampleOf).map fun s => ((s.map AnySample.t).getD 0).toInt := by
        rw [map_map]; rfl
    _ = m.samples.map fun p => p.1.toInt := by
        rw [map_sampleOf, floats, map_map, map_map]; rfl

theorem runs_listHeld :
    ∃ s, (listChunks fuel).iterator m = .ok s ∧ Runs (listChunks fuel).I s (listHeld m) :=
  have h : Runs (listSeriesIterator id) ⟨floats m.samples, ((0 : ℕ) : ℤ) - 1⟩ (listHeld m) :=
    runs_states id _ rfl
  ⟨_, rfl, h⟩

variable {l l' : List (I64 × ℚ)}

theorem map_time_chunkOf : (listHeld (chunkOf l)).map (fun x => time (listChunks fuel).I x.2) =
    l.map fun p => p.1.toInt :=
  map_time _

theorem tight_chunkOf (hne : l ≠ []) : Tight (listChunks fuel) listHeld (chunkOf l) := by
  refine ⟨runs_listHeld _, ?_, ?_⟩
  · rw [← head?_map, map_time_chunkOf, head?_map, head?_eq_some_head hne]
    simp [tmin, listChunks, chunkOf, head?_eq_some_head hne]
  · rw [← getLast?_map, map_time_chunkOf, getLast?_map, getLast?_eq_some_getLast hne]
    simp [tmax, listChunks, chunkOf, getLast?_eq_some_getLast hne]

theorem roundTrips_listChunks (l : List ListChunk) (split : ℤ) :
    RoundTrips (listChunks fuel) listHeld sampleOf (FromChunks listHeld sampleOf l) fuel split := by
  intro its vs c ss hv _ hss _ hfrom
  have hfloat : ∀ x ∈ ss, ∃ p : I64 × ℚ, sampleOf x = some (.float p.1 p.2) := fun x hx => by
    obtain ⟨m, -, y, hy, he⟩ := hfrom x hx
    have hmem : sampleOf y ∈ (floats m.samples).map some := by
      rw [← map_sampleOf]
      exact mem_map_of_mem hy
    simp only [floats, map_map, mem_map] at hmem
    obtain ⟨p, -, hp⟩ := hmem
    exact ⟨p, by rw [← he, ← hp]; rfl⟩
  obtain ⟨samples, hsamples⟩ := exists_forall₂ hfloat
  have hmapM : vs.mapM (fun v => v.2.atFloat (listSeriesIterator id)) = .ok samples := by
    refine mapM_eq_ok (forall₂_comp hss hsamples fun v x p h hp => ?_)
    have hget : x.2.get = some (.float p.1 p.2) := hp
    simp only [ChainSampleIterator.atFloat, h.2, listSeriesIterator, hget, ok_bind]
  have hview : ss.map sampleOf = (floats samples).map some := by
    rw [floats, map_map, ← forall₂_eq_eq_eq, forall₂_map_left_iff,
      forall₂_map_right_iff]
    exact hsamples
  refine ⟨(cut (segmentSize split) samples).map chunkOf, ?_, fun m hm => ?_, ?_⟩
  · have hv' : visits (listSeriesIterator id) fuel fuel (chainSampleIteratorFromIterators its) =
        .ok (vs, c) := hv
    simp only [listChunks, hv', hmapM, ok_bind, pure, Except.pure]
  · obtain ⟨seg, hseg, rfl⟩ := mem_map.1 hm
    exact tight_chunkOf (ne_nil_of_mem_cut seg hseg)
  · rw [hview, flatMap_map, map_flatMap]
    have hseg : ∀ seg : List (I64 × ℚ), (listHeld (chunkOf seg)).map sampleOf =
        (floats seg).map some := fun seg => map_sampleOf (chunkOf seg)
    simp only [hseg]
    conv_rhs => rw [← flatten_cut (segmentSize split) samples]
    simp [floats, flatMap, map_flatten]

theorem covers_chunkOf (hne : l ≠ []) (hl : l.Pairwise fun p q => p.1.toInt < q.1.toInt) :
    Covers (listChunks fuel) listHeld (chunkOf l) := by
  have hasc : Ascends (listChunks fuel).I (listHeld (chunkOf l)) := by
    rw [Ascends, ← pairwise_map (R := (· < ·)), map_time_chunkOf]
    exact pairwise_map.2 hl
  exact ((tight_chunkOf hne).covers hasc).1

theorem hasTime_iff (m : ListChunk) (u : ℤ) :
    HasTime (listChunks fuel) listHeld m u ↔ ∃ p ∈ m.samples, p.1.toInt = u := by
  have hmem : u ∈ (listHeld m).map (fun x => time (listChunks fuel).I x.2) ↔
      u ∈ m.samples.map fun p => p.1.toInt := by rw [map_time]
  simpa [HasTime, mem_map] using hmem

/-- Two iterators with a chunk each, which overlap. -/
def twoChunks (l l' : List (I64 × ℚ)) : List (ChunkIterator ListChunk) :=
  [⟨[chunkOf l], none⟩, ⟨[chunkOf l'], none⟩]

theorem mem_twoChunks {m : ListChunk} :
    m ∈ chunksOf (twoChunks l l') ↔ m = chunkOf l ∨ m = chunkOf l' := by
  simp [chunksOf, twoChunks]

variable {fuel : ℕ}

theorem family_twoChunks (hne : l ≠ []) (hne' : l' ≠ [])
    (hl : l.Pairwise fun p q => p.1.toInt < q.1.toInt)
    (hl' : l'.Pairwise fun p q => p.1.toInt < q.1.toInt) :
    Family (listChunks fuel) listHeld (twoChunks l l') where
  err := by simp [twoChunks]
  inOrder := by simp [twoChunks, InOrder]
  covers := by
    intro m hm
    rcases mem_twoChunks.1 hm with rfl | rfl
    · exact covers_chunkOf hne hl
    · exact covers_chunkOf hne' hl'

theorem sameTimes_twoChunks (hd : duplicate (listChunks fuel) (chunkOf l) (chunkOf l') = false) :
    SameTimes (listChunks fuel) listHeld (chunksOf (twoChunks l l')) := by
  intro m hm m' hm' hdup u
  rcases mem_twoChunks.1 hm with rfl | rfl <;> rcases mem_twoChunks.1 hm' with rfl | rfl
  · exact Iff.rfl
  · rw [hd] at hdup
    cases hdup
  · rw [duplicate_symm hdup] at hd
    cases hd
  · exact Iff.rfl

theorem filled_twoChunks (hne : l ≠ []) (hne' : l' ≠ [])
    (hl : ∀ p ∈ l ++ l', minInt64.toInt < p.1.toInt) :
    Filled (listChunks fuel) listHeld (chunksOf (twoChunks l l')) ∧
      Alone (listChunks fuel) listHeld (chunksOf (twoChunks l l')) := by
  have hlate : ∀ {l0 : List (I64 × ℚ)}, l0 ≠ [] → (∀ p ∈ l0, minInt64.toInt < p.1.toInt) →
      HasLate (listChunks fuel) listHeld (chunkOf l0) := fun hne0 h0 => by
    obtain ⟨p, hp⟩ := exists_mem_of_ne_nil _ hne0
    exact ⟨p.1.toInt, h0 p hp, (hasTime_iff _ _).2 ⟨p, hp, rfl⟩⟩
  have hlate' : ∀ m ∈ chunksOf (twoChunks l l'), HasLate (listChunks fuel) listHeld m ∧
      ∀ p ∈ m.samples, minInt64.toInt < p.1.toInt := fun m hm => by
    rcases mem_twoChunks.1 hm with rfl | rfl
    · have h1 : ∀ p ∈ l, minInt64.toInt < p.1.toInt := fun p hp => hl p (mem_append_left _ hp)
      exact ⟨hlate hne h1, h1⟩
    · have h1 : ∀ p ∈ l', minInt64.toInt < p.1.toInt := fun p hp => hl p (mem_append_right _ hp)
      exact ⟨hlate hne' h1, h1⟩
  refine ⟨fun m hm _ _ _ _ => ⟨m, hm, Relation.ReflTransGen.refl, (hlate' m hm).1⟩,
    fun m hm m' _ hu => ?_⟩
  obtain ⟨p, hp, he⟩ := (hasTime_iff _ _).1 hu
  exact absurd he ((hlate' m hm).2 p hp).ne'

theorem drain_merged_iff_twoChunks :
    ∃ out c', drain (listChunks 9) 5
        (newCompactChunkIterator (twoChunks [(1, 1), (5, 5)] [(3, 3), (7, 7)])) = .ok (out, c') ∧
      c'.errs = [] ∧ Merged (listChunks 9) listHeld sampleOf
        (chunksOf (twoChunks [(1, 1), (5, 5)] [(3, 3), (7, 7)])) out :=
  (drain_merged_iff (k := 5)
    (family_twoChunks (by simp) (by simp) (by decide +kernel) (by decide +kernel))
    (fun x y h => by rw [time_eq, time_eq, h]) (roundTrips_listChunks _ _) (by decide) (by decide)
    (sameTimes_twoChunks (by decide +kernel))).2
    (filled_twoChunks (by simp) (by simp) (by decide +kernel))

/-- A sample at the smallest int64 is lost when its chunk overlaps another, and overlapping chunks
without samples make the iterator panic. -/
theorem not_merged_twoChunks :
    (Family (listChunks 9) listHeld (twoChunks [(minInt64, 1), (5, 5)] [(3, 3)]) ∧
      ¬ ∃ out c', drain (listChunks 9) 5
          (newCompactChunkIterator (twoChunks [(minInt64, 1), (5, 5)] [(3, 3)])) = .ok (out, c') ∧
        c'.errs = [] ∧ Merged (listChunks 9) listHeld sampleOf
          (chunksOf (twoChunks [(minInt64, 1), (5, 5)] [(3, 3)])) out) ∧
    drain (listChunks 9) 5 (newCompactChunkIterator
      [⟨[⟨0, 10, []⟩], none⟩, ⟨[⟨5, 15, []⟩], none⟩]) = .error .panic := by
  refine ⟨⟨family_twoChunks (by simp) (by simp) (by decide +kernel) (by decide +kernel), ?_⟩, ?_⟩
  · rintro ⟨out, c', hdrain, -, hm⟩
    have hout : (drain (listChunks 9) 5 (newCompactChunkIterator
        (twoChunks [(minInt64, 1), (5, 5)] [(3, 3)]))).map (fun p => p.1.map ListChunk.samples) =
        .ok [[(3, 3), (5, 5)]] := by decide +kernel
    rw [hdrain] at hout
    have hsamples : out.map ListChunk.samples = [[(3, 3), (5, 5)]] := Except.ok.inj hout
    obtain ⟨m, hmem, hu⟩ := (hm.times minInt64.toInt).2 ⟨chunkOf [(minInt64, 1), (5, 5)],
      mem_twoChunks.2 (Or.inl rfl), (hasTime_iff _ _).2 ⟨(minInt64, 1), by decide +kernel, rfl⟩⟩
    have hmem' : m.samples ∈ out.map ListChunk.samples := mem_map_of_mem hmem
    rw [hsamples, mem_singleton] at hmem'
    rw [hasTime_iff, hmem'] at hu
    exact absurd hu (by decide +kernel)
  · rfl

end TopcDB.Storage.DefaultMerge
