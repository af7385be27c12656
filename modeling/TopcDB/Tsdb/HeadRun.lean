import TopcDB.Tsdb.HeadTracks

/-! # Runs of a head series

A series that gets only floats is driven by appends, m-mapping, truncations and reads in any order.
Its life is the list of all chunks it ever had, of which truncations have removed the oldest ones.
The life only grows: chunks get samples or followers, never another place. `Represents` says what
the series shows of its life. -/

namespace TopcDB.Tsdb.HeadRun

open List Lib.Machine Go.Basic Chunkenc CLChunk CLIterate Huffman HeadSeries HeadTracks
open Storage.Merge (minInt64)
open Storage.Series (maxInt64)

variable {F H FH A FA : Type} {E : Env F H FH A FA} {o : ChunkOpts}

/-! ### The machine -/

/-- A call on the series; `ranges` are the orders of the maps that it ranges over. -/
inductive Op (F : Type)
  | append (ranges : Ranges) (t : I64) (v : F) (appendID : ℕ)
  | mmapChunks
  | truncateChunksBefore (mint : I64)
  | chunk (ranges : Ranges) (id : ℕ)

/-- The times and values that the series is made for. -/
def Op.Valid (E : Env F H FH A FA) : Op F → Prop
  | .append _ t v _ => |t.toInt| < 2 ^ 62 ∧ Fits E v
  | _ => True

instance (E : Env F H FH A FA) : (op : Op F) → Decidable (op.Valid E)
  | .append _ t v _ => inferInstanceAs (Decidable (|t.toInt| < 2 ^ 62 ∧ Fits E v))
  | .mmapChunks | .truncateChunksBefore _ | .chunk _ _ => .isTrue trivial

/-- One call; the output is a sample that was accepted. -/
def exec (E : Env F H FH A FA) (o : ChunkOpts) (p : MemSeries F H FH A FA × Mapper A FA) :
    Op F → Except Fault ((MemSeries F H FH A FA × Mapper A FA) × Option (I64 × F))
  | .append ranges t v appendID => do
    let (sampleInOrder, _, s) ← p.1.append E o ranges t v appendID
    .ok ((s, p.2), if sampleInOrder then some (t, v) else none)
  | .mmapChunks => do
    let p ← p.1.mmapChunks E p.2
    .ok (p, none)
  | .truncateChunksBefore mint => .ok (((p.1.truncateChunksBefore mint).2, p.2), none)
  | .chunk ranges id => do
    let (_, s) ← p.1.chunk E p.2 ranges id
    .ok ((s, p.2), none)

/-! ### The life of a series -/

/-- All chunks that a series ever had, oldest first, and how many of them are gone. -/
structure Life (F : Type) where
  chunks : List (List (I64 × F))
  gone : ℕ
  gone_le : gone ≤ chunks.length

def Life.held (L : Life F) : List (List (I64 × F)) := L.chunks.drop L.gone

/-- Chunks keep their places, and samples stay where they are. -/
structure Life.Grows (L L' : Life F) : Prop where
  chunks : ∀ (k : ℕ) (l : List (I64 × F)), L.chunks[k]? = some l →
    ∃ l', L'.chunks[k]? = some l' ∧ l <+: l'
  gone : L.gone ≤ L'.gone

theorem Life.Grows.refl (L : Life F) : L.Grows L :=
  ⟨fun _ l h => ⟨l, h, prefix_rfl⟩, le_rfl⟩

theorem Life.Grows.trans {L L' L'' : Life F} (h : L.Grows L') (h' : L'.Grows L'') :
    L.Grows L'' := by
  refine ⟨fun k l hl => ?_, h.gone.trans h'.gone⟩
  obtain ⟨l', hl', hp⟩ := h.chunks k l hl
  obtain ⟨l'', hl'', hp'⟩ := h'.chunks k l' hl'
  exact ⟨l'', hl'', hp.trans hp'⟩

/-- The invariant of a run: the calls so far, the samples accepted, the life and the state. -/
structure Chronicle (E : Env F H FH A FA) (ref : ℕ) (ops : List (Op F)) (accepted : List (I64 × F))
    (L : Life F) (p : MemSeries F H FH A FA × Mapper A FA) : Prop where
  tracks : ∃ mm hd, Tracks E p.1 p.2 mm hd ∧ (∀ l ∈ hd.head?, l ≠ []) ∧ L.held = mm ++ hd.reverse
  ref : p.1.ref = ref
  first : p.1.firstChunkID = L.gone
  accepted : accepted = L.chunks.flatten
  removed : ∀ l ∈ L.chunks.take L.gone, ∃ mint, Op.truncateChunksBefore mint ∈ ops ∧
    ∀ x ∈ l, x.1.toInt < mint.toInt

theorem chronicle_new (ref : ℕ) (zero : F) :
    Chronicle E ref [] [] ⟨[], 0, le_rfl⟩ (newMemSeries ref zero, []) :=
  ⟨⟨[], [], tracks_new ref zero, by simp, rfl⟩, rfl, rfl, rfl, by simp⟩

/-! ### One call -/

variable {ref : ℕ} {ops : List (Op F)} {accepted : List (I64 × F)} {L : Life F}
  {p p' : MemSeries F H FH A FA × Mapper A FA} {mm hd : List (List (I64 × F))}
  {l : List (I64 × F)} {mint : I64}

theorem grows_put {base : List (List (I64 × F))} (x : I64 × F)
    (hl : L.chunks = base ++ [l] ∨ l = [] ∧ L.chunks = base)
    (hgone : L.gone ≤ (base ++ [l ++ [x]]).length) :
    L.Grows ⟨base ++ [l ++ [x]], L.gone, hgone⟩ ∧
      (base ++ [l ++ [x]]).flatten = L.chunks.flatten ++ [x] := by
  rcases hl with hl | ⟨rfl, hl⟩
  · refine ⟨⟨fun k l' hl' => ?_, le_rfl⟩, by simp [hl]⟩
    rw [hl] at hl'
    rcases Nat.lt_or_ge k base.length with hk | hk
    · rw [getElem?_append_left hk] at hl'
      exact ⟨l', by rw [getElem?_append_left hk, hl'], prefix_rfl⟩
    · rw [getElem?_append_right hk, getElem?_singleton] at hl'
      split_ifs at hl' with h0
      refine ⟨l ++ [x], ?_, ?_⟩
      · rw [getElem?_append_right hk, h0]; rfl
      · rw [← Option.some.inj hl']; exact prefix_append _ _
  · refine ⟨⟨fun k l' hl' => ⟨l', ?_, prefix_rfl⟩, le_rfl⟩, by simp [hl]⟩
    rw [hl] at hl'
    rw [List.getElem?_append_left (List.getElem?_eq_some_iff.1 hl').1, hl']

theorem below_iff : below mint l = true ↔ ∀ x ∈ l, x.1.toInt < mint.toInt := by
  simp only [below, all_eq_true, BitVec.slt_iff_toInt_lt]

section call

variable (h : Chronicle E ref ops accepted L p)
include h

theorem Chronicle.removed_append (op : Op F) :
    ∀ l ∈ L.chunks.take L.gone, ∃ mint, Op.truncateChunksBefore mint ∈ ops ++ [op] ∧
      ∀ x ∈ l, x.1.toInt < mint.toInt := by
  intro l hl
  obtain ⟨mint, hmem, hb⟩ := h.removed l hl
  exact ⟨mint, mem_append_left _ hmem, hb⟩

theorem Chronicle.keep (op : Op F)
    (ht : Tracks E p'.1 p'.2 mm hd) (hfull : ∀ l ∈ hd.head?, l ≠ [])
    (hheld : L.held = mm ++ hd.reverse) (hids : SameIds p.1 p'.1) :
    Chronicle E ref (ops ++ [op]) (accepted ++ (none : Option (I64 × F)).toList) L p' where
  tracks := ⟨mm, hd, ht, hfull, hheld⟩
  ref := hids.ref.trans h.ref
  first := hids.firstChunkID.trans h.first
  accepted := by rw [Option.toList_none, append_nil, h.accepted]
  removed := h.removed_append op

/-- **An accepted sample** is the last one of the life. -/
theorem Chronicle.put (p' : MemSeries F H FH A FA × Mapper A FA) (op : Op F)
    (hheld : L.held = mm ++ hd.reverse)
    {ls : List (List (I64 × F))} {x : I64 × F} (ht : Tracks E p'.1 p'.2 mm ((l ++ [x]) :: ls))
    (hhd : l :: ls = hd ∨ l :: ls = [] :: hd) (hids : SameIds p.1 p'.1) :
    ∃ L', Chronicle E ref (ops ++ [op]) (accepted ++ (some x).toList) L' p' ∧ L.Grows L' := by
  have hall : L.chunks = L.chunks.take L.gone ++ L.held := (take_append_drop _ _).symm
  obtain ⟨base, hbase⟩ : ∃ base, base = L.chunks.take L.gone ++ (mm ++ ls.reverse) := ⟨_, rfl⟩
  have hlen : (L.chunks.take L.gone).length = L.gone := length_take_of_le L.gone_le
  have hl : L.chunks = base ++ [l] ∨ l = [] ∧ L.chunks = base := by
    rcases hhd with rfl | he
    · left
      rw [hall, hheld, hbase, reverse_split, ← append_assoc]
    · obtain ⟨rfl, rfl⟩ := cons.inj he
      exact .inr ⟨rfl, by rw [hall, hheld, hbase]⟩
  have hgone : L.gone ≤ (base ++ [l ++ [x]]).length := by
    rw [hbase]; simp only [length_append]; omega
  obtain ⟨hgrows, hflat⟩ := grows_put x hl hgone
  have hdrop : (base ++ [l ++ [x]]).drop L.gone = mm ++ ((l ++ [x]) :: ls).reverse := by
    rw [hbase, append_assoc, drop_left' hlen, reverse_split]
  have htake : (base ++ [l ++ [x]]).take L.gone = L.chunks.take L.gone := by
    rw [hbase, append_assoc, take_left' hlen]
  refine ⟨⟨base ++ [l ++ [x]], L.gone, hgone⟩, ⟨⟨mm, _, ht, by simp, hdrop⟩, hids.ref.trans h.ref,
    hids.firstChunkID.trans h.first, ?_, ?_⟩, hgrows⟩
  · show _ = (base ++ [l ++ [x]]).flatten
    rw [hflat, h.accepted]; rfl
  · show ∀ l' ∈ (base ++ [l ++ [x]]).take L.gone, _
    rw [htake]
    exact h.removed_append op

/-- **A truncation** takes the oldest chunks of the life. -/
theorem Chronicle.truncate (p' : MemSeries F H FH A FA × Mapper A FA)
    (ht : Tracks E p'.1 p'.2 mm hd) (hfull : ∀ l ∈ hd.head?, l ≠ []) (href : p'.1.ref = p.1.ref)
    (hheld : mm ++ hd.reverse = L.held.dropWhile (below mint))
    (hfirst : p'.1.firstChunkID = p.1.firstChunkID + (L.held.takeWhile (below mint)).length) :
    ∃ L', Chronicle E ref (ops ++ [.truncateChunksBefore mint])
        (accepted ++ (none : Option (I64 × F)).toList) L' p' ∧ L.Grows L' := by
  obtain ⟨n, hn⟩ : ∃ n, n = (L.held.takeWhile (below mint)).length := ⟨_, rfl⟩
  have hgone : L.gone + n ≤ L.chunks.length := by
    have h1 := (takeWhile_sublist (below mint) (l := L.held)).length_le
    have h2 : L.held.length = L.chunks.length - L.gone := length_drop
    have := L.gone_le
    omega
  refine ⟨⟨L.chunks, L.gone + n, hgone⟩, ⟨⟨mm, hd, ht, hfull, ?_⟩, href.trans h.ref, ?_, ?_, ?_⟩,
    fun _ l hl => ⟨l, hl, prefix_rfl⟩, Nat.le_add_right _ _⟩
  · show L.chunks.drop (L.gone + n) = _
    rw [hheld, ← drop_takeWhile, ← hn, Life.held, drop_drop]
  · rw [hfirst, h.first, ← hn]
  · rw [Option.toList_none, append_nil, h.accepted]
  · show ∀ l ∈ L.chunks.take (L.gone + n), _
    intro l hl
    rw [take_add, mem_append] at hl
    rcases hl with hl | hl
    · exact h.removed_append _ l hl
    · refine ⟨mint, by simp, below_iff.1 ?_⟩
      rw [← Life.held, hn, ← takeWhile_eq_take] at hl
      exact mem_takeWhile_imp hl

/-- **One call** extends the life. -/
theorem exec_chronicle (hspc : 4 ≤ o.samplesPerChunk) (hspc' : o.samplesPerChunk ≤ 32767)
    (op : Op F) (hop : op.Valid E) :
    ∃ p' e L', exec E o p op = .ok (p', e) ∧
      Chronicle E ref (ops ++ [op]) (accepted ++ e.toList) L' p' ∧ L.Grows L' := by
  obtain ⟨mm, hd, ht, hfull, hheld⟩ := h.tracks
  cases op with
  | append ranges t v appendID =>
    rcases ht.append ranges hfull hop.1 hspc hop.2 hspc' appendID with
      ⟨-, hk⟩ | ⟨-, created, s', l, ls, hk, ht', hids, hhd⟩
    · exact ⟨p, none, L, by simp only [exec, hk, ok_bind]; rfl,
        h.keep _ ht hfull hheld ⟨rfl, rfl⟩, .refl L⟩
    · obtain ⟨L', hL', hg⟩ := h.put (s', p.2) (.append ranges t v appendID) hheld ht' hhd hids
      exact ⟨(s', p.2), some (t, v), L', by simp only [exec, hk, ok_bind]; rfl, hL', hg⟩
  | mmapChunks =>
    obtain ⟨s', bs, hk, ht', hids⟩ := ht.mmapChunks
    refine ⟨(s', p.2 ++ bs), none, L, by simp only [exec, hk, ok_bind], ?_, .refl L⟩
    refine h.keep _ ht' (by rw [head?_take]; exact hfull) ?_ hids
    rw [hheld, append_assoc, ← reverse_append, ← drop_one, take_append_drop]
  | truncateChunksBefore mint =>
    obtain ⟨s', mm', hd', hk, ht', hfull', href, hheld', hfirst⟩ := ht.truncate hfull mint
    rw [← hheld] at hheld' hfirst
    obtain ⟨L', hL', hg⟩ := h.truncate (s', p.2) ht' hfull' href hheld' hfirst
    exact ⟨(s', p.2), none, L', by simp only [exec, hk], hL', hg⟩
  | chunk ranges id =>
    obtain ⟨r, s', hk, ht', hids, -, -⟩ := ht.chunk ranges id
    exact ⟨(s', p.2), none, L, by simp only [exec, hk, ok_bind],
      h.keep _ ht' hfull hheld hids, .refl L⟩

end call

/-! ### What the series shows of its life -/

/-- The series `p` has the life `L` after the calls `ops`, in which it accepted the given samples.
The id of a chunk is its place in the life. -/
structure Represents (E : Env F H FH A FA) (o : ChunkOpts) (ref : ℕ) (ops : List (Op F))
    (accepted : List (I64 × F)) (L : Life F) (p : MemSeries F H FH A FA × Mapper A FA) : Prop where
  /-- The life has exactly the accepted samples. -/
  accepted : accepted = L.chunks.flatten
  /-- What is gone lay before some truncation time. -/
  removed : ∀ l ∈ L.chunks.take L.gone, ∃ mint, Op.truncateChunksBefore mint ∈ ops ∧
    ∀ x ∈ l, x.1.toInt < mint.toInt
  /-- A truncation takes exactly the chunks that lie before its time. -/
  truncates : ∀ mint, ∃ n s', p.1.truncateChunksBefore mint = (n, s') ∧
    s'.firstChunkID = L.gone + n ∧
    ∀ i l, L.held[i]? = some l → (i < n ↔ ∀ x ∈ l, x.1.toInt < mint.toInt)
  /-- The timestamps ascend over all chunks that are left. -/
  ascends : L.held.flatten.Pairwise fun x y => x.1.toInt < y.1.toInt
  /-- These chunks are listed, oldest first. -/
  listed : ref < 2 ^ 40 → L.chunks.length < 2 ^ 23 →
    ∃ ms, p.1.appendSeriesChunks minInt64 maxInt64 = .ok ms ∧
      ms.map (fun m => MemSeries.unpackHeadChunkRef m.ref) =
        (range L.held.length).map fun i => (ref, L.gone + i, false)
  /-- Reading one of them gives all its samples, with the values of their codes. -/
  read : ∀ ranges id l, L.gone ≤ id → L.chunks[id]? = some l →
    ∃ c b s', p.1.chunk E p.2 ranges id = .ok (some c, s') ∧ c.chunk = .cl b ∧
      ∀ ext order, decodeChunk ext order b.stream =
        .ok (l.map fun x => sampleAt defaultErrbound (coded E x), none)
  /-- No other chunk is found. -/
  absent : ∀ ranges id, id < L.gone ∨ L.chunks.length ≤ id →
    ∃ s', p.1.chunk E p.2 ranges id = .ok (none, s')
  /-- A sample is accepted exactly when it lies after all that are left. -/
  accepts : ∀ ranges t v appendID, |t.toInt| < 2 ^ 62 → Fits E v →
    ∃ sampleInOrder created s', p.1.append E o ranges t v appendID =
        .ok (sampleInOrder, created, s') ∧
      (sampleInOrder = true ↔ ∀ x ∈ L.held.flatten, x.1.toInt < t.toInt)

theorem lt_takeWhile_iff (hord : Ordered mm hd) {i : ℕ} (hl : (mm ++ hd.reverse)[i]? = some l) :
    i < ((mm ++ hd.reverse).takeWhile (below mint)).length ↔ ∀ x ∈ l, x.1.toInt < mint.toInt := by
  have hne := hord.ne_nil
  have hasc := hord.ascends
  generalize mm ++ hd.reverse = ls at hne hasc hl ⊢
  obtain ⟨hi, he⟩ := List.getElem?_eq_some_iff.1 hl
  rw [← below_iff]
  constructor
  · intro hi'
    have hget := (List.takeWhile_prefix (below mint) (l := ls)).getElem hi'
    exact mem_takeWhile_imp (he ▸ hget ▸ getElem_mem hi')
  · intro hb
    have hsplit : ls = ls.take i ++ l :: ls.drop (i + 1) := by
      rw [← he, ← drop_eq_getElem_cons hi, take_append_drop]
    rw [hsplit] at hasc
    have hdrop := dropWhile_below (hne l (he ▸ getElem_mem hi)) hasc hb
    rw [← hsplit] at hdrop
    have h1 := congrArg length (takeWhile_append_dropWhile (p := below mint) (l := ls))
    have h2 := (dropWhile_sublist (below mint) (l := ls.drop (i + 1))).length_le
    rw [← hdrop, length_drop] at h2
    rw [length_append] at h1
    omega

theorem Chronicle.represents (hspc : 4 ≤ o.samplesPerChunk) (hspc' : o.samplesPerChunk ≤ 32767)
    (h : Chronicle E ref ops accepted L p) : Represents E o ref ops accepted L p := by
  obtain ⟨mm, hd, ht, hfull, hheld⟩ := h.tracks
  have hlen : L.gone + L.held.length = L.chunks.length := by
    rw [Life.held, length_drop]
    have := L.gone_le
    omega
  have hget : ∀ id, L.gone ≤ id → L.held[id - L.gone]? = L.chunks[id]? := fun id hid => by
    rw [Life.held, getElem?_drop, Nat.add_sub_cancel' hid]
  refine ⟨h.accepted, h.removed, fun mint => ?_, hheld ▸ ht.ascends, fun href hid => ?_,
    fun ranges id l hid hl => ?_, fun ranges id hid => ?_, fun ranges t v appendID hb hv => ?_⟩
  · obtain ⟨s', mm', hd', hk, -, -, -, -, hfirst⟩ := ht.truncate hfull mint
    refine ⟨_, s', hk, by rw [hfirst, h.first], fun i l hl => ?_⟩
    rw [hheld] at hl
    exact lt_takeWhile_iff (ht.ordered hfull) hl
  · obtain ⟨ms, hk, hms⟩ := ht.listing (h.ref ▸ href) (by rw [h.first, ← hheld]; omega)
    exact ⟨ms, hk, by rw [hms, ← hheld, h.ref, h.first]⟩
  · rw [← hget id hid, hheld, ← h.first] at hl
    obtain ⟨c, s', hk, -, -, b, hb, hd⟩ := ht.chunk_found ranges hl
    rw [h.first, Nat.add_sub_cancel' hid] at hk
    exact ⟨c, b, s', hk, hb, hd⟩
  · obtain ⟨r, s', hk, -, -, -, hnone⟩ := ht.chunk ranges id
    rw [hnone (by rw [h.first, ← hheld]; omega)] at hk
    exact ⟨s', hk⟩
  · rw [hheld]
    rcases ht.append ranges hfull hb hspc hv hspc' appendID with
      ⟨hnot, hk⟩ | ⟨hall, created, s', l, ls, hk, -, -, -⟩
    · exact ⟨false, false, p.1, hk, iff_of_false (by simp) hnot⟩
    · exact ⟨true, created, s', hk, iff_of_true rfl hall⟩

/-- **A run** extends the life. -/
theorem run_chronicle (hspc : 4 ≤ o.samplesPerChunk) (hspc' : o.samplesPerChunk ≤ 32767)
    (ops' : List (Op F)) (hops : ∀ op ∈ ops', op.Valid E) (h : Chronicle E ref ops accepted L p) :
    ∃ p' accepted' L', run (exec E o) p ops' = .ok (p', accepted') ∧
      Chronicle E ref (ops ++ ops') (accepted ++ accepted') L' p' ∧ L.Grows L' :=
  run_history (Chronicle E ref) Life.Grows (Op.Valid E) .refl (fun _ _ _ => .trans)
    (fun _ _ _ _ op hop h => exec_chronicle h hspc hspc' op hop) ops' hops h

/-- **Every run of a head series represents a life that only grows.** No call faults; what was
accepted is still there under its id, or was truncated. -/
theorem run_represents (E : Env F H FH A FA) (o : ChunkOpts) (hspc : 4 ≤ o.samplesPerChunk)
    (hspc' : o.samplesPerChunk ≤ 32767) (ref : ℕ) (zero : F) (ops ops' : List (Op F))
    (hops : ∀ op ∈ ops, op.Valid E) (hops' : ∀ op ∈ ops', op.Valid E) :
    ∃ p p' accepted accepted' L L',
      run (exec E o) (newMemSeries ref zero, []) ops = .ok (p, accepted) ∧
      run (exec E o) p ops' = .ok (p', accepted') ∧
      Represents E o ref ops accepted L p ∧
      Represents E o ref (ops ++ ops') (accepted ++ accepted') L' p' ∧ L.Grows L' := by
  obtain ⟨p, es, L, hrun, hL, -⟩ := run_chronicle hspc hspc' ops hops (chronicle_new ref zero)
  obtain ⟨p', es', L', hrun', hL', hg⟩ := run_chronicle hspc hspc' ops' hops' hL
  exact ⟨p, p', es, es', L, L', hrun, hrun', hL.represents hspc hspc',
    hL'.represents hspc hspc', hg⟩

/-- Two samples in two ranges of times, the first of which is m-mapped, read and then removed. -/
theorem run_represents_truncated :
    ∃ p p' accepted accepted' L L',
      run (exec plainEnv (plainOpts (1 / 100))) (newMemSeries 1 0, [])
        [.append default 1000 (5 / 4) 0, .append default 9000000 (-7 / 3) 0, .mmapChunks] =
          .ok (p, accepted) ∧
      run (exec plainEnv (plainOpts (1 / 100))) p
        [.chunk default 0, .truncateChunksBefore 5000000] =
        .ok (p', accepted') ∧
      Represents plainEnv (plainOpts (1 / 100)) 1
        [.append default 1000 (5 / 4) 0, .append default 9000000 (-7 / 3) 0, .mmapChunks]
        accepted L p ∧
      Represents plainEnv (plainOpts (1 / 100)) 1
        ([.append default 1000 (5 / 4) 0, .append default 9000000 (-7 / 3) 0, .mmapChunks] ++
          [.chunk default 0, .truncateChunksBefore 5000000]) (accepted ++ accepted') L' p' ∧
      L.Grows L' :=
  run_represents plainEnv (plainOpts (1 / 100)) (by decide) (by decide) 1 0 _ _
    (by decide +kernel) (by decide +kernel)

end TopcDB.Tsdb.HeadRun
