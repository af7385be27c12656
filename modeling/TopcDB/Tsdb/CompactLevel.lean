import TopcDB.Storage.EncoderChunks

/-! # Levels of compaction

`CompactBlockMetas` makes the meta of a block from those it is compacted of; its level is one more
than the highest of theirs. From level 2 on, `PopulateBlock` asks for chunks of 3000 samples for
each level above the first. A chunk counts its samples in 16 bits, so that from level 23 on a long
series gets chunks that count too few of them (`exact_iff_level`). -/

namespace TopcDB.Tsdb.CompactLevel

open List Lib.Sort Lib.Assoc Lib.Segments Lib.Bits Go.Basic Chunkenc Huffman CLIterate Chunk
open HuffmanChunk ErrorBound Storage Merge MergeOrder Series AnySeries CompactChunk Overlap
open DefaultMerge EncoderChunks

/-! ### Metas -/

abbrev ULID := BitVec 128

structure BlockDesc where
  ulid : ULID
  minTime : I64
  maxTime : I64
  deriving DecidableEq

structure BlockMetaCompaction where
  level : ℕ
  sources : List ULID
  parents : List BlockDesc
  deriving DecidableEq

structure BlockMeta where
  ulid : ULID
  minTime : I64
  maxTime : I64
  compaction : BlockMetaCompaction
  deriving DecidableEq

/-- A turn of the loop of `CompactBlockMetas`. The sources are a set. -/
def BlockMeta.add (res b : BlockMeta) : BlockMeta :=
  { res with
    minTime := if b.minTime.slt res.minTime then b.minTime else res.minTime
    maxTime := if res.maxTime.slt b.maxTime then b.maxTime else res.maxTime
    compaction :=
      { level := if res.compaction.level < b.compaction.level then b.compaction.level
          else res.compaction.level
        sources := b.compaction.sources.foldl (fun s u => s.insert u) res.compaction.sources
        parents := res.compaction.parents ++ [⟨b.ulid, b.minTime, b.maxTime⟩] } }

def compactBlockMetas (uid : ULID) (blocks : List BlockMeta) : Except Fault BlockMeta :=
  match blocks with
  | [] => .error .panic
  | b0 :: _ =>
    let res := blocks.foldl BlockMeta.add ⟨uid, b0.minTime, b0.maxTime, ⟨0, [], []⟩⟩
    .ok { res with
      compaction :=
        { res.compaction with
          level := res.compaction.level + 1
          sources := sortBy (fun a b => decide (a < b)) res.compaction.sources } }

theorem level_foldl : ∀ (blocks : List BlockMeta) (res : BlockMeta),
    (blocks.foldl BlockMeta.add res).compaction.level =
      blocks.foldl (fun n b => max n b.compaction.level) res.compaction.level
  | [], _ => rfl
  | b :: blocks, res => by
    rw [foldl_cons, foldl_cons, level_foldl blocks]
    congr 1
    show (if res.compaction.level < b.compaction.level then _ else _) = _
    split_ifs with h
    · exact (max_eq_right h.le).symm
    · exact (max_eq_left (not_lt.1 h)).symm

theorem le_foldl_max (f : BlockMeta → ℕ) : ∀ (blocks : List BlockMeta) (n : ℕ),
    n ≤ blocks.foldl (fun n b => max n (f b)) n ∧
      ∀ b ∈ blocks, f b ≤ blocks.foldl (fun n b => max n (f b)) n
  | [], n => ⟨Nat.le_refl n, by simp⟩
  | b :: blocks, n => by
    have ih := le_foldl_max f blocks (max n (f b))
    rw [foldl_cons, forall_mem_cons]
    exact ⟨(le_max_left _ _).trans ih.1, (le_max_right _ _).trans ih.1, ih.2⟩

variable {m b : BlockMeta} {blocks : List BlockMeta}

theorem level_lt_compactBlockMetas {uid : ULID}
    (h : compactBlockMetas uid blocks = .ok m) (hb : b ∈ blocks) :
    b.compaction.level < m.compaction.level := by
  cases blocks with
  | nil => cases h
  | cons b0 bs =>
    cases h
    show b.compaction.level < _ + 1
    rw [level_foldl]
    exact Nat.lt_succ_of_le ((le_foldl_max (fun b => b.compaction.level) _ _).2 b hb)

theorem times_foldl : ∀ (blocks : List BlockMeta) (res : BlockMeta),
    ((blocks.foldl BlockMeta.add res).minTime = res.minTime ∨
      ∃ b ∈ blocks, (blocks.foldl BlockMeta.add res).minTime = b.minTime) ∧
    ((blocks.foldl BlockMeta.add res).maxTime = res.maxTime ∨
      ∃ b ∈ blocks, (blocks.foldl BlockMeta.add res).maxTime = b.maxTime)
  | [], _ => ⟨.inl rfl, .inl rfl⟩
  | b :: blocks, res => by
    obtain ⟨hmin, hmax⟩ := times_foldl blocks (res.add b)
    have hadd : ((res.add b).minTime = res.minTime ∨ (res.add b).minTime = b.minTime) ∧
        ((res.add b).maxTime = res.maxTime ∨ (res.add b).maxTime = b.maxTime) := by
      simp only [BlockMeta.add]
      constructor <;> split_ifs <;> simp
    rw [foldl_cons]
    constructor
    · rcases hmin with h | ⟨b', hb', h⟩
      · rw [h]
        exact hadd.1.imp id fun h' => ⟨b, mem_cons_self, h'⟩
      · exact .inr ⟨b', mem_cons_of_mem _ hb', h⟩
    · rcases hmax with h | ⟨b', hb', h⟩
      · rw [h]
        exact hadd.2.imp id fun h' => ⟨b, mem_cons_self, h'⟩
      · exact .inr ⟨b', mem_cons_of_mem _ hb', h⟩

/-- A compacted block begins with one of its blocks and ends with one of them. -/
theorem compactBlockMetas_times {uid : ULID} (h : compactBlockMetas uid blocks = .ok m) :
    (∃ b ∈ blocks, m.minTime = b.minTime) ∧ ∃ b ∈ blocks, m.maxTime = b.maxTime := by
  cases blocks with
  | nil => cases h
  | cons b0 bs =>
    cases h
    obtain ⟨hmin, hmax⟩ := times_foldl (b0 :: bs) ⟨uid, b0.minTime, b0.maxTime, ⟨0, [], []⟩⟩
    exact ⟨hmin.elim (fun h => ⟨b0, mem_cons_self, h⟩) id,
      hmax.elim (fun h => ⟨b0, mem_cons_self, h⟩) id⟩

/-- The metas of the blocks that the head writes and that repeated compactions make of them. -/
inductive OnDisk : BlockMeta → Prop
  | written {m : BlockMeta} (hm : m.compaction.level = 1) : OnDisk m
  | compacted {uid : ULID} {blocks : List BlockMeta} {m : BlockMeta}
      (hblocks : ∀ b ∈ blocks, OnDisk b) (hm : compactBlockMetas uid blocks = .ok m) : OnDisk m

/-- The meta of a compaction. -/
def Produced (m : BlockMeta) : Prop :=
  ∃ uid blocks, (∀ b ∈ blocks, OnDisk b) ∧ compactBlockMetas uid blocks = .ok m

theorem one_le_level (h : OnDisk m) : 1 ≤ m.compaction.level := by
  induction h with
  | written hm => exact hm.ge
  | @compacted uid blocks m _ hm ih =>
    obtain _ | ⟨b, bs⟩ := blocks
    · cases hm
    · have hlt := level_lt_compactBlockMetas hm mem_cons_self
      omega

theorem two_le_level (h : Produced m) : 2 ≤ m.compaction.level := by
  obtain ⟨uid, blocks, hblocks, hm⟩ := h
  obtain _ | ⟨b, bs⟩ := blocks
  · cases hm
  · have hlt := level_lt_compactBlockMetas hm mem_cons_self
    have := one_le_level (hblocks b mem_cons_self)
    omega

/-- A block of the head that was written to disk. -/
def headBlock : BlockMeta := ⟨0, 0, 7200000, ⟨1, [0], []⟩⟩

theorem compactBlockMetas_singleton (b : BlockMeta) :
    ∃ m, compactBlockMetas 0 [b] = .ok m ∧ m.compaction.level = b.compaction.level + 1 := by
  refine ⟨_, rfl, ?_⟩
  show _ + 1 = _
  rw [level_foldl, foldl_cons, foldl_nil]
  simp

/-- Every level from 2 on is reached, by compacting one block again and again. -/
theorem exists_produced (n : ℕ) : ∃ m, Produced m ∧ m.compaction.level = n + 2 := by
  induction n with
  | zero =>
    obtain ⟨m, hm, hlevel⟩ := compactBlockMetas_singleton headBlock
    exact ⟨m, ⟨0, _, by simpa using OnDisk.written (m := headBlock) rfl, hm⟩, hlevel⟩
  | succ n ih =>
    obtain ⟨b, ⟨uid, blocks, hblocks, hb⟩, hlevel⟩ := ih
    obtain ⟨m, hm, hlevel'⟩ := compactBlockMetas_singleton b
    exact ⟨m, ⟨0, _, by simpa using OnDisk.compacted hblocks hb, hm⟩, by rw [hlevel', hlevel]⟩

/-! ### Chunks of a level -/

/-- The split that `PopulateBlock` sets from level 2 on. -/
def levelSplit (m : BlockMeta) : ℤ :=
  (m.compaction.level - 1) * 3 * defaultSeriesToChunkEncoderSplit

theorem levelSplit_eq (m : BlockMeta) : levelSplit m = 3000 * (m.compaction.level - 1) := by
  rw [levelSplit, defaultSeriesToChunkEncoderSplit]
  ring

theorem segmentSize_levelSplit (h : Produced m) :
    segmentSize (levelSplit m) = 3000 * (m.compaction.level - 1) := by
  have := two_le_level h
  rw [segmentSize, levelSplit_eq]
  omega

variable {σ H FH A FA : Type} {C : Codecs H FH A FA} {ranges : ℕ → Ranges}
  {order : RangeOrder (U64 × I64)} {fuel : ℕ} {I : Iterator σ H FH} {bytes : Meta A FA → List Byte}
  {iterator : Meta A FA → Except Fault σ} {held : Meta A FA → List (ValueType × σ)}
  {iterators : List (ChunkIterator (Meta A FA))} {series : List (ValueType × σ)} {k : ℕ}

/-- **The counter of chunks does not wrap** at the level of a compaction if and only if there is a
chunk, no sample is at the smallest int64, the level is at most 22 or the series no longer than a
chunk can count, and the tables of its codes can be written. -/
theorem exact_iff_level {m : BlockMeta} (hm : Produced m) (herr : ∀ it ∈ iterators, it.err = none)
    (hc : ∀ m ∈ chunksOf iterators, Covers (encoderChunks C ranges fuel I bytes iterator) held m)
    (hs : SeriesOf I held (chunksOf iterators) series)
    (hfuel : 2 * count held (chunksOf iterators) < fuel) (hk : series.length < k) :
    Exact C ranges order fuel I bytes iterator k (levelSplit m) iterators series ↔
      chunksOf iterators ≠ [] ∧ (∀ x ∈ series, minInt64.toInt < time I x.2) ∧
        (m.compaction.level ≤ 22 ∨ series.length ≤ 65535) ∧
        ∀ seg ∈ cut (3000 * (m.compaction.level - 1)) (series.map (handedAt I)),
          Dense (deltaCodes 0 (seg.map Prod.snd)) := by
  have hlevel := two_le_level hm
  have hsplit : defaultSeriesToChunkEncoderSplit < levelSplit m := by
    rw [levelSplit_eq, defaultSeriesToChunkEncoderSplit]
    omega
  rw [exact_iff_encodable herr hc hs hsplit hfuel hk, Storage.EncoderChunks.Encodable,
    segmentSize_levelSplit hm]
  have hsize : (3000 * (m.compaction.level - 1) < 2 ^ 16 ∨ series.length < 2 ^ 16) ↔
      (m.compaction.level ≤ 22 ∨ series.length ≤ 65535) := by omega
  rw [hsize]

/-! ### A series in one chunk -/

theorem mem_states {l : List (AnySample Unit Unit)} : ∀ {rest : List (AnySample Unit Unit)} {i : ℕ},
    l.drop i = rest → ∀ x ∈ states l i rest, ∃ (j : ℕ) (s : AnySample Unit Unit),
      x = (s.type, ⟨l, j⟩) ∧ l[j]? = some s
  | [], _, _, x, hx => by cases hx
  | s :: rest, i, hrest, x, hx => by
    rcases mem_cons.1 hx with rfl | hx
    · exact ⟨i, s, rfl, by rw [← head?_drop, hrest]; rfl⟩
    · exact mem_states (by rw [← drop_drop, hrest]; rfl) x hx

theorem floatAt_listHeld (m : ListChunk) : ∀ x ∈ listHeld m, FloatAt (listSeriesIterator id) x := by
  intro x hx
  obtain ⟨j, s, rfl, hs⟩ := mem_states rfl x hx
  obtain ⟨p, -, rfl⟩ := mem_map.1 (mem_of_getElem? hs)
  exact ⟨rfl, ⟨p.2, by simp [listSeriesIterator, get_eq, hs, AnySample.t]⟩,
    by simp [listSeriesIterator]⟩

/-- A chunk with the bounds of the list. -/
def chunkMeta (l : List (I64 × ℚ)) : Meta Unit Unit :=
  ⟨(chunkOf l).minTime, (chunkOf l).maxTime, .cl ⟨[], 0⟩⟩

section oneChunk

variable {l : List (I64 × ℚ)} (hne : l ≠ []) (hl : l.Pairwise fun p q => p.1.toInt < q.1.toInt)
include hne hl

theorem covers_chunkMeta {fuel : ℕ} : ∀ m ∈ chunksOf [⟨[chunkMeta l], none⟩],
    Covers (encoderChunks (default : Codecs Unit Unit Unit Unit) default fuel
      (listSeriesIterator id)
      (fun _ => []) fun _ => .ok (.new (floats l))) (fun _ => listHeld (chunkOf l)) m := by
  intro m hm
  obtain rfl : m = chunkMeta l := by simpa [chunksOf] using hm
  have h : Covers (listChunks fuel) listHeld (chunkOf l) := covers_chunkOf hne hl
  exact { h with }

theorem seriesOf_chunkMeta : SeriesOf (listSeriesIterator id) (fun _ => listHeld (chunkOf l))
    (chunksOf [⟨[chunkMeta l], none⟩]) (listHeld (chunkOf l)) where
  ascends :=
    have h : Covers (listChunks 0) listHeld (chunkOf l) := covers_chunkOf hne hl
    h.ascends
  perm := by simp [chunksOf]
  floats := floatAt_listHeld _

end oneChunk

theorem exact_iff_level_oneSample : ∃ m, Produced m ∧ m.compaction.level = 2 ∧
    Exact (default : Codecs Unit Unit Unit Unit) default default 3 (listSeriesIterator id)
      (fun _ => []) (fun _ => .ok (.new (floats [(1000, 1)]))) 2 (levelSplit m)
      [⟨[chunkMeta [(1000, 1)]], none⟩] (listHeld (chunkOf [(1000, 1)])) := by
  obtain ⟨m, hm, hlevel⟩ := exists_produced 0
  refine ⟨m, hm, hlevel, (exact_iff_level hm (by simp) (covers_chunkMeta (by simp) (by simp))
    (seriesOf_chunkMeta (by simp) (by simp)) (by decide) (by decide)).2 ⟨?_, ?_, ?_, ?_⟩⟩
  · simp [chunksOf]
  · decide +kernel
  · exact Or.inr (by decide)
  · rw [hlevel]
    have hcut : cut (3000 * (2 - 1)) ((listHeld (chunkOf [(1000, 1)])).map
        (handedAt (listSeriesIterator id))) = [[(1000, 50)]] := by decide +kernel
    rw [hcut]
    simp only [mem_singleton, forall_eq]
    exact dense_deltaCodes (by simp [InRange])

/-- A series of 65536 samples in a chunk of level 23. -/
def longSeries : List (I64 × ℚ) := (List.range 65536).map fun i => (BitVec.ofNat 64 i, 0)

theorem toInt_ofNat_of_lt {i : ℕ} (h : i < 65536) : (BitVec.ofNat 64 i).toInt = i := by
  have hi : (BitVec.ofNat 64 i).toNat = i := by rw [BitVec.toNat_ofNat, Nat.mod_eq_of_lt (by omega)]
  rw [BitVec.toInt_eq_toNat_of_lt (by omega), hi]

theorem pairwise_longSeries : longSeries.Pairwise fun p q => p.1.toInt < q.1.toInt := by
  have hlt : (List.range 65536).Pairwise fun i j =>
      (BitVec.ofNat 64 i).toInt < (BitVec.ofNat 64 j).toInt := by
    refine pairwise_lt_range.imp_of_mem fun hi hj hij => ?_
    rw [toInt_ofNat_of_lt (mem_range.1 hi), toInt_ofNat_of_lt (mem_range.1 hj)]
    exact Int.ofNat_lt.2 hij
  exact pairwise_map.2 hlt

/-- A chunk of level 23 does not count 65536 samples. -/
theorem not_exact_longSeries : ∃ m, Produced m ∧ m.compaction.level = 23 ∧
    ∀ fuel k order, 2 * count (fun _ : Meta Unit Unit => listHeld (chunkOf longSeries))
        (chunksOf [⟨[chunkMeta longSeries], none⟩]) < fuel →
        (listHeld (chunkOf longSeries)).length < k →
      ¬ Exact (default : Codecs Unit Unit Unit Unit) default order fuel (listSeriesIterator id)
        (fun _ => []) (fun _ => .ok (.new (floats longSeries))) k (levelSplit m)
        [⟨[chunkMeta longSeries], none⟩] (listHeld (chunkOf longSeries)) := by
  obtain ⟨m, hm, hlevel⟩ := exists_produced 21
  refine ⟨m, hm, hlevel, fun fuel k order hfuel hk => ?_⟩
  have hlen : longSeries.length = 65536 := by rw [longSeries, length_map, length_range]
  have hne : longSeries ≠ [] := fun h => by rw [h] at hlen; cases hlen
  have hheld : (listHeld (chunkOf longSeries)).length = 65536 := by
    have := congrArg List.length (map_sampleOf (chunkOf longSeries))
    simpa [floats, chunkOf, hlen] using this
  have hsplit : defaultSeriesToChunkEncoderSplit < levelSplit m := by
    rw [levelSplit_eq, hlevel]
    decide
  rw [exact_iff_encodable (by simp) (covers_chunkMeta hne pairwise_longSeries)
    (seriesOf_chunkMeta hne pairwise_longSeries) hsplit hfuel hk]
  rintro ⟨-, -, hsize, -⟩
  rw [segmentSize_levelSplit hm, hlevel, hheld] at hsize
  omega

end TopcDB.Tsdb.CompactLevel
