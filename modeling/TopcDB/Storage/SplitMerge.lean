import TopcDB.Storage.DefaultMerge

/-! # Merging chunk iterators with a split

After `SetSeriesToChunkEncoderSplit` with more than the default split, all chunks are merged at once
and `Next` delivers what they were encoded to (`drainsSplit_of_mergeEncode`), unless the merge
panics, as it does without chunks. -/

namespace TopcDB.Storage.SplitMerge

open Go.Basic Chunkenc.Chunk Merge MergeOrder Series CompactChunk Overlap MergeRun DefaultMerge
open CompactChunkIterator

variable {μ σ H FH : Type} {S : Chunks μ σ H FH}

theorem drain_mergeItr : ∀ {l : List μ} {k : ℕ} {c : CompactChunkIterator μ},
    defaultSeriesToChunkEncoderSplit < c.seriesToChunkEncoderSplit → c.mergeItr = some (.ok l) →
    l.length < k → ∃ c', drain S k c = .ok (l, c') ∧
      c'.iterators = c.iterators ∧ c'.err = []
  | _, 0, _, _, _, hk => by omega
  | [], k + 1, c, hsplit, hm, _ => by
    refine ⟨{ c with err := [] }, ?_, rfl, rfl⟩
    simp only [drain, next, if_pos hsplit, hm]
  | m :: l, k + 1, c, hsplit, hm, hk => by
    have ih : ∃ c', drain S k
        { c with curr := some m, mergeItr := some (.ok l) } = .ok (l, c') ∧
        c'.iterators = c.iterators ∧ c'.err = [] :=
      drain_mergeItr hsplit rfl (Nat.lt_of_succ_lt_succ hk)
    obtain ⟨c', hdrain, hits, herr⟩ := ih
    refine ⟨c', ?_, hits, herr⟩
    simp only [drain, next, if_pos hsplit, hm, hdrain,
      Except.map]

/-- Draining the iterator after `SetSeriesToChunkEncoderSplit` delivers the chunks `out`. -/
def DrainsSplit (S : Chunks μ σ H FH) (k : ℕ) (split : ℤ) (iterators : List (ChunkIterator μ))
    (out : List μ) : Prop :=
  ∃ c c', (newCompactChunkIterator iterators).setSeriesToChunkEncoderSplit S split = .ok c ∧
    drain S k c = .ok (out, c') ∧ c'.errs = []

variable {out out' new : List μ} {iterators : List (ChunkIterator μ)} {k : ℕ} {split : ℤ}

theorem drainsSplit_unique (h : DrainsSplit S k split iterators out)
    (h' : DrainsSplit S k split iterators out') : out = out' := by
  obtain ⟨c, c1, hset, hdrain, -⟩ := h
  obtain ⟨c', c2, hset', hdrain', -⟩ := h'
  cases hset.symm.trans hset'
  exact (Prod.mk.inj (Except.ok.inj (hdrain.symm.trans hdrain'))).1

variable (hsplit : defaultSeriesToChunkEncoderSplit < split)
include hsplit

theorem drainsSplit_of_mergeEncode (herr : ∀ it ∈ iterators, it.err = none)
    (hmerge : mergeEncode S split (chunksOf iterators) = .ok (.ok new)) (hk : new.length < k) :
    DrainsSplit S k split iterators new := by
  have hmerge' : mergeEncode S split (iterators.flatMap ChunkIterator.chks) = .ok (.ok new) :=
    hmerge
  have hdrain : ∃ c', drain S k
      ⟨iterators.map fun it => { it with chks := [] }, none, [], none, split, some (.ok new)⟩ =
        .ok (new, c') ∧ c'.iterators = iterators.map (fun it => { it with chks := [] }) ∧
        c'.err = [] := drain_mergeItr hsplit rfl hk
  obtain ⟨c', hdrain, hits, herr'⟩ := hdrain
  refine ⟨_, c', ?_, hdrain, ?_⟩
  · simp only [setSeriesToChunkEncoderSplit, if_pos hsplit,
      newCompactChunkIterator, hmerge', Except.map]
  · rw [errs, hits, herr']
    simpa using herr

theorem not_drainsSplit_of_error {fault : Fault}
    (hmerge : mergeEncode S split (chunksOf iterators) = .error fault) (out : List μ) :
    ¬ DrainsSplit S k split iterators out := by
  rintro ⟨c, c', hset, -⟩
  have hmerge' : mergeEncode S split (iterators.flatMap ChunkIterator.chks) = .error fault := hmerge
  simp only [setSeriesToChunkEncoderSplit, if_pos hsplit,
    newCompactChunkIterator, hmerge', Except.map] at hset
  cases hset

theorem not_drainsSplit_nil (hnil : chunksOf iterators = []) (out : List μ) :
    ¬ DrainsSplit S k split iterators out := by
  have hpanic : mergeEncode S split (chunksOf iterators) = .error .panic := by
    rw [hnil]
    rfl
  exact not_drainsSplit_of_error hsplit hpanic out

end TopcDB.Storage.SplitMerge
