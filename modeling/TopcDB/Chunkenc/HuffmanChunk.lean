import TopcDB.Chunkenc.CLAppend

/-! # Huffman chunks

`Compact` rebuilds the whole stream of a Huffman chunk from the buffers. It can do so when there is
a sample and the table of the codes can be written, which asks for every code to be in the range of
Simple8b above a smaller one (`Dense`). -/

namespace TopcDB.Chunkenc.HuffmanChunk

open List Lib.Bits Lib.Assoc Lib.Machine Lib.Sort Go.Basic Huffman CLMeta CLChunk CLIterate CLAppend

/-! ### Which tables can be written -/

/-- Every code is below `2 ^ 60`, or less than that above a smaller code. -/
def Dense (cs : List U64) : Prop :=
  ∀ c ∈ cs, c.toNat < 2 ^ 60 ∨ ∃ c' ∈ cs, c'.toNat < c.toNat ∧ c.toNat < c'.toNat + 2 ^ 60

theorem dense_of_small {cs : List U64} (h : Small cs) : Dense cs := fun c hc => Or.inl (h c hc)

/-- The gaps of an ascending list against the distances to any smaller element. -/
theorem keyDeltas_lt_iff : ∀ {keys : List U64} {v : U64},
    (v :: keys).Pairwise (fun x y => x.toNat ≤ y.toNat) → keys.Pairwise (· ≠ ·) →
    ((∀ x ∈ keyDeltas v keys, x.toNat < 2 ^ 60) ↔ ∀ k ∈ keys, k.toNat < v.toNat + 2 ^ 60 ∨
      ∃ k' ∈ keys, k'.toNat < k.toNat ∧ k.toNat < k'.toNat + 2 ^ 60)
  | [], _, _, _ => by simp [keyDeltas]
  | k :: keys, v, hs, hnd => by
    have hs' := pairwise_cons.1 hs
    have hvk := hs'.1 k mem_cons_self
    have hks := (pairwise_cons.1 hs'.2).1
    have hne := (pairwise_cons.1 hnd).1
    have hlt : ∀ k' ∈ keys, k.toNat < k'.toNat := fun k' hk' =>
      lt_of_le_of_ne (hks k' hk') fun h => hne k' hk' (BitVec.eq_of_toNat_eq h)
    have hsub : (k - v).toNat = k.toNat - v.toNat := BitVec.toNat_sub_of_le hvk
    rw [keyDeltas, forall_mem_cons, keyDeltas_lt_iff hs'.2 (pairwise_cons.1 hnd).2, hsub]
    constructor
    · rintro ⟨hk, hrest⟩ x hx
      rcases mem_cons.1 hx with rfl | hx
      · exact Or.inl (by omega)
      · rcases hrest x hx with h | ⟨k', hk', h⟩
        · exact .inr ⟨k, mem_cons_self, hlt x hx, h⟩
        · exact .inr ⟨k', mem_cons_of_mem _ hk', h⟩
    · intro hall
      refine ⟨?_, fun x hx => ?_⟩
      · rcases hall k mem_cons_self with h | ⟨k', hk', h, -⟩
        · omega
        · rcases mem_cons.1 hk' with rfl | hk'
          · omega
          · have := hlt k' hk'; omega
      · rcases hall x (mem_cons_of_mem _ hx) with h | ⟨k', hk', h⟩
        · exact Or.inl (by omega)
        · rcases mem_cons.1 hk' with rfl | hk'
          · exact Or.inl h.2
          · exact .inr ⟨k', hk', h⟩

theorem gapsFit_iff (order : RangeOrder (U64 × I64)) (cs : List U64) :
    GapsFit order (countTimes cs) ↔ Dense cs := by
  have hperm := sortedKeys_perm order (countTimes cs)
  have hmem : ∀ k, k ∈ sortedKeys order (countTimes cs) ↔ k ∈ cs := fun k => by
    rw [hperm.mem_iff, mem_keys_countTimes]
  have hsorted : (sortedKeys order (countTimes cs)).Pairwise (fun x y => x.toNat ≤ y.toNat) :=
    pairwise_sortBy (fun x y => by simp [BitVec.lt_def]) _
  rw [GapsFit, keyDeltas_lt_iff (pairwise_cons.2 ⟨fun _ _ => Nat.zero_le _, hsorted⟩)
    (hperm.nodup_iff.2 (countTimes cs).nodup), Dense]
  simp only [hmem, show BitVec.toNat (0 : U64) = 0 from rfl, Nat.zero_add]

/-! ### `Compact` -/

section

variable {a : CLAppender} {n : ℕ} {l : List (I64 × I64)} (h : Buffered a n l)
  (hl : l.length < 2 ^ 16) (he : BoundFits a.errbound)
include h hl he

theorem Buffered.compactHuffman (hne : l ≠ []) (hd : Dense (deltaCodes 0 (l.map Prod.snd)))
    (ranges : Ranges) :
    ∃ s c payload, a.compactHuffman ranges a.payloadPtr = .ok { a with b := ⟨s, c⟩ } ∧
      huffmanEncodeWithoutTimesMap ranges (deltaCodes 0 (l.map Prod.snd)) a.payloadPtr =
        some ⟨List.replicate a.payloadPtr 0#8 ++ payload, c⟩ ∧
      IsChunk s a.num a.errbound a.ctype a.timestamps.b.stream payload ∧
      ∀ order (pre : List Byte), pre.length = 12 + a.timestamps.b.stream.length → ∃ d,
        newHuffmanDecoder order (pre ++ payload) (12 + a.timestamps.b.stream.length) =
          .ok (some d) ∧ Reads d (deltaCodes 0 (l.map Prod.snd)) := by
  have hne' : deltaCodes 0 (l.map Prod.snd) ≠ [] := fun h0 => hne (by
    have := congrArg List.length h0
    simpa using this)
  obtain ⟨payload, c, henc, hdec⟩ := encode_decodes hne' (by simp; omega) ranges
    ((gapsFit_iff _ _).2 hd) a.payloadPtr
  obtain ⟨s, hs, hc⟩ := compactHuffman_spec h.stamped (by simpa using hl) he (h.buffer ▸ henc)
  rw [h.stamped.payloadPtr] at hdec
  exact ⟨s, c, payload, hs, henc, hc, hdec⟩

end

variable {l : List (I64 × I64)}

/-- **`Compact` of a Huffman chunk.** -/
theorem Buffered.compact_huffman {a : CLAppender} (h : Buffered a 0 l)
    (hl : l.length < 2 ^ 16) (he : BoundFits a.errbound) (hc : a.ctype = .huffman) (hne : l ≠ [])
    (hd : Dense (deltaCodes 0 (l.map Prod.snd))) (ext : Extern) (ranges : Ranges) :
    ∃ a', a.compact ext ranges = .ok (a', none) ∧ Buffered a' 0 l ∧ Keeps a a' ∧
      DecodesTo a'.b.stream (storedErrbound a.errbound) l ∧
      ∃ payload, IsChunk a'.b.stream a.num a.errbound .huffman a.timestamps.b.stream payload := by
  obtain ⟨s, c, payload, hs, -, hchunk, hdec⟩ :=
    Buffered.compactHuffman h hl he hne hd fun i => ranges (i + 2)
  rw [hc] at hchunk
  have hprep : a.prepare ext ranges = (a, .ok []) := by rw [CLAppender.prepare, hc]
  exact ⟨_, compact_of_huffman hprep hc hs, ⟨h.stamped.of_isChunk hchunk, h.v, h.buffer⟩,
    ⟨rfl, rfl, rfl, rfl, rfl⟩, hchunk.decodesTo_huffman
      (h.stamped.toNat_num hl) h.stamped.bytesBits_stream hdec, payload, hchunk⟩

/-- Without samples, or when the table cannot be written, `Compact` has no stream to copy to. -/
theorem Buffered.dense_of_compact {a : CLAppender} {n : ℕ} {ext : Extern}
    {ranges : Ranges} {r : CLAppender × Option Err} (h : Buffered a n l) (hc : a.ctype = .huffman)
    (hcomp : a.compact ext ranges = .ok r) : l ≠ [] ∧ Dense (deltaCodes 0 (l.map Prod.snd)) := by
  by_contra hd
  rw [not_and_or, not_not] at hd
  have henc : huffmanEncodeWithoutTimesMap (fun i => ranges (i + 2)) a.intDeltaBuffer a.payloadPtr =
      none := by
    rw [h.buffer]
    rcases hd with rfl | hd
    · exact encode_nil _ _
    · exact encode_none (fun hg => hd ((gapsFit_iff _ _).1 hg)) _
  simp only [CLAppender.compact, CLAppender.prepare, hc, CLAppender.compactHuffman, henc] at hcomp
  cases hcomp

/-- **Huffman chunk round trip.** -/
theorem decodeChunk_huffman (ext : Extern) (l : List (I64 × I64)) (ranges : Ranges) (hne : l ≠ [])
    (hlen : l.length ≤ 65535) (hsmall : Small (deltaCodes 0 (l.map Prod.snd))) :
    ∃ a, run (exec ext) ((appender newCLChunk).setCompressType .huffman)
        (appends l ++ [.compact ranges]) = .ok (a, []) ∧
      ∀ order, ∃ samples, decodeChunk ext order a.b.stream = .ok (samples, none) ∧
        samples.map (fun s => (s.t, s.quantizer)) = l := by
  obtain ⟨a1, hrun, hb, hk, -⟩ := (buffered_new defaultErrbound .huffman).run_appends ext l rfl
  obtain ⟨a2, hcomp, -, -, hd, -⟩ := Buffered.compact_huffman hb (Nat.lt_succ_of_le hlen)
    (hk.errbound ▸ boundFits_default) hk.ctype hne (dense_of_small hsmall) ext ranges
  exact ⟨a2, run_concat (i := Op.compact ranges) hrun hcomp, hd.quantizers hsmall.readable ext⟩

theorem decodeChunk_huffman_four :
    ∃ a, run (exec default) ((appender newCLChunk).setCompressType .huffman)
        (appends [(5, 0), (9, 7), (12, 4), (13, 11)] ++ [.compact default]) = .ok (a, []) ∧
      ∀ order, ∃ samples, decodeChunk default order a.b.stream = .ok (samples, none) ∧
        samples.map (fun s => (s.t, s.quantizer)) = [(5, 0), (9, 7), (12, 4), (13, 11)] :=
  decodeChunk_huffman default [(5, 0), (9, 7), (12, 4), (13, 11)] default (by simp) (by simp)
    (by decide)

end TopcDB.Chunkenc.HuffmanChunk
