import TopcDB.Chunkenc.CLAppend

/-! # BitPacking chunks

The payload holds all values, and the decoder of the payload reads them back. An iterator over the
chunk takes the answer of the decoder the wrong way round, and ends at the first sample. -/

namespace TopcDB.Chunkenc.BitPackingChunk

open List Lib.Bits Lib.Assoc Go.Basic Timestamps Huffman BitPacking CLChunk CLIterate CLAppend

/-- The payload of the samples `l`. -/
def packed (l : List (I64 × I64)) : List Byte :=
  (bitPackingAll (deltaCodes 0 (l.map Prod.snd))).stream

variable {l : List (I64 × I64)}

theorem length_packed_pos (h : l ≠ []) : 0 < (packed l).length := by
  obtain ⟨p, l', rfl⟩ := exists_cons_of_ne_nil h
  have hlen := (holds_bitPackingAll (deltaCodes 0 ((p :: l').map Prod.snd))).length
  rw [map_cons, deltaCodes, length_cons, payloadBits, if_neg (by simp), blockBits,
    length_append, length_append, length_toBits] at hlen
  rw [packed, map_cons, deltaCodes]
  omega

/-- **`Compact` of a BitPacking chunk**, when it rebuilds the stream or has nothing to change. -/
theorem Buffered.compact_bitPacking {a : CLAppender} (h : Buffered a 0 l) (hl : l.length < 2 ^ 16)
    (he : BoundFits a.errbound) (hc : a.ctype = .bitPacking)
    (hb : HasBody a.b.stream a.timestamps.b.stream (packed l) ∨
      a.b.stream.length < a.payloadPtr + (packed l).length) (ext : Extern) (ranges : Ranges) :
    ∃ a', a.compact ext ranges = .ok (a', none) ∧ Buffered a' 0 l ∧ Keeps a a' ∧
      a'.timestamps = a.timestamps ∧
      IsChunk a'.b.stream a.num a.errbound .bitPacking a.timestamps.b.stream (packed l) := by
  obtain ⟨s, hf, hchunk⟩ := finish_spec h.stamped (by simpa using hl) he hb
  rw [hc] at hchunk
  have hprep : a.prepare ext ranges = (a, .ok []) := by rw [CLAppender.prepare, hc]
  have hpay : a.payload ext [] = .ok (a, packed l) := by
    simp only [CLAppender.payload, hc, h.buffer, packed]
  exact ⟨_, compact_of_finish hprep (by rw [hc]; decide) hpay hf,
    ⟨h.stamped.of_isChunk hchunk, h.v, h.buffer⟩, ⟨rfl, rfl, rfl, rfl, rfl⟩, rfl, hchunk⟩

/-- **An iterator over a BitPacking chunk yields nothing.** -/
theorem decodeChunk_bitPacking {s : List Byte} {num : U16} {errbound : ℚ} {stamps : List Byte}
    {pad : List Bool} (hne : l ≠ []) (hc : IsChunk s num errbound .bitPacking stamps (packed l))
    (hnum : num.toNat = l.length)
    (hts : bytesBits stamps = Clock.zero.bitsOf (l.map Prod.fst) ++ pad) (ext : Extern)
    (order : RangeOrder (U64 × I64)) : decodeChunk ext order s = .ok ([], none) := by
  obtain ⟨p, l', rfl⟩ := exists_cons_of_ne_nil hne
  have hreads := reads_new (deltaCodes 0 ((p :: l').map Prod.snd))
  rw [length_deltaCodes, length_map, ← hnum] at hreads
  obtain ⟨d1, d2, hnext, -⟩ := hreads.next
  have hopen : Opens ext order s
      (.bitPacking (newBitPackingDecoder (packed (p :: l')) num.toNat)) :=
    ⟨_, hc.readCLMeta, by rw [openDecoder, hc.toNat_ptr, hc.sliceFrom]; rfl⟩
  have hend : (Decoder.bitPacking (newBitPackingDecoder (packed (p :: l')) num.toNat)).nextDelta =
      .ok (none, .bitPacking d1) := by rw [Decoder.nextDelta, packed, hnext]
  exact hc.decodeChunk_eq_nil (by rw [hnum]; simp) hts hopen (by simp) hend

end TopcDB.Chunkenc.BitPackingChunk
