import TopcDB.Chunkenc.ErrorBound

/-! # Opening an appender again

`Appender` starts with empty buffers whatever the chunk holds, but the counter goes on from the
header. A Huffman `Compact` then writes a chunk with the new samples only and with the number of all
of them, and none at all when there are no new samples. -/

namespace TopcDB.Chunkenc.Reopen

open List Lib.Bits Lib.Assoc Go.Basic Bstream Huffman CLMeta CLChunk CLIterate CLAppend HuffmanChunk
open ErrorBound

/-- The chunk has the samples `l`, and with the values `vs` appended to it those as well. -/
def LosesNothing (ext : Extern) (order : RangeOrder (U64 × I64)) (ranges : Ranges) (b : BStream)
    (l : List (I64 × I64)) (vs : List (I64 × ℚ)) : Prop :=
  ∃ a a', appendValues (appender b) vs = .ok a ∧ a.compact ext ranges = .ok (a', none) ∧
    Stores ext order a'.b.stream (l ++ quantized defaultErrbound vs)

section reopened

variable {ext : Extern} {order : RangeOrder (U64 × I64)} {ranges : Ranges} {b : BStream}
  {l : List (I64 × I64)} {vs : List (I64 × ℚ)}

theorem length_of_decodeChunk {s : List Byte}
    {samples : List Sample} {err : Option Err} (h : decodeChunk ext order s = .ok (samples, err)) :
    clHeaderSize ≤ s.length := by
  obtain ⟨it, -, hr, -⟩ := decodeChunk_eq_ok h
  obtain ⟨m, -, -, -, -, -, -, hlen⟩ := reset_spec hr
  exact hlen

variable (hb : clHeaderSize ≤ b.stream.length)
include hb

theorem exists_appended (vs : List (I64 × ℚ)) :
    ∃ a, appendValues (appender b) vs = .ok a ∧
      Buffered a (numSamples b.stream) (quantized defaultErrbound vs) ∧ a.ctype = .huffman ∧
      a.errbound = defaultErrbound := by
  obtain ⟨a, hrun, hbuf, hk, -⟩ := (buffered_appender hb).run_appends default
    (quantized defaultErrbound vs) rfl
  exact ⟨a, appendValues_of_run default rfl hrun, hbuf, hk.ctype, hk.errbound⟩

theorem not_losesNothing_nil : ¬ LosesNothing ext order ranges b l [] := by
  rintro ⟨a, a', happ, hcomp, -⟩
  obtain ⟨a1, h1, hbuf, hc, -⟩ := exists_appended hb []
  cases h1.symm.trans happ
  exact (Buffered.dense_of_compact hbuf hc hcomp).1 rfl

variable (hs : Small (deltaCodes 0 ((quantized defaultErrbound vs).map Prod.snd)))
include hs

theorem losesNothing_of_empty (hlen : vs.length ≤ 65535) (hn : numSamples b.stream = 0)
    (hne : vs ≠ []) : LosesNothing ext order ranges b [] vs := by
  obtain ⟨a, happ, hbuf, hc, he⟩ := exists_appended hb vs
  rw [hn] at hbuf
  have hlen' : (quantized defaultErrbound vs).length < 2 ^ 16 := by
    rw [quantized, length_map]; omega
  obtain ⟨a', hcomp, hbuf', -, hd, -⟩ := Buffered.compact_huffman hbuf hlen'
    (he ▸ boundFits_default) hc (by simpa [quantized] using hne) (dense_of_small hs) ext ranges
  refine ⟨a, a', happ, hcomp, ?_, ?_⟩
  · rw [hbuf'.stamped.counter, length_map, Nat.zero_add, Nat.mod_eq_of_lt hlen', nil_append]
  · rw [nil_append]
    exact hd.quantizers hs.readable ext order

theorem prefix_of_losesNothing (hn : numSamples b.stream = l.length) (hne : vs ≠ [])
    (h : LosesNothing ext order ranges b l vs) :
    quantized defaultErrbound vs <+: l ++ quantized defaultErrbound vs := by
  obtain ⟨a, a', happ, hcomp, hcount, samples, hdec, hmap⟩ := h
  obtain ⟨a1, h1, hbuf, hc, he⟩ := exists_appended hb vs
  obtain rfl : a1 = a := Except.ok.inj (h1.symm.trans happ)
  set l' := quantized defaultErrbound vs with hl'
  have hlen := numSamples_lt a'.b.stream
  rw [hcount, length_append] at hlen
  have hne' : l' ≠ [] := by simpa [hl', quantized] using hne
  have hnum : a1.num.toNat = l.length + l'.length := by
    rw [hbuf.stamped.num, if_neg (by simpa using hne'), hn, length_map, BitVec.toNat_ofNat,
      Nat.mod_eq_of_lt (by omega)]
  obtain ⟨s, c, payload, hcomp', -, hchunk, hread⟩ := Buffered.compactHuffman hbuf (by omega)
    (he ▸ boundFits_default) hne' (dense_of_small hs) fun i => ranges (i + 2)
  have hprep : a1.prepare ext ranges = (a1, .ok []) := by rw [CLAppender.prepare, hc]
  obtain rfl : { a1 with b := ⟨s, c⟩ } = a' := by
    simpa [compact_of_huffman hprep hc hcomp'] using hcomp
  rw [hc] at hchunk
  obtain ⟨pre, hp, hsplit⟩ := hchunk.split
  obtain ⟨d, hd, hr⟩ := hread order pre hp
  have hopen : Opens ext order s (.huffman (some d)) :=
    ⟨_, hchunk.readCLMeta, by rw [openDecoder, hchunk.toNat_ptr, hsplit, hd]; rfl⟩
  obtain ⟨it, hfirst, -⟩ := hchunk.decodeChunk_of_le (by rw [hnum, length_map]; omega)
    (by simp) hbuf.stamped.bytesBits_stream hopen (yields_huffman hr)
  obtain ⟨p, -, heq⟩ := map_eq_ok (hfirst.symm.trans hdec)
  obtain ⟨hsamples, -⟩ := Prod.mk.inj heq
  refine ⟨p.1.map fun s => (s.t, s.quantizer), ?_⟩
  rw [← hmap, ← hsamples, map_append, map_samplesOf_deltaCodes _ _ _ _ hs.readable]

end reopened

/-- **An appender that is opened again** keeps the samples of a chunk and the new ones exactly when
the chunk has none and there is a new one, but for data that repeat: when the new samples begin both
lists, the bits behind may be read as the others. No chunk with samples takes all lists of new ones.
-/
theorem losesNothing_iff {ext : Extern} {order : RangeOrder (U64 × I64)} (ranges : Ranges)
    {b : BStream} {l : List (I64 × I64)} (h : Stores ext order b.stream l) :
    (∀ vs, vs.length ≤ 65535 →
      Small (deltaCodes 0 ((quantized defaultErrbound vs).map Prod.snd)) →
      (LosesNothing ext order ranges b l vs ↔ l = [] ∧ vs ≠ []) ∨
        l ≠ [] ∧ vs ≠ [] ∧ quantized defaultErrbound vs <+: l ++ quantized defaultErrbound vs) ∧
    ((∀ vs, vs ≠ [] → vs.length ≤ 65535 →
      Small (deltaCodes 0 ((quantized defaultErrbound vs).map Prod.snd)) →
      LosesNothing ext order ranges b l vs) ↔ l = []) := by
  obtain ⟨hn, samples, hdec, -⟩ := h
  have hb := length_of_decodeChunk hdec
  constructor
  · intro vs hlen hs
    by_cases hvs : vs = []
    · subst hvs
      exact Or.inl (iff_of_false (not_losesNothing_nil hb) (by simp))
    by_cases hl : l = []
    · subst hl
      exact Or.inl (iff_of_true (losesNothing_of_empty hb hs hlen hn hvs) ⟨rfl, hvs⟩)
    by_cases hpre : quantized defaultErrbound vs <+: l ++ quantized defaultErrbound vs
    · exact .inr ⟨hl, hvs, hpre⟩
    · refine Or.inl (iff_of_false (fun h => hpre ?_) fun h => hl h.1)
      exact prefix_of_losesNothing hb hs hn hvs h
  · constructor
    · intro hall
      by_contra hl
      obtain ⟨⟨t, q⟩, l, rfl⟩ := exists_cons_of_ne_nil hl
      -- one sample at another time
      have hq : quantized defaultErrbound [(t + 1, 0)] = [(t + 1, 0)] := by
        rw [quantized, map_singleton, show quantize defaultErrbound 0 = 0 by decide +kernel]
      have hs : Small (deltaCodes 0 ((quantized defaultErrbound [(t + 1, 0)]).map Prod.snd)) := by
        rw [hq]; exact (by decide : Small (deltaCodes 0 [0]))
      have hpre := prefix_of_losesNothing hb hs hn (by simp)
        (hall [(t + 1, 0)] (by simp) (by simp) hs)
      rw [hq, cons_append, cons_prefix_cons] at hpre
      have ht : t + 1 = t := congrArg Prod.fst hpre.1
      exact absurd ht (by grind)
    · rintro rfl vs hvs hlen hs
      exact losesNothing_of_empty hb hs hlen hn hvs

theorem stores_storedChunk : Stores default default storedChunk [(1000, 50)] :=
  ⟨by decide, [⟨1000, 50, 1⟩], decodeChunk_storedChunk, rfl⟩

theorem losesNothing_iff_storedChunk :
    (∀ vs, vs.length ≤ 65535 →
      Small (deltaCodes 0 ((quantized defaultErrbound vs).map Prod.snd)) →
      (LosesNothing default default default ⟨storedChunk, 0⟩ [(1000, 50)] vs ↔
        [((1000, 50) : I64 × I64)] = [] ∧ vs ≠ []) ∨
        [((1000, 50) : I64 × I64)] ≠ [] ∧ vs ≠ [] ∧
          quantized defaultErrbound vs <+: [(1000, 50)] ++ quantized defaultErrbound vs) ∧
    ((∀ vs, vs ≠ [] → vs.length ≤ 65535 →
      Small (deltaCodes 0 ((quantized defaultErrbound vs).map Prod.snd)) →
      LosesNothing default default default ⟨storedChunk, 0⟩ [(1000, 50)] vs) ↔
        [((1000, 50) : I64 × I64)] = []) :=
  losesNothing_iff (b := ⟨storedChunk, 0⟩) default stores_storedChunk

/-- Neither `Compact` right away nor a sample more leaves the sample in the chunk. -/
theorem not_losesNothing_storedChunk :
    ¬ LosesNothing default default default ⟨storedChunk, 0⟩ [(1000, 50)] [] ∧
      ¬ LosesNothing default default default ⟨storedChunk, 0⟩ [(1000, 50)] [(2000, 1)] := by
  refine ⟨not_losesNothing_nil (by decide), fun h => ?_⟩
  have hpre := prefix_of_losesNothing (by decide) (by decide +kernel) (by decide) (by simp) h
  exact absurd hpre (by decide +kernel)

end TopcDB.Chunkenc.Reopen
