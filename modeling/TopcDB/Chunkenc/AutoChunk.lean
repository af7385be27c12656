import TopcDB.Chunkenc.HuffmanChunk
import TopcDB.Chunkenc.SimplebitsChunk

/-! # Auto chunks

The first `Compact` of an Auto appender looks at the widths of the codes and becomes a Huffman, a
QSimple8b or a Simplebits appender for good. Simplebits is chosen only when some code is wide, so
that the single group of one-bit codes never arises; the estimates of the costs do not matter. -/

namespace TopcDB.Chunkenc.AutoChunk

open List Lib.Bits Lib.Machine Go.Basic Simple8b Simple8bStream Huffman BitSelectors Simplebits
open CLMeta CLChunk CLIterate CLAppend HuffmanChunk SimplebitsChunk CLAppender

/-! ### The choice -/

theorem proportion_nonneg (cs : List U64) {w : ℕ} (hw : w < 65) :
    0 ≤ ((bitStatistics cs).1.getD w default).proportion := by
  rw [getD_bitStatistics cs hw]
  dsimp only
  split_ifs
  · positivity
  · exact le_rfl

/-- When all codes have one bit, so do all of them among the first eight widths. -/
theorem one_le_proportion {cs : List U64} (hne : cs ≠ []) (h : ∀ c ∈ cs, c.toNat < 2) :
    1 ≤ proportion (bitStatistics cs).1 1 8 := by
  have hcount : (widthCounts cs).getD 1 0 = cs.length := by
    rw [getD_widthCounts cs (by omega), countP_eq_length]
    intro c hc
    have h1 := (bitWidth_le_iff (v := c) (b := 1) (by omega)).2 (h c hc)
    have h0 := bitWidth_pos c
    exact decide_eq_true (by omega)
  have hpos : 0 < cs.length := length_pos_iff.2 hne
  have hone : ((bitStatistics cs).1.getD 1 default).proportion = 1 := by
    rw [getD_bitStatistics cs (by omega)]
    dsimp only
    rw [hcount, if_pos ⟨hpos, Nat.one_pos⟩]
    exact div_self (Nat.cast_ne_zero.2 hpos.ne')
  have hnn : ∀ w, w < 65 → 0 ≤ ((bitStatistics cs).1.getD w default).proportion :=
    fun w hw => proportion_nonneg cs hw
  have hrange : range' 1 (8 + 1 - 1) = [1, 2, 3, 4, 5, 6, 7, 8] := rfl
  rw [proportion, hrange]
  simp only [foldl_cons, foldl_nil, hone]
  linarith [hnn 2 (by omega), hnn 3 (by omega), hnn 4 (by omega), hnn 5 (by omega),
    hnn 6 (by omega), hnn 7 (by omega), hnn 8 (by omega)]

/-- What is chosen for codes `cs`: the codec, the selectors, and the payload if it is there. -/
inductive Chosen (cs : List U64) : CompressType → Option (List BitSelector) → List Byte → Prop
  | huffman (selectors) : Chosen cs .huffman selectors []
  | qSimple8b (selectors) {ws : List U64} (h : encodeAll cs = .ok (wordsBytes ws))
      (hws : wordsValues ws = cs) : Chosen cs .qSimple8b selectors (wordsBytes ws)
  | simplebits (h : ∃ c ∈ cs, 2 ≤ c.toNat) : Chosen cs .simplebits (some (planned cs)) []

theorem chooseCodec_spec {a : CLAppender}
    (hc : a.bitCounters = some (bitStatistics a.intDeltaBuffer).1)
    (hm : a.maxBits = (bitStatistics a.intDeltaBuffer).2) (hne : a.intDeltaBuffer ≠ [])
    (hs : Small a.intDeltaBuffer) (ext : Extern) (ranges : Ranges) :
    ∃ ctype selectors data, a.chooseCodec ext ranges =
        ({ a with ctype := ctype, bitSelectors := selectors }, .ok data) ∧
      Chosen a.intDeltaBuffer ctype selectors data := by
  have hplan : a.plan.1 = planned a.intDeltaBuffer := by
    rw [plan, hc, hm]; rfl
  unfold chooseCodec
  simp only [hc, Option.getD_some]
  split_ifs with h8 h12 hcost
  · exact ⟨_, _, _, rfl, .huffman _⟩
  · obtain ⟨ws, henc, hws⟩ := encodeAll_spec hs
    exact ⟨_, _, _, by rw [henc], .qSimple8b _ henc hws⟩
  · exact ⟨_, _, _, rfl, .huffman _⟩
  · refine ⟨_, _, _, rfl, hplan ▸ .simplebits ?_⟩
    by_contra hnot
    have hbits : ∀ c ∈ a.intDeltaBuffer, c.toNat < 2 := fun c hc => by
      by_contra h2
      exact hnot ⟨c, hc, by omega⟩
    have := one_le_proportion hne hbits
    exact h8 (by linarith)

/-! ### `Compact` -/

/-- The payload was written by the encoder of the codec. -/
def EncodedBy (cs : List U64) (ptr : ℕ) (payload : List Byte) : CompressType → Prop
  | .qSimple8b => encodeAll cs = .ok payload
  | .huffman => ∃ ranges c,
      huffmanEncodeWithoutTimesMap ranges cs ptr = some ⟨replicate ptr 0#8 ++ payload, c⟩
  | .simplebits => ∃ b, packingAll cs (planned cs) = .ok b ∧ payload = b.stream
  | _ => False

/-- The appender of an Auto chunk after its first `Compact`, with the samples `l`. -/
structure Settled (a : CLAppender) (l : List (I64 × I64)) : Prop where
  buffered : Buffered a 0 l
  fits : BoundFits a.errbound
  selectors : a.ctype = .simplebits → a.bitSelectors = some (planned (codesOf l)) ∧
    ∃ c ∈ codesOf l, 2 ≤ c.toNat
  chunk : ∃ payload, IsChunk a.b.stream a.num a.errbound a.ctype a.timestamps.b.stream payload ∧
    EncodedBy (codesOf l) (12 + a.timestamps.b.stream.length) payload a.ctype
  decodes : DecodesTo a.b.stream (storedErrbound a.errbound) l

section compact

variable {a : CLAppender} {l : List (I64 × I64)} (h : Buffered a 0 l) (hl : l.length < 2 ^ 16)
  (he : BoundFits a.errbound)
include h hl he

theorem settled_of_huffman (hne : l ≠ []) (hc : a.ctype = .huffman) (hd : Dense (codesOf l))
    (ranges : Ranges) :
    ∃ a', a.compactHuffman ranges a.payloadPtr = .ok a' ∧ Settled a' l ∧
      a'.errbound = a.errbound ∧ a'.encoder = a.encoder := by
  obtain ⟨s, c, payload, hs, henc, hchunk, hdec⟩ :=
    Buffered.compactHuffman h hl he hne hd ranges
  rw [h.stamped.payloadPtr] at henc
  have hb : Buffered { a with b := ⟨s, c⟩ } 0 l :=
    ⟨h.stamped.of_isChunk hchunk, h.v, h.buffer⟩
  have hnum := h.stamped.toNat_num hl
  refine ⟨_, hs, ⟨hb, he, fun hc' => absurd (hc.symm.trans hc') (by decide), ⟨payload, hchunk, ?_⟩,
    (hc ▸ hchunk).decodesTo_huffman hnum h.stamped.bytesBits_stream hdec⟩, rfl, rfl⟩
  rw [show ctype { a with b := ⟨s, c⟩ } = .huffman from hc]
  exact ⟨ranges, c, henc⟩

theorem settled_of_simplebits {ext : Extern} {ranges : Ranges} {a0 : CLAppender} {data : List Byte}
    (hp : a0.prepare ext ranges = (a, .ok data)) (hptr : a.payloadPtr = a0.payloadPtr)
    (hc : a.ctype = .simplebits) (hsel : a.bitSelectors = some (planned (codesOf l)))
    (hlen : a.b.stream.length = 12) (hr : ∃ c ∈ codesOf l, 2 ≤ c.toNat) :
    ∃ a', a0.compact ext ranges = .ok (a', none) ∧ Settled a' l ∧ a'.errbound = a.errbound ∧
      a'.encoder = a.encoder := by
  obtain ⟨henc, hcov⟩ := encodable_planned hr
  obtain ⟨b, hb, hpos, hdec⟩ := packed_of_covers henc hcov fun c hc => lt_two_pow_maxBits hc
  have hss : a.withCounters.withSelectors.bitSelectors = some (planned (codesOf l)) := by
    unfold withSelectors withCounters
    cases a.bitCounters <;> simp only [hsel]
  obtain ⟨s, maxBits, counters, hcomp, hchunk⟩ := compact_of_simplebits hp hptr h hl he hc hss hb
    (Or.inr (by rw [hlen, h.stamped.payloadPtr]; omega))
  have hst : Stamped { a with b := ⟨s, a.b.count⟩ } 0 (l.map Prod.fst) :=
    h.stamped.of_isChunk hchunk
  have hnum := h.stamped.toNat_num hl
  refine ⟨_, hcomp, ⟨⟨{ hst with }, h.v, h.buffer⟩, he, fun _ => ⟨rfl, hr⟩,
    ⟨b.stream, ?_, ?_⟩, hdec ⟨_, _, _, hchunk, hnum, h.stamped.bytesBits_stream⟩⟩, rfl, rfl⟩
  · simpa only [hc] using hchunk
  · simp only [hc]
    exact ⟨b, hb, rfl⟩

theorem settled_of_qSimple8b (hne : l ≠ []) (hc : a.ctype = .qSimple8b)
    (hlen : a.b.stream.length = 12) {ws : List U64}
    (henc : encodeAll (codesOf l) = .ok (wordsBytes ws)) (hws : wordsValues ws = codesOf l) :
    ∃ a', a.finish a.payloadPtr (wordsBytes ws) = .ok a' ∧ Settled a' l ∧
      a'.errbound = a.errbound ∧ a'.encoder = a.encoder := by
  have hpos : 0 < ws.length := by
    have hle := length_wordsValues_le ws
    rw [hws, length_deltaCodes, length_map] at hle
    have := length_pos_iff.2 hne
    omega
  have hgrow : a.b.stream.length < a.payloadPtr + (wordsBytes ws).length := by
    rw [hlen, h.stamped.payloadPtr, length_wordsBytes]; omega
  obtain ⟨s, hf, hchunk⟩ := finish_spec h.stamped (by simpa using hl) he (Or.inr hgrow)
  have hb : Buffered { a with b := ⟨s, a.b.count⟩ } 0 l :=
    ⟨h.stamped.of_isChunk hchunk, h.v, h.buffer⟩
  have hnum := h.stamped.toNat_num hl
  refine ⟨_, hf, ⟨hb, he, fun hc' => absurd (hc.symm.trans hc') (by decide), ⟨_, hchunk, ?_⟩,
    (hc ▸ hchunk).decodesTo_qSimple8b hnum h.stamped.bytesBits_stream hws⟩, rfl, rfl⟩
  rw [show ctype { a with b := ⟨s, a.b.count⟩ } = .qSimple8b from hc]
  exact henc

/-- **The first `Compact` of an Auto chunk.** -/
theorem Buffered.compact_auto (hne : l ≠ []) (hc : a.ctype = .auto) (hcnt : a.bitCounters = none)
    (hs : Small (codesOf l)) (hlen : a.b.stream.length = 12) (ext : Extern) (ranges : Ranges) :
    ∃ a', a.compact ext ranges = .ok (a', none) ∧ Settled a' l ∧ a'.errbound = a.errbound ∧
      a'.encoder = a.encoder := by
  have hcs : codesOf l ≠ [] := fun h0 => hne (by simpa using congrArg length h0)
  set a0 : CLAppender := { a with
    bitCounters := some (bitStatistics a.intDeltaBuffer).1
    maxBits := (bitStatistics a.intDeltaBuffer).2 } with ha0
  have hwith : a.withCounters = a0 := by rw [withCounters, hcnt]
  obtain ⟨ctype, selectors, data, hchoose, hch⟩ := chooseCodec_spec (a := a0) rfl rfl
    (by rw [ha0]; simpa only [h.buffer] using hcs) (by rw [ha0]; simpa only [h.buffer] using hs)
    ext ranges
  set a1 : CLAppender := { a0 with ctype := ctype, bitSelectors := selectors }
  have hprep : a.prepare ext ranges = (a1, .ok data) := by
    simp only [prepare, hc, hwith, hchoose]
  have hb1 : Buffered a1 0 l := { h with stamped := { h.stamped with } }
  rw [show a0.intDeltaBuffer = codesOf l from h.buffer] at hch
  cases hch with
  | huffman =>
    obtain ⟨a2, h2, hset, he2, hen⟩ := settled_of_huffman hb1 hl he hne rfl (dense_of_small hs)
      fun i => ranges (i + 2)
    exact ⟨a2, compact_of_huffman hprep rfl h2, hset, he2, hen⟩
  | qSimple8b _ henc hws =>
    obtain ⟨a2, h2, hset, he2, hen⟩ := settled_of_qSimple8b hb1 hl he hne rfl hlen henc hws
    exact ⟨a2, compact_of_finish hprep (by simp) rfl h2, hset, he2, hen⟩
  | simplebits hw => exact settled_of_simplebits hb1 hl he hprep rfl rfl rfl hlen hw

end compact

/-- **Auto chunk round trip.** The header names the codec whose encoder wrote the payload. -/
theorem decodeChunk_auto (ext : Extern) (l : List (I64 × I64)) (ranges : Ranges) (hne : l ≠ [])
    (hlen : l.length ≤ 65535) (hsmall : Small (deltaCodes 0 (l.map Prod.snd))) :
    ∃ a h payload ctype, run (exec ext) ((appender newCLChunk).setCompressType .auto)
        (appends l ++ [.compact ranges]) = .ok (a, []) ∧
      readCLMeta a.b.stream = .ok h ∧ h.ctype = some ctype ∧
      sliceFrom a.b.stream h.ptr.toNat = .ok payload ∧
      EncodedBy (deltaCodes 0 (l.map Prod.snd)) h.ptr.toNat payload ctype ∧
      ∀ order, ∃ samples, decodeChunk ext order a.b.stream = .ok (samples, none) ∧
        samples.map (fun s => (s.t, s.quantizer)) = l := by
  obtain ⟨a1, hrun, hb, hk, hl, -⟩ := (buffered_new defaultErrbound .auto).run_appends ext l rfl
  obtain ⟨a2, hcomp, hset, -⟩ := Buffered.compact_auto hb (Nat.lt_succ_of_le hlen)
    (hk.errbound ▸ boundFits_default) hne hk.ctype hk.bitCounters hsmall hl ext ranges
  obtain ⟨payload, hchunk, henc⟩ := hset.chunk
  refine ⟨a2, _, payload, _, run_concat (i := Op.compact ranges) hrun hcomp, hchunk.readCLMeta, rfl,
    ?_, ?_, hset.decodes.quantizers hsmall.readable ext⟩
  · rw [hchunk.toNat_ptr, hchunk.sliceFrom]
  · rwa [hchunk.toNat_ptr]

theorem decodeChunk_auto_two :
    ∃ a h payload ctype, run (exec default) ((appender newCLChunk).setCompressType .auto)
        (appends [(5, 7), (9, 4000)] ++ [.compact default]) = .ok (a, []) ∧
      readCLMeta a.b.stream = .ok h ∧ h.ctype = some ctype ∧
      sliceFrom a.b.stream h.ptr.toNat = .ok payload ∧
      EncodedBy (deltaCodes 0 [7, 4000]) h.ptr.toNat payload ctype ∧
      ∀ order, ∃ samples, decodeChunk default order a.b.stream = .ok (samples, none) ∧
        samples.map (fun s => (s.t, s.quantizer)) = [(5, 7), (9, 4000)] :=
  decodeChunk_auto default [(5, 7), (9, 4000)] default (by simp) (by simp) (by decide)

end TopcDB.Chunkenc.AutoChunk
