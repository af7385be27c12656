import TopcDB.Chunkenc.CLAppend
import TopcDB.Chunkenc.OneBit

/-! # Simplebits chunks

The selectors of the planner fit their header when some value needs two bits or more, and then a
chunk is read back (`packed_of_covers`). Values of one bit are packed as one group, whose size the
header may cut; `HeaderFits` says when they are read back all the same. -/

namespace TopcDB.Chunkenc.SimplebitsChunk

open List Lib.Bits Lib.Assoc Lib.Machine Go.Basic Bstream Timestamps Zigzag Huffman BitSelectors
open Simplebits CLMeta CLChunk CLIterate CLAppend OneBit

abbrev codesOf (l : List (I64 × I64)) : List U64 := deltaCodes 0 (l.map Prod.snd)

/-- The selectors that a first `Compact` plans for the codes. -/
def planned (cs : List U64) : List BitSelector :=
  (bitSelectors (bitStatistics cs).1 maxSegmentsNum (bitStatistics cs).2 cs.length).1

/-! ### `Compact` -/

theorem withSelectors_eq (a : CLAppender) : ∃ maxBits counters,
    a.withCounters.withSelectors = { a with
      maxBits := maxBits
      bitCounters := counters
      bitSelectors := a.withCounters.withSelectors.bitSelectors } := by
  refine ⟨a.withCounters.withSelectors.maxBits, a.withCounters.withSelectors.bitCounters, ?_⟩
  unfold CLAppender.withSelectors CLAppender.withCounters
  cases a.bitCounters <;> cases a.bitSelectors <;> rfl

variable {l : List (I64 × I64)} {data s payload : List Byte} {ss : List BitSelector}

/-- `Compact` with the selectors `ss`, when it rebuilds the stream or changes nothing; `a1` is the
appender with its codec chosen. -/
theorem compact_of_simplebits {a a1 : CLAppender} {ext : Extern} {ranges : Ranges}
    (hp : a.prepare ext ranges = (a1, .ok data)) (hptr : a1.payloadPtr = a.payloadPtr)
    (h : Buffered a1 0 l) (hl : l.length < 2 ^ 16) (he : BoundFits a1.errbound)
    (hc : a1.ctype = .simplebits) (hss : a1.withCounters.withSelectors.bitSelectors = some ss)
    {b : BStream} (hb : packingAll (codesOf l) ss = .ok b)
    (hgrow : HasBody a1.b.stream a1.timestamps.b.stream b.stream ∨
      a1.b.stream.length < a1.payloadPtr + b.stream.length) :
    ∃ s maxBits counters, a.compact ext ranges = .ok ({ a1 with
        b := ⟨s, a1.b.count⟩
        maxBits := maxBits
        bitCounters := counters
        bitSelectors := some ss }, none) ∧
      IsChunk s a1.num a1.errbound .simplebits a1.timestamps.b.stream b.stream := by
  obtain ⟨maxBits, counters, heq⟩ := withSelectors_eq a1
  rw [hss] at heq
  set a2 : CLAppender :=
    { a1 with maxBits := maxBits, bitCounters := counters, bitSelectors := some ss }
  have hst : Stamped a2 0 (l.map Prod.fst) := { h.stamped with }
  have hpay : a1.payload ext data = .ok (a2, b.stream) := by
    rw [CLAppender.payload, hc]
    simp only [heq]
    rw [show a2.intDeltaBuffer = codesOf l from h.buffer, show a2.bitSelectors = some ss from rfl,
      Option.getD_some, hb]
    rfl
  obtain ⟨s, hf, hchunk⟩ := finish_spec hst (by simpa using hl) he hgrow
  rw [show a2.ctype = .simplebits from hc] at hchunk
  refine ⟨s, maxBits, counters, compact_of_finish hp (by rw [hc]; decide) hpay ?_, hchunk⟩
  rw [← hptr]
  exact hf

theorem selectors_of_none {a : CLAppender} (hc : a.bitCounters = none)
    (hs : a.bitSelectors = none) :
    a.withCounters.withSelectors.bitSelectors = some (planned a.intDeltaBuffer) := by
  simp only [CLAppender.withCounters, hc, CLAppender.withSelectors, hs, CLAppender.plan, planned,
    Option.getD_some]

/-! ### Which selectors are planned -/

variable {cs : List U64}

theorem two_le_maxBits (h : ∃ c ∈ cs, 2 ≤ c.toNat) : 2 ≤ (bitStatistics cs).2 := by
  obtain ⟨c, hc, h2⟩ := h
  have hle := bitWidth_le_maxBits hc
  by_contra hlt
  have := (bitWidth_le_iff (v := c) (b := 1) (by omega)).1 (by omega)
  omega

theorem maxBits_eq_one (hne : cs ≠ []) (h : ∀ c ∈ cs, c.toNat < 2) : (bitStatistics cs).2 = 1 := by
  obtain ⟨c, hc, heq⟩ := exists_bitWidth_eq_maxBits hne
  have h1 := (bitWidth_le_iff (v := c) (b := 1) (by omega)).2 (h c hc)
  have h0 := bitWidth_pos c
  omega

theorem lt_two_pow_maxBits {c : U64} (hc : c ∈ cs) : c.toNat < 2 ^ (bitStatistics cs).2 :=
  (bitWidth_le_iff ((bitWidth_pos c).trans_le (bitWidth_le_maxBits hc))).1 (bitWidth_le_maxBits hc)

theorem encodable_planned (h : ∃ c ∈ cs, 2 ≤ c.toNat) :
    Encodable (planned cs) ∧ Covers (planned cs) (bitStatistics cs).2 :=
  encodable_bitSelectors _ _ (two_le_maxBits h) (maxBits_le cs)

theorem planned_eq_one (hne : cs ≠ []) (h : ∀ c ∈ cs, c.toNat < 2) :
    planned cs = [oneSelector cs.length] := by
  rw [planned, maxBits_eq_one hne h, bitSelectors, if_pos le_rfl]
  rfl

/-- **`PackingAll` returns** with the planned selectors: the runs it packs fit their selectors and
make up the list. -/
theorem packingAll_planned (src : List U64) :
    ∃ b gs, packingAll src (planned src) = .ok b ∧
      Holds b (metaBits (planned src) ++ groupsBits gs) ∧ groupsValues gs = src ∧
      ∀ g ∈ gs, GroupOk (planned src) g := by
  have hmeta : ∀ ss, Holds (writeSelectorMeta ss ⟨[], 0⟩) (metaBits ss) :=
    holds_writeSelectorMeta (holds_empty [])
  rcases eq_or_ne src [] with rfl | hne
  · exact ⟨_, [], rfl, by simpa [groupsBits] using hmeta _, rfl, by simp⟩
  by_cases h2 : ∃ c ∈ src, 2 ≤ c.toNat
  · obtain ⟨he, hc⟩ := encodable_planned h2
    exact packingAll_spec he hc fun _ => lt_two_pow_maxBits
  -- values of one bit: the only selector packs the whole list
  · have hlt : ∀ c ∈ src, c.toNat < 2 := fun c hc => Nat.lt_of_not_le fun h => h2 ⟨c, hc, h⟩
    rw [planned_eq_one hne hlt]
    have hfit : Simple8b.canPack src src.length 1 = true :=
      (Simple8b.canPack_bits one_pos (by omega)).2 ⟨le_rfl, fun v hv => hlt v (mem_of_mem_take hv)⟩
    have hb := holds_bitsPack (hmeta [oneSelector src.length]) (s := oneSelector src.length)
      (show 1 ≤ 64 by omega) (show 1 ≤ 64 by omega) src
    rw [show src.take (oneSelector src.length).n = src from take_length] at hb
    exact ⟨_, [(oneSelector src.length, src)], packingAll_single hne rfl hfit,
      by simpa [groupsBits] using hb, by simp [groupsValues],
      by simpa using ⟨mem_singleton.2 rfl, rfl, hlt⟩⟩

/-! ### Reading a chunk back -/

/-- The stream is a chunk of the samples `l` with this payload. -/
def ChunkOf (l : List (I64 × I64)) (errbound : ℚ) (payload s : List Byte) : Prop :=
  ∃ num stamps pad, IsChunk s num errbound .simplebits stamps payload ∧
    num.toNat = (l.map Prod.fst).length ∧
    bytesBits stamps = Clock.zero.bitsOf (l.map Prod.fst) ++ pad

variable {errbound : ℚ}

theorem decodesTo_of_packingAll (he : Encodable ss) {b : BStream}
    (hb : packingAll (codesOf l) ss = .ok b) (h : ChunkOf l errbound b.stream s) :
    DecodesTo s (storedErrbound errbound) l := by
  obtain ⟨num, stamps, pad, hc, hnum, hts⟩ := h
  obtain ⟨gs, hholds, hgs, hok⟩ := groups_of_packingAll he hb
  obtain ⟨d, hd, hr⟩ := reads_new he hok hholds
  rw [hgs] at hr
  exact hc.decodesTo_simplebits hnum hts hd hr

theorem packed_of_covers (he : Encodable ss) {m : ℕ} (hcov : Covers ss m)
    (hm : ∀ c ∈ codesOf l, c.toNat < 2 ^ m) :
    ∃ b, packingAll (codesOf l) ss = .ok b ∧ 0 < b.stream.length ∧
      ∀ {s errbound}, ChunkOf l errbound b.stream s → DecodesTo s (storedErrbound errbound) l := by
  obtain ⟨b, gs, hb, hholds, -⟩ := packingAll_spec he hcov hm
  refine ⟨b, hb, ?_, decodesTo_of_packingAll he hb⟩
  have hlen := hholds.length
  rw [metaBits, length_append, length_append, length_toBits] at hlen
  omega

/-- The size of the group of one-bit values survives in the header, or its loss does no harm: behind
the stored size all codes are zero, with bits enough for the selectors the decoder looks for. -/
def HeaderFits (cs : List U64) : Prop :=
  (∃ c ∈ cs, 2 ≤ c.toNat) ∨
    (∀ c ∈ cs.drop (storedN cs.length), c = 0) ∧ ∀ j, j * storedN cs.length < cs.length →
      16 + j * (storedN cs.length + 1) < 8 * ((cs.length + 24) / 8)

theorem headerFits_map_ofBit (xs : List Bool) {len p : ℕ} (hlen : 8 * len = 17 + xs.length + p)
    (hp : p < 8) : HeaderFits (xs.map ofBit) ↔ (∀ x ∈ xs.drop (storedN xs.length), x = false) ∧
      ∀ j, j * storedN xs.length < xs.length → j * (storedN xs.length + 1) < 1 + xs.length + p := by
  have hbit : ∀ x, ofBit x = 0 ↔ x = false := fun x => ofBit_injective.eq_iff' rfl
  have hnot : ¬ ∃ c ∈ xs.map ofBit, 2 ≤ c.toNat := by
    simp only [mem_map, exists_exists_and_eq_and, not_exists, not_and]
    rintro (_ | _) - <;> decide
  have hdiv : 8 * ((xs.length + 24) / 8) = 17 + xs.length + p := by omega
  rw [HeaderFits, or_iff_right hnot, length_map, hdiv, ← map_drop]
  simp only [forall_mem_map, hbit]
  refine and_congr_right fun _ => forall₂_congr fun j _ => ?_
  omega

/-- The codes a decoder of one-bit values has to yield. -/
theorem decodeChunk_iff_readsBits (hc : ChunkOf l errbound payload s) {n r : ℕ} (hn : 1 ≤ n)
    {bs : List Bool} {d : SimplebitsDecoder} (hd : newSimplebitsDecoder payload = some d)
    (hat : AtBit n r bs d) (hr : ∀ c ∈ codesOf l, Readable c) (ext : Extern)
    (order : RangeOrder (U64 × I64)) :
    (∃ samples err, decodeChunk ext order s = .ok (samples, err) ∧
      samples.map (fun s => (s.t, s.quantizer)) = l) ↔ ReadsBits n r bs (codesOf l) := by
  obtain ⟨num, stamps, pad, h, hnum, hts⟩ := hc
  have hopen : Opens ext order s (.simplebits (some d)) :=
    ⟨_, h.readCLMeta, by rw [openDecoder, h.toNat_ptr, h.sliceFrom, ← hd]; rfl⟩
  constructor
  · rintro ⟨samples, err, hdec, hmap⟩
    obtain ⟨cs, hy, hsum⟩ := h.yields_of_decodeChunk hopen (by simp) hdec
    have hread := (yields_iff hn cs hat).1 hy
    have hbit : ∀ c ∈ cs, Readable c := by
      obtain ⟨xs, rfl⟩ := exists_of_readsBits hread
      simp only [forall_mem_map]
      rintro (_ | _) - <;> decide
    have hq : l.map Prod.snd = sums 0 cs := by rw [← hsum, ← hmap, map_map]; rfl
    rwa [codesOf, hq, deltaCodes_sums 0 hbit]
  · intro hread
    exact ⟨_, _, h.decodeChunk hnum (by simp) hts hopen ((yields_iff hn _ hat).2 hread),
      map_samplesOf_deltaCodes _ _ _ _ hr⟩

/-- A chunk whose codes are packed as one group of one-bit values. -/
theorem decodeChunk_iff_headerFits (hlen : l.length ≤ 65535) (hne : l ≠ [])
    (hb : ∀ c ∈ codesOf l, c.toNat < 2) :
    ∃ b, packingAll (codesOf l) [oneSelector (codesOf l).length] = .ok b ∧ 0 < b.stream.length ∧
      ∀ {s errbound}, ChunkOf l errbound b.stream s → ∀ ext order,
        (∃ samples err, decodeChunk ext order s = .ok (samples, err) ∧
          samples.map (fun s => (s.t, s.quantizer)) = l) ↔ HeaderFits (codesOf l) := by
  obtain ⟨xs, hxs⟩ := exists_of_lt_two hb
  have hxl : xs.length = l.length := by
    rw [← length_map (f := ofBit), ← hxs, length_deltaCodes, length_map]
  have hxne : xs ≠ [] := by
    rintro rfl
    exact hne (length_eq_zero_iff.1 hxl.symm)
  have hn : 1 ≤ storedN xs.length := Nat.le_add_left 1 _
  have hr : ∀ c ∈ codesOf l, Readable c := fun c hc => by have := hb c hc; rw [Readable]; omega
  obtain ⟨b, d, hpack, hd, hbits, hcount, hat⟩ := packingAll_one hxne (by omega)
  rw [← hxs, show xs.length = (codesOf l).length by rw [hxs, length_map]] at hpack
  refine ⟨b, hpack, by omega, fun hchunk ext order => ?_⟩
  rw [decodeChunk_iff_readsBits hchunk hn hd hat hr ext order, hxs,
    readsBits_iff hn _ hxne, ← headerFits_map_ofBit xs hbits hcount]

/-! ### One `Compact` on a new chunk -/

/-- The first `Compact` writes the payload of the planned selectors. -/
theorem compact_first (ext : Extern) (l : List (I64 × I64)) (ranges : Ranges)
    (hlen : l.length ≤ 65535) {b : BStream}
    (hb : packingAll (codesOf l) (planned (codesOf l)) = .ok b) (hpos : 0 < b.stream.length) :
    ∃ a, run (exec ext) ((appender newCLChunk).setCompressType .simplebits)
        (appends l ++ [.compact ranges]) = .ok (a, []) ∧
      ChunkOf l defaultErrbound b.stream a.b.stream := by
  obtain ⟨a1, hrun, hbuf, hk, hl, -⟩ :=
    (buffered_new defaultErrbound .simplebits).run_appends ext l rfl
  have hlt : l.length < 2 ^ 16 := Nat.lt_succ_of_le hlen
  have hprep : a1.prepare ext ranges = (a1, .ok []) := by rw [CLAppender.prepare, hk.ctype]; rfl
  have hss := selectors_of_none hk.bitCounters hk.bitSelectors
  rw [hbuf.buffer] at hss
  have hgrow : a1.b.stream.length < a1.payloadPtr + b.stream.length := by
    rw [hbuf.stamped.payloadPtr, hl]
    show clHeaderSize < _
    rw [clHeaderSize]; omega
  have he : a1.errbound = defaultErrbound := hk.errbound
  obtain ⟨s, maxBits, counters, hcomp, hchunk⟩ := compact_of_simplebits hprep rfl hbuf hlt
    (he ▸ boundFits_default) hk.ctype hss hb (Or.inr hgrow)
  rw [he] at hchunk
  exact ⟨_, run_concat (i := Op.compact ranges) hrun hcomp, _, _, _, hchunk,
    hbuf.stamped.toNat_num hlt, hbuf.stamped.bytesBits_stream⟩

/-- The appended samples are read back after one `Compact`. -/
def RoundTrips (ext : Extern) (ranges : Ranges) (order : RangeOrder (U64 × I64))
    (l : List (I64 × I64)) : Prop :=
  ∃ a samples err, run (exec ext) ((appender newCLChunk).setCompressType .simplebits)
      (appends l ++ [.compact ranges]) = .ok (a, []) ∧
    decodeChunk ext order a.b.stream = .ok (samples, err) ∧
    samples.map (fun s => (s.t, s.quantizer)) = l

section roundTrips

variable {ext : Extern} {ranges : Ranges} {order : RangeOrder (U64 × I64)} {l : List (I64 × I64)}
  (hlen : l.length ≤ 65535)
include hlen

theorem roundTrips_of_wide (hr : ∀ c ∈ codesOf l, Readable c) (hw : ∃ c ∈ codesOf l, 2 ≤ c.toNat) :
    RoundTrips ext ranges order l := by
  obtain ⟨he, hcov⟩ := encodable_planned hw
  obtain ⟨b, hb, hpos, hdec⟩ := packed_of_covers he hcov fun c hc => lt_two_pow_maxBits hc
  obtain ⟨a, hrun, hchunk⟩ := compact_first ext l ranges hlen hb hpos
  obtain ⟨samples, h1, h2⟩ := (hdec hchunk).quantizers hr ext order
  exact ⟨a, samples, none, hrun, h1, h2⟩

theorem roundTrips_iff_of_bits (hne : l ≠ []) (hb : ∀ c ∈ codesOf l, c.toNat < 2) :
    RoundTrips ext ranges order l ↔ HeaderFits (codesOf l) := by
  have hcne : codesOf l ≠ [] := fun h0 => hne (by simpa using congrArg length h0)
  obtain ⟨b, hpack, hpos, hdec⟩ := decodeChunk_iff_headerFits hlen hne hb
  rw [← planned_eq_one hcne hb] at hpack
  obtain ⟨a, hrun, hchunk⟩ := compact_first ext l ranges hlen hpack hpos
  rw [← hdec hchunk ext order, RoundTrips]
  constructor
  · rintro ⟨a', samples, err, hrun', hdec⟩
    cases hrun'.symm.trans hrun
    exact ⟨samples, err, hdec⟩
  · rintro ⟨samples, err, hdec⟩
    exact ⟨a, samples, err, hrun, hdec⟩

/-- **Simplebits chunk round trip**: it holds exactly when the header can hold the size of the only
group, or do without. -/
theorem roundTrips_iff_headerFits (hne : l ≠ []) (hsmall : Small (codesOf l)) :
    RoundTrips ext ranges order l ↔ HeaderFits (codesOf l) := by
  by_cases hw : ∃ c ∈ codesOf l, 2 ≤ c.toNat
  · exact iff_of_true (roundTrips_of_wide hlen hsmall.readable hw) (Or.inl hw)
  · refine roundTrips_iff_of_bits hlen hne fun c hc => ?_
    by_contra h2
    exact hw ⟨c, hc, by omega⟩

end roundTrips

theorem roundTrips_two : HeaderFits (codesOf [(5, 7), (9, 4)]) ∧
    RoundTrips default default default [(5, 7), (9, 4)] := by
  have hfits : HeaderFits (codesOf [(5, 7), (9, 4)]) := .inl ⟨14, by decide, by decide⟩
  exact ⟨hfits, (roundTrips_iff_headerFits (by simp) (by simp) (by decide)).2 hfits⟩

/-- One value too many for the header: 33 samples of one value are not read back. -/
theorem not_roundTrips_replicate :
    (replicate 33 ((0, 0) : I64 × I64)).length ≤ 65535 ∧
    Small (codesOf (replicate 33 (0, 0))) ∧
    ¬ RoundTrips default default default (replicate 33 (0, 0)) := by
  have hzero : ∀ c ∈ codesOf (replicate 33 (0, 0)), c = 0 := fun c hc =>
    eq_of_mem_replicate (show c ∈ replicate 33 0 from hc)
  refine ⟨by simp, by decide, ?_⟩
  rw [roundTrips_iff_of_bits (by simp) (by simp) fun c hc => by rw [hzero c hc]; decide]
  rintro (⟨c, hc, h2⟩ | ⟨-, h⟩)
  · rw [hzero c hc] at h2
    simp at h2
  · exact absurd (h 32 (by decide)) (by decide)

end TopcDB.Chunkenc.SimplebitsChunk
