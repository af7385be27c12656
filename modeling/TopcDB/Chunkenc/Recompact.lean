import TopcDB.Chunkenc.AutoChunk
import TopcDB.Chunkenc.BitPackingChunk
import TopcDB.Chunkenc.HeadChunk

/-! # Appending after `Compact`

An appender goes on after `Compact`. The Huffman codec writes the whole stream anew each time. The
other codecs rebuild the stream only when it gets longer; Simplebits packs with the selectors of its
first `Compact`; an Auto appender that became a QSimple8b one has an encoder without the values so
far. `Asks` says what `Compact` needs after new samples, and every run that goes on so ends with a
chunk of all samples (`ownDecode_of_continues`). -/

namespace TopcDB.Chunkenc.Recompact

open List Lib.Bits Lib.Assoc Lib.Machine Go.Basic Bstream Timestamps Zigzag Simple8bStream Huffman
open BitSelectors Simplebits BitPacking CLMeta CLChunk CLIterate CLAppend OneBit HuffmanChunk
open SimplebitsChunk BitPackingChunk AutoChunk HeadChunk

/-! ### Decoding with the decoder of the codec -/

/-- The samples of a BitPacking chunk when the answer of the decoder is taken as it is meant. -/
def drainPacked : ℕ → CLIterator → BitPackingDecoder → List (I64 × I64)
  | 0, _, _ => []
  | k + 1, it, d =>
    match nextTimestampDOD it.numRead it.tr it.t it.tDelta with
    | (.error _, _) => []
    | (.ok (t, tDelta), tr) =>
      match d.next with
      | (false, _) => []
      | (true, d) =>
        let it := { it with tr := tr, t := t, tDelta := tDelta }.addDelta d.read.1
        (it.t, it.quantizer) :: drainPacked k it d.read.2

/-- The samples of a chunk, read with the decoder of its codec. -/
def ownDecode (ext : Extern) (order : RangeOrder (U64 × I64)) (b : List Byte) :
    Except Fault (List (I64 × I64)) := do
  let h ← readCLMeta b
  if h.ctype = some .bitPacking then
    match ← reset ext order b with
    | none => .error .panic
    | some it =>
      let s ← sliceFrom b h.ptr.toNat
      return drainPacked h.num.toNat it (newBitPackingDecoder s h.num.toNat)
  else
    let (samples, _) ← decodeChunk ext order b
    return samples.map fun s => (s.t, s.quantizer)

theorem drainPacked_of_reads : ∀ {l : List (I64 × I64)} {it : CLIterator} {d : BitPackingDecoder}
    {v : I64} {pad : List Bool}, it.quantizer = v → Wf it.tr →
    rest it.tr = (clock it).bitsOf (l.map Prod.fst) ++ pad →
    BitPacking.Reads d (deltaCodes v (l.map Prod.snd)) →
    (∀ c ∈ deltaCodes v (l.map Prod.snd), Readable c) → drainPacked l.length it d = l
  | [], _, _, _, _, _, _, _, _, _ => rfl
  | (t, q) :: l, it, d, v, pad, hv, hw, hr, hd, hread => by
    rw [map_cons, Clock.bitsOf, append_assoc] at hr
    obtain ⟨tr, h1, hw', hr'⟩ := next_append hw (clock it) hr
    obtain ⟨d1, d2, hnext, hval, hd'⟩ := hd.next
    have hq : addCode it.quantizer (zigzag (q - v)) = q := by
      rw [hv, addCode_zigzag (hread _ mem_cons_self)]; grind
    rw [length_cons, drainPacked,
      show nextTimestampDOD it.numRead it.tr it.t it.tDelta = _ from h1]
    simp only [hnext, hval]
    refine congrArg₂ List.cons (Prod.ext rfl hq) ?_
    exact drainPacked_of_reads hq hw' hr' hd' fun c hc => hread c (mem_cons_of_mem _ hc)

variable {s : List Byte} {num : U16} {errbound : ℚ} {ctype : CompressType}
  {stamps payload : List Byte} {l : List (I64 × I64)} {ext : Extern}
  {order : RangeOrder (U64 × I64)}

theorem ownDecode_of_decodeChunk (h : IsChunk s num errbound ctype stamps payload)
    (hc : ctype ≠ .bitPacking) {samples : List Sample} {err : Option Err}
    (hd : decodeChunk ext order s = .ok (samples, err))
    (hl : samples.map (fun s => (s.t, s.quantizer)) = l) : ownDecode ext order s = .ok l := by
  unfold ownDecode
  rw [h.readCLMeta, hd, ← hl]
  simp only [ok_bind, Option.some.injEq, if_neg hc]
  rfl

theorem ownDecode_bitPacking (h : IsChunk s num errbound .bitPacking stamps (packed l))
    (hnum : num.toNat = l.length) {pad : List Bool}
    (hts : bytesBits stamps = Clock.zero.bitsOf (l.map Prod.fst) ++ pad)
    (hr : ∀ c ∈ codesOf l, Readable c) : ownDecode ext order s = .ok l := by
  have hreads := reads_new (codesOf l)
  rw [length_deltaCodes, length_map, ← hnum] at hreads
  have hopen : openDecoder ext order
      ⟨num, BitVec.ofNat 32 (12 + stamps.length), storedErrbound errbound, some .bitPacking⟩ s =
      .ok (some (.bitPacking (newBitPackingDecoder (packed l) num.toNat))) := by
    rw [openDecoder, h.toNat_ptr, h.sliceFrom]; rfl
  have hdrain : drainPacked num.toNat
      (atStart num errbound stamps (.bitPacking (newBitPackingDecoder (packed l) num.toNat)))
      (newBitPackingDecoder (packed l) num.toNat) = l := by
    conv_lhs => rw [hnum]
    rw [hnum] at hreads
    exact drainPacked_of_reads rfl (wf_newBReader _) (by rw [atStart, rest_newBReader, hts]; rfl)
      hreads hr
  unfold ownDecode
  rw [h.readCLMeta]
  simp only [ok_bind, if_pos, reset, h.readCLMeta, hopen, h.toNat_ptr, h.slice, h.sliceFrom,
    pure, Except.pure]
  exact congrArg Except.ok hdrain

/-! ### What a call asks for -/

variable (a : CLAppender)

/-- The selectors that `Compact` packs with: those of the first time. -/
def selectors : List BitSelector :=
  a.withCounters.withSelectors.bitSelectors.getD []

/-- The size of the payload of all samples. -/
def payloadSize : ℕ :=
  match a.ctype with
  | .simplebits => (packingAll a.intDeltaBuffer (selectors a)).toOption.elim 0 (·.stream.length)
  | _ => (bitPackingAll a.intDeltaBuffer).stream.length

/-- All samples take more bytes than the stream has. -/
def Longer : Prop := a.b.stream.length < a.payloadPtr + payloadSize a

/-- The header can hold the selectors that are planned for the codes now, and old ones pack each
code alone. -/
def Suits (cs : List U64) : Option (List BitSelector) → Prop
  | none => HeaderFits cs
  | some ss => Encodable ss ∧ ∃ m, Covers ss m ∧ ∀ c ∈ cs, c.toNat < 2 ^ m

/-- What `Compact` asks for after new samples. -/
def Asks : Prop :=
  match a.ctype with
  | .huffman => a.intDeltaBuffer ≠ []
  | .bitPacking => a.intDeltaBuffer = [] ∨ Longer a
  | .simplebits => Longer a ∧ (a.intDeltaBuffer = [] ∨ Suits a.intDeltaBuffer a.bitSelectors)
  | _ => True

variable (ext : Extern) in
/-- The calls get what they ask for; `again` says that there is no new sample since a `Compact`. A
QSimple8b appender was an Auto one. -/
def Continues : Bool → CLAppender → List Op → Prop
  | _, _, [] => True
  | _, a, .append t q :: ops =>
    a.ctype ≠ .qSimple8b ∧ ∀ a', a.appendQuantizer t q = .ok a' → Continues false a' ops
  | again, a, .compact ranges :: ops =>
    (again = true ∨ Asks a) ∧
      ∀ a' err, a.compact ext ranges = .ok (a', err) → Continues true a' ops

/-- `Compact` rebuilds the stream with this payload, or the stream has the body already. -/
def Rebuilds (payload : List Byte) : Prop :=
  HasBody a.b.stream a.timestamps.b.stream payload ∨
    a.b.stream.length < a.payloadPtr + payload.length

/-- The decoder gets along with what the header holds of the selectors. -/
def ReadBack (ss : List BitSelector) (cs : List U64) : Prop :=
  cs = [] ∨ Encodable ss ∨ ss = [oneSelector cs.length] ∧ HeaderFits cs

/-- `Compact` will leave all samples in the stream. -/
def Gets : Prop :=
  match a.ctype with
  | .huffman => a.intDeltaBuffer ≠ []
  | .bitPacking => Rebuilds a (bitPackingAll a.intDeltaBuffer).stream
  | .simplebits => ∃ b, packingAll a.intDeltaBuffer (selectors a) = .ok b ∧
      ReadBack (selectors a) a.intDeltaBuffer ∧ Rebuilds a b.stream
  | _ => True

/-- An appender that has got the samples `l`, from one of the four codecs. -/
inductive Ready (l : List (I64 × I64)) (a : CLAppender) : Prop
  | plain (h : Buffered a 0 l) (he : BoundFits a.errbound)
      (hc : a.ctype = .huffman ∨ a.ctype = .bitPacking)
      (hnil : l = [] → HasBody a.b.stream a.timestamps.b.stream [])
  | simplebits (h : Buffered a 0 l) (he : BoundFits a.errbound) (hc : a.ctype = .simplebits)
      (hsel : a.bitSelectors = none → a.bitCounters = none)
  | auto (h : Buffered a 0 l) (he : BoundFits a.errbound) (hc : a.ctype = .auto)
      (hcnt : a.bitCounters = none) (hlen : a.b.stream.length = 12)
      (henc : a.encoder = newSimple8bEncoder)
  | settled (h : Settled a l) (hc : a.ctype = .qSimple8b) (henc : a.encoder = newSimple8bEncoder)

/-- What the four codecs leave in the stream. -/
def Written (ext : Extern) (l : List (I64 × I64)) (s : List Byte) : Prop :=
  numSamples s = l.length ∧ ∀ order, ownDecode ext order s = .ok l

variable {l : List (I64 × I64)} {a : CLAppender}

theorem numSamples_of_stamped (h : Stamped a 0 (l.map Prod.fst)) (hl : l.length < 2 ^ 16) :
    numSamples a.b.stream = l.length := by
  rw [h.counter, Nat.zero_add, length_map, Nat.mod_eq_of_lt hl]

theorem written_of_decodesTo {num : U16} {errbound e : ℚ} {ctype : CompressType}
    {stamps payload : List Byte} (h : Stamped a 0 (l.map Prod.fst)) (hl : l.length < 2 ^ 16)
    (hc : IsChunk a.b.stream num errbound ctype stamps payload) (hne : ctype ≠ .bitPacking)
    (hd : DecodesTo a.b.stream e l) (hr : ∀ c ∈ codesOf l, Readable c) (ext : Extern) :
    Written ext l a.b.stream := by
  refine ⟨numSamples_of_stamped h hl, fun order => ?_⟩
  obtain ⟨samples, h1, h2⟩ := hd.quantizers hr ext order
  exact ownDecode_of_decodeChunk hc hne h1 h2

/-! ### One call -/

theorem getD_withSelectors (a : CLAppender) :
    a.withCounters.withSelectors.bitSelectors = some (selectors a) := by
  unfold selectors CLAppender.withSelectors
  cases hs : a.withCounters.bitSelectors <;> simp [hs]

theorem selectors_of_some {ss : List BitSelector} (hs : a.bitSelectors = some ss) :
    selectors a = ss := by
  unfold selectors CLAppender.withSelectors CLAppender.withCounters
  cases a.bitCounters <;> simp [hs]

theorem exists_packed (hsel : a.bitSelectors = none → a.bitCounters = none)
    (h : a.intDeltaBuffer = [] ∨ Suits a.intDeltaBuffer a.bitSelectors) :
    ∃ b, packingAll a.intDeltaBuffer (selectors a) = .ok b ∧
      ReadBack (selectors a) a.intDeltaBuffer := by
  rcases h with h | h
  · rw [h]
    exact ⟨_, rfl, .inl rfl⟩
  cases hs : a.bitSelectors with
  | some ss =>
    rw [hs] at h
    obtain ⟨he, m, hcov, hm⟩ := h
    obtain ⟨b, -, hb, -⟩ := packingAll_spec he hcov hm
    rw [selectors_of_some hs]
    exact ⟨b, hb, .inr (.inl he)⟩
  | none =>
    rw [hs] at h
    obtain ⟨b, -, hb, -⟩ := packingAll_planned a.intDeltaBuffer
    rw [selectors, selectors_of_none (hsel hs) hs]
    refine ⟨b, hb, ?_⟩
    by_cases hne : a.intDeltaBuffer = []
    · exact .inl hne
    by_cases hw : ∃ c ∈ a.intDeltaBuffer, 2 ≤ c.toNat
    · exact .inr (.inl (encodable_planned hw).1)
    · refine .inr (.inr ⟨planned_eq_one hne fun c hc => ?_, h⟩)
      by_contra h2
      exact hw ⟨c, hc, by omega⟩

theorem nil_of_codesOf (h : codesOf l = []) : l = [] := by simpa using congrArg length h

theorem Ready.gets (h : Ready l a) (ha : Asks a) : Gets a := by
  unfold Asks at ha
  unfold Gets
  cases h with
  | plain hb _ hc hnil =>
    rcases hc with hc | hc <;> simp only [hc] at ha ⊢
    · exact ha
    · rw [Longer, payloadSize, hc] at ha
      refine ha.imp_left fun h0 => ?_
      rw [h0]
      exact hnil (nil_of_codesOf (hb.buffer.symm.trans h0))
  | simplebits _ _ hc hsel =>
    simp only [hc] at ha ⊢
    obtain ⟨b, hb, hread⟩ := exists_packed hsel ha.2
    have hlong := ha.1
    rw [Longer, payloadSize, hc] at hlong
    simp only [hb] at hlong
    exact ⟨b, hb, hread, .inr hlong⟩
  | auto _ _ hc => simp only [hc]
  | settled _ hc => simp only [hc]

theorem Ready.append (h : Ready l a) (hne : a.ctype ≠ .qSimple8b) (t q : I64) :
    ∃ a', a.appendQuantizer t q = .ok a' ∧ Ready (l ++ [(t, q)]) a' := by
  cases h with
  | plain h he hc _ =>
    obtain ⟨a', h1, hb, hk, -⟩ := h.append (by rcases hc with hc | hc <;> rw [hc] <;> rfl) t q
    exact ⟨a', h1, .plain hb (hk.errbound ▸ he) (hk.ctype ▸ hc) (by simp)⟩
  | simplebits h he hc hsel =>
    obtain ⟨a', h1, hb, hk, -⟩ := h.append (by rw [hc]; rfl) t q
    exact ⟨a', h1, .simplebits hb (hk.errbound ▸ he) (hk.ctype.trans hc)
      (by rw [hk.bitSelectors, hk.bitCounters]; exact hsel)⟩
  | auto h he hc hcnt hlen henc =>
    have hbuf : buffers a.ctype := by rw [hc]; rfl
    obtain ⟨a', h1, hb, hk, hl, -⟩ := h.append hbuf t q
    exact ⟨a', h1, .auto hb (hk.errbound ▸ he) (hk.ctype.trans hc) (hk.bitCounters.trans hcnt)
      (hl.trans hlen) (((keeps_appendQuantizer h1).2 hbuf).trans henc)⟩
  | settled _ hc _ => exact absurd hc hne

/-- `a'` is ready after a `Compact`, and would be after another. -/
structure Compacted (ext : Extern) (l : List (I64 × I64)) (a' : CLAppender) : Prop where
  ready : Ready l a'
  gets : Gets a'
  written : Written ext l a'.b.stream

section compact

variable {a : CLAppender} {l : List (I64 × I64)} (hl : l.length < 2 ^ 16)
  (hr : ∀ c ∈ codesOf l, Readable c) (ext : Extern) (ranges : Ranges)
include hl hr

theorem compact_huffman (h : Buffered a 0 l) (he : BoundFits a.errbound) (hc : a.ctype = .huffman)
    (hne : codesOf l ≠ []) (hd : Dense (codesOf l)) :
    ∃ a', a.compact ext ranges = .ok (a', none) ∧ Compacted ext l a' := by
  obtain ⟨a', hcomp, hb, hk, hdec, payload, hchunk⟩ :=
    Buffered.compact_huffman h hl he hc (fun h0 => hne (by rw [h0]; rfl)) hd ext ranges
  have hc' : a'.ctype = .huffman := hk.ctype.trans hc
  exact ⟨a', hcomp, .plain hb (hk.errbound ▸ he) (.inl hc') fun h0 => absurd (by rw [h0]; rfl) hne,
    by rw [Gets, hc', hb.buffer]; exact hne,
    written_of_decodesTo hb.stamped hl hchunk (by decide) hdec hr ext⟩

theorem compact_bitPacking (h : Buffered a 0 l) (he : BoundFits a.errbound)
    (hc : a.ctype = .bitPacking) (hg : Rebuilds a (packed l)) :
    ∃ a', a.compact ext ranges = .ok (a', none) ∧ Compacted ext l a' := by
  obtain ⟨a', hcomp, hb, hk, hts, hchunk⟩ := Buffered.compact_bitPacking h hl he hc hg ext ranges
  have hc' : a'.ctype = .bitPacking := hk.ctype.trans hc
  have hbody := hasBody_of_isChunk hchunk
  refine ⟨a', hcomp, .plain hb (hk.errbound ▸ he) (.inr hc') fun h0 => ?_, ?_,
    numSamples_of_stamped hb.stamped hl, fun order => ?_⟩
  · rw [hts]
    rwa [h0] at hbody
  · rw [Gets, hc', Rebuilds, hb.buffer, hts]
    exact .inl hbody
  have hnum := h.stamped.toNat_num hl
  rw [length_map] at hnum
  exact ownDecode_bitPacking hchunk hnum h.stamped.bytesBits_stream hr

omit hl hr in
theorem lt_two_of_packingAll {cs : List U64} {n : ℕ} {b : BStream}
    (h : packingAll cs [oneSelector n] = .ok b) : ∀ c ∈ cs, c.toNat < 2 := by
  have h0 := holds_writeSelectorMeta (holds_empty []) [oneSelector n]
  obtain ⟨gs, -, hgs, hok⟩ := groups_of_packingLoop (by simp [oneSelector]) (by simp [oneSelector])
    cs.length h0 h
  intro c hc
  rw [← hgs, groupsValues, mem_flatMap] at hc
  obtain ⟨g, hg, hc⟩ := hc
  have hsmall := (hok g hg).small c hc
  rw [mem_singleton.1 (hok g hg).mem] at hsmall
  exact hsmall

theorem written_of_readBack {s : List Byte} {errbound : ℚ} {ss : List BitSelector} {b : BStream}
    (hb : packingAll (codesOf l) ss = .ok b) (hss : ReadBack ss (codesOf l))
    (h : ChunkOf l errbound b.stream s) (order : RangeOrder (U64 × I64)) :
    ownDecode ext order s = .ok l := by
  obtain ⟨num, stamps, pad, hc, hnum, hts⟩ := id h
  by_cases hne : l = []
  · subst hne
    have hy : Yields (.simplebits (newSimplebitsDecoder b.stream)) [] := trivial
    have hd : decodeChunk ext order s = .ok ([], none) := hc.decodeChunk hnum rfl hts
      ⟨_, hc.readCLMeta, by rw [openDecoder, hc.toNat_ptr, hc.sliceFrom]; rfl⟩ hy
    exact ownDecode_of_decodeChunk hc (by decide) hd rfl
  rcases hss with h0 | he | ⟨rfl, hfits⟩
  · exact absurd (by simpa using congrArg List.length h0) hne
  · obtain ⟨samples, h1, h2⟩ := (decodesTo_of_packingAll he hb h).quantizers hr ext order
    exact ownDecode_of_decodeChunk hc (by decide) h1 h2
  · obtain ⟨b', hb', -, hiff⟩ := decodeChunk_iff_headerFits (by omega) hne (lt_two_of_packingAll hb)
    cases hb.symm.trans hb'
    obtain ⟨samples, err, h1, h2⟩ := (hiff h ext order).2 hfits
    exact ownDecode_of_decodeChunk hc (by decide) h1 h2

/-- `a₁` is the appender with its codec chosen. -/
theorem compact_simplebits {a₁ : CLAppender} {data : List Byte}
    (hprep : a.prepare ext ranges = (a₁, .ok data)) (hptr : a₁.payloadPtr = a.payloadPtr)
    (h : Buffered a₁ 0 l) (he : BoundFits a₁.errbound) (hc : a₁.ctype = .simplebits) {b : BStream}
    (hb : packingAll (codesOf l) (selectors a₁) = .ok b) (hss : ReadBack (selectors a₁) (codesOf l))
    (hg : Rebuilds a₁ b.stream) :
    ∃ a', a.compact ext ranges = .ok (a', none) ∧ Compacted ext l a' := by
  obtain ⟨s, maxBits, counters, hcomp, hchunk⟩ :=
    compact_of_simplebits hprep hptr h hl he hc (getD_withSelectors a₁) hb hg
  have hst : Stamped { a₁ with b := ⟨s, a₁.b.count⟩ } 0 (l.map Prod.fst) :=
    h.stamped.of_isChunk hchunk
  have hn : numSamples s = l.length := numSamples_of_stamped hst hl
  set a' : CLAppender := { a₁ with
    b := ⟨s, a₁.b.count⟩
    maxBits := maxBits
    bitCounters := counters
    bitSelectors := some (selectors a₁) }
  have hc' : a'.ctype = .simplebits := hc
  have hbuf : a'.intDeltaBuffer = codesOf l := h.buffer
  have hsel : selectors a' = selectors a₁ := selectors_of_some rfl
  refine ⟨a', hcomp, ⟨.simplebits ⟨{ hst with }, h.v, hbuf⟩ he hc' (fun h0 => nomatch h0), ?_, hn,
    written_of_readBack hl hr ext hb hss ⟨_, _, _, hchunk, h.stamped.toNat_num hl,
      h.stamped.bytesBits_stream⟩⟩⟩
  rw [Gets, hc', hbuf, hsel]
  exact ⟨b, hb, hss, .inl (hasBody_of_isChunk hchunk)⟩

omit hl hr in
/-- **`Compact` of an Auto chunk without samples** makes it a Simplebits chunk. -/
theorem compact_auto_nil (h : Buffered a 0 []) (he : BoundFits a.errbound) (hc : a.ctype = .auto)
    (hcnt : a.bitCounters = none) (hlen : a.b.stream.length = 12) :
    ∃ a', a.compact ext ranges = .ok (a', none) ∧ Compacted ext [] a' := by
  have hbuf : a.intDeltaBuffer = [] := h.buffer
  set a₁ : CLAppender := { a with
    ctype := .simplebits
    intDeltaBuffer := []
    maxBits := (bitStatistics []).2
    bitCounters := some (bitStatistics []).1
    bitSelectors := some (planned []) }
  have hprep : a.prepare ext ranges = (a₁, .ok []) := by
    have h8 : CLAppender.proportion (bitStatistics []).1 1 8 = 0 := by decide +kernel
    have hcost : ¬ CLAppender.estimateHuffmanSize ext ranges [] < (bitSelectors
        (bitStatistics []).1 maxSegmentsNum (bitStatistics []).2 0).2 :=
      show ¬ maxInt < _ by decide +kernel
    simp only [CLAppender.prepare, hc, CLAppender.withCounters, hcnt, hbuf, CLAppender.chooseCodec,
      CLAppender.plan, Option.getD_some, h8, length_nil]
    rw [if_neg (by norm_num), if_neg (by norm_num), if_neg hcost]
    rfl
  have hsel : selectors a₁ = planned [] := selectors_of_some rfl
  have hptr : a₁.payloadPtr = 12 + a₁.timestamps.b.stream.length := h.stamped.payloadPtr
  refine compact_simplebits (by decide) (fun c hc => by cases hc) ext ranges hprep rfl
    ⟨{ h.stamped with }, h.v, rfl⟩ he rfl rfl (.inl rfl) (.inr ?_)
  have hpos : 0 < (writeSelectorMeta (planned []) ⟨[], 0⟩).stream.length := by decide +kernel
  rw [hsel, hptr, show a₁.b.stream.length = 12 from hlen]
  show 12 < 12 + _ + (writeSelectorMeta (planned []) ⟨[], 0⟩).stream.length
  omega

theorem compacted_of_settled (h : Settled a l) (hne : a.ctype = .huffman → codesOf l ≠ [])
    (henc : a.encoder = newSimple8bEncoder) : Compacted ext l a := by
  obtain ⟨payload, hchunk, hby⟩ := h.chunk
  have hw : a.ctype ≠ .bitPacking → Written ext l a.b.stream := fun hne =>
    written_of_decodesTo h.buffered.stamped hl hchunk hne h.decodes hr ext
  cases hc : a.ctype <;> rw [hc] at hby hw
  case qSimple8b => exact ⟨.settled h hc henc, by simp only [Gets, hc], hw (by decide)⟩
  case huffman =>
    exact ⟨.plain h.buffered h.fits (.inl hc) fun h0 => absurd (by rw [h0]; rfl) (hne hc),
      by rw [Gets, hc, h.buffered.buffer]; exact hne hc, hw (by decide)⟩
  case simplebits =>
    obtain ⟨hsel, hwide⟩ := h.selectors hc
    obtain ⟨b, hb, rfl⟩ := hby
    refine ⟨.simplebits h.buffered h.fits hc fun h0 => ?_, ?_, hw (by decide)⟩
    · rw [hsel] at h0
      cases h0
    · rw [Gets, hc, h.buffered.buffer, selectors_of_some hsel]
      exact ⟨b, hb, .inr (.inl (encodable_planned hwide).1), .inl (hasBody_of_isChunk hchunk)⟩
  all_goals exact hby.elim

omit hl hr in
/-- Without a sample more, a QSimple8b appender that was an Auto one leaves everything as it is. -/
theorem compact_settled (h : Settled a l) (hc : a.ctype = .qSimple8b)
    (henc : a.encoder = newSimple8bEncoder) : a.compact ext ranges = .ok (a, none) := by
  obtain ⟨payload, hchunk, -⟩ := h.chunk
  have hptr := h.buffered.stamped.payloadPtr
  have hbytes : newSimple8bEncoder.getBytes = (newSimple8bEncoder, .ok []) := by decide +kernel
  have hprep : a.prepare ext ranges = (a, .ok []) := by
    simp only [CLAppender.prepare, hc, henc, hbytes]
    rw [← hc, ← henc]
  have hpay : a.payload ext [] = .ok (a, []) := by simp only [CLAppender.payload, hc]
  refine compact_of_finish hprep (by rw [hc]; decide) hpay ?_
  have hlen := (hasBody_of_isChunk hchunk).length
  rw [CLAppender.finish, if_neg (by rw [hptr, length_nil]; omega), hptr, CLAppender.writeMeta,
    hchunk.writeCLMeta]
  rfl

end compact

/-- **One `Compact`** that gets what it asks for. -/
theorem Ready.compact (h : Ready l a) (hg : Gets a) (hl : l.length < 2 ^ 16)
    (hs : Small (codesOf l)) (ext : Extern) (ranges : Ranges) :
    ∃ a', a.compact ext ranges = .ok (a', none) ∧ Compacted ext l a' := by
  have hr := hs.readable
  unfold Gets at hg
  cases h with
  | plain h he hc _ =>
    rcases hc with hc | hc <;> simp only [hc, h.buffer] at hg
    · exact compact_huffman hl hr ext ranges h he hc hg (dense_of_small hs)
    · exact compact_bitPacking hl hr ext ranges h he hc hg
  | simplebits h he hc _ =>
    simp only [hc, h.buffer] at hg
    obtain ⟨b, hb, hss, hgrow⟩ := hg
    exact compact_simplebits hl hr ext ranges (by rw [CLAppender.prepare, hc]) rfl h he hc hb
      hss hgrow
  | auto h he hc hcnt hlen henc =>
    by_cases hne : l = []
    · subst hne
      exact compact_auto_nil ext ranges h he hc hcnt hlen
    obtain ⟨a', hcomp, hset, -, hen⟩ :=
      Buffered.compact_auto h hl he hne hc hcnt hs hlen ext ranges
    exact ⟨a', hcomp, compacted_of_settled hl hr ext hset
      (fun _ h0 => hne (nil_of_codesOf h0)) (hen.trans henc)⟩
  | settled h hc henc =>
    exact ⟨a, compact_settled ext ranges h hc henc, compacted_of_settled hl hr ext h
      (fun hh => absurd (hc.symm.trans hh) (by decide)) henc⟩

/-! ### Whole runs -/

theorem ready_new {ctype : CompressType}
    (hc : ctype ∈ [.huffman, .simplebits, .bitPacking, .auto]) :
    Ready [] ((appender newCLChunk).setCompressType ctype) := by
  have hb : Buffered ((appender newCLChunk).setCompressType ctype) 0 [] :=
    buffered_new defaultErrbound ctype
  have hbody : HasBody newCLChunk.stream [] [] := ⟨newCLChunk.stream, rfl, rfl⟩
  simp only [mem_cons, not_mem_nil, or_false] at hc
  rcases hc with rfl | rfl | rfl | rfl
  · exact .plain hb boundFits_default (.inl rfl) fun _ => hbody
  · exact .simplebits hb boundFits_default rfl fun _ => rfl
  · exact .plain hb boundFits_default (.inr rfl) fun _ => hbody
  · exact .auto hb boundFits_default rfl rfl rfl rfl

theorem Ready.run (ext : Extern) {ranges : Ranges} : ∀ {ops : List Op} {l : List (I64 × I64)}
    {a : CLAppender} {again : Bool}, Ready l a → (again = true → Gets a) →
    (l ++ appended ops).length < 2 ^ 16 → Small (codesOf (l ++ appended ops)) →
    Continues ext again a (ops ++ [.compact ranges]) →
    ∃ a', Lib.Machine.run (exec ext) a (ops ++ [.compact ranges]) = .ok (a', []) ∧
      Written ext (l ++ appended ops) a'.b.stream
  | [], l, a, again, h, hagain, hl, hs, hg => by
    rw [appended, append_nil] at hl hs ⊢
    obtain ⟨a', hcomp, hc⟩ := h.compact (hg.1.elim hagain h.gets) hl hs ext ranges
    exact ⟨a', by rw [nil_append, run_cons (show exec ext a (.compact ranges) = _ from hcomp)]; rfl,
      hc.written⟩
  | .append t q :: ops, l, a, again, h, _, hl, hs, hg => by
    obtain ⟨a', happ, ha'⟩ := h.append hg.1 t q
    have hassoc : l ++ appended (.append t q :: ops) = (l ++ [(t, q)]) ++ appended ops := by
      simp [appended]
    rw [hassoc] at hl hs ⊢
    obtain ⟨a'', hrun, hw⟩ := Ready.run ext ha' Bool.noConfusion hl hs (hg.2 a' happ)
    exact ⟨a'', by rw [cons_append, run_cons (show exec ext a (.append t q) = _ by
      rw [exec, happ]; rfl), hrun]; rfl, hw⟩
  | .compact rs :: ops, l, a, again, h, hagain, hl, hs, hg => by
    rw [appended] at hl hs ⊢
    have hpre : l.length < 2 ^ 16 ∧ Small (codesOf l) := by
      rw [length_append] at hl
      rw [codesOf, map_append, deltaCodes_append] at hs
      exact ⟨by omega, hs.of_append⟩
    obtain ⟨a', hcomp, hc⟩ := h.compact (hg.1.elim hagain h.gets) hpre.1 hpre.2 ext rs
    obtain ⟨a'', hrun, hw⟩ := Ready.run ext hc.ready (fun _ => hc.gets) hl hs (hg.2 a' none hcomp)
    refine ⟨a'', ?_, hw⟩
    rw [cons_append, run_cons (show exec ext a (.compact rs) = _ from hcomp), hrun]
    rfl

/-- **Appending goes on after `Compact`**, in every run whose calls get what they ask for. -/
theorem ownDecode_of_continues (ext : Extern) {ctype : CompressType}
    (hc : ctype ∈ [.huffman, .simplebits, .bitPacking, .auto]) (ops : List Op) (ranges : Ranges)
    (hlen : (appended ops).length ≤ 65535)
    (hsmall : Small (deltaCodes 0 ((appended ops).map Prod.snd)))
    (hg : Continues ext false ((appender newCLChunk).setCompressType ctype)
      (ops ++ [.compact ranges])) :
    ∃ a, run (exec ext) ((appender newCLChunk).setCompressType ctype) (ops ++ [.compact ranges]) =
        .ok (a, []) ∧
      numSamples a.b.stream = (appended ops).length ∧
      ∀ order, ownDecode ext order a.b.stream = .ok (appended ops) :=
  (ready_new hc).run ext Bool.noConfusion (Nat.lt_succ_of_le hlen) hsmall hg

theorem ownDecode_of_continues_two :
    ∃ a, run (exec default) ((appender newCLChunk).setCompressType .bitPacking)
        ([.append 5 7, .compact default, .compact default, .append 9 4000] ++ [.compact default]) =
          .ok (a, []) ∧
      numSamples a.b.stream = 2 ∧
      ∀ order, ownDecode default order a.b.stream = .ok [(5, 7), (9, 4000)] := by
  refine ownDecode_of_continues default (by simp)
    [.append 5 7, .compact default, .compact default, .append 9 4000] default (by decide)
    (by decide) ⟨by decide, fun a h => ?_⟩
  cases h
  refine ⟨.inr (.inr (show _ < _ by decide +kernel)), fun a e h => ?_⟩
  cases h
  refine ⟨.inl rfl, fun a e h => ?_⟩
  cases h
  refine ⟨by decide, fun a h => ?_⟩
  cases h
  exact ⟨.inr (.inr (show _ < _ by decide +kernel)), fun _ _ _ => trivial⟩

/-- A fourth sample fits into the last bytes, so that the stream is not rebuilt: −1 is read as 0. -/
theorem not_ownDecode_bitPacking :
    ∃ a, run (exec default) ((appender newCLChunk).setCompressType .bitPacking)
        [.append 0 0, .append 1 0, .append 2 0, .compact default, .append 3 (-1),
        .compact default] =
          .ok (a, []) ∧
      ownDecode default default a.b.stream = .ok [(0, 0), (1, 0), (2, 0), (3, 0)] := by
  have heval : (run (exec default) ((appender newCLChunk).setCompressType .bitPacking)
      [.append 0 0, .append 1 0, .append 2 0, .compact default, .append 3 (-1),
      .compact default]).map
        (fun p => (p.2, ownDecode default default p.1.b.stream)) =
      .ok ([], .ok [(0, 0), (1, 0), (2, 0), (3, 0)]) := by decide +kernel
  obtain ⟨⟨a, es⟩, hrun, heq⟩ := map_eq_ok heval
  obtain ⟨rfl, hdec⟩ : es = [] ∧ _ := Prod.mk.inj heq
  exact ⟨a, hrun, hdec⟩

end TopcDB.Chunkenc.Recompact
