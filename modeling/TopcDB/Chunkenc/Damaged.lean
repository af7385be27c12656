import TopcDB.Chunkenc.SimplebitsChunk
import TopcDB.Chunkenc.Unencodable

/-! # Damaged chunks

The end of a chunk's payload is cut off, while the header and the timestamps are intact. `Next`
returns `ValNone` when the decoder has no more values, without setting the error: an iterator over
the rest ends early with a nil error, or panics (`notShortened_iff`). -/

namespace TopcDB.Chunkenc.Damaged

open List Lib.Bits Lib.Assoc Lib.Machine Go.Basic Bstream Timestamps Simple8b Simple8bStream
open HuffmanTree Huffman Simplebits CLMeta CLChunk CLIterate CLAppend HeadChunk HuffmanChunk
open SimplebitsChunk Unencodable

/-- All samples come back, or the iterator ends with an error. -/
def NotShortened (ext : Extern) (order : RangeOrder (U64 × I64)) (s : List Byte) : Prop :=
  ∃ samples err, decodeChunk ext order s = .ok (samples, err) ∧
    (samples.length = numSamples s ∨ err ≠ none)

/-- The chunk `s'` is `s` without a non-empty end of its payload. -/
def Cut (s s' : List Byte) : Prop :=
  ∃ h m, readCLMeta s = .ok h ∧ h.ptr.toNat ≤ m ∧ m < s.length ∧ s' = s.take m

section Cut

variable {s s' : List Byte} {num : U16} {errbound : ℚ} {ctype : CompressType}
  {stamps payload : List Byte} (h : IsChunk s num errbound ctype stamps payload)
include h

variable {k c : ℕ}

theorem isChunk_take : IsChunk (s.take (12 + stamps.length + k)) num errbound ctype stamps
    (payload.take k) := by
  obtain ⟨pad, hp, hs⟩ := h.header
  refine ⟨⟨pad, hp, ?_⟩, h.ptr_lt, h.errbound_lt⟩
  have hlen : (metaBytes num (BitVec.ofNat 32 (12 + stamps.length)) errbound ctype ++ pad ++
      stamps).length = 12 + stamps.length := by
    rw [length_append, length_append, length_metaBytes, hp]
  rw [hs, take_append, hlen, Nat.add_sub_cancel_left, take_of_length_le (by omega)]

theorem isChunk_of_cut (hcut : Cut s s') :
    ∃ k < payload.length, IsChunk s' num errbound ctype stamps (payload.take k) := by
  obtain ⟨m, n, hm, hle, hlt, rfl⟩ := hcut
  cases h.readCLMeta.symm.trans hm
  rw [h.toNat_ptr] at hle
  rw [(hasBody_of_isChunk h).length] at hlt
  refine ⟨n - (12 + stamps.length), by omega, ?_⟩
  rw [← show 12 + stamps.length + (n - (12 + stamps.length)) = n by omega]
  rw [Nat.add_sub_cancel_left]
  exact isChunk_take h

theorem exists_cut (hne : payload ≠ []) :
    ∃ s', Cut s s' ∧ IsChunk s' num errbound ctype stamps [] := by
  have hpos := length_pos_iff.2 hne
  refine ⟨s.take (12 + stamps.length + 0), ⟨_, _, h.readCLMeta, ?_, ?_, rfl⟩, isChunk_take h⟩
  · rw [h.toNat_ptr]; omega
  · rw [(hasBody_of_isChunk h).length]; omega

end Cut

/-! ### The end of an iterator over intact timestamps -/

theorem err_drain : ∀ {k : ℕ} {ts : List I64} {it it' : CLIterator} {pad : List Bool}
    {samples : List Sample}, it.err = none → it.numRead + ts.length = it.numTotal → Wf it.tr →
    rest it.tr = (clock it).bitsOf ts ++ pad → (∀ c data, it.decoder ≠ .floats c data) →
    drain k it = .ok (samples, it') → it'.err = none
  | 0, _, _, _, _, _, _, _, _, _, _, hd => by simp [drain] at hd
  | k + 1, [], it, it', _, samples, he, hn, _, _, _, hd => by
    rw [drain_at_end (by simpa using hn)] at hd
    cases hd
    exact he
  | k + 1, t :: ts, it, it', pad, samples, he, hn, hw, hr, hf, hd => by
    rw [length_cons] at hn
    rw [Clock.bitsOf, append_assoc] at hr
    obtain ⟨tr, hw', hr', hnext⟩ := next_eq it he (by omega) hw hr hf
    rw [drain, hnext] at hd
    rcases hdelta : it.decoder.nextDelta with fault | ⟨_ | c, d⟩
    · simp [hdelta] at hd
    · -- the decoder has ended
      obtain ⟨-, rfl⟩ : [] = samples ∧ { stampedAt it tr t with decoder := d } = it' := by
        simpa [hdelta] using hd
      exact he
    · simp only [hdelta] at hd
      obtain ⟨⟨samples1, it1⟩, h1, heq⟩ := map_eq_ok hd
      cases heq
      refine err_drain ?_ ?_ hw' hr' (ne_floats_of_nextDelta hdelta) h1
      · exact he
      · show it.numRead + 1 + ts.length = it.numTotal
        omega

section NotShortened

variable {s : List Byte} {num : U16} {errbound : ℚ} {ctype : CompressType}
  {stamps payload : List Byte} (h : IsChunk s num errbound ctype stamps payload) {ts : List I64}
  {pad : List Bool} (hnum : num.toNat = ts.length)
  (hts : bytesBits stamps = Clock.zero.bitsOf ts ++ pad)
include h hnum hts

variable {order : RangeOrder (U64 × I64)}

theorem not_notShortened {ext : Extern} {d : Decoder}
    (hopen : Opens ext order s d) (hf : ∀ c data, d ≠ .floats c data)
    (hshort : ∀ cs, Yields d cs → cs.length < num.toNat) : ¬ NotShortened ext order s := by
  rintro ⟨samples, err, hdec, hor⟩
  obtain ⟨cs, hy, hsum⟩ := h.yields_of_decodeChunk hopen hf hdec
  have hlen : samples.length = cs.length := by
    rw [← length_map (f := Sample.quantizer), hsum, length_sums]
  rcases hor with hall | herr
  · have := hshort cs hy
    rw [h.numSamples] at hall
    omega
  · rw [h.decodeChunk_eq hopen] at hdec
    obtain ⟨p, hd, heq⟩ := map_eq_ok hdec
    cases heq
    have hrest : rest (atStart num errbound stamps d).tr = Clock.zero.bitsOf ts ++ pad := by
      rw [atStart, rest_newBReader, hts]
    exact herr (err_drain rfl (by simpa [atStart] using hnum.symm) (wf_newBReader _) hrest hf hd)

omit hts in
theorem notShortened_of_nil (h0 : ts = []) {ext : Extern}
    {d : Decoder} (hopen : Opens ext order s d) : NotShortened ext order s := by
  subst h0
  have hdec : CLChunk.decodeChunk ext order s =
      .ok (samplesOf (storedErrbound errbound) 0 0 (([] : List I64).zip []), none) :=
    h.decodeChunk hnum rfl rfl hopen trivial
  refine ⟨_, _, hdec, Or.inl ?_⟩
  rw [h.numSamples, hnum]
  rfl

end NotShortened

/-! ### QSimple8b: whole words are read -/

theorem length_le_of_decodes : ∀ {cs vs : List U64} {d : Simple8bDecoder}, Decodes d vs →
    Yields (.qSimple8b d) cs → cs.length ≤ vs.length
  | [], _, _, _, _ => Nat.zero_le _
  | c :: cs, [], d, hd, ⟨d', hnext, _⟩ => by
    obtain ⟨d1, h1⟩ := next_nil hd
    simp [Decoder.nextDelta, h1] at hnext
  | c :: cs, v :: vs, d, hd, hy => by
    obtain ⟨d1, h1, h2, h3⟩ := next_cons hd
    have hdelta : (Decoder.qSimple8b d).nextDelta = .ok (some v, .qSimple8b d1) := by
      rw [Decoder.nextDelta, h1]; simp only [h2]
    exact Nat.succ_le_succ (length_le_of_decodes h3 ((yields_cons_iff hdelta c cs).1 hy).2)

variable {tail pre codes payload : List Byte}

theorem next_trailing {d : Simple8bDecoder} (ht : tail.length < 8) (hb : 8 ∣ d.bytes.length) :
    { d with bytes := d.bytes ++ tail }.next =
        (d.next.1, { d.next.2 with bytes := d.next.2.bytes ++ tail }) ∧
      8 ∣ d.next.2.bytes.length := by
  have hlt : d.bytes.length + tail.length < 8 ↔ d.bytes.length < 8 := by omega
  have hlt' : 8 ≤ d.bytes.length + tail.length ↔ 8 ≤ d.bytes.length := by omega
  unfold Simple8bDecoder.next Simple8bDecoder.readWord
  by_cases hi : d.n ≤ d.i + 1
  · by_cases hs : d.bytes.length < 8
    · simp [hi, hs, hlt, hlt', hb]
    · have hdrop : (d.bytes ++ tail).drop 8 = d.bytes.drop 8 ++ tail :=
        drop_append_of_le_length (by omega)
      have htake : (d.bytes ++ tail).take 8 = d.bytes.take 8 :=
        take_append_of_le_length (by omega)
      have hdvd : 8 ∣ d.bytes.length - 8 := by omega
      have hle : 8 ≤ d.bytes.length - 8 + tail.length ↔ 8 ≤ d.bytes.length - 8 := by omega
      simp only [hi, hs, hlt, htake, hdrop, length_append, if_true, if_false, hdvd, and_self,
        length_drop, hle]
  · simp [hi, hlt', hb]

theorem yields_trailing (ht : tail.length < 8) : ∀ {cs : List U64}
    {d : Simple8bDecoder}, 8 ∣ d.bytes.length →
    Yields (.qSimple8b { d with bytes := d.bytes ++ tail }) cs → Yields (.qSimple8b d) cs
  | [], _, _, _ => trivial
  | c :: cs, d, hb, ⟨d', hnext, hy⟩ => by
    obtain ⟨h1, h2⟩ := next_trailing ht hb
    rw [Decoder.nextDelta, h1] at hnext
    rcases hd : d.next with ⟨_ | _, d1⟩
    · simp [hd] at hnext
    · rw [hd] at hnext h2
      simp only [Except.ok.injEq, Prod.mk.injEq, Option.some.injEq] at hnext
      obtain ⟨hc, rfl⟩ := hnext
      refine ⟨.qSimple8b d1, ?_, yields_trailing ht h2 hy⟩
      rw [Decoder.nextDelta, hd, ← hc]
      rfl

theorem wordsBytes_take (ws : List U64) (j : ℕ) :
    (wordsBytes ws).take (8 * j) = wordsBytes (ws.take j) := by
  rcases Nat.lt_or_ge ws.length j with hj | hj
  · rw [take_of_length_le hj.le, take_of_length_le (by rw [length_wordsBytes]; omega)]
  · conv_lhs => rw [← take_append_drop j ws, wordsBytes_append]
    exact take_left' (by rw [length_wordsBytes, length_take]; omega)

variable {ws cs ws1 ws2 input : List U64}

/-- **A cut loses values**: every word holds one at least. -/
theorem short_qSimple8b (hk : k < (wordsBytes ws).length)
    (hy : Yields (.qSimple8b (newSimple8bDecoder ((wordsBytes ws).take k))) cs) :
    cs.length < (wordsValues ws).length := by
  rw [length_wordsBytes] at hk
  set j := k / 8
  have hsplit : (wordsBytes ws).take k =
      wordsBytes (ws.take j) ++ ((wordsBytes ws).take k).drop (8 * j) := by
    conv_lhs => rw [← take_append_drop (8 * j) ((wordsBytes ws).take k)]
    rw [take_take, Nat.min_eq_left (by omega), wordsBytes_take]
  have htail : (((wordsBytes ws).take k).drop (8 * j)).length < 8 := by
    rw [length_drop, length_take]; omega
  rw [hsplit] at hy
  have hle := length_le_of_decodes (decodes_new (ws.take j)) (yields_trailing htail
    (d := newSimple8bDecoder (wordsBytes (ws.take j)))
    (by rw [newSimple8bDecoder, length_wordsBytes]; exact Nat.dvd_mul_right _ _) hy)
  have hpos := length_le_length_wordsValues (ws.drop j)
  have hval : wordsValues ws = wordsValues (ws.take j) ++ wordsValues (ws.drop j) := by
    rw [← wordsValues_append, take_append_drop]
  rw [length_drop] at hpos
  rw [hval, length_append]
  omega

/-! ### Huffman: a code is missing, or the table -/

/-- **A cut loses values**: the bits of a code are missing. -/
theorem short_huffman : ∀ {vs cs : List U64} {hd : HuffmanDecoder} {l : List Bool}, Wf hd.br →
    (hd.root.leaves.map Prod.fst).Nodup → (∀ v ∈ vs, v ∈ hd.root.leaves.map Prod.fst) →
    rest hd.br ++ l = vs.flatMap (codeOf hd.root) → l ≠ [] → Yields (.huffman (some hd)) cs →
    cs.length < vs.length
  | [], _, _, _, _, _, _, hr, hl, _ => absurd (append_eq_nil_iff.1 hr).2 hl
  | v :: vs, [], _, _, _, _, _, _, _, _ => Nat.succ_pos _
  | v :: vs, c :: cs, hd, l, hw, hn, hm, hr, hl, hy => by
    have hcode := mem_codes hn (hm v mem_cons_self)
    have hm' : ∀ w ∈ vs, w ∈ hd.root.leaves.map Prod.fst := fun w hw =>
      hm w (mem_cons_of_mem _ hw)
    -- the code of the first value is all there, or it is cut off
    have hor : (∃ l1, codeOf hd.root v = rest hd.br ++ l1 ∧ l1 ≠ []) ∨
        ∃ l2, rest hd.br = codeOf hd.root v ++ l2 ∧ l2 ++ l = vs.flatMap (codeOf hd.root) := by
      rw [flatMap_cons] at hr
      rcases append_eq_append_iff.1 hr with ⟨l1, h1, h2⟩ | ⟨l2, h1, h2⟩
      · by_cases h0 : l1 = []
        · right
          rw [h0, append_nil] at h1
          rw [h0, nil_append] at h2
          exact ⟨[], by rw [h1, append_nil], h2⟩
        · exact .inl ⟨l1, h1, h0⟩
      · exact .inr ⟨l2, h1, h2.symm⟩
    obtain ⟨d', hnext, hy'⟩ := hy
    rcases hor with ⟨l1, h1, h0⟩ | ⟨l2, h1, h2⟩
    · obtain ⟨br', hwalk⟩ := walk_cut hd.root hcode hw h1.symm h0
      simp [Decoder.nextDelta, HuffmanDecoder.next, hwalk] at hnext
    · obtain ⟨br', hwalk, hw', hr'⟩ := walk_code hd.root hcode hw h1
      have hd' : d' = .huffman (some { hd with br := br', val := v }) := by
        simp only [Decoder.nextDelta, HuffmanDecoder.next, hwalk, Except.ok.injEq,
          Prod.mk.injEq] at hnext
        exact hnext.2.symm
      rw [hd'] at hy'
      refine Nat.succ_lt_succ (short_huffman ?_ ?_ ?_ ?_ hl hy')
      · exact hw'
      · exact hn
      · exact hm'
      · rw [hr', h2]

theorem deserialize_cut (h1 : ws1.length < 2 ^ 29) (h2 : ws2.length < 2 ^ 29)
    (hk : k < (tableBytes ws1 ws2).length) :
    deserializeHuffmanTree (pre ++ (tableBytes ws1 ws2).take k) pre.length = .error .panic := by
  have hlen : (pre ++ (tableBytes ws1 ws2).take k).length = pre.length + k := by
    rw [length_append, length_take]; omega
  have htab : (tableBytes ws1 ws2).length = 8 + 8 * ws1.length + 8 * ws2.length := by
    simp [tableBytes]; omega
  unfold deserializeHuffmanTree readHuffmanMeta
  by_cases h8 : k < 8
  · rw [slice, if_neg (by omega)]
    rfl
  · have hmeta : slice (pre ++ (tableBytes ws1 ws2).take k) pre.length (pre.length + 8) =
        .ok (beBytes 4 (8 * ws1.length) ++ beBytes 4 (8 * ws2.length)) := by
      rw [slice, if_pos ⟨by omega, by omega⟩, take_append, Nat.add_sub_cancel_left,
        take_take, Nat.min_eq_left (by omega), take_of_length_le (by omega),
        drop_left' rfl, tableBytes, length_wordsBytes, length_wordsBytes, append_assoc,
        append_assoc, ← append_assoc, take_left' (by simp)]
    rw [hmeta]
    simp only [Except.map, bind, Except.bind, take_left' (length_beBytes _ _),
      drop_left' (length_beBytes _ _), beNat_beBytes_four (n := 8 * ws1.length) (by omega),
      beNat_beBytes_four (n := 8 * ws2.length) (by omega)]
    by_cases hk1 : k < 8 + 8 * ws1.length
    · rw [slice, if_neg (by omega)]
    · rw [slice, if_pos ⟨by omega, by omega⟩, slice, if_neg (by omega)]

theorem exists_missing {t : TreeNode} (hp : IsPayload input ws1 ws2 codes t c)
    (hk : k < codes.length) :
    ∃ l, bytesBits (codes.take k) ++ l = input.flatMap (codeOf t) ∧ l ≠ [] := by
  have hbits := hp.bits
  have hc := hp.count_lt
  have hlen : 8 * codes.length = (input.flatMap (codeOf t)).length + c := by
    rw [← length_bytesBits, hbits, length_append, length_replicate]
  have htake : bytesBits (codes.take k) = (input.flatMap (codeOf t)).take (8 * k) := by
    have hk8 : (bytesBits (codes.take k)).length = 8 * k := by
      rw [length_bytesBits, length_take]; omega
    rw [← take_append_drop k codes, bytesBits_append] at hbits
    have hle : 8 * k ≤ (input.flatMap (codeOf t)).length := by omega
    calc bytesBits (codes.take k)
        = (input.flatMap (codeOf t) ++ replicate c false).take (8 * k) := by
          rw [← hbits, take_left' hk8]
      _ = (input.flatMap (codeOf t)).take (8 * k) := take_append_of_le_length hle
  refine ⟨(input.flatMap (codeOf t)).drop (8 * k), by rw [htake, take_append_drop], ?_⟩
  intro h0
  have := drop_eq_nil_iff.1 h0
  omega

/-! ### Simplebits -/

theorem newSimplebitsDecoder_nil : newSimplebitsDecoder [] = none := by
  have hr := readBits_nil (r := newBReader []) (by rw [rest_newBReader]; rfl) maxSegmentsNumBitWidth
  rw [newSimplebitsDecoder, readSelectorMeta, hr]

theorem exists_packingAll (l : List (I64 × I64)) :
    ∃ b, packingAll (codesOf l) (planned (codesOf l)) = .ok b ∧ 0 < b.stream.length := by
  obtain ⟨b, gs, hb, hholds, -⟩ := packingAll_planned (codesOf l)
  refine ⟨b, hb, ?_⟩
  have hlen := hholds.length
  rw [metaBits, length_append, length_append, length_toBits] at hlen
  omega

/-! ### The chunks that `Compact` leaves -/

/-- The stream is a chunk of the samples `l`. -/
structure Compacted (s : List Byte) (l : List (I64 × I64)) (ctype : CompressType)
    (payload : List Byte) (num : U16) (stamps : List Byte) (pad : List Bool) : Prop where
  isChunk : IsChunk s num defaultErrbound ctype stamps payload
  num : num.toNat = (l.map Prod.fst).length
  bits : bytesBits stamps = Clock.zero.bitsOf (l.map Prod.fst) ++ pad

section chunks

variable {ext : Extern} {ranges : Ranges} {l : List (I64 × I64)} (hlen : l.length ≤ 65535)
  {a : CLAppender}
include hlen

theorem chunk_qSimple8b (hrun : run (exec ext) ((appender newCLChunk).setCompressType .qSimple8b)
      (appends l ++ [.compact ranges]) = .ok (a, [])) :
    ∃ ws num stamps pad, Compacted a.b.stream l .qSimple8b (wordsBytes ws) num stamps pad ∧
      wordsValues ws = codesOf l := by
  obtain ⟨a1, hrun1, hf⟩ := fed_new.run_appends ext l
  obtain ⟨err, hcomp, herr⟩ := compact_of_run hrun1 hrun
  have hsmall : Small (codesOf l) := by
    by_contra hs
    obtain ⟨a', err', h1, -⟩ := hf.compact_error hs
    cases h1.symm.trans hcomp
    simp at herr
  have hlt : l.length < 2 ^ 16 := Nat.lt_succ_of_le hlen
  have hadm : Admissible (appends l) := by
    rw [Admissible, appended_appends]
    exact ⟨hlt, hsmall⟩
  obtain ⟨a2, hrun2, hh, he⟩ := (head_new boundFits_default).run ext hadm
  cases hrun1.symm.trans hrun2
  rw [appended_appends] at hh
  obtain ⟨a3, ws, hcomp3, -, -, hchunk, hws⟩ := hh.compact_isChunk hlt hsmall ext ranges
  cases hcomp3.symm.trans hcomp
  rw [show a1.errbound = defaultErrbound from he] at hchunk
  exact ⟨ws, _, _, _, ⟨hchunk, hh.stamped.toNat_num hlt,
    hh.stamped.bytesBits_stream⟩, hws⟩

theorem chunk_huffman (hrun : run (exec ext) ((appender newCLChunk).setCompressType .huffman)
      (appends l ++ [.compact ranges]) = .ok (a, [])) :
    l ≠ [] ∧ ∃ ws1 ws2 codes t c num stamps pad,
      Compacted a.b.stream l .huffman (tableBytes ws1 ws2 ++ codes) num stamps pad ∧
      IsPayload (codesOf l) ws1 ws2 codes t c := by
  obtain ⟨a1, hrun1, hb, hk, -⟩ := (buffered_new defaultErrbound .huffman).run_appends ext l rfl
  obtain ⟨err, hcomp, -⟩ := compact_of_run hrun1 hrun
  have ht : a1.ctype = .huffman := hk.ctype
  have he : a1.errbound = defaultErrbound := hk.errbound
  have hd := Buffered.dense_of_compact hb ht hcomp
  have hlt : l.length < 2 ^ 16 := Nat.lt_succ_of_le hlen
  have hcne : codesOf l ≠ [] := fun h0 => hd.1 (by simpa using congrArg length h0)
  obtain ⟨s, c, payload, hs, henc, hchunk, -⟩ := Buffered.compactHuffman hb hlt
    (he ▸ boundFits_default) hd.1 hd.2 fun i => ranges (i + 2)
  obtain ⟨ws1, ws2, codes, t, c', henc', hp⟩ := encode_spec hcne (by simp; omega)
    (fun i => ranges (i + 2)) ((gapsFit_iff _ _).2 hd.2) a1.payloadPtr
  obtain rfl : payload = tableBytes ws1 ws2 ++ codes := by
    have := henc.symm.trans henc'
    simp only [Option.some.injEq, BStream.mk.injEq] at this
    exact append_cancel_left this.1
  have hprep : a1.prepare ext ranges = (a1, .ok []) := by rw [CLAppender.prepare, ht]
  have hcomp' := compact_of_huffman hprep ht hs
  cases hcomp'.symm.trans hcomp
  rw [he, ht] at hchunk
  exact ⟨hd.1, ws1, ws2, codes, t, c', _, _, _, ⟨hchunk, hb.stamped.toNat_num hlt,
    hb.stamped.bytesBits_stream⟩, hp⟩

theorem chunk_simplebits (hrun : run (exec ext) ((appender newCLChunk).setCompressType .simplebits)
      (appends l ++ [.compact ranges]) = .ok (a, [])) :
    ∃ payload num stamps pad, Compacted a.b.stream l .simplebits payload num stamps pad ∧
      payload ≠ [] := by
  obtain ⟨b, hb, hpos⟩ := exists_packingAll l
  obtain ⟨a1, hrun1, num, stamps, pad, hchunk, hnum, hts⟩ := compact_first ext l ranges hlen hb hpos
  cases hrun1.symm.trans hrun
  exact ⟨b.stream, num, stamps, pad, ⟨hchunk, hnum, hts⟩, length_pos_iff.1 hpos⟩

end chunks

/-! ### Every cut -/

variable {s s' : List Byte} {l : List (I64 × I64)} {num : U16} {stamps : List Byte}
  {pad : List Bool} {ext : Extern} {order : RangeOrder (U64 × I64)}

theorem length_codesOf {ctype : CompressType} (h : Compacted s l ctype payload num stamps pad) :
    (codesOf l).length = num.toNat := by
  rw [h.num, length_deltaCodes, length_map, length_map]

theorem shortens_qSimple8b (h : Compacted s l .qSimple8b (wordsBytes ws) num stamps pad)
    (hws : wordsValues ws = codesOf l) (hcut : Cut s s') : ¬ NotShortened ext order s' := by
  obtain ⟨k, hk, hchunk⟩ := isChunk_of_cut h.isChunk hcut
  have hopen : Opens ext order s' (.qSimple8b (newSimple8bDecoder ((wordsBytes ws).take k))) :=
    ⟨_, hchunk.readCLMeta, by rw [openDecoder, hchunk.toNat_ptr, hchunk.sliceFrom]; rfl⟩
  refine not_notShortened hchunk h.num h.bits hopen (by simp) fun cs hy => ?_
  rw [← length_codesOf h, ← hws]
  exact short_qSimple8b hk hy

theorem shortens_huffman {t : TreeNode}
    (h : Compacted s l .huffman (tableBytes ws1 ws2 ++ codes) num stamps pad)
    (hp : IsPayload (codesOf l) ws1 ws2 codes t c) (hcut : Cut s s') :
    ¬ NotShortened ext order s' := by
  obtain ⟨k, hk, hchunk⟩ := isChunk_of_cut h.isChunk hcut
  obtain ⟨pre, hpre, hs'⟩ := hchunk.split
  by_cases hkt : k < (tableBytes ws1 ws2).length
  -- the table is cut off
  · rintro ⟨samples, err, hdec, -⟩
    rw [take_append_of_le_length hkt.le] at hs'
    have hopen : newHuffmanDecoder order s' (12 + stamps.length) = .error .panic := by
      rw [newHuffmanDecoder, hs', ← hpre, deserialize_cut hp.len1 hp.len2 hkt]
      rfl
    simp [CLChunk.decodeChunk, reset, hchunk.readCLMeta, openDecoder, hchunk.toNat_ptr, hopen, bind,
      Except.bind, Except.map] at hdec
  -- the codes are cut off
  · set k' := k - (tableBytes ws1 ws2).length
    rw [take_append, take_of_length_le (by omega)] at hs'
    rw [length_append] at hk
    have hdec := hp.newHuffmanDecoder order pre (codes.take k')
    rw [← hs', hpre] at hdec
    have hopen : Opens ext order s' (.huffman (some ⟨t, newBReader (codes.take k'), 0⟩)) :=
      ⟨_, hchunk.readCLMeta, by rw [openDecoder, hchunk.toNat_ptr, hdec]; rfl⟩
    obtain ⟨l', hl', hne⟩ := exists_missing hp (k := k') (by omega)
    refine not_notShortened hchunk h.num h.bits hopen (by simp) fun cs hy => ?_
    rw [← length_codesOf h]
    refine short_huffman ?_ hp.nodup hp.mem ?_ hne hy
    · exact wf_newBReader _
    · rw [rest_newBReader, hl']

/-- Without its payload a Simplebits chunk has a nil decoder. -/
theorem shortens_simplebits (h : Compacted s l .simplebits payload num stamps pad)
    (hne : payload ≠ []) (hl : l ≠ []) : ∃ s', Cut s s' ∧ ¬ NotShortened ext order s' := by
  obtain ⟨s', hcut, hchunk⟩ := exists_cut h.isChunk hne
  have hopen : Opens ext order s' (.simplebits none) := ⟨_, hchunk.readCLMeta, by
    rw [openDecoder, hchunk.toNat_ptr, hchunk.sliceFrom, ← newSimplebitsDecoder_nil]; rfl⟩
  refine ⟨s', hcut, not_notShortened hchunk h.num h.bits hopen (by simp) fun cs hy => ?_⟩
  cases cs with
  | nil =>
    rw [h.num, length_map]
    exact length_pos_iff.2 hl
  | cons c cs =>
    obtain ⟨d', hnext, -⟩ := hy
    simp [Decoder.nextDelta] at hnext

theorem notShortened_simplebits (h : Compacted s [] .simplebits payload num stamps pad)
    (hcut : Cut s s') : NotShortened ext order s' := by
  obtain ⟨k, -, hchunk⟩ := isChunk_of_cut h.isChunk hcut
  refine notShortened_of_nil hchunk h.num rfl
    (d := .simplebits (newSimplebitsDecoder (payload.take k))) ⟨_, hchunk.readCLMeta, ?_⟩
  rw [openDecoder, hchunk.toNat_ptr, hchunk.sliceFrom]; rfl

/-- **A damaged chunk is shortened silently or not read at all**: of the chunks of `Compact` those
without samples alone survive every cut, and no QSimple8b or Huffman chunk survives any. -/
theorem notShortened_iff (ext : Extern) (order : RangeOrder (U64 × I64)) (ranges : Ranges)
    {ctype : CompressType} (hc : ctype = .qSimple8b ∨ ctype = .huffman ∨ ctype = .simplebits)
    {l : List (I64 × I64)} (hlen : l.length ≤ 65535) {a : CLAppender}
    (hrun : run (exec ext) ((appender newCLChunk).setCompressType ctype)
      (appends l ++ [.compact ranges]) = .ok (a, [])) :
    ((∀ s', Cut a.b.stream s' → NotShortened ext order s') ↔ l = []) ∧
    (ctype ≠ .simplebits → ∀ s', Cut a.b.stream s' → ¬ NotShortened ext order s') := by
  rcases hc with rfl | rfl | rfl
  · obtain ⟨ws, num, stamps, pad, h, hws⟩ := chunk_qSimple8b hlen hrun
    have hall : ∀ s', Cut a.b.stream s' → ¬ NotShortened ext order s' := fun s' hcut =>
      shortens_qSimple8b h hws hcut
    refine ⟨⟨fun hno => ?_, fun hl s' hcut => ?_⟩, fun _ => hall⟩
    · by_contra hl
      have hne : wordsBytes ws ≠ [] := by
        intro h0
        have hw : ws = [] := by
          have := congrArg length h0
          rw [length_wordsBytes, length_nil] at this
          exact length_eq_zero_iff.1 (by omega)
        rw [hw] at hws
        exact hl (by simpa using congrArg length hws.symm)
      obtain ⟨s', hcut, -⟩ := exists_cut h.isChunk hne
      exact hall s' hcut (hno s' hcut)
    · -- there are no words to cut off
      obtain ⟨k, hk, -⟩ := isChunk_of_cut h.isChunk hcut
      have := length_le_length_wordsValues ws
      rw [hws, hl] at this
      rw [length_wordsBytes] at hk
      have hw : ws.length = 0 := Nat.le_zero.1 this
      omega
  · obtain ⟨hl, ws1, ws2, codes, t, c, num, stamps, pad, h, hp⟩ := chunk_huffman hlen hrun
    have hall : ∀ s', Cut a.b.stream s' → ¬ NotShortened ext order s' := fun s' hcut =>
      shortens_huffman h hp hcut
    refine ⟨⟨fun hno => ?_, fun h0 => absurd h0 hl⟩, fun _ => hall⟩
    obtain ⟨s', hcut, -⟩ := exists_cut h.isChunk (by simp [tableBytes, beBytes])
    exact absurd (hno s' hcut) (hall s' hcut)
  · obtain ⟨payload, num, stamps, pad, h, hne⟩ := chunk_simplebits hlen hrun
    refine ⟨⟨fun hno => ?_, fun hl s' hcut => ?_⟩, fun hs => absurd rfl hs⟩
    · by_contra hl
      obtain ⟨s', hcut, hnot⟩ := shortens_simplebits h hne hl
      exact hnot (hno s' hcut)
    · subst hl
      exact notShortened_simplebits h hcut

theorem notShortened_iff_one :
    ∃ a, run (exec default) ((appender newCLChunk).setCompressType .qSimple8b)
        (appends [(1000, 50)] ++ [.compact default]) = .ok (a, []) ∧
      ((∀ s', Cut a.b.stream s' → NotShortened default default s') ↔
        ([(1000, 50)] : List (I64 × I64)) = []) ∧
      (CompressType.qSimple8b ≠ .simplebits → ∀ s', Cut a.b.stream s' →
        ¬ NotShortened default default s') := by
  have hes : (run (exec default) ((appender newCLChunk).setCompressType .qSimple8b)
      (appends [(1000, 50)] ++ [.compact default])).map Prod.snd = .ok [] := by decide +kernel
  obtain ⟨⟨a, es⟩, hrun, rfl⟩ := map_eq_ok hes
  exact ⟨a, hrun, notShortened_iff default default default (Or.inl rfl) (by decide) hrun⟩

/-- The last byte of a chunk with one sample is lost: the iterator ends at once without an error. -/
theorem not_notShortened_oneSample :
    (run (exec default) ((appender newCLChunk).setCompressType .qSimple8b)
      (appends [(1000, 50)] ++ [.compact default])).map (fun p => (p.1.b.stream, p.2)) =
        .ok (storedChunk, []) ∧
    Cut storedChunk (storedChunk.take 21) ∧
    decodeChunk default default (storedChunk.take 21) = .ok ([], none) ∧
    ¬ NotShortened default default (storedChunk.take 21) := by
  have hdec : decodeChunk default default (storedChunk.take 21) =
      .ok ([], none) := by decide +kernel
  refine ⟨by decide +kernel, ⟨_, 21, rfl, by decide +kernel, by decide, rfl⟩, hdec, ?_⟩
  rintro ⟨samples, err, h, hor⟩
  cases hdec.symm.trans h
  rcases hor with hall | herr
  · exact absurd hall (by decide)
  · exact herr rfl

end TopcDB.Chunkenc.Damaged
