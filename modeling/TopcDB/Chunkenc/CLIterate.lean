import TopcDB.Chunkenc.CLChunk

/-! # What an iterator reads

A stream is a chunk with given timestamps and payload when it starts with the header that names
them (`IsChunk`). An iterator opened on it reads one timestamp and one coded difference after the
other: when the decoder of the payload yields the codes `cs` (`Yields`), the samples are the running
sums of the codes (`drain_of_yields`), and running sums of the codes of differences are the values
themselves (`map_samplesOf_deltaCodes`). -/

namespace TopcDB.Chunkenc.CLIterate

open List Lib.Bits Lib.Assoc Go.Basic Bstream Timestamps Zigzag Simple8b Simple8bStream Huffman
open Simplebits CLMeta CLChunk

/-! ### Codes and samples -/

/-- The codes of the differences of consecutive quantised values, from `v` on. -/
def deltaCodes : I64 → List I64 → List U64
  | _, [] => []
  | v, q :: qs => zigzag (q - v) :: deltaCodes q qs

/-- The samples of a list of timestamps and codes, after the quantiser `q` and the value `val`. -/
def samplesOf (errbound : ℚ) : I64 → ℚ → List (I64 × U64) → List Sample
  | _, _, [] => []
  | q, val, (t, c) :: l =>
    ⟨t, addCode q c, addValue errbound val c⟩ ::
      samplesOf errbound (addCode q c) (addValue errbound val c) l

/-- The sample of a quantised value: the value is the multiple of twice the error bound. -/
def sampleAt (errbound : ℚ) (p : I64 × I64) : Sample := ⟨p.1, p.2, 2 * errbound * p.2.toInt⟩

@[simp] theorem length_deltaCodes (v : I64) (qs : List I64) :
    (deltaCodes v qs).length = qs.length := by
  induction qs generalizing v with
  | nil => rfl
  | cons q qs ih => simp [deltaCodes, ih]

theorem deltaCodes_append (v : I64) (qs qs' : List I64) :
    deltaCodes v (qs ++ qs') = deltaCodes v qs ++ deltaCodes (qs.getLastD v) qs' := by
  induction qs generalizing v with
  | nil => rfl
  | cons q qs ih => simp only [cons_append, deltaCodes, ih, getLastD_cons]

/-- The codes fit a word of Simple8b. -/
def Small (cs : List U64) : Prop := ∀ c ∈ cs, c.toNat < 2 ^ 60

instance (cs : List U64) : Decidable (Small cs) :=
  List.decidableBAll (fun c : U64 => c.toNat < 2 ^ 60) cs

variable {cs cs' ws : List U64}

theorem Small.readable (h : Small cs) : ∀ c ∈ cs, Readable c := by
  intro c hc
  have := h c hc
  show c.toNat + 1 < 2 ^ 63
  omega

theorem Small.of_append (h : Small (cs ++ cs')) : Small cs := fun c hc =>
  h c (mem_append_left _ hc)

theorem length_samplesOf (e : ℚ) (q : I64) (val : ℚ) (l : List (I64 × U64)) :
    (samplesOf e q val l).length = l.length := by
  induction l generalizing q val with
  | nil => rfl
  | cons p l ih => simp [samplesOf, ih]

/-- **Running sums of readable codes** are the quantised values. -/
theorem map_samplesOf_deltaCodes (e : ℚ) : ∀ (l : List (I64 × I64)) (q : I64) (val : ℚ),
    (∀ c ∈ deltaCodes q (l.map Prod.snd), Readable c) →
    (samplesOf e q val ((l.map Prod.fst).zip (deltaCodes q (l.map Prod.snd)))).map
      (fun s => (s.t, s.quantizer)) = l
  | [], _, _, _ => rfl
  | (t, x) :: l, q, val, h => by
    have hx : addCode q (zigzag (x - q)) = x := by
      rw [addCode_zigzag (h _ mem_cons_self)]; grind
    have ih := map_samplesOf_deltaCodes e l x (addValue e val (zigzag (x - q)))
      fun c hc => h c (mem_cons_of_mem _ hc)
    simp only [map_cons, deltaCodes, zip_cons_cons, samplesOf, hx, ih]

theorem readable_of_map_samplesOf (e : ℚ) : ∀ {l : List (I64 × I64)} {q : I64} {val : ℚ},
    (samplesOf e q val ((l.map Prod.fst).zip (deltaCodes q (l.map Prod.snd)))).map
      (fun s => (s.t, s.quantizer)) = l → ∀ c ∈ deltaCodes q (l.map Prod.snd), Readable c
  | [], _, _, _ => by simp [deltaCodes]
  | (t, x) :: l, q, val, h => by
    simp only [map_cons, deltaCodes, zip_cons_cons, samplesOf, List.cons.injEq,
      Prod.mk.injEq, true_and] at h
    obtain ⟨hx, htail⟩ := h
    rw [map_cons, deltaCodes, forall_mem_cons]
    rw [hx] at htail
    have hcode : addCode q (zigzag (x - q)) = q + (x - q) := by rw [hx]; grind
    exact ⟨addCode_zigzag_iff.1 hcode, readable_of_map_samplesOf e htail⟩

/-- The running sums of codes, from `q` on. -/
def sums : I64 → List U64 → List I64
  | _, [] => []
  | q, c :: cs => addCode q c :: sums (addCode q c) cs

@[simp] theorem length_sums (q : I64) (cs : List U64) : (sums q cs).length = cs.length := by
  induction cs generalizing q with
  | nil => rfl
  | cons c cs ih => simp [sums, ih]

/-- Readable codes are determined by their sums. -/
theorem deltaCodes_sums : ∀ {cs : List U64} (q : I64), (∀ c ∈ cs, Readable c) →
    deltaCodes q (sums q cs) = cs
  | [], _, _ => rfl
  | c :: cs, q, h => by
    obtain ⟨d, rfl⟩ := exists_zigzag_eq c
    obtain ⟨hd, hcs⟩ := forall_mem_cons.1 h
    have hq : addCode q (zigzag d) - q = d := by rw [addCode_zigzag hd]; grind
    rw [sums, deltaCodes, hq, deltaCodes_sums _ hcs]

/-! ### Decoders -/

/-- The decoder yields the codes one by one. -/
def Yields : Decoder → List U64 → Prop
  | _, [] => True
  | d, c :: cs => ∃ d', d.nextDelta = .ok (some c, d') ∧ Yields d' cs

variable {d d' : Decoder}

theorem yields_cons_iff {x : U64} (h : d.nextDelta = .ok (some x, d')) (c : U64) (cs : List U64) :
    Yields d (c :: cs) ↔ c = x ∧ Yields d' cs := by
  rw [Yields, h]
  constructor
  · rintro ⟨d1, h1, hy⟩
    cases h1
    exact ⟨rfl, hy⟩
  · rintro ⟨rfl, hy⟩
    exact ⟨d', rfl, hy⟩

theorem yields_qSimple8b : ∀ {cs : List U64} {d : Simple8bDecoder}, Decodes d cs →
    Yields (.qSimple8b d) cs
  | [], _, _ => trivial
  | c :: cs, d, h => by
    obtain ⟨d', h1, h2, h3⟩ := next_cons h
    exact ⟨.qSimple8b d', by rw [Decoder.nextDelta, h1]; simp only [h2], yields_qSimple8b h3⟩

theorem yields_huffman : ∀ {cs : List U64} {d : HuffmanDecoder}, Huffman.Reads d cs →
    Yields (.huffman (some d)) cs
  | [], _, _ => trivial
  | c :: cs, d, h => by
    obtain ⟨d', h1, h2⟩ := h.next
    exact ⟨.huffman (some d'), by rw [Decoder.nextDelta, h1], yields_huffman h2⟩

theorem yields_simplebits : ∀ {cs : List U64} {d : SimplebitsDecoder}, Simplebits.Reads d cs →
    Yields (.simplebits (some d)) cs
  | [], _, _ => trivial
  | c :: cs, d, h => by
    obtain ⟨d1, d2, h1, h2, h3⟩ := h.next
    exact ⟨.simplebits (some d2), by rw [Decoder.nextDelta, h1]; simp only [h2],
      yields_simplebits h3⟩

/-! ### Iterating -/

def clock (it : CLIterator) : Clock := ⟨it.numRead, it.t, it.tDelta⟩

/-- The iterator once a timestamp is read. -/
def stampedAt (it : CLIterator) (tr : BReader) (t : I64) : CLIterator :=
  { it with tr := tr, t := t, tDelta := ((clock it).tick t).tDelta }

variable {it it' : CLIterator}

theorem next_of_ne_floats (hf : ∀ c data, it.decoder ≠ .floats c data) :
    it.next =
      if it.err.isSome ∨ it.numRead = it.numTotal then .ok (false, it)
      else
        match nextTimestampDOD it.numRead it.tr it.t it.tDelta with
        | (.error err, tr) => .ok (false, { it with tr := tr, err := some err })
        | (.ok (t, tDelta), tr) =>
          match it.decoder.nextDelta with
          | .error fault => .error fault
          | .ok (none, d) =>
            .ok (false, { it with tr := tr, t := t, tDelta := tDelta, decoder := d })
          | .ok (some c, d) =>
            .ok (true,
              { it with tr := tr, t := t, tDelta := tDelta, decoder := d }.addDelta c) := by
  obtain ⟨tr, d⟩ := it
  cases d with
  | floats c data => exact absurd rfl (hf c data)
  | _ => rfl

variable {l pad : List Bool}

/-- One call of `Next`, when a timestamp is there: the decoder decides. -/
theorem next_eq (it : CLIterator) {t : I64} (he : it.err = none) (hn : it.numRead < it.numTotal)
    (hw : Wf it.tr) (hr : rest it.tr = (clock it).bits t ++ l)
    (hf : ∀ c data, it.decoder ≠ .floats c data) :
    ∃ tr, Wf tr ∧ rest tr = l ∧ it.next =
      match it.decoder.nextDelta with
      | .error fault => .error fault
      | .ok (none, d) => .ok (false, { stampedAt it tr t with decoder := d })
      | .ok (some c, d) => .ok (true, { stampedAt it tr t with decoder := d }.addDelta c) := by
  obtain ⟨tr, h1, h2, h3⟩ := next_append hw (clock it) hr
  refine ⟨tr, h2, h3, ?_⟩
  rw [next_of_ne_floats hf, if_neg (by simp [he]; omega),
    show nextTimestampDOD it.numRead it.tr it.t it.tDelta = _ from h1]
  rfl

theorem ne_floats_of_yields {c : U64} (h : Yields d (c :: cs)) : ∀ c data, d ≠ .floats c data := by
  rintro c data rfl
  obtain ⟨d', hd, -⟩ := h
  simp [Decoder.nextDelta] at hd

/-- One call of `Next`, when a timestamp and a code are there. -/
theorem next_of_yields {t : I64} {c : U64} (he : it.err = none) (hn : it.numRead < it.numTotal)
    (hw : Wf it.tr) (hr : rest it.tr = (clock it).bits t ++ l) (hy : Yields it.decoder (c :: cs)) :
    ∃ tr d, Wf tr ∧ rest tr = l ∧ Yields d cs ∧
      it.next = .ok (true, { stampedAt it tr t with decoder := d }.addDelta c) := by
  obtain ⟨tr, hw', hr', hnext⟩ := next_eq it he hn hw hr (ne_floats_of_yields hy)
  obtain ⟨d, hd, hy'⟩ := hy
  exact ⟨tr, d, hw', hr', hy', by rw [hnext, hd]⟩

theorem next_at_end (hn : it.numRead = it.numTotal) : it.next = .ok (false, it) := by
  rw [CLIterator.next, if_pos (Or.inr hn)]

theorem drain_at_end (hn : it.numRead = it.numTotal) (k : ℕ) : drain (k + 1) it = .ok ([], it) := by
  rw [drain, next_at_end hn]

/-- **The first turns of a loop** over an iterator, as long as there are timestamps and codes. -/
theorem drain_of_yields : ∀ (ts : List I64) (cs : List U64) (it : CLIterator) {k : ℕ}
    {pad : List Bool}, ts.length = cs.length → it.err = none →
    it.numRead + ts.length ≤ it.numTotal → Wf it.tr → rest it.tr = (clock it).bitsOf ts ++ pad →
    Yields it.decoder cs → ts.length < k →
    ∃ it', drain k it = (drain (k - ts.length) it').map
        (fun p => (samplesOf it.errbound it.quantizer it.val (ts.zip cs) ++ p.1, p.2)) ∧
      it'.err = none ∧ it'.numTotal = it.numTotal ∧ it'.numRead = it.numRead + ts.length
  | [], [], it, k, pad, _, he, hn, _, _, _, _ => by
    refine ⟨it, ?_, he, rfl, rfl⟩
    rw [length_nil, Nat.sub_zero]
    cases drain k it <;> rfl
  | [], _ :: _, _, _, _, hl, _, _, _, _, _, _ => by simp at hl
  | _ :: _, [], _, _, _, hl, _, _, _, _, _, _ => by simp at hl
  | _ :: _, _ :: _, _, 0, _, _, _, _, _, _, _, hk => by simp at hk
  | t :: ts, c :: cs, it, k + 1, pad, hl, he, hn, hw, hr, hy, hk => by
    rw [length_cons] at hn hk
    rw [Clock.bitsOf, append_assoc] at hr
    obtain ⟨tr, d, hw', hr', hy', hnext⟩ := next_of_yields he (by omega) hw hr hy
    have hn' : it.numRead + 1 + ts.length ≤ it.numTotal := by omega
    obtain ⟨it', h', he', ht', hread⟩ := drain_of_yields ts cs
      ({ stampedAt it tr t with decoder := d }.addDelta c) (k := k) (by simpa using hl) he hn' hw'
      hr' hy' (by omega)
    refine ⟨it', ?_, he', ht', ?_⟩
    · rw [drain, hnext, length_cons, Nat.add_sub_add_right]
      simp only [h']
      cases drain (k - ts.length) it' <;> rfl
    · rw [hread, length_cons]
      simp only [CLIterator.addDelta, stampedAt]
      omega

theorem drain_succ {k : ℕ} {samples : List Sample} (h : drain (k + 1) it = .ok (samples, it')) :
    it.next = .ok (false, it') ∧ samples = [] ∨ ∃ it1 samples1, it.next = .ok (true, it1) ∧
      drain k it1 = .ok (samples1, it') ∧
      samples = ⟨it1.t, it1.quantizer, it1.val⟩ :: samples1 := by
  rw [drain] at h
  rcases hn : it.next with fault | ⟨_ | _, it1⟩ <;> rw [hn] at h
  · cases h
  · cases h
    exact .inl ⟨rfl, rfl⟩
  · obtain ⟨⟨samples1, it2⟩, hd, heq⟩ := map_eq_ok h
    cases heq
    exact .inr ⟨it1, samples1, rfl, hd, rfl⟩

theorem length_drain : ∀ {k : ℕ} {it it' : CLIterator} {samples : List Sample},
    drain k it = .ok (samples, it') → samples.length < k
  | 0, _, _, _, h => by simp [drain] at h
  | k + 1, it, it', samples, h => by
    obtain ⟨-, rfl⟩ | ⟨it1, samples1, -, hd, rfl⟩ := drain_succ h
    · exact Nat.succ_pos k
    · exact Nat.succ_lt_succ (length_drain hd)

theorem next_true (hf : ∀ c data, it.decoder ≠ .floats c data) (h : it.next = .ok (true, it')) :
    ∃ c, it.decoder.nextDelta = .ok (some c, it'.decoder) ∧
      it'.quantizer = addCode it.quantizer c := by
  rw [next_of_ne_floats hf] at h
  split_ifs at h
  · simp at h
  · rcases hts : nextTimestampDOD it.numRead it.tr it.t it.tDelta with ⟨e | ⟨t, tDelta⟩, tr⟩
    · simp [hts] at h
    · rcases hd : it.decoder.nextDelta with fault | ⟨_ | c, d⟩
      · simp [hts, hd] at h
      · simp [hts, hd] at h
      · simp only [hts, hd, Except.ok.injEq, Prod.mk.injEq, true_and] at h
        subst h
        exact ⟨c, rfl, rfl⟩

theorem ne_floats_of_nextDelta {c : U64} (h : d.nextDelta = .ok (some c, d')) :
    ∀ c data, d' ≠ .floats c data := by
  rintro c' data rfl
  unfold Decoder.nextDelta at h
  split at h <;> first | (split at h <;> simp at h) | simp at h

/-- **Whatever a loop reads** are the sums of the codes of the decoder. -/
theorem yields_of_drain : ∀ {k : ℕ} {it it' : CLIterator} {samples : List Sample},
    (∀ c data, it.decoder ≠ .floats c data) → drain k it = .ok (samples, it') →
    ∃ cs, Yields it.decoder cs ∧ samples.map Sample.quantizer = sums it.quantizer cs
  | 0, _, _, _, _, h => by simp [drain] at h
  | k + 1, it, it', samples, hf, h => by
    obtain ⟨-, rfl⟩ | ⟨it1, samples1, hn, hd, rfl⟩ := drain_succ h
    · exact ⟨[], trivial, rfl⟩
    · obtain ⟨c, hc, hq⟩ := next_true hf hn
      obtain ⟨cs, hy, hs⟩ := yields_of_drain (ne_floats_of_nextDelta hc) hd
      exact ⟨c :: cs, ⟨it1.decoder, hc, hy⟩, by rw [map_cons, hs, sums, hq]⟩

/-! ### Chunks -/

/-- The stream `s` is a chunk with the given header, timestamps and payload. -/
structure IsChunk (s : List Byte) (num : U16) (errbound : ℚ) (ctype : CompressType)
    (stamps payload : List Byte) : Prop where
  header : ∃ pad, pad.length = 2 ∧ s = metaBytes num (BitVec.ofNat 32 (12 + stamps.length)) errbound
    ctype ++ pad ++ stamps ++ payload
  ptr_lt : 12 + stamps.length < 2 ^ 32
  errbound_lt : (uint32OfFloat (errbound * 1000000)).toNat < 2 ^ 28

/-- An iterator over the stream is opened with the decoder `d`. -/
def Opens (ext : Extern) (order : RangeOrder (U64 × I64)) (s : List Byte) (d : Decoder) : Prop :=
  ∃ m, CLMeta.readCLMeta s = .ok m ∧ openDecoder ext order m s = .ok (some d)

/-- The iterator at the start of a chunk. -/
def atStart (num : U16) (errbound : ℚ) (stamps : List Byte) (d : Decoder) : CLIterator :=
  ⟨newBReader stamps, d, num.toNat, 0, 0, 0, 0, 0, storedErrbound errbound, none⟩

variable {s stamps payload : List Byte} {num : U16} {errbound : ℚ} {ctype : CompressType}
  {ext : Extern} {order : RangeOrder (U64 × I64)} {samples : List Sample} {err : Option Err}

section IsChunk

variable (h : IsChunk s num errbound ctype stamps payload)
include h

theorem IsChunk.split : ∃ pre, pre.length = 12 + stamps.length ∧ s = pre ++ payload := by
  obtain ⟨pad, hp, hs⟩ := h.header
  refine ⟨_, ?_, hs⟩
  rw [length_append, length_append, length_metaBytes, hp]

theorem IsChunk.readCLMeta : CLMeta.readCLMeta s =
    .ok ⟨num, BitVec.ofNat 32 (12 + stamps.length), storedErrbound errbound, some ctype⟩ := by
  obtain ⟨pad, -, hs⟩ := h.header
  rw [hs, append_assoc, append_assoc, readCLMeta_append h.errbound_lt]

theorem IsChunk.toNat_ptr : (BitVec.ofNat 32 (12 + stamps.length)).toNat = 12 + stamps.length := by
  rw [BitVec.toNat_ofNat, Nat.mod_eq_of_lt h.ptr_lt]

theorem IsChunk.sliceFrom : Go.Basic.sliceFrom s (12 + stamps.length) = .ok payload := by
  obtain ⟨pre, hp, hs⟩ := h.split
  rw [Go.Basic.sliceFrom, if_pos (by rw [hs, length_append]; omega), hs, drop_left' hp]

theorem IsChunk.slice : Go.Basic.slice s clHeaderSize (12 + stamps.length) = .ok stamps := by
  obtain ⟨pad, hp, hs⟩ := h.header
  exact slice_append hs (by simp [length_metaBytes, hp, clHeaderSize]) (by simp [clHeaderSize])

theorem IsChunk.numSamples : numSamples s = num.toNat := by
  obtain ⟨pad, -, hs⟩ := h.header
  have h2 : s.take 2 = beBytes 2 num.toNat := by
    rw [hs, metaBytes, append_assoc, append_assoc, append_assoc, append_assoc,
      take_left' (length_beBytes _ _)]
  rw [CLChunk.numSamples, h2, beNat_beBytes, Nat.mod_eq_of_lt (by omega)]

theorem IsChunk.writeCLMeta : CLMeta.writeCLMeta num (BitVec.ofNat 32 (12 + stamps.length)) errbound
    ctype s = .ok s := by
  obtain ⟨pad, -, hs⟩ := h.header
  have hlen := length_metaBytes num (BitVec.ofNat 32 (12 + stamps.length)) errbound ctype
  rw [CLMeta.writeCLMeta, if_neg (by rw [hs]; simp only [length_append]; omega), hs,
    append_assoc, append_assoc, drop_left' hlen]

theorem IsChunk.decodeChunk_eq (hopen : Opens ext order s d) : CLChunk.decodeChunk ext order s =
    (drain (num.toNat + 1) (atStart num errbound stamps d)).map fun p => (p.1, p.2.err) := by
  obtain ⟨m, hm, ho⟩ := hopen
  cases h.readCLMeta.symm.trans hm
  simp only [CLChunk.decodeChunk, reset, h.readCLMeta, ho, h.toNat_ptr, h.slice, ok_bind,
    pure, Except.pure, atStart]
  cases drain (num.toNat + 1) _ <;> rfl

variable {ts : List I64}

/-- Decoding a chunk whose decoder yields the codes of its first timestamps. -/
theorem IsChunk.decodeChunk_of_le (hnum : ts.length ≤ num.toNat)
    (hcs : cs.length = ts.length) (hts : bytesBits stamps = Clock.zero.bitsOf ts ++ pad)
    (hopen : Opens ext order s d) (hy : Yields d cs) :
    ∃ it, CLChunk.decodeChunk ext order s = (drain (num.toNat + 1 - ts.length) it).map
        (fun p => (samplesOf (storedErrbound errbound) 0 0 (ts.zip cs) ++ p.1, p.2.err)) ∧
      it.err = none ∧ it.numTotal = num.toNat ∧ it.numRead = ts.length := by
  obtain ⟨it, hd, he, ht, hn⟩ := drain_of_yields ts cs (atStart num errbound stamps d)
    (k := num.toNat + 1) hcs.symm rfl (by simpa [atStart] using hnum) (wf_newBReader _)
    (by rw [atStart, rest_newBReader, hts]; rfl) hy (by omega)
  refine ⟨it, ?_, he, ht, by simpa [atStart] using hn⟩
  rw [h.decodeChunk_eq hopen, hd]
  cases drain (num.toNat + 1 - ts.length) it <;> rfl

/-- **Decoding a chunk** whose decoder yields as many codes as there are timestamps. -/
theorem IsChunk.decodeChunk (hnum : num.toNat = ts.length)
    (hcs : cs.length = ts.length) (hts : bytesBits stamps = Clock.zero.bitsOf ts ++ pad)
    (hopen : Opens ext order s d) (hy : Yields d cs) :
    CLChunk.decodeChunk ext order s =
      .ok (samplesOf (storedErrbound errbound) 0 0 (ts.zip cs), none) := by
  obtain ⟨it', hd, he, hn⟩ := h.decodeChunk_of_le (by omega) hcs hts hopen hy
  have hk : num.toNat + 1 - ts.length = 0 + 1 := by omega
  rw [hd, hk, drain_at_end (by omega)]
  simp [Except.map, he]

/-- **Nothing is decoded** when the decoder ends at once. -/
theorem IsChunk.decodeChunk_eq_nil {t : I64} (hnum : 0 < num.toNat)
    (hts : bytesBits stamps = Clock.zero.bitsOf (t :: ts) ++ pad)
    (hopen : Opens ext order s d) (hf : ∀ c data, d ≠ .floats c data)
    (hd : d.nextDelta = .ok (none, d')) :
    CLChunk.decodeChunk ext order s = .ok ([], none) := by
  rw [Clock.bitsOf, append_assoc] at hts
  obtain ⟨tr, -, -, hn⟩ := next_eq (atStart num errbound stamps d) (t := t) rfl hnum
    (wf_newBReader _) (by rw [atStart, rest_newBReader, hts]; rfl) hf
  rw [show (atStart num errbound stamps d).decoder = d from rfl, hd] at hn
  rw [h.decodeChunk_eq hopen, drain, hn]
  rfl

/-- Whatever a chunk decodes to are the sums of the codes of its decoder. -/
theorem IsChunk.yields_of_decodeChunk (hopen : Opens ext order s d)
    (hf : ∀ c data, d ≠ .floats c data)
    (hdec : CLChunk.decodeChunk ext order s = .ok (samples, err)) :
    ∃ cs, Yields d cs ∧ samples.map Sample.quantizer = sums 0 cs := by
  rw [h.decodeChunk_eq hopen] at hdec
  obtain ⟨p, hd, heq⟩ := map_eq_ok hdec
  cases heq
  exact yields_of_drain hf hd

end IsChunk

theorem reset_spec (h : reset ext order s = .ok (some it)) :
    ∃ m, CLMeta.readCLMeta s = .ok m ∧
      openDecoder ext order m s = .ok (some it.decoder) ∧ it.numTotal = m.num.toNat ∧
      it.errbound = m.errbound ∧ it.err = none ∧ it.numRead = 0 ∧ clHeaderSize ≤ s.length := by
  unfold reset at h
  obtain ⟨m, hm, h⟩ := bind_eq_ok h
  obtain ⟨_ | d, ho, h⟩ := bind_eq_ok h
  · cases h
  · obtain ⟨b, hs, h⟩ := bind_eq_ok h
    cases h
    refine ⟨m, hm, ho, rfl, rfl, rfl, rfl, ?_⟩
    unfold Go.Basic.slice at hs
    split_ifs at hs with hle
    omega

theorem openDecoder_ctype {m : Header} (h : openDecoder ext order m s = .ok (some d)) :
    m.ctype = some d.ctype := by
  unfold openDecoder at h
  split at h
  case h_8 => cases h
  all_goals
    rename_i hc
    obtain ⟨y, -, hy⟩ := map_eq_ok h
    rw [hc, ← Option.some.inj hy]
    rfl

theorem decodeChunk_eq_ok (h : CLChunk.decodeChunk ext order s = .ok (samples, err)) :
    ∃ it it', reset ext order s = .ok (some it) ∧
      drain (it.numTotal + 1) it = .ok (samples, it') ∧ it'.err = err := by
  unfold CLChunk.decodeChunk at h
  obtain ⟨_ | it, hr, h⟩ := bind_eq_ok h
  · cases h
  · obtain ⟨⟨samples', it'⟩, hd, h⟩ := bind_eq_ok h
    cases h
    exact ⟨it, it', hr, hd, rfl⟩

theorem length_decodeChunk (h : CLChunk.decodeChunk ext order s = .ok (samples, err)) :
    samples.length < 2 ^ 16 := by
  obtain ⟨it, it', hr, hd, -⟩ := decodeChunk_eq_ok h
  obtain ⟨m, -, -, hn, -⟩ := reset_spec hr
  have := length_drain hd
  omega

/-- The bytes of a chunk decode to the samples `l`, as many as it counts. -/
def Stores (ext : Extern) (order : RangeOrder (U64 × I64)) (s : List Byte) (l : List (I64 × I64)) :
    Prop :=
  CLChunk.numSamples s = l.length ∧
    ∃ samples, CLChunk.decodeChunk ext order s = .ok (samples, none) ∧
      samples.map (fun s => (s.t, s.quantizer)) = l

/-- A Huffman chunk with the value 1 at 1000 and the value 2 at 2000. -/
def pairChunk : List Byte :=
  [0, 2, 0, 0, 0, 16, 96, 0, 39, 16, 0, 0, 208, 15, 208, 15, 0, 0, 0, 8, 0, 0, 0, 8, 240, 0, 0, 0,
    0, 0, 0, 100, 240, 0, 0, 0, 0, 0, 0, 4]

def pairSamples : List Sample := [⟨1000, 50, 1⟩, ⟨2000, 100, 2⟩]

/-- A QSimple8b chunk with the sample (1000, 50). -/
def storedChunk : List Byte :=
  [0, 1, 0, 0, 0, 14, 80, 0, 39, 16, 0, 0, 208, 15, 240, 0, 0, 0, 0, 0, 0, 100]

theorem decodeChunk_storedChunk :
    CLChunk.decodeChunk default default storedChunk =
      .ok ([⟨1000, 50, 1⟩], none) := by decide +kernel

variable {l : List (I64 × I64)}

theorem Stores.length_lt (h : Stores ext order s l) : l.length < 2 ^ 16 := by
  obtain ⟨-, samples, hd, rfl⟩ := h
  rw [length_map]
  exact length_decodeChunk hd

/-- Every iterator on the stream reads the samples `l`, whose values are those of the codes. -/
def DecodesTo (s : List Byte) (errbound : ℚ) (l : List (I64 × I64)) : Prop :=
  ∀ ext order, CLChunk.decodeChunk ext order s =
    .ok (samplesOf errbound 0 0 ((l.map Prod.fst).zip (deltaCodes 0 (l.map Prod.snd))), none)

theorem DecodesTo.quantizers (h : DecodesTo s errbound l)
    (hr : ∀ c ∈ deltaCodes 0 (l.map Prod.snd), Readable c) (ext : Extern)
    (order : RangeOrder (U64 × I64)) :
    ∃ samples, CLChunk.decodeChunk ext order s = .ok (samples, none) ∧
      samples.map (fun s => (s.t, s.quantizer)) = l :=
  ⟨_, h ext order, map_samplesOf_deltaCodes _ _ _ _ hr⟩

variable {l : List (I64 × I64)} (hnum : num.toNat = (l.map Prod.fst).length)
  (hts : bytesBits stamps = Clock.zero.bitsOf (l.map Prod.fst) ++ pad)
include hnum hts

theorem IsChunk.decodesTo_qSimple8b (h : IsChunk s num errbound .qSimple8b stamps (wordsBytes ws))
    (hws : wordsValues ws = deltaCodes 0 (l.map Prod.snd)) :
    DecodesTo s (storedErrbound errbound) l := by
  intro ext order
  refine h.decodeChunk hnum (by simp) hts ⟨_, h.readCLMeta, ?_⟩
    (yields_qSimple8b (hws ▸ decodes_new ws))
  rw [openDecoder, h.toNat_ptr, h.sliceFrom]; rfl

theorem IsChunk.decodesTo_huffman (h : IsChunk s num errbound .huffman stamps payload)
    (hd : ∀ order (pre : List Byte), pre.length = 12 + stamps.length → ∃ d,
      newHuffmanDecoder order (pre ++ payload) (12 + stamps.length) = .ok (some d) ∧
        Huffman.Reads d (deltaCodes 0 (l.map Prod.snd))) :
    DecodesTo s (storedErrbound errbound) l := by
  intro ext order
  obtain ⟨pre, hp, hs⟩ := h.split
  obtain ⟨d, hd, hr⟩ := hd order pre hp
  refine h.decodeChunk hnum (by simp) hts ⟨_, h.readCLMeta, ?_⟩ (yields_huffman hr)
  rw [openDecoder, h.toNat_ptr, hs, hd]; rfl

theorem IsChunk.decodesTo_simplebits (h : IsChunk s num errbound .simplebits stamps payload)
    {d : SimplebitsDecoder} (hd : newSimplebitsDecoder payload = some d)
    (hr : Simplebits.Reads d (deltaCodes 0 (l.map Prod.snd))) :
    DecodesTo s (storedErrbound errbound) l := by
  intro ext order
  refine h.decodeChunk hnum (by simp) hts ⟨_, h.readCLMeta, ?_⟩ (yields_simplebits hr)
  rw [openDecoder, h.toNat_ptr, h.sliceFrom, ← hd]; rfl

end TopcDB.Chunkenc.CLIterate
