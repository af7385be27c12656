import TopcDB.Chunkenc.CLIterate
import TopcDB.Lib.Machine

/-! # What an appender writes

An appender is driven by calls of `AppendQuantizer` and `Compact` in any order (`Op`). Whatever the
codec, its timestamps are those appended and the counter in the stream is their number (`Stamped`);
the codecs but QSimple8b keep the codes of the differences in a buffer (`Buffered`). The end of
`Compact` makes the stream a chunk (`finish_spec`, `compactHuffman_spec`). -/

namespace TopcDB.Chunkenc.CLAppend

open List Lib.Bits Lib.Machine Go.Basic Bstream Timestamps Zigzag Huffman CLMeta CLChunk CLIterate

/-! ### Calls -/

/-- A call on an appender. The orders are those in which a call of `Compact` visits its maps. -/
inductive Op
  | append (t q : I64)
  | compact (ranges : Ranges)

def exec (ext : Extern) (a : CLAppender) : Op → Except Fault (CLAppender × Option Err)
  | .append t q => (a.appendQuantizer t q).map fun a => (a, none)
  | .compact ranges => a.compact ext ranges

/-- The samples of a sequence of calls. -/
def appended : List Op → List (I64 × I64)
  | [] => []
  | .append t q :: ops => (t, q) :: appended ops
  | .compact _ :: ops => appended ops

@[simp] theorem appended_append : ∀ ops ops' : List Op,
    appended (ops ++ ops') = appended ops ++ appended ops'
  | [], _ => rfl
  | .append _ _ :: ops, ops' => congrArg _ (appended_append ops ops')
  | .compact _ :: ops, ops' => appended_append ops ops'

/-- One call of `AppendQuantizer` for each sample. -/
def appends (l : List (I64 × I64)) : List Op := l.map fun p => .append p.1 p.2

@[simp] theorem appended_appends (l : List (I64 × I64)) : appended (appends l) = l := by
  induction l with
  | nil => rfl
  | cons p l ih => exact congrArg (p :: ·) ih

/-! ### Timestamps and the counter -/

/-- The appender was opened on a chunk that counts `n` samples, and got the timestamps `ts`. -/
structure Stamped (a : CLAppender) (n : ℕ) (ts : List I64) : Prop where
  holds : Holds a.timestamps.b (Clock.zero.bitsOf ts)
  count_lt : a.timestamps.b.count < 8
  clock : a.timestamps.clock = Clock.zero.ticks ts
  length : clHeaderSize ≤ a.b.stream.length
  counter : numSamples a.b.stream = (n + ts.length) % 2 ^ 16
  num : a.num = if ts = [] then 0 else BitVec.ofNat 16 (n + ts.length)

theorem numSamples_lt (b : List Byte) : numSamples b < 2 ^ 16 := by
  refine (beNat_lt _).trans_le (Nat.pow_le_pow_right (by decide) ?_)
  rw [length_take]; omega

theorem stamped_appender {b : BStream} (h : clHeaderSize ≤ b.stream.length) :
    Stamped (appender b) (numSamples b.stream) [] :=
  ⟨holds_empty [], Nat.zero_lt_succ _, rfl, h, by
    rw [length_nil, Nat.add_zero, Nat.mod_eq_of_lt (numSamples_lt _)]; rfl, rfl⟩

variable {a a' a1 a2 : CLAppender} {n count c : ℕ} {ts : List I64}

theorem Stamped.congr (h : Stamped a n ts) (hb : a'.b = a.b) (ht : a'.timestamps = a.timestamps)
    (hn : a'.num = a.num) :
    Stamped a' n ts where
  holds := ht ▸ h.holds
  count_lt := ht ▸ h.count_lt
  clock := ht ▸ h.clock
  length := hb ▸ h.length
  counter := hb ▸ h.counter
  num := hn ▸ h.num

section Stamped

variable {a : CLAppender} {n : ℕ} {ts : List I64} (h : Stamped a n ts)
include h

theorem Stamped.payloadPtr : a.payloadPtr = 12 + a.timestamps.b.stream.length := by
  have := h.count_lt
  rw [CLAppender.payloadPtr, if_neg (by omega), clHeaderSize, Nat.add_comm]

theorem Stamped.ptr_lt (hl : ts.length < 2 ^ 16) : 12 + a.timestamps.b.stream.length < 2 ^ 32 := by
  have h1 := h.holds.length
  have h2 := h.count_lt
  have h3 := Clock.length_bitsOf_le Clock.zero ts
  omega

theorem Stamped.bytesBits_stream :
    bytesBits a.timestamps.b.stream =
      Clock.zero.bitsOf ts ++ List.replicate a.timestamps.b.count false := h.holds.bits

/-- One timestamp more. The stream of the chunk keeps its length, that of the timestamps does not
get shorter. -/
theorem Stamped.stamp (t : I64) : ∃ b td num,
    a.stamp t = .ok { a with b := b, timestamps := td, num := num } ∧
    Stamped { a with b := b, timestamps := td, num := num } n (ts ++ [t]) ∧
    b.stream.length = a.b.stream.length ∧
    a.timestamps.b.stream.length ≤ td.b.stream.length := by
  have hlen := h.length
  have hclock : a.timestamps.clock.bits t = (Clock.zero.ticks ts).bitsOf [t] := by
    rw [h.clock]; simp [Clock.bitsOf]
  have hholds := holds_append h.holds t
  rw [hclock, ← Clock.bitsOf_append] at hholds
  set num := BitVec.ofNat 16 (numSamples a.b.stream) + 1 with hnum
  have hcounter : num.toNat = (n + (ts ++ [t]).length) % 2 ^ 16 := by
    rw [hnum, BitVec.toNat_add, BitVec.toNat_ofNat, h.counter, length_append, length_singleton]
    simp only [BitVec.reduceToNat]; omega
  have hstream : (beBytes 2 num.toNat ++ a.b.stream.drop 2).length = a.b.stream.length := by
    rw [length_append, length_beBytes, length_drop]
    rw [clHeaderSize] at hlen; omega
  refine ⟨⟨beBytes 2 num.toNat ++ a.b.stream.drop 2, a.b.count⟩, Timestamps.append a.timestamps t,
    num, by rw [CLAppender.stamp, if_neg (by rw [clHeaderSize] at hlen; omega)],
    ⟨hholds, count_append_lt h.count_lt t, ?_, by simpa only [hstream] using hlen, ?_, ?_⟩,
    hstream, ?_⟩
  · simp only [clock_append, h.clock, Clock.ticks, foldl_append, foldl_cons,
      foldl_nil]
  · simp only [numSamples, take_left' (length_beBytes _ _), beNat_beBytes, hcounter]; omega
  · rw [if_neg (by simp)]
    apply BitVec.eq_of_toNat_eq
    rw [hcounter, BitVec.toNat_ofNat]
  · have h1 := h.holds.length
    have h2 := hholds.length
    have h4 := h.count_lt
    rw [Clock.bitsOf_append, length_append] at h2
    omega

end Stamped

theorem Stamped.toNat_num {l : List (I64 × I64)} (h : Stamped a 0 (l.map Prod.fst))
    (hl : l.length < 2 ^ 16) : a.num.toNat = (l.map Prod.fst).length := by
  rw [h.num]
  split_ifs with h0
  · rw [h0]; rfl
  · rw [BitVec.toNat_ofNat, Nat.zero_add, length_map, Nat.mod_eq_of_lt hl]

/-! ### Buffers -/

/-- The codecs whose codes wait in the buffer. -/
def buffers : CompressType → Bool
  | .auto | .simplebits | .bitPacking | .varint | .huffman => true
  | _ => false

theorem pushDelta_of_buffers (h : buffers a.ctype) (q : I64) :
    a.pushDelta q =
      { a with v := q, intDeltaBuffer := a.intDeltaBuffer ++ [zigzag (q - a.v)] } := by
  cases hc : a.ctype <;> simp [hc, buffers] at h <;> simp [CLAppender.pushDelta, hc]

/-- The appender was opened on a chunk that counts `n` samples, and buffers the samples `l`. -/
structure Buffered (a : CLAppender) (n : ℕ) (l : List (I64 × I64)) : Prop where
  stamped : Stamped a n (l.map Prod.fst)
  v : a.v = (l.map Prod.snd).getLastD 0
  buffer : a.intDeltaBuffer = deltaCodes 0 (l.map Prod.snd)

/-- The settings and the statistics are the same. -/
structure Keeps (a a' : CLAppender) : Prop where
  ctype : a'.ctype = a.ctype
  errbound : a'.errbound = a.errbound
  maxBits : a'.maxBits = a.maxBits
  bitCounters : a'.bitCounters = a.bitCounters
  bitSelectors : a'.bitSelectors = a.bitSelectors

theorem Keeps.refl (a : CLAppender) : Keeps a a := ⟨rfl, rfl, rfl, rfl, rfl⟩

theorem Keeps.trans (h : Keeps a a1) (h' : Keeps a1 a2) : Keeps a a2 :=
  ⟨h'.ctype.trans h.ctype, h'.errbound.trans h.errbound, h'.maxBits.trans h.maxBits,
    h'.bitCounters.trans h.bitCounters, h'.bitSelectors.trans h.bitSelectors⟩

theorem keeps_pushDelta (a : CLAppender) (q : I64) : Keeps a (a.pushDelta q) := by
  cases hc : a.ctype <;> simp only [CLAppender.pushDelta, hc] <;>
    exact ⟨hc ▸ rfl, rfl, rfl, rfl, rfl⟩

theorem encoder_pushDelta (h : buffers a.ctype) (q : I64) :
    (a.pushDelta q).encoder = a.encoder := by rw [pushDelta_of_buffers h]

theorem keeps_appendQuantizer {t q : I64} (h : a.appendQuantizer t q = .ok a') :
    Keeps a a' ∧ (buffers a.ctype → a'.encoder = a.encoder) := by
  obtain ⟨a1, h1, rfl⟩ := map_eq_ok h
  unfold CLAppender.stamp at h1
  split_ifs at h1
  cases h1
  refine ⟨Keeps.trans ?_ (keeps_pushDelta _ q), fun hb => ?_⟩
  · exact ⟨rfl, rfl, rfl, rfl, rfl⟩
  · exact encoder_pushDelta (by exact hb) q

theorem frame_pushDelta (a : CLAppender) (q : I64) : (a.pushDelta q).b = a.b ∧
    (a.pushDelta q).timestamps = a.timestamps ∧ (a.pushDelta q).num = a.num := by
  cases hc : a.ctype <;> simp [CLAppender.pushDelta, hc]

theorem Stamped.append (h : Stamped a n ts) (t q : I64) :
    ∃ a', a.appendQuantizer t q = .ok a' ∧ Stamped a' n (ts ++ [t]) ∧ Keeps a a' ∧
      a'.b.stream.length = a.b.stream.length := by
  obtain ⟨b, td, num, h1, hs, hlen, -⟩ := h.stamp t
  have h2 : a.appendQuantizer t q =
      .ok (CLAppender.pushDelta { a with b := b, timestamps := td, num := num } q) := by
    rw [CLAppender.appendQuantizer, h1]; rfl
  obtain ⟨hb, ht, hn⟩ := frame_pushDelta { a with b := b, timestamps := td, num := num } q
  exact ⟨_, h2, hs.congr hb ht hn, (keeps_appendQuantizer h2).1, by rw [hb]; exact hlen⟩

/-- What appends keep one by one. -/
theorem run_appends {P : CLAppender → List (I64 × I64) → Prop}
    (hP : ∀ a l t q, P a l → ∃ a', a.appendQuantizer t q = .ok a' ∧ P a' (l ++ [(t, q)]))
    (ext : Extern) : ∀ (l' : List (I64 × I64)) {a : CLAppender} {l : List (I64 × I64)}, P a l →
    ∃ a', run (exec ext) a (appends l') = .ok (a', []) ∧ P a' (l ++ l')
  | [], a, l, h => ⟨a, rfl, by rwa [append_nil]⟩
  | (t, q) :: l', a, l, h => by
    obtain ⟨a1, h1, hp⟩ := hP a l t q h
    have hstep : exec ext a (.append t q) = .ok (a1, none) := by rw [exec, h1]; rfl
    obtain ⟨a2, h2, hp'⟩ := run_appends hP ext l' hp
    refine ⟨a2, ?_, by simpa using hp'⟩
    rw [appends, map_cons, run_cons hstep]
    exact congrArg (Except.map _) h2

theorem Stamped.run_appends (h : Stamped a n ts) (ext : Extern) (l : List (I64 × I64)) :
    ∃ a', run (exec ext) a (appends l) = .ok (a', []) ∧ Stamped a' n (ts ++ l.map Prod.fst) ∧
      Keeps a a' ∧ a'.b.stream.length = a.b.stream.length := by
  refine CLAppend.run_appends (P := fun a' l => Stamped a' n (ts ++ l.map Prod.fst) ∧ Keeps a a' ∧
    a'.b.stream.length = a.b.stream.length) (fun a1 l t q h => ?_) ext l
    (l := []) ⟨by simpa using h, Keeps.refl a, rfl⟩
  obtain ⟨a2, h2, hs, hk, hlen⟩ := h.1.append t q
  exact ⟨a2, h2, by simpa using hs, h.2.1.trans hk, hlen.trans h.2.2⟩

theorem buffered_appender {b : BStream} (h : clHeaderSize ≤ b.stream.length) :
    Buffered (appender b) (numSamples b.stream) [] := ⟨stamped_appender h, rfl, rfl⟩

theorem buffered_new (errbound : ℚ) (ctype : CompressType) :
    Buffered (((appender newCLChunk).setErrorBound errbound).setCompressType ctype) 0 [] := by
  have h := buffered_appender (b := newCLChunk) (by decide)
  exact { h with stamped := { h.stamped with } }

theorem Buffered.append {l : List (I64 × I64)} (h : Buffered a n l) (hc : buffers a.ctype)
    (t q : I64) :
    ∃ a', a.appendQuantizer t q = .ok a' ∧ Buffered a' n (l ++ [(t, q)]) ∧ Keeps a a' ∧
      a'.b.stream.length = a.b.stream.length ∧
      a.timestamps.b.stream.length ≤ a'.timestamps.b.stream.length := by
  obtain ⟨b, td, num, h1, hs, hlen, hts⟩ := h.stamped.stamp t
  refine ⟨{ a with b := b, timestamps := td, num := num, v := q,
                   intDeltaBuffer := a.intDeltaBuffer ++ [zigzag (q - a.v)] }, ?_,
    ⟨?_, ?_, ?_⟩, ⟨rfl, rfl, rfl, rfl, rfl⟩, hlen, hts⟩
  · rw [CLAppender.appendQuantizer, h1]
    exact congrArg Except.ok (pushDelta_of_buffers (by exact hc) q)
  · rw [map_append]
    exact { hs with }
  · simp
  · simp only [h.buffer, h.v, map_append, deltaCodes_append, map_cons, map_nil,
      deltaCodes]

theorem Buffered.run_appends {l : List (I64 × I64)} (h : Buffered a n l) (ext : Extern)
    (l' : List (I64 × I64)) (hc : buffers a.ctype) :
    ∃ a', run (exec ext) a (appends l') = .ok (a', []) ∧ Buffered a' n (l ++ l') ∧ Keeps a a' ∧
      a'.b.stream.length = a.b.stream.length ∧
      a.timestamps.b.stream.length ≤ a'.timestamps.b.stream.length := by
  refine CLAppend.run_appends (P := fun a' l => Buffered a' n l ∧ Keeps a a' ∧
    a'.b.stream.length = a.b.stream.length ∧
    a.timestamps.b.stream.length ≤ a'.timestamps.b.stream.length) (fun a1 l t q h => ?_) ext l'
    ⟨h, Keeps.refl a, rfl, le_rfl⟩
  obtain ⟨hb, hk, hlen, hts⟩ := h
  obtain ⟨a2, h2, hb', hk', hlen', hts'⟩ := hb.append (hk.ctype ▸ hc) t q
  exact ⟨a2, h2, hb', hk.trans hk', hlen'.trans hlen, hts.trans hts'⟩

/-- The codecs that keep the values themselves. -/
def keepsFloats : CompressType → Bool
  | .machete | .most | .sz3 => true
  | _ => false

theorem append_eq_appendQuantizer (hc : keepsFloats a.ctype = false) (t : I64) (v : ℚ) :
    a.append t v = a.appendQuantizer t (quantize a.errbound v) := by
  unfold CLAppender.append CLAppender.appendQuantizer CLAppender.stamp
  split_ifs
  · rfl
  · cases h : a.ctype <;> simp [h, keepsFloats] at hc <;> rfl

/-! ### The end of `Compact` -/

/-- The stream holds the timestamps and the payload after a header. -/
def HasBody (s stamps payload : List Byte) : Prop :=
  ∃ hd : List Byte, hd.length = clHeaderSize ∧ s = hd ++ stamps ++ payload

variable {s stamps payload stream data b : List Byte}

theorem hasBody_of_isChunk {num : U16} {errbound : ℚ} {ctype : CompressType}
    (h : IsChunk s num errbound ctype stamps payload) : HasBody s stamps payload := by
  obtain ⟨pad, hp, hs⟩ := h.header
  exact ⟨_, by rw [length_append, length_metaBytes, hp]; rfl, hs⟩

theorem HasBody.length (h : HasBody s stamps payload) :
    s.length = 12 + stamps.length + payload.length := by
  obtain ⟨hd, hl, rfl⟩ := h
  rw [length_append, length_append, hl, clHeaderSize]

/-- An error bound that leaves the four bits of the codec alone. -/
def BoundFits (errbound : ℚ) : Prop := (uint32OfFloat (errbound * 1000000)).toNat < 2 ^ 28

instance (errbound : ℚ) : Decidable (BoundFits errbound) := inferInstanceAs (Decidable (_ < _))

theorem boundFits_default : BoundFits defaultErrbound := by decide +kernel

section Compact

variable {a : CLAppender} {n : ℕ} {ts : List I64} (h : Stamped a n ts)
  (hl : ts.length < 2 ^ 16) (he : BoundFits a.errbound)
include h hl he

theorem writeMeta_spec (hb : HasBody stream a.timestamps.b.stream data) :
    ∃ s, { a with b := ⟨stream, count⟩ }.writeMeta a.payloadPtr =
        .ok { a with b := ⟨s, count⟩ } ∧
      IsChunk s a.num a.errbound a.ctype a.timestamps.b.stream data := by
  obtain ⟨hd, hhd, rfl⟩ := hb
  refine ⟨_, ?_, ⟨hd.drop 10, ?_, rfl⟩, h.ptr_lt hl, he⟩
  · rw [CLAppender.writeMeta, writeCLMeta, if_neg (by simp [hhd, clHeaderSize]; omega),
      h.payloadPtr]
    simp only [Except.map, append_assoc]
    rw [drop_append_of_le_length (by rw [hhd, clHeaderSize]; omega)]
  · rw [length_drop, hhd, clHeaderSize]

/-- **The stream is rebuilt when it gets longer**, and kept when it has the body already. -/
theorem finish_spec
    (hb : HasBody a.b.stream a.timestamps.b.stream data ∨
      a.b.stream.length < a.payloadPtr + data.length) :
    ∃ s, a.finish a.payloadPtr data = .ok { a with b := ⟨s, a.b.count⟩ } ∧
      IsChunk s a.num a.errbound a.ctype a.timestamps.b.stream data := by
  have htake : a.timestamps.b.stream.take (a.payloadPtr - clHeaderSize) =
      a.timestamps.b.stream := by
    rw [h.payloadPtr, clHeaderSize, Nat.add_sub_cancel_left, take_length]
  rw [CLAppender.finish]
  refine writeMeta_spec h hl he ?_
  split_ifs with hlt
  · exact ⟨_, length_replicate, by rw [htake]⟩
  · exact hb.resolve_right hlt

theorem compactHuffman_spec {ranges : Ranges}
    (hh : huffmanEncodeWithoutTimesMap ranges a.intDeltaBuffer a.payloadPtr =
      some ⟨List.replicate a.payloadPtr 0#8 ++ b, c⟩) :
    ∃ s, a.compactHuffman ranges a.payloadPtr = .ok { a with b := ⟨s, c⟩ } ∧
      IsChunk s a.num a.errbound a.ctype a.timestamps.b.stream b := by
  have hp := h.payloadPtr
  have htake : a.timestamps.b.stream.take (a.payloadPtr - clHeaderSize) =
      a.timestamps.b.stream := by
    rw [hp, clHeaderSize, Nat.add_sub_cancel_left, take_length]
  rw [CLAppender.compactHuffman, hh]
  refine writeMeta_spec h hl he ⟨_, ?_, by rw [htake, drop_left' length_replicate]⟩
  rw [length_take, length_append, length_replicate, clHeaderSize]; omega

end Compact

/-! ### The paths through `Compact` -/

variable {ext : Extern} {ranges : Ranges} {a a1 a2 a3 : CLAppender} {data data' : List Byte}

theorem compact_of_finish (hp : a.prepare ext ranges = (a1, .ok data)) (hc : a1.ctype ≠ .huffman)
    (hd : a1.payload ext data = .ok (a2, data')) (hf : a2.finish a.payloadPtr data' = .ok a3) :
    a.compact ext ranges = .ok (a3, none) := by
  simp only [CLAppender.compact, hp, hd, hf]
  cases hc1 : a1.ctype <;> first | exact absurd hc1 hc | rfl

theorem compact_of_huffman (hp : a.prepare ext ranges = (a1, .ok data)) (hc : a1.ctype = .huffman)
    (hf : a1.compactHuffman (fun i => ranges (i + 2)) a.payloadPtr = .ok a2) :
    a.compact ext ranges = .ok (a2, none) := by
  simp only [CLAppender.compact, hp, hc, hf]; rfl

theorem Stamped.of_isChunk (h : Stamped a 0 ts) {errbound : ℚ} {ctype : CompressType}
    (hs : IsChunk s a.num errbound ctype stamps payload) :
    Stamped { a with b := ⟨s, c⟩ } 0 ts where
  holds := h.holds
  count_lt := h.count_lt
  clock := h.clock
  length := by
    show clHeaderSize ≤ s.length
    rw [(hasBody_of_isChunk hs).length, clHeaderSize]; omega
  counter := by
    show numSamples s = _
    rw [hs.numSamples, h.num]
    split_ifs with h0
    · simp [h0]
    · rw [BitVec.toNat_ofNat]
  num := h.num

end TopcDB.Chunkenc.CLAppend
