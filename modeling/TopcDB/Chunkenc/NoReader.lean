import TopcDB.Chunkenc.CLAppend

/-! # Codecs without a reader

`Compact` writes Varint and PFor payloads and names the codec in the header, but `Reset` opens no
decoder for them. `CLChunk.iterator` then returns a nil iterator, whose `Next` panics: whatever was
appended, such a chunk cannot be read (`not_stores_noReader`). -/

namespace TopcDB.Chunkenc.NoReader

open Lib.Bits Lib.Assoc Lib.Machine Go.Basic Huffman CLMeta CLChunk CLIterate CLAppend

/-- The codecs that `Reset` does not know. -/
def noReader : CompressType → Bool
  | .varint | .pFor => true
  | _ => false

theorem reset_noReader {s : List Byte} {num : U16} {errbound : ℚ} {ctype : CompressType}
    {stamps payload : List Byte} (h : IsChunk s num errbound ctype stamps payload)
    (hc : noReader ctype) (ext : Extern) (order : RangeOrder (U64 × I64)) :
    reset ext order s = .ok none := by
  have hopen : openDecoder ext order
      ⟨num, BitVec.ofNat 32 (12 + stamps.length), storedErrbound errbound, some ctype⟩ s =
        .ok none := by
    unfold openDecoder
    cases ctype <;> first | rfl | exact absurd hc (by decide)
  simp only [reset, h.readCLMeta, hopen, ok_bind, pure, Except.pure]

variable {a : CLAppender}

theorem payload_noReader (hc : noReader a.ctype) (ext : Extern) (ranges : Ranges) :
    a.prepare ext ranges = (a, .ok []) ∧ ∃ data, a.payload ext [] = .ok (a, data) := by
  unfold CLAppender.prepare CLAppender.payload
  cases h : a.ctype <;> simp [h, noReader] at hc ⊢

/-- The body of a new chunk, whose stream is the header only. -/
theorem hasBody_or_lt {n : ℕ} {ts : List I64} (h : Stamped a n ts)
    (hlen : a.b.stream.length = clHeaderSize) (data : List Byte) :
    HasBody a.b.stream a.timestamps.b.stream data ∨
      a.b.stream.length < a.payloadPtr + data.length := by
  rw [h.payloadPtr, hlen]
  by_cases hbody : a.timestamps.b.stream ++ data = []
  · left
    obtain ⟨hts, hdata⟩ := List.append_eq_nil_iff.1 hbody
    exact ⟨a.b.stream, hlen, by rw [hts, hdata, List.append_nil, List.append_nil]⟩
  · right
    have := List.length_pos_iff.2 hbody
    rw [List.length_append] at this
    unfold clHeaderSize
    omega

theorem compact_noReader {n : ℕ} {ts : List I64} (h : Stamped a n ts)
    (hl : ts.length < 2 ^ 16) (he : BoundFits a.errbound) (hc : noReader a.ctype)
    (hlen : a.b.stream.length = clHeaderSize) (ext : Extern) (ranges : Ranges) :
    ∃ a', a.compact ext ranges = .ok (a', none) ∧
      ∃ data, IsChunk a'.b.stream a.num a.errbound a.ctype a.timestamps.b.stream data := by
  obtain ⟨hprep, data, hpay⟩ := payload_noReader hc ext ranges
  obtain ⟨s, hf, hs⟩ := finish_spec h hl he (hasBody_or_lt h hlen data)
  have hne : a.ctype ≠ .huffman := by
    intro hh
    rw [hh] at hc
    exact absurd hc (by decide)
  exact ⟨_, compact_of_finish hprep hne hpay hf, data, hs⟩

/-- **No such chunk can be read**: the samples are appended and compacted without an error, and the
iterator is nil. -/
theorem not_stores_noReader (ext : Extern) (order : RangeOrder (U64 × I64)) (ranges : Ranges)
    {errbound : ℚ} {ctype : CompressType} (he : BoundFits errbound) (hc : noReader ctype)
    (l : List (I64 × I64)) (hl : l.length ≤ 65535) :
    ∃ a, run (exec ext) (((appender newCLChunk).setErrorBound errbound).setCompressType ctype)
        (appends l ++ [.compact ranges]) = .ok (a, []) ∧
      reset ext order a.b.stream = .ok none ∧ ¬ Stores ext order a.b.stream l := by
  obtain ⟨a, hrun, hs, hk, hlen⟩ := (buffered_new errbound ctype).stamped.run_appends ext l
  have hctype : a.ctype = ctype := hk.ctype
  have hbound : a.errbound = errbound := hk.errbound
  obtain ⟨a', hcomp, data, hchunk⟩ := compact_noReader hs (by simpa using Nat.lt_succ_of_le hl)
    (hbound ▸ he) (hctype ▸ hc) hlen ext ranges
  have hreset := reset_noReader hchunk (hctype ▸ hc) ext order
  refine ⟨a', run_concat (i := Op.compact ranges) hrun hcomp, hreset, ?_⟩
  rintro ⟨-, samples, hdec, -⟩
  rw [CLChunk.decodeChunk, hreset] at hdec
  cases hdec

theorem not_stores_noReader_one :
    ∃ a, run (exec default)
        (((appender newCLChunk).setErrorBound defaultErrbound).setCompressType .pFor)
        (appends [(1000, 5)] ++ [.compact default]) = .ok (a, []) ∧
      reset default default a.b.stream = .ok none ∧
      ¬ Stores default default a.b.stream [(1000, 5)] :=
  not_stores_noReader default default default boundFits_default rfl [(1000, 5)] (by decide)

/-- One sample is appended and compacted, and the chunk is read back. -/
def KeepsOne (ctype : CompressType) : Prop :=
  ∃ a, run (exec default) ((appender newCLChunk).setCompressType ctype)
      (appends [(1000, 5)] ++ [.compact default]) = .ok (a, []) ∧
    Stores default default a.b.stream [(1000, 5)]

theorem not_keepsOne {ctype : CompressType} (hp : ((run (exec default)
      ((appender newCLChunk).setCompressType ctype)
      (appends [(1000, 5)] ++ [.compact default])).bind
        fun p => decodeChunk default default p.1.b.stream) = .error .panic) :
    ¬ KeepsOne ctype := by
  rintro ⟨a, hrun, -, samples, hdec, -⟩
  rw [hrun, Except.bind, hdec] at hp
  cases hp

theorem not_keepsOne_noReader : ¬ KeepsOne .varint ∧ ¬ KeepsOne .pFor := by
  constructor
  · exact not_keepsOne (by decide +kernel)
  · exact not_keepsOne (by decide +kernel)

end TopcDB.Chunkenc.NoReader
