import TopcDB.Chunkenc.CLAppend

/-! # Head chunks

The head writes its chunks with QSimple8b and calls `Compact` on every read, while it goes on
appending. The invariant `Head` ties the values the encoder holds back, the words it has written,
the timestamps and the stream together: either nothing is held back and the stream is up to date, or
something is, and then the next `Compact` makes the stream longer. -/

namespace TopcDB.Chunkenc.HeadChunk

open List Lib.Machine Go.Basic Zigzag Simple8b Simple8bStream Huffman CLMeta CLChunk CLIterate
open CLAppend

/-- The stream against the words `ws` of the encoder and the values `p` it holds back. -/
def InStep (a : CLAppender) (ws p : List U64) : Prop :=
  p = [] ∧ HasBody a.b.stream a.timestamps.b.stream (wordsBytes ws) ∨
    p ≠ [] ∧ a.b.stream.length ≤ 12 + a.timestamps.b.stream.length + 8 * ws.length

variable {a : CLAppender}

theorem InStep.length_le {ws p : List U64} (h : InStep a ws p) :
    a.b.stream.length ≤ 12 + a.timestamps.b.stream.length + 8 * ws.length := by
  rcases h with ⟨-, h⟩ | ⟨-, h⟩
  · rw [h.length, length_wordsBytes]
  · exact h

/-- A QSimple8b appender on a new chunk has got the samples `l`. -/
structure Head (l : List (I64 × I64)) (a : CLAppender) : Prop where
  stamped : Stamped a 0 (l.map Prod.fst)
  v : a.v = (l.map Prod.snd).getLastD 0
  ctype : a.ctype = .qSimple8b
  fits : BoundFits a.errbound
  encoded : ∃ ws p, Encodes a.encoder ws p ∧ wordsValues ws ++ p = deltaCodes 0 (l.map Prod.snd) ∧
    InStep a ws p

theorem head_new {errbound : ℚ} (he : BoundFits errbound) :
    Head [] (((appender newCLChunk).setErrorBound errbound).setCompressType .qSimple8b) where
  stamped := { stamped_appender (b := newCLChunk) (by decide) with }
  v := rfl
  ctype := rfl
  fits := he
  encoded := ⟨[], [], encodes_new, rfl, .inl ⟨rfl, _, length_replicate, rfl⟩⟩

variable {l : List (I64 × I64)}

theorem Head.append (h : Head l a) (hs : Small (deltaCodes 0 (l.map Prod.snd))) (t q : I64) :
    ∃ a', a.appendQuantizer t q = .ok a' ∧ Head (l ++ [(t, q)]) a' ∧ a'.errbound = a.errbound := by
  obtain ⟨b, td, num, h1, hst, hlen, hts⟩ := h.stamped.stamp t
  obtain ⟨ws, p, henc, hv, hin⟩ := h.encoded
  obtain ⟨e, ws', p', hw, henc', hv'⟩ := (henc.write (zigzag (q - a.v))).resolve_left
    fun ⟨⟨x, hx, hl⟩, _⟩ => absurd (hs x (hv ▸ mem_append_right _ hx)) (not_lt.2 hl)
  have hle := hin.length_le
  refine ⟨{ a with b := b, timestamps := td, num := num, v := q, encoder := e },
    ?_, ⟨?_, ?_, h.ctype, h.fits, ws ++ ws', p' ++ [zigzag (q - a.v)], henc', ?_, .inr ⟨by simp, ?_⟩⟩, rfl⟩
  · rw [CLAppender.appendQuantizer, h1]
    simp only [Except.map, CLAppender.pushDelta, h.ctype, hw]
  · rw [map_append]
    exact { hst with }
  · simp
  · rw [map_append, deltaCodes_append, ← h.v, ← hv, ← hv', wordsValues_append]
    simp [deltaCodes]
  · rw [length_append]; simp only; omega

/-- `Compact` of a head chunk succeeds: the payload are the words of the encoder. -/
theorem Head.compact_isChunk (h : Head l a) (hl : l.length < 2 ^ 16)
    (hs : Small (deltaCodes 0 (l.map Prod.snd))) (ext : Extern) (ranges : Ranges) :
    ∃ a' ws, a.compact ext ranges = .ok (a', none) ∧ Head l a' ∧ a'.errbound = a.errbound ∧
      IsChunk a'.b.stream a.num a.errbound .qSimple8b a.timestamps.b.stream (wordsBytes ws) ∧
      wordsValues ws = deltaCodes 0 (l.map Prod.snd) := by
  obtain ⟨ws, p, henc, hv, hin⟩ := h.encoded
  obtain ⟨ws', p', henc', hv', -, ⟨rfl, hok⟩ | ⟨⟨x, hx, hlarge⟩, -⟩⟩ := henc.getBytes
  swap
  · exact absurd (hs x (hv ▸ mem_append_right _ (hv' ▸ mem_append_right _ hx))) (not_lt.2 hlarge)
  obtain ⟨e, hb⟩ : ∃ e, a.encoder.getBytes = (e, .ok (wordsBytes (ws ++ ws'))) :=
    ⟨_, Prod.ext rfl hok⟩
  rw [hb] at henc'
  rw [append_nil] at hv'
  have hws : wordsValues (ws ++ ws') = deltaCodes 0 (l.map Prod.snd) := by
    rw [wordsValues_append, hv', hv]
  have hl' : (l.map Prod.fst).length < 2 ^ 16 := by simpa using hl
  have hst : Stamped { a with encoder := e } 0 (l.map Prod.fst) := { h.stamped with }
  have hbody : HasBody a.b.stream a.timestamps.b.stream (wordsBytes (ws ++ ws')) ∨
      a.b.stream.length < a.payloadPtr + (wordsBytes (ws ++ ws')).length := by
    rcases hin with ⟨rfl, hbody⟩ | ⟨hne, hle⟩
    · -- no word is added
      have h0 := length_le_length_wordsValues ws'
      rw [hv', length_nil] at h0
      rw [length_eq_zero_iff.1 (Nat.le_zero.1 h0), append_nil]
      exact Or.inl hbody
    · have h0 : ws' ≠ [] := by rintro rfl; exact hne hv'.symm
      have := length_pos_iff.2 h0
      rw [h.stamped.payloadPtr, length_wordsBytes, length_append]
      exact Or.inr (by omega)
  obtain ⟨s, hf, hc⟩ := finish_spec hst hl' h.fits hbody
  rw [show CLAppender.ctype { a with encoder := e } = .qSimple8b from h.ctype] at hc
  have hprep : a.prepare ext ranges = ({ a with encoder := e }, .ok (wordsBytes (ws ++ ws'))) := by
    rw [CLAppender.prepare, h.ctype, hb]
  refine ⟨{ a with encoder := e, b := ⟨s, a.b.count⟩ }, ws ++ ws',
    compact_of_finish hprep ?_ ?_ hf, ⟨hst.of_isChunk hc, h.v, h.ctype, h.fits, ws ++ ws', [],
      henc', by rw [append_nil, hws], .inl ⟨rfl, hasBody_of_isChunk hc⟩⟩, rfl, hc, hws⟩
  · rw [show CLAppender.ctype { a with encoder := e } = .qSimple8b from h.ctype]; decide
  · simp only [CLAppender.payload, h.ctype]

/-- **`Compact` of a head chunk** leaves a chunk of all samples so far. -/
theorem Head.compact (h : Head l a) (hl : l.length < 2 ^ 16)
    (hs : Small (deltaCodes 0 (l.map Prod.snd))) (ext : Extern) (ranges : Ranges) :
    ∃ a', a.compact ext ranges = .ok (a', none) ∧ Head l a' ∧ a'.errbound = a.errbound ∧
      DecodesTo a'.b.stream (storedErrbound a.errbound) l := by
  obtain ⟨a', ws, hcomp, hh, he, hc, hws⟩ := h.compact_isChunk hl hs ext ranges
  exact ⟨a', hcomp, hh, he, hc.decodesTo_qSimple8b (h.stamped.toNat_num hl)
    h.stamped.bytesBits_stream hws⟩

/-! ### Whole runs -/

/-- The calls a head chunk takes. -/
def Admissible (ops : List Op) : Prop :=
  (appended ops).length < 2 ^ 16 ∧ Small (deltaCodes 0 ((appended ops).map Prod.snd))

theorem Admissible.of_append {ops ops' : List Op} (h : Admissible (ops ++ ops')) :
    Admissible ops := by
  obtain ⟨hl, hs⟩ := h
  rw [appended_append, map_append, deltaCodes_append] at hs
  rw [appended_append, length_append] at hl
  exact ⟨by omega, hs.of_append⟩

theorem Head.run (h : Head [] a) (ext : Extern) {ops : List Op} (hops : Admissible ops) :
    ∃ a', Lib.Machine.run (exec ext) a ops = .ok (a', []) ∧ Head (appended ops) a' ∧
      a'.errbound = a.errbound := by
  refine run_invariant (fun ops a' => Head (appended ops) a' ∧ a'.errbound = a.errbound) Admissible
    (fun _ _ => Admissible.of_append) ?_ ⟨h, rfl⟩ hops
  rintro ops (⟨t, q⟩ | ranges) a1 hadm ⟨h1, he1⟩
  · obtain ⟨a2, h2, hh, he2⟩ := h1.append hadm.of_append.2 t q
    exact ⟨a2, by rw [exec, h2]; rfl, by simpa [appended] using hh, he2.trans he1⟩
  · obtain ⟨a2, h2, hh, he2, -⟩ := h1.compact hadm.of_append.1 hadm.of_append.2 ext ranges
    exact ⟨a2, h2, by simpa [appended] using hh, he2.trans he1⟩

/-- **Head-chunk round trip.** After any `Compact` on a new chunk an iterator yields the samples
appended before. The first difference is the one to the 0 that an appender starts with. -/
theorem decodeChunk_after_compact (ext : Extern) (ops pre : List Op) (ranges : Ranges)
    (hpre : pre ++ [.compact ranges] <+: ops) (hlen : (appended ops).length ≤ 65535)
    (hsmall : Small (deltaCodes 0 ((appended ops).map Prod.snd))) :
    ∃ a, run (exec ext) ((appender newCLChunk).setCompressType .qSimple8b)
        (pre ++ [.compact ranges]) = .ok (a, []) ∧
      ∀ order, ∃ samples, decodeChunk ext order a.b.stream = .ok (samples, none) ∧
        samples.map (fun s => (s.t, s.quantizer)) = appended pre := by
  obtain ⟨rest, rfl⟩ := hpre
  have hadm : Admissible pre :=
    Admissible.of_append (Admissible.of_append ⟨Nat.lt_succ_of_le hlen, hsmall⟩)
  obtain ⟨a1, h1, hh1, -⟩ := (head_new boundFits_default).run ext hadm
  obtain ⟨a2, h2, -, -, hd⟩ := hh1.compact hadm.1 hadm.2 ext ranges
  have hstep : exec ext a1 (.compact ranges) = .ok (a2, none) := h2
  exact ⟨a2, run_concat (s := (appender newCLChunk).setCompressType .qSimple8b) h1 hstep,
    hd.quantizers hadm.2.readable ext⟩

/-- Two `Compact` calls around a second sample. -/
theorem decodeChunk_after_compact_two :
    ∃ a, run (exec default) ((appender newCLChunk).setCompressType .qSimple8b)
        ([.append 5 7, .compact default, .append 9 4] ++ [.compact default]) = .ok (a, []) ∧
      ∀ order, ∃ samples, decodeChunk default order a.b.stream = .ok (samples, none) ∧
        samples.map (fun s => (s.t, s.quantizer)) = [(5, 7), (9, 4)] :=
  decodeChunk_after_compact default _ [.append 5 7, .compact default, .append 9 4] default
    prefix_rfl (by simp [appended]) (by decide)

end TopcDB.Chunkenc.HeadChunk
