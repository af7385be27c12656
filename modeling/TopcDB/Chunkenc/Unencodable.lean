import TopcDB.Chunkenc.HeadChunk
import TopcDB.Chunkenc.HuffmanChunk

/-! # Values that cannot be encoded

The appenders count a sample before they know whether it can be encoded. A QSimple8b `Compact` then
returns an error, but the counter has gone on, and a Huffman `Compact` panics; a Huffman table may
also hold codes that no iterator reads back. `Codable` says which samples a chunk takes. -/

namespace TopcDB.Chunkenc.Unencodable

open List Lib.Bits Lib.Assoc Lib.Machine Go.Basic Zigzag Simple8bStream Huffman CLMeta CLChunk
open CLIterate CLAppend HeadChunk HuffmanChunk CLAppender

/-- The lists of samples that a codec encodes. -/
def Codable : CompressType → List (I64 × I64) → Prop
  | .qSimple8b, l => l.length ≤ 65535 ∧ Small (deltaCodes 0 (l.map Prod.snd))
  | .huffman, l => l.length ≤ 65535 ∧ l ≠ [] ∧ Dense (deltaCodes 0 (l.map Prod.snd)) ∧
      ∀ c ∈ deltaCodes 0 (l.map Prod.snd), Readable c
  | _, _ => False

/-- After one `Compact` on a new chunk the chunk has the samples, or there is an error and it has
none. -/
def Uncorrupted (ext : Extern) (order : RangeOrder (U64 × I64)) (ranges : Ranges)
    (ctype : CompressType) (l : List (I64 × I64)) : Prop :=
  ∃ a es, run (exec ext) ((appender newCLChunk).setCompressType ctype)
      (appends l ++ [.compact ranges]) = .ok (a, es) ∧
    Stores ext order a.b.stream (if es = [] then l else [])

/-! ### A chunk without a header -/

/-- A QSimple8b appender on a new chunk has got the samples `l`, in range or not. -/
structure Fed (l : List (I64 × I64)) (a : CLAppender) : Prop where
  ctype : a.ctype = .qSimple8b
  v : a.v = (l.map Prod.snd).getLastD 0
  encoder : a.encoder = newSimple8bEncoder.writeAll (deltaCodes 0 (l.map Prod.snd))
  length : a.b.stream.length = 12
  zeros : a.b.stream.drop 2 = List.replicate 10 0#8

theorem fed_new : Fed [] ((appender newCLChunk).setCompressType .qSimple8b) :=
  ⟨rfl, rfl, rfl, rfl, rfl⟩

variable {a a' a0 : CLAppender} {l : List (I64 × I64)} {ext : Extern}
  {order : RangeOrder (U64 × I64)} {ranges : Ranges}

theorem Fed.append (h : Fed l a) (t q : I64) :
    ∃ a', a.appendQuantizer t q = .ok a' ∧ Fed (l ++ [(t, q)]) a' := by
  have hlen := h.length
  rw [appendQuantizer, stamp, if_neg (by omega)]
  refine ⟨_, rfl, ?_⟩
  simp only [pushDelta, h.ctype]
  refine ⟨rfl, by simp, ?_, ?_, ?_⟩
  · simp only [h.encoder, h.v, map_append, deltaCodes_append, Simple8bEncoder.writeAll,
      foldl_append]
    rfl
  · simp only [length_append, length_beBytes, length_drop, hlen]
  · simp only [drop_left' (length_beBytes _ _), h.zeros]

theorem Fed.run_appends (h : Fed l a) (ext : Extern) (l' : List (I64 × I64)) :
    ∃ a', run (exec ext) a (appends l') = .ok (a', []) ∧ Fed (l ++ l') a' :=
  CLAppend.run_appends (P := fun a l => Fed l a) (fun _ _ t q h => h.append t q) ext l' h

/-- A chunk whose header was never written does not decode. -/
theorem decodeChunk_headless {s : List Byte} (hlen : s.length = 12)
    (hzeros : s.drop 2 = List.replicate 10 0#8) :
    CLChunk.decodeChunk ext order s = .error .panic := by
  rcases s with _ | ⟨x, _ | ⟨y, s⟩⟩
  · simp at hlen
  · simp at hlen
  · rw [drop_succ_cons, drop_succ_cons, drop_zero] at hzeros
    subst hzeros
    have hm : readCLMeta (x :: y :: List.replicate 10 0#8) =
        .ok ⟨BitVec.ofNat 16 (beNat [x, y]), 0, (0 : ℕ) / 1000000, some .simplebits⟩ := by
      simp [readCLMeta, beNat, List.replicate, CompressType.ofCode]
    simp only [CLChunk.decodeChunk, reset, hm, ok_bind, openDecoder]
    rfl

theorem Fed.compact_error (h : Fed l a) (hs : ¬ Small (deltaCodes 0 (l.map Prod.snd))) :
    ∃ a' err, a.compact ext ranges = .ok (a', some err) ∧ a'.b = a.b := by
  simp only [CLIterate.Small, not_forall, not_lt] at hs
  obtain ⟨x, hx, hl⟩ := hs
  obtain ⟨err, he⟩ := getBytes_writeAll_error hx hl
  rw [← h.encoder] at he
  refine ⟨{ a with encoder := a.encoder.getBytes.1 }, err, ?_, rfl⟩
  simp only [compact, prepare, h.ctype, he]

/-- `Compact` of values in range may panic, but it returns no error. -/
theorem Fed.compact_ok (h : Fed l a) (hs : Small (deltaCodes 0 (l.map Prod.snd)))
    {err : Option Err} (hc : a.compact ext ranges = .ok (a', err)) :
    err = none := by
  obtain ⟨ws, hw, -⟩ := getBytes_writeAll hs
  rw [← h.encoder] at hw
  simp only [compact, prepare, h.ctype, hw, payload] at hc
  obtain ⟨a1, -, heq⟩ := map_eq_ok hc
  exact (Prod.mk.inj heq).2.symm

/-! ### One `Compact` -/

theorem stores_of_decodesTo {e : ℚ} (h : Stamped a 0 (l.map Prod.fst)) (hl : l.length ≤ 65535)
    (hd : DecodesTo a.b.stream e l) (hr : ∀ c ∈ deltaCodes 0 (l.map Prod.snd), Readable c) :
    Stores ext order a.b.stream l := by
  refine ⟨?_, hd.quantizers hr ext order⟩
  rw [h.counter, Nat.zero_add, length_map, Nat.mod_eq_of_lt (by omega)]

theorem compact_head (h : Head l a) (hc : Codable .qSimple8b l) :
    ∃ a', a.compact ext ranges = .ok (a', none) ∧ Head l a' ∧ Stores ext order a'.b.stream l := by
  obtain ⟨hl, hs⟩ := hc
  obtain ⟨a', hcomp, hh, -, hd⟩ := h.compact (by omega) hs ext ranges
  exact ⟨a', hcomp, hh, stores_of_decodesTo hh.stamped hl hd hs.readable⟩

theorem compact_huffman (order : RangeOrder (U64 × I64)) (h : Buffered a 0 l)
    (he : BoundFits a.errbound) (ht : a.ctype = .huffman) (hc : Codable .huffman l) :
    ∃ a', a.compact ext ranges = .ok (a', none) ∧ Buffered a' 0 l ∧ Keeps a a' ∧
      Stores ext order a'.b.stream l := by
  obtain ⟨hl, hne, hd, hr⟩ := hc
  obtain ⟨a', hcomp, hb, hk, hdec, -⟩ :=
    Buffered.compact_huffman h (by omega) he ht hne hd ext ranges
  exact ⟨a', hcomp, hb, hk, stores_of_decodesTo hb.stamped hl hdec hr⟩

theorem compact_of_run {es : List Err} (hrun : run (exec ext) a0 (appends l) = .ok (a, []))
    (h : run (exec ext) a0 (appends l ++ [.compact ranges]) = .ok (a', es)) :
    ∃ err, a.compact ext ranges = .ok (a', err) ∧ es = err.toList := by
  rw [run_append hrun] at h
  obtain ⟨⟨a1, es1⟩, h1, heq⟩ := map_eq_ok h
  obtain ⟨a2, err, es2, hc, hnil, rfl⟩ := run_cons_eq_ok h1
  cases hnil
  cases heq
  exact ⟨err, hc, by simp⟩

theorem uncorrupted_qSimple8b :
    Uncorrupted ext order ranges .qSimple8b l ↔ Codable .qSimple8b l := by
  obtain ⟨a, hrun, hf⟩ := fed_new.run_appends ext l
  rw [nil_append] at hf
  constructor
  · rintro ⟨a', es, hrun', hst⟩
    obtain ⟨err, hcomp, rfl⟩ := compact_of_run hrun hrun'
    by_cases hs : Small (deltaCodes 0 (l.map Prod.snd))
    · obtain rfl := hf.compact_ok hs hcomp
      rw [Option.toList_none, if_pos rfl] at hst
      exact ⟨Nat.le_of_lt_succ hst.length_lt, hs⟩
    · -- the header was never written
      obtain ⟨a1, err1, h1, hb⟩ := hf.compact_error hs
      cases h1.symm.trans hcomp
      obtain ⟨-, samples, hdec, -⟩ := hst
      rw [hb, decodeChunk_headless hf.length hf.zeros] at hdec
      cases hdec
  · intro hc
    have hadm : Admissible (appends l) := by
      rw [Admissible, appended_appends]
      exact ⟨Nat.lt_succ_of_le hc.1, hc.2⟩
    obtain ⟨a1, h1, hh, -⟩ := (head_new boundFits_default).run ext hadm
    rw [appended_appends] at hh
    obtain ⟨a2, h2, -, hst⟩ := compact_head hh hc
    exact ⟨a2, [], run_concat (i := Op.compact ranges) h1 h2, by rwa [if_pos rfl]⟩

theorem uncorrupted_huffman :
    Uncorrupted ext order ranges .huffman l ↔ Codable .huffman l := by
  obtain ⟨a, hrun, hb, hk, -⟩ := (buffered_new defaultErrbound .huffman).run_appends ext l rfl
  have ht : a.ctype = .huffman := hk.ctype
  have he : BoundFits a.errbound := hk.errbound ▸ boundFits_default
  constructor
  · rintro ⟨a', es, hrun', hst⟩
    obtain ⟨err, hcomp, rfl⟩ := compact_of_run hrun hrun'
    have hd := Buffered.dense_of_compact hb ht hcomp
    obtain rfl : err = none := by
      simp only [compact, prepare, ht] at hcomp
      obtain ⟨a1, -, heq⟩ := map_eq_ok hcomp
      exact (Prod.mk.inj heq).2.symm
    rw [Option.toList_none, if_pos rfl] at hst
    have hlen := hst.length_lt
    obtain ⟨a1, h1, -, -, hdec, -⟩ := Buffered.compact_huffman hb hlen he ht hd.1 hd.2 ext ranges
    cases h1.symm.trans hcomp
    obtain ⟨-, samples, hsamples, hmap⟩ := hst
    cases (hdec ext order).symm.trans hsamples
    exact ⟨Nat.le_of_lt_succ hlen, hd.1, hd.2, readable_of_map_samplesOf _ hmap⟩
  · intro hc
    obtain ⟨a2, h2, -, -, hst⟩ := compact_huffman order hb he ht hc
    exact ⟨a2, [], run_concat (i := Op.compact ranges) hrun h2, by rwa [if_pos rfl]⟩

/-! ### Whole runs -/

/-- Every `Compact` of a sequence of calls finds samples that can be encoded. -/
def AllCodable (ctype : CompressType) (ops : List Op) : Prop :=
  ∀ pre ranges, pre ++ [.compact ranges] <+: ops → Codable ctype (appended pre)

variable {ctype : CompressType} {ops ops' : List Op}

theorem AllCodable.of_append (h : AllCodable ctype (ops ++ ops')) : AllCodable ctype ops :=
  fun pre ranges hp => h pre ranges (hp.trans (prefix_append _ _))

theorem AllCodable.last (h : AllCodable ctype (ops ++ [.compact ranges])) :
    Codable ctype (appended ops) :=
  h ops ranges prefix_rfl

/-- A Huffman appender on a new chunk has got the samples `l`. -/
structure Feeding (l : List (I64 × I64)) (a : CLAppender) : Prop where
  buffered : Buffered a 0 l
  ctype : a.ctype = .huffman
  fits : BoundFits a.errbound

theorem feeding_run (h : AllCodable .huffman ops) :
    ∃ a, run (exec ext) ((appender newCLChunk).setCompressType .huffman) ops = .ok (a, []) ∧
      Feeding (appended ops) a := by
  refine run_invariant (fun ops a => Feeding (appended ops) a) (AllCodable .huffman)
    (fun _ _ => AllCodable.of_append) ?_
    ⟨buffered_new defaultErrbound .huffman, rfl, boundFits_default⟩ h
  rintro ops (⟨t, q⟩ | ranges) a hadm ⟨hb, ht, he⟩
  · obtain ⟨a', h1, hb', hk, -⟩ := hb.append (by rw [ht]; rfl) t q
    exact ⟨a', by rw [exec, h1]; rfl, by simpa [appended] using hb', hk.ctype.trans ht,
      hk.errbound ▸ he⟩
  · obtain ⟨a', h1, hb', hk, -⟩ := compact_huffman default hb he ht hadm.last
    exact ⟨a', h1, by simpa [appended] using hb', hk.ctype.trans ht, hk.errbound ▸ he⟩

/-- **Only samples that can be encoded leave a chunk intact**, and they do in every run. -/
theorem uncorrupted_iff (ext : Extern) (order : RangeOrder (U64 × I64)) (ranges : Ranges)
    {ctype : CompressType} (hc : ctype = .qSimple8b ∨ ctype = .huffman) :
    (∀ l, Uncorrupted ext order ranges ctype l ↔ Codable ctype l) ∧
    ∀ ops, AllCodable ctype (ops ++ [.compact ranges]) →
      ∃ a, run (exec ext) ((appender newCLChunk).setCompressType ctype) (ops ++ [.compact ranges]) =
          .ok (a, []) ∧ Stores ext order a.b.stream (appended ops) := by
  rcases hc with rfl | rfl
  · refine ⟨fun l => uncorrupted_qSimple8b, fun ops hall => ?_⟩
    obtain ⟨hl, hs⟩ := hall.last
    obtain ⟨a, h1, hh, -⟩ := (head_new boundFits_default).run ext ⟨Nat.lt_succ_of_le hl, hs⟩
    obtain ⟨a', h2, -, hst⟩ := compact_head hh ⟨hl, hs⟩
    exact ⟨a', run_concat (i := Op.compact ranges) h1 h2, hst⟩
  · refine ⟨fun l => uncorrupted_huffman, fun ops hall => ?_⟩
    obtain ⟨a, h1, hb, ht, he⟩ := feeding_run hall.of_append
    obtain ⟨a', h2, -, -, hst⟩ := compact_huffman order hb he ht hall.last
    exact ⟨a', run_concat (i := Op.compact ranges) h1 h2, hst⟩

theorem uncorrupted_iff_huffman :
    (∀ l, Uncorrupted default default default .huffman l ↔ Codable .huffman l) ∧
    ∀ ops, AllCodable .huffman (ops ++ [.compact default]) →
      ∃ a, run (exec default) ((appender newCLChunk).setCompressType .huffman)
          (ops ++ [.compact default]) = .ok (a, []) ∧
        Stores default default a.b.stream (appended ops) :=
  uncorrupted_iff default default default (Or.inr rfl)

/-- The code of the value `2 ^ 59` is `2 ^ 60`. -/
theorem not_uncorrupted_large :
    ¬ Uncorrupted default default default .qSimple8b [(0, 576460752303423488)] ∧
      ¬ Uncorrupted default default default .huffman [(0, 576460752303423488)] := by
  have hcode : deltaCodes 0 [(576460752303423488 : I64)] = [1152921504606846976] := by decide
  constructor
  · rw [uncorrupted_qSimple8b]
    rintro ⟨-, hs⟩
    exact absurd hs (by decide)
  · rw [uncorrupted_huffman]
    rintro ⟨-, -, hd, -⟩
    rw [map_singleton, hcode] at hd
    rcases hd _ mem_cons_self with hlt | ⟨c, hc, hlt, -⟩
    · exact absurd hlt (by decide)
    · rw [mem_singleton.1 hc] at hlt
      exact absurd hlt (lt_irrefl _)

end TopcDB.Chunkenc.Unencodable
