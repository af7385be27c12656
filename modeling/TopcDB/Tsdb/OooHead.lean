import TopcDB.Chunkenc.BitPackingChunk
import TopcDB.Chunkenc.Chunk
import TopcDB.Lib.Search

/-! # Out-of-order chunks (`OOOChunk`)

Out-of-order samples are kept in a list without compression, in the order of their timestamps; for a
timestamp that is there already nothing is inserted (`Kept`). For a read the samples of a time range
are encoded, floats always with BitPacking. -/

namespace TopcDB.Tsdb.OooHead

open List Lib.Assoc Lib.Search Go.Basic Chunkenc Huffman CLMeta CLChunk Chunk CLIterate CLAppend
open BitPackingChunk

/-- `sample`: a float, unless it carries a histogram. -/
structure OOOSample (H FH : Type) where
  t : I64
  f : ℚ
  h : Option H
  fh : Option FH

structure OOOChunk (H FH : Type) where
  samples : List (OOOSample H FH)
  errbound : ℚ

variable {H FH A FA : Type}

def newOOOChunk : OOOChunk H FH := ⟨[], 0⟩

def newOOOChunkWithErrorBound (errbound : ℚ) : OOOChunk H FH := ⟨[], errbound⟩

/-- `Insert`: whether the sample was inserted, and the chunk afterwards. -/
def OOOChunk.insert (o : OOOChunk H FH) (t : I64) (v : ℚ) (h : Option H) (fh : Option FH) :
    Bool × OOOChunk H FH :=
  let s : OOOSample H FH := ⟨t, v, h, fh⟩
  if o.samples.getLast?.all fun last => last.t.slt t then
    (true, { o with samples := o.samples ++ [s] })
  else
    let i := searchList o.samples fun s => t.sle s.t
    match o.samples[i]? with
    | none => (true, { o with samples := o.samples ++ [s] })
    | some found =>
      if found.t = t then (false, o)
      else (true, { o with samples := o.samples.take i ++ s :: o.samples.drop i })

/-! ### Encoding -/

structure MemChunk (A FA : Type) where
  chunk : AnyChunk A FA
  minTime : I64
  maxTime : I64
  deriving DecidableEq

/-- The variables of the loop. Without an appender the previous encoding is `EncNone`. -/
structure Encoding (A FA : Type) where
  chks : List (MemChunk A FA)
  cmint : I64
  cmaxt : I64
  app : Option (App A FA)

variable (ext : Extern) (ranges : Ranges) (hist : HistogramCodec H A) (fhist : HistogramCodec FH FA)

/-- The open chunk is added to the list. The error of `Compact` is ignored. -/
def Encoding.close (st : Encoding A FA) : Except Fault (List (MemChunk A FA)) :=
  match st.app with
  | none => .ok st.chks
  | some (.cl a) =>
    (a.compact ext ranges).map fun p => st.chks ++ [⟨.cl p.1.b, st.cmint, st.cmaxt⟩]
  | some (.histogram a) => .ok (st.chks ++ [⟨.histogram a, st.cmint, st.cmaxt⟩])
  | some (.floatHistogram a) => .ok (st.chks ++ [⟨.floatHistogram a, st.cmint, st.cmaxt⟩])

/-- A histogram is appended; `prev` is the appender of the sample before, if it is of this kind. -/
def Encoding.appendHistogram {V B : Type} (codec : HistogramCodec V B) (app : B → App A FA)
    (chunk : B → AnyChunk A FA) (prev : Option B) (st : Encoding A FA) (t : I64) (v : V) :
    Except Fault (Encoding A FA) := do
  let (chks, cmint, cur) ← match prev with
    | some a => pure (st.chks, st.cmint, a)
    | none => do pure (← st.close ext ranges, t, codec.new)
  return match codec.append prev cur t v with
    | (a, none) => ⟨chks, cmint, t, some (app a)⟩
    | (_, some (a, true)) => ⟨chks, cmint, t, some (app a)⟩
    | (old, some (a, false)) => ⟨chks ++ [⟨chunk old, cmint, st.cmaxt⟩], t, t, some (app a)⟩

/-- One turn of the loop, for a sample in the time range. -/
def Encoding.step (st : Encoding A FA) (s : OOOSample H FH) : Except Fault (Encoding A FA) :=
  match s.h, s.fh with
  | some h, _ =>
    let prev := match st.app with
      | some (.histogram a) => some a
      | _ => none
    st.appendHistogram ext ranges hist .histogram .histogram prev s.t h
  | none, some fh =>
    let prev := match st.app with
      | some (.floatHistogram a) => some a
      | _ => none
    st.appendHistogram ext ranges fhist .floatHistogram .floatHistogram prev s.t fh
  | none, none => do
    let (chks, cmint, a) ← match st.app with
      | some (.cl a) => pure (st.chks, st.cmint, a)
      | _ => do
        pure (← st.close ext ranges, s.t, (appender newCLChunk).setCompressType .bitPacking)
    let a ← a.append s.t s.f
    return ⟨chks, cmint, s.t, some (.cl a)⟩

def Encoding.loop (mint maxt : I64) : List (OOOSample H FH) → Encoding A FA →
    Except Fault (Encoding A FA)
  | [], st => .ok st
  | s :: samples, st =>
    if s.t.slt mint then loop mint maxt samples st
    else if maxt.slt s.t then .ok st
    else st.step ext ranges hist fhist s >>= loop mint maxt samples

def OOOChunk.toEncodedChunks (o : OOOChunk H FH) (mint maxt : I64) :
    Except Fault (List (MemChunk A FA)) :=
  if o.samples.length = 0 then .ok []
  else Encoding.loop ext ranges hist fhist mint maxt o.samples ⟨[], 0, 0, none⟩ >>=
    Encoding.close ext ranges

/-! ### Insertion -/

variable {o : OOOChunk H FH}

/-- An insertion either finds the timestamp, or puts the sample between those before and those after
it. -/
theorem insert_cases (hs : o.samples.Pairwise fun x y => x.t.toInt < y.t.toInt) (t : I64) (v : ℚ)
    (h : Option H) (fh : Option FH) :
    (o.insert t v h fh = (false, o) ∧ ∃ s ∈ o.samples, s.t = t) ∨
      ∃ l r, o.samples = l ++ r ∧
        o.insert t v h fh = (true, { o with samples := l ++ ⟨t, v, h, fh⟩ :: r }) ∧
        (∀ s ∈ l, s.t.toInt < t.toInt) ∧ ∀ s ∈ r, t.toInt < s.t.toInt := by
  unfold OOOChunk.insert
  split_ifs with hlast
  · -- the list is empty, or ends before the timestamp
    refine .inr ⟨o.samples, [], by simp, rfl, fun s hmem => ?_, by simp⟩
    obtain ⟨l, last, hl⟩ : ∃ l last, o.samples = l ++ [last] :=
      ⟨_, _, (dropLast_append_getLast (ne_nil_of_mem hmem)).symm⟩
    rw [hl] at hs hmem hlast
    rw [getLast?_concat, Option.all_some, BitVec.slt_iff_toInt_lt] at hlast
    rcases mem_append.1 hmem with hm | hm
    · exact ((pairwise_append.1 hs).2.2 s hm last mem_cons_self).trans hlast
    · rwa [mem_singleton.1 hm]
  · set i := searchList o.samples fun s => t.sle s.t with hi
    obtain ⟨hle, hlo, hhi⟩ := searchList_spec (l := o.samples) (p := fun s => t.sle s.t)
      (hs.imp fun {x y} hxy hx => by
        rw [BitVec.sle_iff_toInt_le] at hx ⊢; omega)
    rw [← hi] at hle hlo hhi
    have hbefore : ∀ s ∈ o.samples.take i, s.t.toInt < t.toInt := fun s hmem => by
      have := hlo s hmem
      rw [sle_eq_false] at this; omega
    rcases hget : o.samples[i]? with _ | found
    · simp only [hget]
      refine .inr ⟨o.samples, [], by simp, rfl, fun s hmem => hbefore s ?_, by simp⟩
      rwa [take_of_length_le (getElem?_eq_none_iff.1 hget)]
    · obtain ⟨hlt, hfound⟩ := List.getElem?_eq_some_iff.1 hget
      have hdrop : o.samples.drop i = found :: o.samples.drop (i + 1) := by
        rw [drop_eq_getElem_cons hlt, hfound]
      simp only [hget]
      split_ifs with heq
      · exact .inl ⟨rfl, found, mem_of_getElem? hget, heq⟩
      · refine .inr ⟨_, _, (take_append_drop i o.samples).symm, rfl, hbefore, ?_⟩
        have hge : t.toInt ≤ found.t.toInt := by
          have := hhi found (by rw [hdrop]; exact mem_cons_self)
          rwa [BitVec.sle_iff_toInt_le] at this
        have hgt : t.toInt < found.t.toInt :=
          lt_of_le_of_ne hge fun h0 => heq (BitVec.eq_of_toInt_eq h0.symm)
        have hsd : (o.samples.drop i).Pairwise fun x y => x.t.toInt < y.t.toInt := hs.drop
        rw [hdrop] at hsd ⊢
        rintro s hmem
        rcases mem_cons.1 hmem with rfl | hmem
        · exact hgt
        · exact hgt.trans ((pairwise_cons.1 hsd).1 s hmem)

variable (ins : List (I64 × ℚ))

/-- The value inserted first for a timestamp. -/
def inserted (t : I64) : Option ℚ :=
  (ins.find? fun p => p.1 = t).map Prod.snd

theorem exists_inserted (t : I64) : (∃ v, inserted ins t = some v) ↔ ∃ p ∈ ins, p.1 = t := by
  rw [← Option.isSome_iff_exists, inserted, Option.isSome_map, find?_isSome]
  simp

theorem inserted_concat (t : I64) (v : ℚ) (t' : I64) : inserted (ins ++ [(t, v)]) t' =
      (inserted ins t').or (if t = t' then some v else none) := by
  unfold inserted
  rw [find?_append]
  cases ins.find? fun p => p.1 = t' with
  | some p => rfl
  | none => by_cases h : t = t' <;> simp [h]

/-- The chunk holds the floats inserted so far: ordered by time, one for each timestamp, the one
inserted first. -/
structure Kept (o : OOOChunk H FH) : Prop where
  sorted : o.samples.Pairwise fun x y => x.t.toInt < y.t.toInt
  floats : ∀ s ∈ o.samples, s.h = none ∧ s.fh = none
  mem : ∀ t v, (∃ s ∈ o.samples, s.t = t ∧ s.f = v) ↔ inserted ins t = some v

/-- A float for each call of `Insert`. -/
def insertAll (o : OOOChunk H FH) (ins : List (I64 × ℚ)) : OOOChunk H FH :=
  ins.foldl (fun o p => (o.insert p.1 p.2 none none).2) o

theorem Kept.insert {ins : List (I64 × ℚ)} (h : Kept ins o) (t : I64) (v : ℚ) :
    Kept (ins ++ [(t, v)]) (o.insert t v none none).2 := by
  rcases insert_cases h.sorted t v none none with ⟨heq, s, hmem, hst⟩ | ⟨l, r, ho, heq, hl, hr⟩
  · -- the timestamp is there
    refine heq ▸ ⟨h.sorted, h.floats, fun t' v' => ?_⟩
    rw [h.mem, inserted_concat]
    by_cases ht : t = t'
    · subst ht
      rw [(h.mem t s.f).1 ⟨s, hmem, hst, rfl⟩]; rfl
    · rw [if_neg ht, Option.or_none]
  · have hnew : inserted ins t = none := by
      rcases hins : inserted ins t with _ | w
      · rfl
      · obtain ⟨s, hmem, hst, -⟩ := (h.mem t w).2 hins
        rw [ho] at hmem
        rcases mem_append.1 hmem with hm | hm
        · have := hl s hm; rw [hst] at this; omega
        · have := hr s hm; rw [hst] at this; omega
    have hs := h.sorted
    rw [ho] at hs
    obtain ⟨hsl, hsr, hlr⟩ := pairwise_append.1 hs
    rw [heq]
    refine ⟨pairwise_append.2 ⟨hsl, pairwise_cons.2 ⟨hr, hsr⟩, ?_⟩, ?_, fun t' v' => ?_⟩
    · rintro x hx y hy
      rcases mem_cons.1 hy with rfl | hy
      · exact hl x hx
      · exact hlr x hx y hy
    · rintro s hmem
      rcases mem_append.1 hmem with hm | hm
      · exact h.floats s (ho ▸ mem_append_left _ hm)
      · rcases mem_cons.1 hm with rfl | hm
        · exact ⟨rfl, rfl⟩
        · exact h.floats s (ho ▸ mem_append_right _ hm)
    · have hsplit : (∃ s ∈ l ++ (⟨t, v, none, none⟩ : OOOSample H FH) :: r, s.t = t' ∧ s.f = v') ↔
          (t = t' ∧ v = v') ∨ ∃ s ∈ l ++ r, s.t = t' ∧ s.f = v' := by
        simp only [mem_append, mem_cons, or_and_right, exists_or, exists_eq_left]
        exact or_left_comm
      have hold := h.mem t' v'
      rw [ho] at hold
      rw [hsplit, hold, inserted_concat]
      by_cases ht : t = t'
      · subst ht
        simp [hnew]
      · simp [ht]

theorem kept_insertAll (errbound : ℚ) :
    Kept ins (insertAll (newOOOChunkWithErrorBound errbound : OOOChunk H FH) ins) := by
  induction ins using reverseRecOn with
  | nil => exact ⟨Pairwise.nil, by simp [insertAll, newOOOChunkWithErrorBound],
      by simp [insertAll, newOOOChunkWithErrorBound, inserted]⟩
  | append_singleton ins p ih =>
    rw [insertAll, foldl_append]
    exact ih.insert p.1 p.2

/-! ### Encoding floats -/

def inRange (mint maxt t : I64) : Prop := mint.toInt ≤ t.toInt ∧ t.toInt ≤ maxt.toInt

instance (mint maxt t : I64) : Decidable (inRange mint maxt t) :=
  inferInstanceAs (Decidable (_ ∧ _))

/-- The samples in the range, quantised with the error bound of a new appender. -/
def ranged (mint maxt : I64) (samples : List (OOOSample H FH)) : List (I64 × I64) :=
  (samples.filter fun s => inRange mint maxt s.t).map fun s => (s.t, quantize defaultErrbound s.f)

/-- An appender of `ToEncodedChunks` for floats. -/
structure FloatApp (l : List (I64 × I64)) (a : CLAppender) : Prop where
  buffered : Buffered a 0 l
  ctype : a.ctype = .bitPacking
  errbound : a.errbound = defaultErrbound
  length : a.b.stream.length = clHeaderSize

variable {l : List (I64 × I64)}

theorem FloatApp.append {a : CLAppender} (h : FloatApp l a) (t : I64) (f : ℚ) :
    ∃ a', a.append t f = .ok a' ∧ FloatApp (l ++ [(t, quantize defaultErrbound f)]) a' := by
  obtain ⟨a', h1, hb, hk, hlen, -⟩ :=
    h.buffered.append (by rw [h.ctype]; rfl) t (quantize defaultErrbound f)
  refine ⟨a', ?_, hb, hk.ctype.trans h.ctype, hk.errbound.trans h.errbound, hlen.trans h.length⟩
  rw [append_eq_appendQuantizer (by rw [h.ctype]; rfl), h.errbound, h1]

theorem floatApp_new : FloatApp [] ((appender newCLChunk).setCompressType .bitPacking) :=
  ⟨buffered_new defaultErrbound .bitPacking, rfl, rfl, rfl⟩

variable {mint maxt t : I64} {s : OOOSample H FH}

theorem ranged_cons_of_not (h : ¬ inRange mint maxt s.t) (samples : List (OOOSample H FH)) :
    ranged mint maxt (s :: samples) = ranged mint maxt samples := by
  simp [ranged, h]

theorem ranged_cons (h : inRange mint maxt s.t) (samples : List (OOOSample H FH)) :
    ranged mint maxt (s :: samples) =
      (s.t, quantize defaultErrbound s.f) :: ranged mint maxt samples := by
  simp [ranged, h]

theorem ranged_eq_nil {samples : List (OOOSample H FH)}
    (hs : (s :: samples).Pairwise fun x y => x.t.toInt < y.t.toInt) (h : maxt.toInt < s.t.toInt) :
    ranged mint maxt (s :: samples) = [] := by
  rw [ranged, map_eq_nil_iff, filter_eq_nil_iff]
  intro x hx
  have hle : s.t.toInt ≤ x.t.toInt := by
    rcases mem_cons.1 hx with rfl | hx
    · exact le_rfl
    · exact ((pairwise_cons.1 hs).1 x hx).le
  rw [decide_eq_true_iff, inRange]
  omega

variable (ext : Extern) (ranges : Ranges) (hist : HistogramCodec H A) (fhist : HistogramCodec FH FA)
  (mint maxt : I64)

theorem loop_cons (s : OOOSample H FH) (samples : List (OOOSample H FH)) (st : Encoding A FA) :
    Encoding.loop ext ranges hist fhist mint maxt (s :: samples) st =
      if s.t.toInt < mint.toInt then Encoding.loop ext ranges hist fhist mint maxt samples st
      else if maxt.toInt < s.t.toInt then .ok st
      else st.step ext ranges hist fhist s >>=
        Encoding.loop ext ranges hist fhist mint maxt samples := by
  simp only [Encoding.loop, BitVec.slt_iff_toInt_lt]

/-- The state of the loop after the floats `l`: no chunk yet, or the first one. -/
def Holding (l : List (I64 × I64)) (st : Encoding A FA) : Prop :=
  l = [] ∧ st = ⟨[], 0, 0, none⟩ ∨
    l ≠ [] ∧ ∃ a cmint cmaxt, st = ⟨[], cmint, cmaxt, some (.cl a)⟩ ∧ FloatApp l a

theorem Holding.step {st : Encoding A FA} (h : Holding l st) (hs : s.h = none ∧ s.fh = none) :
    ∃ st', st.step ext ranges hist fhist s = .ok st' ∧
      Holding (l ++ [(s.t, quantize defaultErrbound s.f)]) st' := by
  rcases h with ⟨rfl, rfl⟩ | ⟨-, a, cmint, cmaxt, rfl, h⟩
  · obtain ⟨a', ha, h'⟩ := floatApp_new.append s.t s.f
    refine ⟨_, ?_, .inr ⟨by simp, a', s.t, s.t, rfl, h'⟩⟩
    simp only [Encoding.step, hs, Encoding.close, ha, ok_bind, pure, Except.pure]
  · obtain ⟨a', ha, h'⟩ := h.append s.t s.f
    refine ⟨_, ?_, .inr ⟨by simp, a', cmint, s.t, rfl, h'⟩⟩
    simp only [Encoding.step, hs, ha, ok_bind, pure, Except.pure]

/-- **The loop over floats** appends the samples in the range. -/
theorem Holding.loop : ∀ {samples : List (OOOSample H FH)} {l : List (I64 × I64)}
    {st : Encoding A FA}, Holding l st → samples.Pairwise (fun x y => x.t.toInt < y.t.toInt) →
    (∀ s ∈ samples, s.h = none ∧ s.fh = none) →
    ∃ st', Encoding.loop ext ranges hist fhist mint maxt samples st = .ok st' ∧
      Holding (l ++ ranged mint maxt samples) st'
  | [], l, st, h, _, _ => ⟨st, rfl, by simpa [ranged] using h⟩
  | s :: samples, l, st, h, hs, hf => by
    have hs' := (pairwise_cons.1 hs).2
    obtain ⟨hfs, hf'⟩ := forall_mem_cons.1 hf
    rw [loop_cons]
    split_ifs with hlo hhi
    · rw [ranged_cons_of_not (by unfold inRange; omega)]
      exact h.loop hs' hf'
    · exact ⟨st, rfl, by rwa [ranged_eq_nil hs hhi, append_nil]⟩
    · obtain ⟨st1, h1, hst1⟩ := h.step ext ranges hist fhist hfs
      rw [ranged_cons (by unfold inRange; omega), h1, append_cons]
      exact hst1.loop hs' hf'

/-! ### Decoding the chunks -/

/-- The chunks, decoded one after the other with their own iterators, give the samples `out`. -/
def DecodeTo (ext : Extern) (order : RangeOrder (U64 × I64)) (chks : List (MemChunk A FA))
    (out : List Sample) : Prop :=
  ∃ outs, Forall₂ (fun c o => ∃ b err, c.chunk = .cl b ∧
    decodeChunk ext order b.stream = .ok (o, err)) chks outs ∧ out = outs.flatten

/-- The chunk decodes to nothing. -/
def Blank (c : AnyChunk A FA) : Prop :=
  ∃ b, c = .cl b ∧ ∀ ext order, decodeChunk ext order b.stream = .ok ([], none)

/-- Encoding keeps the inserted samples of a time range: one for each timestamp, in ascending order,
with the value inserted first. -/
def Survives (ext : Extern) (ranges : Ranges) (order : RangeOrder (U64 × I64))
    (hist : HistogramCodec H A) (fhist : HistogramCodec FH FA) (ins : List (I64 × ℚ))
    (mint maxt : I64) : Prop :=
  ∃ chks out, (insertAll newOOOChunk ins).toEncodedChunks ext ranges hist fhist mint maxt =
      .ok chks ∧ DecodeTo ext order chks out ∧
    (out.map fun s => s.t.toInt).Pairwise (· < ·) ∧
    ∀ t q, (∃ s ∈ out, s.t = t ∧ s.quantizer = q) ↔
      inRange mint maxt t ∧ ∃ v, inserted ins t = some v ∧ q = quantize defaultErrbound v

variable {ext : Extern} {ranges : Ranges} {order : RangeOrder (U64 × I64)}
  {hist : HistogramCodec H A} {fhist : HistogramCodec FH FA} {ins : List (I64 × ℚ)}
  {mint maxt : I64}

theorem mem_ranged (h : Kept ins o) (t : I64) :
    (∃ q, (t, q) ∈ ranged mint maxt o.samples) ↔
      inRange mint maxt t ∧ ∃ v, inserted ins t = some v := by
  constructor
  · rintro ⟨q, hmem⟩
    obtain ⟨s, hs, heq⟩ := mem_map.1 hmem
    obtain ⟨hs, hr⟩ := mem_filter.1 hs
    cases heq
    exact ⟨by simpa using hr, s.f, (h.mem _ _).1 ⟨s, hs, rfl, rfl⟩⟩
  · rintro ⟨hr, v, hv⟩
    obtain ⟨s, hs, rfl, rfl⟩ := (h.mem t v).2 hv
    exact ⟨_, mem_map.2 ⟨s, mem_filter.2 ⟨hs, by simpa using hr⟩, rfl⟩⟩

theorem FloatApp.compact {a : CLAppender} (h : FloatApp l a) (hne : l ≠ []) (hl : l.length < 2 ^ 16)
    (ext : Extern) (ranges : Ranges) :
    ∃ a', a.compact ext ranges = .ok (a', none) ∧
      IsChunk a'.b.stream a.num a.errbound .bitPacking a.timestamps.b.stream (packed l) := by
  have hpos := length_packed_pos hne
  obtain ⟨a', h1, -, -, -, hchunk⟩ := Buffered.compact_bitPacking h.buffered hl
    (h.errbound ▸ boundFits_default) h.ctype
    (Or.inr (by rw [h.length, h.buffered.stamped.payloadPtr, clHeaderSize]; omega)) ext ranges
  exact ⟨a', h1, hchunk⟩

/-- The only chunk of floats that are not too many decodes to nothing. -/
theorem decode_floatApp {a a' : CLAppender} {e : Option Err} (h : FloatApp l a) (hne : l ≠ [])
    (hl : l.length < 2 ^ 16) (hc : a.compact ext ranges = .ok (a', e)) (ext' : Extern)
    (order : RangeOrder (U64 × I64)) : decodeChunk ext' order a'.b.stream = .ok ([], none) := by
  obtain ⟨a1, h1, hchunk⟩ := h.compact hne hl ext ranges
  cases h1.symm.trans hc
  exact decodeChunk_bitPacking hne hchunk
    (by simpa using h.buffered.stamped.toNat_num hl)
    h.buffered.stamped.bytesBits_stream ext' order

theorem nodup_ranged (h : Kept ins o) : ((ranged mint maxt o.samples).map Prod.fst).Nodup := by
  have hs : (o.samples.filter fun s => inRange mint maxt s.t).Pairwise
      fun x y => x.t.toInt < y.t.toInt := h.sorted.filter _
  rw [ranged, map_map, Nodup, pairwise_map]
  exact hs.imp fun {x y} hxy heq => by
    have : x.t = y.t := heq
    rw [this] at hxy; omega

theorem not_survives {v : ℚ} (hr : inRange mint maxt t) (hv : inserted ins t = some v) :
    ¬ Survives ext ranges order hist fhist ins mint maxt := by
  rintro ⟨chks, out, henc, ⟨outs, hout, rfl⟩, hsorted, hall⟩
  have hk : Kept ins (insertAll (newOOOChunk : OOOChunk H FH) ins) := kept_insertAll ins 0
  set o := insertAll (newOOOChunk : OOOChunk H FH) ins
  obtain ⟨q, hq⟩ := (mem_ranged hk t).2 ⟨hr, v, hv⟩
  have hne : o.samples.length ≠ 0 := by
    obtain ⟨s, hs, -⟩ := (hk.mem t v).2 hv
    exact (length_pos_of_mem hs).ne'
  obtain ⟨st, hloop, ⟨hnil, -⟩ | ⟨hne', a, cmint, cmaxt, rfl, hfa⟩⟩ :=
    Holding.loop ext ranges hist fhist mint maxt (.inl ⟨rfl, rfl⟩) hk.sorted hk.floats
  · rw [nil_append] at hnil
    simp [hnil] at hq
  · rw [OOOChunk.toEncodedChunks, if_neg hne, hloop] at henc
    rcases hc : a.compact ext ranges with fault | ⟨a', e⟩
    · simp [ok_bind, Encoding.close, hc, Except.map] at henc
    · simp only [ok_bind, Encoding.close, hc, Except.map, Except.ok.injEq,
        nil_append] at henc
      subst henc
      obtain ⟨o1, os, ⟨b, err, hb, hdec⟩, hnil, rfl⟩ := forall₂_cons_left_iff.1 hout
      obtain rfl : a'.b = b := by simpa using hb
      obtain rfl : os = [] := by simpa using hnil
      rw [flatten_cons, flatten_nil, append_nil] at hsorted hall
      rcases Nat.lt_or_ge (ranged mint maxt o.samples).length (2 ^ 16) with hl | hl
      · rw [decode_floatApp hfa hne' hl hc ext order] at hdec
        obtain ⟨rfl, -⟩ : [] = o1 ∧ none = err := by simpa using hdec
        obtain ⟨s, hs, -⟩ := (hall t _).2 ⟨hr, v, hv, rfl⟩
        simp at hs
      · -- the counter is too small for so many samples
        have hsub : ((ranged mint maxt o.samples).map Prod.fst).Subperm (o1.map Sample.t) := by
          refine subperm_of_subset (nodup_ranged hk) fun t' ht' => ?_
          obtain ⟨p, hp, rfl⟩ := mem_map.1 ht'
          obtain ⟨hr', v', hv'⟩ := (mem_ranged hk p.1).1 ⟨p.2, hp⟩
          obtain ⟨s, hs, hst, -⟩ := (hall p.1 _).2 ⟨hr', v', hv', rfl⟩
          exact mem_map.2 ⟨s, hs, hst⟩
        have := hsub.length_le
        have := length_decodeChunk hdec
        simp only [length_map] at *
        omega

theorem survives_of_empty (h : ∀ t v, inserted ins t = some v → ¬ inRange mint maxt t) :
    Survives ext ranges order hist fhist ins mint maxt := by
  have hk : Kept ins (insertAll (newOOOChunk : OOOChunk H FH) ins) := kept_insertAll ins 0
  refine ⟨[], [], ?_, ⟨[], Forall₂.nil, rfl⟩, Pairwise.nil, fun t q => ?_⟩
  · rw [OOOChunk.toEncodedChunks]
    split_ifs with h0
    · rfl
    · obtain ⟨st, hloop, ⟨-, rfl⟩ | ⟨hne, -⟩⟩ :=
        Holding.loop ext ranges hist fhist mint maxt (.inl ⟨rfl, rfl⟩) hk.sorted hk.floats
      · rw [hloop]; rfl
      · obtain ⟨p, hp⟩ := exists_mem_of_ne_nil _ hne
        obtain ⟨hr, v, hv⟩ := (mem_ranged hk p.1).1 ⟨p.2, hp⟩
        exact absurd hr (h p.1 v hv)
  · constructor
    · rintro ⟨s, hs, -⟩
      simp at hs
    · rintro ⟨hr, v, hv, -⟩
      exact absurd hr (h t v hv)

/-- **Out-of-order samples survive encoding** only when there are none in the range: the iterator of
a BitPacking chunk ends at once. -/
theorem survives_iff : Survives ext ranges order hist fhist ins mint maxt ↔
    ∀ p ∈ ins, ¬ inRange mint maxt p.1 := by
  constructor
  · intro hs p hp hr
    obtain ⟨v, hv⟩ := (exists_inserted ins p.1).2 ⟨p, hp, rfl⟩
    exact not_survives hr hv hs
  · intro h
    refine survives_of_empty fun t v hv hr => ?_
    obtain ⟨p, hp, rfl⟩ := (exists_inserted ins t).1 ⟨v, hv⟩
    exact h p hp hr

/-- One float in the range: the chunk holds it, and its iterator yields nothing. -/
theorem not_survives_one :
    (insertAll newOOOChunk [(1000, 1)] : OOOChunk Unit Unit).toEncodedChunks default default
        (default : HistogramCodec Unit Unit) (default : HistogramCodec Unit Unit) 0 2000 =
      .ok [⟨.cl ⟨[0, 1, 0, 0, 0, 14, 32, 0, 39, 16, 0, 0, 208, 15, 27, 32], 0⟩, 1000, 1000⟩] ∧
    decodeChunk default default [0, 1, 0, 0, 0, 14, 32, 0, 39, 16, 0, 0, 208, 15, 27, 32] =
      .ok ([], none) ∧
    ¬ Survives default default default (default : HistogramCodec Unit Unit)
      (default : HistogramCodec Unit Unit) [(1000, 1)] 0 2000 :=
  ⟨by decide +kernel, by decide +kernel, not_survives (t := 1000) (v := 1) (by decide) (by decide)⟩

end TopcDB.Tsdb.OooHead
