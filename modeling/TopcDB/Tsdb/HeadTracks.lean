import TopcDB.Chunkenc.ErrorBound
import TopcDB.Tsdb.HeadSeries
import Mathlib.Data.List.Flatten

/-! # What the chunks of a head series hold

`Tracks` ties a series that gets only floats to the samples of its chunks: m-mapped chunks are
complete, all head chunks but the newest have been compacted since their last sample, and the newest
one has its samples in the appender of the series, from which every read writes them out. One lemma
for every operation says what becomes of them. -/

namespace TopcDB.Tsdb.HeadTracks

open Int List Lib.Assoc Lib.Bits Lib.Segments Go.Basic Chunkenc CLMeta CLChunk Chunk Huffman
open CLIterate CLAppend HeadChunk ErrorBound HeadSeries MemSeries
open Storage.Merge (minInt64 toInt_minInt64 minInt64_le)
open Storage.Series (maxInt64)

variable {F H FH A FA : Type} {E : Env F H FH A FA}

/-! ### One chunk -/

/-- A sample as a head chunk keeps it: with the default error bound. -/
def coded (E : Env F H FH A FA) (x : I64 × F) : I64 × I64 :=
  (x.1, quantize defaultErrbound (E.value x.2))

/-- The quantised value is in the range within which all differences can be encoded. -/
def Fits (E : Env F H FH A FA) (v : F) : Prop :=
  -2 ^ 58 < (quantize defaultErrbound (E.value v)).toInt ∧
    (quantize defaultErrbound (E.value v)).toInt ≤ 2 ^ 58

instance (E : Env F H FH A FA) (v : F) : Decidable (Fits E v) :=
  inferInstanceAs (Decidable (_ ∧ _))

/-- The appender has got the samples `l`, few enough for the counter of the chunk. -/
structure Writes (E : Env F H FH A FA) (a : App A FA) (l : List (I64 × F)) : Prop where
  head : ∃ b, a = .cl b ∧ Head (l.map (coded E)) b ∧ b.errbound = defaultErrbound
  length : l.length < 2 ^ 16
  fits : ∀ x ∈ l, Fits E x.2

/-- The chunk decodes to the samples `l`, with the values of their codes. -/
def Sealed (E : Env F H FH A FA) (c : AnyChunk A FA) (l : List (I64 × F)) : Prop :=
  ∃ b, c = .cl b ∧ ∀ ext order, decodeChunk ext order b.stream =
    .ok (l.map fun x => sampleAt defaultErrbound (coded E x), none)

variable {a : App A FA} {l : List (I64 × F)}

theorem fits_coded (h : ∀ x ∈ l, Fits E x.2) :
    ∀ q ∈ (l.map (coded E)).map Prod.snd, -2 ^ 58 < q.toInt ∧ q.toInt ≤ 2 ^ 58 :=
  forall_mem_map.2 (forall_mem_map.2 h)

theorem small_coded (h : ∀ x ∈ l, Fits E x.2) :
    Small (deltaCodes 0 ((l.map (coded E)).map Prod.snd)) := by
  have hfits : ∀ q ∈ (0 : I64) :: (l.map (coded E)).map Prod.snd,
      -2 ^ 58 < q.toInt ∧ q.toInt ≤ 2 ^ 58 :=
    forall_mem_cons.2 ⟨by decide, fits_coded h⟩
  refine small_deltaCodes (fun q hq => abs_le.2 ⟨(hfits q hq).1.le, (hfits q hq).2⟩) ?_
  -- no value is at the lower end of the range
  refine Pairwise.isChain (Pairwise.imp_of_mem (R := fun _ _ => True) ?_ ?_)
  · rintro x y hx - - ⟨he, -⟩
    exact absurd he (hfits x hx).1.ne'
  · exact pairwise_of_forall fun _ _ => trivial

theorem writes_new : Writes E (.cl ((appender newCLChunk).setCompressType .qSimple8b)) [] where
  head := ⟨_, rfl, head_new boundFits_default, rfl⟩
  length := by simp
  fits := by simp

theorem samples_coded (h : ∀ x ∈ l, Fits E x.2) {stream : List Byte}
    (hd : DecodesTo stream (storedErrbound defaultErrbound) (l.map (coded E)))
    (ext : Extern) (order : RangeOrder (U64 × I64)) :
    decodeChunk ext order stream =
      .ok (l.map fun x => sampleAt defaultErrbound (coded E x), none) := by
  have hbound : storedErrbound defaultErrbound = defaultErrbound := by decide +kernel
  rw [hd, hbound, samplesOf_new _ fun q hq => abs_le.2 ⟨(fits_coded h q hq).1.le,
    (fits_coded h q hq).2⟩, map_map]
  rfl

theorem Writes.compact (h : Writes E a l) (ranges : Ranges) :
    ∃ b b', a = .cl b ∧ b.compact E.ext ranges = .ok (b', none) ∧ Writes E (.cl b') l ∧
      Sealed E (.cl b'.b : AnyChunk A FA) l := by
  obtain ⟨b, rfl, hb, he⟩ := h.head
  obtain ⟨b', hc, hb', he', hd⟩ := hb.compact (by rw [length_map]; exact h.length)
    (small_coded h.fits) E.ext ranges
  exact ⟨b, b', rfl, hc, ⟨⟨b', rfl, hb', he'.trans he⟩, h.length, h.fits⟩, b'.b, rfl,
    samples_coded h.fits (he ▸ hd)⟩

variable {t w mint : I64}

theorem Writes.append (h : Writes E a l) (hl : l.length + 1 < 2 ^ 16) {v : F} (hv : Fits E v) :
    ∃ b b', a = .cl b ∧ b.append t (E.value v) = .ok b' ∧
      Writes E (.cl b') (l ++ [(t, v)]) := by
  obtain ⟨b, rfl, hb, he⟩ := h.head
  obtain ⟨b', ha, hb', he'⟩ := hb.append (small_coded h.fits) t
    (quantize defaultErrbound (E.value v))
  refine ⟨b, b', rfl, ?_, ⟨b', rfl, ?_, he'.trans he⟩, ?_, ?_⟩
  · rw [append_eq_appendQuantizer (by rw [hb.ctype]; rfl), he, ha]
  · simpa [coded] using hb'
  · rw [length_append, length_singleton]; exact hl
  · intro x hx
    rcases mem_append.1 hx with hx | hx
    · exact h.fits x hx
    · rw [mem_singleton.1 hx]; exact hv

theorem Writes.num {b : CLAppender} (h : Writes E (.cl b : App A FA) l) :
    b.num.toNat = l.length := by
  obtain ⟨b', he, hb, -⟩ := h.head
  obtain rfl := App.cl.inj he
  simpa using hb.stamped.toNat_num (by rw [length_map]; exact h.length)

/-! ### All chunks of a series -/

/-- The time of the last sample, as `maxTime` has it. -/
def lastTime (l : List (I64 × F)) : I64 := (l.getLast?.map Prod.fst).getD minInt64

theorem lastTime_concat (l : List (I64 × F)) (x : I64 × F) : lastTime (l ++ [x]) = x.1 := by
  simp [lastTime]

/-- The chunks `cs` and their samples `ls`: the cell of each chunk has `P` of its samples. -/
def InCells (cells : List (App A FA)) (P : App A FA → List (I64 × F) → Prop) :
    List MemChunk → List (List (I64 × F)) → Prop :=
  Forall₂ fun c l => ∃ a, cells[c.chunk]? = some a ∧ P a l

/-- The chunks of the series and their samples: `mm` for the m-mapped ones, oldest first, `hd` for
the head chunks, newest first; the newest may be empty. -/
structure Tracks (E : Env F H FH A FA) (s : MemSeries F H FH A FA) (mapper : Mapper A FA)
    (mm hd : List (List (I64 × F))) : Prop where
  mapped : Forall₂ (fun m l => (∃ b, mapper[m.ref]? = some b ∧ Sealed E b l) ∧
    m.maxTime = lastTime l) s.mmappedChunks mm
  head : InCells s.cells (Writes E) s.headChunks hd
  times : Forall₂ (fun c l => c.maxTime = lastTime l) s.headChunks hd
  closed : InCells s.cells (fun a l => Sealed E a.chunk l) s.headChunks.tail hd.tail
  nodup : (s.headChunks.map MemChunk.chunk).Nodup
  app : ∀ c ∈ s.headChunks.head?, s.app = some c.chunk
  stale : ∀ i, s.app = some i → ∃ a l, s.cells[i]? = some a ∧ Writes E a l
  full : ∀ l ∈ mm ++ hd.tail, l ≠ []
  ascends : (mm ++ hd.reverse).flatten.Pairwise fun x y => x.1.toInt < y.1.toInt
  last : ∀ l ∈ hd.head?, ∀ x ∈ l.getLast?, s.lastValue = x.2 ∧ s.lastHistogramValue = none ∧
    s.lastFloatHistogramValue = none

theorem tracks_new (ref : ℕ) (zero : F) :
    Tracks E (newMemSeries ref zero) ([] : Mapper A FA) [] [] := by
  constructor <;> simp [newMemSeries, InCells]

variable {s s' : MemSeries F H FH A FA} {mapper : Mapper A FA} {mm hd : List (List (I64 × F))}

variable {P : App A FA → List (I64 × F) → Prop} {cells : List (App A FA)} {cs : List MemChunk}
  {ls : List (List (I64 × F))}

theorem InCells.lt (h : InCells cells P cs ls) : ∀ c ∈ cs, c.chunk < cells.length := by
  induction h with
  | nil => simp
  | cons hc _ ih =>
    obtain ⟨a, ha, -⟩ := hc
    exact List.forall_mem_cons.2 ⟨(List.getElem?_eq_some_iff.1 ha).1, ih⟩

theorem InCells.mono {cells' : List (App A FA)} (h : InCells cells P cs ls)
    (hc : ∀ c ∈ cs, ∀ a, cells[c.chunk]? = some a → cells'[c.chunk]? = some a) :
    InCells cells' P cs ls := by
  induction h with
  | nil => exact .nil
  | cons h0 _ ih =>
    rw [forall_mem_cons] at hc
    obtain ⟨a, ha, hp⟩ := h0
    exact .cons ⟨a, hc.1 a ha, hp⟩ (ih hc.2)

theorem InCells.set (h : InCells cells P cs ls) {i : ℕ} (hi : ∀ c ∈ cs, c.chunk ≠ i)
    (x : App A FA) : InCells (cells.set i x) P cs ls :=
  h.mono fun c hc a ha => by rw [getElem?_set_ne (hi c hc).symm, ha]

theorem InCells.append (h : InCells cells P cs ls) (xs : List (App A FA)) :
    InCells (cells ++ xs) P cs ls :=
  h.mono fun c _ a ha => by
    rw [List.getElem?_append_left (List.getElem?_eq_some_iff.1 ha).1, ha]

theorem InCells.tail (h : InCells cells P cs ls) : InCells cells P cs.tail ls.tail := by
  cases h with
  | nil => exact .nil
  | cons _ h => exact h

theorem InCells.set_newest (h : InCells cells P cs ls) {c : MemChunk}
    (hnd : ((c :: cs).map MemChunk.chunk).Nodup) (hc : c.chunk < cells.length) {x : App A FA}
    (hx : P x l) :
    InCells (cells.set c.chunk x) P (c :: cs) (l :: ls) := by
  rw [map_cons, nodup_cons] at hnd
  refine .cons ⟨x, getElem?_set_self hc, hx⟩ (h.set (fun d hd he => hnd.1 ?_) x)
  rw [← he]
  exact mem_map_of_mem hd

variable {ls pre post : List (List (I64 × F))} {cs : List MemChunk} {c : MemChunk}

/-- The series after a cut; `cells` are those of the chunks before. -/
def cutSeries (s : MemSeries F H FH A FA) (cells : List (App A FA)) (mint w : I64) :
    MemSeries F H FH A FA :=
  { s with
    headChunks := ⟨s.cells.length, mint, minInt64⟩ :: s.headChunks
    cells := cells ++ [.cl ((appender newCLChunk).setCompressType .qSimple8b)]
    nextAt := rangeForTimestamp mint w
    app := some s.cells.length }

/-- The chunks keep their numbers. -/
structure SameIds (s s' : MemSeries F H FH A FA) : Prop where
  ref : s'.ref = s.ref
  firstChunkID : s'.firstChunkID = s.firstChunkID

/-! ### M-mapping -/

/-- The samples of m-mapped chunks, as `Tracks` has them. -/
def Mapped (E : Env F H FH A FA) (mapper : Mapper A FA) (m : MmappedChunk) (l : List (I64 × F)) :
    Prop :=
  (∃ b, mapper[m.ref]? = some b ∧ Sealed E b l) ∧ m.maxTime = lastTime l

theorem Mapped.append {m : MmappedChunk} (h : Mapped E mapper m l) (bs : List (AnyChunk A FA)) :
    Mapped E (mapper ++ bs) m l := by
  obtain ⟨⟨b, hget, hb⟩, hmax⟩ := h
  refine ⟨⟨b, ?_, hb⟩, hmax⟩
  rw [List.getElem?_append_left (List.getElem?_eq_some_iff.1 hget).1, hget]

theorem mmapLoop_spec (mapper : Mapper A FA)
    (hsealed : InCells s.cells (fun a l => Sealed E a.chunk l) cs ls)
    (htimes : Forall₂ (fun c l => c.maxTime = lastTime l) cs ls) :
    ∃ ms bs, mmapLoop E cs (s, mapper) =
        .ok ({ s with mmappedChunks := s.mmappedChunks ++ ms }, mapper ++ bs) ∧
      Forall₂ (Mapped E (mapper ++ bs)) ms ls := by
  induction cs generalizing s mapper ls with
  | nil =>
    rw [forall₂_nil_left_iff.1 htimes]
    exact ⟨[], [], by simp [mmapLoop], .nil⟩
  | cons c cs ih =>
    obtain ⟨l, ls, hmax, htimes', rfl⟩ := forall₂_cons_left_iff.1 htimes
    obtain ⟨⟨a, hget, ha⟩, hsealed⟩ := forall₂_cons.1 hsealed
    obtain ⟨m, hm⟩ : ∃ m : MmappedChunk,
        m = ⟨mapper.length, BitVec.ofNat 16 (chunkSamples E a), c.minTime, c.maxTime⟩ := ⟨_, rfl⟩
    obtain ⟨ms, bs, hk, hms⟩ := ih (mapper ++ [a.chunk])
      (s := { s with mmappedChunks := s.mmappedChunks ++ [m] }) hsealed htimes'
    refine ⟨m :: ms, a.chunk :: bs, ?_, ?_⟩
    · have hcell : s.cell c.chunk = .ok a := by rw [cell, hget]
      simp only [mmapLoop, hcell, ok_bind, ← hm, hk, append_assoc,
        singleton_append]
    · rw [append_assoc, singleton_append] at hms
      refine .cons ⟨⟨a.chunk, ?_, ha⟩, hm ▸ hmax⟩ hms
      rw [hm]
      simp

/-! ### Truncation -/

variable {α : Type}

/-- All samples of the chunk lie before `mint`. -/
def below (mint : I64) (l : List (I64 × F)) : Bool := l.all fun x => x.1.slt mint

theorem below_iff_lastTime (hl : l ≠ []) (hasc : l.Pairwise fun x y => x.1.toInt < y.1.toInt) :
    (lastTime l).slt mint = below mint l := by
  obtain ⟨l', y, rfl⟩ := (eq_nil_or_concat' l).resolve_left hl
  rw [lastTime_concat, below, all_append, all_cons, all_nil, Bool.and_true]
  cases hy : y.1.slt mint with
  | false => rw [Bool.and_false]
  | true =>
    rw [Bool.and_true, eq_comm, all_eq_true]
    intro x hx
    have hlt := (pairwise_append.1 hasc).2.2 x hx y (by simp)
    rw [BitVec.slt_iff_toInt_lt] at hy ⊢
    exact hlt.trans hy

theorem dropWhile_below (hl : l ≠ [])
    (hasc : (pre ++ l :: post).flatten.Pairwise fun x y => x.1.toInt < y.1.toInt)
    (hb : below mint l = true) :
    (pre ++ l :: post).dropWhile (below mint) = post.dropWhile (below mint) := by
  have hpre : ∀ l' ∈ pre, below mint l' = true := by
    intro l' hl'
    obtain ⟨y, hy⟩ := exists_mem_of_ne_nil l hl
    rw [below, all_eq_true] at hb ⊢
    intro x hx
    rw [flatten_append] at hasc
    have hlt := (pairwise_append.1 hasc).2.2 x (mem_flatten.2 ⟨l', hl', hx⟩) y
      (mem_flatten.2 ⟨l, by simp, hy⟩)
    have := hb y hy
    rw [BitVec.slt_iff_toInt_lt] at this ⊢
    exact hlt.trans this
  rw [dropWhile_append_of_pos hpre, dropWhile_cons_of_pos hb]

theorem takeWhile_eq_take (p : α → Bool) (xs : List α) :
    xs.takeWhile p = xs.take (xs.takeWhile p).length :=
  prefix_iff_eq_take.1 (List.takeWhile_prefix _)

theorem drop_takeWhile (p : α → Bool) (xs : List α) :
    xs.drop (xs.takeWhile p).length = xs.dropWhile p := by
  calc xs.drop (xs.takeWhile p).length
      = (xs.takeWhile p ++ xs.dropWhile p).drop (xs.takeWhile p).length := by
        rw [takeWhile_append_dropWhile]
    _ = xs.dropWhile p := drop_left

/-- Chunks that have samples, in ascending order, with the newest ones in `hd`, newest first. -/
structure Ordered (mm hd : List (List (I64 × F))) : Prop where
  ne_nil : ∀ l ∈ mm ++ hd.reverse, l ≠ []
  ascends : (mm ++ hd.reverse).flatten.Pairwise fun x y => x.1.toInt < y.1.toInt

theorem Ordered.dropWhile_of_lt (h : Ordered mm hd) (mint : I64)
    (hk : (hd.takeWhile fun l => !below mint l).length < hd.length) :
    (mm ++ hd.reverse).dropWhile (below mint) = (hd.takeWhile fun l => !below mint l).reverse := by
  obtain ⟨ks, hks⟩ : ∃ ks, ks = hd.takeWhile fun l => !below mint l := ⟨_, rfl⟩
  obtain ⟨l, ls, hl⟩ : ∃ l ls, hd.dropWhile (fun l => !below mint l) = l :: ls := by
    rw [← drop_takeWhile]
    exact exists_cons_of_ne_nil fun hnil => by
      have := drop_eq_nil_iff.1 hnil
      omega
  have hb : below mint l = true := by
    have := dropWhile_get_zero_not (fun l => !below mint l) hd (by rw [hl]; simp)
    simpa [hl] using this
  have hsplit : mm ++ hd.reverse = (mm ++ ls.reverse) ++ l :: ks.reverse := by
    rw [← takeWhile_append_dropWhile (p := fun l => !below mint l) (l := hd), hl, ← hks]
    simp
  have hnot : ∀ l ∈ ks.reverse, ¬ below mint l = true := by
    intro l hl
    rw [hks] at hl
    simpa using mem_takeWhile_imp (mem_reverse.1 hl)
  rw [← hks, hsplit, dropWhile_below (h.ne_nil l (by rw [hsplit]; simp)) (hsplit ▸ h.ascends) hb]
  exact dropWhile_eq_self_iff.2 fun hl => hnot _ (getElem_mem hl)

theorem dropWhile_of_le (mm : List (List (I64 × F)))
    (hk : hd.length ≤ (hd.takeWhile fun l => !below mint l).length) :
    (mm ++ hd.reverse).dropWhile (below mint) = mm.dropWhile (below mint) ++ hd.reverse := by
  have hall : hd.takeWhile (fun l => !below mint l) = hd := by
    rw [takeWhile_eq_take, take_of_length_le hk]
  have hself : hd.reverse.dropWhile (below mint) = hd.reverse :=
    dropWhile_eq_self_iff.2 fun hl => by
      have := takeWhile_eq_self_iff.1 hall _ (mem_reverse.1 (getElem_mem hl))
      simpa using this
  rw [dropWhile_append, hself]
  split_ifs with he
  · rw [isEmpty_iff.1 he, nil_append]
  · rfl

/-! ### The list of chunks -/

theorem overlaps_all (minTime maxTime : I64) :
    overlapsClosedInterval minTime maxTime minInt64 maxInt64 = true := by
  rw [overlapsClosedInterval, Bool.and_eq_true, BitVec.sle_iff_toInt_le, BitVec.sle_iff_toInt_le]
  exact ⟨Int.le_of_lt_add_one minTime.toInt_lt, minInt64_le maxTime⟩

/-- Over the whole range of times every chunk is listed, with the id of its position. -/
theorem listChunks_all (href : s.ref < 2 ^ 40) : ∀ (cs : List ((I64 × I64) × I64)) (pos : ℕ),
    s.firstChunkID + pos + cs.length ≤ 2 ^ 23 →
    ∃ ms, s.listChunks minInt64 maxInt64 pos cs = .ok ms ∧
      ms.map (fun m => unpackHeadChunkRef m.ref) =
        (range' pos cs.length).map fun i => (s.ref, s.firstChunkID + i, false)
  | [], _, _ => ⟨[], rfl, rfl⟩
  | ((minTime, maxTime), listed) :: cs, pos, hpos => by
    rw [length_cons] at hpos
    obtain ⟨ms, hk, hms⟩ := listChunks_all href cs (pos + 1) (by omega)
    have hrefs : newHeadChunkRef s.ref (s.firstChunkID + pos) =
        .ok (s.ref * 2 ^ 24 + (s.firstChunkID + pos)) := if_neg (by omega)
    refine ⟨⟨minTime, listed, s.ref * 2 ^ 24 + (s.firstChunkID + pos)⟩ :: ms, ?_, ?_⟩
    · simp only [listChunks, hk, hrefs, overlaps_all, ok_bind, if_true]
    · rw [map_cons, hms, length_cons, range'_succ, map_cons]
      congr 1
      have h1 : (s.ref * 2 ^ 24 + (s.firstChunkID + pos)) / 2 ^ 24 = s.ref := by omega
      have h2 : (s.ref * 2 ^ 24 + (s.firstChunkID + pos)) % 2 ^ 24 = s.firstChunkID + pos := by
        omega
      rw [unpackHeadChunkRef, h1, h2, Nat.mod_eq_of_lt (by omega),
        decide_eq_false (by omega)]

/-! ### What the operations do -/

section

variable (h : Tracks E s mapper mm hd) (hfull : ∀ l ∈ hd.head?, l ≠ []) (ranges : Ranges)
include h

theorem Tracks.cases :
    s.headChunks = [] ∧ hd = [] ∨ ∃ c cs l ls, s.headChunks = c :: cs ∧ hd = l :: ls := by
  have hh := h.head
  unfold InCells at hh
  rcases hc : s.headChunks with _ | ⟨c, cs⟩ <;> rw [hc] at hh
  · exact .inl ⟨rfl, by cases hh; rfl⟩
  · cases hh
    exact .inr ⟨_, _, _, _, rfl, rfl⟩

theorem Tracks.exists_app {i : ℕ} (happ : s.app = some i) :
    ∃ a l, s.cells[i]? = some a ∧ Writes E a l ∧
      ∀ c cs l' ls, s.headChunks = c :: cs → hd = l' :: ls → c.chunk = i ∧ l' = l := by
  rcases h.cases with ⟨hnil, -⟩ | ⟨c, cs, l, ls, hc, hl⟩
  · obtain ⟨a, l, hget, hw⟩ := h.stale i happ
    exact ⟨a, l, hget, hw, fun c cs _ _ hc => by rw [hnil] at hc; cases hc⟩
  · have hi : c.chunk = i := Option.some.inj ((h.app c (by rw [hc]; rfl)).symm.trans happ)
    have hh := h.head
    rw [hc, hl] at hh
    obtain ⟨a, hget, hw⟩ := (forall₂_cons.1 hh).1
    refine ⟨a, l, hi ▸ hget, hw, fun c' cs' l' ls' hc' hl' => ?_⟩
    obtain ⟨rfl, -⟩ := cons.inj (hc.symm.trans hc')
    obtain ⟨rfl, -⟩ := cons.inj (hl.symm.trans hl')
    exact ⟨hi, rfl⟩

/-- **`Compact` of the appender of the series** seals the newest chunk. Other cells may follow, as
when a new chunk has been linked. -/
theorem Tracks.compact :
    ∃ cells, cells.length = s.cells.length ∧ Tracks E { s with cells := cells } mapper mm hd ∧
      InCells cells (fun a l => Sealed E a.chunk l) s.headChunks hd ∧
      ∀ (r : MemSeries F H FH A FA) (xs : List (App A FA)), r.app = s.app →
        r.cells = s.cells ++ xs →
        r.compactOld E ranges = .ok { r with cells := cells ++ xs } ∧
          r.compactApp E ranges = .ok { r with cells := cells ++ xs } := by
  obtain ⟨app, happ⟩ : ∃ app, s.app = app := ⟨_, rfl⟩
  rcases app with _ | i
  · have hnil : s.headChunks = [] ∧ hd = [] := by
      rcases h.cases with hnil | ⟨c, cs, l, ls, hc, -⟩
      · exact hnil
      · have := h.app c (by rw [hc]; rfl)
        rw [happ] at this
        cases this
    refine ⟨s.cells, rfl, h, ?_, fun r xs hr hcells => ?_⟩
    · rw [hnil.1, hnil.2]; exact .nil
    · have hr' : r.app = none := hr.trans happ
      rw [← hcells]
      show r.compactOld E ranges = .ok r ∧ r.compactApp E ranges = .ok r
      simp only [compactOld, compactApp, hr', and_self]
  · obtain ⟨a, l, hget, hw, hnew⟩ := h.exists_app happ
    obtain ⟨b, b', rfl, hcomp, hw', hsealed⟩ := hw.compact ranges
    have hi := (List.getElem?_eq_some_iff.1 hget).1
    have hset : ∀ P : App A FA → List (I64 × F) → Prop, P (.cl b') l →
        InCells s.cells P s.headChunks.tail hd.tail →
        InCells (s.cells.set i (.cl b')) P s.headChunks hd := by
      intro P hp htail
      have hnd := h.nodup
      rcases h.cases with ⟨hc, hl⟩ | ⟨c, cs, l', ls, hc, hl⟩
      · rw [hc, hl]; exact .nil
      · obtain ⟨rfl, rfl⟩ := hnew c cs l' ls hc hl
        rw [hc, hl] at htail ⊢
        rw [hc] at hnd
        exact htail.set_newest hnd hi hp
    have hall := hset _ hsealed h.closed
    refine ⟨s.cells.set i (.cl b'), length_set, ?_, hall, fun r xs hr hcells => ?_⟩
    · refine { h with
        head := hset _ hw' (InCells.tail h.head), closed := hall.tail, stale := fun j hj => ?_ }
      cases happ.symm.trans hj
      exact ⟨.cl b', l, getElem?_set_self hi, hw'⟩
    · have hr' : r.app = some i := hr.trans happ
      have hri : r.cells[i]? = some (.cl b) := by
        rw [hcells, getElem?_append_left hi, hget]
      have hset' : r.cells.set i (.cl b') = s.cells.set i (.cl b') ++ xs := by
        rw [hcells, set_append_left _ _ hi]
      simp only [compactOld, compactApp, hr', hri, compactCell,
        hcomp, Except.map, hset', and_self]

theorem Tracks.setMinTime (hc : s.headChunks = c :: cs) (t n : I64) :
    Tracks E { s.setNewest { c with minTime := t } with nextAt := n } mapper mm hd := by
  cases s
  obtain rfl := hc
  exact
    { h with
      head := by
        cases h.head with
        | cons h1 h2 => exact .cons h1 h2
      times := by
        cases h.times with
        | cons h1 h2 => exact .cons h1 h2
      app := fun c' hc' => by
        cases hc'
        exact h.app c rfl }

/-- The oldest m-mapped chunks and the oldest head chunks go. -/
theorem Tracks.restrict (i j n : ℕ) :
    Tracks E { s with
      headChunks := s.headChunks.take j, mmappedChunks := s.mmappedChunks.drop i,
      firstChunkID := n } mapper (mm.drop i) (hd.take j) := by
  have htail : ∀ {α : Type} (xs : List α), (xs.take j).tail = xs.tail.take (j - 1) := by
    intro α xs
    rw [← drop_one, drop_take, drop_one]
  exact
    { mapped := forall₂_drop i h.mapped
      head := forall₂_take j h.head
      times := forall₂_take j h.times
      closed := by
        show InCells s.cells _ (s.headChunks.take j).tail _
        rw [htail, htail]
        exact forall₂_take _ h.closed
      nodup := h.nodup.sublist ((take_sublist _ _).map _)
      app := fun c hc => h.app c (mem_head?_of_take hc)
      stale := h.stale
      full := fun l hl => h.full l <| by
        rcases mem_append.1 hl with hl | hl
        · exact mem_append_left _ (mem_of_mem_drop hl)
        · rw [htail] at hl
          exact mem_append_right _ (mem_of_mem_take hl)
      ascends := h.ascends.sublist <| Sublist.flatten <|
        (drop_sublist i mm).append (take_sublist j hd).reverse
      last := fun l hl => h.last l (mem_head?_of_take hl) }

/-- **`mmapChunks`** moves the samples of all head chunks but the newest. -/
theorem Tracks.mmapChunks :
    ∃ s' bs, s.mmapChunks E mapper = .ok (s', mapper ++ bs) ∧
      Tracks E s' (mapper ++ bs) (mm ++ hd.tail.reverse) (hd.take 1) ∧ SameIds s s' := by
  have htail := forall₂_drop 1 h.times
  rw [drop_one, drop_one] at htail
  obtain ⟨ms, bs, hk, hms⟩ := mmapLoop_spec mapper (forall₂_reverse_iff.2 h.closed)
    (forall₂_reverse_iff.2 htail)
  refine ⟨{ s with mmappedChunks := s.mmappedChunks ++ ms, headChunks := s.headChunks.take 1 },
    bs, by rw [MemSeries.mmapChunks, hk]; rfl, ?_, rfl, rfl⟩
  have hsplit : hd.tail.reverse ++ (hd.take 1).reverse = hd.reverse := by
    rw [← reverse_append, ← drop_one, take_append_drop]
  have hr := h.restrict 0 1 s.firstChunkID
  have hnil : (hd.take 1).tail = [] := by rw [← drop_one, drop_take, Nat.sub_self, take_zero]
  exact
    { hr with
      mapped := rel_append (h.mapped.imp fun _ _ hm => Mapped.append hm bs) hms
      full := by
        intro l hl
        rw [hnil, append_nil] at hl
        exact h.full l (by simpa using hl)
      ascends := by rw [append_assoc, hsplit]; exact h.ascends }

theorem Tracks.chunk_found {k : ℕ} (hl : (mm ++ hd.reverse)[k]? = some l) :
    ∃ c s', s.chunk E mapper ranges (s.firstChunkID + k) = .ok (some c, s') ∧
      Tracks E s' mapper mm hd ∧ SameIds s s' ∧ Sealed E c.chunk l := by
  have hhd := h.times.length_eq
  have hmm := h.mapped.length_eq
  have hlt := (List.getElem?_eq_some_iff.1 hl).1
  rw [length_append, length_reverse] at hlt
  obtain ⟨cells, -, ht, hsealed, hcomp⟩ := h.compact ranges
  obtain ⟨-, hk⟩ := hcomp s [] rfl (append_nil _).symm
  rw [append_nil] at hk
  have hix : (((s.firstChunkID + k : ℕ) : ℤ) - s.firstChunkID).toNat = k := by omega
  have hpos : ¬ (((s.firstChunkID + k : ℕ) : ℤ) - s.firstChunkID < 0 ∨
      (s.mmappedChunks.length : ℤ) + s.headChunks.length - 1 <
        ((s.firstChunkID + k : ℕ) : ℤ) - s.firstChunkID) := by omega
  unfold chunk
  simp only [if_neg hpos, hix]
  by_cases hkm : k < mm.length
  · rw [List.getElem?_append_left hkm] at hl
    obtain ⟨m, hm, ⟨b, hget, hb⟩, -⟩ := exists_getElem?_of_forall₂ h.mapped hl
    simp only [hm, hget]
    exact ⟨_, s, rfl, h, ⟨rfl, rfl⟩, hb⟩
  · rw [getElem?_append_right (not_lt.1 hkm), getElem?_reverse (by omega)] at hl
    obtain ⟨c, hc, a, hget, ha⟩ := exists_getElem?_of_forall₂ hsealed hl
    have hnone : s.mmappedChunks[k]? = none := getElem?_eq_none (by omega)
    have hoff : s.headChunks.length - (k - s.mmappedChunks.length) - 1 =
      hd.length - 1 - (k - mm.length) := by omega
    simp only [hnone, hk, ok_bind, hoff, hc, cell, hget]
    exact ⟨_, _, rfl, ht, ⟨rfl, rfl⟩, ha⟩

/-- **`chunk`** finds exactly the chunks that are held, under their ids, with all their samples. -/
theorem Tracks.chunk (id : ℕ) :
    ∃ r s', s.chunk E mapper ranges id = .ok (r, s') ∧ Tracks E s' mapper mm hd ∧ SameIds s s' ∧
      (s.firstChunkID ≤ id → ∀ l, (mm ++ hd.reverse)[id - s.firstChunkID]? = some l →
        ∃ c, r = some c ∧ Sealed E c.chunk l) ∧
      ((id < s.firstChunkID ∨ s.firstChunkID + (mm ++ hd.reverse).length ≤ id) → r = none) := by
  have hhd := h.times.length_eq
  have hmm := h.mapped.length_eq
  have hlen : (mm ++ hd.reverse).length = mm.length + hd.length := by simp
  by_cases hin : s.firstChunkID ≤ id ∧ id < s.firstChunkID + (mm.length + hd.length)
  · obtain ⟨k, rfl⟩ := Nat.exists_eq_add_of_le hin.1
    have hl : (mm ++ hd.reverse)[k]? = some _ := getElem?_eq_getElem (by omega)
    obtain ⟨c, s', hc, ht, hids, hsealed⟩ := h.chunk_found ranges hl
    refine ⟨some c, s', hc, ht, hids, fun _ l hl' => ⟨c, rfl, ?_⟩, fun hout => by omega⟩
    rw [Nat.add_sub_cancel_left, hl] at hl'
    exact Option.some.inj hl' ▸ hsealed
  · refine ⟨none, s, ?_, h, ⟨rfl, rfl⟩, fun hle l hl => ?_, fun _ => rfl⟩
    · exact if_pos (by omega)
    · have := (List.getElem?_eq_some_iff.1 hl).1
      omega

/-- **`appendSeriesChunks`** lists the chunks that are held, oldest first, under their ids. -/
theorem Tracks.listing (href : s.ref < 2 ^ 40)
    (hid : s.firstChunkID + (mm ++ hd.reverse).length ≤ 2 ^ 23) :
    ∃ ms, s.appendSeriesChunks minInt64 maxInt64 = .ok ms ∧
      ms.map (fun m => unpackHeadChunkRef m.ref) =
        (List.range (mm ++ hd.reverse).length).map fun i => (s.ref, s.firstChunkID + i, false) := by
  have hmm := h.mapped.length_eq
  have htimes : s.headTimes.length = hd.length := by
    have hhd := h.times.length_eq
    unfold headTimes
    split <;> simp_all
  rw [length_append, length_reverse] at hid ⊢
  obtain ⟨ms, hk, hms⟩ := listChunks_all href
    (s.mmappedChunks.map fun m => ((m.minTime, m.maxTime), m.maxTime)) 0
    (by rw [length_map]; omega)
  obtain ⟨ms', hk', hms'⟩ := listChunks_all href s.headTimes s.mmappedChunks.length (by omega)
  refine ⟨ms ++ ms', ?_, ?_⟩
  · simp only [appendSeriesChunks, hk, hk', ok_bind]
  · rw [map_append, hms, hms', length_map, htimes, hmm, ← map_append,
      range_eq_range', ← range'_append_1, Nat.zero_add]

include hfull

theorem Tracks.ne_nil : ∀ l ∈ mm ++ hd, l ≠ [] := by
  intro l hl
  rcases mem_append.1 hl with hm | hm
  · exact h.full l (mem_append_left _ hm)
  · cases hm with
    | head => exact hfull l rfl
    | tail _ hm => exact h.full l (mem_append_right _ hm)

/-- **A cut** adds an empty chunk, and the one before is complete. -/
theorem Tracks.cut (mint w : I64) (errbound : ℚ) :
    ∃ cells, s.cutNewHeadChunk E ranges mint .cl w errbound = .ok (cutSeries s cells mint w) ∧
      Tracks E (cutSeries s cells mint w) mapper mm ([] :: hd) := by
  obtain ⟨cells, hlen, ht, hsealed, hcomp⟩ := h.compact ranges
  have hget : ∀ x : App A FA, (cells ++ [x])[s.cells.length]? = some x := fun x => by
    rw [← hlen]; exact getElem?_concat_length
  refine ⟨cells, ?_, ?_⟩
  · unfold cutNewHeadChunk
    have hset : ∀ x : App A FA, (cells ++ [newApp E .cl]).set s.cells.length x = cells ++ [x] := by
      intro x
      rw [set_append_right _ _ hlen.le, hlen, Nat.sub_self]
      rfl
    rw [(hcomp (s.linkChunk E mint .cl w) [newApp E .cl] rfl rfl).1]
    simp only [ok_bind, hget]
    simp only [newApp] at hset
    simp only [newApp, hset]
    rfl
  · have hlt := hsealed.lt
    constructor
    · exact h.mapped
    · exact .cons ⟨_, hget _, writes_new⟩ (InCells.append ht.head _)
    · exact .cons rfl h.times
    · exact hsealed.append _
    · refine nodup_cons.2 ⟨fun hmem => ?_, h.nodup⟩
      obtain ⟨c, hc, he⟩ := mem_map.1 hmem
      have := hlt c hc
      simp only at he
      omega
    · intro c hc
      cases hc
      rfl
    · intro i hi
      cases hi
      exact ⟨_, [], hget _, writes_new⟩
    · exact h.ne_nil hfull
    · simpa using h.ascends
    · intro l hl x hx
      cases hl
      cases hx

theorem Tracks.ordered : Ordered mm hd :=
  ⟨fun l hl => h.ne_nil hfull l (by simpa using hl), h.ascends⟩

/-- **`truncateChunksBefore`** drops exactly the chunks that lie before `mint`. -/
theorem Tracks.truncate (mint : I64) :
    ∃ s' mm' hd', s.truncateChunksBefore mint =
        (((mm ++ hd.reverse).takeWhile (below mint)).length, s') ∧
      Tracks E s' mapper mm' hd' ∧ (∀ l ∈ hd'.head?, l ≠ []) ∧ s'.ref = s.ref ∧
      mm' ++ hd'.reverse = (mm ++ hd.reverse).dropWhile (below mint) ∧
      s'.firstChunkID = s.firstChunkID + ((mm ++ hd.reverse).takeWhile (below mint)).length := by
  have hord := h.ordered hfull
  have hlt : ∀ l ∈ mm ++ hd.reverse, (lastTime l).slt mint = below mint l := fun l hl =>
    below_iff_lastTime (hord.ne_nil l hl) (hord.ascends.sublist (sublist_flatten_of_mem hl))
  have hkept := (forall₂_takeWhile (p := fun c => !c.maxTime.slt mint)
    (q := fun l => !below mint l) h.times
    fun c l hl he => by rw [he, hlt l (by simp [hl])]).length_eq
  have hmapped := (forall₂_takeWhile (p := fun m => m.maxTime.slt mint) (q := below mint) h.mapped
    fun m l hl he => by rw [he.2, hlt l (by simp [hl])]).length_eq
  have hhd := h.times.length_eq
  have hmm := h.mapped.length_eq
  have hfull' : ∀ j, ∀ l ∈ (hd.take j).head?, l ≠ [] := fun j l hl =>
    hfull l (mem_head?_of_take hl)
  have htotal := congrArg length
    (takeWhile_append_dropWhile (p := below mint) (l := mm ++ hd.reverse))
  rw [length_append, length_append, length_reverse] at htotal
  -- both branches keep a part of either list
  suffices hcut : ∃ i j n, s.truncateChunksBefore mint = (n, { s with
        headChunks := s.headChunks.take j, mmappedChunks := s.mmappedChunks.drop i,
        firstChunkID := s.firstChunkID + n }) ∧
      n = ((mm ++ hd.reverse).takeWhile (below mint)).length ∧
      mm.drop i ++ (hd.take j).reverse = (mm ++ hd.reverse).dropWhile (below mint) by
    obtain ⟨i, j, n, heq, hn, hdrop⟩ := hcut
    exact ⟨_, mm.drop i, hd.take j, hn ▸ heq, h.restrict i j _, hfull' j, rfl, hdrop, rfl⟩
  obtain ⟨k, hkdef⟩ : ∃ k, k = (hd.takeWhile fun l => !below mint l).length := ⟨_, rfl⟩
  rw [← hkdef] at hkept
  by_cases hk : k < hd.length
  · have hdrop := hord.dropWhile_of_lt mint (hkdef ▸ hk)
    rw [hdrop, length_reverse, ← hkdef] at htotal
    refine ⟨s.mmappedChunks.length, k, s.headChunks.length - k + s.mmappedChunks.length,
      ?_, by omega, ?_⟩
    · simp only [truncateChunksBefore, hkept, drop_length]
      rw [if_pos (hhd ▸ hk), takeWhile_eq_take, hkept]
    · rw [hdrop, takeWhile_eq_take, ← hkdef, hmm, drop_length, nil_append]
  · have hdrop := dropWhile_of_le mm (hkdef ▸ not_lt.1 hk)
    have hlen := congrArg length (takeWhile_append_dropWhile (p := below mint) (l := mm))
    rw [hdrop, length_append, length_reverse] at htotal
    rw [length_append] at hlen
    refine ⟨(mm.takeWhile (below mint)).length, s.headChunks.length,
      (mm.takeWhile (below mint)).length, ?_, by omega, ?_⟩
    · have hcond : ¬ (s.headChunks.takeWhile fun c => !c.maxTime.slt mint).length <
        s.headChunks.length := by omega
      simp only [truncateChunksBefore, if_neg hcond, hmapped, take_length]
    · rw [hdrop, drop_takeWhile, hhd, take_length]

end

/-! ### Where a sample goes -/

theorem lt_rangeForTimestamp (ht : |t.toInt| < 2 ^ 62) (hw : 0 < w.toInt) :
    t.toInt < (rangeForTimestamp t w).toInt := by
  have hw' : w.toInt < 2 ^ 63 := w.toInt_lt
  obtain ⟨ht1, ht2⟩ := abs_lt.1 ht
  have hb := mul_tdiv_bounds (t := t.toInt) hw
  -- neither the multiple nor its successor wraps
  rw [rangeForTimestamp, BitVec.mul_comm, BitVec.toInt_add, toInt_mul_sdiv hw,
    bmod_eq_of_le (by omega) (by omega)]
  omega

def AllBefore (ls : List (List (I64 × F))) (t : I64) : Prop :=
  ∀ x ∈ ls.flatten, x.1.toInt < t.toInt

theorem allBefore_iff (hl : l ≠ [])
    (hasc : (pre ++ [l]).flatten.Pairwise fun x y => x.1.toInt < y.1.toInt) :
    AllBefore (pre ++ [l]) t ↔ t.sle (lastTime l) = false := by
  obtain ⟨l', y, rfl⟩ := (eq_nil_or_concat' l).resolve_left hl
  rw [flatten_append, flatten_singleton, ← append_assoc] at hasc
  rw [lastTime_concat, sle_eq_false, AllBefore, flatten_append,
    flatten_singleton, ← append_assoc]
  constructor
  · exact fun h => h y (by simp)
  · intro hy x hx
    rcases mem_append.1 hx with hx | hx
    · exact ((pairwise_append.1 hasc).2.2 x hx y (by simp)).trans hy
    · rw [mem_singleton.1 hx]; exact hy

theorem reverse_split (mm ls : List (List (I64 × F))) (l : List (I64 × F)) :
    mm ++ (l :: ls).reverse = (mm ++ ls.reverse) ++ [l] := by
  rw [reverse_cons, append_assoc]

/-- The series after a sample for its newest chunk, whose cell is now `a`. -/
def putSample (s : MemSeries F H FH A FA) (c : MemChunk) (a : CLAppender) (t : I64) (v : F) :
    MemSeries F H FH A FA :=
  { s with
    cells := s.cells.set c.chunk (.cl a)
    headChunks := { c with maxTime := t } :: s.headChunks.tail
    lastValue := v
    lastHistogramValue := none
    lastFloatHistogramValue := none }

variable (ranges : Ranges) {o : ChunkOpts} {l : List (I64 × F)} {ls : List (List (I64 × F))}

section Newest

variable (h : Tracks E s mapper mm (l :: ls)) (ht : |t.toInt| < 2 ^ 62)
  (hspc : 4 ≤ o.samplesPerChunk)
include h

theorem Tracks.exists_newest : ∃ c cs, s.headChunks = c :: cs := by
  rcases h.cases with ⟨-, hnil⟩ | ⟨c, cs, -, -, hc, -⟩
  · cases hnil
  · exact ⟨c, cs, hc⟩

theorem Tracks.newest_cell (hc : s.headChunks = c :: cs) :
    ∃ b, s.newest = .ok c ∧ s.cell c.chunk = .ok (.cl b) ∧ Writes E (.cl b : App A FA) l ∧
      s.app = some c.chunk ∧ c.maxTime = lastTime l := by
  have hh := h.head
  have ht := h.times
  rw [hc] at hh ht
  obtain ⟨a, hget, hw⟩ := (forall₂_cons.1 hh).1
  obtain ⟨b, rfl, -⟩ := hw.head
  exact ⟨b, by rw [newest, hc], by rw [cell, hget], hw, h.app c (by rw [hc]; rfl),
    (forall₂_cons.1 ht).1⟩

/-- **A sample after all others** goes to the newest chunk. -/
theorem Tracks.putSample (hc : s.headChunks = c :: cs) {v : F}
    {a : CLAppender} (ha : Writes E (.cl a : App A FA) (l ++ [(t, v)]))
    (hb : AllBefore (mm ++ (l :: ls).reverse) t) :
    Tracks E (HeadTracks.putSample s c a t v) mapper mm ((l ++ [(t, v)]) :: ls) := by
  have hflat : (mm ++ ((l ++ [(t, v)]) :: ls).reverse).flatten =
      (mm ++ (l :: ls).reverse).flatten ++ [(t, v)] := by
    simp
  cases s
  obtain rfl := hc
  have hlt := h.head.lt c (by simp)
  have hne : ∀ c' ∈ cs, c'.chunk ≠ c.chunk := fun c' hc' he =>
    (nodup_cons.1 h.nodup).1 (he ▸ mem_map_of_mem hc')
  exact
    { h with
      head := .cons ⟨_, getElem?_set_self hlt, ha⟩ (InCells.set (forall₂_cons.1 h.head).2 hne _)
      times := .cons (by simp [lastTime]) (forall₂_cons.1 h.times).2
      closed := h.closed.set hne _
      app := fun c' hc' => by
        cases hc'
        exact h.app c rfl
      stale := fun i hi => by
        by_cases hci : c.chunk = i
        · exact ⟨_, _, by rw [← hci]; exact getElem?_set_self hlt, ha⟩
        · obtain ⟨a', l', hget, hw⟩ := h.stale i hi
          exact ⟨a', l', (getElem?_set_ne hci).trans hget, hw⟩
      ascends := by
        rw [hflat, pairwise_append]
        exact ⟨h.ascends, pairwise_singleton _ _, fun x hx y hy => by
          rw [mem_singleton.1 hy]; exact hb x hx⟩
      last := fun l' hl' x hx => by
        cases hl'
        simp only [getLast?_concat, Option.mem_some_iff] at hx
        rw [← hx]
        exact ⟨rfl, rfl, rfl⟩ }

include ht hspc

/-- **The end of `appendPreprocessor`**: the sample goes to the newest chunk, or, when that is not
empty, to a new one. -/
theorem Tracks.planFloat (created : Bool) :
    ∃ created' s' hd', s.planFloat E o ranges t .cl created true = .ok (true, created', s') ∧
      Tracks E s' mapper mm hd' ∧ SameIds s s' ∧
      (hd' = l :: ls ∧ l.length < o.samplesPerChunk * 2 ∨ hd' = [] :: l :: ls ∧ l ≠ []) := by
  obtain ⟨c, cs, hc⟩ := h.exists_newest
  obtain ⟨b, hnew, hcell, hw, happ, -⟩ := h.newest_cell hc
  have hnum := hw.num
  unfold MemSeries.planFloat
  simp only [hnew, hcell, bind, Except.bind, encodingOf, cutIf, ne_eq, not_true_eq_false,
    decide_false, reduceCtorEq, if_false, appSamples, if_true, appCell, happ,
    hnum, startTimes]
  by_cases h0 : l = []
  · -- a new chunk is not cut again: its range ends after `t`
    subst h0
    have hlt := lt_rangeForTimestamp ht o.chunkRange_pos
    have hrange : (rangeForTimestamp t o.chunkRange).sle t = false := by
      rw [sle_eq_false]; omega
    have hquarter : ¬ 0 = o.samplesPerChunk / 4 := by omega
    have hfew : ¬ o.samplesPerChunk * 2 ≤ 0 := by omega
    refine ⟨created, { s.setNewest { c with minTime := t } with
      nextAt := rangeForTimestamp t o.chunkRange }, [] :: ls, ?_, h.setMinTime hc t _, ⟨rfl, rfl⟩,
      .inl ⟨rfl, by simp only [length_nil]; omega⟩⟩
    simp only [length_nil, if_true, predictEnd, newest, setNewest,
      ok_bind, hquarter, if_false, hrange, hfew, decide_false, Bool.or_false,
      Bool.false_eq_true]
  · have hlen : l.length ≠ 0 := fun he => h0 (length_eq_zero_iff.1 he)
    simp only [hlen, if_false]
    obtain ⟨s1, hs1, ht1, hids⟩ : ∃ s1, s.predictEnd E o l.length = .ok s1 ∧
        Tracks E s1 mapper mm (l :: ls) ∧ SameIds s s1 := by
      simp only [predictEnd, hnew, ok_bind]
      split_ifs
      · exact ⟨_, rfl, { h with }, rfl, rfl⟩
      · exact ⟨s, rfl, h, rfl, rfl⟩
    simp only [hs1]
    split_ifs with hcut
    · obtain ⟨cells, hk, ht2⟩ := ht1.cut (by simpa using h0) ranges t o.chunkRange o.errorBound
      rw [hk]
      exact ⟨_, _, _, rfl, ht2, ⟨hids.ref, hids.firstChunkID⟩, .inr ⟨rfl, h0⟩⟩
    · simp only [Bool.or_eq_true, decide_eq_true_eq, not_or, not_le] at hcut
      exact ⟨_, _, _, rfl, ht1, hids, .inl ⟨rfl, hcut.2⟩⟩

/-- The preprocessor from the comparison of the times on. -/
theorem Tracks.extend (hc : s.headChunks = c :: cs) (hord : t.sle c.maxTime = false)
    (created : Bool) (hcr : created = false → l ≠ []) :
    ∃ created' s' l' ls', (do
        if t.sle (← s.newest).maxTime then .ok (false, created, s)
        else
          let (size, ok) ← s.chunkSize E
          let (s, created) ← s.cutIf E o ranges t .cl created
            (!created && maxBytesPerXORChunk < size)
          s.planFloat E o ranges t .cl created ok) = .ok (true, created', s') ∧
      Tracks E s' mapper mm (l' :: ls') ∧ SameIds s s' ∧ l'.length < o.samplesPerChunk * 2 ∧
      (l' :: ls' = l :: ls ∨ l ≠ [] ∧ l' :: ls' = [] :: l :: ls) := by
  obtain ⟨b, hnew, hcell, hw, happ, -⟩ := h.newest_cell hc
  have hsize : s.chunkSize E = .ok (estimatedSize b, true) := by
    simp only [chunkSize, hnew, hcell, happ, ok_bind]
  simp only [hnew, hord, hsize, bind, Except.bind, cutIf]
  cases hcut : !created && decide (maxBytesPerXORChunk < estimatedSize b) with
  | false =>
    obtain ⟨created', s', hd', hrun, ht', hids, hhd⟩ := h.planFloat ranges ht hspc created
    refine ⟨created', s', ?_⟩
    rcases hhd with ⟨rfl, hlen⟩ | ⟨rfl, hne⟩
    · exact ⟨l, ls, hrun, ht', hids, hlen, .inl rfl⟩
    · exact ⟨[], l :: ls, hrun, ht', hids, by simp only [length_nil]; omega, .inr ⟨hne, rfl⟩⟩
  | true =>
    have hcreated : created = false := by cases created <;> simp_all
    have hne := hcr hcreated
    obtain ⟨cells, hk, ht1⟩ := h.cut (by simpa using hne) ranges t o.chunkRange o.errorBound
    obtain ⟨created', s', hd', hrun, ht', hids, hhd⟩ := ht1.planFloat ranges ht hspc true
    rcases hhd with ⟨rfl, hlen⟩ | ⟨-, hnil⟩
    · refine ⟨created', s', [], l :: ls, ?_, ht', ⟨hids.ref, hids.firstChunkID⟩, hlen,
        .inr ⟨hne, rfl⟩⟩
      simpa only [hk, if_true, Except.map, reduceCtorEq, if_false] using hrun
    · exact absurd rfl hnil

end Newest

theorem Tracks.openHead_nil (h : Tracks E s mapper mm []) (hc : s.headChunks = []) (t : I64) :
    ¬ AllBefore mm t ∧ s.openHead E o ranges t .cl = .ok none ∨
      AllBefore mm t ∧ ∃ cells, s.openHead E o ranges t .cl =
          .ok (some (cutSeries s cells t o.chunkRange, true)) ∧
        Tracks E (cutSeries s cells t o.chunkRange) mapper mm [[]] := by
  have hany : (s.mmappedChunks.getLast?.any fun c => t.sle c.maxTime) = false ↔ AllBefore mm t := by
    have hm := h.mapped
    rcases eq_nil_or_concat' mm with rfl | ⟨pre, l, rfl⟩
    · rw [forall₂_nil_right_iff.1 hm]
      simp [AllBefore]
    · obtain ⟨ms, m, he, hf⟩ : ∃ ms m, s.mmappedChunks = ms ++ [m] ∧ m.maxTime = lastTime l := by
        obtain ⟨m, ms', hml, hnil, he⟩ :=
          forall₂_cons_right_iff.1 (forall₂_drop_append _ pre [l] hm)
        rw [forall₂_nil_right_iff.1 hnil] at he
        exact ⟨_, m, by rw [← he, take_append_drop], hml.2⟩
      have hasc := h.ascends
      rw [reverse_nil, append_nil] at hasc
      rw [he, getLast?_concat, Option.any_some, hf, allBefore_iff (h.full l (by simp)) hasc]
  unfold openHead
  rw [hc]
  obtain ⟨v, hv⟩ : ∃ v, (s.mmappedChunks.getLast?.any fun c => t.sle c.maxTime) = v := ⟨_, rfl⟩
  rw [hv] at hany
  simp only [hv]
  cases v with
  | true => exact .inl ⟨fun hb => Bool.noConfusion (hany.2 hb), rfl⟩
  | false =>
    obtain ⟨cells, hk, ht⟩ := h.cut (by simp) ranges t o.chunkRange o.errorBound
    exact .inr ⟨hany.1 rfl, cells, by simp [hk, Except.map], ht⟩

variable (h : Tracks E s mapper mm hd) (hfull : ∀ l ∈ hd.head?, l ≠ []) (ht : |t.toInt| < 2 ^ 62)
  (hspc : 4 ≤ o.samplesPerChunk)
include h hfull ht hspc

/-- **`appendPreprocessor`** takes exactly the samples after all others, and prepares a chunk for
them. -/
theorem Tracks.appendPreprocessor :
    ¬ AllBefore (mm ++ hd.reverse) t ∧
        s.appendPreprocessor E o ranges t .cl = .ok (false, false, s) ∨
      AllBefore (mm ++ hd.reverse) t ∧ ∃ created s' l ls,
        s.appendPreprocessor E o ranges t .cl = .ok (true, created, s') ∧
        Tracks E s' mapper mm (l :: ls) ∧ SameIds s s' ∧ l.length < o.samplesPerChunk * 2 ∧
        (l :: ls = hd ∨ l :: ls = [] :: hd) := by
  rcases h.cases with ⟨hc, rfl⟩ | ⟨c, cs, l, ls, hc, rfl⟩
  · rw [reverse_nil, append_nil]
    rcases h.openHead_nil (o := o) ranges hc t with ⟨hb, ho⟩ | ⟨hb, cells, ho, ht1⟩
    · exact .inl ⟨hb, by simp only [appendPreprocessor, ho, ok_bind]⟩
    · refine .inr ⟨hb, ?_⟩
      obtain ⟨created, s', l, ls, hrun, ht', hids, hlen, hhd⟩ :=
        ht1.extend ranges ht hspc (c := ⟨s.cells.length, t, minInt64⟩) rfl (by
          have := neg_abs_le t.toInt
          rw [sle_eq_false, toInt_minInt64]
          omega) true (by simp)
      refine ⟨created, s', l, ls, ?_, ht', ⟨hids.ref, hids.firstChunkID⟩, hlen, ?_⟩
      · rw [appendPreprocessor, ho]
        exact hrun
      · exact .inr (hhd.resolve_right fun hne => hne.1 rfl)
  · obtain ⟨-, -, -, -, -, hmax⟩ := h.newest_cell hc
    have hne : l ≠ [] := hfull l rfl
    have hasc := h.ascends
    have hopen : s.openHead E o ranges t .cl = .ok (some (s, false)) := by
      rw [openHead, hc]
    rw [reverse_split] at hasc ⊢
    rw [allBefore_iff hne hasc, ← hmax]
    cases hord : t.sle c.maxTime with
    | true =>
      refine .inl ⟨by simp, ?_⟩
      simp only [appendPreprocessor, hopen, newest, hc, hord, ok_bind,
        if_true]
    | false =>
      refine .inr ⟨rfl, ?_⟩
      obtain ⟨created, s', l', ls', hrun, ht', hids, hlen, hhd⟩ :=
        h.extend ranges ht hspc hc hord false fun _ => hne
      refine ⟨created, s', l', ls', ?_, ht', hids, hlen, hhd.imp id And.right⟩
      rw [appendPreprocessor, hopen]
      exact hrun

/-- **`append`** takes exactly the samples after all others. -/
theorem Tracks.append {v : F} (hv : Fits E v) (hspc' : o.samplesPerChunk ≤ 32767) (appendID : ℕ) :
    ¬ AllBefore (mm ++ hd.reverse) t ∧ s.append E o ranges t v appendID = .ok (false, false, s) ∨
      AllBefore (mm ++ hd.reverse) t ∧ ∃ created s' l ls,
        s.append E o ranges t v appendID = .ok (true, created, s') ∧
        Tracks E s' mapper mm ((l ++ [(t, v)]) :: ls) ∧ SameIds s s' ∧
        (l :: ls = hd ∨ l :: ls = [] :: hd) := by
  unfold MemSeries.append
  rcases h.appendPreprocessor ranges hfull ht hspc with
    ⟨hb, hk⟩ | ⟨hb, created, s', l, ls, hk, ht', hids, hlen, hhd⟩
  · exact .inl ⟨hb, by simp only [hk, ok_bind, Bool.not_false, if_true]⟩
  · have hb' : AllBefore (mm ++ (l :: ls).reverse) t := by
      rcases hhd with he | he <;> rw [he]
      · exact hb
      · simpa [AllBefore] using hb
    obtain ⟨c, cs, hc⟩ := ht'.exists_newest
    obtain ⟨b, -, hcell, hw, happ, -⟩ := ht'.newest_cell hc
    obtain ⟨b₀, b', he, hb₁, hw'⟩ := hw.append (by omega) hv
    obtain rfl := App.cl.inj he
    have ht₁ := ht'.putSample hc hw' hb'
    refine .inr ⟨hb, created, (HeadTracks.putSample s' c b' t v).addTx appendID, l, ls, ?_, ?_, ?_,
      hhd⟩
    · simp only [hk, appCell, happ, hcell, hb₁, newest, hc, ok_bind, Bool.not_true,
        reduceCtorEq, if_false, setNewest]
      rw [HeadTracks.putSample, hc, happ]
    · unfold addTx
      split_ifs
      · exact { ht₁ with }
      · exact ht₁
    · unfold addTx
      split_ifs <;> exact ⟨hids.ref, hids.firstChunkID⟩

end TopcDB.Tsdb.HeadTracks
