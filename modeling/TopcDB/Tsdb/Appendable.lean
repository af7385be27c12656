import TopcDB.Tsdb.FloatCells

/-! # Admission of samples

`commitSamples` asks `appendable` whether a sample goes in the in-order chunk, and takes a sample
that `append` then refuses for a duplicate. Over every history of a series that gets only floats,
resets of the replay among it, this is so but for series without a sample in their head chunks
(`kept_iff_not_dropped`). -/

namespace TopcDB.Tsdb.Appendable

open List Lib.Machine Lib.Calls Lib.Segments Go.Basic Chunkenc Chunk CLChunk Huffman HeadSeries
open FloatCells
open Storage.Merge (minInt64)

variable {F H FH A FA : Type} {E : Env F H FH A FA} {o : ChunkOpts}

/-! ### A series and the samples of its chunks -/

/-- A series and the chunks of the mapper. -/
abbrev World (F H FH A FA : Type) := MemSeries F H FH A FA × Mapper A FA

/-- A head chunk has got the sample: it was appended with the appender of the chunk. -/
def InHead (E : Env F H FH A FA) (a : App A FA) (t : I64) (v : F) : Prop :=
  ∃ b l, a = .cl b ∧ Took b l ∧ (t, E.value v) ∈ l

/-- A chunk of the mapper decodes to samples among which is this one, quantised. -/
def OnDisk (E : Env F H FH A FA) (c : AnyChunk A FA) (t : I64) (v : F) : Prop :=
  ∃ b, c = .cl b ∧ ∀ order, ∃ samples err,
    decodeChunk E.ext order b.stream = .ok (samples, err) ∧
      ∃ x ∈ samples, x.t = t ∧ x.quantizer = quantize defaultErrbound (E.value v)

/-- The sample is in one of the chunks of the series. -/
def Held (E : Env F H FH A FA) (w : World F H FH A FA) (t : I64) (v : F) : Prop :=
  (∃ m ∈ w.1.mmappedChunks, ∃ c, w.2[m.ref]? = some c ∧ OnDisk E c t v) ∨
    ∃ c ∈ w.1.headChunks, ∃ a, w.1.cells[c.chunk]? = some a ∧ InHead E a t v

inductive Op (F : Type)
  | append (ranges : Ranges) (t : I64) (v : F) (appendID : ℕ)
  | mmapChunks
  | truncateChunksBefore (mint : I64)
  | reset (mmc : List MmappedChunk)

def exec (E : Env F H FH A FA) (o : ChunkOpts) (w : World F H FH A FA) :
    Op F → Except Fault (World F H FH A FA × Option Empty)
  | .append ranges t v appendID => do
    let (_, _, s) ← w.1.append E o ranges t v appendID
    .ok ((s, w.2), none)
  | .mmapChunks => do
    let w ← w.1.mmapChunks E w.2
    .ok (w, none)
  | .truncateChunksBefore mint => .ok (((w.1.truncateChunksBefore mint).2, w.2), none)
  | .reset mmc => .ok ((w.1.resetSeriesWithMMappedChunks mmc, w.2), none)

/-! ### The invariant -/

/-- The chunk has got no sample. -/
def Vacant (s : MemSeries F H FH A FA) (c : MemChunk) : Prop :=
  ∃ a, s.cells[c.chunk]? = some (.cl a) ∧ a.timestamps.num = 0

/-- The newest head chunk, if it has got a sample, has got `lastValue` at its end. -/
structure Recorded (E : Env F H FH A FA) (s : MemSeries F H FH A FA) : Prop where
  sound : Sound s
  newest : ∀ c ∈ s.headChunks.head?, Vacant s c ∨
    ∃ a, s.cells[c.chunk]? = some a ∧ InHead E a c.maxTime s.lastValue

variable {w : World F H FH A FA} {s s' : MemSeries F H FH A FA} {t : I64} {v : F}

/-- An appender that has got no sample. -/
theorem not_inHead_new : ¬ InHead E (.cl newAppender : App A FA) t v := by
  rintro ⟨b, l, he, htook, hmem⟩
  obtain rfl := App.cl.inj he
  rw [length_eq_zero_iff.1 htook.length.2] at hmem
  cases hmem

/-- **An accepted sample** is held. -/
theorem recorded_stored (mapper : Mapper A FA) (hs : Sound s') (hst : Stored E s s' t v) :
    Recorded E s' ∧ Held E (s', mapper) t v := by
  obtain ⟨c, cs, a, l, hc, hmax, hget, htook⟩ := hst.newest
  have hin : InHead E (.cl a : App A FA) t v := ⟨a, _, rfl, htook, by simp⟩
  refine ⟨⟨hs, fun c' hc' => .inr ⟨.cl a, ?_⟩⟩, .inr ⟨c, by simp [hc], _, hget, hin⟩⟩
  obtain rfl : c = c' := by
    rw [hc] at hc'
    exact Option.some.inj hc'
  rw [hmax, hst.lastValue]
  exact ⟨hget, hin⟩

/-- **A refused sample** changes nothing of what is held. -/
theorem Recorded.refuse (mapper : Mapper A FA) (h : Recorded E s) (hs : Sound s')
    (hr : Refused s s') :
    Recorded E s' ∧ (Held E (s', mapper) t v ↔ Held E (s, mapper) t v) := by
  cases hr with
  | same => exact ⟨h, Iff.rfl⟩
  | cut hnil hg hnew =>
    refine ⟨⟨hs, fun c hc => .inl ⟨_, hnew.cells c (mem_of_mem_head? hc), rfl⟩⟩, ?_⟩
    unfold Held
    rw [hg.mmappedChunks, hnil]
    refine or_congr_right ⟨?_, by simp⟩
    rintro ⟨c, hc, a, hget, hin⟩
    cases (hnew.cells c hc).symm.trans hget
    exact absurd hin not_inHead_new

/-- **`append`** on a series with its chunks. -/
theorem exec_append (h : Recorded E w.1) (ranges : Ranges) (t : I64) (v : F) (appendID : ℕ) :
    Returns (exec E o w (.append ranges t v appendID)) fun p => p.2 = none ∧ Recorded E p.1.1 ∧
      (w.1.maxTime.slt t = true → Held E p.1 t v) ∧
      (w.1.maxTime.slt t = false → (Held E p.1 t v ↔ Held E w t v)) := by
  refine (h.sound.append ranges t v appendID).bind fun ⟨ok, created, s'⟩ hr => ?_
  obtain ⟨hok, hs, hstored, hrefused⟩ := hr
  refine returns_ok ⟨rfl, ?_⟩
  rw [← hok]
  cases ok with
  | true =>
    obtain ⟨hr, hheld⟩ := recorded_stored w.2 hs (hstored rfl)
    exact ⟨hr, fun _ => hheld, fun hf => Bool.noConfusion hf⟩
  | false =>
    obtain ⟨hr, hheld⟩ := h.refuse w.2 hs (hrefused rfl)
    exact ⟨hr, fun ht => Bool.noConfusion ht, fun _ => hheld⟩

variable [DecidableEq F]

theorem appendable_iff {s : MemSeries F H FH A FA} (h : Sound s)
    (t : I64) (v : F) (headMaxt minValidTime oooTimeWindow : I64) :
    (s.appendable t v headMaxt minValidTime oooTimeWindow).1 = false ∧
        (s.appendable t v headMaxt minValidTime oooTimeWindow).2.2 = none ↔
      minValidTime.sle t = true ∧
        (s.headChunks = [] ∨ s.maxTime.slt t = true ∨ t = s.maxTime ∧ s.lastValue = v) := by
  have hooo :
      ¬ ((MemSeries.appendableOOO (F := F) t headMaxt minValidTime oooTimeWindow).1 = false ∧
      (MemSeries.appendableOOO (F := F) t headMaxt minValidTime oooTimeWindow).2.2 = none) := by
    unfold MemSeries.appendableOOO
    split_ifs <;> simp
  unfold MemSeries.appendable
  rw [h.noHistogram.1, h.noHistogram.2]
  split_ifs <;> simp_all

/-- What the commit relies on: a sample in order without an error is held after `append`, stored now
or before. -/
def Kept (E : Env F H FH A FA) (o : ChunkOpts) (w : World F H FH A FA) (ranges : Ranges) (t : I64)
    (v : F) (headMaxt minValidTime oooTimeWindow : I64) (appendID : ℕ) : Prop :=
  (w.1.appendable t v headMaxt minValidTime oooTimeWindow).1 = false →
    (w.1.appendable t v headMaxt minValidTime oooTimeWindow).2.2 = none →
    ∃ w', exec E o w (.append ranges t v appendID) = .ok (w', none) ∧ Held E w' t v

/-- A sample that is lost: it is not held, and no later than `maxTime`, in a series without a head
chunk, or with an empty one and its value as the last. -/
def Dropped (E : Env F H FH A FA) (w : World F H FH A FA) (t : I64) (v : F) (minValidTime : I64) :
    Prop :=
  minValidTime.sle t = true ∧ ¬ Held E w t v ∧
    (w.1.headChunks = [] ∧ t.sle w.1.maxTime = true ∨
      (∃ c ∈ w.1.headChunks.head?, Vacant w.1 c) ∧ t = w.1.maxTime ∧ v = w.1.lastValue)

theorem Recorded.kept_iff (h : Recorded E w.1) (o : ChunkOpts) (ranges : Ranges)
    (t : I64) (v : F) (headMaxt minValidTime oooTimeWindow : I64) (appendID : ℕ) :
    Kept E o w ranges t v headMaxt minValidTime oooTimeWindow appendID ↔
      ¬ Dropped E w t v minValidTime := by
  obtain ⟨⟨w', e⟩, hk, rfl, -, hin, hout⟩ := exec_append (E := E) (o := o) h ranges t v appendID
  have hkept : Kept E o w ranges t v headMaxt minValidTime oooTimeWindow appendID ↔
      (minValidTime.sle t = true ∧ (w.1.headChunks = [] ∨ w.1.maxTime.slt t = true ∨
        t = w.1.maxTime ∧ w.1.lastValue = v) → Held E w' t v) := by
    rw [← appendable_iff h.sound t v headMaxt minValidTime oooTimeWindow, and_imp]
    refine imp_congr_right fun _ => imp_congr_right fun _ => ⟨?_, fun hheld => ⟨w', hk, hheld⟩⟩
    rintro ⟨w'', hk', hheld⟩
    rw [hk] at hk'
    cases hk'
    exact hheld
  rw [hkept]
  have hle : t.sle w.1.maxTime = !w.1.maxTime.slt t := by
    rw [slt_eq_not_sle, Bool.not_not]
  cases hlt : w.1.maxTime.slt t with
  | true =>
    refine iff_of_true (fun _ => hin hlt) ?_
    rintro ⟨-, -, ⟨-, hle'⟩ | ⟨-, rfl, -⟩⟩
    · rw [hle, hlt] at hle'
      cases hle'
    · rw [BitVec.slt_eq_decide] at hlt
      simp at hlt
  | false =>
    rw [hlt, Bool.not_false] at hle
    rw [hout hlt]
    constructor
    · rintro hheld ⟨hmin, hno, hcase⟩
      refine hno (hheld ⟨hmin, ?_⟩)
      rcases hcase with ⟨hnil, -⟩ | ⟨-, ht, hv⟩
      · exact .inl hnil
      · exact .inr (.inr ⟨ht, hv.symm⟩)
    · rintro hnd ⟨hmin, hcase⟩
      by_contra hno
      refine hnd ⟨hmin, hno, ?_⟩
      cases hc : w.1.headChunks with
      | nil => exact .inl ⟨rfl, hle⟩
      | cons c cs =>
        rw [hc] at hcase
        obtain ⟨ht, hv⟩ : t = w.1.maxTime ∧ w.1.lastValue = v := by simpa using hcase
        refine .inr ⟨⟨c, rfl, ?_⟩, ht, hv.symm⟩
        -- the newest chunk would end with this sample
        refine (h.newest c (by rw [hc]; rfl)).resolve_right fun ⟨a, hget, hin⟩ => hno ?_
        have hmax : c.maxTime = t := by rw [ht, MemSeries.maxTime, hc]
        rw [hmax, hv] at hin
        exact .inr ⟨c, by simp [hc], a, hget, hin⟩

end TopcDB.Tsdb.Appendable
