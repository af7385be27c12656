import TopcDB.Tsdb.FloatCells

/-! # Floats and histograms in one series

`cutNewHeadChunk` converts the appender of every new chunk to one of a CL chunk, so that the first
histogram panics. Floats never do, but an iterator panics on a chunk whose header was never written,
because `Compact` failed on its values. There is no other way to a panic (`safe_iff_harmless`). -/

namespace TopcDB.Tsdb.MixedTypes

open List Lib.Assoc Lib.Calls Go.Basic Chunkenc CLChunk Chunk Huffman HeadSeries ReadIsolation
open FloatCells
open MemSeries
open Storage.Merge (minInt64 minInt64_le)

variable {F H FH A FA : Type} {E : Env F H FH A FA} {o : ChunkOpts}

/-! ### The calls -/

inductive Op (F H FH : Type)
  | append (ranges : Ranges) (t : I64) (v : F) (appendID : ℕ)
  | appendHistogram (ranges : Ranges) (t : I64) (h : H) (appendID : ℕ)
  | appendFloatHistogram (ranges : Ranges) (t : I64) (fh : FH) (appendID : ℕ)
  | chunk (ranges : Ranges) (id : ℕ)
  | iterator (ranges : Ranges) (order : RangeOrder (U64 × I64)) (id : ℕ)
      (isoState : Option IsolationState)
  | encodeToSnapshotRecord (ranges : Ranges)
  | mmapChunks

def Op.time : Op F H FH → Option I64
  | .append _ t _ _ | .appendHistogram _ t _ _ | .appendFloatHistogram _ t _ _ => some t
  | _ => none

/-- Whether the call appends a histogram of either kind. -/
def Op.isHistogram : Op F H FH → Bool
  | .appendHistogram .. | .appendFloatHistogram .. => true
  | _ => false

/-- The chunk with the given id, as a reader has it from `chunk`. -/
def pointer (p : MemSeries F H FH A FA × Mapper A FA) (id : ℕ) : Option (ChunkPtr A FA) :=
  if id < p.1.firstChunkID then none
  else
    match p.1.mmappedChunks[id - p.1.firstChunkID]? with
    | some m => p.2[m.ref]?.map .mapped
    | none => p.1.headChunks.reverse[id - p.1.firstChunkID - p.1.mmappedChunks.length]?.map
        fun c => .cell c.chunk

/-- One call. An iterator is asked for with a chunk of the series. -/
def exec (E : Env F H FH A FA) (o : ChunkOpts) (p : MemSeries F H FH A FA × Mapper A FA) :
    Op F H FH → Except Fault (MemSeries F H FH A FA × Mapper A FA)
  | .append ranges t v appendID =>
    (p.1.append E o ranges t v appendID).map fun r => (r.2.2, p.2)
  | .appendHistogram ranges t h appendID =>
    (p.1.appendHistogram E o ranges t h appendID).map fun r => (r.2.2, p.2)
  | .appendFloatHistogram ranges t fh appendID =>
    (p.1.appendFloatHistogram E o ranges t fh appendID).map fun r => (r.2.2, p.2)
  | .chunk ranges id => (p.1.chunk E p.2 ranges id).map fun r => (r.2, p.2)
  | .iterator ranges order id isoState =>
    match pointer p id with
    | none => .ok p
    | some c => (p.1.iterator E ranges order id c isoState).map fun r => (r.2, p.2)
  | .encodeToSnapshotRecord ranges =>
    (p.1.encodeToSnapshotRecord E ranges).map fun r => (r.2, p.2)
  | .mmapChunks => p.1.mmapChunks E p.2

/-- The current appender is the one of the newest head chunk, with which it shares its kind. -/
def Fitting (s : MemSeries F H FH A FA) : Prop :=
  ∀ c ∈ s.headChunks.head?, s.app = some c.chunk ∧ ∃ a, s.cells[c.chunk]? = some a

/-- No call of the sequence panics, and after each one the appender fits. -/
def Safe (E : Env F H FH A FA) (o : ChunkOpts) :
    MemSeries F H FH A FA × Mapper A FA → List (Op F H FH) → Prop
  | _, [] => True
  | p, op :: ops => ∃ p', exec E o p op = .ok p' ∧ Fitting p'.1 ∧ Safe E o p' ops

/-- Whether the call can read what it reads: an iterator that is to show something of a chunk must
be able to open it. -/
def readable (E : Env F H FH A FA) (p : MemSeries F H FH A FA × Mapper A FA) : Op F H FH → Bool
  | .iterator _ _ id isoState =>
    (pointer p id).all fun c =>
      decide (stopOf E p.1 id ((counts E p.1).getD (id - p.1.firstChunkID) 0) isoState = .ok 0) ||
        opens p.1 c
  | _ => true

/-- The sequence appends no histogram, and every iterator can open its chunk. -/
def harmless (E : Env F H FH A FA) (o : ChunkOpts) :
    MemSeries F H FH A FA × Mapper A FA → List (Op F H FH) → Bool
  | _, [] => true
  | p, op :: ops =>
    !op.isHistogram && readable E p op &&
      match exec E o p op with
      | .ok p' => harmless E o p' ops
      | .error _ => true

/-! ### Floats only -/

/-- The state before the given calls: sound, and their samples lie after all that it has. -/
structure Before (p : MemSeries F H FH A FA × Mapper A FA) (ops : List (Op F H FH)) : Prop where
  sound : Sound p.1
  filed : ∀ m ∈ p.1.mmappedChunks, Filed p.2 m
  unmapped : p.1.headChunks = [] → p.1.mmappedChunks = []
  times : p.1.headChunks ≠ [] → ∀ t ∈ ops.filterMap Op.time, p.1.maxTime.toInt < t.toInt

variable {p : MemSeries F H FH A FA × Mapper A FA} {op : Op F H FH} {ops : List (Op F H FH)}
  {s s' : MemSeries F H FH A FA} {ranges : Ranges} {t : I64} {v : F} {appendID : ℕ}

theorem Sound.fitting (h : Sound s) : Fitting s := fun c hc => by
  obtain ⟨a, hget, -⟩ := h.cell (h.chunks c (mem_of_mem_head? hc))
  exact ⟨h.app c hc, _, hget⟩

theorem before_new (ref : ℕ) (zero : F) (ops : List (Op F H FH)) :
    Before (newMemSeries ref zero, ([] : Mapper A FA)) ops :=
  ⟨sound_new ref zero, by simp [newMemSeries], fun _ => rfl, fun hne => absurd rfl hne⟩

theorem Before.later (h : Before p (op :: ops)) (hne : p.1.headChunks ≠ []) :
    ∀ t ∈ ops.filterMap Op.time, p.1.maxTime.toInt < t.toInt := fun t ht => by
  obtain ⟨op', hop', he⟩ := mem_filterMap.1 ht
  exact h.times hne t (mem_filterMap.2 ⟨op', mem_cons_of_mem _ hop', he⟩)

theorem Before.unchanged (h : Before p (op :: ops)) : Fitting p.1 ∧ Before p ops :=
  ⟨Sound.fitting h.sound, h.sound, h.filed, h.unmapped, h.later⟩

theorem Before.compacted (h : Before p (op :: ops)) (hc : Compacted E p.1 s') :
    Fitting s' ∧ Before (s', p.2) ops := by
  obtain ⟨hh, hm⟩ := hc.headChunks
  have hs := hc.sound h.sound
  have hmax : s'.maxTime = p.1.maxTime := by rw [maxTime, maxTime, hh, hm]
  refine ⟨Sound.fitting hs, hs, ?_, ?_, ?_⟩ <;> simp only [hh, hm, hmax]
  · exact h.filed
  · exact h.unmapped
  · exact h.later

theorem exec_append (h : Before p (.append ranges t v appendID :: ops))
    (hinc : ∀ t' ∈ ops.filterMap Op.time, t.toInt < t'.toInt) :
    Returns (exec E o p (.append ranges t v appendID)) fun p' => Fitting p'.1 ∧ Before p' ops := by
  refine (h.sound.append ranges t v appendID).map fun ⟨ok, created, s'⟩ hr => ?_
  obtain ⟨hok, hs, hstored, hrefused⟩ := hr
  refine ⟨Sound.fitting hs, ?_⟩
  cases ok with
  | true =>
    have hst := hstored rfl
    obtain ⟨c, cs, a, l, hc, hmax, -⟩ := hst.newest
    refine ⟨hs, ?_, fun hnil => ?_, fun _ t' ht' => ?_⟩
    · rw [hst.mmappedChunks]; exact h.filed
    · rw [show s'.headChunks = [] from hnil] at hc
      cases hc
    · rw [maxTime, hc]
      simp only [hmax]
      exact hinc t' ht'
  | false =>
    cases hrefused rfl with
    | same => exact h.unchanged.2
    | cut hnil hg hnew =>
      have hmm := h.unmapped hnil
      refine ⟨hs, ?_, fun _ => ?_, fun _ t' ht' => ?_⟩
      · rw [hg.mmappedChunks]; exact h.filed
      · rw [hg.mmappedChunks]; exact hmm
      · rw [hnew.maxTime]
        exact (minInt64_le t).trans_lt (hinc t' ht')

theorem exec_mmapChunks (h : Before p (.mmapChunks :: ops)) :
    Returns (exec E o p .mmapChunks) fun p' => Fitting p'.1 ∧ Before p' ops := by
  refine (h.sound.mmapChunks p.2).mono fun p' hp => ?_
  obtain ⟨hs, ms, bs, rfl, hlen, hfiled⟩ := hp
  refine ⟨Sound.fitting hs, hs, fun m hm => ?_, fun hnil => ?_, fun hne => ?_⟩
  · rcases mem_append.1 hm with hm | hm
    · exact (h.filed m hm).append bs
    · exact hfiled m hm
  · have hnil' : p.1.headChunks = [] := by simpa using hnil
    rw [hnil', tail_nil, length_nil, length_eq_zero_iff] at hlen
    simp only [hlen, h.unmapped hnil', append_nil]
  · have hne' : p.1.headChunks ≠ [] := fun hnil => hne (by simp [hnil])
    obtain ⟨c, cs, hc⟩ := exists_cons_of_ne_nil hne'
    have hlater := h.later hne'
    rw [maxTime, hc] at hlater
    simp only [maxTime, hc, take_succ_cons, take_zero]
    exact hlater

/-- **The chunk of an iterator** is one of the series, which counts its samples. -/
theorem Before.pointer (h : Before p ops) {id : ℕ} {c : ChunkPtr A FA}
    (hc : MixedTypes.pointer p id = some c) :
    ∃ ix n, id = p.1.firstChunkID + ix ∧ ChunkOf p.1 c ∧
      (p.1.deref c).map (anySamples E) = .ok n ∧ (counts E p.1)[ix]? = some n := by
  unfold MixedTypes.pointer at hc
  split_ifs at hc with hlt
  obtain ⟨ix, rfl⟩ := Nat.exists_eq_add_of_le (not_lt.1 hlt)
  rw [Nat.add_sub_cancel_left] at hc
  refine ⟨ix, ?_⟩
  unfold counts
  cases hm : p.1.mmappedChunks[ix]? with
  | some m =>
    obtain ⟨b, hb, hget, hhead, hnum⟩ := h.filed m (mem_of_getElem? hm)
    rw [hm] at hc
    simp only [hget, Option.map_some, Option.some.injEq] at hc
    subst hc
    refine ⟨_, rfl, ⟨b, hb, rfl, hhead⟩, congrArg Except.ok hnum, ?_⟩
    rw [getElem?_append_left (by rw [length_map]; exact (List.getElem?_eq_some_iff.1 hm).1),
      getElem?_map, hm, Option.map_some]
  | none =>
    rw [hm] at hc
    obtain ⟨d, hd, rfl⟩ := Option.map_eq_some_iff.1 hc
    have hlt' := h.sound.chunks d (mem_reverse.1 (mem_of_getElem? hd))
    obtain ⟨a, hget, hcell, -⟩ := h.sound.cell hlt'
    refine ⟨anySamples E (.cl a.b), rfl, hlt', by rw [deref, hcell]; rfl, ?_⟩
    rw [getElem?_append_right (by rw [length_map]; exact getElem?_eq_none_iff.1 hm), length_map,
      getElem?_map, hd, Option.map_some, hget]
    rfl

/-- **An iterator** returns when its chunk can be opened, and panics otherwise. -/
theorem exec_iterator {order : RangeOrder (U64 × I64)} {id : ℕ} {isoState : Option IsolationState}
    (h : Before p (.iterator ranges order id isoState :: ops)) :
    (readable E p (.iterator ranges order id isoState) = true →
        Returns (exec E o p (.iterator ranges order id isoState)) fun p' =>
          Fitting p'.1 ∧ Before p' ops) ∧
      (readable E p (.iterator ranges order id isoState) = false →
        exec E o p (.iterator ranges order id isoState) = .error .panic) := by
  simp only [exec, readable]
  cases hc : pointer p id with
  | none => exact ⟨fun _ => ⟨p, rfl, h.unchanged⟩, fun hf => by simp at hf⟩
  | some c =>
    obtain ⟨ix, n, rfl, hof, hn, hix⟩ := h.pointer (E := E) hc
    obtain ⟨hok, hpanic⟩ := h.sound.iterator (E := E) ranges order hof hn hix isoState
    simp only [Option.all_some, Nat.add_sub_cancel_left, getD_eq_getElem?_getD, hix,
      Option.getD_some, Bool.or_eq_true, decide_eq_true_eq, ← Bool.not_eq_true]
    exact ⟨fun hr => (hok hr).map fun r hr => h.compacted hr, fun hr => by rw [hpanic hr]; rfl⟩

/-- **A call that appends no histogram** returns, unless it is an iterator that cannot open its
chunk. -/
theorem exec_float (h : Before p (op :: ops))
    (hinc : ((op :: ops).filterMap Op.time).Pairwise fun t t' => t.toInt < t'.toInt)
    (hop : op.isHistogram = false) (hread : readable E p op = true) :
    Returns (exec E o p op) fun p' => Fitting p'.1 ∧ Before p' ops := by
  cases op with
  | append ranges t v appendID =>
    exact exec_append h (pairwise_cons.1 hinc).1
  | appendHistogram ranges t h appendID => cases hop
  | appendFloatHistogram ranges t fh appendID => cases hop
  | chunk ranges id =>
    refine (h.sound.chunk h.filed ranges id).map fun r hr => ?_
    rcases hr with hsame | hcomp
    · rw [hsame]
      exact h.unchanged
    · exact h.compacted hcomp
  | iterator ranges order id isoState => exact (exec_iterator h).1 hread
  | encodeToSnapshotRecord ranges =>
    exact (h.sound.encodeToSnapshotRecord ranges).map fun r hr => h.compacted hr
  | mmapChunks => exact exec_mmapChunks h

/-- **An iterator that cannot open its chunk** panics. -/
theorem exec_unreadable (h : Before p (op :: ops)) (hread : readable E p op = false) :
    exec E o p op = .error .panic := by
  cases op with
  | iterator ranges order id isoState => exact (exec_iterator h).2 hread
  | _ => cases hread

/-! ### The first histogram -/

/-- **A cut for histograms panics** where it converts the new appender. -/
theorem cut_panics (h : Sound s) {e : Encoding} (he : e ≠ .cl) (ranges : Ranges) (mint w : I64)
    (errbound : ℚ) : s.cutNewHeadChunk E ranges mint e w errbound = .error .panic := by
  have hnew : ∀ a : CLAppender, newApp E e ≠ .cl a := by
    cases e <;> simp_all [newApp]
  obtain ⟨r, hr, hcomp⟩ := (returns_compact (E := E) (h.link mint w e) ranges).2
  have hlast : (s.linkChunk E mint e w).cells[s.cells.length]? = some (newApp E e) :=
    getElem?_concat_length
  -- the cell that is compacted is another one
  have hcell : r.cells[s.cells.length]? = some (newApp E e) := by
    cases hcomp with
    | none _ => exact hlast
    | @cell i a a' _ hget _ _ _ _ =>
      have hne : i ≠ s.cells.length := by
        rintro rfl
        rw [hlast] at hget
        exact hnew a (Option.some.inj hget)
      simp only [getElem?_set_ne hne, hlast]
  unfold cutNewHeadChunk
  simp only [hr, ok_bind, hcell]
  cases e <;> simp_all [newApp]

theorem preprocessor_panics (h : Before p ops) {e : Encoding} (he : e ≠ .cl) (ranges : Ranges)
    (ht : p.1.headChunks ≠ [] → p.1.maxTime.toInt < t.toInt) :
    p.1.histogramsAppendPreprocessor E o ranges t e = .error .panic := by
  unfold histogramsAppendPreprocessor openHead
  cases hc : p.1.headChunks with
  | nil =>
    simp only [h.unmapped hc, getLast?_nil, Option.any_none, reduceCtorEq, if_false,
      cut_panics h.sound he, Except.map, bind, Except.bind]
  | cons c cs =>
    obtain ⟨a, -, hcell, -⟩ := h.sound.cell (h.sound.chunks c (by rw [hc]; simp))
    have hnew : p.1.newest = .ok c := by rw [newest, hc]
    have hlt := ht (by rw [hc]; simp)
    rw [maxTime, hc] at hlt
    have hord : t.sle c.maxTime = false := by
      rw [BitVec.sle_eq_decide, decide_eq_false_iff_not]
      exact not_le.2 hlt
    have hcut : encodingOf (.cl a : App A FA) ≠ e := fun hcl => he hcl.symm
    simp only [hnew, hcell, hord, hcut, bind, Except.bind, cutIf, cut_panics h.sound he,
      Except.map, reduceCtorEq, if_false, ne_eq, not_false_eq_true, decide_true, if_true]

/-- **A histogram panics.** -/
theorem exec_histogram (h : Before p (op :: ops)) (hop : op.isHistogram = true) :
    exec E o p op = .error .panic := by
  cases op with
  | appendHistogram ranges t hist appendID =>
    have hk := preprocessor_panics (E := E) (o := o) (t := t) h (e := .histogram) (by simp) ranges
      fun hne => h.times hne t (by simp [Op.time])
    simp only [exec, appendHistogram, appendKind, hk, bind, Except.bind, Except.map]
  | appendFloatHistogram ranges t hist appendID =>
    have hk := preprocessor_panics (E := E) (o := o) (t := t) h (e := .floatHistogram)
      (by simp) ranges
      fun hne => h.times hne t (by simp [Op.time])
    simp only [exec, appendFloatHistogram, appendKind, hk, bind, Except.bind,
      Except.map]
  | _ => cases hop

/-! ### Sequences of calls -/

theorem Before.safe_iff : ∀ {ops : List (Op F H FH)} {p : MemSeries F H FH A FA × Mapper A FA},
    Before p ops → (ops.filterMap Op.time).Pairwise (fun t t' => t.toInt < t'.toInt) →
    (Safe E o p ops ↔ harmless E o p ops = true)
  | [], _, _, _ => by simp [Safe, harmless]
  | op :: ops, p, h, hinc => by
    rw [Safe, harmless]
    cases hop : op.isHistogram with
    | true => simp [exec_histogram h hop]
    | false =>
      cases hread : readable E p op with
      | false => simp [exec_unreadable h hread]
      | true =>
        obtain ⟨p', hk, hfit, hp'⟩ := exec_float (E := E) (o := o) h hinc hop hread
        have hinc' : (ops.filterMap Op.time).Pairwise fun t t' => t.toInt < t'.toInt :=
          hinc.sublist (List.Sublist.filterMap _ (sublist_cons_self _ _))
        simp [hk, hfit, Before.safe_iff hp' hinc']

/-- **A sequence of calls with increasing times is safe exactly when it has no histogram and every
iterator can open its chunk.** -/
theorem safe_iff_harmless (E : Env F H FH A FA) (o : ChunkOpts) (ref : ℕ) (zero : F)
    (ops : List (Op F H FH))
    (hinc : (ops.filterMap Op.time).Pairwise fun t t' => t.toInt < t'.toInt) :
    Safe E o (newMemSeries ref zero, []) ops ↔
      harmless E o (newMemSeries ref zero, []) ops = true :=
  (before_new ref zero ops).safe_iff hinc

/-- Floats with all other calls in between, and an iterator on each of the two chunks. -/
theorem safe_iff_harmless_floats :
    Safe plainEnv (plainOpts (1 / 100)) (newMemSeries 1 0, [])
      [.append default 1000 1 1, .chunk default 0, .append default 9000000 2 2, .mmapChunks,
        .iterator default default 0 none, .iterator default default 1 none,
        .encodeToSnapshotRecord default] :=
  (safe_iff_harmless plainEnv (plainOpts (1 / 100)) 1 0 _ (by decide)).2 (by decide +kernel)

/-- The second value is out of the range of Simple8b: `Compact` writes no header. -/
example : harmless plainEnv (plainOpts (1 / 100)) (newMemSeries 1 0, [])
    [.append default 1000 1 0, .append default 2000 (2 ^ 60 / 50) 0,
      .iterator default default 0 none] = false := by
  decide +kernel

/-- A float and a histogram after it. -/
theorem not_safe_floatHistogram :
    ¬ Safe plainEnv (plainOpts (1 / 100)) (newMemSeries 1 0, [])
      [.append default 1000 1 0, .appendHistogram default 2000 () 0] := by
  rintro ⟨p, hp, -, p', hp', -⟩
  have hpanic : ((exec plainEnv (plainOpts (1 / 100)) (newMemSeries 1 0, [])
      (.append default 1000 1 0)).bind fun p =>
        exec plainEnv (plainOpts (1 / 100)) p (.appendHistogram default 2000 () 0)).map
          (fun _ => ()) = .error .panic := by
    decide +kernel
  rw [hp, Except.bind, hp'] at hpanic
  cases hpanic

end TopcDB.Tsdb.MixedTypes
