import TopcDB.Storage.ClLaws
import TopcDB.Tsdb.PopulateSingle
import TopcDB.Tsdb.ReadIsolation

/-! # What a reader sees of a head chunk

`memSeries.iterator` bounds what is read of a chunk by `stopAfter`: there is no iterator for
nothing, the iterator of the chunk for all of it, and else a `stopIterator`, which counts the calls
of `Next`. It does not count those of `Seek`, which go to the wrapped iterator and see the whole
chunk. Calls are made by a caller that chooses each one from the answers so far, as
`populateWithDelSeriesIterator` and everything above it does.

`noninterfering_iff`: two heads in which a chunk differs only in its hidden rest answer alike, and
within the bound, exactly when in both nothing of the chunk is hidden or everything is. -/

namespace TopcDB.Tsdb.HeadIterator

open List Lib.Bits Lib.Assoc Lib.Machine Go.Basic Chunkenc CLChunk Chunk Storage ChainSeek ClLaws
open CLIterate PopulateSingle ReadIsolation

/-! ### The iterator of a head chunk -/

/-- The iterators of `memSeries.iterator`: `nopIterator`, the nil `*CLIterator` of a chunk that
cannot be opened, that of a chunk, and a `stopIterator` around it. -/
inductive ChunkIterator
  | nop
  | nil
  | chunk (it : CLIterator)
  | stop (it : StopIterator CLIterator)

/-- What a caller is told by a call: nothing at `ValNone`, else what `At` gives. -/
abbrev Answer := Option (I64 × ℚ)

def answer {σ : Type} (I : Iterator σ Unit Unit) (wrap : σ → ChunkIterator) :
    ValueType × σ → Except Fault (Answer × ChunkIterator)
  | (.none, s) => .ok (none, wrap s)
  | (_, s) => (I.atFloat s).map fun x => (some x, wrap s)

/-- A call of `Next` or `Seek`. -/
def callOf {σ : Type} (I : Iterator σ Unit Unit) (s : σ) :
    Call → Except Fault (ValueType × σ)
  | .next => I.next s
  | .seek t => I.seek s t

def ask : ChunkIterator → Call → Except Fault (Answer × ChunkIterator)
  | .nop, _ => .ok (none, .nop)
  | .nil, _ => .error .panic
  | .chunk it, k => do answer (clIterator Unit Unit) .chunk (← callOf (clIterator Unit Unit) it k)
  | .stop it, k => do
    answer (stopIterator (clIterator Unit Unit)) .stop
      (← callOf (stopIterator (clIterator Unit Unit)) it k)

/-- `CLChunk.Iterator`. -/
def openChunk (ext : Extern) (order : RangeOrder (U64 × I64)) (b : List Byte)
    (wrap : CLIterator → ChunkIterator) : Except Fault ChunkIterator := do
  match ← reset ext order b with
  | none => .ok .nil
  | some it => .ok (wrap it)

/-- `memSeries.iterator` for the chunk `b`, which the appender has compacted. -/
def iterator (ext : Extern) (order : RangeOrder (U64 × I64)) (s : Series) (id : ℕ) (b : List Byte)
    (isoState : IsolationState) : Except Fault ChunkIterator := do
  let stopAfter ← s.stopAfter id (numSamples b) isoState
  if stopAfter = 0 then .ok .nop
  else if stopAfter = numSamples b then openChunk ext order b .chunk
  else openChunk ext order b fun it => .stop ⟨it, -1, stopAfter⟩

/-! ### A cursor over a list of samples -/

/-- `At`. -/
def atSample (x : Sample) : I64 × ℚ := (x.t, x.val)

/-- A cursor that has passed the first `i` samples. -/
def cursor (l : List Sample) (i : ℕ) : Call → Answer × ℕ
  | .next =>
    match l[i]? with
    | none => (none, i)
    | some x => (some (atSample x), i + 1)
  | .seek t =>
    match (l.drop (i - 1)).findIdx? fun x => t.sle x.t with
    | none => (none, l.length)
    | some d => ((l[i - 1 + d]?).map atSample, i - 1 + d + 1)

variable {i m j d k : ℕ}

theorem cursor_mem {l : List Sample} {k : Call} {x : I64 × ℚ} (h : (cursor l i k).1 = some x) :
    x ∈ l.map atSample := by
  cases k with
  | next =>
    rw [cursor] at h
    split at h
    · cases h
    · next y hy =>
      cases h
      exact mem_map_of_mem (mem_of_getElem? hy)
  | seek t =>
    rw [cursor] at h
    split at h
    · cases h
    · obtain ⟨y, hy, rfl⟩ := Option.map_eq_some_iff.1 h
      exact mem_map_of_mem (mem_of_getElem? hy)

variable {l : List Sample} {i : ℕ} {it : CLIterator}

section

variable (hasc : l.Pairwise fun x y => x.t.toInt < y.t.toInt) {t : I64}
include hasc

theorem before_of_pairwise {x y : Sample} (hm : l[m]? = some x) (hj : l[j]? = some y) (hmj : m ≤ j)
    (hy : y.t.toInt < t.toInt) : x.t.toInt < t.toInt := by
  obtain ⟨hm', rfl⟩ := List.getElem?_eq_some_iff.1 hm
  obtain ⟨hj', rfl⟩ := List.getElem?_eq_some_iff.1 hj
  rcases hmj.eq_or_lt with rfl | hlt
  · exact hy
  · exact (pairwise_iff_getElem.1 hasc m j hm' hj' hlt).trans hy

theorem before_of_findIdx?_none (hi : i ≤ l.length)
    (h : (l.drop (i - 1)).findIdx? (fun x => t.sle x.t) = none) : ∀ x ∈ l, x.t.toInt < t.toInt := by
  rw [findIdx?_eq_none_iff] at h
  have hfrom : ∀ m x, i - 1 ≤ m → l[m]? = some x → x.t.toInt < t.toInt := by
    intro m x hm hx
    have hf := h x (mem_of_getElem? (i := m - (i - 1))
      (by rw [getElem?_drop, Nat.add_sub_cancel' hm, hx]))
    rw [sle_eq_false] at hf
    exact hf
  intro x hx
  obtain ⟨m, hm⟩ := mem_iff_getElem?.1 hx
  rcases Nat.lt_or_ge m (i - 1) with hlt | hge
  · have hget := getElem?_eq_getElem (show i - 1 < l.length by omega)
    exact before_of_pairwise hasc hm hget hlt.le (hfrom _ _ (le_refl _) hget)
  · exact hfrom m x hge hm

/-- What is found at `j` is either where the cursor is, or the first sample from `t` on. -/
theorem findIdx?_some (h : (l.drop (i - 1)).findIdx? (fun x => t.sle x.t) = some d) :
    ∃ x, l[i - 1 + d]? = some x ∧ t.toInt ≤ x.t.toInt ∧
      (i = i - 1 + d + 1 ∨ i ≤ i - 1 + d ∧ ∀ y ∈ l.take (i - 1 + d), y.t.toInt < t.toInt) := by
  obtain ⟨hd, hp, hbefore⟩ := findIdx?_eq_some_iff_getElem.1 h
  rw [length_drop] at hd
  have hj : i - 1 + d < l.length := by omega
  rw [getElem_drop, BitVec.sle_iff_toInt_le] at hp
  refine ⟨_, getElem?_eq_getElem hj, hp, ?_⟩
  rcases Nat.eq_zero_or_pos i with rfl | hi
  · refine .inr ⟨Nat.zero_le _, fun y hy => ?_⟩
    obtain ⟨m, hm, rfl⟩ := mem_take_iff_getElem.1 hy
    have hlt := hbefore m (by omega)
    rw [getElem_drop, BitVec.sle_iff_toInt_le, not_le] at hlt
    simpa only [Nat.zero_sub, Nat.zero_add] using hlt
  rcases Nat.eq_zero_or_pos d with rfl | hd'
  · exact .inl (by omega)
  · refine .inr ⟨by omega, fun y hy => ?_⟩
    obtain ⟨m, hm, rfl⟩ := mem_take_iff_getElem.1 hy
    rcases Nat.lt_or_ge m (i - 1) with hlt | hge
    · have h0 := hbefore 0 hd'
      rw [getElem_drop, BitVec.sle_iff_toInt_le, not_le] at h0
      exact before_of_pairwise hasc (getElem?_eq_getElem (by omega))
        (getElem?_eq_getElem (show i - 1 + 0 < l.length by omega)) (by omega) h0
    · have hm' := hbefore (m - (i - 1)) (by omega)
      rw [getElem_drop, BitVec.sle_iff_toInt_le, not_le] at hm'
      simpa only [Nat.add_sub_cancel' hge] using hm'

end

/-- **The iterator of a chunk is a cursor over its samples.** -/
theorem call_chunk (h : ClPassed l i it) (hasc : l.Pairwise fun x y => x.t.toInt < y.t.toInt)
    (k : Call) : ∃ typ it', callOf (clIterator Unit Unit) it k = .ok (typ, it') ∧
      ClPassed l (cursor l i k).2 it' ∧
      (cursor l i k).1 = if typ = .none then none else some (it'.t, it'.val) := by
  cases k with
  | next =>
    rcases hx : l[i]? with _ | x
    · obtain rfl : i = l.length := le_antisymm h.le (getElem?_eq_none_iff.1 hx)
      refine ⟨.none, it, by simp [callOf, clIterator, h.next_end, Except.map], ?_, ?_⟩
      · simpa only [cursor, hx] using h
      · simp only [cursor, hx, if_true]
    · obtain ⟨it', hn, h'⟩ := h.next hx
      refine ⟨.float, it', by simp [callOf, clIterator, hn, Except.map], ?_, ?_⟩
      · simpa only [cursor, hx] using h'
      · obtain ⟨ht, hv⟩ := h'.current i x rfl hx
        simp [cursor, hx, atSample, ht, hv]
  | seek t =>
    have hseek : callOf (clIterator Unit Unit) it (.seek t) = seekLoop t (it.numTotal + 1) it := by
      simp [callOf, clIterator, seek, h.err]
    rw [hseek]
    rcases hf : (l.drop (i - 1)).findIdx? (fun x => t.sle x.t) with _ | d
    · obtain ⟨it', hs, h'⟩ := ClPassed.seekLoop_end (k := it.numTotal + 1) h
        (by rw [h.total]; omega) (before_of_findIdx?_none hasc h.le hf)
      refine ⟨.none, it', hs, ?_, ?_⟩
      · simpa only [cursor, hf] using h'
      · simp only [cursor, hf, if_true]
    · obtain ⟨x, hx, ht, hcase⟩ := findIdx?_some hasc hf
      obtain ⟨it', hs, h'⟩ : ∃ it', seekLoop t (it.numTotal + 1) it = .ok (.float, it') ∧
          ClPassed l (i - 1 + d + 1) it' := by
        rcases hcase with he | ⟨hle, hb⟩
        · have h1 : ClPassed l (i - 1 + d + 1) it := he ▸ h
          have hstop : ¬ (it.t.slt t ∨ it.numRead = 0) := by
            rw [(h1.current _ x rfl hx).1, h1.read, BitVec.slt_iff_toInt_lt]
            omega
          exact ⟨it, by rw [seekLoop, if_neg hstop], h1⟩
        · have hlt := (List.getElem?_eq_some_iff.1 hx).1
          exact ClPassed.seekLoop h hx (by omega) (by rw [h.total]; omega) hb ht
      refine ⟨.float, it', hs, ?_, ?_⟩
      · simpa only [cursor, hf] using h'
      · obtain ⟨ht', hv⟩ := h'.current _ x rfl hx
        simp [cursor, hf, hx, atSample, ht', hv]

theorem ask_chunk (h : ClPassed l i it) (hasc : l.Pairwise fun x y => x.t.toInt < y.t.toInt)
    (k : Call) : ∃ it', ask (.chunk it) k = .ok ((cursor l i k).1, .chunk it') ∧
      ClPassed l (cursor l i k).2 it' := by
  obtain ⟨typ, it', hc, h', ha⟩ := call_chunk h hasc k
  refine ⟨it', ?_, h'⟩
  rw [ask, hc, ha]
  cases typ <;> rfl

/-! ### A chunk of a head series under a reader's state -/

variable {ext : Extern} {order : RangeOrder (U64 × I64)} {st : IsolationState}

/-- A chunk in a head that some run has reached, where a read with the state `st` is open: the
append of each of its samples, and its bytes with what they decode to. -/
structure HeadChunk (ext : Extern) (order : RangeOrder (U64 × I64)) (st : IsolationState) where
  world : World
  reached : ∃ mmappedChunks headChunks firstChunkID capacity ops,
    run step (restored mmappedChunks headChunks firstChunkID capacity) ops = .ok (world, [])
  reader : ℕ
  isOpen : (reader, st) ∈ world.iso.readsOpen
  ix : ℕ
  appends : List (Option ℕ)
  found : world.series.chunks[ix]? = some appends
  bytes : List Byte
  samples : List Sample
  counted : numSamples bytes = samples.length
  decodes : decodeChunk ext order bytes = .ok (samples, none)
  length_eq : samples.length = appends.length
  ascends : samples.Pairwise fun x y => x.t.toInt < y.t.toInt

namespace HeadChunk

variable (c : HeadChunk ext order st)

/-- The samples of the series before the chunk. -/
def before : List (Option ℕ) :=
  c.world.truncated ++ (c.world.series.chunks.take c.ix).flatten

/-- The state hides no sample up to the end of the chunk. -/
def Clean : Prop :=
  ∀ id, some id ∈ c.before ++ c.appends → st.hides id = false

/-- The state hides a sample before or at the first one of the chunk, or the chunk is empty. -/
def Blocked : Prop :=
  c.appends = [] ∨ ∃ id, some id ∈ c.before ++ c.appends.take 1 ∧ st.hides id = true

/-- The samples of the chunk before the first one of the series that the state hides. -/
def shown : List Sample :=
  if c.before.all fun o => o.all fun id => !st.hides id then
    ((c.appends.zip c.samples).takeWhile fun p => p.1.all fun id => !st.hides id).map Prod.snd
  else []

/-- `stopAfter` for the chunk. -/
def stopAfter : Except Fault ℕ :=
  c.world.series.stopAfter (c.world.series.firstChunkID + c.ix) (numSamples c.bytes) st

/-- The iterator for the chunk, and the answers it gives to at most `n` calls. -/
def answers (caller : List Answer → Option Call) (n : ℕ) : Except Fault (List Answer) := do
  let it ← iterator ext order c.world.series (c.world.series.firstChunkID + c.ix) c.bytes st
  play ask caller n [] it

/-- Everything in the answers is one of the first `stopAfter` samples. -/
def Confined (seen : List Answer) : Prop :=
  ∃ k, c.stopAfter = .ok k ∧ ∀ x, some x ∈ seen → x ∈ (c.samples.take k).map atSample

end HeadChunk

/-- Every caller gets the same answers for both chunks, confined to their first `stopAfter`
samples. -/
def Noninterfering (c c' : HeadChunk ext order st) : Prop :=
  ∀ caller n, ∃ seen, c.answers caller n = .ok seen ∧ c'.answers caller n = .ok seen ∧
    c.Confined seen ∧ c'.Confined seen

namespace HeadChunk

variable (c : HeadChunk ext order st)

theorem aligned : Aligned c.world := by
  obtain ⟨mm, hd, first, capacity, ops, hr⟩ := c.reached
  obtain ⟨w, hr', h⟩ := run_aligned (aligned_restored mm hd first capacity) ops
  obtain rfl : w = c.world := (Prod.mk.inj (Except.ok.inj (hr'.symm.trans hr))).1
  exact h

theorem stopAfter_isGreatest_appends :
    ∃ k, c.stopAfter = .ok k ∧ IsGreatest {m | m ≤ c.appends.length ∧ (m = 0 ∨ ∀ id,
      some id ∈ c.before ++ c.appends.take m → st.hides id = false)} k := by
  have hn : numSamples c.bytes = c.appends.length := c.counted.trans c.length_eq
  have h := c.aligned.stopAfter c.isOpen c.found hn.le
  rw [hn] at h
  rw [stopAfter, hn]
  exact h

theorem stopAfter_spec :
    ∃ k, c.stopAfter = .ok k ∧ k ≤ c.samples.length ∧
      (k = 0 ∨ k = c.samples.length ↔ c.Clean ∨ c.Blocked) := by
  obtain ⟨k, hk, ⟨hle, hclean⟩, hmax⟩ := c.stopAfter_isGreatest_appends
  refine ⟨k, hk, by rw [c.length_eq]; exact hle, ?_⟩
  rw [c.length_eq]
  constructor
  · rintro (rfl | rfl)
    · by_contra hb
      simp only [Blocked, not_or, not_exists, not_and, Bool.not_eq_true] at hb
      have hpos : 1 ≤ c.appends.length := length_pos_iff.2 hb.2.1
      exact absurd (hmax ⟨hpos, .inr hb.2.2⟩) (by omega)
    · rcases hclean with h0 | hclean
      · exact .inr (.inl (length_eq_zero_iff.1 h0))
      · exact .inl fun id hid => hclean id (by rwa [take_length])
  · rintro (hc | he | ⟨id, hid, hh⟩)
    · exact .inr (le_antisymm hle (hmax ⟨le_refl _, .inr fun id hid =>
        hc id (by rwa [take_length] at hid)⟩))
    · rw [he] at hle
      exact .inl (Nat.le_zero.1 hle)
    · refine .inl ?_
      by_contra h0
      have hmem : some id ∈ c.before ++ c.appends.take k :=
        (mem_append.1 hid).elim (fun h => mem_append_left _ h) fun h =>
          mem_append_right _ ((take_sublist_take_left (by omega)).subset h)
      rw [hclean.resolve_left h0 id hmem] at hh
      exact Bool.false_ne_true hh

theorem takeWhile_zip {α β : Type} (p : α → Bool) : ∀ {l : List α} {m : List β},
    m.length = l.length →
    ((l.zip m).takeWhile fun x => p x.1).map Prod.snd = m.take (l.takeWhile p).length
  | [], [], _ => rfl
  | a :: l, b :: m, h => by
    rw [zip_cons_cons, takeWhile_cons, takeWhile_cons]
    cases hp : p a with
    | true => simpa using takeWhile_zip p (Nat.succ.inj h)
    | false => simp

theorem le_length_takeWhile {α : Type} {p : α → Bool} {l : List α} {k : ℕ} (hk : k ≤ l.length)
    (h : ∀ a ∈ l.take k, p a = true) : k ≤ (l.takeWhile p).length := by
  rw [← take_append_drop k l, takeWhile_append_of_pos h, length_append, length_take]
  omega

/-- The first `stopAfter` samples are those before the first hidden one. -/
theorem shown_eq (hk : c.stopAfter = .ok k) : c.shown = c.samples.take k := by
  obtain ⟨k', hk', ⟨hle, hclean⟩, hmax⟩ := c.stopAfter_isGreatest_appends
  cases hk'.symm.trans hk
  have hvis : ∀ l : List (Option ℕ), (∀ o ∈ l, (o.all fun id => !st.hides id) = true) ↔
      ∀ id, some id ∈ l → st.hides id = false := by
    intro l
    refine ⟨fun h id hid => by simpa using h _ hid, fun h o ho => ?_⟩
    rcases o with _ | id
    · rfl
    · simp [h id ho]
  unfold shown
  split_ifs with hb
  · rw [all_eq_true, hvis] at hb
    rw [takeWhile_zip _ c.length_eq]
    congr 1
    refine le_antisymm (hmax ⟨(takeWhile_sublist _).length_le, .inr fun id hid => ?_⟩) ?_
    · rcases mem_append.1 hid with hid | hid
      · exact hb id hid
      · rw [← prefix_iff_eq_take.1 (List.takeWhile_prefix _)] at hid
        exact (hvis _).1 (fun o ho => mem_takeWhile_imp ho) id hid
    · rcases hclean with rfl | hclean
      · exact Nat.zero_le _
      · exact le_length_takeWhile hle ((hvis _).2 fun id hid =>
          hclean id (mem_append_right _ hid))
  · rw [all_eq_true, hvis] at hb
    rcases hclean with rfl | hclean
    · rfl
    · exact absurd (fun id hid => hclean id (mem_append_left _ hid)) hb

theorem iterator_spec (hk : c.stopAfter = .ok k) :
    ∃ it, ClPassed c.samples 0 it ∧
      iterator ext order c.world.series (c.world.series.firstChunkID + c.ix) c.bytes st =
        .ok (if k = 0 then .nop else if k = c.samples.length then .chunk it
          else .stop ⟨it, -1, k⟩) := by
  obtain ⟨it, hr, h⟩ := clPassed_reset c.decodes c.counted
  refine ⟨it, h, ?_⟩
  rw [stopAfter] at hk
  unfold iterator
  rw [hk, c.counted]
  simp only [ok_bind, openChunk, hr]
  split_ifs <;> rfl

/-- The caller that makes one call. -/
def askOnce (k : Call) (seen : List Answer) : Option Call := if seen = [] then some k else none

/-- The first sample behind the bound, where there is one, is found by `Seek`. -/
theorem seek_leaks (hk : c.stopAfter = .ok k) (h0 : k ≠ 0)
    (hlt : k < c.samples.length) :
    ∃ seen, c.answers (askOnce (.seek c.samples[k].t)) 1 = .ok seen ∧ ¬ c.Confined seen := by
  obtain ⟨it, hit, hiter⟩ := c.iterator_spec hk
  rw [if_neg h0, if_neg hlt.ne] at hiter
  have hfind : (c.samples.drop (0 - 1)).findIdx? (fun x => c.samples[k].t.sle x.t) = some k := by
    rw [Nat.zero_sub, drop_zero, findIdx?_eq_some_iff_getElem]
    refine ⟨hlt, by simp [BitVec.sle_eq_decide], fun j hj => ?_⟩
    have := pairwise_iff_getElem.1 c.ascends j k (hj.trans hlt) hlt hj
    simpa [BitVec.sle_eq_decide] using this
  have hcursor : (cursor c.samples 0 (.seek c.samples[k].t)).1 = some (atSample c.samples[k]) := by
    simp only [cursor, hfind, Nat.zero_sub, Nat.zero_add, getElem?_eq_getElem hlt,
      Option.map_some]
  obtain ⟨typ, it', hc, -, ha⟩ := call_chunk hit c.ascends (.seek c.samples[k].t)
  rw [hcursor] at ha
  have htyp : typ ≠ .none := by
    rintro rfl
    cases ha
  rw [if_neg htyp] at ha
  refine ⟨[some (atSample c.samples[k])], ?_, ?_⟩
  · have hask : ask (.stop ⟨it, -1, k⟩) (.seek c.samples[k].t) =
        .ok (some (atSample c.samples[k]), .stop ⟨it', -1, k⟩) := by
      have hc' : (clIterator Unit Unit).seek it c.samples[k].t = .ok (typ, it') := hc
      simp only [ask, callOf, stopIterator, hc', Except.map, ok_bind]
      rw [ha]
      cases typ
      · exact absurd rfl htyp
      all_goals rfl
    simp only [answers, hiter, ok_bind, play, askOnce, if_true, hask, nil_append]
  · rintro ⟨k', hk', hseen⟩
    obtain rfl : k' = k := Except.ok.inj (hk'.symm.trans hk)
    obtain ⟨x, hx, he⟩ := mem_map.1 (hseen _ (mem_singleton_self _))
    obtain ⟨j, hj, rfl⟩ := mem_take_iff_getElem.1 hx
    have := pairwise_iff_getElem.1 c.ascends j k' (by omega) hlt (by omega)
    rw [(Prod.mk.inj he).1] at this
    exact absurd this (lt_irrefl _)

theorem answers_nop (hk : c.stopAfter = .ok 0) (caller : List Answer → Option Call) (n : ℕ) :
    c.answers caller n = play ask caller n [] .nop := by
  obtain ⟨it, -, hiter⟩ := c.iterator_spec hk
  rw [answers, hiter, if_pos rfl]
  rfl

end HeadChunk

/-! ### When nothing leaks -/

variable {c c' : HeadChunk ext order st}

theorem noninterfering_of_nothing (hk : c.stopAfter = .ok 0) (hk' : c'.stopAfter = .ok 0) :
    Noninterfering c c' := by
  intro caller n
  obtain ⟨seen, hs, hs', hnone⟩ := play_simulates ask ask
    (fun s t => s = .nop ∧ t = .nop) (· = none)
    (by rintro s t k ⟨rfl, rfl⟩; exact ⟨none, .nop, .nop, rfl, rfl, ⟨rfl, rfl⟩, rfl⟩) caller n
    [] ⟨rfl, rfl⟩ (by simp)
  refine ⟨seen, by rw [c.answers_nop hk, hs], by rw [c'.answers_nop hk', hs'], ⟨0, hk, ?_⟩,
    ⟨0, hk', ?_⟩⟩ <;> intro x hx <;> cases hnone _ hx

theorem noninterfering_of_all (hk : c.stopAfter = .ok c.samples.length)
    (hk' : c'.stopAfter = .ok c'.samples.length) (hsame : c.samples = c'.samples)
    (h0 : c.samples.length ≠ 0) : Noninterfering c c' := by
  obtain ⟨it, hit, hiter⟩ := c.iterator_spec hk
  obtain ⟨it', hit', hiter'⟩ := c'.iterator_spec hk'
  rw [if_neg h0, if_pos rfl] at hiter
  rw [if_neg (by rwa [← hsame]), if_pos rfl] at hiter'
  intro caller n
  -- both iterators are the same cursor over the same samples
  obtain ⟨seen, hs, hs', hmem⟩ := play_simulates ask ask
    (fun s t => ∃ i jt jt', s = .chunk jt ∧ t = .chunk jt' ∧ ClPassed c.samples i jt ∧
      ClPassed c.samples i jt') (fun a => ∀ x, a = some x → x ∈ c.samples.map atSample)
    (by
      rintro s t k ⟨i, jt, jt', rfl, rfl, hj, hj'⟩
      obtain ⟨jt1, ha, h1⟩ := ask_chunk hj c.ascends k
      obtain ⟨jt1', ha', h1'⟩ := ask_chunk hj' c.ascends k
      exact ⟨_, _, _, ha, ha', ⟨_, jt1, jt1', rfl, rfl, h1, h1'⟩, fun x hx => cursor_mem hx⟩)
    caller n [] ⟨0, it, it', rfl, rfl, hit, hsame ▸ hit'⟩ (by simp)
  refine ⟨seen, ?_, ?_, ⟨_, hk, fun x hx => ?_⟩, ⟨_, hk', fun x hx => ?_⟩⟩
  · rw [HeadChunk.answers, hiter]; exact hs
  · rw [HeadChunk.answers, hiter']; exact hs'
  · rw [take_length]; exact hmem _ hx x rfl
  · rw [take_length, ← hsame]; exact hmem _ hx x rfl

/-- Where all callers are confined, the bound is nothing or everything. -/
theorem bound_of_confined (hk : c.stopAfter = .ok k) (hle : k ≤ c.samples.length)
    (h : ∀ caller n, ∃ seen, c.answers caller n = .ok seen ∧ c.Confined seen) :
    k = 0 ∨ k = c.samples.length := by
  by_contra hno
  rw [not_or] at hno
  obtain ⟨seen, ha, hleak⟩ := c.seek_leaks hk hno.1 (lt_of_le_of_ne hle hno.2)
  obtain ⟨seen', ha', hconf⟩ := h _ 1
  exact hleak (Except.ok.inj (ha'.symm.trans ha) ▸ hconf)

/-- **What a reader can observe of hidden samples.** Two heads hold a chunk that differs only in the
hidden rest. No caller sees more than the first `stopAfter` samples of either, or tells them apart,
exactly when each of the heads hides nothing up to the end of the chunk, or something not behind the
chunk's first sample. -/
theorem noninterfering_iff (c c' : HeadChunk ext order st) (hsame : c.shown = c'.shown) :
    Noninterfering c c' ↔ (c.Clean ∨ c.Blocked) ∧ (c'.Clean ∨ c'.Blocked) := by
  obtain ⟨k, hk, hle, hiff⟩ := c.stopAfter_spec
  obtain ⟨k', hk', hle', hiff'⟩ := c'.stopAfter_spec
  rw [← hiff, ← hiff']
  constructor
  · intro h
    refine ⟨bound_of_confined hk hle fun caller n => ?_,
      bound_of_confined hk' hle' fun caller n => ?_⟩
    · obtain ⟨seen, ha, -, hc, -⟩ := h caller n
      exact ⟨seen, ha, hc⟩
    · obtain ⟨seen, -, ha, -, hc⟩ := h caller n
      exact ⟨seen, ha, hc⟩
  · -- what is shown is the same, so the two bounds are
    rw [c.shown_eq hk, c'.shown_eq hk'] at hsame
    have hlen := congrArg List.length hsame
    rw [length_take, length_take, Nat.min_eq_left hle, Nat.min_eq_left hle'] at hlen
    subst hlen
    rintro ⟨h, h'⟩
    by_cases h0 : k = 0
    · subst h0
      exact noninterfering_of_nothing hk hk'
    · obtain hfull := h.resolve_left h0
      obtain hfull' := h'.resolve_left h0
      rw [hfull, take_length, ← hfull, hfull', take_length] at hsame
      exact noninterfering_of_all (hfull ▸ hk) (hfull' ▸ hk') hsame (hfull ▸ h0)

/-- A chunk with two samples of an append that is still open when the reader takes its state. -/
def pendingChunk (bytes : List Byte) (samples : List Sample)
    (counted : numSamples bytes = samples.length)
    (decodes : decodeChunk default default bytes = .ok (samples, none))
    (length_eq : samples.length = 2) (ascends : samples.Pairwise fun x y => x.t.toInt < y.t.toInt) :
    HeadChunk default default ⟨1, [1], 1, false⟩ where
  world :=
    { iso := ⟨[1], 1, [(0, ⟨1, [1], 1, false⟩)], false⟩
      series := ⟨[], [[some 1, some 1]], 0, ⟨[1, 1, 0, 0], 0, 2⟩⟩
      appenders := [⟨1, 1⟩]
      readers := 1
      begun := [1]
      truncated := [] }
  reached :=
    ⟨[], [], 0, 4, [.newAppender, .append ⟨1, 1⟩ false, .append ⟨1, 1⟩ false, .openRead], rfl⟩
  reader := 0
  isOpen := by simp
  ix := 0
  appends := [some 1, some 1]
  found := rfl
  bytes := bytes
  samples := samples
  counted := counted
  decodes := decodes
  length_eq := length_eq
  ascends := ascends

/-- In the other head both values are twice as large. -/
theorem noninterfering_iff_pending : Noninterfering
    (pendingChunk pairChunk pairSamples (by decide +kernel) (by decide +kernel) rfl
      (by decide +kernel))
    (pendingChunk (pairChunk.set 31 200) [⟨1000, 100, 2⟩, ⟨2000, 200, 4⟩] (by decide +kernel)
      (by decide +kernel) rfl (by decide +kernel)) := by
  refine (noninterfering_iff _ _ ?_).2 ⟨?_, ?_⟩
  · rfl
  · exact .inr (.inr ⟨1, mem_cons_self, rfl⟩)
  · exact .inr (.inr ⟨1, mem_cons_self, rfl⟩)

/-- Two appends have a sample each, and that of the second is still open. -/
def hiddenChunk : HeadChunk default default ⟨2, [2], 2, false⟩ where
  world :=
    { iso := ⟨[2], 2, [(0, ⟨2, [2], 2, false⟩)], false⟩
      series := ⟨[], [[some 1, some 2]], 0, ⟨[1, 2, 0, 0], 0, 2⟩⟩
      appenders := [⟨2, 2⟩]
      readers := 1
      begun := [1, 2]
      truncated := [] }
  reached := ⟨[], [], 0, 4, [.newAppender, .append ⟨1, 1⟩ false, .closeAppend ⟨1, 1⟩, .newAppender,
    .append ⟨2, 2⟩ false, .openRead], rfl⟩
  reader := 0
  isOpen := by simp
  ix := 0
  appends := [some 1, some 2]
  found := rfl
  bytes := pairChunk
  samples := pairSamples
  counted := by decide +kernel
  decodes := by decide +kernel
  length_eq := rfl
  ascends := by decide +kernel

/-- One sample may be read, but a `Seek` to the timestamp of the second one gives that. -/
theorem hiddenChunk_leaks : hiddenChunk.stopAfter = .ok 1 ∧
    hiddenChunk.answers (HeadChunk.askOnce (.seek 2000)) 1 = .ok [some (2000, 2)] ∧
    ¬ Noninterfering hiddenChunk hiddenChunk := by
  have hk : hiddenChunk.stopAfter = .ok 1 := by decide +kernel
  have ha : hiddenChunk.answers (HeadChunk.askOnce (.seek 2000)) 1 = .ok [some (2000, 2)] := by
    decide +kernel
  refine ⟨hk, ha, fun h => ?_⟩
  obtain ⟨seen, hs, -, ⟨k, hk', hseen⟩, -⟩ := h (HeadChunk.askOnce (.seek 2000)) 1
  cases hk'.symm.trans hk
  cases hs.symm.trans ha
  exact absurd (hseen (2000, 2) (mem_singleton_self _)) (by decide +kernel)

end TopcDB.Tsdb.HeadIterator
