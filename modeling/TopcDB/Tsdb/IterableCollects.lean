import TopcDB.Tsdb.IterableChunks

/-! # Chunks that are complete and correctly labelled

When `populateChunksFromIterable` collects chunks for the samples that are left: if and only if the
samples are clean, and every run of floats fits in a chunk (`collects_iff`). A sample that is not
clean leaves a label that ends before it begins, or a chunk that is in the list twice (`Bad`). -/

namespace TopcDB.Tsdb.IterableCollects

open List Lib.Assoc Lib.Segments Go.Basic Chunkenc CLMeta CLChunk Chunk Huffman CLIterate
open HuffmanChunk ErrorBound Storage Merge MergeOrder Series AnySeries Deleted PopulateSingle
open PopulateIterable IterableChunks Piece Building

variable {σ H FH A FA V B : Type} {C : Codecs H FH A FA} {ext : Extern} {ranges : ℕ → Ranges}
  {R : Reflected σ H FH} {st st' : Building A FA} {vt : ValueType} {t : I64} {s : σ}

/-! ### What a turn can do -/

theorem compact_ok (h : st.compact ext ranges = .ok st') :
    ∃ heap, st' = { st with heap := heap } := by
  rw [compact] at h
  split at h
  · obtain ⟨r, -, rfl⟩ := map_eq_ok h
    exact ⟨_, rfl⟩
  · cases h

theorem finish_ok (hprev : st.prevValueType ≠ .none) (h : st.finish ext ranges = .ok st') :
    ∃ heap, st' = { st.push with heap := heap } := by
  rw [finish] at h
  split at h
  · contradiction
  · obtain ⟨st1, hcomp, rfl⟩ := map_eq_ok h
    obtain ⟨heap, rfl⟩ := compact_ok hcomp
    exact ⟨heap, rfl⟩
  · cases h
    exact ⟨st.heap, rfl⟩

theorem start_ok (hprev : st.prevValueType ≠ .none) (h : st.start C ranges vt t = .ok st') :
    vt = st.prevValueType ∧ st' = st ∨
      vt ≠ st.prevValueType ∧ ∃ heap app, st' = begin { st.push with heap := heap } app t := by
  rw [start] at h
  split_ifs at h with hvt
  · cases h
    exact .inl ⟨hvt, rfl⟩
  · obtain ⟨st1, hfin, h⟩ := bind_eq_ok h
    obtain ⟨heap, rfl⟩ := finish_ok hprev hfin
    refine .inr ⟨hvt, heap, ?_⟩
    split at h
    · cases h
    · cases h
      exact ⟨_, rfl⟩

theorem appendHistogram_refs (codec : HistogramCodec V B) (mk : B → App A FA) (a : B) (v : V) :
    (st.appendHistogram codec mk a t v).chunksFromIterable = st.chunksFromIterable := by
  rw [appendHistogram]
  split <;> rfl

theorem append_ok (h : st.append C R vt s = .ok (t, st')) :
    st'.chunksFromIterable = st.chunksFromIterable ∧
      (vt = .float → ∃ heap, st' = { st with heap := heap }) := by
  rcases hget : st.heap[st.app]? with _ | a | a | a <;> cases vt <;> simp only [append, hget] at h
  case some.cl.float =>
    rcases hM : R.methods with _ | M <;> simp only [hM] at h
    · cases h
    · obtain ⟨ctype, -, h⟩ := bind_eq_ok h
      obtain ⟨⟨t', a'⟩, -, h⟩ := bind_eq_ok h
      cases h
      exact ⟨rfl, fun _ => ⟨_, rfl⟩⟩
  case some.histogram.histogram | some.floatHistogram.floatHistogram =>
    obtain ⟨⟨t', v⟩, -, h⟩ := bind_eq_ok h
    cases h
    exact ⟨appendHistogram_refs _ _ _ _, fun hvt => by cases hvt⟩
  all_goals cases h

theorem adopt_refs (st : Building A FA) (vt : ValueType) (t : I64) :
    st.chunksFromIterable <+: (st.adopt vt t).chunksFromIterable := by
  rw [adopt]
  split
  · exact prefix_rfl
  · split_ifs
    · exact prefix_rfl
    · exact prefix_append _ _

theorem turn_ok (h : st.turn C ranges R vt s = .ok st') :
    ∃ st1 t st2, st.start C ranges vt (R.I.atT s) = .ok st1 ∧ st1.append C R vt s = .ok (t, st2) ∧
      st' = st2.adopt vt t := by
  obtain ⟨st1, hstart, h⟩ := bind_eq_ok h
  obtain ⟨⟨t, st2⟩, happend, h⟩ := bind_eq_ok h
  cases h
  exact ⟨st1, t, st2, hstart, happend, rfl⟩

theorem prev_of_turn (h : st.turn C ranges R vt s = .ok st') : st'.prevValueType = vt := by
  obtain ⟨-, t, st2, -, -, rfl⟩ := turn_ok h
  rw [adopt]
  split <;> rfl

/-! ### Lists that are wrong for good -/

/-- A label ends before it begins, or a chunk is in the list twice. -/
def Wrong (refs : List Ref) : Prop :=
  (∃ r ∈ refs, r.maxTime.toInt < r.minTime.toInt) ∨ ¬ (refs.map Ref.chunk).Nodup

/-- The current chunk is in the list already, and will be added once more. -/
structure Stuck (st : Building A FA) : Prop where
  prev : st.prevValueType = .float
  newChunk : st.newChunk = some st.currentChunk
  recoded : st.recoded = true
  listed : st.currentChunk ∈ st.chunksFromIterable.map Ref.chunk

def Bad (st : Building A FA) : Prop := Wrong st.chunksFromIterable ∨ Stuck st

theorem Wrong.mono {refs refs' : List Ref} (h : Wrong refs) (hp : refs <+: refs') :
    Wrong refs' := by
  rcases h with ⟨r, hr, hlt⟩ | hdup
  · exact .inl ⟨r, hp.subset hr, hlt⟩
  · exact Or.inr fun hnodup => hdup (hnodup.sublist (hp.sublist.map _))

theorem Bad.push (h : Bad st) : Wrong st.push.chunksFromIterable := by
  rcases h with hwrong | hstuck
  · exact hwrong.mono (prefix_append _ _)
  · refine Or.inr fun hnodup => ?_
    rw [Building.push, map_append, nodup_append] at hnodup
    exact hnodup.2.2 _ hstuck.listed _ (mem_singleton.2 rfl) rfl

/-- A float adopts the chunk that was returned last, which is in the list. -/
theorem stuck_adopt {c : ℕ} (hnew : st.newChunk = some c) (hrec : st.recoded = true)
    (hlisted : c ∈ st.chunksFromIterable.map Ref.chunk) : Stuck (st.adopt .float t) := by
  have hadopt : st.adopt .float t =
      { st with currentChunk := c, cmaxt := t, prevValueType := .float } := by
    simp only [adopt, hnew, hrec, if_true]
  rw [hadopt]
  exact ⟨rfl, hnew, hrec, hlisted⟩

variable {contents : App A FA → List (AnySample H FH)} {M : Methods σ}

theorem Bad.turn (hprev : st.prevValueType ≠ .none) (h : Bad st)
    (hturn : st.turn C ranges R vt s = .ok st') : Bad st' := by
  obtain ⟨st1, t, st2, hstart, happend, rfl⟩ := turn_ok hturn
  obtain ⟨hrefs, hfloat⟩ := append_ok happend
  have hmono : Wrong st1.chunksFromIterable → Bad (st2.adopt vt t) := fun hw =>
    Or.inl (hw.mono (hrefs ▸ adopt_refs st2 vt t))
  rcases start_ok hprev hstart with ⟨rfl, rfl⟩ | ⟨hvt, heap, app, rfl⟩
  · rcases h with hwrong | hstuck
    · exact hmono hwrong
    · -- another float: the stale chunk is adopted once more
      obtain ⟨heap, rfl⟩ := hfloat hstuck.prev
      rw [hstuck.prev]
      exact Or.inr (stuck_adopt hstuck.newChunk hstuck.recoded hstuck.listed)
  · exact hmono h.push

theorem Bad.turns : ∀ {xs : List (ValueType × σ)} {st : Building A FA}, (∀ x ∈ xs, x.1 ≠ .none) →
    st.prevValueType ≠ .none → Bad st → turns C ranges R xs st = .ok st' →
    st'.prevValueType ≠ .none ∧ Bad st'
  | [], st, _, hprev, h, hturns => by
    cases hturns
    exact ⟨hprev, h⟩
  | x :: xs, st, hxs, hprev, h, hturns => by
    rw [forall_mem_cons] at hxs
    obtain ⟨st1, hturn, hrest⟩ := bind_eq_ok hturns
    exact Bad.turns hxs.2 (prev_of_turn hturn ▸ hxs.1) (h.turn hprev hturn) hrest

theorem Bad.finish (hprev : st.prevValueType ≠ .none) (h : Bad st)
    (hfin : st.finish ext ranges = .ok st') : Wrong st'.chunksFromIterable := by
  obtain ⟨heap, rfl⟩ := finish_ok hprev hfin
  exact h.push

theorem type_ne_none (item : Item H FH) : item.type ≠ .none := by
  cases item <;> exact fun h => by cases h

/-- A float right after a histogram for which the appender returned a chunk. -/
theorem bad_of_returned {closed : List (Piece A FA)} {p : Piece A FA} {x : ValueType × σ}
    {item : Item H FH} (h : Refines C.ext contents st closed p) (hret : p.returned = true)
    (hx : ItemAt R M x item) (hfloat : item.type = .float) (hlt : st.cmaxt.toInt < item.t.toInt)
    (hturn : st.turn C ranges R x.1 x.2 = .ok st') : Bad st' := by
  have hne : p.type ≠ .float ∧ p.type ≠ .none := by
    cases p with
    | float run => cases hret
    | histogram a returned | floatHistogram a returned =>
      exact ⟨fun he => (by cases he), fun he => (by cases he)⟩
  rw [← h.prev] at hne
  have hnew : st.newChunk = some st.app := by rw [h.newChunk, hret, if_pos rfl]
  rw [hx.type, hfloat] at hturn
  obtain ⟨st1, t, st2, hstart, happend, rfl⟩ := turn_ok hturn
  rcases start_ok hne.2 hstart with ⟨hprev, -⟩ | ⟨-, heap, app, rfl⟩
  · exact absurd hprev.symm hne.1
  · obtain ⟨heap', rfl⟩ := (append_ok happend).2 rfl
    by_cases hrec : st.recoded = true
    · -- the histograms' chunk takes the place of the new one
      refine Or.inr (stuck_adopt hnew hrec ?_)
      rw [← h.current]
      exact mem_map_of_mem (mem_append_right _ (mem_singleton.2 rfl))
    · -- the new chunk is added at once, with the last timestamp of the histograms
      refine Or.inl (.inl ⟨⟨heap.length, item.t, st.cmaxt⟩, ?_, hlt⟩)
      have hadopt : (adopt { begin { st.push with heap := heap } app (R.I.atT x.2) with
          heap := heap' } .float t).chunksFromIterable =
          st.push.chunksFromIterable ++ [⟨heap.length, R.I.atT x.2, st.cmaxt⟩] := by
        simp only [adopt, begin, push, hnew, hrec]
        rfl
      rw [hadopt, hx.t]
      exact mem_append_right _ (mem_singleton.2 rfl)

theorem bad_of_not_clean (hlaws : Laws C contents) (hM : R.methods = some M) :
    ∀ {items : List (Item H FH)} {xs : List (ValueType × σ)} {st : Building A FA}
      {closed : List (Piece A FA)} {p : Option (Piece A FA)}, Forall₂ (ItemAt R M) xs items →
      Follows C.ext contents st closed p → ¬ Piece.Clean C p items →
      (p.toList.flatMap (Piece.samples contents) ++ items.map Item.sample).Pairwise
        (fun x y => x.t.toInt < y.t.toInt) →
      turns C ranges R xs st = .ok st' → st'.prevValueType ≠ .none ∧ Bad st'
  | _, _, _, _, _, .nil, _, hclean, _, _ => absurd trivial hclean
  | item :: items, x :: xs, st, closed, p, .cons hx hxs, h, hclean, hasc, hturns => by
    rw [turns_cons] at hturns
    obtain ⟨st1, hturn, hrest⟩ := bind_eq_ok hturns
    by_cases hfirst : item.type = .float ∧ p.any returned
    · obtain ⟨hfloat, hret⟩ := hfirst
      obtain ⟨p, rfl⟩ : ∃ p', p = some p' := by
        cases p with
        | none => cases hret
        | some p => exact ⟨p, rfl⟩
      have hrefines : Refines C.ext contents st closed p := h
      have hlt : st.cmaxt.toInt < item.t.toInt := by
        have hlast := hrefines.cmaxt hrefines.written
        obtain ⟨smp, hsmp, ht⟩ := Option.map_eq_some_iff.1 hlast
        rw [← ht]
        refine (pairwise_append.1 hasc).2.2 smp ?_ item.sample mem_cons_self
        exact mem_flatMap.2 ⟨p, mem_singleton.2 rfl, mem_of_getLast? hsmp⟩
      have hbad := bad_of_returned hrefines hret hx hfloat hlt hturn
      have hprev1 : st1.prevValueType ≠ .none := by
        rw [prev_of_turn hturn, hx.type]
        exact type_ne_none item
      refine hbad.turns (fun y hy => ?_) hprev1 hrest
      obtain ⟨item', -, hy'⟩ := exists_left_of_forall₂ hxs.flip hy
      rw [hy'.type]
      exact type_ne_none item'
    · have hrest' : ¬ Piece.Clean C (some (advance C p item).2) items := fun hc =>
        hclean ⟨hfirst, hc⟩
      rcases turn_refines hlaws ranges hM hx h hfirst with ⟨st2, hturn2, hrefines⟩ |
        ⟨⟨fault, hfault⟩, -⟩
      · cases hturn2.symm.trans hturn
        refine bad_of_not_clean hlaws hM hxs (p := some _) hrefines hrest' ?_ hrest
        have hsplit : p.toList.flatMap (Piece.samples contents) ++ (item :: items).map Item.sample =
            (advance C p item).1.flatMap (Piece.samples contents) ++
              ((advance C p item).2.samples contents ++ items.map Item.sample) := by
          rw [← append_assoc, samples_advance hlaws item p, append_assoc]
          rfl
        rw [hsplit] at hasc
        rw [Option.toList_some, flatMap_singleton]
        exact (pairwise_append.1 hasc).2.1
      · rw [hfault] at hturn
        cases hturn

/-! ### The property -/

section

variable (ext : Extern) (order : RangeOrder (U64 × I64))
    (contents : App A FA → List (AnySample H FH))

/-- A chunk decodes to the samples `l`. -/
def Decodes : App A FA → List (AnySample H FH) → Prop
  | .cl a, l => ∃ samples, decodeChunk ext order a.b.stream = .ok (samples, none) ∧
      samples.map (fun smp => .float smp.t smp.val) = l
  | app, l => contents app = l

/-- A chunk of the list decodes to the samples `l`, and is labelled with their first and last
timestamps. -/
structure Shows (heap : List (App A FA)) (r : Ref) (l : List (AnySample H FH)) : Prop where
  label : Labelled l r.minTime r.maxTime
  chunk : ∃ app, heap[r.chunk]? = some app ∧ Decodes ext order contents app l

/-- Every chunk is listed once, the chunks are in order and disjoint in time, and they decode
together to the samples `left`. -/
structure Complete (st : Building A FA) (left : List (AnySample H FH)) : Prop where
  nodup : (st.chunksFromIterable.map Ref.chunk).Nodup
  disjoint : st.chunksFromIterable.Pairwise fun r r' => r.maxTime.toInt < r'.minTime.toInt
  shows : ∃ ls, Forall₂ (Shows ext order contents st.heap) st.chunksFromIterable ls ∧
    ls.flatten = left

end

/-- The function ends without an error, and the chunks it collects have the samples `left`. -/
def Collects (C : Codecs H FH A FA) (ranges : ℕ → Ranges) (order : RangeOrder (U64 × I64))
    (contents : App A FA → List (AnySample H FH)) (R : Reflected σ H FH) (k : ℕ)
    (it : DeletedIterator σ) (left : List (AnySample H FH)) : Prop :=
  ∃ st, populateChunksFromIterable C ranges R k it =
      .ok (!st.chunksFromIterable.isEmpty, none, st) ∧
    Complete C.ext order contents st left

def leftItems (intervals : List Interval) (items : List (Item H FH)) : List (Item H FH) :=
  items.filter fun item => !deleted intervals item.t

variable {order : RangeOrder (U64 × I64)} {contents : App A FA → List (AnySample H FH)}
  {heap : List (App A FA)} {r : Ref} {run : List (CompressType × Sample)} {p : Piece A FA}

theorem map_float_eq_iff (H FH : Type) : ∀ {l : List Sample} {run : List (CompressType × Sample)},
    l.map (fun smp => (.float smp.t smp.val : AnySample H FH)) =
      run.map (fun x => .float x.2.t x.2.val) ↔
    l.map Sample.t = run.map (fun x => x.2.t) ∧ l.map Sample.val = run.map fun x => x.2.val
  | [], [] | [], _ :: _ | _ :: _, [] => by simp
  | smp :: l, x :: run => by
    simp only [map_cons, cons.injEq, AnySample.float.injEq, map_float_eq_iff H FH]
    tauto

theorem made_float (order : RangeOrder (U64 × I64)) (hm : Made ext contents heap r (.float run)) :
    ∃ a, heap[r.chunk]? = some (.cl a) ∧ Dense (deltaCodes 0 ((quantizers run).map Prod.snd)) ∧
      (run.length < 2 ^ 16 →
        decodeChunk ext order a.b.stream = .ok (readBack (quantizers run), none)) := by
  obtain ⟨app, hget, a, ranges, ⟨a', e⟩, ha, hcomp, rfl⟩ := hm.chunk
  have hd := ha.dense_of_compact hcomp
  have hne : run ≠ [] := by
    rintro rfl
    cases hm.label.1
  refine ⟨a', hget, hd, fun hl => ?_⟩
  obtain ⟨a1, h1, -, hdec, -⟩ := ha.compact (by simpa [quantizers] using hne)
    (by simpa [quantizers] using hl) hd ext ranges
  cases h1.symm.trans hcomp
  exact hdec ext order

theorem map_t_quantizers : (quantizers run).map Prod.fst = run.map fun x => x.2.t := by
  rw [quantizers, map_map]
  rfl

theorem eq_float_of_run (h : p.run = some run) : p = .float run := by
  cases p with
  | float run' => rw [← Option.some.inj h]
  | histogram a returned | floatHistogram a returned => cases h

theorem length_le_of_shows {l : List (AnySample H FH)} (hm : Made ext contents heap r p)
    (hs : Shows ext order contents heap r l) : l.length ≤ (p.samples contents).length := by
  obtain ⟨app, hget, hdec⟩ := hs.chunk
  cases p with
  | float run =>
    obtain ⟨a, hget', -, hread⟩ := made_float order hm
    cases hget.symm.trans hget'
    obtain ⟨samples, hdec, rfl⟩ := hdec
    rw [length_map, Piece.samples, length_map]
    by_cases hl : run.length < 2 ^ 16
    · cases (hread hl).symm.trans hdec
      have := congrArg length (map_t_readBack (quantizers run))
      rw [map_t_quantizers, length_map, length_map] at this
      exact this.le
    · exact (length_decodeChunk hdec).le.trans (not_lt.1 hl)
  | histogram a returned | floatHistogram a returned =>
    obtain ⟨_, hget', rfl⟩ := hm.chunk
    cases hget.symm.trans hget'
    exact (congrArg length hdec).ge

theorem shows_iff (hm : Made ext contents heap r p) :
    Shows ext order contents heap r (p.samples contents) ↔ ∀ run, p.run = some run → Fits run := by
  cases p with
  | float run =>
    obtain ⟨a, hget, hd, hread⟩ := made_float order hm
    constructor
    · rintro ⟨-, app, hget', hdec⟩ run' hrun
      cases hrun
      cases hget'.symm.trans hget
      obtain ⟨samples, hdec, hmap⟩ := hdec
      have hlen := congrArg length hmap
      rw [length_map, Piece.samples, length_map] at hlen
      have hl : run.length < 2 ^ 16 := hlen ▸ length_decodeChunk hdec
      cases (hread hl).symm.trans hdec
      exact ⟨hl, hd, (map_val_samplesOf_iff _ _ _ _ 0 _).1 ((map_float_eq_iff H FH).1 hmap).2⟩
    · intro hfits
      obtain ⟨hl, -, hv⟩ := hfits run rfl
      refine ⟨hm.label, .cl a, hget, _, hread hl,
        (map_float_eq_iff H FH).2 ⟨?_, (map_val_samplesOf_iff _ _ _ _ 0 _).2 hv⟩⟩
      rw [map_t_readBack, map_t_quantizers]
  | histogram a returned | floatHistogram a returned =>
    obtain ⟨app, hget, rfl⟩ := hm.chunk
    exact iff_of_true ⟨hm.label, _, hget, rfl⟩ fun run hrun => by cases hrun

/-! ### The main result -/

variable {order : RangeOrder (U64 × I64)} {contents : App A FA → List (AnySample H FH)}
  {M : Methods σ}

theorem pairwise_of_labels {refs : List Ref} {ls : List (List (AnySample H FH))}
    (h : Forall₂ (fun r l => Labelled l r.minTime r.maxTime) refs ls)
    (hasc : ls.flatten.Pairwise fun x y => x.t.toInt < y.t.toInt) :
    refs.Pairwise fun r r' => r.maxTime.toInt < r'.minTime.toInt := by
  induction h with
  | nil => exact Pairwise.nil
  | @cons r l refs ls hlabel hrest ih =>
    rw [flatten_cons, pairwise_append] at hasc
    obtain ⟨-, hasc', hcross⟩ := hasc
    refine Pairwise.cons (fun r' hr' => ?_) (ih hasc')
    obtain ⟨l', hl', hlabel'⟩ := exists_left_of_forall₂ hrest.flip hr'
    obtain ⟨x, hx, hxt⟩ := Option.map_eq_some_iff.1 hlabel.2
    obtain ⟨y, hy, hyt⟩ := Option.map_eq_some_iff.1 hlabel'.1
    rw [← hxt, ← hyt]
    exact hcross x (mem_of_getLast? hx) y
      (mem_flatten.2 ⟨l', hl', mem_of_head? hy⟩)

theorem not_complete_of_wrong {left : List (AnySample H FH)}
    (hasc : left.Pairwise fun x y => x.t.toInt < y.t.toInt) (h : Wrong st.chunksFromIterable) :
    ¬ Complete ext order contents st left := by
  rintro ⟨hnodup, -, ls, hshows, rfl⟩
  rcases h with ⟨r, hr, hlt⟩ | hdup
  · obtain ⟨l, hl, hshow⟩ := exists_left_of_forall₂ hshows.flip hr
    have hl' : l.Pairwise fun x y => x.t.toInt < y.t.toInt :=
      hasc.sublist (sublist_flatten_of_mem hl)
    obtain ⟨x, hx, hxt⟩ := Option.map_eq_some_iff.1 hshow.label.1
    obtain ⟨y, hy, hyt⟩ := Option.map_eq_some_iff.1 hshow.label.2
    rw [← hxt, ← hyt] at hlt
    obtain ⟨l', rfl⟩ := getLast?_eq_some_iff.1 hy
    cases l' with
    | nil =>
      obtain rfl : y = x := by simpa using hx
      exact lt_irrefl _ hlt
    | cons z l' =>
      obtain rfl : z = x := by simpa using hx
      exact lt_asymm hlt (rel_of_pairwise_cons hl' (mem_append_right _ mem_cons_self))
  · exact hdup hnodup

/-- What is built of some samples is complete if and only if they are clean and fit. -/
theorem build_complete_iff (ranges : ℕ → Ranges) (order : RangeOrder (U64 × I64))
    (hlaws : Laws C contents) (hM : R.methods = some M)
    {xs : List (ValueType × σ)} {items : List (Item H FH)} (hxs : Forall₂ (ItemAt R M) xs items)
    (hasc : (items.map Item.sample).Pairwise fun x y => x.t.toInt < y.t.toInt) :
    (∃ st, build C ranges R xs .init = .ok st ∧
      Complete C.ext order contents st (items.map Item.sample)) ↔
    Piece.Clean C none items ∧ ∀ run ∈ floatRuns none items, Fits run := by
  have hfollows : Follows C.ext contents (.init : Building A FA) [] none := ⟨rfl, rfl⟩
  have hall := samples_all hlaws items (none : Option (Piece A FA))
  rw [Option.toList_none, flatMap_nil, nil_append] at hall
  have hruns : ∀ run, run ∈ floatRuns none items ↔ .float run ∈ all C none items := fun run => by
    have hfilter := filterMap_run_all (C := C) items none
    rw [Option.bind_none] at hfilter
    rw [← hfilter, mem_filterMap]
    constructor
    · rintro ⟨p, hp, hrun⟩
      rwa [← eq_float_of_run hrun]
    · exact fun hp => ⟨_, hp, rfl⟩
  constructor
  · rintro ⟨st, hbuild, hcomplete⟩
    have hclean : Piece.Clean C none items := by
      by_contra hclean
      obtain ⟨st1, hturns, hfin⟩ := bind_eq_ok hbuild
      obtain ⟨hprev, hbad⟩ := bad_of_not_clean hlaws hM hxs hfollows hclean hasc hturns
      exact not_complete_of_wrong hasc (hbad.finish hprev hfin) hcomplete
    refine ⟨hclean, ?_⟩
    rcases build_spec hlaws hM hxs hfollows hclean with ⟨st', hok, hclosed⟩ | ⟨⟨fault, hfault⟩, -⟩
    · cases hok.symm.trans hbuild
      obtain ⟨-, -, ls, hshows, hflat⟩ := hcomplete
      rw [nil_append] at hclosed
      -- no chunk shows more than was written to it, so each one shows all of it
      have hpair : Forall₂ (fun l p => l.length ≤ (Piece.samples contents p).length ∧
          (l = Piece.samples contents p → ∀ run, p.run = some run → Fits run)) ls
          (all C none items) :=
        forall₂_comp hshows.flip hclosed.refs fun l r p hs hm =>
          ⟨length_le_of_shows hm hs, fun he => (shows_iff hm).1 (he ▸ hs)⟩
      obtain rfl : ls = (all C none items).map (Piece.samples contents) := by
        refine eq_of_flatten_eq (forall₂_map_right_iff.2 (hpair.imp fun _ _ h => h.1)) ?_
        rw [hflat, ← flatMap_def, hall]
      rw [forall₂_map_left_iff, forall₂_same] at hpair
      exact fun run hrun => (hpair _ ((hruns run).1 hrun)).2 rfl run rfl
    · rw [hfault] at hbuild
      cases hbuild
  · rintro ⟨hclean, hfits⟩
    rcases build_spec hlaws hM hxs hfollows hclean with ⟨st', hok, hclosed⟩ |
      ⟨-, run, hmem, hnot⟩
    · rw [nil_append] at hclosed
      have hflat : ((all C none items).map (Piece.samples contents)).flatten =
          items.map Item.sample := by
        rw [← flatMap_def, hall]
      refine ⟨st', hok, hclosed.nodup, ?_, _, ?_, hflat⟩
      · refine pairwise_of_labels (forall₂_map_right_iff.2 ?_) (hflat ▸ hasc)
        exact hclosed.refs.imp fun _ _ hm => hm.label
      · refine forall₂_map_right_iff.2 (forall₂_imp_of_mem hclosed.refs fun r p hp hm => ?_)
        refine (shows_iff hm).2 fun run hrun => hfits run ((hruns run).2 ?_)
        rwa [← eq_float_of_run hrun]
    · exact absurd (hfits run ((hruns run).2 hmem)) hnot

/-- **Chunks from an iterable are complete and correctly labelled** if and only if no float that is
left comes right after a histogram for which the appender returned a chunk, and every run of floats
that are left fits in a chunk. -/
theorem collects_iff (hlaws : Laws C contents) (hM : R.methods = some M) {s : σ}
    {l : List (ValueType × σ)} {items : List (Item H FH)} {intervals : List Interval} {k : ℕ}
    (hr : Reads R.I s l) (hl : Forall₂ (ItemAt R M) l items) (ha : Ascends R.I l)
    (hs : Sorted intervals) (hk : l.length < k) :
    Collects C ranges order contents R k ⟨s, intervals⟩
        ((leftItems intervals items).map Item.sample) ↔
      Piece.Clean C none (leftItems intervals items) ∧
        ∀ run ∈ floatRuns none (leftItems intervals items), Fits run := by
  obtain ⟨l', hr', hmap⟩ := reads_deletedIterator hr ha hs hk
  have hleft : Forall₂ (ItemAt R M) (l'.map fun x => (x.1, x.2.iter))
      (leftItems intervals items) := by
    rw [hmap]
    exact rel_filter (fun x item h => by simp [h.t]) hl
  have hlen : l'.length < k := by
    have := congrArg length hmap
    rw [length_map] at this
    rw [this]
    exact (length_filter_le _ _).trans_lt hk
  have hasc : ((leftItems intervals items).map Item.sample).Pairwise
      fun x y => x.t.toInt < y.t.toInt :=
    pairwise_map.2 (((ascends_iff (hl.imp fun _ _ hx => hx.t)).1 ha).filter _)
  rw [← build_complete_iff ranges order hlaws hM hleft hasc, Collects]
  refine exists_congr fun st => and_congr_left fun _ => ?_
  rw [populate_eq hr' hlen]
  generalize build C ranges R _ (.init : Building A FA) = built
  rcases built with fault | st'
  · simp [Except.map]
  · simp only [Except.map, Except.ok.injEq, Prod.mk.injEq, true_and]
    exact ⟨fun h => h.2, fun h => ⟨by rw [h], h⟩⟩

/-! ### Chained list iterators -/

theorem fits_of_inRange {run : List (CompressType × Sample)} (hl : run.length < 2 ^ 16)
    (hq : ∀ x ∈ run, InRange (requantized x.1 x.2).2 ∧
      x.2.val = 2 * defaultErrbound * (requantized x.1 x.2).2.toInt) : Fits run := by
  have hin : ∀ x ∈ quantizers run, InRange x.2 := forall_mem_map.2 fun y hy => (hq y hy).1
  refine ⟨hl, dense_of_inRange hin, ?_⟩
  rw [← map_val_samplesOf_iff _ _ _ _ 0, ← quantizers, ← readBack, readBack_of_inRange hin,
    quantizers, map_map, map_map]
  exact map_congr_left fun x hx => ((hq x hx).2).symm

/-- Appenders that return a fresh chunk for every sample but the first one. -/
def singles : HistogramCodec Unit (List I64) :=
  ⟨[], fun _ a t _ => if a = [] then ([t], none) else (a, some ([t], false))⟩

def singleCodecs : Codecs Unit Unit (List I64) (List I64) := ⟨default, singles, singles, id, id⟩

def singleContents : App (List I64) (List I64) → List (AnySample Unit Unit)
  | .cl _ => []
  | .histogram a => a.map fun t => .histogram t ()
  | .floatHistogram a => a.map fun t => .floatHistogram t ()

theorem lawful_singles (sample : I64 → Unit → AnySample Unit Unit) :
    Lawful singles (fun a => a.map fun t => sample t ()) sample where
  new := rfl
  first a t v h := by simp [singles, map_eq_nil_iff.1 h]
  inPlace a t v a' h := by
    by_cases ha : a = []
    · obtain rfl : [t] = a' := by simpa [singles, ha] using h
      rw [ha]
      rfl
    · simp [singles, ha] at h
  recoded a t v old a' h := by
    by_cases ha : a = [] <;> simp [singles, ha] at h
  fresh a t v old a' h := by
    by_cases ha : a = []
    · simp [singles, ha] at h
    · obtain ⟨rfl, rfl⟩ : a = old ∧ [t] = a' := by simpa [singles, ha] using h
      exact ⟨rfl, rfl⟩

theorem laws_singles : Laws singleCodecs singleContents :=
  ⟨lawful_singles _, lawful_singles _⟩

/-- A chained iterator over one list. -/
def chainOf (samples : List (AnySample Unit Unit)) :
    ChainSampleIterator (ListSeriesIterator Unit Unit) :=
  chainSampleIteratorFromIterators [.new samples]

def listReflected : Reflected (ChainSampleIterator (ListSeriesIterator Unit Unit)) Unit Unit :=
  chainReflected (listSeriesIterator id) id id 9

/-- A histogram and then a float, for which nothing is returned. -/
theorem collects_iff_histogramFloat :
    Collects singleCodecs default default singleContents listReflected
    9 ⟨chainOf [.histogram 1000 (), .float 2000 1], []⟩ [.histogram 1000 (), .float 2000 1] := by
  let samples : List (AnySample Unit Unit) := [.histogram 1000 (), .float 2000 1]
  let l : List (ValueType × ChainSampleIterator (ListSeriesIterator Unit Unit)) :=
    [(.histogram, ⟨[⟨samples, 0⟩], some [], some 0, 1000, false⟩),
      (.float, ⟨[⟨samples, 1⟩], some [], some 0, 2000, true⟩)]
  have hreads : Reads listReflected.I (chainOf samples) l :=
    ⟨by decide, rfl, by decide, rfl, ⟨[⟨samples, 2⟩], some [], none, 2000, true⟩, rfl, rfl⟩
  have hl : Forall₂ (ItemAt listReflected _) l [.histogram 1000 (), .float .none ⟨2000, 0, 1⟩] :=
    .cons ⟨rfl, rfl, rfl⟩ (.cons (itemAt_chain id id 9 rfl rfl rfl (fun it h => by cases h)) .nil)
  have hasc : Ascends listReflected.I l := by
    refine Pairwise.cons (fun x hx => ?_) (pairwise_singleton _ _)
    rw [mem_singleton.1 hx]
    exact show (1000 : I64).toInt < (2000 : I64).toInt by decide
  refine (collects_iff laws_singles rfl hreads hl hasc Pairwise.nil (by decide)).2 ⟨?_, ?_⟩
  · exact ⟨(fun h => by cases h.1), (fun h => by cases h.2), trivial⟩
  · intro run hrun
    obtain rfl : run = [(.none, ⟨2000, 0, 1⟩)] := mem_singleton.1 hrun
    refine fits_of_inRange (by decide) fun x hx => ?_
    rw [mem_singleton.1 hx]
    have hq : (requantized .none ⟨2000, 0, 1⟩).2 = 50 := by decide +kernel
    exact ⟨by rw [hq]; simp [InRange], by rw [hq]; decide +kernel⟩

/-- After two histograms, for the second of which the appender returns a chunk, a float is written
to a chunk whose label ends before it begins, and the chunk of the second histogram is in the list
twice. -/
theorem not_collects_returned : Laws singleCodecs singleContents ∧
    ¬ Collects singleCodecs default default singleContents listReflected 9
      ⟨chainOf [.histogram 1000 (), .histogram 2000 (), .float 3000 1], []⟩
      [.histogram 1000 (), .histogram 2000 (), .float 3000 1] := by
  refine ⟨laws_singles, ?_⟩
  have hrefs : (populateChunksFromIterable singleCodecs default listReflected 9
      ⟨chainOf [.histogram 1000 (), .histogram 2000 (), .float 3000 1], []⟩).map
        (fun r => r.2.2.chunksFromIterable) =
      .ok [⟨0, 1000, 1000⟩, ⟨1, 2000, 2000⟩, ⟨2, 3000, 2000⟩, ⟨1, 3000, 3000⟩] := by decide +kernel
  rintro ⟨st, hpop, hcomplete⟩
  rw [hpop] at hrefs
  have hst : st.chunksFromIterable =
      [⟨0, 1000, 1000⟩, ⟨1, 2000, 2000⟩, ⟨2, 3000, 2000⟩, ⟨1, 3000, 3000⟩] := Except.ok.inj hrefs
  have hnodup := hcomplete.nodup
  rw [hst] at hnodup
  exact absurd hnodup (by decide)

end TopcDB.Tsdb.IterableCollects
