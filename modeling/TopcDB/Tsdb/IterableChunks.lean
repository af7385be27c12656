import TopcDB.Tsdb.PopulateIterable

/-! # What is written from an iterable

The loop of `populateChunksFromIterable` against the machine on the samples. As long as the samples
are clean, a turn of the loop refines a step of the machine (`turn_refines`), unless the chunk of a
run of floats cannot be compacted. A sample that is not clean leaves the list of chunks wrong for
good (`Bad`). Together the two give `collects_iff`. -/

namespace TopcDB.Tsdb.IterableChunks

open List Go.Basic Chunkenc CLChunk Chunk Huffman CLAppend Storage Merge Series AnySeries Deleted
open PopulateSingle PopulateIterable Piece

variable {σ H FH A FA V B : Type}

/-! ### The heap -/

/-- All chunks but the one at `j` are kept. -/
def Grows (j : ℕ) (heap heap' : List (App A FA)) : Prop :=
  ∀ i app, i ≠ j → heap[i]? = some app → heap'[i]? = some app

theorem grows_set (heap : List (App A FA)) (j : ℕ) (app : App A FA) :
    Grows j heap (heap.set j app) := by
  intro i app' hne hi
  rwa [getElem?_set_ne hne.symm]

variable {heap heap' : List (App A FA)} {i j k : ℕ}

theorem getElem?_append_of_some {app : App A FA} (h : heap[i]? = some app) (more : List (App A FA))
    : (heap ++ more)[i]? = some app := by
  obtain ⟨hlt, -⟩ := List.getElem?_eq_some_iff.1 h
  rwa [getElem?_append_left hlt]

theorem Grows.append (h : Grows j heap heap') (more : List (App A FA)) :
    Grows j heap (heap' ++ more) :=
  fun i app hne hi => getElem?_append_of_some (h i app hne hi) more

theorem getElem?_set_of_some {old : App A FA} (h : heap[j]? = some old) (app : App A FA) :
    (heap.set j app)[j]? = some app := by
  obtain ⟨hlt, -⟩ := List.getElem?_eq_some_iff.1 h
  exact getElem?_set_self hlt

/-! ### The relation -/

/-- The times of the first and of the last sample. -/
def Labelled (l : List (AnySample H FH)) (mint maxt : I64) : Prop :=
  l.head?.map AnySample.t = some mint ∧ l.getLast?.map AnySample.t = some maxt

/-- The chunk that is open, with its appender. -/
def Unfinished : Piece A FA → App A FA → Prop
  | .float run, app => ∃ a, FloatApp a (quantizers run) ∧ app = .cl a
  | .histogram a _, app => app = .histogram a
  | .floatHistogram a _, app => app = .floatHistogram a

/-- The chunk that is over. -/
def Finished (ext : Extern) : Piece A FA → App A FA → Prop
  | .float run, app => ∃ a ranges r, FloatApp a (quantizers run) ∧ a.compact ext ranges = .ok r ∧
      app = .cl r.1
  | .histogram a _, app => app = .histogram a
  | .floatHistogram a _, app => app = .floatHistogram a

variable (ext : Extern) (contents : App A FA → List (AnySample H FH))

structure Made (heap : List (App A FA)) (r : Ref) (p : Piece A FA) : Prop where
  label : Labelled (p.samples contents) r.minTime r.maxTime
  chunk : ∃ app, heap[r.chunk]? = some app ∧ Finished ext p app

variable (st : Building A FA) (closed : List (Piece A FA))

/-- The list has the chunks that are over, each once. -/
structure Closed : Prop where
  refs : Forall₂ (Made ext contents st.heap) st.chunksFromIterable closed
  nodup : (st.chunksFromIterable.map Ref.chunk).Nodup

/-- A sample at `t` can be appended to the open chunk, which may still be empty. -/
structure Ready (p : Piece A FA) (t : I64) : Prop extends Closed ext contents st closed where
  fresh : st.app ∉ st.chunksFromIterable.map Ref.chunk
  current : st.currentChunk = st.app
  app : ∃ app, st.heap[st.app]? = some app ∧ Unfinished p app
  cmint : ((p.samples contents).head?.map AnySample.t).getD t = st.cmint
  cmaxt : p.samples contents ≠ [] → (p.samples contents).getLast?.map AnySample.t = some st.cmaxt

/-- The loop is where the machine is: the chunks `closed` are over, and `p` is open. -/
structure Refines (p : Piece A FA) : Prop
    extends Ready ext contents st closed p st.cmint where
  written : p.samples contents ≠ []
  prev : st.prevValueType = p.type
  newChunk : st.newChunk = if p.returned then some st.app else none

/-- As `Refines`, where there may not be an open chunk yet. -/
def Follows : Option (Piece A FA) → Prop
  | none => st = .init ∧ closed = []
  | some p => Refines ext contents st closed p

section steps

variable {C : Codecs H FH A FA} {ext : Extern} {contents : App A FA → List (AnySample H FH)}
  {ranges : ℕ → Ranges} {st : Building A FA} {closed : List (Piece A FA)} {p : Piece A FA} {t : I64}

theorem refs_grow {refs : List Ref} (h : Forall₂ (Made ext contents heap) refs closed)
    (hg : Grows j heap heap') (hj : j ∉ refs.map Ref.chunk) :
    Forall₂ (Made ext contents heap') refs closed := by
  induction h with
  | nil => exact Forall₂.nil
  | @cons r p refs closed hmade _ ih =>
    rw [map_cons, mem_cons, not_or] at hj
    obtain ⟨app, hget, hfin⟩ := hmade.chunk
    exact Forall₂.cons ⟨hmade.label, app, hg r.chunk app (Ne.symm hj.1) hget, hfin⟩ (ih hj.2)

theorem chunk_lt {refs : List Ref} (h : Forall₂ (Made ext contents heap) refs closed) :
    heap.length ∉ refs.map Ref.chunk := by
  induction h with
  | nil => exact not_mem_nil
  | cons hmade _ ih =>
    obtain ⟨app, hget, -⟩ := hmade.chunk
    obtain ⟨hlt, -⟩ := List.getElem?_eq_some_iff.1 hget
    rw [map_cons, mem_cons, not_or]
    exact ⟨hlt.ne', ih⟩

section ready

variable (h : Ready ext contents st closed p t) (hne : p.samples contents ≠ [])

include h hne

theorem Ready.label : Labelled (p.samples contents) st.cmint st.cmaxt := by
  refine ⟨?_, h.cmaxt hne⟩
  have hcmint := h.cmint
  obtain ⟨smp, l, hl⟩ := exists_cons_of_ne_nil hne
  rw [hl] at hcmint ⊢
  exact congrArg some hcmint

theorem Ready.at (t' : I64) : Ready ext contents st closed p t' := by
  refine { h with cmint := ?_ }
  rw [(h.label hne).1]
  rfl

theorem Ready.push (p' : Piece A FA) (hp' : p'.samples contents = p.samples contents)
    (hg : Grows st.app st.heap heap) {app : App A FA} (hget : heap[st.app]? = some app)
    (hfin : Finished ext p' app) :
    Closed ext contents { st.push with heap := heap } (closed ++ [p']) := by
  refine ⟨rel_append (refs_grow h.refs hg h.fresh) (forall₂_cons.2 ⟨?_, .nil⟩), ?_⟩
  · refine ⟨by rw [hp']; exact h.label hne, app, ?_, hfin⟩
    rw [show (Ref.mk st.currentChunk st.cmint st.cmaxt).chunk = st.app from h.current]
    exact hget
  · rw [Building.push, map_append, map_singleton, h.current]
    exact h.nodup.append (nodup_singleton _) (disjoint_singleton.2 h.fresh)

end ready

theorem finish_spec (ranges : ℕ → Ranges) (h : Refines ext contents st closed p) :
    (∃ heap, st.finish ext ranges = .ok { st.push with heap := heap } ∧
      Closed ext contents { st.push with heap := heap } (closed ++ [p])) ∨
    (∃ fault, st.finish ext ranges = .error fault) ∧ ∃ run, p = .float run ∧ ¬ Fits run := by
  obtain ⟨app, hget, hopen⟩ := h.app
  have hprev := h.prev
  cases p with
  | histogram a returned | floatHistogram a returned =>
    refine .inl ⟨st.heap, ?_, h.push h.written _ rfl (fun _ _ _ hi => hi) hget hopen⟩
    rw [Building.finish, hprev]
    rfl
  | float run =>
    obtain ⟨a, ha, rfl⟩ := hopen
    have hfinish : st.finish ext ranges = ((a.compact ext (ranges st.chunksFromIterable.length)).map
        fun r => { st with heap := st.heap.set st.app (.cl r.1) }).map Building.push := by
      simp only [Building.finish, Building.compact, hprev, type, hget]
    rcases hcomp : a.compact ext (ranges st.chunksFromIterable.length) with fault | r
    · refine .inr ⟨⟨fault, by rw [hfinish, hcomp]; rfl⟩, run, rfl, ?_⟩
      rintro ⟨hl, hd, -⟩
      have hne : run ≠ [] := fun hrun => h.written (by rw [hrun]; rfl)
      obtain ⟨a', hok, -⟩ := ha.compact (by simpa [quantizers] using hne)
        (by simpa [quantizers] using hl) hd ext (ranges st.chunksFromIterable.length)
      rw [hok] at hcomp
      cases hcomp
    · refine .inl ⟨st.heap.set st.app (.cl r.1), by rw [hfinish, hcomp]; rfl, ?_⟩
      exact h.push h.written _ rfl (grows_set _ _ _) (getElem?_set_of_some hget _)
        ⟨a, _, r, ha, hcomp, rfl⟩

theorem Closed.begin (hlaws : Laws C contents) (h : Closed ext contents st closed)
    (item : Item H FH) :
    ∃ app, newApp C default item.type = some app ∧
      Ready ext contents (st.begin app item.t) closed (new C item.type) item.t := by
  have hgrow : ∀ app, Grows st.heap.length st.heap (st.heap ++ [app]) := fun app i _ _ hi =>
    getElem?_append_of_some hi [app]
  have hready : ∀ app, Unfinished (new C item.type) app →
      Ready ext contents (st.begin app item.t) closed (new C item.type) item.t := by
    intro app hopen
    refine ⟨⟨refs_grow h.refs (hgrow app) (chunk_lt h.refs), h.nodup⟩, chunk_lt h.refs, rfl,
      ⟨app, getElem?_concat_length, hopen⟩, ?_, fun hne => ?_⟩
    · rw [samples_new hlaws item]
      rfl
    · exact absurd (samples_new hlaws item) hne
  cases item with
  | float ctype smp => exact ⟨_, rfl, hready _ ⟨_, floatApp_new, rfl⟩⟩
  | histogram _ _ | floatHistogram _ _ => exact ⟨_, rfl, hready _ rfl⟩

theorem start_spec (hlaws : Laws C contents) (ranges : ℕ → Ranges) {p : Option (Piece A FA)}
    (h : Follows C.ext contents st closed p) (item : Item H FH) :
    (∃ st', st.start C ranges item.type item.t = .ok st' ∧ st'.newChunk = st.newChunk ∧
      Ready C.ext contents st' (closed ++ (next C item.type p).1)
        (next C item.type p).2 item.t) ∨
    (∃ fault, st.start C ranges item.type item.t = .error fault) ∧
      ∃ run, p = some (.float run) ∧ item.type ≠ .float ∧ ¬ Fits run := by
  cases p with
  | none =>
    obtain ⟨rfl, rfl⟩ := h
    have hclosed : Closed C.ext contents (.init : Building A FA) [] :=
      ⟨Forall₂.nil, nodup_nil⟩
    obtain ⟨app, happ, hready⟩ := hclosed.begin hlaws item
    refine .inl ⟨Building.init.begin app item.t, ?_, rfl, hready⟩
    have hne : item.type ≠ (.init : Building A FA).prevValueType := by
      cases item <;> exact fun he => by cases he
    rw [Building.start, if_neg hne]
    simp only [Building.finish, Building.init, ok_bind, happ, pure, Except.pure]
  | some p =>
    by_cases htype : item.type = p.type
    · refine .inl ⟨st, by rw [Building.start, if_pos (htype.trans h.prev.symm)], rfl, ?_⟩
      rw [Piece.next, if_pos htype, append_nil]
      exact h.toReady.at h.written item.t
    · have hne : item.type ≠ st.prevValueType := by
        rw [h.prev]
        exact htype
      rcases finish_spec ranges h with ⟨heap, hfin, hclosed⟩ | ⟨⟨fault, hfin⟩, run, rfl, hfits⟩
      · obtain ⟨app, happ, hready⟩ := hclosed.begin hlaws item
        refine .inl ⟨Building.begin { st.push with heap := heap } app item.t, ?_, rfl, ?_⟩
        · rw [Building.start, if_neg hne, hfin]
          simp only [ok_bind, happ, pure, Except.pure]
        · rw [Piece.next, if_neg htype]
          exact hready
      · exact .inr ⟨⟨fault, by rw [Building.start, if_neg hne, hfin]; rfl⟩, run, rfl, htype, hfits⟩

variable {l : List (AnySample H FH)}

theorem head_concat {x : AnySample H FH} {mint : I64}
    (h : (l.head?.map AnySample.t).getD x.t = mint) :
    (l ++ [x]).head?.map AnySample.t = some mint := by
  cases l with
  | nil | cons y l => exact congrArg some h

/-- The loop is where the machine is, once the last sample of the open chunk is known. -/
theorem Closed.refines {x : AnySample H FH}
    (h : Closed ext contents st closed) (hfresh : st.app ∉ st.chunksFromIterable.map Ref.chunk)
    (hcurrent : st.currentChunk = st.app)
    (happ : ∃ app, st.heap[st.app]? = some app ∧ Unfinished p app)
    (hsamples : p.samples contents = l ++ [x])
    (hmin : (l ++ [x]).head?.map AnySample.t = some st.cmint) (hmax : x.t = st.cmaxt)
    (hprev : st.prevValueType = p.type)
    (hnew : st.newChunk = if p.returned then some st.app else none) :
    Refines ext contents st closed p := by
  refine ⟨⟨h, hfresh, hcurrent, happ, ?_, fun _ => ?_⟩, ?_, hprev, hnew⟩
  · rw [hsamples, hmin]
    rfl
  · rw [hsamples, getLast?_concat, Option.map_some, hmax]
  · rw [hsamples]
    exact concat_ne_nil _ _

/-- How the appenders of a kind of histograms are embedded. -/
structure Kind (ext : Extern) (contents : App A FA → List (AnySample H FH))
    (codec : HistogramCodec V B)
    (mk : B → App A FA) (piece : B → Bool → Piece A FA) (sample : I64 → V → AnySample H FH)
    (vt : ValueType) : Prop where
  law : Lawful codec (fun a => contents (mk a)) sample
  samples : ∀ a returned, (piece a returned).samples contents = contents (mk a)
  unfinished : ∀ a returned app, Unfinished (piece a returned) app ↔ app = mk a
  finished : ∀ a returned, Finished ext (piece a returned) (mk a)
  returned : ∀ a returned, (piece a returned).returned = returned
  type : ∀ a returned, (piece a returned).type = vt
  time : ∀ t v, (sample t v).t = t

theorem kind_hist (hlaws : Laws C contents) :
    Kind ext contents C.hist .histogram .histogram .histogram .histogram :=
  ⟨hlaws.hist, fun _ _ => rfl, fun _ _ _ => Iff.rfl, fun _ _ => rfl, fun _ _ => rfl,
    fun _ _ => rfl, fun _ _ => rfl⟩

theorem kind_fhist (hlaws : Laws C contents) : Kind ext contents C.fhist .floatHistogram
    .floatHistogram .floatHistogram .floatHistogram :=
  ⟨hlaws.fhist, fun _ _ => rfl, fun _ _ _ => Iff.rfl, fun _ _ => rfl, fun _ _ => rfl,
    fun _ _ => rfl, fun _ _ => rfl⟩

theorem appendHistogram_refines {codec : HistogramCodec V B} {mk : B → App A FA}
    {piece : B → Bool → Piece A FA} {sample : I64 → V → AnySample H FH} {vt : ValueType}
    (hkind : Kind ext contents codec mk piece sample vt) {a : B} {returned : Bool} (v : V)
    (h : Ready ext contents st closed (piece a returned) t) :
    Refines ext contents ((st.appendHistogram codec mk a t v).adopt vt t)
      (closed ++ (put codec piece a t v).1) (put codec piece a t v).2 := by
  obtain ⟨app, hget, hopen⟩ := h.app
  have hcmint := h.cmint
  rw [hkind.samples, ← hkind.time t v] at hcmint
  rcases happ : codec.append none a t v with ⟨old, answer⟩
  obtain ⟨hlt, -⟩ := List.getElem?_eq_some_iff.1 hget
  have hlast : ∀ b, (st.heap.set st.app (mk old) ++ [mk b])[st.heap.length]? = some (mk b) :=
    fun b => by
    have hlen : (st.heap.set st.app (mk old)).length = st.heap.length := length_set
    rw [← hlen]
    exact getElem?_concat_length
  obtain _ | ⟨a', _ | _⟩ := answer
  · -- in place
    have hput : put codec piece a t v = ([], piece old false) := by rw [put, happ]
    rw [hput, append_nil, Building.appendHistogram, happ]
    have hgrow := refs_grow h.refs (grows_set st.heap st.app (mk old)) h.fresh
    refine Closed.refines ⟨hgrow, h.nodup⟩ h.fresh h.current
      ⟨mk old, getElem?_set_of_some hget _, (hkind.unfinished _ _ _).2 rfl⟩
      ((hkind.samples _ _).trans (hkind.law.inPlace a t v old happ)) (head_concat hcmint)
      (hkind.time t v) (hkind.type _ _).symm ?_
    rw [hkind.returned]
    rfl
  · -- a fresh chunk, after the open one
    have hput : put codec piece a t v = ([piece old true], piece a' true) := by
      rw [put, happ]
    obtain ⟨hold, hnew⟩ := hkind.law.fresh a t v old a' happ
    have hne : (piece a returned).samples contents ≠ [] := by
      rw [hkind.samples]
      intro hnil
      have := hkind.law.first a t v hnil
      rw [happ] at this
      cases this
    have hset := getElem?_set_of_some hget (mk old)
    have hclosed := h.push hne (piece old true) (by rw [hkind.samples, hkind.samples, hold])
      ((grows_set st.heap st.app (mk old)).append [mk a']) (getElem?_append_of_some hset _)
      (hkind.finished _ _)
    have hfresh : st.heap.length ∉ st.push.chunksFromIterable.map Ref.chunk := by
      rw [Building.push, map_append, mem_append, not_or]
      exact ⟨chunk_lt h.refs, by simpa [h.current] using hlt.ne'⟩
    rw [hput, Building.appendHistogram, happ]
    refine Closed.refines (l := []) ⟨hclosed.refs, hclosed.nodup⟩ hfresh rfl
      ⟨mk a', hlast a', (hkind.unfinished _ _ _).2 rfl⟩ ((hkind.samples _ _).trans hnew)
      (congrArg some (hkind.time t v)) (hkind.time t v) (hkind.type _ _).symm ?_
    rw [hkind.returned]
    rfl
  · -- a recoded chunk in place of the open one
    have hput : put codec piece a t v = ([], piece a' true) := by rw [put, happ]
    rw [hput, append_nil, Building.appendHistogram, happ]
    have hgrow := refs_grow h.refs ((grows_set st.heap st.app (mk old)).append [mk a']) h.fresh
    refine Closed.refines ⟨hgrow, h.nodup⟩ (chunk_lt h.refs) rfl
      ⟨mk a', hlast a', (hkind.unfinished _ _ _).2 rfl⟩
      ((hkind.samples _ _).trans (hkind.law.recoded a t v old a' happ)) (head_concat hcmint)
      (hkind.time t v) (hkind.type _ _).symm ?_
    rw [hkind.returned]
    rfl

variable {R : Reflected σ H FH}

/-- A sample is appended to the open chunk. For a float the variable `newChunk` has to be nil. -/
theorem append_refines (hlaws : Laws C contents) {M : Methods σ}
    (hM : R.methods = some M) {s : σ} {item : Item H FH} (hitem : ReadsItem R M s item)
    (htype : item.type = p.type) (h : Ready C.ext contents st closed p item.t)
    (hnew : item.type = .float → st.newChunk = none) :
    ∃ st', st.append C R item.type s = .ok (item.t, st') ∧
      Refines C.ext contents (st'.adopt item.type item.t) (closed ++ (p.add C item).1)
        (p.add C item).2 := by
  obtain ⟨app, hget, hopen⟩ := h.app
  cases p with
  | float run =>
    cases item with
    | float ctype smp =>
      obtain ⟨hv, hctype, hq⟩ := hitem
      obtain ⟨a, ha, rfl⟩ := hopen
      obtain ⟨a', happend, ha'⟩ := appendReflected_of hv hq ha
      refine ⟨{ st with heap := st.heap.set st.app (.cl a') }, ?_, ?_⟩
      · simp only [Building.append, Item.type, Item.sample, AnySample.type, hget, hM, hctype,
          ok_bind, happend, pure, Except.pure]
        rfl
      · have hnone := hnew rfl
        have hadopt : ({ st with heap := st.heap.set st.app (.cl a') } : Building A FA).adopt .float
            smp.t = { st with
              heap := st.heap.set st.app (.cl a')
              cmaxt := smp.t
              prevValueType := .float } := by
          simp only [Building.adopt, hnone]
        rw [add, append_nil]
        change Refines _ _ (Building.adopt _ .float smp.t) _ _
        rw [hadopt]
        have hgrow := refs_grow h.refs (grows_set st.heap st.app (.cl a')) h.fresh
        refine Closed.refines (x := .float smp.t smp.val) ⟨hgrow, h.nodup⟩ h.fresh h.current
          ⟨.cl a', getElem?_set_of_some hget _, a', ?_, rfl⟩ ?_ (head_concat h.cmint) rfl rfl hnone
        · simpa [quantizers] using ha'
        · simp [samples]
    | histogram _ _ | floatHistogram _ _ => cases htype
  | histogram a returned =>
    cases item with
    | float _ _ | floatHistogram _ _ => cases htype
    | histogram t v =>
      have happ : app = .histogram a := hopen
      refine ⟨st.appendHistogram C.hist .histogram a t v, ?_,
        appendHistogram_refines (kind_hist hlaws) v h⟩
      have hread : R.I.atHistogram s = .ok (t, v) := hitem
      simp only [Building.append, Item.type, Item.sample, AnySample.type, hget, happ, hread,
        ok_bind, pure, Except.pure]
      rfl
  | floatHistogram a returned =>
    cases item with
    | float _ _ | histogram _ _ => cases htype
    | floatHistogram t v =>
      have happ : app = .floatHistogram a := hopen
      refine ⟨st.appendHistogram C.fhist .floatHistogram a t v, ?_,
        appendHistogram_refines (kind_fhist hlaws) v h⟩
      have hread : R.I.atFloatHistogram s = .ok (t, v) := hitem
      simp only [Building.append, Item.type, Item.sample, AnySample.type, hget, happ, hread,
        ok_bind, pure, Except.pure]
      rfl

/-- **A turn of the loop refines a step of the machine**, unless the chunk of a run of floats does
not fit. -/
theorem turn_refines (hlaws : Laws C contents) (ranges : ℕ → Ranges)
    {M : Methods σ} (hM : R.methods = some M) {x : ValueType × σ} {item : Item H FH}
    (hx : ItemAt R M x item) {p : Option (Piece A FA)} (h : Follows C.ext contents st closed p)
    (hclean : ¬ (item.type = .float ∧ p.any returned)) :
    (∃ st', st.turn C ranges R x.1 x.2 = .ok st' ∧
      Refines C.ext contents st' (closed ++ (advance C p item).1) (advance C p item).2) ∨
    (∃ fault, st.turn C ranges R x.1 x.2 = .error fault) ∧
      ∃ run, p = some (.float run) ∧ item.type ≠ .float ∧ ¬ Fits run := by
  have hnew : item.type = .float → st.newChunk = none := by
    intro hfloat
    cases p with
    | none =>
      obtain ⟨rfl, -⟩ := h
      rfl
    | some p =>
      have hret : p.returned = false := by
        rw [Bool.eq_false_iff]
        exact fun hret => hclean ⟨hfloat, hret⟩
      rw [h.newChunk, hret]
      rfl
  rw [Building.turn, hx.type, hx.t]
  rcases start_spec hlaws ranges h item with ⟨st1, hstart, hst1, hready⟩ | ⟨⟨fault, hstart⟩, hrun⟩
  · obtain ⟨st2, happend, hrefines⟩ := append_refines hlaws hM hx.reads
      (type_next (C := C) item p).symm hready (fun hfloat => hst1.trans (hnew hfloat))
    refine .inl ⟨st2.adopt item.type item.t, ?_, ?_⟩
    · simp only [hstart, ok_bind, happend, pure, Except.pure]
    · rw [advance, ← append_assoc]
      exact hrefines
  · exact .inr ⟨⟨fault, by simp only [hstart, bind, Except.bind]⟩, hrun⟩

end steps

/-! ### Runs -/

variable (C : Codecs H FH A FA) (ranges : ℕ → Ranges) (R : Reflected σ H FH)

/-- The turns of the loop for the samples `xs`. -/
def turns (xs : List (ValueType × σ)) (st : Building A FA) : Except Fault (Building A FA) :=
  xs.foldlM (fun (st : Building A FA) x => st.turn C ranges R x.1 x.2) st

/-- What is built of the samples `xs`. -/
def build (xs : List (ValueType × σ)) (st : Building A FA) : Except Fault (Building A FA) :=
  turns C ranges R xs st >>= Building.finish C.ext ranges

variable {C ranges R}

theorem turns_cons (x : ValueType × σ) (xs : List (ValueType × σ)) (st : Building A FA) :
    turns C ranges R (x :: xs) st = st.turn C ranges R x.1 x.2 >>= turns C ranges R xs := rfl

theorem build_cons {x : ValueType × σ} {st st' : Building A FA}
    (h : st.turn C ranges R x.1 x.2 = .ok st') (xs : List (ValueType × σ)) :
    build C ranges R (x :: xs) st = build C ranges R xs st' := by
  rw [build, turns_cons, h]
  rfl

theorem buildLoop_eq (C : Codecs H FH A FA) (ranges : ℕ → Ranges) (R : Reflected σ H FH)
    {D : Iterator (DeletedIterator σ) H FH} :
    ∀ {k : ℕ} {xs : List (ValueType × DeletedIterator σ)} {vt : ValueType} {it : DeletedIterator σ}
      (st : Building A FA), vt ≠ .none → Reads D it xs → xs.length + 1 < k →
      ∃ it', D.err it' = none ∧ buildLoop C ranges R D k vt it st =
        (turns C ranges R ((vt, it.iter) :: xs.map fun x => (x.1, x.2.iter)) st).map fun st =>
        (it', st)
  | 0, _, _, _, _, _, _, hk => by omega
  | k + 1, xs, vt, it, st, hvt, hr, hk => by
    rw [buildLoop, if_neg hvt, turns_cons]
    cases xs with
    | nil =>
      obtain ⟨it', hn, herr⟩ := hr
      obtain ⟨k, rfl⟩ : ∃ j, k = j + 1 := ⟨k - 1, by simp at hk; omega⟩
      refine ⟨it', herr, ?_⟩
      rcases st.turn C ranges R vt it.iter with fault | st1
      · rfl
      · simp only [ok_bind, hn, buildLoop, if_true]
        rfl
    | cons x xs =>
      obtain ⟨hx, hn, hr'⟩ := hr
      rcases hturn : st.turn C ranges R vt it.iter with fault | st1
      · obtain ⟨it', herr, -⟩ := buildLoop_eq C ranges R st hx hr'
          (show xs.length + 1 < k by simp at hk; omega)
        exact ⟨it', herr, rfl⟩
      · obtain ⟨it', herr, hloop⟩ := buildLoop_eq C ranges R st1 hx hr'
          (show xs.length + 1 < k by simp at hk; omega)
        refine ⟨it', herr, ?_⟩
        simp only [ok_bind, hn]
        exact hloop

theorem populate_eq {it : DeletedIterator σ} {xs : List (ValueType × DeletedIterator σ)}
    (hr : Reads (deletedIterator R.I k) it xs) (hk : xs.length < k) :
    populateChunksFromIterable C ranges R k it =
      (build C ranges R (xs.map fun x => (x.1, x.2.iter)) .init).map fun st =>
        (!st.chunksFromIterable.isEmpty, none, st) := by
  cases xs with
  | nil =>
    obtain ⟨it', hn, herr⟩ := hr
    simp only [populateChunksFromIterable, hn, ok_bind, if_true, herr]
    rfl
  | cons x xs =>
    obtain ⟨hx, hn, hr'⟩ := hr
    obtain ⟨it', herr, hloop⟩ := buildLoop_eq C ranges R .init hx hr' hk
    simp only [populateChunksFromIterable, hn, bind, Except.bind, if_neg hx, hloop, build,
      map_cons]
    generalize turns C ranges R _ (.init : Building A FA) = r
    rcases r with fault | st
    · rfl
    · simp only [Except.map, herr]
      rcases st.finish C.ext ranges with fault | st'
      · rfl
      · rfl

variable {contents : App A FA → List (AnySample H FH)} {M : Methods σ}

/-- **Clean samples are built** as the machine says, unless a run of floats does not fit. -/
theorem build_spec (hlaws : Laws C contents) (hM : R.methods = some M) :
    ∀ {items : List (Item H FH)} {xs : List (ValueType × σ)} {st : Building A FA}
      {closed : List (Piece A FA)} {p : Option (Piece A FA)}, Forall₂ (ItemAt R M) xs items →
      Follows C.ext contents st closed p → Piece.Clean C p items →
      (∃ st', build C ranges R xs st = .ok st' ∧
        Closed C.ext contents st' (closed ++ Piece.all C p items)) ∨
      (∃ fault, build C ranges R xs st = .error fault) ∧
        ∃ run, .float run ∈ Piece.all C p items ∧ ¬ Fits run := by
  intro items xs st closed p hxs h hclean
  induction hxs generalizing st closed p with
  | nil =>
    cases p with
    | none =>
      obtain ⟨rfl, rfl⟩ := h
      exact .inl ⟨.init, rfl, Forall₂.nil, nodup_nil⟩
    | some p =>
      rcases finish_spec ranges h with ⟨heap, hfin, hclosed⟩ | ⟨hfault, run, rfl, hfits⟩
      · exact .inl ⟨_, hfin, hclosed⟩
      · exact .inr ⟨hfault, run, mem_singleton.2 rfl, hfits⟩
  | @cons x item xs items hx hxs ih =>
    rw [Piece.all]
    rcases turn_refines hlaws ranges hM hx h hclean.1 with ⟨st1, hturn, hrefines⟩ |
      ⟨⟨fault, hturn⟩, run, rfl, hne, hfits⟩
    · have hfollows : Follows C.ext contents st1 (closed ++ (advance C p item).1)
          (some (advance C p item).2) := hrefines
      rw [build_cons hturn, ← append_assoc]
      rcases ih hfollows hclean.2 with hok | ⟨hfault, run, hmem, hfits⟩
      · exact Or.inl hok
      · exact .inr ⟨hfault, run, mem_append_right _ hmem, hfits⟩
    · refine .inr ⟨⟨fault, ?_⟩, run, mem_append_left _ ?_, hfits⟩
      · rw [build, turns_cons, hturn]
        rfl
      · have hnext : next C item.type (some (.float run)) = ([.float run], new C item.type) :=
          if_neg hne
        rw [advance, hnext]
        exact mem_append_left _ (mem_singleton.2 rfl)

end TopcDB.Tsdb.IterableChunks
