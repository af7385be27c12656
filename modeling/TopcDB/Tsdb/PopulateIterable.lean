import TopcDB.Storage.ChainSeek
import TopcDB.Tsdb.PopulateSingle

/-! # Chunks written from an iterable

`populateChunksFromIterable` writes the samples of a chained iterator to new chunks, one for every
run of samples of one type, and more where an appender of histograms returns a chunk of its own. The
loop keeps that chunk in a variable which the case of floats does not reset: a float right after a
histogram for which the appender returned a chunk is taken for a histogram with a new chunk once
more (`Clean`). Otherwise the loop does what a simple machine on the samples does (`Refines`), and
`collects_iff` says when the chunks have the samples that are left. -/

namespace TopcDB.Tsdb.PopulateIterable

open List Go.Basic Chunkenc CLMeta CLChunk Chunk Huffman CLIterate HuffmanChunk Storage Merge Series
open AnySeries
open Storage.ChainSeek (chainSeek)
open Deleted PopulateSingle

variable {σ H FH A FA V B : Type}

/-! ### Chained iterators -/

variable (I : Iterator σ H FH)

/-- A chained iterator, with the methods that reflection finds. `AtT` is not called before the first
sample. -/
def chainReflected (unknown : H → H) (funknown : FH → FH) (fuel : ℕ) :
    Reflected (ChainSampleIterator σ) H FH where
  I :=
    { next := fun c => c.next I fuel
      seek := chainSeek I
      atFloat := fun c => c.atFloat I
      atHistogram := fun c => c.atHistogram I unknown
      atFloatHistogram := fun c => c.atFloatHistogram I funknown
      atT := fun c =>
        match c.current with
        | .ok s => I.atT s
        | .error _ => 0
      err := fun c => (c.err I).head?
      cl := fun _ => none }
  methods := some ⟨fun c => c.compressType I, fun c => c.atQuantizer I⟩

/-! ### The function -/

/-- The errors `no samples could be read` and `currDelIter error when writing new chunks`. The third
one, `error when writing new chunks`, has no cause: a new chunk has an appender, and those of
histograms fail only with `appendOnly`. -/
inductive IterableErr
  | noSamples (e : Err)
  | currDelIter (e : Err)
  deriving DecidableEq

/-- A `chunks.Meta`, with the place of its chunk in the heap. -/
structure Ref where
  chunk : ℕ
  minTime : I64
  maxTime : I64
  deriving DecidableEq

/-- The variables of the loop. The heap has the chunks with their appenders in the order they were
made: one that is listed may still be written to. -/
structure Building (A FA : Type) where
  chunksFromIterable : List Ref
  heap : List (App A FA)
  cmint : I64
  cmaxt : I64
  currentChunk : ℕ
  app : ℕ
  newChunk : Option ℕ
  recoded : Bool
  prevValueType : ValueType

namespace Building

def init : Building A FA := ⟨[], [], 0, 0, 0, 0, none, false, .none⟩

variable (st : Building A FA)

/-- The current chunk is added to the list. -/
def push : Building A FA :=
  { st with chunksFromIterable := st.chunksFromIterable ++ [⟨st.currentChunk, st.cmint, st.cmaxt⟩] }

/-- `app.(*chunkenc.CLAppender).Compact()`, without its error; `ranges n` are the orders in which
the one before the `n`-th chunk visits its maps. -/
def compact (ext : Extern) (ranges : ℕ → Ranges) (st : Building A FA) :
    Except Fault (Building A FA) :=
  match st.heap[st.app]? with
  | some (.cl a) => (a.compact ext (ranges st.chunksFromIterable.length)).map fun p =>
      { st with heap := st.heap.set st.app (.cl p.1) }
  | _ => .error .panic

/-- The current chunk is finished: it is compacted after a float, and added to the list. -/
def finish (ext : Extern) (ranges : ℕ → Ranges) (st : Building A FA) :
    Except Fault (Building A FA) :=
  match st.prevValueType with
  | .none => .ok st
  | .float => (st.compact ext ranges).map push
  | _ => .ok st.push

/-- A new chunk for the samples from `t` on. -/
def begin (app : App A FA) (t : I64) : Building A FA :=
  { st with
    heap := st.heap ++ [app], cmint := t, currentChunk := st.heap.length, app := st.heap.length }

/-- What the appender of a histogram returns is taken over. -/
def appendHistogram (codec : HistogramCodec V B) (mk : B → App A FA) (st : Building A FA) (a : B)
    (t : I64) (v : V) : Building A FA :=
  match codec.append none a t v with
  | (a, none) => { st with heap := st.heap.set st.app (mk a), newChunk := none, recoded := false }
  | (old, some (a, recoded)) =>
    { st with
      heap := st.heap.set st.app (mk old) ++ [mk a]
      app := st.heap.length
      newChunk := some st.heap.length
      recoded := recoded }

/-- The end of a turn: the new chunk, if there is one, becomes the current one. -/
def adopt (vt : ValueType) (t : I64) : Building A FA :=
  match st.newChunk with
  | none => { st with cmaxt := t, prevValueType := vt }
  | some newChunk =>
    let st := if st.recoded then st else { st.push with cmint := t }
    { st with currentChunk := newChunk, cmaxt := t, prevValueType := vt }

variable (C : Codecs H FH A FA) (ranges : ℕ → Ranges) (R : Reflected σ H FH) (st : Building A FA)

/-- A sample of another type than the one before starts a new chunk. -/
def start (vt : ValueType) (t : I64) : Except Fault (Building A FA) :=
  if vt = st.prevValueType then .ok st
  else do
    let st ← st.finish C.ext ranges
    match newApp C default vt with
    | none => .error .panic
    | some app => return st.begin app t

/-- The sample at which the iterator is, is appended. -/
def append (vt : ValueType) (s : σ) : Except Fault (I64 × Building A FA) :=
  match vt, st.heap[st.app]? with
  | .float, some (.cl a) =>
    match R.methods with
    | none => .error .panic
    | some M => do
      let ctype ← M.compressType s
      let (t, a) ← appendReflected R M ctype s a
      return (t, { st with heap := st.heap.set st.app (.cl a) })
  | .histogram, some (.histogram a) => do
    let (t, h) ← R.I.atHistogram s
    return (t, st.appendHistogram C.hist .histogram a t h)
  | .floatHistogram, some (.floatHistogram a) => do
    let (t, fh) ← R.I.atFloatHistogram s
    return (t, st.appendHistogram C.fhist .floatHistogram a t fh)
  | _, _ => .error .panic

def turn (vt : ValueType) (s : σ) : Except Fault (Building A FA) := do
  let st ← st.start C ranges vt (R.I.atT s)
  let (t, st) ← st.append C R vt s
  return st.adopt vt t

end Building

variable (C : Codecs H FH A FA) (ranges : ℕ → Ranges) (R : Reflected σ H FH)

/-- The loop, from the current sample on. -/
def buildLoop (D : Iterator (DeletedIterator σ) H FH) : ℕ → ValueType → DeletedIterator σ →
    Building A FA → Except Fault (DeletedIterator σ × Building A FA)
  | 0, _, _, _ => .error .hang
  | k + 1, vt, it, st =>
    if vt = .none then .ok (it, st)
    else do
      let st ← st.turn C ranges R vt it.iter
      let (vt, it) ← D.next it
      buildLoop D k vt it st

/-- `populateChunksFromIterable`: whether there is a first chunk, the error, and what was built. -/
def populateChunksFromIterable (k : ℕ) (it : DeletedIterator σ) :
    Except Fault (Bool × Option IterableErr × Building A FA) := do
  let D := deletedIterator R.I k
  let (vt, it) ← D.next it
  if vt = .none then return (false, (D.err it).map .noSamples, .init)
  else
    let (it, st) ← buildLoop C ranges R D k vt it .init
    match D.err it with
    | some e => return (false, some (.currDelIter e), st)
    | none =>
      let st ← st.finish C.ext ranges
      return (!st.chunksFromIterable.isEmpty, none, st)

/-! ### Samples -/

/-- A sample; for a float with what the methods of the iterator know. -/
inductive Item (H FH : Type)
  | float (ctype : CompressType) (smp : Sample)
  | histogram (t : I64) (h : H)
  | floatHistogram (t : I64) (fh : FH)

def Item.sample : Item H FH → AnySample H FH
  | .float _ smp => .float smp.t smp.val
  | .histogram t h => .histogram t h
  | .floatHistogram t fh => .floatHistogram t fh

def Item.t (item : Item H FH) : I64 := item.sample.t

def Item.type (item : Item H FH) : ValueType := item.sample.type

/-- What the iterator reads at a sample. The quantiser is only asked for where the codec has one. -/
def ReadsItem (R : Reflected σ H FH) (M : Methods σ) (s : σ) : Item H FH → Prop
  | .float ctype smp => R.I.atFloat s = .ok (smp.t, smp.val) ∧ M.compressType s = .ok ctype ∧
      (requantizes ctype → M.atQuantizer s = .ok (smp.t, smp.quantizer))
  | .histogram t h => R.I.atHistogram s = .ok (t, h)
  | .floatHistogram t fh => R.I.atFloatHistogram s = .ok (t, fh)

structure ItemAt (R : Reflected σ H FH) (M : Methods σ) (x : ValueType × σ) (item : Item H FH) :
    Prop where
  type : x.1 = item.type
  t : R.I.atT x.2 = item.t
  reads : ReadsItem R M x.2 item

/-- A float of a chained iterator, with the codec `None` where the iterator is not one of a CL
chunk. -/
theorem itemAt_chain {I : Iterator σ H FH} (unknown : H → H) (funknown : FH → FH) (fuel : ℕ)
    {c : ChainSampleIterator σ} {s : σ} {t : I64} {v : ℚ} (hc : c.current = .ok s)
    (ht : I.atT s = t)
    (hv : I.atFloat s = .ok (t, v)) (hcl : ∀ it, I.cl s = some it → it.t = t) :
    ItemAt (chainReflected I unknown funknown fuel)
      ⟨fun c => c.compressType I, fun c => c.atQuantizer I⟩ (.float, c)
      (.float (((I.cl s).map fun it => it.decoder.ctype).getD .none)
        ⟨t, ((I.cl s).map CLIterator.quantizer).getD 0, v⟩) := by
  refine ⟨rfl, ?_, ?_, ?_, fun hq => ?_⟩
  · simp only [chainReflected, hc, ht]
    rfl
  · simp only [chainReflected, ChainSampleIterator.atFloat, hc, ok_bind, hv]
  · simp only [ChainSampleIterator.compressType, hc, ok_bind]
    cases I.cl s <;> rfl
  · simp only [ChainSampleIterator.atQuantizer, hc, ok_bind]
    rcases hit : I.cl s with _ | it
    · rw [hit] at hq
      cases hq
    · simp only [Option.map_some, Option.getD_some, hcl it hit]

/-! ### What is to be written -/

/-- A chunk: a run of floats, or what an appender of histograms has made; the flag says that it
returned a chunk for the last sample. -/
inductive Piece (A FA : Type)
  | float (run : List (CompressType × Sample))
  | histogram (a : A) (returned : Bool)
  | floatHistogram (a : FA) (returned : Bool)

namespace Piece

def type : Piece A FA → ValueType
  | .float _ => .float
  | .histogram _ _ => .histogram
  | .floatHistogram _ _ => .floatHistogram

def returned : Piece A FA → Bool
  | .float _ => false
  | .histogram _ returned | .floatHistogram _ returned => returned

def run : Piece A FA → Option (List (CompressType × Sample))
  | .float run => some run
  | _ => none

/-- The samples of a chunk, those of histograms as `contents` reads them. -/
def samples (contents : App A FA → List (AnySample H FH)) : Piece A FA → List (AnySample H FH)
  | .float run => run.map fun x => .float x.2.t x.2.val
  | .histogram a _ => contents (.histogram a)
  | .floatHistogram a _ => contents (.floatHistogram a)

/-- The three answers of an appender: the chunk that is over, if there is one, and the open one. -/
def put (codec : HistogramCodec V B) (mk : B → Bool → Piece A FA) (a : B) (t : I64) (v : V) :
    List (Piece A FA) × Piece A FA :=
  match codec.append none a t v with
  | (a, none) => ([], mk a false)
  | (_, some (a, true)) => ([], mk a true)
  | (old, some (a, false)) => ([mk old true], mk a true)

variable (C : Codecs H FH A FA)

def new : ValueType → Piece A FA
  | .histogram => .histogram C.hist.new false
  | .floatHistogram => .floatHistogram C.fhist.new false
  | _ => .float []

/-- The chunk for a sample of type `vt`, after the one that is over. -/
def next (vt : ValueType) : Option (Piece A FA) → List (Piece A FA) × Piece A FA
  | none => ([], new C vt)
  | some p => if vt = p.type then ([], p) else ([p], new C vt)

/-- A sample of the same type. -/
def add : Piece A FA → Item H FH → List (Piece A FA) × Piece A FA
  | .float run, .float ctype smp => ([], .float (run ++ [(ctype, smp)]))
  | .histogram a _, .histogram t h => put C.hist .histogram a t h
  | .floatHistogram a _, .floatHistogram t fh => put C.fhist .floatHistogram a t fh
  | p, _ => ([], p)

/-- A step of the machine. -/
def advance (p : Option (Piece A FA)) (item : Item H FH) : List (Piece A FA) × Piece A FA :=
  let b := next C item.type p
  let q := b.2.add C item
  (b.1 ++ q.1, q.2)

/-- All chunks, from an open one on. -/
def all : Option (Piece A FA) → List (Item H FH) → List (Piece A FA)
  | p, [] => p.toList
  | p, item :: items => (advance C p item).1 ++ all (some (advance C p item).2) items

/-- No float comes right after a histogram for which the appender returned a chunk. -/
def Clean : Option (Piece A FA) → List (Item H FH) → Prop
  | _, [] => True
  | p, item :: items => ¬ (item.type = .float ∧ p.any returned) ∧
      Clean (some (advance C p item).2) items

end Piece

/-- The runs of floats, from an open one on. -/
def floatRuns : Option (List (CompressType × Sample)) → List (Item H FH) →
    List (List (CompressType × Sample))
  | run, [] => run.toList
  | run, .float ctype smp :: items => floatRuns (some (run.getD [] ++ [(ctype, smp)])) items
  | run, .histogram _ _ :: items | run, .floatHistogram _ _ :: items =>
    run.toList ++ floatRuns none items

variable (run : List (CompressType × Sample))

/-- What is appended to the chunk of a run of floats. -/
def quantizers : List (I64 × I64) :=
  run.map fun x => requantized x.1 x.2

/-- A chunk can count the samples, the table of their codes can be written, and the values are those
of the quantisers. -/
def Fits : Prop :=
  run.length < 2 ^ 16 ∧ Dense (deltaCodes 0 ((quantizers run).map Prod.snd)) ∧
    ReadAs 0 0 (run.map fun x => ((requantized x.1 x.2).2, x.2.val))

/-- The appenders of histograms: on an empty chunk they append in place; else also, or they return a
recoded chunk with all samples, or a fresh one with the new one only. -/
structure Lawful (codec : HistogramCodec V B) (contents : B → List (AnySample H FH))
    (sample : I64 → V → AnySample H FH) : Prop where
  new : contents codec.new = []
  first : ∀ a t v, contents a = [] → (codec.append none a t v).2 = none
  inPlace : ∀ a t v a', codec.append none a t v = (a', none) →
    contents a' = contents a ++ [sample t v]
  recoded : ∀ a t v old a', codec.append none a t v = (old, some (a', true)) →
    contents a' = contents a ++ [sample t v]
  fresh : ∀ a t v old a', codec.append none a t v = (old, some (a', false)) →
    contents old = contents a ∧ contents a' = [sample t v]

/-- Both kinds of appenders. -/
structure Laws (C : Codecs H FH A FA) (contents : App A FA → List (AnySample H FH)) : Prop where
  hist : Lawful C.hist (fun a => contents (.histogram a)) AnySample.histogram
  fhist : Lawful C.fhist (fun a => contents (.floatHistogram a)) AnySample.floatHistogram

variable {C : Codecs H FH A FA} {contents : App A FA → List (AnySample H FH)}

theorem samples_put {codec : HistogramCodec V B} {mk : B → Bool → Piece A FA}
    {f : B → List (AnySample H FH)} {sample : I64 → V → AnySample H FH}
    (hlaw : Lawful codec f sample)
    (hmk : ∀ a returned, (mk a returned).samples contents = f a) (a : B) (t : I64) (v : V) :
    (Piece.put codec mk a t v).1.flatMap (Piece.samples contents) ++
      (Piece.put codec mk a t v).2.samples contents = f a ++ [sample t v] := by
  rw [Piece.put]
  rcases happ : codec.append none a t v with ⟨old, _ | ⟨a', _ | _⟩⟩
  · simp [hmk, hlaw.inPlace a t v old happ]
  · obtain ⟨hold, hnew⟩ := hlaw.fresh a t v old a' happ
    simp [hmk, hold, hnew]
  · simp [hmk, hlaw.recoded a t v old a' happ]

theorem samples_add (hlaws : Laws C contents) {p : Piece A FA} {item : Item H FH}
    (htype : item.type = p.type) :
    (p.add C item).1.flatMap (Piece.samples contents) ++ (p.add C item).2.samples contents =
      p.samples contents ++ [item.sample] := by
  cases p with
  | float run =>
    cases item with
    | float ctype smp => simp [Piece.add, Piece.samples, Item.sample]
    | histogram t h => cases htype
    | floatHistogram t fh => cases htype
  | histogram a returned =>
    cases item with
    | float ctype smp => cases htype
    | histogram t h => exact samples_put hlaws.hist (fun _ _ => rfl) a t h
    | floatHistogram t fh => cases htype
  | floatHistogram a returned =>
    cases item with
    | float ctype smp => cases htype
    | histogram t h => cases htype
    | floatHistogram t fh => exact samples_put hlaws.fhist (fun _ _ => rfl) a t fh

theorem type_new (item : Item H FH) : (Piece.new C item.type).type = item.type := by
  cases item <;> rfl

theorem samples_new (hlaws : Laws C contents) (item : Item H FH) :
    (Piece.new C item.type).samples contents = [] := by
  cases item with
  | float ctype smp => rfl
  | histogram t h => exact hlaws.hist.new
  | floatHistogram t fh => exact hlaws.fhist.new

theorem type_next (item : Item H FH) (p : Option (Piece A FA)) :
    (Piece.next C item.type p).2.type = item.type := by
  cases p with
  | none => exact type_new item
  | some p =>
    rw [Piece.next]
    split_ifs with h
    · exact h.symm
    · exact type_new item

theorem samples_next (hlaws : Laws C contents) (item : Item H FH) (p : Option (Piece A FA)) :
    (Piece.next C item.type p).1.flatMap (Piece.samples contents) ++
      (Piece.next C item.type p).2.samples contents =
        p.toList.flatMap (Piece.samples contents) := by
  cases p with
  | none => simp [Piece.next, samples_new hlaws item]
  | some p =>
    rw [Piece.next]
    split_ifs with h
    · simp
    · simp [samples_new hlaws item]

theorem samples_advance (hlaws : Laws C contents) (item : Item H FH) (p : Option (Piece A FA)) :
    (Piece.advance C p item).1.flatMap (Piece.samples contents) ++
      (Piece.advance C p item).2.samples contents =
    p.toList.flatMap (Piece.samples contents) ++ [item.sample] := by
  have hadd := samples_add hlaws (type_next (C := C) item p).symm
  rw [← samples_next hlaws item p, Piece.advance, flatMap_append, append_assoc, hadd,
    append_assoc]

theorem samples_all (hlaws : Laws C contents) :
    ∀ (items : List (Item H FH)) (p : Option (Piece A FA)),
    (Piece.all C p items).flatMap (Piece.samples contents) =
      p.toList.flatMap (Piece.samples contents) ++ items.map Item.sample
  | [], p => by rw [Piece.all, map_nil, append_nil]
  | item :: items, p => by
    rw [Piece.all, flatMap_append, samples_all hlaws items, Option.toList_some,
      flatMap_singleton, ← append_assoc, samples_advance hlaws item p, append_assoc]
    rfl

theorem run_put (codec : HistogramCodec V B) (mk : B → Bool → Piece A FA)
    (hmk : ∀ a returned, (mk a returned).run = none) (a : B) (t : I64) (v : V) :
    (Piece.put codec mk a t v).1.filterMap Piece.run = [] ∧
    (Piece.put codec mk a t v).2.run = none := by
  rw [Piece.put]
  rcases codec.append none a t v with ⟨old, _ | ⟨a', _ | _⟩⟩ <;> simp [hmk]

theorem run_advance {item : Item H FH} (hitem : item.type ≠ .float) (p : Option (Piece A FA)) :
    (Piece.advance C p item).1.filterMap Piece.run = (p.bind Piece.run).toList ∧
      (Piece.advance C p item).2.run = none := by
  have hnext : (Piece.next C item.type p).1.filterMap Piece.run = (p.bind Piece.run).toList := by
    cases p with
    | none => rfl
    | some p =>
      rw [Piece.next]
      split_ifs with h
      · cases p with
        | float run => exact absurd h hitem
        | histogram _ _ | floatHistogram _ _ => rfl
      · cases p <;> rfl
  have htype := type_next (C := C) item p
  rw [Piece.advance, filterMap_append, hnext]
  generalize (Piece.next C item.type p).2 = q at htype
  cases item with
  | float ctype smp => exact absurd rfl hitem
  | histogram t h =>
    cases q with
    | float run => cases htype
    | histogram a returned =>
      obtain ⟨h1, h2⟩ := run_put C.hist (.histogram : A → Bool → Piece A FA) (fun _ _ => rfl) a t h
      exact ⟨by simp only [Piece.add, h1, append_nil], h2⟩
    | floatHistogram a returned => cases htype
  | floatHistogram t fh =>
    cases q with
    | float run => cases htype
    | histogram a returned => cases htype
    | floatHistogram a returned =>
      obtain ⟨h1, h2⟩ := run_put C.fhist (.floatHistogram : FA → Bool → Piece A FA)
        (fun _ _ => rfl) a
        t fh
      exact ⟨by simp only [Piece.add, h1, append_nil], h2⟩

theorem filterMap_run_all : ∀ (items : List (Item H FH)) (p : Option (Piece A FA)),
    (Piece.all C p items).filterMap Piece.run = floatRuns (p.bind Piece.run) items
  | [], none => rfl
  | [], some p => by cases p <;> rfl
  | item :: items, p => by
    rw [Piece.all, filterMap_append, filterMap_run_all items, Option.bind_some]
    have hrun := fun h : item.type ≠ .float => run_advance (C := C) h p
    cases item with
    | float ctype smp => obtain _ | run | ⟨a, returned⟩ | ⟨a, returned⟩ := p <;> rfl
    | histogram _ _ | floatHistogram _ _ =>
      obtain ⟨h1, h2⟩ := hrun nofun
      rw [h1, h2]
      rfl

end TopcDB.Tsdb.PopulateIterable
