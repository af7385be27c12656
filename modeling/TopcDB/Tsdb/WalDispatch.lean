import TopcDB.Tsdb.Tombstones

/-! # The replay of the log: records and their dispatch (`loadWAL`)

The records are read in their order. A label set that is logged again, under another reference,
belongs to the series that it had before, and the reference is kept in `multiRef`. Samples are sent
to the worker of their series, in batches; tombstones and metadata are dealt with at once.

The log is the list of its decoded records; it ends before a record that cannot be decoded.
Exemplars go to a goroutine of their own, and the callbacks for series are those that do nothing. -/

namespace TopcDB.Tsdb.WalDispatch

open Lib.Segments Go.Basic Deleted Tombstones

variable {L F H FH M : Type}

/-! ### Data -/

structure Stone where
  ref : ℕ
  intervals : List Interval

/-- The records of the log. A sample is a reference, a timestamp and a value. -/
inductive Record (L F H FH M : Type)
  | series (series : List (ℕ × L))
  | samples (samples : List (ℕ × I64 × F))
  | tombstones (stones : List Stone)
  | exemplars
  | histogramSamples (samples : List (ℕ × I64 × H))
  | floatHistogramSamples (samples : List (ℕ × I64 × FH))
  | metadata (metadata : List (ℕ × M))

/-- `walSubsetProcessorInputItem`: a series, by its position, with the reference of its record, or
samples. -/
inductive Item (F H FH : Type)
  | series (i walSeriesRef : ℕ)
  | samples (samples : List (ℕ × I64 × F))
  | histogramSamples (samples : List (ℕ × I64 × (H ⊕ FH)))

/-- The series of the head in the order of their creation, and the maps to their positions. -/
structure Registry (L : Type) where
  objects : List (ℕ × L)
  byID : ℕ → Option ℕ
  byLabels : L → Option ℕ
  multiRef : ℕ → Option ℕ
  lastSeriesID : ℕ

/-- What the dispatcher changes: the registry, the metadata by positions, and the tombstones by
references. -/
structure Head (L M : Type) where
  registry : Registry L
  metadata : ℕ → Option M
  tombstones : ℕ → List Interval
  unknownRefs : ℕ
  unknownMetadataRefs : ℕ

def Registry.empty : Registry L := ⟨[], fun _ => none, fun _ => none, fun _ => none, 0⟩

def Head.empty : Head L M := ⟨.empty, fun _ => none, fun _ => [], 0, 0⟩

/-! ### Series -/

namespace Registry

def refOf (r : Registry L) (i : ℕ) : ℕ := (r.objects[i]?.map Prod.fst).getD 0

/-- A reference as samples are sent under it. -/
def resolve (r : Registry L) (ref : ℕ) : ℕ := (r.multiRef ref).getD ref

variable [DecidableEq L]

/-- `getOrCreateWithID`: the position of the series, and whether it was created. -/
def getOrCreateWithID (r : Registry L) (ref : ℕ) (lset : L) : ℕ × Bool × Registry L :=
  match r.byLabels lset with
  | some i => (i, false, r)
  | none =>
    (r.objects.length, true, { r with
      objects := r.objects ++ [(ref, lset)]
      byID := Function.update r.byID ref (some r.objects.length)
      byLabels := Function.update r.byLabels lset (some r.objects.length) })

/-- **A series record**: the position of its series, and the registry afterwards. -/
def addSeries (r : Registry L) (ref : ℕ) (lset : L) : ℕ × Registry L :=
  let (i, created, r) := r.getOrCreateWithID ref lset
  let r := { r with lastSeriesID := max r.lastSeriesID ref }
  (i, if created then r else
    { r with multiRef := Function.update r.multiRef ref (some (r.refOf i)) })

end Registry

/-! ### Samples -/

variable {V : Type} (n : ℕ) (minValidTime : I64) (r : Registry L)

/-- The loop over a batch: every sample is appended to the shard of its series. -/
def shardLoop : List (ℕ × I64 × V) → (ℕ → List (ℕ × I64 × V)) → ℕ → List (ℕ × I64 × V)
  | [], shards => shards
  | (ref, t, v) :: samples, shards =>
    if t.slt minValidTime then shardLoop samples shards
    else
      let k := r.resolve ref % n
      shardLoop samples (Function.update shards k (shards k ++ [(r.resolve ref, t, v)]))

/-- The shards of a batch that are not empty, in the order in which they are sent. -/
def sendBatch (batch : List (ℕ × I64 × V)) : List (ℕ × List (ℕ × I64 × V)) :=
  let shards := shardLoop n minValidTime r batch fun _ => []
  (List.range n).filterMap fun k => if (shards k).isEmpty then none else some (k, shards k)

/-- The samples of a record, in batches of 5000. -/
def sendSamples (samples : List (ℕ × I64 × V)) : List (ℕ × List (ℕ × I64 × V)) :=
  (cut 5000 samples).flatMap (sendBatch n minValidTime r)

/-! ### Tombstones and metadata -/

namespace Head

/-- One interval of a stone. Neither it nor the metadata below is looked up in `multiRef`. -/
def addStone (minValidTime : I64) (h : Head L M) (stone : ℕ × Interval) : Except Fault (Head L M) :=
  let (ref, itv) := stone
  if itv.maxt.slt minValidTime then .ok h
  else
    match h.registry.byID ref with
    | none => .ok { h with unknownRefs := h.unknownRefs + 1 }
    | some _ => (add (h.tombstones ref) itv).map fun ins =>
      { h with tombstones := Function.update h.tombstones ref ins }

def addMetadata (h : Head L M) (entry : ℕ × M) : Head L M :=
  let (ref, m) := entry
  match h.registry.byID ref with
  | none => { h with unknownMetadataRefs := h.unknownMetadataRefs + 1 }
  | some i => { h with metadata := Function.update h.metadata i (some m) }

end Head

/-- The intervals of a record of tombstones, in their order. -/
def intervalsOf (stones : List Stone) : List (ℕ × Interval) :=
  stones.flatMap fun s => s.intervals.map fun itv => (s.ref, itv)

/-! ### Records -/

variable [DecidableEq L] (n : ℕ) (minValidTime : I64)

/-- A series record: what is sent to which worker. -/
def Head.addSeries (p : Head L M × List (ℕ × Item F H FH)) (entry : ℕ × L) :
    Head L M × List (ℕ × Item F H FH) :=
  let (i, r) := p.1.registry.addSeries entry.1 entry.2
  ({ p.1 with registry := r }, p.2 ++ [(r.refOf i % n, .series i entry.1)])

/-- **One record**: the head, and what is sent to which worker. -/
def dispatch (h : Head L M) :
    Record L F H FH M → Except Fault (Head L M × List (ℕ × Item F H FH))
  | .series series => .ok (series.foldl (Head.addSeries n) (h, []))
  | .samples samples =>
    .ok (h, (sendSamples n minValidTime h.registry samples).map fun p => (p.1, .samples p.2))
  | .tombstones stones => ((intervalsOf stones).foldlM (Head.addStone minValidTime) h).map (·, [])
  | .exemplars => .ok (h, [])
  | .histogramSamples samples =>
    let samples := samples.map fun x => (x.1, x.2.1, Sum.inl x.2.2)
    .ok (h, (sendSamples n minValidTime h.registry samples).map fun p =>
      (p.1, .histogramSamples p.2))
  | .floatHistogramSamples samples =>
    let samples := samples.map fun x => (x.1, x.2.1, Sum.inr x.2.2)
    .ok (h, (sendSamples n minValidTime h.registry samples).map fun p =>
      (p.1, .histogramSamples p.2))
  | .metadata entries => .ok (entries.foldl Head.addMetadata h, [])

/-- **The dispatch of a log.** -/
def dispatchAll : Head L M → List (Record L F H FH M) →
    Except Fault (Head L M × List (ℕ × Item F H FH))
  | h, [] => .ok (h, [])
  | h, record :: wal => do
    let (h, sent) ← dispatch n minValidTime h record
    (dispatchAll h wal).map fun p => (p.1, sent ++ p.2)

end TopcDB.Tsdb.WalDispatch
