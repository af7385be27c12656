import TopcDB.Chunkenc.Unencodable
import TopcDB.Storage.AnySeries

/-! # Chunks from sample lists (`ChunkFromSamplesGeneric`)

The samples are appended to a chunk for the type of the first one, which is returned as it is.
Nobody calls `Compact`: a CL chunk has counted the samples, but its header is empty and its iterator
panics (`not_readable`). -/

namespace TopcDB.Storage.FromSamples

open List Lib.Assoc Go.Basic Chunkenc CLChunk Chunk CLAppend Unencodable Series AnySeries

variable {H FH A FA : Type} (C : Codecs H FH A FA)

/-- `F`, which is zero for a histogram. -/
def f : AnySample H FH → ℚ
  | .float _ f => f
  | _ => 0

def secondChunk : String := "did not expect to start a second chunk"

/-- The loop, in which the type of the first sample decides. `H` and `FH` of another sample are nil,
which no appender takes. -/
def appendAll : App A FA → List (AnySample H FH) → Except Fault (Except String (App A FA))
  | app, [] => .ok (.ok app)
  | .cl a, s :: l => do appendAll (.cl (← a.append s.t (f s))) l
  | .histogram a, .histogram t h :: l =>
    match C.hist.append none a t h with
    | (a, none) => appendAll (.histogram a) l
    | (_, some _) => .ok (.error secondChunk)
  | .floatHistogram a, .floatHistogram t fh :: l =>
    match C.fhist.append none a t fh with
    | (a, none) => appendAll (.floatHistogram a) l
    | (_, some _) => .ok (.error secondChunk)
  | _, _ :: _ => .error .panic

/-- `ChunkFromSamplesGeneric`: the meta and the error. No sample has the type `ValNone`. -/
def chunkFromSamplesGeneric (s : List (AnySample H FH)) :
    Except Fault (Meta A FA × Option String) :=
  match s with
  | [] => .ok (⟨0, 0, .cl newCLChunk⟩, none)
  | first :: _ =>
    match newApp C default first.type with
    | none => .error .panic
    | some app => (appendAll C app s).map fun
      | .ok app => (⟨first.t, (s.getLastD first).t, app.chunk⟩, none)
      | .error err => (⟨0, 0, .cl newCLChunk⟩, some err)

def floats (H FH : Type) (l : List (I64 × ℚ)) : List (AnySample H FH) :=
  l.map fun p => .float p.1 p.2

/-- The meta has the times of the first and the last sample, and an iterator yields the samples,
with their values rounded. -/
def Readable (order : RangeOrder (U64 × I64)) (l : List (I64 × ℚ)) : Prop :=
  ∃ chk b samples, chunkFromSamplesGeneric C (floats H FH l) = .ok (chk, none) ∧
    l.head?.map Prod.fst = some chk.minTime ∧ l.getLast?.map Prod.fst = some chk.maxTime ∧
    chk.chunk = .cl b ∧ decodeChunk C.ext order b.stream = .ok (samples, none) ∧
    samples.map (fun s => (s.t, s.val)) =
      l.map fun p => (p.1, 2 * defaultErrbound * (quantize defaultErrbound p.2).toInt)

/-- Nothing but the counter was written to the chunk. -/
def Headless (a : CLAppender) : Prop :=
  a.b.stream.length = 12 ∧ a.b.stream.drop 2 = List.replicate 10 0#8

theorem Headless.append {a : CLAppender} (h : Headless a) (t : I64) (v : ℚ) :
    ∃ a', a.append t v = .ok a' ∧ Headless a' := by
  obtain ⟨hlen, hzeros⟩ := h
  rw [CLAppender.append, CLAppender.stamp, if_neg (by omega)]
  refine ⟨_, rfl, ?_⟩
  dsimp only
  split <;>
    simp [Headless, frame_pushDelta, hzeros, drop_left' (Lib.Bits.length_beBytes _ _)]

theorem appendAll_floats (l : List (I64 × ℚ)) {a : CLAppender} (h : Headless a) :
    ∃ a', appendAll C (.cl a) (floats H FH l) = .ok (.ok (.cl a')) ∧ Headless a' := by
  induction l generalizing a with
  | nil => exact ⟨a, by rw [floats, map_nil, appendAll], h⟩
  | cons p l ih =>
    obtain ⟨a1, h1, hh⟩ := h.append p.1 p.2
    obtain ⟨a2, h2, hh'⟩ := ih hh
    refine ⟨a2, ?_, hh'⟩
    rw [floats, map_cons, appendAll, AnySample.t, f, h1]
    exact h2

variable (order : RangeOrder (U64 × I64)) {l : List (I64 × ℚ)}

theorem exists_headless (hne : l ≠ []) :
    ∃ chk b, chunkFromSamplesGeneric C (floats H FH l) = .ok (chk, none) ∧
      l.head?.map Prod.fst = some chk.minTime ∧ l.getLast?.map Prod.fst = some chk.maxTime ∧
      chk.chunk = .cl b ∧ decodeChunk C.ext order b.stream = .error .panic := by
  obtain ⟨p, l, rfl⟩ := exists_cons_of_ne_nil hne
  obtain ⟨a, hrun, hh⟩ := appendAll_floats C (p :: l) (a := appenderOf default newCLChunk)
    ⟨by decide, by decide⟩
  have hlast : ((floats H FH (p :: l)).getLastD (.float p.1 p.2)).t =
      ((p :: l).getLast hne).1 := by
    rw [getLastD_eq_getLast?, floats, getLast?_map, getLast?_eq_some_getLast hne]
    rfl
  refine ⟨⟨p.1, ((p :: l).getLast hne).1, .cl a.b⟩, a.b, ?_, rfl, ?_, rfl,
    decodeChunk_headless hh.1 hh.2⟩
  · rw [← hlast]
    exact congrArg (Except.map _) hrun
  · rw [getLast?_eq_some_getLast hne]
    rfl

theorem not_readable_of_panic {chk : Meta A FA} {b : Chunkenc.Bstream.BStream}
    (hchk : chunkFromSamplesGeneric C (floats H FH l) = .ok (chk, none)) (hb : chk.chunk = .cl b)
    (hdec : decodeChunk C.ext order b.stream = .error .panic) : ¬ Readable C order l := by
  rintro ⟨chk', b', samples, hchk', -, -, hb', hdec', -⟩
  cases hchk.symm.trans hchk'
  obtain rfl := AnyChunk.cl.inj (hb.symm.trans hb')
  rw [hdec] at hdec'
  cases hdec'

/-- **A chunk from floats cannot be read**: the times of its meta are those of the first and the
last sample, but its iterator panics. -/
theorem not_readable (hne : l ≠ []) :
    (∃ chk b, chunkFromSamplesGeneric C (floats H FH l) = .ok (chk, none) ∧
      l.head?.map Prod.fst = some chk.minTime ∧ l.getLast?.map Prod.fst = some chk.maxTime ∧
      chk.chunk = .cl b ∧ decodeChunk C.ext order b.stream = .error .panic) ∧
    ¬ Readable C order l := by
  refine ⟨exists_headless C order hne, ?_⟩
  obtain ⟨chk, b, hchk, -, -, hb, hdec⟩ := exists_headless C order hne
  exact not_readable_of_panic C order hchk hb hdec

theorem not_readable_two :
    ¬ Readable (default : Codecs Unit Unit Unit Unit) default [(1000, 1), (2000, 1 / 2)] :=
  (not_readable default default (cons_ne_nil _ _)).2

/-- One sample, whose value is quantised to 50. -/
theorem not_readable_oneSample : quantize defaultErrbound 1 = 50 ∧
    ¬ Readable (default : Codecs Unit Unit Unit Unit) default [(1000, 1)] := by
  refine ⟨by decide +kernel, ?_⟩
  obtain ⟨chk, b, hchk, -, -, hb, hdec⟩ :=
    exists_headless (default : Codecs Unit Unit Unit Unit) default (cons_ne_nil (1000, 1) [])
  exact not_readable_of_panic _ _ hchk hb hdec

end TopcDB.Storage.FromSamples
