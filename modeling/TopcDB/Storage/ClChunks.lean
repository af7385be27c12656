import TopcDB.Storage.EncoderChunks

/-! # Chunks of floats

CL chunks as the chunks of a `CompactChunkIterator`, with their own iterators and encoder. The
encoder copies quantisers, and is a correct round trip as long as they are not too large for the
codec and the segments not too long for the counter of a chunk (`roundTrips_clChunks`). -/

namespace TopcDB.Storage.ClChunks

open List Lib.Bits Lib.Assoc Lib.Segments Go.Basic Chunkenc Huffman CLMeta CLChunk CLIterate Chunk
open ErrorBound Merge MergeOrder Series Compaction AnySeries CompactChunk EncoderChunks

variable {H FH A FA : Type}

def chunkBytes (m : Meta A FA) : List Byte :=
  match m.chunk with
  | .cl b => b.stream
  | _ => []

/-- `Chunk.Iterator` of a CL chunk. -/
def clIteratorOf (ext : Extern) (order : RangeOrder (U64 × I64)) (m : Meta A FA) :
    Except Fault CLIterator := do
  match ← reset ext order (chunkBytes m) with
  | some it => return it
  | none => .error .panic

def clChunks (H FH : Type) (C : Codecs H FH A FA) (ranges : ℕ → Ranges)
    (order : RangeOrder (U64 × I64)) (fuel : ℕ) : Chunks (Meta A FA) CLIterator H FH :=
  encoderChunks C ranges fuel (clIterator H FH) chunkBytes (clIteratorOf C.ext order)

/-- The iterator at each sample to come. -/
def positions : ℕ → CLIterator → List CLIterator
  | 0, _ => []
  | k + 1, it =>
    match it.next with
    | .ok (true, it) => it :: positions k it
    | _ => []

def clHeld (ext : Extern) (order : RangeOrder (U64 × I64)) (m : Meta A FA) :
    List (ValueType × CLIterator) :=
  match clIteratorOf ext order m with
  | .ok it => (positions (it.numTotal + 1) it).map (Prod.mk .float)
  | .error _ => []

theorem positions_of_runs (H FH : Type) : ∀ {k : ℕ} {its : List CLIterator} {it : CLIterator},
    Runs (clIterator H FH) it (its.map (Prod.mk .float)) → its.length < k → positions k it = its
  | 0, _, _, _, hk => by omega
  | k + 1, [], it, ⟨_, it', hn, _⟩, _ => by
    obtain ⟨⟨b, it1⟩, hn', heq⟩ := map_eq_ok hn
    cases b with
    | true => cases heq
    | false => simp only [positions, hn']
  | k + 1, x :: its, it, ⟨_, _, hn, _, hruns⟩, hk => by
    obtain ⟨⟨b, it1⟩, hn', heq⟩ := map_eq_ok hn
    cases b with
    | false => cases heq
    | true =>
      obtain rfl : it1 = x := (Prod.mk.inj heq).2
      simp only [positions, hn', positions_of_runs H FH hruns (Nat.lt_of_succ_lt_succ hk)]

theorem runs_clHeld (H FH : Type) {ext : Extern} {order : RangeOrder (U64 × I64)} {m : Meta A FA}
    {samples : List Sample} {hdr : Header} (hm : readCLMeta (chunkBytes m) = .ok hdr)
    (hdec : decodeChunk ext order (chunkBytes m) = .ok (samples, none)) :
    (∃ it, clIteratorOf ext order m = .ok it ∧ Runs (clIterator H FH) it (clHeld ext order m)) ∧
      (clHeld ext order m).map (fun x => Compaction.sampleAt x.2) = samples ∧
      ∀ x ∈ clHeld ext order m, x.1 = .float ∧ hdr.ctype = some x.2.decoder.ctype := by
  obtain ⟨it, its, hr, hruns, hmap, hlen, hall⟩ := decodeChunk_runs H FH hm hdec
  have hit : clIteratorOf ext order m = .ok it := by
    simp only [clIteratorOf, hr, ok_bind, pure, Except.pure]
  have hheld : clHeld ext order m = its.map (Prod.mk .float) := by
    simp only [clHeld, hit, positions_of_runs H FH hruns hlen]
  rw [hheld, map_map]
  refine ⟨⟨it, hit, hruns⟩, hmap, fun x hx => ?_⟩
  obtain ⟨y, hy, rfl⟩ := mem_map.1 hx
  exact ⟨rfl, (hall y hy).2⟩

/-! ### The encoder -/

theorem minTimeOf_cons {t : I64} : ∀ {ts : List I64},
    (t :: ts).Pairwise (fun t u => t.toInt < u.toInt) →
    minTimeOf (t :: ts) = t := by
  have hkeep : ∀ (ts : List I64), t ≠ maxInt64 →
      ts.foldl (fun mint t => if mint = maxInt64 then t else mint) t = t := fun ts ht => by
    induction ts with
    | nil => rfl
    | cons u ts ih => rw [foldl_cons, if_neg ht, ih]
  intro ts hasc
  rw [minTimeOf, foldl_cons, if_pos rfl]
  by_cases ht : t = maxInt64
  · -- nothing is later
    cases ts with
    | nil => rfl
    | cons u ts =>
      have hlt := rel_of_pairwise_cons hasc mem_cons_self
      have hle : u.toInt < 2 ^ 63 := BitVec.toInt_lt
      rw [ht, toInt_maxInt64] at hlt
      omega
  · exact hkeep ts ht

/-- A sample as the encoder sees it. -/
def clView (x : ValueType × CLIterator) : ValueType × Bool × I64 × I64 :=
  (x.1, quantizes x.2.decoder.ctype, tq x.2)

/-- A float whose quantiser is copied, and not too large. -/
def Copied (x : ValueType × CLIterator) : Prop :=
  x.1 = .float ∧ quantizes x.2.decoder.ctype ∧ InRange x.2.quantizer

theorem handedAt_of_copied {x : ValueType × CLIterator} (h : Copied x) :
    handedAt (clIterator H FH) x = tq x.2 := by
  simp [handedAt, quantizerAt, clIterator, Option.filter, h.2.1, tq]

variable {C : Codecs H FH A FA} {ranges : ℕ → Ranges} {order : RangeOrder (U64 × I64)} {fuel : ℕ}

/-- The chunk `m` has the samples `seg` and their bounds. -/
def Holds (C : Codecs H FH A FA) (ranges : ℕ → Ranges) (order : RangeOrder (U64 × I64)) (fuel : ℕ)
    (m : Meta A FA) (seg : List (I64 × I64)) : Prop :=
  Overlap.Tight (clChunks H FH C ranges order fuel) (clHeld C.ext order) m ∧
    (clHeld C.ext order m).map clView = seg.map fun p => (.float, true, p)

theorem holds_of_compact {seg : List (I64 × I64)} (hne : seg ≠ []) (hl : seg.length < 2 ^ 16)
    (hasc : seg.Pairwise fun p p' => p.1.toInt < p'.1.toInt)
    (hr : ∀ q ∈ seg.map Prod.snd, InRange q) {a : CLAppender} (rs : Ranges) (ha : FloatApp a seg) :
    ∃ a', a.compact C.ext rs = .ok (a', none) ∧ Holds C ranges order fuel
      ⟨minTimeOf (seg.map Prod.fst), maxTimeOf (seg.map Prod.fst), .cl a'.b⟩ seg := by
  obtain ⟨a1, h1, -, -, payload, hchunk⟩ := ha.compact hne hl (dense_deltaCodes hr) C.ext rs
  obtain ⟨a2, h2, hdec⟩ := roundTrips_of_inRange C.ext order hne hl hr a rs ha
  cases h2.symm.trans h1
  refine ⟨a1, h1, ?_⟩
  set m : Meta A FA := ⟨minTimeOf (seg.map Prod.fst), maxTimeOf (seg.map Prod.fst), .cl a1.b⟩
  obtain ⟨hruns, hmap, hall⟩ := runs_clHeld H FH (m := m) hchunk.readCLMeta hdec
  have hview : (clHeld C.ext order m).map clView = seg.map fun p => (.float, true, p) := by
    have htq : (clHeld C.ext order m).map (fun x => tq x.2) = seg := by
      calc (clHeld C.ext order m).map (fun x => tq x.2)
          = ((clHeld C.ext order m).map fun x => Compaction.sampleAt x.2).map
              fun s => (s.t, s.quantizer) := by rw [map_map]; rfl
        _ = seg := by rw [hmap, map_map]; exact map_id seg
    have hmk : ∀ x ∈ clHeld C.ext order m, clView x = (.float, true, tq x.2) := fun x hx => by
      obtain ⟨hf, hc⟩ := hall x hx
      rw [clView, hf, ← Option.some.inj hc]
      rfl
    rw [map_congr_left hmk]
    conv_rhs => rw [← htq, map_map]
    rfl
  have htimes : (clHeld C.ext order m).map (fun x => time (clIterator H FH) x.2) =
      seg.map fun p => p.1.toInt := by
    calc (clHeld C.ext order m).map (fun x => time (clIterator H FH) x.2)
        = ((clHeld C.ext order m).map clView).map fun v => v.2.2.1.toInt := by rw [map_map]; rfl
      _ = seg.map fun p => p.1.toInt := by rw [hview, map_map]; rfl
  refine ⟨⟨hruns, ?_, ?_⟩, hview⟩
  · have hfirst : ((clHeld C.ext order m).map fun x => time (clIterator H FH) x.2).head? =
        some (minTimeOf (seg.map Prod.fst)).toInt := by
      rw [htimes]
      obtain ⟨p, seg, rfl⟩ := exists_cons_of_ne_nil hne
      have hasc' : (p.1 :: seg.map Prod.fst).Pairwise fun t u => t.toInt < u.toInt :=
        (pairwise_map (l := p :: seg)).2 hasc
      rw [map_cons, map_cons, minTimeOf_cons hasc']
      rfl
    rw [← head?_map]
    exact hfirst
  · have hlast : ((clHeld C.ext order m).map fun x => time (clIterator H FH) x.2).getLast? =
        some (maxTimeOf (seg.map Prod.fst)).toInt := by
      rw [htimes, maxTimeOf, getLast?_map, getLastD_eq_getLast?, getLast?_map,
        getLast?_eq_some_getLast hne]
      rfl
    rw [← getLast?_map]
    exact hlast

/-- **The encoder of CL chunks is a correct round trip** for copied quantisers. -/
theorem roundTrips_clChunks {split : ℤ} (hsplit : segmentSize split < 2 ^ 16) :
    Overlap.RoundTrips (clChunks H FH C ranges order fuel) (clHeld C.ext order) clView Copied fuel
      split := by
  intro its vs c ss hv herr hss hasc hP
  obtain ⟨r, hr, hw⟩ := encode_writes C ranges split hv herr hss fun x hx =>
    ⟨(hP x hx).1, ⟨x.2.val, rfl⟩, fun it h => by rw [← Option.some.inj h]; rfl⟩
  have hhanded : ss.map (handedAt (clIterator H FH)) = ss.map fun x => tq x.2 :=
    map_congr_left fun x hx => handedAt_of_copied (hP x hx)
  have hsegs : ∀ seg ∈ cut (segmentSize split) (ss.map fun x => tq x.2), seg ≠ [] ∧
      seg.length < 2 ^ 16 ∧ seg.Pairwise (fun p p' => p.1.toInt < p'.1.toInt) ∧
      ∀ q ∈ seg.map Prod.snd, InRange q := fun seg hseg => by
    have hsub : seg.Sublist (ss.map fun x => tq x.2) := by
      rw [← flatten_cut (segmentSize split) (ss.map fun x => tq x.2)]
      exact sublist_flatten_of_mem hseg
    refine ⟨ne_nil_of_mem_cut seg hseg, ?_, ?_, fun q hq => ?_⟩
    · exact (forall_length_cut_iff (segmentSize_pos split) (by norm_num) _).2
        (Or.inl hsplit) seg hseg
    · refine Pairwise.sublist hsub (pairwise_map.2 ?_)
      exact hasc
    · obtain ⟨p, hp, rfl⟩ := mem_map.1 hq
      obtain ⟨x, hx, rfl⟩ := mem_map.1 (hsub.subset hp)
      exact (hP x hx).2.2
  rw [show (clChunks H FH C ranges order fuel).I = clIterator H FH from rfl, hhanded] at hw
  obtain ⟨new, rfl, hall⟩ := hw.exists_chunks (Q := Holds C ranges order fuel)
    fun seg hseg a rs ha => by
      obtain ⟨hne, hl, hasc, hr⟩ := hsegs seg hseg
      exact holds_of_compact hne hl hasc hr rs ha
  refine ⟨new, hr, fun m hm => ?_, ?_⟩
  · obtain ⟨seg, -, h⟩ := exists_left_of_forall₂ hall.flip hm
    exact h.1
  · have hmap : new.map (fun m => (clHeld C.ext order m).map clView) =
        (cut (segmentSize split) (ss.map fun x => tq x.2)).map
          (map fun p => (ValueType.float, true, p)) := by
      rw [← forall₂_eq_eq_eq, forall₂_map_left_iff, forall₂_map_right_iff]
      exact hall.imp fun _ _ h => h.2
    calc (new.flatMap (clHeld C.ext order)).map clView
        = (new.map fun m => (clHeld C.ext order m).map clView).flatten := by
          rw [map_flatMap, flatMap]
      _ = (ss.map fun x => tq x.2).map fun p => (ValueType.float, true, p) := by
          rw [hmap, ← map_flatten, flatten_cut]
      _ = ss.map clView := by
          rw [map_map]
          refine map_congr_left fun x hx => ?_
          obtain ⟨hf, hq, -⟩ := hP x hx
          rw [clView, hf, hq]
          rfl

/-- A chunk with two samples. -/
def pairMeta : Meta Unit Unit := ⟨1000, 2000, .cl ⟨pairChunk, 0⟩⟩

theorem roundTrips_clChunks_pair :
    let S := clChunks Unit Unit (default : Codecs Unit Unit Unit Unit) default default 9
    ∃ new, mergeEncode S 1000 [pairMeta] = .ok (.ok new) ∧
      Overlap.MergedTo S (clHeld default default) clView [pairMeta] new := by
  intro S
  have hm : readCLMeta (chunkBytes pairMeta) = .ok ⟨2, 16, 1 / 100, some .huffman⟩ := by
    decide +kernel
  have hdec : decodeChunk default default (chunkBytes pairMeta) = .ok (pairSamples, none) := by
    decide +kernel
  obtain ⟨hruns, hmap, hall⟩ := runs_clHeld Unit Unit hm hdec
  have hmem : ∀ x ∈ clHeld default default pairMeta, Compaction.sampleAt x.2 ∈ pairSamples := by
    intro x hx
    rw [← hmap]
    exact mem_map_of_mem hx
  have htimes : (clHeld default default pairMeta).map (fun x => time (clIterator Unit Unit) x.2) =
      [1000, 2000] := by
    rw [← show pairSamples.map (fun x => x.t.toInt) = [1000, 2000] by decide, ← hmap, map_map]
    rfl
  have hasc : Ascends (clIterator Unit Unit) (clHeld default default pairMeta) := by
    have hlt : [(1000 : ℤ), 2000].Pairwise (· < ·) := by decide
    rw [← htimes] at hlt
    exact pairwise_map.1 hlt
  have hcovers : Overlap.Covers S (clHeld default default) pairMeta :=
    ⟨by decide, hruns, hasc, fun x hx =>
      (show ∀ x ∈ pairSamples, 1000 ≤ x.t.toInt ∧ x.t.toInt ≤ 2000 by decide) _ (hmem x hx)⟩
  have hcopied : ∀ x ∈ clHeld default default pairMeta, Copied x := by
    intro x hx
    obtain ⟨hf, hc⟩ := hall x hx
    have hin : InRange (Compaction.sampleAt x.2).quantizer :=
      (show ∀ x ∈ pairSamples, InRange x.quantizer by
        simp [pairSamples, InRange]) _ (hmem x hx)
    exact ⟨hf, by rw [← Option.some.inj hc]; rfl, hin⟩
  have hround : Overlap.RoundTrips S (clHeld default default) clView Copied 9 1000 :=
    roundTrips_clChunks (C := default) (by decide)
  have hlen := congrArg length hmap
  rw [length_map] at hlen
  have hview : ∀ x y : ValueType × CLIterator, clView x = clView y →
      time S.I x.2 = time S.I y.2 := fun x y h => congrArg (fun v => v.2.2.1.toInt) h
  have hfuel : 2 * Overlap.count (clHeld default default) [pairMeta] < 9 := by
    simp [Overlap.count, hlen, pairSamples]
  exact Overlap.mergeEncode_spec (by simp) (by simpa using hcovers) hfuel hround
    (by simpa using hcopied) hview

end TopcDB.Storage.ClChunks
