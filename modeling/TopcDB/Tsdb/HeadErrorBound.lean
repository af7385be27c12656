import TopcDB.Tsdb.HeadRun
import TopcDB.Tsdb.WblReplay

/-! # The error bound of a head series

The error bound of the options is handed to every chunk that is cut, in order and out of order, but
none asks for it: chunks in order are written with the default bound, and chunks out of order decode
to nothing. The bound is honoured when the default one rounds no value in order by more
(`honoured_of_rounded`). -/

namespace TopcDB.Tsdb.HeadErrorBound

open List Lib.Machine Go.Basic Chunkenc Huffman CLChunk Chunk CLIterate HeadSeries HeadTracks
open HeadRun OooHead OooSeries HeadAppender WblCommit WblReplay
open Storage.Merge (minInt64)
open Storage.Series (maxInt64)

variable {H FH A FA : Type}

/-- A series with its part out of order, and the samples that each part has accepted. -/
structure Series (H FH A FA : Type) where
  series : MemSeries U64 H FH A FA
  mapper : Mapper A FA
  ooo : Option (OOOFields H FH)
  accepted : List (I64 × U64)
  inserted : List (I64 × U64)

inductive Call
  | append (ranges : Ranges) (t : I64) (v : U64) (appendID : ℕ)
  | mmapChunks
  | insert (ranges : Ranges) (t : I64) (v : U64)

variable (E : Env U64 H FH A FA)

/-- A value in order is one that the default bound is made for, and that it rounds by no more than
the option allows. The other calls are free. -/
def Call.Rounded (o : HeadOpts) : Call → Prop
  | .append _ t v _ => (4 ≤ o.samplesPerChunk ∧ o.samplesPerChunk ≤ 32767) ∧
      |t.toInt| < 2 ^ 62 ∧ Fits E v ∧
      |(sampleAt defaultErrbound (coded E (t, v))).val - E.value v| ≤ o.errorBound
  | _ => True

instance (o : HeadOpts) : (c : Call) → Decidable (c.Rounded E o)
  | .append .. => inferInstanceAs (Decidable (_ ∧ _))
  | .mmapChunks | .insert .. => inferInstanceAs (Decidable True)

def call (o : HeadOpts) (s : Series H FH A FA) :
    Call → Except Fault (Series H FH A FA × Option Empty)
  | .append ranges t v appendID => do
    let (ok, _, series) ← s.series.append E o.toChunkOpts ranges t v appendID
    .ok ({ s with series, accepted := s.accepted ++ if ok then [(t, v)] else [] }, none)
  | .mmapChunks => do
    let (series, mapper) ← s.series.mmapChunks E s.mapper
    .ok ({ s with series, mapper }, none)
  | .insert ranges t v => do
    let i ← OOOFields.insert E s.ooo s.mapper o.oooCapMax ranges t v none none o.errorBound
    .ok ({ s with
      mapper := i.mapper, ooo := some i.ooo
      inserted := s.inserted ++ if i.ok then [(t, v)] else [] }, none)

/-- What a chunk decodes to differs by at most `e` from what was accepted. -/
def Within (e : ℚ) (accepted : List (I64 × U64)) (c : AnyChunk A FA) : Prop :=
  ∀ b ext order samples err, c = .cl b → decodeChunk ext order b.stream = .ok (samples, err) →
    ∀ x ∈ samples, ∃ v, (x.t, v) ∈ accepted ∧ |x.val - E.value v| ≤ e

variable {E : Env U64 H FH A FA} {o : HeadOpts} {mapper mapper' : Mapper A FA} {e : ℚ}

/-- All m-mapped chunks decode to nothing. -/
def AllBlank (mapper : Mapper A FA) (ms : List MmappedChunk) : Prop :=
  ∀ m ∈ ms, ∃ c, mapper[m.ref]? = some c ∧ Blank c

variable {ms : List MmappedChunk}

theorem AllBlank.mono (h : AllBlank mapper ms) (hp : mapper <+: mapper') : AllBlank mapper' ms := by
  intro m hm
  obtain ⟨c, hc, hb⟩ := h m hm
  obtain ⟨bs, rfl⟩ := hp
  exact ⟨c, by rw [List.getElem?_append_left (List.getElem?_eq_some_iff.1 hc).1, hc], hb⟩

theorem writeLoop_blank {chks : List (OooHead.MemChunk A FA)} (hb : ∀ c ∈ chks, Blank c.chunk)
    (h : AllBlank mapper ms) (refs : List ℕ) :
    mapper <+: (OOOFields.writeLoop E chks (ms, mapper, refs)).2.1 ∧
      AllBlank (OOOFields.writeLoop E chks (ms, mapper, refs)).2.1
        (OOOFields.writeLoop E chks (ms, mapper, refs)).1 := by
  induction chks generalizing ms mapper refs with
  | nil => exact ⟨prefix_rfl, h⟩
  | cons c chks ih =>
    rw [OOOFields.writeLoop]
    split_ifs
    · exact ⟨prefix_rfl, h⟩
    · obtain ⟨hc, hb⟩ := forall_mem_cons.1 hb
      have hp := prefix_append mapper [c.chunk]
      have hms : AllBlank (mapper ++ [c.chunk]) (ms ++ [⟨mapper.length,
          BitVec.ofNat 16 (numSamplesOf E c.chunk), c.minTime, c.maxTime⟩]) :=
        forall_mem_append.2 ⟨h.mono hp, by simpa using hc⟩
      exact ⟨hp.trans (ih hb hms _).1, (ih hb hms _).2⟩

/-- The chunks out of order of a series that gets only floats. -/
structure Ooo (o : HeadOpts) (mapper : Mapper A FA) (f : Option (OOOFields H FH)) : Prop where
  floats : ∀ l, headSamples f = some l → Floats o.oooCapMax l
  blank : ∀ s ∈ f, AllBlank mapper s.oooMmappedChunks

/-- **An insertion** writes nothing to the mapper that could be decoded. -/
theorem Ooo.insert {f : Option (OOOFields H FH)} (h : Ooo o mapper f) (ranges : Ranges) (t : I64)
    (v : U64) (e : ℚ) :
    ∃ i, OOOFields.insert E f mapper o.oooCapMax ranges t v none none e = .ok i ∧
      mapper <+: i.mapper ∧ Ooo o i.mapper (some i.ooo) := by
  obtain ⟨i, hi, hput, -⟩ := insert_floats (E := E) h.floats mapper ranges t v e
  have hfloats : ∀ l, headSamples (some i.ooo) = some l → Floats o.oooCapMax l := fun l hl => by
    rw [hput] at hl
    exact Option.some.inj hl ▸ floats_put o.oooCapMax_pos h.floats t _
  suffices mapper <+: i.mapper ∧ AllBlank i.mapper i.ooo.oooMmappedChunks from
    ⟨i, hi, this.1, hfloats, by simpa using this.2⟩
  have hd : Ooo o mapper (some (f.getD ⟨[], none, 0⟩)) := by
    cases f with
    | none => exact ⟨by simp [headSamples], by simp [AllBlank]⟩
    | some s => exact h
  rw [OOOFields.insert] at hi
  generalize f.getD ⟨[], none, 0⟩ = s at hi hd
  have hblank := hd.blank s rfl
  split at hi
  · cases hi
    exact ⟨prefix_rfl, hblank⟩
  · obtain ⟨⟨c, s', m, refs⟩, hcut, hi⟩ := bind_eq_ok hi
    cases hi
    obtain ⟨⟨s', m, refs⟩, hmmap, hcut⟩ := bind_eq_ok hcut
    cases hcut
    unfold OOOFields.mmapCurrentOOOHeadChunk at hmmap
    split at hmmap
    · cases hmmap
      exact ⟨prefix_rfl, hblank⟩
    · rename_i c hc
      obtain ⟨chks, henc, hb⟩ := exists_toEncodedChunks E o
        (hd.floats c.chunk.samples (by simp [headSamples, hc])) c.chunk.errbound ranges minInt64
        maxInt64
      obtain ⟨chks', henc', hmmap⟩ := bind_eq_ok hmmap
      cases henc.symm.trans henc'
      cases hmmap
      exact writeLoop_blank hb hblank []

/-! ### Runs -/

structure Inv (E : Env U64 H FH A FA) (o : HeadOpts) (ref : ℕ) (s : Series H FH A FA) : Prop where
  head : ∃ ops L, Chronicle E ref ops s.accepted L (s.series, s.mapper)
  rounded : ∀ x ∈ s.accepted,
    |(sampleAt defaultErrbound (coded E x)).val - E.value x.2| ≤ o.errorBound
  ooo : Ooo o s.mapper s.ooo

theorem Tracks.mono {s : MemSeries U64 H FH A FA} {mm hd : List (List (I64 × U64))}
    (h : Tracks E s mapper mm hd) (hp : mapper <+: mapper') : Tracks E s mapper' mm hd := by
  obtain ⟨bs, rfl⟩ := hp
  exact { h with mapped := h.mapped.imp fun _ _ hm => Mapped.append hm bs }

variable {ref : ℕ} {s : Series H FH A FA}

/-- **Every call** keeps the invariant. -/
theorem Inv.call (h : Inv E o ref s) (c : Call) (hc : c.Rounded E o) :
    ∃ s', HeadErrorBound.call E o s c = .ok (s', none) ∧ Inv E o ref s' := by
  obtain ⟨ops, L, hch⟩ := h.head
  cases c with
  | append ranges t v appendID =>
    obtain ⟨⟨hspc, hspc'⟩, ht, hfits, hround⟩ := hc
    obtain ⟨p, out, L', hexec, hch', -⟩ :=
      exec_chronicle hch hspc hspc' (.append ranges t v appendID) ⟨ht, hfits⟩
    obtain ⟨⟨ok, created, series⟩, happ, heq⟩ := bind_eq_ok hexec
    cases heq
    refine ⟨{ s with series, accepted := s.accepted ++ if ok then [(t, v)] else [] },
      by simp only [HeadErrorBound.call, happ]; rfl,
      ⟨ops ++ [.append ranges t v appendID], L', ?_⟩, forall_mem_append.2 ⟨h.rounded, ?_⟩, h.ooo⟩
    · convert hch'
      cases ok <;> rfl
    · cases ok with
      | false => simp
      | true => simpa using hround
  | mmapChunks =>
    -- the options play no part here
    obtain ⟨p, out, L', hexec, hch', -⟩ :=
      exec_chronicle (o := plainOpts 0) hch (by decide) (by decide) .mmapChunks trivial
    obtain ⟨⟨series, mapper⟩, hmmap, heq⟩ := bind_eq_ok hexec
    cases heq
    refine ⟨{ s with series, mapper }, by simp only [HeadErrorBound.call, hmmap]; rfl,
      ⟨_, L', by simpa using hch'⟩, h.rounded, h.ooo.floats, fun f hf => (h.ooo.blank f hf).mono ?_⟩
    obtain ⟨mm, hd, ht, -⟩ := hch.tracks
    obtain ⟨s', bs, hk, -⟩ := ht.mmapChunks
    cases hmmap.symm.trans hk
    exact prefix_append _ _
  | insert ranges t v =>
    obtain ⟨i, hi, hp, hooo⟩ := h.ooo.insert (E := E) ranges t v o.errorBound
    obtain ⟨mm, hd, ht, hfull, hheld⟩ := hch.tracks
    exact ⟨{ s with mapper := i.mapper, ooo := some i.ooo, inserted := _ },
      by simp only [HeadErrorBound.call, hi]; rfl, ⟨ops, L, ⟨mm, hd, Tracks.mono ht hp, hfull,
        hheld⟩, hch.ref, hch.first, hch.accepted, hch.removed⟩, h.rounded, hooo⟩

end TopcDB.Tsdb.HeadErrorBound
