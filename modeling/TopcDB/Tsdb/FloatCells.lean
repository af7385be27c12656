import TopcDB.Lib.Calls
import TopcDB.Tsdb.HeadSeries

/-! # A head series with chunks of floats only

Whatever the samples and options are, no call on such a series panics: all its appenders are those
of CL chunks, `Sound`, and `Grown` says what the cuts of a call have added. Only an iterator may
panic, on a chunk that `Compact` could not write: its header leads nowhere (`opens`). -/

namespace TopcDB.Tsdb.FloatCells

open List Lib.Assoc Lib.Bits Lib.Calls Lib.Segments Go.Basic Chunkenc CLMeta CLAppend CLChunk Chunk
open Huffman Simple8b Simple8bStream HeadSeries ReadIsolation MemSeries
open Storage.Merge (minInt64 minInt64_le)

variable {F H FH A FA : Type} {E : Env F H FH A FA}

/-! ### One appender -/

/-- The appender of a new head chunk. -/
def newAppender : CLAppender := (appender newCLChunk).setCompressType .qSimple8b

/-- The appender has come about from a new one: the samples `l` were appended, with any number of
compactions among them. -/
inductive Took : CLAppender → List (I64 × ℚ) → Prop
  | new : Took newAppender []
  | append {a a' : CLAppender} {l : List (I64 × ℚ)} {t : I64} {v : ℚ} (h : Took a l)
      (happ : a.append t v = .ok a') : Took a' (l ++ [(t, v)])
  | compact {a : CLAppender} {l : List (I64 × ℚ)} {ext : Extern} {ranges : Ranges}
      {p : CLAppender × Option Err} (h : Took a l) (hcomp : a.compact ext ranges = .ok p) :
      Took p.1 l

/-- The header of a head chunk. One that was never written reads as that of a Simplebits chunk with
its payload at 0. -/
structure Headed (b : List Byte) (m : Header) : Prop where
  read : readCLMeta b = .ok m
  ctype : m.ctype = some .simplebits ∨ m.ctype = some .qSimple8b
  ptr_le : m.ptr.toNat ≤ b.length

/-- The payload begins behind the header. -/
def pointed (b : List Byte) : Bool :=
  match readCLMeta b with
  | .ok m => clHeaderSize ≤ m.ptr.toNat
  | .error _ => false

section

variable {b : List Byte} {m : Header}

/-- **A head chunk is opened** exactly when its payload begins behind the header. -/
theorem Headed.reset (hb : Headed b m) (ext : Extern) (order : RangeOrder (U64 × I64)) :
    (pointed b = true → ∃ it, CLChunk.reset ext order b = .ok it) ∧
      (pointed b = false → CLChunk.reset ext order b = .error .panic) := by
  have hdec : ∃ d, openDecoder ext order m b = .ok (some d) := by
    unfold openDecoder
    rcases hb.ctype with hc | hc <;> simp only [hc, sliceFrom, if_pos hb.ptr_le]
    · exact ⟨_, rfl⟩
    · exact ⟨_, rfl⟩
  obtain ⟨d, hd⟩ := hdec
  unfold CLChunk.reset pointed
  simp only [hb.read, ok_bind, hd, slice, decide_eq_true_eq, decide_eq_false_iff_not]
  constructor
  · intro hptr
    rw [if_pos ⟨hptr, hb.ptr_le⟩]
    exact ⟨_, rfl⟩
  · intro hptr
    rw [if_neg fun hc => hptr hc.1]
    rfl

theorem numSamples_beBytes (num : U16) (rest : List Byte) :
    numSamples (beBytes 2 num.toNat ++ rest) = num.toNat := by
  rw [numSamples, take_left' (length_beBytes 2 _), beNat_beBytes, Nat.mod_eq_of_lt num.isLt]

/-- The counter is not part of what leads to the payload. -/
theorem Headed.stamp (hb : Headed b m) (num : U16) :
    Headed (beBytes 2 num.toNat ++ b.drop 2) { m with num := num } := by
  have hread := hb.read
  unfold readCLMeta at hread
  split_ifs at hread with hlen
  have hlen' : (beBytes 2 num.toNat ++ b.drop 2).length = b.length := by
    rw [length_append, length_beBytes, length_drop]
    omega
  have h2 : (beBytes 2 num.toNat ++ b.drop 2).drop 2 = b.drop 2 := drop_left' (length_beBytes 2 _)
  have h6 : (beBytes 2 num.toNat ++ b.drop 2).drop 6 = b.drop 6 := by
    rw [← drop_drop (i := 4) (j := 2), h2, drop_drop]
  have hnum := numSamples_beBytes num (b.drop 2)
  unfold numSamples at hnum
  cases hread
  refine ⟨?_, hb.ctype, by rw [hlen']; exact hb.ptr_le⟩
  rw [readCLMeta, if_neg (by rw [hlen']; exact hlen), h2, h6, hnum, BitVec.ofNat_toNat,
    BitVec.setWidth_eq]

end

variable {a : CLAppender}

/-- An appender of a CL chunk, with a header that counts its samples. -/
structure Live (a : CLAppender) : Prop where
  ctype : a.ctype = .qSimple8b
  bound : BoundFits a.errbound
  num : numSamples a.b.stream = a.num.toNat
  encoder : ∃ ws p, Encodes a.encoder ws p
  header : ∃ m, Headed a.b.stream m
  took : ∃ l, Took a l

theorem live_new : Live newAppender where
  ctype := rfl
  bound := boundFits_default
  num := by decide
  encoder := ⟨[], [], encodes_new⟩
  header := ⟨⟨0, 0, 0, some .simplebits⟩, by decide +kernel, .inl rfl, by decide⟩
  took := ⟨[], .new⟩

theorem Live.length (h : Live a) : 10 ≤ a.b.stream.length := by
  obtain ⟨m, hm⟩ := h.header
  have hread := hm.read
  unfold readCLMeta at hread
  split_ifs at hread with hlen
  exact not_lt.1 hlen

/-- **`Append`** returns, and the appender has one sample more. -/
theorem Live.append (h : Live a) (t : I64) (v : ℚ) :
    Returns (a.append t v) fun a' => Live a' ∧ (∃ l, Took a' (l ++ [(t, v)])) ∧
      a'.timestamps.num = a.timestamps.num + 1 := by
  have hlen := h.length
  obtain ⟨l, hl⟩ := h.took
  obtain ⟨m, hm⟩ := h.header
  obtain ⟨a₁, hstamp⟩ : ∃ a₁, a.stamp t = .ok a₁ := ⟨_, if_neg (by omega)⟩
  obtain ⟨a₂, ha₂⟩ : ∃ a₂, a₂ = a₁.pushDelta (quantize a₁.errbound v) := ⟨_, rfl⟩
  have hct : a₁.ctype = .qSimple8b := by
    rw [CLAppender.stamp, if_neg (by omega)] at hstamp
    cases hstamp
    exact h.ctype
  have happ : a.append t v = .ok a₂ := by
    rw [CLAppender.append, hstamp, ha₂]
    simp only [Except.map, hct]
  have htook := hl.append happ
  refine ⟨a₂, happ, ?_⟩
  rw [CLAppender.stamp, if_neg (by omega)] at hstamp
  cases hstamp
  simp only [CLAppender.pushDelta, h.ctype] at ha₂
  subst ha₂
  refine ⟨⟨rfl, h.bound, numSamples_beBytes _ _, exists_encodes_write h.encoder _,
    ⟨_, hm.stamp _⟩, _, htook⟩, ⟨l, htook⟩, ?_⟩
  simp only [Timestamps.append]
  split_ifs <;> rfl

/-- The stream of a chunk with room for its payload. -/
def roomFor (a : CLAppender) (data : List Byte) : List Byte :=
  if a.b.stream.length < a.payloadPtr + data.length then
    replicate clHeaderSize 0#8 ++
      a.timestamps.b.stream.take (a.payloadPtr - clHeaderSize) ++ data
  else a.b.stream

theorem length_roomFor (h : Live a) (data : List Byte) :
    10 ≤ (roomFor a data).length ∧ a.payloadPtr + data.length ≤ (roomFor a data).length := by
  have := h.length
  unfold roomFor
  split_ifs
  · simp only [length_append, length_replicate, length_take, clHeaderSize,
      CLAppender.payloadPtr]
    split_ifs <;> omega
  · omega

/-- **`Compact`** with Simple8b: the header is written over the stream, unless the encoder fails. -/
theorem Live.compact_eq (h : Live a) (ext : Extern) (ranges : Ranges) :
    a.compact ext ranges = match a.encoder.getBytes.2 with
      | .error err => .ok ({ a with encoder := a.encoder.getBytes.1 }, some err)
      | .ok data => .ok ({ a with
          encoder := a.encoder.getBytes.1
          b := { a.b with
            stream := metaBytes a.num (BitVec.ofNat 32 a.payloadPtr) a.errbound .qSimple8b ++
              (roomFor a data).drop 10 } }, none) := by
  unfold CLAppender.compact CLAppender.prepare
  simp only [h.ctype]
  cases hg : a.encoder.getBytes.2 with
  | error err => rfl
  | ok data =>
    have hlen : ¬ (roomFor a data).length < 10 := not_lt.2 (length_roomFor h data).1
    simp only [CLAppender.payload, CLAppender.finish, CLAppender.writeMeta, writeCLMeta]
    rw [← roomFor, if_neg hlen]
    rfl

/-- The values that the encoder holds back. -/
def heldBack (a : CLAppender) : List U64 := (a.encoder.buf.take a.encoder.t).drop a.encoder.h

/-- The chunk can be opened after `Compact`: a value that Simple8b cannot encode keeps it from
writing the header, which must then have been written before. -/
def legible (a : CLAppender) : Bool :=
  if (heldBack a).any fun x => 2 ^ 60 ≤ x.toNat then pointed a.b.stream
  else clHeaderSize ≤ a.payloadPtr % 2 ^ 32

/-- **`Compact`** returns. -/
theorem Live.compact (h : Live a) (ext : Extern) (ranges : Ranges) :
    Returns (a.compact ext ranges) fun p => Live p.1 ∧ p.1.num = a.num ∧
      p.1.timestamps = a.timestamps ∧ pointed p.1.b.stream = legible a := by
  obtain ⟨ws, p, he⟩ := h.encoder
  obtain ⟨ws', p', henc, hp, -, hbytes⟩ := he.getBytes
  obtain ⟨l, hl⟩ := h.took
  have hheld : heldBack a = p := he.held
  have heq := h.compact_eq ext ranges
  rcases hbytes with ⟨rfl, hok⟩ | ⟨hlarge, err, herr⟩
  · have hsmall : ((heldBack a).any fun x => 2 ^ 60 ≤ x.toNat) = false := by
      rw [hheld, ← hp, append_nil, any_eq_false]
      intro x hx
      simpa using wordsValues_lt hx
    rw [hok] at heq
    have hread : readCLMeta (metaBytes a.num (BitVec.ofNat 32 a.payloadPtr) a.errbound .qSimple8b ++
        (roomFor a (wordsBytes (ws ++ ws'))).drop 10) = _ := readCLMeta_append h.bound _
    have hroom := length_roomFor h (wordsBytes (ws ++ ws'))
    refine ⟨_, heq, ⟨h.ctype, h.bound, ?_, ⟨_, _, henc⟩, ⟨_, hread, .inr rfl, ?_⟩, l,
      hl.compact heq⟩, rfl, rfl, ?_⟩
    · simp only [metaBytes, append_assoc]
      exact numSamples_beBytes _ _
    · have := Nat.mod_le a.payloadPtr (2 ^ 32)
      simp only [BitVec.toNat_ofNat, length_append, length_metaBytes, length_drop]
      omega
    · simp only [pointed, hread, legible, hsmall, BitVec.toNat_ofNat, Bool.false_eq_true, if_false]
  · have hany : ((heldBack a).any fun x => 2 ^ 60 ≤ x.toNat) = true := by
      obtain ⟨x, hx, hge⟩ := hlarge
      rw [hheld, ← hp, any_eq_true]
      exact ⟨x, mem_append_right _ hx, decide_eq_true hge⟩
    rw [herr] at heq
    exact ⟨_, heq, ⟨h.ctype, h.bound, h.num, ⟨_, _, henc⟩, h.header, l, hl.compact heq⟩, rfl, rfl,
      by rw [legible, hany, if_pos rfl]⟩

/-- As many timestamps are in the appender as samples were appended. -/
theorem Took.length {l : List (I64 × ℚ)} (h : Took a l) : Live a ∧ l.length = a.timestamps.num := by
  induction h with
  | new => exact ⟨live_new, rfl⟩
  | append _ happ ih =>
    obtain ⟨a', happ', hlive, -, hnum⟩ := ih.1.append _ _
    cases happ.symm.trans happ'
    exact ⟨hlive, by rw [length_append, length_singleton, ih.2, hnum]⟩
  | compact _ hcomp ih =>
    obtain ⟨p, hcomp', hlive, -, hts, -⟩ := ih.1.compact _ _
    cases hcomp.symm.trans hcomp'
    exact ⟨hlive, by rw [ih.2, hts]⟩

/-! ### All appenders of a series -/

/-- All appenders are those of CL chunks, and the current one is that of the newest head chunk. -/
structure Sound (s : MemSeries F H FH A FA) : Prop where
  live : ∀ x ∈ s.cells, ∃ a, x = .cl a ∧ Live a
  chunks : ∀ c ∈ s.headChunks, c.chunk < s.cells.length
  app : ∀ c ∈ s.headChunks.head?, s.app = some c.chunk
  stale : ∀ i, s.app = some i → i < s.cells.length
  noHistogram : s.lastHistogramValue = none ∧ s.lastFloatHistogramValue = none
  ring : ∃ ids, s.txs.Keeps ids

theorem sound_new (ref : ℕ) (zero : F) : Sound (newMemSeries ref zero : MemSeries F H FH A FA) := by
  refine ⟨?_, ?_, ?_, ?_, ⟨rfl, rfl⟩, [], keeps_newTxRing 0⟩ <;> simp [newMemSeries]

/-- What cuts add: new chunks, in new cells. -/
structure Grown (s s' : MemSeries F H FH A FA) : Prop where
  chunks : ∃ new, s'.headChunks.map MemChunk.chunk = new ++ s.headChunks.map MemChunk.chunk ∧
    ∀ i ∈ new, s.cells.length ≤ i
  cells : s.cells.length ≤ s'.cells.length
  mmappedChunks : s'.mmappedChunks = s.mmappedChunks
  firstChunkID : s'.firstChunkID = s.firstChunkID
  lastValue : s'.lastValue = s.lastValue
  txs : s'.txs = s.txs

variable {s s' s'' : MemSeries F H FH A FA}

theorem Grown.refl (s : MemSeries F H FH A FA) : Grown s s :=
  ⟨⟨[], rfl, by simp⟩, le_rfl, rfl, rfl, rfl, rfl⟩

theorem Grown.trans (h : Grown s s') (h' : Grown s' s'') : Grown s s'' := by
  obtain ⟨new, hnew, hge⟩ := h.chunks
  obtain ⟨new', hnew', hge'⟩ := h'.chunks
  refine ⟨⟨new' ++ new, by rw [hnew', hnew, append_assoc], fun i hi => ?_⟩,
    h.cells.trans h'.cells, h'.mmappedChunks.trans h.mmappedChunks,
    h'.firstChunkID.trans h.firstChunkID, h'.lastValue.trans h.lastValue, h'.txs.trans h.txs⟩
  rcases mem_append.1 hi with hi | hi
  · exact h.cells.trans (hge' i hi)
  · exact hge i hi

theorem Sound.cell (h : Sound s) {i : ℕ} (hi : i < s.cells.length) :
    ∃ a, s.cells[i]? = some (.cl a) ∧ s.cell i = .ok (.cl a) ∧ Live a := by
  obtain ⟨a, he, ha⟩ := h.live _ (getElem_mem hi)
  have hget : s.cells[i]? = some (.cl a) := by rw [getElem?_eq_getElem hi, he]
  exact ⟨a, hget, by rw [MemSeries.cell, hget], ha⟩

theorem Sound.set (h : Sound s) (i : ℕ) {a : CLAppender} (ha : Live a) :
    Sound { s with cells := s.cells.set i (.cl a) } where
  live := fun x hx => by
    rcases mem_or_eq_of_mem_set hx with hx | rfl
    · exact h.live x hx
    · exact ⟨a, rfl, ha⟩
  chunks := fun c hc => by rw [length_set]; exact h.chunks c hc
  app := h.app
  stale := fun i hi => by rw [length_set]; exact h.stale i hi
  noHistogram := h.noHistogram
  ring := h.ring

/-! ### Compaction and cuts -/

variable {ranges : Ranges}

/-- The series with the current appender compacted: its cell has another appender with as many
samples. -/
inductive Compacted (E : Env F H FH A FA) (s : MemSeries F H FH A FA) :
    MemSeries F H FH A FA → Prop
  | none (happ : s.app = none) : Compacted E s s
  | cell {i : ℕ} {a a' : CLAppender} (happ : s.app = some i) (hget : s.cells[i]? = some (.cl a))
      (ha : Live a) (ha' : Live a') (hnum : a'.num = a.num)
      (hptr : pointed a'.b.stream = legible a) :
      Compacted E s { s with cells := s.cells.set i (.cl a') }

theorem returns_compact (h : ∀ i, s.app = some i → ∃ a, s.cells[i]? = some (.cl a) ∧ Live a)
    (ranges : Ranges) : Returns (s.compactApp E ranges) (Compacted E s) ∧
      Returns (s.compactOld E ranges) (Compacted E s) := by
  unfold compactApp compactOld
  cases happ : s.app with
  | none => exact ⟨returns_ok (.none happ), returns_ok (.none happ)⟩
  | some i =>
    obtain ⟨a, hget, ha⟩ := h i happ
    simp only [hget]
    have hcell : Returns (s.compactCell E ranges i a) (Compacted E s) :=
      (ha.compact E.ext ranges).map fun p hp => .cell happ hget ha hp.1 hp.2.1 hp.2.2.2
    exact ⟨hcell, hcell⟩

theorem Sound.appLive (h : Sound s) :
    ∀ i, s.app = some i → ∃ a, s.cells[i]? = some (.cl a) ∧ Live a := fun i hi => by
  obtain ⟨a, hget, -, ha⟩ := h.cell (h.stale i hi)
  exact ⟨a, hget, ha⟩

theorem Compacted.sound (hc : Compacted E s s') (h : Sound s) : Sound s' := by
  cases hc with
  | none _ => exact h
  | cell _ _ _ ha' _ _ => exact h.set _ ha'

theorem Compacted.grown (hc : Compacted E s s') : Grown s s' := by
  cases hc with
  | none _ => exact .refl s
  | cell _ _ _ _ _ _ => exact ⟨⟨[], rfl, by simp⟩, (length_set ..).ge, rfl, rfl, rfl, rfl⟩

theorem Sound.link (h : Sound s) (mint w : I64) (e : Encoding) :
    ∀ i, (s.linkChunk E mint e w).app = some i →
      ∃ a, (s.linkChunk E mint e w).cells[i]? = some (.cl a) ∧ Live a := fun i hi => by
  obtain ⟨a, hget, ha⟩ := h.appLive i hi
  exact ⟨a, by rw [linkChunk, getElem?_append_left (h.stale i hi), hget], ha⟩

/-- **A cut** returns, with a new chunk in a new cell. -/
theorem Sound.cut (h : Sound s) (ranges : Ranges) (mint w : I64) (errbound : ℚ) :
    Returns (s.cutNewHeadChunk E ranges mint .cl w errbound) fun s' => Sound s' ∧ Grown s s' ∧
      s'.headChunks = ⟨s.cells.length, mint, minInt64⟩ :: s.headChunks ∧
      s'.cells[s.cells.length]? = some (.cl newAppender) := by
  refine (returns_compact (E := E) (h.link mint w .cl) ranges).2.bind fun r hr => ?_
  -- the new chunk is not the one that was compacted
  obtain ⟨cells, hlen, hlive, rfl⟩ : ∃ cells, cells.length = s.cells.length ∧
      (∀ x ∈ cells, ∃ a, x = .cl a ∧ Live a) ∧
      r = { s.linkChunk E mint .cl w with cells := cells ++ [.cl (appender newCLChunk)] } := by
    cases hr with
    | none _ => exact ⟨s.cells, rfl, h.live, rfl⟩
    | @cell i _ a' happ _ _ ha' _ _ =>
      have hi : i < s.cells.length := h.stale i happ
      refine ⟨s.cells.set i (.cl a'), length_set .., (h.set i ha').live, ?_⟩
      simp only [linkChunk, newApp, set_append_left _ _ hi]
  have hget : (cells ++ [.cl (appender newCLChunk)])[s.cells.length]? =
      some (.cl (appender newCLChunk) : App A FA) := by
    rw [← hlen]; exact getElem?_concat_length
  simp only [hget]
  refine returns_ok ⟨⟨fun x hx => ?_, fun c hc => ?_, fun c hc => ?_, fun i hi => ?_, h.noHistogram,
    h.ring⟩,
    ⟨⟨[s.cells.length], rfl, by simp⟩, by simp [hlen], rfl, rfl, rfl, rfl⟩, rfl,
    getElem?_set_self (by simp [hlen])⟩
  · rw [set_append_right _ _ hlen.le, hlen, Nat.sub_self] at hx
    rcases mem_append.1 hx with hx | hx
    · exact hlive x hx
    · rw [mem_singleton.1 hx]
      exact ⟨_, rfl, live_new⟩
  · simp only [length_set, length_append, length_singleton, hlen]
    rcases mem_cons.1 hc with rfl | hc
    · exact Nat.lt_succ_self _
    · exact (h.chunks c hc).trans (Nat.lt_succ_self _)
  · cases hc
    rfl
  · cases hi
    simp only [length_set, length_append, length_singleton, hlen]
    exact Nat.lt_succ_self _

/-! ### Where a float goes -/

variable {o : ChunkOpts} {t : I64} {c : MemChunk} {cs : List MemChunk}

theorem Grown.ne_nil (h : Grown s s') (hne : s.headChunks ≠ []) : s'.headChunks ≠ [] := by
  obtain ⟨new, hnew, -⟩ := h.chunks
  intro hnil
  rw [hnil, map_nil, eq_comm, append_eq_nil_iff, map_eq_nil_iff] at hnew
  exact hne hnew.2

theorem Sound.retime (h : Sound s) (hc : s.headChunks = c :: cs) (mint maxt n : I64) :
    Sound { s.setNewest ⟨c.chunk, mint, maxt⟩ with nextAt := n } ∧
      Grown s { s.setNewest ⟨c.chunk, mint, maxt⟩ with nextAt := n } := by
  have hchunks := h.chunks
  have happ := h.app
  rw [hc] at hchunks happ
  have htail : s.headChunks.tail = cs := by rw [hc]; rfl
  refine ⟨⟨h.live, ?_, ?_, h.stale, h.noHistogram, h.ring⟩,
    ⟨⟨[], ?_, by simp⟩, le_rfl, rfl, rfl, rfl, rfl⟩⟩ <;> simp only [setNewest, htail]
  · exact forall_mem_cons.2 (forall_mem_cons.1 hchunks)
  · intro c' hc'
    cases hc'
    exact happ c rfl
  · rw [hc]; rfl

/-- The state while a call prepares a chunk: sound, and grown from the one before. -/
def Prepared (s s' : MemSeries F H FH A FA) : Prop :=
  Sound s' ∧ Grown s s' ∧ s'.headChunks ≠ []

theorem Prepared.trans (h : Prepared s s') (h' : Prepared s' s'') : Prepared s s'' :=
  ⟨h'.1, h.2.1.trans h'.2.1, h'.2.2⟩

section Prepared

variable (h : Sound s) (hne : s.headChunks ≠ []) (ranges : Ranges) (t : I64)
include h hne

theorem Sound.newest : ∃ c cs a, s.headChunks = c :: cs ∧
    s.newest = .ok c ∧ s.cell c.chunk = .ok (.cl a) ∧ s.app = some c.chunk ∧ Live a := by
  obtain ⟨c, cs, hc⟩ := exists_cons_of_ne_nil hne
  obtain ⟨a, -, hcell, ha⟩ := h.cell (h.chunks c (by rw [hc]; exact mem_cons_self))
  exact ⟨c, cs, a, hc, by rw [MemSeries.newest, hc], hcell, h.app c (by rw [hc]; rfl), ha⟩

theorem Sound.cutIf (created cond : Bool) :
    Returns (s.cutIf E o ranges t .cl created cond) fun r => Prepared s r.1 := by
  refine returns_ite (fun _ => ?_) fun _ => returns_ok ⟨h, .refl s, hne⟩
  exact (h.cut ranges t _ _).map fun s' hs' => ⟨hs'.1, hs'.2.1, by rw [hs'.2.2.1]; simp⟩

theorem Sound.startTimes (n : ℕ) : Returns (s.startTimes o t n) (Prepared s) := by
  obtain ⟨c, cs, a, hc, hnew, -⟩ := h.newest hne
  unfold MemSeries.startTimes
  rw [hnew]
  refine returns_ite (fun _ => returns_ok ?_) fun _ => returns_ok ⟨h, .refl s, hne⟩
  obtain ⟨hs, hg⟩ := h.retime hc t c.maxTime (rangeForTimestamp t o.chunkRange)
  exact ⟨hs, hg, hg.ne_nil hne⟩

theorem Sound.predictEnd (n : ℕ) : Returns (s.predictEnd E o n) (Prepared s) := by
  obtain ⟨c, cs, a, hc, hnew, -⟩ := h.newest hne
  unfold MemSeries.predictEnd
  rw [hnew]
  refine returns_ite (fun _ => returns_ok ⟨?_, ?_, hne⟩) fun _ => returns_ok ⟨h, .refl s, hne⟩
  · exact { h with }
  · exact ⟨⟨[], rfl, by simp⟩, le_rfl, rfl, rfl, rfl, rfl⟩

theorem Sound.appSamples (ok : Bool) : Returns (s.appSamples E ok) fun _ => True := by
  obtain ⟨c, cs, a, hc, hnew, hcell, happ, -⟩ := h.newest hne
  simp only [MemSeries.appSamples, hnew, hcell, MemSeries.appCell, happ, ok_bind]
  exact returns_ite (fun _ => returns_ok trivial) fun _ => returns_ok trivial

/-- **The end of `appendPreprocessor`** returns. -/
theorem Sound.planFloat (created ok : Bool) :
    Returns (s.planFloat E o ranges t .cl created ok) fun r => r.1 = true ∧ Prepared s r.2.2 := by
  obtain ⟨c, cs, a, hc, hnew, hcell, -⟩ := h.newest hne
  unfold MemSeries.planFloat
  refine returns_step hnew (returns_step hcell ?_)
  refine (h.cutIf hne ranges t created _).bind fun ⟨s1, created1⟩ h1 => ?_
  refine (h1.1.appSamples h1.2.2 ok).bind fun n _ => ?_
  refine (h1.1.startTimes h1.2.2 t n).bind fun s2 h2 => ?_
  refine (h2.1.predictEnd h2.2.2 n).bind fun s3 h3 => ?_
  refine (h3.1.cutIf h3.2.2 ranges t created1 _).bind fun ⟨s4, created4⟩ h4 => ?_
  exact returns_ok ⟨rfl, h1.trans (h2.trans (h3.trans h4))⟩

end Prepared

theorem slt_eq_not_sle (x y : I64) : x.slt y = !y.sle x := by
  rw [BitVec.slt_eq_decide, BitVec.sle_eq_decide, ← decide_not, decide_eq_decide, not_le]

theorem sle_minInt64_of_not {x y : I64} (h : x.sle y = false) : x.sle minInt64 = false := by
  have := minInt64_le y
  rw [sle_eq_false] at h ⊢
  omega

/-- All head chunks are new. -/
structure Emptied (s : MemSeries F H FH A FA) : Prop where
  maxTime : s.maxTime = minInt64
  cells : ∀ c ∈ s.headChunks, s.cells[c.chunk]? = some (.cl newAppender)

/-- **`openHead`** refuses samples that the m-mapped chunks reach; otherwise the newest head chunk
decides. -/
theorem Sound.openHead (h : Sound s) (ranges : Ranges) (t : I64) :
    Returns (s.openHead E o ranges t .cl) fun r =>
      r = none ∧ s.headChunks = [] ∧ t.sle s.maxTime = true ∨
      ∃ p, r = some p ∧ Prepared s p.1 ∧ t.sle p.1.maxTime = t.sle s.maxTime ∧
        (s.headChunks ≠ [] → p = (s, false)) ∧ (s.headChunks = [] → Emptied p.1) := by
  unfold MemSeries.openHead
  cases hc : s.headChunks with
  | cons c cs =>
    exact returns_ok (.inr ⟨_, rfl, ⟨h, .refl s, by rw [hc]; simp⟩, rfl, fun _ => rfl,
      fun hnil => by cases hnil⟩)
  | nil =>
    refine returns_ite (fun hm => returns_ok (.inl ⟨rfl, rfl, ?_⟩)) fun hm =>
      (h.cut ranges t _ _).map fun s' ⟨hs, hg, hhead, hcell⟩ => .inr ⟨_, rfl,
        ⟨hs, hg, by rw [hhead]; simp⟩, ?_, fun hne => absurd rfl hne,
        fun _ => ⟨by rw [maxTime, hhead],
        fun c' hc' => ?_⟩⟩
    · cases hl : s.mmappedChunks.getLast? with
      | none => rw [hl] at hm; cases hm
      | some m => rw [hl] at hm; simpa only [maxTime, hc, hl, Option.any_some] using hm
    · cases hl : s.mmappedChunks.getLast? with
      | none => simp only [maxTime, hhead, hc, hl]
      | some m =>
        rw [hl, Option.any_some, Bool.not_eq_true] at hm
        simp only [maxTime, hhead, hc, hl, hm]
        exact sle_minInt64_of_not hm
    · rw [hhead, hc, mem_singleton] at hc'
      rw [hc']
      exact hcell

/-- The series after a sample that was refused: as before, or with a first chunk that is empty. -/
inductive Refused (s : MemSeries F H FH A FA) : MemSeries F H FH A FA → Prop
  | same : Refused s s
  | cut {s' : MemSeries F H FH A FA} (hnil : s.headChunks = []) (hgrown : Grown s s')
      (hnew : Emptied s') : Refused s s'

/-- **`appendPreprocessor`** takes exactly the samples after `maxTime`. -/
theorem Sound.appendPreprocessor (h : Sound s) (ranges : Ranges) (t : I64) :
    Returns (s.appendPreprocessor E o ranges t .cl) fun r => r.1 = s.maxTime.slt t ∧
      (r.1 = true → r.2.2.headChunks ≠ []) ∧ Sound r.2.2 ∧ Grown s r.2.2 ∧
      (r.1 = false → Refused s r.2.2) := by
  unfold MemSeries.appendPreprocessor
  refine (h.openHead ranges t).bind fun r hr => ?_
  rcases hr with ⟨rfl, hnil, hle⟩ | ⟨⟨s1, created1⟩, rfl, h1, hle, hsame, hfirst⟩
  · refine returns_ok ⟨?_, by simp, h, .refl s, fun _ => .same⟩
    rw [slt_eq_not_sle, hle]; rfl
  · dsimp only at h1 hle
    obtain ⟨c, cs, a, hc, hnew, hcell, happ, -⟩ := h1.1.newest h1.2.2
    have hmax : s1.maxTime = c.maxTime := by rw [maxTime, hc]
    have hsize : s1.chunkSize E = .ok (estimatedSize a, true) := by
      simp only [chunkSize, hnew, hcell, happ, ok_bind]
    rw [hmax] at hle
    refine returns_step hnew (returns_ite (fun hord => returns_ok ?_) fun hord => ?_)
    · refine ⟨by rw [slt_eq_not_sle, ← hle, hord]; rfl, by simp, h1.1, h1.2.1, fun _ => ?_⟩
      by_cases hnil : s.headChunks = []
      · exact .cut hnil h1.2.1 (hfirst hnil)
      · obtain ⟨rfl, -⟩ := Prod.mk.inj (hsame hnil)
        exact .same
    · rw [Bool.not_eq_true] at hord
      refine returns_step hsize ?_
      refine (h1.1.cutIf h1.2.2 ranges t created1 _).bind fun ⟨s2, created2⟩ h2 => ?_
      refine (h2.1.planFloat h2.2.2 ranges t created2 true).mono fun r hr => ?_
      have h3 := h1.trans (h2.trans hr.2)
      refine ⟨by rw [hr.1, slt_eq_not_sle, ← hle, hord]; rfl, fun _ => h3.2.2, h3.1, h3.2.1,
        fun hf => ?_⟩
      rw [hr.1] at hf
      cases hf

theorem exists_addTx {s : MemSeries F H FH A FA} (h : ∃ ids, s.txs.Keeps ids) (appendID : ℕ) :
    ∃ txs, s.addTx appendID = { s with txs := txs } ∧ ∃ ids, txs.Keeps ids := by
  unfold addTx
  split_ifs
  · obtain ⟨ids, hids⟩ := h
    exact ⟨_, rfl, _, hids.add appendID⟩
  · exact ⟨s.txs, rfl, h⟩

/-- The series after `append` of a sample it has taken: it was the last one to be appended to the
newest chunk. -/
structure Stored (E : Env F H FH A FA) (s s' : MemSeries F H FH A FA) (t : I64) (v : F) : Prop where
  newest : ∃ c cs a l, s'.headChunks = c :: cs ∧ c.maxTime = t ∧
    s'.cells[c.chunk]? = some (.cl a) ∧ Took a (l ++ [(t, E.value v)])
  mmappedChunks : s'.mmappedChunks = s.mmappedChunks
  lastValue : s'.lastValue = v

/-- **`append`** takes exactly the samples after `maxTime`. -/
theorem Sound.append (h : Sound s) (ranges : Ranges) (t : I64) (v : F) (appendID : ℕ) :
    Returns (s.append E o ranges t v appendID) fun r => r.1 = s.maxTime.slt t ∧ Sound r.2.2 ∧
      (r.1 = true → Stored E s r.2.2 t v) ∧
      (r.1 = false → Refused s r.2.2) := by
  unfold MemSeries.append
  refine (h.appendPreprocessor ranges t).bind fun ⟨ok, created, s1⟩ h1 => ?_
  obtain ⟨hok, hne, hs1, hg, hsame⟩ := h1
  refine returns_ite (fun hf => returns_ok ?_) fun ht => ?_
  · have hf' : ok = false := by simpa using hf
    exact ⟨hf' ▸ hok, hs1, fun hc => by simp at hc, fun _ => hsame hf'⟩
  · have ht' : ok = true := by simpa using ht
    dsimp only at hne hs1 hg
    obtain ⟨c, cs, a, hc, hnew, hcell, happ, ha⟩ := hs1.newest (hne ht')
    have happCell : s1.appCell = .ok (.cl a) := by rw [appCell, happ]; exact hcell
    refine returns_step happCell ?_
    split
    · rename_i i a₁ hi he
      obtain rfl : c.chunk = i := by rw [happ] at hi; exact Option.some.inj hi
      obtain rfl := App.cl.inj he
      refine (ha.append t (E.value v)).bind fun a' ⟨ha', ⟨l, htook⟩, _⟩ => ?_
      have hs2 := hs1.set c.chunk ha'
      have hnew2 : { s1 with cells := s1.cells.set c.chunk (.cl a') }.newest = .ok c := by
        rw [MemSeries.newest, hc]
      refine returns_step hnew2 (returns_ok ?_)
      obtain ⟨hs3, -⟩ := hs2.retime hc c.minTime t s1.nextAt
      obtain ⟨txs, htxs, hring⟩ := exists_addTx (s :=
        { ({ s1 with cells := s1.cells.set c.chunk (.cl a') } :
          MemSeries F H FH A FA).setNewest { c with maxTime := t } with
            lastValue := v, lastHistogramValue := none, lastFloatHistogramValue := none })
        hs1.ring appendID
      rw [htxs]
      refine ⟨ht' ▸ hok, ⟨hs3.live, hs3.chunks, hs3.app, hs3.stale, ⟨rfl, rfl⟩, hring⟩, fun _ => ?_,
        fun hf => by cases hf⟩
      exact ⟨⟨_, _, a', l, rfl, rfl,
        getElem?_set_self (hs1.chunks c (by rw [hc]; exact mem_cons_self)), htook⟩,
        hg.mmappedChunks, rfl⟩
    · rename_i hno
      exact absurd rfl (hno c.chunk a happ)

/-! ### The other calls -/

theorem Sound.restrict (h : Sound s) (j n : ℕ) (ms : List MmappedChunk) :
    Sound { s with
      headChunks := s.headChunks.take j, mmappedChunks := ms, firstChunkID := n } where
  live := h.live
  chunks := fun c hc => h.chunks c (mem_of_mem_take hc)
  app := fun c hc => h.app c (mem_head?_of_take hc)
  stale := h.stale
  noHistogram := h.noHistogram
  ring := h.ring

theorem Sound.reset (h : Sound s) (mmc : List MmappedChunk) :
    Sound (s.resetSeriesWithMMappedChunks mmc) where
  live := h.live
  chunks := by simp [resetSeriesWithMMappedChunks]
  app := by simp [resetSeriesWithMMappedChunks]
  stale := by simp [resetSeriesWithMMappedChunks]
  noHistogram := h.noHistogram
  ring := h.ring

/-- The mapper has the m-mapped chunk, which was a head chunk with as many samples. -/
def Filed (mapper : Mapper A FA) (m : MmappedChunk) : Prop :=
  ∃ b hb, mapper[m.ref]? = some (.cl b) ∧ Headed b.stream hb ∧
    numSamples b.stream = m.numSamples.toNat

theorem Filed.append {mapper : Mapper A FA} {m : MmappedChunk} (h : Filed mapper m)
    (bs : Mapper A FA) : Filed (mapper ++ bs) m := by
  obtain ⟨b, hb, hget, hrest⟩ := h
  exact ⟨b, hb, by rw [getElem?_append_left (List.getElem?_eq_some_iff.1 hget).1, hget], hrest⟩

/-- The chunks that `mmapChunks` writes are in the mapper. -/
theorem Sound.mmapLoop (h : Sound s) : ∀ (cs : List MemChunk) (ms : List MmappedChunk)
    (mapper : Mapper A FA), (∀ c ∈ cs, c.chunk < s.cells.length) →
    Returns (mmapLoop E cs ({ s with mmappedChunks := ms }, mapper)) fun p =>
      ∃ ms' bs, p = ({ s with mmappedChunks := ms ++ ms' }, mapper ++ bs) ∧
        ms'.length = cs.length ∧ ∀ m ∈ ms', Filed (mapper ++ bs) m
  | [], ms, mapper, _ => returns_ok ⟨[], [], by rw [append_nil, append_nil], rfl, by simp⟩
  | c :: cs, ms, mapper, hcs => by
    rw [forall_mem_cons] at hcs
    obtain ⟨a, hget, -, ha⟩ := h.cell hcs.1
    obtain ⟨hb, hhead⟩ := ha.header
    refine returns_step (a := .cl a) (by rw [MemSeries.cell, hget]) ?_
    refine (Sound.mmapLoop h cs _ _ hcs.2).mono fun p hp => ?_
    obtain ⟨ms', bs, rfl, hlen, hfiled⟩ := hp
    rw [append_assoc] at hfiled
    refine ⟨_ :: ms', .cl a.b :: bs, by rw [append_assoc, append_assoc]; rfl, by simp [hlen],
      forall_mem_cons.2 ⟨⟨a.b, hb, ?_, hhead, ?_⟩, hfiled⟩⟩
    · simp
    · exact (Nat.mod_eq_of_lt (numSamples_lt _)).symm

/-- **`mmapChunks`** returns, with all head chunks but the newest in the mapper. -/
theorem Sound.mmapChunks (h : Sound s) (mapper : Mapper A FA) :
    Returns (s.mmapChunks E mapper) fun p => Sound p.1 ∧ ∃ ms bs,
      p = ({ s with mmappedChunks := s.mmappedChunks ++ ms, headChunks := s.headChunks.take 1 },
        mapper ++ bs) ∧
      ms.length = s.headChunks.tail.length ∧ ∀ m ∈ ms, Filed (mapper ++ bs) m := by
  have hcs : ∀ c ∈ s.headChunks.tail.reverse, c.chunk < s.cells.length := fun c hc =>
    h.chunks c (mem_of_mem_tail (mem_reverse.1 hc))
  refine (h.mmapLoop s.headChunks.tail.reverse s.mmappedChunks mapper hcs).map fun p hp => ?_
  obtain ⟨ms, bs, rfl, hlen, hfiled⟩ := hp
  rw [length_reverse] at hlen
  exact ⟨h.restrict 1 s.firstChunkID _, ms, bs, rfl, hlen, hfiled⟩

/-! ### Reads -/

/-- A read compacts the current appender, and nothing else happens to the series. -/
theorem Compacted.headChunks (hc : Compacted E s s') : s'.headChunks = s.headChunks ∧
    s'.mmappedChunks = s.mmappedChunks := by
  cases hc <;> exact ⟨rfl, rfl⟩

/-- **`chunk`** returns when the mapper has all m-mapped chunks. -/
theorem Sound.chunk (h : Sound s) {mapper : Mapper A FA}
    (hfiled : ∀ m ∈ s.mmappedChunks, Filed mapper m) (ranges : Ranges) (id : ℕ) :
    Returns (s.chunk E mapper ranges id) fun r => r.2 = s ∨ Compacted E s r.2 := by
  unfold MemSeries.chunk
  refine returns_ite (fun _ => returns_ok (.inl rfl)) fun _ => ?_
  split
  · rename_i m hm
    obtain ⟨b, -, hget, -⟩ := hfiled m (mem_of_getElem? hm)
    rw [hget]
    exact returns_ok (.inl rfl)
  · refine (returns_compact h.appLive ranges).1.bind fun s1 hs1 => ?_
    split
    · exact returns_ok (.inr hs1)
    · rename_i c hc
      obtain ⟨a, -, hcell, -⟩ := (hs1.sound h).cell ((hs1.sound h).chunks c (mem_of_getElem? hc))
      exact returns_step hcell (returns_ok (.inr hs1))

/-- **`encodeToSnapshotRecord`** returns. -/
theorem Sound.encodeToSnapshotRecord (h : Sound s) (ranges : Ranges) :
    Returns (s.encodeToSnapshotRecord E ranges) fun r => Compacted E s r.2 := by
  refine (returns_compact h.appLive ranges).1.bind fun s1 hs1 => ?_
  cases hc : s1.headChunks with
  | nil => exact returns_ok hs1
  | cons c cs =>
    obtain ⟨a, -, hcell, -⟩ := (hs1.sound h).cell ((hs1.sound h).chunks c (by rw [hc]; simp))
    exact returns_step hcell (returns_ok hs1)

/-- The numbers of samples of the chunks, oldest first, as `iterator` counts them. -/
def counts (E : Env F H FH A FA) (s : MemSeries F H FH A FA) : List ℕ :=
  (s.mmappedChunks.map fun m => m.numSamples.toNat) ++
    s.headChunks.reverse.map fun c => (s.cells[c.chunk]?.map (chunkSamples E)).getD 0

theorem Compacted.counts (hc : Compacted E s s') : counts E s' = counts E s := by
  cases hc with
  | none _ => rfl
  | @cell i a a' _ hget ha ha' hnum _ =>
    unfold FloatCells.counts
    congr 1
    refine map_congr_left fun c _ => ?_
    by_cases hi : i = c.chunk
    · subst hi
      have hlt := (List.getElem?_eq_some_iff.1 hget).1
      rw [getElem?_set_self hlt, hget]
      simp only [Option.map_some, Option.getD_some, chunkSamples, App.chunk, anySamples]
      rw [ha'.num, ha.num, hnum]
    · simp only [getElem?_set_ne hi]

theorem take_sum_add_le {xs : List ℕ} {i n : ℕ} (h : xs[i]? = some n) :
    (xs.take i).sum + n ≤ xs.sum := by
  obtain ⟨hi, rfl⟩ := List.getElem?_eq_some_iff.1 h
  calc (xs.take i).sum + xs[i] ≤ (xs.take i).sum + (xs.drop i).sum := by
        rw [drop_eq_getElem_cons hi, sum_cons]; omega
    _ = xs.sum := by rw [← sum_append, take_append_drop]

/-- `stopAfter` returns for a chunk that is counted: the ring has as many ids as it considers. -/
theorem returns_stopAfter {txs : TxRing} {ids mm heads : List ℕ} (hk : txs.Keeps ids)
    (first : ℕ) {ix n : ℕ} (hn : (mm ++ heads.reverse)[ix]? = some n)
    (isoState : Option IsolationState) :
    Returns (stopAfter txs mm heads first (first + ix) n isoState) fun _ => True := by
  unfold stopAfter
  cases isoState with
  | none => exact returns_ok trivial
  | some st =>
    refine returns_ite (fun _ => returns_ok trivial) fun _ => ?_
    have hle : (appendIDsToConsider txs mm heads first (first + ix) n).toNat ≤ ids.length := by
      have hsum := take_sum_add_le hn
      have h1 : (((first + ix : ℕ) : ℤ) - first).toNat = ix := by omega
      have h2 : ((((first + ix : ℕ) : ℤ) - first) - mm.length).toNat = ix - mm.length := by omega
      rw [take_append, sum_append, sum_append, sum_reverse] at hsum
      simp only [appendIDsToConsider, h1, h2, hk.count]
      omega
    obtain ⟨-, found, hs, -⟩ := scan_spec txs.txIDs st.hides _ ids txs.txIDFirst hk.cells hle
    rw [first_mod hk] at hs
    refine returns_step hs ?_
    cases found <;> exact returns_ok trivial

/-- `stopAfter` as `iterator` computes it for a chunk of `n` samples. -/
def stopOf (E : Env F H FH A FA) (s : MemSeries F H FH A FA) (id n : ℕ)
    (isoState : Option IsolationState) : Except Fault ℕ :=
  stopAfter s.txs (s.mmappedChunks.map fun m => m.numSamples.toNat)
    (s.headChunks.map fun c => (s.cells[c.chunk]?.map (chunkSamples E)).getD 0) s.firstChunkID id n
    isoState

/-- A chunk of the series. -/
def ChunkOf (s : MemSeries F H FH A FA) : ChunkPtr A FA → Prop
  | .cell i => i < s.cells.length
  | .mapped c => ∃ b hb, c = .cl b ∧ Headed b.stream hb

/-- The chunk can be opened once the appender of the series has been compacted. -/
def opens (s : MemSeries F H FH A FA) : ChunkPtr A FA → Bool
  | .cell i =>
    match s.cells[i]? with
    | some (.cl a) => if s.app = some i then legible a else pointed a.b.stream
    | _ => true
  | .mapped (.cl b) => pointed b.stream
  | .mapped _ => true

theorem Compacted.deref (hs : Compacted E s s') (h : Sound s) {c : ChunkPtr A FA}
    (hc : ChunkOf s c) :
    ∃ b hb, s'.deref c = .ok (.cl b) ∧ Headed b.stream hb ∧ pointed b.stream = opens s c := by
  cases c with
  | mapped c =>
    obtain ⟨b, hb, rfl, hhead⟩ := hc
    exact ⟨b, hb, rfl, hhead, rfl⟩
  | cell j =>
    obtain ⟨a, hget, hcell, ha⟩ := h.cell hc
    obtain ⟨hb, hhead⟩ := ha.header
    simp only [MemSeries.deref, opens, hget]
    cases hs with
    | none happ =>
      refine ⟨a.b, hb, by rw [hcell]; rfl, hhead, ?_⟩
      rw [happ, if_neg (by simp)]
    | @cell i a₀ a' happ hget' _ ha' _ hptr =>
      by_cases hij : i = j
      · subst hij
        obtain rfl : a₀ = a := App.cl.inj (Option.some.inj (hget'.symm.trans hget))
        obtain ⟨hb', hhead'⟩ := ha'.header
        refine ⟨a'.b, hb', ?_, hhead', by rw [hptr, happ, if_pos rfl]⟩
        rw [MemSeries.cell, getElem?_set_self hc]
        rfl
      · refine ⟨a.b, hb, ?_, hhead, ?_⟩
        · rw [MemSeries.cell, getElem?_set_ne hij, hget]
          rfl
        · rw [happ, if_neg fun he => hij (Option.some.inj he)]

/-- **`iterator`** returns for a chunk of the series, unless it shows something of one that cannot
be opened. -/
theorem Sound.iterator (h : Sound s) (ranges : Ranges) (order : RangeOrder (U64 × I64)) {ix n : ℕ}
    {c : ChunkPtr A FA} (hc : ChunkOf s c) (hn : (s.deref c).map (anySamples E) = .ok n)
    (hix : (counts E s)[ix]? = some n) (isoState : Option IsolationState) :
    let it := s.iterator E ranges order (s.firstChunkID + ix) c isoState
    (stopOf E s (s.firstChunkID + ix) n isoState = .ok 0 ∨ opens s c = true →
        Returns it fun r => Compacted E s r.2) ∧
      (¬ (stopOf E s (s.firstChunkID + ix) n isoState = .ok 0 ∨ opens s c = true) →
        it = .error .panic) := by
  obtain ⟨c₀, hc₀, rfl⟩ := map_eq_ok hn
  obtain ⟨s1, hcomp, hs1⟩ := (returns_compact (E := E) h.appLive ranges).1
  have h1 := hs1.sound h
  obtain ⟨b, hb, hderef, hhead, hopens⟩ := hs1.deref h hc
  have hcounts : s1.headChunks.mapM (fun c => (s1.cell c.chunk).map (chunkSamples E)) =
      .ok (s1.headChunks.map fun c => (s1.cells[c.chunk]?.map (chunkSamples E)).getD 0) := by
    refine mapM_eq_ok (forall₂_map_right_iff.2 (forall₂_same.2 fun c hc => ?_))
    obtain ⟨a, hget, hcell, -⟩ := h1.cell (h1.chunks c hc)
    rw [hcell, hget]
    rfl
  have hstop : stopOf E s1 (s.firstChunkID + ix) (anySamples E c₀) isoState =
      stopOf E s (s.firstChunkID + ix) (anySamples E c₀) isoState := by
    have hheads := hs1.counts
    obtain ⟨hhc, hmm⟩ := hs1.headChunks
    unfold counts at hheads
    rw [hmm, append_cancel_left_eq, map_reverse, map_reverse, reverse_inj] at hheads
    rw [stopOf, hheads, hmm, hs1.grown.txs, hs1.grown.firstChunkID]
    rfl
  obtain ⟨ids, hk⟩ := h1.ring
  rw [← hs1.counts, counts, map_reverse] at hix
  obtain ⟨stop, hst, -⟩ := returns_stopAfter hk s1.firstChunkID hix isoState
  rw [hs1.grown.firstChunkID] at hst
  have heq : s.iterator E ranges order (s.firstChunkID + ix) c isoState =
      if stop = 0 then .ok (.nop, s1)
      else (openChunk E order (.cl b)).map fun it =>
        (if stop = anySamples E c₀ then .all it else .stop it stop, s1) := by
    unfold MemSeries.iterator
    simp only [hc₀, hcomp, hcounts, ok_bind, hs1.grown.firstChunkID, hst, hderef]
    rfl
  rw [← hstop, show stopOf E s1 (s.firstChunkID + ix) (anySamples E c₀) isoState = .ok stop by
    rw [stopOf, hs1.grown.firstChunkID]; exact hst, heq, ← hopens, Except.ok.injEq]
  obtain ⟨hopen, hpanic⟩ := hhead.reset E.ext order
  constructor
  · intro hor
    refine returns_ite (fun _ => returns_ok hs1) fun hne => ?_
    obtain ⟨it, hit⟩ := hopen (hor.resolve_left hne)
    rw [openChunk, hit]
    exact returns_ok hs1
  · intro hno
    rw [not_or, Bool.not_eq_true] at hno
    rw [if_neg hno.1, openChunk, hpanic hno.2]
    rfl

end TopcDB.Tsdb.FloatCells
