import TopcDB.Wlog.RoundTrip

/-! # The size of segments

`log` begins a new segment when a record is longer than what the pages that are left can take beside
their headers. So a segment has no more pages than it may have, unless a single record needs more,
and every fragment finds room for its header (`logAll_sized`). -/

namespace TopcDB.Wlog.SegmentSize

open List Lib.Bits Layout Writer Reading RoundTrip

/-! ### The room for fragments -/

/-- What the page has left at every pass of the loop of `log`. -/
def loopRooms (c : CompressionType) : ℕ → ℕ → List Byte → WL → List ℕ
  | 0, _, _, _ => []
  | n + 1, i, rec, w =>
    let l := min rec.length (pageSize - w.page.alloc - recordHeaderSize)
    (pageSize - w.page.alloc) ::
      if 0 < (rec.drop l).length then loopRooms c n (i + 1) (rec.drop l) (writeFragment c i rec w)
      else []

/-- The rooms that `log` finds for the fragments of a record. -/
def logRooms (k : Codecs) (w : WL) (rec : List Byte) : List ℕ :=
  let w := if w.page.full then flushPage true w else w
  let b := compressed k w.compress rec
  let w := if b.bytes.length > w.left then nextSegment w else w
  loopRooms b.compression (b.bytes.length + 1) 0 b.bytes w

def batchRooms (k : Codecs) : WL → List (List Byte) → List ℕ
  | _, [] => []
  | w, rec :: recs => logRooms k w rec ++ batchRooms k (log k w rec recs.isEmpty) recs

def allRooms (k : Codecs) : WL → List (List (List Byte)) → List ℕ
  | _, [] => []
  | w, recs :: calls => batchRooms k w recs ++ allRooms k (logBatch k w recs) calls

theorem le_of_mem_loopRooms (c : CompressionType) : ∀ {n i : ℕ} {rec b : List Byte} {w : WL},
    Filled w b → ∀ x ∈ loopRooms c n i rec w, recordHeaderSize ≤ x
  | 0, _, _, _, _, _, x, hx => by cases hx
  | n + 1, i, rec, b, w, h, x, hx => by
    have := h.alloc_le
    rw [loopRooms, mem_cons] at hx
    rcases hx with rfl | hx
    · omega
    · split_ifs at hx
      · exact le_of_mem_loopRooms c (h.writeFragment c i rec).1 x hx
      · cases hx

variable {k : Codecs} {c : CompressionType} {pages : ℕ} {recs : List (List Byte)} {w : WL}
  {rec b : List Byte}

theorem le_of_mem_logRooms (h : Filled w b) : ∀ x ∈ logRooms k w rec, recordHeaderSize ≤ x := by
  simp only [logRooms, not_full h.toReady, reduceCtorEq, if_false]
  split_ifs
  · exact le_of_mem_loopRooms _ h.nextSegment.2.1
  · exact le_of_mem_loopRooms _ h

/-! ### The length of records -/

theorem page_start : start 0 = 0 ∧ lead 0 = [] ∧ room 0 = pageSize - recordHeaderSize := by decide

/-- A record reaches over as many pages as its bytes need beside the headers. -/
theorem length_le_of_lays {pos : ℕ} {fst : Bool} (h : Lays c pos fst rec b) : ∀ {m : ℕ},
    pos < pageSize → rec.length ≤ room pos + (pageSize - recordHeaderSize) * m →
    start pos + b.length ≤ (lead pos).length + pageSize * (m + 1) := by
  induction h with
  | last hle =>
    intro m hpos _
    have := start_add_room hpos
    rw [length_append, length_fragment, Nat.mul_succ]
    omega
  | more hlt _ ih =>
    intro m hpos hm
    have := start_add_room hpos
    obtain ⟨hstart, hlead, hroom⟩ := page_start
    obtain _ | m := m
    · omega
    · have hrest := ih (m := m) (by decide) (by
        rw [length_drop, hroom]
        rw [Nat.mul_succ] at hm
        omega)
      rw [hstart, hlead, length_nil] at hrest
      rw [length_append, length_append, length_fragment, length_take, Nat.mul_succ]
      omega

variable (k c pages recs)

/-- The file has at most `pages` pages, or one of the records alone, which needs more. -/
def Sized (file : List Byte) : Prop :=
  file.length ≤ pages * pageSize ∨ ∃ rec ∈ recs, FileOf k c file [rec] ∧
    pages * (pageSize - recordHeaderSize) < (compressed k c rec).bytes.length

/-- The invariant of a run that logs the records. -/
structure Bounded (w : WL) (b : List Byte) : Prop where
  filled : Filled w b
  counted : w.Counted
  compress : w.compress = c
  perSegment : w.pagesPerSegment = pages
  done : ∀ file ∈ w.done, Sized k c pages recs file
  active : ∀ {j}, j ≤ gap b.length → Sized k c pages recs (b ++ zeros j)

variable {k c pages recs}

theorem sized_of_le {j : ℕ} (h : b.length ≤ pages * pageSize) (hj : j ≤ gap b.length) :
    Sized k c pages recs (b ++ zeros j) := by
  refine .inl ?_
  rw [length_append, length_zeros]
  simp only [gap, pageSize] at *
  omega

theorem compressed_ne_nil (h : rec ≠ []) : 0 < (compressed k c rec).bytes.length := by
  have hlen := length_pos_iff.2 h
  unfold compressed
  split <;> (try split_ifs) <;>
    first | exact hlen | exact length_pos_iff.2 (Codec.encode_ne_nil _ rec h)

/-- A record that goes to the active segment finds the pages it needs. -/
theorem Bounded.stays {b' : List Byte} {r : Body} (h : Bounded k c pages recs w b)
    (hr : 0 < r.bytes.length) (hleft : r.bytes.length ≤ w.left)
    (hlays : Lays r.compression (b.length % pageSize) true r.bytes b') :
    (b ++ b').length ≤ pages * pageSize := by
  have hcount := h.counted
  rw [WL.Counted, h.filled.content_eq, h.filled.alloc_eq, length_append] at hcount
  rw [WL.left, Page.remaining, h.filled.alloc_eq, h.perSegment] at hleft
  obtain ⟨m, rfl⟩ : ∃ m, pages = w.donePages + 1 + m := by
    refine Nat.exists_eq_add_of_le ?_
    simp only [pageSize, recordHeaderSize] at *
    omega
  have hlen := length_le_of_lays hlays (m := m) (mod_lt _) (by
    rw [room]
    simp only [pageSize, recordHeaderSize] at *
    omega)
  rw [length_append]
  simp only [pageSize] at *
  omega

theorem Bounded.log (h : Bounded k c pages recs w b) (hmem : rec ∈ recs) (hne : rec ≠ [])
    (final : Bool) : ∃ b', Bounded k c pages recs (log k w rec final) b' := by
  have hr : 0 < (compressed k c rec).bytes.length := compressed_ne_nil hne
  obtain ⟨w₁, b₁, b', hcase, hsame, hlays, hfill, hcount, -⟩ := filled_log k h.filled rec final
  rw [h.compress] at hcase hlays
  refine ⟨b₁ ++ b', ?_⟩
  rcases hcase with ⟨rfl, rfl, hleft⟩ | ⟨rfl, rfl⟩
  · exact ⟨hfill, hcount h.counted, hsame.compress.trans h.compress,
      hsame.pages.trans h.perSegment, hsame.done ▸ h.done, sized_of_le (h.stays hr hleft hlays)⟩
  · obtain ⟨hcomp, hpages⟩ := nextSegment_frame w
    rw [length_nil, Nat.zero_mod] at hlays
    refine ⟨hfill, hcount h.counted, hsame.compress.trans (hcomp.trans h.compress),
      hsame.pages.trans (hpages.trans h.perSegment), ?_, ?_⟩
    · rw [hsame.done, h.filled.nextSegment.1]
      exact forall_mem_append.2 ⟨h.done, by simpa using h.active le_rfl⟩
    · rcases le_or_gt (compressed k c rec).bytes.length (pages * (pageSize - recordHeaderSize))
        with hle | hlt
      · -- alone it needs no more pages than a segment has
        obtain ⟨hstart, hlead, hroom⟩ := page_start
        obtain ⟨m, rfl⟩ : ∃ m, pages = m + 1 := Nat.exists_eq_succ_of_ne_zero (by rintro rfl; omega)
        have hlen := length_le_of_lays hlays (m := m) (by decide) (by
          rw [hroom]
          simp only [pageSize, recordHeaderSize] at *
          omega)
        rw [hstart, hlead, Nat.zero_add, length_nil, Nat.zero_add, Nat.mul_comm] at hlen
        exact fun {_} hj => sized_of_le (b := b') hlen hj
      · have hlaid : Laid 0 [compressed k c rec] ([] ++ b') := by
          simpa using Laid.cons hlays (.nil _)
        exact fun {_} hj => .inr ⟨rec, hmem, ⟨_, hlaid, padded_zeros hj⟩, hlt⟩

/-! ### Runs -/

theorem Bounded.logBatch : ∀ {batch : List (List Byte)} {w : WL} {b : List Byte},
    Bounded k c pages recs w b → (∀ rec ∈ batch, rec ∈ recs ∧ rec ≠ []) →
    (∃ b', Bounded k c pages recs (logBatch k w batch) b') ∧
      ∀ x ∈ batchRooms k w batch, recordHeaderSize ≤ x
  | [], _, b, h, _ => ⟨⟨b, h⟩, by simp [batchRooms]⟩
  | rec :: batch, w, b, h, hrecs => by
    obtain ⟨hrec, hbatch⟩ := forall_mem_cons.1 hrecs
    obtain ⟨b', h'⟩ := h.log hrec.1 hrec.2 batch.isEmpty
    obtain ⟨hlog, hrooms⟩ := h'.logBatch hbatch
    exact ⟨hlog, forall_mem_append.2 ⟨le_of_mem_logRooms h.filled, hrooms⟩⟩

theorem Bounded.logAll : ∀ {calls : List (List (List Byte))} {w : WL} {b : List Byte},
    Bounded k c pages recs w b → (∀ rec ∈ calls.flatten, rec ∈ recs ∧ rec ≠ []) →
    (∃ b', Bounded k c pages recs (logAll k w calls) b') ∧
      ∀ x ∈ allRooms k w calls, recordHeaderSize ≤ x
  | [], _, b, h, _ => ⟨⟨b, h⟩, by simp [allRooms]⟩
  | batch :: calls, w, b, h, hrecs => by
    obtain ⟨hbatch, hcalls⟩ := forall_mem_append.1 hrecs
    obtain ⟨⟨b', h'⟩, hrooms⟩ := h.logBatch hbatch
    obtain ⟨hlog, hrooms'⟩ := h'.logAll hcalls
    exact ⟨hlog, forall_mem_append.2 ⟨hrooms, hrooms'⟩⟩

/-- **The size of segments.** After any calls of `Log` with records that are not empty, every file
has at most the pages of a segment, or a single record that needs more; no fragment was written to a
page without room for its header. -/
theorem logAll_sized (k : Codecs) (pages : ℕ) (c : CompressionType)
    {calls : List (List (List Byte))} (hne : ∀ recs ∈ calls, ∀ rec ∈ recs, rec ≠ []) :
    (∀ file ∈ (logAll k (newSize pages c) calls).files, Sized k c pages calls.flatten file) ∧
      ∀ x ∈ allRooms k (newSize pages c) calls, recordHeaderSize ≤ x := by
  have hnew : Bounded k c pages calls.flatten (newSize pages c) [] :=
    ⟨(filled_nil rfl rfl rfl).1, (filled_nil rfl rfl rfl).2, rfl, rfl, by simp [newSize],
      sized_of_le (Nat.zero_le _)⟩
  have hall : ∀ rec ∈ calls.flatten, rec ∈ calls.flatten ∧ rec ≠ [] := fun rec hrec => by
    obtain ⟨recs, hrecs, hmem⟩ := mem_flatten.1 hrec
    exact ⟨hrec, hne recs hrecs rec hmem⟩
  obtain ⟨⟨b, h⟩, hrooms⟩ := hnew.logAll hall
  obtain ⟨-, -, -, -, hseg⟩ := exists_holds_logAll k pages c calls
  obtain ⟨j, hj, hlead⟩ := exists_lead_eq b.length
  refine ⟨forall_mem_append.2 ⟨h.done, ?_⟩, hrooms⟩
  rw [forall_mem_singleton, hseg, h.filled.content_eq, hlead]
  exact h.active hj

/-- The first record needs more than a page, and the segments have one page. -/
theorem logAll_sized_long :
    (∀ file ∈ (logAll plainCodecs (newSize 1 .none) [[replicate 40000 7], [[7]]]).files,
      Sized plainCodecs .none 1 [replicate 40000 7, [7]] file) ∧
    ∀ x ∈ allRooms plainCodecs (newSize 1 .none) [[replicate 40000 7], [[7]]],
      recordHeaderSize ≤ x := by
  have hne : replicate 40000 (7 : Byte) ≠ [] :=
    ne_of_apply_ne length (by rw [length_replicate]; simp)
  exact logAll_sized plainCodecs 1 .none
    (forall_mem_cons.2 ⟨forall_mem_singleton.2 hne, by simp⟩)

end TopcDB.Wlog.SegmentSize
