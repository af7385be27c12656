import TopcDB.Wlog.Reading

/-! # What is logged is read back

The files of a log hold whole records (`fileOf_logAll`), so that a reader over all of them, or over
one alone, returns the records and ends without an error (`readAll_logAll`). -/

namespace TopcDB.Wlog.RoundTrip

open List Lib.Bits Layout Writer Reading

/-- Zeros a segment ends in are the first of those a reader adds. -/
theorem padded_zeros {b : List Byte} {j : ℕ} (hj : j ≤ gap b.length) :
    padded (b ++ zeros j) = b ++ zeros (gap b.length) := by
  rw [padded, length_append, length_zeros, gap_add hj, append_assoc, ← zeros_add,
    Nat.add_sub_cancel' hj]

theorem exists_lead_eq (n : ℕ) : ∃ j ≤ gap n, lead (n % pageSize) = zeros j := by
  rw [lead]
  split_ifs with hfull
  · refine ⟨_, le_of_eq (gap_of_mod_ne ?_).symm, rfl⟩
    simp only [pageSize, recordHeaderSize] at hfull ⊢
    omega
  · exact ⟨0, Nat.zero_le _, rfl⟩

/-- The parts of a mapped list are the parts of the list, mapped. -/
theorem exists_map_of_flatten {α γ : Type} {f : α → γ} : ∀ {gs : List (List γ)} {l : List α},
    gs.flatten = l.map f → ∃ ls : List (List α), ls.flatten = l ∧ gs = ls.map (map f)
  | [], l, h => ⟨[], by simpa using h, rfl⟩
  | g :: gs, l, h => by
    rw [flatten_cons] at h
    obtain ⟨l₁, l₂, rfl, rfl, h₂⟩ := append_eq_map_iff.1 h
    obtain ⟨ls, hls, rfl⟩ := exists_map_of_flatten h₂.symm
    exact ⟨l₁ :: ls, by rw [flatten_cons, hls], rfl⟩

/-- The bytes of the log's files, as a reader sees them: the finished segments, and the active one
up to where its page stands. -/
theorem laid_logAll (k : Codecs) (pages : ℕ) (c : CompressionType)
    (calls : List (List (List Byte))) : ∃ groups recs b, groups.flatten ++ recs = calls.flatten ∧
      List.Forall₂ (FileOf k c) (logAll k (newSize pages c) calls).done groups ∧
      Laid 0 (recs.map (compressed k c)) b ∧
      (logAll k (newSize pages c) calls).segment = b ++ lead (b.length % pageSize) := by
  obtain ⟨groups, cur, hhold, hall, hseg⟩ := exists_holds_logAll k pages c calls
  obtain ⟨l₁, recs, hcalls, hgroups, rfl⟩ := append_eq_map_iff.1 hall
  obtain ⟨ls, rfl, rfl⟩ := exists_map_of_flatten hgroups.symm
  obtain ⟨b, hlaid, hfill⟩ := hhold.active
  refine ⟨ls, recs, b, hcalls.symm, ?_, hlaid, hseg.trans hfill.content_eq⟩
  refine (forall₂_map_right_iff.1 hhold.done).imp ?_
  rintro file g ⟨b, hb, rfl⟩
  exact ⟨b, hb, padded_zeros le_rfl⟩

theorem fileOf_logAll (k : Codecs) (pages : ℕ) (c : CompressionType)
    (calls : List (List (List Byte))) : ∃ groups, groups.flatten = calls.flatten ∧
      List.Forall₂ (FileOf k c) (logAll k (newSize pages c) calls).files groups := by
  obtain ⟨groups, recs, b, hall, hdone, hlaid, hseg⟩ := laid_logAll k pages c calls
  refine ⟨groups ++ [recs], by rw [flatten_append, flatten_singleton, hall], ?_⟩
  obtain ⟨j, hj, hlead⟩ := exists_lead_eq b.length
  exact rel_append hdone (.cons ⟨b, hlaid, by rw [hseg, hlead, padded_zeros hj]⟩ .nil)

/-- **The round trip.** A reader over the segments of a log returns the records of all calls of
`Log`, in order, and ends without an error; the records of a segment are those that a reader over
that segment alone returns. -/
theorem readAll_logAll (chunk : ℕ → ℕ → ℕ) (k : Codecs) (pages : ℕ) (c : CompressionType)
    (calls : List (List (List Byte))) :
    readAll chunk k (logAll k (newSize pages c) calls).files = (calls.flatten, none) ∧
      ∃ groups, groups.flatten = calls.flatten ∧
        List.Forall₂ (fun file recs => readAll chunk k [file] = (recs, none))
          (logAll k (newSize pages c) calls).files groups := by
  obtain ⟨groups, hall, hfiles⟩ := fileOf_logAll k pages c calls
  refine ⟨by rw [readAll_files chunk k hfiles, hall], groups, hall, ?_⟩
  refine hfiles.imp fun file recs h => ?_
  simpa using readAll_files chunk k (.cons h .nil)

end TopcDB.Wlog.RoundTrip
