import TopcDB.Wlog.Writer

/-! # Reading the log (`reader.go`, `segmentBufReader`)

The segments are read as one stream in which every segment is followed by zeros up to a page
boundary (`pending`); however few bytes a read of a file returns, `io.ReadFull` takes the next bytes
of that stream (`readFull_eq`). The records of a segment come back one by one
(`records_laid`). -/

namespace TopcDB.Wlog.Reading

open List Lib.Bits Layout Writer

/-! ### The stream of the segments -/

/-- `io.EOF` and `io.ErrUnexpectedEOF`. -/
inductive IoErr
  | eof
  | unexpectedEOF
  deriving DecidableEq

/-- `segmentBufReader`: what is left of the current segment, the offset in it, and the segments
after it. -/
structure SegmentBufReader where
  cur : List Byte
  off : ℕ
  later : List (List Byte)

def newSegmentBufReader : List (List Byte) → SegmentBufReader
  | [] => ⟨[], 0, []⟩
  | s :: later => ⟨s, 0, later⟩

-- How many bytes, less one, `bufio` has at hand at an offset of a segment.
variable (chunk : ℕ → ℕ → ℕ)

/-- `segmentBufReader.Read` into a buffer of `n` bytes. -/
def SegmentBufReader.read (n : ℕ) (r : SegmentBufReader) :
    Except IoErr (List Byte) × SegmentBufReader :=
  if r.cur ≠ [] then
    let b := r.cur.take (min n (chunk r.later.length r.off + 1))
    (.ok b, { r with cur := r.cur.drop b.length, off := r.off + b.length })
  else if r.off % pageSize ≠ 0 then
    -- short segments are filled up with zeros
    let i := min n (pageSize - r.off % pageSize)
    (.ok (zeros i), { r with off := r.off + i })
  else
    match r.later with
    | [] => (.error .eof, r)
    | s :: later => (.ok [], ⟨s, 0, later⟩)

/-- The loop of `io.ReadFull`; every read takes a byte or goes to the next segment. -/
def readFullLoop : ℕ → ℕ → List Byte → SegmentBufReader →
    Except IoErr (List Byte) × SegmentBufReader
  | _, 0, acc, r => (.ok acc, r)
  | 0, _ + 1, _, r => (.error .eof, r)
  | fuel + 1, n + 1, acc, r =>
    match r.read chunk (n + 1) with
    | (.error _, r) => (.error (if acc = [] then .eof else .unexpectedEOF), r)
    | (.ok b, r) => readFullLoop fuel (n + 1 - b.length) (acc ++ b) r

/-- `io.ReadFull` of `n` bytes. -/
def readFull (n : ℕ) (r : SegmentBufReader) : Except IoErr (List Byte) × SegmentBufReader :=
  readFullLoop chunk (n + r.later.length + 1) n [] r

/-- A segment as the reader sees it. -/
def padded (s : List Byte) : List Byte := s ++ zeros (gap s.length)

/-- What is still to be read. -/
def SegmentBufReader.pending (r : SegmentBufReader) : List Byte :=
  r.cur ++ (zeros (gap (r.off + r.cur.length)) ++ r.later.flatMap padded)

@[simp] theorem pending_new (files : List (List Byte)) :
    (newSegmentBufReader files).pending = files.flatMap padded := by
  cases files with
  | nil => rfl
  | cons s later => simp [newSegmentBufReader, SegmentBufReader.pending, padded]

variable {n i pos : ℕ}

theorem gap_add (h : i ≤ gap n) : gap (n + i) = gap n - i := by
  simp only [gap, pageSize] at *
  omega

theorem gap_of_mod_ne (h : n % pageSize ≠ 0) : gap n = pageSize - n % pageSize := by
  simp only [gap, pageSize] at *
  omega

theorem gap_of_mod_eq (h : n % pageSize = 0) : gap n = 0 := by
  rw [gap, h, Nat.sub_zero, Nat.mod_self]

theorem zeros_add (m n : ℕ) : zeros (m + n) = zeros m ++ zeros n :=
  replicate_add m n 0

/-- One read: it takes bytes off the stream or goes to the next segment, or all segments are at
their end. -/
theorem read_cases (n : ℕ) (r : SegmentBufReader) :
    (∃ b r', r.read chunk (n + 1) = (.ok b, r') ∧ r.pending = b ++ r'.pending ∧
      b.length ≤ n + 1 ∧ n + 1 - b.length + r'.later.length < n + 1 + r.later.length) ∨
    r.read chunk (n + 1) = (.error .eof, r) ∧ r.pending = [] := by
  rw [SegmentBufReader.read]
  by_cases hcur : r.cur ≠ []
  · left
    rw [if_pos hcur]
    set b := r.cur.take (min (n + 1) (chunk r.later.length r.off + 1)) with hb
    have hpos := length_pos_iff.2 hcur
    have hlen : b.length = min (min (n + 1) (chunk r.later.length r.off + 1)) r.cur.length := by
      rw [hb, length_take]
    refine ⟨b, _, rfl, ?_, by omega, by simp only; omega⟩
    have hsplit : b ++ r.cur.drop b.length = r.cur :=
      prefix_iff_eq_append.1 (List.take_prefix _ _)
    have hoff : r.off + b.length + (r.cur.drop b.length).length = r.off + r.cur.length := by
      rw [length_drop]; omega
    simp only [SegmentBufReader.pending, hoff]
    rw [← append_assoc b, hsplit]
  · have hnil : r.cur = [] := not_not.1 hcur
    rw [if_neg hcur]
    by_cases hoff : r.off % pageSize ≠ 0
    · left
      rw [if_pos hoff]
      refine ⟨_, _, rfl, ?_, by rw [length_zeros]; omega, ?_⟩
      · simp only [SegmentBufReader.pending, hnil, length_nil, Nat.add_zero, nil_append]
        rw [gap_add (by rw [gap_of_mod_ne hoff]; omega), ← append_assoc, ← zeros_add,
          Nat.add_sub_cancel' (by rw [gap_of_mod_ne hoff]; omega)]
      · have := mod_lt r.off
        rw [length_zeros]
        simp only
        omega
    · rw [if_neg hoff]
      have hgap : gap r.off = 0 := gap_of_mod_eq (not_not.1 hoff)
      rcases hlater : r.later with _ | ⟨s, later⟩
      · right
        refine ⟨rfl, ?_⟩
        simp [SegmentBufReader.pending, hnil, hlater, hgap, zeros]
      · left
        refine ⟨[], _, rfl, ?_, by simp, by simp⟩
        simp [SegmentBufReader.pending, hnil, hlater, hgap, zeros, padded]

theorem readFullLoop_eq : ∀ (fuel n : ℕ) (acc : List Byte) (r : SegmentBufReader),
    n + r.later.length < fuel →
    (n ≤ r.pending.length → ∃ r', readFullLoop chunk fuel n acc r =
      (.ok (acc ++ r.pending.take n), r') ∧ r'.pending = r.pending.drop n) ∧
    (r.pending.length < n → ∃ r', readFullLoop chunk fuel n acc r =
      (.error (if acc = [] ∧ r.pending = [] then .eof else .unexpectedEOF), r'))
  | fuel, 0, acc, r, _ => ⟨fun _ => ⟨r, by cases fuel <;> simp [readFullLoop]⟩, fun h => by omega⟩
  | fuel + 1, n + 1, acc, r, hfuel => by
    rw [readFullLoop]
    rcases read_cases chunk n r with ⟨b, r', hread, hpend, hlen, hless⟩ | ⟨hread, hpend⟩
    · obtain ⟨hok, herr⟩ := readFullLoop_eq fuel (n + 1 - b.length) (acc ++ b) r' (by omega)
      rw [hread, hpend, length_append]
      refine ⟨fun hle => ?_, fun hlt => ?_⟩
      · obtain ⟨r'', heq, hrest⟩ := hok (by omega)
        refine ⟨r'', ?_, ?_⟩
        · simp only
          rw [heq, append_assoc, take_append, take_of_length_le (l := b) hlen]
        · rw [hrest, drop_append, drop_eq_nil_of_le hlen, nil_append]
      · obtain ⟨r'', heq⟩ := herr (by omega)
        refine ⟨r'', ?_⟩
        simp only
        rw [heq]
        simp only [append_eq_nil_iff, and_assoc]
    · rw [hread, hpend]
      exact ⟨fun h => absurd h (by simp), fun _ => ⟨r, by simp⟩⟩

variable {b rest rec s six part : List Byte} {r r' : SegmentBufReader}

/-- **`io.ReadFull`** takes the next bytes of the stream. -/
theorem readFull_eq (h : r.pending = b ++ rest) (hn : b.length = n) :
    ∃ r', readFull chunk n r = (.ok b, r') ∧ r'.pending = rest := by
  obtain ⟨r', heq, hrest⟩ := (readFullLoop_eq chunk _ n [] r
    (Nat.lt_succ_self _)).1 (by rw [h, length_append]; omega)
  refine ⟨r', ?_, ?_⟩
  · rw [readFull, heq, h, nil_append, ← hn, take_left]
  · rw [hrest, h, ← hn, drop_left]

theorem readFull_eof (h : r.pending = []) : ∃ r', readFull chunk (n + 1) r = (.error .eof, r') := by
  obtain ⟨r', heq⟩ := (readFullLoop_eq chunk _ (n + 1) [] r
    (Nat.lt_succ_self _)).2 (by rw [h]; simp)
  exact ⟨r', by rw [readFull, heq]; simp [h]⟩

theorem length_of_readFull (h : readFull chunk n r = (.ok b, r')) :
    r'.pending.length + n = r.pending.length := by
  obtain ⟨hok, herr⟩ := readFullLoop_eq chunk _ n [] r (Nat.lt_succ_self _)
  rcases le_or_gt n r.pending.length with hle | hlt
  · obtain ⟨r'', heq, hrest⟩ := hok hle
    rw [readFull, heq, nil_append] at h
    cases h
    rw [hrest, length_drop]
    omega
  · obtain ⟨r'', heq⟩ := herr hlt
    rw [readFull, heq] at h
    cases h

/-! ### Fragments -/

/-- The errors of `Reader.next`; `stuck` is the bound of its loop, which no run reaches. -/
inductive ReadErr
  | firstHeaderByte (e : IoErr)
  | remainingZeros (e : IoErr)
  | nonZeroByte
  | remainingHeader (e : IoErr)
  | recordSize (n : ℕ)
  | payload (e : IoErr)
  | checksum (got want : ℕ)
  | unexpected (typ : Option RecType)
  | decode
  | stuck
  deriving DecidableEq

/-- `errors.Is(err, io.EOF)`. -/
def ReadErr.isEOF : ReadErr → Bool
  | .firstHeaderByte e | .remainingZeros e | .remainingHeader e | .payload e => e = .eof
  | _ => false

/-- `Reader`, without the record it returns. -/
structure Reader where
  rdr : SegmentBufReader
  total : ℕ
  curRecTyp : Option RecType

def newReader (files : List (List Byte)) : Reader :=
  ⟨newSegmentBufReader files, 0, some .pageTerm⟩

/-- What one pass of the loop of `next` reads: the end of a page, or a fragment with the first byte
of its header. -/
inductive Fragment
  | pad
  | part (header : Byte) (b : List Byte)

/-- The zeros behind a `recPageTerm`, up to the page boundary. -/
def skipZeros (r : Reader) : Except ReadErr Fragment × Reader :=
  let k := pageSize - r.total % pageSize
  if k = pageSize then (.ok .pad, r)
  else
    match readFull chunk k r.rdr with
    | (.error e, rdr) => (.error (.remainingZeros e), { r with rdr := rdr })
    | (.ok b, rdr) =>
      let r := { r with rdr := rdr, total := r.total + b.length }
      if b.any (· ≠ 0) then (.error .nonZeroByte, r) else (.ok .pad, r)

/-- The rest of the header, and the fragment. -/
def readPart (header : Byte) (r : Reader) : Except ReadErr Fragment × Reader :=
  match readFull chunk (recordHeaderSize - 1) r.rdr with
  | (.error e, rdr) => (.error (.remainingHeader e), { r with rdr := rdr })
  | (.ok hdr, rdr) =>
    let r := { r with rdr := rdr, total := r.total + hdr.length }
    let length := beNat (hdr.take 2)
    let crc := beNat (hdr.drop 2)
    if length > pageSize - recordHeaderSize then (.error (.recordSize length), r)
    else
      match readFull chunk length r.rdr with
      | (.error e, rdr) => (.error (.payload e), { r with rdr := rdr })
      | (.ok b, rdr) =>
        let r := { r with rdr := rdr, total := r.total + b.length }
        if (checksum b).toNat ≠ crc then (.error (.checksum (checksum b).toNat crc), r)
        else (.ok (.part header b), r)

def readFragment (r : Reader) : Except ReadErr Fragment × Reader :=
  match readFull chunk 1 r.rdr with
  | (.error e, rdr) => (.error (.firstHeaderByte e), { r with rdr := rdr })
  | (.ok hdr, rdr) =>
    let header := hdr.headD 0
    let r := ⟨rdr, r.total + 1, recTypeFromHeader header⟩
    if r.curRecTyp = some .pageTerm then skipZeros chunk r else readPart chunk header r

/-! ### Records -/

variable (k : Codecs)

def validateRecord (typ : Option RecType) (i : ℕ) : Bool :=
  match typ with
  | some .full | some .first => i = 0
  | some .middle | some .last => i ≠ 0
  | _ => false

/-- A fragment's bytes go to `r.compressBuf` or to `r.rec`. -/
def collect (c : CompressionType) (b : List Byte) (bufs : List Byte × List Byte) :
    List Byte × List Byte :=
  if c = .none then (bufs.1 ++ b, bufs.2) else (bufs.1, bufs.2 ++ b)

/-- The record, by the compression in the last fragment's header. -/
def decodeRecord (c : CompressionType) (bufs : List Byte × List Byte) :
    Except ReadErr (List Byte) :=
  let run (d : Codec) :=
    if bufs.2 = [] then .ok bufs.1
    else
      match d.decode bufs.2 with
      | some rec => .ok rec
      | none => .error .decode
  match c with
  | .snappy => run k.snappy
  | .zstd => run k.zstd
  | .none => .ok bufs.1

/-- The loop of `next`; `bufs` are `r.rec` and `r.compressBuf`. -/
def nextLoop : ℕ → ℕ → List Byte × List Byte → Reader →
    Except ReadErr (List Byte) × Reader
  | 0, _, _, r => (.error .stuck, r)
  | fuel + 1, i, bufs, r =>
    match readFragment chunk r with
    | (.error e, r) => (.error e, r)
    | (.ok .pad, r) => nextLoop fuel i bufs r
    | (.ok (.part header b), r) =>
      let c := compressionOf header
      if validateRecord r.curRecTyp i = false then (.error (.unexpected r.curRecTyp), r)
      else if r.curRecTyp = some .last ∨ r.curRecTyp = some .full then
        (decodeRecord k c (collect c b bufs), r)
      else nextLoop fuel (i + 1) (collect c b bufs) r

def Reader.size (r : Reader) : ℕ := r.rdr.pending.length

def next (r : Reader) : Except ReadErr (List Byte) × Reader :=
  nextLoop chunk k (r.size + 1) 0 ([], []) r

/-- `Reader.Err`: "last record is torn", or an error of `next`. -/
inductive Err
  | torn
  | read (e : ReadErr)
  deriving DecidableEq

/-- `Reader.Next` that returned false for the error `e`. -/
def errOf (e : ReadErr) (r : Reader) : Option Err :=
  if e.isEOF then
    if r.curRecTyp = some .first ∨ r.curRecTyp = some .middle then some .torn else none
  else some (.read e)

/-- `Next` until it returns false: the records, and `Err` at the end. -/
def recordsLoop : ℕ → Reader → List (List Byte) × Option Err
  | 0, _ => ([], some (.read .stuck))
  | fuel + 1, r =>
    match next chunk k r with
    | (.error e, r) => ([], errOf e r)
    | (.ok rec, r) => ((rec :: (recordsLoop fuel r).1), (recordsLoop fuel r).2)

def records (r : Reader) : List (List Byte) × Option Err :=
  recordsLoop chunk k (r.size + 1) r

/-- A `Reader` over the segments. -/
def readAll (files : List (List Byte)) : List (List Byte) × Option Err :=
  records chunk k (newReader files)

/-! ### Enough passes -/

variable {r r' : Reader}

theorem size_readFragment {f : Fragment} (h : readFragment chunk r = (.ok f, r')) :
    r'.size < r.size := by
  rw [readFragment] at h
  rcases hread : readFull chunk 1 r.rdr with ⟨_ | hdr, rdr⟩
  · simp [hread] at h
  · have hlen := length_of_readFull chunk hread
    unfold Reader.size
    simp only [hread] at h
    split_ifs at h
    · -- the end of a page
      rw [skipZeros] at h
      simp only at h
      split_ifs at h
      · cases h; simp only; omega
      · rcases hread₂ : readFull chunk (pageSize - (r.total + 1) % pageSize) rdr with ⟨_ | b, rdr₂⟩
        · simp [hread₂] at h
        · have hlen₂ := length_of_readFull chunk hread₂
          simp only [hread₂] at h
          split_ifs at h
          · cases h
          · cases h
            simp only
            omega
    · rw [readPart] at h
      rcases hread₂ : readFull chunk (recordHeaderSize - 1) rdr with ⟨_ | six, rdr₂⟩
      · simp [hread₂] at h
      · have hlen₂ := length_of_readFull chunk hread₂
        simp only [hread₂] at h
        split_ifs at h
        · cases h
        · rcases hread₃ : readFull chunk (beNat (six.take 2)) rdr₂ with ⟨_ | b, rdr₃⟩
          · simp [hread₃] at h
          · have hlen₃ := length_of_readFull chunk hread₃
            simp only [hread₃] at h
            split_ifs at h
            · cases h
            · cases h
              simp only
              omega

theorem nextLoop_fuel : ∀ {m n i : ℕ} {bufs : List Byte × List Byte} {r : Reader},
    r.size < m → r.size < n → nextLoop chunk k m i bufs r = nextLoop chunk k n i bufs r
  | m + 1, n + 1, i, bufs, r, hm, hn => by
    rw [nextLoop, nextLoop]
    rcases hread : readFragment chunk r with ⟨e | _ | ⟨header, b⟩, r'⟩
    · rfl
    · have := size_readFragment chunk hread
      exact nextLoop_fuel (by omega) (by omega)
    · have := size_readFragment chunk hread
      simp only
      split_ifs
      · rfl
      · rfl
      · exact nextLoop_fuel (by omega) (by omega)

theorem size_nextLoop : ∀ {n i : ℕ} {bufs : List Byte × List Byte} {r r' : Reader}
    {rec : List Byte}, nextLoop chunk k n i bufs r = (.ok rec, r') → r'.size < r.size
  | n + 1, i, bufs, r, r', rec, h => by
    rw [nextLoop] at h
    rcases hread : readFragment chunk r with ⟨e | _ | ⟨header, b⟩, r₁⟩
    · simp [hread] at h
    · rw [hread] at h
      exact (size_nextLoop h).trans (size_readFragment chunk hread)
    · have hless := size_readFragment chunk hread
      simp only [hread] at h
      split_ifs at h
      · cases h
      · cases congrArg Prod.snd h
        exact hless
      · exact (size_nextLoop h).trans hless

theorem recordsLoop_fuel : ∀ {m n : ℕ} {r : Reader},
    r.size < m → r.size < n → recordsLoop chunk k m r = recordsLoop chunk k n r
  | m + 1, n + 1, r, hm, hn => by
    rw [recordsLoop, recordsLoop]
    rcases hnext : next chunk k r with ⟨e | rec, r'⟩
    · rfl
    · have := size_nextLoop chunk k hnext
      simp only
      rw [recordsLoop_fuel (m := m) (n := n) (by omega) (by omega)]

theorem records_of_error {k : Codecs} {e : ReadErr} (h : next chunk k r = (.error e, r')) :
    records chunk k r = ([], errOf e r') := by
  rw [records, recordsLoop, h]

theorem records_of_ok {k : Codecs} (h : next chunk k r = (.ok rec, r')) :
    records chunk k r = (rec :: (records chunk k r').1, (records chunk k r').2) := by
  have := size_nextLoop chunk k h
  rw [records, recordsLoop, h]
  simp only
  rw [records, recordsLoop_fuel chunk k (m := r.size) (n := r'.size + 1) (by omega) (by omega)]

/-! ### Reading what is laid out -/

/-- The reader stands before `s`, at the position `pos` of a page. -/
structure At (r : Reader) (s : List Byte) (pos : ℕ) : Prop where
  pending : r.rdr.pending = s
  pos : r.total % pageSize = pos

theorem At.readFragment_pad (hpos : 0 < pos) (h : At r (zeros (pageSize - pos) ++ s) pos) :
    ∃ r', readFragment chunk r = (.ok .pad, r') ∧ At r' s 0 ∧ r'.curRecTyp = some .pageTerm := by
  have hlt : pos < pageSize := h.pos ▸ mod_lt _
  obtain ⟨m, hm⟩ : ∃ m, pageSize - pos = m + 1 := ⟨pageSize - pos - 1, by omega⟩
  obtain ⟨rdr₁, hread₁, hpend₁⟩ := readFull_eq chunk (b := [0]) (n := 1) (r := r.rdr)
    (by rw [h.pending, hm]; rfl) rfl
  have htyp : recTypeFromHeader 0 = some .pageTerm := by decide
  have htotal : (r.total + 1) % pageSize = (pos + 1) % pageSize := by
    rw [Nat.add_mod, h.pos, Nat.add_mod_mod]
  rw [readFragment, hread₁]
  simp only [headD_cons, htyp, if_true, skipZeros, htotal]
  rcases Nat.eq_zero_or_pos m with rfl | hmpos
  · -- the byte was the last one of the page
    have hlast : (pos + 1) % pageSize = 0 := by rw [show pos + 1 = pageSize by omega, Nat.mod_self]
    rw [hlast, Nat.sub_zero, if_pos rfl]
    exact ⟨_, rfl, ⟨hpend₁, by rw [htotal, hlast]⟩, rfl⟩
  · have hmod : (pos + 1) % pageSize = pos + 1 := Nat.mod_eq_of_lt (by omega)
    rw [hmod, if_neg (by omega), show pageSize - (pos + 1) = m by omega]
    obtain ⟨rdr₂, hread₂, hpend₂⟩ := readFull_eq chunk hpend₁ (length_zeros m)
    rw [hread₂]
    simp only
    rw [if_neg (by simp)]
    refine ⟨_, rfl, ⟨hpend₂, ?_⟩, rfl⟩
    show (r.total + 1 + (zeros m).length) % pageSize = 0
    rw [length_zeros, Nat.add_mod, htotal, hmod, Nat.add_mod_mod,
      show pos + 1 + m = pageSize by omega, Nat.mod_self]

/-- A fragment: it is taken if its checksum is the one in the header. -/
theorem At.readFragment_part {header : Byte} (htyp : recTypeFromHeader header ≠ some .pageTerm)
    (hsix : six.length = 6) (hlen : beNat (six.take 2) = b.length)
    (hle : b.length ≤ pageSize - recordHeaderSize) (h : At r (header :: (six ++ (b ++ s))) pos) :
    ∃ r', readFragment chunk r =
        (if (checksum b).toNat = beNat (six.drop 2) then .ok (.part header b)
          else .error (.checksum (checksum b).toNat (beNat (six.drop 2))), r') ∧
      At r' s ((pos + (recordHeaderSize + b.length)) % pageSize) ∧
      r'.curRecTyp = recTypeFromHeader header := by
  obtain ⟨rdr₁, hread₁, hpend₁⟩ := readFull_eq chunk (b := [header]) (n := 1) (r := r.rdr)
    h.pending rfl
  obtain ⟨rdr₂, hread₂, hpend₂⟩ := readFull_eq chunk (n := recordHeaderSize - 1) hpend₁ hsix
  obtain ⟨rdr₃, hread₃, hpend₃⟩ := readFull_eq chunk (n := beNat (six.take 2)) hpend₂ hlen.symm
  rw [readFragment, hread₁]
  simp only [headD_cons, if_neg htyp, readPart, hread₂]
  rw [if_neg (by omega), hread₃]
  refine ⟨⟨rdr₃, r.total + 1 + six.length + b.length, recTypeFromHeader header⟩, ?_,
    ⟨hpend₃, ?_⟩, rfl⟩
  · by_cases hsum : (checksum b).toNat = beNat (six.drop 2)
    · simp [hsum]
    · simp [hsum]
  · show (r.total + 1 + six.length + b.length) % pageSize = _
    rw [hsix, ← h.pos, Nat.mod_add_mod, recordHeaderSize]
    congr 1
    omega

theorem At.readFragment_eof (h : At r [] pos) :
    ∃ r', readFragment chunk r = (.error (.firstHeaderByte .eof), r') ∧
      r'.curRecTyp = r.curRecTyp := by
  obtain ⟨rdr, hread⟩ := readFull_eof chunk (n := 0) h.pending
  exact ⟨{ r with rdr := rdr }, by rw [readFragment, hread], rfl⟩

variable {c : CompressionType}

theorem At.readFragment_fragment {typ : RecType} (htyp : typ ≠ .pageTerm)
    (hle : part.length ≤ pageSize - recordHeaderSize) (h : At r (fragment c typ part ++ s) pos) :
    ∃ r', readFragment chunk r = (.ok (.part (firstByte c typ) part), r') ∧
      At r' s ((pos + (fragment c typ part).length) % pageSize) ∧ r'.curRecTyp = some typ := by
  have hsix : (lengthAndSum part).take 2 = beBytes 2 part.length ∧
      (lengthAndSum part).drop 2 = beBytes 4 (checksum part).toNat :=
    ⟨take_left' (length_beBytes _ _), drop_left' (length_beBytes _ _)⟩
  have hlen : beNat ((lengthAndSum part).take 2) = part.length := by
    rw [hsix.1, beNat_beBytes, Nat.mod_eq_of_lt (by simp only [pageSize] at hle; omega)]
  have hsum : (checksum part).toNat = beNat ((lengthAndSum part).drop 2) := by
    rw [hsix.2, beNat_beBytes, Nat.mod_eq_of_lt (checksum part).isLt]
  rw [fragment, cons_append, append_assoc] at h
  obtain ⟨r', hread, hat, hcur⟩ := h.readFragment_part chunk
    (by rw [recTypeFromHeader_firstByte]; exact fun he => htyp (Option.some.inj he))
    (length_lengthAndSum part) hlen hle
  rw [if_pos hsum] at hread
  rw [recTypeFromHeader_firstByte] at hcur
  exact ⟨r', hread, by rwa [length_fragment], hcur⟩

theorem collect_collect (c : CompressionType) (b b' : List Byte) (bufs : List Byte × List Byte) :
    collect c b' (collect c b bufs) = collect c (b ++ b') bufs := by
  simp only [collect]
  split_ifs <;> simp

theorem At.nextLoop_lead (i : ℕ) (bufs : List Byte × List Byte) (hpos : pos < pageSize)
    (hn : (lead pos).length < n) (h : At r (lead pos ++ s) pos) :
    ∃ r' m, nextLoop chunk k n i bufs r = nextLoop chunk k (m + 1) i bufs r' ∧
      At r' s (start pos) ∧ n ≤ m + 1 + (lead pos).length := by
  rw [lead] at h hn ⊢
  rw [start]
  split_ifs at h hn ⊢ with hfull
  · rw [length_zeros] at hn ⊢
    obtain ⟨m, rfl⟩ : ∃ m, n = m + 1 + 1 := ⟨n - 2, by omega⟩
    obtain ⟨r', hread, hat, -⟩ := h.readFragment_pad chunk
      (by simp only [pageSize, recordHeaderSize] at hfull; omega)
    exact ⟨r', m, by rw [nextLoop, hread], hat, by omega⟩
  · obtain ⟨m, rfl⟩ : ∃ m, n = m + 1 := ⟨n - 1, by rw [length_nil] at hn; omega⟩
    exact ⟨r, m, rfl, h, by simp⟩

theorem nextLoop_part {typ : RecType} (bufs : List Byte × List Byte)
    (h : readFragment chunk r = (.ok (.part (firstByte c typ) b), r'))
    (htyp : r'.curRecTyp = some typ) (hvalid : validateRecord (some typ) i = true) :
    nextLoop chunk k (n + 1) i bufs r =
      if typ = .last ∨ typ = .full then (decodeRecord k c (collect c b bufs), r')
      else nextLoop chunk k n (i + 1) (collect c b bufs) r' := by
  rw [nextLoop, h]
  simp only [compressionOf_firstByte, htyp, hvalid, Bool.true_eq_false, if_false,
    Option.some.injEq]

/-- The types that the fragments of a record have pass the check of their order. -/
theorem validateRecord_types {fst : Bool} (hfst : fst = decide (i = 0)) :
    validateRecord (some (if fst then .full else .last)) i = true ∧
      validateRecord (some (if fst then .first else .middle)) i = true := by
  rw [hfst]
  by_cases hi : i = 0 <;> simp [hi, validateRecord]

/-- **A record** is put together from its fragments. -/
theorem At.nextLoop_lays {fst : Bool} (hl : Lays c pos fst rec b) :
    ∀ {n i : ℕ} {bufs : List Byte × List Byte}
    {r : Reader} {s : List Byte}, fst = decide (i = 0) → pos < pageSize → b.length ≤ n →
    At r (b ++ s) pos →
    ∃ r', nextLoop chunk k n i bufs r = (decodeRecord k c (collect c rec bufs), r') ∧
      At r' s ((pos + b.length) % pageSize) ∧
      (r'.curRecTyp = some .full ∨ r'.curRecTyp = some .last) := by
  induction hl with
  | @last pos fst rec hle =>
    intro n i bufs r s hfst hpos hn h
    rw [length_append, length_fragment] at hn
    rw [append_assoc] at h
    obtain ⟨r₁, m, hskip, hat, -⟩ := h.nextLoop_lead chunk k (n := n) i bufs hpos
      (by rw [recordHeaderSize] at hn; omega)
    have hroom : rec.length ≤ pageSize - recordHeaderSize := hle.trans (by rw [room]; omega)
    obtain ⟨r₂, hread, hat₂, htyp⟩ := hat.readFragment_fragment chunk
      (by split_ifs <;> decide) hroom
    refine ⟨r₂, ?_, ?_, by rw [htyp]; split_ifs <;> simp⟩
    · rw [hskip, nextLoop_part chunk k bufs hread htyp (validateRecord_types hfst).1,
        if_pos (by split_ifs <;> simp)]
    · rwa [lead_append_mod (Nat.mod_eq_of_lt hpos)]
  | @more pos fst rec b hlt hb ih =>
    intro n i bufs r s hfst hpos hn h
    rw [length_append, length_append, length_fragment] at hn
    rw [append_assoc, append_assoc] at h
    obtain ⟨r₁, m, hskip, hat, hm⟩ := h.nextLoop_lead chunk k (n := n) i bufs hpos
      (by rw [recordHeaderSize] at hn; omega)
    have hpart : (rec.take (room pos)).length = room pos := by rw [length_take]; omega
    obtain ⟨r₂, hread, hat₂, htyp⟩ := hat.readFragment_fragment chunk
      (by split_ifs <;> decide) (by rw [hpart, room]; omega)
    rw [length_fragment, hpart, start_add_room hpos, Nat.mod_self] at hat₂
    obtain ⟨r₃, hloop, hat₃, htyp₃⟩ := @ih m (i + 1) (collect c (rec.take (room pos)) bufs) r₂ s
      (by simp) (by decide) (by rw [recordHeaderSize] at hn; omega) hat₂
    refine ⟨r₃, ?_, ?_, htyp₃⟩
    · rw [hskip, nextLoop_part chunk k bufs hread htyp (validateRecord_types hfst).2,
        if_neg (by split_ifs <;> simp), hloop, collect_collect, take_append_drop]
    · rwa [lead_append_mod (Nat.mod_eq_of_lt hpos), length_append, length_fragment, hpart,
        ← Nat.add_assoc, start_add_room hpos, Nat.add_mod_left, ← Nat.zero_add b.length]

theorem decode_compressed (c : CompressionType) (rec : List Byte) :
    decodeRecord k (compressed k c rec).compression
      (collect (compressed k c rec).compression (compressed k c rec).bytes ([], [])) = .ok rec := by
  have hrun : ∀ d : Codec, 0 < rec.length → d.encode rec ≠ [] := fun d h =>
    d.encode_ne_nil rec (length_pos_iff.1 h)
  cases c with
  | none => rfl
  | snappy =>
    rw [compressed]
    split_ifs with h
    · simp [decodeRecord, collect, hrun k.snappy h.1, k.snappy.decode_encode]
    · rfl
  | zstd =>
    rw [compressed]
    split_ifs with h
    · simp [decodeRecord, collect, hrun k.zstd h.1, k.zstd.decode_encode]
    · rfl

/-- The reader is not within a record. -/
def Whole (r : Reader) : Prop := r.curRecTyp ≠ some .first ∧ r.curRecTyp ≠ some .middle

/-- **The records of a segment**, in order. -/
theorem At.records_laid (c : CompressionType) : ∀ {recs : List (List Byte)} {pos : ℕ}
    {b s : List Byte} {r : Reader}, Laid pos (recs.map (compressed k c)) b → pos < pageSize →
    At r (b ++ s) pos → Whole r →
    ∃ r', At r' s ((pos + b.length) % pageSize) ∧ Whole r' ∧
      records chunk k r = (recs ++ (records chunk k r').1, (records chunk k r').2)
  | [], pos, _, s, r, .nil _, hpos, h, hr =>
    ⟨r, by simpa [Nat.mod_eq_of_lt hpos] using h, hr, rfl⟩
  | rec :: recs, pos, _, s, r, .cons hl hs, hpos, h, _ => by
    rw [append_assoc] at h
    obtain ⟨r₁, hnext, hat, htyp⟩ := h.nextLoop_lays chunk k hl (n := r.size + 1) (i := 0)
      rfl hpos (by rw [Reader.size, h.pending, length_append]; omega)
    rw [decode_compressed] at hnext
    have hwhole : Whole r₁ := by
      rcases htyp with htyp | htyp <;> simp [Whole, htyp]
    obtain ⟨r₂, hat₂, hwhole₂, hrecs⟩ := hat.records_laid c hs (mod_lt _) hwhole
    refine ⟨r₂, by rwa [Nat.mod_add_mod, Nat.add_assoc, ← length_append] at hat₂, hwhole₂, ?_⟩
    rw [records_of_ok chunk hnext, hrecs]
    rfl

theorem records_congr {k : Codecs} (h : next chunk k r = next chunk k r') :
    records chunk k r = records chunk k r' := by
  rcases hnext : next chunk k r' with ⟨e | rec, r₁⟩
  · rw [records_of_error chunk (h.trans hnext), records_of_error chunk hnext]
  · rw [records_of_ok chunk (h.trans hnext), records_of_ok chunk hnext]

theorem At.records_zeros (h : At r (zeros (gap n) ++ s) (n % pageSize)) (hr : Whole r)
    : ∃ r', At r' s 0 ∧ Whole r' ∧ records chunk k r = records chunk k r' := by
  by_cases hn : n % pageSize = 0
  · rw [gap_of_mod_eq hn, hn] at h
    exact ⟨r, h, hr, rfl⟩
  · rw [gap_of_mod_ne hn] at h
    obtain ⟨r', hread, hat, htyp⟩ := h.readFragment_pad chunk (Nat.pos_of_ne_zero hn)
    refine ⟨r', hat, by simp [Whole, htyp], records_congr chunk ?_⟩
    have hless := size_readFragment chunk hread
    rw [next, nextLoop, hread, next]
    exact nextLoop_fuel chunk k hless (Nat.lt_succ_self _)

theorem At.records_nil (h : At r [] pos) (hr : Whole r) :
    records chunk k r = ([], none) := by
  obtain ⟨r', hread, htyp⟩ := h.readFragment_eof chunk
  have hnext : next chunk k r = (.error (.firstHeaderByte .eof), r') := by
    rw [next, nextLoop, hread]
  rw [records_of_error chunk hnext, errOf, if_pos (by simp [ReadErr.isEOF]),
    if_neg (by rw [htyp]; exact not_or.2 hr)]

/-- The file holds the records, as a reader sees it. -/
def FileOf (c : CompressionType) (file : List Byte) (recs : List (List Byte)) : Prop :=
  ∃ b, Laid 0 (recs.map (compressed k c)) b ∧ padded file = b ++ zeros (gap b.length)

variable {files : List (List Byte)} {groups : List (List (List Byte))}
  (hf : List.Forall₂ (FileOf k c) files groups)
include hf

/-- **The records of the segments.** -/
theorem At.records_files (h : At r (files.flatMap padded ++ s) 0) (hr : Whole r) :
    ∃ r', At r' s 0 ∧ Whole r' ∧
      records chunk k r = (groups.flatten ++ (records chunk k r').1, (records chunk k r').2) := by
  induction hf generalizing r with
  | nil => exact ⟨r, h, hr, rfl⟩
  | @cons file recs files groups hfile _ ih =>
    obtain ⟨b, hlaid, hpad⟩ := hfile
    rw [flatMap_cons, hpad, append_assoc, append_assoc] at h
    obtain ⟨r₁, hat₁, hr₁, hrecs₁⟩ := h.records_laid chunk k c hlaid (by decide) hr
    rw [Nat.zero_add] at hat₁
    obtain ⟨r₂, hat₂, hr₂, hrecs₂⟩ := hat₁.records_zeros chunk k hr₁
    obtain ⟨r₃, hat₃, hr₃, hrecs₃⟩ := ih hat₂ hr₂
    refine ⟨r₃, hat₃, hr₃, ?_⟩
    rw [hrecs₁, hrecs₂, hrecs₃, flatten_cons, append_assoc]

/-- **The reader.** Segments that hold records are read to their end without an error. -/
theorem readAll_files : readAll chunk k files = (groups.flatten, none) := by
  have hat : At (newReader files) (files.flatMap padded ++ []) 0 :=
    ⟨by simp [newReader], rfl⟩
  obtain ⟨r', hat', hr', hrecs⟩ := hat.records_files chunk k hf (by simp [Whole, newReader])
  rw [readAll, hrecs, hat'.records_nil chunk k hr', append_nil]

end TopcDB.Wlog.Reading
