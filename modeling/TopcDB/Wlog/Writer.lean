import TopcDB.Wlog.Layout

/-! # Writing the log (`wlog.go`)

`WL` with its active page and its segments' files. After any calls of `Log` every file holds whole
records (`holds_logAll`): the files that are finished up to a page boundary, the active one up to
what its page still keeps. -/

namespace TopcDB.Wlog.Writer

open List Lib.Bits Layout

/-- A compression, as a pair of inverse functions. -/
structure Codec where
  encode : List Byte → List Byte
  decode : List Byte → Option (List Byte)
  decode_encode : ∀ rec, decode (encode rec) = some rec
  /-- Both formats begin with a header. -/
  encode_ne_nil : ∀ rec, rec ≠ [] → encode rec ≠ []

/-- The compressions of the log; `snappyFits` tells whether `snappy.MaxEncodedLen` of a length is
not negative. -/
structure Codecs where
  snappy : Codec
  zstd : Codec
  snappyFits : ℕ → Bool

/-- No compression that makes anything shorter. -/
def plainCodecs : Codecs :=
  let d : Codec := ⟨id, some, fun _ => rfl, fun _ h => h⟩
  ⟨d, d, fun _ => true⟩

/-- `page`, with its buffer up to `alloc`; behind that it is zero. -/
structure Page where
  buf : List Byte
  flushed : ℕ

def Page.alloc (p : Page) : ℕ := p.buf.length

def Page.remaining (p : Page) : ℕ := pageSize - p.alloc

def Page.full (p : Page) : Bool := pageSize - p.alloc < recordHeaderSize

def Page.reset : Page := ⟨[], 0⟩

/-- `WL`, with the files of the segments before the active one and the active one's. -/
structure WL where
  compress : CompressionType
  pagesPerSegment : ℕ
  done : List (List Byte)
  segment : List Byte
  donePages : ℕ
  page : Page

/-- `NewSize` over an empty directory. -/
def newSize (pagesPerSegment : ℕ) (compress : CompressionType) : WL :=
  ⟨compress, pagesPerSegment, [], [], 0, .reset⟩

def WL.files (w : WL) : List (List Byte) := w.done ++ [w.segment]

def flushPage (forceClear : Bool) (w : WL) : WL :=
  let p := w.page
  if forceClear || p.full then
    { w with
      segment := w.segment ++ (p.buf ++ zeros p.remaining).drop p.flushed
      page := .reset
      donePages := w.donePages + 1 }
  else
    { w with
      segment := w.segment ++ p.buf.drop p.flushed
      page := { p with flushed := p.flushed + (p.buf.drop p.flushed).length } }

def nextSegment (w : WL) : WL :=
  let w := if w.page.alloc > 0 then flushPage true w else w
  { w with done := w.done ++ [w.segment], segment := [], donePages := 0 }

/-- The record as `log` writes it. -/
def compressed (k : Codecs) (compress : CompressionType) (rec : List Byte) : Body :=
  match compress with
  | .snappy =>
    if 0 < rec.length ∧ k.snappyFits rec.length ∧ (k.snappy.encode rec).length < rec.length then
      ⟨.snappy, k.snappy.encode rec⟩
    else ⟨.none, rec⟩
  | .zstd =>
    if 0 < rec.length ∧ (k.zstd.encode rec).length < rec.length then ⟨.zstd, k.zstd.encode rec⟩
    else ⟨.none, rec⟩
  | .none => ⟨.none, rec⟩

/-- The type of the `i`-th fragment. -/
def fragmentType (i : ℕ) (whole : Bool) : RecType :=
  if i = 0 ∧ whole then .full
  else if whole then .last
  else if i = 0 then .first
  else .middle

/-- One pass of the loop of `log`: a fragment into the page. -/
def writeFragment (c : CompressionType) (i : ℕ) (rec : List Byte) (w : WL) : WL :=
  let p := w.page
  let l := min rec.length (pageSize - p.alloc - recordHeaderSize)
  let part := rec.take l
  let typ := fragmentType i (part.length = rec.length)
  let w := { w with page := { p with buf := p.buf ++ fragment c typ part } }
  if w.page.full then flushPage true w else w

/-- The loop of `log`. A pass writes no byte only when the page has room for the header alone, so
that `rec.length + 1` passes are enough. -/
def writeLoop (c : CompressionType) : ℕ → ℕ → List Byte → WL → WL
  | 0, _, _, w => w
  | n + 1, i, rec, w =>
    let l := min rec.length (pageSize - w.page.alloc - recordHeaderSize)
    let w := writeFragment c i rec w
    if 0 < (rec.drop l).length then writeLoop c n (i + 1) (rec.drop l) w else w

def log (k : Codecs) (w : WL) (rec : List Byte) (final : Bool) : WL :=
  let w := if w.page.full then flushPage true w else w
  let b := compressed k w.compress rec
  let left : ℤ := (w.page.remaining : ℤ) - recordHeaderSize +
    ((pageSize : ℤ) - recordHeaderSize) * ((w.pagesPerSegment : ℤ) - w.donePages - 1)
  let w := if b.bytes.length > left then nextSegment w else w
  let w := writeLoop b.compression (b.bytes.length + 1) 0 b.bytes w
  if final ∧ 0 < w.page.alloc then flushPage false w else w

/-- `WL.Log`. -/
def logBatch (k : Codecs) : WL → List (List Byte) → WL
  | w, [] => w
  | w, rec :: recs => logBatch k (log k w rec recs.isEmpty) recs

def logAll (k : Codecs) (w : WL) (calls : List (List (List Byte))) : WL :=
  calls.foldl (logBatch k) w

/-! ### The bytes of the active segment -/

/-- What is in the active file, and what the page still keeps from it. -/
def WL.content (w : WL) : List Byte := w.segment ++ w.page.buf.drop w.page.flushed

/-- The page flushed from the start on, and with room for a header. -/
structure Ready (w : WL) : Prop where
  flushed_le : w.page.flushed ≤ w.page.alloc
  alloc_le : w.page.alloc + recordHeaderSize ≤ pageSize

/-- `b` was written to the active segment: the page stands where the next fragment starts, behind
the zeros. -/
structure Filled (w : WL) (b : List Byte) : Prop extends Ready w where
  content_eq : w.content = b ++ lead (b.length % pageSize)
  alloc_eq : w.page.alloc = start (b.length % pageSize)

variable {w : WL}

theorem content_flush_force (h : w.page.flushed ≤ w.page.alloc) :
    (flushPage true w).content = w.content ++ zeros w.page.remaining := by
  simp only [flushPage, Bool.true_or, if_true, WL.content, Page.reset, drop_nil,
    append_nil]
  rw [drop_append_of_le_length h, append_assoc]

theorem flush_force (w : WL) : (flushPage true w).page = .reset ∧
    (flushPage true w).segment = (flushPage true w).content := by
  simp [flushPage, WL.content, Page.reset]

/-- The pages of the active segment are counted. -/
def WL.Counted (w : WL) : Prop := w.content.length = w.donePages * pageSize + w.page.alloc

theorem counted_flush_force (h : w.page.flushed ≤ w.page.alloc) (hle : w.page.alloc ≤ pageSize)
    (hc : w.Counted) : (flushPage true w).Counted := by
  have hdone : (flushPage true w).donePages = w.donePages + 1 := by simp [flushPage]
  have halloc : (flushPage true w).page.alloc = 0 := by rw [(flush_force w).1]; rfl
  rw [WL.Counted, content_flush_force h, length_append, hc, length_zeros, hdone, halloc,
    Page.remaining, Nat.succ_mul]
  omega

theorem ready_of_reset (h : w.page = .reset) : Ready w :=
  ⟨by simp [h, Page.reset], by simp [h, Page.reset, Page.alloc, recordHeaderSize, pageSize]⟩

theorem not_full (h : Ready w) : w.page.full = false := by
  have := h.alloc_le
  rw [Page.full, decide_eq_false_iff_not]
  omega

/-- The zeros at the end of a page and the position behind them, from the position `n` that a
fragment leaves. -/
theorem lead_start_mod {n : ℕ} (h : n ≤ pageSize) :
    (pageSize - n < recordHeaderSize → lead (n % pageSize) = zeros (pageSize - n) ∧
      start (n % pageSize) = 0) ∧
    (¬ pageSize - n < recordHeaderSize → lead (n % pageSize) = [] ∧ start (n % pageSize) = n) := by
  rcases h.eq_or_lt with rfl | hlt
  · exact ⟨fun _ => ⟨by simp [lead, zeros, recordHeaderSize, pageSize], by simp [start]⟩,
      fun hn => absurd (by simp [recordHeaderSize]) hn⟩
  · rw [Nat.mod_eq_of_lt hlt]
    exact ⟨fun hn => ⟨if_pos hn, if_pos hn⟩, fun hn => ⟨if_neg hn, if_neg hn⟩⟩

/-- One fragment: it starts where the page stands. -/
theorem Filled.writeFragment {b : List Byte} (h : Filled w b) (c : CompressionType) (i : ℕ)
    (rec : List Byte) :
    Filled (writeFragment c i rec w) (b ++ (lead (b.length % pageSize) ++
        fragment c (fragmentType i (rec.length ≤ room (b.length % pageSize)))
          (rec.take (room (b.length % pageSize))))) ∧
      (w.Counted → (Writer.writeFragment c i rec w).Counted) := by
  set pos := b.length % pageSize with hpos
  have hroom : pageSize - w.page.alloc - recordHeaderSize = room pos := by rw [h.alloc_eq, room]
  have hpart : rec.take (min rec.length (room pos)) = rec.take (room pos) := by
    rw [← take_take, take_of_length_le (by rw [length_take]; omega)]
  have hwhole : ((rec.take (room pos)).length = rec.length) ↔ rec.length ≤ room pos := by
    rw [length_take]; omega
  set part := rec.take (room pos) with hdef
  set typ := fragmentType i (rec.length ≤ room pos)
  set frag := fragment c typ part with hfrag
  -- the page with the fragment, before it is flushed
  set w₁ : WL := { w with page := { w.page with buf := w.page.buf ++ frag } } with hw₁
  have hstep : Writer.writeFragment c i rec w =
      if w₁.page.full then flushPage true w₁ else w₁ := by
    simp only [Writer.writeFragment, hroom, hpart, decide_eq_decide.2 hwhole]
    rfl
  have halloc : w₁.page.alloc = start pos + (recordHeaderSize + part.length) := by
    rw [hw₁, Page.alloc, length_append, hfrag, length_fragment, ← h.alloc_eq, Page.alloc]
  have hle : w₁.page.alloc ≤ pageSize := by
    have hl : part.length ≤ room pos := by rw [hdef, length_take]; omega
    have : start pos + recordHeaderSize ≤ pageSize := start_le (mod_lt b.length)
    rw [halloc]
    rw [room] at hl
    omega
  have hflushed : w₁.page.flushed ≤ w₁.page.alloc := by
    refine h.flushed_le.trans ?_
    rw [hw₁, Page.alloc, Page.alloc, length_append]
    omega
  have hcontent : w₁.content = b ++ (lead pos ++ frag) := by
    rw [← append_assoc, ← h.content_eq, WL.content, WL.content, hw₁,
      drop_append_of_le_length h.flushed_le, append_assoc]
  have hmod : (b ++ (lead pos ++ frag)).length % pageSize = w₁.page.alloc % pageSize := by
    rw [length_append, lead_append_mod hpos.symm, halloc, hfrag, length_fragment]
  have hcount : w.Counted → w₁.Counted := fun hc => by
    rw [WL.Counted, hcontent, ← append_assoc, ← h.content_eq, length_append, hc, Nat.add_assoc, hw₁,
      Page.alloc, Page.alloc, length_append]
  rw [hstep]
  obtain ⟨hyes, hno⟩ := lead_start_mod hle
  by_cases hfull : pageSize - w₁.page.alloc < recordHeaderSize
  · rw [if_pos (by simpa [Page.full] using hfull)]
    have hreset := (flush_force w₁).1
    refine ⟨⟨ready_of_reset hreset, ?_, ?_⟩,
      fun hc => counted_flush_force hflushed hle (hcount hc)⟩
    · rw [content_flush_force hflushed, hcontent, hmod, (hyes hfull).1, Page.remaining]
    · rw [hreset, hmod, (hyes hfull).2]
      rfl
  · rw [if_neg (by simpa [Page.full] using hfull)]
    refine ⟨⟨⟨hflushed, by omega⟩, ?_, ?_⟩, hcount⟩
    · rw [hcontent, hmod, (hno hfull).1, append_nil]
    · rw [hmod, (hno hfull).2]

/-- A fragment that is not the record's last fills its page. -/
theorem length_first_fragment (n : ℕ) (part : List Byte) (c : CompressionType) (typ : RecType)
    (hpart : part.length = room (n % pageSize)) :
    (n + (lead (n % pageSize) ++ fragment c typ part).length) % pageSize = 0 := by
  rw [lead_append_mod rfl, length_fragment, hpart, start_add_room (mod_lt n), Nat.mod_self]

theorem Filled.writeLoop (c : CompressionType) : ∀ {n i : ℕ} {b : List Byte} {w : WL}
    (rec : List Byte), Filled w b → 0 < n →
      (rec.length < n ∨ 0 < room (b.length % pageSize) ∧ rec.length ≤ n) →
      ∃ b', Lays c (b.length % pageSize) (i = 0) rec b' ∧
        Filled (writeLoop c n i rec w) (b ++ b') ∧ (w.Counted → (writeLoop c n i rec w).Counted)
  | n + 1, i, b, w, rec, h, _, hn => by
    obtain ⟨hfill, hcount⟩ := h.writeFragment c i rec
    have hroom : pageSize - w.page.alloc - recordHeaderSize = room (b.length % pageSize) := by
      rw [h.alloc_eq, room]
    rw [Writer.writeLoop]
    simp only [hroom]
    by_cases hle : rec.length ≤ room (b.length % pageSize)
    · -- all of it fits
      rw [min_eq_left hle, drop_length, if_neg (by simp)]
      rw [take_of_length_le hle, decide_eq_true hle] at hfill
      refine ⟨_, Lays.last hle, ?_, hcount⟩
      by_cases hi : i = 0
      · simpa [hi, fragmentType] using hfill
      · simpa [hi, fragmentType] using hfill
    · have hlt := not_le.1 hle
      rw [min_eq_right hlt.le, if_pos (by rw [length_drop]; omega)]
      rw [decide_eq_false hle] at hfill
      have hzero := length_first_fragment b.length (rec.take (room (b.length % pageSize))) c
        (fragmentType i false) (by rw [length_take]; omega)
      rw [← length_append] at hzero
      have hpage : 0 < room 0 := by decide
      obtain ⟨b', hlay, hfill', hcount'⟩ := Filled.writeLoop c (n := n) (i := i + 1)
        (rec.drop (room (b.length % pageSize))) hfill (by omega)
        (by rw [hzero, length_drop]; omega)
      rw [hzero] at hlay
      refine ⟨_, Lays.more hlt (by simpa using hlay), ?_, fun hc => hcount' (hcount hc)⟩
      by_cases hi : i = 0
      · simpa [hi, fragmentType] using hfill'
      · simpa [hi, fragmentType] using hfill'

/-! ### What stays -/

/-- Only the active segment and its page may differ. -/
structure Same (w w' : WL) : Prop where
  done : w'.done = w.done
  compress : w'.compress = w.compress
  pages : w'.pagesPerSegment = w.pagesPerSegment

theorem Same.trans {w₁ w₂ w₃ : WL} (h : Same w₁ w₂) (h' : Same w₂ w₃) : Same w₁ w₃ :=
  ⟨h'.done.trans h.done, h'.compress.trans h.compress, h'.pages.trans h.pages⟩

theorem same_flushPage (f : Bool) (w : WL) : Same w (flushPage f w) := by
  simp only [flushPage]
  split_ifs <;> exact ⟨rfl, rfl, rfl⟩

theorem same_writeLoop (c : CompressionType) : ∀ (n i : ℕ) (rec : List Byte) (w : WL),
    Same w (writeLoop c n i rec w)
  | 0, _, _, _ => ⟨rfl, rfl, rfl⟩
  | n + 1, i, rec, w => by
    have hstep : Same w (writeFragment c i rec w) := by
      simp only [writeFragment]
      split_ifs
      · obtain ⟨h1, h2, h3⟩ := same_flushPage true { w with page := _ }
        exact ⟨h1, h2, h3⟩
      · exact ⟨rfl, rfl, rfl⟩
    rw [writeLoop]
    split_ifs
    · exact hstep.trans (same_writeLoop c n _ _ _)
    · exact hstep

/-! ### Segments -/

theorem lead_append_zeros {n : ℕ} : lead (n % pageSize) ++
    (if 0 < start (n % pageSize) then zeros (pageSize - start (n % pageSize)) else []) =
      zeros (gap n) := by
  have hlt := mod_lt n
  rw [lead, start, gap]
  split_ifs with hfull hzero hpos
  · exact absurd hzero (lt_irrefl 0)
  · rw [append_nil, Nat.mod_eq_of_lt (a := pageSize - n % pageSize)
      (by simp only [pageSize, recordHeaderSize] at *; omega)]
  · rw [nil_append, Nat.mod_eq_of_lt (a := pageSize - n % pageSize) (by omega)]
  · rw [show n % pageSize = 0 by omega, Nat.sub_zero, Nat.mod_self]
    rfl

theorem nextSegment_frame (w : WL) : (nextSegment w).compress = w.compress ∧
    (nextSegment w).pagesPerSegment = w.pagesPerSegment := by
  simp only [nextSegment]
  split_ifs
  · exact ⟨(same_flushPage true w).compress, (same_flushPage true w).pages⟩
  · exact ⟨rfl, rfl⟩

theorem filled_nil (hpage : w.page = .reset) (hseg : w.segment = []) (hdone : w.donePages = 0) :
    Filled w [] ∧ w.Counted := by
  refine ⟨⟨ready_of_reset hpage, ?_, ?_⟩, ?_⟩
  · rw [WL.content, hseg, hpage]; rfl
  · rw [hpage]; rfl
  · rw [WL.Counted, WL.content, hseg, hpage, hdone, Nat.zero_mul]; rfl

theorem Filled.nextSegment {b : List Byte} (h : Filled w b) :
    (nextSegment w).done = w.done ++ [b ++ zeros (gap b.length)] ∧
      Filled (Writer.nextSegment w) [] ∧ (Writer.nextSegment w).Counted := by
  rw [Writer.nextSegment, ← lead_append_zeros, ← h.alloc_eq]
  by_cases hpos : 0 < w.page.alloc
  · obtain ⟨hreset, hseg⟩ := flush_force w
    simp only [gt_iff_lt, if_pos hpos]
    refine ⟨?_, filled_nil hreset rfl rfl⟩
    rw [(same_flushPage true w).done, hseg, content_flush_force h.flushed_le, h.content_eq,
      append_assoc, Page.remaining]
  · have hbuf : w.page.buf = [] := eq_nil_of_length_eq_zero (by rw [Page.alloc] at hpos; omega)
    have hpage : w.page = .reset := by
      have := h.flushed_le
      rcases hw : w.page with ⟨buf, flushed⟩
      simp only [hw, Page.alloc] at hbuf this
      subst hbuf
      obtain rfl : flushed = 0 := by simpa using this
      rfl
    simp only [gt_iff_lt, if_neg hpos]
    refine ⟨?_, filled_nil hpage rfl rfl⟩
    rw [append_nil, ← h.content_eq, WL.content, hbuf, drop_nil, append_nil]

/-- The records of the finished segments and of the active one. -/
structure Holds (w : WL) (groups : List (List Body)) (cur : List Body) : Prop where
  done : List.Forall₂ (fun file g => ∃ b, Laid 0 g b ∧ file = b ++ zeros (gap b.length))
    w.done groups
  active : ∃ b, Laid 0 cur b ∧ Filled w b

variable {groups : List (List Body)} {cur : List Body}

/-- The page goes to the file without being cleared. -/
theorem Filled.flush {b : List Byte} (h : Filled w b) : Filled (flushPage false w) b ∧
    (w.Counted → (flushPage false w).Counted) ∧
    (flushPage false w).segment = (flushPage false w).content := by
  have hflush : flushPage false w = { w with
      segment := w.segment ++ w.page.buf.drop w.page.flushed
      page := { w.page with flushed := w.page.alloc } } := by
    have := h.flushed_le
    simp only [flushPage, Bool.false_or, not_full h.toReady, reduceCtorEq, if_false]
    rw [length_drop, ← Page.alloc, Nat.add_sub_cancel' this]
  have hcontent : (flushPage false w).segment = (flushPage false w).content := by
    rw [hflush, WL.content, Page.alloc, drop_length, append_nil]
  have hsame : (flushPage false w).content = w.content := by rw [← hcontent, hflush]; rfl
  refine ⟨⟨⟨?_, ?_⟩, hsame ▸ h.content_eq, ?_⟩, ?_, hcontent⟩
  · rw [hflush]; exact le_rfl
  · rw [hflush]; exact h.alloc_le
  · rw [hflush]; exact h.alloc_eq
  · rw [WL.Counted, WL.Counted, hsame, hflush]; exact id

/-- The bytes of a record that the active segment still takes. -/
def WL.left (w : WL) : ℤ := (w.page.remaining : ℤ) - recordHeaderSize +
  ((pageSize : ℤ) - recordHeaderSize) * ((w.pagesPerSegment : ℤ) - w.donePages - 1)

/-- **One record** goes behind the others, to the active segment or to a new one. -/
theorem filled_log (k : Codecs) {b : List Byte} (h : Filled w b) (rec : List Byte) (final : Bool) :
    ∃ w₁ b₁ b', (w₁ = w ∧ b₁ = b ∧ (compressed k w.compress rec).bytes.length ≤ w.left ∨
        w₁ = nextSegment w ∧ b₁ = []) ∧ Same w₁ (log k w rec final) ∧
      Lays (compressed k w.compress rec).compression (b₁.length % pageSize) true
        (compressed k w.compress rec).bytes b' ∧
      Filled (log k w rec final) (b₁ ++ b') ∧ (w.Counted → (log k w rec final).Counted) ∧
      (final = true → (log k w rec final).segment = (log k w rec final).content) := by
  set r := compressed k w.compress rec with hr
  -- the segment the record goes to
  obtain ⟨w₁, b₁, hw₁, hcase, hfill, hcount⟩ : ∃ w₁ b₁,
      w₁ = (if (r.bytes.length : ℤ) > w.left then nextSegment w else w) ∧
      (w₁ = w ∧ b₁ = b ∧ r.bytes.length ≤ w.left ∨ w₁ = nextSegment w ∧ b₁ = []) ∧
      Filled w₁ b₁ ∧ (w.Counted → w₁.Counted) := by
    split_ifs with hcut
    · exact ⟨_, [], rfl, .inr ⟨rfl, rfl⟩, h.nextSegment.2.1, fun _ => h.nextSegment.2.2⟩
    · exact ⟨w, b, rfl, .inl ⟨rfl, rfl, not_lt.1 hcut⟩, h, id⟩
  obtain ⟨b', hlays, hfill', hcount'⟩ := hfill.writeLoop r.compression (n := r.bytes.length + 1)
    (i := 0) r.bytes (Nat.succ_pos _) (.inl (Nat.lt_succ_self _))
  have hsame := same_writeLoop r.compression (r.bytes.length + 1) 0 r.bytes w₁
  set w₂ := writeLoop r.compression (r.bytes.length + 1) 0 r.bytes w₁ with hw₂
  have hstep : log k w rec final = if final ∧ 0 < w₂.page.alloc then flushPage false w₂
      else w₂ := by
    simp only [log, not_full h.toReady, reduceCtorEq, if_false, hw₂, hw₁, hr, WL.left]
  refine ⟨w₁, b₁, b', hcase, ?_⟩
  rw [hstep]
  split_ifs with hfinal
  · obtain ⟨hflush, hcount₂, hseg⟩ := hfill'.flush
    exact ⟨hsame.trans (same_flushPage false w₂), hlays, hflush,
      fun hc => hcount₂ (hcount' (hcount hc)), fun _ => hseg⟩
  · refine ⟨hsame, hlays, hfill', fun hc => hcount' (hcount hc), fun hf => ?_⟩
    have hbuf : w₂.page.buf = [] := by
      rw [← length_eq_zero_iff, ← Page.alloc]
      simpa [hf] using hfinal
    rw [WL.content, hbuf, drop_nil, append_nil]

theorem holds_log (k : Codecs) (h : Holds w groups cur) (rec : List Byte) (final : Bool) :
    ∃ groups' cur', Holds (log k w rec final) groups' cur' ∧
      groups'.flatten ++ cur' = groups.flatten ++ cur ++ [compressed k w.compress rec] ∧
      (log k w rec final).compress = w.compress ∧
      (final = true → (log k w rec final).segment = (log k w rec final).content) := by
  obtain ⟨b, hlaid, hfill⟩ := h.active
  obtain ⟨w₁, b₁, b', hcase, hsame, hlays, hfill', -, hseg⟩ := filled_log k hfill rec final
  have hlaid' : ∀ {rs}, Laid 0 rs b₁ → Laid 0 (rs ++ [compressed k w.compress rec]) (b₁ ++ b') :=
    fun hl => hl.snoc (by rwa [Nat.zero_add]) (by decide)
  rcases hcase with ⟨rfl, rfl, -⟩ | ⟨rfl, rfl⟩
  · exact ⟨groups, _, ⟨hsame.done ▸ h.done, _, hlaid' hlaid, hfill'⟩, by simp, hsame.compress, hseg⟩
  · refine ⟨groups ++ [cur], _, ⟨?_, _, hlaid' (.nil 0), hfill'⟩, by simp,
      hsame.compress.trans (nextSegment_frame w).1, hseg⟩
    rw [hsame.done, hfill.nextSegment.1]
    exact rel_append h.done (.cons ⟨b, hlaid, rfl⟩ .nil)

/-- **A batch.** What was written stands in the files when `Log` returns. -/
theorem holds_logBatch (k : Codecs) (recs : List (List Byte)) (h : Holds w groups cur)
    (hseg : recs = [] → w.segment = w.content) :
    ∃ groups' cur', Holds (logBatch k w recs) groups' cur' ∧
      groups'.flatten ++ cur' = groups.flatten ++ cur ++ recs.map (compressed k w.compress) ∧
      (logBatch k w recs).compress = w.compress ∧
      (logBatch k w recs).segment = (logBatch k w recs).content := by
  induction recs generalizing w groups cur with
  | nil => exact ⟨_, _, h, by simp, rfl, hseg rfl⟩
  | cons rec recs ih =>
    obtain ⟨groups₁, cur₁, hlog, hall, hcomp, hflush⟩ := holds_log k h rec recs.isEmpty
    obtain ⟨groups₂, cur₂, hlog', hall', hcomp', hseg⟩ :=
      ih hlog fun hnil => hflush (by rw [hnil]; rfl)
    refine ⟨groups₂, cur₂, hlog', ?_, hcomp'.trans hcomp, hseg⟩
    rw [hall', hall, hcomp, append_assoc, map_cons, singleton_append]

theorem holds_logAll (k : Codecs) (calls : List (List (List Byte))) (h : Holds w groups cur)
    (hseg : w.segment = w.content) :
    ∃ groups' cur', Holds (logAll k w calls) groups' cur' ∧
      groups'.flatten ++ cur' =
        groups.flatten ++ cur ++ calls.flatten.map (compressed k w.compress) ∧
      (logAll k w calls).segment = (logAll k w calls).content := by
  induction calls generalizing w groups cur with
  | nil => exact ⟨_, _, h, by simp, hseg⟩
  | cons recs calls ih =>
    obtain ⟨groups₁, cur₁, hlog, hall, hcomp, hseg₁⟩ := holds_logBatch k recs h fun _ => hseg
    obtain ⟨groups₂, cur₂, hlog', hall', hseg₂⟩ := ih hlog hseg₁
    refine ⟨groups₂, cur₂, hlog', ?_, hseg₂⟩
    rw [hall', hall, hcomp, append_assoc, flatten_cons, map_append]

/-- **The writer.** After any calls of `Log` the files hold the records in order, each within one
file. -/
theorem exists_holds_logAll (k : Codecs) (pages : ℕ) (c : CompressionType)
    (calls : List (List (List Byte))) : ∃ groups cur,
      Holds (logAll k (newSize pages c) calls) groups cur ∧
      groups.flatten ++ cur = calls.flatten.map (compressed k c) ∧
      (logAll k (newSize pages c) calls).segment = (logAll k (newSize pages c) calls).content := by
  have hnew : Holds (newSize pages c) [] [] :=
    ⟨.nil, [], .nil 0, (filled_nil rfl rfl rfl).1⟩
  obtain ⟨groups, cur, hhold, hall, hseg⟩ := holds_logAll k calls hnew rfl
  exact ⟨groups, cur, hhold, by simpa [newSize] using hall, hseg⟩

end TopcDB.Wlog.Writer
