import TopcDB.Wlog.RoundTrip

/-! # A log whose last segment is cut

The reader completes a cut segment with zeros up to a page boundary. The fragment in which the cut
falls is then read with what is left of its header and its bytes, and zeros for the rest
(`tornHeader`, `tornPart`). It is refused unless the checksum that is left is the one of the bytes
that are left; a header cut behind its first byte always passes, as a fragment with no bytes. The
reader returns a prefix of the records exactly when no record is made of such a fragment
(`isPrefix_cut_iff`). -/

namespace TopcDB.Wlog.Torn

open List Lib.Bits Layout Writer Reading RoundTrip

/-! ### The fragment in which the cut falls -/

variable (part : List Byte)

/-- The length and the checksum in the header of a fragment of which `j` bytes are left. -/
def tornHeader (j : ℕ) : List Byte :=
  (lengthAndSum part).take (j - 1) ++ zeros (6 - (j - 1))

/-- The bytes of the fragment, as many as its header tells. -/
def tornPart (j : ℕ) : List Byte :=
  (part.take (j - recordHeaderSize) ++ zeros (part.length - (j - recordHeaderSize))).take
    (beNat ((tornHeader part j).take 2))

/-- The checksum that is left is that of the bytes that are left. -/
def Passes (j : ℕ) : Prop :=
  (checksum (tornPart part j)).toNat = beNat ((tornHeader part j).drop 2)

instance (part : List Byte) (j : ℕ) : Decidable (Passes part j) :=
  inferInstanceAs (Decidable (_ = _))

theorem length_tornHeader (j : ℕ) : (tornHeader part j).length = 6 := by
  rw [tornHeader, length_append, length_take, length_lengthAndSum, length_zeros]
  omega

variable {part rec b b' s segment : List Byte} {j n m pos cut : ℕ}

/-- Behind the length field the length is the fragment's own. -/
theorem tornHeader_take_two (hj : 3 ≤ j) (hle : part.length ≤ pageSize) :
    beNat ((tornHeader part j).take 2) = part.length := by
  have htake : (tornHeader part j).take 2 = beBytes 2 part.length := by
    rw [tornHeader, take_append_of_le_length
      (by rw [length_take, length_lengthAndSum]; omega), take_take,
      min_eq_left (by omega), lengthAndSum]
    exact take_left' (length_beBytes _ _)
  rw [htake, beNat_beBytes, Nat.mod_eq_of_lt (by simp only [pageSize] at hle; omega)]

theorem beNat_tornHeader_le (hle : part.length ≤ pageSize) :
    beNat ((tornHeader part j).take 2) ≤ part.length := by
  rcases Nat.lt_or_ge j 3 with hlt | hge
  · have hbytes : lengthAndSum part = BitVec.ofNat 8 (part.length >>> 8) ::
        BitVec.ofNat 8 (part.length >>> 0) :: beBytes 4 (checksum part).toNat := rfl
    obtain hj | hj : j ≤ 1 ∨ j = 2 := by omega
    · have hnil : j - 1 = 0 := by omega
      rw [tornHeader, hnil]
      exact Nat.zero_le _
    · rw [tornHeader, hj, hbytes]
      show 256 * (256 * 0 + (BitVec.ofNat 8 (part.length >>> 8)).toNat) + 0 ≤ part.length
      rw [BitVec.toNat_ofNat, Nat.shiftRight_eq_div_pow]
      omega
  · exact (tornHeader_take_two hge hle).le

theorem tornPart_append_zeros (hle : part.length ≤ pageSize) :
    part.take (j - recordHeaderSize) ++ zeros (part.length - (j - recordHeaderSize)) =
      tornPart part j ++ zeros (part.length - (tornPart part j).length) := by
  set z := part.take (j - recordHeaderSize) ++ zeros (part.length - (j - recordHeaderSize)) with hz
  set l := beNat ((tornHeader part j).take 2) with hl
  have hlen : z.length = part.length := by
    rw [hz, length_append, length_take, length_zeros]; omega
  have htorn : tornPart part j = z.take l := rfl
  rcases Nat.lt_or_ge j 3 with hlt | hge
  · have hzero : z = zeros part.length := by
      rw [hz, show j - recordHeaderSize = 0 by rw [recordHeaderSize]; omega]
      rfl
    have hle' : l ≤ part.length := beNat_tornHeader_le hle
    have htake : z.take l = zeros l := by
      rw [hzero, zeros, take_replicate, min_eq_left hle', zeros]
    rw [htorn, htake, length_zeros, ← zeros_add, Nat.add_sub_cancel' hle', hzero]
  · have htake : z.take l = z := by
      rw [hl, tornHeader_take_two hge hle, ← hlen, take_length]
    rw [htorn, htake, hlen, Nat.sub_self]
    exact (append_nil z).symm

variable {c : CompressionType}

/-- What the reader finds at a cut fragment: the rest of it, and zeros. -/
theorem fragment_take_append_zeros {typ : RecType} (hj : 0 < j)
    (hlt : j < recordHeaderSize + part.length) (hle : part.length ≤ pageSize)
    (hn : recordHeaderSize + part.length ≤ n) :
    (fragment c typ part).take j ++ zeros (n - j) =
      firstByte c typ :: (tornHeader part j ++ (tornPart part j ++
        zeros (n - recordHeaderSize - (tornPart part j).length))) := by
  have hshort : (tornPart part j).length ≤ part.length := by
    rw [tornPart, length_take, length_append, length_take, length_zeros]; omega
  obtain ⟨i, rfl⟩ : ∃ i, j = i + 1 := ⟨j - 1, by omega⟩
  rw [fragment, take_succ_cons, cons_append, take_append, length_lengthAndSum,
    tornHeader, Nat.add_sub_cancel]
  congr 1
  rw [append_assoc, append_assoc]
  congr 1
  -- behind the header: the bytes that are left, and zeros up to `n`
  have hrest : part.take (i - 6) ++ zeros (n - (i + 1)) = zeros (6 - i) ++
      ((part.take (i + 1 - recordHeaderSize) ++
        zeros (part.length - (i + 1 - recordHeaderSize))) ++
        zeros (n - recordHeaderSize - part.length)) := by
    simp only [recordHeaderSize] at *
    rw [show i + 1 - 7 = i - 6 by omega]
    rcases Nat.lt_or_ge 6 i with hi | hi
    · rw [show 6 - i = 0 by omega, append_assoc, ← zeros_add,
        show part.length - (i - 6) + (n - 7 - part.length) = n - (i + 1) by omega]
      rfl
    · rw [show i - 6 = 0 by omega, take_zero, nil_append, nil_append, ← zeros_add,
        ← zeros_add]
      congr 1
      omega
  rw [hrest, tornPart_append_zeros hle, append_assoc, ← zeros_add]
  congr 4
  omega

/-! ### Reading a cut record -/

variable (chunk : ℕ → ℕ → ℕ) {r : Reader} (k : Codecs)

theorem nextLoop_zeros (i : ℕ) (bufs : List Byte × List Byte)
    (h : At r (zeros (gap m)) (m % pageSize)) (hn : r.size < n) :
    ∃ e r', nextLoop chunk k n i bufs r = (.error e, r') := by
  have heof : ∀ {r : Reader} {pos n : ℕ}, At r [] pos → 0 < n →
      ∃ e r', nextLoop chunk k n i bufs r = (.error e, r') := by
    intro r pos n h hn
    obtain ⟨n, rfl⟩ : ∃ l, n = l + 1 := ⟨n - 1, by omega⟩
    obtain ⟨r', hread, -⟩ := h.readFragment_eof chunk
    exact ⟨_, r', by rw [nextLoop, hread]⟩
  rw [Reader.size, h.pending, length_zeros] at hn
  by_cases hm : m % pageSize = 0
  · rw [gap_of_mod_eq hm] at h
    exact heof h (by omega)
  · have hlt := mod_lt m
    rw [gap_of_mod_ne hm] at h hn
    rw [← append_nil (zeros _)] at h
    obtain ⟨r', hread, hat, -⟩ := h.readFragment_pad chunk (Nat.pos_of_ne_zero hm)
    obtain ⟨n, rfl⟩ : ∃ l, n = l + 1 := ⟨n - 1, by omega⟩
    rw [nextLoop, hread]
    exact heof hat (by omega)

theorem readFragment_torn {typ : RecType} (htyp : typ ≠ .pageTerm)
    (hpos : pos + (recordHeaderSize + part.length) ≤ pageSize) (hj : 0 < j)
    (hlt : j < recordHeaderSize + part.length)
    (h : At r ((fragment c typ part).take j ++ zeros (gap (pos + j))) pos) :
    ∃ r' m, readFragment chunk r =
        (if Passes part j then .ok (.part (firstByte c typ) (tornPart part j))
          else .error (.checksum (checksum (tornPart part j)).toNat
            (beNat ((tornHeader part j).drop 2))), r') ∧
      At r' (zeros (gap m)) (m % pageSize) ∧ r'.curRecTyp = some typ := by
  have hle : part.length ≤ pageSize := by omega
  have hgap : gap (pos + j) = pageSize - pos - j := by
    rw [gap, Nat.mod_eq_of_lt (a := pos + j) (by omega), Nat.mod_eq_of_lt (by omega)]
    omega
  have hlen : beNat ((tornHeader part j).take 2) = (tornPart part j).length := by
    have := beNat_tornHeader_le (j := j) hle
    rw [tornPart, length_take, length_append, length_take, length_zeros]
    omega
  have hshort : (tornPart part j).length ≤ part.length := hlen ▸ beNat_tornHeader_le hle
  rw [hgap, fragment_take_append_zeros hj hlt hle (by omega)] at h
  obtain ⟨r', hread, hat, hcur⟩ := h.readFragment_part chunk
    (by rw [recTypeFromHeader_firstByte]; exact fun he => htyp (Option.some.inj he))
    (length_tornHeader part j) hlen (by omega)
  refine ⟨r', pos + (recordHeaderSize + (tornPart part j).length), hread, ?_,
    by rw [hcur, recTypeFromHeader_firstByte]⟩
  have hgap' : gap (pos + (recordHeaderSize + (tornPart part j).length)) =
      pageSize - pos - recordHeaderSize - (tornPart part j).length := by
    simp only [gap, recordHeaderSize, pageSize] at *
    omega
  rwa [hgap']

/-- `rec`, laid out from `pos` on and cut to `j` bytes, is read as `b`: the cut falls into its last
fragment, whose rest passes. -/
inductive Taken : ℕ → List Byte → ℕ → List Byte → Prop
  | last {pos j i : ℕ} {rec : List Byte} (h : rec.length ≤ room pos)
      (hj : j = (lead pos).length + i) (hi : 0 < i) (hlt : i < recordHeaderSize + rec.length)
      (hp : Passes rec i) : Taken pos rec j (tornPart rec i)
  | more {pos j i : ℕ} {rec b : List Byte} (h : room pos < rec.length)
      (hj : j = (lead pos).length + (recordHeaderSize + room pos) + i)
      (hb : Taken 0 (rec.drop (room pos)) i b) : Taken pos rec j (rec.take (room pos) ++ b)

theorem Taken.unique (h : Taken pos rec j b) (h' : Taken pos rec j b') : b = b' := by
  induction h generalizing b' with
  | last hle hj =>
    cases h' with
    | last _ hj' => rw [show _ = _ from Nat.add_left_cancel (hj.symm.trans hj')]
    | more hlt => exact absurd hle (not_le.2 hlt)
  | more hlt hj _ ih =>
    cases h' with
    | last hle => exact absurd hle (not_le.2 hlt)
    | more _ hj' hb' => rw [ih (Nat.add_left_cancel (hj.symm.trans hj') ▸ hb')]

theorem gap_congr (h : m % pageSize = n % pageSize) : gap m = gap n := by
  rw [gap, gap, h]

/-- A cut among the zeros before a fragment leaves no record; another one leaves bytes of the
fragment. -/
theorem nextLoop_lead_cut (i : ℕ) (bufs : List Byte × List Byte) (hpos : pos < pageSize)
    (hn : r.size < n) (h : At r ((lead pos ++ s).take j ++ zeros (gap (pos + j))) pos) :
    (j ≤ (lead pos).length ∧ ∃ e r', nextLoop chunk k n i bufs r = (.error e, r')) ∨
    ∃ l r' m, 0 < l ∧ j = (lead pos).length + l ∧
      nextLoop chunk k n i bufs r = nextLoop chunk k (m + 1) i bufs r' ∧ r'.size < m + 1 ∧
      At r' (s.take l ++ zeros (gap (start pos + l))) (start pos) := by
  rcases le_or_gt j (lead pos).length with hle | hlt
  · left
    refine ⟨hle, ?_⟩
    have hzeros : (lead pos).take j ++ zeros (gap (pos + j)) = zeros (gap pos) := by
      rw [lead] at hle ⊢
      split_ifs at hle ⊢ with hfull
      · have hgap : gap pos = pageSize - pos := by
          rw [gap_of_mod_ne, Nat.mod_eq_of_lt hpos]
          rw [Nat.mod_eq_of_lt hpos]
          simp only [pageSize, recordHeaderSize] at hfull
          omega
        rw [length_zeros] at hle
        rw [gap_add (by omega), zeros, take_replicate, min_eq_left hle, ← zeros, ← zeros_add,
          Nat.add_sub_cancel' (by omega)]
      · rw [length_nil] at hle
        rw [Nat.le_zero.1 hle]
        rfl
    rw [take_append_of_le_length hle, hzeros] at h
    exact nextLoop_zeros chunk k i bufs (m := pos) (by rwa [Nat.mod_eq_of_lt hpos]) hn
  · right
    obtain ⟨l, rfl⟩ : ∃ l, j = (lead pos).length + l := ⟨j - (lead pos).length, by omega⟩
    have hmod : (pos + ((lead pos).length + l)) % pageSize = (start pos + l) % pageSize := by
      simpa using lead_append_mod (Nat.mod_eq_of_lt hpos) (zeros l)
    rw [take_length_add_append, append_assoc, gap_congr hmod] at h
    have hsize := h.pending
    rw [Reader.size, hsize, length_append] at hn
    obtain ⟨r', m, hskip, hat, hm⟩ := h.nextLoop_lead chunk k (n := n) i bufs hpos (by omega)
    refine ⟨l, r', m, by omega, rfl, hskip, ?_, hat⟩
    rw [Reader.size, hat.pending]
    omega

/-- **A record cut to `j` bytes** gives a record if and only if it is `Taken`. -/
theorem nextLoop_cut {fst : Bool} (hl : Lays c pos fst rec b) :
    ∀ {n i j : ℕ} {bufs : List Byte × List Byte} {r : Reader},
    fst = decide (i = 0) → pos < pageSize → j < b.length → r.size < n →
    At r (b.take j ++ zeros (gap (pos + j))) pos →
    (∃ b' r' m, Taken pos rec j b' ∧
      nextLoop chunk k n i bufs r = (decodeRecord k c (collect c b' bufs), r') ∧
      At r' (zeros (gap m)) (m % pageSize)) ∨
    (¬ ∃ b', Taken pos rec j b') ∧ ∃ e r', nextLoop chunk k n i bufs r = (.error e, r') := by
  induction hl with
  | @last pos fst rec hle =>
    intro n i j bufs r hfst hpos hj hn h
    have hstart := start_le hpos
    obtain ⟨hcut, herr⟩ | ⟨l, r₁, m, hl, rfl, hskip, hsize, hat⟩ :=
      nextLoop_lead_cut chunk k i bufs hpos hn h
    · refine .inr ⟨?_, herr⟩
      rintro ⟨b', ht⟩
      cases ht with
      | last _ hj hi => omega
      | more hlt => omega
    · rw [length_append, length_fragment] at hj
      obtain ⟨r₂, m₂, hread, hat₂, htyp⟩ := readFragment_torn chunk (by split_ifs <;> decide)
        (by rw [room] at hle; omega) hl (by omega) hat
      by_cases hp : Passes rec l
      · rw [if_pos hp] at hread
        refine .inl ⟨_, r₂, m₂, .last hle rfl hl (by omega) hp, ?_, hat₂⟩
        rw [hskip, nextLoop_part chunk k bufs hread htyp (validateRecord_types hfst).1,
          if_pos (by split_ifs <;> simp)]
      · rw [if_neg hp] at hread
        refine .inr ⟨?_, _, r₂, by rw [hskip, nextLoop, hread]⟩
        rintro ⟨b', ht⟩
        cases ht with
        | last _ hj _ _ hp' => exact hp (Nat.add_left_cancel hj ▸ hp')
        | more hlt => omega
  | @more pos fst rec b hlt hb ih =>
    intro n i j bufs r hfst hpos hj hn h
    have hpart : (rec.take (room pos)).length = room pos := by rw [length_take]; omega
    have hpage := start_add_room hpos
    have hvalid := (validateRecord_types hfst).2
    have hgo : ¬ ((if fst then RecType.first else .middle) = .last ∨
        (if fst then RecType.first else .middle) = .full) := by
      split_ifs <;> simp
    have hshort : ∀ {j : ℕ}, j < (lead pos).length + (recordHeaderSize + room pos) →
        ¬ ∃ b', Taken pos rec j b' := by
      rintro j hj ⟨b', ht⟩
      cases ht with
      | last hle => omega
      | more _ hj' => omega
    obtain ⟨hcut, herr⟩ | ⟨l, r₁, m, hl, rfl, hskip, hsize, hat⟩ :=
      nextLoop_lead_cut chunk k i bufs hpos hn h
    · exact .inr ⟨hshort (by rw [recordHeaderSize]; omega), herr⟩
    · rcases Nat.lt_or_ge l (recordHeaderSize + room pos) with hless | hge
      · -- the cut falls into this fragment, which is not the record's last
        refine .inr ⟨hshort (by omega), ?_⟩
        rw [take_append_of_le_length (by rw [length_fragment, hpart]; omega)] at hat
        obtain ⟨r₂, m₂, hread, hat₂, htyp⟩ := readFragment_torn chunk (by split_ifs <;> decide)
          (by rw [hpart]; omega) hl (by rw [hpart]; omega) hat
        by_cases hp : Passes (rec.take (room pos)) l
        · rw [if_pos hp] at hread
          have hsize₂ := size_readFragment chunk hread
          rw [hskip, nextLoop_part chunk k bufs hread htyp hvalid, if_neg hgo]
          exact nextLoop_zeros chunk k _ _ hat₂ (by omega)
        · rw [if_neg hp] at hread
          exact ⟨_, r₂, by rw [hskip, nextLoop, hread]⟩
      · -- it falls behind
        obtain ⟨l', rfl⟩ : ∃ l', l = recordHeaderSize + room pos + l' :=
          ⟨l - (recordHeaderSize + room pos), by omega⟩
        have hfrag : (fragment c (if fst then .first else .middle)
            (rec.take (room pos))).length = recordHeaderSize + room pos := by
          rw [length_fragment, hpart]
        have hmod : (start pos + (recordHeaderSize + room pos + l')) % pageSize =
            (0 + l') % pageSize := by
          rw [← Nat.add_assoc, hpage, Nat.add_mod_left, Nat.zero_add]
        rw [← hfrag, take_length_add_append, append_assoc, hfrag, gap_congr hmod] at hat
        obtain ⟨r₂, hread, hat₂, htyp⟩ := hat.readFragment_fragment chunk
          (by split_ifs <;> decide) (by rw [hpart]; omega)
        rw [hfrag, hpage, Nat.mod_self] at hat₂
        have hsize₂ := size_readFragment chunk hread
        rw [length_append, length_append, hfrag] at hj
        rw [hskip, nextLoop_part chunk k bufs hread htyp hvalid, if_neg hgo]
        obtain ⟨b', r₃, m₃, ht, hnext, hat₃⟩ | ⟨hno, herr⟩ := @ih m (i + 1) l'
          (collect c (rec.take (room pos)) bufs) r₂ (by simp) (by decide) (by omega) (by omega) hat₂
        · refine .inl ⟨_, r₃, m₃, .more hlt (by omega) ht, ?_, hat₃⟩
          rw [hnext, collect_collect]
        · refine .inr ⟨?_, herr⟩
          rintro ⟨b', ht⟩
          cases ht with
          | last hle => omega
          | @more _ _ l'' _ _ _ hj' hb' =>
            obtain rfl : l'' = l' := by omega
            exact hno ⟨_, hb'⟩

/-- What the reader makes of the first `j` bytes of a record. -/
def Made (c : CompressionType) (pos : ℕ) (rec : List Byte) (j : ℕ) (rec' : List Byte) : Prop :=
  ∃ b', Taken pos rec j b' ∧ decodeRecord k c (collect c b' ([], [])) = .ok rec'

theorem records_cut (hl : Lays c pos true rec b) (hpos : pos < pageSize) (hj : j < b.length)
    (h : At r (b.take j ++ zeros (gap (pos + j))) pos) :
    (∃ rec', Made k c pos rec j rec' ∧ (records chunk k r).1 = [rec']) ∨
    (¬ ∃ rec', Made k c pos rec j rec') ∧ (records chunk k r).1 = [] := by
  obtain ⟨b', r', m, ht, hnext, hat⟩ | ⟨hno, e, r', hnext⟩ :=
    nextLoop_cut chunk k hl (i := 0) rfl hpos hj (Nat.lt_succ_self r.size) h
  · rcases hdec : decodeRecord k c (collect c b' ([], [])) with e | rec'
    · rw [hdec] at hnext
      refine .inr ⟨?_, by rw [records_of_error chunk hnext]⟩
      rintro ⟨rec', b'', ht', hdec'⟩
      rw [ht.unique ht', hdec'] at hdec
      cases hdec
    · rw [hdec] at hnext
      refine .inl ⟨rec', ⟨b', ht, hdec⟩, ?_⟩
      obtain ⟨e, r'', hend⟩ := nextLoop_zeros chunk k 0 ([], []) hat (Nat.lt_succ_self r'.size)
      rw [records_of_ok chunk hnext, records_of_error chunk hend]
  · exact .inr ⟨fun ⟨_, b', ht, _⟩ => hno ⟨b', ht⟩, by rw [records_of_error chunk hnext]⟩

/-! ### The last segment -/

theorem exists_cut {rs : List Body} (h : Laid pos rs b) (hpos : pos < pageSize)
    (hcut : cut < b.length) :
    ∃ rs₁ r rs₂ b₁ b₂ b₃, rs = rs₁ ++ r :: rs₂ ∧ b = b₁ ++ (b₂ ++ b₃) ∧ Laid pos rs₁ b₁ ∧
      Lays r.compression ((pos + b₁.length) % pageSize) true r.bytes b₂ ∧
      b₁.length ≤ cut ∧ cut < b₁.length + b₂.length := by
  induction h generalizing cut with
  | nil => exact absurd hcut (Nat.not_lt_zero _)
  | @cons pos r rs b bs hl hs ih =>
    rcases Nat.lt_or_ge cut b.length with hlt | hge
    · refine ⟨[], r, rs, [], b, bs, rfl, rfl, .nil _, ?_, Nat.zero_le _, by simpa using hlt⟩
      rwa [length_nil, Nat.add_zero, Nat.mod_eq_of_lt hpos]
    · rw [length_append] at hcut
      obtain ⟨rs₁, r', rs₂, b₁, b₂, b₃, rfl, rfl, hlaid, hlays, hle, hlt⟩ :=
        ih (mod_lt _) (show cut - b.length < bs.length by omega)
      refine ⟨r :: rs₁, r', rs₂, b ++ b₁, b₂, b₃, rfl, by rw [append_assoc], .cons hl hlaid,
        ?_, ?_, ?_⟩
      · rwa [Nat.mod_add_mod, Nat.add_assoc, ← length_append] at hlays
      · rw [length_append]; omega
      · rw [length_append]; omega

/-- The cut of a segment falls `j` bytes into the record `rec`, behind the records `recs` in the
bytes `b`. -/
structure CutAt (c : CompressionType) (segment : List Byte) (cut : ℕ) (recs : List (List Byte))
    (rec b : List Byte) (j : ℕ) : Prop where
  before : Laid 0 (recs.map (compressed k c)) b
  within : ∃ b' rest, Lays (compressed k c rec).compression (b.length % pageSize) true
    (compressed k c rec).bytes b' ∧ segment = b ++ (b' ++ rest) ∧ j < b'.length
  cut_eq : cut = b.length + j

/-- The cut falls into a record `rec` whose fragments before it decode to another one. -/
def Invents (c : CompressionType) (segment : List Byte) (cut : ℕ) : Prop :=
  ∃ recs rec b j, CutAt k c segment cut recs rec b j ∧ ∃ b' rec',
    Taken (b.length % pageSize) (compressed k c rec).bytes j b' ∧
    decodeRecord k (compressed k c rec).compression
      (collect (compressed k c rec).compression b' ([], [])) = .ok rec' ∧ rec' ≠ rec

variable {recs : List (List Byte)}

/-- The reader returns the records before the cut, and what it makes of the record in which the cut
falls. -/
theorem CutAt.records_eq {k : Codecs}
    (hc : CutAt k c segment cut recs rec b j) (h : At r (padded (segment.take cut)) 0)
    (hr : Whole r) :
    ∃ l, (records chunk k r).1 = recs ++ l ∧
      ((∃ rec', Made k (compressed k c rec).compression (b.length % pageSize)
        (compressed k c rec).bytes j rec' ∧ l = [rec']) ∨
      (¬ ∃ rec', Made k (compressed k c rec).compression (b.length % pageSize)
        (compressed k c rec).bytes j rec') ∧ l = []) := by
  obtain ⟨b', rest, hlays, rfl, hj⟩ := hc.within
  have hstream : padded ((b ++ (b' ++ rest)).take cut) =
      b ++ (b'.take j ++ zeros (gap (b.length + j))) := by
    rw [hc.cut_eq, take_length_add_append, take_append_of_le_length hj.le, padded,
      length_append, length_take, min_eq_left hj.le, append_assoc]
  rw [hstream] at h
  obtain ⟨r', hat, -, hrecs⟩ := h.records_laid chunk k c hc.before (by decide) hr
  rw [Nat.zero_add] at hat
  have hgap : gap (b.length + j) = gap (b.length % pageSize + j) :=
    gap_congr (Nat.mod_add_mod _ _ _).symm
  rw [hgap] at hat
  exact ⟨(records chunk k r').1, by rw [hrecs], records_cut chunk k hlays (mod_lt _) hj hat⟩

/-- Behind the records before the cut comes the record in which it falls. -/
theorem CutAt.exists_append {k : Codecs}
    (hc : CutAt k c segment cut recs rec b j) {all : List (List Byte)}
    (hall : FileOf k c segment all) : ∃ l, all = recs ++ rec :: l := by
  obtain ⟨b', rest, hlays, hseg, -⟩ := hc.within
  have hlaid : Laid 0 ((recs ++ [rec]).map (compressed k c)) (b ++ b') := by
    rw [map_append]
    refine hc.before.snoc ?_ (by decide)
    rwa [Nat.zero_add]
  -- a reader over the whole segment
  have hread := readAll_files (fun _ _ => 0) k (.cons hall .nil)
  have hat : At (newReader [segment]) (b ++ b' ++ (rest ++ zeros (gap segment.length))) 0 := by
    refine ⟨?_, rfl⟩
    simp [newReader, padded, hseg]
  obtain ⟨r', -, -, hrecs⟩ := hat.records_laid (fun _ _ => 0) k c hlaid (by decide)
    (by simp [Whole, newReader])
  rw [readAll, hrecs] at hread
  refine ⟨(records (fun _ _ => 0) k r').1, ?_⟩
  simpa using (congrArg Prod.fst hread).symm

/-- **Cut segments.** A reader over a log whose last file is cut returns a prefix of the logged
records, if and only if it does not make another record of the last fragment before the cut. -/
theorem isPrefix_cut_iff (k : Codecs) (pages : ℕ) (c : CompressionType)
    (calls : List (List (List Byte))) (cut : ℕ) :
    (readAll chunk k ((logAll k (newSize pages c) calls).done ++
      [(logAll k (newSize pages c) calls).segment.take cut])).1 <+: calls.flatten ↔
      ¬ Invents k c (logAll k (newSize pages c) calls).segment cut := by
  obtain ⟨groups, recs, b, hcalls, hdone, hlaid, hseg⟩ := laid_logAll k pages c calls
  set w := logAll k (newSize pages c) calls
  obtain ⟨i, hi, hlead⟩ := exists_lead_eq b.length
  have hfile : FileOf k c w.segment recs := ⟨b, hlaid, by rw [hseg, hlead, padded_zeros hi]⟩
  -- the finished segments are read first
  have hat : At (newReader (w.done ++ [w.segment.take cut]))
      (w.done.flatMap padded ++ padded (w.segment.take cut)) 0 := ⟨by simp [newReader], rfl⟩
  obtain ⟨r, hat, hr, hrecs⟩ := hat.records_files chunk k hdone (by simp [Whole, newReader])
  rw [readAll, hrecs, ← hcalls, prefix_append_right_inj]
  constructor
  · rintro hpre ⟨recs₁, rec, b₁, j, hc, b', rec', ht, hdec, hne⟩
    obtain ⟨l, hl, ⟨rec'', ⟨b'', ht', hdec'⟩, rfl⟩ | ⟨hno, -⟩⟩ := hc.records_eq chunk hat hr
    · obtain ⟨l', rfl⟩ := hc.exists_append hfile
      rw [ht.unique ht', hdec'] at hdec
      rw [hl, prefix_append_right_inj, cons_prefix_cons] at hpre
      exact hne (Except.ok.inj hdec ▸ hpre.1)
    · exact hno ⟨rec', b', ht, hdec⟩
  · intro hno
    rcases Nat.lt_or_ge cut b.length with hlt | hge
    · obtain ⟨rs₁, body, rs₂, b₁, b₂, b₃, hrs, hb, hlaid₁, hlays, hle, hlt'⟩ :=
        exists_cut hlaid (by decide) hlt
      obtain ⟨recs₁, recs₂, rfl, rfl, hrecs₂⟩ := map_eq_append_iff.1 hrs
      obtain ⟨rec, recs₃, rfl, rfl, rfl⟩ := map_eq_cons_iff.1 hrecs₂
      rw [Nat.zero_add] at hlays
      have hc : CutAt k c w.segment cut recs₁ rec b₁ (cut - b₁.length) :=
        ⟨hlaid₁, ⟨b₂, b₃ ++ lead (b.length % pageSize), hlays, by rw [hseg, hb]; simp, by omega⟩,
          by omega⟩
      obtain ⟨l, hl, ⟨rec', ⟨b', ht, hdec⟩, rfl⟩ | ⟨-, rfl⟩⟩ := hc.records_eq chunk hat hr
      · obtain rfl : rec' = rec := by
          by_contra hne
          exact hno ⟨recs₁, rec, b₁, _, hc, b', rec', ht, hdec, hne⟩
        rw [hl]
        exact ⟨recs₃, by simp⟩
      · rw [hl, append_nil]
        exact prefix_append _ _
    · -- only zeros are lost
      obtain ⟨l, rfl⟩ : ∃ l, cut = b.length + l := ⟨cut - b.length, by omega⟩
      have hfull : FileOf k c (w.segment.take (b.length + l)) recs := by
        refine ⟨b, hlaid, ?_⟩
        rw [hseg, hlead, take_length_add_append, zeros, take_replicate, ← zeros,
          padded_zeros ((min_le_right _ _).trans hi)]
      obtain ⟨r', hat', hr', hrecs'⟩ := At.records_files chunk k (.cons hfull .nil) (r := r)
        (s := []) (by simpa using hat) hr
      rw [hrecs', hat'.records_nil chunk k hr']
      simp

/-! ### A header cut behind its first byte -/

/-- A fragment of which only the first byte of the header is left passes, as one with no bytes. -/
theorem passes_one (part : List Byte) : Passes part 1 ∧ tornPart part 1 = [] := by
  have hpart : tornPart part 1 = [] := by
    show List.take 0 _ = []
    exact take_zero
  exact ⟨by rw [Passes, hpart]; rfl, hpart⟩

/-- The log of one record with the byte 42. -/
def oneRecord : WL := logAll plainCodecs (newSize 1 .none) [[[42]]]

/-- Cut to one byte, the log is read as an empty record, which was never logged. -/
theorem not_isPrefix_oneRecord : ¬ (readAll (fun _ _ => 0) plainCodecs
    (oneRecord.done ++ [oneRecord.segment.take 1])).1 <+: [[42]] := by
  have hdone : oneRecord.done = [] := by decide +kernel
  have hseg : oneRecord.segment = fragment .none .full [42] := by decide +kernel
  have hc : CutAt plainCodecs .none oneRecord.segment 1 [] [42] [] 1 := by
    refine ⟨.nil 0, ⟨fragment .none .full [42], [], ?_, by rw [hseg]; simp, by decide⟩, rfl⟩
    exact Lays.last (by decide)
  obtain ⟨hp, hpart⟩ := passes_one [42]
  have ht : Taken 0 [42] 1 [] := hpart ▸ Taken.last (by decide) rfl (by decide) (by decide) hp
  have hat : At (newReader [oneRecord.segment.take 1]) (padded (oneRecord.segment.take 1)) 0 :=
    ⟨by simp [newReader], rfl⟩
  obtain ⟨l, hl, ⟨rec', ⟨b', ht', hdec⟩, rfl⟩ | ⟨hno, -⟩⟩ := hc.records_eq (fun _ _ => 0) hat
    (by simp [Whole, newReader])
  · rw [← ht.unique ht'] at hdec
    cases hdec
    rw [hdone, nil_append, readAll, hl]
    decide
  · exact absurd ⟨[], [], ht, rfl⟩ hno

end TopcDB.Wlog.Torn
