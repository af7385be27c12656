import TopcDB.Chunkenc.CLIterate

/-! # Simplebits payloads of one width

When no value needs more than one bit the planner makes a single selector that packs all values as
one group. The header stores the size of the group in five bits only, so that the decoder takes the
payload for many groups of at most 32 values: it looks for selectors where there are values.
`ReadsBits n r bs cs` says which values it reads. -/

namespace TopcDB.Chunkenc.OneBit

open List Lib.Bits Go.Basic Bstream Simple8b BitSelectors Simplebits CLChunk CLIterate

def ofBit (x : Bool) : U64 := if x then 1 else 0

/-- From the bits `bs` a decoder with groups of `n` one-bit values reads `cs`; `r` values of the
current group are left. A value behind the end is zero, a selector is not. -/
def ReadsBits (n : ℕ) : ℕ → List Bool → List U64 → Prop
  | _, _, [] => True
  | r + 1, bs, c :: cs => c = ofBit (bs.headD false) ∧ ReadsBits n r bs.tail cs
  | 0, bs, c :: cs => bs.head? = some false ∧ c = ofBit (bs.tail.headD false) ∧
      ReadsBits n (n - 1) bs.tail.tail cs

/-! ### The decoder -/

def oneSelector (n : ℕ) : BitSelector := ⟨1, 0, 1, n⟩

/-- The decoder has the bits `bs` before it, and `r` values of the current group. -/
structure AtBit (n r : ℕ) (bs : List Bool) (d : SimplebitsDecoder) : Prop where
  wf : Wf d.br
  rest : rest d.br = bs
  selectors : d.selectors = [oneSelector n]
  pos : d.currIdx = -1 ∧ r = 0 ∨
    d.currSelector = oneSelector n ∧ 0 ≤ d.currIdx ∧ d.currIdx + 1 + r = n

variable {l bs xs ys : List Bool}

theorem readBits_one {br : BReader} (hw : Wf br) {x : Bool} (hr : rest br = x :: l) :
    ∃ br', readBits br 1 = (.ok (ofBit x), br') ∧ Wf br' ∧ rest br' = l := by
  have h := readBits_append hw (l := [x]) hr (by simp) (by simp)
  cases x <;> exact h

variable {d : SimplebitsDecoder}

theorem read_bit (hw : Wf d.br) (hb : d.currSelector.bits = 1) :
    ∃ br, d.read = (ofBit ((rest d.br).headD false), { d with br := br }) ∧ Wf br ∧
      rest br = (rest d.br).tail := by
  rw [SimplebitsDecoder.read, hb]
  cases hr : rest d.br with
  | nil => exact ⟨d.br, by rw [readBits_nil hr]; rfl, hw, by rw [hr]; rfl⟩
  | cons x l =>
    obtain ⟨br, h1, h2, h3⟩ := readBits_one hw hr
    exact ⟨br, by rw [h1]; rfl, h2, h3⟩

variable {n r lag : ℕ}

theorem AtBit.nextDelta_succ (h : AtBit n (r + 1) bs d) :
    ∃ d', (Decoder.simplebits (some d)).nextDelta =
      .ok (some (ofBit (bs.headD false)), .simplebits (some d')) ∧ AtBit n r bs.tail d' := by
  obtain ⟨-, h0⟩ | ⟨hs, hidx, hn⟩ := h.pos
  · omega
  · push_cast at hn
    obtain ⟨br, h1, h2, h3⟩ := read_bit (d := { d with currIdx := d.currIdx + 1 }) h.wf
      (by rw [hs]; rfl)
    rw [h.rest] at h1 h3
    refine ⟨⟨br, d.selectors, d.currSelector, d.currIdx + 1⟩, ?_, h2, h3, h.selectors,
      .inr ⟨hs, ?_, ?_⟩⟩
    · have hnext : d.next = .ok (none, { d with currIdx := d.currIdx + 1 }) := by
        rw [SimplebitsDecoder.next, if_neg (by rw [hs]; simp only [oneSelector]; omega)]
      simp only [Decoder.nextDelta, hnext, h1]
    · simp only; omega
    · simp only; omega

theorem AtBit.next_zero (h : AtBit n 0 bs d) :
    d.next = match readBits d.br 1 with
      | (.error err, br) => .ok (some err, { d with br := br })
      | (.ok selectorIdx, br) =>
        match [oneSelector n][selectorIdx.toNat]? with
        | none => .error .panic
        | some s => .ok (none, { d with br := br, currSelector := s, currIdx := 0 }) := by
  have hcond : d.currIdx = -1 ∨ (d.currSelector.n : ℤ) ≤ d.currIdx + 1 := by
    obtain ⟨h0, -⟩ | ⟨hs, -, hn⟩ := h.pos
    · exact Or.inl h0
    · rw [hs]; right; simp only [oneSelector]; push_cast at hn; omega
  rw [SimplebitsDecoder.next, if_pos hcond, h.selectors]
  rfl

theorem AtBit.nextDelta_zero (hn : 1 ≤ n) (h : AtBit n 0 (false :: bs) d) :
    ∃ d', (Decoder.simplebits (some d)).nextDelta =
      .ok (some (ofBit (bs.headD false)), .simplebits (some d')) ∧ AtBit n (n - 1) bs.tail d' := by
  obtain ⟨br, h1, h2, h3⟩ := readBits_one h.wf h.rest
  obtain ⟨br', k1, k2, k3⟩ := read_bit (d := ⟨br, d.selectors, oneSelector n, 0⟩) h2 rfl
  rw [h3] at k1 k3
  refine ⟨⟨br', d.selectors, oneSelector n, 0⟩, ?_, k2, k3, h.selectors,
    .inr ⟨rfl, le_rfl, by simp only; omega⟩⟩
  have hnext : d.next = .ok (none, ⟨br, d.selectors, oneSelector n, 0⟩) := by
    rw [h.next_zero, h1]; rfl
  simp only [Decoder.nextDelta, hnext, k1]

theorem AtBit.not_yields (h : AtBit n 0 bs d) (hbs : bs.head? ≠ some false) (c : U64)
    (cs : List U64) : ¬ Yields (.simplebits (some d)) (c :: cs) := by
  rintro ⟨d', hd, -⟩
  rw [Decoder.nextDelta, h.next_zero] at hd
  rcases bs with _ | ⟨x, bs⟩
  · rw [readBits_nil h.rest] at hd
    simp at hd
  · obtain ⟨br, h1, -⟩ := readBits_one h.wf h.rest
    cases x with
    | false => simp at hbs
    | true =>
      rw [h1] at hd
      simp [ofBit] at hd

/-- **What the decoder yields.** -/
theorem yields_iff (hn : 1 ≤ n) : ∀ (cs : List U64) {r : ℕ} {bs : List Bool}
    {d : SimplebitsDecoder}, AtBit n r bs d →
      (Yields (.simplebits (some d)) cs ↔ ReadsBits n r bs cs)
  | [], _, _, _, _ => by simp [Yields, ReadsBits]
  | c :: cs, r + 1, bs, d, h => by
    obtain ⟨d', hd, h'⟩ := h.nextDelta_succ
    rw [yields_cons_iff hd, yields_iff hn cs h', ReadsBits]
  | c :: cs, 0, bs, d, h => by
    by_cases hbs : bs.head? = some false
    · obtain ⟨bs', rfl⟩ : ∃ bs', bs = false :: bs' := by
        cases bs with
        | nil => simp at hbs
        | cons x bs' => exact ⟨bs', by simpa using hbs⟩
      obtain ⟨d', hd, h'⟩ := h.nextDelta_zero hn
      rw [yields_cons_iff hd, yields_iff hn cs h', ReadsBits]
      simp
    · rw [ReadsBits]
      exact ⟨fun hy => absurd hy (h.not_yields hbs c cs), fun ho => absurd ho.1 hbs⟩

/-! ### Which values are read back -/

theorem readsBits_drop (n : ℕ) (pad : List Bool) : ∀ (r : ℕ) (xs : List Bool),
    ReadsBits n r (xs ++ pad) (xs.map ofBit) ↔
      ReadsBits n 0 (xs.drop r ++ pad) ((xs.drop r).map ofBit)
  | 0, xs => by simp
  | r + 1, [] => by simp [ReadsBits]
  | r + 1, x :: xs => by
    simp only [map_cons, cons_append, ReadsBits, headD_cons, tail_cons, true_and,
      drop_succ_cons, readsBits_drop n pad r xs]

theorem readsBits_zeros (hn : 1 ≤ n) : ∀ (len r m : ℕ),
    ReadsBits n r (replicate m false) (replicate len 0) ↔
      ∀ j, r + j * n < len → r + j * (n + 1) < m
  | 0, r, m => by simp [ReadsBits]
  | len + 1, r + 1, m => by
    rw [replicate_succ, ReadsBits, tail_replicate, readsBits_zeros hn len r (m - 1)]
    have hhead : (0 : U64) = ofBit ((replicate m false).headD false) := by cases m <;> rfl
    simp only [← hhead, true_and]
    exact forall_congr' fun j => by omega
  | len + 1, 0, m => by
    rw [replicate_succ, ReadsBits, tail_replicate, tail_replicate,
      readsBits_zeros hn len (n - 1) (m - 1 - 1)]
    have hhead : (0 : U64) = ofBit ((replicate (m - 1) false).headD false) := by
      cases m - 1 <;> rfl
    have hsel : (replicate m false).head? = some false ↔ 0 < m := by
      cases m <;> simp [replicate_succ]
    simp only [← hhead, true_and, hsel]
    constructor
    · rintro ⟨h0, h⟩ j hj
      cases j with
      | zero => simpa using h0
      | succ i =>
        have := h i (by rw [Nat.succ_mul] at hj; omega)
        rw [Nat.succ_mul]; omega
    · intro h
      refine ⟨by simpa using h 0 (by omega), fun i hi => ?_⟩
      have := h (i + 1) (by rw [Nat.succ_mul]; omega)
      rw [Nat.succ_mul] at this; omega

theorem ofBit_injective : Function.Injective ofBit := by
  intro x y h
  cases x <;> cases y <;> first | rfl | exact absurd h (by decide)

theorem take_succ_false (h : ∀ x ∈ xs.take lag, x = false) (hd : xs.drop lag = false :: ys) :
    ∀ x ∈ xs.take (lag + 1), x = false := by
  rw [take_add, hd]
  intro x hx
  rcases mem_append.1 hx with hx | hx
  · exact h x hx
  · simpa using hx

theorem forall_of_take (h : ∀ x ∈ xs.take lag, x = false) (hd : xs.drop lag = []) :
    ∀ x ∈ xs, x = false := by
  rwa [take_of_length_le (drop_eq_nil_iff.1 hd)] at h

/-- The decoder is `lag` bits ahead of the values `xs`: then the zeros it needs spread to all of
them. -/
theorem eq_false_of_readsBits : ∀ {xs : List Bool} {r lag : ℕ} {pad : List Bool},
    r = 0 ∨ 1 ≤ lag → (∀ x ∈ xs.take lag, x = false) →
    ReadsBits n r (xs.drop lag ++ pad) (xs.map ofBit) → ∀ x ∈ xs, x = false
  | [], _, _, _, _, _, _ => by simp
  | x :: xs, r + 1, 0, _, h0, _, _ => by omega
  | x :: xs, r + 1, lag + 1, pad, _, htake, h => by
    rw [take_succ_cons, forall_mem_cons] at htake
    obtain ⟨rfl, htake⟩ := htake
    rw [drop_succ_cons, map_cons, ReadsBits] at h
    refine forall_mem_cons.2 ⟨rfl, ?_⟩
    rcases hd : xs.drop lag with _ | ⟨y, ys⟩
    · exact forall_of_take htake hd
    · rw [hd, cons_append, headD_cons, tail_cons] at h
      obtain rfl := ofBit_injective h.1
      have hrec : ReadsBits n r (xs.drop (lag + 1) ++ pad) (xs.map ofBit) := by
        rw [← drop_drop, hd]; exact h.2
      exact eq_false_of_readsBits (Or.inr (Nat.succ_pos lag)) (take_succ_false htake hd) hrec
  | x :: xs, 0, lag, pad, _, htake, h => by
    rw [map_cons, ReadsBits] at h
    rcases hd : (x :: xs).drop lag with _ | ⟨y, ys⟩
    · exact forall_of_take htake hd
    · rw [hd, cons_append, head?_cons, tail_cons] at h
      obtain ⟨hy, hx, hrest⟩ := h
      obtain rfl : y = false := by simpa using hy
      have htake' := take_succ_false htake hd
      rw [take_succ_cons, forall_mem_cons] at htake'
      obtain ⟨rfl, htake'⟩ := htake'
      have hys := congrArg tail hd
      rw [tail_drop, drop_succ_cons, tail_cons] at hys
      refine forall_mem_cons.2 ⟨rfl, ?_⟩
      rcases hd' : ys with _ | ⟨z, zs⟩
      · exact forall_of_take htake' (hys.trans hd')
      · rw [hd', cons_append, headD_cons] at hx
        obtain rfl := ofBit_injective hx
        have hrec : ReadsBits n (n - 1) (xs.drop (lag + 1) ++ pad) (xs.map ofBit) := by
          rw [← drop_drop, hys, hd']
          rw [hd'] at hrest
          exact hrest
        exact eq_false_of_readsBits (Or.inr (Nat.succ_pos lag))
          (take_succ_false htake' (hys.trans hd')) hrec

/-- **The values read back**: behind the first group there are only zeros, and every selector is
there. -/
theorem readsBits_iff (hn : 1 ≤ n) (p : ℕ) (hne : xs ≠ []) :
    ReadsBits n 0 (false :: (xs ++ replicate p false)) (xs.map ofBit) ↔
      (∀ x ∈ xs.drop n, x = false) ∧ ∀ j, j * n < xs.length → j * (n + 1) < 1 + xs.length + p := by
  obtain ⟨x, xs, rfl⟩ := exists_cons_of_ne_nil hne
  have hdrop : (x :: xs).drop n = xs.drop (n - 1) := by
    obtain ⟨m, rfl⟩ := Nat.exists_eq_add_of_le' hn
    rfl
  have hlen : (xs.drop (n - 1)).length = (x :: xs).length - n := by
    rw [length_drop, length_cons]; omega
  rw [map_cons, ReadsBits, hdrop]
  simp only [head?_cons, tail_cons, cons_append, headD_cons, true_and]
  rw [readsBits_drop]
  set ys := xs.drop (n - 1)
  have hzeros : (∀ y ∈ ys, y = false) →
      (ReadsBits n 0 (ys ++ replicate p false) (ys.map ofBit) ↔
        ∀ j, j * n < (x :: xs).length → j * (n + 1) < 1 + (x :: xs).length + p) := by
    intro hy
    rw [eq_replicate_of_mem hy, map_replicate, replicate_append_replicate,
      show ofBit false = 0 from rfl, readsBits_zeros hn, hlen]
    constructor
    · intro h j hj
      cases j with
      | zero => simp
      | succ i =>
        rw [Nat.succ_mul] at hj ⊢
        have := h i (by omega)
        omega
    · intro h j hj
      have := h (j + 1) (by rw [Nat.succ_mul]; omega)
      rw [Nat.succ_mul] at this
      omega
  constructor
  · intro h
    have h' : ReadsBits n 0 (ys.drop 0 ++ replicate p false) (ys.map ofBit) := h
    have hy : ∀ y ∈ ys, y = false := eq_false_of_readsBits (Or.inl rfl) (by simp) h'
    exact ⟨hy, (hzeros hy).1 h⟩
  · rintro ⟨hy, h⟩
    exact (hzeros hy).2 h

theorem exists_of_readsBits : ∀ {cs : List U64} {r : ℕ} {bs : List Bool},
    ReadsBits n r bs cs → ∃ xs : List Bool, cs = xs.map ofBit
  | [], _, _, _ => ⟨[], rfl⟩
  | c :: cs, r + 1, bs, ⟨hc, h⟩ => by
    obtain ⟨xs, rfl⟩ := exists_of_readsBits h
    exact ⟨_ :: xs, by rw [hc]; rfl⟩
  | c :: cs, 0, bs, ⟨_, hc, h⟩ => by
    obtain ⟨xs, rfl⟩ := exists_of_readsBits h
    exact ⟨_ :: xs, by rw [hc]; rfl⟩

theorem exists_of_lt_two : ∀ {cs : List U64}, (∀ c ∈ cs, c.toNat < 2) →
    ∃ xs : List Bool, cs = xs.map ofBit
  | [], _ => ⟨[], rfl⟩
  | c :: cs, h => by
    obtain ⟨xs, rfl⟩ := exists_of_lt_two fun c hc => h c (mem_cons_of_mem _ hc)
    have hc := h c mem_cons_self
    refine ⟨decide (c = 1) :: xs, ?_⟩
    have h01 : c = 0 ∨ c = 1 := by bv_omega
    rcases h01 with rfl | rfl <;> rfl

/-! ### The payload -/

theorem toBits_ofBit (x : Bool) : toBits 1 (ofBit x).toNat = [x] := by cases x <;> rfl

theorem groupBits_oneSelector (n : ℕ) (xs : List Bool) :
    groupBits (oneSelector n) (xs.map ofBit) = false :: xs := by
  have hflat : (xs.map ofBit).flatMap (fun v => toBits 1 v.toNat) = xs := by
    induction xs with
    | nil => rfl
    | cons x xs ih => rw [map_cons, flatMap_cons, toBits_ofBit, ih]; rfl
  simp only [groupBits, oneSelector, hflat]
  rfl

theorem packingAll_single {src : List U64} (hne : src ≠ []) {s : BitSelector}
    (hn : s.n = src.length) (hfit : canPack src s.n s.bits = true) :
    packingAll src [s] = .ok (bitsPack src s (writeSelectorMeta [s] ⟨[], 0⟩)) := by
  obtain ⟨v, vs, rfl⟩ := exists_cons_of_ne_nil hne
  rw [packingAll, length_cons, packingLoop, find?_cons, hfit]
  simp only
  rw [if_neg (by rw [hn]; simp), hn, drop_length, packingLoop]

/-- The number of values in a group, as the header stores it. -/
def storedN (n : ℕ) : ℕ := (n - 1) % 32 + 1

/-- **The payload of values of one bit**, and the decoder at its start. -/
theorem packingAll_one (hne : xs ≠ []) (hlen : xs.length < 2 ^ 16) :
    ∃ b d, packingAll (xs.map ofBit) [oneSelector xs.length] = .ok b ∧
      newSimplebitsDecoder b.stream = some d ∧
      8 * b.stream.length = 17 + xs.length + b.count ∧ b.count < 8 ∧
      AtBit (storedN xs.length) 0 (false :: (xs ++ replicate b.count false)) d := by
  have hpos := length_pos_iff.2 hne
  have hlm : (xs.map ofBit).length = xs.length := length_map _
  have hne' : xs.map ofBit ≠ [] := by simpa using hne
  have h0 := holds_writeSelectorMeta (holds_empty []) [oneSelector xs.length]
  rw [bytesBits_nil, nil_append] at h0
  have hb := holds_bitsPack h0 (s := oneSelector xs.length) (by simp [oneSelector])
    (by simp [oneSelector]) (xs.map ofBit)
  have htake : (xs.map ofBit).take (oneSelector xs.length).n = xs.map ofBit := by
    rw [oneSelector, take_of_length_le (by rw [hlm])]
  rw [htake, groupBits_oneSelector] at hb
  have hmeta : (writeSelectorMeta [oneSelector xs.length] ⟨[], 0⟩).count < 8 :=
    count_writeBits_lt (count_writeBits_lt (count_writeBits_lt (by decide) _ _) _ _) _ _
  have hcount := count_bitsPack_lt hmeta (s := oneSelector xs.length) Nat.one_pos (xs.map ofBit)
  set b := bitsPack (xs.map ofBit) (oneSelector xs.length)
    (writeSelectorMeta [oneSelector xs.length] ⟨[], 0⟩)
  have hr : rest (newBReader b.stream) = metaBits [oneSelector xs.length] ++
      (false :: (xs ++ replicate b.count false)) := by
    rw [rest_newBReader, hb.bits]; simp
  obtain ⟨br, h1, h2, h3⟩ := readSelectorMeta_append (by simp) (by simp) (wf_newBReader _) hr
  have hstored : storedFrom (BitVec.ofNat 64 ([oneSelector xs.length].length - 1)) 0
      [oneSelector xs.length] = [oneSelector (storedN xs.length)] := by
    simp only [storedFrom, oneSelector, toNat_ofNat_pred hpos (by omega), storedN]
    rfl
  rw [hstored] at h1
  refine ⟨b, ⟨br, [oneSelector (storedN xs.length)], default, -1⟩, ?_, ?_, ?_, hcount, h2, h3, rfl,
    .inl ⟨rfl, rfl⟩⟩
  · have hfit : canPack (xs.map ofBit) xs.length 1 = true := by
      refine (canPack_bits (by omega) (by omega)).2 ⟨by rw [hlm], fun v hv => ?_⟩
      obtain ⟨x, -, rfl⟩ := mem_map.1 (mem_of_mem_take hv)
      cases x <;> decide
    exact packingAll_single hne' (by rw [hlm]; rfl) hfit
  · rw [newSimplebitsDecoder, h1]
  · rw [hb.length]
    simp [metaBits]; omega

end TopcDB.Chunkenc.OneBit
