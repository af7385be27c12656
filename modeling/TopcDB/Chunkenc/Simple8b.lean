import TopcDB.Go.Basic
import TopcDB.Lib.Packed

/-! # Simple8b words (`Encode`, `EncodeAll`, `Decode`)

A word holds a selector in its four high bits and, below it, as many values as the selector says,
all of one width. The two widest runs hold no bits at all: they stand for ones. `Encode` packs as
many values of its argument as one word can hold (`encode_spec`) and fails exactly when the first
of them has more than 60 bits (`encode_error`). -/

namespace TopcDB.Chunkenc.Simple8b

open List Lib.Bits Lib.Packed Go.Basic

/-- `canPack` returns true if `n` elements of `src` can be stored using `bits` per element. -/
def canPack (src : List U64) (n bits : ℕ) : Bool :=
  if src.length < n then false
  -- the selectors of no bits look at the whole of `src`, not only at its first `n` elements
  else if bits = 0 then src.all (· == 1#64)
  else (src.take n).all (· ≤ 1#64 <<< bits - 1#64)

/-! ### The family of packings -/

/-- The selector above the values of `src`, of `bits` bits each. -/
def pack (sel bits : ℕ) (src : List U64) : U64 :=
  BitVec.ofNat 64 sel <<< 60 ||| packFields bits 0 src

/-- The first `n` elements of `dst` are overwritten by the fields of `v`. -/
def unpack (n bits : ℕ) (v : U64) (dst : List U64) : List U64 :=
  (range n).map (field bits v) ++ dst.drop n

/-- All elements of `dst` are overwritten by ones. -/
def unpackOnes (_ : U64) (dst : List U64) : List U64 := dst.map fun _ => 1#64

def pack240 (_ : List U64) : U64 := 0#64
def pack120 (_ : List U64) : U64 := 0#64
def pack60 : List U64 → U64 := pack 2 1
def pack30 : List U64 → U64 := pack 3 2
def pack20 : List U64 → U64 := pack 4 3
def pack15 : List U64 → U64 := pack 5 4
def pack12 : List U64 → U64 := pack 6 5
def pack10 : List U64 → U64 := pack 7 6
def pack8 : List U64 → U64 := pack 8 7
def pack7 : List U64 → U64 := pack 9 8
def pack6 : List U64 → U64 := pack 10 10
def pack5 : List U64 → U64 := pack 11 12
def pack4 : List U64 → U64 := pack 12 15
def pack3 : List U64 → U64 := pack 13 20
def pack2 : List U64 → U64 := pack 14 30
def pack1 : List U64 → U64 := pack 15 60

def unpack240 : U64 → List U64 → List U64 := unpackOnes
def unpack120 : U64 → List U64 → List U64 := unpackOnes
def unpack60 : U64 → List U64 → List U64 := unpack 60 1
def unpack30 : U64 → List U64 → List U64 := unpack 30 2
def unpack20 : U64 → List U64 → List U64 := unpack 20 3
def unpack15 : U64 → List U64 → List U64 := unpack 15 4
def unpack12 : U64 → List U64 → List U64 := unpack 12 5
def unpack10 : U64 → List U64 → List U64 := unpack 10 6
def unpack8 : U64 → List U64 → List U64 := unpack 8 7
def unpack7 : U64 → List U64 → List U64 := unpack 7 8
def unpack6 : U64 → List U64 → List U64 := unpack 6 10
def unpack5 : U64 → List U64 → List U64 := unpack 5 12
def unpack4 : U64 → List U64 → List U64 := unpack 4 15
def unpack3 : U64 → List U64 → List U64 := unpack 3 20
def unpack2 : U64 → List U64 → List U64 := unpack 2 30
def unpack1 : U64 → List U64 → List U64 := unpack 1 60

/-- A selector: how many values a word holds, their width, and how to read and write them. -/
structure Packing where
  n : ℕ
  bit : ℕ
  unpack : U64 → List U64 → List U64
  pack : List U64 → U64
  n_pos : 0 < n := by decide
  n_le : n ≤ 240 := by decide

def selector : List Packing :=
  [{ n := 240, bit := 0, unpack := unpack240, pack := pack240 },
   { n := 120, bit := 0, unpack := unpack120, pack := pack120 },
   { n := 60, bit := 1, unpack := unpack60, pack := pack60 },
   { n := 30, bit := 2, unpack := unpack30, pack := pack30 },
   { n := 20, bit := 3, unpack := unpack20, pack := pack20 },
   { n := 15, bit := 4, unpack := unpack15, pack := pack15 },
   { n := 12, bit := 5, unpack := unpack12, pack := pack12 },
   { n := 10, bit := 6, unpack := unpack10, pack := pack10 },
   { n := 8, bit := 7, unpack := unpack8, pack := pack8 },
   { n := 7, bit := 8, unpack := unpack7, pack := pack7 },
   { n := 6, bit := 10, unpack := unpack6, pack := pack6 },
   { n := 5, bit := 12, unpack := unpack5, pack := pack5 },
   { n := 4, bit := 15, unpack := unpack4, pack := pack4 },
   { n := 3, bit := 20, unpack := unpack3, pack := pack3 },
   { n := 2, bit := 30, unpack := unpack2, pack := pack2 },
   { n := 1, bit := 60, unpack := unpack1, pack := pack1 }]

/-- `Decode`: the number of values of the word `v`, and `dst` with those values in front. -/
def decode (dst : List U64) (v : U64) : ℕ × List U64 :=
  match selector[(v >>> 60).toNat]? with
  | none => (0, dst)
  | some s => (s.n, s.unpack v dst)

/-- `Encode` packs as many values as it can into one word. -/
def encode (src : List U64) : Except Err (U64 × ℕ) :=
  if canPack src 240 0 then .ok (0#64, 240)
  else if canPack src 120 0 then .ok (1#64 <<< 60, 120)
  else if canPack src 60 1 then .ok (pack60 (src.take 60), 60)
  else if canPack src 30 2 then .ok (pack30 (src.take 30), 30)
  else if canPack src 20 3 then .ok (pack20 (src.take 20), 20)
  else if canPack src 15 4 then .ok (pack15 (src.take 15), 15)
  else if canPack src 12 5 then .ok (pack12 (src.take 12), 12)
  else if canPack src 10 6 then .ok (pack10 (src.take 10), 10)
  else if canPack src 8 7 then .ok (pack8 (src.take 8), 8)
  else if canPack src 7 8 then .ok (pack7 (src.take 7), 7)
  else if canPack src 6 10 then .ok (pack6 (src.take 6), 6)
  else if canPack src 5 12 then .ok (pack5 (src.take 5), 5)
  else if canPack src 4 15 then .ok (pack4 (src.take 4), 4)
  else if canPack src 3 20 then .ok (pack3 (src.take 3), 3)
  else if canPack src 2 30 then .ok (pack2 (src.take 2), 2)
  else if canPack src 1 60 then .ok (pack1 (src.take 1), 1)
  else if 0 < src.length then .error (.valueOutOfBounds src)
  else .ok (0#64, 0)

def wordsBytes (ws : List U64) : List Byte := ws.flatMap fun w => beBytes 8 w.toNat

/-- The loop of `EncodeAll`, whose cases are those of `Encode`. Every turn packs a value, so that a
turn for each value is enough. -/
def encodeAllLoop : ℕ → List U64 → List Byte → Except Err (List Byte)
  | 0, _, dst => .ok dst
  | k + 1, src, dst =>
    if src.length = 0 then .ok dst
    else
      match encode src with
      | .error _ => .error .someValueOutOfBounds
      | .ok (encoded, n) => encodeAllLoop k (src.drop n) (dst ++ beBytes 8 encoded.toNat)

def encodeAll (src : List U64) : Except Err (List Byte) := encodeAllLoop src.length src []

/-! ### The values of a word -/

def wordValues (v : U64) : List U64 :=
  (decode (replicate 240 0#64) v).2.take (decode (replicate 240 0#64) v).1

def wordsValues (ws : List U64) : List U64 := ws.flatMap wordValues

/-- Reading a selector overwrites the values it holds and nothing else of the length. -/
structure Overwrites (s : Packing) : Prop where
  length_eq : ∀ v dst, s.n ≤ dst.length → (s.unpack v dst).length = dst.length
  take_eq : ∀ v dst dst', s.n ≤ dst.length → s.n ≤ dst'.length →
    (s.unpack v dst).take s.n = (s.unpack v dst').take s.n
  small : ∀ v dst, ∀ x ∈ (s.unpack v dst).take s.n, x.toNat < 2 ^ 60

variable {b n sel : ℕ} {s : Packing}

theorem overwrites_unpack (h : s.unpack = unpack s.n b) (hb : b ≤ 60) :
    Overwrites s where
  length_eq v dst hd := by simp [h, unpack]; omega
  take_eq v dst dst' _ _ := by simp [h, unpack, take_left']
  small v dst x hx := by
    simp only [h, unpack] at hx
    rw [take_left' (by simp)] at hx
    obtain ⟨i, -, rfl⟩ := mem_map.1 hx
    exact (toNat_field_lt (by omega) v i).trans_le (Nat.pow_le_pow_right (by omega) hb)

theorem overwrites_ones (h : s.unpack = unpackOnes) : Overwrites s where
  length_eq v dst _ := by simp [h, unpackOnes]
  take_eq v dst dst' hd hd' := by
    simp only [h, unpackOnes, map_const', take_replicate, Nat.min_eq_left hd,
      Nat.min_eq_left hd']
  small v dst x hx := by
    simp only [h, unpackOnes] at hx
    obtain ⟨y, -, rfl⟩ := mem_map.1 (mem_of_mem_take hx)
    decide

theorem overwrites_selector : ∀ s ∈ selector, Overwrites s := by
  simp only [selector, forall_mem_cons]
  refine ⟨overwrites_ones rfl, overwrites_ones rfl, overwrites_unpack (b := 1) rfl (by omega),
    overwrites_unpack (b := 2) rfl (by omega), overwrites_unpack (b := 3) rfl (by omega),
    overwrites_unpack (b := 4) rfl (by omega), overwrites_unpack (b := 5) rfl (by omega),
    overwrites_unpack (b := 6) rfl (by omega), overwrites_unpack (b := 7) rfl (by omega),
    overwrites_unpack (b := 8) rfl (by omega), overwrites_unpack (b := 10) rfl (by omega),
    overwrites_unpack (b := 12) rfl (by omega), overwrites_unpack (b := 15) rfl (by omega),
    overwrites_unpack (b := 20) rfl (by omega), overwrites_unpack (b := 30) rfl (by omega),
    overwrites_unpack (b := 60) rfl (by omega), by simp⟩

theorem exists_selector (v : U64) : ∃ s, selector[(v >>> 60).toNat]? = some s ∧ Overwrites s := by
  have h : (v >>> 60).toNat < selector.length := by
    rw [BitVec.toNat_ushiftRight, Nat.shiftRight_eq_div_pow, show selector.length = 16 from rfl]
    omega
  exact ⟨_, getElem?_eq_getElem h, overwrites_selector _ (getElem_mem h)⟩

variable {dst ws src : List U64}

theorem decode_spec (hd : dst.length = 240) (v : U64) :
    (decode dst v).2.length = 240 ∧ 0 < (decode dst v).1 ∧ (decode dst v).1 ≤ 240 ∧
      (decode dst v).2.take (decode dst v).1 = wordValues v := by
  obtain ⟨s, hs, ho⟩ := exists_selector v
  have hn := s.n_le
  have e : ∀ dst, decode dst v = (s.n, s.unpack v dst) := fun dst => by rw [decode, hs]
  rw [wordValues, e, e]
  refine ⟨?_, s.n_pos, hn, ho.take_eq v _ _ (by omega) ?_⟩
  · rw [ho.length_eq v dst (by omega), hd]
  · rw [length_replicate]; exact hn

theorem wordValues_ne_nil (v : U64) : wordValues v ≠ [] := by
  obtain ⟨h1, h2, h3, h4⟩ := decode_spec (length_replicate (n := 240) (a := 0#64)) v
  intro h
  have := congrArg length (h4.trans h)
  rw [length_take, h1, length_nil] at this
  omega

variable {v x w : U64}

theorem wordValues_lt (hx : x ∈ wordValues v) : x.toNat < 2 ^ 60 := by
  obtain ⟨s, hs, ho⟩ := exists_selector v
  rw [wordValues, decode, hs] at hx
  exact ho.small v _ x hx

theorem length_wordValues_le (v : U64) : (wordValues v).length ≤ 240 := by
  obtain ⟨-, -, h, h'⟩ := decode_spec (length_replicate (n := 240) (a := 0#64)) v
  rw [← h', length_take]
  exact (Nat.min_le_left _ _).trans h

@[simp] theorem wordsValues_nil : wordsValues [] = [] := rfl

@[simp] theorem wordsValues_append (ws ws' : List U64) :
    wordsValues (ws ++ ws') = wordsValues ws ++ wordsValues ws' := by simp [wordsValues]

@[simp] theorem wordsValues_cons (w : U64) (ws : List U64) :
    wordsValues (w :: ws) = wordValues w ++ wordsValues ws := by simp [wordsValues]

theorem wordsValues_lt (hx : x ∈ wordsValues ws) : x.toNat < 2 ^ 60 := by
  obtain ⟨w, -, hw⟩ := mem_flatMap.1 hx
  exact wordValues_lt hw

variable (ws : List U64)

theorem length_wordsValues_le : (wordsValues ws).length ≤ 240 * ws.length := by
  induction ws with
  | nil => simp
  | cons w ws ih =>
    have := length_wordValues_le w
    rw [wordsValues_cons, length_append, length_cons]; omega

theorem length_le_length_wordsValues : ws.length ≤ (wordsValues ws).length := by
  induction ws with
  | nil => simp
  | cons w ws ih =>
    have := length_pos_iff.2 (wordValues_ne_nil w)
    rw [wordsValues_cons, length_append, length_cons]; omega

theorem wordsBytes_append (ws ws' : List U64) :
    wordsBytes (ws ++ ws') = wordsBytes ws ++ wordsBytes ws' := by simp [wordsBytes]

@[simp] theorem length_wordsBytes : (wordsBytes ws).length = 8 * ws.length := by
  induction ws with
  | nil => rfl
  | cons w ws ih => simp only [wordsBytes, flatMap_cons, length_append,
      length_beBytes, length_cons] at ih ⊢; omega

/-! ### What `Encode` packs -/

/-- The word `w` holds the first `n` values of `src`, at least one, and all of them in range. -/
structure Packs (src : List U64) (w : U64) (n : ℕ) : Prop where
  n_pos : 0 < n
  n_le : n ≤ src.length
  values : wordValues w = src.take n
  small : ∀ v ∈ src.take n, v.toNat < 2 ^ 60

theorem canPack_bits (hb : 0 < b) (hb' : b ≤ 64) :
    canPack src n b = true ↔ n ≤ src.length ∧ ∀ v ∈ src.take n, v.toNat < 2 ^ b := by
  have h1 : (1#64 <<< b - 1#64).toNat = 2 ^ b - 1 := toNat_mask (by omega) hb'
  have h2 := Nat.two_pow_pos b
  have h3 : ∀ v : U64, v ≤ 1#64 <<< b - 1#64 ↔ v.toNat < 2 ^ b := fun v => by
    rw [BitVec.le_def, h1]; omega
  unfold canPack
  split_ifs with h h0
  · simp; omega
  · omega
  · simp [h3, show n ≤ src.length by omega]

theorem packs_pack (hsel : selector[sel]? = some s) (hn : s.n = n) (hu : s.unpack = unpack n b)
    (hb : 0 < b) (hbn : b * n ≤ 60) (hc : canPack src n b = true) :
    Packs src (pack sel b (src.take n)) n := by
  have hnp := s.n_pos
  have hb60 : b ≤ 60 := (Nat.le_mul_of_pos_right b (by omega)).trans hbn
  have hsel16 : sel < 16 := (List.getElem?_eq_some_iff.1 hsel).1
  obtain ⟨hle, hall⟩ := (canPack_bits hb (by omega)).1 hc
  have hlen : (src.take n).length = n := by simp [hle]
  have htag : (BitVec.ofNat 64 sel).toNat = sel := by simp; omega
  have hshift : pack sel b (src.take n) >>> 60 = BitVec.ofNat 64 sel :=
    shiftRight_tagged hall (by rw [hlen]; exact hbn) (by rw [htag]; omega)
  refine ⟨by omega, hle, ?_, fun v hv =>
    (hall v hv).trans_le (Nat.pow_le_pow_right (by omega) hb60)⟩
  rw [wordValues, decode, hshift, htag, hsel]
  simp only [hu, hn, unpack]
  rw [take_left' (by simp)]
  refine ext_getElem (by simp [hle]) fun i hi hi' => ?_
  rw [getElem_map, getElem_range]
  exact field_tagged hall (by rw [hlen]; exact hbn) (by omega) (by omega) _ hi'

theorem packs_ones (hw : (w >>> 60).toNat = sel) (hsel : selector[sel]? = some s) (hn : s.n = n)
    (hu : s.unpack = unpackOnes) (hc : canPack src n 0 = true) : Packs src w n := by
  have hn1 := s.n_pos
  have hn2 := s.n_le
  unfold canPack at hc
  rw [if_pos rfl] at hc
  split_ifs at hc with hlen
  simp only [all_eq_true, beq_iff_eq] at hc
  refine ⟨by omega, by omega, ?_, fun v hv => ?_⟩
  · rw [wordValues, decode, hw, hsel]
    simp only [hu, hn, unpackOnes, map_replicate, take_replicate]
    refine (eq_replicate_iff.2 ⟨?_, fun v hv => hc v (mem_of_mem_take hv)⟩).symm
    rw [length_take]; omega
  · rw [hc v (mem_of_mem_take hv)]; decide

theorem packs_ite {c : Bool} {e : Except Err (U64 × ℕ)} (ht : c = true → Packs src w n)
    (hf : c = false → ∃ w n, e = .ok (w, n) ∧ Packs src w n) :
    ∃ w' n', (if c then .ok (w, n) else e) = .ok (w', n') ∧ Packs src w' n' := by
  cases c with
  | true => exact ⟨w, n, rfl, ht rfl⟩
  | false => exact hf rfl

/-- **`Encode` packs a prefix** whenever the first value has at most 60 bits. -/
theorem encode_spec (src : List U64) (hx : x.toNat < 2 ^ 60) :
    ∃ w n, encode (x :: src) = .ok (w, n) ∧ Packs (x :: src) w n := by
  refine packs_ite (packs_ones (by decide : _ = 0) rfl rfl rfl) fun _ => ?_
  refine packs_ite (packs_ones (by decide : _ = 1) rfl rfl rfl) fun _ => ?_
  iterate 13 refine packs_ite (packs_pack rfl rfl rfl (by omega) (by omega)) fun _ => ?_
  refine packs_ite (packs_pack rfl rfl rfl (by omega) (by omega)) fun h => ?_
  -- the last selector holds any value of 60 bits, so that nothing is left over
  rw [(canPack_bits (by omega) (by omega)).2 ⟨by simp, by simpa using hx⟩] at h
  exact absurd h (by decide)

theorem canPack_large (hx : 2 ^ 60 ≤ x.toNat) (hn : 0 < n) (hb : b ≤ 60) :
    canPack (x :: src) n b = false := by
  rcases Nat.eq_zero_or_pos b with rfl | hb0
  · have : x ≠ 1#64 := fun h => by rw [h] at hx; exact absurd hx (by decide)
    simp [canPack, this]
  · rw [Bool.eq_false_iff]
    intro h
    obtain ⟨m, rfl⟩ := Nat.exists_eq_succ_of_ne_zero (by omega : n ≠ 0)
    have := ((canPack_bits hb0 (by omega)).1 h).2 x (by simp)
    exact absurd (this.trans_le (Nat.pow_le_pow_right (by omega) hb)) (by omega)

theorem ite_error {c : Bool} {a e : Except Err (U64 × ℕ)} {x : Err} (hc : c = false)
    (he : e = .error x) : (if c then a else e) = .error x := by rw [hc]; exact he

/-- **`Encode` fails** on a first value of more than 60 bits. -/
theorem encode_error (hx : 2 ^ 60 ≤ x.toNat) :
    encode (x :: src) = .error (.valueOutOfBounds (x :: src)) := by
  unfold encode
  iterate 16 refine ite_error (canPack_large hx (by omega) (by omega)) ?_
  exact if_pos (by simp)

end TopcDB.Chunkenc.Simple8b
