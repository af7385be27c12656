import TopcDB.Chunkenc.HuffmanTree
import TopcDB.Chunkenc.Simple8bStream
import TopcDB.Chunkenc.Zigzag

/-! # Huffman payloads (`HuffmanEncodeWithoutTimesMap`, `HuffmanDecoder`)

The payload starts with the table of frequencies: two lengths, the differences of the sorted values
and the coded differences of their frequencies, both as Simple8b words. The codes of the values
follow as bits. The decoder builds the tree again from the table. -/

namespace TopcDB.Chunkenc.Huffman

open List Lib.Bits Lib.Assoc Lib.Sort Go.Basic Bstream Zigzag Simple8b Simple8bStream HuffmanTree

abbrev TimesTab := AssocMap U64 I64

/-- The order of each `range` over a table that a call makes, numbered in the order of the
statements. -/
abbrev Ranges := ℕ → RangeOrder (U64 × I64)

/-! ### The encoder -/

/-- One turn of the loop that counts the values. -/
def count (m : TimesTab) (v : U64) : TimesTab :=
  m.set v (match m.get? v with
    | some cnt => cnt + 1
    | none => 1)

def countTimes (input : List U64) : TimesTab := input.foldl count AssocMap.empty

/-- The differences of consecutive keys, from `lastKey` on. -/
def keyDeltas : U64 → List U64 → List U64
  | _, [] => []
  | lastKey, key :: keys => (key - lastKey) :: keyDeltas key keys

/-- `timesTab[key]`, which is zero for a key that is missing. -/
def timesOf (timesTab : TimesTab) (key : U64) : I64 := (timesTab.get? key).getD 0

/-- The coded differences of consecutive frequencies, from `times` on. -/
def timesDeltas (timesTab : TimesTab) : I64 → List U64 → List U64
  | _, [] => []
  | times, key :: keys =>
    zigzag (timesOf timesTab key - times) :: timesDeltas timesTab (timesOf timesTab key) keys

variable (order : RangeOrder (U64 × I64))

def sortedKeys (timesTab : TimesTab) : List U64 :=
  sortBy (fun x y => x < y) ((order.visit timesTab.entries).map Prod.fst)

/-- The bytes of the table after its two lengths, none when a value does not fit. -/
def serializeHuffmanTree (timesTab : TimesTab) (ptr : ℕ) : Option BStream :=
  let keys := sortedKeys order timesTab
  match (newSimple8bEncoder.writeAll (keyDeltas 0 keys)).getBytes.2,
    (newSimple8bEncoder.writeAll (timesDeltas timesTab 0 keys)).getBytes.2 with
  | .ok b1, .ok b2 =>
    some ⟨replicate ptr 0#8 ++ (beBytes 4 b1.length ++ beBytes 4 b2.length ++ b1 ++ b2), 0⟩
  | _, _ => none

def huffmanEncoding (input : List U64) (encodeTab : AssocMap U64 (List Bool)) (b : BStream) :
    BStream :=
  input.foldl (fun b v => ((encodeTab.get? v).getD []).foldl writeBit b) b

/-- `ptr` zero bytes and the payload. There is no stream without values, or when the table cannot be
written. -/
def huffmanEncodeWithoutTimesMap (ranges : Ranges) (input : List U64) (ptr : ℕ) : Option BStream :=
  let m := countTimes input
  match buildTree ((ranges 0).visit m.entries) with
  | none => none
  | some tree =>
    (serializeHuffmanTree (ranges 1) m ptr).map (huffmanEncoding input (createEncodingTable tree))

/-! ### The decoder -/

structure HuffmanDecoder where
  root : TreeNode
  br : BReader
  val : U64
  deriving DecidableEq

variable (b : List Byte)

def readHuffmanMeta (ptr : ℕ) : Except Fault (ℕ × ℕ) :=
  (slice b ptr (ptr + 8)).map fun l => (beNat (l.take 4), beNat (l.drop 4))

/-- The loop that reads the table, of at most `k` turns. -/
def readTimes : ℕ → Simple8bDecoder → Simple8bDecoder → U64 → I64 → TimesTab → TimesTab
  | 0, _, _, _, _, m => m
  | k + 1, valueDecoder, timesDecoder, v, t, m =>
    match valueDecoder.next with
    | (false, _) => m
    | (true, valueDecoder) =>
      match timesDecoder.next with
      | (false, _) => m
      | (true, timesDecoder) =>
        let v := v + valueDecoder.read
        let t := t + uncode timesDecoder.read
        readTimes k valueDecoder timesDecoder v t (m.set v t)

/-- The table, and where the codes start. A word holds at most 240 values, which bounds the turns
of the loop. -/
def deserializeHuffmanTree (ptr : ℕ) : Except Fault (TimesTab × ℕ) := do
  let (len1, len2) ← readHuffmanMeta b ptr
  let b1 ← slice b (ptr + 8) (ptr + 8 + len1)
  let b2 ← slice b (ptr + 8 + len1) (ptr + 8 + len1 + len2)
  return (readTimes (30 * len1 + 1) (newSimple8bDecoder b1) (newSimple8bDecoder b2) 0 0
    AssocMap.empty, ptr + 8 + len1 + len2)

/-- There is no decoder when the table is empty. -/
def newHuffmanDecoder (ptr1 : ℕ) : Except Fault (Option HuffmanDecoder) := do
  let (m, ptr2) ← deserializeHuffmanTree b ptr1
  match buildTree (order.visit m.entries) with
  | none => return none
  | some tree =>
    let codes ← sliceFrom b ptr2
    return some ⟨tree, newBReader codes, 0⟩

/-- `Next`, with the value that `Read` gives afterwards. -/
def HuffmanDecoder.next (hd : HuffmanDecoder) : Option U64 × HuffmanDecoder :=
  match walk hd.root hd.br with
  | (none, br) => (none, { hd with br := br })
  | (some v, br) => (some v, { hd with br := br, val := v })

/-! ### The table of an input -/

variable (input : List U64)

theorem countTimes_concat (v : U64) :
    countTimes (input ++ [v]) = count (countTimes input) v := by simp [countTimes]

/-- The table counts every value of the input and no other. -/
theorem get?_countTimes (k : U64) : (countTimes input).get? k =
    if k ∈ input then some (BitVec.ofNat 64 (input.count k)) else none := by
  induction input using reverseRecOn with
  | nil => rfl
  | append_singleton l v ih =>
    rw [countTimes_concat, count, AssocMap.get?_set]
    by_cases hk : k = v
    · subst hk
      have hself : k ∈ l ++ [k] := by simp
      rw [if_pos rfl, ih, if_pos hself, count_append, count_singleton_self]
      split_ifs with hmem
      · rw [BitVec.ofNat_add]; rfl
      · rw [count_eq_zero_of_not_mem hmem]; rfl
    · have hc : List.count k [v] = 0 := count_eq_zero_of_not_mem (by simpa using hk)
      rw [if_neg hk, ih, count_append, hc]
      simp [hk]

theorem mem_keys_countTimes (k : U64) : k ∈ (countTimes input).keys ↔ k ∈ input := by
  rw [← not_iff_not, ← AssocMap.get?_eq_none_iff, get?_countTimes]
  simp

variable {input keys ws1 ws2 vs : List U64}

theorem entries_countTimes_ne_nil (h : input ≠ []) : (countTimes input).entries ≠ [] := by
  obtain ⟨v, l, rfl⟩ := exists_cons_of_ne_nil h
  have := (mem_keys_countTimes (v :: l) v).2 mem_cons_self
  intro h0
  rw [AssocMap.keys, h0] at this
  simp at this

theorem timesOf_countTimes {k : U64} (hlen : input.length < 2 ^ 32) :
    0 ≤ (timesOf (countTimes input) k).toInt ∧ (timesOf (countTimes input) k).toInt < 2 ^ 32 := by
  rw [timesOf, get?_countTimes]
  split_ifs with h
  · have := (count_le_length (a := k) (l := input)).trans_lt hlen
    rw [Option.getD_some, BitVec.toInt_eq_toNat_of_lt (by rw [BitVec.toNat_ofNat]; omega),
      BitVec.toNat_ofNat]
    omega
  · decide

variable {tab : TimesTab}

theorem entries_perm_of_keys (h : keys.Perm tab.keys) :
    (keys.map fun k => (k, timesOf tab k)).Perm tab.entries := by
  refine (h.map _).trans ?_
  rw [AssocMap.keys, map_map]
  refine Perm.of_eq ?_
  conv_rhs => rw [← map_id tab.entries]
  refine map_congr_left fun p hp => ?_
  have := (tab.get?_eq_some_iff p.1 p.2).2 hp
  simp [timesOf, this]

theorem sortedKeys_perm (tab : TimesTab) : (sortedKeys order tab).Perm tab.keys :=
  (sortBy_perm _ _).trans ((order.perm tab.entries).map _)

/-! ### Writing and reading the table -/

/-- The gaps between the sorted keys are in range, so that the table can be written. -/
def GapsFit (tab : TimesTab) : Prop :=
  ∀ x ∈ keyDeltas 0 (sortedKeys order tab), x.toNat < 2 ^ 60

theorem length_keyDeltas (v : U64) (keys : List U64) :
    (keyDeltas v keys).length = keys.length := by
  induction keys generalizing v with
  | nil => rfl
  | cons k keys ih => simp [keyDeltas, ih]

theorem length_timesDeltas (tab : TimesTab) (t : I64) (keys : List U64) :
    (timesDeltas tab t keys).length = keys.length := by
  induction keys generalizing t with
  | nil => rfl
  | cons k keys ih => simp [timesDeltas, ih]

theorem timesDeltas_lt (htab : ∀ k, 0 ≤ (timesOf tab k).toInt ∧ (timesOf tab k).toInt < 2 ^ 32) :
    ∀ {t : I64} {keys : List U64}, 0 ≤ t.toInt → t.toInt < 2 ^ 32 →
      ∀ x ∈ timesDeltas tab t keys, x.toNat < 2 ^ 60
  | _, [], _, _, x, hx => by simp [timesDeltas] at hx
  | t, k :: keys, h0, h1, x, hx => by
    obtain ⟨k0, k1⟩ := htab k
    rcases mem_cons.1 hx with rfl | hx
    · have hd : (timesOf tab k - t).toInt = (timesOf tab k).toInt - t.toInt := by
        rw [BitVec.toInt_sub, Int.bmod_def]; split_ifs <;> omega
      rcases lt_or_ge (timesOf tab k - t).toInt 0 with hn | hn
      · have := zigzag_of_neg hn; omega
      · have := zigzag_of_nonneg hn; omega
    · exact timesDeltas_lt htab k0 k1 x hx

/-- **Reading the table** from the two streams of differences. -/
theorem entries_readTimes (tab : TimesTab) : ∀ (n : ℕ) {keys : List U64} {vd td : Simple8bDecoder}
    {v : U64} {t : I64} {m : TimesTab}, keys.length < n → Decodes vd (keyDeltas v keys) →
    Decodes td (timesDeltas tab t keys) → (∀ x ∈ timesDeltas tab t keys, x.toNat < 2 ^ 60) →
    keys.Nodup → (∀ k ∈ keys, k ∉ m.keys) →
    (readTimes n vd td v t m).entries = m.entries ++ keys.map fun k => (k, timesOf tab k)
  | 0, _, _, _, _, _, _, hn, _, _, _, _, _ => by omega
  | n + 1, [], vd, td, v, t, m, _, hv, _, _, _, _ => by
    obtain ⟨vd', hd⟩ := next_nil hv
    rw [readTimes, hd]; simp
  | n + 1, k :: keys, vd, td, v, t, m, hn, hv, ht, hs, hnd, hm => by
    obtain ⟨vd', hvd, hvr, hv'⟩ := next_cons hv
    obtain ⟨td', htd, htr, ht'⟩ := next_cons ht
    have hread : Readable (zigzag (timesOf tab k - t)) := by
      have := hs _ mem_cons_self
      unfold Readable; omega
    have hkey : v + vd'.read = k := by rw [hvr]; grind
    have htime : t + uncode td'.read = timesOf tab k := by
      rw [htr, uncode_zigzag hread]; grind
    rw [nodup_cons] at hnd
    have hk := hm k mem_cons_self
    rw [readTimes, hvd, htd]
    simp only [hkey, htime]
    rw [entries_readTimes tab n (by simp at hn; omega) hv' ht'
      (fun x hx => hs x (mem_cons_of_mem _ hx)) hnd.2, AssocMap.entries_set_of_notMem hk]
    · simp
    · intro k' hk' hmem
      rw [AssocMap.mem_keys_set] at hmem
      rcases hmem with rfl | hmem
      · exact hnd.1 hk'
      · exact hm k' (mem_cons_of_mem _ hk') hmem

/-- The table as it is written. -/
def tableBytes (ws1 ws2 : List U64) : List Byte :=
  beBytes 4 (wordsBytes ws1).length ++ beBytes 4 (wordsBytes ws2).length ++ wordsBytes ws1 ++
    wordsBytes ws2

variable {order : RangeOrder (U64 × I64)}

theorem serialize_spec (ptr : ℕ) (hg : GapsFit order tab)
    (ht : ∀ x ∈ timesDeltas tab 0 (sortedKeys order tab), x.toNat < 2 ^ 60) :
    ∃ ws1 ws2, serializeHuffmanTree order tab ptr =
        some ⟨replicate ptr 0#8 ++ tableBytes ws1 ws2, 0⟩ ∧
      wordsValues ws1 = keyDeltas 0 (sortedKeys order tab) ∧
      wordsValues ws2 = timesDeltas tab 0 (sortedKeys order tab) := by
  obtain ⟨ws1, h1, hv1⟩ := getBytes_writeAll hg
  obtain ⟨ws2, h2, hv2⟩ := getBytes_writeAll ht
  refine ⟨ws1, ws2, ?_, hv1, hv2⟩
  simp only [serializeHuffmanTree, h1, h2, tableBytes]

theorem serialize_none {ptr : ℕ} (hg : ¬ GapsFit order tab) :
    serializeHuffmanTree order tab ptr = none := by
  unfold GapsFit at hg
  push Not at hg
  obtain ⟨x, hx, hl⟩ := hg
  obtain ⟨err, he⟩ := getBytes_writeAll_error hx hl
  simp only [serializeHuffmanTree, he]

theorem beNat_beBytes_four {n : ℕ} (h : n < 2 ^ 32) : beNat (beBytes 4 n) = n := by
  rw [beNat_beBytes, Nat.mod_eq_of_lt h]

theorem slice_append {α : Type} {b l m r : List α} {i j : ℕ} (hb : b = l ++ m ++ r)
    (hi : i = l.length) (hj : j = i + m.length) : slice b i j = .ok m := by
  subst hb hi hj
  rw [slice, if_pos ⟨by omega, by simp⟩, ← length_append,
    take_left' rfl, drop_left' rfl]

theorem deserialize_spec {pre post : List Byte} (h1 : ws1.length < 2 ^ 29)
    (h2 : ws2.length < 2 ^ 29) :
    deserializeHuffmanTree (pre ++ tableBytes ws1 ws2 ++ post) pre.length = .ok
      (readTimes (30 * (8 * ws1.length) + 1) (newSimple8bDecoder (wordsBytes ws1))
        (newSimple8bDecoder (wordsBytes ws2)) 0 0 AssocMap.empty,
        (pre ++ tableBytes ws1 ws2).length) := by
  set m1 := beBytes 4 (wordsBytes ws1).length with hm1
  set m2 := beBytes 4 (wordsBytes ws2).length with hm2
  have l1 : m1.length = 4 := length_beBytes _ _
  have l2 : m2.length = 4 := length_beBytes _ _
  have e1 : slice (pre ++ tableBytes ws1 ws2 ++ post) pre.length (pre.length + 8) =
      .ok (m1 ++ m2) :=
    slice_append (l := pre) (r := wordsBytes ws1 ++ wordsBytes ws2 ++ post)
      (by simp [tableBytes, m1, m2]) rfl (by simp [l1, l2])
  have e2 : slice (pre ++ tableBytes ws1 ws2 ++ post) (pre.length + 8)
      (pre.length + 8 + 8 * ws1.length) = .ok (wordsBytes ws1) :=
    slice_append (l := pre ++ m1 ++ m2) (r := wordsBytes ws2 ++ post)
      (by simp [tableBytes, m1, m2]) (by simp [l1, l2]) (by simp)
  have e3 : slice (pre ++ tableBytes ws1 ws2 ++ post) (pre.length + 8 + 8 * ws1.length)
      (pre.length + 8 + 8 * ws1.length + 8 * ws2.length) = .ok (wordsBytes ws2) :=
    slice_append (l := pre ++ m1 ++ m2 ++ wordsBytes ws1) (r := post)
      (by simp [tableBytes, m1, m2]) (by simp [l1, l2]; omega) (by simp)
  have e0 : readHuffmanMeta (pre ++ tableBytes ws1 ws2 ++ post) pre.length =
      .ok (8 * ws1.length, 8 * ws2.length) := by
    rw [readHuffmanMeta, e1]
    simp only [Except.map]
    rw [take_left' l1, drop_left' l1, hm1, hm2, beNat_beBytes_four (by simp; omega),
      beNat_beBytes_four (by simp; omega)]
    simp
  simp only [deserializeHuffmanTree, e0, e2, e3, ok_bind, pure, Except.pure]
  simp [tableBytes]
  omega

/-! ### Writing and reading the codes -/

def codeOf (t : TreeNode) (v : U64) : List Bool := ((createEncodingTable t).get? v).getD []

theorem mem_codes {t : TreeNode} (hn : (t.leaves.map Prod.fst).Nodup) {v : U64}
    (hv : v ∈ t.leaves.map Prod.fst) : (v, codeOf t v) ∈ t.codes := by
  rw [← map_fst_codes] at hv
  obtain ⟨⟨w, c⟩, hmem, rfl⟩ := mem_map.1 hv
  have := (get?_dfs t [] AssocMap.empty hn w).1 c hmem
  rw [codeOf, createEncodingTable, this]
  exact hmem

theorem holds_huffmanEncoding (t : TreeNode) (input : List U64) {b : BStream} {l : List Bool}
    (h : Holds b l) :
    Holds (huffmanEncoding input (createEncodingTable t) b) (l ++ input.flatMap (codeOf t)) := by
  refine Holds.foldl (fun v b l h => ?_) input h
  have := Holds.foldl (fun x _ _ h => h.writeBit x) (codeOf t v) h
  rwa [flatMap_singleton'] at this

theorem count_huffmanEncoding_lt (input : List U64) (tab : AssocMap U64 (List Bool)) {b : BStream}
    (h : b.count < 8) : (huffmanEncoding input tab b).count < 8 :=
  foldlRecOn (motive := (BStream.count · < 8)) input _ h fun _ h _ _ =>
    foldlRecOn (motive := (BStream.count · < 8)) _ writeBit h fun _ h x _ =>
      count_writeBit_lt h.le x

/-- The decoder has the codes of `vs` before it. -/
structure Reads (hd : HuffmanDecoder) (vs : List U64) : Prop where
  wf : Wf hd.br
  nodup : (hd.root.leaves.map Prod.fst).Nodup
  mem : ∀ v ∈ vs, v ∈ hd.root.leaves.map Prod.fst
  bits : ∃ pad, rest hd.br = vs.flatMap (codeOf hd.root) ++ pad

/-- **The next value** is decoded. -/
theorem Reads.next {hd : HuffmanDecoder} {v : U64} (h : Reads hd (v :: vs)) :
    ∃ hd', hd.next = (some v, hd') ∧ Reads hd' vs := by
  obtain ⟨pad, hb⟩ := h.bits
  rw [flatMap_cons, append_assoc] at hb
  obtain ⟨br, hw, hwf, hr⟩ :=
    walk_code hd.root (mem_codes h.nodup (h.mem v mem_cons_self)) h.wf hb
  refine ⟨{ hd with br := br, val := v }, by rw [HuffmanDecoder.next, hw], hwf, h.nodup,
    fun w hmem => h.mem w (mem_cons_of_mem _ hmem), pad, hr⟩

/-! ### The payload -/

/-- The parts of a payload: the two streams of the table, from which every decoder builds `t`, and
the codes, whose last byte has `c` unused bits. -/
structure IsPayload (input ws1 ws2 : List U64) (codes : List Byte) (t : TreeNode) (c : ℕ) :
    Prop where
  len1 : ws1.length < 2 ^ 29
  len2 : ws2.length < 2 ^ 29
  tree : ∀ order : RangeOrder (U64 × I64), buildTree (order.visit (readTimes
    (30 * (8 * ws1.length) + 1) (newSimple8bDecoder (wordsBytes ws1))
    (newSimple8bDecoder (wordsBytes ws2)) 0 0 AssocMap.empty).entries) = some t
  nodup : (t.leaves.map Prod.fst).Nodup
  mem : ∀ v ∈ input, v ∈ t.leaves.map Prod.fst
  bits : bytesBits codes = input.flatMap (codeOf t) ++ replicate c false
  count_lt : c < 8

/-- **The payload** that is written. -/
theorem encode_spec (hne : input ≠ []) (hlen : input.length < 2 ^ 24) (ranges : Ranges)
    (hg : GapsFit (ranges 1) (countTimes input)) (ptr : ℕ) :
    ∃ ws1 ws2 codes t c, huffmanEncodeWithoutTimesMap ranges input ptr =
        some ⟨replicate ptr 0#8 ++ (tableBytes ws1 ws2 ++ codes), c⟩ ∧
      IsPayload input ws1 ws2 codes t c := by
  set tab := countTimes input with htab
  set keys := sortedKeys (ranges 1) tab with hkeys
  have hkp : keys.Perm tab.keys := sortedKeys_perm _ _
  have hknd : keys.Nodup := hkp.nodup_iff.2 tab.nodup
  -- the tree of the encoder
  have hvisit : (ranges 0).visit tab.entries ≠ [] := fun h => by
    have := (ranges 0).perm tab.entries
    rw [h] at this
    exact entries_countTimes_ne_nil hne this.symm.eq_nil
  obtain ⟨t, ht, hleaves⟩ := leaves_buildTree hvisit
  have hfst : (t.leaves.map Prod.fst).Perm tab.keys :=
    (hleaves.trans ((ranges 0).perm _)).map _
  have hnd : (t.leaves.map Prod.fst).Nodup := hfst.nodup_iff.2 tab.nodup
  -- the table it writes
  have hts : ∀ x ∈ timesDeltas tab 0 keys, x.toNat < 2 ^ 60 :=
    timesDeltas_lt (fun k => timesOf_countTimes (by omega)) (by decide) (by decide)
  obtain ⟨ws1, ws2, hser, hv1, hv2⟩ := serialize_spec ptr hg hts
  have hcount : keys.length ≤ input.length := by
    refine (subperm_of_subset hknd fun k hk => ?_).length_le
    exact (mem_keys_countTimes input k).1 (hkp.mem_iff.1 hk)
  have hl1 : ws1.length ≤ keys.length := by
    have := length_le_length_wordsValues ws1
    rwa [hv1, length_keyDeltas] at this
  have hl2 : ws2.length ≤ keys.length := by
    have := length_le_length_wordsValues ws2
    rwa [hv2, length_timesDeltas] at this
  -- the bits behind it
  have hholds := holds_huffmanEncoding t input
    (holds_empty (replicate ptr 0#8 ++ tableBytes ws1 ws2))
  have hbits := hholds.bits
  rw [append_assoc] at hbits
  obtain ⟨codes, hcodes, hcb⟩ := exists_append_of_bytesBits hbits
  set b := huffmanEncoding input (createEncodingTable t)
    ⟨replicate ptr 0#8 ++ tableBytes ws1 ws2, 0⟩
  refine ⟨ws1, ws2, codes, t, b.count, ?_, by omega, by omega, fun order => ?_, hnd, fun v hv => ?_,
    hcb, count_huffmanEncoding_lt input _ (Nat.zero_lt_succ _)⟩
  · rw [huffmanEncodeWithoutTimesMap, ← htab]
    simp only [ht, hser, Option.map_some]
    rw [← append_assoc, ← hcodes]
  -- the decoder reads the same table, and builds the same tree
  · have hread := entries_readTimes tab (30 * (8 * ws1.length) + 1) (v := 0) (t := 0)
      (m := AssocMap.empty) (by
        have := length_wordsValues_le ws1
        rw [hv1, length_keyDeltas, ← hkeys] at this; omega)
      (hv1 ▸ decodes_new ws1) (hv2 ▸ decodes_new ws2) hts hknd
      (by simp [AssocMap.keys, AssocMap.empty])
    have hperm : (order.visit (readTimes (30 * (8 * ws1.length) + 1)
        (newSimple8bDecoder (wordsBytes ws1)) (newSimple8bDecoder (wordsBytes ws2)) 0 0
        AssocMap.empty).entries).Perm ((ranges 0).visit tab.entries) := by
      refine (order.perm _).trans (Perm.trans ?_ ((ranges 0).perm _).symm)
      rw [hread]
      exact entries_perm_of_keys hkp
    rw [← buildTree_eq_of_perm hperm.symm
      ((((ranges 0).perm tab.entries).map _).nodup_iff.2 tab.nodup), ht]
  · exact hfst.mem_iff.2 ((mem_keys_countTimes input v).2 hv)

section IsPayload

variable {input ws1 ws2 : List U64} {codes : List Byte} {t : TreeNode} {c : ℕ}
  (h : IsPayload input ws1 ws2 codes t c)
include h

/-- The decoder, whatever bytes are left behind the table. -/
theorem IsPayload.newHuffmanDecoder (order : RangeOrder (U64 × I64)) (pre post : List Byte) :
    newHuffmanDecoder order (pre ++ (tableBytes ws1 ws2 ++ post)) pre.length =
      .ok (some ⟨t, newBReader post, 0⟩) := by
  rw [← append_assoc, Huffman.newHuffmanDecoder, deserialize_spec h.len1 h.len2]
  simp only [bind, Except.bind, h.tree order, pure, Except.pure]
  rw [sliceFrom, if_pos (by simp), drop_left' rfl]

theorem IsPayload.reads : Reads ⟨t, newBReader codes, 0⟩ input :=
  ⟨wf_newBReader codes, h.nodup, h.mem, _, by rw [rest_newBReader, h.bits]⟩

end IsPayload

/-- **The payload decodes**: a decoder opened behind any `ptr` bytes reads the input back, in
whatever orders the table is visited. -/
theorem encode_decodes (hne : input ≠ []) (hlen : input.length < 2 ^ 24) (ranges : Ranges)
    (hg : GapsFit (ranges 1) (countTimes input)) (ptr : ℕ) :
    ∃ payload c, huffmanEncodeWithoutTimesMap ranges input ptr =
        some ⟨replicate ptr 0#8 ++ payload, c⟩ ∧
      ∀ (order : RangeOrder (U64 × I64)) (pre : List Byte), pre.length = ptr →
        ∃ hd, newHuffmanDecoder order (pre ++ payload) ptr = .ok (some hd) ∧ Reads hd input := by
  obtain ⟨ws1, ws2, codes, t, c, henc, hp⟩ := encode_spec hne hlen ranges hg ptr
  refine ⟨tableBytes ws1 ws2 ++ codes, c, henc, fun order pre hpre => ?_⟩
  subst hpre
  exact ⟨_, hp.newHuffmanDecoder order pre codes, hp.reads⟩

/-- **No payload** is made for no values. -/
theorem encode_nil (ranges : Ranges) (ptr : ℕ) :
    huffmanEncodeWithoutTimesMap ranges [] ptr = none := by
  have h : (ranges 0).visit (countTimes []).entries = [] :=
    ((ranges 0).perm (countTimes []).entries).eq_nil
  rw [huffmanEncodeWithoutTimesMap, h]
  rfl

/-- **No payload** is made when the gaps between the values do not fit the table. -/
theorem encode_none {ranges : Ranges} (hg : ¬ GapsFit (ranges 1) (countTimes input)) (ptr : ℕ) :
    huffmanEncodeWithoutTimesMap ranges input ptr = none := by
  simp only [huffmanEncodeWithoutTimesMap, serialize_none hg, Option.map_none]
  split <;> rfl

end TopcDB.Chunkenc.Huffman
