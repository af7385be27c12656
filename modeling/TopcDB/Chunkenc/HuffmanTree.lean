import TopcDB.Chunkenc.Bstream
import TopcDB.Lib.Assoc
import TopcDB.Lib.Heap
import TopcDB.Lib.Sort
import Mathlib.Data.Prod.Lex

/-! # Huffman trees (`MinHeap`, `initHuffmanTree`, `createEncodingTable`)

A tree is built from a table of frequencies: the leaves are sorted, made a heap, and the two first
trees of the heap are joined until one is left. The table is a map and visited in any order, but
no two of its leaves compare equal, so that the tree depends on the table only
(`buildTree_eq_of_perm`). Its leaves are the entries of the table (`leaves_buildTree`). The code of
a value is the path to its leaf, and following a code from the root finds the value again
(`walk_code`). -/

namespace TopcDB.Chunkenc.HuffmanTree

open List Lib.Assoc Lib.Heap Lib.Sort Go.Basic Bstream

/-- A node has two children or none. The value of an inner node is zero. -/
inductive TreeNode
  | leaf (val : U64) (times : I64)
  | node (times : I64) (left right : TreeNode)
  deriving DecidableEq

namespace TreeNode

def val : TreeNode → U64
  | leaf v _ => v
  | node _ _ _ => 0#64

def times : TreeNode → I64
  | leaf _ t => t
  | node t _ _ => t

def leaves : TreeNode → List (U64 × I64)
  | leaf v t => [(v, t)]
  | node _ l r => l.leaves ++ r.leaves

/-- The values of a tree with the paths to their leaves: zero is left and one is right. -/
def codes : TreeNode → List (U64 × List Bool)
  | leaf v _ => [(v, [])]
  | node _ l r =>
    (l.codes.map fun p => (p.1, false :: p.2)) ++ r.codes.map fun p => (p.1, true :: p.2)

end TreeNode

/-- `MinHeap.Less`: by frequency, and among equals by value, the larger one first. -/
def less (x y : TreeNode) : Bool :=
  if x.times = y.times then y.val < x.val else x.times.slt y.times

/-- The loop of `initHuffmanTree`. Every turn makes one tree of two. -/
def joinLoop : ℕ → List TreeNode → List TreeNode
  | 0, l => l
  | k + 1, l =>
    if 1 < l.length then
      match pop less l with
      | none => l
      | some (lnode, l1) =>
        match pop less l1 with
        | none => l1
        | some (rnode, l2) =>
          let t := lnode.times + rnode.times
          let root := if rnode.times.slt lnode.times then TreeNode.node t rnode lnode
            else TreeNode.node t lnode rnode
          joinLoop k (push less l2 root)
    else l

def initHuffmanTree (nodelist : List TreeNode) : Option TreeNode :=
  (joinLoop nodelist.length nodelist).head?

/-- The tree of the entries of a table, which `HuffmanEncodeWithoutTimesMap` and `NewHuffmanDecoder`
build alike; none for an empty table. -/
def buildTree (entries : List (U64 × I64)) : Option TreeNode :=
  let nodelist := init less (sortBy less (entries.map fun p => TreeNode.leaf p.1 p.2))
  if nodelist.length = 0 then none else initHuffmanTree nodelist

/-- The walk of `createEncodingTable` below a node whose path is `tmp`. -/
def dfs : TreeNode → List Bool → AssocMap U64 (List Bool) → AssocMap U64 (List Bool)
  | .leaf v _, tmp, encodeTab => encodeTab.set v tmp
  | .node _ l r, tmp, encodeTab => dfs r (tmp ++ [true]) (dfs l (tmp ++ [false]) encodeTab)

def createEncodingTable (node : TreeNode) : AssocMap U64 (List Bool) :=
  dfs node [] AssocMap.empty

/-- The walk of `HuffmanDecoder.Next` from a node to a leaf. -/
def walk : TreeNode → BReader → Option U64 × BReader
  | .leaf v _, br => (some v, br)
  | .node _ l r, br =>
    match readBit br with
    | (.error _, br) => (none, br)
    | (.ok bit, br) => if bit then walk r br else walk l br

/-! ### The tree of a table -/

theorem joinLoop_turn (k : ℕ) {l : List TreeNode} (h : 1 < l.length) : ∃ x y l1 l2 root,
    pop less l = some (x, l1) ∧ pop less l1 = some (y, l2) ∧ l.Perm (x :: y :: l2) ∧
      joinLoop (k + 1) l = joinLoop k (push less l2 root) ∧
      (root = .node (x.times + y.times) x y ∨ root = .node (x.times + y.times) y x) := by
  obtain ⟨x, l1, h1⟩ := pop_ne_nil less (l := l) (by rintro rfl; simp at h)
  have p1 := pop_perm less h1
  obtain ⟨y, l2, h2⟩ := pop_ne_nil less (l := l1) (by
    rintro rfl
    have := p1.length_eq
    simp at this; omega)
  refine ⟨x, y, l1, l2, if y.times.slt x.times then .node (x.times + y.times) y x
    else .node (x.times + y.times) x y, h1, h2,
    p1.symm.trans ((pop_perm less h2).symm.cons x), ?_, ?_⟩
  · rw [joinLoop, if_pos h, h1]
    simp only [h2]
  · split_ifs
    · exact .inr rfl
    · exact .inl rfl

theorem joinLoop_leaves : ∀ (k : ℕ) (l : List TreeNode),
    ((joinLoop k l).flatMap TreeNode.leaves).Perm (l.flatMap TreeNode.leaves)
  | 0, l => Perm.refl _
  | k + 1, l => by
    by_cases h : 1 < l.length
    · obtain ⟨x, y, l1, l2, root, -, -, hp, he, hroot⟩ := joinLoop_turn k h
      rw [he]
      refine (joinLoop_leaves k _).trans (((push_perm less l2 _).flatMap_right _).trans ?_)
      refine Perm.trans ?_ (hp.flatMap_right _).symm
      rw [flatMap_cons, flatMap_cons, flatMap_cons, ← append_assoc]
      refine Perm.append_right _ ?_
      rcases hroot with rfl | rfl
      · exact Perm.refl _
      · exact perm_append_comm
    · rw [joinLoop, if_neg h]

theorem joinLoop_length : ∀ (k : ℕ) (l : List TreeNode), l ≠ [] → l.length ≤ k + 1 →
    ∃ t, joinLoop k l = [t]
  | k, [t], _, _ => ⟨t, by cases k <;> rfl⟩
  | 0, t :: t' :: l, _, h => by simp at h
  | k + 1, t :: t' :: l, _, h => by
    obtain ⟨x, y, l1, l2, root, -, -, hp, he, -⟩ := joinLoop_turn k (l := t :: t' :: l) (by simp)
    rw [he]
    refine joinLoop_length k _ (push_ne_nil less l2 root) ?_
    have := hp.length_eq
    rw [(push_perm less l2 root).length_eq]
    simp only [length_cons] at *
    omega

variable {entries : List (U64 × I64)}

theorem joinLoop_eq (h : entries ≠ []) : ∃ t, buildTree entries = some t ∧ joinLoop entries.length
      (init less (sortBy less (entries.map fun p => TreeNode.leaf p.1 p.2))) = [t] := by
  have hlen : (init less (sortBy less (entries.map fun p => TreeNode.leaf p.1 p.2))).length =
      entries.length := by
    rw [(init_perm less _).length_eq, (sortBy_perm less _).length_eq, length_map]
  have hpos := length_pos_iff.2 h
  obtain ⟨t, ht⟩ := joinLoop_length entries.length _ (length_pos_iff.1 (hlen ▸ hpos)) (by omega)
  refine ⟨t, ?_, ht⟩
  rw [buildTree, if_neg (by omega), initHuffmanTree, hlen, ht, head?_cons]

/-- **The leaves of the tree** are the entries of the table. -/
theorem leaves_buildTree (h : entries ≠ []) :
    ∃ t, buildTree entries = some t ∧ t.leaves.Perm entries := by
  obtain ⟨t, ht, hjoin⟩ := joinLoop_eq h
  refine ⟨t, ht, ?_⟩
  have hl := joinLoop_leaves entries.length
    (init less (sortBy less (entries.map fun p => TreeNode.leaf p.1 p.2)))
  rw [hjoin, flatMap_singleton] at hl
  refine hl.trans ((((init_perm less _).trans (sortBy_perm less _)).flatMap_right _).trans ?_)
  simp [flatMap_map, TreeNode.leaves]

/-- What `less` compares. -/
def key (t : TreeNode) : ℤ ×ₗ ℤ := toLex (t.times.toInt, -t.val.toNat)

theorem less_iff (x y : TreeNode) : less x y = true ↔ key x < key y := by
  rw [key, key, Prod.Lex.toLex_lt_toLex]
  unfold less
  split_ifs with h
  · simp [h, BitVec.lt_def]
  · have hne : x.times.toInt ≠ y.times.toInt := fun e => h (BitVec.eq_of_toInt_eq e)
    simp [BitVec.slt_eq_decide, hne]

/-- **The tree depends on the table only**, not on the order in which it is visited. -/
theorem buildTree_eq_of_perm {l l' : List (U64 × I64)} (hp : l.Perm l')
    (hn : (l.map Prod.fst).Nodup) : buildTree l = buildTree l' := by
  have hs := sortBy_eq_of_perm less_iff ?_ (hp.map fun p => TreeNode.leaf p.1 p.2)
  · rw [buildTree, buildTree, hs]
  · intro x hx y hy hxy
    obtain ⟨p, hp, rfl⟩ := mem_map.1 hx
    obtain ⟨q, hq, rfl⟩ := mem_map.1 hy
    have hval : p.1 = q.1 := by
      have := (Prod.mk.inj (toLex.injective hxy)).2
      exact BitVec.eq_of_toNat_eq (by simpa [TreeNode.val] using this)
    rw [inj_on_of_nodup_map hn hp hq hval]

/-! ### Codes -/

theorem map_fst_codes : ∀ (t : TreeNode), t.codes.map Prod.fst = t.leaves.map Prod.fst
  | .leaf _ _ => rfl
  | .node _ l r => by
    simp [TreeNode.codes, TreeNode.leaves, map_map, Function.comp_def, map_fst_codes l,
      map_fst_codes r]

theorem mem_codes_node {v : U64} {c : List Bool} {n : I64} {l r : TreeNode} :
    (v, c) ∈ (TreeNode.node n l r).codes ↔
      ∃ b c', c = b :: c' ∧ (v, c') ∈ (if b then r else l).codes := by
  simp only [TreeNode.codes, mem_append, mem_map, Prod.mk.injEq, Prod.exists, Bool.exists_bool]
  aesop

/-- The table lists the code of every value of the tree. -/
theorem get?_dfs : ∀ (t : TreeNode) (tmp : List Bool) (tab : AssocMap U64 (List Bool)),
    (t.leaves.map Prod.fst).Nodup → ∀ (v : U64),
    (∀ c, (v, c) ∈ t.codes → (dfs t tmp tab).get? v = some (tmp ++ c)) ∧
      (v ∉ t.leaves.map Prod.fst → (dfs t tmp tab).get? v = tab.get? v)
  | .leaf w _, tmp, tab, _, v => by
    refine ⟨fun c hc => ?_, fun hv => ?_⟩
    · obtain ⟨rfl, rfl⟩ : v = w ∧ c = [] := by simpa [TreeNode.codes] using hc
      rw [dfs, AssocMap.get?_set, if_pos rfl, append_nil]
    · have hne : v ≠ w := by simpa [TreeNode.leaves] using hv
      rw [dfs, AssocMap.get?_set, if_neg hne]
  | .node _ l r, tmp, tab, hn, v => by
    rw [TreeNode.leaves, map_append, nodup_append] at hn
    obtain ⟨hnl, hnr, hdisj⟩ := hn
    obtain ⟨hl1, hl2⟩ := get?_dfs l (tmp ++ [false]) tab hnl v
    obtain ⟨hr1, hr2⟩ := get?_dfs r (tmp ++ [true]) (dfs l (tmp ++ [false]) tab) hnr v
    rw [dfs]
    refine ⟨fun c hc => ?_, fun hv => ?_⟩
    · obtain ⟨b, c', rfl, hmem⟩ := mem_codes_node.1 hc
      cases b
      · have hvl : v ∈ l.leaves.map Prod.fst := by
          rw [← map_fst_codes]; exact mem_map_of_mem (f := Prod.fst) hmem
        rw [hr2 fun hvr => hdisj v hvl v hvr rfl, hl1 c' hmem, append_assoc]
        rfl
      · rw [hr1 c' hmem, append_assoc]
        rfl
    · rw [TreeNode.leaves, map_append, mem_append] at hv
      rw [hr2 fun h => hv (Or.inr h), hl2 fun h => hv (Or.inl h)]

/-- **Following a code** from the root finds the value. -/
theorem walk_code (t : TreeNode) {v : U64} {c l : List Bool} {br : BReader} (hc : (v, c) ∈ t.codes)
    (hw : Wf br) (hr : rest br = c ++ l) :
    ∃ br', walk t br = (some v, br') ∧ Wf br' ∧ rest br' = l := by
  induction t generalizing c br with
  | leaf w _ =>
    obtain ⟨rfl, rfl⟩ : v = w ∧ c = [] := by simpa [TreeNode.codes] using hc
    exact ⟨br, rfl, hw, hr⟩
  | node _ lt rt ihl ihr =>
    obtain ⟨b, c', rfl, hmem⟩ := mem_codes_node.1 hc
    obtain ⟨br1, h1, hw1, hr1⟩ := readBit_cons hw hr
    rw [walk, h1]
    cases b
    · exact ihl hmem hw1 hr1
    · exact ihr hmem hw1 hr1

/-- **A code that is cut off** leads to no value. -/
theorem walk_cut (t : TreeNode) {v : U64} {c l : List Bool} {br : BReader} (hc : (v, c) ∈ t.codes)
    (hw : Wf br) (hr : rest br ++ l = c) (hl : l ≠ []) : ∃ br', walk t br = (none, br') := by
  induction t generalizing c br with
  | leaf w _ =>
    obtain ⟨-, rfl⟩ : v = w ∧ c = [] := by simpa [TreeNode.codes] using hc
    exact absurd (append_eq_nil_iff.1 hr).2 hl
  | node _ lt rt ihl ihr =>
    cases hrest : rest br with
    | nil => exact ⟨br, by rw [walk, readBit_nil hrest]⟩
    | cons x xs =>
      obtain ⟨br1, h1, hw1, hr1⟩ := readBit_cons hw hrest
      obtain ⟨b, c', rfl, hmem⟩ := mem_codes_node.1 hc
      rw [hrest, cons_append, cons.injEq] at hr
      obtain ⟨rfl, rfl⟩ := hr
      rw [walk, h1]
      cases x
      · exact ihl hmem hw1 (by rw [hr1])
      · exact ihr hmem hw1 (by rw [hr1])

end TopcDB.Chunkenc.HuffmanTree
