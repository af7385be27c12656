import TopcDB.Lib.Heap
import Mathlib.Order.Lattice

/-! # The order of a binary heap

The operations of `container/heap` keep the heap order, and `Pop` returns a smallest element. This
is shown for lists of keys from a linear order. A heap of elements that are compared by their keys
is related to the heap of its keys: every operation commutes with taking the keys. -/

namespace TopcDB.Lib.HeapOrder

open Option Heap
open List hiding swap

variable {α K : Type} [LinearOrder K]

def keyLess (x y : K) : Bool := decide (x < y)

/-- The element at `i` is not above the one at `j`, if there are both. -/
def LeAt (l : List K) (i j : ℕ) : Prop := ∀ x ∈ l[i]?, ∀ y ∈ l[j]?, x ≤ y

/-- In the first `n` elements no one is below its parent. -/
def OrderedTo (n : ℕ) (l : List K) : Prop := ∀ c, 0 < c → c < n → LeAt l ((c - 1) / 2) c

def IsHeap (l : List K) : Prop := OrderedTo l.length l

/-! ### Comparing and swapping -/

variable {i j k a b a' b' n : ℕ} {l l' : List K}

theorem LeAt.trans (h : LeAt l i j) (h' : LeAt l j k) (hj : j < l.length) : LeAt l i k := by
  intro x hx z hz
  have hy : l[j] ∈ l[j]? := getElem?_eq_getElem hj
  exact (h x hx _ hy).trans (h' _ hy z hz)

theorem leAt_of_not_lessAt (h : ¬ lessAt keyLess l j i) : LeAt l i j := by
  intro x hx y hy
  simp only [mem_def] at hx hy
  simpa [lessAt, hx, hy, keyLess] using h

theorem leAt_of_lessAt (h : lessAt keyLess l j i) : LeAt l j i := by
  intro y hy x hx
  simp only [mem_def] at hx hy
  have hlt : y < x := by simpa [lessAt, hx, hy, keyLess] using h
  exact hlt.le

@[simp] theorem length_swap (l : List α) (i j : ℕ) : (swap l i j).length = l.length :=
  (Heap.swap_perm l i j).length_eq

theorem getElem?_swap {l : List α} (hi : i < l.length) (hj : j < l.length) (k : ℕ) :
    (swap l i j)[k]? = if k = j then l[i]? else if k = i then l[j]? else l[k]? := by
  simp only [swap, getElem?_eq_getElem hi, getElem?_eq_getElem hj]
  by_cases hkj : k = j
  · subst hkj
    rw [if_pos rfl, getElem?_set_self (by simpa using hj)]
  · rw [if_neg hkj, getElem?_set_ne (Ne.symm hkj)]
    by_cases hki : k = i
    · subst hki
      rw [if_pos rfl, getElem?_set_self hi]
    · rw [if_neg hki, getElem?_set_ne (Ne.symm hki)]

/-- Where the elements compared after a swap come from. -/
theorem leAt_swap (hi : i < l.length) (hj : j < l.length)
    (ha : a' = if a = j then i else if a = i then j else a)
    (hb : b' = if b = j then i else if b = i then j else b) (h : LeAt l a' b') :
    LeAt (swap l i j) a b := by
  have key : ∀ k, (swap l i j)[k]? = l[if k = j then i else if k = i then j else k]? := by
    intro k
    rw [getElem?_swap hi hj]
    split_ifs <;> rfl
  subst ha hb
  intro x hx y hy
  rw [key] at hx hy
  exact h x hx y hy

/-! ### Moving up -/

/-- The heap order but for the element at `j`, which may be below its parent. -/
structure UpOrder (l : List K) (j : ℕ) : Prop where
  other : ∀ c, 0 < c → c < l.length → c ≠ j → LeAt l ((c - 1) / 2) c
  grand : 0 < j → ∀ c, 0 < c → c < l.length → (c - 1) / 2 = j → LeAt l ((j - 1) / 2) c

theorem UpOrder.isHeap (h : UpOrder l j) (hj : 0 < j → LeAt l ((j - 1) / 2) j) : IsHeap l := by
  intro c h0 hc
  by_cases hcj : c = j
  · subst hcj
    exact hj h0
  · exact h.other c h0 hc hcj

theorem UpOrder.swap (h : UpOrder l j) (hj : j < l.length) (h0 : 0 < j)
    (hless : lessAt keyLess l j ((j - 1) / 2)) :
    UpOrder (swap l ((j - 1) / 2) j) ((j - 1) / 2) := by
  have hi : (j - 1) / 2 < l.length := by omega
  have hle := leAt_of_lessAt hless
  constructor
  · intro c hc0 hc hci
    rw [length_swap] at hc
    by_cases hcj : c = j
    · subst hcj
      exact leAt_swap hi hj (by grind) (by grind) hle
    · by_cases hpj : (c - 1) / 2 = j
      · exact leAt_swap hi hj (by grind) (by grind) (h.grand h0 c hc0 hc hpj)
      · have hother := h.other c hc0 hc hcj
        by_cases hpi : (c - 1) / 2 = (j - 1) / 2
        · rw [hpi] at hother
          exact leAt_swap hi hj (by grind) (by grind) (hle.trans hother hi)
        · exact leAt_swap hi hj (by grind) (by grind) hother
  · intro hi0 c hc0 hc hpc
    rw [length_swap] at hc
    have hup := h.other ((j - 1) / 2) hi0 hi (by omega)
    by_cases hcj : c = j
    · subst hcj
      exact leAt_swap hi hj (by grind) (by grind) hup
    · have hother := h.other c hc0 hc hcj
      rw [hpc] at hother
      exact leAt_swap hi hj (by grind) (by grind)
        (hup.trans hother hi)

theorem isHeap_up : ∀ {k : ℕ} {l : List K} {j : ℕ}, UpOrder l j → j < l.length → j < k →
    IsHeap (up keyLess k l j)
  | 0, _, _, _, _, hk => by omega
  | k + 1, l, j, h, hj, hk => by
    rw [up]
    split_ifs with hstop
    · refine h.isHeap fun h0 => leAt_of_not_lessAt fun hless => ?_
      rw [hless] at hstop
      simp at hstop
      omega
    · simp only [Bool.or_eq_true, decide_eq_true_eq, not_or, Bool.not_eq_true',
        Bool.not_eq_false] at hstop
      have h0 : 0 < j := by omega
      refine isHeap_up (h.swap hj h0 hstop.2) ?_ ?_
      · rw [length_swap]; omega
      · omega

theorem isHeap_push (h : IsHeap l) (x : K) : IsHeap (push keyLess l x) := by
  refine isHeap_up ⟨fun c h0 hc hne => ?_, fun h0 c hc0 hc hpc => ?_⟩ (by simp) (by omega)
  · rw [length_append, length_singleton] at hc
    intro y hy z hz
    rw [mem_def, getElem?_append_left (by omega)] at hy hz
    exact h c h0 (by omega) y hy z hz
  · rw [length_append, length_singleton] at hc
    omega

/-! ### Moving down -/

/-- The heap order of the first `n` elements but for the one at `i`, which may be above its
children. -/
structure DownOrder (n : ℕ) (l : List K) (i : ℕ) : Prop where
  other : ∀ c, 0 < c → c < n → (c - 1) / 2 ≠ i → LeAt l ((c - 1) / 2) c
  grand : 0 < i → ∀ c, 0 < c → c < n → (c - 1) / 2 = i → LeAt l ((i - 1) / 2) c

theorem DownOrder.orderedTo (h : DownOrder n l i)
    (hi : ∀ c, 0 < c → c < n → (c - 1) / 2 = i → LeAt l i c) : OrderedTo n l := by
  intro c h0 hc
  by_cases hci : (c - 1) / 2 = i
  · rw [hci]
    exact hi c h0 hc hci
  · exact h.other c h0 hc hci

/-- The child `j` of `i`, which is not above the other one, moves up. -/
theorem DownOrder.swap (h : DownOrder n l i) (hn : n ≤ l.length) (h0 : 0 < j) (hj : j < n)
    (hji : (j - 1) / 2 = i) (hle : LeAt l j i)
    (hmin : ∀ c, 0 < c → c < n → (c - 1) / 2 = i → LeAt l j c) : DownOrder n (swap l i j) j := by
  have hi : i < l.length := by omega
  have hj' : j < l.length := by omega
  constructor
  · intro c hc0 hc hcj
    by_cases hci : c = i
    · subst hci
      have hgrand := h.grand hc0 j h0 hj hji
      exact leAt_swap hi hj' (by grind) (by grind) hgrand
    · by_cases hpi : (c - 1) / 2 = i
      · by_cases hcj' : c = j
        · subst hcj'
          exact leAt_swap hi hj' (by grind) (by grind) hle
        · exact leAt_swap hi hj' (by grind) (by grind) (hmin c hc0 hc hpi)
      · exact leAt_swap hi hj' (by grind) (by grind) (h.other c hc0 hc hpi)
  · intro _ c hc0 hc hpc
    have hother := h.other c hc0 hc (by omega)
    rw [hpc] at hother
    rw [hji]
    exact leAt_swap hi hj' (by grind) (by grind) hother

theorem orderedTo_down : ∀ {k : ℕ} {l : List K} {i : ℕ}, DownOrder n l i →
    n ≤ l.length → n ≤ i + k → OrderedTo n (down keyLess k l i n)
  | 0, l, i, h, hn, hk => h.orderedTo fun c _ hc hci => by omega
  | k + 1, l, i, h, hn, hk => by
    rw [down]
    by_cases hstop : n ≤ 2 * i + 1
    · rw [if_pos hstop]
      exact h.orderedTo fun c _ hc hci => by omega
    · rw [if_neg hstop]
      set j :=
        if (decide (2 * i + 1 + 1 < n) && lessAt keyLess l (2 * i + 1 + 1) (2 * i + 1)) = true
        then 2 * i + 1 + 1 else 2 * i + 1 with hj
      -- the smaller of the two children
      have hchild : (j = 2 * i + 1 ∨ j = 2 * i + 2) ∧ j < n := by
        rw [hj]
        split_ifs with hr
        · simp only [Bool.and_eq_true, decide_eq_true_eq] at hr
          omega
        · omega
      have hmin : ∀ c, 0 < c → c < n → (c - 1) / 2 = i → LeAt l j c := by
        intro c hc0 hc hci
        have hrefl : LeAt l c c := by
          intro x hx y hy
          simp only [mem_def] at hx hy
          exact (Option.some.inj (hx.symm.trans hy)).le
        rcases (by omega : c = 2 * i + 1 ∨ c = 2 * i + 1 + 1) with hc' | hc' <;> rw [hj] <;>
          split_ifs with hr <;> simp only [Bool.and_eq_true, decide_eq_true_eq] at hr
        · rw [hc']
          exact leAt_of_lessAt hr.2
        · rwa [← hc']
        · rwa [← hc']
        · rw [hc'] at hc ⊢
          exact leAt_of_not_lessAt fun hless => hr ⟨hc, hless⟩
      simp only [Bool.not_eq_true']
      split_ifs with hless
      · have hle : LeAt l i j := leAt_of_not_lessAt (by simp [hless])
        exact h.orderedTo fun c hc0 hc hci => hle.trans (hmin c hc0 hc hci) (by omega)
      · have hle : LeAt l j i := leAt_of_lessAt (by simpa using hless)
        refine orderedTo_down (h.swap hn (by omega) hchild.2 (by omega) hle hmin) ?_ (by omega)
        rw [length_swap]
        exact hn

variable {less : α → α → Bool}

theorem getElem?_down : ∀ {k : ℕ} {l : List α} {i : ℕ},
    n ≤ l.length → ∀ m, n ≤ m → (down less k l i n)[m]? = l[m]?
  | 0, _, _, _, _, _ => rfl
  | k + 1, l, i, hn, m, hm => by
    rw [down]
    by_cases hstop : n ≤ 2 * i + 1
    · rw [if_pos hstop]
    · rw [if_neg hstop]
      have key : ∀ j, i < n → j < n →
          (if (!lessAt less l j i) = true then l else down less k (swap l i j) j n)[m]? =
            l[m]? := by
        intro j hi hj
        split_ifs
        · rfl
        · rw [getElem?_down (by rwa [length_swap]) m hm, getElem?_swap (by omega) (by omega),
            if_neg (by omega), if_neg (by omega)]
      refine key _ (by omega) ?_
      split_ifs with hr
      · simp only [Bool.and_eq_true, decide_eq_true_eq] at hr
        exact hr.1
      · omega

/-! ### The first element -/

theorem IsHeap.leAt_zero (h : IsHeap l) (c : ℕ) (hc : c < l.length) : LeAt l 0 c := by
  induction c using Nat.strongRecOn with
  | _ c ih =>
    by_cases h0 : c = 0
    · intro x hx y hy
      rw [h0] at hy
      exact (Option.some.inj (hx.symm.trans hy)).le
    · exact (ih ((c - 1) / 2) (by omega) (by omega)).trans (h c (by omega) hc) (by omega)

theorem IsHeap.head_le {x : K} (h : IsHeap l) (hx : l.head? = some x) : ∀ y ∈ l, x ≤ y := by
  intro y hy
  obtain ⟨c, hc, rfl⟩ := getElem_of_mem hy
  exact h.leAt_zero c hc x (by rw [← head?_eq_getElem?]; exact hx) _ (getElem?_eq_getElem hc)

theorem head?_of_pop {l l' : List α} {x : α} (h : pop less l = some (x, l')) :
    l.head? = some x := by
  obtain ⟨y, hy, he⟩ := map_eq_some_iff.1 h
  cases he
  have hlen : (down less l.length (swap l 0 (l.length - 1)) 0 (l.length - 1)).length = l.length :=
    ((down_perm less _ _ _ _).trans (Heap.swap_perm l _ _)).length_eq
  have hpos : 0 < l.length := by
    rw [← hlen]
    exact length_pos_iff.2 fun hnil => by simp [hnil] at hy
  rw [getLast?_eq_getElem?, hlen, getElem?_down (by rw [length_swap]; omega) _ (Nat.le_refl _),
    getElem?_swap hpos (by omega), if_pos rfl] at hy
  rw [head?_eq_getElem?, hy]

theorem isHeap_pop {x : K} (h : IsHeap l) (hp : pop keyLess l = some (x, l')) : IsHeap l' := by
  obtain ⟨y, hy, he⟩ := map_eq_some_iff.1 hp
  cases he
  set m := down keyLess l.length (swap l 0 (l.length - 1)) 0 (l.length - 1)
  have hlen : m.length = l.length :=
    ((down_perm keyLess _ _ _ _).trans (Heap.swap_perm l _ _)).length_eq
  have hord : OrderedTo (l.length - 1) m := by
    refine orderedTo_down ⟨fun c h0 hc hp => ?_, fun h0 => by omega⟩
      (by rw [length_swap]; omega) (by omega)
    exact leAt_swap (by omega) (by omega) (by grind) (by grind) (h c h0 (by omega))
  intro c h0 hc x hx y hy
  rw [length_dropLast, hlen] at hc
  rw [mem_def, getElem?_dropLast, if_pos (by omega)] at hx hy
  exact hord c h0 hc x hx y hy

/-! ### Elements with keys -/

/-- The elements of the list are compared by their keys. -/
def Compares (less : α → α → Bool) (key : α → K) (l : List α) : Prop :=
  ∀ x ∈ l, ∀ y ∈ l, less x y = keyLess (key x) (key y)

theorem Compares.mono {key : α → K} {l l' : List α} (h : Compares less key l) (hl : ∀ x ∈ l', x ∈ l)
    : Compares less key l' :=
  fun x hx y hy => h x (hl x hx) y (hl y hy)

theorem map_swap {β : Type} (f : α → β) (l : List α) (i j : ℕ) :
    (swap l i j).map f = swap (l.map f) i j := by
  unfold swap
  rw [getElem?_map, getElem?_map]
  rcases l[i]? with _ | x <;> rcases l[j]? with _ | y <;> simp [map_set]

variable {less : α → α → Bool} {key : α → K} {l l' : List α}

theorem lessAt_map (h : Compares less key l) (i j : ℕ) :
    lessAt keyLess (l.map key) i j = lessAt less l i j := by
  unfold lessAt
  rw [getElem?_map, getElem?_map]
  rcases hi : l[i]? with _ | x <;> rcases hj : l[j]? with _ | y <;> try rfl
  exact (h x (mem_of_getElem? hi) y (mem_of_getElem? hj)).symm

theorem Compares.swap (h : Compares less key l) (i j : ℕ) :
    Compares less key (swap l i j) := h.mono fun _ hx => (Heap.swap_perm l i j).mem_iff.1 hx

theorem map_up : ∀ {k : ℕ} {l : List α} {j : ℕ}, Compares less key l →
    (up less k l j).map key = up keyLess k (l.map key) j
  | 0, _, _, _ => rfl
  | k + 1, l, j, h => by
    rw [up, up, lessAt_map h, ← map_swap, ← map_up (h.swap _ _)]
    split_ifs <;> rfl

theorem map_down : ∀ {k : ℕ} {l : List α} {i : ℕ}, Compares less key l →
    (down less k l i n).map key = down keyLess k (l.map key) i n
  | 0, _, _, _ => rfl
  | k + 1, l, i, h => by
    simp only [down, lessAt_map h, ← map_swap, ← map_down (h.swap _ _)]
    split_ifs <;> rfl

/-- **`Push` keeps the heap order.** -/
theorem isHeap_map_push {x : α} (h : Compares less key (x :: l)) (hl : IsHeap (l.map key)) :
    IsHeap ((push less l x).map key) := by
  have hc : Compares less key (l ++ [x]) := h.mono fun y hy => by simpa [or_comm] using hy
  have hmap : (push less l x).map key = push keyLess (l.map key) (key x) := by
    rw [push, map_up hc, push, map_append, length_map]; rfl
  rw [hmap]
  exact isHeap_push hl (key x)

/-- **`Pop` keeps the heap order**, and returns an element with a smallest key. -/
theorem isHeap_map_pop {x : α} (h : Compares less key l) (hl : IsHeap (l.map key))
    (hp : pop less l = some (x, l')) : IsHeap (l'.map key) ∧ ∀ y ∈ l, key x ≤ key y := by
  have hmap : pop keyLess (l.map key) = some (key x, l'.map key) := by
    rw [pop, length_map, ← map_swap, ← map_down (h.swap _ _), getLast?_map]
    obtain ⟨y, hy, he⟩ := map_eq_some_iff.1 hp
    cases he
    simp [hy, map_dropLast]
  refine ⟨isHeap_pop hl hmap, fun y hy => ?_⟩
  exact hl.head_le (head?_of_pop hmap) (key y) (mem_map_of_mem hy)

end TopcDB.Lib.HeapOrder
