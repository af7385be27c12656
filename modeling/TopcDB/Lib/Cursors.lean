import Mathlib.Algebra.BigOperators.Group.List.Basic
import Mathlib.Algebra.GroupWithZero.Nat
import Mathlib.Order.Bounds.Basic

/-! # Cursors over ascending elements

A cursor is moved by one element, or forward to the first element that is not below a bound. What a
state has to give is a set: its elements come in ascending order (`drain_spec`). The intersection of
some cursors, their union and the difference of two are cursors again (`interLaw`, `mergeLaw`,
`diffLaw`), each moved by the loop that forwards the cursor that is behind.

A loop may be given too few rounds; its result is then `none`. The law of a cursor says that this
does not happen. -/

namespace TopcDB.Lib.Cursors

open List

variable {α σ τ : Type} [LinearOrder α]

/-! ### The interface -/

structure Cursor (α σ : Type) where
  next : σ → Option (Bool × σ)
  cur : σ → α
  /-- A bound of the number of calls that move the cursor. -/
  size : σ → ℕ

/-- What a cursor promises: when `Ready` it has `ahead` to come, and `On` an element it stands on
the least one of `now`. -/
structure Law (C : Cursor α σ) where
  Ready : σ → Prop
  On : σ → Prop
  ahead : σ → Set α
  now : σ → Set α
  ready : ∀ {s}, On s → Ready s
  least : ∀ {s}, On s → IsLeast (now s) (C.cur s)
  ahead_eq : ∀ {s}, On s → ahead s = {x ∈ now s | C.cur s < x}
  next : ∀ {s}, Ready s → (∃ s', C.next s = some (false, s') ∧ ahead s = ∅) ∨
    ∃ s', C.next s = some (true, s') ∧ On s' ∧ now s' = ahead s ∧ C.size s' < C.size s

/-- What a cursor promises that can be moved to a bound. -/
def Seeks {C : Cursor α σ} (L : Law C) (seek : α → σ → Option (Bool × σ)) : Prop :=
  ∀ {s} (x : α), L.On s → (∃ s', seek x s = some (false, s') ∧ ∀ y ∈ L.now s, y < x) ∨
    ∃ s', seek x s = some (true, s') ∧ L.On s' ∧ L.now s' = {y ∈ L.now s | x ≤ y} ∧
      C.size s' ≤ C.size s ∧ (C.cur s < x → C.size s' < C.size s)

/-- The elements to come, `n` at most. -/
def drain (C : Cursor α σ) : ℕ → σ → Option (List α)
  | 0, _ => none
  | n + 1, s => do
    let (ok, s) ← C.next s
    if ok then
      let l ← drain C n s
      some (C.cur s :: l)
    else some []

variable {C : Cursor α σ}

/-- **A cursor gives what it has, in ascending order.** -/
theorem drain_spec (L : Law C) : ∀ (n : ℕ) {s : σ}, L.Ready s → C.size s < n →
    ∃ l, drain C n s = some l ∧ l.Pairwise (· < ·) ∧ ∀ x, x ∈ l ↔ x ∈ L.ahead s
  | 0, _, _, h => by omega
  | n + 1, s, hs, hn => by
    rw [drain]
    rcases L.next hs with ⟨s', he, hA⟩ | ⟨s', he, hon, hnow, hsize⟩
    · refine ⟨[], by rw [he]; rfl, List.Pairwise.nil, fun x => ?_⟩
      simp [hA]
    · obtain ⟨l, hl, hsort, hmem⟩ := drain_spec L n (L.ready hon) (by omega)
      have hleast := L.least hon
      have hahead := L.ahead_eq hon
      rw [hnow] at hleast hahead
      refine ⟨C.cur s' :: l, by rw [he]; simp [hl], pairwise_cons.2 ⟨fun x hx => ?_, hsort⟩,
        fun x => ?_⟩
      · rw [hmem, hahead] at hx
        exact hx.2
      · rw [mem_cons, hmem, hahead]
        constructor
        · rintro (rfl | hx)
          · exact hleast.1
          · exact hx.1
        · intro hx
          rcases (hleast.2 hx).eq_or_lt with h | h
          · exact Or.inl h.symm
          · exact .inr ⟨hx, h⟩

/-- The first element, if there is one. -/
theorem Law.first (L : Law C) {s : σ} (h : L.Ready s) :
    ∃ ok s', C.next s = some (ok, s') ∧ (ok = true → L.On s') ∧
      (∀ x, (ok = true ∧ x ∈ L.now s') ↔ x ∈ L.ahead s) ∧
      (if ok then C.size s' + 1 else 0) ≤ C.size s := by
  rcases L.next h with ⟨s', he, hA⟩ | ⟨s', he, hon, hnow, hsize⟩
  · exact ⟨false, s', he, by simp, by simp [hA], by simp⟩
  · exact ⟨true, s', he, fun _ => hon, by simp [hnow], by rw [if_pos rfl]; exact hsize⟩

theorem Seeks.first {L : Law C} {seek : α → σ → Option (Bool × σ)}
    (hS : Seeks L seek) (x : α) {s : σ} (h : L.On s) :
    ∃ ok s', seek x s = some (ok, s') ∧ (ok = true → L.On s') ∧
      (∀ y, (ok = true ∧ y ∈ L.now s') ↔ y ∈ L.now s ∧ x ≤ y) ∧
      (C.cur s < x → (if ok then C.size s' + 1 else 0) ≤ C.size s) := by
  rcases hS x h with ⟨s', he, hall⟩ | ⟨s', he, hon, hnow, -, hmove⟩
  · refine ⟨false, s', he, by simp, fun y => ?_, by simp⟩
    simpa using hall y
  · exact ⟨true, s', he, fun _ => hon, by simp [hnow],
      fun hlt => by rw [if_pos rfl]; exact hmove hlt⟩

/-! ### Intersection -/

structure Inter (α σ : Type) where
  arr : List σ
  cur : α

/-- How a pass over the cursors ends: one is exhausted, one stands behind the bound, or all of them
stand on it. -/
inductive Scan (α : Type)
  | stop
  | restart (cur : α)
  | all

section Inter

variable (C : Cursor α σ) (seek : α → σ → Option (Bool × σ))

/-- One pass: each cursor is moved to the bound, up to one that gets beyond it. -/
def scan (cur : α) : List σ → Option (Scan α × List σ)
  | [] => some (.all, [])
  | p :: ps => do
    let (ok, p) ← seek cur p
    if ok then
      if cur < C.cur p then some (.restart (C.cur p), p :: ps)
      else
        let (r, ps) ← scan cur ps
        some (r, p :: ps)
    else some (.stop, p :: ps)

/-- Passes until all cursors stand on the same element. -/
def doNext : ℕ → Inter α σ → Option (Bool × Inter α σ)
  | 0, _ => none
  | n + 1, it => do
    match ← scan C seek it.cur it.arr with
    | (.stop, arr) => some (false, { it with arr })
    | (.restart cur, arr) => doNext n ⟨arr, cur⟩
    | (.all, arr) => some (true, { it with arr })

/-- Moves all cursors by one element; the bound becomes the greatest element any stands on. -/
def advance : α → List σ → Option (Bool × α × List σ)
  | cur, [] => some (true, cur, [])
  | cur, p :: ps => do
    let (ok, p) ← C.next p
    if ok then
      let (ok, cur, ps) ← advance (if cur < C.cur p then C.cur p else cur) ps
      some (ok, cur, p :: ps)
    else some (false, cur, p :: ps)

def totalSize (arr : List σ) : ℕ := (arr.map C.size).sum

def Inter.next (it : Inter α σ) : Option (Bool × Inter α σ) := do
  let (ok, cur, arr) ← advance C it.cur it.arr
  if ok then doNext C seek (totalSize C arr + 1) ⟨arr, cur⟩ else some (false, ⟨arr, cur⟩)

def interCursor : Cursor α (Inter α σ) where
  next := Inter.next C seek
  cur := Inter.cur
  size it := totalSize C it.arr

variable {C seek} (L : Law C)

/-- The common elements of some cursors that are not below the bound. -/
def common (arr : List σ) (cur : α) : Set α := {x | (∀ p ∈ arr, x ∈ L.now p) ∧ cur ≤ x}

omit [LinearOrder α] in
@[simp] theorem totalSize_cons (p : σ) (ps : List σ) :
    totalSize C (p :: ps) = C.size p + totalSize C ps := by
  simp [totalSize]

theorem common_cons (p : σ) (ps : List σ) (cur : α) :
    common L (p :: ps) cur = {x ∈ common L ps cur | x ∈ L.now p} := by
  ext x
  simp only [common, forall_mem_cons]
  exact ⟨fun ⟨⟨hx, hps⟩, hcur⟩ => ⟨⟨hps, hcur⟩, hx⟩, fun ⟨⟨hps, hcur⟩, hx⟩ => ⟨⟨hx, hps⟩, hcur⟩⟩

theorem scan_spec (hS : Seeks L seek) {cur : α} : ∀ {arr : List σ}, (∀ p ∈ arr, L.On p) →
    (∀ p ∈ arr, C.cur p ≤ cur) → ∃ r arr', scan C seek cur arr = some (r, arr') ∧ match r with
      | .stop => common L arr cur = ∅
      | .restart cur' => cur ≤ cur' ∧ (∀ p ∈ arr', L.On p ∧ C.cur p ≤ cur') ∧
          common L arr' cur' = common L arr cur ∧ totalSize C arr' < totalSize C arr ∧
          arr'.length = arr.length
      | .all => (∀ p ∈ arr', L.On p ∧ C.cur p = cur) ∧
          common L arr' cur = common L arr cur ∧ totalSize C arr' ≤ totalSize C arr ∧
          arr'.length = arr.length
  | [], _, _ => ⟨.all, [], rfl, by simp⟩
  | p :: ps, hon, hle => by
    rw [forall_mem_cons] at hon hle
    rw [scan]
    rcases hS cur hon.1 with ⟨p', he, hlt⟩ | ⟨p', he, hon', hnow, hsize, hmove⟩
    · refine ⟨.stop, p' :: ps, by rw [he]; rfl, Set.eq_empty_iff_forall_notMem.2 fun x hx => ?_⟩
      exact absurd hx.2 (not_le.2 (hlt x (hx.1 p mem_cons_self)))
    · have hleast := L.least hon'
      rw [hnow] at hleast
      by_cases hgt : cur < C.cur p'
      · -- the cursor has moved beyond the bound, so that it has moved at all
        refine ⟨.restart (C.cur p'), p' :: ps, by rw [he]; simp [hgt], ?_⟩
        refine ⟨hgt.le, forall_mem_cons.2 ⟨⟨hon', le_rfl⟩, fun q hq =>
          ⟨hon.2 q hq, (hle.2 q hq).trans hgt.le⟩⟩, ?_, ?_, rfl⟩
        · ext x
          simp only [common, forall_mem_cons, hnow, Set.mem_ofPred_eq]
          constructor
          · rintro ⟨⟨hx, hps⟩, -⟩
            exact ⟨⟨hx.1, hps⟩, hx.2⟩
          · rintro ⟨⟨hx, hps⟩, hcur⟩
            exact ⟨⟨⟨hx, hcur⟩, hps⟩, hleast.2 ⟨hx, hcur⟩⟩
        · have hlt : C.cur p < cur := by
            refine lt_of_le_of_ne hle.1 fun heq => not_le.2 hgt (hleast.2 ⟨?_, le_rfl⟩)
            exact heq ▸ (L.least hon.1).1
          have := hmove hlt
          simp only [totalSize_cons]
          omega
      · have heq : C.cur p' = cur := le_antisymm (not_lt.1 hgt) hleast.1.2
        have hcommon : ∀ (qs : List σ) {c : α}, cur ≤ c → common L (p' :: qs) c =
            {x ∈ common L qs c | x ∈ L.now p} := by
          intro qs c hc
          rw [common_cons, hnow]
          ext x
          exact ⟨fun hx => ⟨hx.1, hx.2.1⟩, fun hx => ⟨hx.1, hx.2, hc.trans hx.1.2⟩⟩
        obtain ⟨r, ps', hr, hspec⟩ := scan_spec hS hon.2 hle.2
        refine ⟨r, p' :: ps', by rw [he]; simp [hgt, hr], ?_⟩
        rw [common_cons]
        rcases r with _ | cur' | _
        · simp only [hspec]
          exact Set.eq_empty_iff_forall_notMem.2 fun x hx => hx.1
        · obtain ⟨h0, h1, h2, h3, h4⟩ := hspec
          refine ⟨h0, forall_mem_cons.2 ⟨⟨hon', heq.le.trans h0⟩, h1⟩,
            by rw [hcommon ps' h0, h2], ?_, by simp [h4]⟩
          simp only [totalSize_cons]
          omega
        · obtain ⟨h1, h2, h3, h4⟩ := hspec
          refine ⟨forall_mem_cons.2 ⟨⟨hon', heq⟩, h1⟩, by rw [hcommon ps' le_rfl, h2], ?_,
            by simp [h4]⟩
          simp only [totalSize_cons]
          omega

theorem doNext_spec (hS : Seeks L seek) : ∀ (n : ℕ) {it : Inter α σ},
    (∀ p ∈ it.arr, L.On p ∧ C.cur p ≤ it.cur) → totalSize C it.arr < n →
    (∃ it', doNext C seek n it = some (false, it') ∧ common L it.arr it.cur = ∅) ∨
    ∃ it', doNext C seek n it = some (true, it') ∧ (∀ p ∈ it'.arr, L.On p ∧ C.cur p = it'.cur) ∧
      common L it'.arr it'.cur = common L it.arr it.cur ∧
      totalSize C it'.arr ≤ totalSize C it.arr ∧ it'.arr.length = it.arr.length
  | 0, _, _, h => by omega
  | n + 1, it, hon, hn => by
    obtain ⟨r, arr', hr, hspec⟩ := scan_spec L hS (fun p hp => (hon p hp).1)
      (fun p hp => (hon p hp).2)
    rw [doNext, hr]
    rcases r with _ | cur' | _
    · exact .inl ⟨_, rfl, hspec⟩
    · obtain ⟨-, h1, h2, h3, h4⟩ := hspec
      have h1' : ∀ p ∈ (Inter.mk arr' cur').arr, L.On p ∧ C.cur p ≤ (Inter.mk arr' cur').cur := h1
      rcases doNext_spec hS n h1' (by simp only; omega) with
        ⟨it', he, hc⟩ | ⟨it', he, hon', hc, hsize, hlen⟩
      · exact .inl ⟨it', he, by rw [← h2]; exact hc⟩
      · exact .inr ⟨it', he, hon', hc.trans h2, hsize.trans h3.le, hlen.trans h4⟩
    · exact .inr ⟨_, rfl, hspec⟩

theorem advance_spec : ∀ (cur : α) {arr : List σ}, (∀ p ∈ arr, L.Ready p) →
    (∃ cur' arr', advance C cur arr = some (false, cur', arr') ∧ ∃ p ∈ arr, L.ahead p = ∅) ∨
    ∃ cur' arr', advance C cur arr = some (true, cur', arr') ∧ cur ≤ cur' ∧
      (∀ p ∈ arr', L.On p ∧ C.cur p ≤ cur') ∧ (cur' = cur ∨ ∃ p ∈ arr', C.cur p = cur') ∧
      (∀ x, (∀ p ∈ arr', x ∈ L.now p) ↔ ∀ p ∈ arr, x ∈ L.ahead p) ∧
      totalSize C arr' + arr.length ≤ totalSize C arr ∧ arr'.length = arr.length
  | cur, [], _ => .inr ⟨cur, [], rfl, le_rfl, by simp [totalSize]⟩
  | cur, p :: ps, hr => by
    rw [forall_mem_cons] at hr
    rw [advance]
    rcases L.next hr.1 with ⟨p', he, hA⟩ | ⟨p', he, hon, hnow, hsize⟩
    · exact .inl ⟨cur, p' :: ps, by rw [he]; rfl, p, mem_cons_self, hA⟩
    · set c := if cur < C.cur p' then C.cur p' else cur with hc
      rcases advance_spec c hr.2 with ⟨cur', ps', ht, q, hq, hA⟩ |
        ⟨cur', ps', ht, hle, hons, hat, hset, hsz, hlen⟩
      · exact .inl ⟨cur', p' :: ps', by rw [he]; simp [← hc, ht], q,
          mem_cons_of_mem _ hq, hA⟩
      · have h1 : cur ≤ c := by rw [hc]; split_ifs with h; exacts [h.le, le_rfl]
        have h2 : C.cur p' ≤ c := by rw [hc]; split_ifs with h; exacts [le_rfl, not_lt.1 h]
        refine .inr ⟨cur', p' :: ps', by rw [he]; simp [← hc, ht], h1.trans hle,
          forall_mem_cons.2 ⟨⟨hon, h2.trans hle⟩, hons⟩, ?_, fun x => ?_, ?_, by simp [hlen]⟩
        · rcases hat with hat | ⟨q, hq, hat⟩
          · rw [hat, hc]
            split_ifs with h
            · exact .inr ⟨p', mem_cons_self, rfl⟩
            · exact Or.inl rfl
          · exact .inr ⟨q, mem_cons_of_mem _ hq, hat⟩
        · rw [forall_mem_cons, forall_mem_cons, hset, hnow]
        · simp only [totalSize_cons, length_cons]
          omega

variable (C seek)

/-- **The intersection of cursors is a cursor of the common elements.** -/
def interLaw (hS : Seeks L seek) : Law (interCursor C seek) where
  Ready it := it.arr ≠ [] ∧ (∀ p ∈ it.arr, L.Ready p) ∧
    ∀ x, (∀ p ∈ it.arr, x ∈ L.ahead p) → it.cur ≤ x
  On it := it.arr ≠ [] ∧ ∀ p ∈ it.arr, L.On p ∧ C.cur p = it.cur
  ahead it := {x | ∀ p ∈ it.arr, x ∈ L.ahead p}
  now it := {x | ∀ p ∈ it.arr, x ∈ L.now p}
  ready {it} h := by
    refine ⟨h.1, fun p hp => L.ready (h.2 p hp).1, fun x hx => ?_⟩
    obtain ⟨p, hp⟩ := exists_mem_of_ne_nil _ h.1
    have hx' := hx p hp
    rw [L.ahead_eq (h.2 p hp).1, (h.2 p hp).2] at hx'
    exact hx'.2.le
  least {it} h := by
    show IsLeast {x | ∀ p ∈ it.arr, x ∈ L.now p} it.cur
    refine ⟨fun p hp => ?_, fun x hx => ?_⟩
    · exact (h.2 p hp).2 ▸ (L.least (h.2 p hp).1).1
    · obtain ⟨p, hp⟩ := exists_mem_of_ne_nil _ h.1
      exact (h.2 p hp).2 ▸ (L.least (h.2 p hp).1).2 (hx p hp)
  ahead_eq {it} h := by
    obtain ⟨q, hq⟩ := exists_mem_of_ne_nil _ h.1
    have hahead : ∀ p ∈ it.arr, L.ahead p = {x ∈ L.now p | it.cur < x} := fun p hp => by
      rw [L.ahead_eq (h.2 p hp).1, (h.2 p hp).2]
    ext x
    constructor
    · intro hx
      refine ⟨fun p hp => ?_, ?_⟩
      · exact (hahead p hp ▸ hx p hp).1
      · exact (hahead q hq ▸ hx q hq).2
    · intro hx p hp
      rw [hahead p hp]
      exact ⟨hx.1 p hp, hx.2⟩
  next {it} h := by
    obtain ⟨hne, hready, hcur⟩ := h
    show (∃ s', Inter.next C seek it = _ ∧ _) ∨ ∃ s', Inter.next C seek it = _ ∧ _
    rw [Inter.next]
    rcases advance_spec L it.cur hready with ⟨cur', arr', he, p, hp, hA⟩ |
      ⟨cur', arr', he, hle, hon, hat, hset, hsize, hlen⟩
    · refine .inl ⟨⟨arr', cur'⟩, by rw [he]; rfl, Set.eq_empty_iff_forall_notMem.2 fun x hx => ?_⟩
      exact Set.eq_empty_iff_forall_notMem.1 hA x (hx p hp)
    · -- no common element is below the bound
      have hbound : ∀ x, (∀ p ∈ arr', x ∈ L.now p) → cur' ≤ x := by
        intro x hx
        rcases hat with rfl | ⟨p, hp, rfl⟩
        · exact hcur x ((hset x).1 hx)
        · exact (L.least (hon p hp).1).2 (hx p hp)
      have hcommon : common L arr' cur' = {x | ∀ p ∈ it.arr, x ∈ L.ahead p} := by
        ext x
        exact ⟨fun hx => (hset x).1 hx.1, fun hx => ⟨(hset x).2 hx, hbound x ((hset x).2 hx)⟩⟩
      have hpos := length_pos_of_ne_nil hne
      rw [he]
      have hon' : ∀ p ∈ (Inter.mk arr' cur').arr, L.On p ∧ C.cur p ≤ (Inter.mk arr' cur').cur := hon
      rcases doNext_spec L hS (totalSize C arr' + 1) hon' (Nat.lt_succ_self _) with
        ⟨it', hd, hc⟩ | ⟨it', hd, hons, hc, hsz, hl⟩
      · exact .inl ⟨it', hd, by rw [← hcommon]; exact hc⟩
      · have hne' : it'.arr ≠ [] := by
          refine ne_nil_of_length_pos ?_
          rw [hl]
          show 0 < arr'.length
          omega
        refine .inr ⟨it', hd, ⟨hne', hons⟩, ?_, ?_⟩
        · rw [← hcommon]
          refine Eq.trans ?_ hc
          ext x
          refine ⟨fun hx => ⟨hx, ?_⟩, fun hx => hx.1⟩
          obtain ⟨p, hp⟩ := exists_mem_of_ne_nil _ hne'
          exact (hons p hp).2 ▸ (L.least (hons p hp).1).2 (hx p hp)
        · show totalSize C it'.arr < totalSize C it.arr
          have : totalSize C it'.arr ≤ totalSize C arr' := hsz
          omega

end Inter

/-! ### Union -/

/-- The cursors that are not exhausted, each on its first element that is not yet given. -/
structure Merge (α σ : Type) where
  live : List σ
  started : Bool
  cur : α

section Merge

variable {C : Cursor α σ} (L : Law C) {ps qs : List σ} {ok : Bool}

/-- The elements that some of the cursors have. -/
def union (ps : List σ) : Set α := {x | ∃ p ∈ ps, x ∈ L.now p}

theorem union_perm (h : ps.Perm qs) : union L ps = union L qs := by
  ext x
  exact ⟨fun ⟨p, hp, hx⟩ => ⟨p, h.mem_iff.1 hp, hx⟩, fun ⟨p, hp, hx⟩ => ⟨p, h.mem_iff.2 hp, hx⟩⟩

theorem mem_union_cons {p : σ} {x : α} : x ∈ union L (p :: ps) ↔ x ∈ L.now p ∨ x ∈ union L ps := by
  simp [union]

theorem forall_mem_ite {P : σ → Prop} {w : σ} :
    (∀ p ∈ if ok then w :: qs else qs, P p) ↔ (ok = true → P w) ∧ ∀ p ∈ qs, P p := by
  cases ok <;> simp

theorem mem_union_ite {w : σ} {x : α} :
    x ∈ union L (if ok then w :: qs else qs) ↔ (ok = true ∧ x ∈ L.now w) ∨ x ∈ union L qs := by
  cases ok <;> simp [mem_union_cons]

theorem sum_map_ite {g : σ → ℕ} {w : σ} :
    ((if ok then w :: qs else qs).map g).sum = (if ok then g w else 0) + (qs.map g).sum := by
  cases ok <;> simp

omit [LinearOrder α] in
theorem size_perm (h : ps.Perm qs) :
    (ps.map fun p => C.size p + 1).sum = (qs.map fun p => C.size p + 1).sum :=
  (h.map _).sum_eq

/-- A tournament: it picks one of the cursors that stand on the least element, and leaves the other
ones. -/
class Winner (C : Cursor α σ) where
  pick : List σ → Option (σ × List σ)
  spec : ∀ ps, match pick ps with
    | none => ps = []
    | some (w, qs) => ps.Perm (w :: qs) ∧ ∀ p ∈ ps, C.cur w ≤ C.cur p

variable (C) (seek : α → σ → Option (Bool × σ))

/-- The first of the cursors that stand on the least element wins. -/
def firstLeast : List σ → Option (σ × List σ)
  | [] => none
  | p :: ps =>
    match firstLeast ps with
    | none => some (p, [])
    | some (w, qs) => if C.cur p ≤ C.cur w then some (p, ps) else some (w, p :: qs)

variable {C} in
theorem firstLeast_spec (ps : List σ) : match firstLeast C ps with
    | none => ps = []
    | some (w, qs) => ps.Perm (w :: qs) ∧ ∀ p ∈ ps, C.cur w ≤ C.cur p := by
  induction ps with
  | nil => rfl
  | cons p ps ih =>
    rw [firstLeast]
    rcases hp : firstLeast C ps with _ | ⟨w, qs⟩
    · rw [hp] at ih
      simp only at ih
      subst ih
      simp
    · rw [hp] at ih
      simp only at ih ⊢
      by_cases hle : C.cur p ≤ C.cur w
      · rw [if_pos hle]
        exact ⟨List.Perm.refl _, forall_mem_cons.2 ⟨le_rfl, fun q hq => hle.trans (ih.2 q hq)⟩⟩
      · rw [if_neg hle]
        exact ⟨(ih.1.cons p).trans (List.Perm.swap _ _ _),
          forall_mem_cons.2 ⟨(not_le.1 hle).le, ih.2⟩⟩

/-- The tournament that the first one wins. -/
@[reducible] def firstWinner : Winner C := ⟨firstLeast C, firstLeast_spec⟩

variable [Winner C]

/-- Moves the cursor with the least element, but for the first time. -/
def Merge.step (m : Merge α σ) : Option (Bool × Merge α σ) :=
  if m.started then
    match Winner.pick C m.live with
    | none => some (false, m)
    | some (w, qs) => do
      let (ok, w) ← C.next w
      let live := if ok then w :: qs else qs
      some (!live.isEmpty, { m with live })
  else some (!m.live.isEmpty, { m with started := true })

/-- Steps until the element is a new one. -/
def mergeNext : ℕ → Merge α σ → Option (Bool × Merge α σ)
  | 0, _ => none
  | n + 1, m => do
    let (ok, m) ← Merge.step C m
    match ok, Winner.pick C m.live with
    | true, some (w, _) =>
      if C.cur w ≠ m.cur then some (true, { m with cur := C.cur w }) else mergeNext n m
    | _, _ => some (false, m)

/-- Moves the cursor with the least element to the bound until none is below. -/
def mergeSeek (x : α) : ℕ → Merge α σ → Option (Bool × Merge α σ)
  | 0, _ => none
  | n + 1, m =>
    match Winner.pick C m.live with
    | none => some (false, m)
    | some (w, qs) =>
      if C.cur w < x then do
        let (ok, w) ← seek x w
        mergeSeek x n { m with live := if ok then w :: qs else qs }
      else some (true, { m with cur := C.cur w })

def Merge.size (m : Merge α σ) : ℕ :=
  (m.live.map fun p => C.size p + 1).sum + if m.started then 0 else 1

def mergeCursor : Cursor α (Merge α σ) where
  next m := mergeNext C (Merge.size C m + 1) m
  cur := Merge.cur
  size := Merge.size C

def Merge.seekTo (x : α) (m : Merge α σ) : Option (Bool × Merge α σ) :=
  mergeSeek C seek x (Merge.size C m + 1) m

variable {C seek}

theorem exists_pick (h : ps ≠ []) : ∃ w qs, Winner.pick C ps = some (w, qs) ∧
    ps.Perm (w :: qs) ∧ ∀ p ∈ ps, C.cur w ≤ C.cur p := by
  have hs := Winner.spec (C := C) ps
  rcases hp : Winner.pick C ps with _ | ⟨w, qs⟩
  · rw [hp] at hs
    exact absurd hs h
  · rw [hp] at hs
    exact ⟨w, qs, rfl, hs⟩

theorem pick_nil : Winner.pick C [] = none := by
  have hs := Winner.spec (C := C) []
  rcases hp : Winner.pick C [] with _ | ⟨w, qs⟩
  · rfl
  · rw [hp] at hs
    exact absurd hs.1.symm (cons_ne_nil _ _ ·.eq_nil)

/-- The state between two calls. Before the first step every cursor is beyond `cur`; later the least
element is `cur`. -/
structure MergeReady (m : Merge α σ) : Prop where
  on : ∀ p ∈ m.live, L.On p ∧ m.cur ≤ C.cur p
  fresh : m.started = false → ∀ p ∈ m.live, m.cur < C.cur p
  stands : m.started = true → ∃ p ∈ m.live, C.cur p = m.cur

/-- One step gives up the element the merge stands on, in one of the cursors. -/
theorem step_spec {m : Merge α σ} (h : MergeReady L m) : ∃ m', Merge.step C m =
      some (!m'.live.isEmpty, m') ∧ m'.cur = m.cur ∧ m'.started = true ∧
      (∀ p ∈ m'.live, L.On p ∧ m.cur ≤ C.cur p) ∧
      {x ∈ union L m'.live | m.cur < x} = {x ∈ union L m.live | m.cur < x} ∧
      Merge.size C m' < Merge.size C m := by
  rw [Merge.step]
  rcases hst : m.started with _ | _
  · refine ⟨{ m with started := true }, by simp, rfl, rfl, h.on, rfl, ?_⟩
    simp [Merge.size, hst]
  · obtain ⟨p, hp, hcur⟩ := h.stands hst
    obtain ⟨w, qs, hpick, hperm, hmin⟩ := exists_pick (C := C) (ne_nil_of_mem hp)
    have hon : ∀ q ∈ w :: qs, L.On q ∧ m.cur ≤ C.cur q := fun q hq => h.on q (hperm.mem_iff.2 hq)
    rw [forall_mem_cons] at hon
    have hw : C.cur w = m.cur := le_antisymm (hcur ▸ hmin p hp) hon.1.2
    have hahead : L.ahead w = {x ∈ L.now w | m.cur < x} := hw ▸ L.ahead_eq hon.1.1
    have hsize := size_perm (C := C) hperm
    rw [map_cons, sum_cons] at hsize
    rw [if_pos rfl, hpick, union_perm L hperm]
    simp only
    obtain ⟨ok, w', he, hon', hset, hsz⟩ := L.first (L.ready hon.1.1)
    refine ⟨{ m with live := if ok then w' :: qs else qs }, by rw [he]; simp [hst], rfl,
      hst, forall_mem_ite.2 ⟨fun hok => ⟨hon' hok, ?_⟩, hon.2⟩, ?_, ?_⟩
    · have hmem := (hset _).1 ⟨hok, (L.least (hon' hok)).1⟩
      rw [hahead] at hmem
      exact hmem.2.le
    · ext x
      simp only [Set.mem_ofPred_eq, mem_union_ite, mem_union_cons, hset, hahead]
      tauto
    · simp only [Merge.size, hst, if_true, sum_map_ite]
      omega

theorem mergeNext_spec : ∀ (n : ℕ) {m : Merge α σ}, MergeReady L m → Merge.size C m < n →
    (∃ m', mergeNext C n m = some (false, m') ∧ {x ∈ union L m.live | m.cur < x} = ∅) ∨
    ∃ m', mergeNext C n m = some (true, m') ∧ m'.started = true ∧
      (∀ p ∈ m'.live, L.On p ∧ m'.cur ≤ C.cur p) ∧ (∃ p ∈ m'.live, C.cur p = m'.cur) ∧
      union L m'.live = {x ∈ union L m.live | m.cur < x} ∧ Merge.size C m' < Merge.size C m
  | 0, _, _, h => by omega
  | n + 1, m, hm, hn => by
    obtain ⟨m', he, hcur, hst, hon, hset, hsize⟩ := step_spec L hm
    rw [mergeNext, he]
    by_cases hlive : m'.live = []
    · refine .inl ⟨m', by simp [hlive], ?_⟩
      rw [← hset, hlive]
      simp [union]
    · obtain ⟨w, rs, hpick, hperm, hmin⟩ := exists_pick (C := C) hlive
      have hw : w ∈ m'.live := hperm.mem_iff.2 mem_cons_self
      have hemp : m'.live.isEmpty = false := by simpa using hlive
      by_cases hne : C.cur w = m'.cur
      · have hready : MergeReady L m' :=
          ⟨fun p hp => hcur ▸ hon p hp, fun hf => absurd hst (by simp [hf]), fun _ => ⟨w, hw, hne⟩⟩
        have ih := mergeNext_spec n hready (by omega)
        rw [hcur, hset] at ih
        simp only [hemp, hpick, hne, Option.bind_eq_bind, Option.bind_some, Bool.not_false, ne_eq,
          not_true_eq_false, if_false]
        rcases ih with ih | ⟨m'', h1, h2, h3, h4, h5, h6⟩
        · exact Or.inl ih
        · exact .inr ⟨m'', h1, h2, h3, h4, h5, h6.trans hsize⟩
      · have hlt : m.cur < C.cur w :=
          lt_of_le_of_ne (hon w hw).2 fun h => hne (h.symm.trans hcur.symm)
        refine .inr ⟨{ m' with cur := C.cur w }, ?_, hst, fun p hp => ⟨(hon p hp).1, hmin p hp⟩,
          ⟨w, hw, rfl⟩, ?_, hsize⟩
        · simp [hemp, hpick, hne]
        · rw [← hset]
          ext x
          refine ⟨fun hx => ⟨hx, ?_⟩, fun hx => hx.1⟩
          obtain ⟨p, hp, hx⟩ := hx
          exact lt_of_lt_of_le hlt ((hmin p hp).trans ((L.least (hon p hp).1).2 hx))

/-- **The union of cursors is a cursor.** -/
def mergeLaw : Law (mergeCursor C) where
  Ready := MergeReady L
  On m := m.started = true ∧ (∀ p ∈ m.live, L.On p ∧ m.cur ≤ C.cur p) ∧
    ∃ p ∈ m.live, C.cur p = m.cur
  ahead m := {x ∈ union L m.live | m.cur < x}
  now m := union L m.live
  ready h := ⟨h.2.1, fun hf => absurd h.1 (by simp [hf]), fun _ => h.2.2⟩
  least {m} h := by
    obtain ⟨-, hon, p, hp, hcur⟩ := h
    show IsLeast (union L m.live) m.cur
    refine ⟨⟨p, hp, ?_⟩, fun x hx => ?_⟩
    · exact hcur ▸ (L.least (hon p hp).1).1
    · obtain ⟨q, hq, hx⟩ := hx
      exact (hon q hq).2.trans ((L.least (hon q hq).1).2 hx)
  ahead_eq _ := rfl
  next {m} h := by
    rcases mergeNext_spec L (Merge.size C m + 1) h (Nat.lt_succ_self _) with
      h | ⟨m', h1, h2, h3, h4, h5, h6⟩
    · exact Or.inl h
    · exact .inr ⟨m', h1, ⟨h2, h3, h4⟩, h5, h6⟩

omit [Winner C] in
theorem seekLeast_spec (hS : Seeks L seek) {w : σ} {x : α} (hw : L.On w) (hlt : C.cur w < x)
    (hqs : ∀ p ∈ qs, L.On p) : ∃ ok w', seek x w = some (ok, w') ∧
      (∀ p ∈ if ok then w' :: qs else qs, L.On p) ∧
      (∀ y, x ≤ y → (y ∈ union L (if ok then w' :: qs else qs) ↔ y ∈ union L (w :: qs))) ∧
      ((if ok then w' :: qs else qs).map fun p => C.size p + 1).sum <
        ((w :: qs).map fun p => C.size p + 1).sum := by
  obtain ⟨ok, w', he, hon', hset, hsz⟩ := hS.first x hw
  refine ⟨ok, w', he, forall_mem_ite.2 ⟨hon', hqs⟩, fun y hy => ?_, ?_⟩
  · rw [mem_union_ite, mem_union_cons, hset, and_iff_left hy]
  · have := hsz hlt
    rw [sum_map_ite, map_cons, sum_cons]
    omega

theorem mergeSeek_spec (hS : Seeks L seek) (x : α) : ∀ (n : ℕ) {m : Merge α σ}, m.started = true →
    (∀ p ∈ m.live, L.On p) → Merge.size C m < n →
    (∃ m', mergeSeek C seek x n m = some (false, m') ∧ ∀ y ∈ union L m.live, y < x) ∨
    ∃ m', mergeSeek C seek x n m = some (true, m') ∧ (mergeLaw L).On m' ∧
      union L m'.live = {y ∈ union L m.live | x ≤ y} ∧ Merge.size C m' ≤ Merge.size C m ∧
      ((∃ p ∈ m.live, C.cur p < x) → Merge.size C m' < Merge.size C m)
  | 0, _, _, _, h => by omega
  | n + 1, m, hst, hon, hn => by
    rw [mergeSeek]
    by_cases hlive : m.live = []
    · exact .inl ⟨m, by simp [hlive, pick_nil], by simp [hlive, union]⟩
    obtain ⟨w, qs, hpick, hperm, hmin⟩ := exists_pick (C := C) hlive
    have hw : w ∈ m.live := hperm.mem_iff.2 mem_cons_self
    rw [hpick]
    simp only
    by_cases hlt : C.cur w < x
    · have hqs : ∀ p ∈ qs, L.On p := fun p hp => hon p (hperm.mem_iff.2 (mem_cons_of_mem _ hp))
      obtain ⟨ok, w', he, hlon, hset, hsum⟩ := seekLeast_spec L hS (hon w hw) hlt hqs
      rw [← union_perm L hperm] at hset
      rw [← size_perm hperm] at hsum
      rw [if_pos hlt, he]
      -- the other rounds, from the cursors that are left
      set m1 : Merge α σ := { m with live := if ok then w' :: qs else qs } with hm1
      have hsize : Merge.size C m1 < Merge.size C m := by
        simp only [Merge.size, hm1]
        omega
      have hst' : m1.started = true := hst
      rcases mergeSeek_spec hS x n hst' hlon (by omega) with ⟨m', h1, h2⟩ | ⟨m', h1, h2, h3, h4, -⟩
      · refine .inl ⟨m', h1, fun y hy => lt_of_not_ge fun hxy => ?_⟩
        exact absurd (h2 y ((hset y hxy).2 hy)) (not_lt.2 hxy)
      · refine .inr ⟨m', h1, h2, ?_, h4.trans hsize.le, fun _ => h4.trans_lt hsize⟩
        rw [h3]
        ext y
        exact ⟨fun hy => ⟨(hset y hy.2).1 hy.1, hy.2⟩, fun hy => ⟨(hset y hy.2).2 hy.1, hy.2⟩⟩
    · rw [if_neg hlt]
      refine .inr ⟨_, rfl, ⟨hst, fun p hp => ⟨hon p hp, hmin p hp⟩, w, hw, rfl⟩, ?_, le_rfl, ?_⟩
      · ext y
        refine ⟨fun hy => ⟨hy, ?_⟩, fun hy => hy.1⟩
        obtain ⟨p, hp, hy⟩ := hy
        exact (not_lt.1 hlt).trans ((hmin p hp).trans ((L.least (hon p hp)).2 hy))
      · rintro ⟨p, hp, hx⟩
        exact absurd ((hmin p hp).trans_lt hx) hlt

theorem seeks_merge (hS : Seeks L seek) : Seeks (mergeLaw L) (Merge.seekTo C seek) := by
  intro m x hm
  rcases mergeSeek_spec L hS x (Merge.size C m + 1) hm.1 (fun p hp => (hm.2.1 p hp).1)
    (Nat.lt_succ_self _) with h | ⟨m', h1, h2, h3, h4, h5⟩
  · exact Or.inl h
  · obtain ⟨p, hp, hcur⟩ := hm.2.2
    exact .inr ⟨m', h1, h2, h3, h4, fun hlt => h5 ⟨p, hp, hcur ▸ hlt⟩⟩

end Merge

/-! ### Difference -/

/-- Once `initialized`, both cursors stand on their next element, if they have one. -/
structure Diff (α τ σ : Type) where
  full : τ
  remove : σ
  cur : α
  initialized : Bool
  fok : Bool
  rok : Bool

variable (F : Cursor α τ) (C : Cursor α σ) (seek : α → σ → Option (Bool × σ))

/-- Gives the element of `full`, and moves on. -/
def Diff.take (d : Diff α τ σ) : Option (Bool × Diff α τ σ) := do
  let (fok, full) ← F.next d.full
  some (true, { d with cur := F.cur d.full, full, fok })

def diffLoop : ℕ → Diff α τ σ → Option (Bool × Diff α τ σ)
  | 0, _ => none
  | n + 1, d =>
    if !d.fok then some (false, d)
    else if !d.rok then Diff.take F d
    else if F.cur d.full < C.cur d.remove then Diff.take F d
    else if C.cur d.remove < F.cur d.full then do
      let (rok, remove) ← seek (F.cur d.full) d.remove
      diffLoop n { d with remove, rok }
    else do
      let (fok, full) ← F.next d.full
      diffLoop n { d with full, fok }

/-- The first moves of the two cursors. -/
def Diff.init (d : Diff α τ σ) : Option (Diff α τ σ) :=
  if d.initialized then some d
  else do
    let (fok, full) ← F.next d.full
    let (rok, remove) ← C.next d.remove
    some { d with full, remove, fok, rok, initialized := true }

def Diff.size (d : Diff α τ σ) : ℕ :=
  if d.initialized then
    (if d.fok then F.size d.full + 1 else 0) + if d.rok then C.size d.remove + 1 else 0
  else F.size d.full + C.size d.remove + 1

def diffCursor : Cursor α (Diff α τ σ) where
  next d := do
    let d ← Diff.init F C d
    diffLoop F C seek (Diff.size F C d + 1) d
  cur := Diff.cur
  size := Diff.size F C

variable {F C seek} (K : Law F) (L : Law C)

/-- What is left, once both cursors have been moved to their first element. -/
def rest (d : Diff α τ σ) : Set α :=
  {x | (d.fok = true ∧ x ∈ K.now d.full) ∧ ¬ (d.rok = true ∧ x ∈ L.now d.remove)}

structure DiffOn (d : Diff α τ σ) : Prop where
  init : d.initialized = true
  full : d.fok = true → K.On d.full
  remove : d.rok = true → L.On d.remove

theorem take_spec {d : Diff α τ σ} (h : DiffOn K L d) (hfok : d.fok = true)
    (hkeep : d.rok = true → F.cur d.full < C.cur d.remove) :
    ∃ d', Diff.take F d = some (true, d') ∧ DiffOn K L d' ∧ (∀ x ∈ rest K L d', d'.cur < x) ∧
      insert d'.cur (rest K L d') = rest K L d ∧ Diff.size F C d' < Diff.size F C d := by
  have hon := h.full hfok
  have hleast := K.least hon
  have hahead := K.ahead_eq hon
  -- the element itself is not removed
  have hnot : ¬ (d.rok = true ∧ F.cur d.full ∈ L.now d.remove) := fun hr =>
    absurd ((L.least (h.remove hr.1)).2 hr.2) (not_le.2 (hkeep hr.1))
  rw [Diff.take]
  obtain ⟨fok, full', he, hon', hset, hsize⟩ := K.first (K.ready hon)
  refine ⟨{ d with cur := F.cur d.full, full := full', fok := fok }, by rw [he]; rfl,
    ⟨h.init, hon', h.remove⟩, ?_, ?_, ?_⟩
  · rintro x ⟨hx, -⟩
    rw [hset, hahead] at hx
    exact hx.2
  · ext x
    simp only [rest, Set.mem_insert_iff, Set.mem_ofPred_eq, hset, hfok, true_and, hahead]
    constructor
    · rintro (rfl | h')
      · exact ⟨hleast.1, hnot⟩
      · exact ⟨h'.1.1, h'.2⟩
    · rintro ⟨hx1, hx2⟩
      rcases (hleast.2 hx1).eq_or_lt with heq | hlt
      · exact Or.inl heq.symm
      · exact .inr ⟨⟨hx1, hlt⟩, hx2⟩
  · simp only [Diff.size, h.init, hfok, if_true]
    omega

/-- A round that gives nothing: the element of `full` is removed, or the other cursor is behind. -/
theorem diffStep_spec (hS : Seeks L seek) {d : Diff α τ σ} (h : DiffOn K L d) (hfok : d.fok = true)
    (hrok : d.rok = true) (hle : C.cur d.remove ≤ F.cur d.full) : ∃ d', DiffOn K L d' ∧
      rest K L d' = rest K L d ∧ Diff.size F C d' < Diff.size F C d ∧
      ∀ n, diffLoop F C seek (n + 1) d = diffLoop F C seek n d' := by
  have hon := h.full hfok
  have hleast := K.least hon
  have hrem := h.remove hrok
  rcases hle.eq_or_lt with heq | hgt
  · have hahead := K.ahead_eq hon
    have hmem : F.cur d.full ∈ L.now d.remove := heq ▸ (L.least hrem).1
    have hdrop : rest K L d = {x | x ∈ K.ahead d.full ∧ x ∉ L.now d.remove} := by
      ext x
      simp only [rest, hfok, hrok, true_and, hahead]
      refine ⟨fun hx => ⟨⟨hx.1, ?_⟩, hx.2⟩, fun hx => ⟨hx.1.1, hx.2⟩⟩
      exact lt_of_le_of_ne (hleast.2 hx.1) fun h => hx.2 (h ▸ hmem)
    obtain ⟨fok, full', he, hon', hset, hsize⟩ := K.first (K.ready hon)
    refine ⟨{ d with full := full', fok := fok }, ⟨h.init, hon', h.remove⟩, ?_, ?_, fun n => ?_⟩
    · rw [hdrop]
      ext x
      simp only [rest, hset, hrok, true_and]
    · simp only [Diff.size, h.init, hfok, if_true]
      omega
    · simp [diffLoop, hfok, hrok, heq, he]
  · obtain ⟨rok, r', he, hon', hset, hsize⟩ := hS.first (F.cur d.full) hrem
    refine ⟨{ d with remove := r', rok := rok }, ⟨h.init, h.full, hon'⟩, ?_, ?_, fun n => ?_⟩
    · ext x
      simp only [rest, hfok, hrok, true_and, hset]
      exact ⟨fun hx => ⟨hx.1, fun hx' => hx.2 ⟨hx', hleast.2 hx.1⟩⟩,
        fun hx => ⟨hx.1, fun hx' => hx.2 hx'.1⟩⟩
    · have := hsize hgt
      simp only [Diff.size, h.init, hfok, hrok, if_true]
      omega
    · simp [diffLoop, hfok, hrok, hgt, hgt.le, he]

theorem diffLoop_spec (hS : Seeks L seek) : ∀ (n : ℕ) {d : Diff α τ σ}, DiffOn K L d →
    Diff.size F C d < n →
    (∃ d', diffLoop F C seek n d = some (false, d') ∧ rest K L d = ∅) ∨
    ∃ d', diffLoop F C seek n d = some (true, d') ∧ DiffOn K L d' ∧
      (∀ x ∈ rest K L d', d'.cur < x) ∧ insert d'.cur (rest K L d') = rest K L d ∧
      Diff.size F C d' < Diff.size F C d
  | 0, _, _, h => by omega
  | n + 1, d, h, hn => by
    by_cases hfok : d.fok = true
    swap
    · refine .inl ⟨d, by simp [diffLoop, hfok], Set.eq_empty_iff_forall_notMem.2 fun x hx => ?_⟩
      exact absurd hx.1.1 hfok
    by_cases hkeep : d.rok = true → F.cur d.full < C.cur d.remove
    · obtain ⟨d', he, hd'⟩ := take_spec K L h hfok hkeep
      refine .inr ⟨d', ?_, hd'⟩
      by_cases hrok : d.rok = true
      · simp [diffLoop, hfok, hrok, hkeep hrok, he]
      · simp [diffLoop, hfok, hrok, he]
    · -- another round, with the same elements left
      obtain ⟨hrok, hlt⟩ := Classical.not_imp.1 hkeep
      obtain ⟨d', hd', hrest, hsize, hrun⟩ := diffStep_spec K L hS h hfok hrok (not_lt.1 hlt)
      have ih := diffLoop_spec hS n hd' (by omega)
      rw [hrest] at ih
      rw [hrun]
      rcases ih with ih | ⟨d'', h1, h2, h3, h4, h5⟩
      · exact .inl ih
      · exact .inr ⟨d'', h1, h2, h3, h4, h5.trans hsize⟩

theorem init_spec {d : Diff α τ σ} (hi : d.initialized = false) (hf : K.Ready d.full)
    (hr : L.Ready d.remove) : ∃ d', Diff.init F C d = some d' ∧ DiffOn K L d' ∧
      rest K L d' = {x | x ∈ K.ahead d.full ∧ x ∉ L.ahead d.remove} ∧
      Diff.size F C d' ≤ Diff.size F C d := by
  obtain ⟨fok, full', he, hon, hset, hsize⟩ := K.first hf
  obtain ⟨rok, remove', he', hon', hset', hsize'⟩ := L.first hr
  refine ⟨⟨full', remove', d.cur, true, fok, rok⟩, ?_, ⟨rfl, hon, hon'⟩, ?_, ?_⟩
  · rw [Diff.init, hi, he, he']
    rfl
  · ext x
    simp only [rest, hset, hset']
  · simp only [Diff.size, hi, if_true, if_neg Bool.false_ne_true]
    omega

variable (F C seek) in
/-- **The difference of two cursors is a cursor.** -/
def diffLaw (hS : Seeks L seek) : Law (diffCursor F C seek) where
  Ready d := (d.initialized = false ∧ K.Ready d.full ∧ L.Ready d.remove) ∨ DiffOn K L d
  On d := DiffOn K L d ∧ ∀ x ∈ rest K L d, d.cur < x
  ahead d := if d.initialized then rest K L d else {x | x ∈ K.ahead d.full ∧ x ∉ L.ahead d.remove}
  now d := insert d.cur (rest K L d)
  ready h := Or.inr h.1
  least {d} h := ⟨Set.mem_insert _ _, by
    rintro x (rfl | hx)
    · exact le_rfl
    · exact (h.2 x hx).le⟩
  ahead_eq {d} h := by
    rw [if_pos h.1.init]
    ext x
    refine ⟨fun hx => ⟨Set.mem_insert_of_mem _ hx, h.2 x hx⟩, ?_⟩
    rintro ⟨rfl | hx, hlt⟩
    · exact absurd hlt (lt_irrefl _)
    · exact hx
  next {d} h := by
    have hinit : ∃ d', Diff.init F C d = some d' ∧ DiffOn K L d' ∧ rest K L d' =
        (if d.initialized then rest K L d else {x | x ∈ K.ahead d.full ∧ x ∉ L.ahead d.remove}) ∧
        Diff.size F C d' ≤ Diff.size F C d := by
      rcases h with ⟨hi, hf, hr⟩ | h
      · rw [hi]
        exact init_spec K L hi hf hr
      · exact ⟨d, by rw [Diff.init, if_pos h.init], h, by rw [if_pos h.init], le_rfl⟩
    obtain ⟨d', he, hon, hrest, hsize⟩ := hinit
    have hnext : (diffCursor F C seek).next d = diffLoop F C seek (Diff.size F C d' + 1) d' := by
      simp [diffCursor, he]
    rw [hnext, ← hrest]
    rcases diffLoop_spec K L hS (Diff.size F C d' + 1) hon (Nat.lt_succ_self _) with
      h | ⟨d'', h1, h2, h3, h4, h5⟩
    · exact Or.inl h
    · exact .inr ⟨d'', h1, ⟨h2, h3⟩, h4, h5.trans_le hsize⟩

end TopcDB.Lib.Cursors
