import TopcDB.Lib.Assoc
import TopcDB.Lib.Cursors
import TopcDB.Lib.Search

/-! # Postings (`tsdb/index`)

A postings list has the references of the series with a label, in ascending order. `MemPostings`
keeps one for each label, and one for all series under the label with the empty name and the empty
value. Its lists are read by iterators; those of `Intersect`, `Merge` and `Without` are the cursors
of `Lib.Cursors` for intersection, union and difference.

The tournament of the sequences that are merged is that of a library, here any that picks a sequence
with the least element; no reference may be the greatest number, which marks a sequence that is
exhausted there. -/

namespace TopcDB.Tsdb.Postings

open List Lib.Assoc Lib.Cursors Lib.Search

/-! ### `ListPostings` -/

structure ListPostings where
  list : List ℕ
  cur : ℕ

def ListPostings.next (it : ListPostings) : Bool × ListPostings :=
  match it.list with
  | x :: l => (true, ⟨l, x⟩)
  | [] => (false, { it with cur := 0 })

def ListPostings.seek (x : ℕ) (it : ListPostings) : Bool × ListPostings :=
  if it.cur ≥ x then (true, it)
  else if it.list.length = 0 then (false, it)
  else
    match it.list.drop (searchList it.list (x ≤ ·)) with
    | y :: l => (true, ⟨l, y⟩)
    | [] => (false, { it with list := [] })

def listCursor : Cursor ℕ ListPostings where
  next it := some it.next
  cur := ListPostings.cur
  size it := it.list.length

def Ascends (it : ListPostings) : Prop := (it.cur :: it.list).Pairwise (· < ·)

def listLaw : Law listCursor where
  Ready := Ascends
  On := Ascends
  ahead it := {x | x ∈ it.list}
  now it := {x | x ∈ it.cur :: it.list}
  ready h := h
  least {it} h := by
    refine ⟨mem_cons_self, fun x hx => ?_⟩
    rcases mem_cons.1 hx with rfl | hx
    · exact le_rfl
    · exact (rel_of_pairwise_cons h hx).le
  ahead_eq {it} h := by
    ext x
    refine ⟨fun hx => ⟨mem_cons_of_mem _ hx, rel_of_pairwise_cons h hx⟩, fun hx => ?_⟩
    rcases mem_cons.1 hx.1 with rfl | hx'
    · exact absurd hx.2 (lt_irrefl _)
    · exact hx'
  next {it} h := by
    obtain ⟨list, cur⟩ := it
    rcases list with _ | ⟨x, l⟩
    · exact .inl ⟨_, rfl, by simp⟩
    · exact .inr ⟨_, rfl, h.of_cons, rfl, Nat.lt_succ_self _⟩

theorem seeks_list : Seeks listLaw fun x it => some (it.seek x) := by
  intro it x h
  have h' : (it.cur :: it.list).Pairwise (· < ·) := h
  show (∃ s', some (it.seek x) = _ ∧ _) ∨ ∃ s', some (it.seek x) = _ ∧ _
  rw [ListPostings.seek]
  by_cases hcur : it.cur ≥ x
  · rw [if_pos hcur]
    refine .inr ⟨it, rfl, h, ?_, le_rfl, fun hlt => absurd hlt (not_lt.2 hcur)⟩
    ext y
    refine ⟨fun hy => ⟨hy, hcur.le.trans ((listLaw.least h).2 hy)⟩, fun hy => hy.1⟩
  rw [if_neg hcur]
  have hsorted : it.list.Pairwise (· < ·) := (pairwise_cons.1 h').2
  obtain ⟨-, hlo, hhi⟩ := searchList_spec (l := it.list) (p := fun y => decide (x ≤ y))
    (hsorted.imp fun hab hp => by simp at hp ⊢; omega)
  set i := searchList it.list fun y => decide (x ≤ y)
  have hsplit : ∀ y, x ≤ y → (y ∈ it.cur :: it.list ↔ y ∈ it.list.drop i) := by
    intro y hy
    rw [mem_cons]
    constructor
    · rintro (rfl | hmem)
      · exact absurd hy hcur
      · rw [← take_append_drop i it.list, mem_append] at hmem
        refine hmem.resolve_left fun ht => ?_
        have := hlo y ht
        simp at this
        omega
    · exact fun hmem => Or.inr (mem_of_mem_drop hmem)
  have hnone : it.list.drop i = [] → ∀ y ∈ it.cur :: it.list, y < x := fun hd y hy =>
    lt_of_not_ge fun hxy => by simpa [hd] using (hsplit y hxy).1 hy
  by_cases hlen : it.list.length = 0
  · rw [if_pos hlen]
    exact .inl ⟨it, rfl, hnone (by rw [length_eq_zero_iff.1 hlen, drop_nil])⟩
  rw [if_neg hlen]
  rcases hd : it.list.drop i with _ | ⟨y, l⟩
  · exact .inl ⟨_, rfl, hnone hd⟩
  · have hlt : l.length < it.list.length := by
      have := congrArg List.length hd
      rw [length_drop, length_cons] at this
      omega
    refine .inr ⟨⟨l, y⟩, rfl, ?_, ?_, ?_, ?_⟩
    · show (y :: l).Pairwise (· < ·)
      exact hd ▸ hsorted.drop
    · ext z
      refine ⟨fun hz => ?_, fun hz => ?_⟩
      · have hz' : z ∈ it.list.drop i := hd ▸ hz
        have hxz : x ≤ z := by simpa using hhi z hz'
        exact ⟨(hsplit z hxz).2 hz', hxz⟩
      · show z ∈ y :: l
        exact hd ▸ (hsplit z hz.2).1 hz.1
    · exact hlt.le
    · exact fun _ => hlt

/-! ### What the index returns -/

/-- `EmptyPostings`, a list, or the merge of some lists. -/
inductive Leaf
  | empty
  | list (it : ListPostings)
  | merged (it : Merge ℕ ListPostings)

/-- The result of a call on an iterator of one kind. -/
def rewrap {σ τ : Type} (f : σ → τ) (r : Option (Bool × σ)) : Option (Bool × τ) :=
  r.map fun p => (p.1, f p.2)

theorem rewrap_cases {σ τ : Type} {f : σ → τ} {r : Option (Bool × σ)} {P : Prop} {Q : σ → Prop}
    {Q' : τ → Prop} (h : (∃ s, r = some (false, s) ∧ P) ∨ ∃ s, r = some (true, s) ∧ Q s)
    (hQ : ∀ s, Q s → Q' (f s)) :
    (∃ s, rewrap f r = some (false, s) ∧ P) ∨ ∃ s, rewrap f r = some (true, s) ∧ Q' s := by
  rcases h with ⟨s, rfl, hP⟩ | ⟨s, rfl, hq⟩
  · exact .inl ⟨f s, rfl, hP⟩
  · exact .inr ⟨f s, rfl, hQ s hq⟩

/-- The merge before its first step: every sequence has been moved to its first element. -/
def newMergedPostings (its : List ListPostings) : Merge ℕ ListPostings where
  live := its.filterMap fun it => if it.next.1 then some it.next.2 else none
  started := false
  cur := 0

def merge : List ListPostings → Leaf
  | [] => .empty
  | [it] => .list it
  | its => .merged (newMergedPostings its)

/-- A fresh iterator of a list of references. -/
def Fresh (l : List ℕ) : Prop := l.Pairwise (· < ·) ∧ ∀ x ∈ l, 0 < x

theorem Fresh.ascends {l : List ℕ} (h : Fresh l) : Ascends ⟨l, 0⟩ := pairwise_cons.2 ⟨h.2, h.1⟩

theorem mem_live {ls : List (List ℕ)} {it : ListPostings} :
    it ∈ (newMergedPostings (ls.map fun l => ⟨l, 0⟩)).live ↔ it.cur :: it.list ∈ ls := by
  simp only [newMergedPostings, mem_filterMap, mem_map]
  constructor
  · rintro ⟨_, ⟨l, hl, rfl⟩, he⟩
    rcases l with _ | ⟨x, l⟩
    · simp [ListPostings.next] at he
    · simp only [ListPostings.next, if_true, Option.some.injEq] at he
      exact he ▸ hl
  · intro h
    exact ⟨_, ⟨_, h, rfl⟩, by simp [ListPostings.next]⟩

def isEmptyPostingsType : Leaf → Bool
  | .empty => true
  | _ => false

theorem isEmptyPostingsType_iff {p : Leaf} : isEmptyPostingsType p = true ↔ p = .empty := by
  cases p <;> simp [isEmptyPostingsType]

section Iterators

variable [Winner listCursor]

def Leaf.next : Leaf → Option (Bool × Leaf)
  | .empty => some (false, .empty)
  | .list it => rewrap .list (listCursor.next it)
  | .merged it => rewrap .merged ((mergeCursor listCursor).next it)

def Leaf.seek (x : ℕ) : Leaf → Option (Bool × Leaf)
  | .empty => some (false, .empty)
  | .list it => rewrap .list (some (it.seek x))
  | .merged it => rewrap .merged (Merge.seekTo listCursor (fun x it => some (it.seek x)) x it)

def leafCursor : Cursor ℕ Leaf where
  next := Leaf.next
  cur
    | .empty => 0
    | .list it => it.cur
    | .merged it => it.cur
  size
    | .empty => 0
    | .list it => listCursor.size it
    | .merged it => Merge.size listCursor it

def leafLaw : Law leafCursor where
  Ready
    | .empty => True
    | .list it => listLaw.Ready it
    | .merged it => (mergeLaw listLaw).Ready it
  On
    | .empty => False
    | .list it => listLaw.On it
    | .merged it => (mergeLaw listLaw).On it
  ahead
    | .empty => ∅
    | .list it => listLaw.ahead it
    | .merged it => (mergeLaw listLaw).ahead it
  now
    | .empty => ∅
    | .list it => listLaw.now it
    | .merged it => (mergeLaw listLaw).now it
  ready {p} h := by
    cases p with
    | empty => trivial
    | list it => exact listLaw.ready h
    | merged it => exact (mergeLaw listLaw).ready h
  least {p} h := by
    cases p with
    | empty => exact h.elim
    | list it => exact listLaw.least h
    | merged it => exact (mergeLaw listLaw).least h
  ahead_eq {p} h := by
    cases p with
    | empty => exact h.elim
    | list it => exact listLaw.ahead_eq h
    | merged it => exact (mergeLaw listLaw).ahead_eq h
  next {p} h := by
    cases p with
    | empty => exact .inl ⟨.empty, rfl, rfl⟩
    | list it => exact rewrap_cases (listLaw.next h) fun _ hq => hq
    | merged it => exact rewrap_cases ((mergeLaw listLaw).next h) fun _ hq => hq

theorem seeks_leaf : Seeks leafLaw Leaf.seek := by
  intro p x h
  cases p with
  | empty => exact h.elim
  | list it => exact rewrap_cases (seeks_list x h) fun _ hq => hq
  | merged it => exact rewrap_cases (seeks_merge listLaw seeks_list x h) fun _ hq => hq

/-- A postings iterator that will give the elements of a set. -/
def Gives (p : Leaf) (A : Set ℕ) : Prop := leafLaw.Ready p ∧ leafLaw.ahead p = A

/-- **A merge gives the elements of all its lists.** -/
theorem gives_merge {ls : List (List ℕ)} (h : ∀ l ∈ ls, Fresh l) :
    Gives (merge (ls.map fun l => ⟨l, 0⟩)) {x | ∃ l ∈ ls, x ∈ l} := by
  rcases ls with _ | ⟨l, _ | ⟨l', ls⟩⟩
  · exact ⟨trivial, by simp [merge, leafLaw]⟩
  · exact ⟨(h l (mem_singleton_self l)).ascends, by simp [merge, leafLaw, listLaw]⟩
  · generalize hls : l :: l' :: ls = all at h ⊢
    have hm : merge (all.map fun l => ⟨l, 0⟩) =
        .merged (newMergedPostings (all.map fun l => ⟨l, 0⟩)) := by
      rw [← hls]
      rfl
    have hpos : ∀ it ∈ (newMergedPostings (all.map fun l => ⟨l, 0⟩)).live, 0 < it.cur :=
      fun it hit => (h _ (mem_live.1 hit)).2 _ mem_cons_self
    rw [hm]
    refine ⟨⟨fun it hit => ⟨(h _ (mem_live.1 hit)).1, Nat.zero_le _⟩, fun _ => hpos,
      fun hst => ?_⟩, ?_⟩
    · simp [newMergedPostings] at hst
    · ext x
      constructor
      · rintro ⟨⟨it, hit, hx⟩, -⟩
        exact ⟨_, mem_live.1 hit, hx⟩
      · rintro ⟨l, hl, hx⟩
        obtain ⟨y, k, rfl⟩ := exists_cons_of_ne_nil (ne_nil_of_mem hx)
        exact ⟨⟨⟨k, y⟩, mem_live.2 hl, hx⟩, (h _ hl).2 x hx⟩

/-! ### `Intersect` -/

/-- One of the iterators itself, or the intersection of several. -/
inductive Start
  | leaf (p : Leaf)
  | inter (it : Inter ℕ Leaf)

def intersect : List Leaf → Start
  | [] => .leaf .empty
  | [p] => .leaf p
  | its => if its.any isEmptyPostingsType then .leaf .empty else .inter ⟨its, 0⟩

def startCursor : Cursor ℕ Start where
  next
    | .leaf p => rewrap .leaf (leafCursor.next p)
    | .inter it => rewrap .inter ((interCursor leafCursor Leaf.seek).next it)
  cur
    | .leaf p => leafCursor.cur p
    | .inter it => it.cur
  size
    | .leaf p => leafCursor.size p
    | .inter it => (interCursor leafCursor Leaf.seek).size it

def startLaw : Law startCursor where
  Ready
    | .leaf p => leafLaw.Ready p
    | .inter it => (interLaw leafCursor Leaf.seek leafLaw seeks_leaf).Ready it
  On
    | .leaf p => leafLaw.On p
    | .inter it => (interLaw leafCursor Leaf.seek leafLaw seeks_leaf).On it
  ahead
    | .leaf p => leafLaw.ahead p
    | .inter it => (interLaw leafCursor Leaf.seek leafLaw seeks_leaf).ahead it
  now
    | .leaf p => leafLaw.now p
    | .inter it => (interLaw leafCursor Leaf.seek leafLaw seeks_leaf).now it
  ready {p} h := by
    cases p with
    | leaf p => exact leafLaw.ready h
    | inter it => exact (interLaw leafCursor Leaf.seek leafLaw seeks_leaf).ready h
  least {p} h := by
    cases p with
    | leaf p => exact leafLaw.least h
    | inter it => exact (interLaw leafCursor Leaf.seek leafLaw seeks_leaf).least h
  ahead_eq {p} h := by
    cases p with
    | leaf p => exact leafLaw.ahead_eq h
    | inter it => exact (interLaw leafCursor Leaf.seek leafLaw seeks_leaf).ahead_eq h
  next {p} h := by
    cases p with
    | leaf p => exact rewrap_cases (leafLaw.next h) fun _ hq => hq
    | inter it =>
      exact rewrap_cases ((interLaw leafCursor Leaf.seek leafLaw seeks_leaf).next h) fun _ hq => hq

/-- **An intersection gives the common elements.** -/
theorem intersect_spec {its : List Leaf} (hne : its ≠ []) (h : ∀ p ∈ its, leafLaw.Ready p) :
    startLaw.Ready (intersect its) ∧
      startLaw.ahead (intersect its) = {x | ∀ p ∈ its, x ∈ leafLaw.ahead p} := by
  rcases its with _ | ⟨p, _ | ⟨q, its⟩⟩
  · exact absurd rfl hne
  · exact ⟨h p (mem_singleton_self p), by simp [intersect, startLaw]⟩
  · generalize hits : p :: q :: its = all at h hne ⊢
    have hi : intersect all = if all.any isEmptyPostingsType then .leaf .empty
        else .inter ⟨all, 0⟩ := by
      rw [← hits]
      rfl
    rw [hi]
    split_ifs with he
    · obtain ⟨r, hr, hre⟩ := any_eq_true.1 he
      refine ⟨trivial, Eq.symm (Set.eq_empty_iff_forall_notMem.2 fun x hx => ?_)⟩
      cases r with
      | empty => exact hx _ hr
      | list => cases hre
      | merged => cases hre
    · exact ⟨⟨hne, h, fun x _ => Nat.zero_le x⟩, rfl⟩

/-! ### `Without` -/

/-- The iterator after `k` calls of `Without` that made a new one. -/
def Chain : ℕ → Type
  | 0 => Start
  | k + 1 => Diff ℕ (Chain k) Leaf

def chainCursor : (k : ℕ) → Cursor ℕ (Chain k)
  | 0 => startCursor
  | k + 1 => diffCursor (chainCursor k) leafCursor Leaf.seek

def chainLaw : (k : ℕ) → Law (chainCursor k)
  | 0 => startLaw
  | k + 1 => diffLaw (chainCursor k) leafCursor Leaf.seek (chainLaw k) leafLaw seeks_leaf

structure AnyPostings where
  k : ℕ
  it : Chain k

def AnyPostings.isEmptyType : AnyPostings → Bool
  | ⟨0, .leaf p⟩ => isEmptyPostingsType p
  | _ => false

def without (full : AnyPostings) (drop : Leaf) : AnyPostings :=
  if full.isEmptyType then ⟨0, .leaf .empty⟩
  else if isEmptyPostingsType drop then full
  else ⟨full.k + 1, ⟨full.it, drop, 0, false, false, false⟩⟩

variable (p : AnyPostings)

def AnyPostings.expand : Option (List ℕ) :=
  drain (chainCursor p.k) ((chainCursor p.k).size p.it + 1) p.it

def AnyPostings.Ready : Prop := (chainLaw p.k).Ready p.it

def AnyPostings.ahead : Set ℕ := (chainLaw p.k).ahead p.it

theorem ahead_of_isEmptyType {p : AnyPostings} (h : p.isEmptyType = true) : p.ahead = ∅ := by
  obtain ⟨k, it⟩ := p
  rcases k with _ | k
  · cases it with
    | leaf p =>
      obtain rfl := isEmptyPostingsType_iff.1 h
      rfl
    | inter it => cases h
  · cases h

/-- **A difference gives the elements that are not dropped.** -/
theorem without_spec {full : AnyPostings} {drop : Leaf} (hf : full.Ready)
    (hd : leafLaw.Ready drop) : (without full drop).Ready ∧
      (without full drop).ahead = {x | x ∈ full.ahead ∧ x ∉ leafLaw.ahead drop} := by
  rw [without]
  split_ifs with he hde
  · refine ⟨trivial, Eq.symm (Set.eq_empty_iff_forall_notMem.2 fun x hx => ?_)⟩
    rw [ahead_of_isEmptyType he] at hx
    exact hx.1
  · obtain rfl := isEmptyPostingsType_iff.1 hde
    refine ⟨hf, ?_⟩
    ext x
    exact ⟨fun hx => ⟨hx, fun h => h⟩, fun hx => hx.1⟩
  · exact ⟨.inl ⟨rfl, hf, hd⟩, rfl⟩

theorem expand_spec {p : AnyPostings} (h : p.Ready) :
    ∃ l, p.expand = some l ∧ l.Pairwise (· < ·) ∧ ∀ x, x ∈ l ↔ x ∈ p.ahead :=
  drain_spec (chainLaw p.k) _ h (Nat.lt_succ_self _)

end Iterators

/-! ### `MemPostings` -/

/-- The lists by the name and the value of a label. -/
structure MemPostings where
  m : AssocMap (String × String) (List ℕ)

def allPostingsKey : String × String := ("", "")

/-- The last element of the list moves to its place; the list is given from its end. -/
def repair (id : ℕ) : List ℕ → List ℕ
  | [] => [id]
  | x :: l => if id ≥ x then id :: x :: l else x :: repair id l

variable (p : MemPostings)

def MemPostings.addFor (id : ℕ) (l : String × String) : MemPostings :=
  ⟨p.m.set l (repair id ((p.m.get? l).getD []).reverse).reverse⟩

def MemPostings.get (name value : String) : Leaf :=
  match p.m.get? (name, value) with
  | none => .empty
  | some lp => .list ⟨lp, 0⟩

variable (name : String)

/-- `headIndexReader.Postings`. -/
def MemPostings.postings : List String → Leaf
  | [] => .empty
  | [value] => p.get name value
  | values => merge (values.filterMap fun value => (p.m.get? (name, value)).map fun l => ⟨l, 0⟩)

/-- The values of a label, in the order in which they were added. -/
def MemPostings.lvs : List String :=
  (p.m.entries.filter fun e => e.1.1 = name).map fun e => e.1.2

def MemPostings.postingsForLabelMatching (f : String → Bool) : Leaf :=
  let vals := (p.lvs name).filter f
  if vals.length = 0 then .empty
  else merge (vals.filterMap fun v => (p.m.get? (name, v)).map fun refs => ⟨refs, 0⟩)

/-- The lists of all values of a label, in the order of the loop over the map. -/
def MemPostings.postingsForAllLabelValues (o : RangeOrder ((String × String) × List ℕ))
    (p : MemPostings) (name : String) : Leaf :=
  merge (((o.visit (p.m.entries.filter fun e => e.1.1 = name)).filter fun e => e.2.length > 0).map
    fun e => ⟨e.2, 0⟩)

/-! ### What the index has -/

/-- The lists have, in ascending order, the references that have their label. -/
structure Indexes (Has : ℕ → String × String → Prop) : Prop where
  list : ∀ {k l}, p.m.get? k = some l → Fresh l ∧ ∀ r, r ∈ l ↔ Has r k
  none : ∀ {k}, p.m.get? k = none → ∀ r, ¬ Has r k

theorem Indexes.congr {p : MemPostings} {Has Has' : ℕ → String × String → Prop} (h : Indexes p Has)
    (he : ∀ r k, Has r k ↔ Has' r k) : Indexes p Has' := by
  obtain rfl : Has = Has' := funext₂ fun r k => propext (he r k)
  exact h

theorem indexes_empty : Indexes ⟨.empty⟩ fun _ _ => False :=
  ⟨fun {_ _} h => (Option.some_ne_none _ h.symm).elim, fun _ _ h => h⟩

theorem mem_repair {id x : ℕ} {l : List ℕ} : x ∈ repair id l ↔ x = id ∨ x ∈ l := by
  induction l with
  | nil => simp [repair]
  | cons y l ih =>
    rw [repair]
    split_ifs
    · simp
    · rw [mem_cons, ih, mem_cons]
      tauto

theorem pairwise_repair {id : ℕ} {l : List ℕ} (h : l.Pairwise (· > ·)) (hid : id ∉ l) :
    (repair id l).Pairwise (· > ·) := by
  induction l with
  | nil => exact pairwise_singleton _ _
  | cons y l ih =>
    rw [mem_cons, not_or] at hid
    have hy := pairwise_cons.1 h
    rw [repair]
    split_ifs with hge
    · refine pairwise_cons.2 ⟨forall_mem_cons.2 ⟨by omega, fun z hz => ?_⟩, h⟩
      have := hy.1 z hz
      omega
    · refine pairwise_cons.2 ⟨fun z hz => ?_, ih hy.2 hid.2⟩
      rcases mem_repair.1 hz with rfl | hz
      · omega
      · exact hy.1 z hz

theorem Indexes.addFor {p : MemPostings} {Has : ℕ → String × String → Prop} (h : Indexes p Has)
    {id : ℕ} (hid : 0 < id) {k : String × String} (hnew : ¬ Has id k) :
    Indexes (p.addFor id k) fun r k' => Has r k' ∨ (r = id ∧ k' = k) := by
  -- the list as it was before, empty if there was none
  have hold : Fresh ((p.m.get? k).getD []) ∧ ∀ r, r ∈ (p.m.get? k).getD [] ↔ Has r k := by
    rcases hg : p.m.get? k with _ | l
    · exact ⟨⟨List.Pairwise.nil, by simp⟩, fun r => by simp [h.none hg r]⟩
    · exact h.list hg
  refine ⟨fun {k' l} hget => ?_, fun {k'} hget r => ?_⟩
  · rw [MemPostings.addFor, AssocMap.get?_set] at hget
    split_ifs at hget with hk
    · cases hget
      subst hk
      refine ⟨⟨?_, fun x hx => ?_⟩, fun r => ?_⟩
      · rw [pairwise_reverse]
        refine pairwise_repair (pairwise_reverse.2 hold.1.1) ?_
        rw [mem_reverse, hold.2]
        exact hnew
      · rw [mem_reverse, mem_repair, mem_reverse] at hx
        rcases hx with rfl | hx
        · exact hid
        · exact hold.1.2 x hx
      · rw [mem_reverse, mem_repair, mem_reverse, hold.2, or_comm]
        simp
    · obtain ⟨hf, hmem⟩ := h.list hget
      exact ⟨hf, fun r => by rw [hmem]; simp [hk]⟩
  · rw [MemPostings.addFor, AssocMap.get?_set] at hget
    split_ifs at hget with hk
    rintro (hr | ⟨-, rfl⟩)
    · exact h.none hget r hr
    · exact hk rfl

variable {p : MemPostings} {Has : ℕ → String × String → Prop}

theorem mem_lvs {name v : String} : v ∈ p.lvs name ↔ (name, v) ∈ p.m.keys := by
  simp only [MemPostings.lvs, AssocMap.keys, mem_map, mem_filter, decide_eq_true_eq]
  constructor
  · rintro ⟨e, ⟨he, hn⟩, rfl⟩
    exact ⟨e, he, by rw [← hn]⟩
  · rintro ⟨e, he, hk⟩
    exact ⟨e, ⟨he, by rw [hk]⟩, by rw [hk]⟩

variable [Winner listCursor]

theorem Indexes.gives_get (h : Indexes p Has) (name value : String) :
    Gives (p.get name value) {r | Has r (name, value)} := by
  rw [MemPostings.get]
  rcases hg : p.m.get? (name, value) with _ | l
  · exact ⟨trivial, Eq.symm (Set.eq_empty_iff_forall_notMem.2 (h.none hg))⟩
  · obtain ⟨hf, hmem⟩ := h.list hg
    exact ⟨hf.ascends, Set.ext hmem⟩

theorem Indexes.gives_values (h : Indexes p Has) (name : String) (values : List String) :
    Gives (merge (values.filterMap fun v => (p.m.get? (name, v)).map fun l => ⟨l, 0⟩))
      {r | ∃ v ∈ values, Has r (name, v)} := by
  rw [← map_filterMap]
  have hf : ∀ l ∈ values.filterMap fun v => p.m.get? (name, v), Fresh l := by
    intro l hl
    obtain ⟨v, -, hv⟩ := mem_filterMap.1 hl
    exact (h.list hv).1
  obtain ⟨hr, ha⟩ := gives_merge hf
  refine ⟨hr, ha.trans (Set.ext fun r => ?_)⟩
  constructor
  · rintro ⟨l, hl, hx⟩
    obtain ⟨v, hv, hg⟩ := mem_filterMap.1 hl
    exact ⟨v, hv, ((h.list hg).2 r).1 hx⟩
  · rintro ⟨v, hv, hx⟩
    rcases hg : p.m.get? (name, v) with _ | l
    · exact absurd hx (h.none hg r)
    · exact ⟨l, mem_filterMap.2 ⟨v, hv, hg⟩, ((h.list hg).2 r).2 hx⟩

theorem Indexes.gives_postings (h : Indexes p Has) (name : String) (values : List String) :
    Gives (p.postings name values) {r | ∃ v ∈ values, Has r (name, v)} := by
  rcases values with _ | ⟨v, _ | ⟨v', values⟩⟩
  · exact ⟨trivial, by ext r; simp [leafLaw, MemPostings.postings]⟩
  · simpa [MemPostings.postings] using h.gives_get name v
  · exact h.gives_values name _

theorem Indexes.gives_matching (h : Indexes p Has) (name : String) (f : String → Bool) :
    Gives (p.postingsForLabelMatching name f) {r | ∃ v, f v = true ∧ Has r (name, v)} := by
  have hv : ∀ r v, Has r (name, v) → v ∈ p.lvs name := by
    intro r v hr
    rw [mem_lvs]
    by_contra hk
    exact h.none ((p.m.get?_eq_none_iff _).2 hk) r hr
  have hset : {r | ∃ v ∈ (p.lvs name).filter f, Has r (name, v)} =
      {r | ∃ v, f v = true ∧ Has r (name, v)} := by
    ext r
    exact ⟨fun ⟨v, hm, hr⟩ => ⟨v, (mem_filter.1 hm).2, hr⟩,
      fun ⟨v, hf, hr⟩ => ⟨v, mem_filter.2 ⟨hv r v hr, hf⟩, hr⟩⟩
  simp only [MemPostings.postingsForLabelMatching]
  split_ifs with hl
  · refine ⟨trivial, Eq.symm ?_⟩
    rw [← hset, length_eq_zero_iff.1 hl]
    simp [leafLaw]
  · exact hset ▸ h.gives_values name _

theorem Indexes.gives_all (h : Indexes p Has) (o : RangeOrder ((String × String) × List ℕ))
    (name : String) :
    Gives (p.postingsForAllLabelValues o name) {r | ∃ v, Has r (name, v)} := by
  set es := (o.visit (p.m.entries.filter fun e => e.1.1 = name)).filter fun e => e.2.length > 0
    with hes
  have hmem : ∀ e, e ∈ es ↔ (e ∈ p.m.entries ∧ e.1.1 = name) ∧ 0 < e.2.length := by
    intro e
    rw [hes, mem_filter, (o.perm _).mem_iff, mem_filter]
    simp
  have hget : ∀ e ∈ es, p.m.get? e.1 = some e.2 := fun e he =>
    (p.m.get?_eq_some_iff _ _).2 ((hmem e).1 he).1.1
  have hf : ∀ l ∈ es.map Prod.snd, Fresh l :=
    forall_mem_map.2 fun e he => (h.list (hget e he)).1
  obtain ⟨hr, ha⟩ := gives_merge hf
  have hmap : p.postingsForAllLabelValues o name =
      merge ((es.map Prod.snd).map fun l => ⟨l, 0⟩) := by
    rw [MemPostings.postingsForAllLabelValues, ← hes, map_map]
    rfl
  rw [hmap]
  refine ⟨hr, ha.trans (Set.ext fun r => ?_)⟩
  constructor
  · rintro ⟨l, hl, hx⟩
    obtain ⟨e, he, rfl⟩ := mem_map.1 hl
    have hhas := ((h.list (hget e he)).2 r).1 hx
    obtain ⟨⟨n, v⟩, l⟩ := e
    obtain rfl : n = name := ((hmem _).1 he).1.2
    exact ⟨v, hhas⟩
  · rintro ⟨v, hx⟩
    rcases hg : p.m.get? (name, v) with _ | l
    · exact absurd hx (h.none hg r)
    · have hrl := ((h.list hg).2 r).2 hx
      refine ⟨l, mem_map.2 ⟨((name, v), l), (hmem _).2 ⟨⟨?_, rfl⟩, ?_⟩, rfl⟩, hrl⟩
      · exact (p.m.get?_eq_some_iff _ _).1 hg
      · exact length_pos_of_mem hrl

end TopcDB.Tsdb.Postings
