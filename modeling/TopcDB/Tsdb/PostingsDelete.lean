import TopcDB.Lib.Machine
import TopcDB.Tsdb.Postings

/-! # `MemPostings.Add` and `MemPostings.Delete` at the same time

`Delete` takes the references off the lists of the affected labels one label after the other, then
renews the value lists of the names that have lost a value. It gives up the lock in both loops from
time to time. A step of the machine is what runs while the lock is held: an `Add`, or the part of a
`Delete` up to the next release. -/

namespace TopcDB.Tsdb.PostingsDelete

open Function List Lib.Assoc Lib.Machine Postings

/-- `m` and `lvs`. The maps of `m` by name are one map here, in which a name without values has no
entry. -/
structure Index extends MemPostings where
  lvs : String → Option (List String)

namespace Index

def list (p : Index) (l : String × String) : List ℕ := (p.m.get? l).getD []

def values (p : Index) (name : String) : List String :=
  (p.m.keys.filter fun l => l.1 = name).map Prod.snd

def addFor (p : Index) (id : ℕ) (l : String × String) : Index where
  toMemPostings := p.toMemPostings.addFor id l
  lvs := if l ∈ p.m.keys then p.lvs
    else update p.lvs l.1 (some ((p.lvs l.1).getD [] ++ [l.2]))

/-- `process`, with the names it has noted. -/
def process (deleted : List ℕ) (s : Index × List String) (l : String × String) :
    Index × List String :=
  let repl := (s.1.list l).filter (· ∉ deleted)
  if repl.length > 0 then ({ s.1 with m := s.1.m.set l repl }, s.2)
  else ({ s.1 with m := s.1.m.erase l }, s.2.insert l.1)

/-- The body of the loop over the names. -/
def renew (o : RangeOrder String) (p : Index) (name : String) : Index :=
  if (p.values name).length = 0 then { p with lvs := update p.lvs name none }
  else { p with lvs := update p.lvs name (some (o.visit (p.values name))) }

end Index

/-- The labels of a series: no label twice, and none that stands for all series. -/
structure Labels where
  labels : List (String × String)
  nodup : labels.Nodup
  ne_all : allPostingsKey ∉ labels

/-- The keys under which `Add` enters a series. -/
def Labels.keys (lset : Labels) : List (String × String) := lset.labels ++ [allPostingsKey]

def Index.add (p : Index) (id : ℕ) (lset : Labels) : Index :=
  lset.keys.foldl (fun p l => p.addFor id l) p

/-- What a `Delete` that has given up the lock has still to do. -/
inductive Deletion
  | labels (deleted : List ℕ) (todo : List (String × String)) (affectedLabelNames : List String)
  | names (todo : List String)

/-- The orders of the loops over maps. -/
structure Orders where
  names : RangeOrder String
  values : String → RangeOrder String

/-- The loop over the names, up to the release of the lock after `k` of them. -/
def renewNames (o : Orders) (k : ℕ) (p : Index) (todo : List String) : Index × Option Deletion :=
  ((todo.take k).foldl (fun p name => p.renew (o.values name) name) p,
    if todo.length ≤ k then none else some (.names (todo.drop k)))

/-- `Delete` from one release of the lock to the next: after every 512th label, and before every
512th name. -/
def Deletion.resume (o : Orders) (p : Index) : Deletion → Index × Option Deletion
  | .labels deleted todo noted =>
    let (p, noted) := (todo.take 512).foldl (Index.process deleted) (p, noted)
    if 512 ≤ todo.length then (p, some (.labels deleted (todo.drop 512) noted))
    else
      let (p, noted) := Index.process deleted (p, noted) allPostingsKey
      renewNames o 511 p (o.names.visit noted)
  | .names todo => renewNames o 512 p todo

/-- The index, the calls of `Delete` in progress, the series added and the references deleted so
far. -/
structure System where
  index : Index
  running : ℕ → Option Deletion
  added : List (ℕ × Labels)
  dropped : List ℕ

def System.init : System := ⟨⟨⟨.empty⟩, fun _ => none⟩, fun _ => none, [], []⟩

inductive Op
  | add (id : ℕ) (lset : Labels)
  | delete (t : ℕ) (deleted : List ℕ) (affected : List (String × String)) (o : Orders)
  | resume (t : ℕ) (o : Orders)

def System.proceed (s : System) (t : ℕ) (o : Orders) (d : Deletion) : System :=
  { s with
    index := (d.resume o s.index).1
    running := update s.running t (d.resume o s.index).2 }

def step (s : System) : Op → System
  | .add id lset => { s with index := s.index.add id lset, added := (id, lset) :: s.added }
  | .delete t deleted affected o =>
    { s with dropped := deleted ++ s.dropped }.proceed t o (.labels deleted affected [])
  | .resume t o =>
    match s.running t with
    | none => s
    | some d => s.proceed t o d

/-- How the calls are made: a reference is added once, and not after it was deleted; `affected` has
the labels of the deleted series. -/
def Allowed (s : System) : Op → Prop
  | .add id _ => id ∉ s.added.map Prod.fst ∧ id ∉ s.dropped
  | .delete t deleted affected _ =>
    s.running t = none ∧ ∀ a ∈ s.added, a.1 ∈ deleted → a.2.labels ⊆ affected
  | .resume _ _ => True

instance (s : System) : ∀ op, Decidable (Allowed s op)
  | .add _ _ => inferInstanceAs (Decidable (_ ∧ _))
  | .delete _ _ _ _ => inferInstanceAs (Decidable (_ ∧ _))
  | .resume _ _ => inferInstanceAs (Decidable True)

/-! ### The lists and the keys -/

section

variable {p : Index} {id : ℕ} {k l : String × String} {n v : String}

theorem mem_values : v ∈ p.values n ↔ (n, v) ∈ p.m.keys := by
  simp only [Index.values, mem_map, mem_filter, decide_eq_true_eq]
  constructor
  · rintro ⟨l, ⟨hl, rfl⟩, rfl⟩
    exact hl
  · exact fun h => ⟨(n, v), ⟨h, rfl⟩, rfl⟩

theorem nodup_values : (p.values n).Nodup := by
  refine Nodup.map_on ?_ (p.m.nodup.filter _)
  intro l hl l' hl' he
  rw [mem_filter, decide_eq_true_eq] at hl hl'
  exact Prod.ext (hl.2.trans hl'.2.symm) he

theorem mem_keys_of_mem_list (h : id ∈ p.list k) : k ∈ p.m.keys := by
  by_contra hk
  rw [Index.list, (p.m.get?_eq_none_iff k).2 hk] at h
  cases h

/-- The values of the name are listed once each, under a name that has values. -/
def Exact (p : Index) (n : String) : Prop :=
  (p.lvs n = none ↔ p.values n = []) ∧ ((p.lvs n).getD []).Perm (p.values n)

/-- All values are listed. -/
def Recorded (p : Index) : Prop := ∀ n v, (n, v) ∈ p.m.keys → v ∈ (p.lvs n).getD []

theorem list_addFor : (p.addFor id l).list k =
    if k = l then (repair id (p.list l).reverse).reverse else p.list k := by
  rw [Index.list, Index.addFor, MemPostings.addFor, AssocMap.get?_set]
  split_ifs <;> rfl

theorem keys_addFor : (p.addFor id l).m.keys =
    if l ∈ p.m.keys then p.m.keys else p.m.keys ++ [l] := by
  rw [Index.addFor, MemPostings.addFor, AssocMap.keys_set]
  congr

theorem lvs_addFor : (p.addFor id l).lvs n = if l ∉ p.m.keys ∧ n = l.1 then
    some ((p.lvs n).getD [] ++ [l.2]) else p.lvs n := by
  unfold Index.addFor
  by_cases hl : l ∈ p.m.keys
  · simp [hl]
  · by_cases hn : n = l.1
    · simp [hl, hn]
    · simp [hl, hn, update_of_ne]

theorem recorded_addFor (h : Recorded p) : Recorded (p.addFor id l) := by
  intro n v hv
  rw [keys_addFor] at hv
  rw [lvs_addFor]
  by_cases hl : l ∈ p.m.keys
  · rw [if_pos hl] at hv
    rw [if_neg fun hc => hc.1 hl]
    exact h n v hv
  · rw [if_neg hl, mem_append, mem_singleton] at hv
    split_ifs with hn
    · rw [Option.getD_some, mem_append, mem_singleton]
      exact hv.imp (h n v) fun he => by rw [← he]
    · exact h n v (hv.resolve_right fun he => hn ⟨hl, by rw [← he]⟩)

theorem exact_addFor (h : Exact p n) : Exact (p.addFor id l) n := by
  rw [Exact, Index.values, keys_addFor, lvs_addFor]
  by_cases hl : l ∈ p.m.keys
  · rw [if_neg fun hc => hc.1 hl, if_pos hl]
    exact h
  · rw [if_neg hl, filter_append, map_append]
    split_ifs with hn
    · exact ⟨by simp [hn.2], by simpa [hn.2] using (hn.2 ▸ h.2).append_right [l.2]⟩
    · have hne : ¬ l.1 = n := fun he => hn ⟨hl, he.symm⟩
      rw [filter_cons_of_neg (by simpa using hne), filter_nil, map_nil,
        append_nil]
      exact h

/-- `Add` enters the reference under every key of the series, and leaves the other lists. -/
theorem list_add {ks : List (String × String)} (hks : ks.Nodup) (p : Index) :
    (ks.foldl (fun p l => p.addFor id l) p).list k =
      if k ∈ ks then (repair id (p.list k).reverse).reverse else p.list k := by
  induction ks generalizing p with
  | nil => rfl
  | cons l ks ih =>
    rw [nodup_cons] at hks
    rw [foldl_cons, ih hks.2, list_addFor]
    by_cases hk : k = l
    · subst hk
      simp [hks.1]
    · simp [hk]

theorem Labels.nodup_keys (lset : Labels) : lset.keys.Nodup :=
  lset.nodup.append (nodup_singleton _) (by simpa using lset.ne_all)

theorem recorded_add (h : Recorded p) (lset : Labels) : Recorded (p.add id lset) :=
  foldlRecOn _ _ h fun _ h _ _ => recorded_addFor h

theorem exact_add (h : Exact p n) (lset : Labels) : Exact (p.add id lset) n :=
  foldlRecOn (motive := (Exact · n)) _ _ h fun _ h _ _ => exact_addFor h

variable {deleted : List ℕ} {noted : List String}

theorem list_process : (Index.process deleted (p, noted) l).1.list k =
    if k = l then (p.list l).filter (· ∉ deleted) else p.list k := by
  unfold Index.process
  dsimp only
  split_ifs with hr hk hk <;> simp only [Index.list, AssocMap.get?_set, AssocMap.get?_erase, hk,
    if_true, if_false, Option.getD_some, Option.getD_none]
  exact (length_eq_zero_iff.1 (Nat.eq_zero_of_not_pos hr)).symm

theorem process_spec (deleted : List ℕ) (p : Index) (noted : List String) (l : String × String) :
    (Index.process deleted (p, noted) l).1.lvs = p.lvs ∧
    (∀ k ∈ (Index.process deleted (p, noted) l).1.m.keys, k ∈ p.m.keys) ∧
    (∀ n, n ∈ noted → n ∈ (Index.process deleted (p, noted) l).2) ∧
    ∀ n, n ∉ (Index.process deleted (p, noted) l).2 →
      (Index.process deleted (p, noted) l).1.values n = p.values n := by
  unfold Index.process
  dsimp only
  split_ifs with hr
  · obtain ⟨id, hid⟩ := exists_mem_of_length_pos hr
    have hl := mem_keys_of_mem_list (mem_filter.1 hid).1
    have hkeys : (p.m.set l ((p.list l).filter (· ∉ deleted))).keys = p.m.keys := by
      rw [AssocMap.keys_set, if_pos hl]
    exact ⟨rfl, fun k hk => hkeys ▸ hk, fun _ h => h, fun n _ => by
      simp only [Index.values, hkeys]⟩
  · refine ⟨rfl, fun k hk => ?_, fun n hn => mem_insert_of_mem hn, fun n hn => ?_⟩
    · rw [AssocMap.keys_erase] at hk
      exact mem_of_mem_filter hk
    · have hne : l.1 ≠ n := fun he => hn (he ▸ mem_insert_self)
      simp only [Index.values, AssocMap.keys_erase, filter_filter]
      congr 1
      refine filter_congr fun k _ => ?_
      by_cases hk : k.1 = n
      · have : k ≠ l := fun he => hne (he ▸ hk)
        simp [hk, this]
      · simp [hk]

theorem renew_spec (o : RangeOrder String) (h : Recorded p) : (p.renew o n).m = p.m ∧
    Recorded (p.renew o n) ∧ Exact (p.renew o n) n ∧
    ∀ n', Exact p n' → Exact (p.renew o n) n' := by
  -- only the values of `n` are listed anew
  obtain ⟨x, hx, hnone, hperm⟩ : ∃ x, p.renew o n = { p with lvs := update p.lvs n x } ∧
      (x = none ↔ p.values n = []) ∧ (x.getD []).Perm (p.values n) := by
    unfold Index.renew
    split_ifs with hv
    · rw [length_eq_zero_iff] at hv
      exact ⟨none, rfl, by simp [hv], by simp [hv]⟩
    · rw [length_eq_zero_iff] at hv
      exact ⟨_, rfl, by simp [hv], o.perm _⟩
  rw [hx]
  have hself : Exact { p with lvs := update p.lvs n x } n := by
    simp only [Exact, update_self]
    exact ⟨hnone, hperm⟩
  refine ⟨rfl, fun n' v hv => ?_, hself, fun n' he => ?_⟩ <;> by_cases hn : n' = n
  · subst hn
    exact hself.2.mem_iff.2 (mem_values.2 hv)
  · simp only [update_of_ne hn]
    exact h n' v hv
  · exact hn ▸ hself
  · simp only [Exact, update_of_ne hn]
    exact he

end

/-! ### What holds at every release of the lock -/

/-- The deletion has still to take the reference off the list. -/
def Deletion.Waits (id : ℕ) (k : String × String) : Deletion → Prop
  | .labels deleted todo _ => id ∈ deleted ∧ (k ∈ todo ∨ k = allPostingsKey)
  | .names _ => False

/-- The names that the deletion has still to renew. -/
def Deletion.notes : Deletion → List String
  | .labels _ _ noted => noted
  | .names todo => todo

/-- The references that the deletion takes off lists. -/
def Deletion.deleted : Deletion → List ℕ
  | .labels deleted _ _ => deleted
  | .names _ => []

/-- A call in progress has the property. -/
def Someone (running : ℕ → Option Deletion) (P : Deletion → Prop) : Prop :=
  ∃ t, ∃ d ∈ running t, P d

/-- What has still to be done is up to a call in progress. -/
structure Inv (s : System) : Prop where
  ascends : ∀ k, (s.index.list k).Pairwise (· < ·)
  holds : ∀ a ∈ s.added, a.1 ∉ s.dropped → ∀ k ∈ a.2.keys, a.1 ∈ s.index.list k
  sound : ∀ k, ∀ id ∈ s.index.list k, ∃ a ∈ s.added, a.1 = id ∧ k ∈ a.2.keys
  waits : ∀ k, ∀ id ∈ s.index.list k, id ∈ s.dropped → Someone s.running (Deletion.Waits id k)
  recorded : Recorded s.index
  exact_or : ∀ n, Exact s.index n ∨ Someone s.running (n ∈ Deletion.notes ·)
  started : ∀ t, ∀ d ∈ s.running t, d.deleted ⊆ s.dropped

variable {s : System} {t : ℕ} {p p' : Index} {d : Deletion} {d' : Option Deletion}

/-- The system with another index, and another rest of the call `t`. -/
def System.at (s : System) (t : ℕ) (p : Index) (d : Option Deletion) : System :=
  { s with index := p, running := update s.running t d }

theorem Someone.update {P : Deletion → Prop} {Q : Prop}
    (h : Someone (s.at t p (some d)).running P) (hd : P d → Q ∨ ∃ e ∈ d', P e) :
    Q ∨ Someone (s.at t p' d').running P := by
  obtain ⟨t', e, he, hP⟩ := h
  simp only [System.at] at he ⊢
  by_cases ht : t' = t
  · subst ht
    rw [update_self, Option.mem_some_iff] at he
    refine (hd (he ▸ hP)).imp_right fun ⟨e, he, hP⟩ => ⟨t', e, ?_, hP⟩
    rwa [update_self]
  · rw [update_of_ne ht] at he
    refine .inr ⟨t', e, ?_, hP⟩
    rwa [update_of_ne ht]

/-- **A move of a deletion** takes only its own references off lists, and keeps in mind what it
leaves undone. -/
theorem Inv.move (h : Inv (s.at t p (some d))) (hsub : ∀ k, (p'.list k).Sublist (p.list k))
    (hkeep : ∀ k, ∀ id ∈ p.list k, id ∉ d.deleted → id ∈ p'.list k)
    (hwaits : ∀ k, ∀ id ∈ p'.list k, d.Waits id k → ∃ e ∈ d', e.Waits id k) (hrec : Recorded p')
    (hexact : ∀ n, Exact p n ∨ n ∈ d.notes → Exact p' n ∨ ∃ e ∈ d', n ∈ e.notes)
    (hdel : ∀ e ∈ d', e.deleted ⊆ d.deleted) : Inv (s.at t p' d') where
  ascends k := (h.ascends k).sublist (hsub k)
  holds a ha hd k hk := hkeep k _ (h.holds a ha hd k hk) fun hdel =>
    hd (h.started t d (by simp [System.at]) hdel)
  sound k id hid := h.sound k id ((hsub k).subset hid)
  waits k id hid hdrop := (Someone.update (Q := False) (h.waits k id ((hsub k).subset hid) hdrop)
    fun hw => .inr (hwaits k id hid hw)).resolve_left not_false
  recorded := hrec
  exact_or n := by
    rcases h.exact_or n with he | he
    · refine (hexact n (.inl he)).imp_right fun ⟨e, he, hn⟩ => ⟨t, e, ?_, hn⟩
      simpa [System.at] using he
    · exact Someone.update he fun hn => hexact n (.inr hn)
  started := by
    obtain ⟨hs, hrest⟩ :=
      (forall_update_iff s.running fun _ d => ∀ e ∈ d, e.deleted ⊆ _).1 h.started
    exact (forall_update_iff s.running fun _ d => ∀ e ∈ d, e.deleted ⊆ _).2
      ⟨fun e he => Subset.trans (hdel e he) (hs d rfl), hrest⟩

variable {deleted : List ℕ} {todo : List (String × String)} {noted names : List String}

theorem Inv.process {l : String × String}
    (h : Inv (s.at t p (some (.labels deleted todo noted))))
    (hd : ∀ id k, k ≠ l → Deletion.Waits id k (.labels deleted todo noted) →
      ∃ e ∈ d', e.Waits id k)
    (hn : ∀ n ∈ (Index.process deleted (p, noted) l).2, ∃ e ∈ d', n ∈ e.notes)
    (hdel : ∀ e ∈ d', e.deleted ⊆ deleted) :
    Inv (s.at t (Index.process deleted (p, noted) l).1 d') := by
  obtain ⟨hlvs, hkeys, hnoted, hvalues⟩ := process_spec deleted p noted l
  refine h.move (fun k => ?_) (fun k id hid hnot => ?_) (fun k id hid hw => ?_) ?_ (fun n he => ?_)
    hdel
  · rw [list_process]
    split_ifs with hk
    · exact hk ▸ filter_sublist
    · exact Sublist.refl _
  · rw [list_process]
    split_ifs with hk
    · exact mem_filter.2 ⟨hk ▸ hid, decide_eq_true hnot⟩
    · exact hid
  · refine hd id k (fun hk => ?_) hw
    rw [list_process, if_pos hk] at hid
    exact of_decide_eq_true (mem_filter.1 hid).2 hw.1
  · intro n v hv
    rw [hlvs]
    exact h.recorded n v (hkeys _ hv)
  · by_cases hmem : n ∈ (Index.process deleted (p, noted) l).2
    · exact .inr (hn n hmem)
    · rw [Exact, hlvs, hvalues n hmem]
      exact .inl (he.resolve_right fun hn => hmem (hnoted n hn))

theorem Inv.processAll : ∀ {ls : List (String × String)} {p : Index} {noted : List String},
    Inv (s.at t p (some (.labels deleted (ls ++ todo) noted))) →
    Inv (s.at t (ls.foldl (Index.process deleted) (p, noted)).1
      (some (.labels deleted todo (ls.foldl (Index.process deleted) (p, noted)).2)))
  | [], _, _, h => h
  | l :: ls, p, noted, h => by
    have h' : Inv (s.at t (Index.process deleted (p, noted) l).1
        (some (.labels deleted (ls ++ todo) (Index.process deleted (p, noted) l).2))) := by
      refine h.process (fun id k hk hw => ?_) (fun n hn => ⟨_, rfl, hn⟩) ?_
      · exact ⟨_, rfl, hw.1, hw.2.imp_left fun hm => (mem_cons.1 hm).resolve_left hk⟩
      · rintro _ ⟨⟩
        exact Subset.refl _
    exact h'.processAll

theorem Inv.renewAll (o : Orders) : ∀ {ns : List String} {p : Index},
    Inv (s.at t p (some (.names (ns ++ names)))) →
    Inv (s.at t (ns.foldl (fun p name => p.renew (o.values name) name) p) (some (.names names)))
  | [], _, h => h
  | n :: ns, p, h => by
    obtain ⟨hm, hrec, hself, hexact⟩ := renew_spec (p := p) (n := n) (o.values n) h.recorded
    have hlist : ∀ k, (p.renew (o.values n) n).list k = p.list k := fun k => by
      rw [Index.list, hm, Index.list]
    have h' : Inv (s.at t (p.renew (o.values n) n) (some (.names (ns ++ names)))) := by
      refine h.move (fun k => by rw [hlist]) (fun k id hid _ => by rwa [hlist])
        (fun _ _ _ hw => hw.elim) hrec (fun n' he => ?_) ?_
      · rcases he with he | he
        · exact .inl (hexact n' he)
        · rcases mem_cons.1 he with rfl | he
          · exact .inl hself
          · exact .inr ⟨_, rfl, he⟩
      · rintro _ ⟨⟩
        exact Subset.refl _
    exact h'.renewAll o

theorem Inv.renewNames (h : Inv (s.at t p (some (.names names)))) (o : Orders) (k : ℕ) :
    Inv (s.at t (renewNames o k p names).1 (renewNames o k p names).2) := by
  unfold PostingsDelete.renewNames
  rw [← take_append_drop k names] at h
  have h' := h.renewAll o
  split_ifs with hk
  · rw [drop_of_length_le hk] at h'
    exact h'.move (fun _ => Sublist.refl _) (fun _ _ hid _ => hid) (fun _ _ _ hw => hw.elim)
      h'.recorded (fun n he => .inl (he.resolve_right not_mem_nil)) (fun _ he => nomatch he)
  · exact h'

/-- **One section of `Delete`** keeps the invariant. -/
theorem Inv.resume (h : Inv (s.at t p (some d))) (o : Orders) :
    Inv (s.at t (d.resume o p).1 (d.resume o p).2) := by
  cases d with
  | names todo => exact h.renewNames o 512
  | labels deleted todo noted =>
    unfold Deletion.resume
    rw [← take_append_drop 512 todo] at h
    have h' := h.processAll
    dsimp only
    split_ifs with hk
    · exact h'
    · refine Inv.renewNames (h'.process (l := allPostingsKey) (fun id k hk' hw => ?_)
        (fun n hn => ?_) fun e he => ?_) o 511
      · rw [drop_of_length_le (by omega)] at hw
        exact absurd (hw.2.resolve_left not_mem_nil) hk'
      · exact ⟨_, rfl, (o.names.perm _).mem_iff.2 hn⟩
      · cases he
        exact nil_subset _

/-! ### Runs -/

theorem mem_list_add {id x : ℕ} {lset : Labels} {k : String × String} :
    x ∈ (p.add id lset).list k ↔ x ∈ p.list k ∨ x = id ∧ k ∈ lset.keys := by
  rw [Index.add, list_add lset.nodup_keys]
  split_ifs with hk
  · simp [mem_repair, hk, or_comm]
  · simp [hk]

theorem Inv.add (h : Inv s) {id : ℕ} (hnew : id ∉ s.added.map Prod.fst) (hdrop : id ∉ s.dropped)
    (lset : Labels) : Inv (step s (.add id lset)) where
  ascends k := by
    simp only [step, Index.add, list_add lset.nodup_keys]
    split_ifs
    · refine pairwise_reverse.2 (pairwise_repair (pairwise_reverse.2 (h.ascends k)) ?_)
      intro hmem
      obtain ⟨a, ha, rfl, -⟩ := h.sound k id (mem_reverse.1 hmem)
      exact hnew (mem_map_of_mem ha)
    · exact h.ascends k
  holds a ha hd k hk := by
    refine mem_list_add.2 ((mem_cons.1 ha).symm.imp (fun ha => h.holds a ha hd k hk) ?_)
    rintro rfl
    exact ⟨rfl, hk⟩
  sound k x hx := by
    rcases mem_list_add.1 hx with hx | ⟨rfl, hk⟩
    · obtain ⟨a, ha, hak⟩ := h.sound k x hx
      exact ⟨a, mem_cons_of_mem _ ha, hak⟩
    · exact ⟨_, mem_cons_self, rfl, hk⟩
  waits k x hx hd := by
    rcases mem_list_add.1 hx with hx | ⟨rfl, -⟩
    · exact h.waits k x hx hd
    · exact absurd hd hdrop
  recorded := recorded_add h.recorded lset
  exact_or n := (h.exact_or n).imp_left fun he => exact_add he lset
  started := h.started

theorem Inv.start (h : Inv s) (ht : s.running t = none) {deleted : List ℕ}
    {affected : List (String × String)}
    (hcov : ∀ a ∈ s.added, a.1 ∈ deleted → a.2.labels ⊆ affected) :
    Inv ({ s with dropped := deleted ++ s.dropped }.at t s.index
      (some (.labels deleted affected []))) := by
  have hrest : ∀ t', ∀ d ∈ s.running t', t' ≠ t ∧
      d ∈ update s.running t (some (.labels deleted affected [])) t' := by
    intro t' d hd
    have hne : t' ≠ t := by
      rintro rfl
      rw [ht] at hd
      cases hd
    exact ⟨hne, by rwa [update_of_ne hne]⟩
  have hothers : ∀ {P}, Someone s.running P →
      Someone (update s.running t (some (.labels deleted affected []))) P :=
    fun ⟨t', d, hd, hP⟩ => ⟨t', d, (hrest t' d hd).2, hP⟩
  refine ⟨h.ascends, fun a ha hd k hk => ?_, h.sound, fun k id hid hdrop => ?_, h.recorded,
    fun n => (h.exact_or n).imp_right hothers,
    (forall_update_iff s.running fun _ d => ∀ e ∈ d, e.deleted ⊆ _).2 ⟨?_, fun t' _ d hd => ?_⟩⟩
  · exact h.holds a ha (fun hin => hd (mem_append_right _ hin)) k hk
  · by_cases hdel : id ∈ deleted
    · obtain ⟨a, ha, rfl, hk⟩ := h.sound k id hid
      refine ⟨t, _, Option.mem_def.2 (update_self ..), hdel, ?_⟩
      exact (mem_append.1 hk).imp (fun hk => hcov a ha hdel hk) mem_singleton.1
    · exact hothers (h.waits k id hid ((mem_append.1 hdrop).resolve_left hdel))
  · rintro _ ⟨⟩
    exact subset_append_left _ _
  · exact Subset.trans (h.started t' d hd) (subset_append_right _ _)

theorem Inv.step (h : Inv s) (op : Op) (hop : Allowed s op) : Inv (step s op) := by
  cases op with
  | add id lset => exact h.add hop.1 hop.2 lset
  | delete t deleted affected o => exact (h.start hop.1 hop.2).resume o
  | resume t o =>
    unfold PostingsDelete.step
    dsimp only
    split
    · exact h
    · rename_i d hd
      refine Inv.resume (s := s) ?_ o
      rw [System.at, ← hd, update_eq_self]
      exact h

theorem inv_init : Inv System.init where
  ascends _ := .nil
  holds _ ha := nomatch ha
  sound _ _ hid := nomatch hid
  waits _ _ hid := nomatch hid
  recorded _ _ hv := nomatch hv
  exact_or _ := .inl ⟨by simp [System.init, Index.values, AssocMap.keys, AssocMap.empty], .refl _⟩
  started _ _ hd := nomatch hd

/-- What a reader finds. Between calls of `Delete` the lists have the series added and not deleted,
and the value lists the values with lists. -/
structure Consistent (s : System) : Prop where
  ascends : ∀ k, (s.index.list k).Pairwise (· < ·)
  holds : ∀ a ∈ s.added, a.1 ∉ s.dropped → ∀ k ∈ a.2.keys, a.1 ∈ s.index.list k
  recorded : ∀ n, s.index.values n ⊆ (s.index.lvs n).getD []
  lists : (∀ t, s.running t = none) → ∀ k id, id ∈ s.index.list k ↔
    ∃ a ∈ s.added, a.1 = id ∧ k ∈ a.2.keys ∧ id ∉ s.dropped
  valueLists : (∀ t, s.running t = none) → ∀ n, (s.index.lvs n = none ↔ s.index.values n = []) ∧
    ((s.index.lvs n).getD []).Perm (s.index.values n) ∧ ((s.index.lvs n).getD []).Nodup

/-- **The postings are consistent** whenever the lock is free. -/
theorem memPostings_consistent (ops : List Op) (h : Along (total step) Allowed System.init ops) :
    Consistent (ops.foldl step System.init) := by
  have hstep : ∀ s op, Inv s → Allowed s op → Inv (step s op) := fun _ op hs hop => hs.step op hop
  have hinv := foldl_keeps_along hstep inv_init h
  generalize ops.foldl step System.init = s at hinv
  have hidle : ∀ {P}, (∀ t, s.running t = none) → ¬ Someone s.running P :=
    fun hnone ⟨t, d, hd, _⟩ => by rw [hnone t] at hd; cases hd
  refine ⟨hinv.ascends, hinv.holds, fun n v hv => hinv.recorded n v (mem_values.1 hv),
    fun hnone k id => ⟨fun hid => ?_, ?_⟩, fun hnone n => ?_⟩
  · obtain ⟨a, ha, rfl, hk⟩ := hinv.sound k id hid
    exact ⟨a, ha, rfl, hk, fun hd => hidle hnone (hinv.waits k a.1 hid hd)⟩
  · rintro ⟨a, ha, rfl, hk, hd⟩
    exact hinv.holds a ha hd k hk
  · obtain ⟨hn, hperm⟩ := (hinv.exact_or n).resolve_right (hidle hnone)
    exact ⟨hn, hperm, hperm.nodup_iff.2 nodup_values⟩

/-- `Delete` gives up the lock after 512 labels. -/
theorem isSome_running_delete (s : System) (t : ℕ) (deleted : List ℕ)
    {affected : List (String × String)} (h : 512 ≤ affected.length) (o : Orders) :
    ((step s (.delete t deleted affected o)).running t).isSome := by
  simp [step, System.proceed, Deletion.resume, h]

/-- Two series with one name. The first is deleted together with labels that no series has, and a
third one is added when `Delete` has given up the lock. -/
def threeSeries : List Op :=
  [.add 1 ⟨[("a", "x")], by simp, by simp [allPostingsKey]⟩,
    .add 2 ⟨[("a", "y")], by simp, by simp [allPostingsKey]⟩,
    .delete 0 [1] (("a", "x") :: (range 511).map fun i => ("b", String.ofList (replicate i 'b')))
      ⟨default, fun _ => default⟩,
    .add 3 ⟨[("a", "z")], by simp, by simp [allPostingsKey]⟩,
    .resume 0 ⟨default, fun _ => default⟩]

theorem memPostings_consistent_threeSeries :
    (((threeSeries.take 3).foldl step System.init).running 0).isSome ∧
      Consistent (threeSeries.foldl step System.init) :=
  ⟨isSome_running_delete _ 0 [1] (by simp) _,
    memPostings_consistent threeSeries (along_of_check (by decide +kernel))⟩

end TopcDB.Tsdb.PostingsDelete
