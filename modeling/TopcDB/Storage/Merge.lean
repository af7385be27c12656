import TopcDB.Chunkenc.Chunk

/-! # Chained sample iterators (`chainSampleIterator`)

The samples of several iterators over one series are visited in the order of their timestamps. The
iterators that are positioned at a sample wait in a heap. The heap and the current iterator are
references to the iterators, which the model keeps as indices into their list. -/

namespace TopcDB.Storage.Merge

open Function List Lib.Heap Go.Basic Chunkenc CLMeta Chunk

variable {σ H FH : Type}

/-- The heap is nil before the first call of `Next`. -/
structure ChainSampleIterator (σ : Type) where
  iterators : List σ
  h : Option (List ℕ)
  curr : Option ℕ
  lastT : I64
  consecutive : Bool

def minInt64 : I64 := BitVec.ofNat 64 (2 ^ 63)

theorem toInt_minInt64 : minInt64.toInt = -2 ^ 63 := by decide

theorem minInt64_le (t : I64) : minInt64.toInt ≤ t.toInt := BitVec.le_toInt t

def chainSampleIteratorFromIterators (iterators : List σ) : ChainSampleIterator σ :=
  ⟨iterators, none, none, minInt64, false⟩

variable (I : Iterator σ H FH)

/-- `samplesIteratorHeap.Less`. -/
def less (iterators : List σ) (i j : ℕ) : Bool :=
  match iterators[i]?, iterators[j]? with
  | some x, some y => (I.atT x).slt (I.atT y)
  | _, _ => false

/-- The first call of `Next` advances all iterators but the first; an error ends the loop with
false. -/
def startLoop : List ℕ → List σ → List ℕ → Except Fault (Bool × List σ × List ℕ)
  | [], iterators, h => .ok (true, iterators, h)
  | i :: is, iterators, h =>
    match iterators[i]? with
    | none => .error .panic
    | some s =>
      match I.next s with
      | .error fault => .error fault
      | .ok (typ, s) =>
        let iterators := iterators.set i s
        if typ ≠ .none then startLoop is iterators (push (less I iterators) h i)
        else if (I.err s).isSome then .ok (false, iterators, h)
        else startLoop is iterators h

/-- The variables of the loop of `Next`; the flag `consecutive` is the one of the last sample. -/
structure Position (σ : Type) where
  iterators : List σ
  h : List ℕ
  curr : ℕ
  lastT : I64
  consecutive : Bool
  iteratorChanged : Bool

/-- How a turn of the loop ends. -/
inductive Turn (σ : Type)
  | done (typ : ValueType) (c : ChainSampleIterator σ)
  | again (p : Position σ)

/-- The end of a turn: the iterator on top of the heap is taken. -/
def takeTop (p : Position σ) : Except Fault (Turn σ) :=
  match pop (less I p.iterators) p.h with
  | none => .error .panic
  | some (i, h) =>
    match p.iterators[i]? with
    | none => .error .panic
    | some s =>
      let currT := I.atT s
      match I.seek s currT with
      | .error fault => .error fault
      | .ok (typ, s) =>
        let iterators := p.iterators.set i s
        if currT ≠ p.lastT then .ok (.done typ ⟨iterators, some h, some i, currT, false⟩)
        else .ok (.again ⟨iterators, h, i, p.lastT, p.consecutive, true⟩)

/-- A turn of the loop of `Next`. -/
def turn (p : Position σ) : Except Fault (Turn σ) :=
  match p.iterators[p.curr]? with
  | none => .error .panic
  | some s =>
    match I.next s with
    | .error fault => .error fault
    | .ok (typ, s) =>
      let p := { p with iterators := p.iterators.set p.curr s }
      if typ = .none then
        if (I.err s).isSome then
          .ok (.done .none ⟨p.iterators, some p.h, some p.curr, p.lastT, p.consecutive⟩)
        else if p.h = [] then .ok (.done .none ⟨p.iterators, some [], none, p.lastT, p.consecutive⟩)
        else takeTop I p
      else
        let currT := I.atT s
        let found : Turn σ :=
          .done typ ⟨p.iterators, some p.h, some p.curr, currT, !p.iteratorChanged⟩
        if currT = p.lastT then .ok (.again p)
        else
          match p.h with
          | [] => .ok found
          | top :: _ =>
            if less I p.iterators p.curr top then .ok found
            else takeTop I { p with h := push (less I p.iterators) p.h p.curr }

def nextLoop : ℕ → Position σ → Except Fault (ValueType × ChainSampleIterator σ)
  | 0, _ => .error .hang
  | k + 1, p =>
    match turn I p with
    | .error fault => .error fault
    | .ok (.done typ c) => .ok (typ, c)
    | .ok (.again p) => nextLoop k p

/-- `Next`, with at most `fuel` turns of its loop. -/
def ChainSampleIterator.next (fuel : ℕ) (c : ChainSampleIterator σ) :
    Except Fault (ValueType × ChainSampleIterator σ) :=
  match c.h with
  | none =>
    if c.iterators.isEmpty then .error .panic
    else
      match startLoop I (range' 1 (c.iterators.length - 1)) c.iterators [] with
      | .error fault => .error fault
      | .ok (false, iterators, h) =>
        .ok (.none, ⟨iterators, some h, some 0, c.lastT, c.consecutive⟩)
      | .ok (true, iterators, h) =>
        nextLoop I fuel ⟨iterators, h, 0, c.lastT, c.consecutive, true⟩
  | some h =>
    match c.curr with
    | none => .ok (.none, c)
    | some i => nextLoop I fuel ⟨c.iterators, h, i, c.lastT, c.consecutive, false⟩

namespace ChainSampleIterator

variable (c : ChainSampleIterator σ)

/-- `Err`: the errors of all iterators. -/
def err : List Err := c.iterators.filterMap I.err

/-- The current iterator, which all readers ask for. -/
def current : Except Fault σ :=
  match c.curr.bind (c.iterators[·]?) with
  | none => .error .panic
  | some s => .ok s

def atFloat : Except Fault (I64 × ℚ) := c.current >>= I.atFloat

/-- `AtQuantizer`, whose type assertion panics unless the current iterator is one of a CL chunk. -/
def atQuantizer : Except Fault (I64 × I64) := do
  match I.cl (← c.current) with
  | none => .error .panic
  | some it => .ok (it.t, it.quantizer)

def compressType : Except Fault CompressType := do
  match I.cl (← c.current) with
  | none => .ok .none
  | some it => .ok it.decoder.ctype

/-- `AtHistogram`: the hint about counter resets is dropped by `unknown` after a change of the
iterator. -/
def atHistogram (unknown : H → H) : Except Fault (I64 × H) := do
  let (t, h) ← I.atHistogram (← c.current)
  return (t, if c.consecutive then h else unknown h)

def atFloatHistogram (unknown : FH → FH) : Except Fault (I64 × FH) := do
  let (t, fh) ← I.atFloatHistogram (← c.current)
  return (t, if c.consecutive then fh else unknown fh)

end ChainSampleIterator

/-- The states of a chained iterator at its samples, in a loop up to the first `ValNone`, and the
state at the end. -/
def visits (fuel : ℕ) : ℕ → ChainSampleIterator σ →
    Except Fault (List (ValueType × ChainSampleIterator σ) × ChainSampleIterator σ)
  | 0, _ => .error .hang
  | k + 1, c =>
    match c.next I fuel with
    | .error fault => .error fault
    | .ok (.none, c) => .ok ([], c)
    | .ok (typ, c) => (visits fuel k c).map fun p => ((typ, c) :: p.1, p.2)

/-! ### Iterators that end well -/

variable (I : Iterator σ H FH)

/-- The calls of `Next` give the types and states of `l`, and end without an error. At every sample
`Seek` to its own timestamp does nothing. -/
def Runs : σ → List (ValueType × σ) → Prop
  | s, [] => I.err s = none ∧ ∃ s', I.next s = .ok (.none, s') ∧ I.err s' = none
  | s, (typ, s') :: l => I.err s = none ∧ typ ≠ .none ∧ I.next s = .ok (typ, s') ∧
      I.seek s' (I.atT s') = .ok (typ, s') ∧ Runs s' l

theorem Runs.err {I : Iterator σ H FH} : ∀ {l : List (ValueType × σ)} {s : σ}, Runs I s l →
    I.err s = none
  | [], _, h => h.1
  | _ :: _, _, h => h.1

variable (Q : ValueType → σ → Prop)

/-- The iterators in `live` have the samples `rem` left, all in `Q`; those in `waiting` are at a
sample in `Q`. -/
structure Sound (its : List σ) (live waiting : List ℕ) (rem : ℕ → List (ValueType × σ)) : Prop where
  err : ∀ s ∈ its, I.err s = none
  nodup : live.Nodup
  runs : ∀ i ∈ live, ∃ s, its[i]? = some s ∧ Runs I s (rem i)
  waits : ∀ i ∈ waiting, ∃ s typ, its[i]? = some s ∧ typ ≠ .none ∧
    I.seek s (I.atT s) = .ok (typ, s) ∧ Q typ s
  mem : ∀ i, ∀ x ∈ rem i, Q x.1 x.2

variable (rem : ℕ → List (ValueType × σ))

/-- How many calls of `Next` the live iterators take. -/
def left (live : List ℕ) : ℕ :=
  (live.map fun i => (rem i).length + 1).sum

theorem left_cons (i : ℕ) (live : List ℕ) :
    left rem (i :: live) = (rem i).length + 1 + left rem live := by
  rw [left, map_cons, sum_cons]; rfl

theorem left_perm {live live' : List ℕ} (h : live.Perm live') :
    left rem live = left rem live' := (h.map _).sum_eq

variable {I : Iterator σ H FH} {Q : ValueType → σ → Prop} {its : List σ} {live waiting : List ℕ}
  {rem : ℕ → List (ValueType × σ)}

theorem Sound.perm (h : Sound I Q its live waiting rem) {live' waiting' : List ℕ}
    (hl : live'.Perm live) (hw : ∀ i ∈ waiting', i ∈ waiting) :
    Sound I Q its live' waiting' rem where
  err := h.err
  nodup := hl.nodup_iff.2 h.nodup
  runs i hi := h.runs i (hl.mem_iff.1 hi)
  waits i hi := h.waits i (hw i hi)
  mem := h.mem

variable {j : ℕ} {typ : ValueType}

theorem Sound.consume (h : Sound I Q its (j :: live) waiting rem) (hw : j ∉ waiting) {s' : σ}
    {l : List (ValueType × σ)} (hr : rem j = (typ, s') :: l) :
    ∃ s, its[j]? = some s ∧ I.next s = .ok (typ, s') ∧ typ ≠ .none ∧
      Sound I Q (its.set j s') (j :: live) waiting (update rem j l) ∧
      (its.set j s')[j]? = some s' ∧ I.seek s' (I.atT s') = .ok (typ, s') ∧ Q typ s' ∧
      left (update rem j l) (j :: live) < left rem (j :: live) := by
  obtain ⟨s, hs, hrun⟩ := h.runs j mem_cons_self
  rw [hr] at hrun
  obtain ⟨-, htyp, hnext, hseek, hrun'⟩ := hrun
  have hj : j ∉ live := (nodup_cons.1 h.nodup).1
  have hset : (its.set j s')[j]? = some s' :=
    List.getElem?_set_self (List.getElem?_eq_some_iff.1 hs).1
  refine ⟨s, hs, hnext, htyp, ⟨fun x hx => ?_, h.nodup, fun i hi => ?_, fun i hi => ?_,
    (forall_update_iff rem fun _ l => ∀ x ∈ l, Q x.1 x.2).2
      ⟨fun x hx => ?_, fun i _ => h.mem i⟩⟩, hset, hseek,
    h.mem j (typ, s') (by rw [hr]; exact mem_cons_self), ?_⟩
  · rcases mem_or_eq_of_mem_set hx with hx | rfl
    · exact h.err x hx
    · exact hrun'.err
  · rcases mem_cons.1 hi with rfl | hi
    · exact ⟨s', hset, by rwa [update_self]⟩
    · have hne := ne_of_mem_of_not_mem hi hj
      rw [getElem?_set_ne hne.symm, update_of_ne hne]
      exact h.runs i (mem_cons_of_mem _ hi)
  · rw [getElem?_set_ne (ne_of_mem_of_not_mem hi hw).symm]
    exact h.waits i hi
  · exact h.mem j x (by rw [hr]; exact mem_cons_of_mem _ hx)
  · have hsame : left (update rem j l) live = left rem live :=
      congrArg sum (map_congr_left fun i hi => by
        have hne := ne_of_mem_of_not_mem hi hj
        rw [update_of_ne hne])
    rw [left_cons, left_cons, hsame, update_self, hr, length_cons]
    omega

theorem Sound.ended (h : Sound I Q its (j :: live) waiting rem) (hw : j ∉ waiting)
    (hr : rem j = []) :
    ∃ s s', its[j]? = some s ∧ I.next s = .ok (.none, s') ∧ I.err s' = none ∧
      Sound I Q (its.set j s') live waiting rem ∧ left rem live < left rem (j :: live) := by
  obtain ⟨s, hs, hrun⟩ := h.runs j mem_cons_self
  rw [hr] at hrun
  obtain ⟨-, s', hnext, herr⟩ := hrun
  have hj := nodup_cons.1 h.nodup
  refine ⟨s, s', hs, hnext, herr, ⟨fun x hx => ?_, hj.2, fun i hi => ?_, fun i hi => ?_, h.mem⟩, ?_⟩
  · rcases mem_or_eq_of_mem_set hx with hx | rfl
    · exact h.err x hx
    · exact herr
  · rw [getElem?_set_ne (ne_of_mem_of_not_mem hi hj.1).symm]
    exact h.runs i (mem_cons_of_mem _ hi)
  · rw [getElem?_set_ne (ne_of_mem_of_not_mem hi hw).symm]
    exact h.waits i hi
  · rw [left_cons]; omega

theorem Sound.push (h : Sound I Q its (j :: live) waiting rem) {s : σ} (hs : its[j]? = some s)
    (ht : typ ≠ .none) (hseek : I.seek s (I.atT s) = .ok (typ, s)) (hq : Q typ s) :
    Sound I Q its (j :: live) (push (less I its) waiting j) rem where
  err := h.err
  nodup := h.nodup
  runs := h.runs
  waits i hi := by
    rcases mem_cons.1 ((push_perm (less I its) waiting j).mem_iff.1 hi) with rfl | hi
    · exact ⟨s, typ, hs, ht, hseek, hq⟩
    · exact h.waits i hi
  mem := h.mem

/-- The iterator on top of the heap is at a sample, where it stays. -/
theorem Sound.top (h : Sound I Q its waiting waiting rem) (hne : waiting ≠ []) :
    ∃ i h' s typ, pop (less I its) waiting = some (i, h') ∧ (i :: h').Perm waiting ∧
      its[i]? = some s ∧ its.set i s = its ∧ typ ≠ .none ∧ I.seek s (I.atT s) = .ok (typ, s) ∧
      Q typ s ∧ Sound I Q its (i :: h') h' rem := by
  obtain ⟨i, h', hpop⟩ := pop_ne_nil (less I its) hne
  have hperm := pop_perm _ hpop
  obtain ⟨s, typ, hs, ht, hseek, hq⟩ := h.waits i (hperm.mem_iff.1 mem_cons_self)
  have hset : its.set i s = its := by
    obtain ⟨hlt, rfl⟩ := List.getElem?_eq_some_iff.1 hs
    exact set_getElem_self hlt
  exact ⟨i, h', s, typ, hpop, hperm, hs, hset, ht, hseek, hq,
    h.perm hperm fun k hk => hperm.mem_iff.1 (mem_cons_of_mem _ hk)⟩

/-! ### One call of `Next` -/

/-- What is said of the loop of `Next` besides `Sound`: of the iterators, the live and the waiting
ones and the samples left; of an iterator that has come to a sample; of the sample that a turn
finds; and when no iterator is left. -/
structure Invariant (σ : Type) where
  live : List σ → List ℕ → List ℕ → (ℕ → List (ValueType × σ)) → Prop
  shown : List σ → ℕ → σ → List ℕ → List ℕ → (ℕ → List (ValueType × σ)) → Prop
  found : List σ → ℕ → σ → List ℕ → (ℕ → List (ValueType × σ)) → Prop
  none : Prop

/-- The loop of `Next` after the timestamp `t` keeps the invariant. -/
structure Keeps (I : Iterator σ H FH) (t : I64) (V : Invariant σ) : Prop where
  perm : ∀ {its live live' h rem}, live'.Perm live → V.live its live h rem → V.live its live' h rem
  consume : ∀ {its j s x live h rem l}, V.live its (j :: live) h rem → j ∉ h → j ∉ live →
    its[j]? = some s → I.next s = .ok x → x.1 ≠ .none → rem j = x :: l →
    V.shown (its.set j x.2) j x.2 live h (update rem j l)
  ended : ∀ {its j s s' live h rem}, V.live its (j :: live) h rem → j ∉ h → j ∉ live →
    its[j]? = some s → I.next s = .ok (.none, s') → rem j = [] → V.live (its.set j s') live h rem
  skip : ∀ {its j s live h rem}, V.shown its j s live h rem → I.atT s = t →
    V.live its (j :: live) h rem
  push : ∀ {its j s live h rem}, V.shown its j s live h rem →
    V.live its (j :: live) (push (less I its) h j) rem
  found : ∀ {its j s h rem}, V.shown its j s h h rem → I.atT s ≠ t →
    (∀ top ∈ h.head?, less I its j top) → V.found its j s h rem
  pop : ∀ {its i s h h' rem}, V.live its h h rem → pop (less I its) h = some (i, h') →
    its[i]? = some s → V.shown its i s h' h' rem ∧ (I.atT s ≠ t → V.found its i s h' rem)
  none : ∀ {its rem}, V.live its [] [] rem → V.none

/-- A chained iterator at a sample of type `typ`; it takes less than `m` calls more. -/
def StandsAt (I : Iterator σ H FH) (Q : ValueType → σ → Prop) (V : Invariant σ) (m : ℕ)
    (typ : ValueType) (c : ChainSampleIterator σ) : Prop :=
  ∃ h i rem s, c.h = some h ∧ c.curr = some i ∧ c.iterators[i]? = some s ∧ c.lastT = I.atT s ∧
    Sound I Q c.iterators (i :: h) h rem ∧ left rem (i :: h) < m ∧ Q typ s ∧
    V.found c.iterators i s h rem

/-- How a call of `Next` ends when no iterator fails. -/
def Ends (I : Iterator σ H FH) (Q : ValueType → σ → Prop) (V : Invariant σ) (m : ℕ)
    (typ : ValueType) (c : ChainSampleIterator σ) : Prop :=
  typ = .none ∧ (∀ s ∈ c.iterators, I.err s = none) ∧ V.none ∨ typ ≠ .none ∧ StandsAt I Q V m typ c

/-- How a turn of the loop ends when no iterator fails. -/
def Follows (I : Iterator σ H FH) (Q : ValueType → σ → Prop) (t : I64) (V : Invariant σ) (m : ℕ) :
    Turn σ → Prop
  | .done typ c => Ends I Q V m typ c
  | .again p => p.lastT = t ∧ ∃ rem, Sound I Q p.iterators (p.curr :: p.h) p.h rem ∧
      V.live p.iterators (p.curr :: p.h) p.h rem ∧ left rem (p.curr :: p.h) < m

variable {t : I64} {V : Invariant σ} {m fuel k : ℕ}

theorem Ends.mono {c : ChainSampleIterator σ} (h : Ends I Q V m typ c) {m' : ℕ} (hm : m ≤ m') :
    Ends I Q V m' typ c :=
  h.imp_right fun ⟨ht, h0, i, rem, s, e1, e2, e3, e4, e5, e6, e7⟩ =>
    ⟨ht, h0, i, rem, s, e1, e2, e3, e4, e5, e6.trans_le hm, e7⟩

section loop

variable {p : Position σ} (K : Keeps I t V)

include K

theorem takeTop_spec (h : Sound I Q p.iterators p.h p.h rem) (ha : V.live p.iterators p.h p.h rem)
    (hlast : p.lastT = t) (hne : p.h ≠ []) (hm : left rem p.h < m) :
    ∃ r, takeTop I p = .ok r ∧ Follows I Q t V m r := by
  obtain ⟨i, h', s, typ, hpop, hperm, hs, hset, ht, hseek, hq, hs'⟩ := h.top hne
  obtain ⟨hb, hf⟩ := K.pop ha hpop hs
  rw [← left_perm rem hperm] at hm
  simp only [takeTop, hpop, hs, hseek, hset, hlast]
  split_ifs with hnew
  · exact ⟨_, rfl, .inr ⟨ht, h', i, rem, s, rfl, rfl, hs, rfl, hs', hm, hq, hf hnew⟩⟩
  · exact ⟨_, rfl, rfl, rem, hs', K.skip hb (not_not.1 hnew), hm⟩

theorem turn_spec (h : Sound I Q p.iterators (p.curr :: p.h) p.h rem)
    (ha : V.live p.iterators (p.curr :: p.h) p.h rem) (hlast : p.lastT = t) :
    ∃ r, turn I p = .ok r ∧ Follows I Q t V (left rem (p.curr :: p.h)) r := by
  rcases p with ⟨its, h0, curr, lastT, consecutive, changed⟩
  simp only at h ha hlast ⊢
  subst hlast
  have hw : curr ∉ h0 := (nodup_cons.1 h.nodup).1
  rcases hr : rem curr with _ | ⟨⟨typ, s'⟩, l⟩
  · obtain ⟨s, s', hs, hnext, herr, hsound, hleft⟩ := h.ended hw hr
    have ha' := K.ended ha hw hw hs hnext hr
    simp only [turn, hs, hnext, if_true, herr, Option.isSome_none, reduceCtorEq, if_false]
    split_ifs with hnil
    · subst hnil
      exact ⟨_, rfl, .inl ⟨rfl, hsound.err, K.none ha'⟩⟩
    · exact takeTop_spec (p := ⟨_, h0, _, _, _, _⟩) K hsound ha' rfl hnil hleft
  · obtain ⟨s, hs, hnext, ht, hsound, hset, hseek, hq, hleft⟩ := h.consume hw hr
    have hb := K.consume ha hw hw hs hnext ht hr
    have hfound : I.atT s' ≠ lastT → (∀ top ∈ h0.head?, less I (its.set curr s') curr top) → ∀ b,
        Ends I Q V (left rem (curr :: h0)) typ
          ⟨its.set curr s', some h0, some curr, I.atT s', b⟩ := fun hnew htop _ =>
      .inr ⟨ht, h0, curr, _, s', rfl, rfl, hset, rfl, hsound, hleft, hq, K.found hb hnew htop⟩
    simp only [turn, hs, hnext, if_neg ht]
    split_ifs with hsame
    · exact ⟨_, rfl, rfl, _, hsound, K.skip hb hsame, hleft⟩
    · rcases h0 with _ | ⟨top, tl⟩
      · exact ⟨_, rfl, hfound hsame (by simp) _⟩
      · simp only
        split_ifs with hless
        · exact ⟨_, rfl, hfound hsame (by simpa using hless) _⟩
        · -- the current iterator waits as well
          have hperm := push_perm (less I (its.set curr s')) (top :: tl) curr
          exact takeTop_spec (p := ⟨_, push _ (top :: tl) curr, _, _, _, _⟩) K
            ((hsound.push hset ht hseek hq).perm hperm fun _ hi => hi)
            (K.perm hperm (K.push hb)) rfl
            (push_ne_nil _ _ _) (by rwa [left_perm _ hperm])

theorem nextLoop_spec : ∀ {k : ℕ} {p : Position σ} {rem : ℕ → List (ValueType × σ)},
    Sound I Q p.iterators (p.curr :: p.h) p.h rem → V.live p.iterators (p.curr :: p.h) p.h rem →
    p.lastT = t → left rem (p.curr :: p.h) ≤ k →
    ∃ typ c, nextLoop I k p = .ok (typ, c) ∧ Ends I Q V (left rem (p.curr :: p.h)) typ c
  | 0, p, rem, _, _, _, hk => by
    rw [left_cons] at hk; omega
  | k + 1, p, rem, h, ha, hlast, hk => by
    obtain ⟨r, hturn, hr⟩ := turn_spec K h ha hlast
    simp only [nextLoop, hturn]
    cases r with
    | done typ c => exact ⟨typ, c, rfl, hr⟩
    | again p' =>
      obtain ⟨hlast', rem', hs', ha', hlt⟩ := hr
      obtain ⟨typ, c, hn, hends⟩ := nextLoop_spec hs' ha' hlast' (by omega : _ ≤ k)
      exact ⟨typ, c, hn, hends.mono hlt.le⟩

/-- The first call positions all iterators but the first one. -/
theorem startLoop_spec : ∀ {is : List ℕ} {its : List σ} {h : List ℕ}
    {rem : ℕ → List (ValueType × σ)}, Sound I Q its (0 :: (is ++ h)) h rem →
    V.live its (0 :: (is ++ h)) h rem →
    ∃ its' h' rem', startLoop I is its h = .ok (true, its', h') ∧
      Sound I Q its' (0 :: h') h' rem' ∧ V.live its' (0 :: h') h' rem' ∧
      left rem' (0 :: h') ≤ left rem (0 :: (is ++ h))
  | [], its, h, rem, hs, ha => ⟨its, h, rem, rfl, hs, ha, le_rfl⟩
  | i :: is, its, h, rem, hs, ha => by
    have hperm : (i :: 0 :: (is ++ h)).Perm (0 :: (i :: is ++ h)) := Perm.swap _ _ _
    have hs' := hs.perm hperm fun _ hk => hk
    have hlive := (nodup_cons.1 hs'.nodup).1
    have hi : i ∉ h := fun hi => hlive (mem_cons_of_mem _ (mem_append_right _ hi))
    rw [← left_perm rem hperm]
    rcases hr : rem i with _ | ⟨⟨typ, s'⟩, l⟩
    · obtain ⟨s, s', hget, hnext, herr, hsound, hleft⟩ := hs'.ended hi hr
      simp only [startLoop, hget, hnext, ne_eq, not_true_eq_false, if_false, herr,
        Option.isSome_none, Bool.false_eq_true]
      obtain ⟨its', h', rem', h1, h2, h3, h4⟩ := startLoop_spec hsound
        (K.ended (K.perm hperm ha) hi hlive hget hnext hr)
      exact ⟨its', h', rem', h1, h2, h3, by omega⟩
    · obtain ⟨s, hget, hnext, ht, hsound, hset, hseek, hq, hleft⟩ := hs'.consume hi hr
      have ha' := K.push (K.consume (K.perm hperm ha) hi hlive hget hnext ht hr)
      simp only [startLoop, hget, hnext, if_pos ht]
      set h1 := push (less I (its.set i s')) h i
      have hlive' : (0 :: (is ++ h1)).Perm (i :: 0 :: (is ++ h)) :=
        ((((push_perm _ h i).append_left is).trans perm_middle).cons 0).trans (Perm.swap _ _ _)
      obtain ⟨its', h', rem', e1, e2, e3, e4⟩ := startLoop_spec
        ((hsound.push hset ht hseek hq).perm hlive' fun _ hk => hk) (K.perm hlive' ha')
      rw [left_perm _ hlive'] at e4
      exact ⟨its', h', rem', e1, e2, e3, by omega⟩

end loop

/-- Two invariants together. -/
def Invariant.and (V W : Invariant σ) : Invariant σ where
  live its live h rem := V.live its live h rem ∧ W.live its live h rem
  shown its j s live h rem := V.shown its j s live h rem ∧ W.shown its j s live h rem
  found its i s h rem := V.found its i s h rem ∧ W.found its i s h rem
  none := V.none ∧ W.none

theorem Keeps.and {W : Invariant σ} (hV : Keeps I t V) (hW : Keeps I t W) :
    Keeps I t (V.and W) where
  perm hp h := ⟨hV.perm hp h.1, hW.perm hp h.2⟩
  consume h hw hj hs hn hx hr :=
    ⟨hV.consume h.1 hw hj hs hn hx hr, hW.consume h.2 hw hj hs hn hx hr⟩
  ended h hw hj hs hn hr := ⟨hV.ended h.1 hw hj hs hn hr, hW.ended h.2 hw hj hs hn hr⟩
  skip h ht := ⟨hV.skip h.1 ht, hW.skip h.2 ht⟩
  push h := ⟨hV.push h.1, hW.push h.2⟩
  found h hn ht := ⟨hV.found h.1 hn ht, hW.found h.2 hn ht⟩
  pop h hp hs :=
    let ⟨hb, hf⟩ := hV.pop h.1 hp hs
    let ⟨hb', hf'⟩ := hW.pop h.2 hp hs
    ⟨⟨hb, hb'⟩, fun hn => ⟨hf hn, hf' hn⟩⟩
  none h := ⟨hV.none h.1, hW.none h.2⟩

theorem keeps_true (I : Iterator σ H FH) (t : I64) : Keeps I t
    ⟨fun _ _ _ _ => True, fun _ _ _ _ _ _ => True, fun _ _ _ _ _ => True, True⟩ := by
  constructor <;> simp

/-! ### Whole runs -/

/-- The sample of a visit. -/
def SampleOf (v : ValueType × ChainSampleIterator σ) (x : ValueType × σ) : Prop :=
  v.1 = x.1 ∧ v.2.current = .ok x.2

/-- A run over the samples of a list: each one leads from the state before to a state after. -/
def Trace {ι : Type} (R : ι → σ → ι → Prop) (E : ι → Prop) : ι → List (ValueType × σ) → Prop
  | x, [] => E x
  | x, v :: vs => ∃ y, R x v.2 y ∧ Trace R E y vs

variable (ls : List (List (ValueType × σ)))

/-- How many calls of `Next` all iterators take together. -/
def totalCalls : ℕ := (ls.map fun l => l.length + 1).sum

theorem left_getD : left (fun i => ls.getD i []) (range ls.length) = totalCalls ls := by
  refine congrArg sum (ext_getElem (by simp) fun i h1 h2 => ?_)
  have hi : i < ls.length := by simpa using h2
  simp [getElem?_eq_getElem hi]

variable {ls : List (List (ValueType × σ))} (hr : Forall₂ (Runs I) its ls)
  (hq : ∀ l ∈ ls, ∀ x ∈ l, Q x.1 x.2) (hne : its ≠ [])

include hr hq hne

theorem sound_start :
    0 :: (range' 1 (its.length - 1) ++ []) = range ls.length ∧
      Sound I Q its (0 :: (range' 1 (its.length - 1) ++ [])) [] (fun i => ls.getD i []) := by
  have hlen := hr.length_eq
  have hpos := length_pos_iff.2 hne
  have hrange : range ls.length = 0 :: (range' 1 (its.length - 1) ++ []) := by
    rw [append_nil, ← hlen, range_eq_range', show its.length = its.length - 1 + 1 by omega,
      range'_succ]
    rfl
  have hget : ∀ i, (hi : i < its.length) → Runs I its[i] (ls.getD i []) := fun i hi => by
    rw [getD_eq_getElem _ _ (hlen ▸ hi)]
    exact hr.get hi (hlen ▸ hi)
  refine ⟨hrange.symm, ?_⟩
  rw [← hrange]
  refine ⟨fun s hs => ?_, nodup_range, fun i hi => ?_, by simp, fun i x hx => ?_⟩
  · obtain ⟨i, hi, rfl⟩ := getElem_of_mem hs
    exact (hget i hi).err
  · have hi : i < its.length := by rw [hlen]; exact mem_range.1 hi
    exact ⟨its[i], getElem?_eq_getElem hi, hget i hi⟩
  · by_cases hi : i < ls.length
    · rw [getD_eq_getElem _ _ hi] at hx
      exact hq _ (getElem_mem hi) x hx
    · rw [getD_eq_default _ _ (by omega)] at hx
      simp at hx

theorem next_chain (K : Keeps I minInt64 V)
    (ha : V.live its (range ls.length) [] fun i => ls.getD i []) (hf : totalCalls ls ≤ fuel) :
    ∃ typ c, (chainSampleIteratorFromIterators its).next I fuel = .ok (typ, c) ∧
      Ends I Q V (totalCalls ls) typ c := by
  obtain ⟨hrange, hsound⟩ := sound_start hr hq hne
  rw [← hrange] at ha
  obtain ⟨its', h', rem', hstart, hs', ha', hle⟩ := startLoop_spec K hsound ha
  rw [hrange, left_getD] at hle
  obtain ⟨typ, c, hn, hends⟩ := nextLoop_spec (k := fuel)
    (p := ⟨its', h', 0, minInt64, false, true⟩)
    K hs' ha' rfl (by simp only; omega)
  refine ⟨typ, c, ?_, hends.mono hle⟩
  simp only [ChainSampleIterator.next, chainSampleIteratorFromIterators, hstart, hn,
    List.isEmpty_iff, hne, if_false]

variable {ι : Type} {last : ι → I64} {W : ι → Invariant σ} (K : ∀ x, Keeps I (last x) (W x))
  {R : ι → σ → ι → Prop} (hF : ∀ {x its i s h rem}, (W x).found its i s h rem →
    ∃ y, R x s y ∧ last y = I.atT s ∧ (W y).live its (i :: h) h rem)

include K hF

omit hr hq hne in
theorem visits_of_ends : ∀ {k m : ℕ} {x : ι} {typ : ValueType} {c0 c : ChainSampleIterator σ},
    c0.next I fuel = .ok (typ, c) → Ends I Q (W x) m typ c → m ≤ fuel + 1 → m ≤ k →
    ∃ vs c' ss, visits I fuel (k + 1) c0 = .ok (vs, c') ∧ c'.err I = [] ∧
      Forall₂ SampleOf vs ss ∧ (∀ v ∈ ss, Q v.1 v.2) ∧ Trace R (fun x => (W x).none) x ss
  | k, m, x, _, c0, c, hn, .inl ⟨rfl, herr, he⟩, _, _ => by
    refine ⟨[], c, [], by simp only [visits, hn], ?_, .nil, by simp, he⟩
    rw [ChainSampleIterator.err, filterMap_eq_nil_iff]
    exact herr
  | 0, m, _, typ, c0, c, _, .inr ⟨_, _, _, _, _, _, _, _, _, _, hlt, _⟩, _, hk => by omega
  | k + 1, m, x, typ, c0, c, hn, .inr ⟨ht, h0, i, rem, s, hh, hc, hget, hlast, hs, hlt, hq, hf⟩, hm,
      hk => by
    obtain ⟨y, hR, hy, ha⟩ := hF hf
    obtain ⟨typ', c1, hl, hends⟩ := nextLoop_spec (k := fuel)
      (p := ⟨c.iterators, h0, i, c.lastT, c.consecutive, false⟩) (K y) hs ha (hlast.trans hy.symm)
      (by simp only; omega)
    have hn' : c.next I fuel = .ok (typ', c1) := by
      simp only [ChainSampleIterator.next, hh, hc, hl]
    obtain ⟨vs, c', ss, hv, herr, hall, hQ, htr⟩ := visits_of_ends (k := k) hn' hends
      (by simp only; omega) (by simp only; omega)
    refine ⟨(typ, c) :: vs, c', (typ, s) :: ss, ?_, herr, .cons ⟨rfl, ?_⟩ hall,
      forall_mem_cons.2 ⟨hq, hQ⟩, y, hR, htr⟩
    · rw [visits]
      simp only [hn]
      cases typ with
      | none => exact absurd rfl ht
      | _ => simp only [hv]; rfl
    · simp only [ChainSampleIterator.current, hc, Option.bind_some, hget]

/-- **A chained iterator over iterators that end well** ends well, and visits only their samples. -/
theorem visits_chain {x : ι} (hx : last x = minInt64)
    (ha : (W x).live its (range ls.length) [] fun i => ls.getD i []) (hf : totalCalls ls ≤ fuel)
    (hk : totalCalls ls ≤ k) :
    ∃ vs c ss, visits I fuel (k + 1) (chainSampleIteratorFromIterators its) = .ok (vs, c) ∧
      c.err I = [] ∧ Forall₂ SampleOf vs ss ∧ (∀ v ∈ ss, Q v.1 v.2) ∧
      Trace R (fun x => (W x).none) x ss := by
  obtain ⟨typ, c, hn, hends⟩ := next_chain hr hq hne (hx ▸ K x) ha hf
  exact visits_of_ends K hF hn hends (by omega) hk

end TopcDB.Storage.Merge
