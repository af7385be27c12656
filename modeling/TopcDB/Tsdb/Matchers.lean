import TopcDB.Tsdb.Postings

/-! # The series of some matchers (`PostingsForMatchers`)

A matcher either intersects, with the postings of the values that it accepts, or subtracts those of
the values that it does not. Which of the two depends on whether another matcher demands that the
label is set. The index keeps all series under the empty name; a matcher with this name is therefore
read differently in some cases, and the result is exact if and only if that makes no difference
(`postingsForMatchers_exact_iff`). -/

namespace TopcDB.Tsdb.Matchers

open List Lib.Assoc Lib.Cursors Postings

/-! ### Matchers -/

inductive MatchType
  | equal
  | notEqual
  | regexp
  | notRegexp
  deriving DecidableEq

structure Matcher where
  typ : MatchType
  name : String
  value : String
  deriving DecidableEq

/-- The regular expressions, by their text. The set of an expression has the strings that it
matches, unless it is empty. -/
structure Regexps where
  matchString : String → String → Bool
  setMatches : String → List String
  agree : ∀ {v}, setMatches v ≠ [] → ∀ s, matchString v s = true ↔ s ∈ setMatches v
  dotStar : ∀ s, matchString ".*" s = true
  dotPlus : ∀ s, matchString ".+" s = true ↔ s ≠ ""
  empty : ∀ s, matchString "" s = true ↔ s = ""

variable (R : Regexps)

def Matcher.accepts (m : Matcher) (s : String) : Bool :=
  match m.typ with
  | .equal => s = m.value
  | .notEqual => s ≠ m.value
  | .regexp => R.matchString m.value s
  | .notRegexp => !R.matchString m.value s

def Matcher.inverse (m : Matcher) : Matcher :=
  match m.typ with
  | .equal => { m with typ := .notEqual }
  | .notEqual => { m with typ := .equal }
  | .regexp => { m with typ := .notRegexp }
  | .notRegexp => { m with typ := .regexp }

def Matcher.setMatches (m : Matcher) : List String :=
  match m.typ with
  | .regexp | .notRegexp => R.setMatches m.value
  | _ => []

def Matcher.isNot (m : Matcher) : Bool := m.typ = .notEqual || m.typ = .notRegexp

/-! ### The function -/

variable (o : RangeOrder ((String × String) × List ℕ)) (ix : MemPostings)

def postingsForMatcher (m : Matcher) : Leaf :=
  if m.typ = .equal then ix.postings m.name [m.value]
  else if m.typ = .regexp ∧ (m.setMatches R).length > 0 then ix.postings m.name (m.setMatches R)
  else ix.postingsForLabelMatching m.name (m.accepts R)

def inversePostingsForMatcher (m : Matcher) : Leaf :=
  if m.typ = .notRegexp ∧ (m.setMatches R).length > 0 then ix.postings m.name (m.setMatches R)
  else if m.typ = .notEqual then ix.postings m.name [m.value]
  else if m.value = "" ∧ (m.typ = .regexp ∨ m.typ = .equal) then
    ix.postingsForAllLabelValues o m.name
  else ix.postingsForLabelMatching m.name fun s => !m.accepts R s

def labelMustBeSet (ms : List Matcher) (name : String) : Bool :=
  ms.any fun m => m.name = name && !m.accepts R ""

def isSubtractingMatcher (ms : List Matcher) (m : Matcher) : Bool :=
  if !labelMustBeSet R ms m.name then true else m.isNot && m.accepts R ""

/-- What the loop does with a matcher: nothing, return the empty postings, or add to `its` or to
`notIts`. -/
inductive Action
  | nothing
  | returnEmpty
  | its (it : Leaf)
  | notIts (it : Leaf)

/-- Adds to `its`, unless the postings are empty. -/
def Action.orEmpty (it : Leaf) : Action :=
  if isEmptyPostingsType it then .returnEmpty else .its it

/-- The error "unexpected all postings". -/
inductive MatchErr
  | unexpectedAllPostings
  deriving DecidableEq

/-- The branches of the loop. -/
def action (ms : List Matcher) (m : Matcher) : Except MatchErr Action :=
  if m.name = "" ∧ m.value = "" then .error .unexpectedAllPostings
  else if m.typ = .regexp ∧ m.value = ".*" then .ok .nothing
  else if m.typ = .notRegexp ∧ m.value = ".*" then .ok .returnEmpty
  else if m.typ = .regexp ∧ m.value = ".+" then
    .ok (.orEmpty (ix.postingsForAllLabelValues o m.name))
  else if m.typ = .notRegexp ∧ m.value = ".+" then
    .ok (.notIts (ix.postingsForAllLabelValues o m.name))
  else if labelMustBeSet R ms m.name then
    if m.isNot && m.accepts R "" then .ok (.notIts (postingsForMatcher R ix m.inverse))
    else if m.isNot && !m.accepts R "" then
      .ok (.orEmpty (inversePostingsForMatcher R o ix m.inverse))
    else .ok (.orEmpty (postingsForMatcher R ix m))
  else .ok (.notIts (inversePostingsForMatcher R o ix m))

/-- The loop over the sorted matchers; `none` when the empty postings are returned. -/
def loop (ms : List Matcher) : List Matcher → List Leaf → List Leaf →
    Except MatchErr (Option (List Leaf × List Leaf))
  | [], its, notIts => .ok (some (its, notIts))
  | m :: rest, its, notIts =>
    match action R o ix ms m with
    | .error e => .error e
    | .ok .nothing => loop ms rest its notIts
    | .ok .returnEmpty => .ok none
    | .ok (.its it) => loop ms rest (its ++ [it]) notIts
    | .ok (.notIts it) => loop ms rest its (notIts ++ [it])

def allPostings : Leaf := ix.postings allPostingsKey.1 [allPostingsKey.2]

/-- `PostingsForMatchers`. The order of `slices.SortStableFunc` with a comparison that is not an
order is some order of the matchers. -/
def postingsForMatchers (sort : RangeOrder Matcher) (ms : List Matcher) :
    Except MatchErr AnyPostings :=
  if ms.length = 1 ∧ ∀ m ∈ ms, m.name = "" ∧ m.value = "" then .ok ⟨0, .leaf (allPostings ix)⟩
  else
    let its := if (ms.any fun m => isSubtractingMatcher R ms m) &&
      !(ms.any fun m => !isSubtractingMatcher R ms m) then [allPostings ix] else []
    match loop R o ix ms (sort.visit ms) its [] with
    | .error e => .error e
    | .ok none => .ok ⟨0, .leaf .empty⟩
    | .ok (some (its, notIts)) => .ok (notIts.foldl without ⟨0, intersect its⟩)

/-! ### The series and their index -/

/-- Labels with different names and without empty values. -/
structure LabelSet where
  pairs : List (String × String)
  nodup : (pairs.map Prod.fst).Nodup
  nonempty : ∀ l ∈ pairs, l.2 ≠ ""

variable (lset : LabelSet)

/-- The value of a label, empty when it is missing. -/
def LabelSet.get (name : String) : String := (lset.pairs.lookup name).getD ""

theorem LabelSet.mem_iff {name v : String} :
    (name, v) ∈ lset.pairs ↔ lset.get name = v ∧ v ≠ "" := by
  have hl := (AssocMap.get?_eq_some_iff ⟨lset.pairs, lset.nodup⟩ name v).symm
  refine hl.trans ?_
  show lset.pairs.lookup name = some v ↔ (lset.pairs.lookup name).getD "" = v ∧ v ≠ ""
  rcases hv : lset.pairs.lookup name with _ | w
  · simp only [Option.getD_none, false_iff, not_and, reduceCtorEq]
    exact fun h hn => hn h.symm
  · simp only [Option.some.injEq, Option.getD_some]
    refine ⟨fun h => ⟨h, ?_⟩, fun h => h.1⟩
    rintro rfl
    exact lset.nonempty _ ((AssocMap.get?_eq_some_iff ⟨lset.pairs, lset.nodup⟩ name "").1
      (hv.trans (congrArg some h))) rfl

/-- The series by their references, which are different and not zero. -/
structure SeriesSet where
  series : List (ℕ × LabelSet)
  nodup : (series.map Prod.fst).Nodup
  pos : ∀ s ∈ series, 0 < s.1

def add (p : MemPostings) (id : ℕ) (lset : LabelSet) : MemPostings :=
  (lset.pairs.foldl (fun p l => p.addFor id l) p).addFor id allPostingsKey

def SeriesSet.index (S : SeriesSet) : MemPostings :=
  S.series.foldl (fun p s => add p s.1 s.2) ⟨.empty⟩

/-- The labels a series is indexed under. -/
def keys : List (String × String) := lset.pairs ++ [allPostingsKey]

def SeriesSet.Has (S : SeriesSet) (r : ℕ) (k : String × String) : Prop :=
  ∃ s ∈ S.series, s.1 = r ∧ k ∈ keys s.2

theorem add_eq_foldl (p : MemPostings) (id : ℕ) (lset : LabelSet) :
    add p id lset = (keys lset).foldl (fun p l => p.addFor id l) p := by
  rw [add, keys, foldl_append]
  rfl

theorem keys_nodup : (keys lset).Nodup := by
  refine List.Nodup.append (List.Nodup.of_map _ lset.nodup) (nodup_singleton _) ?_
  intro k hk hall
  rw [mem_singleton.1 hall] at hk
  exact lset.nonempty _ hk rfl

theorem indexes_foldl_addFor {id : ℕ} (hid : 0 < id) : ∀ (ks : List (String × String))
    {p : MemPostings} {Has : ℕ → String × String → Prop}, Indexes p Has → ks.Nodup →
    (∀ k ∈ ks, ¬ Has id k) →
    Indexes (ks.foldl (fun p l => p.addFor id l) p) fun r k => Has r k ∨ (r = id ∧ k ∈ ks)
  | [], p, Has, h, _, _ => by simpa using h
  | k :: ks, p, Has, h, hnd, hnew => by
    rw [nodup_cons] at hnd
    rw [forall_mem_cons] at hnew
    have ih := indexes_foldl_addFor hid ks (h.addFor hid hnew.1) hnd.2 fun k' hk' hor =>
      hor.elim (hnew.2 k' hk') fun he => hnd.1 (he.2 ▸ hk')
    refine ih.congr fun r k' => ?_
    rw [mem_cons]
    tauto

theorem indexes_foldl_add : ∀ (l : List (ℕ × LabelSet)) {p : MemPostings}
    {Has : ℕ → String × String → Prop}, Indexes p Has → (l.map Prod.fst).Nodup →
    (∀ s ∈ l, 0 < s.1) → (∀ s ∈ l, ∀ k, ¬ Has s.1 k) →
    Indexes (l.foldl (fun p s => add p s.1 s.2) p) fun r k =>
      Has r k ∨ ∃ s ∈ l, s.1 = r ∧ k ∈ keys s.2
  | [], p, Has, h, _, _, _ => by simpa using h
  | s :: l, p, Has, h, hnd, hpos, hnew => by
    rw [map_cons, nodup_cons] at hnd
    rw [forall_mem_cons] at hpos hnew
    have hadd := indexes_foldl_addFor hpos.1 (keys s.2) h (keys_nodup s.2) fun k _ => hnew.1 k
    rw [← add_eq_foldl] at hadd
    have ih := indexes_foldl_add l hadd hnd.2 hpos.2 fun s' hs' k hor => hor.elim (hnew.2 s' hs' k)
      fun he => hnd.1 (he.1 ▸ mem_map_of_mem hs')
    refine ih.congr fun r k => ?_
    simp only [exists_mem_cons_iff]
    tauto

/-- **The index has the labels of the series, and all series under the empty name and value.** -/
theorem SeriesSet.indexes (S : SeriesSet) : Indexes S.index S.Has := by
  refine (indexes_foldl_add S.series indexes_empty S.nodup S.pos fun _ _ _ h => h).congr
    fun r k => ?_
  exact ⟨fun h => h.resolve_left fun h => h, Or.inr⟩

/-- The value of the label, or the empty value under the empty name. -/
theorem mem_keys_iff {name v : String} : (name, v) ∈ keys lset ↔
    (lset.get name = v ∧ v ≠ "") ∨ (name = "" ∧ v = "") := by
  rw [keys, mem_append, lset.mem_iff, mem_singleton, allPostingsKey, Prod.mk.injEq]

/-! ### What the postings of a matcher are -/

section

variable {R} (S : SeriesSet) (o : RangeOrder ((String × String) × List ℕ)) (name : String)

variable (f : String → Bool)

/-- A value of the label is accepted, where the empty name has the empty value for every series. -/
def selects (x : String) : Prop :=
  (x ≠ "" ∧ f x = true) ∨ (name = "" ∧ f "" = true)

def SeriesSet.select : Set ℕ :=
  {r | ∃ s ∈ S.series, s.1 = r ∧ selects name f (s.2.get name)}

theorem select_eq : {r | ∃ v, f v = true ∧ S.Has r (name, v)} = S.select name f := by
  ext r
  constructor
  · rintro ⟨v, hf, s, hs, hr, hk⟩
    refine ⟨s, hs, hr, ?_⟩
    rcases (mem_keys_iff s.2).1 hk with ⟨rfl, hne⟩ | ⟨hn, rfl⟩
    · exact .inl ⟨hne, hf⟩
    · exact .inr ⟨hn, hf⟩
  · rintro ⟨s, hs, hr, ⟨hne, hf⟩ | ⟨hn, hf⟩⟩
    · exact ⟨_, hf, s, hs, hr, (mem_keys_iff s.2).2 (.inl ⟨rfl, hne⟩)⟩
    · exact ⟨"", hf, s, hs, hr, (mem_keys_iff s.2).2 (.inr ⟨hn, rfl⟩)⟩

variable {f : String → Bool}

variable {m : Matcher} {ms : List Matcher}

theorem matchString_iff (h : 0 < (m.setMatches R).length) (v : String) :
    R.matchString m.value v = true ↔ v ∈ m.setMatches R := by
  unfold Matcher.setMatches at h ⊢
  split at h
  · exact R.agree (ne_nil_of_length_pos h) v
  · exact R.agree (ne_nil_of_length_pos h) v
  · cases h

theorem exists_ref_iff {s : ℕ × LabelSet} (hs : s ∈ S.series) {P : ℕ × LabelSet → Prop} :
    (∃ s' ∈ S.series, s'.1 = s.1 ∧ P s') ↔ P s := by
  constructor
  · rintro ⟨s', hs', hr, hP⟩
    rwa [inj_on_of_nodup_map S.nodup hs' hs hr] at hP
  · exact fun h => ⟨s, hs, rfl, h⟩

theorem mem_select {s : ℕ × LabelSet} (hs : s ∈ S.series) (name : String) (f : String → Bool) :
    s.1 ∈ S.select name f ↔ selects name f (s.2.get name) := exists_ref_iff S hs

theorem accepts_inverse (m : Matcher) (x : String) : m.inverse.accepts R x = !m.accepts R x := by
  obtain ⟨typ, name, value⟩ := m
  cases typ <;> by_cases hx : x = value <;> simp [Matcher.inverse, Matcher.accepts, hx]

theorem inverse_name (m : Matcher) : m.inverse.name = m.name ∧ m.inverse.value = m.value := by
  obtain ⟨typ, name, value⟩ := m
  cases typ <;> exact ⟨rfl, rfl⟩

theorem accepts_dotPlus (h : m.typ = .regexp ∧ m.value = ".+") (x : String) :
    m.accepts R x = true ↔ x ≠ "" := by
  simp only [Matcher.accepts, h.1, h.2]
  exact R.dotPlus x

theorem accepts_not_dotPlus (h : m.typ = .notRegexp ∧ m.value = ".+") (x : String) :
    m.accepts R x = true ↔ x = "" := by
  simp only [Matcher.accepts, h.1, h.2, Bool.not_eq_true', ← Bool.not_eq_true]
  rw [R.dotPlus, not_not]

theorem not_selects_not (h : m.accepts R "" = true) (x : String) :
    ¬ selects m.name (fun s => !m.accepts R s) x ↔ m.accepts R x = true := by
  by_cases hx : x = "" <;> simp [selects, hx, h]

theorem selects_self (h : m.accepts R "" = false) (x : String) :
    selects m.name (m.accepts R) x ↔ m.accepts R x = true := by
  by_cases hx : x = "" <;> simp [selects, hx, h]

/-- A matcher that does not subtract comes with one that demands that its label is set. -/
theorem exists_not_accepts (h : isSubtractingMatcher R ms m = false) :
    ∃ m' ∈ ms, m'.accepts R "" = false := by
  rw [isSubtractingMatcher] at h
  split_ifs at h with hmust
  have hset : labelMustBeSet R ms m.name = true := by simpa using hmust
  obtain ⟨m', hm', h'⟩ := any_eq_true.1 hset
  exact ⟨m', hm', by simpa using (Bool.and_eq_true_iff.1 h').2⟩

section Select

variable [Winner listCursor]

theorem gives_postings_select {values : List String} (hf : ∀ v, f v = true ↔ v ∈ values) :
    Gives (S.index.postings name values) (S.select name f) := by
  have h := S.indexes.gives_postings name values
  simp only [← hf] at h
  exact select_eq S name f ▸ h

theorem gives_postingsForMatcher (m : Matcher) :
    Gives (postingsForMatcher R S.index m) (S.select m.name (m.accepts R)) := by
  rw [postingsForMatcher]
  split_ifs with heq hre
  · exact gives_postings_select S _ fun v => by simp [Matcher.accepts, heq]
  · exact gives_postings_select S _ fun v => by
      simp only [Matcher.accepts, hre.1, matchString_iff hre.2]
  · exact select_eq S m.name _ ▸ S.indexes.gives_matching m.name _

theorem gives_all_select (name : String) :
    Gives (S.index.postingsForAllLabelValues o name) (S.select name fun _ => true) := by
  have h := S.indexes.gives_all o name
  rw [← select_eq]
  simpa using h

theorem gives_inversePostingsForMatcher (hm : ¬ (m.name = "" ∧ m.value = "")) :
    Gives (inversePostingsForMatcher R o S.index m) (S.select m.name fun s => !m.accepts R s) := by
  rw [inversePostingsForMatcher]
  split_ifs with hre hne hem
  · exact gives_postings_select S _ fun v => by
      simp only [Matcher.accepts, hre.1, Bool.not_not, matchString_iff hre.2]
  · exact gives_postings_select S _ fun v => by simp [Matcher.accepts, hne]
  · -- every value but the empty one is refused, and the name is not empty
    have hacc : ∀ x, m.accepts R x = true ↔ x = "" := by
      intro x
      rcases hem.2 with ht | ht
      · simp only [Matcher.accepts, ht, hem.1]
        exact R.empty x
      · simp [Matcher.accepts, ht, hem.1]
    have hname : m.name ≠ "" := fun hn => hm ⟨hn, hem.1⟩
    convert gives_all_select S o m.name using 1
    simp [SeriesSet.select, selects, hname, ← Bool.not_eq_true, hacc]
  · exact select_eq S m.name _ ▸ S.indexes.gives_matching m.name _

/-! ### How the loop reads a matcher -/

/-- The references that an action keeps. -/
def Action.keeps : Action → Set ℕ
  | .nothing => Set.univ
  | .returnEmpty => ∅
  | .its it => leafLaw.ahead it
  | .notIts it => {x | x ∉ leafLaw.ahead it}

def Action.Ready : Action → Prop
  | .its it => leafLaw.Ready it
  | .notIts it => leafLaw.Ready it
  | _ => True

/-- What the code makes of a matcher, for a series with the value `x` of the label. -/
def reads (R : Regexps) (ms : List Matcher) (m : Matcher) (x : String) : Prop :=
  if m.typ = .regexp ∧ m.value = ".+" then x ≠ "" ∨ m.name = ""
  else if m.typ = .notRegexp ∧ m.value = ".+" then x = "" ∧ m.name ≠ ""
  else if labelMustBeSet R ms m.name ∧ ¬ m.isNot ∧ m.accepts R "" ∧
      ¬ (m.typ = .regexp ∧ m.value = ".*") then m.name = "" ∨ (x ≠ "" ∧ m.accepts R x)
  else m.accepts R x

variable {it : Leaf}

theorem keeps_orEmpty {A : Set ℕ} (h : Gives it A) :
    (Action.orEmpty it).Ready ∧ (Action.orEmpty it).keeps = A := by
  rw [Action.orEmpty]
  split_ifs with he
  · obtain rfl := isEmptyPostingsType_iff.1 he
    exact ⟨trivial, h.2⟩
  · exact h

/-- The action for a matcher keeps the series that it is read to accept. -/
structure Acts (R : Regexps) (S : SeriesSet) (ms : List Matcher) (m : Matcher) (a : Action) :
    Prop where
  ready : a.Ready
  keeps : ∀ s ∈ S.series, s.1 ∈ a.keeps ↔ reads R ms m (s.2.get m.name)
  its : ∀ {it}, a = .its it → ∀ x ∈ leafLaw.ahead it, ∃ s ∈ S.series, s.1 = x
  set : m.accepts R "" = false → a = .returnEmpty ∨ ∃ it, a = .its it

theorem acts_orEmpty (h : Gives it (S.select m.name f))
    (hread : ∀ x, selects m.name f x ↔ reads R ms m x) : Acts R S ms m (.orEmpty it) := by
  obtain ⟨hr, hk⟩ := keeps_orEmpty h
  refine ⟨hr, fun s hs => ?_, fun {it'} he x hx => ?_, fun _ => ?_⟩
  · rw [hk, mem_select S hs, hread]
  · obtain ⟨s, hs, hsx, -⟩ : x ∈ S.select m.name f := by
      rw [← hk, he]
      exact hx
    exact ⟨s, hs, hsx⟩
  · rw [Action.orEmpty]
    split_ifs
    · exact .inl rfl
    · exact .inr ⟨it, rfl⟩

theorem acts_notIts (h : Gives it (S.select m.name f)) (hempty : m.accepts R "" = true)
    (hread : ∀ x, ¬ selects m.name f x ↔ reads R ms m x) : Acts R S ms m (.notIts it) := by
  refine ⟨h.1, fun s hs => ?_, nofun, fun hf => absurd hempty (by simp [hf])⟩
  rw [← hread, ← mem_select S hs, ← h.2]
  rfl

/-- **What the loop does with a matcher.** -/
theorem action_spec (hmem : m ∈ ms) (hm : ¬ (m.name = "" ∧ m.value = "")) :
    ∃ a, action R o S.index ms m = .ok a ∧ Acts R S ms m a := by
  have hinv : ¬ (m.inverse.name = "" ∧ m.inverse.value = "") := by
    rwa [(inverse_name m).1, (inverse_name m).2]
  have hacc : (m.inverse.accepts R) = fun s => !m.accepts R s := funext (accepts_inverse m)
  rw [action, if_neg hm]
  split_ifs with h1 h2 h3 h4 h5 h6 h7
  · -- `=~".*"` accepts everything
    have ha : ∀ x, m.accepts R x = true := fun x => by
      simp only [Matcher.accepts, h1.1, h1.2]
      exact R.dotStar x
    refine ⟨.nothing, rfl, trivial, fun s _ => ?_, nofun, fun hf => by rw [ha] at hf; cases hf⟩
    simp [Action.keeps, reads, h1.1, h1.2, ha]
  · have ha : ∀ x, m.accepts R x = false := fun x => by
      simp only [Matcher.accepts, h2.1, h2.2, R.dotStar, Bool.not_true]
    refine ⟨.returnEmpty, rfl, trivial, fun s _ => ?_, nofun, fun _ => Or.inl rfl⟩
    simp [Action.keeps, reads, h2.1, h2.2, ha]
  · refine ⟨_, rfl, acts_orEmpty S (gives_all_select S o m.name) fun x => ?_⟩
    simp [reads, h3.1, h3.2, selects]
  · have ha : m.accepts R "" = true := (accepts_not_dotPlus h4 _).2 rfl
    refine ⟨_, rfl, acts_notIts S (gives_all_select S o m.name) ha fun x => ?_⟩
    simp [reads, h4.1, h4.2, selects]
  · have h6' := Bool.and_eq_true_iff.1 h6
    have hg := gives_postingsForMatcher (R := R) S m.inverse
    rw [(inverse_name m).1, hacc] at hg
    refine ⟨_, rfl, acts_notIts S hg h6'.2 fun x => ?_⟩
    rw [not_selects_not h6'.2]
    simp [reads, h3, h4, h6'.1]
  · have h7' := Bool.and_eq_true_iff.1 h7
    have hf : m.accepts R "" = false := by simpa using h7'.2
    have hg := gives_inversePostingsForMatcher (R := R) S o hinv
    simp only [(inverse_name m).1, hacc, Bool.not_not] at hg
    refine ⟨_, rfl, acts_orEmpty S hg fun x => ?_⟩
    rw [selects_self hf]
    simp [reads, h3, h4, hf]
  · have hnot : m.isNot = false := by
      rcases hn : m.isNot with _ | _
      · rfl
      · rcases ha : m.accepts R "" with _ | _
        · exact absurd (by simp [hn, ha]) h7
        · exact absurd (by simp [hn, ha]) h6
    refine ⟨_, rfl, acts_orEmpty S (gives_postingsForMatcher S m) fun x => ?_⟩
    rcases ha : m.accepts R "" with _ | _
    · rw [selects_self ha]
      simp [reads, h3, h4, ha]
    · simp only [reads, h3, h4, h5, hnot, ha, h1, selects]
      simp only [if_false, Bool.false_eq_true, not_false_eq_true, and_self, if_true, and_true]
      exact or_comm
  · have ha : m.accepts R "" = true := by
      by_contra hf
      exact h5 (any_eq_true.2 ⟨m, hmem, by simp [hf]⟩)
    refine ⟨_, rfl, acts_notIts S (gives_inversePostingsForMatcher S o hm) ha fun x => ?_⟩
    rw [not_selects_not ha]
    simp [reads, h3, h4, h5]

/-! ### The loop and its result -/

/-- What is left of the postings in `its` without those in `notIts`. -/
def kept (its notIts : List Leaf) : Set ℕ :=
  {x | (∀ p ∈ its, x ∈ leafLaw.ahead p) ∧ ∀ q ∈ notIts, x ∉ leafLaw.ahead q}

/-- The lists that the loop has built: iterators to be read, those in `its` with references of
series only. -/
structure Lists (S : SeriesSet) (its notIts : List Leaf) : Prop where
  its : ∀ p ∈ its, leafLaw.Ready p ∧ ∀ x ∈ leafLaw.ahead p, ∃ s ∈ S.series, s.1 = x
  notIts : ∀ q ∈ notIts, leafLaw.Ready q

/-- How the loop over the matchers `rest` ends, from the lists `its` and `notIts`. -/
def Ends (R : Regexps) (S : SeriesSet) (ms rest : List Matcher) (its notIts : List Leaf)
    (r : Except MatchErr (Option (List Leaf × List Leaf))) : Prop :=
  (r = .ok none ∧ ∃ m ∈ rest, ∀ s ∈ S.series, ¬ reads R ms m (s.2.get m.name)) ∨
  ∃ its' notIts', r = .ok (some (its', notIts')) ∧ Lists S its' notIts' ∧
    (∀ s ∈ S.series, s.1 ∈ kept its' notIts' ↔
      s.1 ∈ kept its notIts ∧ ∀ m ∈ rest, reads R ms m (s.2.get m.name)) ∧
    ((its ≠ [] ∨ ∃ m ∈ rest, m.accepts R "" = false) → its' ≠ [])

variable {S} {rest : List Matcher} {its its₁ notIts notIts₁ : List Leaf}

/-- The loop goes on with the lists after the matcher `m`. -/
theorem Ends.cons {r : Except MatchErr (Option (List Leaf × List Leaf))}
    (h : Ends R S ms rest its₁ notIts₁ r)
    (hk : ∀ s ∈ S.series, s.1 ∈ kept its₁ notIts₁ ↔
      s.1 ∈ kept its notIts ∧ reads R ms m (s.2.get m.name))
    (hne : (its ≠ [] ∨ m.accepts R "" = false) → its₁ ≠ []) :
    Ends R S ms (m :: rest) its notIts r := by
  rcases h with ⟨he, m', hm', hr⟩ | ⟨its', notIts', he, hl', hk', hne'⟩
  · exact .inl ⟨he, m', mem_cons_of_mem _ hm', hr⟩
  · refine .inr ⟨its', notIts', he, hl', fun s hs => ?_, fun h => hne' ?_⟩
    · rw [hk' s hs, hk s hs, forall_mem_cons, and_assoc]
    · rcases h with h | ⟨m', hm', h⟩
      · exact .inl (hne (.inl h))
      · rcases mem_cons.1 hm' with rfl | hm'
        · exact .inl (hne (.inr h))
        · exact .inr ⟨m', hm', h⟩

theorem loop_spec : ∀ (rest : List Matcher) {its notIts : List Leaf}, Lists S its notIts →
    (∀ m ∈ rest, ∃ a, action R o S.index ms m = .ok a ∧ Acts R S ms m a) →
    Ends R S ms rest its notIts (loop R o S.index ms rest its notIts)
  | [], its, notIts, hl, _ => .inr ⟨its, notIts, rfl, hl, by simp, by simp⟩
  | m :: rest, its, notIts, hl, hact => by
    obtain ⟨⟨a, ha, hA⟩, hrest⟩ := forall_mem_cons.1 hact
    rw [loop, ha]
    cases a with
    | nothing =>
      refine (loop_spec rest hl hrest).cons (fun s hs => ?_) fun h => ?_
      · rw [← hA.keeps s hs]
        simp [Action.keeps]
      · refine h.elim (fun h => h) fun h => ?_
        rcases hA.set h with h | ⟨it, h⟩ <;> cases h
    | returnEmpty =>
      exact .inl ⟨rfl, m, mem_cons_self, fun s hs h => (hA.keeps s hs).2 h⟩
    | its it =>
      have hl' : Lists S (its ++ [it]) notIts :=
        ⟨forall_mem_append.2 ⟨hl.its, forall_mem_singleton.2 ⟨hA.ready, hA.its rfl⟩⟩, hl.notIts⟩
      refine (loop_spec rest hl' hrest).cons (fun s hs => ?_) (by simp)
      rw [← hA.keeps s hs]
      simp only [kept, Action.keeps, forall_mem_append, forall_mem_singleton]
      exact and_right_comm
    | notIts it =>
      have hl' : Lists S its (notIts ++ [it]) :=
        ⟨hl.its, forall_mem_append.2 ⟨hl.notIts, forall_mem_singleton.2 hA.ready⟩⟩
      refine (loop_spec rest hl' hrest).cons (fun s hs => ?_) fun h => ?_
      · rw [← hA.keeps s hs]
        simp only [kept, Action.keeps, forall_mem_append, forall_mem_singleton]
        exact (and_assoc).symm
      · refine h.elim (fun h => h) fun h => ?_
        rcases hA.set h with h | ⟨it', h⟩ <;> cases h

theorem foldl_without_spec : ∀ (notIts : List Leaf) {full : AnyPostings}, full.Ready →
    (∀ q ∈ notIts, leafLaw.Ready q) → (notIts.foldl without full).Ready ∧
      (notIts.foldl without full).ahead =
        {x | x ∈ full.ahead ∧ ∀ q ∈ notIts, x ∉ leafLaw.ahead q}
  | [], full, hf, _ => ⟨hf, by simp⟩
  | q :: notIts, full, hf, hq => by
    rw [forall_mem_cons] at hq
    obtain ⟨hr, ha⟩ := without_spec hf hq.1
    obtain ⟨hr', ha'⟩ := foldl_without_spec notIts hr hq.2
    refine ⟨hr', ha'.trans ?_⟩
    ext x
    rw [ha]
    simp only [forall_mem_cons]
    exact and_assoc

/-- **Set operations** expand to the references that all of `its` and none of `notIts` have
ahead. -/
theorem expand_kept (hne : its ≠ []) (h : ∀ p ∈ its ++ notIts, leafLaw.Ready p) :
    ∃ l, (notIts.foldl without ⟨0, intersect its⟩).expand = some l ∧ l.Pairwise (· < ·) ∧
      ∀ x, x ∈ l ↔ x ∈ kept its notIts := by
  obtain ⟨hits, hnotIts⟩ := forall_mem_append.1 h
  obtain ⟨hr, ha⟩ := intersect_spec hne hits
  obtain ⟨hr', ha'⟩ := foldl_without_spec notIts (show AnyPostings.Ready ⟨0, _⟩ from hr) hnotIts
  obtain ⟨l, hl, hasc, hmem⟩ := expand_spec hr'
  refine ⟨l, hl, hasc, fun x => ?_⟩
  rw [hmem, ha', show AnyPostings.ahead ⟨0, _⟩ = _ from ha]
  rfl

end Select

/-- The tournament of the concrete runs. -/
instance : Winner listCursor := firstWinner _

theorem expand_kept_lists : ∃ l,
    ([.list ⟨[3], 0⟩].foldl without
      ⟨0, intersect [.list ⟨[1, 3, 5], 0⟩, .list ⟨[1, 2, 3], 0⟩]⟩).expand = some l ∧
      l.Pairwise (· < ·) ∧
      ∀ x, x ∈ l ↔ x ∈ kept [.list ⟨[1, 3, 5], 0⟩, .list ⟨[1, 2, 3], 0⟩] [.list ⟨[3], 0⟩] :=
  expand_kept (by simp) (by simp [leafLaw, listLaw, Ascends])

variable [Winner listCursor]

theorem gives_allPostings : Gives (allPostings S.index) {x | ∃ s ∈ S.series, s.1 = x} := by
  have h := S.indexes.gives_postings allPostingsKey.1 [allPostingsKey.2]
  refine ⟨h.1, h.2.trans (Set.ext fun r => ?_)⟩
  constructor
  · rintro ⟨v, -, s, hs, hr, -⟩
    exact ⟨s, hs, hr⟩
  · rintro ⟨s, hs, hr⟩
    exact ⟨_, mem_singleton_self _, s, hs, hr, by simp [keys, allPostingsKey]⟩

/-- **The postings are those of the series that every matcher is read to accept.** -/
theorem postingsForMatchers_spec (sort : RangeOrder Matcher) (hne : ms ≠ [])
    (hms : ∀ m ∈ ms, ¬ (m.name = "" ∧ m.value = "")) :
    ∃ p, postingsForMatchers R o S.index sort ms = .ok p ∧ p.Ready ∧
      ∀ x, x ∈ p.ahead ↔ ∃ s ∈ S.series, s.1 = x ∧ ∀ m ∈ ms, reads R ms m (s.2.get m.name) := by
  obtain ⟨m₀, hm₀⟩ := exists_mem_of_ne_nil ms hne
  have hperm : ∀ m, m ∈ sort.visit ms ↔ m ∈ ms := fun m => (sort.perm ms).mem_iff
  rw [postingsForMatchers, if_neg fun h => hms m₀ hm₀ (h.2 m₀ hm₀)]
  simp only
  set its := if (ms.any fun m => isSubtractingMatcher R ms m) &&
      !(ms.any fun m => !isSubtractingMatcher R ms m) then [allPostings S.index] else [] with hits
  have hact : ∀ m ∈ sort.visit ms, ∃ a, action R o S.index ms m = .ok a ∧ Acts R S ms m a :=
    fun m hm => action_spec S o ((hperm m).1 hm) (hms m ((hperm m).1 hm))
  obtain ⟨hready, hahead⟩ := gives_allPostings S
  have hall : ∀ p ∈ its, p = allPostings S.index := fun p hp => by
    rw [hits] at hp
    split_ifs at hp
    · exact mem_singleton.1 hp
    · cases hp
  have hlists : Lists S its [] := by
    refine ⟨fun p hp => ?_, by simp⟩
    rw [hall p hp, hahead]
    exact ⟨hready, fun _ => id⟩
  -- either the loop starts from all series, or some matcher adds to `its`
  have hits' : its ≠ [] ∨ ∃ m ∈ sort.visit ms, m.accepts R "" = false := by
    rw [hits]
    split_ifs with hc
    · exact Or.inl (by simp)
    · right
      have hint : ∃ m ∈ ms, isSubtractingMatcher R ms m = false := by
        by_contra hno
        push Not at hno
        refine hc ?_
        simp only [Bool.and_eq_true, any_eq_true, Bool.not_eq_true', any_eq_false]
        exact ⟨⟨m₀, hm₀, by simpa using hno m₀ hm₀⟩, fun m hm => by simpa using hno m hm⟩
      obtain ⟨m, -, hm⟩ := hint
      obtain ⟨m', hm', h'⟩ := exists_not_accepts hm
      exact ⟨m', (hperm m').2 hm', h'⟩
  have hinit : ∀ s ∈ S.series, s.1 ∈ kept its [] := by
    refine fun s hs => ⟨fun p hp => ?_, by simp⟩
    rw [hall p hp, hahead]
    exact ⟨s, hs, rfl⟩
  rcases loop_spec o (sort.visit ms) hlists hact with ⟨he, m, hm, hr⟩ |
    ⟨its', notIts', he, hl', hk', hne'⟩
  · rw [he]
    refine ⟨_, rfl, trivial, fun x => ?_⟩
    constructor
    · exact fun hx => absurd hx (Set.notMem_empty x)
    · rintro ⟨s, hs, -, hall⟩
      exact absurd (hall m ((hperm m).1 hm)) (hr s hs)
  · rw [he]
    have hne'' := hne' hits'
    obtain ⟨hr, ha⟩ := intersect_spec hne'' fun p hp => (hl'.its p hp).1
    obtain ⟨hr', ha'⟩ := foldl_without_spec notIts'
      (show AnyPostings.Ready ⟨0, intersect its'⟩ from hr) hl'.notIts
    refine ⟨_, rfl, hr', fun x => ?_⟩
    have hx : x ∈ (notIts'.foldl without ⟨0, intersect its'⟩).ahead ↔ x ∈ kept its' notIts' := by
      rw [ha']
      show x ∈ startLaw.ahead (intersect its') ∧ _ ↔ _
      rw [ha]
      exact Iff.rfl
    rw [hx]
    constructor
    · intro hk
      obtain ⟨p, hp⟩ := exists_mem_of_ne_nil _ hne''
      obtain ⟨s, hs, rfl⟩ := (hl'.its p hp).2 x (hk.1 p hp)
      exact ⟨s, hs, rfl, fun m hm => ((hk' s hs).1 hk).2 m ((hperm m).2 hm)⟩
    · rintro ⟨s, hs, rfl, hall⟩
      exact (hk' s hs).2 ⟨hinit s hs, fun m hm => hall m ((hperm m).1 hm)⟩

end

/-! ### When the result is exact -/

/-- The labels satisfy all matchers, a missing label being the empty string. -/
def Satisfies (ms : List Matcher) (lset : LabelSet) : Prop :=
  ∀ m ∈ ms, m.accepts R (lset.get m.name) = true

/-- The references of the series that satisfy all matchers, in ascending order. -/
def Exact (S : SeriesSet) (ms : List Matcher) (l : List ℕ) : Prop :=
  l.Pairwise (· < ·) ∧ ∀ r, r ∈ l ↔ ∃ s ∈ S.series, s.1 = r ∧ Satisfies R ms s.2

/-- The matcher has the empty name and the code does not look at the label: `=~".+"`, or another
`=~` that accepts the empty string while some matcher with the empty name does not. -/
def Blind (ms : List Matcher) (m : Matcher) : Prop :=
  m.name = "" ∧ m.typ = .regexp ∧
    (m.value = ".+" ∨ (m.accepts R "" = true ∧ labelMustBeSet R ms "" = true))

/-- The matcher `!~".+"` with the empty name, for which the code drops all series. -/
def Denied (m : Matcher) : Prop := m.name = "" ∧ m.typ = .notRegexp ∧ m.value = ".+"

/-- The matchers with the empty name make no difference: if all series are dropped then none
satisfies the matchers, and otherwise the series that satisfy the matchers the code looks at satisfy
all. -/
def Unaffected (S : SeriesSet) (ms : List Matcher) : Prop :=
  ((∃ m ∈ ms, Denied m) → ∀ s ∈ S.series, ¬ Satisfies R ms s.2) ∧
  ((∀ m ∈ ms, ¬ Denied m) → ∀ s ∈ S.series,
    (∀ m ∈ ms, ¬ Blind R ms m → m.accepts R (s.2.get m.name) = true) → Satisfies R ms s.2)

section Exact

variable {R} {S : SeriesSet} {ms : List Matcher}

/-- Read by the code, all matchers accept the labels exactly if those do that it looks at. -/
theorem reads_all_iff (hms : ∀ m ∈ ms, ¬ (m.name = "" ∧ m.value = "")) (lset : LabelSet) :
    (∀ m ∈ ms, reads R ms m (lset.get m.name)) ↔
      (∀ m ∈ ms, ¬ Denied m) ∧
        ∀ m ∈ ms, ¬ Blind R ms m → m.accepts R (lset.get m.name) = true := by
  constructor
  · intro h
    refine ⟨fun m hm hd => ?_, fun m hm hb => ?_⟩
    · have hr := h m hm
      rw [reads, if_neg (by simp [hd.2.1]), if_pos hd.2] at hr
      exact hr.2 hd.1
    · have hr := h m hm
      rw [reads] at hr
      split_ifs at hr with h1 h2 h3
      · refine (accepts_dotPlus h1 _).2 (hr.resolve_right fun hn => hb ⟨hn, h1.1, Or.inl h1.2⟩)
      · exact (accepts_not_dotPlus h2 _).2 hr.1
      · refine (hr.resolve_left fun hn => ?_).2
        obtain ⟨hset, hnot, hacc, -⟩ := h3
        refine hb ⟨hn, ?_, .inr ⟨hacc, hn ▸ hset⟩⟩
        -- an equality that accepts the empty string has the empty value
        rcases ht : m.typ with _ | _ | _ | _
        · refine absurd ⟨hn, ?_⟩ (hms m hm)
          simp only [Matcher.accepts, ht, decide_eq_true_eq] at hacc
          exact hacc.symm
        · exact absurd (by simp [Matcher.isNot, ht]) hnot
        · rfl
        · exact absurd (by simp [Matcher.isNot, ht]) hnot
      · exact hr
  · rintro ⟨hden, hacc⟩ m hm
    rw [reads]
    split_ifs with h1 h2 h3
    · by_cases hn : m.name = ""
      · exact Or.inr hn
      · exact Or.inl ((accepts_dotPlus h1 _).1 (hacc m hm fun hb => hn hb.1))
    · have hn : m.name ≠ "" := fun hn => hden m hm ⟨hn, h2⟩
      exact ⟨(accepts_not_dotPlus h2 _).1 (hacc m hm fun hb => hn hb.1), hn⟩
    · by_cases hn : m.name = ""
      · exact Or.inl hn
      · refine .inr ⟨fun hx => ?_, hacc m hm fun hb => hn hb.1⟩
        -- the matcher that demands the label refuses the empty string
        obtain ⟨m', hm', h'⟩ := any_eq_true.1 h3.1
        obtain ⟨hname, hrefuse⟩ := Bool.and_eq_true_iff.1 h'
        have hname' : m'.name = m.name := by simpa using hname
        have := hacc m' hm' fun hb => hn (hname' ▸ hb.1)
        rw [hname', hx] at this
        rw [this] at hrefuse
        cases hrefuse
    · by_cases hb : Blind R ms m
      · obtain ⟨hn, ht, hv | ⟨ha, hset⟩⟩ := hb
        · exact absurd ⟨ht, hv⟩ h1
        · have hstar : m.value = ".*" := by
            by_contra hv
            exact h3 ⟨by rw [hn]; exact hset, by simp [Matcher.isNot, ht], ha, fun h => hv h.2⟩
          simp only [Matcher.accepts, ht, hstar]
          exact R.dotStar _
      · exact hacc m hm hb

end Exact

/-- **`PostingsForMatchers` returns, in ascending order, exactly the series that satisfy all
matchers if and only if the matchers with the empty name make no difference.** In particular it does
when there are none. -/
theorem postingsForMatchers_exact_iff [Winner listCursor]
    (o : RangeOrder ((String × String) × List ℕ)) (sort : RangeOrder Matcher) (S : SeriesSet)
    {ms : List Matcher} (hne : ms ≠ []) (hms : ∀ m ∈ ms, ¬ (m.name = "" ∧ m.value = "")) :
    (∃ p l, postingsForMatchers R o S.index sort ms = .ok p ∧ p.expand = some l ∧
      Exact R S ms l) ↔ Unaffected R S ms := by
  obtain ⟨p, hp, hready, hahead⟩ := postingsForMatchers_spec (R := R) S o sort hne hms
  obtain ⟨l, hl, hsort, hmem⟩ := expand_spec hready
  have hread : (∃ p l, postingsForMatchers R o S.index sort ms = .ok p ∧ p.expand = some l ∧
      Exact R S ms l) ↔ ∀ s ∈ S.series,
        ((∀ m ∈ ms, reads R ms m (s.2.get m.name)) ↔ Satisfies R ms s.2) := by
    constructor
    · rintro ⟨p', l', hp', hl', -, hex⟩ s hs
      cases hp.symm.trans hp'
      cases hl.symm.trans hl'
      have hr := (hmem s.1).symm.trans (hex s.1)
      rwa [hahead, exists_ref_iff S hs, exists_ref_iff S hs] at hr
    · intro h
      refine ⟨p, l, hp, hl, hsort, fun r => ?_⟩
      rw [hmem, hahead]
      exact exists_congr fun s => and_congr_right fun hs => and_congr_right fun _ => h s hs
  rw [hread]
  simp only [reads_all_iff hms]
  by_cases hd : ∀ m ∈ ms, ¬ Denied m
  · have hno : ¬ ∃ m ∈ ms, Denied m := fun ⟨m, hm, h⟩ => hd m hm h
    constructor
    · exact fun h => ⟨fun h' => absurd h' hno, fun _ s hs hacc => (h s hs).1 ⟨hd, hacc⟩⟩
    · exact fun h s hs => ⟨fun h' => h.2 hd s hs h'.2, fun hsat => ⟨hd, fun m hm _ => hsat m hm⟩⟩
  · have hyes : ∃ m ∈ ms, Denied m := by simpa using hd
    constructor
    · exact fun h => ⟨fun _ s hs hsat => hd ((h s hs).2 hsat).1, fun h' => absurd h' hd⟩
    · exact fun h s hs => ⟨fun h' => absurd h'.1 hd, fun hsat => absurd hsat (h.1 hyes s hs)⟩

/-! ### Two series -/

/-- Expressions without special characters, `.*` and `.+`. -/
def literals : Regexps where
  matchString v s := if v = ".*" then true else if v = ".+" then s ≠ "" else s = v
  setMatches v := if v = ".*" ∨ v = ".+" then [] else [v]
  agree {v} h s := by
    split_ifs at h with hv
    · exact absurd rfl h
    · rw [not_or] at hv
      simp [hv.1, hv.2]
  dotStar s := by simp
  dotPlus s := by simp
  empty s := by simp

/-- The series 1 with the label `a="x"` and 2 with `b="y"`. -/
def twoSeries : SeriesSet where
  series := [(1, ⟨[("a", "x")], by decide, by decide⟩), (2, ⟨[("b", "y")], by decide, by decide⟩)]
  nodup := by decide
  pos := by decide

/-- Matchers with names: one intersects, the other subtracts. -/
def named : List Matcher := [⟨.notEqual, "b", "y"⟩, ⟨.equal, "a", "x"⟩]

theorem postingsForMatchers_exact_iff_named : named ≠ [] ∧
    (∀ m ∈ named, ¬ (m.name = "" ∧ m.value = "")) ∧
    ∃ p l, postingsForMatchers literals default twoSeries.index default named = .ok p ∧
      p.expand = some l ∧ Exact literals twoSeries named l := by
  have hnames : ∀ m ∈ named, m.name ≠ "" := by decide
  refine ⟨by decide, by decide, (postingsForMatchers_exact_iff literals default default twoSeries
    (by decide) (by decide)).2 ⟨?_, ?_⟩⟩
  · rintro ⟨m, hm, hd⟩
    exact absurd hd.1 (hnames m hm)
  · intro _ s _ h m hm
    exact h m hm fun hb => hnames m hm hb.1

/-- The matcher `=~".+"` with the empty name selects a series without such a label. -/
def unnamed : List Matcher := [⟨.regexp, "", ".+"⟩]

theorem not_exact_unnamed : unnamed ≠ [] ∧ (∀ m ∈ unnamed, ¬ (m.name = "" ∧ m.value = "")) ∧
    ¬ ∃ p l, postingsForMatchers literals default twoSeries.index default unnamed = .ok p ∧
      p.expand = some l ∧ Exact literals twoSeries unnamed l := by
  refine ⟨by decide, by decide, ?_⟩
  rintro ⟨p, l, hp, hl, -, hex⟩
  have hrun : (postingsForMatchers literals default twoSeries.index default unnamed).map
      AnyPostings.expand = .ok (some [1, 2]) := by decide +kernel
  rw [hp] at hrun
  cases hl.symm.trans (Except.ok.inj hrun)
  obtain ⟨s, hs, -, hsat⟩ := (hex 1).1 (by decide)
  have hno : ∀ s ∈ twoSeries.series,
      Matcher.accepts literals ⟨.regexp, "", ".+"⟩ (s.2.get "") = false := by decide
  exact absurd (hsat _ (mem_singleton_self _)) (by rw [hno s hs]; decide)

end TopcDB.Tsdb.Matchers
