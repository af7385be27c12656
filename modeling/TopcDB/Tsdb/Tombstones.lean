import Mathlib.Data.List.DropRight
import TopcDB.Lib.Search
import TopcDB.Storage.Series
import TopcDB.Tsdb.Deleted
import TopcDB.Tsdb.Encoding

/-! # Tombstones

The intervals of a series are kept apart from each other by more than one step of time, each new one
being merged with those that it touches (`add_spec`). The file lists them with their series, and is
read by adding them again (`decode_encode`). -/

namespace TopcDB.Tsdb.Tombstones

open List Function Lib.Bits Lib.Codec Lib.Search Go.Basic Deleted Encoding
open Storage.Merge (minInt64 toInt_minInt64)
open Storage.Series (maxInt64 toInt_maxInt64)

variable (ins : List Interval) (n : Interval)

/-- `mini` of `Intervals.Add`: the first interval that is not before the new one. -/
def mini : ℕ :=
  if n.mint = minInt64 then 0 else searchList ins fun i => (n.mint - 1).sle i.maxt

/-- `maxi` of `Intervals.Add`: how many intervals, from `mini` on, are not after the new one; all of
them when it ends with time itself. -/
def maxi : ℕ :=
  if n.maxt = maxInt64 then ins.length
  else searchList (ins.drop (mini ins n)) fun i => (n.maxt + 1).slt i.mint

/-- **`Intervals.Add`.** The intervals from `mini` on, `maxi` of them, are merged with the new
one. -/
def add : Except Fault (List Interval) :=
  if ins = [] then .ok [n]
  else if mini ins n = ins.length then .ok (ins ++ [n])
  else if maxi ins n = 0 then .ok (ins.take (mini ins n) ++ n :: ins.drop (mini ins n))
  else
    match ins[mini ins n]?, ins[maxi ins n + mini ins n - 1]? with
    | some first, some last =>
      let mint := if n.mint.slt first.mint then n.mint else first.mint
      let maxt := if last.maxt.slt n.maxt then n.maxt else last.maxt
      .ok (ins.take (mini ins n) ++ ⟨mint, maxt⟩ :: ins.drop (maxi ins n + mini ins n))
    | _, _ => .error .panic

/-- An interval ends where it begins, or later. -/
def Proper : Prop := n.mint.toInt ≤ n.maxt.toInt

/-- Intervals that do not touch each other, in the order of time. -/
structure Canonical : Prop where
  apart : ins.Pairwise fun a b => a.maxt.toInt + 1 < b.mint.toInt
  proper : ∀ n ∈ ins, Proper n

theorem canonical_nil : Canonical [] := ⟨List.Pairwise.nil, by simp⟩

theorem lt_toInt {t : I64} (h : t ≠ minInt64) : -2 ^ 63 < t.toInt :=
  lt_of_le_of_ne t.le_toInt fun h0 => h (BitVec.eq_of_toInt_eq (h0.symm.trans toInt_minInt64.symm))

theorem toInt_succ {t : I64} (h : t ≠ maxInt64) : (t + 1).toInt = t.toInt + 1 := by
  have hne : t.toInt ≠ 2 ^ 63 - 1 := fun h0 =>
    h (BitVec.eq_of_toInt_eq (h0.trans toInt_maxInt64.symm))
  have hlo := BitVec.le_toInt t
  have hhi := BitVec.toInt_lt (x := t)
  rw [BitVec.toInt_add, show (1 : I64).toInt = 1 from rfl]
  exact Int.bmod_eq_of_le (by omega) (by omega)

theorem deleted_iff {ins : List Interval} {t : I64} :
    deleted ins t = true ↔ ∃ i ∈ ins, i.mint.toInt ≤ t.toInt ∧ t.toInt ≤ i.maxt.toInt := by
  simp only [deleted, any_eq_true, inBounds_iff]

/-! ### Addition -/

variable {ins before touched after : List Interval} {n first last : Interval}

theorem canonical_insert (h : Canonical (before ++ after)) (hn : Proper n)
    (hbefore : ∀ i ∈ before, i.maxt.toInt + 1 < n.mint.toInt)
    (hafter : ∀ i ∈ after, n.maxt.toInt + 1 < i.mint.toInt) :
    Canonical (before ++ n :: after) := by
  obtain ⟨hp, hproper⟩ := h
  obtain ⟨h1, h2, h12⟩ := pairwise_append.1 hp
  refine ⟨pairwise_append.2 ⟨h1, pairwise_cons.2 ⟨hafter, h2⟩, fun a ha b hb => ?_⟩, ?_⟩
  · rcases mem_cons.1 hb with rfl | hb
    · exact hbefore a ha
    · exact h12 a ha b hb
  · intro i hi
    rcases mem_append.1 hi with hi | hi
    · exact hproper i (mem_append_left _ hi)
    · rcases mem_cons.1 hi with rfl | hi
      · exact hn
      · exact hproper i (mem_append_right _ hi)

theorem Canonical.between (h : Canonical touched) (hfirst : touched.head? = some first)
    (hlast : touched.getLast? = some last) {i : Interval} (hi : i ∈ touched) :
    first.mint.toInt ≤ i.mint.toInt ∧ i.maxt.toInt ≤ last.maxt.toInt := by
  constructor
  · obtain ⟨l, rfl⟩ : ∃ l, touched = first :: l := by
      cases touched with
      | nil => cases hfirst
      | cons a l => exact ⟨l, by rw [Option.some.inj hfirst]⟩
    have hfp : first.mint.toInt ≤ first.maxt.toInt := h.proper first mem_cons_self
    rcases mem_cons.1 hi with rfl | hi
    · exact le_rfl
    · have := (pairwise_cons.1 h.apart).1 i hi
      omega
  · obtain ⟨l, rfl⟩ := getLast?_eq_some_iff.1 hlast
    have hlp : last.mint.toInt ≤ last.maxt.toInt := h.proper last (by simp)
    rcases mem_append.1 hi with hi | hi
    · have := (pairwise_append.1 h.apart).2.2 i hi last (by simp)
      omega
    · rw [mem_singleton.1 hi]

/-- **The merge**: the touched intervals and the new one become the interval `m` of their ends. -/
theorem canonical_merge (h : Canonical (before ++ (touched ++ after))) (hn : Proper n)
    (hfirst : touched.head? = some first) (hlast : touched.getLast? = some last)
    (hbefore : ∀ i ∈ before, i.maxt.toInt + 1 < n.mint.toInt)
    (hafter : ∀ i ∈ after, n.maxt.toInt + 1 < i.mint.toInt)
    (htouch : n.mint.toInt ≤ first.maxt.toInt + 1) (htouch' : last.mint.toInt ≤ n.maxt.toInt + 1)
    {m : Interval} (hmint : m.mint.toInt = min n.mint.toInt first.mint.toInt)
    (hmaxt : m.maxt.toInt = max n.maxt.toInt last.maxt.toInt) :
    Canonical (before ++ m :: after) ∧
      ∀ t, deleted (before ++ m :: after) t =
        (deleted (before ++ (touched ++ after)) t || n.inBounds t) := by
  obtain ⟨hp, hproper⟩ := h
  obtain ⟨h1, h23, h123⟩ := pairwise_append.1 hp
  obtain ⟨h2, h3, h12⟩ := pairwise_append.1 h23
  have htc : Canonical touched := ⟨h2, fun i hi => hproper i (by simp [hi])⟩
  have hf : first ∈ touched := mem_of_mem_head? hfirst
  have hl : last ∈ touched := mem_of_mem_getLast? hlast
  have hnp : n.mint.toInt ≤ n.maxt.toInt := hn
  constructor
  · refine canonical_insert ⟨pairwise_append.2 ⟨h1, h3, fun a ha b hb => ?_⟩, fun i hi => ?_⟩
      ?_ (fun i hi => ?_) fun i hi => ?_
    · exact h123 a ha b (mem_append_right _ hb)
    · rcases mem_append.1 hi with hi | hi <;> exact hproper i (by simp [hi])
    · unfold Proper
      omega
    · have hb := hbefore i hi
      have hb' := h123 i hi first (mem_append_left _ hf)
      omega
    · have ha := hafter i hi
      have ha' := h12 last hl i hi
      omega
  · intro t
    rw [Bool.eq_iff_iff, Bool.or_eq_true, deleted_iff, deleted_iff, inBounds_iff]
    simp only [mem_append, mem_cons]
    constructor
    · rintro ⟨i, hi | rfl | hi, hit⟩
      · exact .inl ⟨i, .inl hi, hit⟩
      · -- the ends of `m` are those of an interval that touches `n`
        by_cases hlo : t.toInt < n.mint.toInt
        · exact .inl ⟨first, .inr (.inl hf), by omega, by omega⟩
        · by_cases hhi : n.maxt.toInt < t.toInt
          · exact .inl ⟨last, .inr (.inl hl), by omega, by omega⟩
          · exact .inr ⟨by omega, by omega⟩
      · exact .inl ⟨i, .inr (.inr hi), hit⟩
    · rintro (⟨i, hi | hi | hi, hit⟩ | hnt)
      · exact ⟨i, .inl hi, hit⟩
      · obtain ⟨hlo, hhi⟩ := htc.between hfirst hlast hi
        exact ⟨m, .inr (.inl rfl), by omega, by omega⟩
      · exact ⟨i, .inr (.inr hi), hit⟩
      · exact ⟨m, .inr (.inl rfl), by omega, by omega⟩

theorem mini_spec (h : Canonical ins) :
    (∀ i ∈ ins.take (mini ins n), i.maxt.toInt + 1 < n.mint.toInt) ∧
      ∀ i ∈ ins.drop (mini ins n), n.mint.toInt ≤ i.maxt.toInt + 1 := by
  unfold mini
  split_ifs with hmin
  · refine ⟨by simp, fun i _ => ?_⟩
    have := BitVec.le_toInt i.maxt
    rw [hmin, toInt_minInt64]
    omega
  · have hmono : ins.Pairwise fun a b => (n.mint - 1).sle a.maxt → (n.mint - 1).sle b.maxt := by
      refine h.apart.imp_of_mem fun {a b} _ hb hab ha => ?_
      have hbp : b.mint.toInt ≤ b.maxt.toInt := h.proper b hb
      rw [BitVec.sle_iff_toInt_le] at ha ⊢
      omega
    obtain ⟨-, hlo, hhi⟩ := searchList_spec hmono
    refine ⟨fun i hi => ?_, fun i hi => ?_⟩
    · have := hlo i hi
      rw [sle_eq_false, toInt_pred (lt_toInt hmin)] at this
      omega
    · have := hhi i hi
      rw [BitVec.sle_iff_toInt_le, toInt_pred (lt_toInt hmin)] at this
      omega

theorem maxi_spec (h : Canonical ins) :
    (∀ i ∈ (ins.drop (mini ins n)).take (maxi ins n), i.mint.toInt ≤ n.maxt.toInt + 1) ∧
      ∀ i ∈ (ins.drop (mini ins n)).drop (maxi ins n), n.maxt.toInt + 1 < i.mint.toInt := by
  unfold maxi
  split_ifs with hmax
  · refine ⟨fun i _ => ?_, ?_⟩
    · have := BitVec.toInt_lt (x := i.mint)
      rw [hmax, toInt_maxInt64]
      omega
    · rw [drop_of_length_le (by simp)]
      simp
  · have hmono : (ins.drop (mini ins n)).Pairwise
        fun a b => (n.maxt + 1).slt a.mint → (n.maxt + 1).slt b.mint := by
      refine (h.apart.drop).imp_of_mem fun {a b} ha _ hab hna => ?_
      have hap : a.mint.toInt ≤ a.maxt.toInt := h.proper a (mem_of_mem_drop ha)
      rw [BitVec.slt_iff_toInt_lt] at hna ⊢
      omega
    obtain ⟨-, hlo, hhi⟩ := searchList_spec hmono
    refine ⟨fun i hi => ?_, fun i hi => ?_⟩
    · have := hlo i hi
      rw [slt_eq_false, toInt_succ hmax] at this
      omega
    · have := hhi i hi
      rwa [BitVec.slt_iff_toInt_lt, toInt_succ hmax] at this

theorem deleted_insert (before after : List Interval) (n : Interval) (t : I64) :
    deleted (before ++ n :: after) t = (deleted (before ++ after) t || n.inBounds t) := by
  simp [deleted, Bool.or_left_comm, Bool.or_comm]

/-- **`Intervals.Add`**, when it returns, keeps the intervals canonical and adds the new one to what
they cover. -/
theorem add_spec (h : Canonical ins) (hn : Proper n) {r : List Interval}
    (hadd : add ins n = .ok r) :
    Canonical r ∧ ∀ t, deleted r t = (deleted ins t || n.inBounds t) := by
  obtain ⟨hbefore, htouch⟩ := mini_spec (n := n) h
  obtain ⟨htouch', hafter⟩ := maxi_spec (n := n) h
  have hsplit : ins.take (mini ins n) ++ ins.drop (mini ins n) = ins := take_append_drop _ _
  unfold add at hadd
  split_ifs at hadd with hnil hlen hzero
  · cases hadd
    subst hnil
    exact ⟨⟨pairwise_singleton _ _, by simpa using hn⟩, fun t => by simp [deleted]⟩
  · cases hadd
    rw [hlen, take_length] at hbefore
    refine ⟨canonical_insert (by simpa using h) hn hbefore (by simp), fun t => ?_⟩
    simpa using deleted_insert ins [] n t
  · cases hadd
    rw [hzero, drop_zero] at hafter
    refine ⟨canonical_insert (by rwa [hsplit]) hn hbefore hafter, fun t => ?_⟩
    rw [deleted_insert, hsplit]
  · split at hadd
    · rename_i first last hfirst hlast
      cases hadd
      obtain ⟨hlt, -⟩ := List.getElem?_eq_some_iff.1 hlast
      have hsplit' := take_append_drop (maxi ins n) (ins.drop (mini ins n))
      have hhead : ((ins.drop (mini ins n)).take (maxi ins n)).head? = some first := by
        rw [head?_take, if_neg hzero, head?_drop, hfirst]
      have hend : ((ins.drop (mini ins n)).take (maxi ins n)).getLast? = some last := by
        rw [getLast?_eq_getElem?, length_take, length_drop,
          getElem?_take_of_lt (by omega), getElem?_drop, ← hlast]
        congr 1
        omega
      have hmerge := canonical_merge (m := ⟨if n.mint.slt first.mint then n.mint else first.mint,
          if last.maxt.slt n.maxt then n.maxt else last.maxt⟩)
        (by rwa [hsplit', hsplit]) hn hhead hend hbefore hafter
        (htouch first (mem_of_mem_take (mem_of_mem_head? hhead)))
        (htouch' last (mem_of_mem_getLast? hend))
        (by simp only [BitVec.slt_iff_toInt_lt]; split_ifs <;> omega)
        (by simp only [BitVec.slt_iff_toInt_lt]; split_ifs <;> omega)
      rwa [hsplit', hsplit, drop_drop, Nat.add_comm (mini ins n)] at hmerge
    · cases hadd

/-! ### When `add` returns -/

theorem mini_le (ins : List Interval) (n : Interval) : mini ins n ≤ ins.length := by
  unfold mini
  split_ifs
  · exact Nat.zero_le _
  · exact searchList_le _ _

theorem maxi_add_mini_le (hmax : n.maxt ≠ maxInt64) : maxi ins n + mini ins n ≤ ins.length := by
  have hle := searchList_le (ins.drop (mini ins n)) fun i => (n.maxt + 1).slt i.mint
  have hmini := mini_le ins n
  rw [length_drop] at hle
  rw [maxi, if_neg hmax]
  omega

theorem mini_eq_zero_iff (h : Canonical ins) (hne : ins ≠ []) :
    mini ins n = 0 ↔ ∀ i ∈ ins, n.mint.toInt ≤ i.maxt.toInt + 1 := by
  obtain ⟨hbefore, htouch⟩ := mini_spec (n := n) h
  obtain ⟨i, l, rfl⟩ := exists_cons_of_ne_nil hne
  constructor
  · intro h0
    rwa [h0, drop_zero] at htouch
  · intro hall
    by_contra hpos
    obtain ⟨k, hk⟩ := Nat.exists_eq_succ_of_ne_zero hpos
    rw [hk, take_succ_cons] at hbefore
    have := hbefore i mem_cons_self
    have := hall i mem_cons_self
    omega

theorem mini_eq_length_iff (h : Canonical ins) :
    mini ins n = ins.length ↔ ∀ i ∈ ins, i.maxt.toInt + 1 < n.mint.toInt := by
  obtain ⟨hbefore, htouch⟩ := mini_spec (n := n) h
  constructor
  · intro hlen
    rwa [hlen, take_length] at hbefore
  · intro hall
    by_contra hne
    have hlt := lt_of_le_of_ne (mini_le ins n) hne
    rw [drop_eq_getElem_cons hlt] at htouch
    have := htouch _ mem_cons_self
    have := hall _ (getElem_mem hlt)
    omega

/-- An interval up to the end of time touches the first interval, or none. -/
def Reaches (ins : List Interval) (n : Interval) : Prop :=
  n.maxt = maxInt64 → (∀ i ∈ ins, n.mint.toInt ≤ i.maxt.toInt + 1) ∨
    ∀ i ∈ ins, i.maxt.toInt + 1 < n.mint.toInt

instance (ins : List Interval) (n : Interval) : Decidable (Reaches ins n) :=
  inferInstanceAs (Decidable (_ → _ ∨ _))

/-- **`Intervals.Add` returns** exactly when no index is out of range. -/
theorem add_returns_iff (h : Canonical ins) : (∃ r, add ins n = .ok r) ↔ Reaches ins n := by
  unfold add
  split_ifs with hnil hlen hzero
  · subst hnil
    exact iff_of_true ⟨_, rfl⟩ fun _ => .inl (by simp)
  · exact iff_of_true ⟨_, rfl⟩ fun _ => .inr ((mini_eq_length_iff h).1 hlen)
  · refine iff_of_true ⟨_, rfl⟩ fun hmax => absurd hzero ?_
    rw [maxi, if_pos hmax]
    exact fun h0 => hnil (length_eq_zero_iff.1 h0)
  · have hlt : mini ins n < ins.length := lt_of_le_of_ne (mini_le ins n) hlen
    rw [getElem?_eq_getElem hlt]
    have hlast : maxi ins n + mini ins n - 1 < ins.length ↔ Reaches ins n := by
      by_cases hmax : n.maxt = maxInt64
      · have hall : ¬ ∀ i ∈ ins, i.maxt.toInt + 1 < n.mint.toInt :=
          fun hall => hlen ((mini_eq_length_iff h).2 hall)
        simp only [Reaches, hmax, true_imp_iff, hall, or_false, ← mini_eq_zero_iff h hnil]
        rw [maxi, if_pos hmax]
        omega
      · have : maxi ins n + mini ins n ≤ ins.length := maxi_add_mini_le hmax
        exact iff_of_true (by omega) fun h0 => absurd h0 hmax
    rw [← hlast]
    constructor
    · rintro ⟨r, hr⟩
      by_contra hge
      rw [getElem?_eq_none (not_lt.1 hge)] at hr
      cases hr
    · intro hlt'
      rw [getElem?_eq_getElem hlt']
      exact ⟨_, rfl⟩

/-- **Insertion into a canonical list** is right exactly when the new interval does not go to the
end of time, or touches the first interval, or none. -/
theorem add_exact_iff (h : Canonical ins) (hn : Proper n) :
    (∃ r, add ins n = .ok r ∧ Canonical r ∧ ∀ t, deleted r t = (deleted ins t || n.inBounds t)) ↔
      (n.maxt = maxInt64 → (∀ i ∈ ins, n.mint.toInt ≤ i.maxt.toInt + 1) ∨
        ∀ i ∈ ins, i.maxt.toInt + 1 < n.mint.toInt) := by
  rw [← Reaches, ← add_returns_iff h]
  constructor
  · rintro ⟨r, hr, -⟩
    exact ⟨r, hr⟩
  · rintro ⟨r, hr⟩
    exact ⟨r, hr, add_spec h hn hr⟩

/-- An interval that is merged with two others. -/
theorem add_exact_iff_merged :
    ∃ r, add [⟨0, 1⟩, ⟨10, 20⟩, ⟨30, 40⟩] ⟨15, 29⟩ = .ok r ∧ Canonical r ∧
      ∀ t, deleted r t =
        (deleted [⟨0, 1⟩, ⟨10, 20⟩, ⟨30, 40⟩] t || (⟨15, 29⟩ : Interval).inBounds t) := by
  refine (add_exact_iff ⟨?_, ?_⟩ ?_).2 ?_
  · decide
  · simp [Proper]
  · simp [Proper]
  · decide

/-- An interval up to the end of time that touches the second of two intervals. -/
theorem not_add_exact_maxInt64 :
    Canonical [⟨0, 1⟩, ⟨10, 20⟩] ∧ Proper ⟨15, maxInt64⟩ ∧
      add [⟨0, 1⟩, ⟨10, 20⟩] ⟨15, maxInt64⟩ = .error .panic := by
  refine ⟨⟨?_, ?_⟩, ?_, ?_⟩
  · decide
  · simp [Proper]
  · show (15 : I64).toInt ≤ maxInt64.toInt
    decide
  · decide

theorem foldlM_add {ns : List Interval} (h : Canonical ins)
    (hns : ∀ n ∈ ns, Proper n ∧ n.maxt ≠ maxInt64) : ∃ r, ns.foldlM add ins = .ok r ∧
      Canonical r ∧ ∀ t, deleted r t = (deleted ins t || deleted ns t) := by
  induction ns generalizing ins with
  | nil => exact ⟨ins, rfl, h, by simp [deleted]⟩
  | cons n ns ih =>
    obtain ⟨⟨hn, hmax⟩, hns⟩ := forall_mem_cons.1 hns
    obtain ⟨r, hr⟩ := (add_returns_iff h).2 fun hm => absurd hm hmax
    obtain ⟨hc, hd⟩ := add_spec h hn hr
    obtain ⟨r', hr', hc', hd'⟩ := ih hc hns
    refine ⟨r', by rw [foldlM_cons, hr]; exact hr', hc', fun t => ?_⟩
    rw [hd', hd]
    simp [deleted, Bool.or_assoc]

/-! ### An interval that ends before it begins -/

/-- The interval `i` and the improper interval `n` touch from both sides. -/
def Spans (i n : Interval) : Prop :=
  i.mint.toInt ≤ n.maxt.toInt + 1 ∧ n.mint.toInt ≤ i.maxt.toInt + 1

instance (i n : Interval) : Decidable (Spans i n) := inferInstanceAs (Decidable (_ ∧ _))

theorem maxt_ne_maxInt64 (hn : n.maxt.toInt < n.mint.toInt) : n.maxt ≠ maxInt64 := fun h0 => by
  have := BitVec.toInt_lt (x := n.mint)
  rw [h0, toInt_maxInt64] at hn
  omega

/-- What is touched from both sides is one interval, the first that is not before. -/
theorem maxi_eq_one (h : Canonical ins) (hn : n.maxt.toInt < n.mint.toInt) {i : Interval}
    (hi : i ∈ ins) (hspan : Spans i n) : ins[mini ins n]? = some i ∧ maxi ins n = 1 := by
  obtain ⟨hbefore, htouch⟩ := mini_spec (n := n) h
  obtain ⟨htouch', hafter⟩ := maxi_spec (n := n) h
  have hdrop : i ∈ ins.drop (mini ins n) := by
    rw [← take_append_drop (mini ins n) ins] at hi
    refine (mem_append.1 hi).resolve_left fun hin => ?_
    have := hbefore i hin
    have := hspan.2
    omega
  cases hrest : ins.drop (mini ins n) with
  | nil => rw [hrest] at hdrop; cases hdrop
  | cons first rest =>
    rw [hrest] at hdrop htouch htouch' hafter
    have hfirst := htouch first mem_cons_self
    have hapart := pairwise_cons.1 (hrest ▸ h.apart.drop (i := mini ins n))
    obtain rfl : i = first := by
      refine (mem_cons.1 hdrop).resolve_right fun hin => ?_
      have := hapart.1 i hin
      have := hspan.1
      omega
    refine ⟨by rw [← head?_drop, hrest]; rfl, ?_⟩
    have hspan' := hspan.1
    rcases hm : maxi ins n with _ | _ | m
    · rw [hm] at hafter
      have := hafter i mem_cons_self
      omega
    · rfl
    · -- a second interval would begin after both
      rw [hm] at htouch' hafter
      cases rest with
      | nil =>
        have hle : maxi ins n + mini ins n ≤ ins.length := maxi_add_mini_le (maxt_ne_maxInt64 hn)
        have hlen := congrArg List.length hrest
        rw [length_drop, length_singleton] at hlen
        omega
      | cons second rest =>
        have := htouch' second (by simp)
        have := hapart.1 second mem_cons_self
        omega

/-- **An improper interval** stays in the list, unless an interval spans it: then nothing
changes. -/
theorem add_of_improper (h : Canonical ins) (hn : n.maxt.toInt < n.mint.toInt) :
    ∃ r, add ins n = .ok r ∧
      (r = ins ∧ (∃ i ∈ ins, Spans i n) ∨ n ∈ r ∧ ¬ ∃ i ∈ ins, Spans i n) := by
  by_cases hspan : ∃ i ∈ ins, Spans i n
  · obtain ⟨i, hi, hs⟩ := hspan
    obtain ⟨hget, hone⟩ := maxi_eq_one h hn hi hs
    obtain ⟨hlt, hgi⟩ := List.getElem?_eq_some_iff.1 hget
    have hlo : n.mint.slt i.mint = false := by
      have := hs.1
      rw [slt_eq_false]
      omega
    have hhi : i.maxt.slt n.maxt = false := by
      have := hs.2
      rw [slt_eq_false]
      omega
    have hadd : add ins n = .ok ins := by
      rw [add, if_neg (ne_nil_of_mem hi), if_neg hlt.ne, if_neg (by omega), hone,
        Nat.add_sub_cancel_left, hget]
      simp only [hlo, hhi, reduceCtorEq, if_false]
      rw [Nat.add_comm, ← hgi, ← drop_eq_getElem_cons hlt, take_append_drop]
    exact ⟨ins, hadd, .inl ⟨rfl, i, hi, hs⟩⟩
  · obtain ⟨r, hr⟩ := (add_returns_iff h).2 fun h0 => absurd h0 (maxt_ne_maxInt64 hn)
    refine ⟨r, hr, .inr ⟨?_, hspan⟩⟩
    unfold add at hr
    split_ifs at hr with hnil hlen hzero
    · cases hr; simp
    · cases hr; simp
    · cases hr; simp
    · -- the first interval that is not before would span it
      refine absurd ?_ hspan
      have hlt : mini ins n < ins.length := lt_of_le_of_ne (mini_le ins n) hlen
      obtain ⟨m, hm⟩ := Nat.exists_eq_succ_of_ne_zero hzero
      have htouch := (mini_spec (n := n) h).2
      have htouch' := (maxi_spec (n := n) h).1
      rw [drop_eq_getElem_cons hlt] at htouch htouch'
      rw [hm, take_succ_cons] at htouch'
      exact ⟨_, getElem_mem hlt, htouch' _ mem_cons_self, htouch _ mem_cons_self⟩

/-! ### The file of tombstones -/

/-- `MemTombstones`. A series that is not in the map has no intervals. -/
abbrev MemTombstones := U64 → List Interval

inductive FileErr
  | invalidFormat (flag : Byte)
  | buffer (err : DecErr)
  | panic
  deriving DecidableEq

def tombstoneFormatV1 : Byte := 1

def putStone (p : U64 × Interval) : List Byte :=
  putUvarint64 p.1 ++ (putVarint64 p.2.mint ++ putVarint64 p.2.maxt)

/-- `Encode`, which visits the series of the map in the order `refs`. -/
def encode (refs : List U64) (t : MemTombstones) : List Byte :=
  putByte tombstoneFormatV1 ++ refs.flatMap fun ref => ((t ref).map (ref, ·)).flatMap putStone

def addInterval (t : MemTombstones) (p : U64 × Interval) : Except Fault MemTombstones :=
  (add (t p.1) p.2).map (update t p.1)

def stone : Dec (U64 × Interval) := do
  let k ← uvarint64
  let mint ← varint64
  let maxt ← varint64
  pure (k, ⟨mint, maxt⟩)

/-- The loop of `Decode`, of at most `k` turns. -/
def decodeLoop : ℕ → List Byte → MemTombstones → Except FileErr MemTombstones
  | 0, _, t => .ok t
  | k + 1, b, t =>
    if b.length = 0 then .ok t
    else
      match stone b with
      | .error err => .error (.buffer err)
      | .ok (p, b) =>
        match addInterval t p with
        | .error _ => .error .panic
        | .ok t => decodeLoop k b t

/-- `Decode`. Without a byte the flag is zero. -/
def decode : List Byte → Except FileErr MemTombstones
  | [] => .error (.invalidFormat 0)
  | flag :: b =>
    if flag ≠ tombstoneFormatV1 then .error (.invalidFormat flag)
    else decodeLoop b.length b fun _ => []

/-- `TruncateBefore` keeps what is behind the last interval that ends before `beforeT`. -/
def truncateBefore (t : MemTombstones) (beforeT : I64) : MemTombstones := fun ref =>
  (t ref).rtakeWhile fun iv => !iv.maxt.slt beforeT

variable {ivs : List Interval} {t : MemTombstones} {ref : U64} {refs : List U64}

theorem Canonical.left (h : Canonical (before ++ after)) : Canonical before :=
  ⟨(pairwise_append.1 h.apart).1, fun n hn => h.proper n (mem_append_left _ hn)⟩

/-- **In order**, intervals are added at the end. -/
theorem add_concat (h : Canonical (ins ++ [n])) : add ins n = .ok (ins ++ [n]) := by
  have hlen : mini ins n = ins.length := (mini_eq_length_iff h.left).2 fun i hi =>
    (pairwise_append.1 h.apart).2.2 i hi n mem_cons_self
  unfold add
  split_ifs with hnil
  · rw [hnil]; rfl
  · rfl

theorem addIntervals (h : Canonical (t ref ++ ivs)) :
    (ivs.map (ref, ·)).foldlM addInterval t = .ok (update t ref (t ref ++ ivs)) := by
  induction ivs generalizing t with
  | nil => rw [append_nil, update_eq_self]; rfl
  | cons n ivs ih =>
    rw [append_cons] at h ⊢
    have hadd : addInterval t (ref, n) = .ok (update t ref (t ref ++ [n])) := by
      rw [addInterval, add_concat h.left]; rfl
    have hrest := ih (t := update t ref (t ref ++ [n])) (by rwa [update_self])
    rw [update_self, update_idem] at hrest
    rw [map_cons, foldlM_cons, hadd]
    exact hrest

theorem addSeries {s : MemTombstones} (h : ∀ ref, Canonical (t ref)) (hnodup : refs.Nodup)
    (hs : ∀ ref ∈ refs, s ref = []) :
    (refs.flatMap fun ref => (t ref).map (ref, ·)).foldlM addInterval s =
      .ok fun ref => if ref ∈ refs then t ref else s ref := by
  induction refs generalizing s with
  | nil => simp; rfl
  | cons ref refs ih =>
    rw [nodup_cons] at hnodup
    obtain ⟨hnil, hs⟩ := forall_mem_cons.1 hs
    have hrest := ih (s := update s ref (t ref)) hnodup.2 fun r hr => by
      rw [update_of_ne (ne_of_mem_of_not_mem hr hnodup.1), hs r hr]
    rw [flatMap_cons, foldlM_append, addIntervals (by rw [hnil]; exact h ref), hnil, nil_append]
    refine hrest.trans (congrArg _ (funext fun r => ?_))
    by_cases hr : r = ref
    · simp [hr, hnodup.1]
    · simp [hr]

theorem reads_stone (p : U64 × Interval) : Reads stone (putStone p) p :=
  (reads_uvarint64 p.1).bind ((reads_varint64 p.2.mint).bind ((reads_varint64 p.2.maxt).ret _))

theorem putStone_ne_nil (p : U64 × Interval) : putStone p ≠ [] := fun h => by
  have hread := reads_stone p []
  rw [h] at hread
  cases hread

theorem decodeLoop_putStone {t' : MemTombstones} : ∀ {l : List (U64 × Interval)} {k : ℕ}
    {t : MemTombstones}, (l.flatMap putStone).length ≤ k → l.foldlM addInterval t = .ok t' →
    decodeLoop k (l.flatMap putStone) t = .ok t'
  | [], 0, t, _, h | [], _ + 1, t, _, h => by cases h; rfl
  | p :: l, k, t, hk, h => by
    have hpos := length_pos_iff.2 (putStone_ne_nil p)
    rw [flatMap_cons, length_append] at hk
    obtain ⟨k, rfl⟩ := Nat.exists_eq_succ_of_ne_zero (show k ≠ 0 by omega)
    rw [foldlM_cons] at h
    obtain ⟨t1, ht1, h⟩ := bind_eq_ok h
    rw [flatMap_cons, decodeLoop, if_neg (by rw [length_append]; omega), reads_stone p]
    simp only [ht1]
    exact decodeLoop_putStone (by omega) h

theorem rtakeWhile_eq_filter (h : Canonical ivs) (beforeT : I64) :
    (ivs.rtakeWhile fun iv => !iv.maxt.slt beforeT) =
      ivs.filter fun iv => beforeT.toInt ≤ iv.maxt.toInt := by
  induction ivs using List.reverseRecOn with
  | nil => rfl
  | append_singleton ivs n ih =>
    rw [rtakeWhile_concat]
    split_ifs with hn <;> simp only [Bool.not_eq_true', slt_eq_false] at hn
    · simp [filter_append, ih h.left, hn]
    · -- what comes before ends before
      have hproper : n.mint.toInt ≤ n.maxt.toInt := h.proper n (by simp)
      refine (filter_eq_nil_iff.2 fun i hi => ?_).symm
      rw [decide_eq_true_eq]
      rcases mem_append.1 hi with hi | hi
      · have := (pairwise_append.1 h.apart).2.2 i hi n mem_cons_self
        omega
      · rwa [mem_singleton.1 hi]

/-- **The file of tombstones** has the map, in whatever order its series were visited, and a
truncation leaves the intervals that end at `beforeT` or later. -/
theorem decode_encode (h : ∀ ref, Canonical (t ref)) (hnodup : refs.Nodup)
    (hrefs : ∀ ref, ref ∈ refs ↔ t ref ≠ []) :
    decode (encode refs t) = .ok t ∧ ∀ beforeT ref, truncateBefore t beforeT ref =
      (t ref).filter fun iv => beforeT.toInt ≤ iv.maxt.toInt := by
  refine ⟨?_, fun beforeT ref => rtakeWhile_eq_filter (h ref) beforeT⟩
  have hadd := addSeries (s := fun _ => []) h hnodup fun _ _ => rfl
  have ht : (fun ref => if ref ∈ refs then t ref else []) = t := funext fun ref => by
    rw [ite_eq_left_iff, hrefs, not_not]
    exact Eq.symm
  rw [encode, ← flatMap_assoc, putByte, singleton_append, decode, if_neg (not_not.2 rfl)]
  exact decodeLoop_putStone le_rfl (by rw [hadd, ht])

/-- A series whose intervals begin and end with time. -/
theorem decode_encode_ends :
    let t : MemTombstones := update (fun _ => []) 7 [⟨minInt64, 0⟩, ⟨5, maxInt64⟩]
    decode (encode [7] t) = .ok t :=
  (decode_encode (fun ref => by
    by_cases hr : ref = 7
    · rw [hr, update_self]
      exact ⟨by decide, by unfold Proper; decide⟩
    · rw [update_of_ne hr]
      exact canonical_nil) (nodup_singleton 7) fun ref => by
    by_cases hr : ref = 7 <;> simp [update_apply, hr]).1

end TopcDB.Tsdb.Tombstones
