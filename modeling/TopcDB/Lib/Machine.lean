import Mathlib.Data.List.Induction
import Mathlib.Order.WellFounded

/-! # Runs of machines whose steps may fault

A step of the machine either faults, which ends the run, or gives the next state and perhaps an
error, after which the run goes on. An invariant of a run may speak of the whole history of its
inputs (`run_invariant`), and of its outputs and a history of its own (`run_history`). -/

namespace TopcDB.Lib.Machine

variable {σ ι ε ω : Type} {step : σ → ι → Except ε (σ × Option ω)}

/-- A run: the state at its end, and the errors on the way. -/
def run (step : σ → ι → Except ε (σ × Option ω)) : σ → List ι → Except ε (σ × List ω)
  | s, [] => .ok (s, [])
  | s, i :: is =>
    match step s i with
    | .error fault => .error fault
    | .ok (s, e) => (run step s is).map fun p => (p.1, e.toList ++ p.2)

@[simp] theorem run_nil (s : σ) : run step s [] = .ok (s, []) := rfl

theorem run_cons {s s' : σ} {i : ι} {e : Option ω} (h : step s i = .ok (s', e)) (is : List ι) :
    run step s (i :: is) = (run step s' is).map fun p => (p.1, e.toList ++ p.2) := by
  rw [run, h]

variable {is : List ι}

theorem run_cons_eq_ok {s s' : σ} {i : ι} {es : List ω}
    (h : run step s (i :: is) = .ok (s', es)) : ∃ s1 e es1, step s i = .ok (s1, e) ∧
      run step s1 is = .ok (s', es1) ∧ es = e.toList ++ es1 := by
  rw [run] at h
  rcases hi : step s i with fault | ⟨s1, e⟩ <;> rw [hi] at h
  · cases h
  · rcases hr : run step s1 is with fault | ⟨s2, es1⟩ <;> simp only [hr] at h <;> cases h
    exact ⟨s1, e, es1, rfl, hr, rfl⟩

theorem run_append : ∀ {is : List ι} {s s' : σ} {es : List ω}, run step s is = .ok (s', es) →
    ∀ js, run step s (is ++ js) = (run step s' js).map fun p => (p.1, es ++ p.2)
  | [], s, s', es, h, js => by
    cases h
    cases hr : run step s js <;> simp [hr, Except.map]
  | i :: is, s, s', es, h, js => by
    obtain ⟨s1, e, es1, hi, hr, rfl⟩ := run_cons_eq_ok h
    rw [List.cons_append, run_cons hi, run_append hr]
    cases run step s' js <;> simp [Except.map]

theorem run_concat {s s' s'' : σ} {es : List ω} {i : ι} {e : Option ω}
    (h : run step s is = .ok (s', es)) (hi : step s' i = .ok (s'', e)) :
    run step s (is ++ [i]) = .ok (s'', es ++ e.toList) := by
  rw [run_append h, run_cons hi]; simp [Except.map]

variable (Inv : List ι → σ → Prop)

/-- **The invariant rule.** `Inv` relates the state to the inputs so far; every step keeps it
without an error while the inputs are admissible. -/
theorem run_invariant (Adm : List ι → Prop) (hadm : ∀ is i, Adm (is ++ [i]) → Adm is)
    (hstep : ∀ is i s, Adm (is ++ [i]) → Inv is s →
      ∃ s', step s i = .ok (s', none) ∧ Inv (is ++ [i]) s')
    {s : σ} (h0 : Inv [] s) (h : Adm is) :
    ∃ s', run step s is = .ok (s', []) ∧ Inv is s' := by
  induction is using List.reverseRecOn with
  | nil => exact ⟨s, rfl, h0⟩
  | append_singleton is i ih =>
    obtain ⟨s1, hr, h1⟩ := ih (hadm is i h)
    obtain ⟨s2, hs, h2⟩ := hstep is i s1 h h1
    exact ⟨s2, run_concat hr hs, h2⟩

/-- **The invariant rule with a history** that every step extends. -/
theorem run_history {γ : Type} (Inv : List ι → List ω → γ → σ → Prop) (R : γ → γ → Prop)
    (Adm : ι → Prop) (hrefl : ∀ g, R g g) (htrans : ∀ g g' g'', R g g' → R g' g'' → R g g'')
    (hstep : ∀ is es g s i, Adm i → Inv is es g s → ∃ s' e g', step s i = .ok (s', e) ∧
      Inv (is ++ [i]) (es ++ e.toList) g' s' ∧ R g g') :
    ∀ (js : List ι) {is : List ι} {es : List ω} {g : γ} {s : σ}, (∀ j ∈ js, Adm j) → Inv is es g s →
    ∃ s' es' g', run step s js = .ok (s', es') ∧ Inv (is ++ js) (es ++ es') g' s' ∧ R g g'
  | [], is, es, g, s, _, h => ⟨s, [], g, rfl, by simpa using h, hrefl g⟩
  | j :: js, is, es, g, s, hadm, h => by
    rw [List.forall_mem_cons] at hadm
    obtain ⟨s1, e, g1, hs, h1, hr1⟩ := hstep is es g s j hadm.1 h
    obtain ⟨s2, es', g2, hrun, h2, hr2⟩ :=
      run_history Inv R Adm hrefl htrans hstep js hadm.2 h1
    refine ⟨s2, e.toList ++ es', g2, ?_, ?_, htrans g g1 g2 hr1 hr2⟩
    · rw [run_cons hs, hrun]; rfl
    · simpa using h2

/-- A property of the state and the input holds at every step of a run. -/
def Along (step : σ → ι → Except ε (σ × Option ω)) (P : σ → ι → Prop) : σ → List ι → Prop
  | _, [] => True
  | s, i :: is => P s i ∧ ∀ s' e, step s i = .ok (s', e) → Along step P s' is

variable {P Q : σ → ι → Prop} {Inv Done : σ → Prop}

/-- **The invariant rule for guarded runs that may fault**: it speaks of the runs that come to their
end. -/
theorem run_keeps_along (hstep : ∀ s i s' e, Inv s → P s i → step s i = .ok (s', e) → Inv s') :
    ∀ {is : List ι} {s s' : σ} {es : List ω}, Inv s → Along step P s is →
    run step s is = .ok (s', es) → Inv s'
  | [], s, s', es, h, _, hr => by
    cases hr
    exact h
  | i :: is, s, s', es, h, hp, hr => by
    obtain ⟨s1, e, es1, hi, hr1, -⟩ := run_cons_eq_ok hr
    exact run_keeps_along hstep (hstep s i s1 e h hp.1 hi) (hp.2 s1 e hi) hr1

/-- **The progress rule**: a machine that can always come closer to its end can be brought there. -/
theorem exists_run_of_progress {α : Type} [Preorder α] [WellFoundedLT α] (μ : σ → α)
    (hprogress : ∀ s, Inv s → ¬ Done s → ∃ i s', step s i = .ok (s', none) ∧ Inv s' ∧ μ s' < μ s)
    (s : σ) (h : Inv s) : ∃ is s', run step s is = .ok (s', []) ∧ Done s' := by
  induction hm : μ s using WellFoundedLT.induction generalizing s with
  | ind m ih =>
    subst hm
    by_cases hdone : Done s
    · exact ⟨[], s, rfl, hdone⟩
    · obtain ⟨i, s', hi, h', hlt⟩ := hprogress s h hdone
      obtain ⟨is, s'', hrun, hdone'⟩ := ih (μ s') hlt s' h' rfl
      exact ⟨i :: is, s'', by rw [run_cons hi, hrun]; rfl, hdone'⟩

/-- Two properties of steps that are the same under an invariant, which the first one keeps, hold
along the same runs. -/
theorem along_iff (hiff : ∀ s i, Inv s → (P s i ↔ Q s i))
    (hstep : ∀ s i s' e, Inv s → P s i → step s i = .ok (s', e) → Inv s') :
    ∀ {is : List ι} {s : σ}, Inv s → (Along step P s is ↔ Along step Q s is)
  | [], _, _ => Iff.rfl
  | i :: is, s, h => by
    rw [Along, Along, ← hiff s i h]
    refine and_congr_right fun hp => forall_congr' fun s' => forall_congr' fun e =>
      imp_congr_right fun hs => along_iff hiff hstep (hstep s i s' e h hp hs)

/-- `Along` for a property that can be decided, as a check of the run. -/
def alongCheck (step : σ → ι → Except ε (σ × Option ω)) (P : σ → ι → Prop)
    [∀ s i, Decidable (P s i)] : σ → List ι → Bool
  | _, [] => true
  | s, i :: is => decide (P s i) &&
    match step s i with
    | .error _ => true
    | .ok (s', _) => alongCheck step P s' is

theorem along_of_check [∀ s i, Decidable (P s i)] :
    ∀ {is : List ι} {s : σ}, alongCheck step P s is = true → Along step P s is
  | [], _, _ => trivial
  | i :: is, s, h => by
    rw [alongCheck, Bool.and_eq_true, decide_eq_true_iff] at h
    refine ⟨h.1, fun s' e hs => along_of_check ?_⟩
    simpa only [hs] using h.2

/-! ### Steps that neither fault nor err -/

def total (step : σ → ι → σ) (s : σ) (i : ι) : Except Empty (σ × Option Empty) :=
  .ok (step s i, none)

theorem foldl_keeps_along {step : σ → ι → σ} (hstep : ∀ s i, Inv s → P s i → Inv (step s i)) :
    ∀ {is : List ι} {s : σ}, Inv s → Along (total step) P s is → Inv (is.foldl step s)
  | [], _, h, _ => h
  | i :: is, s, h, hp => by
    rw [List.foldl_cons]
    exact foldl_keeps_along hstep (hstep s i h hp.1) (hp.2 (step s i) none rfl)

/-! ### Callers that see the answers -/

variable {τ κ α : Type}

/-- A caller chooses each call, or stops, from the answers so far; `play` gives the answers of at
most `n` calls. -/
def play (ask : σ → κ → Except ε (α × σ)) (caller : List α → Option κ) :
    ℕ → List α → σ → Except ε (List α)
  | 0, seen, _ => .ok seen
  | n + 1, seen, s =>
    match caller seen with
    | none => .ok seen
    | some k =>
      match ask s k with
      | .error fault => .error fault
      | .ok (a, s) => play ask caller n (seen ++ [a]) s

/-- **The simulation rule**: two machines that answer every call alike in related states, with
answers in `P`, give every caller the same answers. -/
theorem play_simulates (ask : σ → κ → Except ε (α × σ)) (ask' : τ → κ → Except ε (α × τ))
    (R : σ → τ → Prop) (P : α → Prop) (hask : ∀ s t k, R s t →
      ∃ a s' t', ask s k = .ok (a, s') ∧ ask' t k = .ok (a, t') ∧ R s' t' ∧ P a)
    (caller : List α → Option κ) : ∀ (n : ℕ) (seen : List α) {s : σ} {t : τ}, R s t →
    (∀ a ∈ seen, P a) →
    ∃ all, play ask caller n seen s = .ok all ∧ play ask' caller n seen t = .ok all ∧
      ∀ a ∈ all, P a
  | 0, seen, _, _, _, hp => ⟨seen, rfl, rfl, hp⟩
  | n + 1, seen, s, t, h, hp => by
    rw [play, play]
    cases caller seen with
    | none => exact ⟨seen, rfl, rfl, hp⟩
    | some k =>
      obtain ⟨a, s', t', hs, ht, h', ha⟩ := hask s t k h
      simp only [hs, ht]
      refine play_simulates ask ask' R P hask caller n _ h' fun b hb => ?_
      rcases List.mem_append.1 hb with hb | hb
      · exact hp b hb
      · exact List.mem_singleton.1 hb ▸ ha

end TopcDB.Lib.Machine
