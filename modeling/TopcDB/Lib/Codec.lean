import Mathlib.Data.List.Basic

/-! # Readers

A reader takes symbols off the front of a list and returns a value, or fails. It `Reads` a string as
a value when it takes exactly that string, whatever follows; readers in sequence read the strings
one after the other (`Reads.bind`), a reader used a number of times reads a sequence of that length
(`Reads.times`), and one used until the end is reached reads a sequence of any length
(`loop_flatMap`). A decoder that is asked for one value after the other `Gives` a sequence. -/

namespace TopcDB.Lib.Codec

open List

variable {β ε α γ : Type}

abbrev Reader (β ε α : Type) := StateT (List β) (Except ε) α

/-- `d` reads the string `b` as `a`, whatever follows it. -/
def Reads (d : Reader β ε α) (b : List β) (a : α) : Prop :=
  ∀ rest, d (b ++ rest) = .ok (a, rest)

theorem reads_pure (a : α) : Reads (pure a : Reader β ε α) [] a := fun _ => rfl

variable {d : Reader β ε α}

theorem Reads.bind {f : α → Reader β ε γ} {b b' : List β} {a : α} {c : γ} (h : Reads d b a)
    (h' : Reads (f a) b' c) : Reads (d >>= f) (b ++ b') c := by
  intro rest
  show (d (b ++ b' ++ rest) >>= fun p => f p.1 p.2) = _
  rw [append_assoc, h]
  exact h' rest

theorem Reads.ret {b : List β} {a : α} (h : Reads d b a) (f : α → γ) :
    Reads (d >>= fun x => pure (f x)) b (f a) := by
  simpa using h.bind (f := fun x => (pure (f x) : Reader β ε γ)) (reads_pure (f a))

/-! ### A number of times -/

/-- `d` used `n` times. -/
def times (d : Reader β ε α) : (n : ℕ) → Reader β ε {l : List α // l.length = n}
  | 0 => pure ⟨[], rfl⟩
  | n + 1 => do
    let a ← d
    let l ← times d n
    pure ⟨a :: l.1, by rw [length_cons, l.2]⟩

variable {put : α → List β}

theorem Reads.times (h : ∀ a, Reads d (put a) a) :
    ∀ l : List α, Reads (times d l.length) (l.flatMap put) ⟨l, rfl⟩
  | [] => reads_pure _
  | a :: l => by
    rw [flatMap_cons]
    exact (h a).bind ((Reads.times h l).ret fun v =>
      (⟨a :: v.1, by rw [length_cons, v.2, length_cons]⟩ :
        {v : List α // v.length = (a :: l).length}))

theorem Reads.times_of_eq (h : ∀ a, Reads d (put a) a) {n : ℕ} {l : List α} (hn : n = l.length) :
    Reads (Codec.times d n) (l.flatMap put) ⟨l, hn.symm⟩ := by
  subst hn
  exact Reads.times h l

/-! ### To the end -/

/-- `d` used until nothing is left, `fuel` times at most, with the results behind `acc`; an error
comes with their number, the one begun included. -/
def loop (d : Reader β ε α) : ℕ → List α → List β → Except (ℕ × ε) (List α × List β)
  | _, acc, [] => .ok (acc, [])
  | 0, acc, b :: bs => .ok (acc, b :: bs)
  | fuel + 1, acc, b :: bs =>
    match d (b :: bs) with
    | .error e => .error (acc.length + 1, e)
    | .ok (a, rest) => loop d fuel (acc ++ [a]) rest

@[simp] theorem loop_nil (d : Reader β ε α) (fuel : ℕ) (acc : List α) :
    loop d fuel acc [] = .ok (acc, []) := by
  cases fuel <;> rfl

/-- **A sequence is read to its end**, each entry as what the reader makes of it. -/
theorem loop_flatMap {d : Reader β ε γ} {f : α → γ} (h : ∀ a, Reads d (put a) (f a))
    (hne : ∀ a, put a ≠ []) :
    ∀ (l : List α) (fuel : ℕ) (acc : List γ), (l.flatMap put).length ≤ fuel →
      loop d fuel acc (l.flatMap put) = .ok (acc ++ l.map f, [])
  | [], _, _, _ => by simp
  | a :: l, fuel, acc, hf => by
    rw [flatMap_cons, length_append] at hf
    obtain ⟨b, bs, hb⟩ := exists_cons_of_ne_nil (hne a)
    have hpos : 0 < (put a).length := length_pos_of_ne_nil (hne a)
    obtain ⟨fuel, rfl⟩ : ∃ n, fuel = n + 1 := ⟨fuel - 1, by omega⟩
    have hread := h a (l.flatMap put)
    rw [flatMap_cons, hb, cons_append, loop]
    rw [hb, cons_append] at hread
    rw [hread]
    show loop d fuel (acc ++ [f a]) (l.flatMap put) = _
    rw [loop_flatMap h hne l fuel (acc ++ [f a]) (by omega)]
    simp

/-! ### One value after the other -/

/-- The decoder gives the values of a list, one `read` after every `next`, and then has no more. -/
def Gives {σ : Type} (next : σ → Bool × σ) (read : σ → α × σ) : List α → σ → Prop
  | [], d => (next d).1 = false
  | a :: l, d => (next d).1 = true ∧ (read (next d).2).1 = a ∧ Gives next read l (read (next d).2).2

theorem gives_of_step {σ : Type} {next : σ → Bool × σ} {read : σ → α × σ} {P : σ → List α → Prop}
    (hnil : ∀ {d}, P d [] → (next d).1 = false)
    (hcons : ∀ {d a l}, P d (a :: l) → ∃ d1 d2, next d = (true, d1) ∧ read d1 = (a, d2) ∧ P d2 l) :
    ∀ (l : List α) {d : σ}, P d l → Gives next read l d
  | [], _, h => hnil h
  | a :: l, d, h => by
    obtain ⟨d1, d2, h1, h2, h'⟩ := hcons h
    rw [Gives, h1, h2]
    exact ⟨rfl, rfl, gives_of_step hnil hcons l h'⟩

/-! ### What readers return -/

/-- Every value that `d` returns satisfies `p`. -/
def Always (d : Reader β ε α) (p : α → Prop) : Prop := ∀ b a rest, d b = .ok (a, rest) → p a

theorem always_true (d : Reader β ε α) : Always d fun _ => True := fun _ _ _ _ => trivial

variable {p : α → Prop}

theorem always_pure {a : α} (h : p a) : Always (pure a : Reader β ε α) p := by
  rintro b a' rest h'
  cases h'
  exact h

theorem Always.bind {f : α → Reader β ε γ} {q : γ → Prop} (hd : Always d p)
    (hf : ∀ a, p a → Always (f a) q) : Always (d >>= f) q := by
  intro b c rest h
  change (d b >>= fun x => f x.1 x.2) = _ at h
  rcases hb : d b with e | ⟨a, b'⟩
  · rw [hb] at h
    cases h
  · rw [hb] at h
    exact hf a (hd b a b' hb) b' c rest h

theorem Always.loop (h : Always d p) :
    ∀ {fuel : ℕ} {acc : List α} {b : List β} {l : List α} {rest : List β},
      loop d fuel acc b = .ok (l, rest) → (∀ a ∈ acc, p a) → ∀ a ∈ l, p a
  | _, acc, [], l, rest, he, hacc => by
    rw [loop_nil] at he
    cases he
    exact hacc
  | 0, acc, _ :: _, l, rest, he, hacc => by
    cases he
    exact hacc
  | fuel + 1, acc, c :: b, l, rest, he, hacc => by
    rw [Codec.loop] at he
    rcases hd : d (c :: b) with e | ⟨a, b'⟩
    · rw [hd] at he
      cases he
    · rw [hd] at he
      refine Always.loop h he fun x hx => ?_
      rcases mem_append.1 hx with hx | hx
      · exact hacc x hx
      · rw [mem_singleton.1 hx]
        exact h _ _ _ hd

end TopcDB.Lib.Codec
