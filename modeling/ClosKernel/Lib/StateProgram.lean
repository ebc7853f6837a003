import Mathlib.Data.Nat.Notation
import Mathlib.Logic.Basic

/-!
# Programs over a state, and what they ensure

A program takes a state to a value and a new state, or never comes back (`none`).  Programs are put together with the
`do` notation of `StateT`; a `while` loop is `loop`, which goes round as long as its body asks for another round and
which is given a number of rounds it may take.

* `Ensures` — **total correctness**: from this state the program ends, and its result is as stated;
* `Ensures.bind`, `Ensures.pure`, `Ensures.lift`, `Ensures.mono` — the rules for sequences, values and weaker
  statements;
* `Ensures.loop` — **the loop rule**: an invariant with a bound on the rounds left, which every round lowers;
* `rounds`, `Ensures.rounds` — the beginning of a loop that need not end;
* `forEach`, `Ensures.forEach` — counted loops, which need no measure.
-/

namespace StateProgram

variable {σ α β : Type}

/-- A program over the state `σ` that returns an `α`. -/
abbrev Prog (σ α : Type) := StateT σ Option α

/-- From `s` the program ends, and `Q` holds of the value and of the state it ends in. -/
def Ensures (p : Prog σ α) (s : σ) (Q : α → σ → Prop) : Prop := ∃ a s', p.run s = some (a, s') ∧ Q a s'

namespace Ensures

variable {p : Prog σ α} {s : σ} {a : α} {Q Q' : α → σ → Prop}

theorem of_run (a : α) (s' : σ) (h : p.run s = some (a, s')) (hQ : Q a s') : Ensures p s Q := ⟨a, s', h, hQ⟩

theorem mono (h : Ensures p s Q) (hQ : ∀ a s', Q a s' → Q' a s') : Ensures p s Q' := by
  obtain ⟨a, s', hrun, hpost⟩ := h
  exact ⟨a, s', hrun, hQ a s' hpost⟩

theorem pure (h : Q a s) : Ensures (Pure.pure a : Prog σ α) s Q := ⟨a, s, rfl, h⟩

/-- A value that is computed without the state. -/
theorem lift {o : Option α} (h : o = some a) :
    Ensures (StateT.lift o : Prog σ α) s fun a' s' => a' = a ∧ s' = s := by
  subst h
  exact ⟨a, s, rfl, rfl, rfl⟩

/-- **Sequences**: the rest of the program starts where the first part ends. -/
theorem bind {f : α → Prog σ β} {R : β → σ → Prop} (h : Ensures p s Q)
    (hf : ∀ a s', Q a s' → Ensures (f a) s' R) : Ensures (p >>= f) s R := by
  obtain ⟨a, s', hrun, hpost⟩ := h
  obtain ⟨b, s'', hrest, hR⟩ := hf a s' hpost
  refine ⟨b, s'', ?_, hR⟩
  rw [StateT.run_bind, hrun]
  exact hrest

end Ensures

/-! ### Loops -/

/-- `while`: the body starts from `b`, and either asks for another round from a new `b` or ends the loop. -/
def loop (body : β → Prog σ (β ⊕ α)) : ℕ → β → Prog σ α
  | 0, _ => fun _ => none
  | fuel + 1, b => body b >>= fun
    | .inl b' => loop body fuel b'
    | .inr a => pure a

/-- What one round of a loop has to ensure: `I` if there is to be another one, and `Q` of the result. -/
def Round (I : β → σ → Prop) (Q : α → σ → Prop) : β ⊕ α → σ → Prop
  | .inl b, s => I b s
  | .inr a, s => Q a s

/-- **The loop rule.**  The invariant bounds the rounds that are left, and every further round lowers the bound. -/
theorem Ensures.loop {body : β → Prog σ (β ⊕ α)} {I : ℕ → β → σ → Prop} {Q : α → σ → Prop}
    (hbody : ∀ n b s, I n b s → Ensures (body b) s (Round (fun b s => ∃ m < n, I m b s) Q)) {n fuel : ℕ} {b : β}
    {s : σ} (hI : I n b s) (hfuel : n < fuel) : Ensures (StateProgram.loop body fuel b) s Q := by
  induction fuel generalizing n b s with
  | zero => exact absurd hfuel (Nat.not_lt_zero _)
  | succ fuel ih =>
    rw [StateProgram.loop]
    refine (hbody n b s hI).bind fun r s' hr => ?_
    cases r with
    | inl b' =>
      obtain ⟨m, hm, hI'⟩ := hr
      exact ih hI' (by omega)
    | inr a => exact .pure hr

/-- The first `n` rounds of a loop that may go on for ever. -/
def rounds (body : β → Prog σ (β ⊕ α)) : ℕ → β → Prog σ (β ⊕ α)
  | 0, b => pure (.inl b)
  | n + 1, b => body b >>= fun
    | .inl b' => rounds body n b'
    | .inr a => pure (.inr a)

/-- **Loops without end**: the invariant counts the rounds that are over. -/
theorem Ensures.rounds {body : β → Prog σ (β ⊕ α)} {I : ℕ → β → σ → Prop} {Q : α → σ → Prop}
    (hbody : ∀ i b s, I i b s → Ensures (body b) s (Round (I (i + 1)) Q)) {i : ℕ} {b : β} {s : σ} (hI : I i b s)
    (n : ℕ) : Ensures (StateProgram.rounds body n b) s (Round (I (i + n)) Q) := by
  induction n generalizing i b s with
  | zero => exact .pure hI
  | succ n ih =>
    rw [StateProgram.rounds]
    refine (hbody i b s hI).bind fun r s' hr => ?_
    cases r with
    | inl b' =>
      rw [Nat.add_comm n 1, ← Nat.add_assoc]
      exact ih hr
    | inr a => exact .pure hr

/-- `for (i = start; i < start + n; i++)`, with what the loop carries from round to round. -/
def forEach (body : ℕ → β → Prog σ β) : ℕ → ℕ → β → Prog σ β
  | 0, _, b => pure b
  | n + 1, i, b => body i b >>= forEach body n (i + 1)

/-- **Counted loops**: the invariant may speak of the rounds that are over. -/
theorem Ensures.forEach {body : ℕ → β → Prog σ β} {I : ℕ → β → σ → Prop} {stop : ℕ}
    (hbody : ∀ i b s, i < stop → I i b s → Ensures (body i b) s (I (i + 1))) {n i : ℕ} (hstop : i + n = stop) {b : β}
    {s : σ} (hI : I i b s) : Ensures (StateProgram.forEach body n i b) s (I stop) := by
  induction n generalizing i b s with
  | zero =>
    rw [Nat.add_zero] at hstop
    exact .pure (hstop ▸ hI)
  | succ n ih =>
    rw [StateProgram.forEach]
    refine (hbody i b s (by omega) hI).bind fun b' s' hI' => ?_
    exact ih (by omega) hI'

end StateProgram
