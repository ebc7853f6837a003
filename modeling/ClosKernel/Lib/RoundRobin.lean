import ClosKernel.Lib.PartialRun

/-!
# Serving the slots of a ring in turn

A cursor goes round a ring of `n` slots.  In a round it moves on to the first slot that is ready and serves it, and
the next round starts behind that slot.  Between the rounds anything may happen that leaves the cursor alone: slots
become ready, and stop being ready.

* `ahead` — how far a slot is from the cursor;
* `FirstReady.ahead_next_lt` — a round that serves another slot brings the cursor nearer to a ready one;
* `mem_served` — **fairness**: a slot that is ready in each of `n` rounds is served in one of them.
-/

namespace RoundRobin

open PartialRun

/-- The slot after `q`. -/
def next (n q : ℕ) : ℕ := if q + 1 = n then 0 else q + 1

/-- How many slots lie between the cursor `c` and slot `p`. -/
def ahead (n c p : ℕ) : ℕ := if c ≤ p then p - c else p + n - c

theorem ahead_lt {n c p : ℕ} (hc : c < n) (hp : p < n) : ahead n c p < n := by
  unfold ahead
  split <;> omega

theorem next_lt {n q : ℕ} (hq : q < n) : next n q < n := by
  unfold next
  split <;> omega

/-- Slot `q` is the first ready one from `c` on. -/
structure FirstReady (n : ℕ) (ready : ℕ → Prop) (c q : ℕ) : Prop where
  lt : q < n
  isReady : ready q
  first : ∀ p < n, ready p → ahead n c q ≤ ahead n c p

theorem FirstReady.ahead_next_lt {n c p q : ℕ} {ready : ℕ → Prop} (h : FirstReady n ready c q) (hc : c < n)
    (hp : p < n) (hready : ready p) (hne : q ≠ p) : ahead n (next n q) p < ahead n c p := by
  have hfirst := h.first p hp hready
  have hq := h.lt
  unfold ahead next at *
  split_ifs at hfirst ⊢ <;> omega

section Rounds

-- `serves a s` is the slot that action `a` serves in state `s`, if it is a round; `P` is an invariant of the states
variable {σ α : Type*} {step : α → σ → Option σ} {serves : α → σ → Option ℕ} {cursor : σ → ℕ}
  {ready : σ → ℕ → Prop} {P : σ → Prop} {n : ℕ}

/-- The slots served along a run, in order. -/
def served (step : α → σ → Option σ) (serves : α → σ → Option ℕ) : List α → σ → List ℕ :=
  emitted step fun a s => (serves a s).toList

variable (hinv : ∀ a s s', P s → step a s = some s' → P s')
  (hround : ∀ a s s' q, P s → cursor s < n → serves a s = some q → step a s = some s' →
    FirstReady n (ready s) (cursor s) q ∧ cursor s' = next n q)
  (hother : ∀ a s s', P s → serves a s = none → step a s = some s' → cursor s' = cursor s)

include hinv hround hother

/-- A slot that is ready whenever a round is made is served before the cursor has come round. -/
theorem mem_served_of_ahead_lt {as : List α} {s s' : σ} {p : ℕ} (hs : P s) (hc : cursor s < n) (hp : p < n)
    (hmeets : Meets step (fun a s => serves a s ≠ none → ready s p) as s) (hrun : runs step as s = some s')
    (hlong : ahead n (cursor s) p < (served step serves as s).length) : p ∈ served step serves as s := by
  -- the distance from the cursor to `p` bounds the rounds that serve other slots
  induction as generalizing s with
  | nil => exact absurd hlong (Nat.not_lt_zero _)
  | cons a as ih =>
    obtain ⟨m, hm, has⟩ := runs_cons_eq_some.mp hrun
    have hsplit : served step serves (a :: as) s = (serves a s).toList ++ served step serves as m := by
      rw [served, emitted, hm, Option.map_some, Option.getD_some]
    rw [hsplit, List.length_append] at hlong
    rw [hsplit, List.mem_append]
    cases hserves : serves a s with
    | none =>
      have hcursor := hother a s m hs hserves hm
      rw [hserves, Option.toList_none, List.length_nil, Nat.zero_add] at hlong
      exact Or.inr (ih (hinv a s m hs hm) (hcursor ▸ hc) (hmeets.2 m hm) has (hcursor ▸ hlong))
    | some q =>
      obtain ⟨hfirst, hcursor⟩ := hround a s m q hs hc hserves hm
      by_cases hne : q = p
      · exact Or.inl (Option.mem_toList.mpr (hne ▸ rfl))
      · have hnear := hfirst.ahead_next_lt hc hp (hmeets.1 (by rw [hserves]; exact Option.some_ne_none q)) hne
        rw [hserves, Option.toList_some, List.length_singleton] at hlong
        rw [← hcursor] at hnear
        exact Or.inr (ih (hinv a s m hs hm) (hcursor ▸ next_lt hfirst.lt) (hmeets.2 m hm) has (by omega))

/-- **Fairness.**  A slot that is ready in each of `n` rounds is served in one of them. -/
theorem mem_served {as : List α} {s s' : σ} {p : ℕ} (hs : P s) (hc : cursor s < n) (hp : p < n)
    (hmeets : Meets step (fun a s => serves a s ≠ none → ready s p) as s) (hrun : runs step as s = some s')
    (hlong : n ≤ (served step serves as s).length) : p ∈ served step serves as s :=
  mem_served_of_ahead_lt hinv hround hother hs hc hp hmeets hrun (Nat.lt_of_lt_of_le (ahead_lt hc hp) hlong)

end Rounds

end RoundRobin
