import Mathlib.Logic.Function.Basic

/-!
# A flag that several parties wait for

A party that waits for a signal clears a flag once, when it begins, and then polls it until it is set; a signal sets
it.  All parties share the flag.  Besides the flag, a `Latch` records who is waiting and whether a signal came since
that party began, which no party can see.

* `Latch.Honest` — a set flag is a signal for everyone who waits; every step keeps this (`step_honest`);
* `Latch.Covered` — a signal that came for somebody is still on the flag.  A party that begins to wait wipes it off, and
  this is the only way to lose it (`step_covered`, `enter_covered_iff`).
-/

structure Latch (ι : Type*) where
  flag : Bool
  /-- Who is waiting, and whether a signal came since. -/
  waiting : ι → Option Bool

inductive LatchEvent (ι : Type*) where
  | enter (i : ι)
  | signal
  | poll (i : ι)

namespace Latch

variable {ι : Type*} [DecidableEq ι]

/-- One event.  A poll that finds the flag set ends the wait, any other poll does nothing. -/
def step : LatchEvent ι → Latch ι → Option (Latch ι)
  | .enter i, s =>
    if s.waiting i = none then some ⟨false, Function.update s.waiting i (some false)⟩ else none
  | .signal, s => some ⟨true, fun i => (s.waiting i).map fun _ => true⟩
  | .poll i, s =>
    if s.waiting i = none then none
    else if s.flag then some { s with waiting := Function.update s.waiting i none }
    else some s

/-- Everyone who sees the flag set has had a signal. -/
def Honest (s : Latch ι) : Prop := s.flag = true → ∀ i, s.waiting i ≠ some false

/-- Everyone who has had a signal sees the flag set. -/
def Covered (s : Latch ι) : Prop := ∀ i, s.waiting i = some true → s.flag = true

variable {s s' : Latch ι} {e : LatchEvent ι} {i : ι}

theorem enter_eq (h : step (.enter i) s = some s') :
    s.waiting i = none ∧ s' = ⟨false, Function.update s.waiting i (some false)⟩ := by
  rw [step] at h
  split at h
  · rename_i hout
    exact ⟨hout, (Option.some_inj.mp h).symm⟩
  · cases h

/-- A poll changes nothing for the others. -/
theorem poll_eq (h : step (.poll i) s = some s') :
    s'.flag = s.flag ∧ ∀ j, s'.waiting j = s.waiting j ∨ j = i ∧ s'.waiting j = none := by
  rw [step] at h
  split at h
  · cases h
  split at h
  · obtain rfl := Option.some_inj.mp h
    refine ⟨rfl, fun j => ?_⟩
    by_cases hj : j = i
    · exact Or.inr ⟨hj, by rw [hj]; exact Function.update_self ..⟩
    · exact Or.inl (Function.update_of_ne hj _ _)
  · obtain rfl := Option.some_inj.mp h
    exact ⟨rfl, fun j => Or.inl rfl⟩

/-- **No false alarm**, whatever the order of the events. -/
theorem step_honest (hs : s.Honest) (h : step e s = some s') : s'.Honest := by
  cases e with
  | enter i =>
    obtain ⟨-, rfl⟩ := enter_eq h
    intro hflag
    cases hflag
  | signal =>
    obtain rfl := Option.some_inj.mp h
    intro _ j hj
    obtain ⟨b, -, hb⟩ := Option.map_eq_some_iff.mp hj
    cases hb
  | poll i =>
    obtain ⟨hflag, hwaiting⟩ := poll_eq h
    intro hset j
    rcases hwaiting j with heq | ⟨-, heq⟩
    · rw [heq]
      exact hs (hflag ▸ hset) j
    · rw [heq]
      simp

/-- **When a signal is lost**: if and only if somebody begins to wait while another has had one. -/
theorem enter_covered_iff (h : step (.enter i) s = some s') :
    s'.Covered ↔ ∀ j, s.waiting j ≠ some true := by
  obtain ⟨hout, rfl⟩ := enter_eq h
  constructor
  · intro hcovered j hj
    have hne : j ≠ i := by
      rintro rfl
      rw [hout] at hj
      cases hj
    have hset := hcovered j ((Function.update_of_ne hne _ _).trans hj)
    cases hset
  · intro hnone j hj
    by_cases hji : j = i
    · rw [hji] at hj
      have hfalse := (Function.update_self i (some false) s.waiting).symm.trans hj
      cases hfalse
    · exact absurd ((Function.update_of_ne hji _ _).symm.trans hj) (hnone j)

/-- No other event loses a signal. -/
theorem step_covered (hs : s.Covered) (hguard : ∀ i, e = .enter i → ∀ j, s.waiting j ≠ some true)
    (h : step e s = some s') : s'.Covered := by
  cases e with
  | enter i => exact (enter_covered_iff h).mpr (hguard i rfl)
  | signal =>
    obtain rfl := Option.some_inj.mp h
    exact fun _ _ => rfl
  | poll i =>
    obtain ⟨hflag, hwaiting⟩ := poll_eq h
    intro j hj
    rcases hwaiting j with heq | ⟨-, heq⟩
    · exact hflag ▸ hs j (heq ▸ hj)
    · rw [heq] at hj
      cases hj

end Latch
