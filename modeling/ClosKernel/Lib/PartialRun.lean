import Mathlib.Data.List.Basic
import Mathlib.Logic.Function.Basic

/-!
# Runs of a partial step function, and counted loops

A system is given by `step : α → σ → Option σ`: the action `a` taken in state `s` either leads to a next
state or never comes back (`none`).  This file provides, for arbitrary actions and states:

* `runs` — the state after a finite list of actions; `runs_append`, `runs_map` — cutting a run in two, and forgetting
  part of the state;
* `runs_invariant` — **the invariant rule**: what one step preserves holds along every run;
* `Meets` / `runs_invariant_of_meets` — the same rule for runs whose steps all satisfy a guard on the
  action and the state before it; `runs_refine_of_meets` — **the refinement rule** for such runs; `beginnings_iff_meets`
  — when every beginning of a run ends in a good state;
* `emitted` / `runs_simulation_of_meets`, `runs_simulation` — **the simulation rule**: a run is matched by the
  abstract run over the events its steps emit; `forall_mem_emitted_iff_meets` — what holds of all these events;
* `react` / `foldl_react_apply` — **independence**: in a family of components a component sees only the events
  addressed to it; `collect` gathers them along a run;
* `upto` / `upto_invariant` — the counted loop `for (i = 0; i < n; i++)` and its invariant rule; `uptoEmitted` /
  `upto_simulation` — the same with the events of its rounds;
* `upto_update`, `upto_row` — loops over the elements of an array and over one row of a matrix.
-/

namespace PartialRun

variable {σ α : Type*}

/-! ### Runs -/

/-- The state after the actions `as`, taken in order from `s`. -/
def runs (step : α → σ → Option σ) : List α → σ → Option σ
  | [], s => some s
  | a :: as, s => (step a s).bind (runs step as)

theorem runs_cons_eq_some {step : α → σ → Option σ} {a : α} {as : List α} {s s' : σ} :
    runs step (a :: as) s = some s' ↔ ∃ m, step a s = some m ∧ runs step as m = some s' := by
  rw [runs, Option.bind_eq_some_iff]

theorem runs_append (step : α → σ → Option σ) (as bs : List α) (s : σ) :
    runs step (as ++ bs) s = (runs step as s).bind (runs step bs) := by
  induction as generalizing s with
  | nil => rfl
  | cons a as ih =>
    simp only [List.cons_append, runs]
    cases h : step a s with
    | none => rfl
    | some m => exact ih m

/-- **The invariant rule.**  A property that every returning step preserves holds after every run. -/
theorem runs_invariant {step : α → σ → Option σ} {P : σ → Prop}
    (hstep : ∀ a s s', P s → step a s = some s' → P s') {as : List α} {s s' : σ}
    (hs : P s) (hrun : runs step as s = some s') : P s' := by
  induction as generalizing s with
  | nil =>
    rw [runs, Option.some_inj] at hrun
    exact hrun ▸ hs
  | cons a as ih =>
    obtain ⟨m, ha, has⟩ := runs_cons_eq_some.mp hrun
    exact ih (hstep a s m hs ha) has

/-- Forgetting part of the state: if every step of `step` is one of `step'` on what is left, so is every run. -/
theorem runs_map {τ : Type*} {step : α → σ → Option σ} {step' : α → τ → Option τ} {f : σ → τ}
    (h : ∀ a s, (step a s).map f = step' a (f s)) (as : List α) (s : σ) :
    (runs step as s).map f = runs step' as (f s) := by
  induction as generalizing s with
  | nil => rfl
  | cons a as ih =>
    rw [runs, runs, ← h a s]
    cases step a s with
    | none => rfl
    | some m => exact ih m

/-! ### Runs whose steps meet a guard -/

/-- Every step of the run of `as` from `s` is taken in a state where the guard `G` allows it. -/
def Meets (step : α → σ → Option σ) (G : α → σ → Prop) : List α → σ → Prop
  | [], _ => True
  | a :: as, s => G a s ∧ ∀ m, step a s = some m → Meets step G as m

instance decidableForallEqSome {x : Option σ} {P : σ → Prop} [DecidablePred P] :
    Decidable (∀ m, x = some m → P m) :=
  match x with
  | none => isTrue fun _ h => by cases h
  | some m => decidable_of_iff (P m) ⟨fun h _ hm => Option.some_inj.mp hm ▸ h, fun h => h m rfl⟩

/-- Whether a run is guarded can be tested along it. -/
instance Meets.decidable {step : α → σ → Option σ} {G : α → σ → Prop} [∀ a s, Decidable (G a s)] :
    ∀ as s, Decidable (Meets step G as s)
  | [], _ => isTrue trivial
  | a :: as, s =>
    have : DecidablePred (Meets step G as) := Meets.decidable as
    inferInstanceAs (Decidable (G a s ∧ ∀ m, step a s = some m → Meets step G as m))

/-- A run that meets a guard meets every other one that follows from it under an invariant. -/
theorem Meets.mono_of_invariant {step : α → σ → Option σ} {G G' : α → σ → Prop} {P : σ → Prop}
    (hstep : ∀ a s s', G a s → P s → step a s = some s' → P s') (hG : ∀ a s, G a s → P s → G' a s) {as : List α}
    {s : σ} (h : Meets step G as s) (hs : P s) : Meets step G' as s := by
  induction as generalizing s with
  | nil => trivial
  | cons a as ih => exact ⟨hG a s h.1 hs, fun m hm => ih (h.2 m hm) (hstep a s m h.1 hs hm)⟩

/-- A run that meets a guard meets every weaker one. -/
theorem Meets.mono {step : α → σ → Option σ} {G G' : α → σ → Prop} (hG : ∀ a s, G a s → G' a s) {as : List α}
    {s : σ} (h : Meets step G as s) : Meets step G' as s :=
  h.mono_of_invariant (P := fun _ => True) (fun _ _ _ _ _ _ => trivial) (fun a s ha _ => hG a s ha) trivial

/-- Guards that agree in the states of an invariant allow the same runs. -/
theorem meets_congr_of_invariant {step : α → σ → Option σ} {G G' : α → σ → Prop} {P : σ → Prop}
    (hstep : ∀ a s s', P s → step a s = some s' → P s') (hG : ∀ a s, P s → (G a s ↔ G' a s)) {as : List α} {s : σ}
    (hs : P s) : Meets step G as s ↔ Meets step G' as s := by
  induction as generalizing s with
  | nil => exact Iff.rfl
  | cons a as ih => exact and_congr (hG a s hs) (forall₂_congr fun m hm => ih (hstep a s m hs hm))

/-- The invariant rule for guarded runs: a step need only preserve the property where the guard holds. -/
theorem runs_invariant_of_meets {step : α → σ → Option σ} {G : α → σ → Prop} {P : σ → Prop}
    (hstep : ∀ a s s', G a s → P s → step a s = some s' → P s') {as : List α} {s s' : σ}
    (hmeets : Meets step G as s) (hs : P s) (hrun : runs step as s = some s') : P s' := by
  induction as generalizing s with
  | nil =>
    rw [runs, Option.some_inj] at hrun
    exact hrun ▸ hs
  | cons a as ih =>
    obtain ⟨m, ha, has⟩ := runs_cons_eq_some.mp hrun
    exact ih (hmeets.2 m ha) (hstep a s m hmeets.1 hs ha) has

/-- **The refinement rule for guarded runs.**  If the steps that the guard allows are steps of another machine, so are
the runs, and the other machine meets the same guard. -/
theorem runs_refine_of_meets {step step' : α → σ → Option σ} {G : α → σ → Prop}
    (hstep : ∀ a s s', G a s → step a s = some s' → step' a s = some s') {as : List α} {s s' : σ}
    (hmeets : Meets step G as s) (hrun : runs step as s = some s') :
    Meets step' G as s ∧ runs step' as s = some s' := by
  induction as generalizing s with
  | nil => exact ⟨trivial, hrun⟩
  | cons a as ih =>
    obtain ⟨m, ha, has⟩ := runs_cons_eq_some.mp hrun
    have ha' := hstep a s m hmeets.1 ha
    obtain ⟨hguard, hrest⟩ := ih (hmeets.2 m ha) has
    refine ⟨⟨hmeets.1, fun m' hm' => ?_⟩, runs_cons_eq_some.mpr ⟨m, ha', hrest⟩⟩
    rw [ha', Option.some_inj] at hm'
    exact hm' ▸ hguard

/-- **The rule for every beginning of a run.**  If the states of an invariant are good, an allowed step keeps the
invariant, and any other step leads to a state that is not good, then all beginnings of a run end in good states just if
every step is allowed. -/
theorem beginnings_iff_meets {step : α → σ → Option σ} {G : α → σ → Prop} {P Q : σ → Prop} (hgood : ∀ s, P s → Q s)
    (hkeep : ∀ a s, P s → G a s → ∃ s', step a s = some s' ∧ P s')
    (hbreak : ∀ a s, P s → ¬G a s → ∃ s', step a s = some s' ∧ ¬Q s') {as : List α} {s : σ} (hs : P s) :
    (∀ n ≤ as.length, ∃ s', runs step (as.take n) s = some s' ∧ Q s') ↔ Meets step G as s := by
  induction as generalizing s with
  | nil =>
    refine iff_of_true (fun n hn => ⟨s, ?_, hgood s hs⟩) trivial
    rw [List.take_nil]
    rfl
  | cons a as ih =>
    constructor
    · intro hall
      have hallowed : G a s := by
        by_contra hnot
        obtain ⟨m, hm, hbad⟩ := hbreak a s hs hnot
        obtain ⟨s', hrun, hq⟩ := hall 1 (by rw [List.length_cons]; omega)
        obtain ⟨m', hm', hs'⟩ := runs_cons_eq_some.mp hrun
        rw [hm, Option.some_inj] at hm'
        rw [List.take_zero, runs, Option.some_inj] at hs'
        exact hbad (hm' ▸ hs' ▸ hq)
      obtain ⟨m, hm, hP⟩ := hkeep a s hs hallowed
      refine ⟨hallowed, fun m' hm' => ?_⟩
      rw [hm, Option.some_inj] at hm'
      subst hm'
      refine (ih hP).mp fun n hn => ?_
      obtain ⟨s', hrun, hq⟩ := hall (n + 1) (Nat.succ_le_succ hn)
      obtain ⟨m', hm', hs'⟩ := runs_cons_eq_some.mp hrun
      rw [hm, Option.some_inj] at hm'
      exact ⟨s', hm' ▸ hs', hq⟩
    · intro hmeets n hn
      cases n with
      | zero => exact ⟨s, rfl, hgood s hs⟩
      | succ n =>
        obtain ⟨m, hm, hP⟩ := hkeep a s hs hmeets.1
        obtain ⟨s', hrun, hq⟩ := (ih hP).mpr (hmeets.2 m hm) n (Nat.le_of_succ_le_succ hn)
        exact ⟨s', runs_cons_eq_some.mpr ⟨m, hm, hrun⟩, hq⟩

/-! ### Simulation by emitted events -/

variable {β τ : Type*}

/-- The events emitted along the run of `as` from `s`, in order. -/
def emitted (step : α → σ → Option σ) (emit : α → σ → List β) : List α → σ → List β
  | [], _ => []
  | a :: as, s => emit a s ++ ((step a s).map (emitted step emit as)).getD []

/-- **The simulation rule.**  If one step from related states, taken where the guard allows it, is matched by the
abstract steps over the events it emits, then so is every guarded run. -/
theorem runs_simulation_of_meets {step : α → σ → Option σ} {G : α → σ → Prop} {emit : α → σ → List β}
    {astep : τ → β → τ} {R : σ → τ → Prop}
    (hstep : ∀ a s s' t, G a s → R s t → step a s = some s' → R s' ((emit a s).foldl astep t))
    {as : List α} {s s' : σ} {t : τ} (hmeets : Meets step G as s) (hrel : R s t) (hrun : runs step as s = some s') :
    R s' ((emitted step emit as s).foldl astep t) := by
  induction as generalizing s t with
  | nil =>
    rw [runs, Option.some_inj] at hrun
    exact hrun ▸ hrel
  | cons a as ih =>
    obtain ⟨m, ha, has⟩ := runs_cons_eq_some.mp hrun
    rw [emitted, ha, Option.map_some, Option.getD_some, List.foldl_append]
    exact ih (hmeets.2 m ha) (hstep a s m t hmeets.1 hrel ha) has

theorem meets_true (step : α → σ → Option σ) (as : List α) (s : σ) : Meets step (fun _ _ => True) as s := by
  induction as generalizing s with
  | nil => trivial
  | cons a as ih => exact ⟨trivial, fun m _ => ih m⟩

/-- The simulation rule for runs without a guard. -/
theorem runs_simulation {step : α → σ → Option σ} {emit : α → σ → List β} {astep : τ → β → τ}
    {R : σ → τ → Prop}
    (hstep : ∀ a s s' t, R s t → step a s = some s' → R s' ((emit a s).foldl astep t))
    {as : List α} {s s' : σ} {t : τ} (hrel : R s t) (hrun : runs step as s = some s') :
    R s' ((emitted step emit as s).foldl astep t) :=
  runs_simulation_of_meets (fun a s s' t _ => hstep a s s' t) (meets_true step as s) hrel hrun

/-- A property of all events of a run is a guard on its steps. -/
theorem forall_mem_emitted_iff_meets {step : α → σ → Option σ} {emit : α → σ → List β} {Q : β → Prop} {as : List α}
    {s : σ} : (∀ e ∈ emitted step emit as s, Q e) ↔ Meets step (fun a s => ∀ e ∈ emit a s, Q e) as s := by
  induction as generalizing s with
  | nil => exact iff_of_true (fun e he => by cases he) trivial
  | cons a as ih =>
    rw [emitted, List.forall_mem_append, Meets]
    refine and_congr Iff.rfl ?_
    cases step a s with
    | none => exact iff_of_true (fun e he => by cases he) (fun m hm => by cases hm)
    | some m =>
      rw [Option.map_some, Option.getD_some, ih]
      exact ⟨fun h m' hm' => Option.some_inj.mp hm' ▸ h, fun h => h m rfl⟩

/-! ### Families of components -/

variable {ι : Type*} [DecidableEq ι]

/-- The component that an event is addressed to reacts by `f`, the others stay. -/
def react (f : τ → β → τ) (T : ι → τ) (e : ι × β) : ι → τ := Function.update T e.1 (f (T e.1) e.2)

/-- The events addressed to `i`. -/
def addressed (i : ι) (es : List (ι × β)) : List β := (es.filter fun e => e.1 = i).map Prod.snd

/-- Adds an event to a list if it is addressed to `i`. -/
def collect (i : ι) (bs : List β) (e : ι × β) : List β := if e.1 = i then bs ++ [e.2] else bs

theorem foldl_collect (i : ι) (es : List (ι × β)) (bs : List β) :
    es.foldl (collect i) bs = bs ++ addressed i es := by
  induction es generalizing bs with
  | nil => exact (List.append_nil bs).symm
  | cons e es ih =>
    rw [List.foldl_cons, ih, collect, addressed, addressed]
    by_cases he : e.1 = i
    · rw [if_pos he, List.filter_cons_of_pos (by simpa using he), List.map_cons, List.append_assoc,
        List.singleton_append]
    · rw [if_neg he, List.filter_cons_of_neg (by simpa using he)]

/-- **Independence.**  A component of a family is where its own events alone would have brought it. -/
theorem foldl_react_apply (f : τ → β → τ) (es : List (ι × β)) (T : ι → τ) (i : ι) :
    es.foldl (react f) T i = (addressed i es).foldl f (T i) := by
  induction es generalizing T with
  | nil => rfl
  | cons e es ih =>
    rw [List.foldl_cons, ih, addressed, addressed]
    by_cases he : e.1 = i
    · rw [List.filter_cons_of_pos (by simpa using he), List.map_cons, List.foldl_cons, react, he,
        Function.update_self]
    · rw [List.filter_cons_of_neg (by simpa using he), react, Function.update_of_ne (Ne.symm he)]

/-! ### Counted loops -/

/-- `for (i = 0; i < n; i++) s = f(i, s)`. -/
def upto (f : ℕ → σ → σ) : ℕ → σ → σ
  | 0, s => s
  | n + 1, s => f n (upto f n s)

/-- A loop of `m + n` rounds is one of `m` rounds and one of `n`. -/
theorem upto_add (f : ℕ → σ → σ) (m n : ℕ) (s : σ) :
    upto f (m + n) s = upto (fun i => f (m + i)) n (upto f m s) := by
  induction n with
  | zero => rfl
  | succ n ih => rw [← Nat.add_assoc, upto, upto, ih]

/-- The rounds of a loop count only up to its bound. -/
theorem upto_congr {f g : ℕ → σ → σ} {n : ℕ} (h : ∀ i < n, ∀ s, f i s = g i s) (s : σ) : upto f n s = upto g n s := by
  induction n with
  | zero => rfl
  | succ n ih =>
    rw [upto, upto, ih fun i hi => h i (Nat.lt_succ_of_lt hi), h n (Nat.lt_succ_self n)]

/-- The loop invariant rule: `P i` holds before iteration `i`. -/
theorem upto_invariant {f : ℕ → σ → σ} {P : ℕ → σ → Prop} {n : ℕ} {s : σ} (h0 : P 0 s)
    (hstep : ∀ i x, i < n → P i x → P (i + 1) (f i x)) : P n (upto f n s) := by
  induction n with
  | zero => exact h0
  | succ n ih =>
    exact hstep n _ (Nat.lt_succ_self n) (ih fun i x hi hx => hstep i x (Nat.lt_succ_of_lt hi) hx)

/-- The events that the rounds of a counted loop emit, in order. -/
def uptoEmitted (f : ℕ → σ → σ) (emit : ℕ → σ → List β) : ℕ → σ → List β
  | 0, _ => []
  | n + 1, s => uptoEmitted f emit n s ++ emit n (upto f n s)

/-- The simulation rule for loops: if a round is the steps over the events it emits, and they all satisfy `Q`, so is
the loop, and so do its events. -/
theorem upto_simulation {f : ℕ → σ → σ} {emit : ℕ → σ → List β} {astep : σ → β → σ} {Q : β → Prop} {n : ℕ}
    (h : ∀ i < n, ∀ s, f i s = (emit i s).foldl astep s ∧ ∀ e ∈ emit i s, Q e) (s : σ) :
    upto f n s = (uptoEmitted f emit n s).foldl astep s ∧ ∀ e ∈ uptoEmitted f emit n s, Q e := by
  induction n with
  | zero =>
    refine ⟨rfl, fun e he => ?_⟩
    cases he
  | succ n ih =>
    obtain ⟨hloop, hevents⟩ := ih fun i hi => h i (Nat.lt_succ_of_lt hi)
    obtain ⟨hround, hlast⟩ := h n (Nat.lt_succ_self n) (upto f n s)
    refine ⟨?_, fun e he => ?_⟩
    · rw [upto, uptoEmitted, List.foldl_append, ← hloop, hround]
    · exact (List.mem_append.mp he).elim (hevents e) (hlast e)

/-- A loop whose iteration `i` changes element `i` of an array by `f i`. -/
theorem upto_update {γ : Type*} (f : ℕ → γ → γ) (x : ℕ → γ) (n j : ℕ) :
    upto (fun i x => Function.update x i (f i (x i))) n x j = if j < n then f j (x j) else x j := by
  refine upto_invariant (P := fun n (y : ℕ → γ) => ∀ j, y j = if j < n then f j (x j) else x j)
    ?_ ?_ j
  · intro j
    rw [if_neg (Nat.not_lt_zero j)]
  · intro i y _ hy j
    rcases Nat.lt_trichotomy j i with hlt | rfl | hgt
    · rw [Function.update_of_ne (Nat.ne_of_lt hlt), hy j, if_pos hlt, if_pos (by omega)]
    · rw [Function.update_self, hy j, if_neg (Nat.lt_irrefl j), if_pos (Nat.lt_succ_self j)]
    · rw [Function.update_of_ne (Nat.ne_of_gt hgt), hy j, if_neg (by omega), if_neg (by omega)]

/-- A loop that changes row `i` of a matrix only, element by element. -/
theorem upto_row {γ : Type*} (f : ℕ → γ) (x : ℕ → ℕ → γ) (i m : ℕ) :
    upto (fun j x => Function.update x i (Function.update (x i) j (f j))) m x
      = Function.update x i (upto (fun j r => Function.update r j (f j)) m (x i)) := by
  induction m with
  | zero => rw [upto, upto, Function.update_eq_self]
  | succ m ih => rw [upto, upto, ih, Function.update_self, Function.update_idem]

end PartialRun
