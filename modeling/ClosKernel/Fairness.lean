import ClosKernel.Reach
import ClosKernel.Lib.RoundRobin

/-!
# The turns of `schedule`

The search loop of `schedule` has no bound of its own: it ends because some process can run.  The process it stops at
is the first one that can run from `curProc` on, and `curProc` then points behind it, so the six slots are a ring that
is served in turn.

* `scheduleSearch_firstReady` — the search is a round of the ring;
* `schedule_turns` — **one call** ends within six tests and picks a process that can run; **six calls** leave out no
  process that could run at each of them, whatever happens between the calls.
-/

namespace ClosKernel

open PartialRun LinkedStack RoundRobin

/-- The process that `schedule` picks, if the action is a tick. -/
def picked : Action → Kernel → Option ℕ
  | .tick, k => scheduleSearch k.getBitMap k.pcbs 6 k.curProc
  | _, _ => none

section Turns

variable {E : Platform} {k k' : Kernel} {σ : Shells} {a : Action} {c p : ℕ}

/-- **A round of the ring.**  The search stops at the first process that can run. -/
theorem scheduleSearch_firstReady (hc : c < 6) (h : scheduleSearch k.getBitMap k.pcbs 6 c = some p) :
    FirstReady 6 k.Runnable c p := by
  obtain ⟨i, hi, hp, hrun, hbefore⟩ := (scheduleSearch_eq_some_iff k hc 6 p).mp h
  have hp6 : p < 6 := by omega
  refine ⟨hp6, hrun, fun q hq hready => ?_⟩
  by_contra hlt
  have hpast : ahead 6 c q < i := by
    unfold ahead at *
    split_ifs at hlt ⊢ <;> omega
  have hslot : (c + ahead 6 c q) % 6 = q := by
    unfold ahead
    split_ifs <;> omega
  have hnot := hbefore _ hpast
  rw [hslot] at hnot
  exact hnot hready

/-- What one call does: it goes to the process picked, and `curProc` points to the slot behind it. -/
theorem schedule_goes (hsearch : scheduleSearch k.getBitMap k.pcbs 6 k.curProc = some p) :
    ∃ k', schedule E k = some k' ∧ k'.pcb = pcbAddr p ∧ k'.curProc = next 6 p := by
  have hnext : (if p = 5 then 0 else p + 1) = next 6 p := by
    unfold next
    split_ifs <;> omega
  by_cases hsame : k.pcb = pcbAddr p
  · refine ⟨k.reselected p, ?_, hsame, hnext⟩
    rw [schedule_eq k hsearch, if_pos hsame]
  · obtain ⟨isr, heoi⟩ := Kernel.sendEoi_eq 0 (k.switchedTo E p)
    refine ⟨(k.switchedTo E p).sendEoi 0, ?_, ?_, ?_⟩
    · rw [schedule_eq k hsearch, if_neg hsame]
    · rw [heoi]
      rfl
    · rw [heoi]
      exact hnext

/-- Nothing but a tick moves `curProc`. -/
theorem Effect.curProc_eq (heffect : Effect E k a k') (ha : a ≠ .tick) : k'.curProc = k.curProc := by
  cases heffect with
  | screen | run | store | vidmap | call | replace | back | start => rfl
  | reselect | switch => exact absurd rfl ha

theorem pitHandler_of_picked (hpicked : picked .tick k = some p) (hrun : k.Runnable p)
    (hstep : step E .tick k = some k') : k'.curProc = next 6 p := by
  have hbits : k.getBitMap ≠ 0 := by
    intro hzero
    have hlive : k.getBitMap.getLsbD p = true := hrun.1
    rw [hzero] at hlive
    simp at hlive
  obtain ⟨m, hm, -, hcur⟩ := schedule_goes (E := E) (k := { k with isr := Function.update k.isr 0 true })
    (show scheduleSearch k.getBitMap k.pcbs 6 k.curProc = some p from hpicked)
  rw [step, stepWith, pitHandler, if_pos (by exact hbits), hm, Option.map_some, Option.some_inj] at hstep
  obtain ⟨isr, heoi⟩ := Kernel.sendEoi_eq 0 m
  rw [← hstep, heoi]
  exact hcur

/-- A tick at which nothing is picked does not come back, or no process is live. -/
theorem curProc_of_not_picked (hshell : ValidShell E.image) (htracks : k.Tracks σ) (hpicked : picked a k = none)
    (hstep : step E a k = some k') : k'.curProc = k.curProc := by
  by_cases ha : a = .tick
  · subst ha
    obtain ⟨isr, ⟨-, rfl⟩ | ⟨p, hp, hrun, -⟩⟩ := tick_cases htracks.curProc hstep
    · rfl
    · have hsome := scheduleSearch_isSome k htracks.curProc hp hrun
      rw [show scheduleSearch k.getBitMap k.pcbs 6 k.curProc = none from hpicked] at hsome
      cases hsome
  · exact (step_effect hshell htracks hstep).curProc_eq ha

/-- **The turns of the scheduler.**  In a state with a process that can run, the loop of `schedule` is left after at
most six tests, at such a process, and `curProc` stays a slot.  Along every run of the kernel, a process that can run
at each of six calls of `schedule` is picked by one of them. -/
theorem schedule_turns (hshell : ValidShell E.image) :
    (∀ k : Kernel, k.curProc < 6 → (∃ p < 6, k.Runnable p) →
      ∃ p k', scheduleSearch k.getBitMap k.pcbs 6 k.curProc = some p ∧ schedule E k = some k' ∧
        k'.pcb = pcbAddr p ∧ k.Live p ∧ (k.proc p).childPid = -1 ∧ k'.curProc < 6) ∧
    ∀ before k, Reaches E before k → ∀ as k', runs (step E) as k = some k' → ∀ p < 6,
      Meets (step E) (fun a m => a = .tick → m.Runnable p) as k →
      6 ≤ (served (step E) picked as k).length → p ∈ served (step E) picked as k := by
  constructor
  · rintro k hc ⟨q, hq, hready⟩
    obtain ⟨p, hsearch⟩ := Option.isSome_iff_exists.mp (scheduleSearch_isSome k hc hq hready)
    have hfirst := scheduleSearch_firstReady hc hsearch
    obtain ⟨k', hk', hpcb, hcur⟩ := schedule_goes (E := E) hsearch
    exact ⟨p, k', hsearch, hk', hpcb, hfirst.isReady.1, hfirst.isReady.2, hcur ▸ next_lt hfirst.lt⟩
  · intro before k hreach as k' hrun p hp hmeets hlong
    obtain ⟨σ, hσ⟩ := reaches_tracks hshell hreach
    have hinv : ∀ a m m', (∃ τ, m.Tracks τ) → step E a m = some m' → ∃ τ, m'.Tracks τ := by
      rintro a m m' ⟨τ, hτ⟩ hstep
      obtain ⟨τ', -, hτ'⟩ := (step_effect hshell hτ hstep).refines hτ
      exact ⟨τ', hτ'⟩
    have hround : ∀ a m m' q, (∃ τ, m.Tracks τ) → m.curProc < 6 → picked a m = some q → step E a m = some m' →
        FirstReady 6 m.Runnable m.curProc q ∧ m'.curProc = next 6 q := by
      intro a m m' q _ hc hpicked hstep
      cases a with
      | tick =>
        have hfirst := scheduleSearch_firstReady hc hpicked
        exact ⟨hfirst, pitHandler_of_picked hpicked hfirst.isReady hstep⟩
      | run | store | output | execute | halt | vidmap | screenChange => cases hpicked
    have hother : ∀ a m m', (∃ τ, m.Tracks τ) → picked a m = none → step E a m = some m' →
        m'.curProc = m.curProc := by
      rintro a m m' ⟨τ, hτ⟩ hpicked hstep
      exact curProc_of_not_picked hshell hτ hpicked hstep
    refine mem_served hinv hround hother ⟨σ, hσ⟩ hσ.curProc hp ?_ hrun hlong
    refine Meets.mono (fun a m hready hpicked => ?_) hmeets
    cases a with
    | tick => exact hready rfl
    | run | store | output | execute | halt | vidmap | screenChange => exact absurd rfl hpicked

end Turns

instance : ∀ a : Action, Decidable (a = .tick)
  | .tick => isTrue rfl
  | .run _ | .store _ _ | .output _ | .execute _ _ | .halt _ _ | .vidmap _ _ | .screenChange _ _ => isFalse nofun

/-- Six ticks; after the second one the shell of terminal 2 is started. -/
def sixTurns : List Action := [.tick, .tick, .screenChange default 2, .tick, .tick, .tick, .tick]

theorem schedule_turns_first_shell : ∃ b, Reaches twoProgramPlatform [] b ∧
    0 ∈ served (step twoProgramPlatform) picked sixTurns b := by
  have heval : ((boot twoProgramPlatform default powerOnKernel).any fun b =>
      (runs (step twoProgramPlatform) sixTurns b).any fun _ =>
        decide (Meets (step twoProgramPlatform) (fun a m => a = .tick → m.Runnable 0) sixTurns b ∧
          6 ≤ (served (step twoProgramPlatform) picked sixTurns b).length)) = true := by
    decide +kernel
  simp only [Option.any_eq_true, decide_eq_true_eq] at heval
  obtain ⟨b, hboot, k, hrun, hmeets, hlong⟩ := heval
  have hreach : Reaches twoProgramPlatform [] b := reaches_of_runs hboot rfl
  exact ⟨b, hreach, (schedule_turns twoProgramPlatform_shell).2 [] b hreach sixTurns k hrun 0 (by decide) hmeets hlong⟩

end ClosKernel
