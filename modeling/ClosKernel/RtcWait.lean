import ClosKernel.Lib.Latch
import ClosKernel.Files

/-!
# Waiting for the real-time clock (`rtc_read`, `rtc_handler` of `rtc.c`)

`rtc_read` clears the flag `rtc_interrupt_happened` and spins until the handler has set it.  Here the call is cut into
its steps, with ticks, terminal switches and the calls of other processes in between, so that any number of processes
can be inside of it at once.  They all clear the one flag.

* `RtcWait.step_view` — the flag and the waiting processes are a `Latch`;
* `rtcRead_of_run` — a wait that is entered and comes to its end is one call of `rtcRead`;
* `rtc_waits_lose_no_tick` — **no process returns without an interrupt, and none misses one**, as long as no process
  enters while the flag is still needed by another.
-/

namespace ClosKernel

open PartialRun

def rtcHandler (k : Kernel) : Kernel :=
  let k := { k with rtc := { k.rtc with interruptCount := (k.rtc.interruptCount + 1) % 2 ^ 32 } }
  let k := k.sendEoi 8
  { k with rtc := { k.rtc with interruptHappened := true } }

/-- An RTC interrupt: line 8, through line 2 of the first controller. -/
def rtcInterrupt (k : Kernel) : Kernel :=
  rtcHandler { k with isr := Function.update (Function.update k.isr 8 true) 2 true }

/-- An action that interrupts the running process, and is no call of its own. -/
def Action.Interrupts : Action → Prop
  | .tick | .screenChange _ _ => True
  | .run _ | .store _ _ | .output _ | .execute _ _ | .halt _ _ | .vidmap _ _ => False

instance : DecidablePred Action.Interrupts
  | .tick | .screenChange _ _ => isTrue trivial
  | .run _ | .store _ _ | .output _ | .execute _ _ | .halt _ _ | .vidmap _ _ => isFalse id

/-- The kernel, and who is inside `rtc_read`: for the PCB of a process inside, whether an RTC interrupt came since. -/
structure RtcWait where
  kernel : Kernel
  inside : ℕ → Option Bool

inductive RtcAction where
  /-- The running process enters `rtc_read`. -/
  | enter
  /-- An RTC interrupt. -/
  | interrupt
  /-- The running process, inside `rtc_read`, looks at the flag. -/
  | poll
  | machine (a : Action)

/-- A process inside `rtc_read` does nothing else; a poll that sees the flag is its return. -/
def RtcWait.step (E : Platform) : RtcAction → RtcWait → Option RtcWait
  | .enter, s =>
    if s.inside s.kernel.pcb = none then
      some ⟨{ s.kernel with rtc := { s.kernel.rtc with interruptHappened := false } },
        Function.update s.inside s.kernel.pcb (some false)⟩
    else none
  | .interrupt, s =>
    some ⟨rtcInterrupt s.kernel, fun p => (s.inside p).map fun _ => true⟩
  | .poll, s =>
    if s.inside s.kernel.pcb = none then none
    else if s.kernel.rtc.interruptHappened then
      some ⟨s.kernel, Function.update s.inside s.kernel.pcb none⟩
    else some s
  | .machine a, s =>
    if s.inside s.kernel.pcb = none ∨ a.Interrupts then
      (ClosKernel.step E a s.kernel).map fun k => ⟨k, s.inside⟩
    else none

/-! ### The latch -/

section Latch

variable {E : Platform} {k k' : Kernel} {a : Action} {s s' : RtcWait} {σ : Shells}

/-- No machine action touches the clock. -/
theorem Effect.keeps_rtc (h : Effect E k a k') : k'.rtc = k.rtc := by
  cases h <;> rfl

theorem rtcInterrupt_eq (k : Kernel) : ∃ isr count, rtcInterrupt k
    = { k with isr := isr, rtc := { k.rtc with interruptCount := count, interruptHappened := true } } := by
  obtain ⟨isr, heoi⟩ := Kernel.sendEoi_eq 8
    { k with
      isr := Function.update (Function.update k.isr 8 true) 2 true
      rtc := { k.rtc with interruptCount := (k.rtc.interruptCount + 1) % 2 ^ 32 } }
  refine ⟨isr, (k.rtc.interruptCount + 1) % 2 ^ 32, ?_⟩
  rw [rtcInterrupt, rtcHandler]
  dsimp only
  rw [heoi]

/-- A change of the clock and the interrupt controller only. -/
theorem Kernel.Tracks.rtc_only (h : k.Tracks σ) (isr : ℕ → Bool) (rtc : Rtc) :
    Kernel.Tracks { k with isr := isr, rtc := rtc } σ :=
  h.congr rfl rfl (fun _ _ => Pcb.SamePlace.refl _) rfl rfl rfl h.curProc rfl

/-- The flag, and who is waiting for it. -/
def RtcWait.view (s : RtcWait) : Latch ℕ := ⟨s.kernel.rtc.interruptHappened, s.inside⟩

/-- The event of the latch that an action is; machine actions are none. -/
def RtcAction.event (pcb : ℕ) : RtcAction → Option (LatchEvent ℕ)
  | .enter => some (.enter pcb)
  | .interrupt => some .signal
  | .poll => some (.poll pcb)
  | .machine _ => none

/-- **A step of the kernel is a step of the latch**, or none at all. -/
theorem RtcWait.step_view (hshell : ValidShell E.image) (htracks : s.kernel.Tracks σ) {act : RtcAction}
    (hstep : RtcWait.step E act s = some s') :
    (∃ σ', s'.kernel.Tracks σ') ∧ match act.event s.kernel.pcb with
      | none => s'.view = s.view
      | some e => Latch.step e s.view = some s'.view := by
  cases act with
  | enter =>
    rw [RtcWait.step] at hstep
    split at hstep
    · rename_i hout
      obtain rfl := Option.some_inj.mp hstep
      exact ⟨⟨σ, htracks.rtc_only s.kernel.isr _⟩, if_pos hout⟩
    · cases hstep
  | interrupt =>
    rw [RtcWait.step] at hstep
    obtain rfl := Option.some_inj.mp hstep
    obtain ⟨isr, count, heq⟩ := rtcInterrupt_eq s.kernel
    rw [heq]
    exact ⟨⟨σ, htracks.rtc_only isr _⟩, rfl⟩
  | poll =>
    rw [RtcWait.step] at hstep
    split at hstep
    · cases hstep
    rename_i hin
    split at hstep
    · rename_i hset
      obtain rfl := Option.some_inj.mp hstep
      exact ⟨⟨σ, htracks⟩, (if_neg hin).trans (if_pos hset)⟩
    · rename_i hclear
      obtain rfl := Option.some_inj.mp hstep
      exact ⟨⟨σ, htracks⟩, (if_neg hin).trans (if_neg hclear)⟩
  | machine a =>
    rw [RtcWait.step] at hstep
    split at hstep
    · obtain ⟨k, hk, rfl⟩ := Option.map_eq_some_iff.mp hstep
      have heffect := step_effect hshell htracks hk
      obtain ⟨σ', -, hσ'⟩ := heffect.refines htracks
      exact ⟨⟨σ', hσ'⟩, by rw [RtcAction.event]; simp only [RtcWait.view, heffect.keeps_rtc]⟩
    · cases hstep

/-- No process enters while another one inside has had its interrupt and not yet returned. -/
def Unhurried : RtcAction → RtcWait → Prop
  | .enter, s => ∀ p, s.inside p ≠ some true
  | .interrupt, _ | .poll, _ | .machine _, _ => True

theorem RtcWait.step_honest (hshell : ValidShell E.image) (htracks : s.kernel.Tracks σ) (hs : s.view.Honest)
    {act : RtcAction} (hstep : RtcWait.step E act s = some s') :
    (∃ σ', s'.kernel.Tracks σ') ∧ s'.view.Honest := by
  obtain ⟨htracks', hview⟩ := RtcWait.step_view hshell htracks hstep
  refine ⟨htracks', ?_⟩
  split at hview
  · rwa [hview]
  · exact Latch.step_honest hs hview

theorem RtcWait.step_covered (hshell : ValidShell E.image) (htracks : s.kernel.Tracks σ) (hs : s.view.Covered)
    {act : RtcAction} (hguard : Unhurried act s) (hstep : RtcWait.step E act s = some s') :
    (∃ σ', s'.kernel.Tracks σ') ∧ s'.view.Covered := by
  obtain ⟨htracks', hview⟩ := RtcWait.step_view hshell htracks hstep
  refine ⟨htracks', ?_⟩
  cases act with
  | machine a => rwa [show s'.view = s.view from hview]
  | enter => exact Latch.step_covered hs (fun _ _ => hguard) hview
  | interrupt => exact Latch.step_covered hs (fun i he => by cases he) hview
  | poll => exact Latch.step_covered hs (fun i he => by cases he) hview

/-- A poll returns if the flag is set, and only then. -/
theorem RtcWait.poll_returns_iff {b : Bool} (hin : s.inside s.kernel.pcb = some b) :
    ∃ s', RtcWait.step E .poll s = some s' ∧
      (s'.inside s.kernel.pcb = none ↔ s.kernel.rtc.interruptHappened = true) := by
  rw [RtcWait.step, if_neg (by rw [hin]; simp)]
  split
  · rename_i hset
    exact ⟨_, rfl, iff_of_true (Function.update_self ..) hset⟩
  · rename_i hclear
    exact ⟨_, rfl, iff_of_false (by rw [hin]; simp) hclear⟩

end Latch

/-! ### One call -/

section Call

variable {E : Platform} {s s' : RtcWait} {p : ℕ}

/-- While process `p` is inside `rtc_read`, its descriptors and its terminal stay as they are. -/
theorem RtcWait.keeps_program (hshell : ValidShell E.image) (htracks : ∃ σ, s.kernel.Tracks σ)
    (hlive : s.kernel.Live p) {as : List RtcAction}
    (hinside : Meets (RtcWait.step E) (fun _ m => m.inside (pcbAddr p) ≠ none) as s)
    (hrun : runs (RtcWait.step E) as s = some s') : (s.kernel.proc p).SameProgram (s'.kernel.proc p) := by
  have hinv := runs_invariant_of_meets
    (P := fun m => (∃ σ, m.kernel.Tracks σ) ∧ m.kernel.Live p ∧ (s.kernel.proc p).SameProgram (m.kernel.proc p))
    (fun act m m' hin ⟨⟨σ, hσ⟩, hm, hsame⟩ hstep => by
      refine ⟨(RtcWait.step_view hshell hσ hstep).1, ?_⟩
      cases act with
      | enter =>
        rw [RtcWait.step] at hstep
        split at hstep
        · obtain rfl := Option.some_inj.mp hstep
          exact ⟨hm, hsame⟩
        · cases hstep
      | interrupt =>
        rw [RtcWait.step] at hstep
        obtain rfl := Option.some_inj.mp hstep
        obtain ⟨isr, count, heq⟩ := rtcInterrupt_eq m.kernel
        rw [heq]
        exact ⟨hm, hsame⟩
      | poll =>
        rw [RtcWait.step] at hstep
        split at hstep
        · cases hstep
        split at hstep
        · obtain rfl := Option.some_inj.mp hstep
          exact ⟨hm, hsame⟩
        · obtain rfl := Option.some_inj.mp hstep
          exact ⟨hm, hsame⟩
      | machine a =>
        rw [RtcWait.step] at hstep
        split at hstep
        · rename_i hmay
          obtain ⟨k, hk, rfl⟩ := Option.map_eq_some_iff.mp hstep
          -- the process itself is only interrupted
          have hstays : m.kernel.pcb = pcbAddr p → ¬a.MayHalt := by
            intro hp hhalt
            rcases hmay with hout | hint
            · exact hin (hp ▸ hout)
            · cases a <;> first | exact hint | exact hhalt
          obtain ⟨hlive', hsame'⟩ := (step_effect hshell hσ hk).keeps_program hσ hm hstays
          exact ⟨hlive', hsame.trans hsame'⟩
        · cases hstep)
    hinside ⟨htracks, hlive, .refl _⟩ hrun
  exact hinv.2.2

/-- **A wait is a call of `rtcRead`**: from the entry of a process to a moment when it runs again and has not returned
yet, the call is over exactly if the flag is set. -/
theorem rtcRead_of_run (hshell : ValidShell E.image) (htracks : ∃ σ, s.kernel.Tracks σ) (hlive : s.kernel.Live p)
    (hp : s.kernel.pcb = pcbAddr p) {m : RtcWait} (henter : RtcWait.step E .enter s = some m) {as : List RtcAction}
    (hinside : Meets (RtcWait.step E) (fun _ m => m.inside (pcbAddr p) ≠ none) as m)
    (hrun : runs (RtcWait.step E) as m = some s') (hp' : s'.kernel.pcb = pcbAddr p) (buf : Mem) :
    ∃ w, rtcRead w buf s.kernel
      = if s'.kernel.rtc.interruptHappened then some (0, buf, s'.kernel) else none := by
  obtain ⟨σ, hσ⟩ := htracks
  have htracks' := (RtcWait.step_view hshell hσ henter).1
  rw [RtcWait.step] at henter
  split at henter
  · obtain rfl := Option.some_inj.mp henter
    have hkept := RtcWait.keeps_program hshell htracks' (p := p) hlive hinside hrun
    have hsame : Kernel.SameFiles { s.kernel with rtc := { s.kernel.rtc with interruptHappened := false } }
        s'.kernel := by
      refine ⟨hp'.trans hp.symm, ?_⟩
      rw [Kernel.cur, Kernel.cur, hp', show ({ s.kernel with
        rtc := { s.kernel.rtc with interruptHappened := false } } : Kernel).pcb = pcbAddr p from hp]
      exact hkept.fileArray
    obtain ⟨w, hw⟩ := hsame.exists_meanwhile
    refine ⟨⟨w, 0, []⟩, ?_⟩
    simp only [rtcRead, hw]
  · cases henter

end Call

/-- **RTC waits.**  In every run, a process that returns from `rtc_read` has had an interrupt since it entered.  If
moreover no process enters while another one inside has had its interrupt, then a process that has had its interrupt
sees it at its next poll, and returns.  An entry at any other moment makes the others miss theirs. -/
theorem rtc_waits_lose_no_tick {E : Platform} (hshell : ValidShell E.image) {before : List Action} {k : Kernel}
    (hreach : Reaches E before k) (as : List RtcAction) {s : RtcWait}
    (hrun : runs (RtcWait.step E) as ⟨k, fun _ => none⟩ = some s) :
    (∀ s', RtcWait.step E .poll s = some s' → s'.inside s.kernel.pcb = none →
      s.inside s.kernel.pcb = some true) ∧
    (Meets (RtcWait.step E) Unhurried as ⟨k, fun _ => none⟩ → s.inside s.kernel.pcb = some true →
      ∃ s', RtcWait.step E .poll s = some s' ∧ s'.inside s.kernel.pcb = none) ∧
    (∀ s', RtcWait.step E .enter s = some s' →
      ((∀ p, s'.inside p = some true → s'.kernel.rtc.interruptHappened = true) ↔ Unhurried .enter s)) := by
  obtain ⟨σ, hσ⟩ := reaches_tracks hshell hreach
  have hhonest : (∃ σ, s.kernel.Tracks σ) ∧ s.view.Honest :=
    runs_invariant (P := fun s => (∃ σ, s.kernel.Tracks σ) ∧ s.view.Honest)
      (fun _ _ _ ⟨⟨_, hσ⟩, hs⟩ hstep => RtcWait.step_honest hshell hσ hs hstep)
      ⟨⟨σ, hσ⟩, fun _ _ hp => Option.some_ne_none _ hp.symm⟩ hrun
  refine ⟨?_, ?_, ?_⟩
  · intro s' hpoll hreturned
    cases hin : s.inside s.kernel.pcb with
    | none =>
      rw [RtcWait.step, if_pos hin] at hpoll
      cases hpoll
    | some b =>
      obtain ⟨s'', hpoll', hiff⟩ := RtcWait.poll_returns_iff (E := E) hin
      obtain rfl := Option.some_inj.mp (hpoll.symm.trans hpoll')
      cases b with
      | true => rfl
      | false => exact absurd hin (hhonest.2 (hiff.mp hreturned) s.kernel.pcb)
  · intro hguard hin
    have hcovered := (runs_invariant_of_meets (P := fun s => (∃ σ, s.kernel.Tracks σ) ∧ s.view.Covered)
      (fun _ _ _ hg ⟨⟨_, hσ⟩, hs⟩ hstep => RtcWait.step_covered hshell hσ hs hg hstep)
      hguard ⟨⟨σ, hσ⟩, fun _ hp => absurd hp.symm (Option.some_ne_none _)⟩ hrun).2
    obtain ⟨s', hpoll, hiff⟩ := RtcWait.poll_returns_iff (E := E) hin
    exact ⟨s', hpoll, hiff.mpr (hcovered s.kernel.pcb hin)⟩
  · intro s' henter
    obtain ⟨σ', hσ'⟩ := hhonest.1
    exact Latch.enter_covered_iff (RtcWait.step_view hshell hσ' henter).2

/-- One shell waits, is interrupted by the clock, and returns. -/
def oneWait : List RtcAction := [.enter, .machine .tick, .interrupt]

theorem rtc_waits_lose_no_tick_one : ∃ b s, Reaches twoProgramPlatform [] b ∧
    runs (RtcWait.step twoProgramPlatform) oneWait ⟨b, fun _ => none⟩ = some s ∧
    ∃ s', RtcWait.step twoProgramPlatform .poll s = some s' ∧ s'.inside s.kernel.pcb = none := by
  have heval : ((boot twoProgramPlatform default powerOnKernel).any fun b =>
      (runs (RtcWait.step twoProgramPlatform) oneWait ⟨b, fun _ => none⟩).any fun s =>
        decide (s.inside s.kernel.pcb = some true)) = true := by
    decide +kernel
  simp only [Option.any_eq_true, decide_eq_true_eq] at heval
  obtain ⟨b, hboot, s, hrun, hin⟩ := heval
  have hreach : Reaches twoProgramPlatform [] b := reaches_of_runs hboot rfl
  refine ⟨b, s, hreach, hrun, ?_⟩
  refine (rtc_waits_lose_no_tick twoProgramPlatform_shell hreach oneWait hrun).2.1 ?_ hin
  refine ⟨?_, fun _ _ => ⟨trivial, fun _ _ => ⟨trivial, fun _ _ => trivial⟩⟩⟩
  intro p hp
  cases hp

/-- The shell of terminal 1 waits and its interrupt comes; the shell of a new terminal enters `rtc_read` before the
first one polls. -/
def twoWaits : List RtcAction :=
  [.enter, .interrupt, .machine (.screenChange default 2), .enter, .machine .tick]

theorem rtc_wait_misses_tick : ∃ b s, Reaches twoProgramPlatform [] b ∧
    runs (RtcWait.step twoProgramPlatform) twoWaits ⟨b, fun _ => none⟩ = some s ∧
    s.inside s.kernel.pcb = some true ∧
    ∃ s', RtcWait.step twoProgramPlatform .poll s = some s' ∧ s'.inside s.kernel.pcb ≠ none := by
  have heval : ((boot twoProgramPlatform default powerOnKernel).any fun b =>
      (runs (RtcWait.step twoProgramPlatform) twoWaits ⟨b, fun _ => none⟩).any fun s =>
        (RtcWait.step twoProgramPlatform .poll s).any fun s' =>
          decide (s.inside s.kernel.pcb = some true ∧ s'.inside s.kernel.pcb ≠ none)) = true := by
    decide +kernel
  simp only [Option.any_eq_true, decide_eq_true_eq] at heval
  obtain ⟨b, hboot, s, hrun, s', hpoll, hin, hstays⟩ := heval
  have hreach : Reaches twoProgramPlatform [] b := reaches_of_runs hboot rfl
  exact ⟨b, s, hreach, hrun, hin, s', hpoll, hstays⟩

end ClosKernel
