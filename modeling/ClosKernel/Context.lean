import ClosKernel.KernelStack

/-!
# The contexts that `schedule` resumes

A process stops being current in five ways: it is scheduled out, it calls a program, it halts, it is replaced, or
a keypress makes `screenChange` launch a shell on top of it.  Only `schedule` stores its stack and frame pointers.
`Observed` runs the kernel, with its program images on the kernel stack, beside a record of the context that each
process had when it last stopped, and `Observed.UpToDate` compares the record with what `schedule` would load.

* `UpToDate.next` — what a step has to keep, the process that stops apart from the others;
* `UpToDate.effect` — every effect keeps it but the launch of a shell by `screenChange`, which needs the context
  of the interrupted process to have been saved already;
* `resumes_last_context` — what this means for a whole run, and that the condition on the launch is exact;
* `resumes_stale_context` — without it a tick resumes a shell with pointers that were never its own.
-/

namespace ClosKernel

open PartialRun LinkedStack

/-- The context that `schedule` loads for a process. -/
def Pcb.saved (p : Pcb) : Context := ⟨p.espSchedule, p.ebpSchedule⟩

/-- A kernel with the context that each process had when it last stopped being the current one. -/
structure Observed where
  kernel : Kernel
  stopped : ℕ → Context

/-- What is recorded when the kernel goes from `k` to `k'`. -/
def recordStop (k k' : Kernel) (stopped : ℕ → Context) : ℕ → Context :=
  if k'.pcb = k.pcb then stopped else Function.update stopped k.cur.pid k.cpu

def Observed.step (E : Platform) (a : Action) (o : Observed) : Option Observed :=
  (stepOnStack E a o.kernel).map fun k' => ⟨k', recordStop o.kernel k' o.stopped⟩

/-- `schedule` would resume every process that is not running where it stopped. -/
def Observed.UpToDate (o : Observed) : Prop :=
  ∀ p, o.kernel.Runnable p → o.kernel.pcb ≠ pcbAddr p → (o.kernel.proc p).saved = o.stopped p

/-- The action does not launch a shell from `screenChange`, or the interrupted process has just been saved. -/
def SavedAtLaunch (E : Platform) : Action → Observed → Prop
  | .screenChange st n, o => ∀ k', stepOnStack E (.screenChange st n) o.kernel = some k' →
      k'.pcb ≠ o.kernel.pcb → o.kernel.cur.saved = o.kernel.cpu
  | _, _ => True

/-- And the programs that it loads fit. -/
def SavedAndSafe (E : Platform) (a : Action) (o : Observed) : Prop :=
  SavedAtLaunch E a o ∧ StackSafe E a o.kernel

namespace Observed.UpToDate

variable {E : Platform} {k k' : Kernel} {stopped : ℕ → Context} {σ : Shells} {a : Action}

/-- The process that stops must have been saved; the others must be as they were. -/
theorem next (htracks : k.Tracks σ) (h : UpToDate ⟨k, stopped⟩)
    (hothers : ∀ p, k'.Runnable p → k.pcb ≠ pcbAddr p → k'.pcb ≠ pcbAddr p →
      k.Runnable p ∧ (k'.proc p).saved = (k.proc p).saved)
    (hself : k'.Runnable k.cur.pid → k'.pcb ≠ k.pcb → (k'.proc k.cur.pid).saved = k.cpu) :
    UpToDate ⟨k', recordStop k k' stopped⟩ := by
  obtain ⟨c, l, htop, hpcb⟩ := htracks.current
  obtain ⟨hpid, -⟩ := htracks.cur_links htop hpcb
  intro p hrun hp
  show (k'.proc p).saved = recordStop k k' stopped p
  by_cases hpc : p = c
  · have hmoved : k'.pcb ≠ k.pcb := by rw [hpcb, ← hpc]; exact hp
    rw [recordStop, if_neg hmoved, hpid, hpc, Function.update_self, ← hpid]
    exact hself (by rw [hpid, ← hpc]; exact hrun) hmoved
  · have hc6 := htracks.table.bound c (Kernel.Table.holds_of_top htop)
    have hne : k.pcb ≠ pcbAddr p := by
      rw [hpcb]
      exact fun he => hpc ((pcbAddr_inj hc6).mp he).symm
    obtain ⟨hrun', hsaved⟩ := hothers p hrun hne hp
    have hrecord : recordStop k k' stopped p = stopped p := by
      rw [recordStop]
      split
      · rfl
      · rw [hpid, Function.update_of_ne hpc]
    rw [hrecord, hsaved]
    exact h p hrun' hne

/-- Actions that touch neither the bitmap nor any PCB. -/
theorem still (htracks : k.Tracks σ) (h : UpToDate ⟨k, stopped⟩) (hbits : k'.pidBitmap = k.pidBitmap)
    (hpcbs : k'.pcbs = k.pcbs) (hpcb : k'.pcb = k.pcb) : UpToDate ⟨k', recordStop k k' stopped⟩ := by
  refine h.next htracks (fun p hrun _ _ => ?_) fun _ hmoved => absurd hpcb hmoved
  rw [Kernel.Runnable, Kernel.Live, Kernel.proc, hbits, hpcbs] at hrun
  exact ⟨hrun, by rw [Kernel.proc, hpcbs, Kernel.proc]⟩

theorem saved_dying (k : Kernel) (ebx p : ℕ) : ((k.dying ebx).proc p).saved = (k.proc p).saved := by
  show (Function.update k.pcbs k.pcb _ (pcbAddr p)).saved = (k.pcbs (pcbAddr p)).saved
  by_cases hp : pcbAddr p = k.pcb
  · rw [hp, Function.update_self]
    rfl
  · rw [Function.update_of_ne hp]

/-- A store through `pcb` is not seen at the PCBs of the others. -/
theorem update_pcb_other {pcbs : ℕ → Pcb} {x : Pcb} {p : ℕ} (hp : k.pcb ≠ pcbAddr p) :
    Function.update pcbs k.pcb x (pcbAddr p) = pcbs (pcbAddr p) :=
  Function.update_of_ne hp.symm _ _

/-- A process that is runnable once another one has been entered was live before, with the PCB that it has now. -/
theorem runnable_of_enter {m : Kernel} {free p : ℕ} (hlt : free < 6) {parent term : ℤ} {progImg args : Mem}
    {pcbs : ℕ → Pcb} (hfp : pcbAddr free ≠ pcbAddr p)
    (hrun : (m.enter free parent term progImg args pcbs).Runnable p) :
    (m.Live p ∧ (pcbs (pcbAddr p)).childPid = -1) ∧
      ((m.enter free parent term progImg args pcbs).proc p).saved = (pcbs (pcbAddr p)).saved := by
  have hpf : p ≠ free := fun he => hfp (congrArg pcbAddr he).symm
  rw [Kernel.Runnable, Kernel.live_enter _ hlt, Kernel.proc_enter _ hlt, if_neg hpf] at hrun
  rw [Kernel.proc_enter _ hlt, if_neg hpf]
  exact ⟨⟨hrun.1.resolve_left hpf, hrun.2⟩, rfl⟩

/-- A process that calls a program waits for it. -/
theorem called (htracks : k.Tracks σ) (h : UpToDate ⟨k, stopped⟩) {st : Stack} {command : List UInt8} {r free : ℕ}
    (hfree : freePid k.pidBitmap = some free) :
    UpToDate ⟨k.called E st command r free, recordStop k (k.called E st command r free) stopped⟩ := by
  obtain ⟨c, l, htop, hpcb⟩ := htracks.current
  obtain ⟨hpid, -⟩ := htracks.cur_links htop hpcb
  have hlt := Kernel.Table.free_lt hfree
  refine h.next htracks (fun p hrun hp hfp => ?_) fun hrun _ => ?_
  · have hbefore := runnable_of_enter hlt hfp hrun
    rw [update_pcb_other hp] at hbefore
    exact hbefore
  · have hcf : c ≠ free := htracks.table.ne_free hfree (Kernel.Table.holds_of_top htop)
    rw [hpid, Kernel.Runnable, Kernel.called, Kernel.proc_enter _ hlt, if_neg hcf, ← hpcb,
      Function.update_self] at hrun
    exact absurd hrun.2 (by show ¬(free : ℤ) = -1; omega)

/-- A root shell that halts is live afterwards only if its slot was taken over. -/
theorem replaced (htracks : k.Tracks σ) (h : UpToDate ⟨k, stopped⟩) {st : Stack} {ebx r free : ℕ}
    (hfree : freePid (k.restarting ebx).pidBitmap = some free) :
    UpToDate ⟨k.replaced E st ebx r free, recordStop k (k.replaced E st ebx r free) stopped⟩ := by
  obtain ⟨c, l, htop, hpcb⟩ := htracks.current
  obtain ⟨hpid, -⟩ := htracks.cur_links htop hpcb
  have hlt := Kernel.Table.free_lt hfree
  have hlive : ∀ p, (k.restarting ebx).Live p ↔ k.Live p ∧ p ≠ c :=
    htracks.table.live_dying htop hpcb ebx
  refine h.next htracks (fun p hrun hp hfp => ?_) fun hrun hmoved => ?_
  · obtain ⟨⟨hlive', hchild⟩, hsaved⟩ := runnable_of_enter hlt hfp hrun
    refine ⟨⟨((hlive p).mp hlive').1, ?_⟩, ?_⟩
    · exact (Kernel.Table.samePlace_dying k ebx p).childPid.symm.trans hchild
    · exact hsaved.trans (saved_dying k ebx p)
  · have hcf : c ≠ free := fun he => hmoved (by rw [hpcb, he]; rfl)
    rw [hpid, Kernel.Runnable, Kernel.replaced, Kernel.live_enter _ hlt] at hrun
    exact absurd rfl ((hlive c).mp (hrun.1.resolve_left hcf)).2

/-- Any other process that halts is not live afterwards. -/
theorem resumedParent (htracks : k.Tracks σ) (h : UpToDate ⟨k, stopped⟩) (ebx : ℕ) :
    UpToDate ⟨k.resumedParent E ebx, recordStop k (k.resumedParent E ebx) stopped⟩ := by
  obtain ⟨c, l, htop, hpcb⟩ := htracks.current
  obtain ⟨hpid, -⟩ := htracks.cur_links htop hpcb
  have hlive := htracks.table.live_dying htop hpcb ebx
  refine h.next htracks (fun p hrun hp hfp => ?_) fun hrun _ => ?_
  · have hproc' : (k.resumedParent E ebx).proc p = (k.dying ebx).proc p :=
      Function.update_of_ne (fun he => hfp he.symm) _ _
    rw [Kernel.Runnable, hproc'] at hrun
    refine ⟨⟨((hlive p).mp hrun.1).1, ?_⟩, ?_⟩
    · exact (Kernel.Table.samePlace_dying k ebx p).childPid.symm.trans hrun.2
    · rw [hproc']
      exact saved_dying k ebx p
  · rw [hpid] at hrun
    exact absurd rfl ((hlive c).mp hrun.1).2

/-- The process that a new shell interrupts stays as it was saved last. -/
theorem opened (htracks : k.Tracks σ) (h : UpToDate ⟨k, stopped⟩) {st : Stack} {n : ℤ} {s : Screen} {isr : ℕ → Bool}
    {r free : ℕ} (hfree : freePid k.pidBitmap = some free)
    (hlaunch : (k.opened E st n s isr r free).pcb ≠ k.pcb → k.cur.saved = k.cpu) :
    UpToDate ⟨k.opened E st n s isr r free, recordStop k (k.opened E st n s isr r free) stopped⟩ := by
  obtain ⟨c, l, htop, hpcb⟩ := htracks.current
  obtain ⟨hpid, -⟩ := htracks.cur_links htop hpcb
  have hlt := Kernel.Table.free_lt hfree
  refine h.next htracks (fun p hrun hp hfp => ?_) fun hrun hmoved => ?_
  · have hbefore := runnable_of_enter hlt hfp hrun
    exact hbefore
  · have hcf : c ≠ free := htracks.table.ne_free hfree (Kernel.Table.holds_of_top htop)
    have hproc : k.proc c = k.cur := by rw [Kernel.cur, hpcb, Kernel.proc]
    rw [hpid, Kernel.opened, Kernel.proc_enter _ hlt, if_neg hcf, ← hlaunch hmoved]
    exact congrArg Pcb.saved hproc

/-- Every effect keeps the record, up to the condition on launches. -/
theorem effect (htracks : k.Tracks σ) (h : UpToDate ⟨k, stopped⟩) (heffect : Effect E k a k')
    (hlaunch : ∀ st n, a = .screenChange st n → k'.pcb ≠ k.pcb → k.cur.saved = k.cpu) :
    UpToDate ⟨k', recordStop k k' stopped⟩ := by
  cases heffect with
  | screen s tty hs => exact h.still htracks rfl rfl rfl
  | run ctx => exact h.still htracks rfl rfl rfl
  | store off b => exact h.still htracks rfl rfl rfl
  | vidmap hv => exact h.still htracks rfl rfl rfl
  | call hr hfree => exact h.called htracks hfree
  | replace hroot hr hfree => exact h.replaced htracks hfree
  | back hne => exact h.resumedParent htracks _
  | @start st n s isr r free hn hnew hs hr hfree => exact h.opened htracks hfree (hlaunch st n rfl)
  | reselect isr _ _ _ =>
    refine h.next htracks (fun p hrun hp _ => ?_) fun _ hmoved => absurd rfl hmoved
    rw [Kernel.Runnable, Kernel.proc] at hrun
    have hproc' : Function.update k.pcbs k.pcb (saveContext k.cpu k.cur) (pcbAddr p) = k.proc p := update_pcb_other hp
    exact ⟨⟨hrun.1, by rw [← hproc']; exact hrun.2⟩, congrArg Pcb.saved hproc'⟩
  | @switch q isr _ _ _ =>
    obtain ⟨c, l, htop, hpcb⟩ := htracks.current
    obtain ⟨hpid, -⟩ := htracks.cur_links htop hpcb
    refine h.next htracks (fun p hrun hp _ => ?_) fun _ _ => ?_
    · have hproc' : Function.update k.pcbs k.pcb (saveContext k.cpu k.cur) (pcbAddr p) = k.proc p :=
        update_pcb_other hp
      exact ⟨⟨hrun.1, by rw [← hproc']; exact hrun.2⟩, congrArg Pcb.saved hproc'⟩
    · show (Function.update k.pcbs k.pcb (saveContext k.cpu k.cur) (pcbAddr k.cur.pid)).saved = k.cpu
      rw [hpid, ← hpcb, Function.update_self]
      rfl

end Observed.UpToDate

/-! ### Runs -/

section Runs

variable {E : Platform}

/-- A launch leaves the interrupted process with the context it was last saved with. -/
theorem saved_of_launch {k k' : Kernel} {σ : Shells} {st : Stack} {n : ℤ} (htracks : k.Tracks σ)
    (hshell : ValidShell E.image) (hstep : screenChange E st n k = some k') (hmoved : k'.pcb ≠ k.pcb) :
    (k'.proc k.cur.pid).saved = k.cur.saved := by
  obtain ⟨c, l, htop, hpcb⟩ := htracks.current
  obtain ⟨hpid, -⟩ := htracks.cur_links htop hpcb
  have hproc : k.proc c = k.cur := by rw [Kernel.cur, hpcb, Kernel.proc]
  rcases htracks.screenChange_eq hshell hstep with ⟨s, tty, rfl, -⟩ | ⟨s, isr, r, free, -, -, -, -, hfree, rfl⟩
  · exact absurd rfl hmoved
  · have hcf : c ≠ free := htracks.table.ne_free hfree (Kernel.Table.holds_of_top htop)
    rw [hpid, Kernel.opened, Kernel.proc_enter _ (Kernel.Table.free_lt hfree), if_neg hcf]
    exact congrArg Pcb.saved hproc

/-- What is known of an observed kernel in a run whose programs fit and whose launches are all preceded by a save. -/
theorem runs_upToDate (hshell : ValidShell E.image) {st : Stack} {k₀ : Kernel} (hpower : PowerOn k₀)
    {stopped : ℕ → Context} {as : List Action} {k : Kernel} {o : Observed} (hboot : boot E st k₀ = some k)
    (hmeets : Meets (Observed.step E) (SavedAndSafe E) as ⟨k, stopped⟩)
    (hrun : runs (Observed.step E) as ⟨k, stopped⟩ = some o) :
    (∃ σ, o.kernel.Tracks σ) ∧ o.UpToDate := by
  obtain ⟨r, hr⟩ := hshell
  rw [boot_eq st hr hpower, Option.some_inj] at hboot
  refine runs_invariant_of_meets (P := fun o => (∃ σ : Shells, o.kernel.Tracks σ) ∧ o.UpToDate) ?_
    hmeets ⟨hboot ▸ booted_tracks st r hpower, ?_⟩ hrun
  · rintro a o o' hguard ⟨⟨σ, htracks⟩, h⟩ hstep
    obtain ⟨k', hk', rfl⟩ := Option.map_eq_some_iff.mp hstep
    have heffect := step_effect ⟨r, hr⟩ htracks (step_of_stepOnStack hguard.2 hk')
    obtain ⟨σ', -, htracks'⟩ := heffect.refines htracks
    refine ⟨⟨σ', htracks'⟩, h.effect htracks heffect ?_⟩
    rintro st n rfl hmoved
    exact hguard.1 k' hk' hmoved
  · -- right after booting nobody but the running shell is live
    intro p hrun hp
    have hlive : (k₀.booted E st r).Live p := by rw [hboot]; exact hrun.1
    rw [Kernel.booted, Kernel.live_enter _ (by decide)] at hlive
    rcases hlive with rfl | hlive
    · exact absurd (by rw [← hboot]; rfl) hp
    · have hbit : k₀.pidBitmap.getLsbD p = true := hlive
      rw [hpower.pidBitmap] at hbit
      simp at hbit

/-- **No stale context, where launches are preceded by a save.**  In a run from power-on in which every program that is
loaded fits below the PCBs and `screenChange` launches a shell only while the context saved for the interrupted process
is its present one, every switch of `schedule` loads the context that the process had when it last stopped being
current.  The condition on launches is exact: after a further launch the interrupted process is up to date just if it
held. -/
theorem resumes_last_context (hshell : ValidShell E.image) {st : Stack} {k₀ : Kernel} (hpower : PowerOn k₀)
    (stopped : ℕ → Context) (as : List Action) {k : Kernel} {o : Observed} (hboot : bootOnStack E st k₀ = some k)
    (hmeets : Meets (Observed.step E) (SavedAndSafe E) as ⟨k, stopped⟩)
    (hrun : runs (Observed.step E) as ⟨k, stopped⟩ = some o) :
    (∀ k', stepOnStack E .tick o.kernel = some k' → k'.pcb ≠ o.kernel.pcb → k'.cpu = o.stopped k'.cur.pid) ∧
    (∀ st' n o', StackSafe E (.screenChange st' n) o.kernel → o.step E (.screenChange st' n) = some o' →
      o'.kernel.pcb ≠ o.kernel.pcb →
      ((o'.kernel.proc o.kernel.cur.pid).saved = o'.stopped o.kernel.cur.pid ↔
        o.kernel.cur.saved = o.kernel.cpu)) := by
  obtain ⟨k₁, hpower₁, hboot₁⟩ := boot_of_bootOnStack hshell hpower hboot
  obtain ⟨⟨σ, htracks⟩, h⟩ := runs_upToDate hshell hpower₁ hboot₁ hmeets hrun
  refine ⟨fun k' htick hmoved => ?_, fun st' n o' hsafe hstep hmoved => ?_⟩
  · have htick' : ClosKernel.step E .tick o.kernel = some k' := step_of_stepOnStack trivial htick
    obtain ⟨isr, ⟨-, rfl⟩ | ⟨p, hp6, hrunnable, ⟨-, rfl⟩ | ⟨hp, rfl⟩⟩⟩ := tick_cases htracks.curProc htick'
    · exact absurd rfl hmoved
    · exact absurd rfl hmoved
    · have hpid : (Kernel.cur { o.kernel.switchedTo E p with isr := isr }).pid = p :=
        (samePlace_saveContext o.kernel p).pid.trans
          (htracks.table.pid p ((htracks.table.live p).mp hrunnable.1))
      rw [hpid]
      exact h p hrunnable hp
  · obtain ⟨k', hk', rfl⟩ := Option.map_eq_some_iff.mp hstep
    have hrecord : recordStop o.kernel k' o.stopped o.kernel.cur.pid = o.kernel.cpu := by
      rw [recordStop, if_neg hmoved, Function.update_self]
    show (k'.proc o.kernel.cur.pid).saved = recordStop o.kernel k' o.stopped o.kernel.cur.pid ↔ _
    rw [hrecord, saved_of_launch htracks hshell (step_of_stepOnStack hsafe hk') hmoved]

end Runs

/-- A tick saves the shell of terminal 1, a keypress launches one on terminal 2, which is scheduled once, and the
next tick goes back to the first where it was. -/
theorem resumes_last_context_after_save : ∃ k o k',
    bootOnStack twoProgramPlatform default powerOnKernel = some k ∧
    runs (Observed.step twoProgramPlatform) [.tick, .screenChange default 2, .tick]
      ⟨k, fun _ => default⟩ = some o ∧
    stepOnStack twoProgramPlatform .tick o.kernel = some k' ∧ k'.pcb ≠ o.kernel.pcb ∧
    k'.cpu = o.stopped k'.cur.pid := by
  have heval : ((bootOnStack twoProgramPlatform default powerOnKernel).any fun k =>
      (Observed.step twoProgramPlatform .tick ⟨k, fun _ => default⟩).any fun m =>
        decide (m.kernel.cur.saved = m.kernel.cpu ∧ Fits twoProgramPlatform default shellLine) &&
        (runs (Observed.step twoProgramPlatform) [.screenChange default 2, .tick] m).any fun o =>
          (stepOnStack twoProgramPlatform .tick o.kernel).any fun k' => decide (k'.pcb ≠ o.kernel.pcb)) = true := by
    decide +kernel
  simp only [Option.any_eq_true, Bool.and_eq_true, decide_eq_true_eq] at heval
  obtain ⟨k, hk, m, hm, ⟨hsaved, hfits⟩, o, ho, k', hk', hmoved⟩ := heval
  have hmeets : Meets (Observed.step twoProgramPlatform) (SavedAndSafe twoProgramPlatform)
      [.tick, .screenChange default 2, .tick] ⟨k, fun _ => default⟩ := by
    refine ⟨⟨trivial, trivial⟩, fun m' hm' =>
      ⟨⟨fun _ _ _ => ?_, hfits⟩, fun _ _ => ⟨⟨trivial, trivial⟩, fun _ _ => trivial⟩⟩⟩
    rw [hm, Option.some_inj] at hm'
    exact hm' ▸ hsaved
  have hrun : runs (Observed.step twoProgramPlatform) [.tick, .screenChange default 2, .tick]
      ⟨k, fun _ => default⟩ = some o :=
    runs_cons_eq_some.mpr ⟨m, hm, ho⟩
  exact ⟨k, o, k', hk, hrun, hk', hmoved, (resumes_last_context twoProgramPlatform_shell
    powerOnKernel_powerOn _ _ hk hmeets hrun).1 k' hk' hmoved⟩

/-- A shell that ran after it was last saved is resumed with pointers that are not its own: here those of a PCB
that was never saved to. -/
theorem resumes_stale_context : ∃ k o k', bootOnStack twoProgramPlatform default powerOnKernel = some k ∧
    runs (Observed.step twoProgramPlatform) [.run ⟨5, 5⟩, .screenChange default 2] ⟨k, fun _ => default⟩
      = some o ∧
    stepOnStack twoProgramPlatform .tick o.kernel = some k' ∧ k'.pcb ≠ o.kernel.pcb ∧
    o.stopped k'.cur.pid = ⟨5, 5⟩ ∧ k'.cpu ≠ o.stopped k'.cur.pid := by
  have heval : ((bootOnStack twoProgramPlatform default powerOnKernel).any fun k =>
      (runs (Observed.step twoProgramPlatform) [.run ⟨5, 5⟩, .screenChange default 2]
        ⟨k, fun _ => default⟩).any fun o => (stepOnStack twoProgramPlatform .tick o.kernel).any fun k' =>
          decide (k'.pcb ≠ o.kernel.pcb ∧ o.stopped k'.cur.pid = ⟨5, 5⟩ ∧
            k'.cpu ≠ o.stopped k'.cur.pid)) = true := by
    decide +kernel
  simp only [Option.any_eq_true, decide_eq_true_eq] at heval
  obtain ⟨k, hk, o, ho, k', hk', h⟩ := heval
  exact ⟨k, o, k', hk, ho, hk', h⟩

end ClosKernel
