import ClosKernel.KernelStack

/-!
# The CPU serves the running process

The page directory that is loaded, the kernel stack pointer in the task state segment and the mapping of the
program page are set in different places: `sys_execute` maps and loads a directory before the new process
exists, `sys_halt` and `schedule` reload the directory of the process they return to, and `schedule` skips the
update when it picks the running process again.  `CpuAgrees` is what all of them keep.

* `CpuAgrees.enter` — a launched process runs on its own directory and stack;
* `CpuAgrees.effect` — every effect keeps the agreement;
* `cpu_agrees_with_current` — the agreement in every state that is reached while all programs fit below the PCBs, down
  to the translation of every address of the program page;
* `cpu_overrun` — a program that does not fit makes the kernel return to a process that is not there.
-/

namespace ClosKernel

open PartialRun LinkedStack

/-- The registers and tables are those of the running process. -/
structure CpuAgrees (E : Platform) (k : Kernel) : Prop where
  ok : k.paging.Ok E.layout
  mapped : ∀ p, k.Live p → k.paging.pageDir p 32 = 0x800187 + p * 0x400000
  cr3 : k.paging.cr3 = E.layout.dirAdrs k.cur.pid
  esp0 : k.tss.esp0 = kernelStackBase - k.cur.pid * taskStackSize

namespace CpuAgrees

variable {E : Platform} {st : Stack} {k k' m : Kernel} {σ : Shells} {a : Action}

/-- A launched process runs on its own directory and stack, whoever launched it. -/
theorem enter {free r : ℕ} {parent term : ℤ} {progImg args : Mem} {pcbs : ℕ → Pcb} (hfree : free < 6)
    (hok : m.paging.Ok E.layout)
    (hmapped : ∀ p, m.Live p → m.paging.pageDir p 32 = 0x800187 + p * 0x400000) :
    CpuAgrees E ((m.loaded E st free r).enter free parent term progImg args pcbs) := by
  have hpid : ((m.loaded E st free r).enter free parent term progImg args pcbs).cur.pid = free := by
    show (Function.update pcbs (pcbAddr free) _ (pcbAddr free)).pid = free
    rw [Function.update_self]
  refine ⟨hok.setupPaging hfree, fun p hp => ?_, ?_, ?_⟩
  · refine m.paging.pageDir_setupPaging E.layout hfree ?_
    exact ((m.loaded E st free r).live_enter hfree _ _ _ _ _ p).mp hp |>.imp_right (hmapped p)
  · rw [hpid]; rfl
  · rw [hpid]; rfl

/-- The fields this is about are all it depends on. -/
theorem congr (h : CpuAgrees E k) (hpaging : k'.paging = k.paging) (htss : k'.tss = k.tss)
    (hbits : k'.pidBitmap = k.pidBitmap) (hpid : k'.cur.pid = k.cur.pid) : CpuAgrees E k' where
  ok := hpaging ▸ h.ok
  mapped p hp := by
    rw [Kernel.Live, hbits] at hp
    rw [hpaging]
    exact h.mapped p hp
  cr3 := by rw [hpaging, hpid]; exact h.cr3
  esp0 := by rw [htss, hpid]; exact h.esp0

/-- A pid that is live while a root shell is being replaced was live before. -/
theorem live_of_restarting (h : k.Tracks σ) {ebx p : ℕ} (hp : (k.restarting ebx).Live p) : k.Live p := by
  obtain ⟨q, l, htop, hpcb⟩ := h.current
  exact ((h.table.live_dying htop hpcb ebx p).mp hp).1

/-- Every effect keeps the agreement. -/
theorem effect (htracks : k.Tracks σ) (h : CpuAgrees E k) (heffect : Effect E k a k') :
    CpuAgrees E k' := by
  obtain ⟨p, l, htop, hpcb⟩ := htracks.current
  obtain ⟨hpid, -, hparent, -⟩ := htracks.cur_links htop hpcb
  cases heffect with
  | screen s tty hs => exact h.congr rfl rfl rfl rfl
  | run ctx => exact h.congr rfl rfl rfl rfl
  | store off b => exact h.congr rfl rfl rfl rfl
  | vidmap hv =>
    refine ⟨h.ok.addVidmap _, fun q hq => ?_, rfl, h.esp0⟩
    show setEntry k.paging.pageDir k.cur.pid 33 _ q 32 = _
    rw [setEntry_of_ne _ _ (Or.inr (by decide))]
    exact h.mapped q hq
  | call hr hfree => exact enter (Kernel.Table.free_lt hfree) h.ok h.mapped
  | replace hroot hr hfree =>
    exact enter (Kernel.Table.free_lt hfree) h.ok fun q hq => h.mapped q (live_of_restarting htracks hq)
  | @back _ _ ebx hne =>
    cases l with
    | nil => exact absurd hparent hne
    | cons b l =>
      -- the directory and the stack of the parent are loaded
      have hb : k.cur.parentPid.toNat = b := by rw [hparent, List.head?_cons, linkOf, Int.toNat_natCast]
      have hpidb : (k.proc b).pid = b := htracks.table.pid b ⟨σ.current, by rw [htop]; simp⟩
      have hcur : (k.resumedParent E ebx).cur.pid = (k.proc b).pid := by
        show (Function.update (k.dying ebx).pcbs (pcbAddr k.cur.parentPid.toNat) _
          (pcbAddr k.cur.parentPid.toNat)).pid = _
        rw [Function.update_self, hb]
      refine ⟨h.ok.updatePaging _, fun q hq => ?_, ?_, ?_⟩
      · exact h.mapped q ((htracks.table.live_dying htop hpcb ebx q).mp hq).1
      · rw [hcur]
        show E.layout.dirAdrs (k.proc k.cur.parentPid.toNat).pid = _
        rw [hb]
      · rw [hcur]
        show kernelStackBase - (k.proc k.cur.parentPid.toNat).pid * taskStackSize = _
        rw [hb]
  | start hn hnew hs hr hfree => exact enter (Kernel.Table.free_lt hfree) h.ok h.mapped
  | reselect isr hp hp6 hrun =>
    refine h.congr rfl rfl rfl ?_
    show (Function.update k.pcbs k.pcb (saveContext k.cpu k.cur) k.pcb).pid = _
    rw [Function.update_self]
    rfl
  | @switch q isr hp hp6 hrun =>
    have hcur : (k.switchedTo E q).cur.pid = (k.proc q).pid :=
      (samePlace_saveContext k q).pid
    refine ⟨h.ok.updatePaging _, h.mapped, ?_, ?_⟩
    · rw [show Kernel.cur { k.switchedTo E q with isr := isr } = (k.switchedTo E q).cur from rfl, hcur]
      rfl
    · rw [show Kernel.cur { k.switchedTo E q with isr := isr } = (k.switchedTo E q).cur from rfl, hcur]
      rfl

theorem booted (st : Stack) (r : ℕ) (hpower : PowerOn k) : CpuAgrees E (k.booted E st r) := by
  refine enter (by decide) (Paging.initilizePaging_ok E.layout k.paging) fun p hp => ?_
  have hp' : k.pidBitmap.getLsbD p = true := hp
  rw [hpower.pidBitmap] at hp'
  simp at hp'

end CpuAgrees

section Runs

variable {E : Platform} {k : Kernel}

theorem reaches_cpuAgrees (hshell : ValidShell E.image) {as : List Action} (hreach : Reaches E as k) :
    (∃ σ, k.Tracks σ) ∧ CpuAgrees E k :=
  reaches_invariant hshell (fun st r _ hpower => CpuAgrees.booted st r hpower)
    (fun _ _ _ _ htracks h heffect => h.effect htracks heffect) hreach

/-- **The CPU state agrees with the running process, where all programs fit.**  In every state that is reached so,
`pcb` points to the PCB whose pid it holds, `CR3` is that pid's page directory, the kernel stack pointer is that pid's,
and the directory maps the program page to that pid's frame, address by address. -/
theorem cpu_agrees_with_current (hshell : ValidShell E.image) (as : List Action)
    (hreach : ReachesSafely E as k) :
    k.pcb = pcbAddr k.cur.pid ∧ k.paging.cr3 = E.layout.dirAdrs k.cur.pid ∧
    k.tss.esp0 = 0x800000 - k.cur.pid * 8192 ∧
    k.paging.pageDir k.cur.pid 32 = 0x800187 + k.cur.pid * 0x400000 ∧
    ∀ o < 0x400000, k.paging.translate E.layout k.paging.cr3 (0x8000000 + o)
      = some ⟨0x800000 + k.cur.pid * 0x400000 + o, true, true⟩ := by
  obtain ⟨⟨σ, htracks⟩, h⟩ := reaches_cpuAgrees hshell (hreach.reaches hshell)
  obtain ⟨p, l, htop, hpcb⟩ := htracks.current
  obtain ⟨hpid, -⟩ := htracks.cur_links htop hpcb
  have hp6 := htracks.table.bound p (Kernel.Table.holds_of_top htop)
  have hdir : k.paging.pageDir p 32 = 0x800187 + p * 0x400000 := h.mapped p (htracks.live_current htop)
  refine ⟨by rw [hpid, hpcb], h.cr3, ?_, by rw [hpid]; exact hdir, fun o ho => ?_⟩
  · rw [h.esp0, kernelStackBase, taskStackSize]
  · rw [h.cr3, hpid, h.ok.translate_program hp6 hdir (by omega),
      show (0x8000000 + o) % 2 ^ 22 = o from by omega]

/-- When the shell has called `ls` and there was a tick, the page directory of `ls` is loaded. -/
theorem cpu_agrees_with_current_ls : ∃ k,
    ReachesSafely twoProgramPlatform [.execute default (ascii "ls".toList), .tick] k ∧
    k.paging.cr3 = twoProgramPlatform.layout.dirAdrs k.cur.pid := by
  obtain ⟨k, hreach⟩ := exists_reachesSafely_ls
  exact ⟨k, hreach, (cpu_agrees_with_current twoProgramPlatform_shell _ hreach).2.1⟩

end Runs

/-- What is left when a process has handed over to the one that it takes for its parent. -/
theorem resumedParent_fields {E : Platform} {k : Kernel} {q : ℕ} (hparent : k.cur.parentPid = q) (ebx : ℕ) {k' : Kernel}
    (hk' : k' = k.resumedParent E ebx) :
    k'.cur.pid = (k.proc q).pid ∧ k'.pidBitmap = k.pidBitmap - pidBit k.cur.pid ∧
    k'.paging.pageDir = k.paging.pageDir ∧
    ∀ p, pcbAddr p ≠ k.pcb → pcbAddr p ≠ pcbAddr q → k'.proc p = k.proc p := by
  have hq : k.cur.parentPid.toNat = q := by rw [hparent, Int.toNat_natCast]
  rw [hk', Kernel.resumedParent, hq]
  refine ⟨?_, rfl, rfl, fun p hp hpq => ?_⟩
  · show (Function.update (k.dying ebx).pcbs (pcbAddr q) _ (pcbAddr q)).pid = _
    rw [Function.update_self]
  · show Function.update (Function.update k.pcbs k.pcb _) (pcbAddr q) _ (pcbAddr p) = k.proc p
    rw [Function.update_of_ne hpq, Function.update_of_ne hp, Kernel.proc]

/-- The shell executes `big`, which halts: the kernel goes on as process 2, which is not live and has no program
page. -/
theorem cpu_overrun : ∃ b k, bootOnStack bigProgramPlatform default powerOnKernel = some b ∧
    runs (stepOnStack bigProgramPlatform) [.execute default bigCommand, .halt default 0] b = some k ∧
    k.cur.pid = 2 ∧ ¬k.Live 2 ∧ k.paging.pageDir k.cur.pid 32 ≠ 0x800187 + k.cur.pid * 0x400000 := by
  obtain ⟨b, hboot, hpcb, hbits, hwhich, hexit, hpaging⟩ := bootOnStack_big
  obtain ⟨k, hstep, hpcb', hbits', hpaging', hpid, hprocs⟩ :=
    stepOnStack_big (by decide) default_over hpcb hbits hwhich hexit
  have hcur : k.cur = k.proc 1 := by rw [Kernel.cur, Kernel.proc, hpcb']
  have hparent : k.cur.parentPid = (2 : ℕ) := hcur ▸ (hprocs 1 (by decide)).1
  have hinj : ∀ {p q : ℕ}, p < 6 → p ≠ q → pcbAddr p ≠ pcbAddr q := fun hp hne h => hne ((pcbAddr_inj hp).mp h)
  obtain ⟨k', hk'⟩ : ∃ k', k' = k.resumedParent bigProgramPlatform 0 := ⟨_, rfl⟩
  obtain ⟨hpid', hbits'', hdir, hothers⟩ := resumedParent_fields hparent 0 hk'
  rw [(hprocs 2 (by decide)).2 (by decide)] at hpid'
  rw [hcur, hpid, hbits'] at hbits''
  -- process 0 is the only one that is left
  have hlive : ∀ p, k'.Live p ↔ p = 0 := by
    intro p
    rw [Kernel.Live, hbits'', show (3 : BitVec 8) - pidBit 1 = pidBit 0 by decide, getLsbD_pidBit (by decide),
      decide_eq_true_iff]
  have hrange : k'.PidsInRange := by
    intro p _ hp
    obtain rfl := (hlive p).mp hp
    rw [hothers 0 (by rw [hpcb']; exact hinj (by decide) (by decide)) (hinj (by decide) (by decide)),
      (hprocs 0 (by decide)).2 (by decide), (hprocs 0 (by decide)).1]
    decide
  have hhalt : stepOnStack bigProgramPlatform (.halt default 0) k = some k' := by
    have hself : pcbAddr k.cur.parentPid.toNat ≠ k.pcb := by
      rw [hparent, Int.toNat_natCast, hpcb']
      exact hinj (by decide) (by decide)
    refine stepOnStack_of_stepWith trivial ?_ hrange
    rw [stepWith, sysHaltWith_back overrun default 0 (by rw [hparent]; decide) hself, Option.map_some, ← hk']
  refine ⟨b, k', hboot, runs_cons_eq_some.mpr ⟨k, hstep, runs_cons_eq_some.mpr ⟨k', hhalt, rfl⟩⟩, hpid', ?_, ?_⟩
  · rw [hlive]
    decide
  · rw [hpid', hdir, hpaging', hpaging]
    decide +kernel

end ClosKernel
