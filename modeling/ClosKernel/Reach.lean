import ClosKernel.ProcessTable

/-!
# Reachable kernels

`Effect` lists, as one record each, everything that an action can do to a kernel that holds the terminals'
stacks.  `step_effect` proves that nothing else happens; the invariants of this development are then shown
effect by effect, without looking into the functions again.

* `step_effect` — the inversion of a step;
* `Effect.refines` — **refinement**: every effect is a step of the terminals' stacks;
* `reaches_invariant` — the rule for reachable states; `Kernel.Tracks.chainOn` — what the stacks say about the fields of
  the process table.
-/

namespace ClosKernel

open PartialRun LinkedStack

/-! ### The ways a shell or a program is launched -/

/-- The running process has executed the program of entry `r`. -/
def Kernel.called (E : Platform) (st : Stack) (command : List UInt8) (r free : ℕ) (k : Kernel) : Kernel :=
  (k.loaded E st free r).enter free k.cur.pid k.cur.curTerminal (readProgram E st r).2
    (commandBuffers command st.cmd).2 (Function.update k.pcbs k.pcb { k.cur with childPid := free })

/-- A root shell has halted and another shell has taken its terminal. -/
def Kernel.replaced (E : Platform) (st : Stack) (ebx r free : ℕ) (k : Kernel) : Kernel :=
  ((k.restarting ebx).loaded E st free r).enter free (-1) k.cur.curTerminal (readProgram E st r).2
    (commandBuffers shellCommand st.cmd).2 (k.restarting ebx).pcbs

/-- The first shell of terminal `n` has been started. -/
def Kernel.opened (E : Platform) (st : Stack) (n : ℤ) (s : Screen) (isr : ℕ → Bool) (r free : ℕ)
    (k : Kernel) : Kernel :=
  ((k.starting s isr n).loaded E st free r).enter free (-1) n (readProgram E st r).2
    (commandBuffers shellLine st.cmd).2 k.pcbs

/-- The action may come to `sys_halt`: `vidmap` does when its store faults. -/
def Action.MayHalt : Action → Prop
  | .halt _ _ | .vidmap _ _ => True
  | .run _ | .store _ _ | .output _ | .execute _ _ | .tick | .screenChange _ _ => False

/-- Everything an action can do to a kernel that tracks the stacks. -/
inductive Effect (E : Platform) (k : Kernel) : Action → Kernel → Prop
  /-- Only the screen and the line buffers change. -/
  | screen {a : Action} (s : Screen) (tty : Tty) (hs : s.numShells = k.screen.numShells) :
      Effect E k a { k with screen := s, tty := tty }
  | run (ctx : Context) : Effect E k (.run ctx) { k with cpu := ctx }
  | store (off : Fin 0x400000) (b : UInt8) : Effect E k (.store off b) { k with
      phys := copyOut E.layout k.paging (progVirAddrStart + off) (fun _ => b) 1 k.phys }
  | vidmap {st : Stack} {v : ℕ} (hv : progVirAddrStart ≤ v ∧ v < progVirAddrStart + progPageSize) :
      Effect E k (.vidmap st v) { k with
        phys := copyOut E.layout k.paging v (wordBytes (progVirAddrStart + progPageSize)) 4 k.phys
        paging := k.paging.addVidmap E.layout k.cur.pid (progVirAddrStart + progPageSize) }
  | call {st : Stack} {command : List UInt8} {r free : ℕ}
      (hr : E.image.lookup (commandBuffers command st.cmd).1 = some (some r))
      (hfree : freePid k.pidBitmap = some free) :
      Effect E k (.execute st command) (k.called E st command r free)
  | replace {a : Action} {h : a.MayHalt} {st : Stack} {ebx r free : ℕ} (hroot : k.cur.parentPid = -1)
      (hr : ProgramAt E.image shellCommand r)
      (hfree : freePid (k.restarting ebx).pidBitmap = some free) :
      Effect E k a (k.replaced E st ebx r free)
  | back {a : Action} {h : a.MayHalt} {ebx : ℕ} (hparent : k.cur.parentPid ≠ -1) :
      Effect E k a (k.resumedParent E ebx)
  | start {st : Stack} {n : ℤ} {s : Screen} {isr : ℕ → Bool} {r free : ℕ} (hn : IsTerminal n)
      (hnew : ¬k.screen.Started n) (hs : s.numShells = k.screen.numShells ||| (termMask n).toBitVec)
      (hr : ProgramAt E.image shellCommand r) (hfree : freePid k.pidBitmap = some free) :
      Effect E k (.screenChange st n) (k.opened E st n s isr r free)
  | reselect {p : ℕ} (isr : ℕ → Bool) (hp : k.pcb = pcbAddr p) (hp6 : p < 6) (hrun : k.Runnable p) :
      Effect E k .tick { k.reselected p with isr := isr }
  | switch {p : ℕ} (isr : ℕ → Bool) (hp : k.pcb ≠ pcbAddr p) (hp6 : p < 6) (hrun : k.Runnable p) :
      Effect E k .tick { k.switchedTo E p with isr := isr }

namespace Kernel.Tracks

variable {E : Platform} {st : Stack} {k k' : Kernel} {σ : Shells}

theorem live_current (h : k.Tracks σ) {p : ℕ} {l : List ℕ}
    (htop : σ.table.stack σ.current = p :: l) : k.Live p :=
  (h.table.live p).mpr (Kernel.Table.holds_of_top htop)

/-- The running process is on top of its terminal's stack; its parent link says whether it is alone. -/
theorem cur_links (h : k.Tracks σ) {p : ℕ} {l : List ℕ} (htop : σ.table.stack σ.current = p :: l)
    (hpcb : k.pcb = pcbAddr p) :
    k.cur.pid = p ∧ k.cur.curTerminal = σ.current ∧ k.cur.parentPid = linkOf l.head? ∧
      k.cur.childPid = -1 := by
  have hcur : k.cur = k.proc p := by rw [Kernel.cur, hpcb, Kernel.proc]
  have hlinks := h.table.threaded σ.current
  rw [htop] at hlinks
  rw [hcur]
  exact ⟨h.table.pid p (Kernel.Table.holds_of_top htop),
    h.table.curTerminal _ p (htop ▸ List.mem_cons_self), hlinks.2.1, hlinks.1⟩

theorem printf_effect (k : Kernel) (a : Action) (bytes : List UInt8) :
    Effect E k a (k.printf bytes) :=
  .screen _ k.tty (k.screen.puts_statics _ _).2.1

theorem execute_eq (h : k.Tracks σ) {command : List UInt8} {o : Outcome}
    (hexec : sysExecute E st command k = some (o, k')) :
    (o = .ret (-1) ∧ k' = k.printf (executeText E st command k)) ∨
    ∃ r free, E.image.lookup (commandBuffers command st.cmd).1 = some (some r) ∧
      freePid k.pidBitmap = some free ∧ o = .launched ∧ executeText E st command k = [] ∧
      k' = k.called E st command r free := by
  rcases sysExecute_cases hexec with ⟨ho, hprint, _⟩ | ⟨r, free, hr, _, hfree, ho, htext, rfl⟩
  · exact Or.inl ⟨ho, hprint⟩
  · rw [enterProcess_child free _ _ (k := k.loaded E st free r) h.whichTerm h.attemptExit
      (h.pcb_ne_free hfree)]
    exact Or.inr ⟨r, free, hr, hfree, ho, htext, rfl⟩

/-- `sys_halt` replaces a root shell, and otherwise goes back to the parent. -/
theorem halt_eq (hshell : ValidShell E.image) (h : k.Tracks σ) {ebx : ℕ} {o : Outcome}
    (hhalt : sysHalt E st ebx k = some (o, k')) :
    (k.cur.parentPid = -1 ∧ o = .launched ∧ ∃ r free, ProgramAt E.image shellCommand r ∧
      freePid (k.restarting ebx).pidBitmap = some free ∧ k' = k.replaced E st ebx r free) ∨
    (k.cur.parentPid ≠ -1 ∧ o = .resumed (ebx % 2 ^ 8) ∧ k' = k.resumedParent E ebx) := by
  obtain ⟨p, l, htop, hpcb⟩ := h.current
  have hp6 := h.table.bound p (Kernel.Table.holds_of_top htop)
  obtain ⟨-, hterm, hparent, -⟩ := h.cur_links htop hpcb
  -- a parent is another member of the stack
  have hself : k.cur.parentPid ≠ -1 → pcbAddr k.cur.parentPid.toNat ≠ k.pcb := by
    intro hne he
    cases l with
    | nil => exact hne hparent
    | cons b l =>
      have hnodup := σ.table.nodup σ.current
      rw [htop, List.nodup_cons] at hnodup
      rw [hparent, hpcb, List.head?_cons, linkOf, Int.toNat_natCast] at he
      exact hnodup.1 (((pcbAddr_inj hp6).mp he.symm) ▸ List.mem_cons_self)
  rcases sysHalt_cases hself hhalt with ⟨hroot, hexec⟩ | hback
  · have hl : l = [] := by
      cases l with
      | nil => rfl
      | cons b l =>
        rw [hparent, List.head?_cons, linkOf] at hroot
        omega
    rw [hl] at htop
    -- the image has a shell, and the pid given back is free again
    have htable : (k.restarting ebx).Table (σ.table.pop σ.current) :=
      (h.table.clear htop hpcb ebx).congr rfl fun _ _ => Pcb.SamePlace.refl _
    obtain ⟨free, hfree⟩ := htable.exists_free hp6
      fun hh => ((StackTable.holds_pop htop).mp hh).2 rfl
    obtain ⟨r, hr⟩ := hshell
    rw [ProgramAt.launches (firstWord_shellCommand.symm ▸ hr) hfree, Option.some_inj,
      Prod.mk.injEq] at hexec
    refine Or.inl ⟨hroot, hexec.1.symm, r, free, hr, hfree, ?_⟩
    rw [← hexec.2, enterProcess_restart free _ _ (k := (k.restarting ebx).loaded E st free r)
      h.whichTerm rfl]
    have hsame : ((k.restarting ebx).loaded E st free r).cur.curTerminal = k.cur.curTerminal := by
      show (Function.update k.pcbs k.pcb _ k.pcb).curTerminal = k.cur.curTerminal
      rw [Function.update_self]
    rw [hsame]
    rfl
  · exact Or.inr hback

theorem halt_effect (hshell : ValidShell E.image) (h : k.Tracks σ) {a : Action} (ha : a.MayHalt) {ebx : ℕ}
    {o : Outcome} (hhalt : sysHalt E st ebx k = some (o, k')) : Effect E k a k' := by
  rcases h.halt_eq hshell hhalt with ⟨hroot, _, r, free, hr, hfree, rfl⟩ | ⟨hne, _, rfl⟩
  · exact .replace (h := ha) hroot hr hfree
  · exact .back (h := ha) hne

/-- The shell of a new terminal is there and gets a pid. -/
theorem opened_eq (hshell : ValidShell E.image) (h : k.Tracks σ) {n : ℤ} (hn : IsTerminal n)
    (hfull : k.pidBitmap ≠ 0x3F) {s : Screen} {isr : ℕ → Bool} {o : Outcome} {m : Kernel}
    (hexec : sysExecute E st shellLine (k.starting s isr n) = some (o, m)) :
    ∃ r free, ProgramAt E.image shellCommand r ∧ freePid k.pidBitmap = some free ∧
      (if o = .launched then m else m.setScreen (m.screen.showTerminal n)) = k.opened E st n s isr r free := by
  obtain ⟨free, hfree⟩ := h.table.exists_free_of_ne_full hfull
  obtain ⟨r, hr⟩ := hshell
  rw [ProgramAt.launches (k := k.starting s isr n) (firstWord_shellLine.symm ▸ hr) hfree,
    Option.some_inj, Prod.mk.injEq] at hexec
  obtain ⟨rfl, rfl⟩ := hexec
  refine ⟨r, free, hr, hfree, ?_⟩
  rw [if_pos rfl, enterProcess_start free _ _ (k := (k.starting s isr n).loaded E st free r) hn rfl
    h.attemptExit]
  rfl

/-- `screenChange` changes the screen and the line buffer only, or launches the shell of a new terminal. -/
theorem screenChange_eq (hshell : ValidShell E.image) (h : k.Tracks σ) {n : ℤ}
    (hstep : ClosKernel.screenChange E st n k = some k') :
    (∃ s tty, k' = { k with screen := s, tty := tty } ∧ s.numShells = k.screen.numShells) ∨
    ∃ s isr r free, IsTerminal n ∧ ¬k.screen.Started n ∧
      s.numShells = k.screen.numShells ||| (termMask n).toBitVec ∧
      ProgramAt E.image shellCommand r ∧ freePid k.pidBitmap = some free ∧
      k' = k.opened E st n s isr r free := by
  have hputs := fun s bytes => (Screen.puts_statics k.cur.curTerminal bytes s).2.1
  have hsaved := k.savedScreen_numShells
  cases screenChange_cases hstep with
  | again hsame hn => exact Or.inl ⟨_, _, rfl, hputs _ _⟩
  | lost hsame hn => exact Or.inl ⟨_, k.tty, rfl, hputs _ _⟩
  | shown hne hstarted => exact Or.inl ⟨_, k.tty, rfl, (Screen.setPage_numShells ..).trans hsaved⟩
  | refused hne hn hnew hfull => exact Or.inl ⟨_, k.tty, rfl, hsaved⟩
  | higher hne hn => exact Or.inl ⟨_, k.tty, rfl, (hputs _ _).trans hsaved⟩
  | opened hne hn hnew hfull hexec =>
    obtain ⟨r, free, hr, hfree, heq⟩ := h.opened_eq hshell hn hfull hexec
    refine Or.inr ⟨_, _, r, free, hn, hnew, ?_, hr, hfree, heq⟩
    rw [← hsaved]
    rfl

/-- `vidmap` refuses a bad pointer, faults and halts the process, or maps video memory. -/
theorem vidmap_eq {v : ℕ} {o : Outcome} (hvid : ClosKernel.vidmap E st v k = some (o, k')) :
    (o = .ret (-1) ∧ k' = k) ∨ sysHalt E st 256 k = some (o, k') ∨
    (o = .ret 0 ∧ (progVirAddrStart ≤ v ∧ v < progVirAddrStart + progPageSize) ∧ k' = { k with
      phys := copyOut E.layout k.paging v (wordBytes (progVirAddrStart + progPageSize)) 4 k.phys
      paging := k.paging.addVidmap E.layout k.cur.pid (progVirAddrStart + progPageSize) }) := by
  rw [ClosKernel.vidmap, vidmapWith] at hvid
  by_cases hrange : v < progVirAddrStart ∨ progVirAddrStart + progPageSize ≤ v
  · rw [if_pos hrange, Option.some_inj, Prod.mk.injEq] at hvid
    exact Or.inl ⟨hvid.1.symm, hvid.2.symm⟩
  · rw [if_neg hrange] at hvid
    by_cases hmapped : (k.paging.translate E.layout k.paging.cr3 (v + 3)).isSome
    · rw [if_neg (not_not.mpr hmapped), Option.some_inj, Prod.mk.injEq] at hvid
      exact Or.inr (Or.inr ⟨hvid.1.symm, by omega, hvid.2.symm⟩)
    · rw [if_pos hmapped] at hvid
      exact Or.inr (Or.inl hvid)

theorem tick_effect (h : k.Tracks σ) (hstep : step E .tick k = some k') : Effect E k .tick k' := by
  obtain ⟨isr, ⟨hzero, _⟩ | ⟨p, hp6, hrun, ⟨hp, rfl⟩ | ⟨hp, rfl⟩⟩⟩ := tick_cases h.curProc hstep
  · -- some process is live, so the bitmap is not empty
    obtain ⟨p, l, htop, _⟩ := h.current
    have hlive : k.pidBitmap.getLsbD p = true := h.live_current htop
    rw [hzero] at hlive
    simp at hlive
  · exact .reselect isr hp hp6 hrun
  · exact .switch isr hp hp6 hrun

end Kernel.Tracks

section Runs

variable {E : Platform} {st : Stack} {k k' : Kernel} {σ : Shells} {a : Action}

/-- **Inversion of a step.** -/
theorem step_effect (hshell : ValidShell E.image) (h : k.Tracks σ) (hstep : step E a k = some k') :
    Effect E k a k' := by
  cases a with
  | run ctx => exact Option.some_inj.mp hstep ▸ .run ctx
  | store off b => exact Option.some_inj.mp hstep ▸ .store off b
  | output bytes => exact Option.some_inj.mp hstep ▸ Kernel.Tracks.printf_effect k _ bytes
  | execute st command =>
    obtain ⟨⟨o, m⟩, hexec, rfl⟩ := Option.map_eq_some_iff.mp hstep
    rcases h.execute_eq hexec with ⟨-, rfl⟩ | ⟨r, free, hr, hfree, -, -, rfl⟩
    · exact Kernel.Tracks.printf_effect k _ _
    · exact .call hr hfree
  | halt st ebx =>
    obtain ⟨⟨o, m⟩, hhalt, rfl⟩ := Option.map_eq_some_iff.mp hstep
    exact h.halt_effect hshell trivial hhalt
  | vidmap st v =>
    obtain ⟨⟨o, m⟩, hvid, rfl⟩ := Option.map_eq_some_iff.mp hstep
    rcases Kernel.Tracks.vidmap_eq hvid with ⟨-, rfl⟩ | hhalt | ⟨-, hv, rfl⟩
    · exact .screen _ _ rfl
    · exact h.halt_effect hshell trivial hhalt
    · exact .vidmap hv
  | tick => exact h.tick_effect hstep
  | screenChange st n =>
    rcases h.screenChange_eq hshell hstep with
      ⟨s, tty, rfl, hs⟩ | ⟨s, isr, r, free, hn, hnew, hs, hr, hfree, rfl⟩
    · exact .screen s tty hs
    · exact .start hn hnew hs hr hfree

/-- Whatever the kernel saved of the interrupted process, no process has moved. -/
theorem samePlace_saveContext (k : Kernel) (q : ℕ) :
    Pcb.SamePlace (Function.update k.pcbs k.pcb (saveContext k.cpu k.cur) (pcbAddr q)) (k.proc q) := by
  by_cases hq : pcbAddr q = k.pcb
  · rw [hq, Function.update_self, Kernel.proc, hq]
    exact ⟨rfl, rfl, rfl, rfl⟩
  · rw [Function.update_of_ne hq]
    exact Pcb.SamePlace.refl _

theorem Kernel.Tracks.samePlace (m : Kernel) (hm : m.pcbs = k.pcbs) (q : ℕ) : (m.proc q).SamePlace (k.proc q) := by
  rw [Kernel.proc, Kernel.proc, hm]
  exact Pcb.SamePlace.refl _

/-- A root shell that halts is replaced: its stack is popped, and the new shell is alone on it. -/
theorem Kernel.Tracks.refines_replaced (h : k.Tracks σ) {ebx r free : ℕ} (hroot : k.cur.parentPid = -1)
    (hfree : freePid (k.restarting ebx).pidBitmap = some free) :
    ∃ σ', σ.Step σ' ∧ (k.replaced E st ebx r free).Tracks σ' := by
  obtain ⟨p, l, htop, hpcb⟩ := h.current
  obtain ⟨-, hterm, hparent, -⟩ := h.cur_links htop hpcb
  have hterminal := h.table.terminal σ.current (by rw [htop]; simp)
  have hl : l = [] := by
    cases l with
    | nil => rfl
    | cons b l =>
      rw [hparent, List.head?_cons, linkOf] at hroot
      omega
  rw [hl] at htop
  have hload : ((k.restarting ebx).loaded E st free r).Table (σ.table.pop σ.current) :=
    (h.table.clear htop hpcb ebx).congr rfl fun _ _ => Pcb.SamePlace.refl _
  refine ⟨_, .replace htop (hload.not_holds_of_free hfree), ?_⟩
  rw [Kernel.replaced, hterm]
  refine Kernel.Tracks.enter_first hload hfree hterminal ?_ (fun u => ?_) h.curProc
  · rw [StackTable.pop_stack, Function.update_self, htop, List.tail_cons]
  · show _ ↔ (if k.first then k.screen else k.screen.screenInit).Started u
    rw [if_pos h.first, ← h.started u, StackTable.pop_stack]
    by_cases hu : u = σ.current
    · rw [hu, htop]
      simp
    · rw [Function.update_of_ne hu]
      simp [hu]

/-- Any other process that halts is popped from its stack. -/
theorem Kernel.Tracks.refines_resumedParent (h : k.Tracks σ) {ebx : ℕ} (hne : k.cur.parentPid ≠ -1) :
    ∃ σ', σ.Step σ' ∧ (k.resumedParent E ebx).Tracks σ' := by
  obtain ⟨p, l, htop, hpcb⟩ := h.current
  obtain ⟨-, -, hparent, -⟩ := h.cur_links htop hpcb
  cases l with
  | nil => exact absurd hparent hne
  | cons b l =>
    obtain ⟨htable, hpcb'⟩ := h.table.resume (E := E) htop hpcb ebx
    have htail : (σ.table.pop σ.current).stack σ.current = b :: l := by
      rw [StackTable.pop_stack, Function.update_self, htop, List.tail_cons]
    refine ⟨⟨σ.table.pop σ.current, σ.current⟩, .back htop, htable, ⟨b, l, htail, hpcb'⟩, fun u => ?_,
      h.whichTerm, h.attemptExit, h.curProc, h.first⟩
    show _ ↔ k.screen.Started u
    rw [← h.started u]
    by_cases hu : u = σ.current
    · rw [hu, htail, htop]
      simp
    · rw [StackTable.pop_stack, Function.update_of_ne hu]

/-- A new terminal gets a stack. -/
theorem Kernel.Tracks.refines_opened (h : k.Tracks σ) {n : ℤ} {s : Screen} {isr : ℕ → Bool} {r free : ℕ}
    (hn : IsTerminal n) (hnew : ¬k.screen.Started n)
    (hs : s.numShells = k.screen.numShells ||| (termMask n).toBitVec) (hfree : freePid k.pidBitmap = some free) :
    ∃ σ', σ.Step σ' ∧ (k.opened E st n s isr r free).Tracks σ' := by
  have hempty : σ.table.stack n = [] := by
    by_contra hne
    exact hnew ((h.started n).mp hne)
  have hload : ((k.starting s isr n).loaded E st free r).Table σ.table :=
    h.table.congr rfl fun q _ => Kernel.Tracks.samePlace _ rfl q
  refine ⟨_, .start (hload.not_holds_of_free hfree) hempty, ?_⟩
  refine Kernel.Tracks.enter_first hload hfree hn hempty (fun u => ?_) h.curProc
  show _ ↔ (if k.first then s else s.screenInit).Started u
  rw [if_pos h.first, h.started u]
  exact (Screen.started_or hn hs u).symm

/-- **Refinement.**  Every effect is a step of the terminals' stacks. -/
theorem Effect.refines (h : k.Tracks σ) (heffect : Effect E k a k') :
    ∃ σ', σ.Step σ' ∧ k'.Tracks σ' := by
  have hsame : ∀ (m : Kernel), m.pcbs = k.pcbs → ∀ q, σ.table.Holds q → (m.proc q).SamePlace (k.proc q) :=
    fun m hm q _ => Kernel.Tracks.samePlace m hm q
  have hnext : ∀ q < 6, (if q = 5 then 0 else q + 1) < 6 := fun q hq => by split <;> omega
  cases heffect with
  | screen s tty hs =>
    exact ⟨σ, .stay σ, h.congr rfl rfl (hsame _ rfl) hs rfl rfl h.curProc rfl⟩
  | run ctx => exact ⟨σ, .stay σ, h.congr rfl rfl (hsame _ rfl) rfl rfl rfl h.curProc rfl⟩
  | store off b => exact ⟨σ, .stay σ, h.congr rfl rfl (hsame _ rfl) rfl rfl rfl h.curProc rfl⟩
  | vidmap hv => exact ⟨σ, .stay σ, h.congr rfl rfl (hsame _ rfl) rfl rfl rfl h.curProc rfl⟩
  | @call st command r free hr hfree =>
    have hload : (k.loaded E st free r).Tracks σ :=
      h.congr rfl rfl (hsame _ rfl) rfl rfl rfl h.curProc rfl
    exact hload.enter_child _ _ hfree
  | replace hroot hr hfree => exact h.refines_replaced hroot hfree
  | back hne => exact h.refines_resumedParent hne
  | start hn hnew hs hr hfree => exact h.refines_opened hn hnew hs hfree
  | reselect isr _ hp6 _ =>
    exact ⟨σ, .stay σ, h.congr rfl rfl (fun q _ => samePlace_saveContext k q) rfl rfl rfl
      (hnext _ hp6) rfl⟩
  | @switch p isr _ hp6 hrun =>
    -- a runnable process is the top of some stack
    obtain ⟨t, ht⟩ := (h.table.live p).mp hrun.1
    have htop := ((h.table.threaded t).down_eq_none_iff linkOf_injective ht).mp hrun.2
    obtain ⟨l, hl⟩ := List.head?_eq_some_iff.mp htop
    refine ⟨⟨σ.table, t⟩, .switch (by rw [hl]; simp), ?_⟩
    exact ⟨h.table.congr rfl fun q _ => samePlace_saveContext k q, ⟨p, l, hl, rfl⟩, h.started,
      h.whichTerm, h.attemptExit, hnext p hp6, h.first⟩

/-! ### Booting -/

/-- No process yet. -/
def noShells : StackTable ℤ ℕ := ⟨fun _ => [], fun _ => List.nodup_nil, fun h => by simp at h⟩

/-- Booting starts the shell of terminal 1, as process 0. -/
def Kernel.booted (E : Platform) (st : Stack) (r : ℕ) (k : Kernel) : Kernel :=
  ((beforeShell E k).loaded E st 0 r).enter 0 (-1) 1 (readProgram E st r).2
    (commandBuffers shellLine st.cmd).2 k.pcbs

theorem boot_eq (st : Stack) {r : ℕ} (hr : ProgramAt E.image shellCommand r) (hpower : PowerOn k) :
    boot E st k = some (k.booted E st r) := by
  have hfree : freePid (beforeShell E k).pidBitmap = some 0 := by
    show freePid k.pidBitmap = some 0
    rw [hpower.pidBitmap]
    decide
  show (sysExecute E st shellLine (beforeShell E k)).map Prod.snd = _
  rw [ProgramAt.launches (firstWord_shellLine.symm ▸ hr) hfree, Option.map_some,
    enterProcess_start 0 _ _ (k := (beforeShell E k).loaded E st 0 r) (t := 1) (Or.inl rfl) rfl
      hpower.attemptExit]
  rfl

theorem booted_tracks (st : Stack) (r : ℕ) (hpower : PowerOn k) : ∃ σ, (k.booted E st r).Tracks σ := by
  have hno : ∀ p, ¬noShells.Holds p := fun p ⟨t, ht⟩ => by simp [noShells] at ht
  have hload : ((beforeShell E k).loaded E st 0 r).Table noShells := by
    refine ⟨fun p => iff_of_false ?_ (hno p), fun p hp => absurd hp (hno p), fun t ht => absurd rfl ht,
      fun t => trivial, fun t p hp => absurd ⟨t, hp⟩ (hno p), fun p hp => absurd hp (hno p)⟩
    show ¬k.pidBitmap.getLsbD p = true
    rw [hpower.pidBitmap]
    simp
  have hfree : freePid k.pidBitmap = some 0 := by
    rw [hpower.pidBitmap]
    decide
  refine ⟨_, Kernel.Tracks.enter_first hload hfree (Or.inl rfl) rfl (fun u => ?_) ?_⟩
  · show _ ↔ (if k.first then k.screen.clear else k.screen.clear.screenInit).Started u
    rw [hpower.first, if_neg (by decide)]
    refine (or_congr_right ?_).trans
      (Screen.started_or (s := k.screen) (Or.inl rfl) rfl u).symm
    refine iff_of_false (fun h => h rfl) fun hs => hs.2 ?_
    rw [hpower.numShells]
    simp
  · show k.curProc < 6
    rw [hpower.curProc]
    decide

/-- **Invariants of reachable kernels.**  What holds after booting and is kept by every effect holds in every
reachable state. -/
theorem reaches_invariant (hshell : ValidShell E.image) {P : Kernel → Prop}
    (hboot : ∀ st r k, PowerOn k → P (k.booted E st r))
    (heffect : ∀ σ k a k', k.Tracks σ → P k → Effect E k a k' → P k') {as : List Action}
    (hreach : Reaches E as k) : (∃ σ, k.Tracks σ) ∧ P k := by
  obtain ⟨k₀, st, hpower, hrun⟩ := hreach
  obtain ⟨r, hr⟩ := hshell
  rw [boot_eq st hr hpower, Option.bind_some] at hrun
  refine runs_invariant (P := fun k => (∃ σ : Shells, k.Tracks σ) ∧ P k) ?_
    ⟨booted_tracks st r hpower, hboot st r k₀ hpower⟩ hrun
  rintro a s s' ⟨⟨σ, hσ⟩, hinv⟩ hstep
  have heff := step_effect ⟨r, hr⟩ hσ hstep
  obtain ⟨σ', -, hσ'⟩ := heff.refines hσ
  exact ⟨⟨σ', hσ'⟩, heffect σ s a s' hσ hinv heff⟩

theorem reaches_tracks (hshell : ValidShell E.image) {as : List Action} (hreach : Reaches E as k) :
    ∃ σ, k.Tracks σ :=
  (reaches_invariant (P := fun _ => True) hshell (fun _ _ _ _ => trivial)
    (fun _ _ _ _ _ _ _ => trivial) hreach).1

/-- In a state between two actions a tick comes back: the search of `schedule` ends. -/
theorem tick_returns (h : k.Tracks σ) : ∃ k', step E .tick k = some k' := by
  obtain ⟨p, l, htop, _⟩ := h.current
  have hp := Kernel.Table.holds_of_top htop
  have hlinks := h.table.threaded σ.current
  rw [htop] at hlinks
  have hrun : k.Runnable p := ⟨(h.table.live p).mpr hp, hlinks.1⟩
  have hsome := scheduleSearch_isSome k h.curProc (h.table.bound p hp) hrun
  obtain ⟨q, hq⟩ := Option.isSome_iff_exists.mp hsome
  have hbits : k.pidBitmap ≠ 0 := by
    intro hzero
    have hlive : k.pidBitmap.getLsbD p = true := hrun.1
    rw [hzero] at hlive
    simp at hlive
  rw [step, stepWith, pitHandler, if_pos (by exact hbits),
    schedule_eq { k with isr := Function.update k.isr 0 true } (by exact hq), Option.map_some]
  exact ⟨_, rfl⟩

/-! ### The fields of the process table -/

/-- The processes of terminal `t` form one chain, from its leaf to its root. -/
structure Kernel.ChainOn (k : Kernel) (t : ℤ) (l : List ℕ) : Prop where
  ne_nil : l ≠ []
  nodup : l.Nodup
  mem : ∀ p, p ∈ l ↔ k.Live p ∧ (k.proc p).curTerminal = t
  linked : l.IsChain fun c p => (k.proc c).parentPid = p ∧ (k.proc p).childPid = c
  root : ∀ p ∈ l, (k.proc p).parentPid = -1 ↔ l.getLast? = some p
  leaf : ∀ p ∈ l, (k.proc p).childPid = -1 ↔ l.head? = some p

theorem Kernel.Tracks.chainOn (h : k.Tracks σ) {t : ℤ} (ht : k.screen.Started t) :
    k.ChainOn t (σ.table.stack t) where
  ne_nil := (h.started t).mpr ht
  nodup := σ.table.nodup t
  mem p := by
    constructor
    · exact fun hp => ⟨(h.table.live p).mpr ⟨t, hp⟩, h.table.curTerminal t p hp⟩
    · rintro ⟨hlive, hterm⟩
      obtain ⟨u, hu⟩ := (h.table.live p).mp hlive
      rwa [← hterm, h.table.curTerminal u p hu]
  linked := (h.table.threaded t).isChain
  root p hp := (h.table.threaded t).up_eq_none_iff linkOf_injective hp
  leaf p hp := (h.table.threaded t).down_eq_none_iff linkOf_injective hp

end Runs

/-- A machine that has been switched on. -/
def powerOnKernel : Kernel where
  pcb := 0
  pcbs := fun _ => default
  pidBitmap := 0
  whichTerm := 0
  attemptExit := false
  first := false
  programException := false
  curProc := 0
  screen := ⟨0, 0, fun _ => 0, fun _ => 0, fun _ => 0, fun _ _ => 0, false, 0⟩
  tty := default
  rtc := default
  isr := fun _ => false
  paging := default
  phys := fun _ => 0
  tss := default
  cpu := default

theorem powerOnKernel_powerOn : PowerOn powerOnKernel :=
  ⟨rfl, rfl, rfl, rfl, rfl, rfl, rfl, rfl, fun _ => ⟨rfl, rfl⟩⟩

def twoProgramPlatform : Platform := ⟨default, twoProgramImage⟩

theorem twoProgramPlatform_shell : ValidShell twoProgramPlatform.image := ⟨0, twoProgramImage_shell⟩

/-- A run of the machine from where it has booted reaches its last state. -/
theorem reaches_of_runs {as : List Action} {b k : Kernel}
    (hboot : boot twoProgramPlatform default powerOnKernel = some b)
    (hrun : runs (step twoProgramPlatform) as b = some k) : Reaches twoProgramPlatform as k :=
  ⟨powerOnKernel, default, powerOnKernel_powerOn, by rw [hboot, Option.bind_some, hrun]⟩

end ClosKernel
