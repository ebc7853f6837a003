import ClosKernel.Lib.LinkedStack
import ClosKernel.Machine

/-!
# The process table

Abstractly the kernel keeps one stack of processes per terminal: the bottom is the terminal's shell, the top is
the process that may run, and one terminal is current.  `Shells` is that abstract state and `Shells.Step` the
five ways it changes.  `Kernel.Tracks` relates it to the PCBs, the bitmap and the one-shot flags of the kernel.

* `Table.start`, `Table.child`, `Table.resume`, `Table.clear` — how entering and halting a process change the table;
* `Tracks.congr`, `Tracks.enter_first` — the same with the flags and the started terminals.
-/

namespace ClosKernel

open PartialRun LinkedStack

/-- How a link to a process is stored: -1 stands for no process. -/
def linkOf : Option ℕ → ℤ
  | none => -1
  | some p => p

theorem linkOf_injective : Function.Injective linkOf := by
  rintro (_ | p) (_ | q) h
  · rfl
  · simp only [linkOf] at h; omega
  · simp only [linkOf] at h; omega
  · simp only [linkOf, Int.natCast_inj] at h
    rw [h]

/-- The fields of a PCB that place it in the table. -/
structure Pcb.SamePlace (p q : Pcb) : Prop where
  parentPid : p.parentPid = q.parentPid
  childPid : p.childPid = q.childPid
  curTerminal : p.curTerminal = q.curTerminal
  pid : p.pid = q.pid

theorem Pcb.SamePlace.refl (p : Pcb) : p.SamePlace p := ⟨rfl, rfl, rfl, rfl⟩

/-- The PCBs and the bitmap hold the stacks `S`. -/
structure Kernel.Table (k : Kernel) (S : StackTable ℤ ℕ) : Prop where
  live : ∀ p, k.Live p ↔ S.Holds p
  bound : ∀ p, S.Holds p → p < 6
  terminal : ∀ t, S.stack t ≠ [] → IsTerminal t
  threaded : S.Threaded (fun p => (k.proc p).parentPid) (fun p => (k.proc p).childPid) linkOf
  curTerminal : ∀ t, ∀ p ∈ S.stack t, (k.proc p).curTerminal = t
  pid : ∀ p, S.Holds p → (k.proc p).pid = p

namespace Kernel.Table

variable {k k' : Kernel} {S : StackTable ℤ ℕ} {t : ℤ} {p free : ℕ} {l : List ℕ}

/-- Nothing but the bitmap and the places of the live processes matters. -/
theorem congr (h : k.Table S) (hbits : k'.pidBitmap = k.pidBitmap)
    (hplace : ∀ p, S.Holds p → (k'.proc p).SamePlace (k.proc p)) : k'.Table S where
  live p := by rw [← h.live p, Kernel.Live, Kernel.Live, hbits]
  bound := h.bound
  terminal := h.terminal
  threaded t := (h.threaded t).congr fun p hp =>
    ⟨(hplace p ⟨t, hp⟩).parentPid, (hplace p ⟨t, hp⟩).childPid⟩
  curTerminal t p hp := (hplace p ⟨t, hp⟩).curTerminal.trans (h.curTerminal t p hp)
  pid p hp := (hplace p hp).pid.trans (h.pid p hp)

theorem holds_of_top (htop : S.stack t = p :: l) : S.Holds p := ⟨t, htop ▸ List.mem_cons_self⟩

/-- A pid that `sys_execute` may choose is on no stack. -/
theorem not_holds_of_free (h : k.Table S) (hfree : freePid k.pidBitmap = some free) :
    ¬S.Holds free := by
  rw [← h.live, Kernel.Live, ((freePid_eq_some_iff _ _).mp hfree).2.1]
  decide

theorem ne_free (h : k.Table S) (hfree : freePid k.pidBitmap = some free) (hp : S.Holds p) :
    p ≠ free := fun hpf => h.not_holds_of_free hfree (hpf ▸ hp)

theorem free_lt (hfree : freePid k.pidBitmap = some free) : free < 6 :=
  ((freePid_eq_some_iff _ _).mp hfree).1

/-- When a pid is on no stack, there is a pid to choose. -/
theorem exists_free (h : k.Table S) (hp : p < 6) (hnot : ¬S.Holds p) :
    ∃ free, freePid k.pidBitmap = some free := by
  cases hfree : freePid k.pidBitmap with
  | none => exact absurd ((h.live p).mp ((freePid_eq_none_iff _).mp hfree p hp)) hnot
  | some free => exact ⟨free, rfl⟩

theorem exists_free_of_ne_full (h : k.Table S) (hfull : k.pidBitmap ≠ 0x3F) :
    ∃ free, freePid k.pidBitmap = some free := by
  cases hfree : freePid k.pidBitmap with
  | some free => exact ⟨free, rfl⟩
  | none =>
    have hall := (freePid_eq_none_iff _).mp hfree
    refine absurd (BitVec.eq_of_getLsbD_eq fun i hi => ?_) hfull
    by_cases hi6 : i < 6
    · rw [hall i hi6]
      have hbits : ∀ j : Fin 6, (0x3F : BitVec 8).getLsbD j = true := by decide
      exact (hbits ⟨i, hi6⟩).symm
    · have hdead : ¬k.Live i := fun hlive => hi6 (h.bound i ((h.live i).mp hlive))
      rw [Kernel.Live, Bool.not_eq_true] at hdead
      rw [hdead]
      have hcases : i = 6 ∨ i = 7 := by omega
      rcases hcases with rfl | rfl <;> rfl

end Kernel.Table

/-! ### Entering a process -/

theorem Kernel.proc_enter (k : Kernel) {free : ℕ} (hfree : free < 6) (parent term : ℤ)
    (progImg args : Mem) (pcbs : ℕ → Pcb) (q : ℕ) :
    (k.enter free parent term progImg args pcbs).proc q
      = if q = free then (k.proc free).fresh free parent term args k.cpu else pcbs (pcbAddr q) := by
  show Function.update pcbs (pcbAddr free) _ (pcbAddr q) = _
  by_cases hq : q = free
  · rw [if_pos hq, hq, Function.update_self]
  · rw [if_neg hq, Function.update_of_ne fun h => hq ((pcbAddr_inj hfree).mp h.symm).symm]

theorem Kernel.live_enter (k : Kernel) {free : ℕ} (hfree : free < 6) (parent term : ℤ)
    (progImg args : Mem) (pcbs : ℕ → Pcb) (q : ℕ) :
    (k.enter free parent term progImg args pcbs).Live q ↔ q = free ∨ k.Live q := by
  rw [Kernel.Live, Kernel.enter, getLsbD_or_pidBit _ hfree, Bool.or_eq_true, decide_eq_true_iff,
    Kernel.Live]
  exact or_comm

namespace Kernel.Table

variable {k k' : Kernel} {S : StackTable ℤ ℕ} {t : ℤ} {p free : ℕ} {l : List ℕ}
  {progImg args : Mem}

/-- A new process on stack `t`, once its links are known to be in place and the others to be where they were. -/
theorem entered {parent : ℤ} {pcbs : ℕ → Pcb} (h : k.Table S)
    (hfree : freePid k.pidBitmap = some free) (ht : IsTerminal t)
    (hk' : k' = k.enter free parent t progImg args pcbs)
    (hthreaded : (S.push t free (h.not_holds_of_free hfree)).Threaded
      (fun p => (k'.proc p).parentPid) (fun p => (k'.proc p).childPid) linkOf)
    (hold : ∀ q, S.Holds q → (pcbs (pcbAddr q)).curTerminal = (k.proc q).curTerminal ∧
      (pcbs (pcbAddr q)).pid = (k.proc q).pid) :
    k'.Table (S.push t free (h.not_holds_of_free hfree)) := by
  subst hk'
  have hlt := free_lt hfree
  have hnot := h.not_holds_of_free hfree
  have hproc := k.proc_enter hlt parent t progImg args pcbs
  refine ⟨?_, ?_, ?_, hthreaded, ?_, ?_⟩
  · intro q
    rw [k.live_enter hlt, StackTable.holds_push, h.live q]
  · intro q hq
    rcases (StackTable.holds_push hnot).mp hq with rfl | hq
    · exact hlt
    · exact h.bound q hq
  · intro u hu
    by_cases hut : u = t
    · exact hut ▸ ht
    · rw [StackTable.push_stack, Function.update_of_ne hut] at hu
      exact h.terminal u hu
  · intro u q hq
    rcases (StackTable.mem_push hnot).mp hq with ⟨rfl, rfl⟩ | hq
    · rw [hproc, if_pos rfl]; rfl
    · rw [hproc, if_neg (h.ne_free hfree ⟨u, hq⟩), (hold q ⟨u, hq⟩).1]
      exact h.curTerminal u q hq
  · intro q hq
    rcases (StackTable.holds_push hnot).mp hq with rfl | hq
    · rw [hproc, if_pos rfl]; rfl
    · rw [hproc, if_neg (h.ne_free hfree hq), (hold q hq).2]
      exact h.pid q hq

/-- A process enters an empty stack. -/
theorem start (h : k.Table S) (hfree : freePid k.pidBitmap = some free) (ht : IsTerminal t)
    (hempty : S.stack t = []) :
    (k.enter free (-1) t progImg args k.pcbs).Table (S.push t free (h.not_holds_of_free hfree)) := by
  have hnot := h.not_holds_of_free hfree
  have hproc := k.proc_enter (free_lt hfree) (-1) t progImg args k.pcbs
  refine h.entered hfree ht rfl ?_ fun q _ => ⟨rfl, rfl⟩
  refine h.threaded.start hnot hempty ?_ ?_ fun q hq => ?_
  · simp only [hproc, if_pos]; rfl
  · simp only [hproc, if_pos]; rfl
  · simp only [hproc, if_neg (h.ne_free hfree hq)]
    exact ⟨rfl, rfl⟩

/-- A process is stacked on the running one. -/
theorem child (h : k.Table S) (hfree : freePid k.pidBitmap = some free) (htop : S.stack t = p :: l)
    (hpcb : k.pcb = pcbAddr p) :
    (k.enter free k.cur.pid k.cur.curTerminal progImg args
        (Function.update k.pcbs k.pcb { k.cur with childPid := free })).Table
      (S.push t free (h.not_holds_of_free hfree)) := by
  have hnot := h.not_holds_of_free hfree
  have hp := holds_of_top htop
  have hp6 := h.bound p hp
  have hcur : k.cur = k.proc p := by rw [Kernel.cur, hpcb, Kernel.proc]
  have hpid : k.cur.pid = p := by rw [hcur]; exact h.pid p hp
  have hterm : k.cur.curTerminal = t := by
    rw [hcur]
    exact h.curTerminal t p (htop ▸ List.mem_cons_self)
  -- the parent's PCB has a new child, the others are as they were
  have hself : Function.update k.pcbs k.pcb { k.cur with childPid := free } (pcbAddr p)
      = { k.proc p with childPid := free } := by
    rw [hpcb, Function.update_self, hcur]
  have hother : ∀ q, q ≠ p →
      Function.update k.pcbs k.pcb { k.cur with childPid := free } (pcbAddr q) = k.proc q := by
    intro q hqp
    rw [hpcb, Function.update_of_ne fun h => hqp ((pcbAddr_inj hp6).mp h.symm).symm, Kernel.proc]
  have hproc := k.proc_enter (free_lt hfree) p t progImg args
    (Function.update k.pcbs k.pcb { k.cur with childPid := free })
  rw [hpid, hterm]
  refine h.entered hfree (h.terminal t (by rw [htop]; simp)) rfl ?_ fun q _ => ?_
  · refine h.threaded.push hnot htop ?_ ?_ ?_ ?_ fun q hq hqp => ?_
    · simp only [hproc, if_pos]; rfl
    · simp only [hproc, if_pos]; rfl
    · simp only [hproc, if_neg (h.ne_free hfree hp), hself]; rfl
    · simp only [hproc, if_neg (h.ne_free hfree hp), hself]
    · simp only [hproc, if_neg (h.ne_free hfree hq), hother q hqp, and_self]
  · by_cases hqp : q = p
    · rw [hqp, hself]
      exact ⟨rfl, rfl⟩
    · rw [hother q hqp]
      exact ⟨rfl, rfl⟩

/-! ### Halting -/

/-- Giving the pid of the running process back clears exactly its bit. -/
theorem live_dying (h : k.Table S) (htop : S.stack t = p :: l) (hpcb : k.pcb = pcbAddr p) (ebx q : ℕ) :
    (k.dying ebx).Live q ↔ k.Live q ∧ q ≠ p := by
  have hp := holds_of_top htop
  have hpid : k.cur.pid = p := by rw [Kernel.cur, hpcb]; exact h.pid p hp
  rw [Kernel.Live, Kernel.dying, hpid, getLsbD_sub_pidBit (h.bound p hp) ((h.live p).mpr hp),
    Bool.and_eq_true, decide_eq_true_iff, Kernel.Live]

theorem samePlace_dying (k : Kernel) (ebx q : ℕ) : ((k.dying ebx).proc q).SamePlace (k.proc q) := by
  show (Function.update k.pcbs k.pcb _ (pcbAddr q)).SamePlace (k.pcbs (pcbAddr q))
  by_cases hq : pcbAddr q = k.pcb
  · rw [hq, Function.update_self]
    exact ⟨rfl, rfl, rfl, rfl⟩
  · rw [Function.update_of_ne hq]
    exact Pcb.SamePlace.refl _

/-- Dropping the running process from its stack, once the links of those that stay are in place. -/
theorem popped (h : k.Table S) (htop : S.stack t = p :: l)
    (hlive : ∀ q, k'.Live q ↔ k.Live q ∧ q ≠ p)
    (hthreaded : (S.pop t).Threaded (fun p => (k'.proc p).parentPid)
      (fun p => (k'.proc p).childPid) linkOf)
    (hold : ∀ q, S.Holds q → (k'.proc q).curTerminal = (k.proc q).curTerminal ∧
      (k'.proc q).pid = (k.proc q).pid) :
    k'.Table (S.pop t) := by
  refine ⟨?_, ?_, ?_, hthreaded, ?_, ?_⟩
  · intro q
    rw [hlive, StackTable.holds_pop htop, h.live]
  · exact fun q hq => h.bound q ((StackTable.holds_pop htop).mp hq).1
  · intro u hu
    by_cases hut : u = t
    · exact hut ▸ h.terminal t (by rw [htop]; simp)
    · rw [StackTable.pop_stack, Function.update_of_ne hut] at hu
      exact h.terminal u hu
  · intro u q hq
    have hq' := ((StackTable.mem_pop htop).mp hq).1
    rw [(hold q ⟨u, hq'⟩).1]
    exact h.curTerminal u q hq'
  · intro q hq
    have hq' := ((StackTable.holds_pop htop).mp hq).1
    rw [(hold q hq').2]
    exact h.pid q hq'

/-- A root shell leaves its stack empty. -/
theorem clear (h : k.Table S) (htop : S.stack t = [p]) (hpcb : k.pcb = pcbAddr p) (ebx : ℕ) :
    (k.dying ebx).Table (S.pop t) := by
  have hplace := samePlace_dying k ebx
  refine h.popped htop (h.live_dying htop hpcb ebx) ?_
    fun q _ => ⟨(hplace q).curTerminal, (hplace q).pid⟩
  exact h.threaded.clear htop fun q _ _ => ⟨(hplace q).parentPid, (hplace q).childPid⟩

/-- A process that was called hands over to its caller. -/
theorem resume {E : Platform} {b : ℕ} (h : k.Table S) (htop : S.stack t = p :: b :: l)
    (hpcb : k.pcb = pcbAddr p) (ebx : ℕ) :
    (k.resumedParent E ebx).Table (S.pop t) ∧ (k.resumedParent E ebx).pcb = pcbAddr b := by
  have hb : S.Holds b := ⟨t, by rw [htop]; simp⟩
  have hb6 := h.bound b hb
  have hlinks := h.threaded t
  rw [htop] at hlinks
  have hcur : k.cur = k.proc p := by rw [Kernel.cur, hpcb, Kernel.proc]
  have hparent : k.cur.parentPid.toNat = b := by
    rw [hcur, show (k.proc p).parentPid = linkOf (some b) from hlinks.2.1]
    rfl
  have hplace := samePlace_dying k ebx
  have hproc : ∀ q, (k.resumedParent E ebx).proc q
      = if q = b then { k.proc b with childPid := -1 } else (k.dying ebx).proc q := by
    intro q
    show Function.update (k.dying ebx).pcbs (pcbAddr k.cur.parentPid.toNat) _ (pcbAddr q) = _
    rw [hparent]
    by_cases hq : q = b
    · rw [if_pos hq, hq, Function.update_self]
    · rw [if_neg hq, Function.update_of_ne fun h => hq ((pcbAddr_inj hb6).mp h.symm).symm, Kernel.proc]
  refine ⟨h.popped htop (h.live_dying htop hpcb ebx) ?_ fun q _ => ?_, congrArg pcbAddr hparent⟩
  · refine h.threaded.pop htop ?_ ?_ fun q _ _ hqb => ?_
    · simp only [hproc, if_pos]; rfl
    · simp only [hproc, if_pos]
    · simp only [hproc, if_neg hqb]
      exact ⟨(hplace q).parentPid, (hplace q).childPid⟩
  · rw [hproc]
    by_cases hqb : q = b
    · rw [if_pos hqb, hqb]
      exact ⟨rfl, rfl⟩
    · rw [if_neg hqb]
      exact ⟨(hplace q).curTerminal, (hplace q).pid⟩

end Kernel.Table

/-! ### The stacks of the terminals -/

/-- The abstract state: the stacks, and the terminal whose top is running. -/
structure Shells where
  table : StackTable ℤ ℕ
  current : ℤ

/-- The ways the abstract state changes. -/
inductive Shells.Step : Shells → Shells → Prop
  | stay (σ : Shells) : Step σ σ
  /-- The running process calls a program. -/
  | call {T : StackTable ℤ ℕ} {c : ℤ} {p : ℕ} (hp : ¬T.Holds p) (hne : T.stack c ≠ []) :
      Step ⟨T, c⟩ ⟨T.push c p hp, c⟩
  /-- The running process returns to its caller. -/
  | back {T : StackTable ℤ ℕ} {c : ℤ} {a b : ℕ} {l : List ℕ} (htop : T.stack c = a :: b :: l) :
      Step ⟨T, c⟩ ⟨T.pop c, c⟩
  /-- A terminal's only process is replaced. -/
  | replace {T : StackTable ℤ ℕ} {c : ℤ} {a p : ℕ} (htop : T.stack c = [a])
      (hp : ¬(T.pop c).Holds p) : Step ⟨T, c⟩ ⟨(T.pop c).push c p hp, c⟩
  /-- A terminal gets its first process, which runs at once. -/
  | start {T : StackTable ℤ ℕ} {c t : ℤ} {p : ℕ} (hp : ¬T.Holds p) (hempty : T.stack t = []) :
      Step ⟨T, c⟩ ⟨T.push t p hp, t⟩
  /-- Another terminal's top runs. -/
  | switch {T : StackTable ℤ ℕ} {c t : ℤ} (hne : T.stack t ≠ []) : Step ⟨T, c⟩ ⟨T, t⟩

/-- The kernel holds the stacks `σ`, between two actions. -/
structure Kernel.Tracks (k : Kernel) (σ : Shells) : Prop where
  table : k.Table σ.table
  current : ∃ p l, σ.table.stack σ.current = p :: l ∧ k.pcb = pcbAddr p
  started : ∀ t, σ.table.stack t ≠ [] ↔ k.screen.Started t
  whichTerm : k.whichTerm = 0
  attemptExit : k.attemptExit = false
  curProc : k.curProc < 6
  first : k.first = true

namespace Kernel.Tracks

variable {E : Platform} {st : Stack} {k k' : Kernel} {σ : Shells}

/-- Nothing but the table, the bitmap and the flags matters. -/
theorem congr (h : k.Tracks σ) (hbits : k'.pidBitmap = k.pidBitmap) (hpcb : k'.pcb = k.pcb)
    (hplace : ∀ p, σ.table.Holds p → (k'.proc p).SamePlace (k.proc p))
    (hshells : k'.screen.numShells = k.screen.numShells) (hwhich : k'.whichTerm = k.whichTerm)
    (hexit : k'.attemptExit = k.attemptExit) (hcur : k'.curProc < 6) (hfirst : k'.first = k.first) :
    k'.Tracks σ where
  table := h.table.congr hbits hplace
  current := by
    obtain ⟨p, l, htop, hp⟩ := h.current
    exact ⟨p, l, htop, hpcb.trans hp⟩
  started t := by rw [h.started t, Screen.Started, Screen.Started, hshells]
  whichTerm := hwhich.trans h.whichTerm
  attemptExit := hexit.trans h.attemptExit
  curProc := hcur
  first := hfirst.trans h.first

/-- A change of the screen, the buffers or the hardware only. -/
theorem screen_only (h : k.Tracks σ) (s : Screen) (tty : Tty)
    (hs : s.numShells = k.screen.numShells) : Kernel.Tracks { k with screen := s, tty := tty } σ :=
  h.congr rfl rfl (fun _ _ => Pcb.SamePlace.refl _) hs rfl rfl h.curProc rfl

theorem printf (h : k.Tracks σ) (bytes : List UInt8) : (k.printf bytes).Tracks σ :=
  h.screen_only _ k.tty (k.screen.puts_statics _ _).2.1

/-- The stack of the terminal `t` is the only one that changes. -/
theorem started_push {T : StackTable ℤ ℕ} {s : Screen} {t : ℤ} {p : ℕ} (hp : ¬T.Holds p)
    (hstart : ∀ u, u = t ∨ T.stack u ≠ [] ↔ s.Started u) (u : ℤ) :
    (T.push t p hp).stack u ≠ [] ↔ s.Started u := by
  rw [← hstart u, StackTable.push_stack]
  by_cases hu : u = t
  · rw [hu, Function.update_self]
    simp
  · rw [Function.update_of_ne hu]
    simp [hu]

/-- A process has entered the empty stack of terminal `t`. -/
theorem enter_first {T : StackTable ℤ ℕ} {t : ℤ} {free : ℕ} {progImg args : Mem} (htable : k.Table T)
    (hfree : freePid k.pidBitmap = some free) (ht : IsTerminal t) (hempty : T.stack t = [])
    (hstart : ∀ u, u = t ∨ T.stack u ≠ [] ↔
      (if k.first then k.screen else k.screen.screenInit).Started u) (hcur : k.curProc < 6) :
    (k.enter free (-1) t progImg args k.pcbs).Tracks
      ⟨T.push t free (htable.not_holds_of_free hfree), t⟩ :=
  have hnot := htable.not_holds_of_free hfree
  ⟨htable.start hfree ht hempty, ⟨free, _, StackTable.push_stack_self hnot, rfl⟩,
    started_push hnot hstart, rfl, rfl, hcur, rfl⟩

/-- The running process has called a program. -/
theorem enter_child {free : ℕ} (h : k.Tracks σ) (progImg args : Mem)
    (hfree : freePid k.pidBitmap = some free) :
    ∃ σ', σ.Step σ' ∧ (k.enter free k.cur.pid k.cur.curTerminal progImg args
      (Function.update k.pcbs k.pcb { k.cur with childPid := free })).Tracks σ' := by
  obtain ⟨p, l, htop, hpcb⟩ := h.current
  have hnot := h.table.not_holds_of_free hfree
  refine ⟨⟨σ.table.push σ.current free hnot, σ.current⟩, .call hnot (by rw [htop]; simp), ?_⟩
  refine ⟨h.table.child hfree htop hpcb, ⟨free, _, StackTable.push_stack_self hnot, rfl⟩,
    started_push hnot fun u => ?_, rfl, rfl, h.curProc, rfl⟩
  show _ ↔ (if k.first then k.screen else k.screen.screenInit).Started u
  rw [if_pos h.first, ← h.started u]
  refine or_iff_right_of_imp fun hu => ?_
  rw [hu, htop]
  simp

/-- A free pid is not the running process. -/
theorem pcb_ne_free {free : ℕ} (h : k.Tracks σ) (hfree : freePid k.pidBitmap = some free) :
    k.pcb ≠ pcbAddr free := by
  obtain ⟨p, l, htop, hpcb⟩ := h.current
  have hp := Kernel.Table.holds_of_top htop
  rw [hpcb]
  exact fun he => h.table.ne_free hfree hp ((pcbAddr_inj (h.table.bound p hp)).mp he)

end Kernel.Tracks

end ClosKernel
