import Mathlib.Data.List.Induction
import ClosKernel.Controllers
import ClosKernel.Interrupts

/-!
# Interrupts while the kernel boots (`entry` of `kernel.c`)

`entry` fills the descriptor table, sets the controllers up, and lets the drivers enable their lines; most of the
drivers turn interrupts on when they are done, long before `entry` does.  So interrupts can come while the rest of
the kernel is still being set up.

* `entryActions` — what `entry` and the functions it calls do to the interrupt flag, the controllers and the table;
* `bootRun` — these actions, with interrupts between any two of them;
* `boot_interrupts_have_gates` — **no interrupt comes too early**: whenever interrupts are on, the vector of every
  interrupt that can come has the gate of its device, and at the end the table and the lines are as programs need them.
-/

namespace ClosKernel

open InterruptController
open Function (update)

/-! ### The actions -/

inductive BootAction where
  | fillIdt
  | cliAndSave
  | restoreFlags
  | cli
  | sti
  | out (v : BitVec 8) (port : ℕ)
  | enableIrq (irqNum : ℕ)
  /-- `SET_IDT_ENTRY(idt[v], exception_user_program)` -/
  | setException (v : ℕ)
  /-- Ports, memory and variables that are not looked at here. -/
  | other
  deriving DecidableEq

/-- `flags` is the variable of `cli_and_save` and `restore_flags`. -/
structure BootState where
  interrupts : Bool
  flags : Bool
  pics : Pair
  idt : Idt

def BootAction.step (S : Symbols) : BootAction → BootState → BootState
  | .fillIdt, b => { b with idt := entryIdt S }
  | .cliAndSave, b => { b with flags := b.interrupts, interrupts := false }
  | .restoreFlags, b => { b with interrupts := b.flags }
  | .cli, b => { b with interrupts := false }
  | .sti, b => { b with interrupts := true }
  | .out v port, b => { b with pics := outb v port b.pics }
  | .enableIrq n, b => { b with pics := ClosKernel.enableIrq n b.pics }
  | .setException v, b => { b with idt := Idt.setEntry b.idt v S.exceptionUserProgram }
  | .other, b => b

def i8259InitActions : List BootAction :=
  [.cliAndSave] ++ i8259Words.map (fun w => .out w.1 w.2) ++ [.restoreFlags]

def rtcInitActions : List BootAction := [.cli, .other, .enableIrq 8, .enableIrq 2, .other, .sti]
def pitInitActions : List BootAction := [.cli, .enableIrq 0, .sti]
def keyboardInitActions : List BootAction := [.cliAndSave, .other, .enableIrq 1, .restoreFlags]
def pitSetFreqActions : List BootAction := [.cli, .other, .sti]

/-- `entry` up to the initialisation of the controllers: the descriptors, the table, the controllers. -/
def setupActions : List BootAction := [.other, .fillIdt] ++ i8259InitActions

/-- The drivers, paging, and the rate of the timer. -/
def deviceActions : List BootAction :=
  rtcInitActions ++ pitInitActions ++ keyboardInitActions ++ [.other, .sti] ++ pitSetFreqActions

/-- What comes behind the controllers, with the file system, the handlers of the exceptions, and the screen. -/
def driverActions : List BootAction := deviceActions ++ [.other] ++ namedExceptions.map .setException ++ [.other]

def entryActions : List BootAction := setupActions ++ driverActions

/-! ### Runs with interrupts -/

inductive BootItem where
  /-- The next action of `entry`. -/
  | own
  /-- Devices ask for attention, and if there is an interrupt, its handler acknowledges the lines `eois`. -/
  | interrupt (lines₁ lines₂ : BitVec 8) (eois : List ℕ)

def asking (p : Pair) (lines₁ lines₂ : BitVec 8) : Pair :=
  ⟨{ p.master with irr := lines₁ }, { p.slave with irr := lines₂ }⟩

def BootState.interrupted (b : BootState) (lines₁ lines₂ : BitVec 8) (eois : List ℕ) : BootState :=
  if b.interrupts then
    match (asking b.pics lines₁ lines₂).inta with
    | some (_, p) => { b with pics := eois.foldl (fun p n => sendEoi n p) p }
    | none => b
  else b

def bootRun (S : Symbols) : List BootItem → List BootAction × BootState → List BootAction × BootState
  | [], s => s
  | .own :: is, (a :: as, b) => bootRun S is (as, a.step S b)
  | .own :: is, ([], b) => bootRun S is ([], b)
  | .interrupt l₁ l₂ eois :: is, (as, b) => bootRun S is (as, b.interrupted l₁ l₂ eois)

/-- The machine when `entry` begins: interrupts are off since `boot.S`, and the controllers may be in any state. -/
def bootStart (p : Pair) : BootState := ⟨false, false, p, fun _ => zeroDesc⟩

/-! ### What the actions leave -/

/-- Actions without interrupts. -/
def applied (S : Symbols) (as : List BootAction) (b : BootState) : BootState := as.foldl (fun b a => a.step S b) b

/-- Only `sti` turns interrupts on, if `flags` was saved with interrupts off. -/
theorem applied_off {S : Symbols} {as : List BootAction} (h : .sti ∉ as) {b : BootState}
    (hb : b.interrupts = false ∧ b.flags = false) :
    (applied S as b).interrupts = false ∧ (applied S as b).flags = false := by
  induction as generalizing b with
  | nil => exact hb
  | cons a as ih =>
    rw [List.mem_cons, not_or] at h
    refine ih h.2 ?_
    cases a with
    | sti => exact absurd rfl h.1
    | cliAndSave => exact ⟨rfl, hb.1⟩
    | restoreFlags => exact ⟨hb.2, hb.2⟩
    | cli => exact ⟨rfl, hb.2⟩
    | _ => exact hb

theorem applied_setup (S : Symbols) (p : Pair) :
    applied S setupActions (bootStart p) = ⟨false, false, i8259Init p, entryIdt S⟩ := rfl

/-- An action of a driver: only the lines of the devices and of the second controller are enabled, and only the
handlers of exceptions are set. -/
def BootAction.isDriver : BootAction → Bool
  | .fillIdt => false
  | .out _ _ => false
  | .enableIrq n => n ∈ [0, 1, 2, 8]
  | .setException v => v < 32
  | _ => true

theorem isDriver_of_mem : ∀ a ∈ driverActions, a.isDriver = true := by decide

def BootAction.enables : BootAction → (ℕ → Bool) → ℕ → Bool
  | .enableIrq n, f => update f n true
  | _, f => f

/-- The lines that have been enabled. -/
def enabledBy (as : List BootAction) : ℕ → Bool := as.foldl (fun f a => a.enables f) fun _ => false

theorem enabledBy_snoc (as : List BootAction) (a : BootAction) : enabledBy (as ++ [a]) = a.enables (enabledBy as) := by
  rw [enabledBy, List.foldl_append]
  rfl

theorem enabledBy_mem {as : List BootAction} (has : ∀ a ∈ as, a.isDriver = true) {n : ℕ}
    (hn : enabledBy as n = true) : n ∈ [0, 1, 2, 8] := by
  induction as using List.reverseRecOn with
  | nil => exact absurd hn Bool.false_ne_true
  | append_singleton as a ih =>
    have has' : ∀ a ∈ as, a.isDriver = true := fun a ha => has a (List.mem_append_left _ ha)
    have ha := has a (List.mem_append_right _ (List.mem_singleton.mpr rfl))
    rw [enabledBy_snoc] at hn
    cases a with
    | enableIrq m =>
      by_cases hnm : n = m
      · rw [hnm]
        exact of_decide_eq_true ha
      · rw [BootAction.enables, Function.update_of_ne hnm] at hn
        exact ih has' hn
    | _ => exact ih has' hn

/-- The drivers do not touch the gates behind the exceptions. -/
theorem applied_idt {S : Symbols} {as : List BootAction} (has : ∀ a ∈ as, a.isDriver = true) (b : BootState) {v : ℕ}
    (hv : 32 ≤ v) : (applied S as b).idt v = b.idt v := by
  induction as generalizing b with
  | nil => rfl
  | cons a as ih =>
    have ha := has a List.mem_cons_self
    refine (ih (fun a ha => has a (List.mem_cons_of_mem _ ha)) (a.step S b)).trans ?_
    cases a with
    | setException u =>
      have hu : u < 32 := of_decide_eq_true ha
      exact Function.update_of_ne (show v ≠ u by omega) _ _
    | fillIdt => exact absurd ha Bool.false_ne_true
    | _ => rfl

theorem applied_append (S : Symbols) (as as' : List BootAction) (b : BootState) :
    applied S (as ++ as') b = applied S as' (applied S as b) :=
  List.foldl_append

theorem applied_setException (S : Symbols) (vs : List ℕ) (b : BootState) :
    applied S (vs.map .setException) b =
      { b with idt := vs.foldl (fun idt v => Idt.setEntry idt v S.exceptionUserProgram) b.idt } := by
  induction vs generalizing b with
  | nil => rfl
  | cons v vs ih => exact ih _

/-- The flag and the table at the end of `entry`. -/
theorem applied_entry (S : Symbols) (p : Pair) :
    (applied S (setupActions ++ driverActions) (bootStart p)).interrupts = true ∧
      (applied S (setupActions ++ driverActions) (bootStart p)).idt = shellIdt S := by
  rw [applied_append, applied_setup, driverActions, applied_append, applied_append, applied_append,
    applied_setException]
  exact ⟨rfl, rfl⟩

theorem enabledBy_setException (as : List BootAction) (vs : List ℕ) :
    enabledBy (as ++ vs.map .setException) = enabledBy as := by
  induction vs using List.reverseRecOn with
  | nil => rw [List.map_nil, List.append_nil]
  | append_singleton vs v ih =>
    rw [List.map_append, ← List.append_assoc]
    exact (enabledBy_snoc _ _).trans ih

theorem enabledBy_driverActions : enabledBy driverActions = fun n => decide (n ∈ [0, 1, 2, 8]) := by
  have hother : enabledBy driverActions = enabledBy (deviceActions ++ [.other]) :=
    (enabledBy_snoc _ .other).trans (enabledBy_setException _ _)
  rw [hother, enabledBy_snoc]
  funext n
  show update (update (update (update (fun _ => false) 8 true) 2 true) 0 true) 1 true n = _
  simp only [Function.update_apply, List.mem_cons, List.not_mem_nil, or_false]
  grind

/-! ### Interrupts between the actions -/

/-- The controllers show the lines `enabled`; which lines are in service depends on the interrupts. -/
def Enabled (p : Pair) (enabled : ℕ → Bool) : Prop := ∃ isr, Shows p enabled isr

section

variable {p : Pair} {enabled : ℕ → Bool}

theorem Enabled.enableIrq (h : Enabled p enabled) {n : ℕ} (hn : n < 16) :
    Enabled (ClosKernel.enableIrq n p) (update enabled n true) := by
  obtain ⟨isr, h⟩ := h
  have h' := h.enableIrq n
  rw [if_pos hn] at h'
  exact ⟨isr, h'⟩

theorem Enabled.asking (h : Enabled p enabled) (l₁ l₂ : BitVec 8) : Enabled (asking p l₁ l₂) enabled := by
  obtain ⟨isr, h⟩ := h
  exact ⟨isr, { h with cascaded := { h.cascaded with } }⟩

theorem Enabled.sendEoi (h : Enabled p enabled) (n : ℕ) : Enabled (sendEoi n p) enabled := by
  obtain ⟨isr, h⟩ := h
  exact ⟨_, Shows.sendEoi (k := { powerOnKernel with isr := isr }) h n⟩

theorem Enabled.sendEois (h : Enabled p enabled) (eois : List ℕ) :
    Enabled (eois.foldl (fun p n => ClosKernel.sendEoi n p) p) enabled := by
  induction eois generalizing p with
  | nil => exact h
  | cons n eois ih => exact ih (h.sendEoi n)

/-- The vector of an interrupt, and the controllers behind it. -/
theorem Enabled.inta (h : Enabled p enabled) {v : BitVec 8} {p' : Pair} (hv : p.inta = some (v, p')) :
    Enabled p' enabled ∧ ∃ line < 16, line ≠ 2 ∧ v.toNat = 0x20 + line ∧ enabled line = true := by
  obtain ⟨isr, h⟩ := h
  obtain ⟨line, hline, h2, hvec, hen, -, -, h'⟩ := Shows.inta (k := { powerOnKernel with isr := isr }) h hv
  refine ⟨⟨_, h'⟩, line, hline, h2, ?_, hen⟩
  rw [hvec]
  bv_omega

end

/-- The drivers have done `done`, and interrupts have changed at most which lines are in service. -/
structure Driven (S : Symbols) (p : Pair) (done : List BootAction) (b : BootState) : Prop where
  interrupts : b.interrupts = (applied S (setupActions ++ done) (bootStart p)).interrupts
  flags : b.flags = (applied S (setupActions ++ done) (bootStart p)).flags
  idt : b.idt = (applied S (setupActions ++ done) (bootStart p)).idt
  pics : Enabled b.pics (enabledBy done)

/-- `entry` has yet to do `rest`. -/
def AtBoot (S : Symbols) (p : Pair) (rest : List BootAction) (b : BootState) : Prop :=
  (∃ done rest', setupActions = done ++ rest' ∧ rest = rest' ++ driverActions ∧ b = applied S done (bootStart p)) ∨
    ∃ done, driverActions = done ++ rest ∧ Driven S p done b

section

variable {S : Symbols} {p : Pair} {rest : List BootAction} {b : BootState}

theorem applied_snoc (as : List BootAction) (a : BootAction) (b : BootState) :
    applied S (as ++ [a]) b = a.step S (applied S as b) := by
  rw [applied, List.foldl_append]
  rfl

/-- What an action does to the flag and to the table does not depend on the controllers. -/
theorem step_congr {q : BootState} (a : BootAction) (hinterrupts : b.interrupts = q.interrupts)
    (hflags : b.flags = q.flags) (hidt : b.idt = q.idt) :
    (a.step S b).interrupts = (a.step S q).interrupts ∧ (a.step S b).flags = (a.step S q).flags ∧
      (a.step S b).idt = (a.step S q).idt := by
  cases a with
  | fillIdt => exact ⟨hinterrupts, hflags, rfl⟩
  | cliAndSave => exact ⟨rfl, hinterrupts, hidt⟩
  | restoreFlags => exact ⟨hflags, hflags, hidt⟩
  | cli => exact ⟨rfl, hflags, hidt⟩
  | sti => exact ⟨rfl, hflags, hidt⟩
  | setException v => exact ⟨hinterrupts, hflags, congrArg (Idt.setEntry · v S.exceptionUserProgram) hidt⟩
  | _ => exact ⟨hinterrupts, hflags, hidt⟩

/-- Interrupts stay off until the controllers are set up. -/
theorem setup_off {done rest' : List BootAction} (h : setupActions = done ++ rest') :
    (applied S done (bootStart p)).interrupts = false := by
  have hsti : .sti ∉ setupActions := by decide
  rw [h] at hsti
  exact (applied_off (fun hmem => hsti (List.mem_append_left _ hmem)) ⟨rfl, rfl⟩).1

theorem Driven.start (p : Pair) : Driven S p [] (applied S setupActions (bootStart p)) where
  interrupts := by rw [List.append_nil]
  flags := by rw [List.append_nil]
  idt := by rw [List.append_nil]
  pics := ⟨_, shows_init p⟩

theorem Driven.own {done : List BootAction} (h : Driven S p done b) {a : BootAction} (ha : a.isDriver = true) :
    Driven S p (done ++ [a]) (a.step S b) := by
  have happ : applied S (setupActions ++ (done ++ [a])) (bootStart p) =
      a.step S (applied S (setupActions ++ done) (bootStart p)) := by
    rw [← List.append_assoc, applied_snoc]
  obtain ⟨hinterrupts, hflags, hidt⟩ := step_congr (S := S) a h.interrupts h.flags h.idt
  refine ⟨by rw [happ, hinterrupts], by rw [happ, hflags], by rw [happ, hidt], ?_⟩
  rw [enabledBy_snoc]
  cases a with
  | enableIrq n =>
    have hn : n ∈ [0, 1, 2, 8] := of_decide_eq_true ha
    have hlt : ∀ n ∈ [0, 1, 2, 8], n < 16 := by decide
    exact h.pics.enableIrq (hlt n hn)
  | out v port => exact absurd ha Bool.false_ne_true
  | _ => exact h.pics

theorem Driven.interrupted {done : List BootAction} (h : Driven S p done b) (l₁ l₂ : BitVec 8) (eois : List ℕ) :
    Driven S p done (b.interrupted l₁ l₂ eois) := by
  unfold BootState.interrupted
  split
  · cases hv : (asking b.pics l₁ l₂).inta with
    | none => exact h
    | some r => exact { h with pics := ((h.pics.asking l₁ l₂).inta hv).1.sendEois eois }
  · exact h

/-- An action of `entry`. -/
theorem AtBoot.own {a : BootAction} (h : AtBoot S p (a :: rest) b) : AtBoot S p rest (a.step S b) := by
  have hdriver : ∀ done, driverActions = done ++ a :: rest → Driven S p done b → AtBoot S p rest (a.step S b) :=
    fun done hdone hb => .inr ⟨done ++ [a], by rw [hdone, List.append_cons],
      hb.own (isDriver_of_mem a (by simp [hdone]))⟩
  rcases h with ⟨done, rest', hdone, hrest, rfl⟩ | ⟨done, hdone, hb⟩
  · cases rest' with
    | nil =>
      rw [List.append_nil] at hdone
      rw [List.nil_append] at hrest
      subst hdone
      exact hdriver [] hrest.symm (Driven.start p)
    | cons a' rest' =>
      rw [List.cons_append, List.cons.injEq] at hrest
      obtain ⟨rfl, rfl⟩ := hrest
      exact .inl ⟨done ++ [a], rest', by rw [hdone, List.append_cons], rfl, (applied_snoc done a _).symm⟩
  · exact hdriver done hdone hb

/-- An interrupt, or none as long as interrupts are off. -/
theorem AtBoot.interrupted (h : AtBoot S p rest b) (l₁ l₂ : BitVec 8) (eois : List ℕ) :
    AtBoot S p rest (b.interrupted l₁ l₂ eois) := by
  rcases h with ⟨done, rest', hdone, hrest, rfl⟩ | ⟨done, hdone, hb⟩
  · refine .inl ⟨done, rest', hdone, hrest, ?_⟩
    rw [BootState.interrupted, setup_off hdone]
    rfl
  · exact .inr ⟨done, hdone, hb.interrupted l₁ l₂ eois⟩

theorem AtBoot.run (h : AtBoot S p rest b) (items : List BootItem) :
    AtBoot S p (bootRun S items (rest, b)).1 (bootRun S items (rest, b)).2 := by
  induction items generalizing rest b with
  | nil => exact h
  | cons i items ih =>
    cases i with
    | own =>
      cases rest with
      | nil => exact ih h
      | cons a rest => exact ih h.own
    | interrupt l₁ l₂ eois => exact ih (h.interrupted l₁ l₂ eois)

/-- The device of a line that a driver has enabled. -/
theorem exists_device {line : ℕ} (h : line ∈ [0, 1, 2, 8]) (h2 : line ≠ 2) : ∃ d : Device, 0x20 + line = d.vector := by
  simp only [List.mem_cons, List.not_mem_nil, or_false] at h
  rcases h with rfl | rfl | rfl | rfl
  · exact ⟨.pit, rfl⟩
  · exact ⟨.keyboard, rfl⟩
  · exact absurd rfl h2
  · exact ⟨.rtc, rfl⟩

theorem gate_entryIdt (S : Symbols) (d : Device) :
    Idt.gate (entryIdt S) d.vector = some (kernelGate (d.wrapper S)) := by
  rw [Idt.gate, entryIdt_apply]
  cases d <;> exact gate_interruptGate _

end

/-- **No interrupt comes too early.** -/
theorem boot_interrupts_have_gates (S : Symbols) (p : Pair) (items : List BootItem) :
    let r := bootRun S items (entryActions, bootStart p)
    (r.2.interrupts = true → ∀ l₁ l₂ v p', (asking r.2.pics l₁ l₂).inta = some (v, p') →
      ∃ d : Device, v.toNat = d.vector ∧ Idt.gate r.2.idt v.toNat = some (kernelGate (d.wrapper S))) ∧
    (r.1 = [] → r.2.interrupts = true ∧ r.2.idt = shellIdt S ∧
      ∃ isr, Shows r.2.pics (fun n => decide (n ∈ [0, 1, 2, 8])) isr) := by
  have hstart : AtBoot S p entryActions (bootStart p) := .inl ⟨[], setupActions, rfl, rfl, rfl⟩
  have h := hstart.run items
  generalize bootRun S items (entryActions, bootStart p) = r at h
  refine ⟨fun hon l₁ l₂ v p' hv => ?_, fun hrest => ?_⟩
  · rcases h with ⟨done, rest', hdone, -, hb⟩ | ⟨done, hdone, hb⟩
    · rw [hb, setup_off hdone] at hon
      exact absurd hon Bool.false_ne_true
    · have hdriver : ∀ a ∈ done, a.isDriver = true := fun a ha =>
        isDriver_of_mem a (by rw [hdone]; exact List.mem_append_left _ ha)
      obtain ⟨-, line, -, h2, hvec, hen⟩ := (hb.pics.asking l₁ l₂).inta hv
      obtain ⟨d, hd⟩ := exists_device (enabledBy_mem hdriver hen) h2
      refine ⟨d, hvec.trans hd, ?_⟩
      have hentry : r.2.idt v.toNat = entryIdt S v.toNat := by
        rw [hb.idt, applied_append, applied_idt hdriver _ (by omega), applied_setup]
      rw [Idt.gate, hentry, hvec, hd]
      exact gate_entryIdt S d
  · rcases h with ⟨done, rest', -, hrest', -⟩ | ⟨done, hdone, hb⟩
    · rw [hrest] at hrest'
      have hlen := congrArg List.length hrest'
      rw [List.length_append] at hlen
      exact absurd hlen.symm (by simp [driverActions])
    · rw [hrest, List.append_nil] at hdone
      subst hdone
      obtain ⟨hon, hidt⟩ := applied_entry S p
      refine ⟨hb.interrupts.trans hon, hb.idt.trans hidt, ?_⟩
      rw [← enabledBy_driverActions]
      exact hb.pics

end ClosKernel
