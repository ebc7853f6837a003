import ClosKernel.Gates

/-!
# The interrupt wrappers

The three devices share one piece of assembly: `cli`, `pusha`, the call of the handler in C, `popa`, `sti`, `iret`.  An
interrupt can come before any instruction, in a program or in the kernel.  The handler may use the stack below its
return address and every register, and through `schedule` it may even leave the stack for a while; what it must
give back is the stack pointer and the words above it.

* `Device.service` — **an interrupt is transparent**: whatever the handler does to the registers and the flags, the
  interrupted instruction sequence goes on in the state it was in;
* `tame_serviced` — the same for every number of interrupts, as a disturbance in the sense of the machine.
-/

namespace ClosKernel

open StackMachine
open Function (update)

/-! ### The code -/

def handlerWrapper (handler : Word) : List Instr := [.cli, .pusha, .call handler, .popa, .sti, .iret]

def rtcHandlerWrapper (S : Symbols) : List Instr := handlerWrapper S.rtcHandler
def pitHandlerWrapper (S : Symbols) : List Instr := handlerWrapper S.pitHandler
def keyboardHandlerWrapper (S : Symbols) : List Instr := handlerWrapper S.keyboardHandler

/-- The devices that interrupt. -/
inductive Device where
  | pit
  | keyboard
  | rtc
  deriving DecidableEq

def Device.vector : Device → ℕ
  | .pit => 0x20
  | .keyboard => 0x21
  | .rtc => 0x28

def Device.wrapper (S : Symbols) : Device → Word
  | .pit => S.pitHandlerWrapper
  | .keyboard => S.keyboardHandlerWrapper
  | .rtc => S.rtcHandlerWrapper

def Device.handler (S : Symbols) : Device → Word
  | .pit => S.pitHandler
  | .keyboard => S.keyboardHandler
  | .rtc => S.rtcHandler

/-- The kernel runs under its own table, and the wrappers lie where the table points to.  An interrupt of a program
takes a frame of five words, the eight registers and a return address. -/
structure Installed (S : Symbols) (E : Env) : Prop where
  gates : E.gate = Idt.gate (shellIdt S)
  rtc : ∃ z, Lies E S.rtcHandlerWrapper (rtcHandlerWrapper S) z
  pit : ∃ z, Lies E S.pitHandlerWrapper (pitHandlerWrapper S) z
  keyboard : ∃ z, Lies E S.keyboardHandlerWrapper (keyboardHandlerWrapper S) z
  reserve : 4 * 14 ≤ E.reserve

section

variable {S : Symbols} {E : Env} (hE : Installed S E) (l : Device)
include hE

theorem Installed.gate_device : E.gate l.vector = some (kernelGate (l.wrapper S)) := by
  rw [hE.gates, gate_shellIdt]
  cases l <;> rfl

theorem Installed.lies : ∃ z, Lies E (l.wrapper S) (handlerWrapper (l.handler S)) z := by
  cases l
  · exact hE.pit
  · exact hE.keyboard
  · exact hE.rtc

end

/-- The handler in C has come back and has left the memory of the interrupted process alone. -/
structure HandlerReturned (E : Env) (k k' : Cpu) : Prop extends Returned E 0 k k' where
  kept : ∀ b, E.kept b → k'.mem b = k.mem b

/-- `c'` is `c` after one interrupt: the gate, three instructions, the handler, three more instructions. -/
def Serviced (E : Env) (c c' : Cpu) : Prop :=
  c.interrupts = true ∧ ∃ (l : Device) (g : Gate) (k k' : Cpu), E.gate l.vector = some g ∧
    steps E 3 (c.deliver E g c.eip) = some k ∧ HandlerReturned E k k' ∧ steps E 3 k' = some c'

/-! ### One interrupt -/

section

variable {S : Symbols} {E : Env} (hE : Installed S E)
include hE

/-- There is room for the frame, the registers and the return address. -/
theorem Installed.room {c : Cpu} (hroom : c.Kernel → E.depth (c.reg .esp) ≤ E.size) (next : Word) :
    E.depth ((c.onStack E).reg .esp) + 4 * ((c.frame next).length + 9) ≤ E.size + E.reserve := by
  have hreserve := hE.reserve
  unfold Cpu.onStack Cpu.frame
  by_cases h : c.Kernel
  · have := hroom h
    rw [if_pos h, if_pos h]
    show _ + 4 * (3 + 9) ≤ _
    omega
  · rw [if_neg h, if_neg h]
    show (E.esp0 - E.esp0).toNat + 4 * (5 + 9) ≤ _
    rw [BitVec.sub_self, BitVec.toNat_zero]
    omega

/-- The wrapper calls the handler with the registers and the frame on the stack, and behind the call it takes them
back. -/
theorem Device.calls (l : Device) (c : Cpu) (hroom : c.Kernel → E.depth (c.reg .esp) ≤ E.size) :
    ∃ (k : Cpu) (a x z : Word), steps E 3 (c.deliver E (kernelGate (l.wrapper S)) c.eip) = some k ∧
      k.eip = l.handler S ∧ k.ss = (c.onStack E).ss ∧ Lies E a [.popa, .sti, .iret] z ∧
      Pushed (c.onStack E) (a :: (savedRegs c.reg x ++ c.frame c.eip)) k := by
  obtain ⟨z, a₁, hcli, a₂, hpusha, a₃, hcall, hrest⟩ := hE.lies l
  have hroom' := hE.room hroom c.eip
  have hbound := E.bounded
  let d := c.deliver E (kernelGate (l.wrapper S)) c.eip
  let d₁ := d.cli.goto a₁
  have hframe : Pushed (c.onStack E) (c.frame c.eip) d := c.pushed_deliver E _ c.eip
  have hframe₁ : Pushed (c.onStack E) (c.frame c.eip) d₁ := hframe.congr rfl rfl
  have hregs : Pushed (c.onStack E) (savedRegs c.reg (d₁.reg .esp) ++ c.frame c.eip) (d₁.pusha.goto a₂) :=
    (hframe₁.pusha (by omega) fun r hr => c.onStack_reg E hr).congr rfl rfl
  have hcalled := hregs.push a₃ (by
    rw [List.length_append]
    show 4 * (8 + _ + 1) < _
    omega)
  refine ⟨((d₁.pusha.goto a₂).push a₃).goto (l.handler S), a₃, _, z, ?_, rfl, ?_, hrest, hcalled.congr rfl rfl⟩
  · rw [steps_succ hcli rfl, steps_succ hpusha rfl, steps_succ hcall rfl]
    rfl
  · show (c.enter E).ss = _
    unfold Cpu.enter Cpu.onStack
    split <;> rfl

/-- **An interrupt is transparent.** -/
theorem Device.service (l : Device) (c : Cpu) (hroom : c.Kernel → E.depth (c.reg .esp) ≤ E.size) :
    ∃ k, steps E 3 (c.deliver E (kernelGate (l.wrapper S)) c.eip) = some k ∧ k.eip = l.handler S ∧
      ∀ k', HandlerReturned E k k' → steps E 3 k' = some { c with mem := k'.mem } ∧
        Harmless E c { c with mem := k'.mem } := by
  obtain ⟨k, a, x, z, hsteps, heip, hss, ⟨a₁, hpopa, a₂, hsti, a₃, hiret, -⟩, hk⟩ := l.calls hE c hroom
  have hroom' : E.depth ((c.onStack E).reg .esp) + 4 * (a :: (savedRegs c.reg x ++ c.frame c.eip)).length ≤
      E.size + E.reserve := by
    have := hE.room hroom c.eip
    rw [List.length_cons, List.length_append]
    show _ + 4 * (8 + _ + 1) ≤ _
    omega
  have hmem : (c.onStack E).mem = c.mem := by
    unfold Cpu.onStack
    split <;> rfl
  refine ⟨k, hsteps, heip, fun k' hk' => ⟨?_, ?_⟩⟩
  · obtain ⟨hregs, hframe⟩ := k'.popa_eq c.reg (hk.returned hroom' hk'.toReturned)
    have hback : k'.eip = a := by
      rw [hk'.eip, Cpu.top, hk.reg, Function.update_self]
      exact hk.stack.1
    have hesp : c.Kernel → k'.reg .esp + 32 + 12 = c.reg .esp := fun h => by
      have hlen : (a :: (savedRegs c.reg x ++ c.frame c.eip)).length = 12 := by
        rw [Cpu.frame, if_pos h]
        rfl
      rw [hk'.esp, hk.reg, Function.update_self, hlen, Cpu.onStack, if_pos h]
      bv_omega
    rw [steps_succ (by rw [hback]; exact hpopa) rfl, steps_succ hsti rfl, steps_succ hiret rfl, steps, hregs]
    refine congrArg some (Cpu.iret_frame hframe rfl hesp fun h => ?_)
    show k'.ss = c.ss
    rw [hk'.ss, hss, Cpu.onStack, if_pos h]
  · refine ⟨rfl, rfl, rfl, rfl, rfl, fun b hb => ?_, fun hker b hb hb' => ?_⟩
    · rw [hk'.kept b hb, hk.kept hroom' hb, hmem]
    · have hon : c.onStack E = c := if_pos hker
      have hdepth := hk.depth_esp hroom'
      rw [hon] at hk hroom' hdepth
      rw [List.length_cons] at hdepth
      rw [hk'.live b hb (by omega), hk.above hroom' hb hb']

theorem tame_serviced : Tame E (Serviced E) := by
  rintro c d ⟨-, l, g, k, k', hgate, hsteps, hk', hback⟩ hroom
  obtain ⟨k₀, hsteps₀, -, hservice⟩ := l.service hE c hroom
  rw [hE.gate_device, Option.some_inj] at hgate
  rw [← hgate, hsteps₀, Option.some_inj] at hsteps
  subst hsteps
  obtain ⟨hback₀, hharmless⟩ := hservice k' hk'
  rw [hback, Option.some_inj] at hback₀
  rwa [hback₀]

/-- **Interrupts are transparent**, each of them and any number of them. -/
theorem interrupts_are_transparent (c : Cpu) (hroom : c.Kernel → E.depth (c.reg .esp) ≤ E.size) :
    (∀ l : Device, ∃ g k, E.gate l.vector = some g ∧ steps E 3 (c.deliver E g c.eip) = some k ∧
      k.eip = l.handler S ∧ ∀ k', HandlerReturned E k k' → steps E 3 k' = some { c with mem := k'.mem }) ∧
    ∀ d, Relation.ReflTransGen (Serviced E) c d →
      d = { c with mem := d.mem } ∧ (∀ b, E.kept b → d.mem b = c.mem b) ∧
      (c.Kernel → ∀ b, 1 ≤ E.depth b → E.depth b ≤ E.depth (c.reg .esp) → d.mem b = c.mem b) := by
  refine ⟨fun l => ?_, fun d hd => ?_⟩
  · obtain ⟨k, hsteps, heip, hservice⟩ := l.service hE c hroom
    exact ⟨_, k, hE.gate_device l, hsteps, heip, fun k' hk' => (hservice k' hk').1⟩
  · have h := (tame_serviced hE).harmless hroom hd
    exact ⟨Cpu.ext h.reg h.eip h.eflags h.cs h.ss rfl, h.kept, h.live⟩

end

/-! ### An image -/

/-- Pieces of code, each at its address, with one address for an instruction. -/
def codeOf (pieces : List (Word × List Instr)) (a : Word) : Option (Instr × Word) :=
  pieces.findSome? fun p => (p.2[(a - p.1).toNat]?).map fun i => (i, a + 1)

/-- Addresses in the kernel's page. -/
def imageSymbols : Symbols where
  exceptionPrint v := 0x401000 + 2 * BitVec.ofNat 32 v
  exceptionPrintGeneral := 0x401040
  exceptionUserProgram := 0x401050
  pitHandlerWrapper := 0x402000
  keyboardHandlerWrapper := 0x402010
  rtcHandlerWrapper := 0x402020
  pitHandler := 0x403000
  keyboardHandler := 0x403100
  rtcHandler := 0x403200
  syscallHandler := 0x404000
  syscallInvalidNumber := 0x40400F
  syscallExit := 0x404010
  syscallTable := 0x410000

/-- The first process of an image with the wrappers and other `pieces` of code.  Its page and the table of system
calls are kept. -/
def imageEnv (pieces : List (Word × List Instr)) : Env where
  code := codeOf ([(imageSymbols.rtcHandlerWrapper, rtcHandlerWrapper imageSymbols),
    (imageSymbols.pitHandlerWrapper, pitHandlerWrapper imageSymbols),
    (imageSymbols.keyboardHandlerWrapper, keyboardHandlerWrapper imageSymbols)] ++ pieces)
  gate := Idt.gate (shellIdt imageSymbols)
  esp0 := 0x800000
  ss0 := 0x18
  size := 7000
  reserve := 4 * 14
  kept a := 0x410000 ≤ a.toNat ∧ a.toNat < 0x410028 ∨ 0x8000000 ≤ a.toNat ∧ a.toNat < 0x8400000
  bounded := by decide
  kept_off a ha := by bv_omega

theorem installed_imageEnv (pieces : List (Word × List Instr)) : Installed imageSymbols (imageEnv pieces) where
  gates := rfl
  rtc := ⟨_, _, rfl, _, rfl, _, rfl, _, rfl, _, rfl, _, rfl, rfl⟩
  pit := ⟨_, _, rfl, _, rfl, _, rfl, _, rfl, _, rfl, _, rfl, rfl⟩
  keyboard := ⟨_, _, rfl, _, rfl, _, rfl, _, rfl, _, rfl, _, rfl, rfl⟩
  reserve := Nat.le_refl _

/-- A program in its page. -/
def programCpu : Cpu where
  reg
    | .esp => 0x83FFF00
    | _ => 7
  eip := 0x8048000
  eflags := 0x202
  cs := 0x23
  ss := 0x2B
  mem _ := 0

theorem interrupts_are_transparent_program :
    ¬programCpu.Kernel ∧ ∃ g k, (imageEnv []).gate 0x20 = some g ∧
      steps (imageEnv []) 3 (programCpu.deliver (imageEnv []) g 0x8048000) = some k ∧ k.eip = 0x403000 ∧
      ∀ k', HandlerReturned (imageEnv []) k k' →
        steps (imageEnv []) 3 k' = some { programCpu with mem := k'.mem } := by
  have huser : ¬programCpu.Kernel := by decide
  exact ⟨huser, (interrupts_are_transparent (installed_imageEnv []) programCpu (absurd · huser)).1 .pit⟩

end ClosKernel
