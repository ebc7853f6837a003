import Mathlib.Data.List.Basic
import ClosKernel.Interrupts

/-!
# The way of a system call

A program calls a wrapper of `ece391syscall.S`, which loads the number and three arguments into registers and
executes `int $0x80`.  `syscall_handler` saves the registers on the kernel's stack, so that the arguments lie where a
function in C expects them, checks the number, and calls through `syscall_table`; `syscall_exit` takes the
registers back.  The function may overwrite its arguments, and interrupts may come before each of the instructions.

* `enters_function` and `leaves_kernel` — the two halves of `syscall_handler`;
* `system_call_wrapper` — **a system call is a function call**: the function that the number stands for is called with
  the caller's arguments, and its result comes back to the caller, as the calling convention of C has it;
* `system_call_invalid` — **any other number** gives -1 and changes nothing else.
-/

namespace ClosKernel

open StackMachine
open Function (update)

/-! ### The code -/

/-- `DO_CALL` -/
def doCall (number : Word) : List Instr :=
  [.pushl .ebx, .movl number .eax, .movlStack 8 .ebx, .movlStack 12 .ecx, .movlStack 16 .edx, .int 0x80,
    .popl .ebx, .ret]

/-- The system calls, as `ece391sysnum.h` lists them. -/
inductive SysNum where
  | halt
  | execute
  | read
  | write
  | openFile
  | close
  | getargs
  | vidmap
  | setHandler
  | sigreturn

def SysNum.number : SysNum → ℕ
  | .halt => 1
  | .execute => 2
  | .read => 3
  | .write => 4
  | .openFile => 5
  | .close => 6
  | .getargs => 7
  | .vidmap => 8
  | .setHandler => 9
  | .sigreturn => 10

/-- The wrapper in `ece391syscall.S`. -/
def SysNum.wrapper (s : SysNum) : List Instr := doCall (BitVec.ofNat 32 s.number)

/-- `syscall_table`, for functions at the addresses `A`. -/
def syscallTable (A : SysNum → Word) : List Word :=
  [A .halt, A .execute, A .read, A .write, A .openFile, A .close, A .getargs, A .vidmap, A .setHandler, A .sigreturn]

/-- The number that a program uses is the place in the kernel's table. -/
theorem syscallTable_number (A : SysNum → Word) (s : SysNum) : (syscallTable A)[s.number - 1]? = some (A s) := by
  cases s <;> rfl

theorem SysNum.number_mem (s : SysNum) : 1 ≤ s.number ∧ s.number ≤ 10 := by
  cases s <;> decide

/-- `syscall_handler`, up to `syscall_invalid_number`. -/
def syscallHandler (S : Symbols) : List Instr :=
  [.pushl .esp, .pushl .ebp, .pushl .esi, .pushl .edi, .pushl .edx, .pushl .ecx, .pushl .ebx,
    .cmpl 1 .eax, .jl S.syscallInvalidNumber, .cmpl 10 .eax, .jg S.syscallInvalidNumber,
    .decl .eax, .movl S.syscallTable .edi, .callTable .edi .eax, .jmp S.syscallExit]

/-- The numbers that `syscall_handler` refuses. -/
def NoSystemCall (n : ℤ) : Prop := n < 1 ∨ 10 < n

instance (n : ℤ) : Decidable (NoSystemCall n) := inferInstanceAs (Decidable (_ ∨ _))

def syscallInvalidNumber : List Instr := [.movl (-1) .eax]

def syscallExit : List Instr :=
  [.popl .ebx, .popl .ecx, .popl .edx, .popl .edi, .popl .esi, .popl .ebp, .popl .esp, .iret]

def InProgramPage (a : Word) : Prop := 0x8000000 ≤ a.toNat ∧ a.toNat < 0x8400000

def InTable (S : Symbols) (a : Word) : Prop := S.syscallTable.toNat ≤ a.toNat ∧ a.toNat < S.syscallTable.toNat + 40

/-- The code of the system calls lies behind its labels, the table lies below the program, and only the program and
the table are kept.  The registers and the frame take twelve words on the stack, and the call one more. -/
structure SystemCalls (S : Symbols) (E : Env) : Prop extends Installed S E where
  handler : Lies E S.syscallHandler (syscallHandler S) S.syscallInvalidNumber
  invalid : Lies E S.syscallInvalidNumber syscallInvalidNumber S.syscallExit
  exit : ∃ z, Lies E S.syscallExit syscallExit z
  room : 4 * 13 ≤ E.size
  kept_iff : ∀ a, E.kept a ↔ InTable S a ∨ InProgramPage a
  table : S.syscallTable.toNat + 40 ≤ 0x8000000

section

variable {S : Symbols} {E : Env} (hS : SystemCalls S E)

theorem SystemCalls.gate (hS : SystemCalls S E) : E.gate 0x80 = some (systemCallGate S.syscallHandler) := by
  rw [hS.gates, gate_shellIdt]
  rfl

/-! ### Into the function, and back -/

variable {ρ : Reg → Word} {f a next cs₀ ss₀ esp fl : Word} {m : Memory} {c : Cpu} {Q : Cpu → Prop}
include hS

/-- The registers, and the number compared with both bounds. -/
theorem checks_number
    (h : Inside E ρ S.syscallHandler f [next, cs₀, fl, esp, ss₀] m c)
    (hvalid : ∀ b f c, 1 ≤ (ρ .eax).toInt → (ρ .eax).toInt ≤ 10 →
      Lies E b [.decl .eax, .movl S.syscallTable .edi, .callTable .edi .eax, .jmp S.syscallExit]
        S.syscallInvalidNumber →
      Inside E ρ b f [ρ .ebx, ρ .ecx, ρ .edx, ρ .edi, ρ .esi, ρ .ebp, E.sp 5, next, cs₀, fl, esp, ss₀] m c →
      Eventually E (Serviced E) Q c)
    (hinvalid : ∀ f c, NoSystemCall (ρ .eax).toInt →
      Inside E ρ S.syscallInvalidNumber f
        [ρ .ebx, ρ .ecx, ρ .edx, ρ .edi, ρ .esi, ρ .ebp, E.sp 5, next, cs₀, fl, esp, ss₀] m c →
      Eventually E (Serviced E) Q c) : Eventually E (Serviced E) Q c := by
  have hD := tame_serviced hS.toInstalled
  have hroom := hS.room
  have hone : BitVec.toInt (1 : Word) = 1 := by decide
  have hten : BitVec.toInt (10 : Word) = 10 := by decide
  obtain ⟨b, hesp, hrest⟩ := hS.handler
  refine h.pushl hD hesp (show 4 * 6 ≤ E.size by omega) fun c h => ?_
  rw [Function.update_self] at h
  refine Inside.pushes [.ebp, .esi, .edi, .edx, .ecx, .ebx] hD h hrest (by decide)
    (show 4 * 12 ≤ E.size by omega) fun b c hcode h => ?_
  obtain ⟨b₁, hcmpl, b₂, hjl, b₃, hcmpl', b₄, hjg, hcode⟩ := hcode
  refine h.cmpl hD hcmpl (by decide) fun c h => h.jl hD hjl fun c h => ?_
  rw [hone] at h
  by_cases hlow : (ρ .eax).toInt < 1
  · rw [if_pos hlow] at h
    exact hinvalid _ c (.inl hlow) h
  rw [if_neg hlow] at h
  refine h.cmpl hD hcmpl' (by decide) fun c h => h.jg hD hjg fun c h => ?_
  rw [hten] at h
  by_cases hhigh : 10 < (ρ .eax).toInt
  · rw [if_pos hhigh] at h
    exact hinvalid _ c (.inr hhigh) h
  rw [if_neg hhigh] at h
  exact hvalid b₄ _ c (by omega) (by omega) hcode h

/-- `syscall_handler` up to the first instruction of the function. -/
theorem enters_function {n : ℕ} (hn : 1 ≤ n ∧ n ≤ 10) (hnumber : ρ .eax = BitVec.ofNat 32 n)
    (h : Inside E ρ S.syscallHandler f [next, cs₀, fl, esp, ss₀] m c)
    (hnext : ∀ ret f c, Lies E ret [.jmp S.syscallExit] S.syscallInvalidNumber →
      Inside E (update (update ρ .eax (BitVec.ofNat 32 (n - 1))) .edi S.syscallTable)
        (load m (S.syscallTable + BitVec.ofNat 32 (4 * (n - 1)))) f
        (ret :: ([ρ .ebx, ρ .ecx, ρ .edx] ++ [ρ .edi, ρ .esi, ρ .ebp, E.sp 5, next, cs₀, fl, esp, ss₀])) m c →
      Eventually E (Serviced E) Q c) : Eventually E (Serviced E) Q c := by
  have hD := tame_serviced hS.toInstalled
  have hroom := hS.room
  have htable := hS.table
  have hint : (ρ .eax).toInt = n := by
    rw [hnumber, BitVec.toInt_eq_toNat_of_lt (by bv_omega), BitVec.toNat_ofNat]
    omega
  refine checks_number hS h (fun b f c _ _ hcode h => ?_) fun f c hbad _ => by
    unfold NoSystemCall at hbad
    omega
  obtain ⟨b₁, hdecl, b₂, hmovl, b₃, hcall, hret⟩ := hcode
  refine h.decl hD hdecl (by decide) fun c h => h.movl hD hmovl (by decide) fun c h => ?_
  have hindex : ρ .eax - 1 = BitVec.ofNat 32 (n - 1) := by
    rw [hnumber]
    bv_omega
  have hslot : 4 * BitVec.ofNat 32 (n - 1) = BitVec.ofNat 32 (4 * (n - 1)) := by bv_omega
  rw [hindex] at h
  refine h.callTable hD hcall (by decide) (by decide) (show 4 * 13 ≤ E.size from hroom) (fun i hi => ?_) fun c h => ?_
  · rw [hS.kept_iff]
    left
    show S.syscallTable.toNat ≤ (S.syscallTable + 4 * BitVec.ofNat 32 (n - 1) + BitVec.ofNat 32 i).toNat ∧
      (S.syscallTable + 4 * BitVec.ofNat 32 (n - 1) + BitVec.ofNat 32 i).toNat < S.syscallTable.toNat + 40
    bv_omega
  · refine hnext b₃ (compared f (ρ .eax) 1) c hret ?_
    rw [← hslot]
    exact h

/-- The registers with which a program goes on. -/
def exitRegs (eax x₁ x₂ x₃ edi esi ebp esp : Word) : Reg → Word
  | .eax => eax
  | .ecx => x₂
  | .edx => x₃
  | .ebx => x₁
  | .esp => esp
  | .ebp => ebp
  | .esi => esi
  | .edi => edi

/-- `syscall_exit` -/
theorem leaves_kernel {σ : Reg → Word} {x₁ x₂ x₃ edi esi ebp : Word} (huser : cs₀ &&& 3 ≠ 0)
    (h : Inside E σ S.syscallExit f [x₁, x₂, x₃, edi, esi, ebp, E.sp 5, next, cs₀, fl, esp, ss₀] m c)
    (hnext : ∀ c, Outside E (exitRegs (σ .eax) x₁ x₂ x₃ edi esi ebp esp) next fl cs₀ ss₀ m c →
      Eventually E (Serviced E) Q c) : Eventually E (Serviced E) Q c := by
  have hD := tame_serviced hS.toInstalled
  obtain ⟨z, hexit⟩ := hS.exit
  refine Inside.pops [(.ebx, x₁), (.ecx, x₂), (.edx, x₃), (.edi, edi), (.esi, esi), (.ebp, ebp)] hD h hexit
    (by simp) fun b c hcode h => ?_
  obtain ⟨b₁, hesp, b₂, hiret, -⟩ := hcode
  refine Inside.popl_esp hD h rfl hesp fun c h => h.iret hD hiret huser fun c h => hnext c ?_
  have hregs : exitRegs (σ .eax) x₁ x₂ x₃ edi esi ebp esp = update (List.foldl
      (fun ρ p => update ρ p.1 p.2) σ
      [(.ebx, x₁), (.ecx, x₂), (.edx, x₃), (.edi, edi), (.esi, esi), (.ebp, ebp)]) .esp esp := by
    funext r
    cases r <;> rfl
  rwa [hregs]

omit hS in
theorem Outside.of_user (c : Cpu) (h : ¬c.Kernel) : Outside E c.reg c.eip c.eflags c.cs c.ss c.mem c :=
  ⟨rfl, rfl, rfl, rfl, rfl, h, fun _ _ => rfl⟩

/-- From `int $0x80` to the instruction behind it. -/
theorem int80_calls {n : ℕ} (hn : 1 ≤ n ∧ n ≤ 10) (hnumber : ρ .eax = BitVec.ofNat 32 n)
    (h : Outside E ρ a f cs₀ ss₀ m c) (hcode : E.code a = some (.int 0x80, next)) :
    Eventually E (Serviced E) (fun k => k.eip = load m (S.syscallTable + BitVec.ofNat 32 (4 * (n - 1))) ∧
      Stacked k.mem (k.reg .esp + 4) [ρ .ebx, ρ .ecx, ρ .edx] ∧ (∀ b, E.kept b → k.mem b = m b) ∧
      ∀ k', Returned E 3 k k' → ∃ x₁ x₂ x₃, Eventually E (Serviced E)
        (Outside E (exitRegs (k'.reg .eax) x₁ x₂ x₃ (ρ .edi) (ρ .esi) (ρ .ebp) (ρ .esp)) next f cs₀ ss₀ k'.mem) k')
      c := by
  have hD := tame_serviced hS.toInstalled
  have hroom := hS.room
  have huser : cs₀ &&& 3 ≠ 0 := by
    rw [← h.cs]
    exact h.user
  refine h.int hD hcode hS.gate rfl rfl (show kernelCs.setWidth 32 &&& 3 = 0 by decide) (by omega) fun k h => ?_
  refine enters_function hS hn hnumber h fun ret f' k hret h => .done ⟨h.eip, ?_, h.kept, fun k' hk' => ?_⟩
  · rw [h.esp]
    exact (stacked_append.mp h.stack.2).1
  · obtain ⟨args, hlen, h'⟩ := h.returned hk'
    obtain ⟨x₁, x₂, x₃, rfl⟩ := List.length_eq_three.mp hlen
    obtain ⟨b, hjmp, -⟩ := hret
    exact ⟨x₁, x₂, x₃, h'.jmp hD hjmp fun k h => leaves_kernel hS huser h fun d h => .done h⟩

/-- The same with a number that is refused. -/
theorem int80_refuses (hnumber : NoSystemCall (ρ .eax).toInt) (h : Outside E ρ a f cs₀ ss₀ m c)
    (hcode : E.code a = some (.int 0x80, next))
    (hnext : ∀ d, Outside E (update ρ .eax (-1)) next f cs₀ ss₀ m d → Eventually E (Serviced E) Q d) :
    Eventually E (Serviced E) Q c := by
  have hD := tame_serviced hS.toInstalled
  have hroom := hS.room
  have huser : cs₀ &&& 3 ≠ 0 := by
    rw [← h.cs]
    exact h.user
  refine h.int hD hcode hS.gate rfl rfl (show kernelCs.setWidth 32 &&& 3 = 0 by decide) (by omega) fun k h => ?_
  refine checks_number hS h (fun b f k hlow hhigh _ _ => ?_) fun f k _ h => ?_
  · unfold NoSystemCall at hnumber
    omega
  obtain ⟨b, hmovl, rfl⟩ := hS.invalid
  refine h.movl hD hmovl (by decide) fun k h => ?_
  refine leaves_kernel hS huser h fun d h => hnext d { h with reg := h.reg.trans (funext fun r => ?_) }
  cases r <;> rfl

end

/-- An image with the system calls and the wrapper `ece391_read` of a program. -/
def callEnv : Env :=
  imageEnv [(0x404000, syscallHandler imageSymbols), (0x40400F, syscallInvalidNumber), (0x404010, syscallExit),
    (0x8049000, SysNum.read.wrapper)]

/-- The program has called `ece391_read`; every byte of memory holds the low byte of its address. -/
def callCpu : Cpu := { programCpu with eip := 0x8049000, mem := fun a => a.setWidth 8 }

theorem systemCalls_callEnv : SystemCalls imageSymbols callEnv where
  toInstalled := installed_imageEnv _
  handler := ⟨_, rfl, _, rfl, _, rfl, _, rfl, _, rfl, _, rfl, _, rfl, _, rfl, _, rfl, _, rfl, _, rfl, _, rfl, _, rfl,
    _, rfl, _, rfl, rfl⟩
  invalid := ⟨_, rfl, rfl⟩
  exit := ⟨_, _, rfl, _, rfl, _, rfl, _, rfl, _, rfl, _, rfl, _, rfl, _, rfl, rfl⟩
  room := by decide
  kept_iff _ := Iff.rfl
  table := by decide

/-! ### The theorems -/

/-- **A number that stands for no system call.** -/
theorem system_call_invalid {S : Symbols} {E : Env} (hS : SystemCalls S E) (c : Cpu) {next : Word} (huser : ¬c.Kernel)
    (hcode : E.code c.eip = some (.int 0x80, next))
    (hnumber : (c.reg .eax).toInt < 1 ∨ 10 < (c.reg .eax).toInt) :
    Eventually E (Serviced E) (fun d => d = { c with reg := update c.reg .eax (-1), eip := next, mem := d.mem } ∧
      ∀ b, E.kept b → d.mem b = c.mem b) c := by
  refine int80_refuses hS hnumber (Outside.of_user c huser) hcode fun d h => .done ⟨?_, h.kept⟩
  exact Cpu.ext h.reg h.eip h.eflags h.cs h.ss rfl

/-- `int $0x80` with a number that is negative. -/
def invalidCpu : Cpu := { callCpu with eip := 0x8049005, reg := update callCpu.reg .eax 0x80000000 }

theorem system_call_invalid_negative :
    Eventually callEnv (Serviced callEnv) (fun d => d = { invalidCpu with
      reg := update invalidCpu.reg .eax (-1), eip := 0x8049006, mem := d.mem } ∧
      ∀ b, callEnv.kept b → d.mem b = invalidCpu.mem b) invalidCpu :=
  system_call_invalid systemCalls_callEnv invalidCpu (by decide) rfl (.inl (by decide))

/-- **A system call is a function call.** -/
theorem system_call_wrapper {S : Symbols} {E : Env} (hS : SystemCalls S E) {A : SysNum → Word} (s : SysNum)
    {w z ret a₁ a₂ a₃ : Word} (hcode : Lies E w s.wrapper z) (c : Cpu) (huser : ¬c.Kernel) (heip : c.eip = w)
    (hesp : 0x8000004 ≤ (c.reg .esp).toNat ∧ (c.reg .esp).toNat + 16 ≤ 0x8400000)
    (hargs : Stacked c.mem (c.reg .esp) [ret, a₁, a₂, a₃]) (htable : Stacked c.mem S.syscallTable (syscallTable A)) :
    Eventually E (Serviced E) (fun k => k.eip = A s ∧ Stacked k.mem (k.reg .esp + 4) [a₁, a₂, a₃] ∧
      (∀ b, E.kept b → 4 ≤ (b - (c.reg .esp - 4)).toNat → k.mem b = c.mem b) ∧
      ∀ k', Returned E 3 k k' → Stacked k'.mem (c.reg .esp - 4) [c.reg .ebx, ret] →
        Eventually E (Serviced E) (fun d => d.eip = ret ∧ d.reg .eax = k'.reg .eax ∧ d.reg .esp = c.reg .esp + 4 ∧
          (∀ r ∈ [Reg.ebx, .esi, .edi, .ebp], d.reg r = c.reg r) ∧
          d.eflags = c.eflags ∧ d.cs = c.cs ∧ d.ss = c.ss ∧ ∀ b, E.kept b → d.mem b = k'.mem b) k') c := by
  have hD := tame_serviced hS.toInstalled
  have hbelow := hS.table
  -- The words of the caller's stack lie in its page, and the table does not.
  have hkept : ∀ j < 20, E.kept (c.reg .esp - 4 + BitVec.ofNat 32 j) := fun j hj => by
    rw [hS.kept_iff]
    right
    unfold InProgramPage
    bv_omega
  have hword : ∀ i < 5, ∀ j < 4, E.kept (c.reg .esp - 4 + BitVec.ofNat 32 (4 * i) + BitVec.ofNat 32 j) :=
    fun i hi j hj => by
      rw [BitVec.add_assoc, ← BitVec.ofNat_add]
      exact hkept _ (by omega)
  have hstack := hargs.push (c.reg .ebx) (show 4 * 4 + 4 ≤ 2 ^ 32 by decide)
  have htable' : Stacked (store c.mem (c.reg .esp - 4) (c.reg .ebx)) S.syscallTable (syscallTable A) :=
    htable.congr fun j hj => store_of_le _ _ (by
      have hj : j < 40 := hj
      bv_omega)
  subst heip
  obtain ⟨b₁, hpush, b₂, hmov, b₃, hebx, b₄, hecx, b₅, hedx, b₆, hint, b₇, hpop, b₈, hret, -⟩ := hcode
  refine (Outside.of_user c huser).pushl hD hpush fun _ h => h.movl hD hmov fun _ h =>
    h.movlStack (y := _ + BitVec.ofNat 32 (4 * 2)) hD hebx rfl (hstack.load_eq rfl) (hword 2 (by decide)) fun _ h =>
    h.movlStack (y := _ + BitVec.ofNat 32 (4 * 3)) hD hecx rfl (hstack.load_eq rfl) (hword 3 (by decide)) fun _ h =>
    h.movlStack (y := _ + BitVec.ofNat 32 (4 * 4)) hD hedx rfl (hstack.load_eq rfl) (hword 4 (by decide)) fun c' h => ?_
  have h' : Outside E (exitRegs (BitVec.ofNat 32 s.number) a₁ a₂ a₃ (c.reg .edi) (c.reg .esi) (c.reg .ebp)
      (c.reg .esp - 4)) b₅ c.eflags c.cs c.ss (store c.mem (c.reg .esp - 4) (c.reg .ebx)) c' := by
    refine { h with reg := h.reg.trans (funext fun r => ?_) }
    cases r <;> rfl
  refine (int80_calls hS s.number_mem rfl h' hint).mono fun k ⟨hk, hkargs, hkmem, hback⟩ =>
    ⟨hk.trans (htable'.load_eq (syscallTable_number A s)), hkargs, fun b hb hoff => ?_, fun k' hk' hsaved => ?_⟩
  · rw [hkmem b hb, store_of_le _ _ hoff]
  · obtain ⟨x₁, x₂, x₃, hout⟩ := hback k' hk'
    refine hout.trans fun d h => h.popl hD hpop rfl hsaved.1 (fun j hj => hkept j (by omega)) fun d h =>
      h.ret hD hret rfl hsaved.2.1 (hword 1 (by decide)) fun d h => .done ?_
    refine ⟨h.eip, by rw [h.reg]; rfl, ?_, fun r hr => ?_, h.eflags, h.cs, h.ss, h.kept⟩
    · rw [h.reg]
      show c.reg .esp - 4 + 4 + 4 = c.reg .esp + 4
      rw [BitVec.sub_add_cancel]
    · rw [h.reg]
      simp only [List.mem_cons, List.not_mem_nil, or_false] at hr
      rcases hr with rfl | rfl | rfl | rfl <;> rfl

/-- The functions that the table of this memory points to. -/
def callFunctions (s : SysNum) : Word := load callCpu.mem (0x410000 + 4 * BitVec.ofNat 32 (s.number - 1))

theorem system_call_wrapper_read :
    Eventually callEnv (Serviced callEnv) (fun k => k.eip = callFunctions .read) callCpu :=
  (system_call_wrapper systemCalls_callEnv (A := callFunctions) .read
    ⟨_, rfl, _, rfl, _, rfl, _, rfl, _, rfl, _, rfl, _, rfl, _, rfl, rfl⟩ callCpu (by decide) rfl (by decide)
    ⟨rfl, rfl, rfl, rfl, trivial⟩ ⟨rfl, rfl, rfl, rfl, rfl, rfl, rfl, rfl, rfl, rfl, trivial⟩).mono fun _ h => h.1

end ClosKernel
