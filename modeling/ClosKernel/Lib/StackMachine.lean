import Mathlib.Algebra.Group.Nat.Defs
import Mathlib.Data.List.Basic
import Mathlib.Data.Nat.Notation
import Mathlib.Logic.Function.Basic
import Mathlib.Logic.Relation

/-!
# Entry code of a 32-bit kernel

The part of the IA-32 instruction set that is needed to enter a kernel and to leave it: pushes and pops, calls, gates,
`int` and `iret` with the change of stack, `pusha` and `popa`.  Memory is made of bytes, and a word on the stack is four
of them.  The code, its layout and the gates are arbitrary.

Between any two instructions an interrupt may come and change memory (`Eventually`, for an arbitrary relation of
disturbances).  What a program may rely on is what such a disturbance must keep: the registers, the memory that is the
process's own (`Env.kept`), and in the kernel the part of the stack that is in use (`Harmless`).

* `Stacked` — the words on a stack, and what pushing and popping do to them;
* `Eventually.of_stable` — **an instruction under disturbances** is an instruction, if the assertion before it
  survives them;
* `Inside` and `Outside` — the two assertions, in the kernel and in the program, and one rule for each instruction.
-/

namespace StackMachine

open Function (update)
open Relation (ReflTransGen)

abbrev Word := BitVec 32

abbrev Memory := Word → BitVec 8

/-! ### Words in memory -/

def load (m : Memory) (a : Word) : Word := m (a + 3#32) ++ m (a + 2#32) ++ m (a + 1#32) ++ m (a + 0#32)

def store (m : Memory) (a v : Word) : Memory := fun b =>
  if (b - a).toNat < 4 then v.extractLsb' (8 * (b - a).toNat) 8 else m b

theorem store_of_le (m : Memory) {a b : Word} (v : Word) (h : 4 ≤ (b - a).toNat) : store m a v b = m b := by
  rw [store, if_neg (Nat.not_lt.mpr h)]

theorem store_at (m : Memory) (a v : Word) {i : ℕ} (hi : i < 4) :
    store m a v (a + BitVec.ofNat 32 i) = v.extractLsb' (8 * i) 8 := by
  have h : (a + BitVec.ofNat 32 i - a).toNat = i := by bv_omega
  rw [store, h, if_pos hi]

theorem load_store (m : Memory) (a v : Word) : load (store m a v) a = v := by
  rw [load, store_at m a v (i := 0) (by decide), store_at m a v (i := 1) (by decide),
    store_at m a v (i := 2) (by decide), store_at m a v (i := 3) (by decide)]
  ext i hi
  simp only [BitVec.getElem_append, BitVec.getElem_extractLsb']
  split
  · grind
  · split <;> grind

theorem load_congr {m m' : Memory} {a : Word}
    (h : ∀ i < 4, m' (a + BitVec.ofNat 32 i) = m (a + BitVec.ofNat 32 i)) : load m' a = load m a := by
  rw [load, load, h 0 (by decide), h 1 (by decide), h 2 (by decide), h 3 (by decide)]

/-- The words `ws` lie in memory from `a` on. -/
def Stacked (m : Memory) : Word → List Word → Prop
  | _, [] => True
  | a, w :: ws => load m a = w ∧ Stacked m (a + 4) ws

/-- The words depend on their own bytes only. -/
theorem Stacked.congr {m m' : Memory} {ws : List Word} {a : Word} (h : Stacked m a ws)
    (hm : ∀ j < 4 * ws.length, m' (a + BitVec.ofNat 32 j) = m (a + BitVec.ofNat 32 j)) : Stacked m' a ws := by
  induction ws generalizing a with
  | nil => trivial
  | cons w ws ih =>
    rw [List.length_cons] at hm
    refine ⟨(load_congr fun i hi => hm i (by omega)).trans h.1, ih h.2 fun j hj => ?_⟩
    have hnext : a + 4 + BitVec.ofNat 32 j = a + BitVec.ofNat 32 (j + 4) := by bv_omega
    rw [hnext]
    exact hm (j + 4) (by omega)

theorem Stacked.push {m : Memory} {ws : List Word} {a : Word} (h : Stacked m a ws) (v : Word)
    (hlen : 4 * ws.length + 4 ≤ 2 ^ 32) : Stacked (store m (a - 4) v) (a - 4) (v :: ws) := by
  refine ⟨load_store m _ v, ?_⟩
  rw [BitVec.sub_add_cancel]
  refine h.congr fun j hj => store_of_le m v ?_
  bv_omega

theorem stacked_append {m : Memory} {xs ys : List Word} {a : Word} :
    Stacked m a (xs ++ ys) ↔ Stacked m a xs ∧ Stacked m (a + BitVec.ofNat 32 (4 * xs.length)) ys := by
  induction xs generalizing a with
  | nil => rw [List.nil_append, List.length_nil, Nat.mul_zero, BitVec.add_zero, Stacked, true_and]
  | cons x xs ih =>
    have hnext : a + 4 + BitVec.ofNat 32 (4 * xs.length) = a + BitVec.ofNat 32 (4 * (x :: xs).length) := by
      rw [List.length_cons]
      bv_omega
    rw [List.cons_append, Stacked, Stacked, ih, hnext, and_assoc]

/-- There are words everywhere. -/
theorem exists_stacked (m : Memory) (n : ℕ) (a : Word) : ∃ ws, ws.length = n ∧ Stacked m a ws := by
  induction n generalizing a with
  | zero => exact ⟨[], rfl, trivial⟩
  | succ n ih =>
    obtain ⟨ws, hlen, hws⟩ := ih (a + 4)
    exact ⟨load m a :: ws, congrArg (· + 1) hlen, rfl, hws⟩

theorem Stacked.load_eq {m : Memory} {ws : List Word} {a : Word} (h : Stacked m a ws) {i : ℕ} {w : Word}
    (hi : ws[i]? = some w) : load m (a + BitVec.ofNat 32 (4 * i)) = w := by
  induction ws generalizing a i with
  | nil => simp at hi
  | cons v ws ih =>
    cases i with
    | zero =>
      rw [Nat.mul_zero, BitVec.add_zero]
      exact h.1.trans (Option.some.inj hi)
    | succ i =>
      have hnext : a + BitVec.ofNat 32 (4 * (i + 1)) = a + 4 + BitVec.ofNat 32 (4 * i) := by bv_omega
      rw [hnext]
      exact ih h.2 hi

/-! ### The status flags -/

/-- The zero, sign and overflow flags; the other status flags are not looked at here. -/
def withStatus (f : Word) (z s o : Bool) : Word :=
  (f &&& ~~~0x8C0#32) ||| (if z then 0x40#32 else 0#32) ||| (if s then 0x80#32 else 0#32) |||
    (if o then 0x800#32 else 0#32)

/-- The flags after `x` has been compared with `v`. -/
def compared (f x v : Word) : Word := withStatus f (x - v == 0#32) (x - v).msb (BitVec.ssubOverflow x v)

theorem withStatus_zero (f : Word) (z s o : Bool) : (withStatus f z s o).getLsbD 6 = z := by
  cases z <;> cases s <;> cases o <;> simp [withStatus]

theorem withStatus_sign (f : Word) (z s o : Bool) : (withStatus f z s o).getLsbD 7 = s := by
  cases z <;> cases s <;> cases o <;> simp [withStatus]

theorem withStatus_overflow (f : Word) (z s o : Bool) : (withStatus f z s o).getLsbD 11 = o := by
  cases z <;> cases s <;> cases o <;> simp [withStatus]

/-- The sign differs from the overflow of a difference exactly if it is negative as a difference of integers. -/
theorem msb_ne_ssubOverflow_iff (x v : Word) : (x - v).msb ≠ BitVec.ssubOverflow x v ↔ x.toInt < v.toInt := by
  have hx := x.toInt_lt
  have hx' := x.le_toInt
  have hv := v.toInt_lt
  have hv' := v.le_toInt
  rw [BitVec.msb_eq_toInt, BitVec.ssubOverflow, BitVec.toInt_sub]
  simp only [Int.bmod]
  grind

/-! ### The machine -/

/-- The general registers, in the order of `pusha`. -/
inductive Reg where
  | eax | ecx | edx | ebx | esp | ebp | esi | edi
  deriving DecidableEq

@[ext]
structure Cpu where
  reg : Reg → Word
  eip : Word
  eflags : Word
  cs : Word
  ss : Word
  mem : Memory

inductive Instr where
  | pushl (r : Reg)
  | popl (r : Reg)
  | movl (v : Word) (r : Reg)
  /-- `movl d(%esp), r` -/
  | movlStack (d : Word) (r : Reg)
  | decl (r : Reg)
  /-- `cmpl $v, r` -/
  | cmpl (v : Word) (r : Reg)
  | jl (target : Word)
  | jg (target : Word)
  | jmp (target : Word)
  | call (target : Word)
  /-- `call *(base, index, 4)` -/
  | callTable (base index : Reg)
  | ret
  | int (vector : ℕ)
  | iret
  | pusha
  | popa
  | cli
  | sti

/-- An entry of the descriptor table.  A trap gate leaves the interrupt flag as it is. -/
structure Gate where
  offset : Word
  selector : Word
  dpl : ℕ
  trap : Bool

/-- What stays while a process is served: the instructions with the address of the one behind each, the gates, and
the stack for the kernel, of which the code here uses `size` bytes and an interrupt `reserve` bytes more.  No
byte of them is among the bytes `kept`. -/
structure Env where
  code : Word → Option (Instr × Word)
  gate : ℕ → Option Gate
  esp0 : Word
  ss0 : Word
  size : ℕ
  reserve : ℕ
  kept : Word → Prop
  bounded : size + reserve < 2 ^ 32
  kept_off : ∀ a, kept a → (esp0 - a).toNat = 0 ∨ size + reserve < (esp0 - a).toNat

namespace Cpu

variable (c : Cpu)

def set (r : Reg) (v : Word) : Cpu := { c with reg := update c.reg r v }

def goto (a : Word) : Cpu := { c with eip := a }

def push (v : Word) : Cpu :=
  { c with reg := update c.reg .esp (c.reg .esp - 4), mem := store c.mem (c.reg .esp - 4) v }

/-- The word on top of the stack. -/
def top : Word := load c.mem (c.reg .esp)

def drop : Cpu := c.set .esp (c.reg .esp + 4)

def popTo (r : Reg) : Cpu := c.drop.set r c.top

/-- The code segment is the kernel's. -/
def Kernel : Prop := c.cs &&& 3 = 0

instance : Decidable c.Kernel := inferInstanceAs (Decidable (_ = _))

def zf : Bool := c.eflags.getLsbD 6
def sf : Bool := c.eflags.getLsbD 7
def interrupts : Bool := c.eflags.getLsbD 9
def of : Bool := c.eflags.getLsbD 11

def cli : Cpu := { c with eflags := c.eflags &&& ~~~0x200#32 }
def sti : Cpu := { c with eflags := c.eflags ||| 0x200#32 }

/-- The stack on which a gate puts its frame: from a program, the kernel's. -/
def enter (E : Env) : Cpu :=
  if c.Kernel then c
  else (({ c with reg := update c.reg .esp E.esp0, ss := E.ss0 } : Cpu).push c.ss).push (c.reg .esp)

/-- A gate is entered, and `next` is where to come back to. -/
def deliver (E : Env) (g : Gate) (next : Word) : Cpu :=
  { (((c.enter E).push c.eflags).push c.cs).push next with
    cs := g.selector, eip := g.offset, eflags := if g.trap then c.eflags else c.eflags &&& ~~~0x200#32 }

/-- Back to where a gate was entered; to a program, with its stack. -/
def iret : Cpu :=
  let back : Cpu := { c.drop.drop.drop with eip := c.top, cs := c.drop.top, eflags := c.drop.drop.top }
  if c.drop.top &&& 3 = 0 then back
  else { back with reg := update back.reg .esp back.top, ss := back.drop.top }

def pusha : Cpu :=
  ((((((((c.push (c.reg .eax)).push (c.reg .ecx)).push (c.reg .edx)).push (c.reg .ebx)).push
    (c.reg .esp)).push (c.reg .ebp)).push (c.reg .esi)).push (c.reg .edi))

/-- The word that was pushed for `esp` is skipped. -/
def popa : Cpu :=
  ((((((((c.popTo .edi).popTo .esi).popTo .ebp).drop).popTo .ebx).popTo .edx).popTo .ecx).popTo .eax)

theorem set_self (r : Reg) : c.set r (c.reg r) = c := by
  rw [set, Function.update_eq_self]

theorem iret_kernel (h : c.drop.top &&& 3 = 0) :
    c.iret = { c.drop.drop.drop with eip := c.top, eflags := c.drop.drop.top, cs := c.drop.top } :=
  if_pos h

theorem iret_user (h : c.drop.top &&& 3 ≠ 0) :
    c.iret = { c with
      reg := update c.reg .esp c.drop.drop.drop.top, eip := c.top, eflags := c.drop.drop.top, cs := c.drop.top,
      ss := c.drop.drop.drop.drop.top } := by
  have hreg : update c.drop.drop.drop.reg .esp c.drop.drop.drop.top =
      update c.reg .esp c.drop.drop.drop.top := by
    simp only [drop, set, Function.update_idem]
  rw [← hreg]
  exact if_neg h

theorem enter_kernel (E : Env) (h : c.Kernel) : c.enter E = c := if_pos h

theorem enter_user (E : Env) (h : ¬c.Kernel) :
    c.enter E =
      (({ c with reg := update c.reg .esp E.esp0, ss := E.ss0 } : Cpu).push c.ss).push (c.reg .esp) :=
  if_neg h

end Cpu

def exec (E : Env) (i : Instr) (next : Word) (c : Cpu) : Option Cpu :=
  match i with
  | .pushl r => some ((c.push (c.reg r)).goto next)
  | .popl r => some ((c.popTo r).goto next)
  | .movl v r => some ((c.set r v).goto next)
  | .movlStack d r => some ((c.set r (load c.mem (c.reg .esp + d))).goto next)
  | .decl r =>
      some ({ c.set r (c.reg r - 1) with eflags := compared c.eflags (c.reg r) 1, eip := next } : Cpu)
  | .cmpl v r =>
      some { c with eflags := compared c.eflags (c.reg r) v, eip := next }
  | .jl t => some (c.goto (if c.sf ≠ c.of then t else next))
  | .jg t => some (c.goto (if ¬c.zf ∧ c.sf = c.of then t else next))
  | .jmp t => some (c.goto t)
  | .call t => some ((c.push next).goto t)
  | .callTable base index => some ((c.push next).goto (load c.mem (c.reg base + 4 * c.reg index)))
  | .ret => some (c.drop.goto c.top)
  | .int v => (E.gate v).bind fun g => if c.Kernel ∨ g.dpl = 3 then some (c.deliver E g next) else none
  | .iret => some c.iret
  | .pusha => some (c.pusha.goto next)
  | .popa => some (c.popa.goto next)
  | .cli => some (c.cli.goto next)
  | .sti => some (c.sti.goto next)

def step (E : Env) (c : Cpu) : Option Cpu := (E.code c.eip).bind fun i => exec E i.1 i.2 c

def steps (E : Env) : ℕ → Cpu → Option Cpu
  | 0, c => some c
  | n + 1, c => (step E c).bind (steps E n)

theorem steps_succ {E : Env} {c c' : Cpu} {i : Instr} {next : Word} (hcode : E.code c.eip = some (i, next))
    (hexec : exec E i next c = some c') (n : ℕ) : steps E (n + 1) c = steps E n c' := by
  rw [steps, step, hcode, Option.bind_some, hexec, Option.bind_some]

/-- The instructions `is` lie at `a`, one behind the other, and `b` is the address behind them. -/
def Lies (E : Env) : Word → List Instr → Word → Prop
  | a, [], b => a = b
  | a, i :: is, b => ∃ next, E.code a = some (i, next) ∧ Lies E next is b

/-! ### Instructions under disturbances -/

/-- `Q` comes to hold, whatever disturbances `D` there are before each instruction. -/
inductive Eventually (E : Env) (D : Cpu → Cpu → Prop) (Q : Cpu → Prop) : Cpu → Prop
  | done {c : Cpu} : Q c → Eventually E D Q c
  | step {c : Cpu} : (∀ d, ReflTransGen D c d → (step E d).isSome) →
      (∀ d d', ReflTransGen D c d → step E d = some d' → Eventually E D Q d') → Eventually E D Q c

section Rules

variable {E : Env} {D : Cpu → Cpu → Prop} {P Q R : Cpu → Prop} {c d : Cpu}

theorem Eventually.trans (h : Eventually E D Q c) (hQ : ∀ c, Q c → Eventually E D R c) : Eventually E D R c := by
  induction h with
  | done h => exact hQ _ h
  | step hsome _ ih => exact .step hsome ih

theorem Eventually.mono (h : Eventually E D Q c) (hQ : ∀ c, Q c → R c) : Eventually E D R c :=
  h.trans fun c hc => .done (hQ c hc)

/-- An instruction, from an assertion that survives disturbances. -/
theorem Eventually.of_stable (hP : P c) (hstable : ∀ c d, P c → D c d → P d)
    (hstep : ∀ c, P c → ∃ c', StackMachine.step E c = some c' ∧ Eventually E D Q c') : Eventually E D Q c := by
  have hlater : ∀ d, ReflTransGen D c d → P d := fun d hd => by
    induction hd with
    | refl => exact hP
    | tail _ hd ih => exact hstable _ _ ih hd
  refine .step (fun d hd => ?_) fun d d' hd hd' => ?_
  · obtain ⟨d', hd', -⟩ := hstep d (hlater d hd)
    rw [hd', Option.isSome_some]
  · obtain ⟨e, he, hQ⟩ := hstep d (hlater d hd)
    rw [hd', Option.some_inj] at he
    rwa [he]

/-- How far an address lies below the top of the kernel's stack. -/
def Env.depth (E : Env) (a : Word) : ℕ := (E.esp0 - a).toNat

/-- The stack pointer with `n` words on the kernel's stack. -/
def Env.sp (E : Env) (n : ℕ) : Word := E.esp0 - BitVec.ofNat 32 (4 * n)

theorem Env.sp_sub (E : Env) (n : ℕ) : E.sp n - 4 = E.sp (n + 1) := by
  unfold Env.sp
  bv_omega

theorem Env.sp_add (E : Env) (n : ℕ) : E.sp (n + 1) + 4 = E.sp n := by
  rw [← E.sp_sub, BitVec.sub_add_cancel]

theorem Env.depth_sp_add (E : Env) {n j : ℕ} (hn : 4 * n < 2 ^ 32) (hj : j ≤ 4 * n) :
    E.depth (E.sp n + BitVec.ofNat 32 j) = 4 * n - j := by
  unfold Env.depth Env.sp
  bv_omega

/-- What a disturbance keeps. -/
structure Harmless (E : Env) (c d : Cpu) : Prop where
  reg : d.reg = c.reg
  eip : d.eip = c.eip
  eflags : d.eflags = c.eflags
  cs : d.cs = c.cs
  ss : d.ss = c.ss
  kept : ∀ b, E.kept b → d.mem b = c.mem b
  live : c.Kernel → ∀ b, 1 ≤ E.depth b → E.depth b ≤ E.depth (c.reg .esp) → d.mem b = c.mem b

theorem Harmless.refl (E : Env) (c : Cpu) : Harmless E c c :=
  ⟨rfl, rfl, rfl, rfl, rfl, fun _ _ => rfl, fun _ _ _ _ => rfl⟩

theorem Harmless.kernel_iff (h : Harmless E c d) : d.Kernel ↔ c.Kernel := by
  unfold Cpu.Kernel
  rw [h.cs]

theorem Harmless.trans {e : Cpu} (h : Harmless E c d) (h' : Harmless E d e) : Harmless E c e where
  reg := h'.reg.trans h.reg
  eip := h'.eip.trans h.eip
  eflags := h'.eflags.trans h.eflags
  cs := h'.cs.trans h.cs
  ss := h'.ss.trans h.ss
  kept b hb := (h'.kept b hb).trans (h.kept b hb)
  live hk b hb hb' := (h'.live (h.kernel_iff.mpr hk) b hb (by rwa [h.reg])).trans (h.live hk b hb hb')

/-- The disturbances are harmless as long as there is room for them on the kernel's stack. -/
def Tame (E : Env) (D : Cpu → Cpu → Prop) : Prop :=
  ∀ c d, D c d → (c.Kernel → E.depth (c.reg .esp) ≤ E.size) → Harmless E c d

/-- In the kernel: the registers `ρ`, the instruction at `a`, the flags `f`, the words `ws` on a stack that holds
nothing else, and the memory `m` of the process. -/
structure Inside (E : Env) (ρ : Reg → Word) (a f : Word) (ws : List Word) (m : Memory) (c : Cpu) : Prop where
  reg : c.reg = update ρ .esp (E.sp ws.length)
  eip : c.eip = a
  eflags : c.eflags = f
  kernel : c.Kernel
  room : 4 * ws.length ≤ E.size
  stack : Stacked c.mem (E.sp ws.length) ws
  kept : ∀ b, E.kept b → c.mem b = m b

/-- In the program. -/
structure Outside (E : Env) (ρ : Reg → Word) (a f cs₀ ss₀ : Word) (m : Memory) (c : Cpu) : Prop where
  reg : c.reg = ρ
  eip : c.eip = a
  eflags : c.eflags = f
  cs : c.cs = cs₀
  ss : c.ss = ss₀
  user : ¬c.Kernel
  kept : ∀ b, E.kept b → c.mem b = m b

/-- Any number of disturbances. -/
theorem Tame.harmless (hD : Tame E D) (hroom : c.Kernel → E.depth (c.reg .esp) ≤ E.size) (h : ReflTransGen D c d) :
    Harmless E c d := by
  induction h with
  | refl => exact Harmless.refl E c
  | tail _ hd ih => exact ih.trans (hD _ _ hd fun hk => by rw [ih.reg]; exact hroom (ih.kernel_iff.mp hk))

variable {ρ : Reg → Word} {a b f w cs₀ ss₀ t : Word} {ws : List Word} {m : Memory} {r : Reg}

theorem Inside.lt (h : Inside E ρ a f ws m c) : 4 * ws.length < 2 ^ 32 := by
  have := h.room
  have := E.bounded
  omega

theorem Inside.esp (h : Inside E ρ a f ws m c) : c.reg .esp = E.sp ws.length := by
  rw [h.reg, Function.update_self]

theorem Inside.depth_esp (h : Inside E ρ a f ws m c) : E.depth (c.reg .esp) = 4 * ws.length := by
  have hdepth := E.depth_sp_add h.lt (Nat.zero_le _)
  rwa [BitVec.add_zero, Nat.sub_zero, ← h.esp] at hdepth

theorem Inside.of_harmless (h : Inside E ρ a f ws m c) (hd : Harmless E c d) : Inside E ρ a f ws m d where
  reg := hd.reg.trans h.reg
  eip := hd.eip.trans h.eip
  eflags := hd.eflags.trans h.eflags
  kernel := hd.kernel_iff.mpr h.kernel
  room := h.room
  stack := by
    refine h.stack.congr fun j hj => ?_
    have hdepth := E.depth_sp_add h.lt (Nat.le_of_lt hj)
    refine hd.live h.kernel _ ?_ ?_ <;> rw [hdepth]
    · omega
    · rw [h.depth_esp]
      omega
  kept b hb := (hd.kept b hb).trans (h.kept b hb)

theorem Outside.of_harmless (h : Outside E ρ a f cs₀ ss₀ m c) (hd : Harmless E c d) :
    Outside E ρ a f cs₀ ss₀ m d where
  reg := hd.reg.trans h.reg
  eip := hd.eip.trans h.eip
  eflags := hd.eflags.trans h.eflags
  cs := hd.cs.trans h.cs
  ss := hd.ss.trans h.ss
  user hk := h.user (hd.kernel_iff.mp hk)
  kept b hb := (hd.kept b hb).trans (h.kept b hb)

/-- An instruction in the kernel. -/
theorem Inside.next (hD : Tame E D) (h : Inside E ρ a f ws m c) {i : Instr} (hcode : E.code a = some (i, b))
    (hexec : ∀ c, Inside E ρ a f ws m c → ∃ c', exec E i b c = some c' ∧ Eventually E D Q c') :
    Eventually E D Q c := by
  refine .of_stable h (fun c d hc hd => hc.of_harmless (hD c d hd fun _ => ?_)) fun c hc => ?_
  · rw [hc.depth_esp]
    exact hc.room
  · rw [step, hc.eip, hcode]
    exact hexec c hc

/-- An instruction in the program. -/
theorem Outside.next (hD : Tame E D) (h : Outside E ρ a f cs₀ ss₀ m c) {i : Instr} (hcode : E.code a = some (i, b))
    (hexec : ∀ c, Outside E ρ a f cs₀ ss₀ m c → ∃ c', exec E i b c = some c' ∧ Eventually E D Q c') :
    Eventually E D Q c := by
  refine .of_stable h (fun c d hc hd => hc.of_harmless (hD c d hd fun hk => absurd hk hc.user)) fun c hc => ?_
  rw [step, hc.eip, hcode]
  exact hexec c hc

/-! ### The rules -/

/-- Nothing that is kept lies on the kernel's stack. -/
theorem Env.store_sp (E : Env) {n : ℕ} (hn : 4 * (n + 1) ≤ E.size + E.reserve) (m : Memory) (v : Word) {b : Word}
    (hb : E.kept b) : store m (E.sp (n + 1)) v b = m b := by
  refine store_of_le m v ?_
  have hoff := E.kept_off b hb
  have hbound := E.bounded
  unfold Env.sp
  bv_omega

theorem Inside.push (h : Inside E ρ a f ws m c) (v : Word) (hroom : 4 * (ws.length + 1) ≤ E.size) :
    Inside E ρ b f (v :: ws) m ((c.push v).goto b) where
  reg := by
    show update c.reg .esp (c.reg .esp - 4) = _
    rw [h.esp, E.sp_sub, h.reg, Function.update_idem]
    rfl
  eip := rfl
  eflags := h.eflags
  kernel := h.kernel
  room := hroom
  stack := by
    have hbound := E.bounded
    have hpush := h.stack.push v (by omega)
    rw [E.sp_sub] at hpush
    show Stacked (store c.mem (c.reg .esp - 4) v) _ _
    rwa [h.esp, E.sp_sub]
  kept b hb := by
    show store c.mem (c.reg .esp - 4) v b = m b
    rw [h.esp, E.sp_sub, E.store_sp (by omega) _ _ hb]
    exact h.kept b hb

theorem Inside.pushl (hD : Tame E D) (h : Inside E ρ a f ws m c) (hcode : E.code a = some (.pushl r, b))
    (hroom : 4 * (ws.length + 1) ≤ E.size)
    (hnext : ∀ c, Inside E ρ b f (update ρ .esp (E.sp ws.length) r :: ws) m c → Eventually E D Q c) :
    Eventually E D Q c := by
  refine h.next hD hcode fun c h => ⟨_, rfl, hnext _ ?_⟩
  rw [h.reg]
  exact h.push _ hroom

theorem Inside.pop (h : Inside E ρ a f (w :: ws) m c) :
    c.top = w ∧ Inside E ρ b f ws m (c.drop.goto b) := by
  refine ⟨?_, ?_, rfl, h.eflags, h.kernel, ?_, ?_, h.kept⟩
  · rw [Cpu.top, h.esp]
    exact h.stack.1
  · show update c.reg .esp (c.reg .esp + 4) = _
    rw [h.esp, List.length_cons, E.sp_add, h.reg, Function.update_idem]
  · have := h.room
    rw [List.length_cons] at this
    omega
  · have := h.stack.2
    rwa [List.length_cons, E.sp_add] at this

theorem Inside.set (h : Inside E ρ a f ws m c) (v : Word) (hr : r ≠ .esp) :
    Inside E (update ρ r v) b f ws m ((c.set r v).goto b) where
  reg := by
    show update c.reg r v = _
    rw [h.reg, Function.update_comm hr]
  eip := rfl
  eflags := h.eflags
  kernel := h.kernel
  room := h.room
  stack := h.stack
  kept := h.kept

theorem Inside.popl (hD : Tame E D) (h : Inside E ρ a f (w :: ws) m c) (hcode : E.code a = some (.popl r, b))
    (hr : r ≠ .esp) (hnext : ∀ c, Inside E (update ρ r w) b f ws m c → Eventually E D Q c) :
    Eventually E D Q c := by
  refine h.next hD hcode fun c h => ⟨_, rfl, hnext _ ?_⟩
  obtain ⟨htop, hdrop⟩ := h.pop (b := b)
  rw [Cpu.popTo, htop]
  exact hdrop.set w hr

/-- `popl %esp`, of the stack pointer that the words below it have. -/
theorem Inside.popl_esp (hD : Tame E D) (h : Inside E ρ a f (w :: ws) m c) (hw : w = E.sp ws.length)
    (hcode : E.code a = some (.popl .esp, b)) (hnext : ∀ c, Inside E ρ b f ws m c → Eventually E D Q c) :
    Eventually E D Q c := by
  refine h.next hD hcode fun c h => ⟨_, rfl, hnext _ ?_⟩
  obtain ⟨htop, hdrop⟩ := h.pop (b := b)
  have hesp : c.top = c.drop.reg .esp := htop.trans (hw.trans hdrop.esp.symm)
  rwa [Cpu.popTo, hesp, Cpu.set_self]

theorem Inside.movl (hD : Tame E D) (h : Inside E ρ a f ws m c) (hcode : E.code a = some (.movl w r, b))
    (hr : r ≠ .esp) (hnext : ∀ c, Inside E (update ρ r w) b f ws m c → Eventually E D Q c) :
    Eventually E D Q c :=
  h.next hD hcode fun _ h => ⟨_, rfl, hnext _ (h.set w hr)⟩

theorem Inside.decl (hD : Tame E D) (h : Inside E ρ a f ws m c) (hcode : E.code a = some (.decl r, b))
    (hr : r ≠ .esp)
    (hnext : ∀ c, Inside E (update ρ r (ρ r - 1)) b (compared f (ρ r) 1) ws m c → Eventually E D Q c) :
    Eventually E D Q c := by
  refine h.next hD hcode fun c h => ⟨_, rfl, hnext _ ?_⟩
  have hreg : c.reg r = ρ r := by rw [h.reg, Function.update_of_ne hr]
  have hset := h.set (b := b) (ρ r - 1) hr
  rw [hreg, h.eflags]
  exact { hset with eflags := rfl }

theorem Inside.cmpl (hD : Tame E D) (h : Inside E ρ a f ws m c) (hcode : E.code a = some (.cmpl w r, b))
    (hr : r ≠ .esp) (hnext : ∀ c, Inside E ρ b (compared f (ρ r) w) ws m c → Eventually E D Q c) :
    Eventually E D Q c := by
  refine h.next hD hcode fun c h => ⟨_, rfl, hnext _ ?_⟩
  have hreg : c.reg r = ρ r := by rw [h.reg, Function.update_of_ne hr]
  rw [hreg, h.eflags]
  exact { h with eip := rfl, eflags := rfl }

theorem Inside.goto (h : Inside E ρ a f ws m c) (t : Word) : Inside E ρ t f ws m (c.goto t) :=
  { h with eip := rfl }

theorem Inside.jmp (hD : Tame E D) (h : Inside E ρ a f ws m c) (hcode : E.code a = some (.jmp t, b))
    (hnext : ∀ c, Inside E ρ t f ws m c → Eventually E D Q c) : Eventually E D Q c :=
  h.next hD hcode fun _ h => ⟨_, rfl, hnext _ (h.goto t)⟩

theorem Inside.jl {x v : Word} (hD : Tame E D) (h : Inside E ρ a (compared f x v) ws m c)
    (hcode : E.code a = some (.jl t, b))
    (hnext : ∀ c, Inside E ρ (if x.toInt < v.toInt then t else b) (compared f x v) ws m c → Eventually E D Q c) :
    Eventually E D Q c := by
  refine h.next hD hcode fun c h => ⟨_, rfl, hnext _ ?_⟩
  have htaken : c.sf ≠ c.of ↔ x.toInt < v.toInt := by
    rw [Cpu.sf, Cpu.of, h.eflags, compared, withStatus_sign, withStatus_overflow]
    exact msb_ne_ssubOverflow_iff x v
  rw [if_congr htaken rfl rfl]
  exact h.goto _

theorem Inside.jg {x v : Word} (hD : Tame E D) (h : Inside E ρ a (compared f x v) ws m c)
    (hcode : E.code a = some (.jg t, b))
    (hnext : ∀ c, Inside E ρ (if v.toInt < x.toInt then t else b) (compared f x v) ws m c → Eventually E D Q c) :
    Eventually E D Q c := by
  refine h.next hD hcode fun c h => ⟨_, rfl, hnext _ ?_⟩
  have hzero : (x - v == 0#32) = true ↔ x.toInt = v.toInt := by
    rw [beq_iff_eq, BitVec.sub_eq_iff_eq_add, BitVec.zero_add, BitVec.toInt_inj]
  have htaken : (¬c.zf ∧ c.sf = c.of) ↔ v.toInt < x.toInt := by
    rw [Cpu.zf, Cpu.sf, Cpu.of, h.eflags, compared, withStatus_zero, withStatus_sign, withStatus_overflow, hzero,
      ← not_ne_iff (a := (x - v).msb), msb_ne_ssubOverflow_iff]
    omega
  rw [if_congr htaken rfl rfl]
  exact h.goto _

/-- `call *(base, index, 4)`, through a table that is kept. -/
theorem Inside.callTable {base index : Reg} (hD : Tame E D) (h : Inside E ρ a f ws m c)
    (hcode : E.code a = some (.callTable base index, b)) (hbase : base ≠ .esp) (hindex : index ≠ .esp)
    (hroom : 4 * (ws.length + 1) ≤ E.size)
    (hkept : ∀ i < 4, E.kept (ρ base + 4 * ρ index + BitVec.ofNat 32 i))
    (hnext : ∀ c, Inside E ρ (load m (ρ base + 4 * ρ index)) f (b :: ws) m c → Eventually E D Q c) :
    Eventually E D Q c := by
  refine h.next hD hcode fun c h => ⟨_, rfl, hnext _ ?_⟩
  rw [h.reg, Function.update_of_ne hbase, Function.update_of_ne hindex,
    load_congr fun i hi => h.kept _ (hkept i hi)]
  exact h.push b hroom

/-- `iret` to a program. -/
theorem Inside.iret {eip esp : Word} (hD : Tame E D) (h : Inside E ρ a f [eip, cs₀, w, esp, ss₀] m c)
    (hcode : E.code a = some (.iret, b)) (huser : cs₀ &&& 3 ≠ 0)
    (hnext : ∀ c, Outside E (update ρ .esp esp) eip w cs₀ ss₀ m c → Eventually E D Q c) :
    Eventually E D Q c := by
  refine h.next hD hcode fun c h => ⟨_, rfl, hnext _ ?_⟩
  obtain ⟨htop, h₁⟩ := h.pop (b := c.eip)
  obtain ⟨htop₁, h₂⟩ := h₁.pop (b := c.eip)
  obtain ⟨htop₂, h₃⟩ := h₂.pop (b := c.eip)
  obtain ⟨htop₃, h₄⟩ := h₃.pop (b := c.eip)
  obtain ⟨htop₄, -⟩ := h₄.pop (b := c.eip)
  have huser' : c.drop.top &&& 3 ≠ 0 := fun h0 => huser (by rwa [← htop₁])
  rw [c.iret_user huser']
  exact
    { reg := by
        rw [h.reg, Function.update_idem]
        exact congrArg (update ρ .esp) htop₃
      eip := htop
      eflags := htop₂
      cs := htop₁
      ss := htop₄
      user := huser'
      kept := h.kept }

theorem Inside.pushes (rs : List Reg) {is : List Instr} {z : Word} (hD : Tame E D) (h : Inside E ρ a f ws m c)
    (hcode : Lies E a (rs.map .pushl ++ is) z) (hrs : .esp ∉ rs) (hroom : 4 * (ws.length + rs.length) ≤ E.size)
    (hnext : ∀ b c, Lies E b is z → Inside E ρ b f ((rs.map ρ).reverse ++ ws) m c → Eventually E D Q c) :
    Eventually E D Q c := by
  induction rs generalizing a ws c with
  | nil => exact hnext a c hcode h
  | cons r rs ih =>
    obtain ⟨b, hr, hcode⟩ := hcode
    rw [List.mem_cons, not_or] at hrs
    rw [List.length_cons] at hroom
    refine h.pushl hD hr (by omega) fun c h => ih h hcode hrs.2 ?_ fun b c hb hc => hnext b c hb ?_
    · rw [List.length_cons]
      omega
    · rw [Function.update_of_ne (Ne.symm hrs.1)] at hc
      rwa [List.map_cons, List.reverse_cons, List.append_assoc]

/-- Registers that are popped one after the other, with their values. -/
theorem Inside.pops (ps : List (Reg × Word)) {is : List Instr} {z : Word} (hD : Tame E D)
    (h : Inside E ρ a f (ps.map Prod.snd ++ ws) m c) (hcode : Lies E a (ps.map (fun p => .popl p.1) ++ is) z)
    (hps : ∀ p ∈ ps, p.1 ≠ .esp)
    (hnext : ∀ b c, Lies E b is z → Inside E (ps.foldl (fun ρ p => update ρ p.1 p.2) ρ) b f ws m c →
      Eventually E D Q c) : Eventually E D Q c := by
  induction ps generalizing a ρ c with
  | nil => exact hnext a c hcode h
  | cons p ps ih =>
    obtain ⟨b, hp, hcode⟩ := hcode
    exact Inside.popl hD h hp (hps p List.mem_cons_self) fun c h =>
      ih h hcode (fun q hq => hps q (List.mem_cons_of_mem _ hq)) hnext

/-! ### In the program -/

theorem Outside.movl (hD : Tame E D) (h : Outside E ρ a f cs₀ ss₀ m c) (hcode : E.code a = some (.movl w r, b))
    (hnext : ∀ c, Outside E (update ρ r w) b f cs₀ ss₀ m c → Eventually E D Q c) : Eventually E D Q c :=
  h.next hD hcode fun _ h =>
    ⟨_, rfl, hnext _ { h with reg := congrArg (fun σ : Reg → Word => update σ r w) h.reg, eip := rfl }⟩

theorem Outside.pushl (hD : Tame E D) (h : Outside E ρ a f cs₀ ss₀ m c) (hcode : E.code a = some (.pushl r, b))
    (hnext : ∀ c, Outside E (update ρ .esp (ρ .esp - 4)) b f cs₀ ss₀ (store m (ρ .esp - 4) (ρ r)) c →
      Eventually E D Q c) : Eventually E D Q c := by
  refine h.next hD hcode fun c h => ⟨_, rfl, hnext _ ?_⟩
  refine { h with reg := ?_, eip := rfl, kept := fun b hb => ?_ }
  · show update c.reg .esp (c.reg .esp - 4) = _
    rw [h.reg]
  · show store c.mem (c.reg .esp - 4) (c.reg r) b = _
    rw [h.reg, store, store, h.kept b hb]

/-- A word of the program's memory. -/
theorem Outside.load_eq (h : Outside E ρ a f cs₀ ss₀ m c) {x : Word}
    (hkept : ∀ i < 4, E.kept (x + BitVec.ofNat 32 i)) : load c.mem x = load m x :=
  load_congr fun i hi => h.kept _ (hkept i hi)

/-- `movl x(%esp), r`, of the word at `y`. -/
theorem Outside.movlStack {x y v : Word} (hD : Tame E D) (h : Outside E ρ a f cs₀ ss₀ m c)
    (hcode : E.code a = some (.movlStack x r, b)) (hy : ρ .esp + x = y) (hv : load m y = v)
    (hkept : ∀ i < 4, E.kept (y + BitVec.ofNat 32 i))
    (hnext : ∀ c, Outside E (update ρ r v) b f cs₀ ss₀ m c → Eventually E D Q c) : Eventually E D Q c := by
  refine h.next hD hcode fun c h => ⟨_, rfl, hnext _ ?_⟩
  rw [h.reg, hy, h.load_eq hkept, hv]
  exact { h with reg := congrArg (fun σ : Reg → Word => update σ r v) h.reg, eip := rfl }

theorem Outside.popl {y v : Word} (hD : Tame E D) (h : Outside E ρ a f cs₀ ss₀ m c)
    (hcode : E.code a = some (.popl r, b)) (hy : ρ .esp = y) (hv : load m y = v)
    (hkept : ∀ i < 4, E.kept (y + BitVec.ofNat 32 i))
    (hnext : ∀ c, Outside E (update (update ρ .esp (y + 4)) r v) b f cs₀ ss₀ m c → Eventually E D Q c) :
    Eventually E D Q c := by
  refine h.next hD hcode fun c h => ⟨_, rfl, hnext _ ?_⟩
  rw [Cpu.popTo, Cpu.top, h.reg, hy, h.load_eq hkept, hv]
  refine { h with reg := ?_, eip := rfl }
  show update (update c.reg .esp (c.reg .esp + 4)) r v = _
  rw [h.reg, hy]

theorem Outside.ret {y v : Word} (hD : Tame E D) (h : Outside E ρ a f cs₀ ss₀ m c)
    (hcode : E.code a = some (.ret, b)) (hy : ρ .esp = y) (hv : load m y = v)
    (hkept : ∀ i < 4, E.kept (y + BitVec.ofNat 32 i))
    (hnext : ∀ c, Outside E (update ρ .esp (y + 4)) v f cs₀ ss₀ m c → Eventually E D Q c) : Eventually E D Q c := by
  refine h.next hD hcode fun c h => ⟨_, rfl, hnext _ ?_⟩
  rw [Cpu.top, h.reg, hy, h.load_eq hkept, hv]
  refine { h with reg := ?_, eip := rfl }
  show update c.reg .esp (c.reg .esp + 4) = _
  rw [h.reg, hy]

/-- `int` through a trap gate that a program may use. -/
theorem Outside.int {v : ℕ} {g : Gate} (hD : Tame E D) (h : Outside E ρ a f cs₀ ss₀ m c)
    (hcode : E.code a = some (.int v, b)) (hgate : E.gate v = some g) (hdpl : g.dpl = 3) (htrap : g.trap = true)
    (hsel : g.selector &&& 3 = 0) (hroom : 20 ≤ E.size)
    (hnext : ∀ c, Inside E ρ g.offset f [b, cs₀, f, ρ .esp, ss₀] m c → Eventually E D Q c) :
    Eventually E D Q c := by
  refine h.next hD hcode fun c h => ?_
  have hexec : exec E (.int v) b c = some (c.deliver E g b) := by
    rw [exec, hgate, Option.bind_some, if_pos (Or.inr hdpl)]
  refine ⟨_, hexec, hnext _ ?_⟩
  -- The stack is empty when the kernel is entered, and five words are pushed.
  have hempty : Inside E ρ g.offset f [] m
      ⟨update ρ .esp E.esp0, g.offset, f, g.selector, E.ss0, c.mem⟩ :=
    { reg := by
        rw [List.length_nil, Env.sp, Nat.mul_zero, BitVec.sub_zero]
      eip := rfl
      eflags := rfl
      kernel := hsel
      room := Nat.zero_le _
      stack := trivial
      kept := h.kept }
  have hframe := ((((hempty.push (b := g.offset) ss₀ (show 4 * 1 ≤ E.size by omega)).push
    (b := g.offset) (ρ .esp) (show 4 * 2 ≤ E.size by omega)).push
    (b := g.offset) f (show 4 * 3 ≤ E.size by omega)).push
    (b := g.offset) cs₀ (show 4 * 4 ≤ E.size by omega)).push (b := g.offset) b (show 4 * 5 ≤ E.size by omega)
  rw [Cpu.deliver, htrap, Cpu.enter_user c E h.user, h.eflags, h.cs, h.ss, h.reg]
  exact hframe

end Rules

/-! ### Frames -/

/-- `d` is `c` with the words `ws` pushed, the last one first. -/
structure Pushed (c : Cpu) (ws : List Word) (d : Cpu) : Prop where
  reg : d.reg = update c.reg .esp (c.reg .esp - BitVec.ofNat 32 (4 * ws.length))
  stack : Stacked d.mem (c.reg .esp - BitVec.ofNat 32 (4 * ws.length)) ws
  other : ∀ b, 4 * ws.length ≤ (b - (c.reg .esp - BitVec.ofNat 32 (4 * ws.length))).toNat → d.mem b = c.mem b

section Frames

variable {c d : Cpu} {ws : List Word}

theorem Pushed.refl (c : Cpu) : Pushed c [] c where
  reg := by rw [List.length_nil, Nat.mul_zero, BitVec.sub_zero, Function.update_eq_self]
  stack := trivial
  other _ _ := rfl

theorem Pushed.push (h : Pushed c ws d) (v : Word) (hlen : 4 * (ws.length + 1) < 2 ^ 32) :
    Pushed c (v :: ws) (d.push v) := by
  have hesp : d.reg .esp - 4 = c.reg .esp - BitVec.ofNat 32 (4 * (ws.length + 1)) := by
    rw [h.reg, Function.update_self]
    bv_omega
  refine ⟨?_, ?_, fun b hb => ?_⟩
  · show update d.reg .esp (d.reg .esp - 4) = _
    rw [hesp, h.reg, Function.update_idem, List.length_cons]
  · have hstack := h.stack.push v (by omega)
    have hsp : c.reg .esp - BitVec.ofNat 32 (4 * ws.length) - 4 =
        c.reg .esp - BitVec.ofNat 32 (4 * (ws.length + 1)) := by bv_omega
    rw [hsp] at hstack
    show Stacked (store d.mem (d.reg .esp - 4) v) _ _
    rwa [hesp]
  · rw [List.length_cons] at hb
    show store d.mem (d.reg .esp - 4) v b = c.mem b
    rw [hesp, store_of_le _ _ (by omega)]
    refine h.other b ?_
    bv_omega

/-- The function that was called in state `k`, with `n` words of arguments, has come back in state `k'`.  The
arguments are its own, and so is the stack below them. -/
structure Returned (E : Env) (n : ℕ) (k k' : Cpu) : Prop where
  eip : k'.eip = k.top
  esp : k'.reg .esp = k.reg .esp + 4
  cs : k'.cs = k.cs
  ss : k'.ss = k.ss
  live : ∀ b, 1 ≤ E.depth b → E.depth b + 4 * (n + 1) ≤ E.depth (k.reg .esp) → k'.mem b = k.mem b

section

variable {E : Env} (h : Pushed c ws d) (hroom : E.depth (c.reg .esp) + 4 * ws.length ≤ E.size + E.reserve)
include h hroom

theorem Pushed.depth_esp : E.depth (d.reg .esp) = E.depth (c.reg .esp) + 4 * ws.length := by
  have hbound := E.bounded
  rw [h.reg, Function.update_self]
  unfold Env.depth at *
  bv_omega

theorem Pushed.kept {b : Word} (hb : E.kept b) : d.mem b = c.mem b := by
  have hbound := E.bounded
  have hoff := E.kept_off b hb
  refine h.other b ?_
  unfold Env.depth at *
  bv_omega

theorem Pushed.above {b : Word} (hb : 1 ≤ E.depth b) (hb' : E.depth b ≤ E.depth (c.reg .esp)) :
    d.mem b = c.mem b := by
  have hbound := E.bounded
  refine h.other b ?_
  unfold Env.depth at *
  bv_omega

end

/-- The words that are still on the stack when a function without arguments has come back. -/
theorem Pushed.returned {E : Env} {w : Word} {k' : Cpu} (h : Pushed c (w :: ws) d)
    (hroom : E.depth (c.reg .esp) + 4 * (w :: ws).length ≤ E.size + E.reserve) (hk : Returned E 0 d k') :
    Stacked k'.mem (k'.reg .esp) ws := by
  have hbound := E.bounded
  have hdepth := h.depth_esp hroom
  have hstack := h.stack.2
  rw [show c.reg .esp - BitVec.ofNat 32 (4 * (w :: ws).length) = d.reg .esp by
    rw [h.reg, Function.update_self]] at hstack
  rw [List.length_cons] at hdepth hroom
  rw [hk.esp]
  refine hstack.congr fun j hj => hk.live _ ?_ ?_
  all_goals
    unfold Env.depth at *
    bv_omega

/-- The words that `pusha` leaves. -/
def savedRegs (ρ : Reg → Word) (esp : Word) : List Word :=
  [ρ .edi, ρ .esi, ρ .ebp, esp, ρ .ebx, ρ .edx, ρ .ecx, ρ .eax]

/-- `popa`, of the registers `ρ`. -/
theorem Cpu.popa_eq (c : Cpu) (ρ : Reg → Word) {x : Word}
    (h : Stacked c.mem (c.reg .esp) (savedRegs ρ x ++ ws)) :
    c.popa = { c with reg := update ρ .esp (c.reg .esp + 32) } ∧ Stacked c.mem (c.reg .esp + 32) ws := by
  obtain ⟨hedi, hesi, hebp, -, hebx, hedx, hecx, heax, hrest⟩ := h
  have hesp : c.reg .esp + 4 + 4 + 4 + 4 + 4 + 4 + 4 + 4 = c.reg .esp + 32 := by bv_omega
  rw [hesp] at hrest
  have hreg : c.popa.reg = update ρ .esp (c.reg .esp + 32) := by
    funext r
    cases r <;> simp only [popa, popTo, drop, set, top, Function.update_apply, reduceCtorEq, if_false, if_true, *]
  rw [← hreg]
  exact ⟨rfl, hrest⟩

/-- Pushing looks at the stack pointer and the memory only. -/
theorem Pushed.congr {d' : Cpu} (h : Pushed c ws d) (hreg : d'.reg = d.reg) (hmem : d'.mem = d.mem) :
    Pushed c ws d' where
  reg := hreg.trans h.reg
  stack := by rw [hmem]; exact h.stack
  other b hb := by rw [hmem]; exact h.other b hb

/-- The stack on which a gate puts its frame. -/
def Cpu.onStack (E : Env) (c : Cpu) : Cpu :=
  if c.Kernel then c else { c with reg := update c.reg .esp E.esp0, ss := E.ss0 }

/-- The frame of a gate, the last word first. -/
def Cpu.frame (c : Cpu) (next : Word) : List Word :=
  [next, c.cs, c.eflags] ++ if c.Kernel then [] else [c.reg .esp, c.ss]

theorem Cpu.pushed_deliver (E : Env) (g : Gate) (c : Cpu) (next : Word) :
    Pushed (c.onStack E) (c.frame next) (c.deliver E g next) := by
  refine Pushed.congr (d := ((c.enter E).push c.eflags).push c.cs |>.push next) ?_ rfl rfl
  by_cases h : c.Kernel
  · rw [c.enter_kernel E h, onStack, if_pos h, frame, if_pos h]
    exact (((Pushed.refl c).push c.eflags (show 4 * 1 < 2 ^ 32 by decide)).push c.cs
      (show 4 * 2 < 2 ^ 32 by decide)).push next (show 4 * 3 < 2 ^ 32 by decide)
  · rw [c.enter_user E h, onStack, if_neg h, frame, if_neg h]
    exact (((((Pushed.refl _).push c.ss (show 4 * 1 < 2 ^ 32 by decide)).push (c.reg .esp)
      (show 4 * 2 < 2 ^ 32 by decide)).push c.eflags (show 4 * 3 < 2 ^ 32 by decide)).push c.cs
      (show 4 * 4 < 2 ^ 32 by decide)).push next (show 4 * 5 < 2 ^ 32 by decide)

theorem Cpu.onStack_reg (E : Env) (c : Cpu) {r : Reg} (hr : r ≠ .esp) : (c.onStack E).reg r = c.reg r := by
  unfold onStack
  split
  · rfl
  · exact Function.update_of_ne hr _ _

theorem Pushed.pusha {ρ : Reg → Word} (h : Pushed c ws d) (hlen : 4 * (ws.length + 8) < 2 ^ 32)
    (hρ : ∀ r ≠ .esp, c.reg r = ρ r) : Pushed c (savedRegs ρ (d.reg .esp) ++ ws) d.pusha := by
  have hreg : ∀ r ≠ .esp, d.reg r = ρ r := fun r hr => by rw [h.reg, Function.update_of_ne hr, hρ r hr]
  rw [savedRegs, ← hreg .edi (by decide), ← hreg .esi (by decide), ← hreg .ebp (by decide), ← hreg .ebx (by decide),
    ← hreg .edx (by decide), ← hreg .ecx (by decide), ← hreg .eax (by decide)]
  have h₁ := h.push (d.reg .eax) (by omega)
  have h₂ := h₁.push (d.reg .ecx) (by rw [List.length_cons]; omega)
  have h₃ := h₂.push (d.reg .edx) (by simp only [List.length_cons]; omega)
  have h₄ := h₃.push (d.reg .ebx) (by simp only [List.length_cons]; omega)
  have h₅ := h₄.push (d.reg .esp) (by simp only [List.length_cons]; omega)
  have h₆ := h₅.push (d.reg .ebp) (by simp only [List.length_cons]; omega)
  have h₇ := h₆.push (d.reg .esi) (by simp only [List.length_cons]; omega)
  exact h₇.push (d.reg .edi) (by simp only [List.length_cons]; omega)

/-- A function called from the kernel's stack has come back: its arguments hold anything. -/
theorem Inside.returned {E : Env} {ρ : Reg → Word} {a f ret : Word} {args : List Word} {m : Memory} {k k' : Cpu}
    (h : Inside E ρ a f (ret :: (args ++ ws)) m k) (hk : Returned E args.length k k') :
    ∃ args', args'.length = args.length ∧ Inside E k'.reg ret k'.eflags (args' ++ ws) k'.mem k' := by
  have hlt := h.lt
  have hroom := h.room
  have hdepth := h.depth_esp
  have hstack := (stacked_append.mp h.stack.2).2
  have hesp := h.esp
  rw [List.length_cons, List.length_append] at hlt hroom hdepth hstack hesp
  obtain ⟨args', hlen, hargs'⟩ := exists_stacked k'.mem args.length (E.sp (args.length + ws.length))
  have hsp : k'.reg .esp = E.sp (args' ++ ws).length := by
    rw [hk.esp, hesp, E.sp_add, List.length_append, hlen]
  refine ⟨args', hlen, ?_, ?_, rfl, ?_, ?_, ?_, fun b _ => rfl⟩
  · rw [← hsp, Function.update_eq_self]
  · rw [hk.eip, Cpu.top, h.esp]
    exact h.stack.1
  · unfold Cpu.Kernel
    rw [hk.cs]
    exact h.kernel
  · rw [List.length_append, hlen]
    omega
  · rw [List.length_append, hlen, stacked_append, hlen]
    rw [E.sp_add] at hstack
    refine ⟨hargs', hstack.congr fun j hj => hk.live _ ?_ ?_⟩
    all_goals
      rw [BitVec.add_assoc, ← BitVec.ofNat_add, E.depth_sp_add (by omega) (by omega)]
      omega

/-- `iret` from the frame that `c` has left. -/
theorem Cpu.iret_frame {c d : Cpu} {next : Word} (h : Stacked d.mem (d.reg .esp) (c.frame next))
    (hreg : d.reg = update c.reg .esp (d.reg .esp)) (hesp : c.Kernel → d.reg .esp + 12 = c.reg .esp)
    (hss : c.Kernel → d.ss = c.ss) : d.iret = { c with eip := next, mem := d.mem } := by
  obtain ⟨heip, hcs, hflags, hrest⟩ := h
  have htop : d.drop.top = c.cs := hcs
  by_cases hk : c.Kernel
  · have hreg' : d.drop.drop.drop.reg = c.reg := by
      have h12 : d.reg .esp + 4 + 4 + 4 = d.reg .esp + 12 := by bv_omega
      show update (update (update d.reg .esp _) .esp _) .esp (d.reg .esp + 4 + 4 + 4) = c.reg
      rw [Function.update_idem, Function.update_idem, h12, hesp hk, hreg, Function.update_idem,
        Function.update_eq_self]
    rw [d.iret_kernel (by rw [htop]; exact hk)]
    exact Cpu.ext hreg' heip hflags hcs (hss hk) rfl
  · rw [if_neg hk] at hrest
    have hreg' : update d.reg .esp d.drop.drop.drop.top = c.reg := by
      have hsaved : d.drop.drop.drop.top = c.reg .esp := hrest.1
      rw [hsaved, hreg, Function.update_idem, Function.update_eq_self]
    rw [d.iret_user (by rw [htop]; exact hk)]
    exact Cpu.ext hreg' heip hflags hcs hrest.2.1 rfl

end Frames

end StackMachine
