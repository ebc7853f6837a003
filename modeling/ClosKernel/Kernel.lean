import ClosKernel.Screen
import ClosKernel.FileSystem
import ClosKernel.Paging

/-!
# The kernel's state (`pcb.h`, `syscalls.c`, `schedule.c`, `terminal.c`, `rtc.c`, `i8259.c`)

`Kernel` collects the process control blocks, the static variables of the source files and the pieces of
hardware state that the modelled functions touch.  A process control block lives at the bottom of its
process's kernel stack, so PCBs are found by address: `pcbAddr pid` is the macro `PCB_ADDR`, and the global
pointer `pcb` is such an address.

`Platform` is what stays fixed while the kernel runs: the link-time layout and the file system image that the
boot loader put in memory.
-/

namespace ClosKernel

open PartialRun

/-- A kernel context: the stack and frame pointers. -/
structure Context where
  esp : ℕ
  ebp : ℕ
  deriving DecidableEq, Inhabited

/-- The four tables of driver functions. -/
inductive Driver where
  | rtc
  | dir
  | file
  | term
  deriving DecidableEq

/-- `file_struct_t`.  `fopsTable` is `none` for a pointer to none of the four tables. -/
structure FileStruct where
  fopsTable : Option Driver
  inode : ℕ
  filePosition : ℕ
  flags : ℕ
  deriving DecidableEq, Inhabited

def flagOpen : ℕ := 0x10
def flagClose : ℕ := 0
def typeDir : ℕ := 1
def typeFile : ℕ := 2
def typeRtc : ℕ := 0
def typeTerm : ℕ := 4
def maxOpenFiles : ℕ := 8

/-- `pcb_t`.  `arguments` points into the stack frame of the `sys_execute` call that started the process; the model
keeps the bytes it points to at first, also for a root shell, whose frame is given up when the shell is entered.
`esp_screen`, `ebp_screen` and `rtc_freq` are not used by any function. -/
structure Pcb where
  fileArray : ℕ → FileStruct
  curTerminal : ℤ
  childPid : ℤ
  pid : ℕ
  espSchedule : ℕ
  ebpSchedule : ℕ
  parentPid : ℤ
  parentEsp : ℕ
  parentEbp : ℕ
  arguments : Mem
  deriving Inhabited

/-- The line buffers of `terminal.c`.  `tbuf[3][128]` is one block of memory, kept by offset. -/
structure Tty where
  tbuf : ℤ → UInt8
  idx : ℤ → ℤ
  set : ℤ
  deriving Inhabited

/-- The variables of `rtc.c` and register A of the chip. -/
structure Rtc where
  interruptHappened : Bool
  interruptCount : ℕ
  curFreq : ℤ
  regA : UInt8
  deriving Inhabited

/-- The fields of the task state segment that the kernel sets. -/
structure Tss where
  esp0 : ℕ
  ss0 : ℕ
  eip : ℕ
  deriving DecidableEq, Inhabited

structure Kernel where
  pcb : ℕ
  pcbs : ℕ → Pcb
  pidBitmap : BitVec 8
  whichTerm : UInt8
  attemptExit : Bool
  first : Bool
  programException : Bool
  curProc : ℕ
  screen : Screen
  tty : Tty
  rtc : Rtc
  /-- The in-service bits of the two interrupt controllers, lines 0 to 15. -/
  isr : ℕ → Bool
  paging : Paging
  /-- Physical memory, as far as it holds program pages. -/
  phys : ℕ → UInt8
  tss : Tss
  cpu : Context

/-- The machine the kernel was booted on. -/
structure Platform where
  layout : Layout
  image : Image

def kernelStackBase : ℕ := 0x800000
def taskStackSize : ℕ := 8192
def kernelDs : ℕ := 0x18

/-- `PCB_ADDR(PID)`.  The macro is only used through for pids of processes, never for the -1 of "no parent". -/
def pcbAddr (pid : ℕ) : ℕ := kernelStackBase - (pid + 1) * taskStackSize

theorem pcbAddr_inj {p q : ℕ} (hp : p < 6) : pcbAddr p = pcbAddr q ↔ p = q := by
  simp only [pcbAddr, kernelStackBase, taskStackSize]
  omega

-- addresses are compared by `pcbAddr_inj`, never by evaluating them
attribute [irreducible] pcbAddr

namespace Kernel

/-- The PCB of the running process. -/
def cur (k : Kernel) : Pcb := k.pcbs k.pcb

/-- The PCB of process `pid`. -/
def proc (k : Kernel) (pid : ℕ) : Pcb := k.pcbs (pcbAddr pid)

/-- Process `pid` has its bit set. -/
def Live (k : Kernel) (pid : ℕ) : Prop := k.pidBitmap.getLsbD pid = true

instance (k : Kernel) (pid : ℕ) : Decidable (k.Live pid) := inferInstanceAs (Decidable (_ = true))

/-- Stores through a PCB pointer. -/
def modify (k : Kernel) (a : ℕ) (f : Pcb → Pcb) : Kernel :=
  { k with pcbs := Function.update k.pcbs a (f (k.pcbs a)) }

def setScreen (k : Kernel) (s : Screen) : Kernel := { k with screen := s }

/-- `printf` and `puts`, given the bytes they produce; the running process decides where they appear. -/
def printf (k : Kernel) (bytes : List UInt8) : Kernel :=
  k.setScreen (k.screen.puts k.cur.curTerminal bytes)

/-- `clearbuf` of `terminal.c`. -/
def clearbuf (k : Kernel) : Kernel :=
  let t := k.cur.curTerminal
  { k with tty := { k.tty with
      tbuf := fun i => if 128 * (t - 1) ≤ i ∧ i < 128 * (t - 1) + 128 then 0 else k.tty.tbuf i
      idx := Function.update k.tty.idx (t - 1) 0 } }

/-- `send_eoi`: lines of the second controller also acknowledge line 2 of the first. -/
def sendEoi (irqNum : ℕ) (k : Kernel) : Kernel :=
  if irqNum < 16 then
    if 8 ≤ irqNum then { k with isr := Function.update (Function.update k.isr irqNum false) 2 false }
    else { k with isr := Function.update k.isr irqNum false }
  else k

/-- `getBitMap`. -/
def getBitMap (k : Kernel) : BitVec 8 := k.pidBitmap

end Kernel

/-! ### The bitmap -/

/-- `1 << pid`, stored to eight bits. -/
def pidBit (pid : ℕ) : BitVec 8 := 1#8 <<< pid

theorem getLsbD_pidBit {p : ℕ} (hp : p < 6) (q : ℕ) : (pidBit p).getLsbD q = decide (q = p) := by
  rw [pidBit, BitVec.getLsbD_shiftLeft, BitVec.getLsbD_one]
  rcases Nat.lt_trichotomy q p with hlt | rfl | hgt
  · simp [hlt, Nat.ne_of_lt hlt]
  · simp [Nat.lt_trans hp (by decide : 6 < 8)]
  · have hne : q - p ≠ 0 := by omega
    simp [hne, Nat.ne_of_gt hgt]

/-- Publishing a process sets its bit and no other. -/
theorem getLsbD_or_pidBit (b : BitVec 8) {p : ℕ} (hp : p < 6) (q : ℕ) :
    (b ||| pidBit p).getLsbD q = (b.getLsbD q || decide (q = p)) := by
  rw [BitVec.getLsbD_or, getLsbD_pidBit hp]

/-- Where the bit is set, subtracting it clears it and borrows from no other. -/
theorem getLsbD_sub_pidBit {b : BitVec 8} {p : ℕ} (hp : p < 6) (hb : b.getLsbD p = true) (q : ℕ) :
    (b - pidBit p).getLsbD q = (b.getLsbD q && decide (q ≠ p)) := by
  -- without its bit the bitmap is `x`, and adding the bit to `x` carries nothing
  have hdisj : (b ^^^ pidBit p) &&& pidBit p = 0#8 := by
    refine BitVec.eq_of_getLsbD_eq fun i _ => ?_
    rw [BitVec.getLsbD_and, BitVec.getLsbD_xor, getLsbD_pidBit hp]
    by_cases hi : i = p
    · simp [hi, hb]
    · simp [hi]
  have hor : (b ^^^ pidBit p) ||| pidBit p = b := by
    refine BitVec.eq_of_getLsbD_eq fun i _ => ?_
    rw [BitVec.getLsbD_or, BitVec.getLsbD_xor, getLsbD_pidBit hp]
    by_cases hi : i = p
    · simp [hi, hb]
    · simp [hi]
  have hsub : b - pidBit p = b ^^^ pidBit p := by
    have hadd := BitVec.add_eq_or_of_and_eq_zero _ _ hdisj
    rw [hor] at hadd
    exact BitVec.sub_eq_iff_eq_add.mpr hadd.symm
  rw [hsub, BitVec.getLsbD_xor, getLsbD_pidBit hp]
  by_cases hq : q = p
  · simp [hq, hb]
  · simp [hq]

end ClosKernel
