import ClosKernel.Kernel

/-!
# Starting and ending processes (`syscalls.c`, `executehelper.c`)

`sysExecute` and `sysHalt` embed the two system calls, with `parser` and `checkExe`.  Both are cut where the
source has its phases: the checks, the choice of a pid, `setup_paging`, the copy of the program image through
the loaded page directory, and `enterProcess`, which fills the PCB, publishes the pid and leaves for user mode.

A call that reaches the `iret` does not return; its `Outcome` is `launched`.  The result is `none` when the
directory walk of `read_dentry_by_name` never ends.  `Stack` is what the kernel stack happens to hold where the
source has uninitialised arrays.

* `enterProcess_start`, `enterProcess_restart`, `enterProcess_child` — the three ways a process is entered, by the
  one-shot flags `whichTerm` and `attemptExit`, each as one record;
* `enterProcess_keeps` — what all of them have in common;
* `sysExecute_cases` — everything a call can do: print and return -1, or launch;
* `sysExecute_launches` — a valid program is launched whenever a pid is free.
-/

namespace ClosKernel

open PartialRun

def progBytes : ℕ := 63 * 4096

/-- Where `prog_img` lies on the kernel stack of the caller, and what the pointers lead to that it may run over: the
tables of driver functions by the addresses of the pointers, the arguments by those of the PCBs. -/
structure ImgPlace where
  addr : ℕ
  inside : addr + progBytes ≤ kernelStackBase
  fopsTable : ℕ → Option Driver
  arguments : ℕ → Mem

/-- The frame of a system call of process 0, as `asm.txt` lays it out. -/
instance : Inhabited ImgPlace := ⟨0x7C0F58, by decide, fun _ => none, fun _ _ => 0⟩

/-- The uninitialised arrays of one `sys_execute` call. -/
structure Stack where
  cmd : Mem
  elf : Mem
  progImg : Mem
  checkProg : Dentry
  prog : Dentry
  img : ImgPlace

instance : Inhabited Stack :=
  ⟨fun _ => 0, fun _ => 0, fun _ => 0, ⟨fun _ => 0, 0, 0⟩, ⟨fun _ => 0, 0, 0⟩, default⟩

/-- How a call ends: with a value for its caller, in user mode, or (`sys_halt`) at `halt_ret_label` in the call
of `sys_execute` that started the process, with the status in `eax`. -/
inductive Outcome where
  | ret (value : ℤ)
  | launched
  | resumed (status : ℕ)
  deriving DecidableEq

/-! ### Commands -/

def argSize : ℕ := 32
def cmdSize : ℕ := 1024

/-- The loops that zero the first `n` bytes of an array. -/
def zeroed (n : ℕ) (junk : Mem) : Mem := fun i => if i < n then 0 else junk i

/-- The first loop of `parser`: what is left of the command, and `cmd`. -/
def parserCmd : List UInt8 → ℕ → Mem → List UInt8 × Mem
  | [], _, cmd => ([], cmd)
  | c :: rest, i, cmd =>
    if c ≠ 0x20 ∧ c ≠ 0x0A ∧ c ≠ 0 then parserCmd rest (i + 1) (Function.update cmd i c)
    else (c :: rest, cmd)

/-- The second loop of `parser`, with the terminator it stores when the arguments are cut. -/
def parserArgs : List UInt8 → ℕ → Mem → Mem
  | [], _, args => args
  | c :: rest, t, args =>
    if c ≠ 0x0A ∧ c ≠ 0 then
      let args := Function.update args t c
      if t + 1 = argSize - 1 then Function.update args (t + 1) 0 else parserArgs rest (t + 1) args
    else args

/-- `parser`.  A command is a string, given without its terminator. -/
def parser (command : List UInt8) (cmd args : Mem) : Mem × Mem :=
  let (rest, cmd) := parserCmd command 0 cmd
  let rest := if rest.head? = some 0x20 then rest.tail else rest
  (cmd, parserArgs rest 0 args)

/-- `cmd` and `args` as `sys_execute` has them after `parser`.  What a first word that is longer than `cmd` runs over is
not followed here; `Action.WordFits` excludes such a word. -/
def commandBuffers (command : List UInt8) (junk : Mem) : Mem × Mem :=
  parser command (zeroed cmdSize junk) (zeroed argSize fun _ => 0)

def isElf (elf : Mem) : Bool := elf 0 == 0x7F && elf 1 == 0x45 && elf 2 == 0x4C && elf 3 == 0x46

/-- `checkExe`: 0 or -1, and what it prints. -/
def checkExe (img : Image) (st : Stack) (cmd : Mem) : Option (ℤ × List UInt8) :=
  (img.readDentryByName cmd st.checkProg).map fun
    | none => (-1, cString cmd ++ ascii " is an invalid filename! ".toList)
    | some prog =>
      let (r, elf) := img.readData prog.inodeNum 0 st.elf 4
      if r = -1 then (-1, ascii "Could not read file:".toList ++ cString cmd ++ ascii "\n".toList)
      else if isElf elf then (0, [])
      else (-1, cString cmd ++ ascii " is not an ELF file :(".toList)

/-! ### `sys_execute` -/

/-- The search loop for a free pid. -/
def freePidFrom (bitmap : BitVec 8) : ℕ → ℕ → Option ℕ
  | 0, _ => none
  | n + 1, freePid =>
    if bitmap.getLsbD freePid = false then some freePid else freePidFrom bitmap n (freePid + 1)

def freePid (bitmap : BitVec 8) : Option ℕ := freePidFrom bitmap numProcess 0

/-- `memcpy` to a virtual address, through the loaded page directory.  The kernel copies to mapped addresses
only; an unmapped byte would be a page fault. -/
def copyOut (L : Layout) (P : Paging) (dest : ℕ) (src : Mem) (n : ℕ) (phys : ℕ → UInt8) : ℕ → UInt8 :=
  upto (fun i phys => ((P.translate L P.cr3 (dest + i)).map fun a =>
    Function.update phys a.phys (src i)).getD phys) n phys

def entryPointStart : ℕ := 0x8000000
def imgOffset : ℕ := 0x48000

/-- What storing the first bytes of a program to `prog_img` does to the rest of the kernel. -/
abbrev Spill := Stack → Mem → ℕ → Kernel → Kernel

/-- `prog_img` as an array of its own. -/
def apart : Spill := fun _ _ _ k => k

/-- The part of `sys_execute` that loads the program; `none` inside is the error return. -/
def loadProgramWith (spill : Spill) (E : Platform) (st : Stack) (cmd : Mem) (k : Kernel) :
    Option (Option Mem × Kernel) :=
  (E.image.readDentryByName cmd st.prog).map fun
    | none => (none, k)
    | some prog =>
      let (numByte, progImg) := E.image.readData prog.inodeNum 0 st.progImg progBytes
      if numByte = -1 then (none, k)
      else
        let k := spill st progImg numByte.toNat k
        (some progImg, { k with
          phys := copyOut E.layout k.paging (imgOffset + entryPointStart) progImg numByte.toNat k.phys })

def loadProgram (E : Platform) (st : Stack) (cmd : Mem) (k : Kernel) : Option (Option Mem × Kernel) :=
  loadProgramWith apart E st cmd k

/-- `buf_bytes[6]`. -/
def entryPoint (progImg : Mem) : ℕ :=
  (progImg 24).toNat + 2 ^ 8 * (progImg 25).toNat + 2 ^ 16 * (progImg 26).toNat
    + 2 ^ 24 * (progImg 27).toNat

/-- The `switch(whichTerm)`: a terminal's first process, or a child of the running one. -/
def assignParent (whichTerm : UInt8) (old : Pcb) (p : Pcb) : Pcb :=
  if whichTerm = 0x01 then { p with parentPid := -1, curTerminal := 1 }
  else if whichTerm = 0x02 then { p with parentPid := -1, curTerminal := 2 }
  else if whichTerm = 0x04 then { p with parentPid := -1, curTerminal := 3 }
  else { p with parentPid := old.pid }

/-- `file_array[0]` and `file_array[1]` become the terminal. -/
def openTerminal (fd : ℕ) (fileArray : ℕ → FileStruct) : ℕ → FileStruct :=
  Function.update fileArray fd
    { fileArray fd with fopsTable := some .term, flags := typeTerm ||| flagOpen }

def Screen.screenInit (s : Screen) : Screen :=
  { s with currentTerminal := 1, numShells := s.numShells ||| 0x01 }

def childEsp : ℕ := 0x8400000 - 4

/-- The rest of `sys_execute`, from `old_pcb = pcb` to the `iret`. -/
def enterProcess (free : ℕ) (progImg args : Mem) (k : Kernel) : Kernel :=
  let oldPcb := k.pcb
  let k := { k with pcb := pcbAddr free }
  let k := k.modify k.pcb fun p => { p with pid := free, childPid := -1 }
  let k := k.modify k.pcb (assignParent k.whichTerm (k.pcbs oldPcb))
  let k := { k with whichTerm := 0x00 }
  let k :=
    if k.attemptExit then
      let k := { k with attemptExit := false }
      k.modify k.pcb fun p =>
        { p with parentPid := -1, curTerminal := (k.pcbs oldPcb).curTerminal }
    else k
  let k :=
    if k.cur.parentPid ≠ -1 then
      let k := k.modify oldPcb fun p => { p with childPid := k.cur.pid }
      k.modify k.pcb fun p => { p with curTerminal := (k.pcbs oldPcb).curTerminal }
    else k
  let k := k.modify k.pcb fun p => { p with fileArray := openTerminal 1 (openTerminal 0 p.fileArray) }
  let k := { k with pidBitmap := k.pidBitmap ||| pidBit free }
  let k := { k with tss :=
    { eip := entryPoint progImg, esp0 := kernelStackBase - k.cur.pid * taskStackSize, ss0 := kernelDs } }
  let k := k.modify k.pcb fun p => { p with arguments := args }
  let k := if k.first then k else { k with first := true, screen := k.screen.screenInit }
  let k := k.modify k.pcb fun p => { p with parentEsp := k.cpu.esp, parentEbp := k.cpu.ebp }
  { k with cpu := { k.cpu with esp := childEsp } }

def setupPaging (E : Platform) (free : ℕ) (k : Kernel) : Kernel :=
  { k with paging := k.paging.setupPaging E.layout free }

def cannotRunMore : List UInt8 := ascii "Cannot run more than 6 processes!\n".toList

/-- `sys_execute`, given what the stores to `prog_img` do besides. -/
def sysExecuteWith (spill : Spill) (E : Platform) (st : Stack) (command : List UInt8) (k : Kernel) :
    Option (Outcome × Kernel) :=
  let (cmd, args) := commandBuffers command st.cmd
  (checkExe E.image st cmd).bind fun (ok, text) =>
    let k := k.printf text
    if ok = -1 then some (.ret (-1), k)
    else
      match freePid k.pidBitmap with
      | none => some (.ret (-1), k.printf cannotRunMore)
      | some free =>
        (loadProgramWith spill E st cmd (setupPaging E free k)).map fun
          | (none, k) => (.ret (-1), k)
          | (some progImg, k) => (.launched, enterProcess free progImg args k)

/-- `sys_execute` with `prog_img` kept apart from the PCBs. -/
def sysExecute (E : Platform) (st : Stack) (command : List UInt8) (k : Kernel) :
    Option (Outcome × Kernel) :=
  sysExecuteWith apart E st command k

/-! ### `sys_halt` -/

def shellCommand : List UInt8 := ascii "shell".toList
def shellLine : List UInt8 := ascii "shell\n".toList

/-- `sys_halt`, given the value that its caller left in `ebx`. -/
def sysHaltWith (spill : Spill) (E : Platform) (st : Stack) (ebx : ℕ) (k : Kernel) : Option (Outcome × Kernel) :=
  let k := { k with programException := decide (ebx = 256) }
  let k := k.modify k.pcb fun p => { p with
    fileArray := upto (fun i a => Function.update a i { a i with flags := flagClose }) maxOpenFiles
      p.fileArray }
  let parentPcb := pcbAddr k.cur.parentPid.toNat
  let oldPcb := k.pcb
  let k := { k with pidBitmap := k.pidBitmap - pidBit k.cur.pid }
  if (k.pcbs oldPcb).parentPid = -1 then
    sysExecuteWith spill E st shellCommand { k with attemptExit := true }
  else
    let k := { k with pcb := parentPcb }
    let k := k.modify k.pcb fun p => { p with childPid := -1 }
    let k := { k with cpu := { esp := (k.pcbs oldPcb).parentEsp, ebp := (k.pcbs oldPcb).parentEbp } }
    let k := { k with paging := k.paging.updatePaging E.layout k.cur.pid }
    let k := { k with tss :=
      { k.tss with esp0 := kernelStackBase - k.cur.pid * taskStackSize, ss0 := kernelDs } }
    some (.resumed (ebx % 2 ^ 8), k)

def sysHalt (E : Platform) (st : Stack) (ebx : ℕ) (k : Kernel) : Option (Outcome × Kernel) :=
  sysHaltWith apart E st ebx k

/-! ### The three ways a process is entered -/

/-- The PCB of a process that starts on terminal `term` with parent `parent`. -/
def Pcb.fresh (p : Pcb) (free : ℕ) (parent term : ℤ) (args : Mem) (c : Context) : Pcb :=
  { p with
    pid := free, childPid := -1, parentPid := parent, curTerminal := term
    fileArray := openTerminal 1 (openTerminal 0 p.fileArray)
    arguments := args, parentEsp := c.esp, parentEbp := c.ebp }

/-- The kernel after process `free` has been entered; `pcbs` are the PCBs of the other processes. -/
def Kernel.enter (k : Kernel) (free : ℕ) (parent term : ℤ) (progImg args : Mem) (pcbs : ℕ → Pcb) :
    Kernel :=
  { k with
    pcb := pcbAddr free
    pcbs := Function.update pcbs (pcbAddr free)
      ((k.proc free).fresh free parent term args k.cpu)
    pidBitmap := k.pidBitmap ||| pidBit free
    whichTerm := 0
    attemptExit := false
    first := true
    screen := if k.first then k.screen else k.screen.screenInit
    tss := { eip := entryPoint progImg, esp0 := kernelStackBase - free * taskStackSize, ss0 := kernelDs }
    cpu := { k.cpu with esp := childEsp } }

/-- The mask that stands for terminal `t` in `whichTerm` and `numShells`. -/
def termMask (t : ℤ) : UInt8 := if t = 1 then 0x01 else if t = 2 then 0x02 else 0x04

section Enter

variable {k : Kernel} (free : ℕ) (progImg args : Mem)

/-- The first process of a terminal. -/
theorem enterProcess_start {t : ℤ} (ht : t = 1 ∨ t = 2 ∨ t = 3) (hwhich : k.whichTerm = termMask t)
    (hexit : k.attemptExit = false) :
    enterProcess free progImg args k = k.enter free (-1) t progImg args k.pcbs := by
  obtain ⟨first, hfirst⟩ : ∃ b, k.first = b := ⟨_, rfl⟩
  rcases ht with rfl | rfl | rfl <;> cases first <;>
    simp [enterProcess, Kernel.enter, Kernel.modify, Kernel.cur, Kernel.proc, Pcb.fresh, assignParent,
      termMask, hwhich, hexit, hfirst, Function.update_idem]

/-- The shell that takes over from a root shell. -/
theorem enterProcess_restart (hwhich : k.whichTerm = 0) (hexit : k.attemptExit = true) :
    enterProcess free progImg args k
      = k.enter free (-1) k.cur.curTerminal progImg args k.pcbs := by
  obtain ⟨first, hfirst⟩ : ∃ b, k.first = b := ⟨_, rfl⟩
  -- the new shell may take the very slot of the old one
  by_cases hsame : k.pcb = pcbAddr free <;> cases first <;>
    simp [enterProcess, Kernel.enter, Kernel.modify, Kernel.cur, Kernel.proc, Pcb.fresh, assignParent,
      hwhich, hexit, hfirst, hsame, Function.update_idem]

/-- A child of the running process. -/
theorem enterProcess_child (hwhich : k.whichTerm = 0) (hexit : k.attemptExit = false)
    (hne : k.pcb ≠ pcbAddr free) :
    enterProcess free progImg args k
      = k.enter free k.cur.pid k.cur.curTerminal progImg args
          (Function.update k.pcbs k.pcb { k.cur with childPid := free }) := by
  obtain ⟨first, hfirst⟩ : ∃ b, k.first = b := ⟨_, rfl⟩
  cases first <;>
    simp [enterProcess, Kernel.enter, Kernel.modify, Kernel.cur, Kernel.proc, Pcb.fresh, assignParent,
      hwhich, hexit, hfirst, hne, hne.symm, Function.update_idem, Function.update_of_ne] <;>
    rw [Function.update_comm hne.symm, Function.update_idem]

end Enter

/-- What entering a process, whichever way, does to the rest of the kernel. -/
structure EnterFrame (k k' : Kernel) (progImg : Mem) : Prop where
  phys : k'.phys = k.phys
  paging : k'.paging = k.paging
  tty : k'.tty = k.tty
  screen : k'.screen = if k.first then k.screen else k.screen.screenInit
  eip : k'.tss.eip = entryPoint progImg

theorem enterProcess_keeps (free : ℕ) (progImg args : Mem) (k : Kernel) :
    EnterFrame k (enterProcess free progImg args k) progImg := by
  unfold enterProcess
  -- the states between the statements; those before an `if` are in its first branch
  extract_lets oldPcb k1 k2 k3 k4 k5 k6 k7 k8 k9 k10 k11 k12 k13 k14
  have hexit : k6.phys = k4.phys ∧ k6.paging = k4.paging ∧ k6.tty = k4.tty ∧ k6.screen = k4.screen ∧
      k6.first = k4.first := by
    dsimp only [k6]
    split <;> exact ⟨rfl, rfl, rfl, rfl, rfl⟩
  have hparent : k8.phys = k6.phys ∧ k8.paging = k6.paging ∧ k8.tty = k6.tty ∧ k8.screen = k6.screen ∧
      k8.first = k6.first := by
    dsimp only [k8]
    split <;> exact ⟨rfl, rfl, rfl, rfl, rfl⟩
  have hfirst : k13.phys = k12.phys ∧ k13.paging = k12.paging ∧ k13.tty = k12.tty ∧ k13.tss = k12.tss ∧
      k13.screen = if k12.first then k12.screen else k12.screen.screenInit := by
    dsimp only [k13]
    split <;> exact ⟨rfl, rfl, rfl, rfl, rfl⟩
  obtain ⟨hphys₁, hpaging₁, htty₁, hscreen₁, hfirst₁⟩ := hexit
  obtain ⟨hphys₂, hpaging₂, htty₂, hscreen₂, hfirst₂⟩ := hparent
  obtain ⟨hphys₃, hpaging₃, htty₃, htss, hscreen₃⟩ := hfirst
  have hscreen : k12.screen = k.screen := hscreen₂.trans hscreen₁
  have hflag : k12.first = k.first := hfirst₂.trans hfirst₁
  exact
    { phys := hphys₃.trans (hphys₂.trans hphys₁)
      paging := hpaging₃.trans (hpaging₂.trans hpaging₁)
      tty := htty₃.trans (htty₂.trans htty₁)
      screen := by
        rw [← hscreen, ← hflag]
        exact hscreen₃
      eip := congrArg Tss.eip htss }

/-! ### The free pid -/

theorem freePidFrom_eq_some_iff (b : BitVec 8) (n p q : ℕ) :
    freePidFrom b n p = some q ↔
      p ≤ q ∧ q < p + n ∧ b.getLsbD q = false ∧ ∀ i, p ≤ i → i < q → b.getLsbD i = true := by
  induction n generalizing p with
  | zero =>
    rw [freePidFrom]
    exact ⟨fun h => by simp at h, fun h => absurd h.2.1 (by omega)⟩
  | succ n ih =>
    rw [freePidFrom]
    by_cases hp : b.getLsbD p = false
    · rw [if_pos hp, Option.some_inj]
      constructor
      · rintro rfl
        exact ⟨le_rfl, by omega, hp, fun i hi hlt => absurd hlt (by omega)⟩
      · rintro ⟨hle, _, _, hbelow⟩
        by_contra hne
        exact absurd (hbelow p le_rfl (by omega)) (by rw [hp]; decide)
    · rw [if_neg hp, ih (p + 1)]
      constructor
      · rintro ⟨hle, hlt, hq, hbelow⟩
        refine ⟨by omega, by omega, hq, fun i hi hiq => ?_⟩
        rcases Nat.eq_or_lt_of_le hi with rfl | hi
        · exact Bool.not_eq_false _ ▸ hp
        · exact hbelow i hi hiq
      · rintro ⟨hle, hlt, hq, hbelow⟩
        have hne : p ≠ q := fun h => hp (h ▸ hq)
        exact ⟨by omega, by omega, hq, fun i hi hiq => hbelow i (by omega) hiq⟩

/-- The chosen pid is the lowest of the six whose bit is clear. -/
theorem freePid_eq_some_iff (b : BitVec 8) (q : ℕ) :
    freePid b = some q ↔ q < 6 ∧ b.getLsbD q = false ∧ ∀ i < q, b.getLsbD i = true := by
  rw [freePid, freePidFrom_eq_some_iff, numProcess]
  simp

theorem freePid_eq_none_iff (b : BitVec 8) : freePid b = none ↔ ∀ i < 6, b.getLsbD i = true := by
  constructor
  · intro hnone i hi
    by_contra hbit
    -- the lowest clear bit would have been found
    have hex : ∃ q, q < 6 ∧ b.getLsbD q = false := ⟨i, hi, by simpa using hbit⟩
    have hmin := Nat.find_spec hex
    have hfound : freePid b = some (Nat.find hex) := by
      refine (freePid_eq_some_iff b _).mpr ⟨hmin.1, hmin.2, fun j hj => ?_⟩
      have hmj := Nat.find_min hex hj
      by_contra hb
      exact hmj ⟨by omega, by simpa using hb⟩
    rw [hnone] at hfound
    simp at hfound
  · intro hfull
    cases hfree : freePid b with
    | none => rfl
    | some q =>
      obtain ⟨hq, hbit, -⟩ := (freePid_eq_some_iff b q).mp hfree
      rw [hfull q hq] at hbit
      simp at hbit

/-! ### The first word of a command -/

/-- The longest beginning of the command without a space, a newline or a NUL. -/
def firstWord (command : List UInt8) : List UInt8 :=
  command.takeWhile fun c => decide (c ≠ 0x20 ∧ c ≠ 0x0A ∧ c ≠ 0)

theorem firstWord_cons {c : UInt8} {rest : List UInt8} (hc : c ≠ 0x20 ∧ c ≠ 0x0A ∧ c ≠ 0) :
    firstWord (c :: rest) = c :: firstWord rest := by
  rw [firstWord, List.takeWhile_cons_of_pos (by exact decide_eq_true hc), firstWord]

theorem firstWord_cons_break {c : UInt8} {rest : List UInt8} (hc : ¬(c ≠ 0x20 ∧ c ≠ 0x0A ∧ c ≠ 0)) :
    firstWord (c :: rest) = [] := by
  rw [firstWord, List.takeWhile_cons_of_neg (by rw [decide_eq_true_iff]; exact hc)]

theorem parserCmd_spec (command : List UInt8) (i : ℕ) (cmd : Mem) (j : ℕ) :
    (parserCmd command i cmd).2 j
      = if i ≤ j ∧ j < i + (firstWord command).length then (firstWord command).getD (j - i) 0
        else cmd j := by
  induction command generalizing i cmd with
  | nil =>
    rw [if_neg (by simp [firstWord])]
    rfl
  | cons c rest ih =>
    rw [parserCmd]
    by_cases hc : c ≠ 0x20 ∧ c ≠ 0x0A ∧ c ≠ 0
    · rw [if_pos hc, ih, firstWord_cons hc, List.length_cons]
      rcases Nat.lt_trichotomy j i with hlt | rfl | hgt
      · rw [if_neg (by omega), if_neg (by omega), Function.update_of_ne (Nat.ne_of_lt hlt)]
      · rw [if_neg (by omega), if_pos (by omega), Function.update_self, Nat.sub_self,
          List.getD_cons_zero]
      · rw [Function.update_of_ne (Nat.ne_of_gt hgt), show j - i = j - (i + 1) + 1 from by omega,
          List.getD_cons_succ]
        by_cases hj : j < i + 1 + (firstWord rest).length
        · rw [if_pos (by omega), if_pos (by omega)]
        · rw [if_neg (by omega), if_neg (by omega)]
    · rw [if_neg hc, firstWord_cons_break hc, List.length_nil, if_neg (by omega)]

/-- Inside the zeroed part of the array, `cmd` is the first word with its terminator. -/
theorem commandBuffers_cmd (command : List UInt8) (junk : Mem) {j : ℕ} (hj : j < 1024) :
    (commandBuffers command junk).1 j = literal (firstWord command) j := by
  have hspec := parserCmd_spec command 0 (zeroed cmdSize junk) j
  rw [Nat.zero_add, Nat.sub_zero] at hspec
  refine Eq.trans hspec ?_
  by_cases hlt : j < (firstWord command).length
  · rw [if_pos (by omega), literal]
  · rw [if_neg (by omega), literal, List.getD_eq_getElem?_getD, List.getElem?_eq_none (by omega),
      Option.getD_none, zeroed, cmdSize, if_pos hj]

/-! ### Copies into a program page -/

/-- Memory with the first `n` bytes of `src` at `base`. -/
def stored (base : ℕ) (src : Mem) (n : ℕ) (phys : ℕ → UInt8) : ℕ → UInt8 :=
  fun a => if base ≤ a ∧ a < base + n then src (a - base) else phys a

/-- A copy to a stretch that is mapped in one piece. -/
theorem copyOut_eq_stored {L : Layout} {P : Paging} {dest base : ℕ} (src : Mem) {n : ℕ}
    (phys : ℕ → UInt8)
    (hmap : ∀ i < n, ∃ user writable, P.translate L P.cr3 (dest + i) = some ⟨base + i, user, writable⟩) :
    copyOut L P dest src n phys = stored base src n phys := by
  refine upto_invariant (P := fun i m => m = stored base src i phys) ?_ fun i m hi hm => ?_
  · funext a
    rw [stored, if_neg (by omega)]
  · obtain ⟨user, writable, htrans⟩ := hmap i hi
    rw [htrans, Option.map_some, Option.getD_some, hm]
    funext a
    by_cases ha : a = base + i
    · rw [ha, Function.update_self, stored, if_pos (by omega), Nat.add_sub_cancel_left]
    · rw [Function.update_of_ne ha, stored, stored]
      by_cases hin : base ≤ a ∧ a < base + i
      · rw [if_pos hin, if_pos (by omega)]
      · rw [if_neg hin, if_neg (by omega)]

/-- Where the physical frame of process `p` starts. -/
def frameBase (p : ℕ) : ℕ := 0x800000 + p * 0x400000

/-- **A copy into the program page** ends up in the frame of the process whose directory is loaded. -/
theorem copyOut_program {L : Layout} {P : Paging} {p off n : ℕ} (src : Mem) (phys : ℕ → UInt8)
    (hok : P.Ok L) (hp : p < 6) (hset : P.pageDir p 32 = 0x800187 + p * 0x400000)
    (hcr3 : P.cr3 = L.dirAdrs p) (hoff : off + n ≤ 0x400000) :
    copyOut L P (off + 0x8000000) src n phys = stored (frameBase p + off) src n phys := by
  refine copyOut_eq_stored src phys fun i hi => ⟨true, true, ?_⟩
  rw [hcr3, hok.translate_program hp hset (by omega), frameBase,
    show (off + 0x8000000 + i) % 2 ^ 22 = off + i by omega, Nat.add_assoc (0x800000 + p * 0x400000)]

/-! ### Everything `sys_execute` can do -/

/-- The program image that `read_data` puts on the stack, with the count it returns. -/
def readProgram (E : Platform) (st : Stack) (r : ℕ) : ℤ × Mem :=
  E.image.readData (E.image.dentryInode r) 0 st.progImg progBytes

/-- No more is read than the array holds, and no more than the file. -/
theorem readProgram_count_le (E : Platform) (st : Stack) (r : ℕ) : (readProgram E st r).1.toNat ≤ progBytes ∧
    (readProgram E st r).1.toNat ≤ E.image.inodeLength (E.image.dentryInode r) := by
  by_cases hinode : E.image.inodeCnt ≤ E.image.dentryInode r
  · rw [readProgram, Image.readData_refused (Or.inl hinode)]
    exact ⟨Nat.zero_le _, Nat.zero_le _⟩
  · have hbounds := Image.readData_zero_bounds (Nat.not_le.mp hinode) (show progBytes < 2 ^ 31 by decide) st.progImg
    rw [readProgram]
    omega

/-- The kernel once the program of entry `r` has been copied into the page of process `free`. -/
def Kernel.loaded (E : Platform) (st : Stack) (free r : ℕ) (k : Kernel) : Kernel :=
  { k with
    paging := k.paging.setupPaging E.layout free
    phys := copyOut E.layout (k.paging.setupPaging E.layout free) (imgOffset + entryPointStart)
      (readProgram E st r).2 (readProgram E st r).1.toNat k.phys }

/-- The same with what the stores to `prog_img` have done besides. -/
def Kernel.loadedWith (spill : Spill) (E : Platform) (st : Stack) (free r : ℕ) (k : Kernel) : Kernel :=
  let k := spill st (readProgram E st r).2 (readProgram E st r).1.toNat (setupPaging E free k)
  { k with
    phys := copyOut E.layout k.paging (imgOffset + entryPointStart) (readProgram E st r).2
      (readProgram E st r).1.toNat k.phys }

/-- Entry `r` is an executable, as far as `checkExe` looks. -/
def Executable (img : Image) (st : Stack) (r : ℕ) : Prop :=
  img.dentryInode r < img.inodeCnt ∧ isElf (img.readData (img.dentryInode r) 0 st.elf 4).2 = true

instance (img : Image) (st : Stack) (r : ℕ) : Decidable (Executable img st r) :=
  inferInstanceAs (Decidable (_ ∧ _))

section Cases

variable {E : Platform} {st : Stack} {command : List UInt8} {k : Kernel}

/-- `checkExe` accepts exactly the executables, and prints otherwise. -/
theorem checkExe_of_found {img : Image} {cmd : Mem} {r : ℕ} (hr : img.lookup cmd = some (some r)) :
    (Executable img st r ∧ checkExe img st cmd = some (0, [])) ∨
    (¬Executable img st r ∧ ∃ text, checkExe img st cmd = some (-1, text)) := by
  have hcheck : checkExe img st cmd
      = some (if (img.readData (img.dentryInode r) 0 st.elf 4).1 = -1 then
          (-1, ascii "Could not read file:".toList ++ cString cmd ++ ascii "\n".toList)
        else if isElf (img.readData (img.dentryInode r) 0 st.elf 4).2 then (0, [])
        else (-1, cString cmd ++ ascii " is not an ELF file :(".toList)) := by
    rw [checkExe, img.readDentryByName_eq, hr]
    rfl
  have hneg : (img.readData (img.dentryInode r) 0 st.elf 4).1 = -1 ↔
      img.inodeCnt ≤ img.dentryInode r := Image.readData_zero_eq_neg_one_iff (by decide) st.elf
  by_cases hinode : img.inodeCnt ≤ img.dentryInode r
  · rw [if_pos (hneg.mpr hinode)] at hcheck
    exact Or.inr ⟨fun h => absurd h.1 (by omega), _, hcheck⟩
  · rw [if_neg (fun h => hinode (hneg.mp h))] at hcheck
    by_cases helf : isElf (img.readData (img.dentryInode r) 0 st.elf 4).2 = true
    · rw [if_pos helf] at hcheck
      exact Or.inl ⟨⟨by omega, helf⟩, hcheck⟩
    · rw [if_neg helf] at hcheck
      exact Or.inr ⟨fun h => helf h.2, _, hcheck⟩

/-- **Everything `checkExe` can do**: print and fail, or accept an executable that the name leads to. -/
theorem checkExe_cases {img : Image} {cmd : Mem} {ok : ℤ} {text : List UInt8}
    (h : checkExe img st cmd = some (ok, text)) :
    (ok = -1 ∧ ∀ r, img.lookup cmd = some (some r) → ¬Executable img st r) ∨
    (ok = 0 ∧ text = [] ∧ ∃ r, img.lookup cmd = some (some r) ∧ Executable img st r) := by
  cases hr : img.lookup cmd with
  | none =>
    rw [checkExe, img.readDentryByName_eq, hr, Option.map_none, Option.map_none] at h
    cases h
  | some r =>
    cases r with
    | none =>
      have hcheck : checkExe img st cmd
          = some (-1, cString cmd ++ ascii " is an invalid filename! ".toList) := by
        rw [checkExe, img.readDentryByName_eq, hr]
        rfl
      rw [hcheck, Option.some_inj, Prod.mk.injEq] at h
      exact Or.inl ⟨h.1.symm, fun r hr' => absurd (Option.some_inj.mp hr') (by simp)⟩
    | some r =>
      rcases checkExe_of_found hr with ⟨hexe, hcheck⟩ | ⟨hnot, text', hcheck⟩
      · rw [hcheck, Option.some_inj, Prod.mk.injEq] at h
        exact Or.inr ⟨h.1.symm, h.2.symm, r, rfl, hexe⟩
      · rw [hcheck, Option.some_inj, Prod.mk.injEq] at h
        refine Or.inl ⟨h.1.symm, fun r' hr' => ?_⟩
        rw [Option.some_inj, Option.some_inj] at hr'
        exact hr' ▸ hnot

/-- What loading the program of entry `r` comes to. -/
theorem loadProgramWith_eq (spill : Spill) (st : Stack) {cmd : Mem} {r : ℕ} (hr : E.image.lookup cmd = some (some r))
    (k : Kernel) :
    loadProgramWith spill E st cmd k = some (if (readProgram E st r).1 = -1 then (none, k)
      else
        let k := spill st (readProgram E st r).2 (readProgram E st r).1.toNat k
        (some (readProgram E st r).2, { k with
          phys := copyOut E.layout k.paging (imgOffset + entryPointStart) (readProgram E st r).2
            (readProgram E st r).1.toNat k.phys })) := by
  rw [loadProgramWith, E.image.readDentryByName_eq, hr]
  rfl

theorem readProgram_ne_neg_one {r : ℕ} (hexe : Executable E.image st r) : (readProgram E st r).1 ≠ -1 := by
  have hneg : (readProgram E st r).1 = -1 ↔ E.image.inodeCnt ≤ E.image.dentryInode r :=
    Image.readData_zero_eq_neg_one_iff (by decide) st.progImg
  exact fun h => absurd (hneg.mp h) (Nat.not_le.mpr hexe.1)

/-- What `checkExe` accepted is loaded without error: both look at the same image. -/
theorem loadProgram_of_found {cmd : Mem} {r : ℕ} (hr : E.image.lookup cmd = some (some r))
    (hexe : Executable E.image st r) (k : Kernel) :
    loadProgram E st cmd k = some (some (readProgram E st r).2, { k with
      phys := copyOut E.layout k.paging (imgOffset + entryPointStart) (readProgram E st r).2
        (readProgram E st r).1.toNat k.phys }) := by
  rw [loadProgram, loadProgramWith_eq apart st hr, if_neg (readProgram_ne_neg_one hexe)]
  rfl

/-- **Launching.**  An executable starts whenever a pid is free. -/
theorem sysExecuteWith_launches (spill : Spill) {r free : ℕ}
    (hr : E.image.lookup (commandBuffers command st.cmd).1 = some (some r))
    (hexe : Executable E.image st r) (hfree : freePid k.pidBitmap = some free) :
    sysExecuteWith spill E st command k
      = some (.launched, enterProcess free (readProgram E st r).2 (commandBuffers command st.cmd).2
          (k.loadedWith spill E st free r)) := by
  have hcheck : checkExe E.image st (commandBuffers command st.cmd).1 = some (0, []) :=
    ((checkExe_of_found hr).resolve_right fun h => h.1 hexe).2
  have hload := loadProgramWith_eq spill st hr (setupPaging E free k)
  rw [if_neg (readProgram_ne_neg_one hexe)] at hload
  rw [sysExecuteWith]
  dsimp only
  rw [hcheck, Option.bind_some]
  dsimp only
  rw [if_neg (by decide), show (k.printf []).pidBitmap = k.pidBitmap from rfl, hfree]
  dsimp only
  rw [show k.printf [] = k from rfl, hload]
  rfl

theorem sysExecute_launches {r free : ℕ}
    (hr : E.image.lookup (commandBuffers command st.cmd).1 = some (some r))
    (hexe : Executable E.image st r) (hfree : freePid k.pidBitmap = some free) :
    sysExecute E st command k
      = some (.launched, enterProcess free (readProgram E st r).2 (commandBuffers command st.cmd).2
          (k.loaded E st free r)) :=
  sysExecuteWith_launches apart hr hexe hfree

/-- A call does not see the difference between two ways of storing that do the same to its program. -/
theorem sysExecuteWith_congr {spill spill' : Spill}
    (h : ∀ r, E.image.lookup (commandBuffers command st.cmd).1 = some (some r) → ∀ k,
      spill st (readProgram E st r).2 (readProgram E st r).1.toNat k
        = spill' st (readProgram E st r).2 (readProgram E st r).1.toNat k) (k : Kernel) :
    sysExecuteWith spill E st command k = sysExecuteWith spill' E st command k := by
  have hload : ∀ m, loadProgramWith spill E st (commandBuffers command st.cmd).1 m
      = loadProgramWith spill' E st (commandBuffers command st.cmd).1 m := by
    intro m
    cases hr : E.image.lookup (commandBuffers command st.cmd).1 with
    | none => rw [loadProgramWith, loadProgramWith, E.image.readDentryByName_eq, hr]; rfl
    | some found =>
      cases found with
      | none => rw [loadProgramWith, loadProgramWith, E.image.readDentryByName_eq, hr]; rfl
      | some r => rw [loadProgramWith_eq spill st hr, loadProgramWith_eq spill' st hr, h r hr]
  rw [sysExecuteWith, sysExecuteWith]
  simp only [hload]

/-- What a call of `sys_execute` prints. -/
def executeText (E : Platform) (st : Stack) (command : List UInt8) (k : Kernel) : List UInt8 :=
  match checkExe E.image st (commandBuffers command st.cmd).1 with
  | none => []
  | some (ok, text) => if ok = -1 then text else if freePid k.pidBitmap = none then cannotRunMore else []

/-- **Everything a call can do.**  It prints and returns -1, changing nothing else, because the command names no
executable or no pid is free; or it launches the program that the first word names, in the lowest free pid,
and prints nothing. -/
theorem sysExecute_cases {o : Outcome} {k' : Kernel} (h : sysExecute E st command k = some (o, k')) :
    (o = .ret (-1) ∧ k' = k.printf (executeText E st command k) ∧
      ((∀ r, E.image.lookup (commandBuffers command st.cmd).1 = some (some r) →
        ¬Executable E.image st r) ∨ freePid k.pidBitmap = none)) ∨
    ∃ r free, E.image.lookup (commandBuffers command st.cmd).1 = some (some r) ∧
      Executable E.image st r ∧ freePid k.pidBitmap = some free ∧ o = .launched ∧
      executeText E st command k = [] ∧
      k' = enterProcess free (readProgram E st r).2 (commandBuffers command st.cmd).2
        (k.loaded E st free r) := by
  have hcall := h
  rw [sysExecute, sysExecuteWith] at h
  dsimp only at h
  obtain ⟨⟨ok, text⟩, hcheck, hrest⟩ := Option.bind_eq_some_iff.mp h
  dsimp only at hrest
  rw [executeText, hcheck]
  rcases checkExe_cases hcheck with ⟨rfl, hnot⟩ | ⟨rfl, rfl, r, hr, hexe⟩
  · rw [if_pos rfl, Option.some_inj, Prod.mk.injEq] at hrest
    exact Or.inl ⟨hrest.1.symm, hrest.2.symm, Or.inl hnot⟩
  · dsimp only
    rw [if_neg (by decide)]
    cases hfree : freePid k.pidBitmap with
    | none =>
      rw [if_neg (by decide), show (k.printf []).pidBitmap = k.pidBitmap from rfl, hfree, Option.some_inj,
        Prod.mk.injEq] at hrest
      exact Or.inl ⟨hrest.1.symm, hrest.2.symm, Or.inr rfl⟩
    | some free =>
      rw [sysExecute_launches hr hexe hfree, Option.some_inj, Prod.mk.injEq] at hcall
      exact Or.inr ⟨r, free, hr, hexe, rfl, hcall.1.symm, rfl, hcall.2.symm⟩

/-- The directory has, at entry `r`, a regular file called `name` that is a valid ELF file: the entries before
it are other names, its inode exists, none of its blocks is missing and it starts with the ELF magic. -/
structure ProgramAt (img : Image) (name : List UInt8) (r : ℕ) : Prop where
  name_ne : name ≠ []
  name_nul : 0 ∉ name
  inDirectory : r < 63
  named : strncmp (img.dentryName r) (literal name) 32 = 0
  before : ∀ i < r, img.Passes (literal name) i
  regular : img.dentryType r = 2
  inode : img.dentryInode r < img.inodeCnt
  length : 4 ≤ img.inodeLength (img.dentryInode r)
  blocks : ∀ b, bytesPerBlock * b < img.inodeLength (img.dentryInode r) →
    img.dataBlock (img.dentryInode r) b ≠ 0
  elf : isElf (img.fileByte (img.dentryInode r)) = true

theorem ProgramAt.lookup {img : Image} {name : List UInt8} {r : ℕ} (h : ProgramAt img name r)
    {cmd : Mem} (hcmd : ∀ j < 32, cmd j = literal name j) : img.lookup cmd = some (some r) := by
  rw [Image.lookup_congr hcmd, Image.lookup, if_neg]
  · refine (Image.dentrySearch_eq_found_iff _ _ _).mpr ⟨Nat.zero_le r, ?_, h.named, ?_⟩
    · exact Nat.lt_of_lt_of_le h.inDirectory (by rw [Image.dentryRound]; omega)
    · exact fun i _ hi => h.before i hi
  · -- a name that is not empty does not match the empty string
    obtain ⟨c, rest, hname⟩ := List.exists_cons_of_ne_nil h.name_ne
    rw [strncmp_emptyString_iff _ (by decide), hname]
    exact fun hc => h.name_nul (by rw [hname]; exact List.mem_cons.mpr (Or.inl hc.symm))

/-- Whatever the stack held, `checkExe` sees the magic number. -/
theorem ProgramAt.executable {img : Image} {name : List UInt8} {r : ℕ} (h : ProgramAt img name r)
    (st : Stack) : Executable img st r := by
  refine ⟨h.inode, ?_⟩
  have hcount : img.readCount (img.dentryInode r) 0 4 = 4 := by
    rw [Image.readCount, Image.clampLength, if_neg (by have := h.length; omega)]
    rfl
  rw [Image.readData_spec h.inode (Nat.lt_of_lt_of_le (by decide) h.length) (by decide) h.blocks, hcount]
  simpa [isElf] using h.elf

/-- A program on the image is launched whenever a pid is free. -/
theorem ProgramAt.launches {r free : ℕ} (h : ProgramAt E.image (firstWord command) r)
    (hfree : freePid k.pidBitmap = some free) :
    sysExecute E st command k
      = some (.launched, enterProcess free (readProgram E st r).2 (commandBuffers command st.cmd).2
          (k.loaded E st free r)) :=
  sysExecute_launches (h.lookup fun _ hj => commandBuffers_cmd command st.cmd (by omega))
    (h.executable st) hfree

end Cases

/-- The image has a shell. -/
def ValidShell (img : Image) : Prop := ∃ r, ProgramAt img shellCommand r

/-- Bytes placed at an offset of a memory. -/
def placed (start : ℕ) (bytes : List UInt8) (m : Mem) : Mem :=
  fun i => if start ≤ i ∧ i < start + bytes.length then bytes.getD (i - start) 0 else m i

/-- An image with two programs of 28 bytes, `shell` and `ls`. -/
def twoProgramImage : Image where
  mem :=
    -- the boot block: two inodes, three data blocks, two directory entries
    placed 4 [2] <| placed 8 [3] <| placed 64 (ascii "shell".toList) <| placed 96 [2] <|
    placed 128 (ascii "ls".toList) <| placed 160 [2] <| placed 164 [1] <|
    -- the inodes: a length and one block number each
    placed 4096 [28, 0, 0, 0, 1] <| placed 8192 [28, 0, 0, 0, 2] <|
    -- the blocks: the magic number, and a byte that tells the programs apart
    placed 16384 [0x7F, 0x45, 0x4C, 0x46, 1] <| placed 20480 [0x7F, 0x45, 0x4C, 0x46, 2] fun _ => 0

theorem twoProgramImage_shell : ProgramAt twoProgramImage shellCommand 0 where
  name_ne := by decide
  name_nul := by decide
  inDirectory := by decide
  named := by decide
  before i hi := absurd hi (by omega)
  regular := by decide
  inode := by decide
  length := by decide
  blocks b hb := by
    have hlen : twoProgramImage.inodeLength (twoProgramImage.dentryInode 0) = 28 := by decide
    rw [hlen, bytesPerBlock] at hb
    rw [show b = 0 by omega]
    decide
  elf := by decide

theorem twoProgramImage_ls : ProgramAt twoProgramImage (ascii "ls".toList) 1 where
  name_ne := by decide
  name_nul := by decide
  inDirectory := by decide
  named := by decide
  before i hi := by
    rw [show i = 0 by omega]
    exact ⟨by decide, by decide⟩
  regular := by decide
  inode := by decide
  length := by decide
  blocks b hb := by
    have hlen : twoProgramImage.inodeLength (twoProgramImage.dentryInode 1) = 28 := by decide
    rw [hlen, bytesPerBlock] at hb
    rw [show b = 0 by omega]
    decide
  elf := by decide

theorem firstWord_shellCommand : firstWord shellCommand = shellCommand := by decide
theorem firstWord_shellLine : firstWord shellLine = shellCommand := by decide

end ClosKernel
