import ClosKernel.Drivers
import ClosKernel.Reach

/-!
# Program images on the kernel stack (`sys_execute`, `pcb.h`)

`sys_execute` reads the program into `prog_img`, an array of 63 blocks on a kernel stack of two.  The array ends in the
stack of the caller and lies over the stacks of the processes behind it, each with a PCB at its bottom; the variables of
the kernel are taken to lie below it.  `overrun` is what a program that is read there does to the PCBs, field by field,
and `stepOnStack` is the machine with it.  The machine stops where a first word does not fit in `cmd`, and where a live
process is left with a pid that no process has.  The return addresses that a program overwrites are not followed.

* `overrun_of_le` — a program that ends below the lowest PCB does nothing else;
* `fits_of_length` — so does every program of at most 51 blocks, wherever the frame of the call lies;
* `step_of_stepOnStack` and `ReachesSafely.reaches` — **refinement**: as long as all programs fit, the machine does what
  that of `step` does; `stepOnStack_eq_step` — and does not stop where that one goes on;
* `process_table_invariant` — what this says about the process table;
* `process_table_overrun` — a program of 63 blocks makes a process the child of one that is not there.
-/

namespace ClosKernel

open PartialRun LinkedStack

/-! ### Fields under the array -/

/-- The byte that the stores to `prog_img` have left at an address, if there was one. -/
def imgStores (addr : ℕ) (progImg : Mem) (n : ℕ) : ℕ → Option UInt8 :=
  fun a => if addr ≤ a ∧ a < addr + n then some (progImg (a - addr)) else none

/-- The four bytes at `a` are left alone. -/
def Untouched (stores : ℕ → Option UInt8) (a : ℕ) : Prop := ∀ i < 4, stores (a + i) = none

instance (stores : ℕ → Option UInt8) (a : ℕ) : Decidable (Untouched stores a) :=
  inferInstanceAs (Decidable (∀ i < 4, _))

/-- The word at `a`, which was `old`. -/
def wordAfter (stores : ℕ → Option UInt8) (a old : ℕ) : ℕ :=
  if Untouched stores a then old else wordOf fun i => (stores (a + i)).getD (wordBytes old i)

/-- The same for an `int32_t`. -/
def intAfter (stores : ℕ → Option UInt8) (a : ℕ) (old : ℤ) : ℤ :=
  if Untouched stores a then old else toInt32 (wordAfter stores a (toUInt32 old))

/-- A `file_struct_t` at `a`. -/
def FileStruct.after (stores : ℕ → Option UInt8) (img : ImgPlace) (a : ℕ) (f : FileStruct) : FileStruct where
  fopsTable := if Untouched stores a then f.fopsTable else img.fopsTable a
  inode := wordAfter stores (a + 4) f.inode
  filePosition := wordAfter stores (a + 8) f.filePosition
  flags := wordAfter stores (a + 12) f.flags

/-- A `pcb_t` at `a`.  The string that `arguments` points to lies on a stack too. -/
def Pcb.after (stores : ℕ → Option UInt8) (img : ImgPlace) (a : ℕ) (p : Pcb) : Pcb where
  fileArray fd := if fd < maxOpenFiles then (p.fileArray fd).after stores img (a + 16 * fd) else p.fileArray fd
  curTerminal := intAfter stores (a + 128) p.curTerminal
  childPid := intAfter stores (a + 132) p.childPid
  pid := wordAfter stores (a + 136) p.pid
  -- `esp_screen` and `ebp_screen`
  espSchedule := wordAfter stores (a + 148) p.espSchedule
  ebpSchedule := wordAfter stores (a + 152) p.ebpSchedule
  parentPid := intAfter stores (a + 156) p.parentPid
  parentEsp := wordAfter stores (a + 160) p.parentEsp
  parentEbp := wordAfter stores (a + 164) p.parentEbp
  -- `rtc_freq`
  arguments := img.arguments a

/-- The PCBs once the first `n` bytes of a program are in `prog_img`. -/
def overrunPcbs (img : ImgPlace) (progImg : Mem) (n : ℕ) (pcbs : ℕ → Pcb) : ℕ → Pcb :=
  if img.addr + n ≤ pcbAddr 5 then pcbs
  else fun a => if a < pcbAddr 5 then pcbs a else (pcbs a).after (imgStores img.addr progImg n) img a

/-- `prog_img` in its place. -/
def overrun : Spill := fun st progImg n k => { k with pcbs := overrunPcbs st.img progImg n k.pcbs }

/-! ### The machine -/

/-- The pids and parents of the live processes are numbers of processes. -/
def Kernel.PidsInRange (k : Kernel) : Prop :=
  ∀ p < 6, k.Live p → (k.proc p).pid < 6 ∧ -1 ≤ (k.proc p).parentPid ∧ (k.proc p).parentPid < 6

instance (k : Kernel) : Decidable k.PidsInRange := inferInstanceAs (Decidable (∀ p < 6, _))

/-- The first word of the command fits in `cmd`. -/
def Action.WordFits : Action → Prop
  | .execute _ command => (firstWord command).length ≤ cmdSize + 1
  | _ => True

instance : DecidablePred Action.WordFits
  | .execute _ command => inferInstanceAs (Decidable ((firstWord command).length ≤ cmdSize + 1))
  | .run _ | .store _ _ | .output _ | .halt _ _ | .vidmap _ _ | .tick | .screenChange _ _ => isTrue trivial

def stepOnStack (E : Platform) (a : Action) (k : Kernel) : Option Kernel :=
  if a.WordFits then (stepWith overrun E a k).filter fun k' => decide k'.PidsInRange else none

def bootOnStack (E : Platform) (st : Stack) (k : Kernel) : Option Kernel := bootWith overrun E st k

theorem stepOnStack_of_stepWith {E : Platform} {a : Action} {k k' : Kernel} (hword : a.WordFits)
    (h : stepWith overrun E a k = some k') (hpids : k'.PidsInRange) : stepOnStack E a k = some k' := by
  rw [stepOnStack, if_pos hword, h]
  exact Option.filter_some_pos (decide_eq_true hpids)

/-! ### Programs that fit -/

/-- The program that the command names, if any, ends below the lowest PCB. -/
def Fits (E : Platform) (st : Stack) (command : List UInt8) : Prop :=
  ∀ r, E.image.lookup (commandBuffers command st.cmd).1 = some (some r) →
    st.img.addr + (readProgram E st r).1.toNat ≤ pcbAddr 5

/-- All programs that the action loads fit. -/
def StackSafe (E : Platform) : Action → Kernel → Prop
  | .execute st command, _ => Fits E st command
  | .halt st _, k | .vidmap st _, k => k.cur.parentPid = -1 → Fits E st shellCommand
  | .screenChange st _, _ => Fits E st shellLine
  | _, _ => True

instance (E : Platform) (st : Stack) (command : List UInt8) : Decidable (Fits E st command) :=
  decidable_of_iff (∀ m, E.image.lookup (commandBuffers command st.cmd).1 = some m → ∀ r, m = some r →
      st.img.addr + (readProgram E st r).1.toNat ≤ pcbAddr 5)
    ⟨fun h r hr => h _ hr r rfl, fun h _ hm r hr => h r (hr ▸ hm)⟩

instance (E : Platform) : ∀ a k, Decidable (StackSafe E a k)
  | .execute st command, _ => inferInstanceAs (Decidable (Fits E st command))
  | .halt st _, k | .vidmap st _, k => inferInstanceAs (Decidable (k.cur.parentPid = -1 → Fits E st shellCommand))
  | .screenChange st _, _ => inferInstanceAs (Decidable (Fits E st shellLine))
  | .run _, _ | .store _ _, _ | .output _, _ | .tick, _ => isTrue trivial

section Fits

variable {E : Platform} {st : Stack} {command : List UInt8} {k k' : Kernel} {a : Action}

theorem overrun_of_le {progImg : Mem} {n : ℕ} (h : st.img.addr + n ≤ pcbAddr 5) (k : Kernel) :
    overrun st progImg n k = k := by
  rw [overrun, overrunPcbs, if_pos h]

/-- **Programs of at most 51 blocks fit**, wherever the frame of the call lies. -/
theorem fits_of_length (h : ∀ r, E.image.lookup (commandBuffers command st.cmd).1 = some (some r) →
    E.image.inodeLength (E.image.dentryInode r) ≤ 51 * 4096) : Fits E st command := by
  intro r hr
  have hread := (readProgram_count_le E st r).2.trans (h r hr)
  have hinside := st.img.inside
  unfold pcbAddr kernelStackBase taskStackSize progBytes at *
  omega

theorem sysExecuteWith_overrun (h : Fits E st command) (k : Kernel) :
    sysExecuteWith overrun E st command k = sysExecute E st command k :=
  sysExecuteWith_congr (fun r hr k => overrun_of_le (h r hr) k) k

theorem sysHaltWith_overrun (h : k.cur.parentPid = -1 → Fits E st shellCommand) (ebx : ℕ) :
    sysHaltWith overrun E st ebx k = sysHalt E st ebx k := by
  by_cases hroot : k.cur.parentPid = -1
  · rw [sysHalt, sysHaltWith_root overrun st ebx hroot, sysHaltWith_root apart st ebx hroot,
      sysExecuteWith_overrun (h hroot), sysExecute]
  · rw [sysHalt, sysHaltWith, sysHaltWith]
    simp only [Kernel.modify, Kernel.cur, Function.update_self] at hroot ⊢
    rw [if_neg hroot, if_neg hroot]

/-- Where all programs fit, the array might as well be apart. -/
theorem stepWith_overrun (h : StackSafe E a k) : stepWith overrun E a k = step E a k := by
  cases a with
  | run | store | output | tick => rfl
  | execute st command =>
    rw [step, stepWith, stepWith, sysExecuteWith_overrun h, sysExecute]
  | halt st ebx => rw [step, stepWith, stepWith, sysHaltWith_overrun h, sysHalt]
  | vidmap st v => rw [step, stepWith, stepWith, vidmapWith, vidmapWith, sysHaltWith_overrun h, sysHalt]
  | screenChange st n =>
    rw [step, stepWith, stepWith, screenChangeWith, screenChangeWith]
    simp only [switchToWith, sysExecuteWith_overrun h, sysExecute]

theorem bootOnStack_eq_boot (h : Fits E st shellLine) (k : Kernel) : bootOnStack E st k = boot E st k := by
  rw [bootOnStack, boot, bootWith, bootWith, sysExecuteWith_overrun h, sysExecute]

/-- **Refinement.**  Where all programs fit, what the machine does is what `step` does. -/
theorem step_of_stepOnStack (hsafe : StackSafe E a k) (h : stepOnStack E a k = some k') : step E a k = some k' := by
  rw [stepOnStack] at h
  split at h
  · rw [stepWith_overrun hsafe, Option.filter_eq_some_iff] at h
    exact h.1
  · cases h

/-- In a state between two actions of the machine of `step` all pids are in range. -/
theorem Kernel.Tracks.pidsInRange {σ : Shells} (h : k.Tracks σ) : k.PidsInRange := by
  intro p _ hlive
  obtain ⟨t, ht⟩ := (h.table.live p).mp hlive
  refine ⟨(h.table.pid p ⟨t, ht⟩).symm ▸ h.table.bound p ⟨t, ht⟩, ?_⟩
  rcases (h.table.threaded t).up_cases ht with hroot | ⟨q, hq, hup, -⟩
  · rw [show (k.proc p).parentPid = -1 from hroot]
    decide
  · have hq6 := h.table.bound q ⟨t, hq⟩
    rw [show (k.proc p).parentPid = (q : ℤ) from hup]
    omega

/-- **Nothing is lost.**  The machine does not stop where `step` does not. -/
theorem stepOnStack_eq_step {σ : Shells} (hshell : ValidShell E.image) (htracks : k.Tracks σ) (hword : a.WordFits)
    (hsafe : StackSafe E a k) : stepOnStack E a k = step E a k := by
  cases hstep : step E a k with
  | none => rw [stepOnStack, if_pos hword, stepWith_overrun hsafe, hstep, Option.filter_none]
  | some k' =>
    obtain ⟨σ', -, htracks'⟩ := (step_effect hshell htracks hstep).refines htracks
    exact stepOnStack_of_stepWith hword ((stepWith_overrun hsafe).trans hstep) htracks'.pidsInRange

end Fits

/-! ### Runs -/

/-- `k` can be reached from power-on by the actions `as`, and every program that they load fits. -/
def ReachesSafely (E : Platform) (as : List Action) (k : Kernel) : Prop :=
  ∃ k₀ st b, PowerOn k₀ ∧ bootOnStack E st k₀ = some b ∧ Meets (stepOnStack E) (StackSafe E) as b ∧
    runs (stepOnStack E) as b = some k

section Runs

variable {E : Platform} {k : Kernel}

/-- Booting comes before all processes, so that the PCBs which the shell is read over hold nothing yet. -/
theorem boot_of_bootOnStack {k₀ b : Kernel} {st : Stack} (hshell : ValidShell E.image) (hpower : PowerOn k₀)
    (hboot : bootOnStack E st k₀ = some b) : ∃ k₁, PowerOn k₁ ∧ boot E st k₁ = some b := by
  obtain ⟨r, hr⟩ := hshell
  let k₁ : Kernel := { k₀ with
    pcbs := overrunPcbs st.img (readProgram E st r).2 (readProgram E st r).1.toNat k₀.pcbs }
  have hpower₁ : PowerOn k₁ := ⟨hpower.pidBitmap, hpower.whichTerm, hpower.attemptExit, hpower.first, hpower.curProc,
    hpower.currentTerminal, hpower.numShells, hpower.keyInt, hpower.cursors⟩
  refine ⟨k₁, hpower₁, ?_⟩
  have hfree : freePid (beforeShell E k₀).pidBitmap = some 0 := by
    show freePid k₀.pidBitmap = some 0
    rw [hpower.pidBitmap]
    decide
  have hlookup := (firstWord_shellLine.symm ▸ hr : ProgramAt E.image (firstWord shellLine) r).lookup
    fun _ hj => commandBuffers_cmd shellLine st.cmd (by omega)
  rw [bootOnStack, bootWith, sysExecuteWith_launches overrun hlookup (hr.executable st) hfree] at hboot
  rw [← hboot]
  exact congrArg (Option.map Prod.snd)
    (sysExecuteWith_launches apart (k := beforeShell E k₁) hlookup (hr.executable st) hfree)

/-- **Refinement of runs.** -/
theorem ReachesSafely.reaches (hshell : ValidShell E.image) {as : List Action} (h : ReachesSafely E as k) :
    Reaches E as k := by
  obtain ⟨k₀, st, b, hpower, hboot, hsafe, hrun⟩ := h
  obtain ⟨k₁, hpower₁, hboot₁⟩ := boot_of_bootOnStack hshell hpower hboot
  refine ⟨k₁, st, hpower₁, ?_⟩
  rw [hboot₁, Option.bind_some]
  exact (runs_refine_of_meets (fun _ _ _ hsafe hstep => step_of_stepOnStack hsafe hstep) hsafe hrun).2

end Runs

/-- The shell calls `ls`, and there is a tick. -/
theorem exists_reachesSafely_ls :
    ∃ k, ReachesSafely twoProgramPlatform [.execute default (ascii "ls".toList), .tick] k := by
  have heval : ((bootOnStack twoProgramPlatform default powerOnKernel).any fun b =>
      decide (Meets (stepOnStack twoProgramPlatform) (StackSafe twoProgramPlatform)
        [.execute default (ascii "ls".toList), .tick] b) &&
      (runs (stepOnStack twoProgramPlatform) [.execute default (ascii "ls".toList), .tick] b).isSome) = true := by
    decide +kernel
  simp only [Option.any_eq_true, Bool.and_eq_true, decide_eq_true_eq, Option.isSome_iff_exists] at heval
  obtain ⟨b, hboot, hsafe, k, hrun⟩ := heval
  exact ⟨k, powerOnKernel, default, b, powerOnKernel_powerOn, hboot, hsafe, hrun⟩

/-! ### A program that does not fit -/

/-- Words `b` from address `start` up to `stop`. -/
def wordsFrom (start stop : ℕ) (b : UInt8) (m : Mem) : Mem :=
  fun i => if start ≤ i ∧ i < stop then (if i % 4 = 0 then b else 0) else m i

/-- An image with `shell`, a program of 28 bytes, and `big`, one of 63 blocks.  Behind its first block every word of
`big` is 2. -/
def bigProgramImage : Image where
  mem :=
    -- block 3, which `big` has from its second block on
    wordsFrom 24576 28672 2 <| wordsFrom 8200 8448 3 <|
    -- the boot block: two inodes, four data blocks, two directory entries
    placed 4 [2] <| placed 8 [4] <| placed 64 (ascii "shell".toList) <| placed 96 [2] <|
    placed 128 (ascii "big".toList) <| placed 160 [2] <| placed 164 [1] <|
    -- the inodes: a length and the first block number
    placed 4096 [28, 0, 0, 0, 1] <| placed 8192 [0, 0xF0, 3, 0, 2] <|
    placed 16384 [0x7F, 0x45, 0x4C, 0x46] <| placed 20480 [0x7F, 0x45, 0x4C, 0x46] fun _ => 0

def bigProgramPlatform : Platform := ⟨default, bigProgramImage⟩

def bigCommand : List UInt8 := ascii "big".toList

theorem bigProgramImage_shell : ProgramAt bigProgramImage shellCommand 0 where
  name_ne := by decide
  name_nul := by decide
  inDirectory := by decide
  named := by decide
  before i hi := absurd hi (by omega)
  regular := by decide
  inode := by decide
  length := by decide
  blocks b hb := by
    have hlen : bigProgramImage.inodeLength (bigProgramImage.dentryInode 0) = 28 := by decide
    rw [hlen, bytesPerBlock] at hb
    rw [show b = 0 by omega]
    decide
  elf := by decide

theorem bigProgramImage_length : bigProgramImage.inodeLength (bigProgramImage.dentryInode 1) = progBytes := by decide

theorem bigProgramImage_big : ProgramAt bigProgramImage bigCommand 1 where
  name_ne := by decide
  name_nul := by decide
  inDirectory := by decide
  named := by decide
  before i hi := by
    rw [show i = 0 by omega]
    exact ⟨by decide, by decide⟩
  regular := by decide
  inode := by decide
  length := by decide
  blocks b hb := by
    have hall : ∀ b < 63, bigProgramImage.dataBlock (bigProgramImage.dentryInode 1) b ≠ 0 := by decide +kernel
    rw [bigProgramImage_length, bytesPerBlock, progBytes] at hb
    exact hall b (by omega)
  elf := by decide

/-- The bytes of `big`. -/
theorem bigProgramImage_fileByte {pos : ℕ} (hlo : 4096 ≤ pos) (hhi : pos < progBytes) :
    bigProgramImage.fileByte (bigProgramImage.dentryInode 1) pos = if pos % 4 = 0 then 2 else 0 := by
  have hall : ∀ b < 63, 1 ≤ b → bigProgramImage.dataBlock (bigProgramImage.dentryInode 1) b = 3 := by decide +kernel
  have hadrs : bigProgramImage.getDatablockAdrs 3 = 24576 := by decide
  unfold progBytes at hhi
  rw [Image.fileByte, bytesPerBlock, hall (pos / 4096) (by omega) (by omega), hadrs, Image.byte,
    Nat.mod_eq_of_lt (by omega)]
  show wordsFrom 24576 28672 2 _ (24576 + pos % 4096) = _
  rw [wordsFrom, if_pos (by omega)]
  exact if_congr (by omega) rfl rfl

/-- `big` fills the array. -/
theorem readProgram_big (st : Stack) : (readProgram bigProgramPlatform st 1).1 = progBytes ∧
    ∀ pos, 4096 ≤ pos → pos < progBytes →
      (readProgram bigProgramPlatform st 1).2 pos = if pos % 4 = 0 then 2 else 0 := by
  have hbig := bigProgramImage_big
  have hcount : bigProgramImage.readCount (bigProgramImage.dentryInode 1) 0 progBytes = progBytes := by
    rw [Image.readCount, Image.clampLength, bigProgramImage_length]
    decide
  have hpos : 0 < progBytes := by decide
  have hread : readProgram bigProgramPlatform st 1 = _ :=
    Image.readData_spec hbig.inode (Nat.lt_of_lt_of_le (by decide) hbig.length) hpos hbig.blocks st.progImg
  rw [hread, hcount]
  refine ⟨rfl, fun pos hlo hhi => ?_⟩
  dsimp only
  rw [if_pos hhi, Nat.zero_add, bigProgramImage_fileByte hlo hhi]

section Overrun

variable {st : Stack}

/-- The words under the array are words of `big`. -/
theorem wordAfter_big (haligned : 4 ∣ st.img.addr) {a : ℕ} (ha : 4 ∣ a) (hlo : st.img.addr + 4096 ≤ a)
    (hhi : a + 4 ≤ st.img.addr + progBytes) (old : ℕ) :
    ¬Untouched (imgStores st.img.addr (readProgram bigProgramPlatform st 1).2 progBytes) a ∧
      wordAfter (imgStores st.img.addr (readProgram bigProgramPlatform st 1).2 progBytes) a old = 2 := by
  have hbyte : ∀ i < 4, imgStores st.img.addr (readProgram bigProgramPlatform st 1).2 progBytes (a + i)
      = some (if i = 0 then 2 else 0) := by
    intro i hi
    rw [imgStores, if_pos (by omega), (readProgram_big st).2 _ (by omega) (by omega)]
    exact congrArg some (if_congr (by omega) rfl rfl)
  have htouched : ¬Untouched (imgStores st.img.addr (readProgram bigProgramPlatform st 1).2 progBytes) a := by
    intro h
    have hfirst := h 0 (by decide)
    rw [hbyte 0 (by decide)] at hfirst
    cases hfirst
  refine ⟨htouched, ?_⟩
  rw [wordAfter, if_neg htouched, wordOf, hbyte 0 (by decide), hbyte 1 (by decide), hbyte 2 (by decide),
    hbyte 3 (by decide)]
  rfl

theorem intAfter_big (haligned : 4 ∣ st.img.addr) {a : ℕ} (ha : 4 ∣ a) (hlo : st.img.addr + 4096 ≤ a)
    (hhi : a + 4 ≤ st.img.addr + progBytes) (old : ℤ) :
    intAfter (imgStores st.img.addr (readProgram bigProgramPlatform st 1).2 progBytes) a old = 2 := by
  obtain ⟨htouched, hword⟩ := wordAfter_big haligned ha hlo hhi (toUInt32 old)
  rw [intAfter, if_neg htouched, hword]
  rfl

/-- **The PCBs under `big`.**  Where the array reaches over the PCB of process 0, all processes are left with pid 2 and
parent 2. -/
theorem overrunPcbs_big (haligned : 4 ∣ st.img.addr) (hover : pcbAddr 0 + 176 ≤ st.img.addr + progBytes)
    (pcbs : ℕ → Pcb) {p : ℕ} (hp : p < 6) :
    ((overrunPcbs st.img (readProgram bigProgramPlatform st 1).2 progBytes pcbs) (pcbAddr p)).pid = 2 ∧
    ((overrunPcbs st.img (readProgram bigProgramPlatform st 1).2 progBytes pcbs) (pcbAddr p)).parentPid = 2 := by
  have hinside := st.img.inside
  have haddr : ∀ q < 6, pcbAddr q = 0x800000 - (q + 1) * 8192 := by
    intro q _
    rw [pcbAddr, kernelStackBase, taskStackSize]
  have h0 := haddr 0 (by decide)
  have h5 := haddr 5 (by decide)
  have hpa := haddr p hp
  rw [kernelStackBase, progBytes] at hinside
  rw [progBytes] at hover
  rw [overrunPcbs, if_neg (by rw [progBytes]; omega), if_neg (by omega)]
  have hfield : ∀ off < 173, 4 ∣ off → 4 ∣ pcbAddr p + off ∧ st.img.addr + 4096 ≤ pcbAddr p + off ∧
      pcbAddr p + off + 4 ≤ st.img.addr + progBytes := by
    intro off hoff hdvd
    rw [progBytes]
    omega
  obtain ⟨hd, hlo, hhi⟩ := hfield 136 (by decide) (by decide)
  obtain ⟨hd', hlo', hhi'⟩ := hfield 156 (by decide) (by decide)
  exact ⟨(wordAfter_big haligned hd hlo hhi _).2, intAfter_big haligned hd' hlo' hhi' _⟩

/-- What a program in its array has done by the time its process is entered. -/
theorem loadedWith_overrun (E : Platform) (st : Stack) (free r : ℕ) (k : Kernel) :
    ∃ phys, k.loadedWith overrun E st free r = { k with
      pcbs := overrunPcbs st.img (readProgram E st r).2 (readProgram E st r).1.toNat k.pcbs
      paging := k.paging.setupPaging E.layout free
      phys := phys } :=
  ⟨_, rfl⟩

/-- A process that is entered is the running one, its bit is set, the flags are used up and the page tables stay. -/
theorem Kernel.enter_fields (k : Kernel) (free : ℕ) (parent term : ℤ) (progImg args : Mem) (pcbs : ℕ → Pcb)
    {k' : Kernel} (hk' : k' = k.enter free parent term progImg args pcbs) :
    k'.pcb = pcbAddr free ∧ k'.pidBitmap = k.pidBitmap ||| pidBit free ∧ k'.paging = k.paging ∧ k'.whichTerm = 0 ∧
      k'.attemptExit = false := by
  rw [hk']
  exact ⟨rfl, rfl, rfl, rfl, rfl⟩

/-- Process 1 is entered from process 0 when all PCBs say 2. -/
theorem enterProcess_under {m : Kernel} (hpcb : m.pcb = pcbAddr 0) (hbits : m.pidBitmap = 1) (hwhich : m.whichTerm = 0)
    (hexit : m.attemptExit = false) (hunder : ∀ p < 6, (m.proc p).pid = 2 ∧ (m.proc p).parentPid = 2)
    (progImg args : Mem) {k' : Kernel} (hk' : k' = enterProcess 1 progImg args m) :
    k'.pcb = pcbAddr 1 ∧ k'.pidBitmap = 3 ∧ k'.paging = m.paging ∧ (k'.proc 1).pid = 1 ∧
      ∀ p < 6, (k'.proc p).parentPid = 2 ∧ (p ≠ 1 → (k'.proc p).pid = 2) := by
  have hcur : m.cur = m.proc 0 := by rw [Kernel.cur, Kernel.proc, hpcb]
  have hne : m.pcb ≠ pcbAddr 1 := by
    rw [hpcb]
    exact fun h => absurd ((pcbAddr_inj (by decide)).mp h) (by decide)
  rw [enterProcess_child 1 progImg args hwhich hexit hne, hcur, (hunder 0 (by decide)).1] at hk'
  have hproc : ∀ p, k'.proc p = if p = 1 then (m.proc 1).fresh 1 2 (m.proc 0).curTerminal args m.cpu
      else Function.update m.pcbs m.pcb { m.proc 0 with childPid := 1 } (pcbAddr p) := by
    rw [hk']
    exact m.proc_enter (by decide) _ _ _ _ _
  obtain ⟨hpcb', hbits', hpaging', -⟩ := m.enter_fields 1 _ _ _ _ _ hk'
  refine ⟨hpcb', ?_, hpaging', by rw [hproc, if_pos rfl]; rfl, fun p hp => ?_⟩
  · rw [hbits', hbits]
    decide
  · by_cases h1 : p = 1
    · rw [hproc, if_pos h1]
      exact ⟨rfl, fun h => absurd h1 h⟩
    · rw [hproc, if_neg h1, hpcb]
      by_cases h0 : pcbAddr p = pcbAddr 0
      · rw [h0, Function.update_self]
        exact ⟨(hunder 0 (by decide)).2, fun _ => (hunder 0 (by decide)).1⟩
      · rw [Function.update_of_ne h0]
        exact ⟨(hunder p hp).2, fun _ => (hunder p hp).1⟩

/-- **Process 0 executes `big`.**  The new process 1 has process 2 for its parent, as process 0 now has. -/
theorem stepOnStack_big (haligned : 4 ∣ st.img.addr) (hover : pcbAddr 0 + 176 ≤ st.img.addr + progBytes) {k : Kernel}
    (hpcb : k.pcb = pcbAddr 0) (hbits : k.pidBitmap = 1) (hwhich : k.whichTerm = 0) (hexit : k.attemptExit = false) :
    ∃ k', stepOnStack bigProgramPlatform (.execute st bigCommand) k = some k' ∧ k'.pcb = pcbAddr 1 ∧ k'.pidBitmap = 3 ∧
      k'.paging = k.paging.setupPaging bigProgramPlatform.layout 1 ∧ (k'.proc 1).pid = 1 ∧
      ∀ p < 6, (k'.proc p).parentPid = 2 ∧ (p ≠ 1 → (k'.proc p).pid = 2) := by
  have hfree : freePid k.pidBitmap = some 1 := by
    rw [hbits]
    decide
  have hlookup : bigProgramPlatform.image.lookup (commandBuffers bigCommand st.cmd).1 = some (some 1) :=
    bigProgramImage_big.lookup fun j hj => commandBuffers_cmd bigCommand st.cmd (by omega)
  have hexec :=
    sysExecuteWith_launches (E := bigProgramPlatform) overrun hlookup (bigProgramImage_big.executable st) hfree
  obtain ⟨phys, hloaded⟩ := loadedWith_overrun bigProgramPlatform st 1 1 k
  rw [(readProgram_big st).1, Int.toNat_natCast] at hloaded
  rw [hloaded] at hexec
  obtain ⟨k', hk'⟩ : ∃ k', k' = enterProcess 1 (readProgram bigProgramPlatform st 1).2
      (commandBuffers bigCommand st.cmd).2
      { k with
        pcbs := overrunPcbs st.img (readProgram bigProgramPlatform st 1).2 progBytes k.pcbs
        paging := k.paging.setupPaging bigProgramPlatform.layout 1
        phys := phys } := ⟨_, rfl⟩
  have hunder := fun p (hp : p < 6) => overrunPcbs_big haligned hover k.pcbs hp
  obtain ⟨hpcb', hbits', hpaging', hpid', hprocs⟩ := enterProcess_under (m := { k with
      pcbs := overrunPcbs st.img (readProgram bigProgramPlatform st 1).2 progBytes k.pcbs
      paging := k.paging.setupPaging bigProgramPlatform.layout 1
      phys := phys }) hpcb hbits hwhich hexit hunder _ _ hk'
  refine ⟨k', ?_, hpcb', hbits', hpaging', hpid', hprocs⟩
  have hrange : k'.PidsInRange := by
    intro p hp _
    obtain ⟨hparent, hpid⟩ := hprocs p hp
    refine ⟨?_, by omega, by omega⟩
    by_cases h1 : p = 1
    · rw [h1, hpid']
      decide
    · rw [hpid h1]
      decide
  have hword : (Action.execute st bigCommand).WordFits := show (firstWord bigCommand).length ≤ cmdSize + 1 by decide
  refine stepOnStack_of_stepWith hword ?_ hrange
  rw [stepWith, hexec, ← hk', Option.map_some]

/-- In a system call of process 0 the array lies over all PCBs. -/
theorem default_over : pcbAddr 0 + 176 ≤ (default : Stack).img.addr + progBytes := by
  unfold pcbAddr
  decide

/-- The shell of the image fits, and is process 0 after booting. -/
theorem bootOnStack_big : ∃ b, bootOnStack bigProgramPlatform default powerOnKernel = some b ∧
    b.pcb = pcbAddr 0 ∧ b.pidBitmap = 1 ∧ b.whichTerm = 0 ∧ b.attemptExit = false ∧ b.paging
      = (powerOnKernel.paging.initilizePaging bigProgramPlatform.layout).setupPaging bigProgramPlatform.layout 0 := by
  have hfits : Fits bigProgramPlatform default shellLine := by
    refine fits_of_length fun r hr => ?_
    have hshell : ProgramAt bigProgramImage (firstWord shellLine) 0 :=
      firstWord_shellLine.symm ▸ bigProgramImage_shell
    have hfirst := hshell.lookup fun _ hj => commandBuffers_cmd shellLine (default : Stack).cmd (by omega)
    rw [show bigProgramPlatform.image = bigProgramImage from rfl, hfirst, Option.some_inj, Option.some_inj] at hr
    rw [← hr]
    decide
  have hboot := boot_eq (E := bigProgramPlatform) default bigProgramImage_shell powerOnKernel_powerOn
  rw [← bootOnStack_eq_boot hfits] at hboot
  obtain ⟨b, hb⟩ : ∃ b, b = powerOnKernel.booted bigProgramPlatform default 0 := ⟨_, rfl⟩
  obtain ⟨hpcb, hbits, hpaging, hwhich, hexit⟩ := Kernel.enter_fields _ 0 _ _ _ _ _ hb
  refine ⟨b, hboot.trans (congrArg some hb.symm), hpcb, ?_, hwhich, hexit, hpaging⟩
  rw [hbits]
  decide

end Overrun

/-! ### The process table -/

/-- **The process-table invariant, where all programs fit.**  In every state that is reached so the bitmap uses its six
low bits; links between processes are mutual and stay on a terminal; the processes of a started terminal form one chain
from a single root to a single leaf, and there are no others; the running process is a live leaf; and the subtraction of
`sys_halt` clears exactly its bit. -/
theorem process_table_invariant {E : Platform} {k : Kernel} (hshell : ValidShell E.image) (as : List Action)
    (hreach : ReachesSafely E as k) :
    (∀ p, k.Live p → p < 6) ∧
    (∀ p, k.Live p →
      ((k.proc p).parentPid = -1 ∨ ∃ q, k.Live q ∧ (k.proc p).parentPid = q ∧
        (k.proc q).childPid = p ∧ (k.proc q).curTerminal = (k.proc p).curTerminal) ∧
      ((k.proc p).childPid = -1 ∨ ∃ c, k.Live c ∧ (k.proc p).childPid = c ∧
        (k.proc c).parentPid = p)) ∧
    (∀ t, k.screen.Started t → ∃ l, k.ChainOn t l) ∧
    (∀ p, k.Live p → k.screen.Started (k.proc p).curTerminal) ∧
    (∃ p, k.Live p ∧ k.pcb = pcbAddr p ∧ k.cur.pid = p ∧ k.cur.childPid = -1) ∧
    (∀ q, (k.pidBitmap - pidBit k.cur.pid).getLsbD q
      = (k.pidBitmap.getLsbD q && decide (q ≠ k.cur.pid))) := by
  obtain ⟨σ, h⟩ := reaches_tracks hshell (hreach.reaches hshell)
  have hstack : ∀ p, k.Live p → ∃ t, p ∈ σ.table.stack t := fun p hp => (h.table.live p).mp hp
  have hlive : ∀ t, ∀ p ∈ σ.table.stack t, k.Live p := fun t p hp => (h.table.live p).mpr ⟨t, hp⟩
  obtain ⟨p, l, htop, hpcb⟩ := h.current
  have hp := Kernel.Table.holds_of_top htop
  have hcur : k.cur = k.proc p := by rw [Kernel.cur, hpcb, Kernel.proc]
  have hpid : k.cur.pid = p := by rw [hcur]; exact h.table.pid p hp
  refine ⟨?_, ?_, ?_, ?_, ?_, ?_⟩
  · exact fun p hp => h.table.bound p ((h.table.live p).mp hp)
  · intro p hp
    obtain ⟨t, ht⟩ := hstack p hp
    refine ⟨?_, ?_⟩
    · rcases (h.table.threaded t).up_cases ht with hroot | ⟨q, hq, hup, hdown⟩
      · exact Or.inl hroot
      · refine Or.inr ⟨q, hlive t q hq, hup, hdown, ?_⟩
        rw [h.table.curTerminal t q hq, h.table.curTerminal t p ht]
    · rcases (h.table.threaded t).down_cases ht with ⟨_, hleaf⟩ | ⟨c, hc, hdown, hup⟩
      · exact Or.inl hleaf
      · exact Or.inr ⟨c, hlive t c hc, hdown, hup⟩
  · exact fun t ht => ⟨_, h.chainOn ht⟩
  · intro p hp
    obtain ⟨t, ht⟩ := hstack p hp
    rw [h.table.curTerminal t p ht, ← h.started t]
    exact List.ne_nil_of_mem ht
  · have hlinks := h.table.threaded σ.current
    rw [htop] at hlinks
    exact ⟨p, (h.table.live p).mpr hp, hpcb, hpid, by rw [hcur]; exact hlinks.1⟩
  · rw [hpid]
    exact getLsbD_sub_pidBit (h.table.bound p hp) ((h.table.live p).mpr hp)

/-- After these the running process is a live leaf. -/
theorem process_table_invariant_ls : ∃ k,
    ReachesSafely twoProgramPlatform [.execute default (ascii "ls".toList), .tick] k ∧
    ∃ p, k.Live p ∧ k.pcb = pcbAddr p ∧ k.cur.pid = p ∧ k.cur.childPid = -1 := by
  obtain ⟨k, hreach⟩ := exists_reachesSafely_ls
  exact ⟨k, hreach, (process_table_invariant twoProgramPlatform_shell _ hreach).2.2.2.2.1⟩

/-- The shell executes `big`, and the new process, which is live, is the child of no live process. -/
theorem process_table_overrun : ∃ b k, bootOnStack bigProgramPlatform default powerOnKernel = some b ∧
    runs (stepOnStack bigProgramPlatform) [.execute default bigCommand] b = some k ∧ k.Live 1 ∧
    ¬((k.proc 1).parentPid = -1 ∨ ∃ q, k.Live q ∧ (k.proc 1).parentPid = q) := by
  obtain ⟨b, hboot, hpcb, hbits, hwhich, hexit, -⟩ := bootOnStack_big
  obtain ⟨k, hstep, -, hbits', -, -, hprocs⟩ := stepOnStack_big (by decide) default_over hpcb hbits hwhich hexit
  have hparent := (hprocs 1 (by decide)).1
  refine ⟨b, k, hboot, runs_cons_eq_some.mpr ⟨k, hstep, rfl⟩, ?_, ?_⟩
  · rw [Kernel.Live, hbits']
    decide
  · rw [hparent]
    rintro (hroot | ⟨q, hq, h2⟩)
    · cases hroot
    · obtain rfl : q = 2 := by omega
      rw [Kernel.Live, hbits'] at hq
      exact absurd hq (by decide)

end ClosKernel
