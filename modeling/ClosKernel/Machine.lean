import ClosKernel.Execute

/-!
# The running kernel (`schedule.c`, `pit.c`, `screenChange` of `lib.c`, `vidmap`, the end of `entry`)

The rest of the functions that change processes, and the transition system they form: `step` takes one
`Action` (a system call, an interrupt, or the running program computing) as atomic, and is `none` where the
source never comes back.  `boot` is the end of `entry`, from the values the static variables are loaded with.

* `scheduleSearch_eq_some_iff` — which process the search of `schedule` stops at;
* `tick_cases`, `sysHalt_cases`, `screenChange_cases` — everything these functions can do, each result as
  one record; proofs about runs start from them and do not unfold the functions again.
-/

namespace ClosKernel

open PartialRun

/-! ### `schedule` -/

/-- The search loop, from `curProc`.  A fruitless round of all six slots would go on forever. -/
def scheduleSearch (bitmap : BitVec 8) (pcbs : ℕ → Pcb) : ℕ → ℕ → Option ℕ
  | 0, _ => none
  | n + 1, curProc =>
    if bitmap.getLsbD curProc = false ∨ (pcbs (pcbAddr curProc)).childPid ≠ -1 then
      scheduleSearch bitmap pcbs n (if curProc + 1 = 6 then 0 else curProc + 1)
    else some curProc

/-- Saving the context of the interrupted process. -/
def saveContext (c : Context) (p : Pcb) : Pcb := { p with espSchedule := c.esp, ebpSchedule := c.ebp }

def schedule (E : Platform) (k : Kernel) : Option Kernel :=
  let oldPcb := k.pcb
  (scheduleSearch k.getBitMap k.pcbs 6 k.curProc).map fun curProc =>
    let k := { k with pcb := pcbAddr curProc }
    let k := { k with curProc := if curProc = 5 then 0 else curProc + 1 }
    if oldPcb = k.pcb then k.modify oldPcb (saveContext k.cpu)
    else
      let new : Context := { esp := k.cur.espSchedule, ebp := k.cur.ebpSchedule }
      let k := k.modify oldPcb (saveContext k.cpu)
      let k := { k with cpu := new }
      let k := { k with paging := k.paging.updatePaging E.layout k.cur.pid }
      let k := { k with tss :=
        { k.tss with esp0 := kernelStackBase - k.cur.pid * taskStackSize, ss0 := kernelDs } }
      k.sendEoi 0

def pitHandler (E : Platform) (k : Kernel) : Option Kernel :=
  (if k.getBitMap ≠ 0 then schedule E k else some k).map (Kernel.sendEoi 0)

/-! ### `screenChange` -/

/-- The copy of video memory into the backing page of the displayed terminal. -/
def Screen.saveCurrent (s : Screen) : Screen :=
  s.setPage (.term s.currentTerminal) (savePage s.videoMem (s.videoTerm s.currentTerminal))

/-- The copy of the backing page of terminal `n` into video memory, which makes it the displayed one. -/
def Screen.showTerminal (n : ℤ) (s : Screen) : Screen :=
  let s := s.setPage .video (restorePage (s.videoTerm n) s.videoMem)
  { s with currentTerminal := n }.updatecursor

def alreadyIn (n : ℤ) : List UInt8 :=
  ascii "\nAlready in terminal ".toList ++ [UInt8.ofNat (48 + n.toNat)] ++ ascii "\n391OS> ".toList

def messedUp : List UInt8 := ascii "\nHow did you mess up that badly?!\n".toList
def differentTerminal : List UInt8 := ascii "How do you have a different Terminal".toList
def higherTerminal : List UInt8 := ascii "How did you get a higher terminal".toList

/-- The state in which `screenChange` calls `sys_execute` for a terminal that has no shell yet. -/
def startTerminal (n : ℤ) (k : Kernel) : Kernel :=
  let k := k.setScreen { k.screen with numShells := k.screen.numShells ||| (termMask n).toBitVec }
  let k := k.sendEoi 1
  let k := k.setScreen { k.screen with currentTerminal := n }
  let k := k.setScreen k.screen.clear
  { k with whichTerm := termMask n }

/-- The three cases of `switch(newScreen)`, which differ in the terminal and its mask only. -/
def switchToWith (spill : Spill) (E : Platform) (st : Stack) (n : ℤ) (k : Kernel) : Option Kernel :=
  if k.getBitMap = 0x3F ∧ k.screen.numShells &&& (termMask n).toBitVec = 0 then some k
  else if k.screen.numShells &&& (termMask n).toBitVec = 0 then
    (sysExecuteWith spill E st shellLine (startTerminal n k)).map fun
      | (.launched, k) => k
      | (_, k) => k.setScreen (k.screen.showTerminal n)
  else some (k.setScreen (k.screen.showTerminal n))

def switchTo (E : Platform) (st : Stack) (n : ℤ) (k : Kernel) : Option Kernel := switchToWith apart E st n k

def IsTerminal (n : ℤ) : Prop := n = 1 ∨ n = 2 ∨ n = 3

instance (n : ℤ) : Decidable (IsTerminal n) := inferInstanceAs (Decidable (_ ∨ _))

def screenChangeWith (spill : Spill) (E : Platform) (st : Stack) (newScreen : ℤ) (k : Kernel) : Option Kernel :=
  if newScreen = k.screen.currentTerminal then
    if IsTerminal newScreen then
      let k := (k.printf (alreadyIn newScreen)).clearbuf
      some (k.setScreen k.screen.updatecursor)
    else
      let k := k.printf messedUp
      some (k.setScreen k.screen.updatecursor)
  else
    let k :=
      if IsTerminal k.screen.currentTerminal then k.setScreen k.screen.saveCurrent
      else k.printf differentTerminal
    if IsTerminal newScreen then switchToWith spill E st newScreen k
    else some (k.printf higherTerminal)

def screenChange (E : Platform) (st : Stack) (newScreen : ℤ) (k : Kernel) : Option Kernel :=
  screenChangeWith apart E st newScreen k

/-! ### `vidmap` -/

def progVirAddrStart : ℕ := 0x8000000
def progPageSize : ℕ := 0x400000

/-- The four bytes of a stored word. -/
def wordBytes (w : ℕ) : Mem := fun i => UInt8.ofNat (w / 2 ^ (8 * i) % 2 ^ 8)

/-- `vidmap`.  A pointer in the last three bytes of the program page makes the store reach the next page: if that
page is not mapped the store faults and `exception_user_program` halts the process. -/
def vidmapWith (spill : Spill) (E : Platform) (st : Stack) (screenStart : ℕ) (k : Kernel) :
    Option (Outcome × Kernel) :=
  if screenStart < progVirAddrStart ∨ progVirAddrStart + progPageSize ≤ screenStart then
    some (.ret (-1), k)
  else if ¬(k.paging.translate E.layout k.paging.cr3 (screenStart + 3)).isSome then
    sysHaltWith spill E st 256 k
  else
    let word := wordBytes (progVirAddrStart + progPageSize)
    let k := { k with phys := copyOut E.layout k.paging screenStart word 4 k.phys }
    some (.ret 0, { k with
      paging := k.paging.addVidmap E.layout k.cur.pid (progVirAddrStart + progPageSize) })

def vidmap (E : Platform) (st : Stack) (screenStart : ℕ) (k : Kernel) : Option (Outcome × Kernel) :=
  vidmapWith apart E st screenStart k

/-! ### The transition system -/

inductive Action where
  /-- The running process computes: its registers change. -/
  | run (ctx : Context)
  /-- The running program, or `sys_read` or `sys_getargs` for it, stores a byte into the program's page. -/
  | store (off : Fin 0x400000) (b : UInt8)
  /-- Bytes sent to `putc` while the running process is current. -/
  | output (bytes : List UInt8)
  | execute (st : Stack) (command : List UInt8)
  | halt (st : Stack) (ebx : ℕ)
  | vidmap (st : Stack) (screenStart : ℕ)
  /-- A PIT interrupt. -/
  | tick
  | screenChange (st : Stack) (newScreen : ℤ)

def stepWith (spill : Spill) (E : Platform) : Action → Kernel → Option Kernel
  | .run ctx, k => some { k with cpu := ctx }
  | .store off b, k => some { k with
      phys := copyOut E.layout k.paging (progVirAddrStart + off) (fun _ => b) 1 k.phys }
  | .output bytes, k => some (k.printf bytes)
  | .execute st command, k => (sysExecuteWith spill E st command k).map Prod.snd
  | .halt st ebx, k => (sysHaltWith spill E st ebx k).map Prod.snd
  | .vidmap st screenStart, k => (vidmapWith spill E st screenStart k).map Prod.snd
  | .tick, k => pitHandler E { k with isr := Function.update k.isr 0 true }
  | .screenChange st newScreen, k => screenChangeWith spill E st newScreen k

def step (E : Platform) (a : Action) (k : Kernel) : Option Kernel := stepWith apart E a k

/-- The static variables as the kernel image initialises them; memory and registers hold anything. -/
structure PowerOn (k : Kernel) : Prop where
  pidBitmap : k.pidBitmap = 0
  whichTerm : k.whichTerm = 0
  attemptExit : k.attemptExit = false
  first : k.first = false
  curProc : k.curProc = 0
  currentTerminal : k.screen.currentTerminal = 0
  numShells : k.screen.numShells = 0
  keyInt : k.screen.keyInt = false
  cursors : ∀ t, k.screen.screenX t = 0 ∧ k.screen.screenY t = 0

/-- The state in which `entry` executes the first shell. -/
def beforeShell (E : Platform) (k : Kernel) : Kernel :=
  let k := { k with paging := k.paging.initilizePaging E.layout }
  let k := k.setScreen k.screen.clear
  { k with whichTerm := 0x01 }

def bootWith (spill : Spill) (E : Platform) (st : Stack) (k : Kernel) : Option Kernel :=
  (sysExecuteWith spill E st shellLine (beforeShell E k)).map Prod.snd

def boot (E : Platform) (st : Stack) (k : Kernel) : Option Kernel := bootWith apart E st k

/-- `k` can be reached from power-on by the actions `as`. -/
def Reaches (E : Platform) (as : List Action) (k : Kernel) : Prop :=
  ∃ k₀ st, PowerOn k₀ ∧ (boot E st k₀).bind (runs (step E) as) = some k

/-! ### What `schedule` picks -/

/-- Process `p` is live and has no running child. -/
def Kernel.Runnable (k : Kernel) (p : ℕ) : Prop := k.Live p ∧ (k.proc p).childPid = -1

instance (k : Kernel) (p : ℕ) : Decidable (k.Runnable p) := inferInstanceAs (Decidable (_ ∧ _))

/-- The search stops at the first runnable slot in cyclic order from `c`. -/
theorem scheduleSearch_eq_some_iff (k : Kernel) {c : ℕ} (hc : c < 6) (n p : ℕ) :
    scheduleSearch k.getBitMap k.pcbs n c = some p ↔
      ∃ i < n, p = (c + i) % 6 ∧ k.Runnable p ∧ ∀ j < i, ¬k.Runnable ((c + j) % 6) := by
  induction n generalizing c with
  | zero => simp [scheduleSearch]
  | succ n ih =>
    have hskip : (k.getBitMap.getLsbD c = false ∨ (k.pcbs (pcbAddr c)).childPid ≠ -1) ↔
        ¬k.Runnable c := by
      rw [Kernel.Runnable, Kernel.Live, not_and_or, Bool.not_eq_true]
      rfl
    have hnext : (if c + 1 = 6 then 0 else c + 1) = (c + 1) % 6 := by
      split <;> omega
    have hshift : ∀ i, ((c + 1) % 6 + i) % 6 = (c + (i + 1)) % 6 := fun i => by omega
    rw [scheduleSearch]
    by_cases hrun : k.Runnable c
    · rw [if_neg (fun h => hskip.mp h hrun), Option.some_inj]
      constructor
      · rintro rfl
        exact ⟨0, by omega, by omega, hrun, fun j hj => absurd hj (by omega)⟩
      · rintro ⟨i, _, hp, _, hbefore⟩
        cases i with
        | zero => omega
        | succ i => exact absurd hrun (by simpa [Nat.mod_eq_of_lt hc] using hbefore 0 (by omega))
    · rw [if_pos (hskip.mpr hrun), hnext, ih (by omega)]
      constructor
      · rintro ⟨i, hi, hp, hprun, hbefore⟩
        refine ⟨i + 1, by omega, by rw [hp, hshift], hprun, fun j hj => ?_⟩
        cases j with
        | zero => rwa [Nat.add_zero, Nat.mod_eq_of_lt hc]
        | succ j => rw [← hshift]; exact hbefore j (by omega)
      · rintro ⟨i, hi, hp, hprun, hbefore⟩
        cases i with
        | zero =>
          rw [Nat.add_zero, Nat.mod_eq_of_lt hc] at hp
          exact absurd (hp ▸ hprun) hrun
        | succ i =>
          refine ⟨i, by omega, by rw [hp, hshift], hprun, fun j hj => ?_⟩
          rw [hshift]
          exact hbefore (j + 1) (by omega)

/-- As long as some process can run, the search ends. -/
theorem scheduleSearch_isSome (k : Kernel) {c p : ℕ} (hc : c < 6) (hp : p < 6) (hrun : k.Runnable p) :
    (scheduleSearch k.getBitMap k.pcbs 6 c).isSome := by
  -- the first offset at which a runnable slot is met
  have hex : ∃ i, k.Runnable ((c + i) % 6) :=
    ⟨p + 6 - c, by rwa [show (c + (p + 6 - c)) % 6 = p from by omega]⟩
  have hlt : Nat.find hex < 6 := by
    refine Nat.lt_of_le_of_lt (Nat.find_min' hex (m := (p + 6 - c) % 6) ?_) (Nat.mod_lt _ (by decide))
    rwa [show (c + (p + 6 - c) % 6) % 6 = p from by omega]
  rw [Option.isSome_iff_exists]
  exact ⟨_, (scheduleSearch_eq_some_iff k hc 6 _).mpr
    ⟨Nat.find hex, hlt, rfl, Nat.find_spec hex, fun j hj => Nat.find_min hex hj⟩⟩

/-- `schedule` picked the running process again. -/
def Kernel.reselected (p : ℕ) (k : Kernel) : Kernel :=
  { k with
    curProc := if p = 5 then 0 else p + 1
    pcbs := Function.update k.pcbs k.pcb (saveContext k.cpu k.cur) }

/-- `schedule` switched to process `p`. -/
def Kernel.switchedTo (E : Platform) (p : ℕ) (k : Kernel) : Kernel :=
  { k with
    pcb := pcbAddr p
    curProc := if p = 5 then 0 else p + 1
    pcbs := Function.update k.pcbs k.pcb (saveContext k.cpu k.cur)
    cpu := { esp := (k.proc p).espSchedule, ebp := (k.proc p).ebpSchedule }
    paging := k.paging.updatePaging E.layout (k.proc p).pid
    tss := { k.tss with esp0 := kernelStackBase - (k.proc p).pid * taskStackSize, ss0 := kernelDs } }

theorem Kernel.sendEoi_eq (irqNum : ℕ) (k : Kernel) : ∃ isr, k.sendEoi irqNum = { k with isr := isr } := by
  unfold Kernel.sendEoi
  split
  · split
    · exact ⟨_, rfl⟩
    · exact ⟨_, rfl⟩
  · exact ⟨k.isr, rfl⟩

section Inversion

variable {E : Platform} {st : Stack} {k k' : Kernel}

theorem schedule_eq (k : Kernel) {p : ℕ}
    (hsearch : scheduleSearch k.getBitMap k.pcbs 6 k.curProc = some p) :
    schedule E k = some (if k.pcb = pcbAddr p then k.reselected p
      else (k.switchedTo E p).sendEoi 0) := by
  rw [schedule]
  dsimp only
  rw [hsearch, Option.map_some]
  refine congrArg some ?_
  by_cases hsame : k.pcb = pcbAddr p
  · rw [if_pos hsame, if_pos hsame, Kernel.reselected, Kernel.modify, Kernel.cur, ← hsame]
  · have hnew : ∀ q, Function.update k.pcbs k.pcb q (pcbAddr p) = k.pcbs (pcbAddr p) :=
      fun q => Function.update_of_ne (fun h => hsame h.symm) q k.pcbs
    rw [if_neg hsame, if_neg hsame]
    simp only [Kernel.switchedTo, Kernel.modify, Kernel.cur, Kernel.proc, hnew]

/-- **Everything a tick can do**, up to the interrupt controller. -/
theorem tick_cases (hc : k.curProc < 6) (h : step E .tick k = some k') :
    ∃ isr, (k.pidBitmap = 0 ∧ k' = { k with isr := isr }) ∨
      ∃ p < 6, k.Runnable p ∧
        ((k.pcb = pcbAddr p ∧ k' = { k.reselected p with isr := isr }) ∨
         (k.pcb ≠ pcbAddr p ∧ k' = { k.switchedTo E p with isr := isr })) := by
  rw [step, stepWith, pitHandler] at h
  by_cases hempty : k.pidBitmap = 0
  · rw [if_neg (by simp [Kernel.getBitMap, hempty]), Option.map_some, Option.some_inj] at h
    obtain ⟨isr, heoi⟩ := Kernel.sendEoi_eq 0 { k with isr := Function.update k.isr 0 true }
    exact ⟨isr, Or.inl ⟨hempty, by rw [← h, heoi]⟩⟩
  · rw [if_pos (by exact hempty)] at h
    obtain ⟨m, hm, rfl⟩ := Option.map_eq_some_iff.mp h
    have hmem := hm
    rw [schedule] at hm
    obtain ⟨p, hp, -⟩ := Option.map_eq_some_iff.mp hm
    have hpick := (scheduleSearch_eq_some_iff k hc 6 p).mp hp
    obtain ⟨i, _, hpi, hrun, _⟩ := hpick
    rw [schedule_eq _ (by exact hp), Option.some_inj] at hmem
    dsimp only at hmem
    by_cases hsame : k.pcb = pcbAddr p
    · rw [if_pos hsame] at hmem
      obtain ⟨isr, heoi⟩ := Kernel.sendEoi_eq 0 m
      exact ⟨isr, Or.inr ⟨p, by omega, hrun, Or.inl ⟨hsame, by rw [heoi, ← hmem]; rfl⟩⟩⟩
    · rw [if_neg hsame] at hmem
      obtain ⟨isr, heoi⟩ := Kernel.sendEoi_eq 0 m
      obtain ⟨isr', heoi'⟩ := Kernel.sendEoi_eq 0
        (Kernel.switchedTo E p { k with isr := Function.update k.isr 0 true })
      exact ⟨isr, Or.inr ⟨p, by omega, hrun, Or.inr ⟨hsame, by rw [heoi, ← hmem, heoi']; rfl⟩⟩⟩

/-- The halting process with its files closed and its pid given back. -/
def Kernel.dying (ebx : ℕ) (k : Kernel) : Kernel :=
  { k with
    programException := decide (ebx = 256)
    pcbs := Function.update k.pcbs k.pcb { k.cur with
      fileArray := upto (fun i a => Function.update a i { a i with flags := flagClose }) maxOpenFiles
        k.cur.fileArray }
    pidBitmap := k.pidBitmap - pidBit k.cur.pid }

/-- A root shell has halted and is to be replaced. -/
def Kernel.restarting (ebx : ℕ) (k : Kernel) : Kernel := { k.dying ebx with attemptExit := true }

/-- The parent of the halting process takes over. -/
def Kernel.resumedParent (E : Platform) (ebx : ℕ) (k : Kernel) : Kernel :=
  let parent := k.proc k.cur.parentPid.toNat
  { k.dying ebx with
    pcb := pcbAddr k.cur.parentPid.toNat
    pcbs := Function.update (k.dying ebx).pcbs (pcbAddr k.cur.parentPid.toNat)
      { parent with childPid := -1 }
    cpu := { esp := k.cur.parentEsp, ebp := k.cur.parentEbp }
    paging := k.paging.updatePaging E.layout parent.pid
    tss := { k.tss with esp0 := kernelStackBase - parent.pid * taskStackSize, ss0 := kernelDs } }

/-- A process with a parent hands over to it. -/
theorem sysHaltWith_back (spill : Spill) (st : Stack) (ebx : ℕ) (hne : k.cur.parentPid ≠ -1)
    (hself : pcbAddr k.cur.parentPid.toNat ≠ k.pcb) :
    sysHaltWith spill E st ebx k = some (.resumed (ebx % 2 ^ 8), k.resumedParent E ebx) := by
  rw [sysHaltWith]
  simp only [Kernel.modify, Kernel.cur, Function.update_self] at hne hself ⊢
  rw [if_neg hne]
  simp only [Kernel.resumedParent, Kernel.dying, Kernel.cur, Kernel.proc, Function.update_self,
    Function.update_of_ne hself, Function.update_of_ne hself.symm]

/-- A root shell is replaced. -/
theorem sysHaltWith_root (spill : Spill) (st : Stack) (ebx : ℕ) (hroot : k.cur.parentPid = -1) :
    sysHaltWith spill E st ebx k = sysExecuteWith spill E st shellCommand (k.restarting ebx) := by
  rw [sysHaltWith]
  simp only [Kernel.modify, Kernel.cur, Function.update_self] at hroot ⊢
  rw [if_pos hroot]
  rfl

/-- **Everything `sys_halt` can do**: hand over to the parent, or replace a root shell. -/
theorem sysHalt_cases {ebx : ℕ} {o : Outcome}
    (hself : k.cur.parentPid ≠ -1 → pcbAddr k.cur.parentPid.toNat ≠ k.pcb)
    (h : sysHalt E st ebx k = some (o, k')) :
    (k.cur.parentPid = -1 ∧
      sysExecute E st shellCommand (k.restarting ebx) = some (o, k')) ∨
    (k.cur.parentPid ≠ -1 ∧ o = .resumed (ebx % 2 ^ 8) ∧ k' = k.resumedParent E ebx) := by
  by_cases hroot : k.cur.parentPid = -1
  · rw [sysHalt, sysHaltWith_root apart st ebx hroot] at h
    exact Or.inl ⟨hroot, h⟩
  · rw [sysHalt, sysHaltWith_back apart st ebx hroot (hself hroot), Option.some_inj, Prod.mk.injEq] at h
    exact Or.inr ⟨hroot, h.1.symm, h.2.symm⟩

end Inversion

/-! ### Started terminals -/

/-- Terminal `t` has been given a shell. -/
def Screen.Started (s : Screen) (t : ℤ) : Prop :=
  IsTerminal t ∧ s.numShells &&& (termMask t).toBitVec ≠ 0

theorem and_pidBit_ne_zero_iff (b : BitVec 8) {i : ℕ} (hi : i < 6) :
    b &&& pidBit i ≠ 0 ↔ b.getLsbD i = true := by
  constructor
  · intro hne
    by_contra hbit
    refine hne (BitVec.eq_of_getLsbD_eq fun j _ => ?_)
    rw [BitVec.getLsbD_and, getLsbD_pidBit hi]
    by_cases hj : j = i
    · simpa [hj] using hbit
    · simp [hj]
  · intro hbit hzero
    have hb : (b &&& pidBit i).getLsbD i = false := by rw [hzero]; simp
    rw [BitVec.getLsbD_and, getLsbD_pidBit hi, hbit] at hb
    simp at hb

/-- The masks are the bits below the terminals' numbers. -/
theorem termMask_eq {t : ℤ} (ht : IsTerminal t) : (termMask t).toBitVec = pidBit (t - 1).toNat := by
  rcases ht with rfl | rfl | rfl <;> rfl

theorem Screen.started_or {s s' : Screen} {n : ℤ} (hn : IsTerminal n)
    (hs : s'.numShells = s.numShells ||| (termMask n).toBitVec) (t : ℤ) :
    s'.Started t ↔ t = n ∨ s.Started t := by
  have hn6 : (n - 1).toNat < 6 := by rcases hn with rfl | rfl | rfl <;> decide
  rw [Screen.Started, Screen.Started, hs]
  by_cases ht : IsTerminal t
  · have ht6 : (t - 1).toNat < 6 := by rcases ht with rfl | rfl | rfl <;> decide
    have heq : (t - 1).toNat = (n - 1).toNat ↔ t = n := by
      rcases ht with rfl | rfl | rfl <;> rcases hn with rfl | rfl | rfl <;> decide
    rw [termMask_eq ht, termMask_eq hn, and_pidBit_ne_zero_iff _ ht6, and_pidBit_ne_zero_iff _ ht6,
      getLsbD_or_pidBit _ hn6, Bool.or_eq_true, decide_eq_true_iff, heq]
    tauto
  · have hne : t ≠ n := fun h => ht (h ▸ hn)
    tauto

/-- A kernel about to execute the shell of terminal `n`. -/
def Kernel.starting (k : Kernel) (s : Screen) (isr : ℕ → Bool) (n : ℤ) : Kernel :=
  { k with screen := s, isr := isr, whichTerm := termMask n }

/-- The screen on which the shell of a new terminal `n` starts. -/
def Screen.opening (n : ℤ) (s : Screen) : Screen :=
  { s with numShells := s.numShells ||| (termMask n).toBitVec, currentTerminal := n }.clear

theorem startTerminal_eq (n : ℤ) (k : Kernel) :
    ∃ isr, startTerminal n k = k.starting (k.screen.opening n) isr n := by
  obtain ⟨isr, heoi⟩ := Kernel.sendEoi_eq 1
    (k.setScreen { k.screen with numShells := k.screen.numShells ||| (termMask n).toBitVec })
  refine ⟨isr, ?_⟩
  rw [startTerminal]
  dsimp only
  rw [heoi]
  rfl

/-- The screen once `screenChange` has saved the displayed page. -/
def Kernel.savedScreen (k : Kernel) : Screen :=
  if IsTerminal k.screen.currentTerminal then k.screen.saveCurrent
  else k.screen.puts k.cur.curTerminal differentTerminal

theorem Kernel.savedScreen_numShells (k : Kernel) : k.savedScreen.numShells = k.screen.numShells := by
  unfold savedScreen
  split
  · exact Screen.setPage_numShells ..
  · exact (k.screen.puts_statics _ _).2.1

section Change

variable {E : Platform} {st : Stack} {k k' : Kernel} {n : ℤ}

/-- **Everything `screenChange` can do**: complain about the displayed terminal or about a number that is none,
show a terminal that has a shell, refuse for want of a pid, or start the shell of a new terminal. -/
inductive ScreenChange (E : Platform) (st : Stack) (n : ℤ) (k : Kernel) : Kernel → Prop
  | again (hsame : n = k.screen.currentTerminal) (hn : IsTerminal n) : ScreenChange E st n k
      { k with
        screen := (k.screen.puts k.cur.curTerminal (alreadyIn n)).updatecursor
        tty := k.clearbuf.tty }
  | lost (hsame : n = k.screen.currentTerminal) (hn : ¬IsTerminal n) : ScreenChange E st n k
      { k with screen := (k.screen.puts k.cur.curTerminal messedUp).updatecursor }
  | shown (hne : n ≠ k.screen.currentTerminal) (hstarted : k.screen.Started n) : ScreenChange E st n k
      { k with screen := k.savedScreen.showTerminal n }
  | refused (hne : n ≠ k.screen.currentTerminal) (hn : IsTerminal n) (hnew : ¬k.screen.Started n)
      (hfull : k.pidBitmap = 0x3F) : ScreenChange E st n k { k with screen := k.savedScreen }
  | opened (hne : n ≠ k.screen.currentTerminal) (hn : IsTerminal n) (hnew : ¬k.screen.Started n)
      (hfull : k.pidBitmap ≠ 0x3F) {isr : ℕ → Bool} {o : Outcome} {m : Kernel}
      (hexec : sysExecute E st shellLine (k.starting (k.savedScreen.opening n) isr n) = some (o, m)) :
      ScreenChange E st n k (if o = .launched then m else m.setScreen (m.screen.showTerminal n))
  | higher (hne : n ≠ k.screen.currentTerminal) (hn : ¬IsTerminal n) : ScreenChange E st n k
      { k with screen := k.savedScreen.puts k.cur.curTerminal higherTerminal }

theorem screenChange_cases (h : screenChange E st n k = some k') : ScreenChange E st n k k' := by
  rw [screenChange, screenChangeWith] at h
  by_cases hsame : n = k.screen.currentTerminal
  · rw [if_pos hsame] at h
    by_cases hn : IsTerminal n
    · rw [if_pos hn, Option.some_inj] at h
      exact h ▸ .again hsame hn
    · rw [if_neg hn, Option.some_inj] at h
      exact h ▸ .lost hsame hn
  · have hsaved : (if IsTerminal k.screen.currentTerminal then k.setScreen k.screen.saveCurrent
        else k.printf differentTerminal) = k.setScreen k.savedScreen := by
      rw [Kernel.savedScreen]
      by_cases hcur : IsTerminal k.screen.currentTerminal
      · rw [if_pos hcur, if_pos hcur]
      · rw [if_neg hcur, if_neg hcur]
        rfl
    rw [if_neg hsame, hsaved] at h
    by_cases hn : IsTerminal n
    · have hmask : (k.setScreen k.savedScreen).screen.numShells = k.screen.numShells :=
        k.savedScreen_numShells
      rw [if_pos hn, switchToWith, hmask] at h
      by_cases hstarted : k.screen.Started n
      · rw [if_neg (fun hc => hstarted.2 hc.2), if_neg hstarted.2, Option.some_inj] at h
        exact h ▸ .shown hsame hstarted
      · have hzero : k.screen.numShells &&& (termMask n).toBitVec = 0 := by
          by_contra hne
          exact hstarted ⟨hn, hne⟩
        by_cases hfull : k.pidBitmap = 0x3F
        · rw [if_pos ⟨hfull, hzero⟩, Option.some_inj] at h
          exact h ▸ .refused hsame hn hstarted hfull
        · rw [if_neg (fun hc => hfull hc.1), if_pos hzero] at h
          obtain ⟨⟨o, m⟩, hexec, hk'⟩ := Option.map_eq_some_iff.mp h
          obtain ⟨isr, hstart⟩ := startTerminal_eq n (k.setScreen k.savedScreen)
          rw [hstart] at hexec
          have hopen := ScreenChange.opened (k := k) hsame hn hstarted hfull hexec
          cases o <;> exact hk' ▸ hopen
    · rw [if_neg hn, Option.some_inj] at h
      exact h ▸ .higher hsame hn

end Change

end ClosKernel
