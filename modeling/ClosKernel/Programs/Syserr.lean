import ClosKernel.Programs.Shell
import ClosKernel.SystemCall
import Mathlib.Data.List.Forall2

/-!
# The error tests (`ece391syserr.c`)

`syserr` makes system calls that have to be refused, and reports whether they are.  Of its eight tests only the third
one changes anything, the descriptors: it opens the directory until there is no descriptor left, and closes them again.

* `ensures_read_refused`, `ensures_write_refused`, `ensures_close_refused`, `ensures_open_full` — calls that are
  refused;
* `callSys_runs` — `call_sys` is what the machine makes of its two instructions;
* `ensures_openLots`, `ensures_closeSix` — all six descriptors can be opened, the seventh call fails, and all of them
  can be closed;
* `syserr_passes` — **every test passes**, whichever of them the user chooses.
-/

namespace ClosKernel

open StateProgram

/-! ### The program -/

def ece391Vidmap (E : Platform) (screenStart : ℕ) : Prog Process ℤ := fun s =>
  (vidmap E (s.turns 0).stack screenStart s.resumed).bind fun
    | (.ret value, k) => some (value, s.returned k [])
    | (_, _) => none

/-- `call_sys`, for a number that `syscall_handler` refuses; with another number the call goes to a function of the
kernel, with whatever is in the registers. -/
def callSys (num : ℤ) : Prog Process ℤ := fun s =>
  if NoSystemCall num then some (-1, s.returned s.resumed []) else none

def negFd : ℤ := -1073741823
def bigFd : ℤ := 1073741823
def bigNum : ℤ := 1073741823
def negNum : ℤ := -1073741823

/-- What follows a call that has returned `r`: `if (-1 != r) { fail = 2; ece391_fdputs (1, text); }`. -/
def mustFail (r : ℤ) (text : List UInt8) (fail : ℤ) : Prog Process ℤ :=
  if r ≠ -1 then do
    ece391Fdputs 1 (literal text)
    pure 2
  else pure fail

def passText (name : List UInt8) : List UInt8 := name ++ ascii ": PASS\n".toList
def failText (name : List UInt8) : List UInt8 := name ++ ascii ": FAIL\n".toList

/-- The end of a test. -/
def reportTest (name : List UInt8) (fail : ℤ) : Prog Process ℤ :=
  if fail ≠ 0 then do
    ece391Fdputs 1 (literal (failText name))
    pure fail
  else do
    ece391Fdputs 1 (literal (passText name))
    pure fail

def errNegFdName : List UInt8 := ascii "err_neg_fd".toList
def errBigFdName : List UInt8 := ascii "err_big_fd".toList
def errOpenLotsName : List UInt8 := ascii "err_open_lots".toList
def errOpenName : List UInt8 := ascii "err_open".toList
def errUnopenedName : List UInt8 := ascii "err_unopened".toList
def errVidmapName : List UInt8 := ascii "err_vidmap".toList
def errStdinOutName : List UInt8 := ascii "err_stdin_out".toList
def errSyscallNumName : List UInt8 := ascii "err_syscall_num".toList

/-- The first two tests, which differ in the descriptor.  `buf` is what their buffer holds at the start. -/
def errFd (name : List UInt8) (fd : ℤ) (E : Platform) (buf : Mem) : Prog Process ℤ := do
  let (r, buf) ← ece391Read E fd buf 31
  let fail ← mustFail r (ascii "read fail\n".toList) 0
  let r ← ece391Write fd buf 31
  let fail ← mustFail r (ascii "write fail\n".toList) fail
  let r ← ece391Close fd
  let fail ← mustFail r (ascii "close fail\n".toList) fail
  reportTest name fail

def errNegFd : Platform → Mem → Prog Process ℤ := errFd errNegFdName negFd

def errBigFd : Platform → Mem → Prog Process ℤ := errFd errBigFdName bigFd

/-- `for (i = 0; i < m; i++)`: the calls that fail are counted. -/
def openLots (E : Platform) (m : ℕ) : Prog Process ℤ :=
  forEach (fun _ cnt => do
    let fd ← ece391Open E (literal dotName)
    pure (if fd = -1 then cnt + 1 else cnt)) m 0 0

/-- `for(i = 2; i < 8; i++)`. -/
def closeSix : Prog Process Unit :=
  forEach (fun i _ => do
    let _ ← ece391Close i
    pure ()) 6 2 ()

def errOpenLots (E : Platform) : Prog Process ℤ := do
  let cnt ← openLots E 7
  closeSix
  if cnt = 1 then do
    ece391Fdputs 1 (literal (passText errOpenLotsName))
    pure 0
  else do
    ece391Fdputs 1 (literal (failText errOpenLotsName))
    pure 2

def hellooName : List UInt8 := ascii "helloo".toList
def shelName : List UInt8 := ascii "shel".toList

def errOpen (E : Platform) : Prog Process ℤ := do
  let r ← ece391Open E (literal hellooName)
  let fail ← mustFail r (ascii "'helloo' fail\n".toList) 0
  let r ← ece391Open E (literal shelName)
  let fail ← mustFail r (ascii "'shel' fail\n".toList) fail
  let r ← ece391Open E (literal [])
  let fail ← mustFail r (ascii "empty string fail\n".toList) fail
  reportTest errOpenName fail

def errUnopened (E : Platform) (buf : Mem) : Prog Process ℤ := do
  let fail ← forEach (fun i fail => do
    let r ← ece391Close i
    mustFail r (ascii "close unopened or invalid fd fail\n".toList) fail) 8 0 0
  let (fail, buf) ← forEach (fun i (fail, buf) => do
    let (r, buf) ← ece391Read E i buf 31
    let fail ← mustFail r (ascii "read from unopened fd fail\n".toList) fail
    pure (fail, buf)) 6 2 (fail, buf)
  let fail ← forEach (fun i fail => do
    let r ← ece391Write i buf 31
    mustFail r (ascii "write to unopened fd fail\n".toList) fail) 6 2 fail
  reportTest errUnopenedName fail

def errVidmap (E : Platform) : Prog Process ℤ := do
  let r ← ece391Vidmap E 0
  let fail ← mustFail r (ascii "Null pointer fail\n".toList) 0
  let r ← ece391Vidmap E 0x400000
  let fail ← mustFail r (ascii "Kernel pointer fail fail\n".toList) fail
  reportTest errVidmapName fail

def errStdinOut (E : Platform) (buf : Mem) : Prog Process ℤ := do
  let r ← ece391Write 0 buf 31
  let fail ← mustFail r (ascii "write to stdin fail\n".toList) 0
  let (r, _) ← ece391Read E 1 buf 31
  let fail ← mustFail r (ascii "read from stdout fail\n".toList) fail
  reportTest errStdinOutName fail

/-- The texts of the three calls are not in the order of the numbers. -/
def errSyscallNum : Prog Process ℤ := do
  let r ← callSys bigNum
  let fail ← mustFail r (ascii "syscall 0 fail\n".toList) 0
  let r ← callSys negNum
  let fail ← mustFail r (ascii "big num syscall fail\n".toList) fail
  let r ← callSys 0
  let fail ← mustFail r (ascii "neg num syscall fail\n".toList) fail
  reportTest errSyscallNumName fail

/-- The tests, in their order; `junk` is what their buffers hold at the start. -/
def errTests (E : Platform) (junk : Mem) : List (Prog Process ℤ) :=
  [errNegFd E junk, errBigFd E junk, errOpenLots E, errOpen E, errUnopened E junk, errVidmap E, errStdinOut E junk,
    errSyscallNum]

/-- `fail += test ()`, for one test after the other. -/
def runTests : List (Prog Process ℤ) → ℤ → Prog Process ℤ
  | [], fail => pure fail
  | test :: tests, fail => do
    let r ← test
    runTests tests (fail + r)

def chooseTest : List UInt8 := ascii "Choose from tests 1-8. 0 to run all: ".toList
def cannotReadTest : List UInt8 := ascii "Can't read test #\n".toList
def overallPass : List UInt8 := ascii "\nOverall Tests: PASS\n".toList
def overallFail : List UInt8 := ascii "\nOverall Tests: FAIL\n".toList
def invalidTest : List UInt8 := ascii "Invalid test number. Choose from tests 1-8 or 0".toList

/-- `default` of the `switch`. -/
def refuseTest : Prog Process ℤ := do
  ece391Fdputs 1 (literal invalidTest)
  pure 0

/-- The `switch`. -/
def selectTest (E : Platform) (junk : Mem) (select : ℤ) : Prog Process ℤ :=
  if select = 0 then do
    let fail ← runTests (errTests E junk) 0
    if fail ≠ 0 then do
      ece391Fdputs 1 (literal overallFail)
      pure fail
    else do
      ece391Fdputs 1 (literal overallPass)
      pure fail
  else if 1 ≤ select then ((errTests E junk)[(select - 1).toNat]?).getD refuseTest
  else refuseTest

/-- `main` of `ece391syserr.c`. -/
def syserr (E : Platform) (junk : Mem) : Prog Process ℤ := do
  ece391Fdputs 1 (literal chooseTest)
  let (cnt, buf) ← ece391Read E 0 junk 127
  if cnt = -1 then do
    ece391Fdputs 1 (literal cannotReadTest)
    pure 2
  else selectTest E junk (((buf 0).toNat : ℤ) - 48)

/-! ### Calls that are refused -/

/-- Since `s` the process has printed nothing and its descriptors are the same. -/
def Process.Idle (s s' : Process) : Prop := s.Did [] s.files s'

theorem Process.Idle.trans {s s' s'' : Process} (h : s.Idle s') (h' : s'.Idle s'') : s.Idle s'' := by
  have hall := Did.trans h h'
  rwa [Went.files h] at hall

theorem Process.Idle.refl (s : Process) : s.Idle s := Did.refl s

theorem Process.idle_returned (s : Process) : s.Idle (s.returned s.resumed []) := did_returned s.resumed_files []

section Refused

variable {E : Platform} {s : Process}

theorem ensures_read_refused {fd : ℤ} (h : ¬((fd = 0 ∨ 2 ≤ fd ∧ fd < 8) ∧ (s.files fd.toNat).IsOpen)) (buf : Mem)
    (n : ℤ) : Ensures (ece391Read E fd buf n) s fun r s' => r = (-1, buf) ∧ s.Idle s' := by
  have hsys : sysRead E fd buf n (s.turns 0).waiting s.resumed = some (-1, buf, s.resumed) := by
    rw [← s.resumed_files] at h
    rw [sysRead, if_neg h]
  refine .of_run (-1, buf) (s.returned s.resumed []) ?_ ⟨rfl, s.idle_returned⟩
  show (sysRead E fd buf n (s.turns 0).waiting s.resumed).map _ = _
  rw [hsys]
  rfl

theorem ensures_write_refused {fd : ℤ} (h : ¬((1 ≤ fd ∧ fd < 8) ∧ (s.files fd.toNat).IsOpen)) (buf : Mem) (n : ℤ) :
    Ensures (ece391Write fd buf n) s fun r s' => r = -1 ∧ s.Idle s' := by
  rw [← s.resumed_files] at h
  have hsys : sysWrite fd buf n s.resumed = some (-1, s.resumed) := by
    rw [sysWrite, if_neg h]
  have houtput : terminalOutput fd buf n s.resumed = [] := if_neg fun h' => h ⟨h'.1, h'.2.1⟩
  refine .of_run (-1) (s.returned s.resumed []) ?_ ⟨rfl, s.idle_returned⟩
  show (sysWrite fd buf n s.resumed).map _ = _
  rw [hsys, houtput]
  rfl

theorem ensures_close_refused {fd : ℤ} (h : ¬((2 ≤ fd ∧ fd < 8) ∧ (s.files fd.toNat).IsOpen)) :
    Ensures (ece391Close fd) s fun r s' => r = -1 ∧ s.Idle s' := by
  rw [← s.resumed_files] at h
  have hsys : sysClose fd s.resumed = some (-1, s.resumed) := by
    rw [sysClose, if_neg h]
  refine .of_run (-1) (s.returned s.resumed []) ?_ ⟨rfl, s.idle_returned⟩
  show (sysClose fd s.resumed).map _ = _
  rw [hsys]
  rfl

/-- There is no descriptor left. -/
theorem ensures_open_full (h : ∀ i, 2 ≤ i → i < 8 → (s.files i).flags ≠ flagClose) (filename : Mem) :
    Ensures (ece391Open E filename) s fun r s' => r = -1 ∧ s.Idle s' := by
  have hslot : findSlot s.resumed.cur.fileArray (maxOpenFiles - 2) 2 = none := by
    rw [s.resumed_files]
    rcases findSlot_cases s.files (n := maxOpenFiles - 2) (i := 2) rfl with hnone | ⟨r, -, hr, hclosed, -⟩
    · exact hnone.1
    · exact absurd hclosed (h r hr.1 hr.2)
  refine .of_run (-1) (s.returned s.resumed []) ?_ ⟨rfl, s.idle_returned⟩
  show (sysOpen E (s.turns 0).openFile filename s.resumed).map _ = _
  rw [sysOpen, hslot]
  rfl

theorem ensures_vidmap_refused {screenStart : ℕ} (h : screenStart < progVirAddrStart) :
    Ensures (ece391Vidmap E screenStart) s fun r s' => r = -1 ∧ s.Idle s' := by
  refine .of_run (-1) (s.returned s.resumed []) ?_ ⟨rfl, s.idle_returned⟩
  show (vidmap E (s.turns 0).stack screenStart s.resumed).bind _ = _
  rw [vidmap, vidmapWith, if_pos (Or.inl h)]
  rfl

theorem ensures_callSys_refused {num : ℤ} (h : NoSystemCall num) :
    Ensures (callSys num) s fun r s' => r = -1 ∧ s.Idle s' :=
  .of_run (-1) (s.returned s.resumed []) (if_pos h) ⟨rfl, s.idle_returned⟩

open StackMachine in
/-- **`call_sys` on the machine.**  The two instructions of `call_sys` leave in `%eax` what `callSys` returns, and of
the other registers and the program's page nothing changes. -/
theorem callSys_runs {S : Symbols} {M : Env} (hS : SystemCalls S M) {num r : ℤ} (hnum : -2 ^ 31 ≤ num ∧ num < 2 ^ 31)
    {s' : Process} (hcall : callSys num s = some (r, s')) {a z : Word}
    (hcode : Lies M a [.movl (BitVec.ofInt 32 num) .eax, .int 0x80] z) (c : Cpu) (huser : ¬c.Kernel)
    (heip : c.eip = a) :
    Eventually M (Serviced M) (fun d =>
      d = { c with reg := Function.update c.reg .eax (BitVec.ofInt 32 r), eip := z, mem := d.mem } ∧
        ∀ b, M.kept b → d.mem b = c.mem b) c := by
  have hrefused : NoSystemCall num := by
    by_contra h
    rw [callSys, if_neg h] at hcall
    cases hcall
  rw [callSys, if_pos hrefused] at hcall
  cases hcall
  subst heip
  obtain ⟨b, hmovl, _, hint, rfl⟩ := hcode
  have hvalue : (BitVec.ofInt 32 num).toInt = num := BitVec.toInt_ofInt_eq_self (by decide) hnum.1 hnum.2
  refine (Outside.of_user c huser).movl (tame_serviced hS.toInstalled) hmovl fun c' h => ?_
  refine int80_refuses hS (by rwa [Function.update_self, hvalue]) h hint fun d h => .done ⟨?_, h.kept⟩
  refine Cpu.ext ?_ h.eip h.eflags h.cs h.ss rfl
  rw [h.reg, Function.update_idem]
  rfl

theorem mustFail_failed (text : List UInt8) (fail : ℤ) : mustFail (-1) text fail = pure fail := rfl

/-- A call that is refused, as it has to be, and what follows it. -/
theorem ensures_mustFail {β : Type} {s' : Process} (hidle : s.Idle s') {call : Prog Process ℤ}
    (hcall : Ensures call s' fun r s'' => r = -1 ∧ s'.Idle s'') {text : List UInt8} {fail : ℤ}
    {rest : ℤ → Prog Process β} {Q : β → Process → Prop}
    (hrest : ∀ s'', s.Idle s'' → Ensures (rest fail) s'' Q) :
    Ensures (call >>= fun r => mustFail r text fail >>= rest) s' Q := by
  refine hcall.bind ?_
  rintro _ s'' ⟨rfl, hidle'⟩
  rw [mustFail_failed, pure_bind]
  exact hrest s'' (hidle.trans hidle')

end Refused

/-! ### The tests -/

/-- The process has the descriptors that it was created with. -/
def Process.Fresh (s : Process) : Prop := s.kernel.cur.Created

theorem Process.Fresh.of_files {s s' : Process} (h : s.Fresh) (hfiles : s'.files = s.files) : s'.Fresh := by
  have hfiles : s'.kernel.cur.fileArray = s.kernel.cur.fileArray := hfiles
  exact ⟨fun i hi => hfiles ▸ h.standard i hi, fun i h2 h8 => hfiles ▸ h.closed i h2 h8⟩

/-- Since `s` the process has printed `text`, and it has no more open than at the start. -/
def Process.Passed (s : Process) (text : List UInt8) (s' : Process) : Prop :=
  s'.Fresh ∧ ∃ files, s.Did text files s'

/-- The test passes, whatever happens between its calls. -/
def PassesTest (test : Prog Process ℤ) (name : List UInt8) : Prop :=
  ∀ s : Process, s.Fresh → Ensures test s fun r s' => r = 0 ∧ s.Passed (passText name) s'

/-- A name that can be printed with what is added to it. -/
def Printable (name : List UInt8) : Prop := 0 ∉ passText name ∧ (passText name).length < 2 ^ 31

instance (name : List UInt8) : Decidable (Printable name) := inferInstanceAs (Decidable (_ ∧ _))

section Tests

variable {E : Platform} {s s' : Process} {name : List UInt8}

theorem Process.Fresh.passed (h : s.Fresh) (hidle : s.Idle s') : s.Passed [] s' :=
  ⟨h.of_files (Went.files hidle), _, hidle⟩

theorem Process.Passed.trans {s'' : Process} {text text' : List UInt8} (h : s.Passed text s')
    (h' : s'.Passed text' s'') : s.Passed (text ++ text') s'' := by
  obtain ⟨-, files, hdid⟩ := h
  obtain ⟨hfresh, files', hdid'⟩ := h'
  exact ⟨hfresh, files', hdid.trans hdid'⟩

theorem ensures_puts_passed (hfresh : s.Fresh) {text : List UInt8} (htext : 0 ∉ text) (hlen : text.length < 2 ^ 31) :
    Ensures (ece391Fdputs 1 (literal text)) s fun _ s' => s.Passed text s' := by
  refine (ensures_fdputs (hfresh.standard 1 (by decide)) (.literal htext) hlen).mono fun _ s' hputs => ?_
  exact ⟨hfresh.of_files hputs.files, _, hputs⟩

theorem ensures_reportTest (hname : Printable name) (h : s.Passed [] s') :
    Ensures (reportTest name 0) s' fun r s'' => r = 0 ∧ s.Passed (passText name) s'' := by
  rw [reportTest, if_neg (not_not.mpr rfl)]
  exact (ensures_puts_passed h.1 hname.1 hname.2).bind fun _ s'' h' => .pure ⟨rfl, h.trans h'⟩

/-- No call with a descriptor outside of the table is accepted. -/
theorem passes_errFd (hname : Printable name) {fd : ℤ} (hfd : fd < 0 ∨ 8 ≤ fd) (buf : Mem) :
    PassesTest (errFd name fd E buf) name := by
  intro s hfresh
  rw [errFd]
  refine (ensures_read_refused (by omega) buf 31).bind ?_
  rintro _ s₁ ⟨rfl, h₁⟩
  dsimp only
  rw [mustFail_failed, pure_bind]
  refine ensures_mustFail h₁ (ensures_write_refused (by omega) buf 31) fun s₂ h₂ => ?_
  refine ensures_mustFail h₂ (ensures_close_refused (by omega)) fun s₃ h₃ => ?_
  exact ensures_reportTest hname (hfresh.passed h₃)

theorem Image.Root.lookup_missing {img : Image} {n : ℕ} (hroot : img.Root n) (name : List UInt8) (hname : 0 ∉ name)
    (hlen : name.length ≤ 32) (hother : ∀ e < n, img.entryName e ≠ name) :
    img.lookup (literal name) = some none := by
  rcases hroot.directory.lookup_cases hroot.bound (literal name) with ⟨d, hd, hfound, -⟩ | ⟨hmissing, -⟩
  · exact absurd ((lookup_eq_found_iff (.literal hname) hlen).mp hfound).2.2.1 (hother d hd)
  · exact hmissing

/-- Names that are almost there, and the empty one. -/
theorem passes_errOpen {n : ℕ} (hroot : E.image.Root n)
    (hother : ∀ e < n, E.image.entryName e ≠ hellooName ∧ E.image.entryName e ≠ shelName) :
    PassesTest (errOpen E) errOpenName := by
  have hhelloo := hroot.lookup_missing hellooName (by decide) (by decide) fun e he => (hother e he).1
  have hshel := hroot.lookup_missing shelName (by decide) (by decide) fun e he => (hother e he).2
  have hempty := hroot.lookup_missing [] (by decide) (by decide) fun e he => hroot.directory.entryName_ne_nil he
  intro s hfresh
  rw [errOpen]
  refine ensures_mustFail (.refl s) (ensures_open_missing hhelloo) fun s₁ h₁ => ?_
  refine ensures_mustFail h₁ (ensures_open_missing hshel) fun s₂ h₂ => ?_
  refine ensures_mustFail h₂ (ensures_open_missing hempty) fun s₃ h₃ => ?_
  exact ensures_reportTest (by decide) (hfresh.passed h₃)

theorem passes_errVidmap : PassesTest (errVidmap E) errVidmapName := by
  intro s hfresh
  rw [errVidmap]
  refine ensures_mustFail (.refl s) (ensures_vidmap_refused (by decide)) fun s₁ h₁ => ?_
  refine ensures_mustFail h₁ (ensures_vidmap_refused (by decide)) fun s₂ h₂ => ?_
  exact ensures_reportTest (by decide) (hfresh.passed h₂)

theorem passes_errStdinOut (buf : Mem) : PassesTest (errStdinOut E buf) errStdinOutName := by
  intro s hfresh
  rw [errStdinOut]
  refine ensures_mustFail (.refl s) (ensures_write_refused (by omega) buf 31) fun s₁ h₁ => ?_
  refine (ensures_read_refused (by omega) buf 31).bind ?_
  rintro _ s₂ ⟨rfl, h₂⟩
  dsimp only
  rw [mustFail_failed, pure_bind]
  exact ensures_reportTest (by decide) (hfresh.passed (h₁.trans h₂))

theorem passes_errSyscallNum : PassesTest errSyscallNum errSyscallNumName := by
  intro s hfresh
  rw [errSyscallNum]
  refine ensures_mustFail (.refl s) (ensures_callSys_refused (by decide)) fun s₁ h₁ => ?_
  refine ensures_mustFail h₁ (ensures_callSys_refused (by decide)) fun s₂ h₂ => ?_
  refine ensures_mustFail h₂ (ensures_callSys_refused (by decide)) fun s₃ h₃ => ?_
  exact ensures_reportTest (by decide) (hfresh.passed h₃)

/-! ### Loops over the descriptors -/

/-- A descriptor of a fresh process that is not open. -/
theorem Process.Fresh.not_isOpen (hfresh : s.Fresh) (hidle : s.Idle s') {i : ℕ} (h2 : 2 ≤ i) (h8 : i < 8) :
    ¬(s'.files (i : ℤ).toNat).IsOpen :=
  FileStruct.not_isOpen_of_close ((hfresh.of_files (Went.files hidle)).closed i h2 h8)

/-- A loop whose calls are all refused. -/
theorem ensures_forEach_mustFail {call : ℕ → Prog Process ℤ} {text : List UInt8} {i n : ℕ}
    (hcall : ∀ j s', i ≤ j → j < i + n → s.Idle s' → Ensures (call j) s' fun r s'' => r = -1 ∧ s'.Idle s'') (fail : ℤ)
    (hidle : s.Idle s') :
    Ensures (forEach (fun j fail => call j >>= fun r => mustFail r text fail) n i fail) s' fun r s'' =>
      r = fail ∧ s.Idle s'' := by
  refine Ensures.mono (Ensures.forEach (I := fun j r s'' => i ≤ j ∧ r = fail ∧ s.Idle s'') ?_ rfl
    ⟨Nat.le_refl i, rfl, hidle⟩) fun r s'' hr => hr.2
  rintro j _ s'' hj ⟨hij, rfl, hidle'⟩
  refine (hcall j s'' hij hj hidle').bind ?_
  rintro _ s₁ ⟨rfl, h₁⟩
  exact .pure ⟨by omega, rfl, hidle'.trans h₁⟩

/-- The terminal cannot be closed, and the other descriptors are not open. -/
theorem passes_errUnopened (buf : Mem) : PassesTest (errUnopened E buf) errUnopenedName := by
  intro s hfresh
  rw [errUnopened]
  refine (ensures_forEach_mustFail (fun j s' _ hj hidle => ensures_close_refused ?_) 0 (.refl s)).bind ?_
  · rintro ⟨⟨h2, h8⟩, hopen⟩
    exact hfresh.not_isOpen hidle (by omega) (by omega) hopen
  rintro _ s₁ ⟨rfl, h₁⟩
  -- the reads leave the buffer as it is
  refine (Ensures.forEach (I := fun j r s' => 2 ≤ j ∧ r = (0, buf) ∧ s.Idle s') ?_ rfl
    ⟨Nat.le_refl 2, rfl, h₁⟩).bind ?_
  · rintro j _ s' hj ⟨h2, rfl, hidle⟩
    refine (ensures_read_refused (fun h => hfresh.not_isOpen hidle h2 hj h.2) buf 31).bind ?_
    rintro _ s₂ ⟨rfl, h₂⟩
    exact .pure ⟨by omega, rfl, hidle.trans h₂⟩
  rintro _ s₂ ⟨-, rfl, h₂⟩
  refine (ensures_forEach_mustFail (fun j s' h2 h8 hidle => ensures_write_refused ?_ buf 31) 0 h₂).bind ?_
  · exact fun h => hfresh.not_isOpen hidle h2 h8 h.2
  rintro _ s₃ ⟨rfl, h₃⟩
  exact ensures_reportTest (by decide) (hfresh.passed h₃)

/-- Of the last six descriptors those from `l` on and below `h` are open on the directory, and the others closed. -/
structure OpenBetween (a : ℕ → FileStruct) (l h : ℕ) : Prop where
  standard : ∀ i < 2, (a i).OpenOn .term
  opened : ∀ i, l ≤ i → i < h → (a i).OpenOn .dir
  closed : ∀ i, 2 ≤ i → i < 8 → i < l ∨ h ≤ i → (a i).flags = flagClose

theorem OpenBetween.firstFree {a : ℕ → FileStruct} {h : ℕ} (ha : OpenBetween a 2 h) (h2 : 2 ≤ h) (h8 : h < 8) :
    FirstFree a h :=
  ⟨⟨h2, h8⟩, ha.closed h h2 h8 (Or.inr (Nat.le_refl h)), fun j h2 hj => (ha.opened j h2 hj).flags_ne⟩

theorem OpenBetween.open_next {a : ℕ → FileStruct} {h : ℕ} (ha : OpenBetween a 2 h) (h2 : 2 ≤ h) :
    OpenBetween (Function.update a h (dirSlot 0)) 2 (h + 1) := by
  refine ⟨fun i hi => ?_, fun i hl hi => ?_, fun i h2' h8 hi => ?_⟩
  · rw [Function.update_of_ne (by omega)]
    exact ha.standard i hi
  · rcases Nat.lt_or_eq_of_le (Nat.lt_succ_iff.mp hi) with hlt | rfl
    · rw [Function.update_of_ne (by omega)]
      exact ha.opened i hl hlt
    · rw [Function.update_self]
      exact dirSlot_openOn 0
  · rw [Function.update_of_ne (by omega)]
    exact ha.closed i h2' h8 (by omega)

theorem OpenBetween.close_first {a : ℕ → FileStruct} {l : ℕ} (ha : OpenBetween a l 8) (h2 : 2 ≤ l) :
    OpenBetween (Function.update a l { a l with flags := flagClose }) (l + 1) 8 := by
  refine ⟨fun i hi => ?_, fun i hl hi => ?_, fun i h2' h8 hi => ?_⟩
  · rw [Function.update_of_ne (by omega)]
    exact ha.standard i hi
  · rw [Function.update_of_ne (by omega)]
    exact ha.opened i (by omega) hi
  · by_cases hil : i = l
    · rw [hil, Function.update_self]
    · rw [Function.update_of_ne hil]
      exact ha.closed i h2' h8 (by omega)

/-- Six calls get a descriptor, and those that follow are refused. -/
theorem ensures_openLots {n : ℕ} (hroot : E.image.Root n) (hfresh : s.Fresh) (m : ℕ) :
    Ensures (openLots E m) s fun cnt s' => cnt = ((m - 6 : ℕ) : ℤ) ∧ OpenBetween s'.files 2 (2 + min m 6) ∧
      ∃ files, s.Did [] files s' := by
  refine Ensures.mono (Ensures.forEach (I := fun i cnt s' => cnt = ((i - 6 : ℕ) : ℤ) ∧
    OpenBetween s'.files 2 (2 + min i 6) ∧ ∃ files, s.Did [] files s') ?_ rfl ⟨rfl, ?_, _, .refl s⟩)
    fun cnt s' h => by rwa [Nat.zero_add] at h
  · rintro i cnt s' hi ⟨hcnt, hopen, files, hdid⟩
    rcases Nat.lt_or_ge i 6 with hmore | hfull
    · have hmin : min i 6 = i := by omega
      rw [hmin] at hopen
      refine (ensures_open_dot hroot (hopen.firstFree (by omega) (by omega))).bind ?_
      rintro _ s₁ ⟨rfl, hdid₁⟩
      rw [if_neg (by omega)]
      refine .pure ⟨by omega, ?_, _, hdid.trans hdid₁⟩
      rw [hdid₁.files, show 2 + min (i + 1) 6 = 2 + i + 1 by omega]
      exact hopen.open_next (by omega)
    · rw [show 2 + min i 6 = 8 by omega] at hopen
      refine (ensures_open_full (fun j h2 h8 => (hopen.opened j h2 h8).flags_ne) _).bind ?_
      rintro _ s₁ ⟨rfl, hdid₁⟩
      rw [if_pos rfl]
      refine .pure ⟨by omega, ?_, _, hdid.trans hdid₁⟩
      rw [Process.Went.files hdid₁, show 2 + min (i + 1) 6 = 8 by omega]
      exact hopen
  · exact ⟨hfresh.standard, fun i hl hi => by omega, fun i h2 h8 _ => hfresh.closed i h2 h8⟩

/-- They are closed again. -/
theorem ensures_closeSix {files : ℕ → FileStruct} (hopen : OpenBetween s'.files 2 8) (hdid : s.Did [] files s') :
    Ensures closeSix s' fun _ s'' => s.Passed [] s'' := by
  refine Ensures.mono (Ensures.forEach (I := fun i _ s'' => 2 ≤ i ∧ OpenBetween s''.files i 8 ∧
    ∃ files, s.Did [] files s'') ?_ rfl ⟨Nat.le_refl 2, hopen, files, hdid⟩) ?_
  · rintro i _ s₁ hi ⟨h2, hopen₁, files₁, hdid₁⟩
    refine (ensures_close (hopen₁.opened i (Nat.le_refl i) hi) ⟨h2, hi⟩).bind ?_
    rintro _ s₂ ⟨-, hdid₂⟩
    refine .pure ⟨by omega, ?_, _, hdid₁.trans hdid₂⟩
    rw [hdid₂.files]
    exact hopen₁.close_first h2
  · rintro _ s'' ⟨-, hclosed, hdid'⟩
    exact ⟨⟨hclosed.standard, fun i h2 h8 => hclosed.closed i h2 h8 (Or.inl h8)⟩, hdid'⟩

/-- **As many descriptors as there are** can be opened, and closed. -/
theorem passes_errOpenLots {n : ℕ} (hroot : E.image.Root n) : PassesTest (errOpenLots E) errOpenLotsName := by
  intro s hfresh
  rw [errOpenLots]
  refine (ensures_openLots hroot hfresh 7).bind ?_
  rintro _ s₁ ⟨rfl, hopen, files, hdid⟩
  refine (ensures_closeSix hopen hdid).bind fun _ s₂ hpassed => ?_
  rw [if_pos (by decide)]
  refine (ensures_puts_passed hpassed.1 (by decide) (by decide)).bind fun _ s₃ h₃ => .pure ⟨rfl, ?_⟩
  exact hpassed.trans h₃

/-! ### The whole program -/

/-- The names of the tests, in their order. -/
def errNames : List (List UInt8) :=
  [errNegFdName, errBigFdName, errOpenLotsName, errOpenName, errUnopenedName, errVidmapName, errStdinOutName,
    errSyscallNumName]

theorem passes_errTests {n : ℕ} (hroot : E.image.Root n)
    (hother : ∀ e < n, E.image.entryName e ≠ hellooName ∧ E.image.entryName e ≠ shelName) (junk : Mem) :
    List.Forall₂ PassesTest (errTests E junk) errNames := by
  refine .cons (passes_errFd (by decide) (Or.inl (by decide)) junk) ?_
  refine .cons (passes_errFd (by decide) (Or.inr (by decide)) junk) ?_
  refine .cons (passes_errOpenLots hroot) ?_
  refine .cons (passes_errOpen hroot hother) ?_
  refine .cons (passes_errUnopened junk) ?_
  refine .cons passes_errVidmap ?_
  refine .cons (passes_errStdinOut junk) ?_
  exact .cons passes_errSyscallNum .nil

/-- Tests that pass one by one pass in a row. -/
theorem ensures_runTests {tests : List (Prog Process ℤ)} {names : List (List UInt8)}
    (h : List.Forall₂ PassesTest tests names) (hfresh : s.Fresh) (fail : ℤ) :
    Ensures (runTests tests fail) s fun r s' => r = fail ∧ s.Passed (names.flatMap passText) s' := by
  induction h generalizing s fail with
  | nil => exact .pure ⟨rfl, hfresh, _, .refl s⟩
  | cons htest _ ih =>
    rw [runTests]
    refine (htest s hfresh).bind ?_
    rintro _ s₁ ⟨rfl, hpassed⟩
    refine (ih hpassed.1 (fail + 0)).mono fun r s₂ hr => ⟨by omega, ?_⟩
    rw [List.flatMap_cons]
    exact hpassed.trans hr.2

/-- A number leads to a pair of the two lists, or to nothing in both. -/
theorem forall₂_getElem? {α β : Type} {R : α → β → Prop} {as : List α} {bs : List β} (h : List.Forall₂ R as bs)
    (i : ℕ) : (as[i]? = none ∧ bs[i]? = none) ∨ ∃ a b, as[i]? = some a ∧ bs[i]? = some b ∧ R a b := by
  induction h generalizing i with
  | nil => exact Or.inl ⟨rfl, rfl⟩
  | cons hab _ ih =>
    cases i with
    | zero => exact Or.inr ⟨_, _, rfl, rfl, hab⟩
    | succ i =>
      rw [List.getElem?_cons_succ, List.getElem?_cons_succ]
      exact ih i

/-- What `syserr` answers to a line that begins with `c`. -/
def testReport (c : UInt8) : List UInt8 :=
  if (c.toNat : ℤ) - 48 = 0 then errNames.flatMap passText ++ overallPass
  else if 1 ≤ (c.toNat : ℤ) - 48 then (errNames[((c.toNat : ℤ) - 48 - 1).toNat]?.map passText).getD invalidTest
  else invalidTest

theorem ensures_selectTest {n : ℕ} (hroot : E.image.Root n)
    (hother : ∀ e < n, E.image.entryName e ≠ hellooName ∧ E.image.entryName e ≠ shelName) (junk : Mem)
    (hfresh : s.Fresh) (c : UInt8) :
    Ensures (selectTest E junk ((c.toNat : ℤ) - 48)) s fun r s' => r = 0 ∧ s.Passed (testReport c) s' := by
  have htests := passes_errTests hroot hother junk
  have hrefuse : Ensures refuseTest s fun r s' => r = 0 ∧ s.Passed invalidTest s' :=
    (ensures_puts_passed hfresh (by decide) (by decide)).bind fun _ s' hpassed => .pure ⟨rfl, hpassed⟩
  rw [selectTest, testReport]
  split
  · refine (ensures_runTests htests hfresh 0).bind ?_
    rintro _ s₁ ⟨rfl, hpassed⟩
    rw [if_neg (not_not.mpr rfl)]
    refine (ensures_puts_passed hpassed.1 (by decide) (by decide)).bind fun _ s₂ h₂ => .pure ⟨rfl, ?_⟩
    exact hpassed.trans h₂
  split
  · rcases forall₂_getElem? htests ((c.toNat : ℤ) - 48 - 1).toNat with
      ⟨htest, hname⟩ | ⟨test, name, htest, hname, hpasses⟩
    · rw [htest, hname]
      exact hrefuse
    · rw [htest, hname]
      exact hpasses s hfresh
  · exact hrefuse

/-- **Every test passes.**  In a directory with an entry `.` and without the two names that are tried, a process with
nothing but its terminal open gets the answer `PASS` for every test that is chosen, and ends with nothing but its
terminal open.  In the third test six calls get the six descriptors, the seventh fails, and the descriptors are closed
again. -/
theorem syserr_passes {n : ℕ} (hroot : E.image.Root n)
    (hother : ∀ e < n, E.image.entryName e ≠ hellooName ∧ E.image.entryName e ≠ shelName) (hfresh : s.Fresh)
    {lines : Set (List UInt8)} (hhears : s.Hears lines) (junk : Mem) :
    Ensures (syserr E junk) s (fun r s' => r = 0 ∧ s'.Fresh ∧ ∃ line ∈ lines, ∃ files,
      s.Went (chooseTest.map .printed ++ [.typed (line ++ [lineFeed])] ++
        (testReport ((line ++ [lineFeed]).getD 0 0)).map .printed) files s') ∧
    ∀ s₁ : Process, s₁.Fresh →
      (∀ m ≤ 7, Ensures (openLots E m) s₁ fun cnt s₂ =>
        cnt = (if m = 7 then 1 else 0) ∧ ∀ i, 2 ≤ i → i < 8 → i < 2 + m → (s₂.files i).OpenOn .dir) ∧
      Ensures (openLots E 7 >>= fun _ => closeSix) s₁ fun _ s₂ => s₂.Fresh := by
  refine ⟨?_, fun s₁ hfresh₁ => ⟨fun m hm => ?_, ?_⟩⟩
  rotate_left
  · refine (ensures_openLots hroot hfresh₁ m).mono ?_
    rintro cnt s₂ ⟨rfl, hopen, -⟩
    exact ⟨by split <;> omega, fun i h2 h8 hm => hopen.opened i h2 (by omega)⟩
  · refine (ensures_openLots hroot hfresh₁ 7).bind ?_
    rintro cnt s₂ ⟨-, hopen, files, hdid⟩
    exact (ensures_closeSix hopen hdid).mono fun _ s₃ hpassed => hpassed.1
  rw [syserr]
  refine (ensures_fdputs (hfresh.standard 1 (by decide)) (.literal (by decide)) (by decide)).bind fun _ s₁ hchoose => ?_
  have hfresh₁ : s₁.Fresh := hfresh.of_files hchoose.files
  refine (ensures_read_line (hfresh₁.standard 0 (by decide)) (hhears.of_went hchoose) junk (by decide)).bind ?_
  rintro ⟨cnt, buf⟩ s₂ ⟨line, hmem, -, -, hcnt, hspells, htyped⟩
  dsimp only at hcnt hspells ⊢
  rw [if_neg (by omega), hspells.bytes 0 (Nat.zero_le _)]
  refine (ensures_selectTest hroot hother junk (hfresh₁.of_files htyped.files) _).mono fun r s₃ hr => ?_
  obtain ⟨rfl, hfresh₃, files, hdid⟩ := hr
  exact ⟨rfl, hfresh₃, line, hmem, files, (Process.Went.trans hchoose htyped).trans hdid⟩

end Tests

/-- The answer to `0`, and the third test by itself. -/
theorem syserr_passes_all :
    Ensures (syserr framePlatform emptyString) (startedTyping [0x30]) (fun r s' => r = 0 ∧
      s'.printed = chooseTest ++ errNames.flatMap passText ++ overallPass) ∧
    Ensures (openLots framePlatform 7) (startedTyping [0x30]) fun cnt s' => cnt = 1 ∧
      ∀ i, 2 ≤ i → i < 8 → (s'.files i).OpenOn .dir := by
  have hfresh : (startedTyping [0x30]).Fresh := by
    refine ⟨fun i hi => ?_, fun i h2 h8 => ?_⟩
    · obtain rfl | rfl : i = 0 ∨ i = 1 := by omega
      all_goals exact ⟨rfl, rfl⟩
    · show (openTerminal 1 (openTerminal 0 _) i).flags = _
      rw [openTerminal, Function.update_of_ne (by omega), openTerminal, Function.update_of_ne (by omega)]
      rfl
  have hsyserr := syserr_passes (E := framePlatform) (s := startedTyping [0x30]) frameImage_root (by decide) hfresh
    (startedTyping_hears (by decide) (by decide) (by decide)) emptyString
  refine ⟨hsyserr.1.mono fun r s' hr => ⟨hr.1, ?_⟩, ((hsyserr.2 _ hfresh).1 7 (by decide)).mono fun cnt s' hr =>
    ⟨hr.1, fun i h2 h8 => hr.2 i h2 h8 (by omega)⟩⟩
  obtain ⟨-, -, line, rfl, files, hwent⟩ := hr
  have hreport : testReport (([0x30] ++ [lineFeed]).getD 0 0) = errNames.flatMap passText ++ overallPass := if_pos rfl
  rw [hwent.printed, hreport, List.filterMap_append, List.filterMap_append, filterMap_char_printed,
    filterMap_char_printed, ← List.append_assoc]
  rfl

end ClosKernel
