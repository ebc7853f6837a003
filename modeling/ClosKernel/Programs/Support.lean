import ClosKernel.Arguments
import ClosKernel.Entries
import ClosKernel.KernelStack
import ClosKernel.Lib.StateProgram
import ClosKernel.Pieces
import ClosKernel.Stream

/-!
# System calls as programs make them (`ece391syscall.S`, `ece391support.c`)

A user program is a `Prog` over `Process`: the kernel as the program's calls leave it, what the rest of the machine
does around each call, and what the process has printed, read and executed so far.  A call goes to the function of the
kernel's table, after anything that may have happened since the last one: `exists_turn` says that whatever the machine
does between two calls of a process is a `Turn`, as long as all programs that are loaded fit below the PCBs.  The
program's own memory is made of its buffers, each a `Mem`.

* `ensures_write`, `ensures_fdputs` — what a write to the terminal prints;
* `ensures_open`, `ensures_open_missing` — opening an entry of the directory, or none;
* `ensures_read_file`, `ensures_read_dir` — one read of a file, and of the directory;
* `ensures_close`, `ensures_getargs` — the other calls.
-/

namespace ClosKernel

open PartialRun StateProgram

/-! ### Processes -/

/-- What a call meets: the machine since the last call, what the call waits for, what the uninitialised variables of
`sys_open` and `sys_execute` hold, and the value that arrives in `eax` when a program that was executed has ended. -/
structure Turn where
  before : Meanwhile
  sameProgram : ∀ k : Kernel, k.cur.SameProgram (before.resume k).cur
  waiting : Waiting
  openFile : Dentry
  stack : Stack
  status : ℤ

/-- The clock interrupts. -/
def Meanwhile.tick : Meanwhile :=
  ⟨fun k => { k with rtc := { k.rtc with interruptHappened := true } }, fun _ => ⟨rfl, rfl⟩⟩

/-- Nothing happens between the calls, and a call that waits sees an interrupt of the clock. -/
def Turn.quiet : Turn := ⟨.nothing, fun k => .refl k.cur, ⟨.tick, 0, []⟩, ⟨emptyString, 0, 0⟩, default, 0⟩

/-- What a process and its user see of each other: bytes on the terminal, lines that a read of the terminal has
returned, and programs that have been executed. -/
inductive Event where
  | printed (c : UInt8)
  | typed (line : List UInt8)
  | ran (command : List UInt8) (value : ℤ)
  deriving DecidableEq

def Event.char? : Event → Option UInt8
  | .printed c => some c
  | _ => none

theorem filterMap_char_printed (text : List UInt8) : (text.map .printed).filterMap Event.char? = text := by
  rw [List.filterMap_map]
  exact List.filterMap_some

/-- A running program. -/
structure Process where
  kernel : Kernel
  turns : ℕ → Turn
  history : List Event

/-- **Between two calls.**  Whatever the machine does from a reachable state until process `p` runs again, as long as
`p` makes no call that can end it and all programs that are loaded fit, is a turn of `p`, whatever the next call meets
then. -/
theorem exists_turn {E : Platform} {k k' : Kernel} {p : ℕ} (hshell : ValidShell E.image) {before as : List Action}
    (hreach : ReachesSafely E before k) (hp : k.pcb = pcbAddr p) (hlive : k.Live p)
    (hguard : Meets (stepOnStack E) (fun a m => StackSafe E a m ∧ (m.pcb = pcbAddr p → ¬a.MayHalt)) as k)
    (hrun : runs (stepOnStack E) as k = some k') (hp' : k'.pcb = pcbAddr p) (t : Turn) :
    ∃ t' : Turn, t'.before.resume k = k' ∧ t'.waiting = t.waiting ∧ t'.openFile = t.openFile ∧ t'.stack = t.stack ∧
      t'.status = t.status := by
  classical
  have hsame : k.cur.SameProgram k'.cur := by
    rw [Kernel.cur, Kernel.cur, hp, hp']
    exact hreach.keeps_program hshell hlive hguard hrun
  have hpcb : k'.pcb = k.pcb := hp'.trans hp.symm
  -- the change from `k` to `k'`, and none from elsewhere
  let resume : Kernel → Kernel := fun m => if m = k then k' else m
  have hresume : ∀ m : Kernel, m.cur.SameProgram (resume m).cur ∧ (resume m).pcb = m.pcb := by
    intro m
    by_cases hm : m = k
    · rw [show resume m = k' from if_pos hm, hm]
      exact ⟨hsame, hpcb⟩
    · rw [show resume m = m from if_neg hm]
      exact ⟨.refl m.cur, rfl⟩
  let between : Meanwhile := ⟨resume, fun m => ⟨(hresume m).2, (hresume m).1.fileArray⟩⟩
  exact ⟨{ t with before := between, sameProgram := fun m => (hresume m).1 }, if_pos rfl, rfl, rfl, rfl, rfl⟩

namespace Process

variable {s s' s'' : Process}

/-- The descriptors of the process. -/
def files (s : Process) : ℕ → FileStruct := s.kernel.cur.fileArray

/-- The kernel when the next call is made. -/
def resumed (s : Process) : Kernel := (s.turns 0).before.resume s.kernel

/-- What the process has printed. -/
def printed (s : Process) : List UInt8 := s.history.filterMap Event.char?

/-- The process when a call has come back. -/
def returned (s : Process) (k : Kernel) (events : List Event) : Process :=
  ⟨k, fun i => s.turns (i + 1), s.history ++ events⟩

theorem resumed_files (s : Process) : s.resumed.cur.fileArray = s.files :=
  ((s.turns 0).before.sameFiles s.kernel).fileArray

theorem resumed_arguments (s : Process) : s.resumed.cur.arguments = s.kernel.cur.arguments :=
  ((s.turns 0).sameProgram s.kernel).arguments

/-- Since `s` this has happened to the process, and its descriptors have become `files`. -/
structure Went (s : Process) (events : List Event) (files : ℕ → FileStruct) (s' : Process) : Prop where
  files : s'.files = files
  history : s'.history = s.history ++ events
  later : ∃ calls, ∀ i, s'.turns i = s.turns (calls + i)

theorem Went.refl (s : Process) : s.Went [] s.files s :=
  ⟨rfl, (List.append_nil _).symm, 0, fun i => congrArg s.turns (Nat.zero_add i).symm⟩

theorem Went.trans {es es' : List Event} {a a' : ℕ → FileStruct} (h : s.Went es a s') (h' : s'.Went es' a' s'') :
    s.Went (es ++ es') a' s'' := by
  obtain ⟨c, hc⟩ := h.later
  obtain ⟨c', hc'⟩ := h'.later
  refine ⟨h'.files, by rw [h'.history, h.history, List.append_assoc], c + c', fun i => ?_⟩
  rw [hc', hc, Nat.add_assoc]

theorem Went.printed {es : List Event} {files : ℕ → FileStruct} (h : s.Went es files s') :
    s'.printed = s.printed ++ es.filterMap Event.char? := by
  rw [Process.printed, Process.printed, h.history, List.filterMap_append]

theorem went_returned {k : Kernel} {files : ℕ → FileStruct} (h : k.cur.fileArray = files) (events : List Event) :
    s.Went events files (s.returned k events) :=
  ⟨h, rfl, 1, fun i => congrArg s.turns (Nat.add_comm i 1)⟩

/-- Since `s` the process has printed `text` and nothing else, and its descriptors have become `files`. -/
def Did (s : Process) (text : List UInt8) (files : ℕ → FileStruct) (s' : Process) : Prop :=
  s.Went (text.map .printed) files s'

theorem Did.refl (s : Process) : s.Did [] s.files s := Went.refl s

theorem Did.trans {text text' : List UInt8} {a a' : ℕ → FileStruct} (h : s.Did text a s') (h' : s'.Did text' a' s'') :
    s.Did (text ++ text') a' s'' := by
  rw [Did, List.map_append]
  exact Went.trans h h'

theorem Did.printed {text : List UInt8} {files : ℕ → FileStruct} (h : s.Did text files s') :
    s'.printed = s.printed ++ text := by
  rw [Went.printed h, filterMap_char_printed]

theorem did_returned {k : Kernel} {files : ℕ → FileStruct} (h : k.cur.fileArray = files) (text : List UInt8) :
    s.Did text files (s.returned k (text.map .printed)) :=
  went_returned h _

end Process

/-! ### The calls -/

/-- The bytes that a write prints, if it goes to the terminal. -/
def terminalOutput (fd : ℤ) (buf : Mem) (nbytes : ℤ) (k : Kernel) : List UInt8 :=
  if (1 ≤ fd ∧ fd < 8) ∧ (k.cur.fileArray fd.toNat).IsOpen ∧ (k.cur.fileArray fd.toNat).fopsTable = some .term then
    (tWriteFrom buf nbytes.toNat 0).1
  else []

def ece391Open (E : Platform) (filename : Mem) : Prog Process ℤ := fun s =>
  (sysOpen E (s.turns 0).openFile filename s.resumed).map fun (fd, k) => (fd, s.returned k [])

/-- The line that a read has returned, if it has read from the terminal. -/
def terminalInput (fd : ℤ) (buf : Mem) (count : ℤ) (k : Kernel) : List Event :=
  if (k.cur.fileArray fd.toNat).fopsTable = some .term then [.typed (bytesBelow buf count.toNat)] else []

def ece391Read (E : Platform) (fd : ℤ) (buf : Mem) (nbytes : ℤ) : Prog Process (ℤ × Mem) := fun s =>
  (sysRead E fd buf nbytes (s.turns 0).waiting s.resumed).map fun (r, buf, k) =>
    ((r, buf), s.returned k (if r = -1 then [] else terminalInput fd buf r s.resumed))

def ece391Write (fd : ℤ) (buf : Mem) (nbytes : ℤ) : Prog Process ℤ := fun s =>
  (sysWrite fd buf nbytes s.resumed).map fun (r, k) =>
    (r, s.returned k ((terminalOutput fd buf nbytes s.resumed).map .printed))

def ece391Close (fd : ℤ) : Prog Process ℤ := fun s =>
  (sysClose fd s.resumed).map fun (r, k) => (r, s.returned k [])

def ece391Getargs (buf : Mem) (nbytes : ℤ) : Prog Process (ℤ × Mem) := fun s =>
  (sysGetargs (some buf) nbytes s.resumed).map fun (r, buf') => ((r, buf'.getD buf), s.returned s.resumed [])

/-- A program that is launched runs until it ends; `exists_meanwhile` says that to its parent this is a stretch of time
in which others run. -/
def ece391Execute (E : Platform) (command : Mem) : Prog Process ℤ := fun s =>
  let t := s.turns 0
  (sysExecute E t.stack (cString command) s.resumed).map fun
    | (.ret value, k) => (value, s.returned k
        ((executeText E t.stack (cString command) s.resumed).map .printed ++ [.ran (cString command) value]))
    | (_, _) => (t.status, s.returned (t.waiting.meanwhile.resume s.resumed) [.ran (cString command) t.status])

/-- `ece391_strlen`, which is the `strlen` of the kernel. -/
def ece391Strlen (s : Mem) : Option ℕ := strlen s

def ece391Fdputs (fd : ℤ) (text : Mem) : Prog Process Unit := do
  let len ← (StateT.lift (ece391Strlen text) : Prog Process ℕ)
  let _ ← ece391Write fd text (toInt32 len)

/-! ### Writing to the terminal -/

theorem tWriteFrom_congr {m m' : Mem} {n i : ℕ} (h : ∀ j, i ≤ j → j < i + n → m j = m' j) :
    tWriteFrom m n i = tWriteFrom m' n i := by
  induction n generalizing i with
  | zero => rfl
  | succ n ih =>
    rw [tWriteFrom, tWriteFrom, ih fun j h1 h2 => h j (by omega) (by omega), h i (Nat.le_refl i) (by omega)]

theorem literal_bytesBelow (m : Mem) {n i : ℕ} (h : i < n) : literal (bytesBelow m n) i = m i := by
  rw [literal, bytesBelow, List.getD_eq_getElem?_getD, List.getElem?_map, List.getElem?_range h]
  rfl

theorem bytesBelow_length (m : Mem) (n : ℕ) : (bytesBelow m n).length = n := by
  rw [bytesBelow, List.length_map, List.length_range]

theorem tWriteFrom_eq (m : Mem) (n : ℕ) :
    tWriteFrom m n 0 = (printedBy (bytesBelow m n), ((nonNul (bytesBelow m n)).length : ℤ)) := by
  have hliteral := tWriteFrom_literal [] (bytesBelow m n)
  rw [List.nil_append, List.length_nil, bytesBelow_length] at hliteral
  rw [← hliteral]
  exact tWriteFrom_congr fun j _ hj => (literal_bytesBelow m (by omega)).symm

theorem printedBy_of_nul_free {b : List UInt8} (h : 0 ∉ b) : printedBy b = b := by
  have hfilter : nonNul b = b := by
    refine List.filter_eq_self.mpr fun c hc => ?_
    rw [decide_eq_true_eq]
    rintro rfl
    exact h hc
  have hlast : b.getLast? ≠ some 0 := fun hlast => h (List.mem_of_getLast? hlast)
  rw [printedBy, hfilter, lastBreak, if_neg hlast, List.append_nil]

/-- The string at `s`, as the bytes before its end. -/
theorem Spells.bytesBelow {s : Mem} {text : List UInt8} (h : Spells s text) :
    ClosKernel.bytesBelow s text.length = text := by
  refine List.ext_getElem (bytesBelow_length _ _) fun i h1 h2 => ?_
  have hbyte := h.bytes i (Nat.le_of_lt h2)
  rw [List.getD_eq_getElem?_getD, List.getElem?_eq_getElem h2, Option.getD_some] at hbyte
  simp only [ClosKernel.bytesBelow, List.getElem_map, List.getElem_range]
  exact hbyte

section Calls

variable {E : Platform} {s : Process}

/-- **A write to the terminal** prints the bytes that are not NUL, and a line break for a NUL in the last place. -/
theorem ensures_write (hout : (s.files 1).OpenOn .term) (buf : Mem) (nbytes : ℤ) :
    Ensures (ece391Write 1 buf nbytes) s fun r s' =>
      r ≠ -1 ∧ s.Did (printedBy (bytesBelow buf nbytes.toNat)) s.files s' := by
  have hopen : ((1 : ℤ) ≤ 1 ∧ (1 : ℤ) < 8) ∧ (s.resumed.cur.fileArray (1 : ℤ).toNat).IsOpen := by
    rw [s.resumed_files]
    exact ⟨by decide, hout.isOpen⟩
  have hfops : (s.resumed.cur.fileArray (1 : ℤ).toNat).fopsTable = some .term := by
    rw [s.resumed_files]
    exact hout.1
  have hrun : (ece391Write 1 buf nbytes).run s = some (((nonNul (bytesBelow buf nbytes.toNat)).length : ℤ),
      s.returned (s.resumed.printf (printedBy (bytesBelow buf nbytes.toNat)))
        ((printedBy (bytesBelow buf nbytes.toNat)).map .printed)) := by
    show (sysWrite 1 buf nbytes s.resumed).map _ = _
    rw [sysWrite, if_pos hopen, hfops, terminalOutput, if_pos ⟨hopen.1, hopen.2, hfops⟩]
    show some _ = _
    rw [tWrite, tWriteFrom_eq]
  refine .of_run _ _ hrun ⟨by omega, Process.did_returned ?_ _⟩
  exact s.resumed_files

theorem ensures_fdputs (hout : (s.files 1).OpenOn .term) {m : Mem} {text : List UInt8} (htext : Spells m text)
    (hlen : text.length < 2 ^ 31) : Ensures (ece391Fdputs 1 m) s fun _ s' => s.Did text s.files s' := by
  refine (Ensures.lift (htext.strlen (by omega))).bind ?_
  rintro _ _ ⟨rfl, rfl⟩
  refine (ensures_write hout m _).bind fun r s' hr => .pure ?_
  have hint : (toInt32 text.length).toNat = text.length := by
    rw [toInt32, if_pos hlen, Int.toNat_natCast]
  rw [hint, htext.bytesBelow, printedBy_of_nul_free htext.nul_free] at hr
  exact hr.2

/-! ### Descriptors -/

theorem FileStruct.OpenOn.flags_ne {d : Driver} {f : FileStruct} (h : f.OpenOn d) : f.flags ≠ flagClose := by
  rw [h.2]
  cases d <;> decide

theorem FirstFree.update_open {a : ℕ → FileStruct} {i j : ℕ} (h : FirstFree a j) (hij : i ≠ j) {f : FileStruct}
    (hf : f.flags ≠ flagClose) : FirstFree (Function.update a i f) j := by
  refine ⟨h.bounds, ?_, fun d h1 h2 => ?_⟩
  · rw [Function.update_of_ne hij.symm]
    exact h.closed
  · by_cases hd : d = i
    · rwa [hd, Function.update_self]
    · rw [Function.update_of_ne hd]
      exact h.before d h1 h2

theorem FirstFree.update_closed {a : ℕ → FileStruct} {j : ℕ} (h : FirstFree a j) {f : FileStruct}
    (hf : f.flags = flagClose) : FirstFree (Function.update a j f) j := by
  refine ⟨h.bounds, ?_, fun d h1 h2 => ?_⟩
  · rwa [Function.update_self]
  · rw [Function.update_of_ne (by omega)]
    exact h.before d h1 h2

/-- **Opening an entry**: the first free descriptor is bound to the driver of its type. -/
theorem ensures_open {filename : Mem} {i e : ℕ} {d : Driver} (hslot : FirstFree s.files i)
    (he : E.image.lookup filename = some (some e)) (hd : openType filename (E.image.dentryType e) = d.type) :
    Ensures (ece391Open E filename) s fun fd s' =>
      fd = i ∧ s.Did [] (Function.update s.files i (d.slot (E.image.dentryInode e))) s' := by
  have hfree : FirstFree s.resumed.cur.fileArray i := s.resumed_files ▸ hslot
  have hopen : sysOpen E (s.turns 0).openFile filename s.resumed = _ := sysOpen_of_found hfree he
  rw [hd, boundTo_type, Option.map_some, Option.getD_some] at hopen
  have hrun : (ece391Open E filename).run s
      = some ((i : ℤ), s.returned (s.resumed.setFile i (d.slot (E.image.dentryInode e))) []) := by
    show (sysOpen E (s.turns 0).openFile filename s.resumed).map _ = _
    rw [hopen]
    rfl
  refine .of_run _ _ hrun ⟨rfl, Process.did_returned ?_ _⟩
  rw [Kernel.setFile_fileArray, s.resumed_files]

/-- No entry, or no descriptor. -/
theorem ensures_open_missing {filename : Mem} (he : E.image.lookup filename = some none) :
    Ensures (ece391Open E filename) s fun fd s' => fd = -1 ∧ s.Did [] s.files s' := by
  have hopen : sysOpen E (s.turns 0).openFile filename s.resumed = some (-1, s.resumed) := by
    rw [sysOpen]
    split
    · rfl
    · rw [Image.readDentryByName_missing he]
      rfl
  have hrun : (ece391Open E filename).run s = some (-1, s.returned s.resumed []) := by
    show (sysOpen E (s.turns 0).openFile filename s.resumed).map _ = _
    rw [hopen]
    rfl
  exact .of_run _ _ hrun ⟨rfl, Process.did_returned s.resumed_files _⟩

theorem Image.Directory.entryName_ne_nil {img : Image} {n e : ℕ} (hdir : img.Directory n) (he : e < n) :
    img.entryName e ≠ [] := by
  intro hnil
  exact hdir.named e he ((cStringFrom_eq_nil_iff _ (by decide) 0).mp hnil)

/-- The first entry with a name is the one that the name leads to. -/
theorem Image.Directory.lookup_named {img : Image} {n e : ℕ} (hdir : img.Directory n) (hn : n < 63) (he : e < n)
    (hfirst : ∀ d < e, img.entryName d ≠ img.entryName e) {fname : Mem} (hname : Spells fname (img.entryName e)) :
    img.lookup fname = some (some e) := by
  refine (lookup_eq_found_iff hname (img.entryName_length_le e)).mpr ⟨hdir.entryName_ne_nil he, ?_, rfl, fun d hd => ?_⟩
  · unfold dentryRound
    omega
  · exact ⟨hfirst d hd, hdir.entryName_ne_nil (by omega)⟩

/-- A directory of `n` entries, less than the search can walk through, that has an entry for itself. -/
structure Image.Root (img : Image) (n : ℕ) : Prop where
  directory : img.Directory n
  bound : n < 63
  dot : ∃ e < n, img.entryName e = dotName ∧ img.dentryType e = typeDir ∧ ∀ d < e, img.entryName d ≠ dotName

/-- Entry `e` is the one that its name leads to, and a regular file. -/
structure Image.FileEntry (img : Image) (n e : ℕ) : Prop where
  entry : e < n
  first : ∀ d < e, img.entryName d ≠ img.entryName e
  regular : img.dentryType e = typeFile
  notTerminal : (img.entryName e).take 8 ≠ terminalText
  file : img.RegularFile (img.dentryInode e)

theorem ensures_open_dot {n i : ℕ} (hroot : E.image.Root n) (hslot : FirstFree s.files i) :
    Ensures (ece391Open E (literal dotName)) s fun fd s' =>
      fd = i ∧ s.Did [] (Function.update s.files i (dirSlot 0)) s' := by
  obtain ⟨e, he, hname, htype, hfirst⟩ := hroot.dot
  have hspells : Spells (literal dotName) (E.image.entryName e) := by
    rw [hname]
    exact .literal (by decide)
  have hopenType : openType (literal dotName) (E.image.dentryType e) = Driver.dir.type := by
    rw [openType_eq hspells, hname, if_neg (by decide), htype]
    rfl
  exact ensures_open hslot (hroot.directory.lookup_named hroot.bound he (hname.symm ▸ hfirst) hspells) hopenType

/-- A descriptor open on a regular file, at `pos`. -/
def fileSlot (inode pos : ℕ) : FileStruct := ⟨some .file, inode, pos, flagOpen ||| typeFile⟩

theorem fileSlot_openOn (inode pos : ℕ) : (fileSlot inode pos).OpenOn .file := ⟨rfl, rfl⟩

theorem ensures_open_file {n e i : ℕ} (hroot : E.image.Root n) (hentry : E.image.FileEntry n e) {fname : Mem}
    (hname : Spells fname (E.image.entryName e)) (hslot : FirstFree s.files i) :
    Ensures (ece391Open E fname) s fun fd s' =>
      fd = i ∧ s.Did [] (Function.update s.files i (fileSlot (E.image.dentryInode e) 0)) s' := by
  have hopenType : openType fname (E.image.dentryType e) = Driver.file.type := by
    rw [openType_eq hname, if_neg hentry.notTerminal, hentry.regular]
    rfl
  exact ensures_open hslot (hroot.directory.lookup_named hroot.bound hentry.entry hentry.first hname) hopenType

/-- How many bytes a read of less than a block returns: it ends with the file, and with the block. -/
def Image.shortCount (img : Image) (inode pos n : ℕ) : ℕ :=
  min (min n (img.inodeLength inode - pos)) (bytesPerBlock - pos % bytesPerBlock)

theorem Image.readCount_eq_shortCount (img : Image) (inode : ℕ) {pos n : ℕ} (hn : n < bytesPerBlock) :
    img.readCount inode pos n = img.shortCount inode pos n := by
  unfold bytesPerBlock at hn
  have hblock : min n (img.inodeLength inode - pos) / 4096 = 0 := Nat.div_eq_of_lt (by omega)
  rw [readCount, clampLength_eq_min, reach, shortCount, bytesPerBlock, hblock]
  omega

/-- A read that does not go to the terminal. -/
theorem run_read {fd : ℤ} {buf buf' : Mem} {n r : ℤ} {k : Kernel} (hfops : (s.files fd.toNat).fopsTable ≠ some .term)
    (hread : sysRead E fd buf n (s.turns 0).waiting s.resumed = some (r, buf', k)) :
    (ece391Read E fd buf n).run s = some ((r, buf'), s.returned k []) := by
  have hnone : terminalInput fd buf' r s.resumed = [] := by
    rw [terminalInput, s.resumed_files, if_neg hfops]
  show (sysRead E fd buf n (s.turns 0).waiting s.resumed).map _ = _
  rw [hread]
  simp only [Option.map_some, hnone, ite_self]

/-- **One read of a file**: the bytes at the position, which moves behind them. -/
theorem ensures_read_file {inode pos i : ℕ} (hfile : E.image.RegularFile inode) (hslot : s.files i = fileSlot inode pos)
    (hi : 2 ≤ i ∧ i < 8) (hpos : pos ≤ E.image.inodeLength inode) (buf : Mem) {n : ℕ} (h0 : 0 < n)
    (hn : n < bytesPerBlock) :
    Ensures (ece391Read E i buf n) s fun r s' =>
      r = ((E.image.shortCount inode pos n : ℤ), fun j =>
        if j < E.image.shortCount inode pos n then E.image.fileByte inode (pos + j) else buf j) ∧
      s.Did [] (Function.update s.files i (fileSlot inode (pos + E.image.shortCount inode pos n))) s' := by
  have hblock : n < 4096 := hn
  have hword : toUInt32 (n : ℤ) = n := by
    unfold toUInt32
    omega
  have hopen : ((i : ℤ) = 0 ∨ 2 ≤ (i : ℤ) ∧ (i : ℤ) < 8) ∧ (s.resumed.cur.fileArray (i : ℤ).toNat).IsOpen := by
    rw [Int.toNat_natCast, s.resumed_files, hslot]
    exact ⟨by omega, (fileSlot_openOn inode pos).isOpen⟩
  have hsys : sysRead E i buf n (s.turns 0).waiting s.resumed = some (regFileRead E i buf n s.resumed) := by
    rw [sysRead, if_pos hopen, Int.toNat_natCast, s.resumed_files, hslot]
    rfl
  have hlen := hfile.length
  rcases Nat.lt_or_eq_of_le hpos with hmore | hend
  · have hcount : 0 < E.image.shortCount inode pos n ∧
        pos + E.image.shortCount inode pos n ≤ E.image.inodeLength inode := by
      rw [Image.shortCount, bytesPerBlock]
      omega
    have hdata := Image.readData_spec hfile.exists_inode hmore h0 (fun b hb => (hfile.blocks b hb).1) buf
    rw [E.image.readCount_eq_shortCount inode hn] at hdata
    generalize E.image.shortCount inode pos n = c at hcount hdata ⊢
    have hint : toInt32 c = c := if_pos (by omega)
    have hmoved : toUInt32 ((pos : ℤ) + c) = pos + c := by
      unfold toUInt32
      omega
    have hreg : regFileRead E i buf n s.resumed = ((c : ℤ),
        (fun j => if j < c then E.image.fileByte inode (pos + j) else buf j),
        s.resumed.setFile i (fileSlot inode (pos + c))) := by
      rw [regFileRead, s.resumed_files, hslot, hword]
      dsimp only
      rw [if_pos (show (fileSlot inode pos).flags = typeFile ||| flagOpen from rfl),
        show E.image.readData (fileSlot inode pos).inode (fileSlot inode pos).filePosition buf n = _ from hdata, hint]
      dsimp only [fileSlot]
      rw [if_pos (by omega), hmoved]
    refine .of_run ((c : ℤ), _) (s.returned (s.resumed.setFile i (fileSlot inode (pos + c))) []) ?_
      ⟨rfl, Process.did_returned ?_ _⟩
    · exact run_read (by rw [Int.toNat_natCast, hslot]; simp [fileSlot]) (by rw [hsys, hreg])
    · rw [Kernel.setFile_fileArray, s.resumed_files]
  · have hcount : E.image.shortCount inode pos n = 0 := by
      rw [Image.shortCount]
      omega
    have hreg : regFileRead E i buf n s.resumed = (0, buf, s.resumed) := by
      have hdata : E.image.readData (fileSlot inode pos).inode (fileSlot inode pos).filePosition buf (toUInt32 n)
          = (0, buf) := Image.readData_nothing hfile.exists_inode hpos (Or.inl hend) buf
      rw [regFileRead, s.resumed_files, hslot]
      dsimp only
      rw [if_pos (show (fileSlot inode pos).flags = typeFile ||| flagOpen from rfl), hdata]
      rfl
    rw [hcount, Nat.add_zero, ← hslot, Function.update_eq_self]
    refine .of_run (0, buf) (s.returned s.resumed []) ?_ ⟨?_, Process.did_returned s.resumed_files _⟩
    · exact run_read (by rw [Int.toNat_natCast, hslot]; simp [fileSlot]) (by rw [hsys, hreg])
    · simp only [Nat.not_lt_zero, if_false, Nat.cast_zero]

/-- **One read of the directory**: its next name, or nothing behind the last one. -/
theorem ensures_read_dir {pos i : ℕ} (hslot : s.files i = dirSlot pos) (hi : 2 ≤ i ∧ i < 8) (hpos : pos + 1 < 2 ^ 32)
    (buf : Mem) {n : ℤ} (h0 : 1 ≤ n) (h32 : n ≤ 32) :
    Ensures (ece391Read E i buf n) s fun r s' => if E.image.dentryName pos 0 = 0 then
        r = (0, buf) ∧ s.Did [] s.files s'
      else r = (n, filledWith (E.image.entryName pos) n buf) ∧
        s.Did [] (Function.update s.files i (dirSlot (pos + 1))) s' := by
  have hresumed : s.resumed.cur.fileArray i = dirSlot pos := by rw [s.resumed_files, hslot]
  have hfops : (s.files (i : ℤ).toNat).fopsTable ≠ some .term := by
    rw [Int.toNat_natCast, hslot]
    simp [dirSlot]
  have hsys := dirSlot_read (E := E) hresumed hi hpos buf n h0 h32 (s.turns 0).waiting
  by_cases hend : E.image.dentryName pos 0 = 0
  · rw [if_pos hend] at hsys
    simp only [if_pos hend]
    exact .of_run (0, buf) (s.returned s.resumed []) (run_read hfops hsys)
      ⟨rfl, Process.did_returned s.resumed_files _⟩
  · rw [if_neg hend] at hsys
    simp only [if_neg hend]
    refine .of_run (n, filledWith (E.image.entryName pos) n buf)
      (s.returned (s.resumed.setFile i (dirSlot (pos + 1))) []) (run_read hfops hsys) ⟨rfl, Process.did_returned ?_ _⟩
    rw [Kernel.setFile_fileArray, s.resumed_files]

/-- The clock interrupts every wait. -/
def Process.Ticks (s : Process) : Prop :=
  ∀ i k, ((s.turns i).waiting.meanwhile.resume k).rtc.interruptHappened = true

theorem Process.Ticks.of_did {s' : Process} (h : s.Ticks) {text : List UInt8} {files : ℕ → FileStruct}
    (hdid : s.Did text files s') : s'.Ticks := by
  obtain ⟨c, hc⟩ := hdid.later
  intro i k
  rw [hc]
  exact h _ k

/-- **One read of the clock** waits for its interrupt. -/
theorem ensures_read_rtc {i : ℕ} (hslot : (s.files i).OpenOn .rtc) (hi : 2 ≤ i ∧ i < 8) (hticks : s.Ticks) (buf : Mem)
    (n : ℤ) : Ensures (ece391Read E i buf n) s fun r s' => r = (0, buf) ∧ s.Did [] s.files s' := by
  have hopen : ((i : ℤ) = 0 ∨ 2 ≤ (i : ℤ) ∧ (i : ℤ) < 8) ∧ (s.resumed.cur.fileArray (i : ℤ).toNat).IsOpen := by
    rw [Int.toNat_natCast, s.resumed_files]
    exact ⟨by omega, hslot.isOpen⟩
  obtain ⟨k, hk⟩ : ∃ k, k = (s.turns 0).waiting.meanwhile.resume
      { s.resumed with rtc := { s.resumed.rtc with interruptHappened := false } } := ⟨_, rfl⟩
  have hread : sysRead E i buf n (s.turns 0).waiting s.resumed = some (0, buf, k) := by
    rw [sysRead, if_pos hopen, Int.toNat_natCast, s.resumed_files, hslot.1, hk]
    exact if_pos (hticks 0 _)
  refine .of_run (0, buf) (s.returned k []) (run_read ?_ hread) ⟨rfl, Process.did_returned ?_ _⟩
  · rw [Int.toNat_natCast, hslot.1]
    simp
  · rw [hk]
    exact ((s.turns 0).waiting.meanwhile.sameFiles _).fileArray.trans s.resumed_files

/-- Closing a descriptor that is open on a driver. -/
theorem ensures_close {i : ℕ} {d : Driver} (hslot : (s.files i).OpenOn d) (hi : 2 ≤ i ∧ i < 8) :
    Ensures (ece391Close i) s fun r s' =>
      r = 0 ∧ s.Did [] (Function.update s.files i { s.files i with flags := flagClose }) s' := by
  have hopen : (2 ≤ (i : ℤ) ∧ (i : ℤ) < 8) ∧ (s.resumed.cur.fileArray (i : ℤ).toNat).IsOpen := by
    rw [Int.toNat_natCast, s.resumed_files]
    exact ⟨by omega, hslot.isOpen⟩
  have hclose : sysClose i s.resumed = some (0, s.resumed.setFile i { s.files i with flags := flagClose }) := by
    rw [sysClose, if_pos hopen, Int.toNat_natCast, s.resumed_files, hslot.1]
    cases d <;> rfl
  refine .of_run 0 (s.returned (s.resumed.setFile i { s.files i with flags := flagClose }) []) ?_
    ⟨rfl, Process.did_returned ?_ _⟩
  · show (sysClose i s.resumed).map _ = _
    rw [hclose]
    rfl
  · rw [Kernel.setFile_fileArray, s.resumed_files]

/-- The arguments arrive as a string, in a buffer that ends them. -/
theorem ensures_getargs {args : List UInt8} (hargs : Spells s.kernel.cur.arguments args) (hpos : 0 < args.length)
    {buf : Mem} (hends : EndsArguments buf args.length) {nbytes : ℤ} (hbytes : (args.length : ℤ) < nbytes)
    (hmax : nbytes < 2 ^ 31) :
    Ensures (ece391Getargs buf nbytes) s fun r s' => r.1 = 0 ∧ Spells r.2 args ∧ s.Did [] s.files s' := by
  have hspells : Spells s.resumed.cur.arguments args := s.resumed_arguments ▸ hargs
  have hget : sysGetargs (some buf) nbytes s.resumed = _ := sysGetargs_eq hspells hpos (by omega) hbytes hmax
  obtain ⟨bufSize, hsize, hend⟩ := (endsArguments_iff (by omega)).mp hends
  rw [hsize, Option.map_some] at hget
  refine .of_run (0, fun i => if i < args.length then args.getD i 0
      else if (i : ℤ) < toInt32 bufSize then 0 else buf i) (s.returned s.resumed []) ?_
    ⟨rfl, ⟨hargs.nul_free, fun i hi => ?_⟩, Process.did_returned s.resumed_files _⟩
  · show (sysGetargs (some buf) nbytes s.resumed).map _ = _
    rw [hget]
    rfl
  · dsimp only
    rcases Nat.lt_or_eq_of_le hi with hlt | heq
    · rw [if_pos hlt]
    · rw [heq, if_neg (Nat.lt_irrefl _), hend, List.getD_eq_getElem?_getD, List.getElem?_eq_none (Nat.le_refl _),
        Option.getD_none]

end Calls

/-- A process that has just been started with `args`, on a quiet machine. -/
def startedWith (args : List UInt8) : Process where
  kernel := powerOnKernel.modify powerOnKernel.pcb fun p =>
    { p with arguments := literal args, fileArray := openTerminal 1 (openTerminal 0 p.fileArray) }
  turns := fun _ => .quiet
  history := []

end ClosKernel
