import ClosKernel.KernelStack

/-!
# The descriptor table (`sys_open`, `sys_read`, `sys_write`, `sys_close` of `syscalls.c`)

A process has eight descriptors, two of them for its terminal.  `flags` says at once whether a slot is in use and
which device it is for, the four calls test it in different ways, and each driver tests it again.  Here the calls of
one process run in any order, with anything that the rest of the machine may do in between.

* `findSlot_cases` — the search of `sys_open` stops at the lowest closed slot;
* `sysOpen_cases` — everything `sys_open` can do;
* `TableChange`, `fileStep_change` — the four things that ever happen to the table;
* `Effect.keeps_process`, `Effect.keeps_program`, `exists_meanwhile` — what the machine does between two calls of a
  process leaves its table alone;
* `runs_created_or_kept` — every process starts with nothing but its terminal open;
* `descriptor_table_discipline` — the discipline of the table after every run.
-/

namespace ClosKernel

open PartialRun LinkedStack

/-- The type that `flags` gives to a descriptor of the driver. -/
def Driver.type : Driver → ℕ
  | .rtc => typeRtc
  | .dir => typeDir
  | .file => typeFile
  | .term => typeTerm

/-- `rtc_close`, `dir_close`, `reg_file_close` and `tClose`. -/
def Driver.close : Driver → ℤ
  | .rtc | .dir | .file | .term => 0

namespace FileStruct

/-- `flags & OPEN`. -/
def IsOpen (f : FileStruct) : Prop := f.flags &&& flagOpen ≠ 0

instance (f : FileStruct) : Decidable f.IsOpen := inferInstanceAs (Decidable (_ ≠ _))

/-- The slot is in use for a device: the table of functions and the flags agree. -/
def OpenOn (d : Driver) (f : FileStruct) : Prop := f.fopsTable = some d ∧ f.flags = flagOpen ||| d.type

instance (d : Driver) (f : FileStruct) : Decidable (f.OpenOn d) := inferInstanceAs (Decidable (_ ∧ _))

end FileStruct

/-! ### The calls -/

/-- The loop of `sys_open` from slot `i`. -/
def findSlot (a : ℕ → FileStruct) : ℕ → ℕ → Option ℕ
  | 0, _ => none
  | n + 1, i =>
    if (a i).flags ≠ flagClose then if maxOpenFiles - 1 ≤ i then none else findSlot a n (i + 1)
    else some i

/-- The `switch` of `sys_open`; its default leaves the slot as it is. -/
def boundTo (fileType inodeNum : ℕ) : Option FileStruct :=
  if fileType = typeDir then some ⟨some .dir, 0, 0, flagOpen ||| typeDir⟩
  else if fileType = typeFile then some ⟨some .file, inodeNum, 0, flagOpen ||| typeFile⟩
  else if fileType = typeRtc then some ⟨some .rtc, 0, 0, flagOpen ||| typeRtc⟩
  else if fileType = typeTerm then some ⟨some .term, 0, 0, flagOpen ||| typeTerm⟩
  else none

def terminalName : Mem := literal (ascii "terminal".toList)

/-- The type under which an entry is opened: names that begin with "terminal" are the terminal. -/
def openType (filename : Mem) (fileType : ℕ) : ℕ :=
  if strncmp filename terminalName 8 = 0 then typeTerm else fileType

/-- `sys_open`; `openFile` is what its uninitialised `dentry_t` holds. -/
def sysOpen (E : Platform) (openFile : Dentry) (filename : Mem) (k : Kernel) : Option (ℤ × Kernel) :=
  match findSlot k.cur.fileArray (maxOpenFiles - 2) 2 with
  | none => some (-1, k)
  | some i =>
    (E.image.readDentryByName filename openFile).map fun
      | none => (-1, k)
      | some openFile =>
        (i, ((boundTo (openType filename openFile.fileType) openFile.inodeNum).map (k.setFile i)).getD k)

/-- The `read` functions of the four tables. -/
def Driver.read (E : Platform) (fd : ℕ) (buf : Mem) (nbytes : ℤ) (w : Waiting) (k : Kernel) :
    Driver → Option (ℤ × Mem × Kernel)
  | .rtc => rtcRead w buf k
  | .dir => some (dirRead E fd buf nbytes k)
  | .file => some (regFileRead E fd buf nbytes k)
  | .term => tRead w buf nbytes k

/-- `sys_read`.  A call through a pointer to none of the four tables leaves the model. -/
def sysRead (E : Platform) (fd : ℤ) (buf : Mem) (nbytes : ℤ) (w : Waiting) (k : Kernel) :
    Option (ℤ × Mem × Kernel) :=
  if (fd = 0 ∨ 2 ≤ fd ∧ fd < 8) ∧ (k.cur.fileArray fd.toNat).IsOpen then
    (k.cur.fileArray fd.toNat).fopsTable.bind (Driver.read E fd.toNat buf nbytes w k)
  else some (-1, buf, k)

/-- `sys_write`; files and directories are read-only. -/
def sysWrite (fd : ℤ) (buf : Mem) (nbytes : ℤ) (k : Kernel) : Option (ℤ × Kernel) :=
  if (1 ≤ fd ∧ fd < 8) ∧ (k.cur.fileArray fd.toNat).IsOpen then
    (k.cur.fileArray fd.toNat).fopsTable.bind fun
      | .rtc => rtcWrite buf k
      | .dir => some (-1, k)
      | .file => some (-1, k)
      | .term => some (tWrite buf nbytes k)
  else some (-1, k)

def sysClose (fd : ℤ) (k : Kernel) : Option (ℤ × Kernel) :=
  if (2 ≤ fd ∧ fd < 8) ∧ (k.cur.fileArray fd.toNat).IsOpen then
    (k.cur.fileArray fd.toNat).fopsTable.map fun d =>
      (d.close, k.setFile fd.toNat { k.cur.fileArray fd.toNat with flags := flagClose })
  else some (-1, k)

/-- What can happen in the life of a process, as far as its descriptors are concerned. -/
inductive FileAction where
  | sysOpen (openFile : Dentry) (filename : Mem)
  | sysRead (fd : ℤ) (buf : Mem) (nbytes : ℤ) (w : Waiting)
  | sysWrite (fd : ℤ) (buf : Mem) (nbytes : ℤ)
  | sysClose (fd : ℤ)
  /-- The process computes, makes other calls, or waits while others run. -/
  | others (w : Meanwhile)

def fileStep (E : Platform) : FileAction → Kernel → Option Kernel
  | .sysOpen openFile filename, k => (sysOpen E openFile filename k).map Prod.snd
  | .sysRead fd buf nbytes w, k => (sysRead E fd buf nbytes w k).map fun r => r.2.2
  | .sysWrite fd buf nbytes, k => (sysWrite fd buf nbytes k).map Prod.snd
  | .sysClose fd, k => (sysClose fd k).map Prod.snd
  | .others w, k => some (w.resume k)

/-! ### Sound tables -/

theorem FileStruct.OpenOn.isOpen {d : Driver} {f : FileStruct} (h : f.OpenOn d) : f.IsOpen := by
  rw [FileStruct.IsOpen, h.2]
  cases d <;> decide

theorem FileStruct.not_isOpen_of_close {f : FileStruct} (h : f.flags = flagClose) : ¬f.IsOpen := by
  rw [FileStruct.IsOpen, h]
  decide

/-- The terminal is open on the first two descriptors; the others are closed or open on a device. -/
structure SoundTable (a : ℕ → FileStruct) : Prop where
  standard : ∀ i < 2, (a i).OpenOn .term
  others : ∀ i, 2 ≤ i → i < 8 → (a i).flags = flagClose ∨ ∃ d, (a i).OpenOn d

/-- Descriptor `i` is the lowest one that is not in use. -/
def LowestClosed (a : ℕ → FileStruct) (i : ℕ) : Prop :=
  (2 ≤ i ∧ i < 8) ∧ ¬(a i).IsOpen ∧ ∀ j, 2 ≤ j → j < i → (a j).IsOpen

/-- **The four things that happen to a table.** -/
inductive TableChange (a : ℕ → FileStruct) : (ℕ → FileStruct) → Prop
  | same : TableChange a a
  | opened (i : ℕ) (d : Driver) (inode : ℕ) (hi : 2 ≤ i ∧ i < 8) (hclosed : (a i).flags = flagClose) :
      TableChange a (Function.update a i ⟨some d, inode, 0, flagOpen ||| d.type⟩)
  | closed (i : ℕ) (hi : 2 ≤ i ∧ i < 8) : TableChange a (Function.update a i { a i with flags := flagClose })
  | moved (i pos : ℕ) : TableChange a (Function.update a i { a i with filePosition := pos })

namespace SoundTable

variable {a a' : ℕ → FileStruct}

theorem device (h : SoundTable a) {i : ℕ} (hi : i < 8) (hopen : (a i).IsOpen) : ∃ d, (a i).OpenOn d := by
  by_cases h2 : i < 2
  · exact ⟨_, h.standard i h2⟩
  · exact (h.others i (by omega) hi).resolve_left fun hclose => FileStruct.not_isOpen_of_close hclose hopen

theorem isOpen_iff (h : SoundTable a) {i : ℕ} (h2 : 2 ≤ i) (hi : i < 8) :
    (a i).IsOpen ↔ (a i).flags ≠ flagClose := by
  refine ⟨fun hopen hclose => FileStruct.not_isOpen_of_close hclose hopen, fun hne => ?_⟩
  obtain ⟨d, hd⟩ := (h.others i h2 hi).resolve_left hne
  exact hd.isOpen

theorem update (h : SoundTable a) {i : ℕ} (hi : 2 ≤ i ∧ i < 8) {f : FileStruct}
    (hf : f.flags = flagClose ∨ ∃ d, f.OpenOn d) : SoundTable (Function.update a i f) := by
  refine ⟨fun j hj => ?_, fun j h2 hj => ?_⟩
  · rw [Function.update_of_ne (by omega)]
    exact h.standard j hj
  · by_cases hji : j = i
    · rw [hji, Function.update_self]
      exact hf
    · rw [Function.update_of_ne hji]
      exact h.others j h2 hj

theorem change (h : SoundTable a) (hchange : TableChange a a') : SoundTable a' := by
  cases hchange with
  | same => exact h
  | opened i d inode hi hclosed => exact h.update hi (Or.inr ⟨d, rfl, rfl⟩)
  | closed i hi => exact h.update hi (Or.inl rfl)
  | moved i pos =>
    -- neither the flags nor the functions of a slot change
    have hslot : ∀ j, (Function.update a i { a i with filePosition := pos } j).flags = (a j).flags ∧
        (Function.update a i { a i with filePosition := pos } j).fopsTable = (a j).fopsTable := by
      intro j
      by_cases hji : j = i
      · rw [hji, Function.update_self]
        exact ⟨rfl, rfl⟩
      · rw [Function.update_of_ne hji]
        exact ⟨rfl, rfl⟩
    refine ⟨fun j hj => ?_, fun j h2 hj => ?_⟩
    · rw [FileStruct.OpenOn, (hslot j).1, (hslot j).2]
      exact h.standard j hj
    · simp only [FileStruct.OpenOn, (hslot j).1, (hslot j).2]
      exact h.others j h2 hj

end SoundTable

/-! ### What the calls do to the table -/

section Calls

variable {E : Platform} {k k' : Kernel} {a : ℕ → FileStruct}

/-- The search stops at the first slot whose flags are zero. -/
theorem findSlot_cases (a : ℕ → FileStruct) {n i : ℕ} (hi : i + n = maxOpenFiles) :
    (findSlot a n i = none ∧ ∀ j, i ≤ j → j < 8 → (a j).flags ≠ flagClose) ∨
    ∃ r, findSlot a n i = some r ∧ (i ≤ r ∧ r < 8) ∧ (a r).flags = flagClose ∧
      ∀ j, i ≤ j → j < r → (a j).flags ≠ flagClose := by
  unfold maxOpenFiles at hi
  induction n generalizing i with
  | zero => exact Or.inl ⟨rfl, fun j h1 h2 => by omega⟩
  | succ n ih =>
    rw [findSlot]
    by_cases hclose : (a i).flags = flagClose
    · rw [if_neg (not_not.mpr hclose)]
      exact Or.inr ⟨i, rfl, ⟨Nat.le_refl i, by omega⟩, hclose, fun j h1 h2 => by omega⟩
    · rw [if_pos hclose]
      -- slot `i` is in use: whatever is known from `i + 1` on is known from `i` on
      have hstep : ∀ {m}, (∀ j, i + 1 ≤ j → j < m → (a j).flags ≠ flagClose) →
          ∀ j, i ≤ j → j < m → (a j).flags ≠ flagClose := by
        intro m h j h1 h2
        rcases Nat.eq_or_lt_of_le h1 with rfl | hlt
        · exact hclose
        · exact h j hlt h2
      by_cases hlast : maxOpenFiles - 1 ≤ i
      · rw [if_pos hlast]
        unfold maxOpenFiles at hlast
        exact Or.inl ⟨rfl, hstep fun j h1 h2 => by omega⟩
      · rw [if_neg hlast]
        rcases ih (i := i + 1) (by omega) with ⟨hnone, hall⟩ | ⟨r, hr, hbounds, hfree, hbefore⟩
        · exact Or.inl ⟨hnone, hstep hall⟩
        · exact Or.inr ⟨r, hr, ⟨by omega, hbounds.2⟩, hfree, hstep hbefore⟩

/-- What a slot becomes when it is opened on a driver. -/
def Driver.slot (d : Driver) (inodeNum : ℕ) : FileStruct :=
  ⟨some d, if d = .file then inodeNum else 0, 0, flagOpen ||| d.type⟩

theorem boundTo_type (d : Driver) (inodeNum : ℕ) : boundTo d.type inodeNum = some (d.slot inodeNum) := by
  cases d <;> rfl

/-- The `switch` knows the types of the four drivers. -/
theorem boundTo_cases (fileType inodeNum : ℕ) :
    (∃ d : Driver, fileType = d.type) ∨ boundTo fileType inodeNum = none := by
  by_cases h : ∃ d : Driver, fileType = d.type
  · exact Or.inl h
  · have hno : ∀ d : Driver, fileType ≠ d.type := fun d hd => h ⟨d, hd⟩
    have hdir : fileType ≠ typeDir := hno .dir
    have hfile : fileType ≠ typeFile := hno .file
    have hrtc : fileType ≠ typeRtc := hno .rtc
    have hterm : fileType ≠ typeTerm := hno .term
    exact Or.inr (by rw [boundTo, if_neg hdir, if_neg hfile, if_neg hrtc, if_neg hterm])

theorem openType_known (filename : Mem) {fileType : ℕ} (h : fileType ≤ 2) :
    ∃ d : Driver, openType filename fileType = d.type := by
  unfold openType
  split
  · exact ⟨.term, rfl⟩
  · obtain rfl | rfl | rfl : fileType = 0 ∨ fileType = 1 ∨ fileType = 2 := by omega
    · exact ⟨.rtc, rfl⟩
    · exact ⟨.dir, rfl⟩
    · exact ⟨.file, rfl⟩

/-- **Everything `sys_open` can do**: it finds no slot, or no entry, or takes the first slot whose flags are zero and
opens it by the type of the entry. -/
theorem sysOpen_cases {n : ℕ} (hdir : E.image.Directory n) (hn : n < maxFiles) (openFile : Dentry)
    (filename : Mem) (k : Kernel) :
    (sysOpen E openFile filename k = some (-1, k) ∧
      ((∀ j, 2 ≤ j → j < 8 → (k.cur.fileArray j).flags ≠ flagClose) ∨
        ∀ d < n, ¬E.image.Matches filename d)) ∨
    ∃ i e : ℕ, (2 ≤ i ∧ i < 8) ∧ (k.cur.fileArray i).flags = flagClose ∧
      (∀ j, 2 ≤ j → j < i → (k.cur.fileArray j).flags ≠ flagClose) ∧
      e < n ∧ E.image.lookup filename = some (some e) ∧ E.image.Matches filename e ∧
      sysOpen E openFile filename k = some ((i : ℤ), ((boundTo (openType filename (E.image.dentryType e))
        (E.image.dentryInode e)).map (k.setFile i)).getD k) := by
  rw [sysOpen, Image.readDentryByName_eq]
  rcases findSlot_cases k.cur.fileArray (n := maxOpenFiles - 2) (i := 2) rfl with
    ⟨hnone, hall⟩ | ⟨i, hi, hbounds, hclosed, hbefore⟩
  · rw [hnone]
    exact Or.inl ⟨rfl, Or.inl hall⟩
  · rw [hi]
    rcases hdir.lookup_cases hn filename with ⟨e, he, hlookup, hmatch, -⟩ | ⟨hlookup, hno⟩
    · rw [hlookup]
      exact Or.inr ⟨i, e, hbounds, hclosed, hbefore, he, rfl, hmatch, rfl⟩
    · rw [hlookup]
      exact Or.inl ⟨rfl, Or.inr hno⟩

/-- What `sys_open` has done once it is back, in any directory. -/
theorem sysOpen_eq_some {openFile : Dentry} {filename : Mem} {fd : ℤ}
    (h : sysOpen E openFile filename k = some (fd, k')) :
    (fd = -1 ∧ k' = k) ∨ ∃ i fileType inodeNum : ℕ, fd = i ∧ (2 ≤ i ∧ i < 8) ∧
      (k.cur.fileArray i).flags = flagClose ∧ k' = ((boundTo fileType inodeNum).map (k.setFile i)).getD k := by
  rw [sysOpen] at h
  rcases findSlot_cases k.cur.fileArray (n := maxOpenFiles - 2) (i := 2) rfl with
    ⟨hnone, -⟩ | ⟨i, hi, hbounds, hclosed, -⟩
  · rw [hnone] at h
    cases h
    exact Or.inl ⟨rfl, rfl⟩
  · rw [hi] at h
    obtain ⟨r, -, hr⟩ := Option.map_eq_some_iff.mp h
    cases r with
    | none =>
      cases hr
      exact Or.inl ⟨rfl, rfl⟩
    | some dentry =>
      cases hr
      exact Or.inr ⟨i, _, _, rfl, hbounds, hclosed, rfl⟩

/-- A read leaves the table alone, or moves the position of its own descriptor. -/
theorem sysRead_cases {fd nbytes r : ℤ} {buf buf' : Mem} {w : Waiting}
    (h : sysRead E fd buf nbytes w k = some (r, buf', k')) :
    k.SameFiles k' ∨ 0 ≤ fd ∧
      ∃ pos, k' = k.setFile fd.toNat { k.cur.fileArray fd.toNat with filePosition := pos } := by
  rw [sysRead] at h
  split at h
  · rename_i hfd
    have hpos : 0 ≤ fd := by omega
    obtain ⟨d, -, h⟩ := Option.bind_eq_some_iff.mp h
    cases d with
    | rtc => exact Or.inl (rtcRead_sameFiles h)
    | term => exact Or.inl (tRead_sameFiles h)
    | dir =>
      obtain rfl : (dirRead E fd.toNat buf nbytes k).2.2 = k' :=
        congrArg (fun r => r.2.2) (Option.some_inj.mp h)
      exact (dirRead_eq E fd.toNat buf nbytes k).imp .of_eq fun hmoved => ⟨hpos, hmoved⟩
    | file =>
      obtain rfl : (regFileRead E fd.toNat buf nbytes k).2.2 = k' :=
        congrArg (fun r => r.2.2) (Option.some_inj.mp h)
      exact (regFileRead_eq E fd.toNat buf nbytes k).imp .of_eq fun hmoved => ⟨hpos, hmoved⟩
  · cases h
    exact Or.inl (.refl k)

theorem sysWrite_sameFiles {fd nbytes r : ℤ} {buf : Mem} (h : sysWrite fd buf nbytes k = some (r, k')) :
    k.SameFiles k' := by
  rw [sysWrite] at h
  split at h
  · obtain ⟨d, -, h⟩ := Option.bind_eq_some_iff.mp h
    cases d with
    | rtc => exact rtcWrite_sameFiles h
    | dir | file =>
      cases h
      exact .refl k
    | term =>
      obtain rfl : (tWrite buf nbytes k).2 = k' := congrArg Prod.snd (Option.some_inj.mp h)
      exact tWrite_sameFiles buf nbytes k
  · cases h
    exact .refl k

/-- **Inversion of a step**, as far as the descriptors are concerned. -/
theorem fileStep_change {n : ℕ} (hdir : E.image.Directory n) (hn : n < maxFiles)
    (htypes : ∀ d < n, E.image.dentryType d ≤ 2) {act : FileAction} (hstep : fileStep E act k = some k') :
    TableChange k.cur.fileArray k'.cur.fileArray := by
  cases act with
  | sysOpen openFile filename =>
    obtain ⟨⟨r, m⟩, hopen, rfl⟩ := Option.map_eq_some_iff.mp hstep
    rcases sysOpen_cases hdir hn openFile filename k with
      ⟨heq, -⟩ | ⟨i, e, hi, hclosed, -, he, -, -, heq⟩
    · rw [heq] at hopen
      cases hopen
      exact .same
    · obtain ⟨d, hd⟩ := openType_known filename (htypes e he)
      rw [heq, hd, boundTo_type, Option.map_some, Option.getD_some] at hopen
      cases hopen
      dsimp only
      rw [Kernel.setFile_fileArray]
      exact .opened i d _ hi hclosed
  | sysRead fd buf nbytes w =>
    obtain ⟨⟨r, buf', m⟩, hread, rfl⟩ := Option.map_eq_some_iff.mp hstep
    rcases sysRead_cases hread with hsame | ⟨-, pos, rfl⟩
    · rw [hsame.fileArray]
      exact .same
    · dsimp only
      rw [Kernel.setFile_fileArray]
      exact .moved _ pos
  | sysWrite fd buf nbytes =>
    obtain ⟨⟨r, m⟩, hwrite, rfl⟩ := Option.map_eq_some_iff.mp hstep
    rw [(sysWrite_sameFiles hwrite).fileArray]
    exact .same
  | sysClose fd =>
    obtain ⟨⟨r, m⟩, hclose, rfl⟩ := Option.map_eq_some_iff.mp hstep
    rw [sysClose] at hclose
    split at hclose
    · rename_i hfd
      obtain ⟨d, -, heq⟩ := Option.map_eq_some_iff.mp hclose
      cases heq
      dsimp only
      rw [Kernel.setFile_fileArray]
      exact .closed fd.toNat (by omega)
    · cases hclose
      exact .same
  | others w =>
    cases hstep
    rw [(w.sameFiles k).fileArray]
    exact .same

end Calls

/-! ### Between two calls -/

section Between

variable {E : Platform} {k k' : Kernel} {σ : Shells} {a : Action} {p : ℕ}

/-- A process that is live when another one is entered stays so, with the PCB it had. -/
theorem survives_enter {free : ℕ} (hfree : freePid k.pidBitmap = some free) (hlive : k.Live p)
    (parent term : ℤ) (progImg args : Mem) (pcbs : ℕ → Pcb) :
    (k.enter free parent term progImg args pcbs).Live p ∧
      (k.enter free parent term progImg args pcbs).proc p = pcbs (pcbAddr p) := by
  obtain ⟨hlt, hbit, -⟩ := (freePid_eq_some_iff _ _).mp hfree
  have hne : p ≠ free := by
    rintro rfl
    rw [Kernel.Live, hbit] at hlive
    cases hlive
  exact ⟨(k.live_enter hlt _ _ _ _ _ p).mpr (Or.inr hlive), by rw [k.proc_enter hlt, if_neg hne]⟩

/-- The parts of a PCB that belong to the program: its descriptors, its terminal and its arguments. -/
structure Pcb.SameProgram (p q : Pcb) : Prop where
  fileArray : q.fileArray = p.fileArray
  curTerminal : q.curTerminal = p.curTerminal
  arguments : q.arguments = p.arguments

theorem Pcb.SameProgram.refl (p : Pcb) : p.SameProgram p := ⟨rfl, rfl, rfl⟩

theorem Pcb.SameProgram.trans {p q r : Pcb} (h : p.SameProgram q) (h' : q.SameProgram r) : p.SameProgram r :=
  ⟨h'.fileArray.trans h.fileArray, h'.curTerminal.trans h.curTerminal, h'.arguments.trans h.arguments⟩

/-- `q` is the PCB `p` with another saved context, and a child link that is the old one, or none, or any if `calls`. -/
structure Pcb.Continues (calls : Prop) (p q : Pcb) : Prop where
  eq : ∃ ctx child, q = { saveContext ctx p with childPid := child }
  childPid : q.childPid = p.childPid ∨ q.childPid = -1 ∨ calls

theorem Pcb.Continues.refl {calls : Prop} (p : Pcb) : p.Continues calls p :=
  ⟨⟨⟨p.espSchedule, p.ebpSchedule⟩, p.childPid, rfl⟩, Or.inl rfl⟩

theorem Pcb.Continues.of_eq {calls : Prop} {p q : Pcb} (h : q = p) : p.Continues calls q := h ▸ .refl q

/-- **What the machine does to a process** that does not halt: it stays live, and its PCB changes in its saved context
and its child link only. -/
theorem Effect.keeps_process (htracks : k.Tracks σ) (heffect : Effect E k a k') (hlive : k.Live p)
    (hstays : k.pcb = pcbAddr p → ¬a.MayHalt) :
    k'.Live p ∧ (k.proc p).Continues (k.pcb = pcbAddr p ∧ ∃ st command, a = .execute st command) (k'.proc p) := by
  obtain ⟨c, l, htop, hpcb⟩ := htracks.current
  -- a store through `pcb`, seen from process `p`
  have hstore : ∀ {calls : Prop} {x : Pcb}, (k.pcb = pcbAddr p → k.cur.Continues calls x) →
      (k.proc p).Continues calls (Function.update k.pcbs k.pcb x (pcbAddr p)) := by
    intro calls x hx
    by_cases hp : pcbAddr p = k.pcb
    · rw [hp, Function.update_self, Kernel.proc, hp]
      exact hx hp.symm
    · rw [Function.update_of_ne hp, Kernel.proc]
      exact .refl _
  -- a process that another one's halting leaves
  have hleft : a.MayHalt → ∀ ebx, (k.dying ebx).Live p ∧ (k.dying ebx).proc p = k.proc p := by
    intro hhalt ebx
    have hne : k.pcb ≠ pcbAddr p := fun h => hstays h hhalt
    refine ⟨(htracks.table.live_dying htop hpcb ebx p).mpr ⟨hlive, fun h => hne (by rw [hpcb, h])⟩, ?_⟩
    exact Function.update_of_ne hne.symm _ _
  cases heffect with
  | screen | run | store | vidmap => exact ⟨hlive, .refl _⟩
  | call hr hfree =>
    obtain ⟨hlive', hproc⟩ := survives_enter (k := k.loaded E _ _ _) hfree hlive _ _ _ _ _
    refine ⟨hlive', ?_⟩
    rw [Kernel.called, hproc]
    exact hstore fun hp => ⟨⟨⟨k.cur.espSchedule, k.cur.ebpSchedule⟩, _, rfl⟩, Or.inr (Or.inr ⟨hp, _, _, rfl⟩)⟩
  | @replace _ hhalt st ebx r free hroot hr hfree =>
    obtain ⟨hlive', hproc⟩ :=
      survives_enter (k := (k.restarting ebx).loaded E _ _ _) hfree (hleft hhalt ebx).1 _ _ _ _ _
    exact ⟨hlive', .of_eq (hproc.trans (hleft hhalt ebx).2)⟩
  | @back _ hhalt ebx hne =>
    refine ⟨(hleft hhalt ebx).1, ?_⟩
    show (k.proc p).Continues _ (Function.update (k.dying ebx).pcbs (pcbAddr k.cur.parentPid.toNat)
      { k.proc k.cur.parentPid.toNat with childPid := -1 } (pcbAddr p))
    by_cases hp : pcbAddr p = pcbAddr k.cur.parentPid.toNat
    · rw [hp, Function.update_self, show k.proc p = k.proc k.cur.parentPid.toNat from congrArg k.pcbs hp]
      exact ⟨⟨⟨_, _⟩, -1, rfl⟩, Or.inr (Or.inl rfl)⟩
    · rw [Function.update_of_ne hp]
      exact .of_eq (hleft hhalt ebx).2
  | @start st n s isr r free hn hnew hs hr hfree =>
    obtain ⟨hlive', hproc⟩ :=
      survives_enter (k := (k.starting s isr n).loaded E st free r) hfree hlive (-1) n
        (readProgram E st r).2 (commandBuffers shellLine st.cmd).2 k.pcbs
    exact ⟨hlive', .of_eq hproc⟩
  | reselect => exact ⟨hlive, hstore fun _ => ⟨⟨k.cpu, k.cur.childPid, rfl⟩, Or.inl rfl⟩⟩
  | switch => exact ⟨hlive, hstore fun _ => ⟨⟨k.cpu, k.cur.childPid, rfl⟩, Or.inl rfl⟩⟩

/-- The program side of a process stays as it is. -/
theorem Effect.keeps_program (htracks : k.Tracks σ) (heffect : Effect E k a k') (hlive : k.Live p)
    (hstays : k.pcb = pcbAddr p → ¬a.MayHalt) : k'.Live p ∧ (k.proc p).SameProgram (k'.proc p) := by
  obtain ⟨hlive', ⟨ctx, child, heq⟩, -⟩ := heffect.keeps_process htracks hlive hstays
  rw [heq]
  exact ⟨hlive', rfl, rfl, rfl⟩

/-- The same along a run. -/
theorem keeps_program_of_runs (hshell : ValidShell E.image) (htracks : ∃ σ, k.Tracks σ) (hlive : k.Live p)
    {as : List Action} (hguard : Meets (step E) (fun a m => m.pcb = pcbAddr p → ¬a.MayHalt) as k)
    (hrun : runs (step E) as k = some k') : (k.proc p).SameProgram (k'.proc p) := by
  have hinv := runs_invariant_of_meets
    (P := fun m => (∃ σ, m.Tracks σ) ∧ m.Live p ∧ (k.proc p).SameProgram (m.proc p))
    (fun a m m' hstays ⟨⟨σ, hσ⟩, hm, hsame⟩ hstep => by
      have heffect := step_effect hshell hσ hstep
      obtain ⟨σ', -, hσ'⟩ := heffect.refines hσ
      obtain ⟨hm', hsame'⟩ := heffect.keeps_program hσ hm hstays
      exact ⟨⟨σ', hσ'⟩, hm', hsame.trans hsame'⟩)
    hguard ⟨htracks, hlive, .refl _⟩ hrun
  exact hinv.2.2

/-- Programs that fit leave it as it is on the machine where they are read over the PCBs, too. -/
theorem ReachesSafely.keeps_program (hshell : ValidShell E.image) {before as : List Action}
    (hreach : ReachesSafely E before k) (hlive : k.Live p)
    (hguard : Meets (stepOnStack E) (fun a m => StackSafe E a m ∧ (m.pcb = pcbAddr p → ¬a.MayHalt)) as k)
    (hrun : runs (stepOnStack E) as k = some k') : (k.proc p).SameProgram (k'.proc p) := by
  obtain ⟨hguard', hrun'⟩ := runs_refine_of_meets (fun _ _ _ h hstep => step_of_stepOnStack h.1 hstep) hguard hrun
  exact keeps_program_of_runs hshell (reaches_tracks hshell (hreach.reaches hshell)) hlive
    (hguard'.mono fun _ _ h => h.2) hrun'

/-- A change that leaves the running process its descriptors is something that can happen meanwhile. -/
theorem Kernel.SameFiles.exists_meanwhile (h : k.SameFiles k') : ∃ w : Meanwhile, w.resume k = k' := by
  classical
  refine ⟨⟨fun m => if m = k then k' else m, fun m => ?_⟩, if_pos rfl⟩
  by_cases hm : m = k
  · rw [if_pos hm, hm]
    exact h
  · rw [if_neg hm]
    exact .refl m

/-- **Between two calls.**  Whatever the machine does from a reachable state until process `p` runs again, as long as
`p` makes no call that can end it and all programs that are loaded fit, is a `Meanwhile` for `p`. -/
theorem exists_meanwhile (hshell : ValidShell E.image) {before as : List Action} (hreach : ReachesSafely E before k)
    (hp : k.pcb = pcbAddr p) (hlive : k.Live p)
    (hguard : Meets (stepOnStack E) (fun a m => StackSafe E a m ∧ (m.pcb = pcbAddr p → ¬a.MayHalt)) as k)
    (hrun : runs (stepOnStack E) as k = some k') (hp' : k'.pcb = pcbAddr p) :
    ∃ w : Meanwhile, w.resume k = k' := by
  refine Kernel.SameFiles.exists_meanwhile ⟨hp'.trans hp.symm, ?_⟩
  rw [Kernel.cur, Kernel.cur, hp, hp']
  exact (hreach.keeps_program hshell hlive hguard hrun).fileArray

end Between

/-! ### The discipline -/

/-- A process as `sys_execute` creates it: only its terminal is open. -/
structure Pcb.Created (p : Pcb) : Prop where
  standard : ∀ i < 2, (p.fileArray i).OpenOn .term
  closed : ∀ i, 2 ≤ i → i < 8 → (p.fileArray i).flags = flagClose

/-- All descriptors but the first two are closed. -/
def Pcb.Unused (p : Pcb) : Prop := ∀ i, 2 ≤ i → i < 8 → (p.fileArray i).flags = flagClose

/-- `sys_execute` opens the terminal on the first two descriptors and leaves the others as the PCB had them. -/
theorem Pcb.created_fresh {p : Pcb} (hclosed : p.Unused) (free : ℕ)
    (parent term : ℤ) (args : Mem) (c : Context) : (p.fresh free parent term args c).Created := by
  have hother : ∀ i, 2 ≤ i → (p.fresh free parent term args c).fileArray i = p.fileArray i := by
    intro i h2
    show openTerminal 1 (openTerminal 0 p.fileArray) i = _
    rw [openTerminal, Function.update_of_ne (by omega), openTerminal, Function.update_of_ne (by omega)]
  refine ⟨fun i hi => ?_, fun i h2 hi => by rw [hother i h2]; exact hclosed i h2 hi⟩
  obtain rfl | rfl : i = 0 ∨ i = 1 := by omega
  · exact ⟨rfl, rfl⟩
  · exact ⟨rfl, rfl⟩

theorem Pcb.Created.sound {p : Pcb} (h : p.Created) : SoundTable p.fileArray :=
  ⟨h.standard, fun i h2 hi => Or.inl (h.closed i h2 hi)⟩

/-! ### A process starts with its terminal only -/

/-- The PCBs that no process has are left with closed descriptors. -/
def Kernel.FreeUnused (k : Kernel) : Prop := ∀ p < 6, ¬k.Live p → (k.proc p).Unused

/-- The running process has changed its own descriptors. -/
def Kernel.setFiles (k : Kernel) (files : ℕ → FileStruct) : Kernel :=
  { k with pcbs := Function.update k.pcbs k.pcb { k.cur with fileArray := files } }

/-- An action of the machine, or any change of the running process to its own descriptors. -/
def tableStep (E : Platform) : Action ⊕ (ℕ → FileStruct) → Kernel → Option Kernel
  | .inl a, k => stepOnStack E a k
  | .inr files, k => some (k.setFiles files)

/-- All programs that the action loads fit. -/
def TableSafe (E : Platform) : Action ⊕ (ℕ → FileStruct) → Kernel → Prop
  | .inl a, k => StackSafe E a k
  | .inr _, _ => True

section Launched

variable {E : Platform} {k k' : Kernel} {σ : Shells} {a : Action}

/-- `sys_halt` closes all descriptors of the process that it takes the pid from. -/
theorem Kernel.FreeUnused.dying (h : k.FreeUnused) (htracks : k.Tracks σ) (ebx : ℕ) : (k.dying ebx).FreeUnused := by
  obtain ⟨c, l, htop, hpcb⟩ := htracks.current
  intro p hp hdead
  by_cases hcur : pcbAddr p = k.pcb
  · intro i _ h8
    show ((Function.update k.pcbs k.pcb _ (pcbAddr p)).fileArray i).flags = flagClose
    rw [hcur, Function.update_self]
    exact congrArg FileStruct.flags ((upto_update (fun _ (f : FileStruct) => { f with flags := flagClose })
      k.cur.fileArray maxOpenFiles i).trans (if_pos h8))
  · have hproc : (k.dying ebx).proc p = k.proc p := Function.update_of_ne hcur _ _
    rw [hproc]
    refine h p hp fun hlive => hdead ?_
    exact (htracks.table.live_dying htop hpcb ebx p).mpr ⟨hlive, fun heq => hcur (by rw [hpcb, heq])⟩

/-- The process that is entered gets an unused PCB. -/
theorem Kernel.FreeUnused.enter (h : k.FreeUnused) {free : ℕ} (hfree : freePid k.pidBitmap = some free)
    (parent term : ℤ) (progImg args : Mem) (pcbs : ℕ → Pcb)
    (hpcbs : ∀ p, (pcbs (pcbAddr p)).fileArray = (k.proc p).fileArray) :
    (k.enter free parent term progImg args pcbs).FreeUnused ∧
      (k.enter free parent term progImg args pcbs).cur.Created := by
  obtain ⟨hlt, hbit, -⟩ := (freePid_eq_some_iff _ _).mp hfree
  have hdead : ¬k.Live free := by
    rw [Kernel.Live, hbit]
    exact Bool.false_ne_true
  constructor
  · intro p hp hp'
    rw [k.live_enter hlt, not_or] at hp'
    rw [k.proc_enter hlt, if_neg hp'.1, Pcb.Unused, hpcbs]
    exact h p hp hp'.2
  · show ((k.enter free parent term progImg args pcbs).proc free).Created
    rw [k.proc_enter hlt, if_pos rfl]
    exact Pcb.created_fresh (h free hlt hdead) _ _ _ _ _

/-- A store through `pcb` that leaves the descriptors alone. -/
theorem Kernel.update_fileArray {x : Pcb} (hx : x.fileArray = k.cur.fileArray) (p : ℕ) :
    (Function.update k.pcbs k.pcb x (pcbAddr p)).fileArray = (k.proc p).fileArray := by
  by_cases hp : pcbAddr p = k.pcb
  · rw [hp, Function.update_self, hx, Kernel.proc, hp]
    rfl
  · rw [Function.update_of_ne hp, Kernel.proc]

/-- After an action the running process is new, with nothing but its terminal open, or it has been there before, with
the descriptors it had. -/
theorem Effect.created_or_kept (htracks : k.Tracks σ) (h : k.FreeUnused) (heffect : Effect E k a k') :
    k'.FreeUnused ∧ (k'.cur.Created ∨
      ∃ p, k.Live p ∧ k'.pcb = pcbAddr p ∧ k'.cur.fileArray = (k.proc p).fileArray) := by
  obtain ⟨c, l, htop, hpcb⟩ := htracks.current
  have hlive := htracks.live_current htop
  have hcur : k.cur = k.proc c := congrArg k.pcbs hpcb
  have hkept : k.cur.fileArray = (k.proc c).fileArray := congrArg Pcb.fileArray hcur
  -- the running process saves its context
  have hsave : ∀ p, (Function.update k.pcbs k.pcb (saveContext k.cpu k.cur) (pcbAddr p)).fileArray
      = (k.proc p).fileArray := Kernel.update_fileArray rfl
  have hunused : ∀ p < 6, ¬k.Live p →
      Pcb.Unused (Function.update k.pcbs k.pcb (saveContext k.cpu k.cur) (pcbAddr p)) := by
    intro p hp hdead
    rw [Pcb.Unused, hsave]
    exact h p hp hdead
  cases heffect with
  | screen | run | store | vidmap => exact ⟨h, Or.inr ⟨c, hlive, hpcb, hkept⟩⟩
  | @call st command r free hr hfree =>
    have hbase : (k.loaded E st free r).FreeUnused := h
    have hentered := hbase.enter hfree k.cur.pid k.cur.curTerminal (readProgram E st r).2
      (commandBuffers command st.cmd).2 _ (Kernel.update_fileArray (k := k) (x := { k.cur with childPid := free }) rfl)
    exact ⟨hentered.1, Or.inl hentered.2⟩
  | @replace _ _ st ebx r free hroot hr hfree =>
    have hbase : ((k.restarting ebx).loaded E st free r).FreeUnused := h.dying htracks ebx
    have hentered := hbase.enter hfree (-1) k.cur.curTerminal (readProgram E st r).2
      (commandBuffers shellCommand st.cmd).2 (k.restarting ebx).pcbs fun _ => rfl
    exact ⟨hentered.1, Or.inl hentered.2⟩
  | @back _ _ ebx hparent =>
    obtain ⟨σ', -, htracks'⟩ : ∃ σ', σ.Step σ' ∧ (k.resumedParent E ebx).Tracks σ' :=
      htracks.refines_resumedParent hparent
    obtain ⟨b, l', htop', hpcb'⟩ := htracks'.current
    have hlive' : (k.dying ebx).Live b := htracks'.live_current htop'
    have hb : pcbAddr k.cur.parentPid.toNat = pcbAddr b := hpcb'
    refine ⟨fun p hp hdead => ?_, Or.inr ⟨b, ((htracks.table.live_dying htop hpcb ebx b).mp hlive').1, hpcb', ?_⟩⟩
    · have hne : pcbAddr p ≠ pcbAddr k.cur.parentPid.toNat := fun heq =>
        hdead ((pcbAddr_inj hp).mp (heq.trans hb) ▸ hlive')
      show Pcb.Unused (Function.update (k.dying ebx).pcbs (pcbAddr k.cur.parentPid.toNat) _ (pcbAddr p))
      rw [Function.update_of_ne hne]
      exact h.dying htracks ebx p hp hdead
    · show (Function.update (k.dying ebx).pcbs (pcbAddr k.cur.parentPid.toNat) _
        (pcbAddr k.cur.parentPid.toNat)).fileArray = _
      rw [Function.update_self, Kernel.proc, hb]
      rfl
  | @start st n s isr r free hn hnew hs hr hfree =>
    have hbase : ((k.starting s isr n).loaded E st free r).FreeUnused := h
    have hentered := hbase.enter hfree (-1) n (readProgram E st r).2 (commandBuffers shellLine st.cmd).2
      k.pcbs fun _ => rfl
    exact ⟨hentered.1, Or.inl hentered.2⟩
  | reselect isr hp hp6 hrun =>
    refine ⟨hunused, Or.inr ⟨c, hlive, hpcb, ?_⟩⟩
    show (Function.update k.pcbs k.pcb (saveContext k.cpu k.cur) k.pcb).fileArray = _
    rw [Function.update_self]
    exact hkept
  | @switch p isr hp hp6 hrun => exact ⟨hunused, Or.inr ⟨p, hrun.1, rfl, hsave p⟩⟩

theorem Kernel.Tracks.setFiles (h : k.Tracks σ) (files : ℕ → FileStruct) : (k.setFiles files).Tracks σ := by
  refine h.congr rfl rfl (fun p _ => ?_) rfl rfl rfl h.curProc rfl
  show (Function.update k.pcbs k.pcb { k.cur with fileArray := files } (pcbAddr p)).SamePlace (k.proc p)
  by_cases hp : pcbAddr p = k.pcb
  · rw [hp, Function.update_self, Kernel.proc, hp]
    exact ⟨rfl, rfl, rfl, rfl⟩
  · rw [Function.update_of_ne hp]
    exact .refl _

/-- A live process may have any descriptors. -/
theorem Kernel.FreeUnused.setFiles (h : k.FreeUnused) (htracks : k.Tracks σ) (files : ℕ → FileStruct) :
    (k.setFiles files).FreeUnused := by
  obtain ⟨c, l, htop, hpcb⟩ := htracks.current
  intro p hp hdead
  have hne : pcbAddr p ≠ k.pcb := fun heq =>
    hdead ((pcbAddr_inj hp).mp (heq.trans hpcb) ▸ htracks.live_current htop)
  have hproc : (k.setFiles files).proc p = k.proc p := Function.update_of_ne hne _ _
  rw [hproc]
  exact h p hp hdead

/-- The first shell, too, gets an unused PCB. -/
theorem booted_created (st : Stack) (r : ℕ) (hpower : PowerOn k) (hunused : ∀ p, (k.proc p).Unused) :
    (k.booted E st r).FreeUnused ∧ (k.booted E st r).cur.Created := by
  have hfree : freePid k.pidBitmap = some 0 := by
    rw [hpower.pidBitmap]
    decide
  have hbase : ((beforeShell E k).loaded E st 0 r).FreeUnused := fun p _ _ => hunused p
  exact hbase.enter hfree (-1) 1 (readProgram E st r).2 (commandBuffers shellLine st.cmd).2 k.pcbs fun _ => rfl

theorem Kernel.setFiles_self (k : Kernel) : k.setFiles k.cur.fileArray = k := by
  show { k with pcbs := Function.update k.pcbs k.pcb (k.pcbs k.pcb) } = k
  rw [Function.update_eq_self]

/-- `sys_open` changes the descriptors of the running process and nothing else. -/
theorem tableStep_of_sysOpen {openFile : Dentry} {filename : Mem} {fd : ℤ}
    (h : sysOpen E openFile filename k = some (fd, k')) : ∃ files, tableStep E (.inr files) k = some k' := by
  rcases sysOpen_eq_some h with ⟨-, rfl⟩ | ⟨i, fileType, inodeNum, -, -, -, rfl⟩
  · exact ⟨_, congrArg some (Kernel.setFiles_self _)⟩
  · cases boundTo fileType inodeNum with
    | none => exact ⟨_, congrArg some k.setFiles_self⟩
    | some f => exact ⟨Function.update k.cur.fileArray i f, rfl⟩

/-- So does `sys_close`. -/
theorem tableStep_of_sysClose {fd r : ℤ} (h : sysClose fd k = some (r, k')) :
    ∃ files, tableStep E (.inr files) k = some k' := by
  rw [sysClose] at h
  split at h
  · obtain ⟨d, -, heq⟩ := Option.map_eq_some_iff.mp h
    cases heq
    exact ⟨Function.update k.cur.fileArray fd.toNat _, rfl⟩
  · cases h
    exact ⟨_, congrArg some k.setFiles_self⟩

/-- **A process starts with its terminal only.**  The PCBs start out with closed descriptors, as zeroed memory has them.
Then, whatever the machine has done, as long as all programs fit, and whatever the processes have opened, the process
that runs after an action is as `sys_execute` creates it, or has been there before and has the descriptors it had. -/
theorem runs_created_or_kept (hshell : ValidShell E.image) {k₀ b : Kernel} {st : Stack} (hpower : PowerOn k₀)
    (hunused : ∀ p, (k₀.proc p).Unused) (hfits : Fits E st shellLine) (hboot : bootOnStack E st k₀ = some b)
    {as : List (Action ⊕ (ℕ → FileStruct))} (hmeets : Meets (tableStep E) (TableSafe E) as b)
    (hrun : runs (tableStep E) as b = some k) (hsafe : StackSafe E a k) (hstep : stepOnStack E a k = some k') :
    k'.cur.Created ∨ ∃ p, k.Live p ∧ k'.pcb = pcbAddr p ∧ k'.cur.fileArray = (k.proc p).fileArray := by
  obtain ⟨r, hr⟩ := hshell
  rw [bootOnStack_eq_boot hfits, boot_eq st hr hpower, Option.some_inj] at hboot
  subst hboot
  obtain ⟨⟨σ, hσ⟩, hfree⟩ := runs_invariant_of_meets (P := fun k => (∃ σ : Shells, k.Tracks σ) ∧ k.FreeUnused)
    (fun act m m' hact ⟨⟨σ, hσ⟩, hm⟩ htable => by
      cases act with
      | inl a =>
        have heffect := step_effect ⟨r, hr⟩ hσ (step_of_stepOnStack hact htable)
        obtain ⟨σ', -, hσ'⟩ := heffect.refines hσ
        exact ⟨⟨σ', hσ'⟩, (heffect.created_or_kept hσ hm).1⟩
      | inr files =>
        cases htable
        exact ⟨⟨σ, hσ.setFiles files⟩, hm.setFiles hσ files⟩)
    hmeets ⟨booted_tracks st r hpower, (booted_created st r hpower hunused).1⟩ hrun
  exact ((step_effect ⟨r, hr⟩ hσ (step_of_stepOnStack hsafe hstep)).created_or_kept hσ hfree).2

end Launched

/-- What the calls of the running process do to its descriptors, in a directory with `n` entries. -/
structure Disciplined (E : Platform) (n : ℕ) (k : Kernel) : Prop where
  /-- The first two descriptors are open on the terminal. -/
  standard : ∀ i < 2, (k.cur.fileArray i).OpenOn .term
  /-- The flags of an open descriptor name the device of its functions. -/
  device : ∀ i < 8, (k.cur.fileArray i).IsOpen → ∃ d, (k.cur.fileArray i).OpenOn d
  /-- The tests of `reg_file_read` and `dir_read` succeed. -/
  checks : ∀ i < 8, (k.cur.fileArray i).IsOpen →
    ((k.cur.fileArray i).fopsTable = some .file → (k.cur.fileArray i).flags = typeFile ||| flagOpen) ∧
    ((k.cur.fileArray i).fopsTable = some .dir → (k.cur.fileArray i).flags = typeDir ||| flagOpen)
  /-- `sys_open` comes back, and fails exactly when all slots are in use or no entry has the name. -/
  open_fails : ∀ openFile filename, ∃ r k', sysOpen E openFile filename k = some (r, k') ∧
    (r = -1 ↔ (∀ i, 2 ≤ i → i < 8 → (k.cur.fileArray i).IsOpen) ∨ ∀ d < n, ¬E.image.Matches filename d) ∧
    (r = -1 → k' = k)
  /-- Otherwise it returns the lowest closed slot, opened at position 0, and changes nothing else. -/
  opens : ∀ openFile filename r k', sysOpen E openFile filename k = some (r, k') → r ≠ -1 →
    ∃ i d inode, r = (i : ℕ) ∧ LowestClosed k.cur.fileArray i ∧
      k' = k.setFile i ⟨some d, inode, 0, flagOpen ||| d.type⟩
  /-- `sys_close` succeeds exactly on an open slot that is not standard, and changes that slot only. -/
  closes : ∀ fd, ∃ r k', sysClose fd k = some (r, k') ∧
    (r = 0 ↔ (2 ≤ fd ∧ fd < 8) ∧ (k.cur.fileArray fd.toNat).IsOpen) ∧
    (r = 0 → k' = k.setFile fd.toNat { k.cur.fileArray fd.toNat with flags := flagClose }) ∧
    (r ≠ 0 → r = -1 ∧ k' = k)
  /-- A slot that was closed is opened again from position 0, once it is the lowest one. -/
  reopens : ∀ fd k' openFile filename, sysClose fd k = some (0, k') →
    (∀ j, 2 ≤ j → j < fd.toNat → (k.cur.fileArray j).IsOpen) → (∃ d < n, E.image.Matches filename d) →
    ∃ k'', sysOpen E openFile filename k' = some (fd, k'') ∧ (k''.cur.fileArray fd.toNat).IsOpen ∧
      (k''.cur.fileArray fd.toNat).filePosition = 0
  /-- `sys_read` refuses what is not open for reading. -/
  read_refused : ∀ fd buf nbytes w, fd = 1 ∨ fd < 0 ∨ 8 ≤ fd ∨ ¬(k.cur.fileArray fd.toNat).IsOpen →
    sysRead E fd buf nbytes w k = some (-1, buf, k)
  /-- `sys_write` refuses what is not open for writing. -/
  write_refused : ∀ fd buf nbytes, fd = 0 ∨ fd < 0 ∨ 8 ≤ fd ∨ ¬(k.cur.fileArray fd.toNat).IsOpen →
    sysWrite fd buf nbytes k = some (-1, k)

namespace SoundTable

variable {E : Platform} {n : ℕ} {k : Kernel}

theorem sysOpen_cases (h : SoundTable k.cur.fileArray) (hdir : E.image.Directory n) (hn : n < maxFiles)
    (htypes : ∀ d < n, E.image.dentryType d ≤ 2) (openFile : Dentry) (filename : Mem) :
    (sysOpen E openFile filename k = some (-1, k) ∧
      ((∀ i, 2 ≤ i → i < 8 → (k.cur.fileArray i).IsOpen) ∨ ∀ d < n, ¬E.image.Matches filename d)) ∨
    ∃ (i : ℕ) (d : Driver) (inode : ℕ), LowestClosed k.cur.fileArray i ∧
      (∃ e < n, E.image.Matches filename e) ∧ sysOpen E openFile filename k
        = some ((i : ℤ), k.setFile i ⟨some d, inode, 0, flagOpen ||| d.type⟩) := by
  rcases ClosKernel.sysOpen_cases hdir hn openFile filename k with
    ⟨heq, hwhy⟩ | ⟨i, e, hi, hclosed, hbefore, he, -, hmatch, heq⟩
  · exact Or.inl ⟨heq, hwhy.imp_left fun hall j h2 hj => (h.isOpen_iff h2 hj).mpr (hall j h2 hj)⟩
  · obtain ⟨d, hd⟩ := openType_known filename (htypes e he)
    rw [hd, boundTo_type, Option.map_some, Option.getD_some] at heq
    refine Or.inr ⟨i, d, _, ⟨hi, FileStruct.not_isOpen_of_close hclosed, fun j h2 hj => ?_⟩, ⟨e, he, hmatch⟩, heq⟩
    exact (h.isOpen_iff h2 (by omega)).mpr (hbefore j h2 hj)

theorem sysClose_cases (h : SoundTable k.cur.fileArray) (fd : ℤ) :
    (¬((2 ≤ fd ∧ fd < 8) ∧ (k.cur.fileArray fd.toNat).IsOpen) ∧ sysClose fd k = some (-1, k)) ∨
    (((2 ≤ fd ∧ fd < 8) ∧ (k.cur.fileArray fd.toNat).IsOpen) ∧ sysClose fd k
      = some (0, k.setFile fd.toNat { k.cur.fileArray fd.toNat with flags := flagClose })) := by
  by_cases hfd : (2 ≤ fd ∧ fd < 8) ∧ (k.cur.fileArray fd.toNat).IsOpen
  · obtain ⟨d, hd, -⟩ := h.device (by omega) hfd.2
    refine Or.inr ⟨hfd, ?_⟩
    rw [sysClose, if_pos hfd, hd]
    cases d <;> rfl
  · exact Or.inl ⟨hfd, if_neg hfd⟩

/-- The lowest closed slot is determined. -/
theorem lowestClosed_unique {a : ℕ → FileStruct} {i j : ℕ} (hi : LowestClosed a i) (hj : LowestClosed a j) :
    i = j := by
  rcases Nat.lt_trichotomy i j with hlt | heq | hgt
  · exact absurd (hj.2.2 i hi.1.1 hlt) hi.2.1
  · exact heq
  · exact absurd (hi.2.2 j hj.1.1 hgt) hj.2.1

/-- Closing a slot below which all are open makes it the next one to be opened. -/
theorem reopens (h : SoundTable k.cur.fileArray) (hdir : E.image.Directory n) (hn : n < maxFiles)
    (htypes : ∀ d < n, E.image.dentryType d ≤ 2) {i : ℕ} (hi : 2 ≤ i ∧ i < 8)
    (hbelow : ∀ j, 2 ≤ j → j < i → (k.cur.fileArray j).IsOpen) (openFile : Dentry) {filename : Mem}
    (hname : ∃ d < n, E.image.Matches filename d) :
    ∃ k', sysOpen E openFile filename (k.setFile i { k.cur.fileArray i with flags := flagClose })
        = some ((i : ℤ), k') ∧
      (k'.cur.fileArray i).IsOpen ∧ (k'.cur.fileArray i).filePosition = 0 := by
  have hfiles := k.setFile_fileArray i { k.cur.fileArray i with flags := flagClose }
  have hlowest : LowestClosed
      (k.setFile i { k.cur.fileArray i with flags := flagClose }).cur.fileArray i := by
    rw [hfiles]
    refine ⟨hi, ?_, fun j h2 hj => ?_⟩
    · rw [Function.update_self]
      exact FileStruct.not_isOpen_of_close rfl
    · rw [Function.update_of_ne (by omega)]
      exact hbelow j h2 hj
  have hsound : SoundTable
      (k.setFile i { k.cur.fileArray i with flags := flagClose }).cur.fileArray :=
    hfiles ▸ h.update hi (Or.inl rfl)
  rcases hsound.sysOpen_cases hdir hn htypes openFile filename with
    ⟨-, hall | hno⟩ | ⟨j, d, inode, hj, -, heq⟩
  · exact absurd (hall i hi.1 hi.2) hlowest.2.1
  · obtain ⟨d, hd, hmatch⟩ := hname
    exact absurd hmatch (hno d hd)
  · obtain rfl := lowestClosed_unique hj hlowest
    refine ⟨_, heq, ?_, ?_⟩
    · rw [Kernel.setFile_fileArray, Function.update_self]
      exact FileStruct.OpenOn.isOpen (d := d) ⟨rfl, rfl⟩
    · rw [Kernel.setFile_fileArray, Function.update_self]

/-- A sound table is disciplined. -/
theorem disciplined (h : SoundTable k.cur.fileArray) (hdir : E.image.Directory n) (hn : n < maxFiles)
    (htypes : ∀ d < n, E.image.dentryType d ≤ 2) : Disciplined E n k where
  standard := h.standard
  device _ hi hopen := h.device hi hopen
  checks i hi hopen := by
    obtain ⟨d, hfops, hflags⟩ := h.device hi hopen
    refine ⟨fun hfile => ?_, fun hdir => ?_⟩
    · obtain rfl := Option.some_inj.mp (hfops.symm.trans hfile)
      exact hflags
    · obtain rfl := Option.some_inj.mp (hfops.symm.trans hdir)
      exact hflags
  open_fails openFile filename := by
    rcases h.sysOpen_cases hdir hn htypes openFile filename with
      ⟨heq, hwhy⟩ | ⟨i, d, inode, hi, ⟨e, he, hmatch⟩, heq⟩
    · exact ⟨_, _, heq, iff_of_true rfl hwhy, fun _ => rfl⟩
    · refine ⟨_, _, heq, iff_of_false (by omega) ?_, fun hr => absurd hr (by omega)⟩
      rintro (hall | hno)
      · exact hi.2.1 (hall i hi.1.1 hi.1.2)
      · exact hno e he hmatch
  opens openFile filename r k' hopen hr := by
    rcases h.sysOpen_cases hdir hn htypes openFile filename with
      ⟨heq, -⟩ | ⟨i, d, inode, hi, -, heq⟩
    · rw [heq] at hopen
      cases hopen
      exact absurd rfl hr
    · rw [heq] at hopen
      cases hopen
      exact ⟨i, d, inode, rfl, hi, rfl⟩
  closes fd := by
    rcases h.sysClose_cases fd with ⟨hfd, heq⟩ | ⟨hfd, heq⟩
    · exact ⟨_, _, heq, iff_of_false (by decide) hfd, fun hr => absurd hr (by decide), fun _ => ⟨rfl, rfl⟩⟩
    · exact ⟨_, _, heq, iff_of_true rfl hfd, fun _ => rfl, fun hr => absurd rfl hr⟩
  reopens fd k' openFile filename hclose hbelow hname := by
    rcases h.sysClose_cases fd with ⟨-, heq⟩ | ⟨hfd, heq⟩
    · rw [heq] at hclose
      cases hclose
    · rw [heq] at hclose
      cases hclose
      have hfd' : ((fd.toNat : ℕ) : ℤ) = fd := Int.toNat_of_nonneg (by omega)
      have hre := h.reopens hdir hn htypes (by omega : 2 ≤ fd.toNat ∧ fd.toNat < 8) hbelow openFile hname
      rwa [hfd'] at hre
  read_refused fd buf nbytes w hfd := by
    rw [sysRead, if_neg]
    rintro ⟨hrange, hopen⟩
    rcases hfd with rfl | hfd | hfd | hfd
    · omega
    · omega
    · omega
    · exact hfd hopen
  write_refused fd buf nbytes hfd := by
    rw [sysWrite, if_neg]
    rintro ⟨hrange, hopen⟩
    rcases hfd with rfl | hfd | hfd | hfd
    · omega
    · omega
    · omega
    · exact hfd hopen

end SoundTable

/-- **The discipline of the descriptor table.**  A process starts with its terminal open and the other slots closed;
after any sequence of calls, with anything that the machine does in between, its table obeys `Disciplined`. -/
theorem descriptor_table_discipline {E : Platform} {n : ℕ} (hdir : E.image.Directory n) (hn : n < 63)
    (htypes : ∀ d < n, E.image.dentryType d ≤ 2) {k₀ k : Kernel} (hcreated : k₀.cur.Created)
    (as : List FileAction) (hrun : runs (fileStep E) as k₀ = some k) : Disciplined E n k := by
  have hsound : SoundTable k.cur.fileArray :=
    runs_invariant (P := fun m => SoundTable m.cur.fileArray)
      (fun _ _ _ hs hstep => hs.change (fileStep_change hdir hn htypes hstep)) hcreated.sound hrun
  exact hsound.disciplined hdir hn htypes

theorem twoProgramImage_directory : twoProgramImage.Directory 2 where
  named d hd := by
    obtain rfl | rfl : d = 0 ∨ d = 1 := by omega
    · decide
    · decide
  ends := by decide

theorem twoProgramImage_types : ∀ d < 2, twoProgramImage.dentryType d ≤ 2 := by decide

/-- `ls` is opened twice and the first descriptor closed: the next one to be opened is the first again. -/
def openTwice : List FileAction :=
  [.sysOpen ⟨fun _ => 0, 0, 0⟩ (literal (ascii "ls".toList)),
    .sysOpen ⟨fun _ => 0, 0, 0⟩ (literal (ascii "ls".toList)), .sysClose 2]

theorem descriptor_table_discipline_ls : ∃ b k, boot twoProgramPlatform default powerOnKernel = some b ∧
    runs (fileStep twoProgramPlatform) openTwice b = some k ∧ ¬(k.cur.fileArray 2).IsOpen ∧
    (k.cur.fileArray 3).OpenOn .file ∧ Disciplined twoProgramPlatform 2 k := by
  have heval : ((boot twoProgramPlatform default powerOnKernel).any fun b =>
      (runs (fileStep twoProgramPlatform) openTwice b).any fun k =>
        decide (¬(k.cur.fileArray 2).IsOpen ∧ (k.cur.fileArray 3).OpenOn .file)) = true := by
    decide +kernel
  simp only [Option.any_eq_true, decide_eq_true_eq] at heval
  obtain ⟨b, hboot, k, hrun, hclosed, hopen⟩ := heval
  have hcreated : b.cur.Created := by
    rw [boot_eq (E := twoProgramPlatform) default twoProgramImage_shell powerOnKernel_powerOn,
      Option.some_inj] at hboot
    exact hboot ▸ (booted_created default 0 powerOnKernel_powerOn fun _ _ _ _ => rfl).2
  exact ⟨b, k, hboot, hrun, hclosed, hopen, descriptor_table_discipline (E := twoProgramPlatform)
    twoProgramImage_directory (by decide) twoProgramImage_types hcreated openTwice hrun⟩

end ClosKernel
