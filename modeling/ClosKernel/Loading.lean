import ClosKernel.Entries
import ClosKernel.Memcpy
import ClosKernel.Reuse
import Mathlib.Data.List.TakeWhile

/-!
# Loading a program

A call of `sys_execute` makes its checks first.  Behind `setup_paging` it looks the program up again, reads it into an
array on the stack and copies it with `memcpy` through the page directory of the new process.  Since both lookups and
both reads see the same image, nothing fails there any more, and a call that returns -1 has only printed.

* `sys_execute_fails_iff` — **failing calls**: when they occur, and that they change nothing but the screen;
* `copyOut_eq_memcpy` — the program is copied by the word-wise `memcpy`;
* `program_loaded` — **loading**: the program page of the new process holds the file, and starts where the file says.
-/

namespace ClosKernel

open PartialRun Image

/-! ### Calls that fail -/

section Failing

variable {E : Platform} {st : Stack} {command : List UInt8} {k : Kernel}

/-- The check comes back just if the search does. -/
theorem checkExe_eq_none_iff (img : Image) (cmd : Mem) : checkExe img st cmd = none ↔ img.lookup cmd = none := by
  rw [checkExe, readDentryByName_eq, Option.map_eq_none_iff, Option.map_eq_none_iff]

/-- A call comes back, or starts a process, just if the check comes back. -/
theorem sysExecute_eq_none_iff :
    sysExecute E st command k = none ↔ checkExe E.image st (commandBuffers command st.cmd).1 = none := by
  constructor
  · intro hnone
    by_contra hsome
    obtain ⟨⟨ok, text⟩, hcheck⟩ := Option.ne_none_iff_exists'.mp hsome
    rcases checkExe_cases hcheck with ⟨rfl, -⟩ | ⟨rfl, rfl, r, hr, hexe⟩
    · rw [sysExecute, sysExecuteWith] at hnone
      simp [hcheck] at hnone
    · cases hfree : freePid k.pidBitmap with
      | none =>
        rw [sysExecute, sysExecuteWith] at hnone
        simp [hcheck, show (k.printf []).pidBitmap = k.pidBitmap from rfl, hfree] at hnone
      | some free =>
        rw [sysExecute_launches hr hexe hfree] at hnone
        cases hnone
  · intro hnone
    rw [sysExecute, sysExecuteWith]
    simp [hnone]

end Failing

/-- What `sys_execute` pushes for its `iret`. -/
structure IretFrame where
  eip : ℕ
  cs : ℕ
  eflags : ℕ
  esp : ℕ
  ss : ℕ

def iretFrame (progImg : Mem) (eflags : ℕ) : IretFrame where
  eip := entryPoint progImg
  cs := 0x0023
  eflags := eflags ||| 0x0200
  esp := childEsp
  ss := 0x002B

/-- The states in which the kernel calls `sys_execute`: for the system call of a running process, for the shell that
replaces a root shell, for the shell of a new terminal, and for the first shell. -/
inductive CallsExecute (E : Platform) : Kernel → Prop where
  | syscall {as : List Action} {k : Kernel} : Reaches E as k → CallsExecute E k
  | replace {as : List Action} {k : Kernel} (ebx : ℕ) : Reaches E as k → CallsExecute E (k.restarting ebx)
  | start {as : List Action} {k : Kernel} (s : Screen) (isr : ℕ → Bool) (n : ℤ) :
      Reaches E as k → CallsExecute E (k.starting s isr n)
  | boot {k : Kernel} : PowerOn k → CallsExecute E (beforeShell E k)

section Loading

variable {E : Platform} {k : Kernel} {st : Stack} {command name : List UInt8} {r p : ℕ}

/-- The page tables are in order whenever `sys_execute` is called. -/
theorem CallsExecute.ok (hshell : ValidShell E.image) (h : CallsExecute E k) : k.paging.Ok E.layout := by
  cases h with
  | syscall hreach => exact (reaches_cpuAgrees hshell hreach).2.ok
  | replace ebx hreach => exact (reaches_cpuAgrees hshell hreach).2.ok
  | start s isr n hreach => exact (reaches_cpuAgrees hshell hreach).2.ok
  | boot hpower => exact Paging.initilizePaging_ok _ _

/-- A file that is shorter than the array on the stack is read as a whole. -/
theorem imageLength_eq (h : E.image.inodeLength (E.image.dentryInode r) < progBytes) :
    imageLength E r = E.image.inodeLength (E.image.dentryInode r) := by
  rw [imageLength, Image.readCount, Image.clampLength_eq_min, Image.reach, bytesPerBlock]
  omega

/-- The `memcpy` of `sys_execute`, from `src` on the stack to the program page. -/
def copyImage (E : Platform) (P : Paging) (src : ℕ) (progImg : Mem) (n : ℕ) (phys : ℕ → UInt8) : ℕ → UInt8 :=
  memcpy (fun _ a => progImg (a - src))
    (fun a b phys => ((P.translate E.layout P.cr3 a).map fun t => Function.update phys t.phys b).getD phys)
    (imgOffset + entryPointStart) src n phys

/-- The word-wise copy stores what the byte-wise one stores: the array is not part of the program page. -/
theorem copyOut_eq_memcpy (P : Paging) {src n : ℕ} (progImg : Mem) (phys : ℕ → UInt8) (hn : n ≤ progBytes)
    (hsrc : src + n ≤ 2 ^ 32) :
    copyOut E.layout P (imgOffset + entryPointStart) progImg n phys = copyImage E P src progImg n phys := by
  have hdest : imgOffset + entryPointStart + n ≤ 2 ^ 32 := by
    unfold imgOffset entryPointStart progBytes at *
    omega
  rw [copyImage, memcpy_eq_copyBytes hdest hsrc (fun i _ j _ v m => rfl), copyOut, copyBytes]
  refine upto_congr (fun i _ m => ?_) phys
  rw [Nat.add_sub_cancel_left]

/-- What is in memory once the program of entry `r` has been loaded for process `p`. -/
theorem Kernel.loaded_phys (hprog : ProgramAt E.image name r) (hok : k.paging.Ok E.layout) (hp : p < 6) :
    (k.loaded E st p r).phys
      = stored (frameBase p + imgOffset) (readProgram E st r).2 (imageLength E r) k.phys := by
  have hlen : 0 < E.image.inodeLength (E.image.dentryInode r) := Nat.lt_of_lt_of_le (by decide) hprog.length
  have hfits : imageLength E r ≤ progBytes := (Image.readCount_bounds hlen (by decide)).2.1
  have hroom : imgOffset + imageLength E r ≤ 0x400000 := by
    unfold imgOffset progBytes at *
    omega
  rw [Kernel.loaded]
  dsimp only
  rw [(readProgram_eq hprog st).1]
  exact copyOut_program _ k.phys (hok.setupPaging hp) hp (k.paging.pageDir_setupPaging E.layout hp (Or.inl rfl)) rfl
    hroom

end Loading

/-- **Loading.**  In any state in which the kernel calls `sys_execute` with a pid free, a program of at least 28 bytes
that is shorter than the array on the stack is launched.  Its file is in the program page of the new process, from
0x48000 on, and no other byte of memory has changed; the copy is the one that `memcpy` makes, wherever the array is.
The process starts at the address in bytes 24 to 27 of the file. -/
theorem program_loaded {E : Platform} (hshell : ValidShell E.image) {k : Kernel} (hcall : CallsExecute E k)
    (st : Stack) {command : List UInt8} {r p : ℕ} (hprog : ProgramAt E.image (firstWord command) r)
    (hlow : 28 ≤ E.image.inodeLength (E.image.dentryInode r))
    (hhigh : E.image.inodeLength (E.image.dentryInode r) < 63 * 4096) (hfree : freePid k.pidBitmap = some p) :
    ∃ k', sysExecute E st command k = some (.launched, k') ∧
      (∀ o < E.image.inodeLength (E.image.dentryInode r),
        k'.phys (frameBase p + 0x48000 + o) = E.image.fileByte (E.image.dentryInode r) o) ∧
      (∀ a, (∀ o < E.image.inodeLength (E.image.dentryInode r), a ≠ frameBase p + 0x48000 + o) →
        k'.phys a = k.phys a) ∧
      (∀ src, src + E.image.inodeLength (E.image.dentryInode r) ≤ 2 ^ 32 → k'.phys = copyImage E k'.paging src
        (readProgram E st r).2 (E.image.inodeLength (E.image.dentryInode r)) k.phys) ∧
      k'.tss.eip = entryPoint (E.image.fileByte (E.image.dentryInode r)) ∧
      ∀ eflags, (iretFrame (readProgram E st r).2 eflags).eip = k'.tss.eip := by
  have hok := hcall.ok hshell
  have hp : p < 6 := ((freePid_eq_some_iff _ _).mp hfree).1
  have hlen : imageLength E r = E.image.inodeLength (E.image.dentryInode r) := imageLength_eq hhigh
  obtain ⟨hcount, hbytes⟩ := readProgram_eq hprog st
  have hkeeps := enterProcess_keeps p (readProgram E st r).2 (commandBuffers command st.cmd).2 (k.loaded E st p r)
  have hphys := hkeeps.phys
  have hpaging := hkeeps.paging
  have hmem := hphys.trans (Kernel.loaded_phys hprog hok hp)
  rw [hlen] at hcount hbytes hmem
  refine ⟨_, hprog.launches hfree, fun o ho => ?_, fun a ha => ?_, fun src hsrc => ?_, ?_, fun eflags => ?_⟩
  · rw [hmem, stored, imgOffset, if_pos (by omega), Nat.add_sub_cancel_left, hbytes o ho]
  · rw [hmem, stored, imgOffset, if_neg]
    intro hin
    exact ha (a - (frameBase p + 0x48000)) (by omega) (by omega)
  · rw [hphys, hpaging, ← copyOut_eq_memcpy _ _ _ (Nat.le_of_lt hhigh) hsrc, ← hcount]
    rfl
  · rw [hkeeps.eip, entryPoint, entryPoint, hbytes 24 (by omega), hbytes 25 (by omega), hbytes 26 (by omega),
      hbytes 27 (by omega)]
  · exact hkeeps.eip.symm

theorem program_loaded_ls : ∃ b k', boot twoProgramPlatform default powerOnKernel = some b ∧
    sysExecute twoProgramPlatform default lsName b = some (.launched, k') ∧
    (∀ o < 28, k'.phys (frameBase 1 + 0x48000 + o) = twoProgramImage.fileByte 1 o) ∧ k'.tss.eip = 0 := by
  have heval : ((boot twoProgramPlatform default powerOnKernel).any fun b =>
      decide (freePid b.pidBitmap = some 1)) = true := by
    decide +kernel
  simp only [Option.any_eq_true, decide_eq_true_eq] at heval
  obtain ⟨b, hboot, hfree⟩ := heval
  have hreach : Reaches twoProgramPlatform [] b := reaches_of_runs hboot rfl
  have hlen : twoProgramImage.inodeLength (twoProgramImage.dentryInode 1) = 28 := by decide
  obtain ⟨k', hlaunch, hbytes, -, -, heip, -⟩ := program_loaded twoProgramPlatform_shell (.syscall hreach) default
    (show ProgramAt twoProgramPlatform.image (firstWord lsName) 1 from twoProgramImage_ls)
    (Nat.le_of_eq hlen.symm) (lt_of_eq_of_lt hlen (by decide)) hfree
  refine ⟨b, k', hboot, hlaunch, fun o ho => ?_, ?_⟩
  · exact (hbytes o (Nat.lt_of_lt_of_eq ho hlen.symm)).trans (congrArg (twoProgramImage.fileByte · o) (by decide))
  · rw [heip]
    decide

end ClosKernel
