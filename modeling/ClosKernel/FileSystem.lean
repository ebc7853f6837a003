import ClosKernel.CString
import Mathlib.Tactic.Ring

/-!
# The read-only file system (`fs.c`, `fs.h`)

The file-system image is the module that the boot loader placed in memory at `bblock`.  `Image` keeps the
bytes of the 32-bit address space relative to `bblock`; every accessor computes an offset with the pointer
arithmetic of `fs.h` and wraps it at `2 ^ 32`.  In particular a directory index past the 63 entries of the
boot block, or a block index past the 63 entries of an inode, reads whatever bytes are there.

* `readDentryByName`, `readDentryByIndex`, `readData` embed the three functions of `fs.c`.  The search loop
  of `readDentryByName` has no bound in the source; it is cut after one round of the address space, and
  `dentrySearch_diverges` shows that a search cut there never ends.
* `Directory.lookup_cases` — in a directory that ends before its last entry, a name is found or is not there.
* `fileByte` is the byte at a position of a file, block `i` of the file being data block `data_block[i]`.
* `readData_cases` — everything one call of `readData` can do;
* `readData_spec` says how much one call of `readData` copies and what: it may stop short of the requested
  length at a block boundary, but it always makes progress, and what it copies is the file's contents.
-/

namespace ClosKernel

def maxFiles : ℕ := 63
def bytesPerBlock : ℕ := 4096

/-- The file-system image, as the bytes at and after `bblock`. -/
structure Image where
  mem : Mem

/-- A directory entry as a caller receives it.  Only the first 32 bytes of `fileName` belong to the name. -/
structure Dentry where
  fileName : Mem
  fileType : ℕ
  inodeNum : ℕ

namespace Image

def byte (img : Image) (off : ℕ) : UInt8 := img.mem (off % 2 ^ 32)

/-- A little-endian 32-bit field, read as an unsigned value. -/
def word (img : Image) (off : ℕ) : ℕ :=
  (img.byte off).toNat + 2 ^ 8 * (img.byte (off + 1)).toNat
    + 2 ^ 16 * (img.byte (off + 2)).toNat + 2 ^ 24 * (img.byte (off + 3)).toNat

/-! ### The fields of the boot block and of the inodes -/

def inodeCnt (img : Image) : ℕ := img.word 4
def dataBlockCnt (img : Image) : ℕ := img.word 8

/-- The address of `bblock->dentry[d]`: a 64-byte header, then 64 bytes an entry. -/
def dentryAdrs (d : ℕ) : ℕ := 64 + 64 * d

def dentryName (img : Image) (d : ℕ) : Mem := fun i => img.byte (dentryAdrs d + i)
def dentryType (img : Image) (d : ℕ) : ℕ := img.word (dentryAdrs d + 32)
def dentryInode (img : Image) (d : ℕ) : ℕ := img.word (dentryAdrs d + 36)

/-- `GET_INODE_ADRS(index)`: the boot block and every inode take one block. -/
def getInodeAdrs (index : ℕ) : ℕ := bytesPerBlock * (1 + index)

/-- `GET_DATABLOCK_ADRS(index)`. -/
def getDatablockAdrs (img : Image) (index : ℕ) : ℕ := bytesPerBlock * (img.inodeCnt + index + 1)

def inodeLength (img : Image) (inode : ℕ) : ℕ := img.word (getInodeAdrs inode)
def dataBlock (img : Image) (inode i : ℕ) : ℕ := img.word (getInodeAdrs inode + 4 + 4 * i)

/-- The byte at position `pos` of a file. -/
def fileByte (img : Image) (inode pos : ℕ) : UInt8 :=
  img.byte (img.getDatablockAdrs (img.dataBlock inode (pos / bytesPerBlock)) + pos % bytesPerBlock)

/-! ### Looking up directory entries -/

/-- The entry a caller receives: the name is copied by `strcpy` over what the caller's structure held. -/
def copyDentry (img : Image) (d : ℕ) (dentry : Dentry) : Dentry where
  fileName := strcpy dentry.fileName (img.dentryName d)
  fileType := img.dentryType d
  inodeNum := img.dentryInode d

/-- The loop of `read_dentry_by_name` from entry `d`: the index of the first match, or `some none` at an
entry with an empty name, or `none` when `fuel` entries did not decide. -/
def dentrySearch (img : Image) (fname : Mem) : ℕ → ℕ → Option (Option ℕ)
  | 0, _ => none
  | fuel + 1, d =>
    if strncmp (img.dentryName d) fname 32 = 0 then some (some d)
    else if strncmp (img.dentryName d) emptyString 32 = 0 then some none
    else dentrySearch img fname fuel (d + 1)

/-- After this many entries the search is back at the first one. -/
def dentryRound : ℕ := 2 ^ 26

/-- `read_dentry_by_name`: `none` if the search never ends, `some none` for `-1`. -/
def readDentryByName (img : Image) (fname : Mem) (dentry : Dentry) : Option (Option Dentry) :=
  if strncmp fname emptyString 32 = 0 then some none
  else (img.dentrySearch fname dentryRound 0).map fun r => r.map fun d => img.copyDentry d dentry

/-- The loop of `read_dentry_by_index` from entry `d`, with `fuel` entries left before the last one. -/
def indexSearch (img : Image) (index : ℕ) : ℕ → ℕ → Option ℕ
  | fuel, d =>
    if img.dentryInode d ≠ index ∨ img.dentryType d ≠ 2 then
      match fuel with
      | 0 => none
      | fuel + 1 => indexSearch img index fuel (d + 1)
    else some d

def readDentryByIndex (img : Image) (index : ℕ) (dentry : Dentry) : Option Dentry :=
  (img.indexSearch index (maxFiles - 1) 0).map fun d => img.copyDentry d dentry

/-! ### Reading data -/

/-- The inner loop of `read_data` at index `j` of the block at `ptr`, with `n` iterations left.  The flag
says whether the function returned from inside the loop. -/
def readBlock (img : Image) (ptr length inLength : ℕ) : ℕ → ℕ → ℕ → Mem → Bool × ℕ × Mem
  | 0, _, copied, buf => (false, copied, buf)
  | n + 1, j, copied, buf =>
    if copied = length ∨ copied = inLength then (true, copied, buf)
    else readBlock img ptr length inLength n (j + 1) (copied + 1)
      (Function.update buf copied (img.byte (ptr + j)))

/-- The outer loop of `read_data` at block `i`, with `n` iterations left. -/
def readBlocks (img : Image) (inode offset length : ℕ) : ℕ → ℕ → ℕ → Mem → ℕ × Mem
  | 0, _, copied, buf => (copied, buf)
  | n + 1, i, copied, buf =>
    let start := if i = 0 then offset % bytesPerBlock else 0
    let cur := img.dataBlock inode (offset / bytesPerBlock + i)
    if cur = 0 then (copied, buf)
    else
      match img.readBlock (img.getDatablockAdrs cur) length (img.inodeLength inode)
          (bytesPerBlock - start) start copied buf with
      | (true, copied, buf) => (copied, buf)
      | (false, copied, buf) => readBlocks img inode offset length n (i + 1) copied buf

/-- The requested length after clamping to the end of the file. -/
def clampLength (img : Image) (inode offset length : ℕ) : ℕ :=
  if img.inodeLength inode - offset < length then img.inodeLength inode - offset else length

def readData (img : Image) (inode offset : ℕ) (buf : Mem) (length : ℕ) : ℤ × Mem :=
  if img.inodeCnt ≤ inode then (-1, buf)
  else if img.inodeLength inode < offset then (-1, buf)
  else if offset = img.inodeLength inode then (0, buf)
  else if length = 0 then (0, buf)
  else
    let length := img.clampLength inode offset length
    let (copied, buf) := img.readBlocks inode offset length (length / bytesPerBlock + 1) 0 0 buf
    (toInt32 copied, buf)

end Image

/-! ### The directory search -/

namespace Image

variable {img : Image} {fname : Mem}

/-- The entry `d` neither matches `fname` nor ends the directory. -/
def Passes (img : Image) (fname : Mem) (d : ℕ) : Prop :=
  strncmp (img.dentryName d) fname 32 ≠ 0 ∧ strncmp (img.dentryName d) emptyString 32 ≠ 0

/-- The index that `read_dentry_by_name` finds, with `none` and `some none` as there. -/
def lookup (img : Image) (fname : Mem) : Option (Option ℕ) :=
  if strncmp fname emptyString 32 = 0 then some none else img.dentrySearch fname dentryRound 0

theorem readDentryByName_eq (img : Image) (fname : Mem) (dentry : Dentry) :
    img.readDentryByName fname dentry
      = (img.lookup fname).map fun r => r.map fun d => img.copyDentry d dentry := by
  unfold readDentryByName lookup
  by_cases h : strncmp fname emptyString 32 = 0
  · rw [if_pos h, if_pos h]; rfl
  · rw [if_neg h, if_neg h]

theorem dentrySearch_eq_none_iff (fuel d : ℕ) :
    img.dentrySearch fname fuel d = none ↔ ∀ i < fuel, img.Passes fname (d + i) := by
  induction fuel generalizing d with
  | zero => exact ⟨fun _ i hi => by omega, fun _ => rfl⟩
  | succ fuel ih =>
    rw [dentrySearch]
    by_cases h1 : strncmp (img.dentryName d) fname 32 = 0
    · rw [if_pos h1]
      exact ⟨fun h => by simp at h, fun h => absurd h1 (h 0 (by omega)).1⟩
    · rw [if_neg h1]
      by_cases h2 : strncmp (img.dentryName d) emptyString 32 = 0
      · rw [if_pos h2]
        exact ⟨fun h => by simp at h, fun h => absurd h2 (h 0 (by omega)).2⟩
      · rw [if_neg h2, ih]
        constructor
        · intro h i hi
          rcases Nat.eq_zero_or_pos i with rfl | hpos
          · exact ⟨h1, h2⟩
          · have := h (i - 1) (by omega)
            rwa [show d + 1 + (i - 1) = d + i by omega] at this
        · intro h i hi
          rw [show d + 1 + i = d + (i + 1) by omega]
          exact h (i + 1) (by omega)

/-- Entry numbers are as good as their remainder: the address space wraps. -/
theorem dentryName_add_dentryRound (img : Image) (d : ℕ) :
    img.dentryName (d + dentryRound) = img.dentryName d := by
  funext i
  unfold dentryName byte dentryAdrs dentryRound
  congr 1
  omega

/-- **A search cut after one round never ends**: no larger bound decides it either. -/
theorem dentrySearch_diverges (h : img.dentrySearch fname dentryRound 0 = none) (fuel : ℕ) :
    img.dentrySearch fname fuel 0 = none := by
  rw [dentrySearch_eq_none_iff] at h ⊢
  intro i _
  induction i using Nat.strong_induction_on with
  | _ i ih =>
    by_cases hi : i < dentryRound
    · exact h i hi
    · have hprev := ih (i - dentryRound) (by unfold dentryRound at *; omega) (by omega)
      unfold Passes at hprev ⊢
      rw [← dentryName_add_dentryRound, Nat.zero_add, Nat.sub_add_cancel (by omega)] at hprev
      rwa [Nat.zero_add]

/-- A search that finds an entry finds a matching one, and every entry before it passes. -/
theorem dentrySearch_eq_found_iff (fuel d r : ℕ) :
    img.dentrySearch fname fuel d = some (some r) ↔
      d ≤ r ∧ r < d + fuel ∧ strncmp (img.dentryName r) fname 32 = 0 ∧
        ∀ i, d ≤ i → i < r → img.Passes fname i := by
  induction fuel generalizing d with
  | zero => exact ⟨fun h => by simp [dentrySearch] at h, fun h => by omega⟩
  | succ fuel ih =>
    rw [dentrySearch]
    by_cases h1 : strncmp (img.dentryName d) fname 32 = 0
    · rw [if_pos h1, Option.some_inj, Option.some_inj]
      constructor
      · rintro rfl
        exact ⟨Nat.le_refl d, by omega, h1, fun i h2 h3 => by omega⟩
      · rintro ⟨hle, _, _, hpass⟩
        by_contra hne
        exact (hpass d (Nat.le_refl d) (by omega)).1 h1
    · rw [if_neg h1]
      by_cases h2 : strncmp (img.dentryName d) emptyString 32 = 0
      · rw [if_pos h2]
        refine ⟨fun h => by simp at h, fun ⟨hle, _, hmatch, hpass⟩ => ?_⟩
        rcases Nat.eq_or_lt_of_le hle with rfl | hlt
        · exact absurd hmatch h1
        · exact absurd h2 (hpass d (Nat.le_refl d) hlt).2
      · rw [if_neg h2, ih]
        constructor
        · rintro ⟨hle, hlt, hmatch, hpass⟩
          refine ⟨by omega, by omega, hmatch, fun i hi hir => ?_⟩
          rcases Nat.eq_or_lt_of_le hi with rfl | hlt'
          · exact ⟨h1, h2⟩
          · exact hpass i hlt' hir
        · rintro ⟨hle, hlt, hmatch, hpass⟩
          have hne : d ≠ r := fun h => h1 (h ▸ hmatch)
          exact ⟨by omega, by omega, hmatch, fun i hi hir => hpass i (by omega) hir⟩

/-- The search looks at 32 bytes of the name only. -/
theorem dentrySearch_congr {fname fname' : Mem} (h : ∀ i < 32, fname i = fname' i) (fuel d : ℕ) :
    img.dentrySearch fname fuel d = img.dentrySearch fname' fuel d := by
  induction fuel generalizing d with
  | zero => rfl
  | succ fuel ih =>
    have hcmp : strncmp (img.dentryName d) fname 32 = 0 ↔ strncmp (img.dentryName d) fname' 32 = 0 :=
      strncmp_congr (fun _ _ => rfl) h
    simp only [dentrySearch, hcmp, ih (d + 1)]

theorem lookup_congr {fname fname' : Mem} (h : ∀ i < 32, fname i = fname' i) :
    img.lookup fname = img.lookup fname' := by
  have hempty : strncmp fname emptyString 32 = 0 ↔ strncmp fname' emptyString 32 = 0 :=
    strncmp_congr h (fun _ _ => rfl)
  simp only [lookup, hempty, dentrySearch_congr h]

/-- The directory has `n` entries: they have names, and the one after them has not. -/
structure Directory (img : Image) (n : ℕ) : Prop where
  named : ∀ d < n, img.dentryName d 0 ≠ 0
  ends : img.dentryName n 0 = 0

/-- Entry `d` is the one that `fname` means. -/
def Matches (img : Image) (fname : Mem) (d : ℕ) : Prop := strncmp (img.dentryName d) fname 32 = 0

instance (img : Image) (fname : Mem) (d : ℕ) : Decidable (img.Matches fname d) :=
  inferInstanceAs (Decidable (_ = (0 : ℤ)))

theorem Matches.first {d : ℕ} (h : img.Matches fname d) : img.dentryName d 0 = fname 0 :=
  (strncmp_eq_zero_iff _ _ _).mp h 0 (by decide) fun j hj => absurd hj (Nat.not_lt_zero j)

/-- The first entry with the name is found, if no entry before it is empty. -/
theorem lookup_found {d : ℕ} (hnamed : ∀ i ≤ d, img.dentryName i 0 ≠ 0) (hd : d < dentryRound)
    (hmatch : img.Matches fname d) (hfirst : ∀ i < d, ¬img.Matches fname i) : img.lookup fname = some (some d) := by
  have hfname : fname 0 ≠ 0 := hmatch.first ▸ hnamed d (Nat.le_refl d)
  rw [lookup, if_neg fun h => hfname ((strncmp_emptyString_iff _ (by decide)).mp h),
    dentrySearch_eq_found_iff]
  refine ⟨Nat.zero_le d, by omega, hmatch, fun i _ hi => ⟨hfirst i hi, fun h => ?_⟩⟩
  exact hnamed i (by omega) ((strncmp_emptyString_iff _ (by decide)).mp h)

/-- A name that no entry up to the end of the directory has is not found. -/
theorem lookup_missing {n : ℕ} (hend : img.dentryName n 0 = 0) (hn : n < dentryRound)
    (hnone : ∀ d < n, ¬img.Matches fname d) : img.lookup fname = some none := by
  by_cases hempty : fname 0 = 0
  · exact if_pos ((strncmp_emptyString_iff _ (by decide)).mpr hempty)
  · rw [lookup, if_neg fun h => hempty ((strncmp_emptyString_iff _ (by decide)).mp h)]
    have hstop : ¬img.Passes fname n := fun h =>
      h.2 ((strncmp_emptyString_iff _ (by decide)).mpr hend)
    rcases hsearch : img.dentrySearch fname dentryRound 0 with _ | _ | r
    · rw [dentrySearch_eq_none_iff] at hsearch
      exact absurd (hsearch n hn) (by rwa [Nat.zero_add])
    · rfl
    · -- a match would be the end of the directory, and then `fname` would be empty
      obtain ⟨-, -, hmatch, hbefore⟩ := (dentrySearch_eq_found_iff _ _ _).mp hsearch
      have hr : r = n := by
        rcases Nat.lt_trichotomy r n with hlt | heq | hgt
        · exact absurd hmatch (hnone r hlt)
        · exact heq
        · exact absurd (hbefore n (Nat.zero_le n) hgt) hstop
      have hname := Matches.first (show img.Matches fname r from hmatch)
      rw [hr, hend] at hname
      exact absurd hname.symm hempty

/-- **The search ends** in a directory with room for its end: it finds the first entry with the name, or there is
none. -/
theorem Directory.lookup_cases {n : ℕ} (hdir : img.Directory n) (hn : n < maxFiles) (fname : Mem) :
    (∃ d < n, img.lookup fname = some (some d) ∧ img.Matches fname d ∧ ∀ i < d, ¬img.Matches fname i) ∨
    (img.lookup fname = some none ∧ ∀ d < n, ¬img.Matches fname d) := by
  have hround : n < dentryRound := Nat.lt_trans hn (by decide)
  by_cases hex : ∃ d, d < n ∧ img.Matches fname d
  · obtain ⟨hlt, hmatch⟩ := Nat.find_spec hex
    have hfirst : ∀ i < Nat.find hex, ¬img.Matches fname i := fun i hi h =>
      Nat.find_min hex hi ⟨by omega, h⟩
    refine Or.inl ⟨Nat.find hex, hlt, lookup_found (fun i hi => ?_) (by omega) hmatch hfirst, hmatch, hfirst⟩
    exact hdir.named i (by omega)
  · have hnone : ∀ d < n, ¬img.Matches fname d := fun d hd h => hex ⟨d, hd, h⟩
    exact Or.inr ⟨lookup_missing hdir.ends hround hnone, hnone⟩

/-! ### What `readData` copies -/

variable {length inLength inode offset : ℕ}

/-- One block: the loop copies until the block or the request is exhausted. -/
theorem readBlock_spec (img : Image) (ptr : ℕ) (hlen : length ≤ inLength) (n j copied : ℕ) (buf : Mem)
    (hc : copied ≤ length) :
    img.readBlock ptr length inLength n j copied buf
      = (decide (length - copied < n), copied + min n (length - copied),
          fun i => if copied ≤ i ∧ i < copied + min n (length - copied) then
            img.byte (ptr + j + (i - copied)) else buf i) := by
  induction n generalizing j copied buf with
  | zero =>
    rw [readBlock]
    simp only [Nat.zero_min, Nat.add_zero, Nat.not_lt_zero, decide_false]
    refine congrArg _ (congrArg _ ?_)
    funext i
    rw [if_neg (by omega)]
  | succ n ih =>
    rw [readBlock]
    by_cases hdone : copied = length
    · rw [if_pos (Or.inl hdone), hdone]
      simp only [Nat.sub_self, Nat.min_zero, Nat.add_zero, Nat.succ_pos, decide_true]
      refine congrArg _ (congrArg _ ?_)
      funext i
      rw [if_neg (by omega)]
    · rw [if_neg (by omega), ih _ _ _ (by omega)]
      have hmin : copied + 1 + min n (length - (copied + 1)) = copied + min (n + 1) (length - copied) := by
        omega
      have hflag : decide (length - (copied + 1) < n) = decide (length - copied < n + 1) :=
        decide_eq_decide.mpr (by omega)
      rw [hmin, hflag]
      refine congrArg _ (congrArg _ ?_)
      funext i
      by_cases hi : i = copied
      · rw [if_neg (by omega), if_pos (by omega), hi, Function.update_self, Nat.sub_self,
          Nat.add_zero]
      · by_cases hin : copied + 1 ≤ i ∧ i < copied + min (n + 1) (length - copied)
        · rw [if_pos hin, if_pos (by omega)]
          exact congrArg img.byte (by omega)
        · rw [if_neg hin, if_neg (by omega), Function.update_of_ne hi]

/-- How many bytes the outer loop has copied once it has looked at `n` blocks. -/
def reach (offset length n : ℕ) : ℕ :=
  min length (bytesPerBlock * (offset / bytesPerBlock + n) - offset)

/-- The index inside block `i` at which the outer loop starts. -/
def blockStart (offset i : ℕ) : ℕ := if i = 0 then offset % bytesPerBlock else 0

theorem blockStart_lt (offset i : ℕ) : blockStart offset i < bytesPerBlock := by
  unfold blockStart bytesPerBlock
  split <;> omega

/-- Until the request is served, the next byte to copy is the first one of block `i` that is wanted. -/
theorem reach_position {i : ℕ} (h : reach offset length i < length) :
    offset + reach offset length i
      = bytesPerBlock * (offset / bytesPerBlock + i) + blockStart offset i := by
  unfold reach blockStart bytesPerBlock at *
  split <;> omega

theorem reach_succ {i : ℕ} (h : reach offset length i < length) :
    reach offset length i + min (bytesPerBlock - blockStart offset i) (length - reach offset length i)
      = reach offset length (i + 1) := by
  have hpos := reach_position h
  have hlt := blockStart_lt offset i
  unfold reach bytesPerBlock at *
  omega

/-- A byte copied from block `i` is the file's byte at its position. -/
theorem byte_eq_fileByte {i k : ℕ} (h : reach offset length i < length)
    (hk : reach offset length i ≤ k) (hk' : k < reach offset length (i + 1)) :
    img.byte (img.getDatablockAdrs (img.dataBlock inode (offset / bytesPerBlock + i))
        + blockStart offset i + (k - reach offset length i))
      = img.fileByte inode (offset + k) := by
  have hpos := reach_position h
  have hsucc := reach_succ h
  have hlt := blockStart_lt offset i
  have hdiv : (offset + k) / bytesPerBlock = offset / bytesPerBlock + i := by
    unfold bytesPerBlock at *
    omega
  have hmod : (offset + k) % bytesPerBlock = blockStart offset i + (k - reach offset length i) := by
    unfold bytesPerBlock at *
    omega
  rw [fileByte, hdiv, hmod, Nat.add_assoc]

/-- Once the request is served the loop returns, whatever the next block number says. -/
theorem readBlocks_done (hlen : length ≤ img.inodeLength inode) (n i : ℕ) (buf : Mem) :
    img.readBlocks inode offset length n i length buf = (length, buf) := by
  cases n with
  | zero => rfl
  | succ n =>
    have hgo : 0 < bytesPerBlock - blockStart offset i := by
      have := blockStart_lt offset i
      omega
    have hbuf : ∀ f : ℕ → UInt8, (fun k => if length ≤ k ∧ k < length then f k else buf k) = buf :=
      fun f => funext fun k => if_neg (by omega)
    have hblk := readBlock_spec img
      (img.getDatablockAdrs (img.dataBlock inode (offset / bytesPerBlock + i))) hlen
      (bytesPerBlock - blockStart offset i) (blockStart offset i) length buf (Nat.le_refl length)
    simp only [Nat.sub_self, hgo, decide_true, Nat.min_zero, Nat.add_zero, hbuf] at hblk
    rw [readBlocks]
    simp only [show (if i = 0 then offset % bytesPerBlock else 0) = blockStart offset i from rfl, hblk, ite_self]

/-- The buffer once block `i` has been copied into it. -/
def blockCopied (img : Image) (inode offset length i : ℕ) (buf : Mem) : Mem := fun k =>
  if reach offset length i ≤ k ∧ k < reach offset length (i + 1) then img.fileByte inode (offset + k) else buf k

/-- **One block.**  While the request is not served, a block that is there is copied up to its end or the end of the
request; in the second case the function returns. -/
theorem readBlocks_step (hlen : offset + length ≤ img.inodeLength inode) {i : ℕ}
    (hmore : reach offset length i < length)
    (hb : img.dataBlock inode (offset / bytesPerBlock + i) ≠ 0) (n : ℕ) (buf : Mem) :
    img.readBlocks inode offset length (n + 1) i (reach offset length i) buf
      = if length - reach offset length i < bytesPerBlock - blockStart offset i then
          (reach offset length (i + 1), img.blockCopied inode offset length i buf)
        else img.readBlocks inode offset length n (i + 1) (reach offset length (i + 1))
          (img.blockCopied inode offset length i buf) := by
  have hblk := readBlock_spec img
    (img.getDatablockAdrs (img.dataBlock inode (offset / bytesPerBlock + i)))
    (show length ≤ img.inodeLength inode by omega)
    (bytesPerBlock - blockStart offset i) (blockStart offset i) (reach offset length i) buf (Nat.le_of_lt hmore)
  have hcopied : (fun k => if reach offset length i ≤ k ∧ k < reach offset length (i + 1) then
      img.byte (img.getDatablockAdrs (img.dataBlock inode (offset / bytesPerBlock + i))
        + blockStart offset i + (k - reach offset length i)) else buf k)
      = img.blockCopied inode offset length i buf := by
    funext k
    rw [blockCopied]
    by_cases hk : reach offset length i ≤ k ∧ k < reach offset length (i + 1)
    · rw [if_pos hk, if_pos hk, byte_eq_fileByte hmore hk.1 hk.2]
    · rw [if_neg hk, if_neg hk]
  rw [reach_succ hmore, hcopied] at hblk
  rw [readBlocks]
  simp only [show (if i = 0 then offset % bytesPerBlock else 0) = blockStart offset i from rfl, hblk, if_neg hb]
  by_cases hstop : length - reach offset length i < bytesPerBlock - blockStart offset i
  · rw [decide_eq_true hstop, if_pos hstop]
  · rw [decide_eq_false hstop, if_neg hstop]

/-- A request that ends inside block `i` needs no further one. -/
theorem reach_stop {i : ℕ} (hmore : reach offset length i < length)
    (hstop : length - reach offset length i < bytesPerBlock - blockStart offset i) (n : ℕ) :
    reach offset length (i + (n + 1)) = reach offset length (i + 1) := by
  have hpos := reach_position hmore
  have hsucc := reach_succ hmore
  unfold reach bytesPerBlock at *
  omega

/-- **The block loop.**  With `i` blocks behind it and `n` to go, the loop copies the file's bytes up to the
request or the end of the last block, provided no block it needs is missing. -/
theorem readBlocks_spec (hlen : offset + length ≤ img.inodeLength inode)
    (hblocks : ∀ b, bytesPerBlock * b < offset + length → img.dataBlock inode b ≠ 0)
    (n i : ℕ) (buf : Mem) :
    img.readBlocks inode offset length n i (reach offset length i) buf
      = (reach offset length (i + n), fun k =>
          if reach offset length i ≤ k ∧ k < reach offset length (i + n) then
            img.fileByte inode (offset + k)
          else buf k) := by
  induction n generalizing i buf with
  | zero =>
    rw [readBlocks, Nat.add_zero]
    refine congrArg _ ?_
    funext k
    rw [if_neg (by omega)]
  | succ n ih =>
    have hle : reach offset length i ≤ length := Nat.min_le_left ..
    rcases Nat.eq_or_lt_of_le hle with hall | hmore
    · have hend : reach offset length (i + (n + 1)) = length := by
        unfold reach bytesPerBlock at *
        omega
      rw [hall, hend, readBlocks_done (by omega)]
      refine congrArg _ ?_
      funext k
      rw [if_neg (by omega)]
    · have hb : img.dataBlock inode (offset / bytesPerBlock + i) ≠ 0 := by
        have := reach_position hmore
        exact hblocks _ (by omega)
      rw [readBlocks_step hlen hmore hb]
      by_cases hstop : length - reach offset length i < bytesPerBlock - blockStart offset i
      · rw [if_pos hstop, reach_stop hmore hstop n]
        rfl
      · rw [if_neg hstop, ih, show i + 1 + n = i + (n + 1) by omega]
        refine congrArg _ ?_
        have hmono : reach offset length i ≤ reach offset length (i + 1) ∧
            reach offset length (i + 1) ≤ reach offset length (i + (n + 1)) := by
          unfold reach bytesPerBlock
          omega
        funext k
        rw [blockCopied]
        by_cases h1 : reach offset length (i + 1) ≤ k ∧ k < reach offset length (i + (n + 1))
        · rw [if_pos h1, if_pos (by omega)]
        · rw [if_neg h1]
          by_cases h2 : reach offset length i ≤ k ∧ k < reach offset length (i + 1)
          · rw [if_pos h2, if_pos (by omega)]
          · rw [if_neg h2, if_neg (by omega)]

theorem clampLength_eq_min (img : Image) (inode offset length : ℕ) :
    img.clampLength inode offset length = min length (img.inodeLength inode - offset) := by
  unfold clampLength
  split <;> omega

theorem readData_refused (h : img.inodeCnt ≤ inode ∨ img.inodeLength inode < offset) (buf : Mem) :
    img.readData inode offset buf length = (-1, buf) := by
  rw [readData]
  by_cases hinode : img.inodeCnt ≤ inode
  · rw [if_pos hinode]
  · rw [if_neg hinode, if_pos (h.resolve_left hinode)]

/-- A request for nothing, or at the end of the file, is served. -/
theorem readData_nothing (hinode : inode < img.inodeCnt) (hoff : offset ≤ img.inodeLength inode)
    (h : offset = img.inodeLength inode ∨ length = 0) (buf : Mem) :
    img.readData inode offset buf length = (0, buf) := by
  rw [readData, if_neg (by omega), if_neg (by omega)]
  by_cases hend : offset = img.inodeLength inode
  · rw [if_pos hend]
  · rw [if_neg hend, if_pos (h.resolve_left hend)]

/-- Where there is something to read, the loops run for the clamped length. -/
theorem readData_eq_readBlocks (hinode : inode < img.inodeCnt) (hoff : offset < img.inodeLength inode)
    (hlen : 0 < length) {m : ℕ} (hm : m = img.clampLength inode offset length) (buf : Mem) :
    img.readData inode offset buf length =
      (toInt32 (img.readBlocks inode offset m (m / bytesPerBlock + 1) 0 0 buf).1,
        (img.readBlocks inode offset m (m / bytesPerBlock + 1) 0 0 buf).2) := by
  rw [readData, if_neg (by omega), if_neg (by omega), if_neg (by omega), if_neg (by omega), hm]

/-- **Everything `read_data` can do.** -/
theorem readData_cases (img : Image) (inode offset : ℕ) (buf : Mem) (length : ℕ) :
    (img.inodeCnt ≤ inode ∨ img.inodeLength inode < offset) ∧ img.readData inode offset buf length = (-1, buf) ∨
    inode < img.inodeCnt ∧ img.readData inode offset buf length = (0, buf) ∨
    inode < img.inodeCnt ∧ offset < img.inodeLength inode ∧ 0 < length ∧
      ∃ m, m = min length (img.inodeLength inode - offset) ∧ img.readData inode offset buf length =
        (toInt32 (img.readBlocks inode offset m (m / bytesPerBlock + 1) 0 0 buf).1,
          (img.readBlocks inode offset m (m / bytesPerBlock + 1) 0 0 buf).2) := by
  by_cases hno : img.inodeCnt ≤ inode ∨ img.inodeLength inode < offset
  · exact Or.inl ⟨hno, readData_refused hno buf⟩
  · have hinode : inode < img.inodeCnt := by omega
    by_cases hzero : offset = img.inodeLength inode ∨ length = 0
    · exact Or.inr (Or.inl ⟨hinode, readData_nothing hinode (by omega) hzero buf⟩)
    · have hoff : offset < img.inodeLength inode := by omega
      exact Or.inr (Or.inr ⟨hinode, hoff, by omega, _, rfl,
        readData_eq_readBlocks hinode hoff (by omega) (img.clampLength_eq_min inode offset length).symm buf⟩)

/-- How many bytes one call of `readData` copies. -/
def readCount (img : Image) (inode offset length : ℕ) : ℕ :=
  reach offset (img.clampLength inode offset length)
    (img.clampLength inode offset length / bytesPerBlock + 1)

/-- A call that is not at the end of the file makes progress, within the request and within the file. -/
theorem readCount_bounds (hoff : offset < img.inodeLength inode) (hlen : 0 < length) :
    0 < img.readCount inode offset length ∧ img.readCount inode offset length ≤ length ∧
      offset + img.readCount inode offset length ≤ img.inodeLength inode := by
  have hclamp : 0 < img.clampLength inode offset length ∧ img.clampLength inode offset length ≤ length ∧
      offset + img.clampLength inode offset length ≤ img.inodeLength inode := by
    rw [clampLength_eq_min]
    omega
  unfold readCount reach bytesPerBlock
  omega

/-- **`readData` copies the file's contents.**  Below the end of a file whose blocks are all present, it
copies `readCount` bytes of the file from `offset` on, and touches no other byte of the buffer. -/
theorem readData_spec (hinode : inode < img.inodeCnt) (hoff : offset < img.inodeLength inode)
    (hlen : 0 < length)
    (hblocks : ∀ b, bytesPerBlock * b < img.inodeLength inode → img.dataBlock inode b ≠ 0)
    (buf : Mem) :
    img.readData inode offset buf length
      = (toInt32 (img.readCount inode offset length), fun k =>
          if k < img.readCount inode offset length then img.fileByte inode (offset + k) else buf k) := by
  have hclamp : offset + img.clampLength inode offset length ≤ img.inodeLength inode := by
    rw [clampLength_eq_min]
    omega
  have hzero : reach offset (img.clampLength inode offset length) 0 = 0 := by
    unfold reach bytesPerBlock
    omega
  have hspec := readBlocks_spec hclamp (fun b hb => hblocks b (by omega))
    (img.clampLength inode offset length / bytesPerBlock + 1) 0 buf
  rw [hzero, Nat.zero_add] at hspec
  rw [readData_eq_readBlocks hinode hoff hlen rfl, hspec]
  simp only [Nat.zero_le, true_and]
  rfl

/-- Whatever the block numbers are, the loops copy no more than the request, and change no byte outside it. -/
theorem readBlocks_frame (offset : ℕ) (hlen : length ≤ img.inodeLength inode) (n i copied : ℕ) (buf : Mem)
    (hc : copied ≤ length) : (img.readBlocks inode offset length n i copied buf).1 ≤ length ∧
      ∀ k, k < copied ∨ length ≤ k → (img.readBlocks inode offset length n i copied buf).2 k = buf k := by
  induction n generalizing i copied buf with
  | zero => exact ⟨hc, fun k _ => rfl⟩
  | succ n ih =>
    rw [readBlocks]
    split
    · exact ⟨hc, fun k _ => rfl⟩
    · rw [readBlock_spec img _ hlen _ _ _ _ hc]
      split
      · rename_i copied' buf' heq
        simp only [Prod.mk.injEq] at heq
        obtain ⟨-, rfl, rfl⟩ := heq
        exact ⟨by omega, fun k hk => if_neg (by omega)⟩
      · rename_i copied' buf' heq
        simp only [Prod.mk.injEq] at heq
        obtain ⟨-, hcopied, rfl⟩ := heq
        obtain ⟨hle, hrest⟩ := ih (i + 1) copied' _ (by omega)
        exact ⟨hle, fun k hk => (hrest k (by omega)).trans (if_neg (by omega))⟩

/-- A read from the start of an existing file returns at most what was asked for, and at most the file. -/
theorem readData_zero_bounds (hinode : inode < img.inodeCnt) (hlen : length < 2 ^ 31) (buf : Mem) :
    0 ≤ (img.readData inode 0 buf length).1 ∧ (img.readData inode 0 buf length).1 ≤ length ∧
      (img.readData inode 0 buf length).1 ≤ img.inodeLength inode := by
  rcases img.readData_cases inode 0 buf length with ⟨hno, -⟩ | ⟨-, hdata⟩ | ⟨-, -, -, m, hm, hdata⟩
  · omega
  · rw [hdata]
    exact ⟨le_rfl, Int.natCast_nonneg length, Int.natCast_nonneg _⟩
  · have hfile : m ≤ img.inodeLength inode := by omega
    have hle := (readBlocks_frame 0 hfile (m / bytesPerBlock + 1) 0 0 buf (Nat.zero_le _)).1
    rw [hdata]
    simp only [toInt32]
    split <;> omega

/-- A read from the start of a file fails exactly when the inode number is out of range. -/
theorem readData_zero_eq_neg_one_iff (hlen : length < 2 ^ 31) (buf : Mem) :
    (img.readData inode 0 buf length).1 = -1 ↔ img.inodeCnt ≤ inode := by
  by_cases hinode : img.inodeCnt ≤ inode
  · rw [readData_refused (Or.inl hinode)]
    exact iff_of_true rfl hinode
  · have hbounds := readData_zero_bounds (Nat.not_le.mp hinode) hlen buf
    exact iff_of_false (by omega) hinode

end Image

end ClosKernel
