import ClosKernel.Files

/-!
# The caller's buffer

`sys_read` hands its signed `nbytes` to four drivers without looking at it.  `reg_file_read` and `dir_read` take it
for an unsigned length, and `tRead` clears the buffer up to and including index `nbytes`.  Here is what each of them
may change in the buffer, for every `nbytes` that fits into 32 bits.

* `Image.readData_frame`, `Image.readData_copies`, `Image.readData_nothingAt` — what `read_data` changes, whatever the
  block numbers are;
* `dirRead_keeps_iff`, `regFileRead_keeps_iff`, `tRead_overruns` — the drivers;
* `sys_read_in_buffer_iff` — **the descriptors and byte counts for which `sys_read` keeps to the buffer**.
-/

namespace ClosKernel

open PartialRun

/-- Bytes of the buffer from `nbytes` on are as they were; all of them are, if `nbytes` is not positive. -/
def KeepsTo (nbytes : ℤ) (buf buf' : Mem) : Prop := ∀ i : ℕ, nbytes ≤ i → buf' i = buf i

theorem KeepsTo.refl (nbytes : ℤ) (buf : Mem) : KeepsTo nbytes buf buf := fun _ _ => rfl

/-- A negative count, taken for an unsigned one. -/
theorem toUInt32_of_neg {nbytes : ℤ} (h : nbytes < 0) (hmin : -2 ^ 31 ≤ nbytes) : 0 < toUInt32 nbytes := by
  unfold toUInt32
  omega

theorem toUInt32_of_nonneg {nbytes : ℤ} (h : 0 ≤ nbytes) (hmax : nbytes < 2 ^ 31) :
    (toUInt32 nbytes : ℤ) = nbytes := by
  unfold toUInt32
  omega

/-- A buffer with another byte than `b` in its first place. -/
def otherThan (b : UInt8) : Mem := fun _ => b + 1

theorem otherThan_ne (b : UInt8) : b ≠ otherThan b 0 := by
  intro h
  have hnat := congrArg UInt8.toNat h
  rw [otherThan, UInt8.toNat_add] at hnat
  have hlt := b.toNat_lt
  have hone : (1 : UInt8).toNat = 1 := rfl
  omega

/-! ### Regular files -/

namespace Image

variable {img : Image} {inode offset length : ℕ}

/-- `read_data` changes no byte behind the request. -/
theorem readData_frame (img : Image) (inode offset : ℕ) (buf : Mem) {k : ℕ} (hk : length ≤ k) :
    (img.readData inode offset buf length).2 k = buf k := by
  rcases img.readData_cases inode offset buf length with ⟨-, hdata⟩ | ⟨-, hdata⟩ | ⟨-, -, -, m, hm, hdata⟩
  · rw [hdata]
  · rw [hdata]
  · rw [hdata]
    exact (readBlocks_frame offset (by omega) _ 0 0 buf (Nat.zero_le _)).2 k (Or.inr (by omega))

/-- There is nothing to read at `offset`: no such inode, the end of the file, or a block number that stops the loop. -/
def NothingAt (img : Image) (inode offset : ℕ) : Prop :=
  img.inodeCnt ≤ inode ∨ img.inodeLength inode ≤ offset ∨ img.dataBlock inode (offset / bytesPerBlock) = 0

/-- The first block that is there is copied into the buffer. -/
theorem readData_copies (hlen : 0 < length) (hsome : ¬img.NothingAt inode offset) (buf : Mem) :
    (img.readData inode offset buf length).2 0 = img.fileByte inode offset := by
  obtain ⟨hinode, hmore⟩ := not_or.mp hsome
  obtain ⟨hoff, hblock⟩ := not_or.mp hmore
  obtain ⟨m, hm⟩ : ∃ m, m = img.clampLength inode offset length := ⟨_, rfl⟩
  have hclamp : 0 < m ∧ offset + m ≤ img.inodeLength inode := by
    rw [hm, clampLength_eq_min]
    omega
  rw [readData_eq_readBlocks (by omega) (by omega) hlen hm]
  have hreach : reach offset m 0 = 0 := by
    unfold reach bytesPerBlock
    omega
  have hnext : 0 < reach offset m (0 + 1) ∧ reach offset m (0 + 1) ≤ m := by
    unfold reach bytesPerBlock
    omega
  have hfirst : img.blockCopied inode offset m 0 buf 0 = img.fileByte inode offset := by
    rw [blockCopied, if_pos ⟨by omega, hnext.1⟩, Nat.add_zero]
  have hstep := readBlocks_step hclamp.2 (i := 0) (by omega) hblock (m / bytesPerBlock) buf
  rw [hreach] at hstep
  rw [hstep]
  split
  · exact hfirst
  · -- the blocks after the first one leave its bytes alone
    exact ((readBlocks_frame offset (by omega) _ _ _ _ hnext.2).2 0 (Or.inl hnext.1)).trans hfirst

theorem readData_nothingAt (h : img.NothingAt inode offset) (buf : Mem) :
    (img.readData inode offset buf length).2 = buf := by
  rcases img.readData_cases inode offset buf length with ⟨-, hdata⟩ | ⟨-, hdata⟩ | ⟨hinode, hoff, -, m, hm, hdata⟩
  · rw [hdata]
  · rw [hdata]
  · have hblock : img.dataBlock inode (offset / bytesPerBlock + 0) = 0 := by
      rcases h with h | h | h
      · omega
      · omega
      · exact h
    rw [hdata, readBlocks, if_pos hblock]

end Image

section Drivers

variable {E : Platform} {fd : ℕ} {nbytes : ℤ} {k : Kernel}

/-- A file is read within the buffer, unless a negative count asks for all of it. -/
theorem regFileRead_keeps_iff (hopen : (k.cur.fileArray fd).OpenOn .file) (hmin : -2 ^ 31 ≤ nbytes)
    (hmax : nbytes < 2 ^ 31) : (∀ buf, KeepsTo nbytes buf (regFileRead E fd buf nbytes k).2.1) ↔
      0 ≤ nbytes ∨ E.image.NothingAt (k.cur.fileArray fd).inode (k.cur.fileArray fd).filePosition := by
  have hbuf : ∀ buf, (regFileRead E fd buf nbytes k).2.1 = (E.image.readData (k.cur.fileArray fd).inode
      (k.cur.fileArray fd).filePosition buf (toUInt32 nbytes)).2 := by
    intro buf
    rw [regFileRead]
    dsimp only
    rw [if_pos (show (k.cur.fileArray fd).flags = typeFile ||| flagOpen from hopen.2)]
    split <;> rfl
  simp only [hbuf]
  constructor
  · intro hkeeps
    by_contra hnot
    obtain ⟨hneg, hsome⟩ := not_or.mp hnot
    have hcopied := Image.readData_copies (toUInt32_of_neg (by omega) hmin) hsome
    refine otherThan_ne _ ((hcopied _).symm.trans (hkeeps (otherThan _) 0 (by omega)))
  · rintro (hpos | hnothing) buf i hi
    · have hword := toUInt32_of_nonneg hpos hmax
      exact Image.readData_frame _ _ _ _ (by omega)
    · rw [Image.readData_nothingAt hnothing]

/-- A directory entry is read within the buffer, unless a negative count asks for all of it. -/
theorem dirRead_keeps_iff (hopen : (k.cur.fileArray fd).OpenOn .dir) (hmin : -2 ^ 31 ≤ nbytes)
    (hmax : nbytes < 2 ^ 31) : (∀ buf, KeepsTo nbytes buf (dirRead E fd buf nbytes k).2.1) ↔
      0 ≤ nbytes ∨ E.image.dentryName (k.cur.fileArray fd).filePosition 0 = 0 := by
  have hbuf : ∀ buf, (dirRead E fd buf nbytes k).2.1
      = if strncmp emptyString (E.image.dentryName (k.cur.fileArray fd).filePosition) (toUInt32 nbytes) = 0 then buf
        else strncpy buf (E.image.dentryName (k.cur.fileArray fd).filePosition) (toUInt32 nbytes) := by
    intro buf
    rw [dirRead]
    dsimp only
    rw [if_pos (show (k.cur.fileArray fd).flags = typeDir ||| flagOpen from hopen.2)]
    split <;> rfl
  simp only [hbuf]
  generalize E.image.dentryName (k.cur.fileArray fd).filePosition = name
  constructor
  · intro hkeeps
    by_contra hnot
    obtain ⟨hneg, hname⟩ := not_or.mp hnot
    have hword := toUInt32_of_neg (show nbytes < 0 by omega) hmin
    have hfirst := hkeeps (otherThan (name 0)) 0 (by omega)
    obtain ⟨n, hn⟩ : ∃ n, toUInt32 nbytes = n + 1 := ⟨toUInt32 nbytes - 1, by omega⟩
    rw [if_neg fun h => hname ((emptyString_strncmp_iff _ hword).mp h), strncpy_apply, if_pos hword, hn,
      cStringFrom, if_neg hname, List.getD_cons_zero] at hfirst
    exact otherThan_ne _ hfirst
  · rintro hcase buf i hi
    split
    · rfl
    · rename_i hname
      rcases hcase with hpos | hempty
      · have hword := toUInt32_of_nonneg hpos hmax
        rw [strncpy_apply, if_neg (by omega)]
      · have hzero : toUInt32 nbytes = 0 := by
          by_contra hne
          exact hname ((emptyString_strncmp_iff _ (by omega)).mpr hempty)
        rw [hzero]
        rfl

/-- Enter has been pressed on every terminal. -/
def allEnter : Meanwhile where
  resume k := { k with tty := { k.tty with tbuf := fun _ => 0x0A, idx := fun _ => 1 } }
  sameFiles _ := .of_pcbs rfl rfl

/-- **The terminal never keeps to the buffer**: it clears the byte behind it, and with a negative count it pads the
line with zeros to the end of the address space. -/
theorem tRead_overruns (hmin : -2 ^ 31 ≤ nbytes) (k : Kernel) :
    ∃ buf w r buf' k', tRead w buf nbytes k = some (r, buf', k') ∧ ¬KeepsTo nbytes buf buf' := by
  refine ⟨fun _ => 7, Waiting.during allEnter, _, _, _, rfl, fun hkeeps => ?_⟩
  have hbyte := hkeeps nbytes.toNat (by omega)
  revert hbyte
  show strncpy (fun i => if (i : ℤ) ≤ nbytes then 0 else 7) _ (toUInt32 (if nbytes ≤ 1 then nbytes else 1)) _ = 7 →
    False
  rw [strncpy_apply]
  by_cases hneg : nbytes < 0
  · -- the line goes into a buffer of no size
    have hword := toUInt32_of_neg hneg hmin
    obtain ⟨n, hn⟩ : ∃ n, toUInt32 nbytes = n + 1 := ⟨toUInt32 nbytes - 1, by omega⟩
    rw [if_pos (by omega : nbytes ≤ 1), Int.toNat_of_nonpos (by omega), if_pos hword, hn, cStringFrom]
    show (if (0x0A : UInt8) = 0 then [] else 0x0A :: cStringFrom _ n (0 + 1)).getD 0 0 = 7 → False
    rw [if_neg (by decide), List.getD_cons_zero]
    decide
  · have hword : (toUInt32 (if nbytes ≤ 1 then nbytes else 1) : ℤ) ≤ nbytes := by
      unfold toUInt32
      split <;> omega
    rw [if_neg (by omega), if_pos (by omega)]
    decide

end Drivers

/-! ### The call -/

/-- The reads of a driver that keep to the buffer, at the inode and position of a descriptor. -/
def Driver.InBuffer (E : Platform) (f : FileStruct) (nbytes : ℤ) : Driver → Prop
  | .rtc => True
  | .dir => 0 ≤ nbytes ∨ E.image.dentryName f.filePosition 0 = 0
  | .file => 0 ≤ nbytes ∨ E.image.NothingAt f.inode f.filePosition
  | .term => False

/-- Reading from an open descriptor is reading from its driver. -/
theorem sysRead_open {E : Platform} {k : Kernel} {fd : ℤ} {d : Driver} (hfd : fd = 0 ∨ 2 ≤ fd ∧ fd < 8)
    (hopen : (k.cur.fileArray fd.toNat).OpenOn d) (buf : Mem) (nbytes : ℤ) (w : Waiting) :
    sysRead E fd buf nbytes w k = d.read E fd.toNat buf nbytes w k := by
  rw [sysRead, if_pos ⟨hfd, hopen.isOpen⟩, hopen.1, Option.bind_some]

/-- **`sys_read` and the caller's buffer.**  A read from an open descriptor keeps to the buffer, whatever the buffer
holds and whatever happens during the read, exactly if the descriptor is the one for output, or on the clock, or on a
file or directory with a count that is not negative or nothing left to read. -/
theorem sys_read_in_buffer_iff {E : Platform} {k : Kernel} {fd nbytes : ℤ} {d : Driver} (hfd : 0 ≤ fd ∧ fd < 8)
    (hopen : (k.cur.fileArray fd.toNat).OpenOn d) (hmin : -2 ^ 31 ≤ nbytes) (hmax : nbytes < 2 ^ 31) :
    (∀ buf w r buf' k', sysRead E fd buf nbytes w k = some (r, buf', k') → KeepsTo nbytes buf buf') ↔
      fd = 1 ∨ d.InBuffer E (k.cur.fileArray fd.toNat) nbytes := by
  by_cases hout : fd = 1
  · refine iff_of_true ?_ (Or.inl hout)
    intro buf w r buf' k' hread
    rw [sysRead, if_neg (by omega)] at hread
    cases hread
    exact .refl nbytes buf
  have hread := fun buf w => sysRead_open (E := E) (by omega) hopen buf nbytes w
  simp only [hread, hout, false_or]
  cases d with
  | rtc =>
    refine iff_of_true ?_ trivial
    intro buf w r buf' k' h
    rw [Driver.read, rtcRead] at h
    dsimp only at h
    split at h
    · cases h
      exact .refl nbytes buf
    · cases h
  | dir =>
    rw [Driver.InBuffer, ← dirRead_keeps_iff hopen hmin hmax]
    constructor
    · intro h buf
      exact h buf .none _ _ _ rfl
    · intro h buf w r buf' k' heq
      have hbuf := h buf
      rwa [show dirRead E fd.toNat buf nbytes k = (r, buf', k') from Option.some_inj.mp heq] at hbuf
  | file =>
    rw [Driver.InBuffer, ← regFileRead_keeps_iff hopen hmin hmax]
    constructor
    · intro h buf
      exact h buf .none _ _ _ rfl
    · intro h buf w r buf' k' heq
      have hbuf := h buf
      rwa [show regFileRead E fd.toNat buf nbytes k = (r, buf', k') from Option.some_inj.mp heq] at hbuf
  | term =>
    refine iff_of_false ?_ id
    intro h
    obtain ⟨buf, w, r, buf', k', heq, hover⟩ := tRead_overruns hmin k
    exact hover (h buf w r buf' k' heq)

/-- A process reads the first 4 bytes of the file `ls`: it gets all four, and nothing behind them changes. -/
theorem sys_read_in_buffer_file : ∃ k : Kernel, (k.cur.fileArray 2).OpenOn .file ∧
    (∃ buf' k', sysRead twoProgramPlatform 2 (fun _ => 0) 4 .none k = some (4, buf', k') ∧ buf' 0 = 0x7F) ∧
    ∀ buf w r buf' k', sysRead twoProgramPlatform 2 buf 4 w k = some (r, buf', k') → KeepsTo 4 buf buf' := by
  have hopen : ((powerOnKernel.setFile 2 (Driver.file.slot 1)).cur.fileArray 2).OpenOn .file := by
    rw [Kernel.setFile_fileArray, Function.update_self]
    exact ⟨rfl, rfl⟩
  have heval : ((sysRead twoProgramPlatform 2 (fun _ => 0) 4 .none
      (powerOnKernel.setFile 2 (Driver.file.slot 1))).any fun r => decide (r.1 = 4 ∧ r.2.1 0 = 0x7F)) = true := by
    decide +kernel
  simp only [Option.any_eq_true, decide_eq_true_eq] at heval
  obtain ⟨⟨r, buf', k'⟩, hread, rfl, hfirst⟩ := heval
  have hfd : (0 : ℤ) ≤ 2 ∧ (2 : ℤ) < 8 := by decide
  exact ⟨_, hopen, ⟨buf', k', hread, hfirst⟩,
    (sys_read_in_buffer_iff hfd hopen (by decide) (by decide)).mpr (Or.inr (Or.inl (by decide)))⟩

/-- The first shell reads its line into 5 bytes and the user types `ls`: the sixth byte is cleared. -/
theorem sys_read_clears_next_byte : ∃ b r buf' k', boot twoProgramPlatform default powerOnKernel = some b ∧
    (b.cur.fileArray 0).OpenOn .term ∧
    sysRead twoProgramPlatform 0 (fun _ => 7) 5 (.during (.typed [0x6C, 0x73, 0x0A])) b = some (r, buf', k') ∧
    ¬KeepsTo 5 (fun _ => 7) buf' := by
  have heval : ((boot twoProgramPlatform default powerOnKernel).any fun b =>
      (sysRead twoProgramPlatform 0 (fun _ => 7) 5 (.during (.typed [0x6C, 0x73, 0x0A])) b).any fun r =>
        decide ((b.cur.fileArray 0).OpenOn .term ∧ r.2.1 5 = 0)) = true := by
    decide +kernel
  simp only [Option.any_eq_true, decide_eq_true_eq] at heval
  obtain ⟨b, hboot, ⟨r, buf', k'⟩, hread, hopen, hzero⟩ := heval
  refine ⟨b, r, buf', k', hboot, hopen, hread, fun hkeeps => ?_⟩
  have hseven := hkeeps 5 (by decide)
  exact absurd (hzero.symm.trans hseven) (by decide)

end ClosKernel
