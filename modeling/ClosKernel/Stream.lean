import ClosKernel.Files

/-!
# Reading a file through descriptors

`read_data` may return less than it was asked for, at the end of a block as well as at the end of the file, and a
program such as `cat` goes on reading until it gets 0.  Here every descriptor that `sys_open` binds to a regular file
carries a record of the bytes that reads have returned from it; the record is kept along any sequence of calls on any
descriptors, and nothing in the kernel depends on it.

* `Streams.read`, `Streams.read_end` — one read of a recorded descriptor;
* `Reader.Faithful.step` — every call keeps the records faithful;
* `sequential_reads_stream` — **streaming**: a record is the beginning of the file, up to the file position.
-/

namespace ClosKernel

open PartialRun

/-! ### Regular files -/

/-- The bytes of `m` below `n`. -/
def bytesBelow (m : Mem) (n : ℕ) : List UInt8 := (List.range n).map m

/-- The first `n` bytes of a file. -/
def Image.contents (img : Image) (inode n : ℕ) : List UInt8 := bytesBelow (img.fileByte inode) n

theorem bytesBelow_add (m : Mem) (a b : ℕ) :
    bytesBelow m (a + b) = bytesBelow m a ++ bytesBelow (fun i => m (a + i)) b := by
  rw [bytesBelow, List.range_add, List.map_append, List.map_map]
  rfl

theorem bytesBelow_congr {m m' : Mem} {n : ℕ} (h : ∀ i < n, m i = m' i) : bytesBelow m n = bytesBelow m' n :=
  List.map_congr_left fun i hi => h i (List.mem_range.mp hi)

/-- A file that the block table of its inode can describe: its blocks are there. -/
structure Image.RegularFile (img : Image) (inode : ℕ) : Prop where
  exists_inode : inode < img.inodeCnt
  length : img.inodeLength inode < 63 * 4096
  blocks : ∀ b, 4096 * b < img.inodeLength inode →
    img.dataBlock inode b ≠ 0 ∧ img.dataBlock inode b < img.dataBlockCnt

/-! ### Readers -/

/-- The record of a descriptor: the directory entry it was opened for, and what reads have returned from it. -/
structure Opened where
  entry : ℕ
  returned : List UInt8
  deriving DecidableEq

/-- The kernel, with the records of the descriptors that the running process has open on regular files. -/
structure Reader where
  kernel : Kernel
  opened : ℕ → Option Opened

/-- A call adds to the records what it returns: `sys_open` starts one if it binds the slot to the file driver,
`sys_read` adds the bytes it returned, and `sys_close` ends it. -/
def Reader.step (E : Platform) : FileAction → Reader → Option Reader
  | .sysOpen openFile filename, s => (sysOpen E openFile filename s.kernel).map fun (fd, k) =>
      ⟨k, if fd = -1 then s.opened
        else Function.update s.opened fd.toNat (if (k.cur.fileArray fd.toNat).OpenOn .file then
          (E.image.lookup filename).join.map fun entry => ⟨entry, []⟩ else none)⟩
  | .sysRead fd buf nbytes w, s => (sysRead E fd buf nbytes w s.kernel).map fun (r, buf, k) =>
      ⟨k, Function.update s.opened fd.toNat ((s.opened fd.toNat).map fun o =>
        { o with returned := o.returned ++ bytesBelow buf r.toNat })⟩
  | .sysWrite fd buf nbytes, s => (sysWrite fd buf nbytes s.kernel).map fun (_, k) => ⟨k, s.opened⟩
  | .sysClose fd, s => (sysClose fd s.kernel).map fun (r, k) =>
      ⟨k, if r = 0 then Function.update s.opened fd.toNat none else s.opened⟩
  | .others w, s => some ⟨w.resume s.kernel, s.opened⟩

/-- The records are never looked at: the kernel goes through the same states without them. -/
theorem Reader.runs_kernel (E : Platform) (as : List FileAction) (s : Reader) :
    (runs (Reader.step E) as s).map Reader.kernel = runs (fileStep E) as s.kernel :=
  runs_map (fun a s => by cases a <;> simp only [Reader.step, fileStep, Option.map_map, Option.map_some] <;> rfl)
    as s

/-- The record `o` is what the slot `f` says: the slot is open on the file of the entry, and the bytes returned are
those before its position. -/
structure Streams (E : Platform) (n : ℕ) (o : Opened) (f : FileStruct) : Prop where
  entry : o.entry < n ∧ E.image.dentryType o.entry = typeFile
  device : f.OpenOn .file
  inode : f.inode = E.image.dentryInode o.entry
  position : f.filePosition ≤ E.image.inodeLength f.inode
  returned : o.returned = E.image.contents f.inode f.filePosition

/-- Every record is what its slot says. -/
def Reader.Faithful (E : Platform) (n : ℕ) (s : Reader) : Prop :=
  ∀ fd o, s.opened fd = some o → (2 ≤ fd ∧ fd < 8) ∧ Streams E n o (s.kernel.cur.fileArray fd)

namespace Streams

variable {E : Platform} {n fd : ℕ} {o : Opened} {k : Kernel} {f : FileStruct}

/-- A read of a recorded descriptor goes to `reg_file_read`, and its test succeeds. -/
theorem sysRead_eq (h : Streams E n o f) (hf : k.cur.fileArray fd = f) (hfd : 2 ≤ fd ∧ fd < 8) (buf : Mem)
    (nbytes : ℤ) (w : Waiting) : sysRead E fd buf nbytes w k = some (regFileRead E fd buf nbytes k) := by
  have hrange : ((fd : ℤ) = 0 ∨ 2 ≤ (fd : ℤ) ∧ (fd : ℤ) < 8) ∧ (k.cur.fileArray (fd : ℤ).toNat).IsOpen :=
    ⟨by omega, hf.symm ▸ h.device.isOpen⟩
  rw [sysRead, if_pos hrange, Int.toNat_natCast, hf, h.device.1]
  rfl

/-- **Before the end of the file** a read returns at least one byte and at most what it was asked for: the bytes at
the position, which moves behind them. -/
theorem read (hfile : E.image.RegularFile f.inode) (h : Streams E n o f) (hf : k.cur.fileArray fd = f)
    (hfd : 2 ≤ fd ∧ fd < 8) (buf : Mem) {nbytes : ℤ} (w : Waiting) (hpos : 0 < toUInt32 nbytes)
    (hmore : f.filePosition < E.image.inodeLength f.inode) :
    ∃ c : ℕ, 0 < c ∧ c ≤ toUInt32 nbytes ∧ f.filePosition + c ≤ E.image.inodeLength f.inode ∧
      sysRead E fd buf nbytes w k = some ((c : ℤ),
        fun i => if i < c then E.image.fileByte f.inode (f.filePosition + i) else buf i,
        k.setFile fd { f with filePosition := f.filePosition + c }) := by
  have hbounds := Image.readCount_bounds hmore hpos
  have hdata := Image.readData_spec hfile.exists_inode hmore hpos (fun b hb => (hfile.blocks b hb).1) buf
  generalize E.image.readCount f.inode f.filePosition (toUInt32 nbytes) = c at hbounds hdata
  obtain ⟨h0, hle, hend⟩ := hbounds
  refine ⟨c, h0, hle, hend, ?_⟩
  -- the file is far shorter than 2 ^ 31 bytes, so nothing wraps
  have hlen := hfile.length
  have hint : toInt32 c = c := if_pos (by omega)
  have hmoved : toUInt32 ((f.filePosition : ℤ) + c) = f.filePosition + c := by
    unfold toUInt32
    omega
  rw [h.sysRead_eq hf hfd, regFileRead]
  dsimp only
  rw [hf, if_pos (by exact h.device.2), hdata, hint]
  dsimp only
  rw [if_pos (by omega), hmoved]

/-- **At the end of the file** a read returns 0 and changes nothing, and so does one that asks for nothing. -/
theorem read_end (hfile : E.image.RegularFile f.inode) (h : Streams E n o f) (hf : k.cur.fileArray fd = f)
    (hfd : 2 ≤ fd ∧ fd < 8) (buf : Mem) {nbytes : ℤ} (w : Waiting)
    (hend : f.filePosition = E.image.inodeLength f.inode ∨ toUInt32 nbytes = 0) :
    sysRead E fd buf nbytes w k = some (0, buf, k) := by
  have hdata : E.image.readData f.inode f.filePosition buf (toUInt32 nbytes) = (0, buf) :=
    Image.readData_nothing hfile.exists_inode h.position hend buf
  rw [h.sysRead_eq hf hfd, regFileRead]
  dsimp only
  rw [hf, if_pos (by exact h.device.2), hdata]
  rfl

end Streams

/-! ### Every call keeps the records faithful -/

namespace Reader.Faithful

variable {E : Platform} {n : ℕ} {s s' : Reader} {k' : Kernel}

theorem same (h : s.Faithful E n) (hsame : s.kernel.SameFiles k') : Reader.Faithful E n ⟨k', s.opened⟩ := by
  intro fd o ho
  rw [hsame.fileArray]
  exact h fd o ho

/-- One slot and its record change. -/
theorem update (h : s.Faithful E n) {i : ℕ} {f : FileStruct} {x : Option Opened}
    (hk : k'.cur.fileArray = Function.update s.kernel.cur.fileArray i f)
    (hx : ∀ o, x = some o → (2 ≤ i ∧ i < 8) ∧ Streams E n o f) :
    Reader.Faithful E n ⟨k', Function.update s.opened i x⟩ := by
  intro fd o ho
  rw [hk]
  by_cases hfd : fd = i
  · subst hfd
    dsimp only at ho
    rw [Function.update_self] at ho ⊢
    exact hx o ho
  · dsimp only at ho
    rw [Function.update_of_ne hfd] at ho ⊢
    exact h fd o ho

/-- A slot keeps its contents and loses its record. -/
theorem drop (h : s.Faithful E n) (hsame : s.kernel.SameFiles k') (i : ℕ) :
    Reader.Faithful E n ⟨k', Function.update s.opened i none⟩ :=
  h.update (f := s.kernel.cur.fileArray i) (by rw [Function.update_eq_self]; exact hsame.fileArray)
    fun o ho => by cases ho

theorem sysOpen (h : s.Faithful E n) (hdir : E.image.Directory n) (hn : n < maxFiles) {openFile : Dentry}
    {filename : Mem} (hstep : Reader.step E (.sysOpen openFile filename) s = some s') : s'.Faithful E n := by
  obtain ⟨⟨r, k'⟩, hopen, rfl⟩ := Option.map_eq_some_iff.mp hstep
  rcases sysOpen_cases hdir hn openFile filename s.kernel with
    ⟨heq, -⟩ | ⟨i, e, hi, hclosed, -, he, hlookup, -, heq⟩
  · rw [heq] at hopen
    cases hopen
    exact h
  · rw [heq] at hopen
    dsimp only
    rcases boundTo_cases (openType filename (E.image.dentryType e)) (E.image.dentryInode e) with
      ⟨d, hd⟩ | hnone
    · rw [hd, boundTo_type, Option.map_some, Option.getD_some] at hopen
      cases hopen
      rw [if_neg (by omega), Int.toNat_natCast]
      refine h.update (Kernel.setFile_fileArray ..) fun o ho => ⟨hi, ?_⟩
      rw [Kernel.setFile_fileArray, Function.update_self] at ho
      split at ho
      · rename_i hfile
        obtain rfl : d = .file := Option.some_inj.mp hfile.1
        rw [hlookup] at ho
        cases ho
        -- a name that begins with "terminal" is not opened as a file
        have htype : E.image.dentryType e = typeFile := by
          unfold openType at hd
          split at hd
          · cases hd
          · exact hd
        exact ⟨⟨he, htype⟩, hfile, rfl, Nat.zero_le _, rfl⟩
      · cases ho
    · -- an entry of unknown type leaves the slot closed
      rw [hnone] at hopen
      cases hopen
      rw [if_neg (by omega), Int.toNat_natCast, if_neg]
      · exact h.drop (.refl _) i
      · exact fun hfile => FileStruct.not_isOpen_of_close hclosed hfile.isOpen

theorem sysRead (h : s.Faithful E n)
    (hfiles : ∀ d < n, E.image.dentryType d = typeFile → E.image.RegularFile (E.image.dentryInode d))
    {fd nbytes : ℤ} {buf : Mem} {w : Waiting}
    (hstep : Reader.step E (.sysRead fd buf nbytes w) s = some s') : s'.Faithful E n := by
  obtain ⟨⟨r, buf', k'⟩, hread, rfl⟩ := Option.map_eq_some_iff.mp hstep
  dsimp only
  cases hrec : s.opened fd.toNat with
  | none =>
    rcases sysRead_cases hread with hsame | ⟨-, pos, rfl⟩
    · exact h.drop hsame _
    · exact h.update (Kernel.setFile_fileArray ..) fun o ho => by cases ho
  | some o =>
    obtain ⟨hfd, hstream⟩ := h _ o hrec
    have hcast : ((fd.toNat : ℕ) : ℤ) = fd := Int.toNat_of_nonneg (by omega)
    have hfile : E.image.RegularFile (s.kernel.cur.fileArray fd.toNat).inode :=
      hstream.inode ▸ hfiles o.entry hstream.entry.1 hstream.entry.2
    by_cases hmore : (s.kernel.cur.fileArray fd.toNat).filePosition
        < E.image.inodeLength (s.kernel.cur.fileArray fd.toNat).inode ∧ 0 < toUInt32 nbytes
    · obtain ⟨c, -, -, hend, heq⟩ := hstream.read hfile rfl hfd buf w hmore.2 hmore.1
      rw [hcast, hread] at heq
      cases heq
      refine h.update (Kernel.setFile_fileArray ..) fun o' ho => ⟨hfd, ?_⟩
      cases ho
      refine ⟨hstream.entry, hstream.device, hstream.inode, hend, ?_⟩
      -- what was returned before, and the bytes of this read
      dsimp only
      rw [hstream.returned, Int.toNat_natCast, Image.contents, Image.contents, bytesBelow_add]
      exact congrArg _ (bytesBelow_congr fun i hi => if_pos hi)
    · have hend : (s.kernel.cur.fileArray fd.toNat).filePosition
          = E.image.inodeLength (s.kernel.cur.fileArray fd.toNat).inode ∨ toUInt32 nbytes = 0 := by
        have := hstream.position
        omega
      have heq := hstream.read_end hfile rfl hfd buf w hend
      rw [hcast, hread] at heq
      cases heq
      refine h.update (f := s.kernel.cur.fileArray fd.toNat) (Function.update_eq_self ..).symm
        fun o' ho => ⟨hfd, ?_⟩
      cases ho
      exact ⟨hstream.entry, hstream.device, hstream.inode, hstream.position,
        (List.append_nil _).trans hstream.returned⟩

theorem sysClose (h : s.Faithful E n) {fd : ℤ} (hstep : Reader.step E (.sysClose fd) s = some s') :
    s'.Faithful E n := by
  obtain ⟨⟨r, k'⟩, hclose, rfl⟩ := Option.map_eq_some_iff.mp hstep
  rw [ClosKernel.sysClose] at hclose
  split at hclose
  · obtain ⟨d, -, heq⟩ := Option.map_eq_some_iff.mp hclose
    have hzero : d.close = 0 := by cases d <;> rfl
    cases heq
    dsimp only
    rw [if_pos hzero]
    exact h.update (Kernel.setFile_fileArray ..) fun o ho => by cases ho
  · cases hclose
    exact h

/-- **One call.** -/
theorem step (h : s.Faithful E n) (hdir : E.image.Directory n) (hn : n < maxFiles)
    (hfiles : ∀ d < n, E.image.dentryType d = typeFile → E.image.RegularFile (E.image.dentryInode d))
    {act : FileAction} (hstep : Reader.step E act s = some s') : s'.Faithful E n := by
  cases act with
  | sysOpen openFile filename => exact h.sysOpen hdir hn hstep
  | sysRead fd buf nbytes w => exact h.sysRead hfiles hstep
  | sysWrite fd buf nbytes =>
    obtain ⟨⟨r, k'⟩, hwrite, rfl⟩ := Option.map_eq_some_iff.mp hstep
    exact h.same (sysWrite_sameFiles hwrite)
  | sysClose fd => exact h.sysClose hstep
  | others w =>
    cases hstep
    exact h.same (w.sameFiles _)

end Reader.Faithful

/-- **Sequential reads stream the file exactly once.**  After any sequence of calls on any descriptors, the bytes that
reads have returned from an open regular file are its first `file_position` bytes.  The next read returns between 1 and
`nbytes` bytes before the end of the file, and at the end 0, with nothing changed; and no read touches another
descriptor. -/
theorem sequential_reads_stream {E : Platform} {n : ℕ} (hdir : E.image.Directory n) (hn : n < 63)
    (hfiles : ∀ d < n, E.image.dentryType d = typeFile → E.image.RegularFile (E.image.dentryInode d))
    (k₀ : Kernel) (as : List FileAction) {s : Reader}
    (hrun : runs (Reader.step E) as ⟨k₀, fun _ => none⟩ = some s) :
    (∀ fd o f, s.opened fd = some o → s.kernel.cur.fileArray fd = f →
      f.inode = E.image.dentryInode o.entry ∧ f.filePosition ≤ E.image.inodeLength f.inode ∧
      o.returned = E.image.contents f.inode f.filePosition ∧
      ∀ buf nbytes w, 0 < nbytes → nbytes < 2 ^ 31 →
        ∃ r buf' k', sysRead E fd buf nbytes w s.kernel = some (r, buf', k') ∧ r ≠ -1 ∧
          (f.filePosition < E.image.inodeLength f.inode → 1 ≤ r ∧ r ≤ nbytes) ∧
          (r = 0 ↔ f.filePosition = E.image.inodeLength f.inode) ∧
          (r = 0 → buf' = buf ∧ k' = s.kernel)) ∧
    ∀ fd buf nbytes w r buf' k', sysRead E fd buf nbytes w s.kernel = some (r, buf', k') →
      ∀ j : ℕ, (j : ℤ) ≠ fd → k'.cur.fileArray j = s.kernel.cur.fileArray j := by
  have hfaithful : s.Faithful E n :=
    runs_invariant (P := Reader.Faithful E n) (fun _ _ _ h hstep => h.step hdir hn hfiles hstep)
      (fun _ _ ho => by cases ho) hrun
  refine ⟨fun fd o f ho hf => ?_, fun fd buf nbytes w r buf' k' hread j hj => ?_⟩
  · obtain ⟨hfd, hstream⟩ := hfaithful fd o ho
    rw [hf] at hstream
    have hfile : E.image.RegularFile f.inode :=
      hstream.inode ▸ hfiles o.entry hstream.entry.1 hstream.entry.2
    refine ⟨hstream.inode, hstream.position, hstream.returned, fun buf nbytes w h0 h31 => ?_⟩
    obtain ⟨hnat, hpos⟩ := toUInt32_of_pos h0 h31
    rcases Nat.lt_or_eq_of_le hstream.position with hmore | hend
    · obtain ⟨c, hc0, hcle, -, heq⟩ := hstream.read hfile hf hfd buf w hpos hmore
      refine ⟨_, _, _, heq, by omega, fun _ => by omega, by omega, fun hzero => ?_⟩
      omega
    · refine ⟨_, _, _, hstream.read_end hfile hf hfd buf w (Or.inl hend), by decide, by omega,
        iff_of_true rfl hend, fun _ => ⟨rfl, rfl⟩⟩
  · rcases sysRead_cases hread with hsame | ⟨hfd, pos, rfl⟩
    · rw [hsame.fileArray]
    · rw [Kernel.setFile_fileArray, Function.update_of_ne (by omega)]

theorem twoProgramImage_files : ∀ d < 2, twoProgramImage.dentryType d = typeFile →
    twoProgramImage.RegularFile (twoProgramImage.dentryInode d) := by
  intro d hd _
  have hlen : twoProgramImage.inodeLength (twoProgramImage.dentryInode d) = 28 := by
    obtain rfl | rfl : d = 0 ∨ d = 1 := by omega
    · decide
    · decide
  refine ⟨?_, by rw [hlen]; decide, fun b hb => ?_⟩
  · obtain rfl | rfl : d = 0 ∨ d = 1 := by omega
    · decide
    · decide
  · rw [hlen] at hb
    obtain rfl : b = 0 := by omega
    obtain rfl | rfl : d = 0 ∨ d = 1 := by omega
    · decide
    · decide

/-- Two descriptors on `ls`, read in turn. -/
def readInTurn : List FileAction :=
  let openLs := FileAction.sysOpen ⟨fun _ => 0, 0, 0⟩ (literal (ascii "ls".toList))
  let read := fun fd nbytes => FileAction.sysRead fd (fun _ => 0) nbytes .none
  [openLs, read 2 3, openLs, read 3 5, read 2 2]

/-- Both have returned the beginning of the program, and neither has reached its end. -/
theorem sequential_reads_stream_ls : ∃ b s, boot twoProgramPlatform default powerOnKernel = some b ∧
    runs (Reader.step twoProgramPlatform) readInTurn ⟨b, fun _ => none⟩ = some s ∧
    s.opened 2 = some ⟨1, [0x7F, 0x45, 0x4C, 0x46, 2]⟩ ∧ s.opened 3 = some ⟨1, [0x7F, 0x45, 0x4C, 0x46, 2]⟩ ∧
    [0x7F, 0x45, 0x4C, 0x46, 2] = twoProgramImage.contents (s.kernel.cur.fileArray 2).inode
      (s.kernel.cur.fileArray 2).filePosition := by
  have heval : ((boot twoProgramPlatform default powerOnKernel).any fun b =>
      (runs (Reader.step twoProgramPlatform) readInTurn ⟨b, fun _ => none⟩).any fun s =>
        decide (s.opened 2 = some ⟨1, [0x7F, 0x45, 0x4C, 0x46, 2]⟩ ∧
          s.opened 3 = some ⟨1, [0x7F, 0x45, 0x4C, 0x46, 2]⟩)) = true := by
    decide +kernel
  simp only [Option.any_eq_true, decide_eq_true_eq] at heval
  obtain ⟨b, hboot, s, hrun, h2, h3⟩ := heval
  have hstream := (sequential_reads_stream (E := twoProgramPlatform) twoProgramImage_directory (by decide)
    twoProgramImage_files b readInTurn hrun).1 2 _ _ h2 rfl
  exact ⟨b, s, hboot, hrun, h2, h3, hstream.2.2.1⟩

end ClosKernel
