import ClosKernel.Kernel

/-!
# The device drivers (`terminal.c`, `rtc.c`, the file and directory operations of `fs.c`)

The functions behind the four `file_operations_table_t`.  The caller's buffer is the bytes found from its pointer
on (`Mem`); it is memory of the program, so that filling it changes nothing the kernel keeps.

`rtc_read` and `tRead` wait in loops for what interrupt handlers store.  What the machine does during a wait is an
argument: `Meanwhile` is any change of the kernel that leaves the waiting process its PCB and its descriptors, and
a wait that is not over yet gives `none`.  `tRead` also turns interrupts on behind its last poll and before it returns;
it is cut into the pieces between which something else may happen.  `setback` stores to a variable that nothing reads,
and is left out.

* `Reading.advance` — one piece of `tRead`; `Reading.finish` — all of them;
* `tRead_sameFiles`, `rtcRead_sameFiles`, `rtcWrite_sameFiles`, `tWrite_sameFiles` — terminal and clock never touch
  the descriptor table;
* `regFileRead_eq`, `dirRead_eq` — the other two move the position of their own descriptor and nothing else.
-/

namespace ClosKernel

/-- An `int32_t` passed as `uint32_t`. -/
def toUInt32 (n : ℤ) : ℕ := (n % 2 ^ 32).toNat

theorem toUInt32_of_pos {n : ℤ} (h0 : 0 < n) (h : n < 2 ^ 31) : toUInt32 n = n.toNat ∧ 0 < toUInt32 n := by
  unfold toUInt32
  omega

/-- The running process is the same one, with the same descriptors. -/
structure Kernel.SameFiles (k k' : Kernel) : Prop where
  pcb : k'.pcb = k.pcb
  fileArray : k'.cur.fileArray = k.cur.fileArray

namespace Kernel.SameFiles

variable {k k' k'' : Kernel}

theorem refl (k : Kernel) : k.SameFiles k := ⟨rfl, rfl⟩

theorem of_eq (h : k' = k) : k.SameFiles k' := h ▸ refl k'

theorem trans (h : k.SameFiles k') (h' : k'.SameFiles k'') : k.SameFiles k'' :=
  ⟨h'.pcb.trans h.pcb, h'.fileArray.trans h.fileArray⟩

/-- Only the PCBs matter. -/
theorem of_pcbs (hpcb : k'.pcb = k.pcb) (hpcbs : k'.pcbs = k.pcbs) : k.SameFiles k' :=
  ⟨hpcb, by rw [Kernel.cur, Kernel.cur, hpcb, hpcbs]⟩

end Kernel.SameFiles

/-- What the rest of the machine does while a process waits or is not running. -/
structure Meanwhile where
  resume : Kernel → Kernel
  sameFiles : ∀ k : Kernel, k.SameFiles (resume k)

theorem Meanwhile.after (w : Meanwhile) {k m : Kernel} (h : k.SameFiles m) : k.SameFiles (w.resume m) :=
  h.trans (w.sameFiles m)

/-- Nothing happens. -/
def Meanwhile.nothing : Meanwhile := ⟨id, Kernel.SameFiles.refl⟩

/-- What a `tRead` or `rtc_read` meets: the machine during its first wait, the value that the uninitialised `scancode`
starts with, and for each piece of the rest of a `tRead` the scancode that it polls and what happens behind it. -/
structure Waiting where
  meanwhile : Meanwhile
  scancode : UInt8
  pieces : List (UInt8 × Meanwhile)

def Waiting.none : Waiting := ⟨.nothing, 0, []⟩

/-- Nothing happens but during the first wait; the two pieces that follow are the last poll and the copy. -/
def Waiting.during (w : Meanwhile) : Waiting := ⟨w, 0, [(0, .nothing), (0, .nothing)]⟩

/-- Stores to a descriptor of the running process. -/
def Kernel.setFile (k : Kernel) (fd : ℕ) (f : FileStruct) : Kernel :=
  k.modify k.pcb fun p => { p with fileArray := Function.update p.fileArray fd f }

theorem Kernel.setFile_fileArray (k : Kernel) (fd : ℕ) (f : FileStruct) :
    (k.setFile fd f).cur.fileArray = Function.update k.cur.fileArray fd f := by
  show (Function.update k.pcbs k.pcb _ k.pcb).fileArray = _
  rw [Function.update_self]
  rfl

/-! ### Regular files and directories -/

def regFileRead (E : Platform) (fd : ℕ) (buf : Mem) (nbytes : ℤ) (k : Kernel) : ℤ × Mem × Kernel :=
  let f := k.cur.fileArray fd
  if f.flags = typeFile ||| flagOpen then
    let (ret, buf) := E.image.readData f.inode f.filePosition buf (toUInt32 nbytes)
    if 0 < ret then (ret, buf, k.setFile fd { f with filePosition := toUInt32 (f.filePosition + ret) })
    else (ret, buf, k)
  else (-1, buf, k)

def dirRead (E : Platform) (fd : ℕ) (buf : Mem) (nbytes : ℤ) (k : Kernel) : ℤ × Mem × Kernel :=
  let f := k.cur.fileArray fd
  if f.flags = typeDir ||| flagOpen then
    let name := E.image.dentryName f.filePosition
    if strncmp emptyString name (toUInt32 nbytes) = 0 then (0, buf, k)
    else (nbytes, strncpy buf name (toUInt32 nbytes),
      k.setFile fd { f with filePosition := toUInt32 (f.filePosition + 1) })
  else (-1, buf, k)

/-! ### The real-time clock -/

def rtcDefaultFreq : ℕ := 32768
def rtcPrgmMaxFreq : ℤ := 1024
def rtcRateLow : ℕ := 6
def rtcRateHigh : ℕ := 15

/-- The loop of `rtc_read` ends once the handler has set the flag. -/
def rtcRead (w : Waiting) (buf : Mem) (k : Kernel) : Option (ℤ × Mem × Kernel) :=
  let k := w.meanwhile.resume { k with rtc := { k.rtc with interruptHappened := false } }
  if k.rtc.interruptHappened then some (0, buf, k) else none

/-- The loop that halves `tmp` while it is even.  A 32-bit value is halved 31 times at most. -/
def halve : ℕ → ℤ → ℤ
  | 0, tmp => tmp
  | n + 1, tmp => if 1 < tmp ∧ tmp % 2 = 0 then halve n (tmp / 2) else tmp

/-- The loop that finds the rate, from `rate`; `none` if it comes to shift by `rate - 1 + fuel`. -/
def rateFrom (freq : ℤ) : ℕ → ℕ → Option ℕ
  | 0, _ => none
  | fuel + 1, rate =>
    if ((rtcDefaultFreq >>> (rate - 1) : ℕ) : ℤ) = freq then some rate else rateFrom freq fuel (rate + 1)

/-- `*(uint32_t*)buf`. -/
def wordOf (buf : Mem) : ℕ :=
  (buf 0).toNat + 2 ^ 8 * (buf 1).toNat + 2 ^ 16 * (buf 2).toNat + 2 ^ 24 * (buf 3).toNat

def notPowerOfTwo : List UInt8 := ascii "rtc_write: ERROR - new frequency not a power of 2\n".toList
def notInValidRange : List UInt8 :=
  ascii "rtc_write: ERROR - frequency power of 2 but not in valid range\n".toList
def rateOutOfRange : List UInt8 := ascii "rtc_write: ERROR - new rate out of range\n".toList

def rtcWrite (buf : Mem) (k : Kernel) : Option (ℤ × Kernel) :=
  let freq := toInt32 (wordOf buf)
  if halve 31 freq ≠ 1 then some (-1, k.printf notPowerOfTwo)
  else if rtcPrgmMaxFreq < freq ∨ freq ≤ 0 then some (-1, k.printf notInValidRange)
  else (rateFrom freq 32 1).map fun rate =>
    if rate < rtcRateLow ∨ rtcRateHigh < rate then (-1, k.printf rateOutOfRange)
    else (0, { k with rtc := { k.rtc with
      curFreq := freq
      interruptCount := 0
      regA := (k.rtc.regA &&& 0xF0) ||| UInt8.ofNat rate } })

/-! ### The terminal -/

def bufsize : ℤ := 128
def entr : UInt8 := 0x1C
def bksp : UInt8 := 0x0E
def cntrl : UInt8 := 0x1D
def alt : UInt8 := 0x38

/-- `tbuf[t-1]`. -/
def Kernel.line (k : Kernel) (t : ℤ) : Mem := fun i => k.tty.tbuf (bufsize * (t - 1) + i)

/-- `insert`, with the index that it returns: a key goes to the displayed terminal. -/
def Kernel.insert (letter : UInt8) (k : Kernel) : ℤ × Kernel :=
  let t := k.screen.currentTerminal
  let i := k.tty.idx (t - 1)
  if 127 < i then (i, k)
  else (i + 1, { k with tty := { k.tty with
      tbuf := Function.update k.tty.tbuf (bufsize * (t - 1) + i) letter
      idx := Function.update k.tty.idx (t - 1) (i + 1) } })

/-- `backspacebuf`: it clears the byte before the index also when the line is empty. -/
def Kernel.backspacebuf (k : Kernel) : ℤ × Kernel :=
  let t := k.screen.currentTerminal
  let i := k.tty.idx (t - 1)
  let tbuf := Function.update k.tty.tbuf (bufsize * (t - 1) + (i - 1)) 0
  if 0 < i then
    (i - 1, { k with tty := { k.tty with tbuf := tbuf, idx := Function.update k.tty.idx (t - 1) (i - 1) } })
  else (-1, { k with tty := { k.tty with tbuf := tbuf } })

/-- `insert` changes nothing but the line buffers. -/
theorem insert_tty (c : UInt8) (k : Kernel) : (k.insert c).2 = { k with tty := (k.insert c).2.tty } := by
  rw [Kernel.insert]
  dsimp only
  split
  · rfl
  · rfl

theorem backspacebuf_tty (k : Kernel) : k.backspacebuf.2 = { k with tty := k.backspacebuf.2.tty } := by
  rw [Kernel.backspacebuf]
  dsimp only
  split
  · rfl
  · rfl

/-- `idx[pcb->curTerminal-1]`. -/
def Kernel.lineLength (k : Kernel) : ℤ := k.tty.idx (k.cur.curTerminal - 1)

/-- `tbuf[pcb->curTerminal-1][idx[pcb->curTerminal-1]-1]=='\n'`. -/
def Kernel.endsLine (k : Kernel) : Bool :=
  k.tty.tbuf (bufsize * (k.cur.curTerminal - 1) + (k.lineLength - 1)) = 0x0A

/-- The polling loop of `tRead` is over. -/
def Kernel.lineReady (k : Kernel) : Bool := bufsize ≤ k.lineLength || (k.lineLength != 0 && k.endsLine)

/-- A store to `set`. -/
def Kernel.putSet (k : Kernel) (n : ℤ) : Kernel := { k with tty := { k.tty with set := n } }

/-- What `tRead` does to a line that filled the buffer, once Enter is pressed. -/
def Kernel.cutLine (k : Kernel) : Kernel :=
  if k.lineLength = bufsize then
    { k with tty := { k.tty with
        tbuf := Function.update k.tty.tbuf (bufsize * (k.cur.curTerminal - 1) + (bufsize - 1)) 0x0A } }.printf [0x0A]
  else k

/-- Where a call of `tRead` is. -/
inductive ReadPhase where
  /-- In the polling loop. -/
  | waiting
  /-- Out of the loop, and interrupts are still on. -/
  | ready
  /-- In the loop for a line that fills the buffer, with interrupts on or off. -/
  | full (on : Bool)
  /-- The line is copied and interrupts are on again.  What is left is to return `nbytes`, or `idx` if it is less. -/
  | copied (value : Option ℤ)
  deriving DecidableEq

/-- The buffer, the count and the local variable of a call of `tRead`, and where the call is. -/
structure Reading where
  buf : Mem
  nbytes : ℤ
  scancode : UInt8
  phase : ReadPhase

namespace Reading

/-- The buffer is cleared, up to and including index `nbytes`. -/
def start (scancode : UInt8) (buf : Mem) (nbytes : ℤ) : Reading :=
  ⟨fun i => if (i : ℤ) ≤ nbytes then 0 else buf i, nbytes, scancode, .waiting⟩

/-- The line goes to the caller's buffer. -/
def copy (r : Reading) (k : Kernel) : Reading :=
  { r with
    buf := strncpy r.buf (k.line k.cur.curTerminal)
      (toUInt32 (if r.nbytes ≤ k.lineLength then r.nbytes else k.lineLength))
    phase := .copied (if r.nbytes ≤ k.lineLength then some r.nbytes else none) }

/-- The next piece of `tRead`, up to the next moment when interrupts are on, or one round of the loop for a full line.
`code` is what `inb(KB_PORT)` gives if the piece reads it.  The call is over when nothing is left of it. -/
def advance (code : UInt8) (r : Reading) (k : Kernel) : Option Reading × Kernel :=
  match r.phase with
  | .waiting => (some (if k.lineReady then { r with phase := .ready } else r), k)
  | .ready =>
    if k.tty.idx (k.screen.currentTerminal - 1) = bufsize then (some { r with phase := .full false }, k)
    else (some (r.copy k), k)
  | .full on =>
    if r.scancode = entr ∨ k.endsLine then (some (r.copy k.cutLine), k.cutLine)
    else if k.lineLength = bufsize then
      let on := on && k.tty.set != 0
      let k := if k.tty.set = 0 then k.putSet (k.tty.set + 1) else k
      if code = bksp ∨ code = cntrl ∨ code = alt then
        (some { r with scancode := code, phase := .full true }, k.putSet 0)
      else (some { r with scancode := code, phase := .full on }, k)
    else (some r, k)
  | .copied _ => (none, k)

/-- What the call returns in state `k`, when only the return is left. -/
def value (r : Reading) (k : Kernel) : Option ℤ :=
  match r.phase with
  | .copied value => some (value.getD k.lineLength)
  | .waiting | .ready | .full _ => none

/-- Interrupts are on behind the last piece. -/
def interruptible (r : Reading) : Bool :=
  match r.phase with
  | .full on => on
  | .waiting | .ready | .copied _ => true

/-- The pieces of a call up to its return; behind each of them something else may happen if interrupts are on. -/
def finish : List (UInt8 × Meanwhile) → Reading → Kernel → Option (ℤ × Mem × Kernel)
  | [], r, k => (r.value k).map fun n => (n, r.buf, k)
  | (code, w) :: pieces, r, k =>
    ((r.value k).map fun n => (n, r.buf, k)) <|>
      (r.advance code k).1.bind fun r' =>
        r'.finish pieces (if r'.interruptible then w.resume (r.advance code k).2 else (r.advance code k).2)

end Reading

def tRead (w : Waiting) (buf : Mem) (nbytes : ℤ) (k : Kernel) : Option (ℤ × Mem × Kernel) :=
  let k := (k.setScreen k.screen.updatecursor).clearbuf
  (Reading.start w.scancode buf nbytes).finish w.pieces (w.meanwhile.resume k)

/-- The loop of `tWrite` at index `i`, with `n` iterations left: the bytes it prints and how many it counts.  A NUL
is printed as a line break in the last place, and skipped elsewhere. -/
def tWriteFrom (buf : Mem) : ℕ → ℕ → List UInt8 × ℤ
  | 0, _ => ([], 0)
  | n + 1, i =>
    let (printed, bytesWritten) := tWriteFrom buf n (i + 1)
    if buf i ≠ 0 then (buf i :: printed, bytesWritten + 1)
    else if n = 0 then (0x0A :: printed, bytesWritten)
    else (printed, bytesWritten)

def tWrite (buf : Mem) (nbytes : ℤ) (k : Kernel) : ℤ × Kernel :=
  ((tWriteFrom buf nbytes.toNat 0).2, k.printf (tWriteFrom buf nbytes.toNat 0).1)

/-! ### What the drivers leave alone -/

theorem insert_sameFiles (letter : UInt8) (k : Kernel) : k.SameFiles (k.insert letter).2 := by
  rw [Kernel.insert]
  dsimp only
  split
  · exact .refl k
  · exact .of_pcbs rfl rfl

/-- Keys that are pressed while a process waits. -/
def Meanwhile.typed (letters : List UInt8) : Meanwhile where
  resume k := letters.foldl (fun k letter => (k.insert letter).2) k
  sameFiles k := by
    induction letters generalizing k with
    | nil => exact .refl k
    | cons letter letters ih => exact (insert_sameFiles letter k).trans (ih _)

section Frames

variable {E : Platform} {k k' : Kernel} {w : Waiting} {buf buf' : Mem} {r nbytes : ℤ} {fd : ℕ}

theorem rtcRead_sameFiles (h : rtcRead w buf k = some (r, buf', k')) : k.SameFiles k' := by
  rw [rtcRead] at h
  dsimp only at h
  split at h
  · obtain ⟨-, -, rfl⟩ : _ ∧ _ ∧ _ = k' := by simpa using h
    exact w.meanwhile.after (.of_pcbs rfl rfl)
  · cases h

theorem rtcWrite_sameFiles (h : rtcWrite buf k = some (r, k')) : k.SameFiles k' := by
  rw [rtcWrite] at h
  dsimp only at h
  split at h
  · obtain ⟨-, rfl⟩ : _ ∧ _ = k' := by simpa using h
    exact .of_pcbs rfl rfl
  split at h
  · obtain ⟨-, rfl⟩ : _ ∧ _ = k' := by simpa using h
    exact .of_pcbs rfl rfl
  · obtain ⟨rate, -, h⟩ := Option.map_eq_some_iff.mp h
    split at h
    · obtain ⟨-, rfl⟩ : _ ∧ _ = k' := by simpa using h
      exact .of_pcbs rfl rfl
    · obtain ⟨-, rfl⟩ : _ ∧ _ = k' := by simpa using h
      exact .of_pcbs rfl rfl

theorem tWrite_sameFiles (buf : Mem) (nbytes : ℤ) (k : Kernel) : k.SameFiles (tWrite buf nbytes k).2 :=
  .of_pcbs rfl rfl

/-- **What a piece of `tRead` stores**: nothing, a line break at the end of a full line, or the flag `set`. -/
theorem Reading.advance_kernel (code : UInt8) (r : Reading) (k : Kernel) :
    (r.advance code k).2 = k ∨ (r.advance code k).2 = k.cutLine ∨ ∃ n, (r.advance code k).2 = k.putSet n := by
  have hset : ∃ n, (if k.tty.set = 0 then k.putSet (k.tty.set + 1) else k) = k.putSet n := by
    split
    · exact ⟨_, rfl⟩
    · exact ⟨k.tty.set, rfl⟩
  rw [Reading.advance]
  split
  · exact Or.inl rfl
  · split
    · exact Or.inl rfl
    · exact Or.inl rfl
  · split
    · exact Or.inr (Or.inl rfl)
    split
    · obtain ⟨n, hn⟩ := hset
      dsimp only
      split
      · exact Or.inr (Or.inr ⟨0, by rw [hn]; rfl⟩)
      · exact Or.inr (Or.inr ⟨n, hn⟩)
    · exact Or.inl rfl
  · exact Or.inl rfl

theorem cutLine_sameFiles (k : Kernel) : k.SameFiles k.cutLine := by
  rw [Kernel.cutLine]
  split
  · exact .of_pcbs rfl rfl
  · exact .refl k

theorem Reading.advance_sameFiles (code : UInt8) (r : Reading) (k : Kernel) : k.SameFiles (r.advance code k).2 := by
  rcases r.advance_kernel code k with heq | heq | ⟨n, heq⟩
  · exact .of_eq heq
  · exact heq ▸ cutLine_sameFiles k
  · exact heq ▸ .of_pcbs rfl rfl

theorem Reading.finish_sameFiles {pieces : List (UInt8 × Meanwhile)} {q : Reading}
    (h : q.finish pieces k = some (r, buf', k')) : k.SameFiles k' := by
  induction pieces generalizing q k with
  | nil =>
    obtain ⟨n, -, heq⟩ := Option.map_eq_some_iff.mp h
    cases heq
    exact .refl _
  | cons piece pieces ih =>
    obtain ⟨code, w⟩ := piece
    rw [Reading.finish] at h
    cases hvalue : q.value k with
    | some n =>
      rw [hvalue] at h
      cases h
      exact .refl _
    | none =>
      rw [hvalue] at h
      obtain ⟨q', -, h⟩ := Option.bind_eq_some_iff.mp h
      refine (q.advance_sameFiles code k).trans (Kernel.SameFiles.trans ?_ (ih h))
      split
      · exact w.sameFiles _
      · exact .refl _

theorem tRead_sameFiles (h : tRead w buf nbytes k = some (r, buf', k')) : k.SameFiles k' := by
  have hstart : k.SameFiles (w.meanwhile.resume (k.setScreen k.screen.updatecursor).clearbuf) :=
    w.meanwhile.after (.of_pcbs rfl rfl)
  exact hstart.trans (Reading.finish_sameFiles h)

/-- A regular file is read, or not, and its position moves by what was read. -/
theorem regFileRead_eq (E : Platform) (fd : ℕ) (buf : Mem) (nbytes : ℤ) (k : Kernel) :
    (regFileRead E fd buf nbytes k).2.2 = k ∨
      ∃ pos, (regFileRead E fd buf nbytes k).2.2 = k.setFile fd { k.cur.fileArray fd with filePosition := pos } := by
  rw [regFileRead]
  dsimp only
  split
  · split
    · exact Or.inr ⟨_, rfl⟩
    · exact Or.inl rfl
  · exact Or.inl rfl

/-- A directory is read, or not, and its position moves by one. -/
theorem dirRead_eq (E : Platform) (fd : ℕ) (buf : Mem) (nbytes : ℤ) (k : Kernel) :
    (dirRead E fd buf nbytes k).2.2 = k ∨
      ∃ pos, (dirRead E fd buf nbytes k).2.2 = k.setFile fd { k.cur.fileArray fd with filePosition := pos } := by
  rw [dirRead]
  dsimp only
  split
  · split
    · exact Or.inl rfl
    · exact Or.inr ⟨_, rfl⟩
  · exact Or.inl rfl

end Frames

end ClosKernel
