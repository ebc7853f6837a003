import ClosKernel.LineInput
import ClosKernel.Loading
import ClosKernel.Programs.Cat

/-!
# The shell (`ece391shell.c`)

The shell reads a line, cuts off its line break, and executes it.  Its loop need not end, so `shell` is the program with
the first rounds of the loop, and what holds of it for every number of rounds is stated of the conversation: what the
shell has printed, read and executed, in this order.

* `ensures_read_line` — a read of the terminal returns the line that is typed while it waits;
* `ensures_execute` — what executing a command looks like from the process that does it;
* `shell_runs_lines` — **the shell executes the lines that are typed**, each once and in their order, except for empty
  ones, up to the first `exit`, and says how each of them ended.
-/

namespace ClosKernel

open PartialRun StateProgram

/-! ### The programs -/

/-- The loop of `ece391_strcmp`; `none` if `n` bytes do not decide. -/
def ece391StrcmpFrom (s1 s2 : Mem) : ℕ → ℕ → Option ℤ
  | 0, _ => none
  | n + 1, i =>
    if s1 i = s2 i then
      if s1 i = 0 then some 0 else ece391StrcmpFrom s1 s2 n (i + 1)
    else some (((s1 i).toNat : ℤ) - (s2 i).toNat)

def ece391Strcmp (s1 s2 : Mem) : Option ℤ := ece391StrcmpFrom s1 s2 (2 ^ 32) 0

def startingShell : List UInt8 := ascii "Starting 391 Shell\n".toList
def shellPrompt : List UInt8 := ascii "391OS> ".toList
def readFromKeyboardFailed : List UInt8 := ascii "read from keyboard failed\n".toList
def exitCommand : List UInt8 := ascii "exit".toList
def noSuchCommand : List UInt8 := ascii "no such command\n".toList
def terminatedByException : List UInt8 := ascii "program terminated by exception\n".toList
def terminatedAbnormally : List UInt8 := ascii "program terminated abnormally\n".toList

/-- The end of a round, when `ece391_execute` has returned `rval`. -/
def reportStatus (rval : ℤ) : Prog Process Unit :=
  if rval = -1 then ece391Fdputs 1 (literal noSuchCommand)
  else if rval = 256 then ece391Fdputs 1 (literal terminatedByException)
  else if rval ≠ 0 then ece391Fdputs 1 (literal terminatedAbnormally)
  else pure ()

/-- One round of the loop of the shell. -/
def shellRound (E : Platform) (buf : Mem) : Prog Process (Mem ⊕ ℤ) := do
  ece391Fdputs 1 (literal shellPrompt)
  let (cnt, buf) ← ece391Read E 0 buf 1023
  if cnt = -1 then do
    ece391Fdputs 1 (literal readFromKeyboardFailed)
    pure (.inr 3)
  else do
    let cnt := if 0 < cnt ∧ buf (cnt - 1).toNat = 0x0A then cnt - 1 else cnt
    let buf : Mem := Function.update buf cnt.toNat 0
    let r ← (StateT.lift (ece391Strcmp buf (literal exitCommand)) : Prog Process ℤ)
    if r = 0 then pure (.inr 0)
    else if buf 0 = 0 then pure (.inl buf)
    else do
      let rval ← ece391Execute E buf
      reportStatus rval
      pure (.inl buf)

/-- `main` of `ece391shell.c`, with the first `n` rounds of its loop; `junk` is what its buffer holds at the start. -/
def shell (E : Platform) (junk : Mem) (n : ℕ) : Prog Process (Mem ⊕ ℤ) := do
  ece391Fdputs 1 (literal startingShell)
  rounds (shellRound E) n junk

/-! ### Comparing strings -/

/-- The comparison of the user programs agrees with the one of the kernel, which has a bound. -/
theorem ece391StrcmpFrom_spec (s1 s2 : Mem) (n i : ℕ) (hend : ∃ j < n, s1 (i + j) = 0) :
    ∃ r, ece391StrcmpFrom s1 s2 n i = some r ∧ (r = 0 ↔ strncmpFrom s1 s2 i n = 0) := by
  induction n generalizing i with
  | zero =>
    obtain ⟨j, hj, -⟩ := hend
    exact absurd hj (Nat.not_lt_zero j)
  | succ n ih =>
    rw [ece391StrcmpFrom, strncmpFrom]
    by_cases heq : s1 i = s2 i
    · by_cases hzero : s1 i = 0
      · rw [if_pos heq, if_pos hzero, if_pos (Or.inr hzero), heq, Int.sub_self]
        exact ⟨0, rfl, Iff.rfl⟩
      · rw [if_pos heq, if_neg hzero, if_neg (not_or.mpr ⟨not_not.mpr heq, hzero⟩)]
        obtain ⟨j, hj, hnul⟩ := hend
        obtain ⟨j, rfl⟩ : ∃ m, j = m + 1 := Nat.exists_eq_succ_of_ne_zero fun h0 => hzero (by rwa [h0] at hnul)
        exact ih (i + 1) ⟨j, by omega, by rwa [Nat.add_assoc, Nat.add_comm 1 j]⟩
    · rw [if_neg heq, if_pos (Or.inl heq)]
      refine ⟨_, rfl, ?_⟩
      rw [charToInt_sub_eq_zero_iff, Int.sub_eq_zero, Nat.cast_inj, UInt8.toNat_inj]

/-- `ece391_strcmp` tells whether two strings are the same. -/
theorem ece391Strcmp_spells {s1 s2 : Mem} {a b : List UInt8} (ha : Spells s1 a) (hb : Spells s2 b)
    (hlen : a.length < 2 ^ 32) (hlen' : b.length < 2 ^ 32) :
    ∃ r, ece391Strcmp s1 s2 = some r ∧ (r = 0 ↔ a = b) := by
  have hend : s1 (0 + a.length) = 0 := by
    rw [Nat.zero_add, ha.bytes _ (Nat.le_refl _), List.getD_eq_getElem?_getD,
      List.getElem?_eq_none (Nat.le_refl _), Option.getD_none]
  obtain ⟨r, hr, hzero⟩ := ece391StrcmpFrom_spec s1 s2 (2 ^ 32) 0 ⟨a.length, hlen, hend⟩
  refine ⟨r, hr, hzero.trans ?_⟩
  have hstrings := strncmp_eq_zero_iff_cString s1 s2 (2 ^ 32)
  rw [ha.cStringFrom, hb.cStringFrom, List.take_of_length_le (by omega), List.take_of_length_le (by omega)] at hstrings
  exact hstrings

/-! ### Reading a line -/

/-- No key is pressed, no other terminal is displayed, and the running process is on the terminal it was on. -/
structure Meanwhile.Quiet (w : Meanwhile) : Prop where
  tty : ∀ k, (w.resume k).tty = k.tty
  displayed : ∀ k, (w.resume k).screen.currentTerminal = k.screen.currentTerminal
  curTerminal : ∀ k, (w.resume k).cur.curTerminal = k.cur.curTerminal

theorem Meanwhile.Quiet.lineLength {w : Meanwhile} (h : w.Quiet) (k : Kernel) :
    (w.resume k).lineLength = k.lineLength := by
  rw [Kernel.lineLength, Kernel.lineLength, h.tty, h.curTerminal]

/-- While a call waits in kernel `k`, this line is typed in on the terminal of its process: text, and a line break that
still fits into the buffer; and the terminal on the screen has room in its buffer, too.  From then on no key is pressed
until the call has looked at the line, copied it and returned. -/
structure Waiting.Types (w : Waiting) (k : Kernel) (line : List UInt8) : Prop where
  holds : (w.meanwhile.resume k).LineHolds (w.meanwhile.resume k).cur.curTerminal (line ++ [lineFeed])
  text : 0 ∉ line
  noBreak : lineFeed ∉ line
  short : line.length < 127
  room : (w.meanwhile.resume k).tty.idx ((w.meanwhile.resume k).screen.currentTerminal - 1) ≠ bufsize
  pieces : 2 ≤ w.pieces.length
  quiet : ∀ piece ∈ w.pieces, piece.2.Quiet

theorem Waiting.Types.clean {w : Waiting} {k : Kernel} {line : List UInt8} (h : w.Types k line) :
    0 ∉ line ++ [lineFeed] := by
  rw [List.mem_append, not_or]
  exact ⟨h.text, by decide⟩

/-- When nothing but the return is left, the call returns. -/
theorem Reading.finish_of_value {r : Reading} {k : Kernel} {n : ℤ} (h : r.value k = some n)
    (pieces : List (UInt8 × Meanwhile)) : r.finish pieces k = some (n, r.buf, k) := by
  cases pieces with
  | nil => rw [Reading.finish, h, Option.map_some]
  | cons piece pieces =>
    rw [Reading.finish, h]
    rfl

/-- A call that finds its line: the poll, the copy and the return, with what comes behind the first two. -/
theorem Reading.finish_ready {r : Reading} {k : Kernel} (hwaiting : r.phase = .waiting) (hready : k.lineReady = true)
    {code code' : UInt8} {w w' : Meanwhile}
    (hroom : (w.resume k).tty.idx ((w.resume k).screen.currentTerminal - 1) ≠ bufsize)
    (pieces : List (UInt8 × Meanwhile)) :
    r.finish ((code, w) :: (code', w') :: pieces) k
      = some ((if r.nbytes ≤ (w.resume k).lineLength then some r.nbytes else none).getD
          (w'.resume (w.resume k)).lineLength, (r.copy (w.resume k)).buf, w'.resume (w.resume k)) := by
  have hvalue : r.value k = none := by rw [Reading.value, hwaiting]
  have hpoll : r.advance code k = (some { r with phase := .ready }, k) := by
    rw [Reading.advance, hwaiting]
    dsimp only
    rw [if_pos hready]
  have hcopy : Reading.advance code' { r with phase := .ready } (w.resume k)
      = (some (r.copy (w.resume k)), w.resume k) := by
    rw [Reading.advance]
    exact if_neg hroom
  rw [Reading.finish, hvalue, hpoll]
  show Reading.finish ((code', w') :: pieces) { r with phase := .ready } (w.resume k) = _
  rw [Reading.finish, hcopy]
  exact Reading.finish_of_value rfl pieces

/-- A line that is copied in front of a NUL is a string. -/
theorem Kernel.LineHolds.spells_copy {k : Kernel} {t : ℤ} {text : List UInt8} (h : k.LineHolds t text)
    (hclean : 0 ∉ text) {dest : Mem} (hend : dest text.length = 0) :
    Spells (strncpy dest (k.line t) text.length) text := by
  have hline : ∀ j < text.length, k.line t j ≠ 0 := fun j =>
    h.ne_zero fun c hc hzero => hclean (hzero ▸ hc)
  refine ⟨hclean, fun i hi => ?_⟩
  rcases Nat.lt_or_eq_of_le hi with hlt | rfl
  · rw [strncpy_of_nul_free _ hline hlt, ← h.byte hlt, List.getD_eq_getElem?_getD, List.getElem?_eq_getElem hlt,
      Option.getD_some]
  · rw [strncpy_apply, if_neg (Nat.lt_irrefl _), List.getD_eq_getElem?_getD, List.getElem?_eq_none (Nat.le_refl _),
      Option.getD_none]
    exact hend

/-- **`tRead` returns the line**, as a string in the caller's buffer. -/
theorem tRead_typed {w : Waiting} {k : Kernel} {line : List UInt8}
    (h : w.Types (k.setScreen k.screen.updatecursor).clearbuf line) (buf : Mem) {nbytes : ℤ} (hn : 127 ≤ nbytes) :
    ∃ buf' k', tRead w buf nbytes k = some (((line ++ [lineFeed]).length : ℤ), buf', k') ∧
      Spells buf' (line ++ [lineFeed]) := by
  obtain ⟨m, hm⟩ : ∃ m, m = w.meanwhile.resume (k.setScreen k.screen.updatecursor).clearbuf := ⟨_, rfl⟩
  obtain ⟨⟨code, w₁⟩, ⟨code', w₂⟩, pieces, hpieces⟩ : ∃ a b l, w.pieces = a :: b :: l := by
    match hw : w.pieces, h.pieces with
    | a :: b :: l, _ => exact ⟨a, b, l, rfl⟩
  have hquiet₁ : w₁.Quiet := h.quiet (code, w₁) (by simp [hpieces])
  have hquiet₂ : w₂.Quiet := h.quiet (code', w₂) (by simp [hpieces])
  have hholds := h.holds
  have hroom := h.room
  have hshort := h.short
  rw [← hm] at hholds hroom
  have hlen : m.lineLength = (line ++ [lineFeed]).length := hholds.idx
  have hready : m.lineReady = true := by
    rw [hholds.lineReady_iff (by rw [List.length_append, List.length_singleton]; omega), List.getLast?_concat]
  have hcount : (if nbytes ≤ m.lineLength then nbytes else m.lineLength) = (line ++ [lineFeed]).length := by
    rw [hlen, List.length_append, List.length_singleton]
    split <;> omega
  have hvalue : (if nbytes ≤ m.lineLength then some nbytes else none).getD m.lineLength
      = (line ++ [lineFeed]).length := by
    rw [← hcount]
    split <;> rfl
  have hword : toUInt32 ((line ++ [lineFeed]).length : ℤ) = (line ++ [lineFeed]).length := by
    rw [List.length_append, List.length_singleton]
    unfold toUInt32
    omega
  have hline : (w₁.resume m).line (w₁.resume m).cur.curTerminal = m.line m.cur.curTerminal := by
    funext i
    rw [Kernel.line, Kernel.line, hquiet₁.tty, hquiet₁.curTerminal]
  refine ⟨strncpy (fun i => if (i : ℤ) ≤ nbytes then 0 else buf i) (m.line m.cur.curTerminal)
    (line ++ [lineFeed]).length, w₂.resume (w₁.resume m), ?_, hholds.spells_copy h.clean (if_pos ?_)⟩
  · rw [tRead, ← hm, hpieces]
    refine (Reading.finish_ready rfl hready (by rwa [hquiet₁.tty, hquiet₁.displayed]) pieces).trans ?_
    rw [hquiet₂.lineLength, Reading.copy, hquiet₁.lineLength, hline]
    show some ((if nbytes ≤ m.lineLength then some nbytes else none).getD m.lineLength,
      strncpy _ _ (toUInt32 (if nbytes ≤ m.lineLength then nbytes else m.lineLength)), _) = _
    rw [hcount, hword, hvalue]
    rfl
  · rw [List.length_append, List.length_singleton]
    omega

/-- Whenever a call of the process waits, one of these lines is typed in. -/
def Process.Hears (s : Process) (lines : Set (List UInt8)) : Prop :=
  ∀ i k, ∃ line ∈ lines, (s.turns i).waiting.Types k line

theorem Process.Hears.of_went {s s' : Process} {lines : Set (List UInt8)} (h : s.Hears lines) {events : List Event}
    {files : ℕ → FileStruct} (hwent : s.Went events files s') : s'.Hears lines := by
  obtain ⟨c, hc⟩ := hwent.later
  intro i k
  rw [hc]
  exact h _ k

section Calls

variable {E : Platform} {s : Process} {lines : Set (List UInt8)}

/-- **One read of the terminal** waits for a line. -/
theorem ensures_read_line (hin : (s.files 0).OpenOn .term) (hhears : s.Hears lines) (buf : Mem) {n : ℤ}
    (hn : 127 ≤ n) :
    Ensures (ece391Read E 0 buf n) s fun r s' => ∃ line ∈ lines, lineFeed ∉ line ∧ line.length < 127 ∧
      r.1 = (line ++ [lineFeed]).length ∧ Spells r.2 (line ++ [lineFeed]) ∧
      s.Went [.typed (line ++ [lineFeed])] s.files s' := by
  obtain ⟨line, hmem, hline⟩ := hhears 0 (s.resumed.setScreen s.resumed.screen.updatecursor).clearbuf
  obtain ⟨buf', k', hread, hspells⟩ := tRead_typed hline buf hn
  have hopen : ((0 : ℤ) = 0 ∨ 2 ≤ (0 : ℤ) ∧ (0 : ℤ) < 8) ∧ (s.resumed.cur.fileArray (0 : ℤ).toNat).IsOpen := by
    rw [s.resumed_files]
    exact ⟨Or.inl rfl, hin.isOpen⟩
  have hfops : (s.resumed.cur.fileArray (0 : ℤ).toNat).fopsTable = some .term := by
    rw [s.resumed_files]
    exact hin.1
  have hsys : sysRead E 0 buf n (s.turns 0).waiting s.resumed
      = some (((line ++ [lineFeed]).length : ℤ), buf', k') := by
    rw [sysRead, if_pos hopen, hfops, Option.bind_some]
    exact hread
  have hinput : terminalInput 0 buf' ((line ++ [lineFeed]).length : ℤ) s.resumed = [.typed (line ++ [lineFeed])] := by
    rw [terminalInput, if_pos hfops, Int.toNat_natCast, hspells.bytesBelow]
  refine .of_run (((line ++ [lineFeed]).length : ℤ), buf') (s.returned k' [.typed (line ++ [lineFeed])]) ?_
    ⟨line, hmem, hline.noBreak, hline.short, rfl, hspells, Process.went_returned ?_ _⟩
  · show (sysRead E 0 buf n (s.turns 0).waiting s.resumed).map _ = _
    rw [hsys, Option.map_some]
    dsimp only
    rw [if_neg (by omega), hinput]
  · exact (tRead_sameFiles hread).fileArray.trans s.resumed_files

/-- **Executing a command.**  A call that fails prints why and returns -1. -/
theorem ensures_execute {d : ℕ} (hdir : E.image.Directory d) (hd : d < 63) {buf : Mem} {command : List UInt8}
    (hbuf : Spells buf command) (hlen : command.length < 2 ^ 32) :
    Ensures (ece391Execute E buf) s fun value s' => ∃ text : List UInt8, (text ≠ [] → value = -1) ∧
      s.Went (text.map .printed ++ [.ran command value]) s.files s' := by
  have hstring : cString buf = command := by
    rw [cString, hbuf.cStringFrom, List.take_of_length_le (by omega)]
  obtain ⟨⟨o, k'⟩, hcall⟩ : ∃ r, sysExecute E (s.turns 0).stack command s.resumed = some r := by
    refine Option.ne_none_iff_exists'.mp ?_
    rw [ne_eq, sysExecute_eq_none_iff, checkExe_eq_none_iff]
    rcases hdir.lookup_cases hd (commandBuffers command (s.turns 0).stack.cmd).1 with ⟨e, -, h, -⟩ | ⟨h, -⟩ <;>
      rw [h] <;> simp
  subst hstring
  have hrun : (ece391Execute E buf).run s = _ := congrArg (Option.map _) hcall
  rcases sysExecute_cases hcall with ⟨rfl, rfl, -⟩ | ⟨r, free, -, -, -, rfl, -, -⟩
  · refine .of_run (-1) _ hrun ⟨_, fun _ => rfl, Process.went_returned ?_ _⟩
    exact s.resumed_files
  · refine .of_run (s.turns 0).status _ hrun ⟨[], fun h => absurd rfl h, Process.went_returned ?_ _⟩
    exact ((s.turns 0).waiting.meanwhile.sameFiles _).fileArray.trans s.resumed_files

end Calls

/-! ### The conversation -/

/-- What the shell says when a command has returned `value`. -/
def verdict (value : ℤ) : List UInt8 :=
  if value = -1 then noSuchCommand
  else if value = 256 then terminatedByException
  else if value ≠ 0 then terminatedAbnormally
  else []

/-- One round of the shell: the line that was typed, and for a command what the kernel printed and returned. -/
structure Exchange where
  line : List UInt8
  text : List UInt8
  value : ℤ
  deriving DecidableEq

/-- The lines that the shell executes. -/
def Exchange.IsCommand (e : Exchange) : Prop := e.line ≠ [] ∧ e.line ≠ exitCommand

instance (e : Exchange) : Decidable e.IsCommand := inferInstanceAs (Decidable (_ ∧ _))

def Exchange.events (e : Exchange) : List Event :=
  shellPrompt.map .printed ++ [.typed (e.line ++ [lineFeed])] ++
    if e.IsCommand then e.text.map .printed ++ [.ran e.line e.value] ++ (verdict e.value).map .printed else []

/-- The line is one of those that are typed, and if the kernel has complained then it has refused the command. -/
structure Exchange.Fair (e : Exchange) (lines : Set (List UInt8)) : Prop where
  typed : e.line ∈ lines
  refused : e.text ≠ [] → e.value = -1

def Event.command? : Event → Option (List UInt8)
  | .ran command _ => some command
  | _ => none

/-- What has been executed. -/
def commandsOf (events : List Event) : List (List UInt8) := events.filterMap Event.command?

theorem commandsOf_append (es es' : List Event) : commandsOf (es ++ es') = commandsOf es ++ commandsOf es' :=
  List.filterMap_append

theorem commandsOf_printed (text : List UInt8) : commandsOf (text.map .printed) = [] := by
  rw [commandsOf, List.filterMap_map]
  exact List.filterMap_eq_nil_iff.mpr fun _ _ => rfl

theorem Exchange.commandsOf_events (e : Exchange) :
    commandsOf e.events = if e.IsCommand then [e.line] else [] := by
  rw [Exchange.events, commandsOf_append, commandsOf_append, commandsOf_printed]
  split
  · rw [commandsOf_append, commandsOf_append, commandsOf_printed, commandsOf_printed]
    rfl
  · rfl

/-- The commands of a conversation are its lines, except for the empty ones and `exit`. -/
theorem commandsOf_exchanges (es : List Exchange) :
    commandsOf (es.flatMap Exchange.events) = (es.filter Exchange.IsCommand).map Exchange.line := by
  induction es with
  | nil => rfl
  | cons e es ih =>
    rw [List.flatMap_cons, commandsOf_append, ih, e.commandsOf_events, List.filter_cons]
    by_cases he : e.IsCommand
    · rw [if_pos he, if_pos (decide_eq_true he)]
      rfl
    · rw [if_neg he, if_neg (by simpa using he)]
      rfl

/-- A line without its line break. -/
theorem Spells.cut {m : Mem} {line : List UInt8} (h : Spells m (line ++ [lineFeed])) :
    m line.length = 0x0A ∧ Spells (Function.update m line.length 0) line := by
  have hlen : (line ++ [lineFeed]).length = line.length + 1 := List.length_append
  refine ⟨?_, fun hzero => h.nul_free (List.mem_append_left _ hzero), fun i hi => ?_⟩
  · rw [h.bytes _ (by omega), List.getD_eq_getElem?_getD, List.getElem?_concat_length]
    rfl
  · rcases Nat.lt_or_eq_of_le hi with hlt | rfl
    · rw [Function.update_of_ne (Nat.ne_of_lt hlt), h.bytes i (by omega), List.getD_eq_getElem?_getD,
        List.getElem?_append_left hlt, List.getD_eq_getElem?_getD]
    · rw [Function.update_self, List.getD_eq_getElem?_getD, List.getElem?_eq_none (Nat.le_refl _), Option.getD_none]

section Shell

variable {E : Platform} {s : Process} {lines : Set (List UInt8)}

theorem ensures_reportStatus (hout : (s.files 1).OpenOn .term) (rval : ℤ) :
    Ensures (reportStatus rval) s fun _ s' => s.Did (verdict rval) s.files s' := by
  rw [verdict, reportStatus]
  split
  · exact ensures_fdputs hout (.literal (by decide)) (by decide)
  split
  · exact ensures_fdputs hout (.literal (by decide)) (by decide)
  split
  · exact ensures_fdputs hout (.literal (by decide)) (by decide)
  · exact .pure (.refl s)

/-- **One round of the shell**: one exchange, and the end if the line was `exit`. -/
theorem ensures_shellRound {d : ℕ} (hdir : E.image.Directory d) (hd : d < 63) (hin : (s.files 0).OpenOn .term)
    (hout : (s.files 1).OpenOn .term) (hhears : s.Hears lines) (buf : Mem) :
    Ensures (shellRound E buf) s fun r s' => ∃ e : Exchange, e.Fair lines ∧ s.Went e.events s.files s' ∧
      if e.line = exitCommand then r = .inr 0 else ∃ buf', r = .inl buf' := by
  rw [shellRound]
  refine (ensures_fdputs hout (.literal (by decide)) (by decide)).bind fun _ s₁ hprompt => ?_
  have hfiles₁ := hprompt.files
  refine (ensures_read_line (hfiles₁ ▸ hin) (hhears.of_went hprompt) buf (by decide)).bind ?_
  rintro ⟨cnt, buf₁⟩ s₂ ⟨line, hmem, -, hshort, hcnt, hspells, htyped⟩
  dsimp only at hcnt hspells ⊢
  rw [List.length_append, List.length_singleton] at hcnt
  obtain ⟨hcut, hline⟩ := Spells.cut hspells
  have hstrip : (if 0 < cnt ∧ buf₁ (cnt - 1).toNat = 0x0A then cnt - 1 else cnt).toNat = line.length := by
    have hbefore : (cnt - 1).toNat = line.length := by omega
    rw [hbefore, if_pos ⟨by omega, hcut⟩, hbefore]
  have hwent : s.Went (shellPrompt.map .printed ++ [.typed (line ++ [lineFeed])]) s.files s₂ := by
    rw [← hfiles₁]
    exact Process.Went.trans hprompt htyped
  have hfiles := hwent.files
  rw [if_neg (by omega), hstrip]
  obtain ⟨c, hc, hzero⟩ := ece391Strcmp_spells hline (.literal (show 0 ∉ exitCommand by decide))
    (by omega) (by decide)
  refine (Ensures.lift hc).bind ?_
  rintro _ _ ⟨rfl, rfl⟩
  by_cases hexit : line = exitCommand
  · rw [if_pos (hzero.mpr hexit)]
    refine .pure ⟨⟨line, [], 0⟩, ⟨hmem, fun h => absurd rfl h⟩, ?_, by rw [if_pos hexit]⟩
    rw [Exchange.events, if_neg fun h => h.2 hexit, List.append_nil]
    exact hwent
  rw [if_neg (mt hzero.mp hexit)]
  by_cases hempty : line = []
  · rw [if_pos (hline.first_eq_zero_iff.mpr hempty)]
    refine .pure ⟨⟨line, [], 0⟩, ⟨hmem, fun h => absurd rfl h⟩, ?_, by rw [if_neg hexit]; exact ⟨_, rfl⟩⟩
    rw [Exchange.events, if_neg fun h => h.1 hempty, List.append_nil]
    exact hwent
  rw [if_neg (mt hline.first_eq_zero_iff.mp hempty)]
  refine (ensures_execute hdir hd hline (by omega)).bind ?_
  rintro value s₃ ⟨text, htext, hran⟩
  have hout₃ : (s₃.files 1).OpenOn .term := by
    rw [hran.files, hfiles]
    exact hout
  refine (ensures_reportStatus hout₃ value).bind fun _ s₄ hsaid => .pure ?_
  refine ⟨⟨line, text, value⟩, ⟨hmem, htext⟩, ?_, by rw [if_neg hexit]; exact ⟨_, rfl⟩⟩
  have hall := (hwent.trans hran).trans hsaid
  rw [hran.files, hfiles] at hall
  rw [Exchange.events, if_pos ⟨hempty, hexit⟩]
  simpa only [List.append_assoc] using hall

/-- Since `s`, the shell has had this conversation. -/
structure Process.Talked (s : Process) (lines : Set (List UInt8)) (es : List Exchange) (s' : Process) : Prop where
  went : s.Went (startingShell.map .printed ++ es.flatMap Exchange.events) s.files s'
  fair : ∀ e ∈ es, e.Fair lines

theorem Process.Talked.more {s' s'' : Process} {es : List Exchange} (h : s.Talked lines es s') {e : Exchange}
    (hwent : s'.Went e.events s'.files s'') (hfair : e.Fair lines) : s.Talked lines (es ++ [e]) s'' := by
  refine ⟨?_, fun e' he' => ?_⟩
  · have hall := h.went.trans hwent
    rwa [h.went.files, List.append_assoc, ← List.flatMap_singleton Exchange.events e, ← List.flatMap_append] at hall
  · rcases List.mem_append.mp he' with hold | hnew
    · exact h.fair e' hold
    · rw [List.mem_singleton.mp hnew]
      exact hfair

theorem Process.Talked.commands {s' : Process} {es : List Exchange} (h : s.Talked lines es s') :
    commandsOf s'.history = commandsOf s.history ++ (es.filter Exchange.IsCommand).map Exchange.line := by
  rw [h.went.history, commandsOf_append, commandsOf_append, commandsOf_printed, commandsOf_exchanges, List.nil_append]

/-- How a conversation stands after `n` rounds, or has ended. -/
def ShellStands (s : Process) (lines : Set (List UInt8)) (n : ℕ) : Mem ⊕ ℤ → Process → Prop :=
  Round (fun _ s' => ∃ es : List Exchange, s.Talked lines es s' ∧ es.length = n ∧ ∀ e ∈ es, e.line ≠ exitCommand)
    fun value s' => value = 0 ∧ ∃ (es : List Exchange) (e : Exchange), s.Talked lines (es ++ [e]) s' ∧
      e.line = exitCommand ∧ ∀ e' ∈ es, e'.line ≠ exitCommand

/-- The rounds of the shell. -/
theorem ensures_shellRounds {d : ℕ} (hdir : E.image.Directory d) (hd : d < 63) (hin : (s.files 0).OpenOn .term)
    (hout : (s.files 1).OpenOn .term) (hhears : s.Hears lines) {s' : Process} (hstart : s.Talked lines [] s')
    (junk : Mem) (n : ℕ) : Ensures (rounds (shellRound E) n junk) s' (ShellStands s lines n) := by
  have hrounds : Ensures (rounds (shellRound E) n junk) s' (Round (fun buf s' =>
      ShellStands s lines (0 + n) (.inl buf) s') fun value s' => ShellStands s lines 0 (.inr value) s') := by
    refine Ensures.rounds (I := fun n buf s' => ShellStands s lines n (.inl buf) s') ?_
      ⟨[], hstart, rfl, fun e he => by cases he⟩ n
    rintro i buf s'' ⟨es, htalked, hlen, hgoes⟩
    have hfiles := htalked.went.files
    have hround := ensures_shellRound hdir hd (hfiles.symm ▸ hin) (hfiles.symm ▸ hout)
      (hhears.of_went htalked.went) buf
    refine hround.mono fun r s₁ hr => ?_
    obtain ⟨e, hfair, hwent, hend⟩ := hr
    have hmore := htalked.more hwent hfair
    by_cases hexit : e.line = exitCommand
    · rw [if_pos hexit] at hend
      subst hend
      exact ⟨rfl, es, e, hmore, hexit, hgoes⟩
    · rw [if_neg hexit] at hend
      obtain ⟨buf', rfl⟩ := hend
      refine ⟨es ++ [e], hmore, by rw [List.length_append, hlen, List.length_singleton], fun e' he' => ?_⟩
      rcases List.mem_append.mp he' with hold | hnew
      · exact hgoes e' hold
      · rwa [List.mem_singleton.mp hnew]
  rw [Nat.zero_add] at hrounds
  refine hrounds.mono fun r s'' hr => ?_
  cases r <;> exact hr

/-- **The shell executes the lines that are typed.**  On a machine where every wait for the terminal ends with one of
`lines`, the first `n` rounds of the shell are `n` exchanges, or fewer if `exit` is typed, and then the shell returns 0.
The commands that it has executed are the lines that it has read, in their order, without the empty ones and without
`exit`. -/
theorem shell_runs_lines {d : ℕ} (hdir : E.image.Directory d) (hd : d < 63) (hin : (s.files 0).OpenOn .term)
    (hout : (s.files 1).OpenOn .term) (hhears : s.Hears lines) (junk : Mem) (n : ℕ) :
    Ensures (shell E junk n) s fun r s' => ∃ es : List Exchange,
      s.Went (startingShell.map .printed ++ es.flatMap Exchange.events) s.files s' ∧ (∀ e ∈ es, e.Fair lines) ∧
      commandsOf s'.history = commandsOf s.history ++ (es.filter Exchange.IsCommand).map Exchange.line ∧
      match r with
      | .inl _ => es.length = n ∧ ∀ e ∈ es, e.line ≠ exitCommand
      | .inr value => value = 0 ∧ ∃ es' e, es = es' ++ [e] ∧ e.line = exitCommand ∧
          ∀ e' ∈ es', e'.line ≠ exitCommand := by
  rw [shell]
  refine (ensures_fdputs hout (.literal (by decide)) (by decide)).bind fun _ s₁ hstart => ?_
  have hstart : s.Talked lines [] s₁ := ⟨by rwa [List.flatMap_nil, List.append_nil], fun e he => by cases he⟩
  refine (ensures_shellRounds hdir hd hin hout hhears hstart junk n).mono fun r s' hr => ?_
  cases r with
  | inl buf =>
    obtain ⟨es, htalked, hlen, hgoes⟩ := hr
    exact ⟨es, htalked.went, htalked.fair, htalked.commands, hlen, hgoes⟩
  | inr value =>
    obtain ⟨hvalue, es, e, htalked, hexit, hgoes⟩ := hr
    exact ⟨es ++ [e], htalked.went, htalked.fair, htalked.commands, hvalue, es, e, rfl, hexit, hgoes⟩

end Shell

/-- The user types a line, on whichever terminal. -/
def Meanwhile.typing (line : List UInt8) : Meanwhile where
  resume k := { k with tty := { k.tty with
    idx := fun _ => line.length, tbuf := fun off => line.getD (off % bufsize).toNat 0 } }
  sameFiles _ := .of_pcbs rfl rfl

/-- A process that has just been started, for a user who types one and the same line again and again. -/
def startedTyping (line : List UInt8) : Process :=
  { startedWith [] with turns := fun _ => { Turn.quiet with waiting := .during (.typing (line ++ [lineFeed])) } }

theorem startedTyping_hears {line : List UInt8} (htext : 0 ∉ line) (hbreak : lineFeed ∉ line)
    (hshort : line.length < 127) : (startedTyping line).Hears (· = line) := by
  have hlen : (line ++ [lineFeed]).length = line.length + 1 := List.length_append
  have hspells : Spells (literal (line ++ [lineFeed])) (line ++ [lineFeed]) := by
    refine .literal ?_
    rw [List.mem_append, not_or]
    exact ⟨htext, by decide⟩
  refine fun i k => ⟨line, rfl, ⟨rfl, ?_⟩, htext, hbreak, hshort, ?_, Nat.le_refl 2, ?_⟩
  · refine (bytesBelow_congr fun j hj => ?_).trans hspells.bytesBelow
    show (line ++ [lineFeed]).getD ((128 * _ + (j : ℤ)) % 128).toNat 0 = _
    rw [show ((128 * _ + (j : ℤ)) % 128).toNat = j by omega, literal]
  · show ((line ++ [lineFeed]).length : ℤ) ≠ 128
    omega
  · intro piece hpiece
    obtain rfl : piece = (0, .nothing) := by simpa [startedTyping, Waiting.during] using hpiece
    exact ⟨fun _ => rfl, fun _ => rfl, fun _ => rfl⟩

/-- For a user who types `ls` three times, the shell executes it three times. -/
theorem shell_runs_lines_ls :
    Ensures (shell framePlatform emptyString 3) (startedTyping (ascii "ls".toList)) fun r s' =>
      commandsOf s'.history = List.replicate 3 (ascii "ls".toList) ∧ ∃ buf, r = .inl buf := by
  have hshell := shell_runs_lines (E := framePlatform) (s := startedTyping (ascii "ls".toList))
    frameImage_root.directory (by decide) (by decide) (by decide)
    (startedTyping_hears (by decide) (by decide) (by decide)) emptyString 3
  refine hshell.mono fun r s' hr => ?_
  obtain ⟨es, -, hfair, hcommands, hend⟩ := hr
  have hline : ∀ e ∈ es, e.line = ascii "ls".toList := fun e he => (hfair e he).typed
  cases r with
  | inl buf =>
    refine ⟨?_, buf, rfl⟩
    rw [hcommands, show commandsOf (startedTyping _).history = [] from rfl, List.nil_append,
      List.filter_eq_self.mpr fun e he => ?_]
    · exact List.eq_replicate_iff.mpr ⟨by rw [List.length_map, hend.1], fun c hc => by
        obtain ⟨e, he, rfl⟩ := List.mem_map.mp hc
        exact hline e he⟩
    · rw [decide_eq_true_eq, Exchange.IsCommand, hline e he]
      decide
  | inr value =>
    obtain ⟨-, es', e, rfl, hexit, -⟩ := hend
    rw [hline e (List.mem_append_right _ (List.mem_singleton_self e))] at hexit
    exact absurd hexit (by decide)

end ClosKernel
