import ClosKernel.Arguments
import ClosKernel.Buffers
import Mathlib.Data.List.TakeWhile

/-!
# The buffers of a command line (`parser`, `sys_getargs`)

`sys_execute` has `parser` cut the command line into two arrays of its own, and `sys_getargs` hands the second one to
the program.  `parser` stops storing arguments one short of the end of their array; nothing stops it from storing the
name.  `sys_getargs` clears the caller's buffer before it looks whether it will fill it.

* `parserCmd_fst`, `parserArgs_text` — what the two loops of `parser` leave behind;
* `parser_splits` — **the split**, and that a name and its arguments come back from it;
* `parser_in_bounds_iff` — **bounds**: names up to 1023 bytes;
* `sysGetargs_cases` — what `sys_getargs` does to the buffer;
* `sys_getargs_in_buffer_iff` — **when `sys_getargs` keeps to the buffer and to nothing on failure**.
-/

namespace ClosKernel

/-! ### What `parser` leaves -/

/-- What is left of a command behind its first word and one space. -/
def behindWord (command : List UInt8) : List UInt8 :=
  let rest := command.dropWhile fun c => decide (c ≠ 0x20 ∧ c ≠ 0x0A ∧ c ≠ 0)
  if rest.head? = some 0x20 then rest.tail else rest

/-- The bytes up to a newline or a NUL. -/
def argLine (text : List UInt8) : List UInt8 := text.takeWhile fun c => decide (c ≠ 0x0A ∧ c ≠ 0)

/-- The argument string of a command: at most 31 bytes. -/
def argText (command : List UInt8) : List UInt8 := (argLine (behindWord command)).take 31

section Split

variable {command rest : List UInt8} {cmd args : Mem}

theorem firstWord_nameByte (command : List UInt8) : ∀ b ∈ firstWord command, NameByte b := by
  intro b hb
  simpa [NameByte] using List.mem_takeWhile_imp hb

theorem argLine_argByte (text : List UInt8) : ∀ b ∈ argLine text, ArgByte b := by
  intro b hb
  simpa [ArgByte] using List.mem_takeWhile_imp hb

theorem argText_argByte (command : List UInt8) : ∀ b ∈ argText command, ArgByte b :=
  fun b hb => argLine_argByte _ b (List.mem_of_mem_take hb)

theorem argLine_cons {c : UInt8} (hc : ArgByte c) (rest : List UInt8) : argLine (c :: rest) = c :: argLine rest :=
  List.takeWhile_cons_of_pos (by exact decide_eq_true hc)

theorem argLine_cons_break {c : UInt8} (hc : ¬ArgByte c) (rest : List UInt8) : argLine (c :: rest) = [] :=
  List.takeWhile_cons_of_neg (by rw [decide_eq_true_iff]; exact hc)

/-- The first loop stops behind the first word. -/
theorem parserCmd_fst (command : List UInt8) (i : ℕ) (cmd : Mem) :
    (parserCmd command i cmd).1 = command.dropWhile fun c => decide (c ≠ 0x20 ∧ c ≠ 0x0A ∧ c ≠ 0) := by
  induction command generalizing i cmd with
  | nil => rfl
  | cons c rest ih =>
    rw [parserCmd]
    by_cases hc : c ≠ 0x20 ∧ c ≠ 0x0A ∧ c ≠ 0
    · rw [if_pos hc, ih, List.dropWhile_cons_of_pos (by exact decide_eq_true hc)]
    · rw [if_neg hc, List.dropWhile_cons_of_neg (by rw [decide_eq_true_iff]; exact hc)]

theorem parser_eq (command : List UInt8) (cmd args : Mem) :
    parser command cmd args = ((parserCmd command 0 cmd).2, parserArgs (behindWord command) 0 args) := by
  rw [behindWord, ← parserCmd_fst command 0 cmd]
  rfl

/-- A byte is stored, and others behind it. -/
theorem stored_cons (dest : Mem) (t : ℕ) (c : UInt8) (tail : List UInt8) (j : ℕ) :
    (if j < t + 1 then Function.update dest t c j else tail.getD (j - (t + 1)) 0)
      = if j < t then dest j else (c :: tail).getD (j - t) 0 := by
  rcases Nat.lt_trichotomy j t with hlt | rfl | hgt
  · rw [if_pos (by omega), if_pos hlt, Function.update_of_ne (by omega)]
  · rw [if_pos (by omega), if_neg (by omega), Function.update_self, Nat.sub_self, List.getD_cons_zero]
  · rw [if_neg (by omega), if_neg (by omega), show j - t = j - (t + 1) + 1 by omega, List.getD_cons_succ]

/-- The second loop, from index `t` on, in an array that holds zeros from there: the line, cut one short of the end. -/
theorem parserArgs_text (rest : List UInt8) {t : ℕ} (ht : t < 31) (dest : Mem)
    (hdest : ∀ j, t ≤ j → j < 32 → dest j = 0) {j : ℕ} (hj : j < 32) :
    parserArgs rest t dest j = if j < t then dest j else ((argLine rest).take (31 - t)).getD (j - t) 0 := by
  induction rest generalizing t dest j with
  | nil =>
    rw [parserArgs]
    split
    · rfl
    · rw [hdest j (by omega) hj]
      simp [argLine]
  | cons c rest ih =>
    rw [parserArgs]
    by_cases hc : c ≠ 0x0A ∧ c ≠ 0
    · have hupdated : ∀ i, t + 1 ≤ i → i < 32 → Function.update dest t c i = 0 := by
        intro i hi hlt
        rw [Function.update_of_ne (by omega), hdest i (by omega) hlt]
      rw [if_pos hc, argLine_cons hc, show 31 - t = 31 - (t + 1) + 1 by omega, List.take_succ_cons, ← stored_cons]
      split
      · -- the cut: the terminator is stored over a zero
        rename_i hcut
        have hlast : t + 1 = 31 := hcut
        rw [show 31 - (t + 1) = 0 by omega, List.take_zero, List.getD_nil]
        by_cases hend : j = t + 1
        · rw [hend, Function.update_self, if_neg (by omega)]
        · rw [Function.update_of_ne hend, if_pos (by omega)]
      · rename_i hmore
        have hne : t + 1 ≠ 31 := hmore
        exact ih (by omega) _ hupdated hj
    · rw [if_neg hc, argLine_cons_break hc]
      split
      · rfl
      · rw [hdest j (by omega) hj]
        simp

theorem parser_args_apply (command : List UInt8) (cmd : Mem) (hargs : ∀ i < 32, args i = 0) {j : ℕ} (hj : j < 32) :
    (parser command cmd args).2 j = (argText command).getD j 0 := by
  rw [parser_eq]
  show parserArgs (behindWord command) 0 args j = _
  rw [parserArgs_text _ (by decide) args (fun i _ hi => hargs i hi) hj]
  rfl

theorem argText_length_le (command : List UInt8) : (argText command).length ≤ 31 := by
  rw [argText, List.length_take]
  omega

end Split

/-- Both strings of the split are where a program finds them. -/
structure SplitsInto (command : List UInt8) (cmd args : Mem) (name text : List UInt8) : Prop where
  word : Spells (parser command cmd args).1 name
  line : Spells (parser command cmd args).2 text

theorem splitsInto_words {command : List UInt8} {cmd args : Mem} (hcmd : ∀ i < 1024, cmd i = 0)
    (hargs : ∀ i < 32, args i = 0) (hword : (firstWord command).length ≤ 1023) :
    SplitsInto command cmd args (firstWord command) (argText command) where
  word := by
    refine ⟨fun hzero => (firstWord_nameByte command 0 hzero).2.2 rfl, fun i hi => ?_⟩
    rw [parser_eq]
    show (parserCmd command 0 cmd).2 i = _
    rw [parserCmd_spec]
    rcases Nat.eq_or_lt_of_le hi with rfl | hlt
    · rw [if_neg (by omega), hcmd _ (by omega)]
      simp
    · rw [if_pos (by omega), Nat.sub_zero]
  line := by
    have hlen := argText_length_le command
    refine ⟨fun hzero => (argText_argByte command 0 hzero).2 rfl, fun i hi => ?_⟩
    exact parser_args_apply command cmd hargs (Nat.lt_succ_of_le (hi.trans hlen))

/-- The words of a command that was put together from a name and arguments. -/
theorem words_of_command {name args tail : List UInt8} (hname : ∀ b ∈ name, NameByte b) (hargs : ∀ b ∈ args, ArgByte b)
    (hlen : args.length ≤ 31) (htail : argLine tail = []) :
    firstWord (name ++ 0x20 :: (args ++ tail)) = name ∧ argText (name ++ 0x20 :: (args ++ tail)) = args := by
  have hstop : ∀ b ∈ name, decide (b ≠ 0x20 ∧ b ≠ 0x0A ∧ b ≠ 0) = true := fun b hb => decide_eq_true (hname b hb)
  have hline : ∀ b ∈ args, decide (b ≠ 0x0A ∧ b ≠ 0) = true := fun b hb => decide_eq_true (hargs b hb)
  constructor
  · rw [firstWord, List.takeWhile_append_of_pos hstop, List.takeWhile_cons_of_neg (by decide), List.append_nil]
  · rw [argText, behindWord, List.dropWhile_append_of_pos hstop, List.dropWhile_cons_of_neg (by decide)]
    rw [List.head?_cons, if_pos rfl, List.tail_cons, argLine,
      List.takeWhile_append_of_pos hline, ← argLine, htail, List.append_nil, List.take_of_length_le hlen]

/-- **The split of a command.**  In arrays of zeros `parser` leaves the first word and the line behind one space, cut at
31 bytes; a name and arguments that were joined by a space come back, with or without a newline behind them. -/
theorem parser_splits {cmd args : Mem} (hcmd : ∀ i < 1024, cmd i = 0) (hargs : ∀ i < 32, args i = 0) :
    (∀ command, (firstWord command).length ≤ 1023 →
      SplitsInto command cmd args (firstWord command) (argText command)) ∧
    ∀ name text, (∀ b ∈ name, NameByte b) → name.length ≤ 1023 → (∀ b ∈ text, ArgByte b) → text.length ≤ 31 →
      SplitsInto (name ++ 0x20 :: text) cmd args name text ∧
      SplitsInto (name ++ 0x20 :: (text ++ [0x0A])) cmd args name text := by
  have hsplit : ∀ command, (firstWord command).length ≤ 1023 →
      SplitsInto command cmd args (firstWord command) (argText command) := fun _ => splitsInto_words hcmd hargs
  refine ⟨hsplit, fun name text hname hlen htext hcut => ?_⟩
  -- both commands have these words
  have hjoined : ∀ tail, argLine tail = [] → SplitsInto (name ++ 0x20 :: (text ++ tail)) cmd args name text := by
    intro tail htail
    obtain ⟨hword, hargText⟩ := words_of_command hname htext hcut htail
    have hwords := hsplit (name ++ 0x20 :: (text ++ tail)) (by rw [hword]; exact hlen)
    rwa [hword, hargText] at hwords
  refine ⟨?_, hjoined [0x0A] (by decide)⟩
  have hplain := hjoined [] rfl
  rwa [List.append_nil] at hplain

theorem parser_splits_zeros : ((∀ i < 1024, emptyString i = 0) ∧ ∀ i < 32, emptyString i = 0) ∧
    SplitsInto ([0x6C, 0x73] ++ 0x20 :: ([0x61] ++ [0x0A])) emptyString emptyString [0x6C, 0x73] [0x61] := by
  have hzero : ∀ n : ℕ, ∀ i < n, emptyString i = 0 := fun _ _ _ => rfl
  refine ⟨⟨hzero 1024, hzero 32⟩, ?_⟩
  have hname : ∀ b ∈ [(0x6C : UInt8), 0x73], b ≠ 0x20 ∧ b ≠ 0x0A ∧ b ≠ 0 := by
    rw [List.forall_mem_cons, List.forall_mem_singleton]
    decide
  have htext : ∀ b ∈ [(0x61 : UInt8)], b ≠ 0x0A ∧ b ≠ 0 := by
    rw [List.forall_mem_singleton]
    decide
  exact ((parser_splits (hzero 1024) (hzero 32)).2 [0x6C, 0x73] [0x61] hname (by decide) htext (by decide)).2

/-! ### Where `parser` stores -/

/-- The indices of `cmd` that the first loop stores to. -/
def cmdStores : List UInt8 → ℕ → List ℕ
  | [], _ => []
  | c :: rest, i => if c ≠ 0x20 ∧ c ≠ 0x0A ∧ c ≠ 0 then i :: cmdStores rest (i + 1) else []

/-- The indices of `args` that the second loop and the terminator are stored to. -/
def argStores : List UInt8 → ℕ → List ℕ
  | [], _ => []
  | c :: rest, t =>
    if c ≠ 0x0A ∧ c ≠ 0 then t :: (if t + 1 = argSize - 1 then [t + 1] else argStores rest (t + 1)) else []

section Stores

theorem mem_cmdStores_iff {command : List UInt8} {i j : ℕ} :
    j ∈ cmdStores command i ↔ i ≤ j ∧ j < i + (firstWord command).length := by
  induction command generalizing i with
  | nil => simp [cmdStores, firstWord]
  | cons c rest ih =>
    rw [cmdStores]
    by_cases hc : c ≠ 0x20 ∧ c ≠ 0x0A ∧ c ≠ 0
    · rw [if_pos hc, firstWord_cons hc, List.mem_cons, ih, List.length_cons]
      omega
    · rw [if_neg hc, firstWord_cons_break hc]
      simp

theorem argStores_lt {rest : List UInt8} {t j : ℕ} (ht : t < 31) (hj : j ∈ argStores rest t) : j < 32 := by
  induction rest generalizing t with
  | nil => cases hj
  | cons c rest ih =>
    rw [argStores] at hj
    split at hj
    · rcases List.mem_cons.mp hj with rfl | hj
      · omega
      · split at hj
        · rw [List.mem_singleton] at hj
          omega
        · rename_i hmore
          have hne : t + 1 ≠ 31 := hmore
          exact ih (by omega) hj
    · cases hj

/-- Nothing else of `cmd` changes. -/
theorem parserCmd_frame {command : List UInt8} {i j : ℕ} (hj : j ∉ cmdStores command i) (cmd : Mem) :
    (parserCmd command i cmd).2 j = cmd j := by
  rw [parserCmd_spec, if_neg (fun h => hj (mem_cmdStores_iff.mpr h))]

/-- Nothing else of `args` changes. -/
theorem parserArgs_frame {rest : List UInt8} {t j : ℕ} (hj : j ∉ argStores rest t) (args : Mem) :
    parserArgs rest t args j = args j := by
  induction rest generalizing t args with
  | nil => rfl
  | cons c rest ih =>
    rw [argStores] at hj
    rw [parserArgs]
    by_cases hc : c ≠ 0x0A ∧ c ≠ 0
    · rw [if_pos hc, List.mem_cons, not_or] at hj
      rw [if_pos hc]
      obtain ⟨hne, hj⟩ := hj
      split
      · rename_i hcut
        rw [if_pos hcut, List.mem_singleton] at hj
        rw [Function.update_of_ne hj, Function.update_of_ne hne]
      · rename_i hmore
        rw [if_neg hmore] at hj
        rw [ih hj, Function.update_of_ne hne]
    · rw [if_neg hc]

theorem commandBuffers_fst (command : List UInt8) (junk : Mem) (i : ℕ) : (commandBuffers command junk).1 i
    = if i < (firstWord command).length then (firstWord command).getD i 0 else zeroed cmdSize junk i := by
  rw [commandBuffers, parser_eq]
  show (parserCmd command 0 (zeroed cmdSize junk)).2 i = _
  rw [parserCmd_spec]
  simp

/-- No byte of the word is a terminator. -/
theorem commandBuffers_word_ne {command : List UInt8} {i : ℕ} (hi : i < (firstWord command).length) (junk : Mem) :
    (commandBuffers command junk).1 i ≠ 0 := by
  rw [commandBuffers_fst, if_pos hi, List.getD_eq_getElem?_getD, List.getElem?_eq_getElem hi, Option.getD_some]
  exact (firstWord_nameByte command _ (List.getElem_mem hi)).2.2

end Stores

/-- `parser` keeps to the arrays of `sys_execute`, and both hold a terminator afterwards.  The last byte of `cmd` is
`junk 1024`: the zeroing loop stops before it. -/
structure StaysInArrays (command : List UInt8) (junk : Mem) : Prop where
  cmd : ∀ i ∈ cmdStores command 0, i ≤ 1024
  args : ∀ i ∈ argStores (behindWord command) 0, i ≤ 31
  cmdEnds : ∃ i ≤ 1024, (commandBuffers command junk).1 i = 0
  argsEnds : ∃ i ≤ 31, (commandBuffers command junk).2 i = 0

/-- **The bounds of `parser`**: the arguments are cut, and the name is not. -/
theorem parser_in_bounds_iff (command : List UInt8) (junk : Mem) :
    StaysInArrays command junk ↔
      (firstWord command).length ≤ 1023 ∨ (firstWord command).length = 1024 ∧ junk 1024 = 0 := by
  constructor
  · intro h
    obtain ⟨i, hi, hzero⟩ := h.cmdEnds
    have hlen : (firstWord command).length ≤ i := by
      by_contra hlt
      exact commandBuffers_word_ne (by omega) junk hzero
    by_cases hshort : (firstWord command).length ≤ 1023
    · exact Or.inl hshort
    · obtain rfl : i = 1024 := by omega
      rw [commandBuffers_fst, if_neg (by omega)] at hzero
      exact Or.inr ⟨by omega, hzero⟩
  · intro h
    have hlen : (firstWord command).length ≤ 1024 := by omega
    refine ⟨fun i hi => ?_, fun i hi => Nat.le_of_lt_succ (argStores_lt (by decide) hi),
      ⟨(firstWord command).length, hlen, ?_⟩, ⟨31, le_rfl, ?_⟩⟩
    · have hstored := mem_cmdStores_iff.mp hi
      omega
    · rw [commandBuffers_fst, if_neg (lt_irrefl _), zeroed, cmdSize]
      rcases h with hshort | ⟨hlong, hjunk⟩
      · rw [if_pos (by omega)]
      · rw [hlong, if_neg (lt_irrefl _), hjunk]
    · have htext := argText_length_le command
      have hzeros : ∀ i < 32, zeroed argSize (fun _ => 0) i = 0 := fun i hi => if_pos hi
      rw [commandBuffers, parser_args_apply command _ hzeros (by decide), List.getD_eq_getElem?_getD,
        List.getElem?_eq_none htext, Option.getD_none]

theorem firstWord_of_nameBytes {name : List UInt8} (hname : ∀ b ∈ name, NameByte b) : firstWord name = name :=
  List.takeWhile_eq_self_iff.mpr fun b hb => decide_eq_true (hname b hb)

/-- A name of 1026 letters is stored past the end of `cmd`, and leaves no terminator in it. -/
theorem parser_overruns : 1025 ∈ cmdStores (List.replicate 1026 0x61) 0 ∧
    ∀ junk, ∀ i ≤ 1024, (commandBuffers (List.replicate 1026 0x61) junk).1 i ≠ 0 := by
  have hname : ∀ b ∈ List.replicate 1026 (0x61 : UInt8), NameByte b := by
    intro b hb
    obtain rfl := List.eq_of_mem_replicate hb
    exact ⟨by decide, by decide, by decide⟩
  have hlen : (firstWord (List.replicate 1026 (0x61 : UInt8))).length = 1026 := by
    rw [firstWord_of_nameBytes hname, List.length_replicate]
  refine ⟨mem_cmdStores_iff.mpr ⟨Nat.zero_le _, by omega⟩, fun junk i hi => ?_⟩
  exact commandBuffers_word_ne (by omega) junk

/-! ### The buffer of `sys_getargs` -/

/-- How many bytes the first loop of `sys_getargs` clears: the length of the string that the buffer held, or none if
that is negative as an `int`. -/
def clearedCount (bufSize : ℕ) : ℕ := (toInt32 bufSize).toNat

theorem lt_clearedCount_iff (i bufSize : ℕ) : i < clearedCount bufSize ↔ (i : ℤ) < toInt32 bufSize := by
  rw [clearedCount]
  omega

theorem clearedCount_le (bufSize : ℕ) : clearedCount bufSize ≤ bufSize := by
  rw [clearedCount, toInt32]
  split
  · omega
  · omega

/-- The buffer after the first loop. -/
def clearedBuf (bufSize : ℕ) (buf : Mem) : Mem := fun i => if i < clearedCount bufSize then 0 else buf i

/-- The buffer after a call that copies the arguments. -/
def filledBuf (args : List UInt8) (bufSize : ℕ) (buf : Mem) : Mem := fun i =>
  if i < args.length then args.getD i 0 else clearedBuf bufSize buf i

/-- The call fails: the arguments are empty, or longer than `nbytes` is as an unsigned number. -/
def Refuses (args : List UInt8) (nbytes : ℤ) : Prop := toUInt32 nbytes < args.length ∨ args.length = 0

section Getargs

variable {k : Kernel} {args : List UInt8} {buf : Mem} {nbytes : ℤ} {bufSize : ℕ}

/-- **`sys_getargs`**: the clearing comes first, whatever happens then. -/
theorem sysGetargs_cases (nbytes : ℤ) (hspells : Spells k.cur.arguments args) (hlen : args.length < 2 ^ 32)
    (hsize : strlen buf = some bufSize) :
    (Refuses args nbytes ∧ sysGetargs (some buf) nbytes k = some (-1, some (clearedBuf bufSize buf))) ∨
    (¬Refuses args nbytes ∧ sysGetargs (some buf) nbytes k = some (0, some (filledBuf args bufSize buf))) := by
  have hclear : (fun i : ℕ => if (i : ℤ) < toInt32 bufSize then 0 else buf i) = clearedBuf bufSize buf := by
    funext i
    simp only [clearedBuf, lt_clearedCount_iff]
  rw [sysGetargs]
  dsimp only
  rw [hsize, Option.bind_some, hspells.strlen hlen, Option.map_some, hclear]
  by_cases hlong : toUInt32 nbytes < args.length
  · exact Or.inl ⟨Or.inl hlong, by rw [if_pos hlong]⟩
  by_cases hempty : args.length = 0
  · exact Or.inl ⟨Or.inr hempty, by rw [if_neg hlong, if_pos hempty]⟩
  · refine Or.inr ⟨not_or.mpr ⟨hlong, hempty⟩, ?_⟩
    rw [if_neg hlong, if_neg hempty]
    congr 3
    funext i
    rw [strncpy_apply, hspells.cStringFrom, List.take_length]
    rfl

/-- A byte that the loop clears was no NUL. -/
theorem ne_zero_of_cleared (hsize : strlen buf = some bufSize) {i : ℕ} (hi : i < clearedCount bufSize) : buf i ≠ 0 :=
  ((strlen_eq_some_iff buf bufSize).mp hsize).2.2 i (hi.trans_le (clearedCount_le bufSize))

theorem clearedBuf_eq_self_iff (hsize : strlen buf = some bufSize) :
    clearedBuf bufSize buf = buf ↔ clearedCount bufSize = 0 := by
  constructor
  · intro h
    by_contra hpos
    have hbyte := congrFun h 0
    rw [clearedBuf, if_pos (Nat.pos_of_ne_zero hpos)] at hbyte
    exact ne_zero_of_cleared hsize (Nat.pos_of_ne_zero hpos) hbyte.symm
  · intro h
    funext i
    rw [clearedBuf, h, if_neg (Nat.not_lt_zero i)]

/-- Behind the arguments a byte is as it was if it was not cleared, and only then. -/
theorem filledBuf_apply_eq_iff (hsize : strlen buf = some bufSize) {i : ℕ} (hi : args.length ≤ i) :
    filledBuf args bufSize buf i = buf i ↔ clearedCount bufSize ≤ i := by
  rw [filledBuf, if_neg (Nat.not_lt.mpr hi), clearedBuf]
  split
  · rename_i hlt
    exact iff_of_false (ne_zero_of_cleared hsize hlt).symm (Nat.not_le.mpr hlt)
  · rename_i hge
    exact iff_of_true rfl (Nat.not_lt.mp hge)

theorem filledBuf_keepsTo_iff (hsize : strlen buf = some bufSize) (hargs : (args.length : ℤ) ≤ nbytes) :
    KeepsTo nbytes buf (filledBuf args bufSize buf) ↔ (clearedCount bufSize : ℤ) ≤ nbytes := by
  constructor
  · intro h
    have hbyte := (filledBuf_apply_eq_iff hsize (i := nbytes.toNat) (by omega)).mp (h _ (by omega))
    omega
  · intro h i hi
    exact (filledBuf_apply_eq_iff hsize (by omega)).mpr (by omega)

theorem filledBuf_keepsTo_iff_of_neg (hsize : strlen buf = some bufSize) (hneg : nbytes < 0) :
    KeepsTo nbytes buf (filledBuf args bufSize buf) ↔
      (∀ i < args.length, buf i = args.getD i 0) ∧ clearedCount bufSize ≤ args.length := by
  constructor
  · intro h
    refine ⟨fun i hi => ?_, (filledBuf_apply_eq_iff hsize le_rfl).mp (h _ (by omega))⟩
    have hbyte := h i (by omega)
    rw [filledBuf, if_pos hi] at hbyte
    exact hbyte.symm
  · rintro ⟨hsame, hshort⟩ i -
    by_cases hi : i < args.length
    · rw [filledBuf, if_pos hi, hsame i hi]
    · exact (filledBuf_apply_eq_iff hsize (by omega)).mpr (by omega)

/-- The call keeps to `nbytes` bytes of the buffer, and changes none of them if it fails. -/
def AllOrNothing (k : Kernel) (buf : Option Mem) (nbytes : ℤ) : Prop :=
  ∀ mem r mem', buf = some mem → sysGetargs buf nbytes k = some (r, some mem') →
    KeepsTo nbytes mem mem' ∧ (r = -1 → mem' = mem)

theorem allOrNothing_iff_of_eq {r : ℤ} {buf' : Mem} (hcall : sysGetargs (some buf) nbytes k = some (r, some buf')) :
    AllOrNothing k (some buf) nbytes ↔ KeepsTo nbytes buf buf' ∧ (r = -1 → buf' = buf) := by
  constructor
  · intro h
    exact h buf r buf' rfl hcall
  · intro h mem r' mem' hmem hcall'
    obtain rfl := Option.some_inj.mp hmem
    obtain ⟨rfl, rfl⟩ : r = r' ∧ buf' = mem' := by simpa using hcall.symm.trans hcall'
    exact h

/-- What `sys_getargs` relies on, for a buffer that held a string of `bufSize` bytes. -/
structure LeavesRoom (args : List UInt8) (nbytes : ℤ) (buf : Mem) (bufSize : ℕ) : Prop where
  refused : Refuses args nbytes → clearedCount bufSize = 0
  fits : ¬Refuses args nbytes → 0 ≤ nbytes → (clearedCount bufSize : ℤ) ≤ nbytes
  same : ¬Refuses args nbytes → nbytes < 0 →
    (∀ i < args.length, buf i = args.getD i 0) ∧ clearedCount bufSize ≤ args.length

theorem allOrNothing_iff_of_strlen (hspells : Spells k.cur.arguments args) (hlen : args.length < 2 ^ 32)
    (hmax : nbytes < 2 ^ 31) (hsize : strlen buf = some bufSize) :
    AllOrNothing k (some buf) nbytes ↔ LeavesRoom args nbytes buf bufSize := by
  rcases sysGetargs_cases nbytes hspells hlen hsize with ⟨hrefuses, hcall⟩ | ⟨hfills, hcall⟩
  · rw [allOrNothing_iff_of_eq hcall]
    constructor
    · rintro ⟨-, hsame⟩
      exact ⟨fun _ => (clearedBuf_eq_self_iff hsize).mp (hsame rfl), fun hno => absurd hrefuses hno,
        fun hno => absurd hrefuses hno⟩
    · intro h
      have hsame := (clearedBuf_eq_self_iff hsize).mpr (h.refused hrefuses)
      exact ⟨fun i _ => congrFun hsame i, fun _ => hsame⟩
  · have hroom : args.length ≤ toUInt32 nbytes := Nat.not_lt.mp (not_or.mp hfills).1
    have hzero : (0 : ℤ) = -1 → filledBuf args bufSize buf = buf := fun hfail => absurd hfail (by decide)
    rw [allOrNothing_iff_of_eq hcall, and_iff_left hzero]
    by_cases hneg : nbytes < 0
    · rw [filledBuf_keepsTo_iff_of_neg hsize hneg]
      constructor
      · intro h
        exact ⟨fun hyes => absurd hyes hfills, fun _ hnonneg => absurd hneg (by omega), fun _ _ => h⟩
      · intro h
        exact h.same hfills hneg
    · have hbytes := toUInt32_of_nonneg (Int.not_lt.mp hneg) hmax
      rw [filledBuf_keepsTo_iff hsize (by omega)]
      constructor
      · intro h
        exact ⟨fun hyes => absurd hyes hfills, fun _ _ => h, fun _ hno => absurd hno hneg⟩
      · intro h
        exact h.fits hfills (Int.not_lt.mp hneg)

end Getargs

/-- **The buffer of `sys_getargs`.**  The call is safe if it has nothing to clear, or succeeds in a buffer that is long
enough for what it clears; a negative size is safe only for a buffer that holds the arguments already.  A null pointer
is refused, and from a buffer without a NUL the call does not come back. -/
theorem sys_getargs_in_buffer_iff {k : Kernel} {args : List UInt8} (hspells : Spells k.cur.arguments args)
    (hlen : args.length < 2 ^ 32) {nbytes : ℤ} (hmax : nbytes < 2 ^ 31) (buf : Option Mem) :
    AllOrNothing k buf nbytes ↔
      ∀ mem bufSize, buf = some mem → strlen mem = some bufSize → LeavesRoom args nbytes mem bufSize := by
  constructor
  · rintro h mem bufSize rfl hsize
    exact (allOrNothing_iff_of_strlen hspells hlen hmax hsize).mp h
  · intro h mem r mem' hmem hcall
    subst hmem
    cases hsize : strlen mem with
    | none =>
      rw [sysGetargs] at hcall
      dsimp only at hcall
      rw [hsize] at hcall
      cases hcall
    | some bufSize =>
      exact (allOrNothing_iff_of_strlen hspells hlen hmax hsize).mpr (h mem bufSize rfl hsize) mem r mem' rfl hcall

/-- `ls a` is executed after boot, and asks for its argument with a buffer full of zeros. -/
theorem sys_getargs_in_buffer_ls : ∃ b k, boot twoProgramPlatform default powerOnKernel = some b ∧
    sysExecute twoProgramPlatform default ([0x6C, 0x73] ++ 0x20 :: [0x61]) b = some (.launched, k) ∧
    Spells k.cur.arguments [0x61] ∧ AllOrNothing k (some emptyString) 1024 := by
  have heval : ((boot twoProgramPlatform default powerOnKernel).any fun b =>
      (sysExecute twoProgramPlatform default ([0x6C, 0x73] ++ 0x20 :: [0x61]) b).any fun r =>
        decide (r.1 = .launched ∧ r.2.cur.arguments 0 = 0x61 ∧ r.2.cur.arguments 1 = 0)) = true := by
    decide +kernel
  simp only [Option.any_eq_true, decide_eq_true_eq] at heval
  obtain ⟨b, hboot, ⟨o, k⟩, hexec, rfl, hfirst, hend⟩ := heval
  have hspells : Spells k.cur.arguments [0x61] := by
    refine ⟨by decide, fun i hi => ?_⟩
    obtain rfl | rfl : i = 0 ∨ i = 1 := by simpa [Nat.le_one_iff_eq_zero_or_eq_one] using hi
    · exact hfirst
    · exact hend
  refine ⟨b, k, hboot, hexec, hspells, ?_⟩
  refine (sys_getargs_in_buffer_iff hspells (by decide) (by decide) (some emptyString)).mpr ?_
  intro mem bufSize hmem hsize
  obtain rfl := Option.some_inj.mp hmem
  obtain rfl : 0 = bufSize := Option.some_inj.mp (hsize ▸ (by decide +kernel : strlen emptyString = some 0)).symm
  exact ⟨fun _ => rfl, fun _ _ => by decide, fun _ hneg => absurd hneg (by decide)⟩

/-- A buffer that was used before. -/
def usedBuffer : Mem := literal (ascii "old".toList)

/-- **The buffer of a failing call is cleared**, and that of a small one behind its end. -/
theorem sys_getargs_clears : ∃ b k, boot twoProgramPlatform default powerOnKernel = some b ∧
    sysExecute twoProgramPlatform default ([0x6C, 0x73] ++ 0x20 :: [0x61]) b = some (.launched, k) ∧
    (∃ buf', sysGetargs (some usedBuffer) 32 b = some (-1, some buf') ∧ buf' 0 ≠ usedBuffer 0) ∧
    (∃ buf', sysGetargs (some usedBuffer) 2 k = some (0, some buf') ∧ buf' 2 ≠ usedBuffer 2) ∧
    ¬AllOrNothing b (some usedBuffer) 32 ∧ ¬AllOrNothing k (some usedBuffer) 2 := by
  have heval : ((boot twoProgramPlatform default powerOnKernel).any fun b =>
      (sysExecute twoProgramPlatform default ([0x6C, 0x73] ++ 0x20 :: [0x61]) b).any fun r =>
        (sysGetargs (some usedBuffer) 32 b).any fun g => g.2.any fun cleared =>
          (sysGetargs (some usedBuffer) 2 r.2).any fun g' => g'.2.any fun filled =>
            decide (r.1 = .launched ∧ g.1 = -1 ∧ cleared 0 ≠ usedBuffer 0 ∧ g'.1 = 0 ∧ filled 2 ≠ usedBuffer 2))
      = true := by
    decide +kernel
  simp only [Option.any_eq_true, decide_eq_true_eq] at heval
  obtain ⟨b, hboot, ⟨o, k⟩, hexec, ⟨r, _⟩, hcall, cleared, rfl, ⟨r', _⟩, hcall', filled, rfl, rfl, rfl, hfirst, rfl,
    hthird⟩ := heval
  refine ⟨b, k, hboot, hexec, ⟨cleared, hcall, hfirst⟩, ⟨filled, hcall', hthird⟩, fun h => ?_, fun h => ?_⟩
  · exact hfirst (congrFun ((h usedBuffer _ _ rfl hcall).2 rfl) 0)
  · exact hthird ((h usedBuffer _ _ rfl hcall').1 2 (by decide))

end ClosKernel
