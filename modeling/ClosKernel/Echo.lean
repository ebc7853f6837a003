import ClosKernel.Erasing
import ClosKernel.LineInput

/-!
# Echoed and buffered keys (`keyboard.c`, `terminal.c`)

For a key, `keyboard_handler` first stores the character with `insert` and then prints it, but only if the index that
`insert` returns is below 128.  The line buffer has room for 128 characters, so the last of them is stored and never
printed.  Up to that one, the text between the prompt and the cursor is the line.

* `keyEvents_plain` — a key without a modifier runs one block of the handler;
* `Typing.Line` — the line in the buffer and on the screen; `Typing.press_letter`, `Typing.press_backspace` keep it;
* `echo_matches_buffer_iff` — **the echo**: screen and buffer agree as long as no key is the 128th of its line.
-/

namespace ClosKernel

open PartialRun TextTerminal

/-! ### Keys without a modifier -/

/-- The character of a key as `keyhelper.c` has it. -/
def keyChar (code : UInt8) : UInt8 := getCharEntries.getD code.toNat 0

/-- The code of a key being pressed that has a printable character, or of backspace. -/
def IsPlain (code : UInt8) : Prop := code = bksp ∨ code < scanlimit ∧ 0x20 ≤ keyChar code ∧ keyChar code ≤ 0x7E

instance (code : UInt8) : Decidable (IsPlain code) := inferInstanceAs (Decidable (_ ∨ _))

structure PlainKey where
  code : UInt8
  plain : IsPlain code

/-- The block of the handler that the key is for. -/
def PlainKey.event (key : PlainKey) : KeyEvent := if key.code = bksp then .backspace else .letter (keyChar key.code)

theorem PlainKey.printable (key : PlainKey) (h : key.code ≠ bksp) :
    key.code < scanlimit ∧ 0x20 ≤ keyChar key.code ∧ keyChar key.code ≤ 0x7E :=
  key.plain.resolve_left h

/-- With caps lock off, the key runs its block and nothing else. -/
theorem keyEvents_plain {g : KeyMap} (h : g.Table) (hcaps : g caps = 0) (key : PlainKey) :
    keyEvents g [key.code] = some ([key.event], g) := by
  by_cases hback : key.code = bksp
  · have hentry : scan2Let g bksp = 0x08 := h.entry bksp (by decide) (by decide)
    rw [PlainKey.event, if_pos hback, hback, keyEvents]
    rw [hentry, if_neg (by decide), if_neg (by decide), if_neg (by decide), if_neg (by decide), if_neg (by decide),
      if_pos rfl]
  · obtain ⟨hcode, hlow, hhigh⟩ := key.printable hback
    -- the keys that the handler tests for have no printable character
    have hne : ∀ c : UInt8, ¬(0x20 ≤ keyChar c ∧ keyChar c ≤ 0x7E) → key.code ≠ c := by
      rintro c hc heq
      rw [heq] at hlow hhigh
      exact hc ⟨hlow, hhigh⟩
    have hletter : ∀ c : UInt8, ¬(0x20 ≤ c ∧ c ≤ 0x7E) → keyChar key.code ≠ c := by
      rintro c hc heq
      rw [heq] at hlow hhigh
      exact hc ⟨hlow, hhigh⟩
    have hentry : scan2Let g key.code = keyChar key.code := h.entry _ hcode (hne _ (by decide))
    have hbit : (key.code >>> 7) &&& 0x01 = 0 := (check_eq_zero_iff _).mpr hcode
    rw [PlainKey.event, if_neg hback, keyEvents]
    rw [hentry, if_neg (hletter _ (by decide)), if_neg fun hc => hne caps (by decide) hc.1,
      if_neg fun hc => hne caps (by decide) hc.1, if_neg (hne _ (by decide)), if_neg (hne _ (by decide)), if_neg hback,
      if_pos hbit, pressedKey]
    rw [hentry, if_pos (show scan2Let g caps = 0 from hcaps), if_neg (hletter _ (by decide)),
      if_neg (hletter _ (by decide))]
    rfl

/-! ### A line being typed -/

/-- The kernel while keys are typed, with the number of rows that the prompt has moved up. -/
structure Typing where
  getChar : KeyMap
  kernel : Kernel
  scrolls : ℕ

/-- The scrolls of the displayed terminal that a block makes: a character that is printed may make one. -/
def echoScrolls : KeyEvent → Kernel → ℕ
  | .letter c, k => if (k.insert c).1 < 128 ∧ k.screen.Scrolls k.screen.currentTerminal c then 1 else 0
  | .backspace, _ | .clear, _ | .switch _, _ => 0

/-- A keyboard interrupt for one key. -/
def Typing.press (E : Platform) (st : Stack) (key : PlainKey) (s : Typing) : Option Typing :=
  (keyboardHandler E st [key.code] s.getChar (s.kernel.raise 1)).map fun r =>
    ⟨r.1, r.2, s.scrolls + echoScrolls key.event s.kernel⟩

/-- What stands on the displayed screen from cell `start` to the cursor of terminal `t`. -/
def Screen.textFrom (s : Screen) (t : ℤ) (start : ℕ) : List UInt8 :=
  (List.range (80 * s.screenY (t - 1) + s.screenX (t - 1) - start)).map fun i => s.videoMem (2 * (start + i))

/-- The bytes in the line buffer of terminal `t`. -/
def Kernel.lineText (k : Kernel) (t : ℤ) : List UInt8 := bytesBelow (k.line t) (k.tty.idx (t - 1)).toNat

/-- What is shown behind the prompt, which ended at cell `start`, is what is in the buffer. -/
def Typing.Matches (t : ℤ) (start : ℕ) (s : Typing) : Prop :=
  80 * s.scrolls ≤ start ∧ s.kernel.screen.textFrom t (start - 80 * s.scrolls) = s.kernel.lineText t

instance (t : ℤ) (start : ℕ) (s : Typing) : Decidable (s.Matches t start) := inferInstanceAs (Decidable (_ ∧ _))

/-- Terminal `t` is displayed and its process is running; its line is `text`, in the buffer and, on the tape that the
screen is a part of, behind position `start`. -/
structure Typing.Line (s : Typing) (t : ℤ) (start : ℕ) (text : List UInt8) : Prop where
  table : s.getChar.Table
  caps : s.getChar caps = 0
  displayed : s.kernel.screen.currentTerminal = t
  running : s.kernel.cur.curTerminal = t
  holds : s.kernel.LineHolds t text
  short : text.length ≤ 127
  prompt : 80 * s.scrolls ≤ start
  shown : ∃ T tape, s.kernel.screen.Shows t T ∧ Views space tape s.scrolls (start + text.length) T ∧
    ∀ i, (hi : i < text.length) → tape (start + i) = text[i]

section Tape

variable {s : Screen} {t : ℤ} {T : Vterm} {tape : ℕ → UInt8} {n p : ℕ}

/-- Video memory holds the part of the tape from row `n` on. -/
theorem videoMem_eq_tape (ht : s.currentTerminal = t) (h : s.Shows t T) (hviews : Views space tape n p T) {a : ℕ}
    (ha : a < 2000) : s.videoMem (2 * a) = tape (a + 80 * n) := by
  have hcell := congrFun (congrFun (Screen.image_displayed ht) ⟨a / 80, by unfold numRows; omega⟩)
    ⟨a % 80, by unfold numCols; omega⟩
  rw [h.cell, hviews.cell, gridOf] at hcell
  unfold numCols at hcell
  rw [show 2 * a = 2 * (80 * (a / 80) + a % 80) by omega, show a + 80 * n = 80 * (a / 80 + n) + a % 80 by omega]
  exact hcell.symm

/-- The text from cell `start - 80 * n` on is that of the tape from `start` on. -/
theorem textFrom_eq_tape (ht : s.currentTerminal = t) (h : s.Shows t T) (hviews : Views space tape n p T) {start : ℕ}
    (hstart : 80 * n ≤ start) :
    s.textFrom t (start - 80 * n) = (List.range (p - start)).map fun i => tape (start + i) := by
  have hcursor := hviews.cursor
  have hrow := T.row.isLt
  have hcol := T.col.isLt
  unfold numCols at hcursor hcol
  unfold numRows at hrow
  rw [Screen.textFrom, h.row, h.col, show 80 * T.row.val + T.col.val - (start - 80 * n) = p - start by omega]
  refine List.map_congr_left fun i hi => ?_
  rw [List.mem_range] at hi
  rw [videoMem_eq_tape ht h hviews (by omega)]
  exact congrArg tape (by omega)

theorem echo_shows (ht : s.currentTerminal = t) (h : s.Shows t T) (c : UInt8) :
    (s.echo t c).currentTerminal = t ∧ (s.echo t c).Shows t (vfeed T c) := by
  have hput : ({ s with keyInt := true }.putc t c).currentTerminal = t ∧
      ({ s with keyInt := true }.putc t c).Shows t (vfeed T c) :=
    Screen.putc_shows (s := { s with keyInt := true }) ht ⟨h.cell, h.row, h.col⟩ c
  exact ⟨hput.1, hput.2.cell, hput.2.row, hput.2.col⟩

end Tape

/-! ### Storing a key -/

section Storing

variable {k : Kernel} {t : ℤ} {line : List UInt8}

theorem insert_value (h : k.LineHolds t line) (hd : k.screen.currentTerminal = t) (hlen : line.length < 128)
    (c : UInt8) : (k.insert c).1 = line.length + 1 := by
  have hidx := h.idx
  rw [Kernel.insert, hd]
  dsimp only
  rw [if_neg (by omega), hidx]

/-- A key that leaves room in the line is printed. -/
theorem typed_eq_echo (h : k.LineHolds t line) (hd : k.screen.currentTerminal = t) (hroom : line.length < 127)
    (c : UInt8) : k.typed c
      = { k with tty := (k.insert c).2.tty, screen := k.screen.echo k.cur.curTerminal c } := by
  have hvalue := insert_value h hd (by omega) c
  rw [Kernel.typed]
  dsimp only
  rw [if_pos (by omega), insert_tty]
  rfl

/-- The key that fills the line is not. -/
theorem typed_eq_insert (h : k.LineHolds t line) (hd : k.screen.currentTerminal = t) (hfull : line.length = 127)
    (c : UInt8) : k.typed c = { k with tty := (k.insert c).2.tty } := by
  have hvalue := insert_value h hd (by omega) c
  rw [Kernel.typed]
  dsimp only
  rw [if_neg (by omega), insert_tty]

/-- With a character in the line, backspace takes it from the screen too. -/
theorem erased_eq_backspace (h : k.LineHolds t line) (hd : k.screen.currentTerminal = t) (hne : line ≠ []) :
    k.erased = { k with tty := k.backspacebuf.2.tty, screen := k.screen.backspace.updatecursor } := by
  have hidx := h.idx
  have hpos := List.length_pos_of_ne_nil hne
  have hvalue : k.backspacebuf.1 = line.length - 1 := by
    rw [Kernel.backspacebuf, hd]
    dsimp only
    rw [if_pos (by omega), hidx]
  rw [Kernel.erased]
  dsimp only
  rw [if_pos (by omega), backspacebuf_tty]
  rfl

theorem erased_eq_of_empty (h : k.LineHolds t []) (hd : k.screen.currentTerminal = t) :
    k.erased = { k with tty := k.backspacebuf.2.tty } := by
  have hidx : k.tty.idx (t - 1) = 0 := h.idx
  have hvalue : k.backspacebuf.1 = -1 := by
    rw [Kernel.backspacebuf, hd]
    dsimp only
    rw [if_neg (by omega)]
  rw [Kernel.erased]
  dsimp only
  rw [if_neg (by omega), backspacebuf_tty]

end Storing

namespace Typing

variable {E : Platform} {st : Stack} {s : Typing} {t : ℤ} {start : ℕ} {line : List UInt8} {key : PlainKey}

/-- An empty line begins where the cursor is. -/
theorem Line.of_empty {g : KeyMap} {k : Kernel} (hg : g.Table) (hcaps : g ClosKernel.caps = 0)
    (hd : k.screen.currentTerminal = t) (hcur : k.cur.curTerminal = t) (hx : k.screen.screenX (t - 1) < 80)
    (hy : k.screen.screenY (t - 1) < 25) (hempty : k.LineEmpty t) :
    Line ⟨g, k, 0⟩ t (80 * k.screen.screenY (t - 1) + k.screen.screenX (t - 1)) [] := by
  have hstart := Views.start space (⟨k.screen.image t, ⟨_, hy⟩, ⟨_, hx⟩⟩ : Vterm)
  refine ⟨hg, hcaps, hd, hcur, ⟨hempty.1, rfl⟩, Nat.zero_le _, Nat.zero_le _, _, _, ⟨rfl, rfl, rfl⟩, hstart, ?_⟩
  exact fun i hi => absurd hi (Nat.not_lt_zero i)

/-- The line behind the prompt is the line in the buffer. -/
theorem Line.matches (h : s.Line t start line) : s.Matches t start := by
  obtain ⟨T, tape, hshows, hviews, htape⟩ := h.shown
  refine ⟨h.prompt, ?_⟩
  rw [textFrom_eq_tape h.displayed hshows hviews h.prompt, Kernel.lineText, h.holds.idx, Int.toNat_natCast,
    h.holds.bytes, Nat.add_sub_cancel_left]
  refine List.ext_getElem (by simp) fun i hi hi' => ?_
  rw [List.getElem_map, List.getElem_range, htape i hi']

/-- A key runs its block, and the interrupt is acknowledged. -/
theorem press_eq (h : s.Line t start line) {k : Kernel} (hstep : keyStep E st key.event (s.kernel.raise 1) = some k) :
    ∃ isr, s.press E st key
      = some ⟨s.getChar, { k with isr := isr }, s.scrolls + echoScrolls key.event s.kernel⟩ := by
  obtain ⟨isr, heoi⟩ := Kernel.sendEoi_eq 1 k
  refine ⟨isr, ?_⟩
  rw [press, keyboardHandler, keyEvents_plain h.table h.caps, Option.bind_some, runs, hstep, Option.bind_some, runs,
    Option.map_some, Option.map_some, heoi]

/-- A character that is not the last one of a full line is stored and printed. -/
theorem press_letter (h : s.Line t start line) (hkey : key.code ≠ bksp) (hroom : line.length ≠ 127) :
    ∃ s', s.press E st key = some s' ∧ s'.Line t start (line ++ [keyChar key.code]) := by
  obtain ⟨T, tape, hshows, hviews, htape⟩ := h.shown
  have hshort := h.short
  have hbreak : isBreak (keyChar key.code) = false := by
    obtain ⟨-, hlow, -⟩ := key.printable hkey
    rw [← Bool.not_eq_true, isBreak_iff]
    rintro (heq | heq) <;> rw [heq] at hlow <;> exact absurd hlow (by decide)
  have hholds : (s.kernel.raise 1).LineHolds t line := h.holds.of_tty rfl
  have hstep : keyStep E st key.event (s.kernel.raise 1) = some { s.kernel.raise 1 with
      tty := ((s.kernel.raise 1).insert (keyChar key.code)).2.tty
      screen := s.kernel.screen.echo t (keyChar key.code) } := by
    rw [PlainKey.event, if_neg hkey, keyStep, typed_eq_echo hholds h.displayed (by omega), ← h.running]
    rfl
  -- the scrolls that are counted are those of the terminal
  have hscrolls : echoScrolls key.event s.kernel = T.overflow := by
    have hvalue := insert_value h.holds h.displayed (by omega) (keyChar key.code)
    rw [PlainKey.event, if_neg hkey, echoScrolls, h.displayed, Terminal.overflow]
    simp only [Screen.scrolls_iff hshows hbreak, show (s.kernel.insert (keyChar key.code)).1 < 128 by omega, true_and,
      ite_not]
  obtain ⟨isr, hpress⟩ := press_eq h hstep
  obtain ⟨hcur, hecho⟩ := echo_shows h.displayed hshows (keyChar key.code)
  rw [show vfeed T (keyChar key.code) = T.write space (keyChar key.code) from if_neg (by rw [hbreak]; decide)] at hecho
  rw [hscrolls] at hpress
  refine ⟨_, hpress, h.table, h.caps, hcur, h.running, ?_, ?_, ?_, T.write space (keyChar key.code),
    Function.update tape (start + line.length) (keyChar key.code), hecho, ?_, fun i hi => ?_⟩
  · exact (insert_holds hholds h.displayed (by omega) (keyChar key.code)).of_tty rfl
  · rw [List.length_append, List.length_singleton]
    omega
  · exact hviews.start_stays h.prompt (by unfold numCols numRows; omega)
  · rw [List.length_append, List.length_singleton, ← Nat.add_assoc]
    exact hviews.write (keyChar key.code)
  · rw [List.length_append, List.length_singleton] at hi
    rcases Nat.lt_succ_iff_lt_or_eq.mp hi with hlt | rfl
    · rw [Function.update_of_ne (by omega), htape i hlt, List.getElem_append_left hlt]
    · rw [Function.update_self, List.getElem_concat_length rfl]

/-- Backspace takes the last character from the line and from the screen, if there is one. -/
theorem press_backspace (h : s.Line t start line) (hkey : key.code = bksp) :
    ∃ s', s.press E st key = some s' ∧ s'.Line t start line.dropLast := by
  obtain ⟨T, tape, hshows, hviews, htape⟩ := h.shown
  have hshort := h.short
  have hholds : (s.kernel.raise 1).LineHolds t line := h.holds.of_tty rfl
  have hheld := backspacebuf_holds hholds h.displayed
  have hscrolls : echoScrolls key.event s.kernel = 0 := by
    rw [PlainKey.event, if_pos hkey]
    rfl
  by_cases hne : line = []
  · subst hne
    have hstep : keyStep E st key.event (s.kernel.raise 1) = some { s.kernel.raise 1 with
        tty := (s.kernel.raise 1).backspacebuf.2.tty } := by
      rw [PlainKey.event, if_pos hkey, keyStep, erased_eq_of_empty hholds h.displayed]
    obtain ⟨isr, hpress⟩ := press_eq h hstep
    rw [hscrolls] at hpress
    exact ⟨_, hpress, h.table, h.caps, h.displayed, h.running, hheld.of_tty rfl, hshort, h.prompt, T, tape, hshows,
      hviews, htape⟩
  · have hpos := List.length_pos_of_ne_nil hne
    have hprompt := h.prompt
    have hstep : keyStep E st key.event (s.kernel.raise 1) = some { s.kernel.raise 1 with
        tty := (s.kernel.raise 1).backspacebuf.2.tty
        screen := s.kernel.screen.backspace.updatecursor } := by
      rw [PlainKey.event, if_pos hkey, keyStep, erased_eq_backspace hholds h.displayed hne]
      rfl
    obtain ⟨isr, hpress⟩ := press_eq h hstep
    rw [hscrolls] at hpress
    have hback := Screen.backspace_shows h.displayed hshows
    have hcur := s.kernel.screen.backspace_currentTerminal.trans h.displayed
    refine ⟨_, hpress, h.table, h.caps, hcur, h.running, hheld.of_tty rfl, ?_, h.prompt, T.erase space,
      Function.update tape (start + line.length - 1) space, ⟨hback.cell, hback.row, hback.col⟩, ?_, fun i hi => ?_⟩
    · rw [List.length_dropLast]
      omega
    · rw [List.length_dropLast, ← Nat.add_sub_assoc hpos]
      exact hviews.erase (by unfold numCols; omega)
    · rw [List.length_dropLast] at hi
      rw [Function.update_of_ne (by omega), htape i (by omega), List.getElem_dropLast]

/-- The character that fills the line is stored, and the screen stays as it is. -/
theorem press_full (h : s.Line t start line) (hkey : key.code ≠ bksp) (hfull : line.length = 127) :
    ∃ s', s.press E st key = some s' ∧ ¬s'.Matches t start := by
  obtain ⟨T, tape, hshows, hviews, -⟩ := h.shown
  have hholds : (s.kernel.raise 1).LineHolds t line := h.holds.of_tty rfl
  have hstep : keyStep E st key.event (s.kernel.raise 1) = some { s.kernel.raise 1 with
      tty := ((s.kernel.raise 1).insert (keyChar key.code)).2.tty } := by
    rw [PlainKey.event, if_neg hkey, keyStep, typed_eq_insert hholds h.displayed hfull]
  have hscrolls : echoScrolls key.event s.kernel = 0 := by
    have hvalue := insert_value h.holds h.displayed (by omega) (keyChar key.code)
    rw [PlainKey.event, if_neg hkey, echoScrolls, if_neg (fun hlt => absurd hlt.1 (by omega))]
  obtain ⟨isr, hpress⟩ := press_eq h hstep
  rw [hscrolls] at hpress
  refine ⟨_, hpress, fun hmatches => ?_⟩
  have hheld := insert_holds hholds h.displayed (by omega) (keyChar key.code)
  have hlen := congrArg List.length hmatches.2
  -- 127 characters on the screen, 128 in the buffer
  have hscreen : (s.kernel.screen.textFrom t (start - 80 * s.scrolls)).length = 127 := by
    rw [textFrom_eq_tape h.displayed hshows hviews h.prompt, List.length_map, List.length_range]
    omega
  have hbuffer : ((s.kernel.raise 1).insert (keyChar key.code)).2.lineText t = line ++ [keyChar key.code] := by
    rw [Kernel.lineText, hheld.idx, Int.toNat_natCast, hheld.bytes]
  have hlen' : (s.kernel.screen.textFrom t (start - 80 * s.scrolls)).length
      = (((s.kernel.raise 1).insert (keyChar key.code)).2.lineText t).length := hlen
  rw [hscreen, hbuffer, List.length_append, List.length_singleton] at hlen'
  omega

/-- The same character again and again. -/
theorem press_replicate (h : s.Line t start []) (hkey : key.code ≠ bksp) {n : ℕ} (hn : n ≤ 127) :
    ∃ s', runs (press E st) (List.replicate n key) s = some s' ∧
      s'.Line t start (List.replicate n (keyChar key.code)) := by
  induction n with
  | zero => exact ⟨s, rfl, h⟩
  | succ n ih =>
    obtain ⟨m, hm, hline⟩ := ih (by omega)
    obtain ⟨s', hs', hline'⟩ := press_letter hline hkey (by rw [List.length_replicate]; omega)
    refine ⟨s', ?_, ?_⟩
    · rw [List.replicate_succ', runs_append, hm, Option.bind_some, runs, hs', Option.bind_some, runs]
    · rwa [List.replicate_succ']

end Typing

/-- **The echo.**  From an empty line on the displayed terminal, with its process running and caps lock off, the text
behind the prompt is the line in the buffer after every beginning of a sequence of plain keys, just if no character is
typed into a line of 127 characters. -/
theorem echo_matches_buffer_iff {E : Platform} {st : Stack} {g : KeyMap} {k : Kernel} {t : ℤ} (hg : g.Table)
    (hcaps : g caps = 0) (hd : k.screen.currentTerminal = t) (hcur : k.cur.curTerminal = t)
    (hx : k.screen.screenX (t - 1) < 80) (hy : k.screen.screenY (t - 1) < 25) (hempty : k.LineEmpty t)
    (keys : List PlainKey) :
    (∀ n ≤ keys.length, ∃ s, runs (Typing.press E st) (keys.take n) ⟨g, k, 0⟩ = some s ∧
      s.Matches t (80 * k.screen.screenY (t - 1) + k.screen.screenX (t - 1))) ↔
    Meets (Typing.press E st) (fun key s => key.code ≠ bksp → s.kernel.tty.idx (t - 1) ≠ 127) keys ⟨g, k, 0⟩ := by
  refine beginnings_iff_meets (P := fun s : Typing => ∃ line, s.Line t _ line) ?_ ?_ ?_
    ⟨[], Typing.Line.of_empty hg hcaps hd hcur hx hy hempty⟩
  · rintro s ⟨line, h⟩
    exact h.matches
  · rintro key s ⟨line, h⟩ hallowed
    by_cases hkey : key.code = bksp
    · obtain ⟨s', hs', hline'⟩ := Typing.press_backspace h hkey
      exact ⟨s', hs', _, hline'⟩
    · have hidx := h.holds.idx
      have hnot := hallowed hkey
      obtain ⟨s', hs', hline'⟩ := Typing.press_letter h hkey (by omega)
      exact ⟨s', hs', _, hline'⟩
  · rintro key s ⟨line, h⟩ hnot
    rw [Classical.not_imp, not_not, h.holds.idx] at hnot
    exact Typing.press_full h hnot.1 (by omega)

theorem loadedKeys_table : KeyMap.Table loadedKeys := KeyMap.Loaded.table fun _ _ => rfl

instance (k : Kernel) (t : ℤ) : Decidable (k.LineEmpty t) := inferInstanceAs (Decidable (_ ∧ _))

/-- The shell of terminal 1 waits for a line. -/
structure AtPrompt (k : Kernel) : Prop where
  displayed : k.screen.currentTerminal = 1
  running : k.cur.curTerminal = 1
  col : k.screen.screenX (1 - 1) < 80
  row : k.screen.screenY (1 - 1) < 25
  empty : k.LineEmpty 1

theorem booted_atPrompt : ∃ b, boot twoProgramPlatform default powerOnKernel = some b ∧ AtPrompt b := by
  have heval : ((boot twoProgramPlatform default powerOnKernel).any fun b =>
      decide (b.screen.currentTerminal = 1 ∧ b.cur.curTerminal = 1 ∧ b.screen.screenX (1 - 1) < 80 ∧
        b.screen.screenY (1 - 1) < 25 ∧ b.LineEmpty 1)) = true := by
    decide +kernel
  simp only [Option.any_eq_true, decide_eq_true_eq] at heval
  obtain ⟨b, hboot, hd, hcur, hx, hy, hempty⟩ := heval
  exact ⟨b, hboot, hd, hcur, hx, hy, hempty⟩

def keyA : PlainKey := ⟨0x1E, by decide⟩

theorem echo_matches_one_key : ∃ b, boot twoProgramPlatform default powerOnKernel = some b ∧
    ∀ n ≤ 1, ∃ s, runs (Typing.press twoProgramPlatform default) ([keyA].take n) ⟨loadedKeys, b, 0⟩ = some s ∧
      s.Matches 1 (80 * b.screen.screenY (1 - 1) + b.screen.screenX (1 - 1)) := by
  obtain ⟨b, hboot, h⟩ := booted_atPrompt
  refine ⟨b, hboot, (echo_matches_buffer_iff loadedKeys_table rfl h.displayed h.running h.col h.row h.empty
    [keyA]).mpr ⟨fun _ => ?_, fun _ _ => trivial⟩⟩
  rw [show (Typing.mk loadedKeys b 0).kernel.tty.idx (1 - 1) = 0 from h.empty.1]
  decide

/-- **A full line.**  After 128 times the same key, the buffer holds 128 characters, and the screen does not show
them. -/
theorem echo_misses_last_key : ∃ b s, boot twoProgramPlatform default powerOnKernel = some b ∧
    runs (Typing.press twoProgramPlatform default) (List.replicate 128 keyA) ⟨loadedKeys, b, 0⟩ = some s ∧
    ¬s.Matches 1 (80 * b.screen.screenY (1 - 1) + b.screen.screenX (1 - 1)) := by
  obtain ⟨b, hboot, h⟩ := booted_atPrompt
  have hstart := Typing.Line.of_empty loadedKeys_table rfl h.displayed h.running h.col h.row h.empty
  obtain ⟨m, hm, hline⟩ := Typing.press_replicate (E := twoProgramPlatform) hstart (show keyA.code ≠ bksp by decide)
    (Nat.le_refl 127)
  obtain ⟨s, hs, hnot⟩ := Typing.press_full hline (show keyA.code ≠ bksp by decide) List.length_replicate
  refine ⟨b, s, hboot, ?_, hnot⟩
  rw [List.replicate_succ', runs_append, hm, Option.bind_some, runs, hs, Option.bind_some, runs]

end ClosKernel
