import ClosKernel.Console

/-!
# The commands of the keyboard (Ctrl-L, Alt with the function key of the displayed terminal)

Both commands are meant for the displayed terminal.  `clear` and `updatecursor` work on that one, but `clearbuf` empties
the line of the terminal that the running process belongs to, and the message of `screenChange` is printed there too.

* `clearbuf_only_displayed_iff` — what emptying the wrong line does;
* `samePicture_alreadyIn_iff` — what printing the message on the wrong terminal does: only a page that already consists
  of it stays the same;
* `keyboard_commands_iff` — **exactly when the commands act on the displayed terminal alone.**
-/

namespace ClosKernel

open PartialRun TextTerminal

/-! ### What the commands should do -/

/-- Terminal `t` looks the same, with the cursor in the same place. -/
structure Screen.SamePicture (s s' : Screen) (t : ℤ) : Prop where
  image : s'.image t = s.image t
  x : s'.screenX (t - 1) = s.screenX (t - 1)
  y : s'.screenY (t - 1) = s.screenY (t - 1)

/-- A command has acted on the displayed terminal only, and has emptied its line. -/
structure Kernel.OnlyDisplayed (k k' : Kernel) : Prop where
  lines : ∀ t, IsTerminal t → t ≠ k.screen.currentTerminal → k.SameLine k' t
  pictures : ∀ t, IsTerminal t → t ≠ k.screen.currentTerminal → k.screen.SamePicture k'.screen t
  emptied : k'.LineEmpty k.screen.currentTerminal

/-! ### The lines -/

section Lines

variable {k k' : Kernel}

/-- `clearbuf` empties the displayed line and no other just if the running process is on the displayed terminal, or the
two lines are empty anyway. -/
theorem clearbuf_only_displayed_iff (hcur : IsTerminal k.cur.curTerminal) (htty : k'.tty = k.clearbuf.tty) :
    ((∀ t, IsTerminal t → t ≠ k.screen.currentTerminal → k.SameLine k' t) ∧
        k'.LineEmpty k.screen.currentTerminal) ↔
      k.cur.curTerminal = k.screen.currentTerminal ∨
        k.LineEmpty k.cur.curTerminal ∧ k.LineEmpty k.screen.currentTerminal := by
  have hempty : ∀ t, k'.LineEmpty t ↔ k.clearbuf.LineEmpty t := fun t => by
    simp only [Kernel.LineEmpty, Kernel.line, htty]
  have hsame : ∀ t, k.SameLine k' t ↔ k.SameLine k.clearbuf t := fun t => by
    simp only [Kernel.SameLine, Kernel.line, htty]
  simp only [hempty, hsame]
  by_cases hd : k.cur.curTerminal = k.screen.currentTerminal
  · refine iff_of_true ⟨fun t _ ht => clearbuf_sameLine (hd ▸ ht), ?_⟩ (Or.inl hd)
    exact hd ▸ clearbuf_lineEmpty k
  · have hother := clearbuf_sameLine (k := k) (Ne.symm hd)
    obtain ⟨hidx, hbytes⟩ := clearbuf_lineEmpty k
    constructor
    · rintro ⟨hlines, hemptied⟩
      have hline := hlines _ hcur hd
      refine Or.inr ⟨⟨hline.1.symm.trans hidx, fun i hi => (hline.2 i hi).symm.trans (hbytes i hi)⟩, ?_⟩
      exact ⟨hother.1.symm.trans hemptied.1, fun i hi => (hother.2 i hi).symm.trans (hemptied.2 i hi)⟩
    · rintro (heq | ⟨hp, hdisp⟩)
      · exact absurd heq hd
      · refine ⟨fun t _ _ => ?_, hother.1.trans hdisp.1, fun i hi => (hother.2 i hi).trans (hdisp.2 i hi)⟩
        by_cases htp : t = k.cur.curTerminal
        · rw [htp]
          exact ⟨hidx.trans hp.1.symm, fun i hi => (hbytes i hi).trans (hp.2 i hi).symm⟩
        · exact clearbuf_sameLine htp

end Lines

/-! ### The pictures -/

section Pictures

variable {s s' : Screen} {t d : ℤ} {T T' : Vterm}

theorem Screen.samePicture_iff (h : s.Shows t T) (h' : s'.Shows t T') : s.SamePicture s' t ↔ T' = T := by
  constructor
  · intro hsame
    refine Terminal.ext ?_ (Fin.ext ?_) (Fin.ext ?_)
    · rw [← h.cell, ← h'.cell, hsame.image]
    · rw [← h.row, ← h'.row, hsame.y]
    · rw [← h.col, ← h'.col, hsame.x]
  · rintro rfl
    exact ⟨h'.cell.trans h.cell.symm, h'.col.trans h.col.symm, h'.row.trans h.row.symm⟩

/-- The first line of the message. -/
def alreadyLine (d : ℤ) : List UInt8 :=
  ascii "Already in terminal ".toList ++ [UInt8.ofNat (48 + d.toNat)]

def promptLine : List UInt8 := ascii "391OS> ".toList

theorem alreadyIn_eq (d : ℤ) : alreadyIn d = (0x0A :: alreadyLine d) ++ (0x0A :: promptLine) := by
  simp [alreadyIn, alreadyLine, promptLine, ascii]

theorem alreadyLine_unbroken (hd : IsTerminal d) : ∀ c ∈ alreadyLine d, isBreak c = false := by
  have hall : (alreadyLine d).all (fun c => !isBreak c) = true := by
    rcases hd with rfl | rfl | rfl <;> decide
  simpa using hall

theorem promptLine_unbroken : ∀ c ∈ promptLine, isBreak c = false := by
  have hall : promptLine.all (fun c => !isBreak c) = true := by decide
  simpa using hall

/-- Terminal `t` shows the message about terminal `d` over and over, and nothing else. -/
structure Screen.Repeats (s : Screen) (t d : ℤ) : Prop where
  row : s.screenY (t - 1) = 24
  col : s.screenX (t - 1) = 7
  cell : ∀ r c, s.image t r c
    = if r.val % 2 = 0 then padded space promptLine c else padded space (alreadyLine d) c

theorem vfeed_eq : vfeed = Terminal.feed space isBreak := rfl

/-- The message leaves a terminal alone just if its cursor is behind the last prompt and its rows are the two lines of
the message in turn. -/
theorem foldl_vfeed_alreadyIn_iff (hd : IsTerminal d) (T : Vterm) :
    (alreadyIn d).foldl vfeed T = T ↔ T.row.val = 24 ∧ T.col.val = 7 ∧
      ∀ r c, T.cell r c = if r.val % 2 = 0 then padded space promptLine c else padded space (alreadyLine d) c := by
  have hlen : (alreadyLine d).length < numCols := by simp [alreadyLine, ascii, numCols]
  rw [alreadyIn_eq, vfeed_eq, Terminal.foldl_feed_two_lines_iff (by decide) (alreadyLine_unbroken hd)
    promptLine_unbroken hlen (by decide)]
  have hparity : ∀ r : Fin numRows, (numRows - 1 - r.val) % 2 = r.val % 2 := by
    intro r
    have hlt := r.isLt
    unfold numRows at hlt ⊢
    omega
  simp only [hparity]
  refine and_congr ?_ Iff.rfl
  unfold numRows
  omega

/-- Bytes that a process prints reach its own terminal. -/
theorem foldl_said (V : ℤ → Vterm) (cur : ℤ) (bytes : List UInt8) (t : ℤ) :
    (said cur bytes).foldl (react vreact) V t = if t = cur then bytes.foldl vfeed (V t) else V t := by
  induction bytes generalizing V with
  | nil => exact (ite_self _).symm
  | cons c bytes ih =>
    rw [said, List.map_cons, List.foldl_cons]
    refine (ih _).trans ?_
    by_cases ht : t = cur
    · rw [if_pos ht, if_pos ht, List.foldl_cons, ht, react, Function.update_self]
      rfl
    · rw [if_neg ht, if_neg ht, react, Function.update_of_ne ht]

/-- The message of `screenChange` leaves the other terminals alone just if it is printed on the displayed one, or on a
terminal that consists of it. -/
theorem samePicture_alreadyIn_iff {cur : ℤ} (h : s.Sound) (hcur : IsTerminal cur) :
    (∀ t, IsTerminal t → t ≠ s.currentTerminal →
        s.SamePicture (s.puts cur (alreadyIn s.currentTerminal)).updatecursor t) ↔
      cur = s.currentTerminal ∨ s.Repeats cur s.currentTerminal := by
  obtain ⟨V, hV⟩ := Screen.sound_iff.mp h
  have hV' := (hV.puts hcur (alreadyIn s.currentTerminal)).updatecursor
  have hiff : ∀ t, IsTerminal t →
      (s.SamePicture (s.puts cur (alreadyIn s.currentTerminal)).updatecursor t ↔
        (if t = cur then (alreadyIn s.currentTerminal).foldl vfeed (V t) else V t) = V t) := by
    intro t ht
    rw [Screen.samePicture_iff (hV.shows t ht) (hV'.shows t ht), foldl_said]
  have hrepeats : (alreadyIn s.currentTerminal).foldl vfeed (V cur) = V cur ↔ s.Repeats cur s.currentTerminal := by
    have hshows := hV.shows cur hcur
    rw [foldl_vfeed_alreadyIn_iff h.displayed, ← hshows.row, ← hshows.col, ← hshows.cell]
    exact ⟨fun ⟨hrow, hcol, hcell⟩ => ⟨hrow, hcol, hcell⟩, fun h => ⟨h.row, h.col, h.cell⟩⟩
  constructor
  · intro hsame
    by_cases hd : cur = s.currentTerminal
    · exact Or.inl hd
    · have := (hiff cur hcur).mp (hsame cur hcur hd)
      rw [if_pos rfl] at this
      exact Or.inr (hrepeats.mp this)
  · intro hor t ht htd
    rw [hiff t ht]
    by_cases htc : t = cur
    · rw [if_pos htc, htc]
      exact hrepeats.mpr (hor.resolve_left fun hd => htd (htc.trans hd))
    · rw [if_neg htc]

/-- `clear` works on the displayed terminal. -/
theorem clear_samePicture (s : Screen) (ht : t ≠ s.currentTerminal) : s.SamePicture s.clear.updatecursor t := by
  refine ⟨?_, ?_, ?_⟩
  · have hpage : s.pageOf t = .term t := if_neg ht
    rw [Screen.image, Screen.image, show s.clear.updatecursor.pageOf t = s.pageOf t from rfl, hpage]
    rfl
  · exact Function.update_of_ne (by show t - 1 ≠ s.currentTerminal - 1; omega) _ _
  · exact Function.update_of_ne (by show t - 1 ≠ s.currentTerminal - 1; omega) _ _

end Pictures

/-! ### The commands -/

section Commands

variable {E : Platform} {st : Stack} {k k' : Kernel} {s : Console}

/-- A keyboard interrupt that runs a single block, with `clearbuf` in it: the rest is up to the pictures. -/
theorem Console.interrupt_onlyDisplayed_iff {reads : List UInt8} {e : KeyEvent} {g : KeyMap} {m : Kernel}
    (hcur : IsTerminal s.kernel.cur.curTerminal) (hevents : keyEvents s.getChar reads = some ([e], g))
    (hstep : keyStep E st e (s.kernel.raise 1) = some m)
    (htty : m.tty = s.kernel.clearbuf.tty) :
    (∃ s', s.interrupt E st reads = some s' ∧ s.kernel.OnlyDisplayed s'.kernel) ↔
      (s.kernel.cur.curTerminal = s.kernel.screen.currentTerminal ∨
        s.kernel.LineEmpty s.kernel.cur.curTerminal ∧ s.kernel.LineEmpty s.kernel.screen.currentTerminal) ∧
      ∀ t, IsTerminal t → t ≠ s.kernel.screen.currentTerminal → s.kernel.screen.SamePicture m.screen t := by
  obtain ⟨isr, heoi⟩ := m.sendEoi_eq 1
  have hint : s.interrupt E st reads = some { s with kernel := { m with isr := isr }, getChar := g } := by
    have hrun : runs (keyStep E st) [e] (s.kernel.raise 1) = some m := runs_cons_eq_some.mpr ⟨m, hstep, rfl⟩
    rw [Console.interrupt, keyboardHandler, hevents, Option.bind_some, hrun, Option.map_some, heoi]
    rfl
  have htty' : ({ m with isr := isr } : Kernel).tty = s.kernel.clearbuf.tty := htty
  rw [← clearbuf_only_displayed_iff hcur htty']
  constructor
  · rintro ⟨s', hs', h⟩
    obtain rfl := Option.some_inj.mp (hint.symm.trans hs')
    exact ⟨⟨h.lines, h.emptied⟩, h.pictures⟩
  · rintro ⟨⟨hlines, hemptied⟩, hpictures⟩
    exact ⟨_, hint, hlines, hpictures, hemptied⟩

/-- **Commands of the keyboard.**  In every reachable state, Ctrl-L and Alt with the function key of the displayed
terminal leave the lines, the cursors and the pictures of the other terminals alone and empty the displayed line just
if the running process is on the displayed terminal, or nothing was to be done: both lines are empty already, and, for
the second command, the other terminal consists of its message. -/
theorem keyboard_commands_iff (hshell : ValidShell E.image) {as : List ConsoleAction}
    (hreach : Console.Reaches E as s) (st : Stack) (held : List UInt8) :
    ((∃ s', s.interrupt E st (cntrl :: clr :: (held ++ [uncntrl])) = some s' ∧ s.kernel.OnlyDisplayed s'.kernel) ↔
      s.kernel.cur.curTerminal = s.kernel.screen.currentTerminal ∨
        s.kernel.LineEmpty s.kernel.cur.curTerminal ∧ s.kernel.LineEmpty s.kernel.screen.currentTerminal) ∧
    ((∃ s', s.interrupt E st [alt, fKey s.kernel.screen.currentTerminal] = some s' ∧
        s.kernel.OnlyDisplayed s'.kernel) ↔
      s.kernel.cur.curTerminal = s.kernel.screen.currentTerminal ∨
        (s.kernel.LineEmpty s.kernel.cur.curTerminal ∧ s.kernel.LineEmpty s.kernel.screen.currentTerminal) ∧
          s.kernel.screen.Repeats s.kernel.cur.curTerminal s.kernel.screen.currentTerminal) := by
  have hsound := Console.reaches_sound hshell hreach
  have hcur := hsound.kernel.isTerminal_cur
  have hdisplayed := hsound.kernel.screen.displayed
  refine ⟨?_, ?_⟩
  · rw [Console.interrupt_onlyDisplayed_iff hcur (keyEvents_cntrl hsound.table held) rfl rfl]
    exact and_iff_left fun t _ ht => clear_samePicture _ ht
  · have hstep : keyStep E st (.switch s.kernel.screen.currentTerminal) (s.kernel.raise 1)
        = some { s.kernel.raise 1 with
          screen := (s.kernel.screen.puts s.kernel.cur.curTerminal
            (alreadyIn s.kernel.screen.currentTerminal)).updatecursor
          tty := s.kernel.clearbuf.tty } := by
      exact (if_pos (c := _ = (s.kernel.raise 1).screen.currentTerminal) rfl).trans (if_pos hdisplayed)
    rw [Console.interrupt_onlyDisplayed_iff hcur (keyEvents_alt hsound.table hdisplayed) hstep rfl,
      samePicture_alreadyIn_iff hsound.kernel.screen hcur, ← or_and_left]

end Commands

/-- The shell of terminal 1 is running and displayed, and a letter has been typed: Ctrl-L does what it should. -/
theorem keyboard_commands_iff_own_terminal : ∃ s,
    Console.Reaches twoProgramPlatform [.keyboard default [0x1E]] s ∧ s.kernel.tty.idx 0 = 1 ∧
    ∃ s', s.interrupt twoProgramPlatform default [cntrl, clr, uncntrl] = some s' ∧
      s.kernel.OnlyDisplayed s'.kernel := by
  have heval : ((boot twoProgramPlatform default consoleKernel).any fun b =>
      (runs (Console.step twoProgramPlatform) [.keyboard default [0x1E]] (consoleStart b)).any fun s =>
        decide (s.kernel.tty.idx 0 = 1 ∧ s.kernel.cur.curTerminal = s.kernel.screen.currentTerminal)) = true := by
    decide +kernel
  simp only [Option.any_eq_true, decide_eq_true_eq] at heval
  obtain ⟨b, hboot, s, hrun, hidx, hcur⟩ := heval
  have hreach := consoleStart_reaches hboot hrun
  exact ⟨s, hreach, hidx,
    (keyboard_commands_iff twoProgramPlatform_shell hreach default []).1.mpr (Or.inl hcur)⟩

/-- Terminal 2 is started and a letter is typed on it; then the shell of terminal 1 runs. -/
def typedBehind : List ConsoleAction :=
  [.keyboard default [alt, f2], .keyboard default [0x1E], .machine .tick]

/-- **Commands that miss the displayed terminal.**  Ctrl-L leaves the letter in the line of the displayed terminal 2,
and so does Alt-F2, which prints its message on terminal 1. -/
theorem keyboard_commands_miss : ∃ s, Console.Reaches twoProgramPlatform typedBehind s ∧
    s.kernel.screen.currentTerminal = 2 ∧ s.kernel.cur.curTerminal = 1 ∧
    (∃ s', s.interrupt twoProgramPlatform default [cntrl, clr, uncntrl] = some s' ∧
      s'.kernel.tty.idx 1 = 1 ∧ ¬s.kernel.OnlyDisplayed s'.kernel) ∧
    ∃ s', s.interrupt twoProgramPlatform default [alt, f2] = some s' ∧
      s'.kernel.tty.idx 1 = 1 ∧ s.kernel.screen.screenY 0 = 0 ∧ s'.kernel.screen.screenY 0 = 2 ∧
      ¬s.kernel.OnlyDisplayed s'.kernel := by
  have heval : ((boot twoProgramPlatform default consoleKernel).any fun b =>
      (runs (Console.step twoProgramPlatform) typedBehind (consoleStart b)).any fun s =>
        (s.interrupt twoProgramPlatform default [cntrl, clr, uncntrl]).any fun s₁ =>
          (s.interrupt twoProgramPlatform default [alt, f2]).any fun s₂ =>
            decide (s.kernel.screen.currentTerminal = 2 ∧ s.kernel.cur.curTerminal = 1 ∧
              s₁.kernel.tty.idx 1 = 1 ∧ s₂.kernel.tty.idx 1 = 1 ∧ s.kernel.screen.screenY 0 = 0 ∧
              s₂.kernel.screen.screenY 0 = 2)) = true := by
    decide +kernel
  simp only [Option.any_eq_true, decide_eq_true_eq] at heval
  obtain ⟨b, hboot, s, hrun, s₁, hs₁, s₂, hs₂, hd, hcur, hidx₁, hidx₂, hy, hy₂⟩ := heval
  -- the line of terminal 2 would have to be empty
  have hmiss : ∀ s' : Console, s'.kernel.tty.idx 1 = 1 → ¬s.kernel.OnlyDisplayed s'.kernel := by
    intro s' hidx h
    have hemptied := h.emptied.1
    rw [hd, show (2 : ℤ) - 1 = 1 from rfl, hidx] at hemptied
    exact absurd hemptied (by decide)
  exact ⟨s, consoleStart_reaches hboot hrun, hd, hcur, ⟨s₁, hs₁, hidx₁, hmiss s₁ hidx₁⟩,
    s₂, hs₂, hidx₂, hy, hy₂, hmiss s₂ hidx₂⟩

end ClosKernel
