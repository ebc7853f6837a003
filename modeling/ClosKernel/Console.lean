import ClosKernel.Keyboard
import ClosKernel.Erasing

/-!
# The console: key presses, ticks and processes inside `tRead`

`tRead` polls the line buffer of its terminal with interrupts on, so that keys, ticks and other processes come between
any two of its steps.  Here the pieces of the call (`Reading.advance`) run together with the keyboard handler and the
machine.  A process inside `tRead` is found by its PCB.

* `Console.step` — the system; `Console.Reaches` — its states from power-on;
* `step_tty` — what the machine does to the line buffers;
* `Console.Sound`, `Console.reaches_sound` — **the invariant**: the process table, the terminals on the screen, the
  indices of the line buffers and the key table are as they should be in every reachable state.
-/

namespace ClosKernel

open PartialRun

/-! ### The system -/

structure Console where
  kernel : Kernel
  getChar : KeyMap
  /-- For the PCB of a process inside `tRead`, its call. -/
  inside : ℕ → Option Reading

inductive ConsoleAction where
  /-- A keyboard interrupt, with what `inb(KB_PORT)` returns. -/
  | keyboard (st : Stack) (reads : List UInt8)
  /-- A tick, or something that the running process does. -/
  | machine (a : Action)
  /-- The running process calls `tRead`; its local variable holds whatever the stack held. -/
  | tRead (scancode : UInt8) (buf : Mem) (nbytes : ℤ)
  /-- The running process, inside `tRead`, goes on. -/
  | advance (code : UInt8)

namespace Console

/-- Interrupts are on, unless the running process is in a piece of `tRead` where they are off. -/
def interruptible (s : Console) : Bool := (s.inside s.kernel.pcb).all Reading.interruptible

/-- A process inside `tRead` does nothing else.  Terminals are switched by the keyboard only. -/
def allows (s : Console) : Action → Bool
  | .tick => s.interruptible
  | .screenChange _ _ => false
  | .run _ | .store _ _ | .output _ | .execute _ _ | .halt _ _ | .vidmap _ _ => (s.inside s.kernel.pcb).isNone

/-- A keyboard interrupt: line 1. -/
def interrupt (E : Platform) (st : Stack) (reads : List UInt8) (s : Console) : Option Console :=
  (keyboardHandler E st reads s.getChar (s.kernel.raise 1)).map fun r => { s with kernel := r.2, getChar := r.1 }

def step (E : Platform) : ConsoleAction → Console → Option Console
  | .keyboard st reads, s => if s.interruptible then s.interrupt E st reads else none
  | .machine a, s =>
    if s.allows a then (ClosKernel.step E a s.kernel).map fun k => { s with kernel := k } else none
  | .tRead scancode buf nbytes, s =>
    if (s.inside s.kernel.pcb).isNone then
      some { s with
        kernel := (s.kernel.setScreen s.kernel.screen.updatecursor).clearbuf
        inside := Function.update s.inside s.kernel.pcb (some (.start scancode buf nbytes)) }
    else none
  | .advance code, s =>
    (s.inside s.kernel.pcb).map fun r => { s with
      kernel := (r.advance code s.kernel).2
      inside := Function.update s.inside s.kernel.pcb (r.advance code s.kernel).1 }

end Console

/-- The static variables of `terminal.c` as the kernel image initialises them. -/
structure Kernel.TtyPowerOn (k : Kernel) : Prop where
  tbuf : ∀ i, 0 ≤ i → i < 3 * bufsize → k.tty.tbuf i = 0
  idx : ∀ t, k.tty.idx t = 0
  set : k.tty.set = 1

/-- `s` can be reached from power-on by the actions `as`. -/
def Console.Reaches (E : Platform) (as : List ConsoleAction) (s : Console) : Prop :=
  ∃ k₀ st b g, (PowerOn k₀ ∧ k₀.TtyPowerOn) ∧ boot E st k₀ = some b ∧ KeyMap.Loaded g ∧
    runs (Console.step E) as ⟨b, g, fun _ => none⟩ = some s

/-! ### The screen -/

/-- A terminal is displayed, and every cursor is on its page. -/
structure Screen.InBounds (s : Screen) : Prop where
  displayed : IsTerminal s.currentTerminal
  cursor : ∀ t, IsTerminal t → s.screenX (t - 1) < numCols ∧ s.screenY (t - 1) < numRows

/-- What can be said of the screen whatever was printed: it is in bounds, and no key press is being echoed. -/
structure Screen.Sound (s : Screen) : Prop extends s.InBounds where
  keyInt : s.keyInt = false

namespace Screen

variable {s : Screen} {p : Page} {t cur : ℤ} {c : UInt8}

/-- Every sound screen displays three stand-alone terminals. -/
theorem sound_iff : s.Sound ↔ ∃ T, s.Displays T := by
  constructor
  · intro h
    refine ⟨fun t => if ht : IsTerminal t then
      ⟨s.image t, ⟨_, (h.cursor t ht).2⟩, ⟨_, (h.cursor t ht).1⟩⟩ else vhome, h.displayed, h.keyInt, fun t ht => ?_⟩
    rw [dif_pos ht]
    exact ⟨rfl, rfl, rfl⟩
  · rintro ⟨T, h⟩
    refine ⟨⟨h.displayed, fun t ht => ?_⟩, h.keyInt⟩
    rw [(h.shows t ht).col, (h.shows t ht).row]
    exact ⟨(T t).col.isLt, (T t).row.isLt⟩

/-- Output keeps the cursor on the page, also where `tScroll` goes astray. -/
theorem putcAt_cursor_lt (h : s.screenX (t - 1) < numCols ∧ s.screenY (t - 1) < numRows) :
    (s.putcAt p t cur c).screenX (t - 1) < numCols ∧ (s.putcAt p t cur c).screenY (t - 1) < numRows := by
  obtain ⟨hx, hy⟩ := h
  cases hc : isBreak c with
  | true =>
    rw [putcAt_break hc]
    split
    · simp [hy, numCols]
    · simp only [setX_screenX, setX_screenY, setY_screenY, if_true]
      unfold numRows numCols at *
      omega
  | false =>
    rw [putcAt_char hc]
    have hmod : (s.screenX (t - 1) + 1) % numCols < numCols := Nat.mod_lt _ (by decide)
    split
    · simp [hy, hmod]
    · simp only [setX_screenX, setX_screenY, setY_screenY, if_true]
      exact ⟨hmod, Nat.mod_lt _ (by decide)⟩

theorem putc_cursor_lt (h : ∀ t, IsTerminal t → s.screenX (t - 1) < numCols ∧ s.screenY (t - 1) < numRows)
    (ht : IsTerminal t) :
    (s.putc cur c).screenX (t - 1) < numCols ∧ (s.putc cur c).screenY (t - 1) < numRows := by
  have hput : ∀ p u, (s.putcAt p u cur c).screenX (t - 1) < numCols ∧
      (s.putcAt p u cur c).screenY (t - 1) < numRows := by
    intro p u
    by_cases htu : t = u
    · rw [← htu]
      exact putcAt_cursor_lt (h t ht)
    · rw [(putcAt_cursor htu).1, (putcAt_cursor htu).2]
      exact h t ht
  rw [putc]
  split
  · exact hput _ _
  · exact hput _ _

/-- An echo shows no other terminal. -/
theorem echo_statics (cur : ℤ) (c : UInt8) (s : Screen) :
    (s.echo cur c).currentTerminal = s.currentTerminal ∧ (s.echo cur c).numShells = s.numShells := by
  have hputs := puts_statics cur [c] { s with keyInt := true }
  exact ⟨hputs.1, hputs.2.1⟩

namespace InBounds

theorem putc (h : s.InBounds) : (s.putc cur c).InBounds where
  displayed := by
    have hcur : (s.putc cur c).currentTerminal = s.currentTerminal := (puts_statics cur [c] s).1
    rw [hcur]
    exact h.displayed
  cursor t ht := putc_cursor_lt h.cursor ht

theorem clear (h : s.InBounds) : s.clear.InBounds := by
  refine ⟨h.displayed, fun t ht => ?_⟩
  have hcursor := h.cursor t ht
  by_cases htd : t = s.currentTerminal
  · simp [Screen.clear, htd, numCols, numRows]
  · simpa [Screen.clear, htd] using hcursor

theorem stepBack (h : s.InBounds) : s.stepBack.InBounds := by
  obtain ⟨x, y, heq, hxy⟩ := s.stepBack_eq
  rw [heq]
  refine ⟨h.displayed, fun t ht => ?_⟩
  by_cases htd : t = s.currentTerminal
  · simpa [htd] using hxy (h.cursor _ h.displayed)
  · simpa [htd] using h.cursor t ht

end InBounds

namespace Sound

theorem echo (h : s.Sound) (cur : ℤ) (c : UInt8) : (s.echo cur c).Sound where
  displayed := by
    rw [(echo_statics cur c s).1]
    exact h.displayed
  cursor t ht := putc_cursor_lt (s := { s with keyInt := true }) h.cursor ht
  keyInt := rfl

theorem puts (h : s.Sound) (hcur : IsTerminal cur) (bytes : List UInt8) : (s.puts cur bytes).Sound := by
  obtain ⟨T, hT⟩ := sound_iff.mp h
  exact sound_iff.mpr ⟨_, hT.puts hcur bytes⟩

theorem updatecursor (h : s.Sound) : s.updatecursor.Sound := ⟨⟨h.displayed, h.cursor⟩, h.keyInt⟩

theorem clear (h : s.Sound) : s.clear.Sound := ⟨h.toInBounds.clear, h.keyInt⟩

theorem backspace (h : s.Sound) : s.backspace.Sound :=
  have hback := h.toInBounds.stepBack
  ⟨⟨hback.displayed, hback.cursor⟩, s.stepBack_statics.2.2.1.trans h.keyInt⟩

end Sound

end Screen

/-! ### The lines -/

/-- The line of terminal `t` is empty, as `clearbuf` leaves it. -/
def Kernel.LineEmpty (k : Kernel) (t : ℤ) : Prop := k.tty.idx (t - 1) = 0 ∧ ∀ i < 128, k.line t i = 0

/-- The line buffer of terminal `t` and its index are the same. -/
def Kernel.SameLine (k k' : Kernel) (t : ℤ) : Prop :=
  k'.tty.idx (t - 1) = k.tty.idx (t - 1) ∧ ∀ i < 128, k'.line t i = k.line t i

section Lines

variable {k : Kernel}

/-- An offset into the line of terminal `t` lies in the line of terminal `u` just if the two are the same. -/
theorem line_offset_iff {t u : ℤ} {i : ℕ} (hi : i < 128) :
    (128 * (u - 1) ≤ bufsize * (t - 1) + i ∧ bufsize * (t - 1) + i < 128 * (u - 1) + 128) ↔ t = u := by
  unfold bufsize
  omega

theorem clearbuf_lineEmpty (k : Kernel) : k.clearbuf.LineEmpty k.cur.curTerminal :=
  ⟨Function.update_self .., fun _ hi => if_pos ((line_offset_iff hi).mpr rfl)⟩

theorem clearbuf_sameLine {t : ℤ} (ht : t ≠ k.cur.curTerminal) : k.SameLine k.clearbuf t := by
  refine ⟨Function.update_of_ne (by omega) _ _, fun i hi => ?_⟩
  exact if_neg fun h => ht ((line_offset_iff hi).mp h)

/-- Every line has from 0 to 128 characters. -/
def Tty.InRange (tty : Tty) : Prop := ∀ t, IsTerminal t → 0 ≤ tty.idx (t - 1) ∧ tty.idx (t - 1) ≤ bufsize

namespace Tty.InRange

/-- An index that is set to a number in range. -/
theorem update_idx (h : k.tty.InRange) (t : ℤ) {i : ℤ} (hi : 0 ≤ i ∧ i ≤ bufsize) (tbuf : ℤ → UInt8) :
    Tty.InRange { k.tty with tbuf := tbuf, idx := Function.update k.tty.idx (t - 1) i } := by
  intro u hu
  show 0 ≤ Function.update k.tty.idx (t - 1) i (u - 1) ∧ Function.update k.tty.idx (t - 1) i (u - 1) ≤ bufsize
  rw [Function.update_apply]
  split
  · exact hi
  · exact h u hu

theorem clearbuf (h : k.tty.InRange) : k.clearbuf.tty.InRange := h.update_idx _ (by decide) _

theorem insert (h : k.tty.InRange) (hd : IsTerminal k.screen.currentTerminal) (c : UInt8) :
    (k.insert c).2.tty.InRange := by
  have hrange := h _ hd
  rw [Kernel.insert]
  dsimp only
  split
  · exact h
  · refine h.update_idx _ ?_ _
    unfold bufsize
    omega

theorem backspacebuf (h : k.tty.InRange) (hd : IsTerminal k.screen.currentTerminal) :
    k.backspacebuf.2.tty.InRange := by
  have hrange := h _ hd
  rw [Kernel.backspacebuf]
  dsimp only
  split
  · exact h.update_idx _ (by omega) _
  · exact h

end Tty.InRange

end Lines

/-! ### The kernel between two actions -/

structure Kernel.Sound (k : Kernel) : Prop where
  tracks : ∃ σ, k.Tracks σ
  screen : k.screen.Sound
  index : ∀ t, IsTerminal t → 0 ≤ k.tty.idx (t - 1) ∧ k.tty.idx (t - 1) ≤ bufsize

theorem sysExecute_tty {E : Platform} {st : Stack} {command : List UInt8} {o : Outcome} {k m : Kernel}
    (hexec : sysExecute E st command k = some (o, m)) : m.tty = k.tty := by
  obtain ⟨-, rfl, -⟩ | ⟨r, free, -, -, -, -, -, rfl⟩ := sysExecute_cases hexec
  · rfl
  · exact (enterProcess_keeps free _ _ (k.loaded E st free r)).tty

/-- A switch leaves the line buffers alone, unless the displayed terminal is chosen again. -/
theorem screenChange_tty {E : Platform} {st : Stack} {n : ℤ} {k k' : Kernel} (h : screenChange E st n k = some k') :
    k'.tty = k.tty ∨ n = k.screen.currentTerminal ∧ k'.tty = k.clearbuf.tty := by
  cases screenChange_cases h with
  | again hsame hn => exact Or.inr ⟨hsame, rfl⟩
  | lost | shown | refused | higher => exact Or.inl rfl
  | opened hne hn hnew hfull hexec =>
    have htty := sysExecute_tty hexec
    refine Or.inl ?_
    split
    · exact htty
    · exact htty

theorem sysExecute_displayed {E : Platform} {st : Stack} {command : List UInt8} {o : Outcome} {k m : Kernel}
    (hd : IsTerminal k.screen.currentTerminal) (hexec : sysExecute E st command k = some (o, m)) :
    IsTerminal m.screen.currentTerminal := by
  obtain ⟨-, rfl, -⟩ | ⟨r, free, -, -, -, -, -, rfl⟩ := sysExecute_cases hexec
  · have hcur : (k.printf (executeText E st command k)).screen.currentTerminal = k.screen.currentTerminal :=
      (Screen.puts_statics ..).1
    rw [hcur]
    exact hd
  · rw [(enterProcess_keeps free _ _ (k.loaded E st free r)).screen]
    split
    · exact hd
    · exact Or.inl rfl

/-- Whatever is asked for, one of the three terminals is displayed. -/
theorem screenChange_displayed {E : Platform} {st : Stack} {n : ℤ} {k k' : Kernel}
    (hd : IsTerminal k.screen.currentTerminal) (h : screenChange E st n k = some k') :
    IsTerminal k'.screen.currentTerminal := by
  have hputs : ∀ (s : Screen) bytes, IsTerminal s.currentTerminal →
      IsTerminal (s.puts k.cur.curTerminal bytes).currentTerminal := by
    intro s bytes hs
    rw [(Screen.puts_statics _ bytes s).1]
    exact hs
  have hsaved : IsTerminal k.savedScreen.currentTerminal := by
    rw [Kernel.savedScreen, if_pos hd, Screen.saveCurrent, Screen.setPage_currentTerminal]
    exact hd
  cases screenChange_cases h with
  | again hsame hn => exact hputs k.screen _ hd
  | lost hsame hn => exact hputs k.screen _ hd
  | shown hne hstarted => exact hstarted.1
  | refused hne hn hnew hfull => exact hsaved
  | opened hne hn hnew hfull hexec =>
    have hlaunched := sysExecute_displayed hn hexec
    split
    · exact hlaunched
    · exact hn
  | higher hne hn => exact hputs k.savedScreen _ hsaved

/-- What the machine does to the line buffers: nothing, unless the displayed terminal is chosen again. -/
theorem step_tty {E : Platform} {k k' : Kernel} {σ : Shells} {a : Action} (hshell : ValidShell E.image)
    (htracks : k.Tracks σ) (hstep : step E a k = some k') :
    k'.tty = k.tty ∨ (∃ st, a = .screenChange st k.screen.currentTerminal) ∧ k'.tty = k.clearbuf.tty := by
  have hhalt : ∀ {st : Stack} {ebx : ℕ} {o : Outcome}, sysHalt E st ebx k = some (o, k') → k'.tty = k.tty := by
    intro st ebx o h
    rcases htracks.halt_eq hshell h with ⟨-, -, r, free, -, -, rfl⟩ | ⟨-, -, rfl⟩
    · rfl
    · rfl
  cases a with
  | run ctx => exact Or.inl (Option.some_inj.mp hstep ▸ rfl)
  | store off b => exact Or.inl (Option.some_inj.mp hstep ▸ rfl)
  | output bytes => exact Or.inl (Option.some_inj.mp hstep ▸ rfl)
  | execute st command =>
    obtain ⟨⟨o, m⟩, hexec, rfl⟩ := Option.map_eq_some_iff.mp hstep
    rcases htracks.execute_eq hexec with ⟨-, rfl⟩ | ⟨r, free, -, -, -, -, rfl⟩
    · exact Or.inl rfl
    · exact Or.inl rfl
  | halt st ebx =>
    obtain ⟨⟨o, m⟩, h, rfl⟩ := Option.map_eq_some_iff.mp hstep
    exact Or.inl (hhalt h)
  | vidmap st v =>
    obtain ⟨⟨o, m⟩, hvid, rfl⟩ := Option.map_eq_some_iff.mp hstep
    rcases Kernel.Tracks.vidmap_eq hvid with ⟨-, rfl⟩ | h | ⟨-, -, rfl⟩
    · exact Or.inl rfl
    · exact Or.inl (hhalt h)
    · exact Or.inl rfl
  | tick =>
    obtain ⟨isr, ⟨-, rfl⟩ | ⟨p, -, -, ⟨-, rfl⟩ | ⟨-, rfl⟩⟩⟩ := tick_cases htracks.curProc hstep
    · exact Or.inl rfl
    · exact Or.inl rfl
    · exact Or.inl rfl
  | screenChange st n =>
    obtain h | ⟨hsame, h⟩ := screenChange_tty hstep
    · exact Or.inl h
    · exact Or.inr ⟨⟨st, by rw [hsame]⟩, h⟩

namespace Kernel.Sound

variable {E : Platform} {st : Stack} {k k' : Kernel} {a : Action}

/-- A change of the screen and the line buffers. -/
theorem console_only (h : k.Sound) {s : Screen} {tty : Tty} (hs : s.numShells = k.screen.numShells)
    (hscreen : s.Sound) (hidx : ∀ t, IsTerminal t → 0 ≤ tty.idx (t - 1) ∧ tty.idx (t - 1) ≤ bufsize) :
    Kernel.Sound { k with screen := s, tty := tty } := by
  obtain ⟨σ, hσ⟩ := h.tracks
  exact ⟨⟨σ, hσ.screen_only s tty hs⟩, hscreen, hidx⟩

theorem isr_only (h : k.Sound) (isr : ℕ → Bool) : Kernel.Sound { k with isr := isr } := by
  obtain ⟨σ, hσ⟩ := h.tracks
  exact ⟨⟨σ, hσ.congr rfl rfl (fun _ _ => Pcb.SamePlace.refl _) rfl rfl rfl hσ.curProc rfl⟩, h.screen, h.index⟩

theorem sendEoi (h : k.Sound) (irqNum : ℕ) : (k.sendEoi irqNum).Sound := by
  obtain ⟨isr, heq⟩ := k.sendEoi_eq irqNum
  exact heq ▸ h.isr_only isr

theorem setScreen (h : k.Sound) {s : Screen} (hs : s.numShells = k.screen.numShells) (hscreen : s.Sound) :
    (k.setScreen s).Sound :=
  h.console_only hs hscreen h.index

theorem isTerminal_cur (h : k.Sound) : IsTerminal k.cur.curTerminal := by
  obtain ⟨σ, hσ⟩ := h.tracks
  exact hσ.isTerminal_cur

theorem printf (h : k.Sound) (bytes : List UInt8) : (k.printf bytes).Sound :=
  h.setScreen (k.screen.puts_statics _ _).2.1 (h.screen.puts h.isTerminal_cur bytes)

theorem clearbuf (h : k.Sound) : k.clearbuf.Sound := h.console_only rfl h.screen (Tty.InRange.clearbuf h.index)

theorem insert (h : k.Sound) (c : UInt8) : (k.insert c).2.Sound := by
  have hindex := Tty.InRange.insert h.index h.screen.displayed c
  rw [insert_tty]
  exact h.console_only rfl h.screen hindex

theorem backspacebuf (h : k.Sound) : k.backspacebuf.2.Sound := by
  have hindex := Tty.InRange.backspacebuf h.index h.screen.displayed
  rw [backspacebuf_tty]
  exact h.console_only rfl h.screen hindex

theorem typed (h : k.Sound) (c : UInt8) : (k.typed c).Sound := by
  have hinsert := h.insert c
  rw [Kernel.typed]
  dsimp only
  split
  · exact hinsert.setScreen (Screen.echo_statics ..).2 (hinsert.screen.echo _ c)
  · exact hinsert

theorem erased (h : k.Sound) : k.erased.Sound := by
  have hbuf := h.backspacebuf
  rw [Kernel.erased]
  dsimp only
  split
  · exact hbuf.setScreen k.backspacebuf.2.screen.stepBack_statics.2.1 hbuf.screen.backspace.updatecursor
  · exact hbuf

theorem cleared (h : k.Sound) : k.cleared.Sound :=
  (h.setScreen (s := k.screen.clear) rfl h.screen.clear).clearbuf.setScreen rfl h.screen.clear.updatecursor

theorem cutLine (h : k.Sound) : k.cutLine.Sound := by
  rw [Kernel.cutLine]
  split
  · refine Kernel.Sound.printf ?_ [0x0A]
    exact h.console_only rfl h.screen h.index
  · exact h

theorem putSet (h : k.Sound) (n : ℤ) : (k.putSet n).Sound := h.console_only rfl h.screen h.index

/-- A step of the machine. -/
theorem step (hshell : ValidShell E.image) (h : k.Sound) (hstep : ClosKernel.step E a k = some k') : k'.Sound := by
  obtain ⟨σ, hσ⟩ := h.tracks
  obtain ⟨σ', -, hσ'⟩ := (step_effect hshell hσ hstep).refines hσ
  obtain ⟨T, hT⟩ := Screen.sound_iff.mp h.screen
  refine ⟨⟨σ', hσ'⟩, Screen.sound_iff.mpr ⟨_, hT.step hshell hσ hstep⟩, ?_⟩
  rcases step_tty hshell hσ hstep with htty | ⟨-, htty⟩
  · rw [htty]
    exact h.index
  · rw [htty]
    exact h.clearbuf.index

theorem keyStep (hshell : ValidShell E.image) (h : k.Sound) {e : KeyEvent}
    (hstep : ClosKernel.keyStep E st e k = some k') : k'.Sound := by
  cases e with
  | letter c => exact Option.some_inj.mp hstep ▸ h.typed c
  | backspace => exact Option.some_inj.mp hstep ▸ h.erased
  | clear => exact Option.some_inj.mp hstep ▸ h.cleared
  | switch n => exact h.step (a := .screenChange st n) hshell hstep

theorem advance (h : k.Sound) (code : UInt8) (r : Reading) : (r.advance code k).2.Sound := by
  rcases r.advance_kernel code k with heq | heq | ⟨n, heq⟩
  · rw [heq]
    exact h
  · rw [heq]
    exact h.cutLine
  · rw [heq]
    exact h.putSet n

end Kernel.Sound

/-! ### Reachable states -/

structure Console.Sound (s : Console) : Prop where
  kernel : s.kernel.Sound
  table : s.getChar.Table

namespace Console

variable {E : Platform} {s s' : Console}

/-- A keyboard interrupt runs the blocks of the handler. -/
theorem interrupt_eq {st : Stack} {reads : List UInt8} (h : s.interrupt E st reads = some s') :
    ∃ events g k, keyEvents s.getChar reads = some (events, g) ∧
      runs (keyStep E st) events (s.kernel.raise 1) = some k ∧
      s' = { s with kernel := k.sendEoi 1, getChar := g } := by
  obtain ⟨⟨g, k'⟩, hhandler, rfl⟩ := Option.map_eq_some_iff.mp h
  obtain ⟨⟨events, g'⟩, hevents, hruns⟩ := Option.bind_eq_some_iff.mp hhandler
  obtain ⟨k, hk, heq⟩ := Option.map_eq_some_iff.mp hruns
  obtain ⟨rfl, rfl⟩ := Prod.mk.inj heq
  exact ⟨events, _, k, hevents, hk, rfl⟩

theorem interrupt_sound (hshell : ValidShell E.image) (h : s.Sound) {st : Stack} {reads : List UInt8}
    (hint : s.interrupt E st reads = some s') : s'.Sound := by
  obtain ⟨events, g, k, hevents, hk, rfl⟩ := interrupt_eq hint
  have hsound : k.Sound := runs_invariant (P := Kernel.Sound) (fun _ _ _ hm hstep => hm.keyStep hshell hstep)
    (h.kernel.isr_only _) hk
  exact ⟨hsound.sendEoi 1, keyEvents_table h.table hevents⟩

/-- **One step keeps the invariant.** -/
theorem step_sound (hshell : ValidShell E.image) (h : s.Sound) {a : ConsoleAction}
    (hstep : Console.step E a s = some s') : s'.Sound := by
  cases a with
  | keyboard st reads =>
    rw [Console.step] at hstep
    split at hstep
    · exact interrupt_sound hshell h hstep
    · cases hstep
  | machine a =>
    rw [Console.step] at hstep
    split at hstep
    · obtain ⟨k, hk, rfl⟩ := Option.map_eq_some_iff.mp hstep
      exact ⟨h.kernel.step hshell hk, h.table⟩
    · cases hstep
  | tRead scancode buf nbytes =>
    rw [Console.step] at hstep
    split at hstep
    · obtain rfl := Option.some_inj.mp hstep
      refine ⟨Kernel.Sound.clearbuf ?_, h.table⟩
      exact h.kernel.setScreen rfl h.kernel.screen.updatecursor
    · cases hstep
  | advance code =>
    obtain ⟨r, -, rfl⟩ := Option.map_eq_some_iff.mp hstep
    exact ⟨h.kernel.advance code r, h.table⟩

/-- The console when the first shell starts. -/
theorem booted_sound (hshell : ValidShell E.image) {k b : Kernel} {st : Stack} {g : KeyMap} (hpower : PowerOn k)
    (htty : k.TtyPowerOn) (hboot : boot E st k = some b) (hg : g.Loaded) (inside : ℕ → Option Reading) :
    Console.Sound ⟨b, g, inside⟩ := by
  obtain ⟨r, hr⟩ := hshell
  rw [boot_eq st hr hpower, Option.some_inj] at hboot
  subst hboot
  refine ⟨⟨booted_tracks st r hpower, Screen.sound_iff.mpr ⟨_, Screen.Displays.booted st r hpower⟩, fun t _ => ?_⟩,
    hg.table⟩
  have hidx : (k.booted E st r).tty.idx (t - 1) = 0 := htty.idx (t - 1)
  rw [hidx]
  decide

/-- **The invariant holds in every reachable state.** -/
theorem reaches_sound (hshell : ValidShell E.image) {as : List ConsoleAction} (hreach : Console.Reaches E as s) :
    s.Sound := by
  obtain ⟨k₀, st, b, g, ⟨hpower, htty⟩, hboot, hg, hrun⟩ := hreach
  exact runs_invariant (P := Console.Sound) (fun _ _ _ hs hstep => step_sound hshell hs hstep)
    (booted_sound hshell hpower htty hboot hg _) hrun

end Console

/-- A machine that has been switched on, with the variables of `terminal.c` and `keyhelper.c`. -/
def consoleKernel : Kernel := { powerOnKernel with tty := ⟨fun _ => 0, fun _ => 0, 1⟩ }

theorem consoleKernel_powerOn : PowerOn consoleKernel ∧ consoleKernel.TtyPowerOn :=
  ⟨⟨rfl, rfl, rfl, rfl, rfl, rfl, rfl, rfl, fun _ => ⟨rfl, rfl⟩⟩, fun _ _ _ => rfl, fun _ => rfl, rfl⟩

def loadedKeys : KeyMap := fun c => getCharEntries.getD c.toNat 0

/-- The console after boot. -/
def consoleStart (b : Kernel) : Console := ⟨b, loadedKeys, fun _ => none⟩

theorem consoleStart_reaches {as : List ConsoleAction} {b : Kernel} {s : Console}
    (hboot : boot twoProgramPlatform default consoleKernel = some b)
    (hrun : runs (Console.step twoProgramPlatform) as (consoleStart b) = some s) :
    Console.Reaches twoProgramPlatform as s :=
  ⟨consoleKernel, default, b, loadedKeys, consoleKernel_powerOn, hboot, fun _ _ => rfl, hrun⟩

end ClosKernel
