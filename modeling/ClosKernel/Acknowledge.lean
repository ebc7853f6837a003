import ClosKernel.Console
import ClosKernel.Loading
import ClosKernel.RtcWait

/-!
# Acknowledging interrupts (`send_eoi` of `i8259.c`)

A handler can be left in three ways: it returns, `schedule` goes on with the stack of another process, or `sys_execute`
enters a new shell and nothing behind the call is run.  Here every handler says how it was left, and does after an exit
only what the source does: a `send_eoi` behind the exit does not count.

* `pitExit_snd`, `keyboardExit_snd` — apart from that they are the handlers of the machine and the console;
* `Interrupt.handle_acknowledges` — **every exit has acknowledged the lines of its interrupt**, from any state;
* `Board` — the kernel with the processes inside `tRead` and `rtc_read`, and all three interrupts;
* `interrupts_acknowledged` — **no line is ever left in service**.
-/

namespace ClosKernel

open PartialRun

/-! ### The handlers and their exits -/

/-- How a handler is left. -/
inductive Exit where
  | returned
  /-- `schedule` has loaded the stack of another process. -/
  | switched
  /-- A new shell runs. -/
  | launched
  deriving DecidableEq

/-- `pit_handler`.  On the stack of another process nothing is assumed of what `schedule` returns to. -/
def pitExit (E : Platform) (k : Kernel) : Option (Exit × Kernel) :=
  if k.getBitMap ≠ 0 then
    (schedule E k).map fun k' => if k'.pcb = k.pcb then (.returned, k'.sendEoi 0) else (.switched, k')
  else some (.returned, k.sendEoi 0)

/-- `switchTo`, with the way it is left. -/
def switchToExit (E : Platform) (st : Stack) (n : ℤ) (k : Kernel) : Option (Exit × Kernel) :=
  if k.getBitMap = 0x3F ∧ k.screen.numShells &&& (termMask n).toBitVec = 0 then some (.returned, k)
  else if k.screen.numShells &&& (termMask n).toBitVec = 0 then
    (sysExecute E st shellLine (startTerminal n k)).map fun
      | (.launched, k) => (.launched, k)
      | (_, k) => (.returned, k.setScreen (k.screen.showTerminal n))
  else some (.returned, k.setScreen (k.screen.showTerminal n))

/-- `screenChange`, with the way it is left. -/
def screenChangeExit (E : Platform) (st : Stack) (newScreen : ℤ) (k : Kernel) : Option (Exit × Kernel) :=
  if newScreen ≠ k.screen.currentTerminal ∧ IsTerminal newScreen then
    switchToExit E st newScreen
      (if IsTerminal k.screen.currentTerminal then k.setScreen k.screen.saveCurrent else k.printf differentTerminal)
  else (screenChange E st newScreen k).map (.returned, ·)

/-- A block of `keyboard_handler`. -/
def keyExit (E : Platform) (st : Stack) : KeyEvent → Kernel → Option (Exit × Kernel)
  | .switch n, k => screenChangeExit E st n k
  | e, k => (keyStep E st e k).map (.returned, ·)

/-- The blocks of `keyboard_handler`, until one of them does not come back. -/
def keysExit (E : Platform) (st : Stack) : List KeyEvent → Kernel → Option (Exit × Kernel)
  | [], k => some (.returned, k)
  | e :: es, k => (keyExit E st e k).bind fun
    | (.returned, k) => keysExit E st es k
    | left => some left

/-- `keyboard_handler`. -/
def keyboardExit (E : Platform) (st : Stack) (reads : List UInt8) (g : KeyMap) (k : Kernel) :
    Option (Exit × KeyMap × Kernel) :=
  (keyEvents g reads).bind fun r => (keysExit E st r.1 k).map fun
    | (.returned, k) => (.returned, r.2, k.sendEoi 1)
    | (x, k) => (x, r.2, k)

inductive Interrupt where
  | pit
  | rtc
  | keyboard (st : Stack) (reads : List UInt8)

namespace Interrupt

/-- The lines that are in service.  The clock is at the second controller, which is at line 2 of the first. -/
def lines : Interrupt → List ℕ
  | pit => [0]
  | rtc => [8, 2]
  | keyboard _ _ => [1]

def deliver (i : Interrupt) (k : Kernel) : Kernel := i.lines.foldl (fun k line => k.raise line) k

def handle (E : Platform) (g : KeyMap) : Interrupt → Kernel → Option (Exit × KeyMap × Kernel)
  | pit, k => (pitExit E k).map fun r => (r.1, g, r.2)
  | rtc, k => some (.returned, g, rtcHandler k)
  | keyboard st reads, k => keyboardExit E st reads g k

end Interrupt

/-! ### What is acknowledged -/

/-- The lines are not in service in `k'`, and the others are as in `k`. -/
def Kernel.Acks (k : Kernel) (lines : List ℕ) (k' : Kernel) : Prop :=
  ∀ i, k'.isr i = if i ∈ lines then false else k.isr i

section Acks

variable {E : Platform} {st : Stack} {k k' : Kernel}

theorem sendEoi_isr {line : ℕ} (hline : line < 8) (k : Kernel) :
    (k.sendEoi line).isr = Function.update k.isr line false := by
  rw [Kernel.sendEoi, if_pos (by omega), if_neg (by omega)]

theorem acks_singleton {line : ℕ} (hclear : k'.isr line = false) (hothers : ∀ i, i ≠ line → k'.isr i = k.isr i) :
    k.Acks [line] k' := by
  intro i
  by_cases hi : i = line
  · rw [hi, hclear, if_pos (List.mem_singleton.mpr rfl)]
  · rw [hothers i hi, if_neg (by simpa using hi)]

/-- An acknowledgement takes back that the line was raised. -/
theorem acks_of_sendEoi {line : ℕ} (hline : line < 8) {m : Kernel} (hm : ∀ i, i ≠ line → m.isr i = k.isr i) :
    k.Acks [line] (m.sendEoi line) := by
  refine acks_singleton ?_ fun i hi => ?_
  · rw [sendEoi_isr hline, Function.update_self]
  · rw [sendEoi_isr hline, Function.update_of_ne hi, hm i hi]

theorem raise_isr_of_ne {line i : ℕ} (hi : i ≠ line) (k : Kernel) : (k.raise line).isr i = k.isr i :=
  Function.update_of_ne hi ..

/-- A line that is not in service can be acknowledged again. -/
theorem sendEoi_of_clear {line : ℕ} (hline : line < 8) (hclear : k.isr line = false) : k.sendEoi line = k := by
  obtain ⟨isr, heq⟩ := k.sendEoi_eq line
  have hisr := sendEoi_isr hline k
  rw [← hclear, Function.update_eq_self] at hisr
  rw [heq] at hisr ⊢
  rw [show isr = k.isr from hisr]

theorem enterProcess_isr (free : ℕ) (progImg args : Mem) (k : Kernel) :
    (enterProcess free progImg args k).isr = k.isr := by
  unfold enterProcess
  extract_lets oldPcb k1 k2 k3 k4 k5 k6 k7 k8 k9 k10 k11 k12 k13 k14
  have hexit : k6.isr = k4.isr := by
    dsimp only [k6]
    split <;> rfl
  have hparent : k8.isr = k6.isr := by
    dsimp only [k8]
    split <;> rfl
  have hfirst : k13.isr = k12.isr := by
    dsimp only [k13]
    split <;> rfl
  exact hfirst.trans (hparent.trans hexit)

theorem sysExecute_isr {command : List UInt8} {o : Outcome} (h : sysExecute E st command k = some (o, k')) :
    k'.isr = k.isr := by
  obtain ⟨-, rfl, -⟩ | ⟨r, free, -, -, -, -, -, rfl⟩ := sysExecute_cases h
  · rfl
  · rw [enterProcess_isr]
    rfl

theorem startTerminal_isr (n : ℤ) (k : Kernel) : (startTerminal n k).isr = Function.update k.isr 1 false :=
  sendEoi_isr (by decide) _

/-- How a block of the keyboard handler is left: with the line acknowledged if it does not come back. -/
structure KeyLeft (k : Kernel) (x : Exit) (k' : Kernel) : Prop where
  others : ∀ i, i ≠ 1 → k'.isr i = k.isr i
  stays : x ≠ .switched
  launched : x = .launched → k'.isr 1 = false

theorem KeyLeft.of_isr_eq (h : k'.isr = k.isr) : KeyLeft k .returned k' :=
  ⟨fun i _ => congrFun h i, by decide, fun hx => absurd hx (by decide)⟩

theorem switchToExit_left {n : ℤ} {x : Exit} (h : switchToExit E st n k = some (x, k')) : KeyLeft k x k' := by
  rw [switchToExit] at h
  split at h
  · cases h
    exact .of_isr_eq rfl
  split at h
  · obtain ⟨⟨o, m⟩, hexec, hleft⟩ := Option.map_eq_some_iff.mp h
    have hisr : m.isr = Function.update k.isr 1 false := (sysExecute_isr hexec).trans (startTerminal_isr n k)
    have hothers : ∀ i, i ≠ 1 → m.isr i = k.isr i := fun i hi => by rw [hisr, Function.update_of_ne hi]
    cases o with
    | launched =>
      cases hleft
      exact ⟨hothers, by decide, fun _ => by rw [hisr, Function.update_self]⟩
    | ret v =>
      cases hleft
      exact ⟨hothers, by decide, fun hx => absurd hx (by decide)⟩
    | resumed v =>
      cases hleft
      exact ⟨hothers, by decide, fun hx => absurd hx (by decide)⟩
  · cases h
    exact .of_isr_eq rfl

/-- Without a switch to another terminal only the screen and the line buffer change. -/
theorem screenChange_isr {n : ℤ} (hstay : ¬(n ≠ k.screen.currentTerminal ∧ IsTerminal n))
    (h : screenChange E st n k = some k') : k'.isr = k.isr := by
  cases screenChange_cases h with
  | again | lost | higher => rfl
  | shown hne hstarted => exact absurd ⟨hne, hstarted.1⟩ hstay
  | refused hne hn | opened hne hn => exact absurd ⟨hne, hn⟩ hstay

theorem screenChangeExit_left {n : ℤ} {x : Exit} (h : screenChangeExit E st n k = some (x, k')) : KeyLeft k x k' := by
  rw [screenChangeExit] at h
  split at h
  · have hleft := switchToExit_left h
    split at hleft
    · exact ⟨hleft.others, hleft.stays, hleft.launched⟩
    · exact ⟨hleft.others, hleft.stays, hleft.launched⟩
  · rename_i hstay
    obtain ⟨m, hm, heq⟩ := Option.map_eq_some_iff.mp h
    cases heq
    exact .of_isr_eq (screenChange_isr hstay hm)

theorem typed_isr (c : UInt8) (k : Kernel) : (k.typed c).isr = k.isr := by
  have hinsert : (k.insert c).2.isr = k.isr := by rw [insert_tty]
  rw [Kernel.typed]
  dsimp only
  split
  · exact hinsert
  · exact hinsert

theorem erased_isr (k : Kernel) : k.erased.isr = k.isr := by
  have hback : k.backspacebuf.2.isr = k.isr := by rw [backspacebuf_tty]
  rw [Kernel.erased]
  dsimp only
  split
  · exact hback
  · exact hback

theorem cleared_isr (k : Kernel) : k.cleared.isr = k.isr := by
  rw [Kernel.cleared]
  rfl

theorem keyExit_left {e : KeyEvent} {x : Exit} (h : keyExit E st e k = some (x, k')) : KeyLeft k x k' := by
  cases e with
  | letter c =>
    cases h
    exact .of_isr_eq (typed_isr c k)
  | backspace =>
    cases h
    exact .of_isr_eq (erased_isr k)
  | clear =>
    cases h
    exact .of_isr_eq (cleared_isr k)
  | switch n => exact screenChangeExit_left h

/-- The blocks of a whole key press. -/
theorem keysExit_left {events : List KeyEvent} {x : Exit} (h : keysExit E st events k = some (x, k')) :
    KeyLeft k x k' := by
  induction events generalizing k with
  | nil =>
    cases h
    exact .of_isr_eq rfl
  | cons e es ih =>
    obtain ⟨⟨y, m⟩, he, hrest⟩ := Option.bind_eq_some_iff.mp h
    have hleft := keyExit_left he
    cases y with
    | returned =>
      have hnext := ih hrest
      exact ⟨fun i hi => (hnext.others i hi).trans (hleft.others i hi), hnext.stays, hnext.launched⟩
    | switched => exact absurd rfl hleft.stays
    | launched =>
      cases hrest
      exact hleft

/-- `schedule` leaves the lines to `pit_handler` if it selects the running process again, and acknowledges the tick
itself if it goes on with another stack. -/
theorem schedule_isr (h : schedule E k = some k') :
    k'.pcb = k.pcb ∧ k'.isr = k.isr ∨ k'.isr = Function.update k.isr 0 false := by
  have hsearch := h
  rw [schedule] at hsearch
  obtain ⟨p, hp, -⟩ := Option.map_eq_some_iff.mp hsearch
  rw [schedule_eq k hp, Option.some_inj] at h
  subst h
  split
  · exact Or.inl ⟨rfl, rfl⟩
  · exact Or.inr (sendEoi_isr (by decide) _)

theorem schedule_isr_of_moved (h : schedule E k = some k') (hmoved : k'.pcb ≠ k.pcb) : k'.isr 0 = false := by
  rcases schedule_isr h with ⟨hsame, -⟩ | hisr
  · exact absurd hsame hmoved
  · rw [hisr, Function.update_self]

theorem schedule_isr_of_ne {i : ℕ} (h : schedule E k = some k') (hi : i ≠ 0) : k'.isr i = k.isr i := by
  rcases schedule_isr h with ⟨-, hisr⟩ | hisr
  · rw [hisr]
  · rw [hisr, Function.update_of_ne hi]

theorem pitExit_acks {x : Exit} (h : pitExit E (k.raise 0) = some (x, k')) : k.Acks [0] k' := by
  rw [pitExit] at h
  split at h
  · obtain ⟨m, hm, heq⟩ := Option.map_eq_some_iff.mp h
    have hothers : ∀ i, i ≠ 0 → m.isr i = k.isr i := fun i hi =>
      (schedule_isr_of_ne hm hi).trans (raise_isr_of_ne hi k)
    split at heq
    · cases heq
      exact acks_of_sendEoi (by decide) hothers
    · rename_i hmoved
      cases heq
      exact acks_singleton (schedule_isr_of_moved hm hmoved) hothers
  · cases h
    exact acks_of_sendEoi (by decide) fun i hi => raise_isr_of_ne hi k

theorem rtcHandler_acks (k : Kernel) : k.Acks [8, 2] (rtcHandler (Interrupt.rtc.deliver k)) := by
  intro i
  show Function.update (Function.update (Function.update (Function.update k.isr 8 true) 2 true) 8 false) 2 false i = _
  by_cases htwo : i = 2
  · rw [htwo]
    simp
  by_cases height : i = 8
  · rw [height]
    simp
  · simp [htwo, height]

theorem keyboardExit_acks {g g' : KeyMap} {reads : List UInt8} {x : Exit}
    (h : keyboardExit E st reads g (k.raise 1) = some (x, g', k')) : k.Acks [1] k' := by
  obtain ⟨⟨events, g₁⟩, -, hrest⟩ := Option.bind_eq_some_iff.mp h
  obtain ⟨⟨y, m⟩, hkeys, heq⟩ := Option.map_eq_some_iff.mp hrest
  have hleft := keysExit_left hkeys
  have hothers : ∀ i, i ≠ 1 → m.isr i = k.isr i := fun i hi => (hleft.others i hi).trans (raise_isr_of_ne hi k)
  cases y with
  | returned =>
    cases heq
    exact acks_of_sendEoi (by decide) hothers
  | switched => exact absurd rfl hleft.stays
  | launched =>
    cases heq
    exact acks_singleton (hleft.launched rfl) hothers

/-- **Every exit of every handler has acknowledged the lines of the interrupt**, and no other line. -/
theorem Interrupt.handle_acknowledges {g g' : KeyMap} {i : Interrupt} {x : Exit}
    (h : i.handle E g (i.deliver k) = some (x, g', k')) : k.Acks i.lines k' := by
  cases i with
  | pit =>
    obtain ⟨⟨y, m⟩, hexit, heq⟩ := Option.map_eq_some_iff.mp h
    cases heq
    exact pitExit_acks hexit
  | rtc =>
    cases h
    exact rtcHandler_acks k
  | keyboard st reads => exact keyboardExit_acks h

end Acks

/-! ### The handlers of the machine and the console -/

section Handlers

variable {E : Platform} {st : Stack} {g g' : KeyMap} {reads : List UInt8} {events : List KeyEvent}

/-- Where the tick is not assumed to come back to `pit_handler`, a second acknowledgement would change nothing. -/
theorem pitExit_snd (E : Platform) (k : Kernel) : (pitExit E k).map Prod.snd = pitHandler E k := by
  rw [pitExit, pitHandler]
  split
  · cases hsched : schedule E k with
    | none => rfl
    | some m =>
      rw [Option.map_some, Option.map_some, Option.map_some]
      split
      · rfl
      · rename_i hmoved
        exact congrArg some (sendEoi_of_clear (by decide) (schedule_isr_of_moved hsched hmoved)).symm
  · rfl

theorem switchToExit_snd (E : Platform) (st : Stack) (n : ℤ) (k : Kernel) :
    (switchToExit E st n k).map Prod.snd = switchTo E st n k := by
  rw [switchToExit, switchTo, switchToWith, ← sysExecute]
  split
  · rfl
  split
  · cases sysExecute E st shellLine (startTerminal n k) with
    | none => rfl
    | some r =>
      obtain ⟨o, m⟩ := r
      cases o <;> rfl
  · rfl

theorem screenChangeExit_snd (E : Platform) (st : Stack) (n : ℤ) (k : Kernel) :
    (screenChangeExit E st n k).map Prod.snd = screenChange E st n k := by
  rw [screenChangeExit]
  split
  · rename_i hswitch
    rw [switchToExit_snd, screenChange, screenChangeWith, if_neg hswitch.1]
    dsimp only
    rw [if_pos hswitch.2, switchTo]
  · rw [Option.map_map]
    exact Option.map_id'

/-! A key press switches the terminal, or it does other things: a switch is the only block of its press. -/

def KeyEvent.IsLetter (e : KeyEvent) : Prop := ∃ c, e = .letter c

theorem shifted_letters (g : KeyMap) (scancode : UInt8) : ∀ e ∈ shifted g scancode, e.IsLetter := by
  intro e he
  rw [shifted] at he
  split at he
  · split at he
    · exact ⟨_, List.mem_singleton.mp he⟩
    · exact ⟨_, List.mem_singleton.mp he⟩
  · cases he

theorem capsShifted_letters (g : KeyMap) (scancode : UInt8) : ∀ e ∈ capsShifted g scancode, e.IsLetter := by
  intro e he
  rw [capsShifted] at he
  split at he
  · split at he
    · exact ⟨_, List.mem_singleton.mp he⟩
    · exact ⟨_, List.mem_singleton.mp he⟩
  · cases he

theorem shiftLoop_letters {unshift : UInt8} (h : shiftLoop g unshift reads = some events) :
    ∀ e ∈ events, e.IsLetter := by
  induction reads using shiftLoop.induct unshift generalizing events with
  | case1 => cases h
  | case2 =>
    rw [shiftLoop, if_pos rfl] at h
    cases h
    exact fun e he => absurd he List.not_mem_nil
  | case3 first hover =>
    rw [shiftLoop, if_neg hover] at h
    cases h
  | case4 first scancode reads hover =>
    rw [shiftLoop, if_pos hover] at h
    cases h
    exact fun e he => absurd he List.not_mem_nil
  | case5 first scancode reads hover ih =>
    rw [shiftLoop, if_neg hover] at h
    obtain ⟨rest, hrest, rfl⟩ := Option.map_eq_some_iff.mp h
    intro e he
    rcases List.mem_append.mp he with he | he
    · exact shifted_letters g scancode e he
    · exact ih hrest e he

theorem capsShiftLoop_letters {unshift : UInt8} (h : capsShiftLoop g unshift reads = some events) :
    ∀ e ∈ events, e.IsLetter := by
  induction reads using capsShiftLoop.induct unshift generalizing events with
  | case1 => cases h
  | case2 =>
    rw [capsShiftLoop, if_pos rfl] at h
    cases h
    exact fun e he => absurd he List.not_mem_nil
  | case3 first hover =>
    rw [capsShiftLoop, if_neg hover] at h
    cases h
  | case4 first second hover =>
    rw [capsShiftLoop, if_pos hover] at h
    cases h
    exact fun e he => absurd he List.not_mem_nil
  | case5 first second hover =>
    rw [capsShiftLoop, if_neg hover] at h
    cases h
  | case6 first second scancode reads hover =>
    rw [capsShiftLoop, if_pos hover] at h
    cases h
    exact fun e he => absurd he List.not_mem_nil
  | case7 first second scancode reads hover ih =>
    rw [capsShiftLoop, if_neg hover] at h
    obtain ⟨rest, hrest, rfl⟩ := Option.map_eq_some_iff.mp h
    intro e he
    rcases List.mem_append.mp he with he | he
    · exact capsShifted_letters g scancode e he
    · exact ih hrest e he

theorem pressedKey_letters {scancode : UInt8} (h : pressedKey g scancode reads = some events) :
    ∀ e ∈ events, e.IsLetter := by
  have hone : ∀ c, some [KeyEvent.letter c] = some events → ∀ e ∈ events, e.IsLetter := by
    intro c hc e he
    cases hc
    exact ⟨c, List.mem_singleton.mp he⟩
  rw [pressedKey] at h
  split at h
  · split at h
    · exact shiftLoop_letters h
    split at h
    · exact shiftLoop_letters h
    · exact hone _ h
  · split at h
    · exact capsShiftLoop_letters h
    split at h
    · exact capsShiftLoop_letters h
    split at h
    · exact hone _ h
    · exact hone _ h

theorem controlKey_cases (h : controlKey reads = some events) : events = [.clear] ∨ events = [] := by
  cases reads with
  | nil => cases h
  | cons next reads =>
    rw [controlKey] at h
    split at h
    · split at h
      · cases h
        exact Or.inl rfl
      · cases h
    · cases h
      exact Or.inr rfl

theorem altKey_cases (h : altKey reads = some events) : (∃ n, events = [.switch n]) ∨ events = [] := by
  cases reads with
  | nil => cases h
  | cons scancode reads =>
    rw [altKey] at h
    split at h
    · cases h
      exact Or.inl ⟨1, rfl⟩
    split at h
    · cases h
      exact Or.inl ⟨2, rfl⟩
    split at h
    · cases h
      exact Or.inl ⟨3, rfl⟩
    · cases h
      exact Or.inr rfl

/-- A switch is the only block of its key press. -/
theorem keyEvents_switches (h : keyEvents g reads = some (events, g')) :
    (∃ n, events = [.switch n]) ∨ ∀ e ∈ events, ∀ n, e ≠ .switch n := by
  have hnil : ∀ e ∈ ([] : List KeyEvent), ∀ n, e ≠ .switch n := fun e he => absurd he List.not_mem_nil
  have hone : ∀ a : KeyEvent, (∀ n, a ≠ .switch n) → ∀ e ∈ [a], ∀ n, e ≠ .switch n := by
    intro a ha e he
    rw [List.mem_singleton.mp he]
    exact ha
  cases reads with
  | nil => cases h
  | cons scancode reads =>
    rw [keyEvents] at h
    split at h
    · cases h
      exact Or.inr hnil
    split at h
    · cases h
      exact Or.inr hnil
    split at h
    · cases h
      exact Or.inr hnil
    split at h
    · obtain ⟨es, hes, heq⟩ := Option.map_eq_some_iff.mp h
      cases heq
      rcases controlKey_cases hes with rfl | rfl
      · exact Or.inr (hone _ fun n => by simp)
      · exact Or.inr hnil
    split at h
    · obtain ⟨es, hes, heq⟩ := Option.map_eq_some_iff.mp h
      cases heq
      rcases altKey_cases hes with hswitch | rfl
      · exact Or.inl hswitch
      · exact Or.inr hnil
    split at h
    · cases h
      exact Or.inr (hone _ fun n => by simp)
    split at h
    · obtain ⟨es, hes, heq⟩ := Option.map_eq_some_iff.mp h
      cases heq
      refine Or.inr fun e he n => ?_
      obtain ⟨c, rfl⟩ := pressedKey_letters hes e he
      simp
    · cases h
      exact Or.inr hnil

theorem keyExit_of_ne_switch {e : KeyEvent} (he : ∀ n, e ≠ .switch n) (k : Kernel) :
    keyExit E st e k = (keyStep E st e k).map (.returned, ·) := by
  cases e with
  | letter | backspace | clear => rfl
  | switch n => exact absurd rfl (he n)

/-- Without a switch every block comes back. -/
theorem keysExit_of_ne_switch (hevents : ∀ e ∈ events, ∀ n, e ≠ .switch n) (k : Kernel) :
    keysExit E st events k = (runs (keyStep E st) events k).map (.returned, ·) := by
  induction events generalizing k with
  | nil => rfl
  | cons e es ih =>
    rw [keysExit, keyExit_of_ne_switch (hevents e List.mem_cons_self), runs]
    cases keyStep E st e k with
    | none => rfl
    | some m => exact ih (fun e he => hevents e (List.mem_cons_of_mem _ he)) m

/-- **The keyboard handler of the console.**  It acknowledges once more after a launch, when the line is clear. -/
theorem keyboardExit_snd (E : Platform) (st : Stack) (reads : List UInt8) (g : KeyMap) (k : Kernel) :
    (keyboardExit E st reads g k).map Prod.snd = keyboardHandler E st reads g k := by
  rw [keyboardExit, keyboardHandler]
  cases hevents : keyEvents g reads with
  | none => rfl
  | some r =>
    obtain ⟨events, g'⟩ := r
    rw [Option.bind_some, Option.bind_some, Option.map_map]
    rcases keyEvents_switches hevents with ⟨n, rfl⟩ | hstay
    · have hsnd := screenChangeExit_snd E st n k
      rw [keysExit, keyExit, runs, keyStep, ← hsnd]
      cases hexit : screenChangeExit E st n k with
      | none => rfl
      | some left =>
        obtain ⟨x, m⟩ := left
        have hleft := screenChangeExit_left hexit
        cases x with
        | returned => rfl
        | switched => exact absurd rfl hleft.stays
        | launched =>
          have hclear := sendEoi_of_clear (by decide : 1 < 8) (hleft.launched rfl)
          show some (g', m) = some (g', m.sendEoi 1)
          rw [hclear]
    · rw [keysExit_of_ne_switch hstay, Option.map_map]
      rfl

/-! ### The handlers are left -/

/-- The shell is found and executable, so that executing it comes to an end. -/
theorem sysExecute_shell (hshell : ValidShell E.image) (st : Stack) (k : Kernel) :
    ∃ r, sysExecute E st shellLine k = some r := by
  obtain ⟨r, hr⟩ := hshell
  -- whether the check comes back does not depend on the free pids
  have hfree : freePid ({ k with pidBitmap := 0 } : Kernel).pidBitmap = some 0 := by
    show freePid 0 = some 0
    decide
  have hcheck : ¬checkExe E.image st (commandBuffers shellLine st.cmd).1 = none := by
    rw [← sysExecute_eq_none_iff (k := { k with pidBitmap := 0 }),
      ProgramAt.launches (firstWord_shellLine.symm ▸ hr) hfree]
    exact Option.some_ne_none _
  exact Option.ne_none_iff_exists'.mp (mt sysExecute_eq_none_iff.mp hcheck)

theorem switchToExit_ends (hshell : ValidShell E.image) (st : Stack) (n : ℤ) (k : Kernel) :
    ∃ r, switchToExit E st n k = some r := by
  rw [switchToExit]
  split
  · exact ⟨_, rfl⟩
  split
  · obtain ⟨r, hr⟩ := sysExecute_shell hshell st (startTerminal n k)
    rw [hr]
    exact ⟨_, rfl⟩
  · exact ⟨_, rfl⟩

theorem keyExit_ends (hshell : ValidShell E.image) (st : Stack) (e : KeyEvent) (k : Kernel) :
    ∃ r, keyExit E st e k = some r := by
  cases e with
  | letter | backspace | clear => exact ⟨_, rfl⟩
  | switch n =>
    rw [keyExit, screenChangeExit]
    split
    · exact switchToExit_ends hshell st n _
    · rename_i hstay
      rw [screenChange, screenChangeWith]
      split
      · split
        · exact ⟨_, rfl⟩
        · exact ⟨_, rfl⟩
      · rename_i hne
        dsimp only
        rw [if_neg fun hn => hstay ⟨hne, hn⟩]
        exact ⟨_, rfl⟩

theorem keysExit_ends (hshell : ValidShell E.image) (st : Stack) (events : List KeyEvent) (k : Kernel) :
    ∃ r, keysExit E st events k = some r := by
  induction events generalizing k with
  | nil => exact ⟨_, rfl⟩
  | cons e es ih =>
    obtain ⟨⟨x, m⟩, he⟩ := keyExit_ends hshell st e k
    rw [keysExit, he, Option.bind_some]
    cases x with
    | returned => exact ih m
    | switched | launched => exact ⟨_, rfl⟩

/-- The keys that the handler waits for are pressed and released. -/
def Interrupt.Fed (g : KeyMap) : Interrupt → Prop
  | .keyboard _ reads => (keyEvents g reads).isSome
  | .pit | .rtc => True

theorem Interrupt.handle_ends (hshell : ValidShell E.image) {k : Kernel} (hk : k.Sound) {i : Interrupt}
    (hfed : i.Fed g) : ∃ r, i.handle E g (i.deliver k) = some r := by
  cases i with
  | pit =>
    obtain ⟨σ, hσ⟩ := hk.tracks
    obtain ⟨k', hk'⟩ := tick_returns (E := E) hσ
    have hsnd : (pitExit E (k.raise 0)).map Prod.snd = some k' := (pitExit_snd E (k.raise 0)).trans hk'
    obtain ⟨r, hr, -⟩ := Option.map_eq_some_iff.mp hsnd
    exact ⟨_, Option.map_eq_some_iff.mpr ⟨r, hr, rfl⟩⟩
  | rtc => exact ⟨_, rfl⟩
  | keyboard st reads =>
    obtain ⟨r, hr⟩ := Option.isSome_iff_exists.mp hfed
    obtain ⟨left, hleft⟩ := keysExit_ends hshell st r.1 (k.raise 1)
    exact ⟨_, Option.bind_eq_some_iff.mpr ⟨r, hr, Option.map_eq_some_iff.mpr ⟨left, hleft, rfl⟩⟩⟩

end Handlers

/-- Only ticks and switches touch the controllers. -/
theorem Effect.keeps_isr {E : Platform} {k k' : Kernel} {a : Action} (h : Effect E k a k')
    (ha : ¬a.Interrupts) : k'.isr = k.isr := by
  cases h with
  | screen | run | store | vidmap | call | replace | back => rfl
  | start | reselect | switch => exact absurd trivial ha

theorem Kernel.Sound.rtcInterrupt {k : Kernel} (h : k.Sound) : (ClosKernel.rtcInterrupt k).Sound := by
  obtain ⟨isr, count, heq⟩ := rtcInterrupt_eq k
  obtain ⟨σ, hσ⟩ := h.tracks
  rw [heq]
  exact ⟨⟨σ, hσ.rtc_only isr _⟩, h.screen, h.index⟩

/-! ### The system -/

/-- The console, and who is inside `rtc_read`: for the PCB of such a process, whether an RTC interrupt came since. -/
structure Board where
  console : Console
  waiting : ℕ → Option Bool

/-- What the running process does, rather than an interrupt. -/
def ConsoleAction.OfProcess : ConsoleAction → Prop
  | .machine a => ¬a.Interrupts
  | .tRead _ _ _ | .advance _ => True
  | .keyboard _ _ => False

instance : DecidablePred ConsoleAction.OfProcess
  | .machine a => inferInstanceAs (Decidable (¬a.Interrupts))
  | .tRead _ _ _ | .advance _ => isTrue trivial
  | .keyboard _ _ => isFalse id

inductive BoardAction where
  | interrupt (i : Interrupt)
  | process (a : ConsoleAction)
  /-- The running process enters `rtc_read`. -/
  | rtcEnter
  /-- The running process, inside `rtc_read`, looks at the flag. -/
  | rtcPoll

/-- The processes inside `rtc_read` after an interrupt. -/
def Interrupt.wakes : Interrupt → (ℕ → Option Bool) → ℕ → Option Bool
  | .rtc, waiting => fun p => (waiting p).map fun _ => true
  | .pit, waiting | .keyboard _ _, waiting => waiting

namespace Board

/-- A step of the running process in `rtc_read`. -/
def clock (E : Platform) (a : RtcAction) (s : Board) : Option Board :=
  (RtcWait.step E a ⟨s.console.kernel, s.waiting⟩).map fun w => ⟨{ s.console with kernel := w.kernel }, w.inside⟩

/-- A handler runs with interrupts off, from its delivery to its exit. -/
def step (E : Platform) : BoardAction → Board → Option Board
  | .interrupt i, s =>
    if s.console.interruptible then
      (i.handle E s.console.getChar (i.deliver s.console.kernel)).map fun r =>
        ⟨{ s.console with kernel := r.2.2, getChar := r.2.1 }, i.wakes s.waiting⟩
    else none
  | .process a, s =>
    if a.OfProcess ∧ s.waiting s.console.kernel.pcb = none then
      (Console.step E a s.console).map fun c => { s with console := c }
    else none
  | .rtcEnter, s => if (s.console.inside s.console.kernel.pcb).isNone then s.clock E .enter else none
  | .rtcPoll, s => s.clock E .poll

/-- `s` can be reached from power-on by the actions `as`.  The controllers start with no line in service. -/
def Reaches (E : Platform) (as : List BoardAction) (s : Board) : Prop :=
  ∃ k₀ st b g, (PowerOn k₀ ∧ k₀.TtyPowerOn ∧ ∀ line, k₀.isr line = false) ∧ boot E st k₀ = some b ∧ KeyMap.Loaded g ∧
    runs (step E) as ⟨⟨b, g, fun _ => none⟩, fun _ => none⟩ = some s

/-- The console is sound, and no line is in service. -/
structure Quiet (s : Board) : Prop where
  sound : s.console.Sound
  clear : ∀ line, s.console.kernel.isr line = false

variable {E : Platform} {s s' : Board}

theorem handle_sound (hshell : ValidShell E.image) {c : Console} (h : c.Sound) {i : Interrupt} {x : Exit} {g : KeyMap}
    {k : Kernel} (hhandle : i.handle E c.getChar (i.deliver c.kernel) = some (x, g, k)) :
    Console.Sound { c with kernel := k, getChar := g } := by
  cases i with
  | pit =>
    obtain ⟨⟨y, m⟩, hexit, heq⟩ := Option.map_eq_some_iff.mp hhandle
    cases heq
    have htick : ClosKernel.step E .tick c.kernel = some m := by
      show pitHandler E (c.kernel.raise 0) = some m
      rw [← pitExit_snd]
      exact Option.map_eq_some_iff.mpr ⟨_, hexit, rfl⟩
    exact ⟨h.kernel.step hshell htick, h.table⟩
  | rtc =>
    cases hhandle
    exact ⟨h.kernel.rtcInterrupt, h.table⟩
  | keyboard st reads =>
    have hint : c.interrupt E st reads = some { c with kernel := k, getChar := g } := by
      rw [Console.interrupt, ← keyboardExit_snd]
      exact Option.map_eq_some_iff.mpr ⟨(g, k), Option.map_eq_some_iff.mpr ⟨_, hhandle, rfl⟩, rfl⟩
    exact Console.interrupt_sound hshell h hint

theorem process_isr (hshell : ValidShell E.image) {c c' : Console} (h : c.Sound) {a : ConsoleAction}
    (hprocess : a.OfProcess) (hstep : Console.step E a c = some c') : c'.kernel.isr = c.kernel.isr := by
  cases a with
  | keyboard st reads => exact absurd hprocess id
  | machine a =>
    rw [Console.step] at hstep
    split at hstep
    · obtain ⟨k, hk, rfl⟩ := Option.map_eq_some_iff.mp hstep
      obtain ⟨σ, hσ⟩ := h.kernel.tracks
      exact (step_effect hshell hσ hk).keeps_isr hprocess
    · cases hstep
  | tRead scancode buf nbytes =>
    rw [Console.step] at hstep
    split at hstep
    · cases hstep
      rfl
    · cases hstep
  | advance code =>
    obtain ⟨r, -, rfl⟩ := Option.map_eq_some_iff.mp hstep
    show (r.advance code c.kernel).2.isr = c.kernel.isr
    rcases r.advance_kernel code c.kernel with heq | heq | ⟨n, heq⟩
    · rw [heq]
    · rw [heq, Kernel.cutLine]
      split
      · rfl
      · rfl
    · rw [heq]
      rfl

theorem clock_quiet (h : s.Quiet) {a : RtcAction} (ha : a = .enter ∨ a = .poll) (hstep : s.clock E a = some s') :
    s'.Quiet := by
  obtain ⟨w, hw, rfl⟩ := Option.map_eq_some_iff.mp hstep
  obtain ⟨σ, hσ⟩ := h.sound.kernel.tracks
  rcases ha with rfl | rfl
  · rw [RtcWait.step] at hw
    split at hw
    · cases hw
      refine ⟨⟨⟨⟨σ, hσ.rtc_only s.console.kernel.isr _⟩, ?_, ?_⟩, h.sound.table⟩, h.clear⟩
      · exact h.sound.kernel.screen
      · exact h.sound.kernel.index
    · cases hw
  · rw [RtcWait.step] at hw
    split at hw
    · cases hw
    split at hw
    · cases hw
      exact ⟨h.sound, h.clear⟩
    · cases hw
      exact ⟨h.sound, h.clear⟩

/-- **One step leaves no line in service.** -/
theorem step_quiet (hshell : ValidShell E.image) (h : s.Quiet) {a : BoardAction} (hstep : step E a s = some s') :
    s'.Quiet := by
  cases a with
  | interrupt i =>
    rw [step] at hstep
    split at hstep
    · obtain ⟨⟨x, g, k⟩, hhandle, rfl⟩ := Option.map_eq_some_iff.mp hstep
      refine ⟨handle_sound hshell h.sound hhandle, fun line => ?_⟩
      have hacks := Interrupt.handle_acknowledges hhandle line
      rw [h.clear line, ite_self] at hacks
      exact hacks
    · cases hstep
  | process a =>
    rw [step] at hstep
    split at hstep
    · rename_i hprocess
      obtain ⟨c, hc, rfl⟩ := Option.map_eq_some_iff.mp hstep
      refine ⟨Console.step_sound hshell h.sound hc, fun line => ?_⟩
      rw [show c.kernel.isr = s.console.kernel.isr from process_isr hshell h.sound hprocess.1 hc]
      exact h.clear line
    · cases hstep
  | rtcEnter =>
    rw [step] at hstep
    split at hstep
    · exact clock_quiet h (Or.inl rfl) hstep
    · cases hstep
  | rtcPoll => exact clock_quiet h (Or.inr rfl) hstep

/-- **No line is in service in a reachable state.** -/
theorem reaches_quiet (hshell : ValidShell E.image) {as : List BoardAction} (hreach : Reaches E as s) : s.Quiet := by
  obtain ⟨k₀, st, b, g, ⟨hpower, htty, hisr⟩, hboot, hg, hrun⟩ := hreach
  refine runs_invariant (P := Quiet) (fun _ _ _ hs hstep => step_quiet hshell hs hstep) ⟨?_, fun line => ?_⟩ hrun
  · exact Console.booted_sound hshell hpower htty hboot hg _
  · obtain ⟨r, hr⟩ := hshell
    rw [boot_eq st hr hpower, Option.some_inj] at hboot
    subst hboot
    exact hisr line

end Board

/-- **No interrupt is left unacknowledged.**  In every reachable state no line is in service, and an interrupt is
handled to one of the exits, if the keys come that the handler waits for.  Whichever exit that is, and from whatever
state, the lines of the interrupt are not in service there, and the others are as they were.  The handlers run with
interrupts off, so nothing sets a line before a program runs again. -/
theorem interrupts_acknowledged {E : Platform} (hshell : ValidShell E.image) {as : List BoardAction} {s : Board}
    (hreach : Board.Reaches E as s) (i : Interrupt) :
    (∀ line, s.console.kernel.isr line = false) ∧
    (i.Fed s.console.getChar →
      ∃ x g k, i.handle E s.console.getChar (i.deliver s.console.kernel) = some (x, g, k)) ∧
    ∀ k g x g' k', i.handle E g (i.deliver k) = some (x, g', k') → k.Acks i.lines k' := by
  have hquiet := Board.reaches_quiet hshell hreach
  refine ⟨hquiet.clear, fun hfed => ?_, fun k g x g' k' hhandle => Interrupt.handle_acknowledges hhandle⟩
  obtain ⟨⟨x, g, k⟩, hr⟩ := Interrupt.handle_ends hshell hquiet.sound.kernel hfed
  exact ⟨x, g, k, hr⟩

/-- Alt and F2 start a shell on the second terminal, and the tick after it goes back to the first. -/
theorem interrupts_acknowledged_launch : ∃ s x g k,
    Board.Reaches twoProgramPlatform [.interrupt (.keyboard default [alt, f2])] s ∧
    Interrupt.pit.handle twoProgramPlatform s.console.getChar (Interrupt.pit.deliver s.console.kernel)
      = some (x, g, k) ∧ x = .switched ∧ k.isr 0 = false := by
  have heval : ((boot twoProgramPlatform default consoleKernel).any fun b =>
      ((Interrupt.keyboard default [alt, f2]).handle twoProgramPlatform loadedKeys
        ((Interrupt.keyboard default [alt, f2]).deliver b)).any fun left => decide (left.1 = .launched) &&
          (Interrupt.pit.handle twoProgramPlatform left.2.1 (Interrupt.pit.deliver left.2.2)).any fun r =>
            decide (r.1 = .switched)) = true := by
    decide +kernel
  simp only [Option.any_eq_true, Bool.and_eq_true, decide_eq_true_eq] at heval
  obtain ⟨b, hboot, ⟨y, g, m⟩, hlaunch, -, ⟨x, g', k⟩, htick, hswitch⟩ := heval
  have hreach : Board.Reaches twoProgramPlatform [.interrupt (.keyboard default [alt, f2])]
      ⟨⟨m, g, fun _ => none⟩, fun _ => none⟩ := by
    refine ⟨consoleKernel, default, b, loadedKeys, ⟨consoleKernel_powerOn.1, consoleKernel_powerOn.2, fun _ => rfl⟩,
      hboot, fun _ _ => rfl, runs_cons_eq_some.mpr ⟨_, ?_, rfl⟩⟩
    exact Option.map_eq_some_iff.mpr ⟨_, hlaunch, rfl⟩
  exact ⟨_, x, g', k, hreach, htick, hswitch,
    (interrupts_acknowledged twoProgramPlatform_shell hreach .pit).2.2 m g x g' k htick 0⟩

end ClosKernel
