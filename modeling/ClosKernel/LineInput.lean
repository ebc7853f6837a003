import ClosKernel.Lib.LineEditor
import ClosKernel.Stream
import ClosKernel.Console

/-!
# Reading a line (`tRead` among key presses, ticks and other processes)

`tRead` waits until the last byte of its terminal's line is a line break, leaves the loop, copies the line and returns
its length, and looks at the line anew each time.  Keys may come between any two of these steps.

* `LineHolds` — the buffer of a terminal holds a line; what the handler's stores do to it;
* `Kernel.Collects`, `keyStep_collects` — the line of a waiting process is the edited line of the keys that its
  terminal got since the call, whatever else the keyboard does;
* `Console.Serves`, `Console.step_serves` — **the invariant of a call**, for every step of the console;
* `tRead_delivers_line` — **a call returns the first line and nothing else**, as long as no key comes between the line
  break and the return;
* `tRead_of_run` — the pieces of a call, among whatever else happens, are one call of `tRead`.
-/

namespace ClosKernel

open PartialRun LineEditor

/-! ### Lines and keys -/

def lineFeed : UInt8 := 0x0A

/-- The keys that a block of the keyboard handler delivers, with the terminal they go to. -/
def keyOf : KeyEvent → Kernel → List (ℤ × Key UInt8)
  | .letter c, k => [(k.screen.currentTerminal, .char c)]
  | .backspace, k => [(k.screen.currentTerminal, .erase)]
  | .clear, _ | .switch _, _ => []

/-- The keys that an action delivers. -/
def Console.delivered (E : Platform) : ConsoleAction → Console → List (ℤ × Key UInt8)
  | .keyboard st reads, s =>
    ((keyEvents s.getChar reads).map fun r => emitted (keyStep E st) keyOf r.1 (s.kernel.raise 1)).getD []
  | .machine _, _ | .tRead _ _ _, _ | .advance _, _ => []

/-- The keys that terminal `t` gets along a run. -/
def Console.keysTo (E : Platform) (t : ℤ) (as : List ConsoleAction) (s : Console) : List (Key UInt8) :=
  addressed t (emitted (Console.step E) (Console.delivered E) as s)

/-- The line of terminal `t` holds the bytes `l`. -/
structure Kernel.LineHolds (k : Kernel) (t : ℤ) (l : List UInt8) : Prop where
  idx : k.tty.idx (t - 1) = l.length
  bytes : bytesBelow (k.line t) l.length = l

/-- The last byte of the line of terminal `t` is a line break. -/
def Kernel.LineEnded (k : Kernel) (t : ℤ) : Prop :=
  0 < k.tty.idx (t - 1) ∧ k.tty.tbuf (bufsize * (t - 1) + (k.tty.idx (t - 1) - 1)) = lineFeed

instance (k : Kernel) (t : ℤ) : Decidable (k.LineEnded t) := inferInstanceAs (Decidable (_ ∧ _))

theorem bytesBelow_succ (m : Mem) (n : ℕ) : bytesBelow m (n + 1) = bytesBelow m n ++ [m n] := by
  rw [bytesBelow, List.range_succ, List.map_append]
  rfl

/-- A line without its last byte. -/
theorem bytesBelow_dropLast {m : Mem} {l : List UInt8} (h : bytesBelow m l.length = l) :
    bytesBelow m l.dropLast.length = l.dropLast := by
  rcases List.eq_nil_or_concat l with rfl | ⟨l, c, rfl⟩
  · rfl
  · rw [List.concat_eq_append, List.length_append, List.length_singleton, bytesBelow_succ] at h
    rw [List.concat_eq_append, List.dropLast_concat]
    exact (List.append_inj' h rfl).1

namespace Kernel.LineHolds

variable {k k' : Kernel} {t : ℤ} {l : List UInt8}

/-- The same bytes and the same index. -/
theorem congr (h : k.LineHolds t l) (hidx : k'.tty.idx (t - 1) = k.tty.idx (t - 1))
    (hbytes : ∀ i < l.length, k'.line t i = k.line t i) : k'.LineHolds t l :=
  ⟨hidx.trans h.idx, (bytesBelow_congr hbytes).trans h.bytes⟩

theorem of_tty (h : k.LineHolds t l) (htty : k'.tty = k.tty) : k'.LineHolds t l :=
  h.congr (by rw [htty]) fun i _ => by rw [Kernel.line, Kernel.line, htty]

/-- A store that misses the bytes of the line. -/
theorem of_update (h : k.LineHolds t l) {off : ℤ} {c : UInt8} (hidx : k'.tty.idx (t - 1) = k.tty.idx (t - 1))
    (htbuf : k'.tty.tbuf = Function.update k.tty.tbuf off c)
    (hoff : ∀ i < l.length, bufsize * (t - 1) + (i : ℕ) ≠ off) : k'.LineHolds t l := by
  refine h.congr hidx fun i hi => ?_
  rw [Kernel.line, htbuf]
  exact Function.update_of_ne (hoff i hi) _ _

theorem byte (h : k.LineHolds t l) {i : ℕ} (hi : i < l.length) : l[i] = k.line t i := by
  have hbytes := h.bytes
  have hget : (bytesBelow (k.line t) l.length)[i]? = some (k.line t i) := by
    rw [bytesBelow, List.getElem?_map, List.getElem?_range hi]
    rfl
  rw [hbytes, List.getElem?_eq_getElem hi] at hget
  exact Option.some_inj.mp hget

/-- The end of the line is the end of what it holds. -/
theorem ended_iff (h : k.LineHolds t l) : k.LineEnded t ↔ l.getLast? = some lineFeed := by
  rw [Kernel.LineEnded, h.idx]
  rcases List.eq_nil_or_concat l with rfl | ⟨l, c, rfl⟩
  · simp
  · rw [List.concat_eq_append] at h ⊢
    have hlast := h.byte (i := l.length) (by simp)
    rw [List.getElem_concat_length rfl, Kernel.line] at hlast
    rw [List.getLast?_concat, List.length_append, List.length_singleton,
      show (((l.length + 1 : ℕ) : ℤ) - 1) = (l.length : ℕ) from by push_cast; omega, ← hlast, Option.some_inj]
    exact and_iff_right (by omega)

/-- A line that leaves room in the buffer ends the wait of `tRead` just if it ends in a line break. -/
theorem lineReady_iff (h : k.LineHolds k.cur.curTerminal l) (hshort : l.length < 128) :
    k.lineReady = true ↔ l.getLast? = some lineFeed := by
  have hlen : k.lineLength = l.length := h.idx
  have hended : k.LineEnded k.cur.curTerminal ↔ 0 < k.lineLength ∧ k.endsLine = true := by
    rw [Kernel.endsLine, decide_eq_true_eq]
    rfl
  have hpos : 0 < k.lineLength ↔ k.lineLength ≠ 0 := by omega
  rw [← h.ended_iff, hended, hpos, Kernel.lineReady, Bool.or_eq_true, Bool.and_eq_true, bne_iff_ne, decide_eq_true_eq]
  exact or_iff_right (by unfold bufsize; omega)

/-- A line without NULs has none in the buffer. -/
theorem ne_zero (h : k.LineHolds t l) (hclean : ∀ c ∈ l, c ≠ 0) {i : ℕ} (hi : i < l.length) : k.line t i ≠ 0 := by
  rw [← h.byte hi]
  exact hclean _ (List.getElem_mem hi)

end Kernel.LineHolds

/-! ### What the handler stores -/

section Stores

variable {k : Kernel} {t : ℤ} {l : List UInt8}

/-- A key on terminal `t` is added to its line. -/
theorem insert_holds (h : k.LineHolds t l) (hd : k.screen.currentTerminal = t) (hlen : l.length < 128) (c : UInt8) :
    (k.insert c).2.LineHolds t (l ++ [c]) := by
  have hidx := h.idx
  rw [Kernel.insert]
  dsimp only
  rw [hd, if_neg (by omega)]
  refine ⟨?_, ?_⟩
  · simp only [Function.update_self, hidx, List.length_append, List.length_singleton]
    push_cast
    rfl
  · rw [List.length_append, List.length_singleton, bytesBelow_succ, Kernel.line]
    simp only [hidx, Function.update_self]
    congr 1
    refine (bytesBelow_congr fun i hi => ?_).trans h.bytes
    exact Function.update_of_ne (by unfold bufsize; omega) _ _

/-- A key on another terminal is not. -/
theorem insert_holds_other (h : k.LineHolds t l) (hsound : k.Sound) (hd : k.screen.currentTerminal ≠ t)
    (hlen : l.length ≤ 128) (c : UInt8) : (k.insert c).2.LineHolds t l := by
  have hrange := hsound.index _ hsound.screen.displayed
  rw [Kernel.insert]
  dsimp only
  split
  · exact h
  · refine h.of_update (Function.update_of_ne (by omega) _ _) rfl fun i hi => ?_
    unfold bufsize at *
    omega

/-- Backspace takes the last byte from the line of terminal `t`. -/
theorem backspacebuf_holds (h : k.LineHolds t l) (hd : k.screen.currentTerminal = t) :
    k.backspacebuf.2.LineHolds t l.dropLast := by
  have hidx := h.idx
  rw [Kernel.backspacebuf]
  dsimp only
  rw [hd]
  have hbytes : ∀ i < l.dropLast.length, Function.update k.tty.tbuf (bufsize * (t - 1) + (k.tty.idx (t - 1) - 1)) 0
      (bufsize * (t - 1) + (i : ℕ)) = k.line t i := by
    intro i hi
    rw [List.length_dropLast] at hi
    exact Function.update_of_ne (by unfold bufsize; omega) _ _
  split
  · refine ⟨?_, (bytesBelow_congr hbytes).trans (bytesBelow_dropLast h.bytes)⟩
    simp only [Function.update_self, hidx, List.length_dropLast]
    omega
  · have hnil : l = [] := List.length_eq_zero_iff.mp (by omega)
    refine ⟨?_, (bytesBelow_congr hbytes).trans (bytesBelow_dropLast h.bytes)⟩
    simp only [hidx, hnil]
    rfl

/-- On another terminal it takes at most the byte behind the longest line, of the terminal before. -/
theorem backspacebuf_holds_other (h : k.LineHolds t l) (hsound : k.Sound) (hd : k.screen.currentTerminal ≠ t)
    (hlen : l.length < 128) : k.backspacebuf.2.LineHolds t l := by
  have hrange := hsound.index _ hsound.screen.displayed
  have hoff : ∀ i < l.length, bufsize * (t - 1) + (i : ℕ)
      ≠ bufsize * (k.screen.currentTerminal - 1) + (k.tty.idx (k.screen.currentTerminal - 1) - 1) := by
    intro i hi
    unfold bufsize at *
    omega
  rw [Kernel.backspacebuf]
  dsimp only
  split
  · exact h.of_update (Function.update_of_ne (by omega) _ _) rfl hoff
  · exact h.of_update rfl rfl hoff

theorem clearbuf_holds_other (h : k.LineHolds t l) (hcur : k.cur.curTerminal ≠ t) (hlen : l.length ≤ 128) :
    k.clearbuf.LineHolds t l :=
  h.congr (clearbuf_sameLine hcur.symm).1 fun i hi => (clearbuf_sameLine hcur.symm).2 i (by omega)

theorem cutLine_holds_other (h : k.LineHolds t l) (hcur : k.cur.curTerminal ≠ t) (hlen : l.length ≤ 128) :
    k.cutLine.LineHolds t l := by
  rw [Kernel.cutLine]
  split
  · refine h.of_update rfl rfl fun i hi => ?_
    unfold bufsize
    omega
  · exact h

end Stores

/-! ### The waiting process -/

theorem typed_eq (c : UInt8) (k : Kernel) : ∃ s, k.typed c = { k with screen := s, tty := (k.insert c).2.tty } := by
  rw [Kernel.typed]
  dsimp only
  split
  · exact ⟨_, congrArg (fun m : Kernel => m.setScreen _) (insert_tty c k)⟩
  · exact ⟨k.screen, insert_tty c k⟩

theorem erased_eq (k : Kernel) : ∃ s, k.erased = { k with screen := s, tty := k.backspacebuf.2.tty } := by
  rw [Kernel.erased]
  dsimp only
  split
  · exact ⟨_, congrArg (fun m : Kernel => m.setScreen _) (backspacebuf_tty k)⟩
  · exact ⟨k.screen, backspacebuf_tty k⟩

theorem cleared_eq (k : Kernel) : ∃ s, k.cleared = { k with screen := s, tty := k.clearbuf.tty } :=
  ⟨(k.setScreen k.screen.clear).clearbuf.screen.updatecursor, rfl⟩

/-- Process `p` belongs to terminal `t` and has no child, so that it is the one that runs there. -/
structure Kernel.Waits (k : Kernel) (p : ℕ) (t : ℤ) : Prop where
  live : k.Live p
  leaf : (k.proc p).childPid = -1
  terminal : (k.proc p).curTerminal = t

namespace Kernel.Waits

variable {E : Platform} {k k' : Kernel} {σ : Shells} {a : Action} {p : ℕ} {t : ℤ}

theorem congr (h : k.Waits p t) (hbits : k'.pidBitmap = k.pidBitmap) (hpcbs : k'.pcbs = k.pcbs) : k'.Waits p t := by
  have hproc : k'.proc p = k.proc p := congrFun hpcbs _
  refine ⟨?_, hproc ▸ h.leaf, hproc ▸ h.terminal⟩
  rw [Kernel.Live, hbits]
  exact h.live

theorem cur_terminal (h : k.Waits p t) (hpcb : k.pcb = pcbAddr p) : k.cur.curTerminal = t := by
  rw [Kernel.cur, hpcb]
  exact h.terminal

/-- No other process of its terminal can be running. -/
theorem eq_current (h : k.Waits p t) (hsound : k.Sound) (hcur : k.cur.curTerminal = t) : k.pcb = pcbAddr p := by
  obtain ⟨σ, hσ⟩ := hsound.tracks
  obtain ⟨q, l, htop, hpcb⟩ := hσ.current
  obtain ⟨u, hu⟩ := (hσ.table.live p).mp h.live
  -- both are on top of the stack of `t`
  obtain rfl : u = t := (hσ.table.curTerminal u p hu).symm.trans h.terminal
  obtain rfl : σ.current = u := (hσ.cur_links htop hpcb).2.1.symm.trans hcur
  have hhead := ((hσ.table.threaded σ.current).down_eq_none_iff linkOf_injective hu).mp h.leaf
  rw [htop, List.head?_cons, Option.some_inj] at hhead
  rw [hpcb, hhead]

/-- A step of the machine that is not a call of the process itself. -/
theorem step (h : k.Waits p t) (hshell : ValidShell E.image) (hsound : k.Sound)
    (hidle : k.pcb = pcbAddr p → ¬a.MayHalt ∧ ∀ st command, a ≠ .execute st command)
    (hstep : ClosKernel.step E a k = some k') : k'.Waits p t := by
  obtain ⟨σ, hσ⟩ := hsound.tracks
  obtain ⟨hlive, ⟨ctx, child, heq⟩, hchild⟩ :=
    (step_effect hshell hσ hstep).keeps_process hσ h.live fun hp => (hidle hp).1
  refine ⟨hlive, ?_, ?_⟩
  · rcases hchild with hsame | hnone | ⟨hp, st, command, ha⟩
    · exact hsame.trans h.leaf
    · exact hnone
    · exact absurd ha ((hidle hp).2 st command)
  · rw [heq]
    exact h.terminal

end Kernel.Waits

/-- A process inside `tRead` is only interrupted. -/
theorem Console.idle_of_allows {s : Console} {p : ℕ} {a : Action} (hin : s.inside (pcbAddr p) ≠ none)
    (hallows : s.allows a = true) (hpcb : s.kernel.pcb = pcbAddr p) :
    ¬a.MayHalt ∧ ∀ st command, a ≠ .execute st command := by
  have hbusy : (s.inside s.kernel.pcb).isNone = false := by
    rw [hpcb, ← Bool.not_eq_true, Option.isNone_iff_eq_none]
    exact hin
  cases a with
  | tick => exact ⟨id, fun _ _ hc => by cases hc⟩
  | screenChange => cases hallows
  | run | store | output | execute | halt | vidmap => exact absurd (hbusy.symm.trans hallows) (by decide)

theorem Kernel.cutLine_process (k : Kernel) : k.cutLine.pidBitmap = k.pidBitmap ∧ k.cutLine.pcbs = k.pcbs := by
  rw [Kernel.cutLine]
  split
  · exact ⟨rfl, rfl⟩
  · exact ⟨rfl, rfl⟩

section Process

-- `Q` depends on the PCBs and the bitmap only, and the machine preserves it as long as process `p` makes no call
variable {E : Platform} {p : ℕ} {Q : Kernel → Prop}
  (hcongr : ∀ k k' : Kernel, k'.pidBitmap = k.pidBitmap → k'.pcbs = k.pcbs → Q k → Q k')
  (hmachine : ∀ a k k', k.Sound → Q k →
    (k.pcb = pcbAddr p → ¬a.MayHalt ∧ ∀ st command, a ≠ .execute st command) →
    ClosKernel.step E a k = some k' → Q k')

include hcongr hmachine

theorem keyStep_process {st : Stack} {e : KeyEvent} {k k' : Kernel} (hk : k.Sound) (hQ : Q k)
    (hkey : keyStep E st e k = some k') : Q k' := by
  cases e with
  | letter c =>
    obtain ⟨screen, heq⟩ := typed_eq c k
    obtain rfl := Option.some_inj.mp hkey
    exact hcongr k _ (by rw [heq]) (by rw [heq]) hQ
  | backspace =>
    obtain ⟨screen, heq⟩ := erased_eq k
    obtain rfl := Option.some_inj.mp hkey
    exact hcongr k _ (by rw [heq]) (by rw [heq]) hQ
  | clear =>
    obtain ⟨screen, heq⟩ := cleared_eq k
    obtain rfl := Option.some_inj.mp hkey
    exact hcongr k _ (by rw [heq]) (by rw [heq]) hQ
  | switch n =>
    have hstep : ClosKernel.step E (.screenChange st n) k = some k' := hkey
    exact hmachine _ k k' hk hQ (fun _ => ⟨id, fun _ _ hc => by cases hc⟩) hstep

/-- **The rule for a process inside `tRead`.**  What the machine preserves as long as the process makes no call, and
what the PCBs and the bitmap alone decide, is preserved by every step of the console. -/
theorem Console.step_process {s s' : Console} (hshell : ValidShell E.image) (hs : s.kernel.Sound)
    (hin : s.inside (pcbAddr p) ≠ none) (hQ : Q s.kernel) {a : ConsoleAction}
    (hstep : Console.step E a s = some s') : Q s'.kernel := by
  cases a with
  | keyboard st reads =>
    rw [Console.step] at hstep
    split at hstep
    · obtain ⟨events, g, k, -, hruns, rfl⟩ := interrupt_eq hstep
      have hk : k.Sound ∧ Q k := by
        refine runs_invariant (P := fun k => k.Sound ∧ Q k) (fun e m m' hm hkey => ?_)
          ⟨hs.isr_only _, hcongr s.kernel (s.kernel.raise 1) rfl rfl hQ⟩ hruns
        exact ⟨hm.1.keyStep hshell hkey, keyStep_process hcongr hmachine hm.1 hm.2 hkey⟩
      obtain ⟨isr, heoi⟩ := k.sendEoi_eq 1
      exact hcongr k _ (by rw [heoi]) (by rw [heoi]) hk.2
    · cases hstep
  | machine a =>
    rw [Console.step] at hstep
    split at hstep
    · rename_i hallows
      obtain ⟨k, hk, rfl⟩ := Option.map_eq_some_iff.mp hstep
      exact hmachine a _ _ hs hQ (idle_of_allows hin hallows) hk
    · cases hstep
  | tRead scancode buf nbytes =>
    rw [Console.step] at hstep
    split at hstep
    · obtain rfl := Option.some_inj.mp hstep
      exact hcongr s.kernel _ rfl rfl hQ
    · cases hstep
  | advance code =>
    obtain ⟨r, -, rfl⟩ := Option.map_eq_some_iff.mp hstep
    obtain ⟨hbits, hpcbs⟩ := s.kernel.cutLine_process
    dsimp only
    rcases r.advance_kernel code s.kernel with heq | heq | ⟨n, heq⟩
    · rwa [heq]
    · rw [heq]
      exact hcongr s.kernel _ hbits hpcbs hQ
    · rw [heq]
      exact hcongr s.kernel _ rfl rfl hQ

end Process

/-- A waiting process goes on waiting. -/
theorem Console.step_waits {E : Platform} {s s' : Console} {p : ℕ} {t : ℤ} (hshell : ValidShell E.image)
    (hs : s.kernel.Sound) (hin : s.inside (pcbAddr p) ≠ none) (hwaits : s.kernel.Waits p t) {a : ConsoleAction}
    (hstep : Console.step E a s = some s') : s'.kernel.Waits p t :=
  step_process (Q := fun k => k.Waits p t) (fun _ _ hbits hpcbs h => h.congr hbits hpcbs)
    (fun _ _ _ hk h hidle hm => h.step hshell hk hidle hm) hshell hs hin hwaits hstep

/-! ### Keys that come during a call -/

/-- Keys as they are typed on terminal `t`: printable characters, line breaks, backspace and switches to another
terminal, with a line that stays short of the end of the buffer.  Other terminals may get any key, and may be
cleared. -/
def KeyEvent.Typing (t : ℤ) : KeyEvent → Kernel → Prop
  | .letter c, k => k.screen.currentTerminal = t → (0x20 ≤ c ∧ c ≤ 0x7E ∨ c = lineFeed) ∧ k.tty.idx (t - 1) < 127
  | .backspace, _ => True
  | .clear, k => k.cur.curTerminal ≠ t
  | .switch n, k => n = k.screen.currentTerminal → k.cur.curTerminal ≠ t

/-- No key comes to terminal `t` while its line has ended. -/
def KeyEvent.Patient (t : ℤ) : KeyEvent → Kernel → Prop
  | .letter _, k | .backspace, k => k.screen.currentTerminal = t → ¬k.LineEnded t
  | .clear, _ | .switch _, _ => True

/-- The blocks that a keyboard interrupt runs all meet `G`. -/
def Console.EachKey (E : Platform) (G : KeyEvent → Kernel → Prop) : ConsoleAction → Console → Prop
  | .keyboard st reads, s =>
    ∀ r, keyEvents s.getChar reads = some r → Meets (keyStep E st) G r.1 (s.kernel.raise 1)
  | .machine _, _ | .tRead _ _ _, _ | .advance _, _ => True

instance (t : ℤ) : ∀ (e : KeyEvent) (k : Kernel), Decidable (e.Typing t k)
  | .letter _, _ => inferInstanceAs (Decidable (_ → _))
  | .backspace, _ => inferInstanceAs (Decidable True)
  | .clear, _ => inferInstanceAs (Decidable (_ ≠ _))
  | .switch _, _ => inferInstanceAs (Decidable (_ → _))

instance (t : ℤ) : ∀ (e : KeyEvent) (k : Kernel), Decidable (e.Patient t k)
  | .letter _, _ | .backspace, _ => inferInstanceAs (Decidable (_ → _))
  | .clear, _ | .switch _, _ => inferInstanceAs (Decidable True)

instance (E : Platform) (G : KeyEvent → Kernel → Prop) [∀ e k, Decidable (G e k)] :
    ∀ (a : ConsoleAction) (s : Console), Decidable (Console.EachKey E G a s)
  | .keyboard _ _, _ => decidableForallEqSome
  | .machine _, _ | .tRead _ _ _, _ | .advance _, _ => inferInstanceAs (Decidable True)

/-- The line of terminal `t` is what `keys` have made of it, up to a line break. -/
structure Kernel.Collects (k : Kernel) (t : ℤ) (keys : List (Key UInt8)) : Prop where
  sound : k.Sound
  first : firstLine lineFeed keys = keys
  clean : ∀ c, Key.char c ∈ keys → c ≠ 0
  holds : k.LineHolds t (edited keys)
  short : (edited keys).length < 128

namespace Kernel.Collects

variable {k k' : Kernel} {t : ℤ} {keys : List (Key UInt8)}

/-- The line has ended just if a line break has been typed. -/
theorem ended_iff (h : k.Collects t keys) : k.LineEnded t ↔ Key.char lineFeed ∈ keys := by
  rw [h.holds.ended_iff, stop_mem_iff h.first]

/-- A change that leaves the line alone. -/
theorem frame (h : k.Collects t keys) (hsound : k'.Sound) (hholds : k'.LineHolds t (edited keys)) :
    k'.Collects t keys :=
  ⟨hsound, h.first, h.clean, hholds, h.short⟩

theorem isr_only (h : k.Collects t keys) (isr : ℕ → Bool) : Kernel.Collects { k with isr := isr } t keys :=
  h.frame (h.sound.isr_only isr) (h.holds.congr rfl fun _ _ => rfl)

/-- One more key. -/
theorem press (h : k.Collects t keys) (hopen : ¬k.LineEnded t) {key : Key UInt8}
    (hclean : ∀ c, key = .char c → c ≠ 0) (hsound : k'.Sound)
    (hholds : k'.LineHolds t (edit (edited keys) key)) (hshort : (edit (edited keys) key).length < 128) :
    k'.Collects t (keys ++ [key]) := by
  refine ⟨hsound, firstLine_concat (fun hmem => hopen (h.ended_iff.mpr hmem)) key, fun c hc => ?_, ?_, ?_⟩
  · rcases List.mem_append.mp hc with hc | hc
    · exact h.clean c hc
    · exact hclean c (List.mem_singleton.mp hc).symm
  · rwa [edited_concat]
  · rwa [edited_concat]

end Kernel.Collects

/-- **One block of the handler.**  The keys of terminal `t` are collected, until the line has ended; nothing else
reaches its line. -/
theorem keyStep_collects {E : Platform} {st : Stack} {k k' : Kernel} {t : ℤ} {keys : List (Key UInt8)}
    {e : KeyEvent} (hshell : ValidShell E.image) (h : k.Collects t keys) (htyping : e.Typing t k)
    (hpatient : e.Patient t k) (hstep : keyStep E st e k = some k') :
    k'.Collects t ((keyOf e k).foldl (collect t) keys) ∧
      (Key.char lineFeed ∈ keys → (keyOf e k).foldl (collect t) keys = keys) := by
  have hsound := h.sound.keyStep hshell hstep
  have hshort := h.short
  -- a key for terminal `t` finds its line open
  have hopen : (k.screen.currentTerminal = t → ¬k.LineEnded t) → ∀ key : Key UInt8,
      Key.char lineFeed ∈ keys → collect t keys (k.screen.currentTerminal, key) = keys := by
    intro hline key hmem
    exact if_neg fun hd => hline hd (h.ended_iff.mpr hmem)
  cases e with
  | letter c =>
    obtain ⟨s, heq⟩ := typed_eq c k
    obtain rfl := Option.some_inj.mp hstep
    refine ⟨?_, hopen hpatient _⟩
    show (k.typed c).Collects t (collect t keys (k.screen.currentTerminal, .char c))
    by_cases hd : k.screen.currentTerminal = t
    · obtain ⟨hprint, hidx⟩ := htyping hd
      have hlen : (edited keys).length < 127 := by
        have := h.holds.idx
        omega
      rw [collect, if_pos hd]
      refine h.press (hpatient hd) ?_ hsound ?_ ?_
      · rintro _ ⟨⟩ rfl
        revert hprint
        decide
      · exact (insert_holds h.holds hd hshort c).of_tty (by rw [heq])
      · rw [edit, List.length_append, List.length_singleton]
        omega
    · rw [collect, if_neg hd]
      exact h.frame hsound ((insert_holds_other h.holds h.sound hd (by omega) c).of_tty (by rw [heq]))
  | backspace =>
    obtain ⟨s, heq⟩ := erased_eq k
    obtain rfl := Option.some_inj.mp hstep
    refine ⟨?_, hopen hpatient _⟩
    show k.erased.Collects t (collect t keys (k.screen.currentTerminal, .erase))
    by_cases hd : k.screen.currentTerminal = t
    · rw [collect, if_pos hd]
      refine h.press (hpatient hd) (fun _ hc => by cases hc) hsound ?_ ?_
      · exact (backspacebuf_holds h.holds hd).of_tty (by rw [heq])
      · rw [edit, List.length_dropLast]
        omega
    · rw [collect, if_neg hd]
      exact h.frame hsound ((backspacebuf_holds_other h.holds h.sound hd hshort).of_tty (by rw [heq]))
  | clear =>
    obtain ⟨s, heq⟩ := cleared_eq k
    obtain rfl := Option.some_inj.mp hstep
    have hline := clearbuf_holds_other h.holds htyping (by omega)
    exact ⟨h.frame hsound (hline.of_tty (by rw [heq])), fun _ => rfl⟩
  | switch n =>
    obtain ⟨σ, hσ⟩ := h.sound.tracks
    refine ⟨h.frame hsound ?_, fun _ => rfl⟩
    rcases step_tty (a := .screenChange st n) hshell hσ hstep with htty | ⟨⟨st', ha⟩, htty⟩
    · exact h.holds.of_tty htty
    · have hline := clearbuf_holds_other h.holds (htyping (Action.screenChange.inj ha).2) (by omega)
      exact hline.of_tty htty

/-! ### The call -/

/-- How far a call of `tRead` for 128 bytes has come with the keys so far. -/
def Reading.Follows (r : Reading) (keys : List (Key UInt8)) : Prop :=
  r.nbytes = 128 ∧ match r.phase with
    | .waiting => True
    | .ready => Key.char lineFeed ∈ keys
    | .full on => on = false ∧ Key.char lineFeed ∈ keys
    | .copied value => value = none ∧ Key.char lineFeed ∈ keys ∧
        bytesBelow r.buf (edited keys).length = edited keys

/-- **The invariant of a call**: process `p` is inside `tRead` on terminal `t`, which has got `keys` since. -/
structure Console.Serves (s : Console) (p : ℕ) (t : ℤ) (keys : List (Key UInt8)) : Prop where
  waits : s.kernel.Waits p t
  collects : s.kernel.Collects t keys
  call : ∃ r, s.inside (pcbAddr p) = some r ∧ r.Follows keys

/-- More keys leave a call where it is, as long as none comes behind a line break. -/
theorem Reading.Follows.more {r : Reading} {keys keys' : List (Key UInt8)} (h : r.Follows keys)
    (hended : Key.char lineFeed ∈ keys → keys' = keys) : r.Follows keys' := by
  obtain ⟨hnbytes, hphase⟩ := h
  refine ⟨hnbytes, ?_⟩
  cases hp : r.phase with
  | waiting => trivial
  | ready =>
    rw [hp] at hphase
    rwa [hended hphase]
  | full on =>
    rw [hp] at hphase
    rwa [hended hphase.2]
  | copied value =>
    rw [hp] at hphase
    rwa [hended hphase.2.1]

section Pieces

variable {k : Kernel} {t : ℤ} {keys : List (Key UInt8)} {r : Reading}

/-- What the running process sees of its line. -/
theorem Kernel.Collects.lineLength (h : k.Collects t keys) (hterm : k.cur.curTerminal = t) :
    k.lineLength = (edited keys).length ∧
      (k.lineReady = true ↔ Key.char lineFeed ∈ keys) ∧ (Key.char lineFeed ∈ keys → k.endsLine = true) := by
  have hlen : k.lineLength = (edited keys).length := by
    rw [Kernel.lineLength, hterm]
    exact h.holds.idx
  have hholds : k.LineHolds k.cur.curTerminal (edited keys) := hterm.symm ▸ h.holds
  refine ⟨hlen, ?_, fun hmem => ?_⟩
  · rw [hholds.lineReady_iff h.short, ← h.holds.ended_iff, h.ended_iff]
  · rw [Kernel.endsLine, Kernel.lineLength, decide_eq_true_eq, hterm]
    exact (h.ended_iff.mpr hmem).2

/-- The copy is the line. -/
theorem Kernel.Collects.copy (h : k.Collects t keys) (hterm : k.cur.curTerminal = t) (hr : r.Follows keys)
    (hmem : Key.char lineFeed ∈ keys) : (r.copy k).Follows keys := by
  obtain ⟨hlen, -, -⟩ := h.lineLength hterm
  have hshort := h.short
  have hless : ¬r.nbytes ≤ k.lineLength := by
    rw [hr.1, hlen]
    omega
  have hcount : toUInt32 ((edited keys).length : ℤ) = (edited keys).length := by
    unfold toUInt32
    omega
  refine ⟨hr.1, if_neg hless, hmem, ?_⟩
  show bytesBelow (r.copy k).buf _ = _
  rw [Reading.copy]
  dsimp only
  rw [if_neg hless, hlen, hterm, hcount]
  have hline : ∀ j < (edited keys).length, k.line t j ≠ 0 := fun j =>
    h.holds.ne_zero fun c hc => h.clean c (mem_of_mem_edited hc)
  exact (bytesBelow_congr fun i hi => strncpy_of_nul_free r.buf hline hi).trans h.holds.bytes

/-- **One piece of the call.**  The kernel stays as it is, and the call goes on or is over. -/
theorem Kernel.Collects.advance (h : k.Collects t keys) (hterm : k.cur.curTerminal = t) (hr : r.Follows keys)
    (code : UInt8) :
    (r.advance code k).2 = k ∧ ∀ r', (r.advance code k).1 = some r' → r'.Follows keys := by
  obtain ⟨hlen, hready, hends⟩ := h.lineLength hterm
  have hshort := h.short
  obtain ⟨hnbytes, hphase⟩ := id hr
  rw [Reading.advance]
  cases hp : r.phase with
  | waiting =>
    refine ⟨rfl, fun r' hr' => ?_⟩
    obtain rfl := Option.some_inj.mp hr'
    split
    · rename_i hline
      exact ⟨hnbytes, hready.mp hline⟩
    · exact hr
  | ready =>
    rw [hp] at hphase
    dsimp only
    split
    · refine ⟨rfl, fun r' hr' => ?_⟩
      obtain rfl := Option.some_inj.mp hr'
      exact ⟨hnbytes, rfl, hphase⟩
    · refine ⟨rfl, fun r' hr' => ?_⟩
      obtain rfl := Option.some_inj.mp hr'
      exact h.copy hterm hr hphase
  | full on =>
    -- another terminal's line is full; this one has ended, so that the loop is left at once
    rw [hp] at hphase
    dsimp only
    have hcut : k.cutLine = k := if_neg (by rw [hlen]; unfold bufsize; omega)
    rw [if_pos (Or.inr (hends hphase.2)), hcut]
    refine ⟨rfl, fun r' hr' => ?_⟩
    obtain rfl := Option.some_inj.mp hr'
    exact h.copy hterm hr hphase.2
  | copied value => exact ⟨rfl, fun r' hr' => by cases hr'⟩

end Pieces

/-! ### The console during a call -/

namespace Console

variable {E : Platform} {s s' : Console} {p : ℕ} {t : ℤ} {keys : List (Key UInt8)}

/-- A keyboard interrupt during the call. -/
theorem interrupt_collects {st : Stack} {reads : List UInt8} (hshell : ValidShell E.image)
    (h : s.kernel.Collects t keys)
    (hkeys : EachKey E (fun e k => e.Typing t k ∧ e.Patient t k) (.keyboard st reads) s)
    (hint : s.interrupt E st reads = some s') :
    s'.inside = s.inside ∧ s'.kernel.Collects t ((delivered E (.keyboard st reads) s).foldl (collect t) keys) ∧
      (Key.char lineFeed ∈ keys → (delivered E (.keyboard st reads) s).foldl (collect t) keys = keys) := by
  obtain ⟨events, g, k, hevents, hruns, rfl⟩ := interrupt_eq hint
  -- the blocks of the handler one by one
  have hblocks : k.Collects t ((emitted (keyStep E st) keyOf events (s.kernel.raise 1)).foldl (collect t) keys) ∧
      (Key.char lineFeed ∈ keys →
        (emitted (keyStep E st) keyOf events (s.kernel.raise 1)).foldl (collect t) keys = keys) :=
    runs_simulation_of_meets (R := fun m ks => m.Collects t ks ∧ (Key.char lineFeed ∈ keys → ks = keys))
      (fun e m m' ks hguard hm hstep => by
        obtain ⟨hcollects, hsame⟩ := keyStep_collects hshell hm.1 hguard.1 hguard.2 hstep
        refine ⟨hcollects, fun hmem => ?_⟩
        have hks := hm.2 hmem
        exact (hsame (hks.symm ▸ hmem)).trans hks)
      (hkeys _ hevents) ⟨h.isr_only _, fun _ => rfl⟩ hruns
  rw [delivered, hevents, Option.map_some, Option.getD_some]
  obtain ⟨isr, heoi⟩ := k.sendEoi_eq 1
  refine ⟨rfl, ?_, hblocks.2⟩
  rw [heoi]
  exact hblocks.1.isr_only isr

/-- A tick, or something that another process does. -/
theorem machine_collects {a : Action} {k : Kernel} (hshell : ValidShell E.image) (h : s.kernel.Collects t keys)
    (hallows : s.allows a = true) (hstep : ClosKernel.step E a s.kernel = some k) : k.Collects t keys := by
  obtain ⟨σ, hσ⟩ := h.sound.tracks
  have hline : k.tty = s.kernel.tty := by
    rcases step_tty hshell hσ hstep with htty | ⟨⟨st, rfl⟩, -⟩
    · exact htty
    · cases hallows
  refine h.frame (h.sound.step hshell hstep) ?_
  exact h.holds.of_tty hline

/-- A process of another terminal goes on inside `tRead`. -/
theorem advance_collects {k : Kernel} (h : k.Collects t keys) (hcur : k.cur.curTerminal ≠ t) (code : UInt8)
    (q : Reading) : (q.advance code k).2.Collects t keys := by
  have hsound := h.sound.advance code q
  rcases q.advance_kernel code k with heq | heq | ⟨n, heq⟩
  · rwa [heq]
  · rw [heq] at hsound ⊢
    exact h.frame hsound (cutLine_holds_other h.holds hcur h.short.le)
  · rw [heq] at hsound ⊢
    exact h.frame hsound (h.holds.congr rfl fun _ _ => rfl)

/-- **One step of the console keeps the invariant of the call**, until the call is over. -/
theorem step_serves {a : ConsoleAction} (hshell : ValidShell E.image) (h : s.Serves p t keys)
    (hkeys : EachKey E (fun e k => e.Typing t k ∧ e.Patient t k) a s) (hstep : Console.step E a s = some s') :
    s'.inside (pcbAddr p) = none ∨ s'.Serves p t ((delivered E a s).foldl (collect t) keys) := by
  obtain ⟨hwaits, hcollects, r, hr, hfollows⟩ := h
  have hin : s.inside (pcbAddr p) ≠ none := by rw [hr]; simp
  have hwaits' := step_waits hshell hcollects.sound hin hwaits hstep
  -- a process of terminal `t` that runs is the waiting one
  have hother : s.kernel.pcb ≠ pcbAddr p → s.kernel.cur.curTerminal ≠ t :=
    fun hpcb hc => hpcb (hwaits.eq_current hcollects.sound hc)
  cases a with
  | keyboard st reads =>
    rw [Console.step] at hstep
    split at hstep
    · obtain ⟨hinside, hcollects', hended⟩ := interrupt_collects hshell hcollects hkeys hstep
      exact Or.inr ⟨hwaits', hcollects', r, hinside ▸ hr, hfollows.more hended⟩
    · cases hstep
  | machine a =>
    rw [Console.step] at hstep
    split at hstep
    · rename_i hallows
      obtain ⟨k, hk, rfl⟩ := Option.map_eq_some_iff.mp hstep
      exact Or.inr ⟨hwaits', machine_collects hshell hcollects hallows hk, r, hr, hfollows⟩
    · cases hstep
  | tRead scancode buf nbytes =>
    rw [Console.step] at hstep
    split at hstep
    · rename_i hnone
      obtain rfl := Option.some_inj.mp hstep
      have hpcb : s.kernel.pcb ≠ pcbAddr p := by
        intro hp
        rw [hp, hr] at hnone
        cases hnone
      have hline := clearbuf_holds_other hcollects.holds (hother hpcb) hcollects.short.le
      refine Or.inr ⟨hwaits', hcollects.frame ?_ (hline.of_tty rfl), r, ?_, hfollows⟩
      · refine Kernel.Sound.clearbuf ?_
        exact hcollects.sound.setScreen rfl hcollects.sound.screen.updatecursor
      · exact (Function.update_of_ne hpcb.symm _ _).trans hr
    · cases hstep
  | advance code =>
    obtain ⟨q, hq, rfl⟩ := Option.map_eq_some_iff.mp hstep
    by_cases hpcb : s.kernel.pcb = pcbAddr p
    · obtain rfl : q = r := Option.some_inj.mp (hq.symm.trans (hpcb ▸ hr))
      obtain ⟨hkernel, hnext⟩ := hcollects.advance (hwaits.cur_terminal hpcb) hfollows code
      dsimp only
      rw [hpcb, Function.update_self, hkernel]
      cases hcall : (q.advance code s.kernel).1 with
      | none => exact Or.inl rfl
      | some r' => exact Or.inr ⟨hwaits, hcollects, r', Function.update_self .., hnext r' hcall⟩
    · refine Or.inr ⟨hwaits', advance_collects hcollects (hother hpcb) code q, r, ?_, hfollows⟩
      exact (Function.update_of_ne (Ne.symm hpcb) _ _).trans hr

end Console

section Call

variable {E : Platform} {s₀ s s' : Console}

/-- The invariant when `tRead` has been entered: no key yet. -/
theorem Console.enter_serves (hshell : ValidShell E.image) (hsound : s₀.Sound) {p : ℕ}
    (hpcb : s₀.kernel.pcb = pcbAddr p) {scancode : UInt8} {buf : Mem}
    (henter : Console.step E (.tRead scancode buf 128) s₀ = some s) :
    s.Serves p s₀.kernel.cur.curTerminal [] := by
  have hsound' := (Console.step_sound hshell hsound henter).kernel
  obtain ⟨σ, hσ⟩ := hsound.kernel.tracks
  obtain ⟨q, l, htop, hq⟩ := hσ.current
  obtain rfl : p = q := ((pcbAddr_inj (hσ.table.bound q (Kernel.Table.holds_of_top htop))).mp (hq.symm.trans hpcb)).symm
  have hproc : s₀.kernel.cur = s₀.kernel.proc p := by rw [Kernel.cur, hpcb, Kernel.proc]
  have hlinks := hσ.cur_links htop hpcb
  have hwaits : s₀.kernel.Waits p s₀.kernel.cur.curTerminal :=
    ⟨hσ.live_current htop, hproc ▸ hlinks.2.2.2, by rw [hproc]⟩
  rw [Console.step] at henter
  split at henter
  · obtain rfl := Option.some_inj.mp henter
    have hempty := clearbuf_lineEmpty s₀.kernel
    refine ⟨hwaits.congr rfl rfl, ⟨hsound', rfl, fun c hc => by simp at hc, ⟨hempty.1, rfl⟩, by decide⟩, ?_⟩
    exact ⟨_, by rw [← hpcb]; exact Function.update_self .., rfl, trivial⟩
  · cases henter

/-- What a step of the console does to the call of process `p`: nothing, if interrupts are on or another process runs,
or it is the next piece of the call. -/
theorem Console.step_call {a : ConsoleAction} {p : ℕ} {r : Reading} (hr : s.inside (pcbAddr p) = some r)
    (hstep : Console.step E a s = some s') :
    (s'.inside (pcbAddr p) = some r ∧ (s.kernel.pcb = pcbAddr p → r.interruptible = true)) ∨
    ∃ code, s.kernel.pcb = pcbAddr p ∧ s'.kernel = (r.advance code s.kernel).2 ∧
      s'.inside (pcbAddr p) = (r.advance code s.kernel).1 := by
  -- the running process is inside its call
  have hon : s.kernel.pcb = pcbAddr p → s.interruptible = r.interruptible := fun hp => by
    rw [Console.interruptible, hp, hr, Option.all_some]
  have hbusy : s.kernel.pcb = pcbAddr p → (s.inside s.kernel.pcb).isNone = false := fun hp => by
    rw [hp, hr, Option.isNone_some]
  cases a with
  | keyboard st reads =>
    rw [Console.step] at hstep
    split at hstep
    · rename_i hint
      obtain ⟨events, g, k, -, -, rfl⟩ := interrupt_eq hstep
      exact Or.inl ⟨hr, fun hp => hon hp ▸ hint⟩
    · cases hstep
  | machine a =>
    rw [Console.step] at hstep
    split at hstep
    · rename_i hallows
      obtain ⟨k, -, rfl⟩ := Option.map_eq_some_iff.mp hstep
      refine Or.inl ⟨hr, fun hp => ?_⟩
      cases a with
      | tick => exact hon hp ▸ hallows
      | screenChange => cases hallows
      | run | store | output | execute | halt | vidmap => exact absurd ((hbusy hp).symm.trans hallows) (by decide)
    · cases hstep
  | tRead scancode buf nbytes =>
    rw [Console.step] at hstep
    split at hstep
    · rename_i hnone
      obtain rfl := Option.some_inj.mp hstep
      have hother : s.kernel.pcb ≠ pcbAddr p := fun hp => absurd ((hbusy hp).symm.trans hnone) (by decide)
      exact Or.inl ⟨(Function.update_of_ne hother.symm _ _).trans hr, fun hp => absurd hp hother⟩
    · cases hstep
  | advance code =>
    obtain ⟨q, hq, rfl⟩ := Option.map_eq_some_iff.mp hstep
    by_cases hp : s.kernel.pcb = pcbAddr p
    · obtain rfl : q = r := Option.some_inj.mp (hq.symm.trans (hp ▸ hr))
      exact Or.inr ⟨code, hp, rfl, by rw [← hp]; exact Function.update_self ..⟩
    · exact Or.inl ⟨(Function.update_of_ne (Ne.symm hp) _ _).trans hr, fun h => absurd h hp⟩

/-- During a call its process lives on and keeps its descriptors. -/
theorem Console.step_keeps_files (hshell : ValidShell E.image) (hs : s.Sound) {p : ℕ}
    (hin : s.inside (pcbAddr p) ≠ none) (hlive : s.kernel.Live p) {a : ConsoleAction}
    (hstep : Console.step E a s = some s') :
    s'.kernel.Live p ∧ (s'.kernel.proc p).fileArray = (s.kernel.proc p).fileArray := by
  refine Console.step_process (Q := fun k => k.Live p ∧ (k.proc p).fileArray = (s.kernel.proc p).fileArray)
    (fun k k' hbits hpcbs h => ?_) (fun a k k' hk h hidle hmachine => ?_) hshell hs.kernel hin ⟨hlive, rfl⟩ hstep
  · have hproc : k'.proc p = k.proc p := congrFun hpcbs _
    exact ⟨by rw [Kernel.Live, hbits]; exact h.1, hproc ▸ h.2⟩
  · obtain ⟨σ, hσ⟩ := hk.tracks
    obtain ⟨hlive', hsame⟩ := (step_effect hshell hσ hmachine).keeps_program hσ h.1 fun hp => (hidle hp).1
    exact ⟨hlive', hsame.fileArray.trans h.2⟩

/-- When the process of a call runs again, a `Meanwhile` has passed since its last piece, or nothing. -/
theorem Reading.exists_resume {r : Reading} {k m : Kernel} {p : ℕ} (hk : k.pcb = pcbAddr p) (hm : m.pcb = pcbAddr p)
    (hfiles : (m.proc p).fileArray = k.cur.fileArray) (hoff : r.interruptible = false → m = k) :
    ∃ w : Meanwhile, (if r.interruptible then w.resume k else k) = m := by
  have hsame : k.SameFiles m := by
    refine ⟨hm.trans hk.symm, ?_⟩
    rw [Kernel.cur, hm]
    exact hfiles
  obtain ⟨w, hw⟩ := hsame.exists_meanwhile
  cases hr : r.interruptible with
  | true => exact ⟨w, hw⟩
  | false => exact ⟨w, (hoff hr).symm⟩

/-- A call that goes on has nothing to return yet. -/
theorem Reading.value_of_advance {code : UInt8} {r r' : Reading} {k : Kernel} (h : (r.advance code k).1 = some r') :
    r.value k = none := by
  rw [Reading.value]
  split
  · rename_i hcopied
    rw [Reading.advance, hcopied] at h
    cases h
  · rfl
  · rfl
  · rfl

/-- **The rest of a call.**  `k` is the kernel behind the last piece; since then other things may have happened if
interrupts are on. -/
theorem Console.finish_of_run (hshell : ValidShell E.image) {p : ℕ} {as : List ConsoleAction} (hsound : s.Sound)
    (hlive : s.kernel.Live p) {r r' : Reading} (hr : s.inside (pcbAddr p) = some r) {k : Kernel}
    (hk : k.pcb = pcbAddr p) (hfiles : (s.kernel.proc p).fileArray = k.cur.fileArray)
    (hoff : r.interruptible = false → s.kernel = k)
    (hinside : Meets (Console.step E) (fun _ m => m.inside (pcbAddr p) ≠ none) as s)
    (hrun : runs (Console.step E) as s = some s') (hpcb' : s'.kernel.pcb = pcbAddr p)
    (hr' : s'.inside (pcbAddr p) = some r') {n : ℤ} (hn : r'.value s'.kernel = some n) :
    ∃ (w : Meanwhile) (pieces : List (UInt8 × Meanwhile)),
      r.finish pieces (if r.interruptible then w.resume k else k) = some (n, r'.buf, s'.kernel) := by
  induction as generalizing s r k with
  | nil =>
    obtain rfl := Option.some_inj.mp hrun
    obtain rfl := Option.some_inj.mp (hr.symm.trans hr')
    obtain ⟨w, hw⟩ := r.exists_resume hk hpcb' hfiles hoff
    refine ⟨w, [], ?_⟩
    rw [hw, Reading.finish, hn, Option.map_some]
  | cons a as ih =>
    obtain ⟨s₁, hstep, hrun₁⟩ := runs_cons_eq_some.mp hrun
    have hmeets₁ := hinside.2 s₁ hstep
    have hsound₁ := Console.step_sound hshell hsound hstep
    obtain ⟨hlive₁, hfiles₁⟩ := Console.step_keeps_files hshell hsound hinside.1 hlive hstep
    rcases Console.step_call hr hstep with ⟨hr₁, hon⟩ | ⟨code, hp, hkernel, hcall⟩
    · -- something else happens
      refine ih hsound₁ hlive₁ hr₁ hk (hfiles₁.trans hfiles) (fun hoff₁ => ?_) hmeets₁ hrun₁
      have hp : s.kernel.pcb = pcbAddr p := by rw [hoff hoff₁, hk]
      exact absurd ((hon hp).symm.trans hoff₁) (by decide)
    · -- the next piece of the call
      obtain ⟨r₁, hr₁⟩ : ∃ r₁, s₁.inside (pcbAddr p) = some r₁ := by
        cases as with
        | nil =>
          obtain rfl := Option.some_inj.mp hrun₁
          exact ⟨r', hr'⟩
        | cons => exact Option.ne_none_iff_exists'.mp hmeets₁.1
      have hadvance := hcall.symm.trans hr₁
      have hvalue := Reading.value_of_advance hadvance
      have hp₁ : s₁.kernel.pcb = pcbAddr p := by
        rw [hkernel, (r.advance_sameFiles code s.kernel).pcb, hp]
      obtain ⟨w₁, pieces, hrest⟩ :=
        ih hsound₁ hlive₁ hr₁ hp₁ (by rw [Kernel.cur, hp₁]; rfl) (fun _ => rfl) hmeets₁ hrun₁
      obtain ⟨w, hw⟩ := r.exists_resume hk hp hfiles hoff
      refine ⟨w, (code, w₁) :: pieces, ?_⟩
      rw [hw, Reading.finish, hvalue, Option.map_none, hadvance, ← hkernel]
      exact hrest

/-- **A call of `tRead`, step by step and at once.**  Whatever comes between the pieces of a call, when nothing but its
return is left they are one call of `tRead`, for some doings of the machine meanwhile. -/
theorem tRead_of_run (hshell : ValidShell E.image) (hsound : s₀.Sound) {p : ℕ} (hpcb : s₀.kernel.pcb = pcbAddr p)
    (hlive : s₀.kernel.Live p) {scancode : UInt8} {buf : Mem} {nbytes : ℤ}
    (henter : Console.step E (.tRead scancode buf nbytes) s₀ = some s) {as : List ConsoleAction}
    (hinside : Meets (Console.step E) (fun _ m => m.inside (pcbAddr p) ≠ none) as s)
    (hrun : runs (Console.step E) as s = some s') (hpcb' : s'.kernel.pcb = pcbAddr p) {r : Reading}
    (hr : s'.inside (pcbAddr p) = some r) {n : ℤ} (hn : r.value s'.kernel = some n) :
    ∃ w, tRead w buf nbytes s₀.kernel = some (n, r.buf, s'.kernel) := by
  have hsound' := Console.step_sound hshell hsound henter
  rw [Console.step] at henter
  split at henter
  · obtain rfl := Option.some_inj.mp henter
    obtain ⟨w, pieces, hfinish⟩ := Console.finish_of_run (r := .start scancode buf nbytes)
      (k := (s₀.kernel.setScreen s₀.kernel.screen.updatecursor).clearbuf) hshell hsound' hlive
      (by rw [← hpcb]; exact Function.update_self ..) hpcb
      (congrArg (fun q => (s₀.kernel.pcbs q).fileArray) hpcb.symm) (fun _ => rfl) hinside hrun hpcb' hr hn
    exact ⟨⟨w, scancode, pieces⟩, hfinish⟩
  · cases henter

/-- **A call returns the first line.**  The running process calls `tRead` for 128 bytes in any reachable state, and then
key presses, terminal switches, ticks and the doings of other processes come in any order, with nothing but characters,
line breaks and backspaces for its terminal and a line that stays short of 128 characters.  If moreover no key comes to
the terminal between a line break and the return, then the call returns the edited line of the keys up to and including
the first line break, and its length; and the first poll after the line break ends the wait. -/
theorem tRead_delivers_line (hshell : ValidShell E.image) {before : List ConsoleAction}
    (hreach : Console.Reaches E before s₀) {scancode : UInt8} {buf : Mem}
    (henter : Console.step E (.tRead scancode buf 128) s₀ = some s) (as : List ConsoleAction)
    (hmeets : Meets (Console.step E) (fun a m => m.inside s₀.kernel.pcb ≠ none ∧ Console.EachKey E (fun e k =>
      e.Typing s₀.kernel.cur.curTerminal k ∧ e.Patient s₀.kernel.cur.curTerminal k) a m) as s)
    (hrun : runs (Console.step E) as s = some s') {r : Reading} (hr : s'.inside s₀.kernel.pcb = some r)
    (hpcb : s'.kernel.pcb = s₀.kernel.pcb) :
    (∀ n, r.value s'.kernel = some n →
      Key.char lineFeed ∈ Console.keysTo E s₀.kernel.cur.curTerminal as s ∧
      n = (edited (firstLine lineFeed (Console.keysTo E s₀.kernel.cur.curTerminal as s))).length ∧
      bytesBelow r.buf n.toNat = edited (firstLine lineFeed (Console.keysTo E s₀.kernel.cur.curTerminal as s))) ∧
    (r.phase = .waiting → Key.char lineFeed ∈ Console.keysTo E s₀.kernel.cur.curTerminal as s →
      ∀ code, ∃ s'', Console.step E (.advance code) s' = some s'' ∧
        (s''.inside s₀.kernel.pcb).map Reading.phase = some .ready) := by
  have hsound := Console.reaches_sound hshell hreach
  obtain ⟨σ, hσ⟩ := hsound.kernel.tracks
  obtain ⟨p, -, -, hp⟩ := hσ.current
  have hserves : s'.inside (pcbAddr p) = none ∨ s'.Serves p s₀.kernel.cur.curTerminal
      ((emitted (Console.step E) (Console.delivered E) as s).foldl (collect s₀.kernel.cur.curTerminal) []) :=
    runs_simulation_of_meets
      (R := fun m ks => m.inside (pcbAddr p) = none ∨ m.Serves p s₀.kernel.cur.curTerminal ks)
      (fun a m m' ks hguard hm hstep => by
        have hin : m.inside (pcbAddr p) ≠ none := hp ▸ hguard.1
        exact Console.step_serves hshell (hm.resolve_left hin) hguard.2 hstep)
      hmeets (Or.inr (Console.enter_serves hshell hsound hp henter)) hrun
  rw [foldl_collect, List.nil_append] at hserves
  rw [hp] at hr hpcb
  obtain ⟨hwaits, hcollects, r', hr', hfollows⟩ := hserves.resolve_left (by rw [hr]; simp)
  obtain rfl : r = r' := Option.some_inj.mp (hr.symm.trans hr')
  obtain ⟨hlen, hready, -⟩ := hcollects.lineLength (hwaits.cur_terminal hpcb)
  refine ⟨fun n hn => ?_, fun hwaiting hmem code => ?_⟩
  · have hphase := hfollows.2
    rw [Reading.value] at hn
    split at hn
    · rename_i value hcopied
      rw [hcopied] at hphase
      obtain ⟨rfl, hmem, hbytes⟩ := hphase
      obtain rfl : s'.kernel.lineLength = n := Option.some_inj.mp hn
      rw [Console.keysTo, hcollects.first, hlen, Int.toNat_natCast]
      exact ⟨hmem, rfl, hbytes⟩
    all_goals cases hn
  · have hnext : (r.advance code s'.kernel).1 = some { r with phase := .ready } := by
      rw [Reading.advance, hwaiting]
      exact congrArg some (if_pos (hready.mpr hmem))
    refine ⟨_, by rw [Console.step, hpcb, hr]; rfl, ?_⟩
    dsimp only
    rw [hp, Function.update_self, hnext]
    rfl

end Call

/-- A letter, another one that is taken back, and Enter, with a tick in between; then the call goes on twice. -/
def typedLine : List ConsoleAction :=
  [.keyboard default [0x1E], .machine .tick, .keyboard default [0x30], .keyboard default [bksp],
    .keyboard default [entr], .advance 0, .advance 0]

/-- The call returns the letter and the line break. -/
theorem tRead_delivers_line_typed : ∃ s₀ s s' r, Console.Reaches twoProgramPlatform [] s₀ ∧
    Console.step twoProgramPlatform (.tRead 0 (fun _ => 0) 128) s₀ = some s ∧
    runs (Console.step twoProgramPlatform) typedLine s = some s' ∧ s'.inside s₀.kernel.pcb = some r ∧
    r.value s'.kernel = some 2 ∧ bytesBelow r.buf 2 = [0x61, lineFeed] := by
  have heval : ((boot twoProgramPlatform default consoleKernel).any fun b =>
      (Console.step twoProgramPlatform (.tRead 0 (fun _ => 0) 128) (consoleStart b)).any fun s =>
        (runs (Console.step twoProgramPlatform) typedLine s).any fun s' =>
          (s'.inside b.pcb).any fun r => decide (r.value s'.kernel = some 2 ∧ s'.kernel.pcb = b.pcb ∧
            edited (firstLine lineFeed (Console.keysTo twoProgramPlatform b.cur.curTerminal typedLine s))
              = [0x61, lineFeed] ∧
            Meets (Console.step twoProgramPlatform) (fun a m => m.inside b.pcb ≠ none ∧
              Console.EachKey twoProgramPlatform (fun e k => e.Typing b.cur.curTerminal k ∧
                e.Patient b.cur.curTerminal k) a m) typedLine s)) = true := by
    decide +kernel
  simp only [Option.any_eq_true, decide_eq_true_eq] at heval
  obtain ⟨b, hboot, s, henter, s', hrun, r, hr, hvalue, hpcb, hline, hmeets⟩ := heval
  have hreach : Console.Reaches twoProgramPlatform [] (consoleStart b) := consoleStart_reaches hboot rfl
  obtain ⟨-, -, hbytes⟩ := (tRead_delivers_line twoProgramPlatform_shell hreach henter typedLine hmeets hrun hr
    hpcb).1 2 hvalue
  exact ⟨_, s, s', r, hreach, henter, hrun, hr, hvalue, hbytes.trans hline⟩

/-- Three keys before the call looks at its line. -/
def typedAhead : List ConsoleAction :=
  [.keyboard default [0x1E], .keyboard default [entr], .keyboard default [0x30]]

/-- The third key comes when the call has left its loop and has not copied the line yet. -/
def typedBetween : List ConsoleAction :=
  [.keyboard default [0x1E], .keyboard default [entr], .advance 0, .keyboard default [0x30], .advance 0]

/-- **A key behind the line break.**  If it comes before the poll, the call goes on waiting; if it comes after the poll,
the call returns it as part of the line. -/
theorem tRead_misses_line : ∃ s₀ s, Console.Reaches twoProgramPlatform [] s₀ ∧
    Console.step twoProgramPlatform (.tRead 0 (fun _ => 0) 128) s₀ = some s ∧ s₀.kernel.cur.curTerminal = 1 ∧
    (∃ s' s'', runs (Console.step twoProgramPlatform) typedAhead s = some s' ∧
      Meets (Console.step twoProgramPlatform) (fun a m => m.inside s₀.kernel.pcb ≠ none ∧
        Console.EachKey twoProgramPlatform (KeyEvent.Typing 1) a m) typedAhead s ∧
      s'.kernel.pcb = s₀.kernel.pcb ∧ Console.keysTo twoProgramPlatform 1 typedAhead s
        = [.char 0x61, .char lineFeed, .char 0x62] ∧
      Console.step twoProgramPlatform (.advance 0) s' = some s'' ∧
      (s''.inside s₀.kernel.pcb).map Reading.phase = some .waiting) ∧
    ∃ s' r, runs (Console.step twoProgramPlatform) typedBetween s = some s' ∧
      Meets (Console.step twoProgramPlatform) (fun a m => m.inside s₀.kernel.pcb ≠ none ∧
        Console.EachKey twoProgramPlatform (KeyEvent.Typing 1) a m) typedBetween s ∧
      s'.inside s₀.kernel.pcb = some r ∧ r.value s'.kernel = some 3 ∧
      bytesBelow r.buf 3 = [0x61, lineFeed, 0x62] ∧
      edited (firstLine lineFeed (Console.keysTo twoProgramPlatform 1 typedBetween s)) = [0x61, lineFeed] := by
  have heval : ((boot twoProgramPlatform default consoleKernel).any fun b =>
      (Console.step twoProgramPlatform (.tRead 0 (fun _ => 0) 128) (consoleStart b)).any fun s =>
        ((runs (Console.step twoProgramPlatform) typedAhead s).any fun s' =>
          (Console.step twoProgramPlatform (.advance 0) s').any fun s'' => decide (b.cur.curTerminal = 1 ∧
            Meets (Console.step twoProgramPlatform) (fun a m => m.inside b.pcb ≠ none ∧
              Console.EachKey twoProgramPlatform (KeyEvent.Typing 1) a m) typedAhead s ∧
            s'.kernel.pcb = b.pcb ∧ Console.keysTo twoProgramPlatform 1 typedAhead s
              = [.char 0x61, .char lineFeed, .char 0x62] ∧
            (s''.inside b.pcb).map Reading.phase = some .waiting)) &&
        (runs (Console.step twoProgramPlatform) typedBetween s).any fun s' =>
          (s'.inside b.pcb).any fun r => decide (
            Meets (Console.step twoProgramPlatform) (fun a m => m.inside b.pcb ≠ none ∧
              Console.EachKey twoProgramPlatform (KeyEvent.Typing 1) a m) typedBetween s ∧
            r.value s'.kernel = some 3 ∧ bytesBelow r.buf 3 = [0x61, lineFeed, 0x62] ∧
            edited (firstLine lineFeed (Console.keysTo twoProgramPlatform 1 typedBetween s))
              = [0x61, lineFeed])) = true := by
    decide +kernel
  simp only [Option.any_eq_true, Bool.and_eq_true, decide_eq_true_eq] at heval
  obtain ⟨b, hboot, s, henter, ⟨s', hrun, s'', hpoll, hterm, hmeets, hpcb, hkeys, hphase⟩,
    t', hrun', r, hr, hmeets', hvalue, hbytes, hline⟩ := heval
  exact ⟨consoleStart b, s, consoleStart_reaches hboot rfl, henter, hterm,
    ⟨s', s'', hrun, hmeets, hpcb, hkeys, hpoll, hphase⟩, t', r, hrun', hmeets', hr, hvalue, hbytes, hline⟩

end ClosKernel
