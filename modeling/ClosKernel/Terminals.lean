import ClosKernel.Reach

/-!
# Three virtual terminals

The kernel has one video page and shows one terminal on it; the other two live in their backing pages.  Here the
screens of a whole run are compared with three stand-alone text terminals that know nothing of each other: each
hears the bytes that the processes of its own number print, and a reset when its shell is started.

* `Displays.putc`, `Displays.saveCurrent`, `Displays.showTerminal`, `Displays.opening` — what the functions of
  `lib.c` do to the three pictures;
* `Displays.step` — one step of the kernel is the reaction of the terminals to the signals of that step;
* `virtual_terminals_refine` — **refinement**: after every run each terminal shows what a stand-alone one would;
* `keyboard_echo_iff` — exactly when echoing a key treats the displayed terminal like its own output, and
  `keyboard_echo_scrolls_background` — a key press that scrolls another terminal instead.
-/

namespace ClosKernel

open PartialRun LinkedStack TextTerminal

/-- What a stand-alone terminal hears. -/
inductive Signal where
  | byte (c : UInt8)
  | reset
  deriving DecidableEq

def vreact (T : Vterm) : Signal → Vterm
  | .byte c => vfeed T c
  | .reset => vhome

/-- Bytes printed on terminal `t`. -/
def said (t : ℤ) (bytes : List UInt8) : List (ℤ × Signal) := bytes.map fun c => (t, .byte c)

instance (s : Screen) (t : ℤ) : Decidable (s.Started t) := inferInstanceAs (Decidable (_ ∧ _))

/-- The signals of an action: what it prints goes to the terminal of the running process, and `screenChange` resets
a terminal whose shell it starts. -/
def signals (E : Platform) : Action → Kernel → List (ℤ × Signal)
  | .output bytes, k => said k.cur.curTerminal bytes
  | .execute st command, k => said k.cur.curTerminal (executeText E st command k)
  | .screenChange _ n, k =>
    if n = k.screen.currentTerminal then
      said k.cur.curTerminal (if IsTerminal n then alreadyIn n else messedUp)
    else if ¬IsTerminal n then said k.cur.curTerminal higherTerminal
    else if ¬k.screen.Started n ∧ k.pidBitmap ≠ 0x3F then [(n, .reset)]
    else []
  | _, _ => []

/-- The screens show the terminals `T`, and no key press is being echoed. -/
structure Screen.Displays (s : Screen) (T : ℤ → Vterm) : Prop where
  displayed : IsTerminal s.currentTerminal
  keyInt : s.keyInt = false
  shows : ∀ t, IsTerminal t → s.Shows t (T t)

namespace Screen

variable {s s' : Screen} {T : ℤ → Vterm} {cur n : ℤ}

theorem scrollTarget_eq_pageOf (s : Screen) (cur : ℤ) : s.scrollTarget cur = s.pageOf cur := by
  rw [scrollTarget, pageOf]
  by_cases h : cur = s.currentTerminal
  · rw [if_neg (not_not.mpr h), if_pos h]
  · rw [if_pos h, if_neg h]

/-- Without a key press, `putc` writes the page of the terminal that the process belongs to. -/
theorem putc_eq (hkey : s.keyInt = false) (c : UInt8) :
    s.putc cur c = s.putcAt (s.pageOf cur) cur cur c := by
  rw [putc, pageOf]
  by_cases h : cur = s.currentTerminal
  · rw [if_pos (Or.inl h), if_pos h, ← h]
  · rw [if_neg (by rw [hkey]; simp [h]), if_neg h]

/-- Terminal `t` shows the same when its page and its cursor are the same. -/
theorem Shows.congr {t : ℤ} {V : Vterm} (h : s.Shows t V)
    (himage : s'.image t = s.image t) (hx : s'.screenX (t - 1) = s.screenX (t - 1))
    (hy : s'.screenY (t - 1) = s.screenY (t - 1)) : s'.Shows t V :=
  ⟨himage.trans h.cell, hy.trans h.row, hx.trans h.col⟩

namespace Displays

/-- One byte of output changes the terminal it is meant for. -/
theorem putc (h : s.Displays T) (hcur : IsTerminal cur) (c : UInt8) :
    (s.putc cur c).Displays (react vreact T (cur, .byte c)) := by
  rw [putc_eq h.keyInt]
  obtain ⟨hterm, -, hkey⟩ := putcAt_statics (s.pageOf cur) cur cur c s
  refine ⟨hterm ▸ h.displayed, hkey.trans h.keyInt, fun t ht => ?_⟩
  by_cases htc : t = cur
  · rw [htc, react, Function.update_self]
    exact putcAt_shows rfl (fun _ => s.scrollTarget_eq_pageOf cur) (h.shows cur hcur)
  · have hpage := s.pageOf_ne htc
    rw [react, Function.update_of_ne htc]
    refine (h.shows t ht).congr ?_ (putcAt_cursor htc).1 (putcAt_cursor htc).2
    rw [image, image, pageOf_eq_of_currentTerminal t hterm,
      putcAt_frame hpage fun _ => by rw [s.scrollTarget_eq_pageOf]; exact hpage]

theorem puts (h : s.Displays T) (hcur : IsTerminal cur) (bytes : List UInt8) :
    (s.puts cur bytes).Displays ((said cur bytes).foldl (react vreact) T) := by
  induction bytes generalizing s T with
  | nil => exact h
  | cons c bytes ih => exact ih (h.putc hcur c)

theorem updatecursor (h : s.Displays T) : s.updatecursor.Displays T :=
  ⟨h.displayed, h.keyInt, fun t ht => (h.shows t ht).congr rfl rfl rfl⟩

/-- Saving the displayed page changes no picture. -/
theorem saveCurrent (h : s.Displays T) : s.saveCurrent.Displays T := by
  refine ⟨h.displayed, h.keyInt, fun t ht => (h.shows t ht).congr ?_ rfl rfl⟩
  have hpage : s.saveCurrent.pageOf t = s.pageOf t := pageOf_eq_of_currentTerminal t rfl
  rw [image, image, hpage, Screen.saveCurrent, setPage_page, if_neg]
  rw [pageOf]
  by_cases hcur : t = s.currentTerminal
  · rw [if_pos hcur]; simp
  · rw [if_neg hcur]; simpa using hcur

/-- Once the displayed page is saved, another terminal may take the video page: the others keep their pictures. -/
theorem others (h : s.Displays T) (s' : Screen) (hcurrent : s'.currentTerminal = n)
    (hpages : s'.videoTerm = s.saveCurrent.videoTerm)
    (hx : ∀ t, t ≠ n → s'.screenX (t - 1) = s.screenX (t - 1))
    (hy : ∀ t, t ≠ n → s'.screenY (t - 1) = s.screenY (t - 1)) {t : ℤ} (ht : IsTerminal t) (htn : t ≠ n) :
    s'.Shows t (T t) := by
  refine (h.shows t ht).congr ?_ (hx t htn) (hy t htn)
  have hpage : s'.page (s'.pageOf t) = s.saveCurrent.videoTerm t := by
    rw [pageOf, if_neg (by rw [hcurrent]; exact htn), page, hpages]
  rw [image, hpage]
  show gridOf (Function.update s.videoTerm s.currentTerminal
    (savePage s.videoMem (s.videoTerm s.currentTerminal)) t) = s.image t
  by_cases hcur : t = s.currentTerminal
  · rw [hcur, Function.update_self, gridOf_savePage, image, pageOf, if_pos rfl]
    rfl
  · rw [Function.update_of_ne hcur, image, pageOf, if_neg hcur]
    rfl

/-- A terminal that is brought to the screen looks as it did in its backing page. -/
theorem showTerminal (h : s.Displays T) (hn : IsTerminal n) (hne : n ≠ s.currentTerminal) :
    (s.saveCurrent.showTerminal n).Displays T := by
  refine ⟨hn, h.keyInt, fun t ht => ?_⟩
  by_cases htn : t = n
  · rw [htn]
    refine (h.shows n hn).congr ?_ rfl rfl
    rw [image, pageOf, if_pos (by exact rfl)]
    show gridOf (restorePage (Function.update s.videoTerm s.currentTerminal _ n) _) = s.image n
    rw [gridOf_restorePage, Function.update_of_ne hne, image, pageOf, if_neg hne]
    rfl
  · exact h.others (n := n) (s.saveCurrent.showTerminal n) rfl rfl (fun _ _ => rfl) (fun _ _ => rfl) ht htn

/-- A new terminal starts blank. -/
theorem opening (h : s.Displays T) (hn : IsTerminal n) :
    (s.saveCurrent.opening n).Displays (react vreact T (n, .reset)) := by
  refine ⟨hn, h.keyInt, fun t ht => ?_⟩
  by_cases htn : t = n
  · rw [htn, react, Function.update_self]
    refine ⟨?_, ?_, ?_⟩
    · rw [image, pageOf, if_pos (by exact rfl)]
      exact gridOf_clearPage _
    · exact Function.update_self ..
    · exact Function.update_self ..
  · rw [react, Function.update_of_ne htn]
    refine h.others (n := n) (s.saveCurrent.opening n) rfl rfl (fun t ht => ?_) (fun t ht => ?_) ht htn
    · exact Function.update_of_ne (by show t - 1 ≠ n - 1; omega) _ _
    · exact Function.update_of_ne (by show t - 1 ≠ n - 1; omega) _ _

end Displays

end Screen

/-! ### Whole runs -/

section Runs

variable {E : Platform} {k k' : Kernel} {σ : Shells} {T : ℤ → Vterm} {a : Action}

/-- Launching a process changes no picture. -/
theorem screen_enter {m : Kernel} {free : ℕ} {parent term : ℤ} {progImg args : Mem} {pcbs : ℕ → Pcb}
    (hfirst : m.first = true) : (m.enter free parent term progImg args pcbs).screen = m.screen :=
  if_pos hfirst

theorem Kernel.Tracks.screen_halt {st : Stack} {ebx : ℕ} {o : Outcome} (hshell : ValidShell E.image)
    (htracks : k.Tracks σ) (hhalt : sysHalt E st ebx k = some (o, k')) : k'.screen = k.screen := by
  rcases htracks.halt_eq hshell hhalt with ⟨-, -, r, free, -, -, rfl⟩ | ⟨-, -, rfl⟩
  · exact screen_enter htracks.first
  · rfl

/-- The terminal of the running process. -/
theorem Kernel.Tracks.isTerminal_cur (htracks : k.Tracks σ) : IsTerminal k.cur.curTerminal := by
  obtain ⟨p, l, htop, hpcb⟩ := htracks.current
  rw [(htracks.cur_links htop hpcb).2.1]
  exact htracks.table.terminal _ (by rw [htop]; simp)

/-- `screenChange` to a terminal, a displayed one or not. -/
theorem Screen.Displays.screenChange {st : Stack} {n : ℤ} (hshell : ValidShell E.image)
    (htracks : k.Tracks σ) (h : k.screen.Displays T)
    (hstep : ClosKernel.screenChange E st n k = some k') :
    k'.screen.Displays ((signals E (.screenChange st n) k).foldl (react vreact) T) := by
  have hcur := htracks.isTerminal_cur
  have hsaved : k.savedScreen = k.screen.saveCurrent := if_pos h.displayed
  rw [signals]
  cases screenChange_cases hstep with
  | again hsame hn =>
    rw [if_pos hsame, if_pos hn]
    exact (h.puts hcur _).updatecursor
  | lost hsame hn =>
    rw [if_pos hsame, if_neg hn]
    exact (h.puts hcur _).updatecursor
  | shown hne hstarted =>
    rw [if_neg hne, if_neg (not_not.mpr hstarted.1), if_neg (fun hc => hc.1 hstarted), hsaved]
    exact h.showTerminal hstarted.1 hne
  | refused hne hn hnew hfull =>
    rw [if_neg hne, if_neg (not_not.mpr hn), if_neg (fun hc => hc.2 hfull), hsaved]
    exact h.saveCurrent
  | opened hne hn hnew hfull hexec =>
    obtain ⟨r, free, -, -, heq⟩ := htracks.opened_eq hshell hn hfull hexec
    rw [heq, if_neg hne, if_neg (not_not.mpr hn), if_pos ⟨hnew, hfull⟩, hsaved, Kernel.opened,
      screen_enter (by exact htracks.first)]
    exact h.opening hn
  | higher hne hn =>
    rw [if_neg hne, if_pos hn, hsaved]
    exact h.saveCurrent.puts hcur _

/-- **One step.**  The pictures react to the signals of the action. -/
theorem Screen.Displays.step (hshell : ValidShell E.image) (htracks : k.Tracks σ)
    (h : k.screen.Displays T) (hstep : ClosKernel.step E a k = some k') :
    k'.screen.Displays ((signals E a k).foldl (react vreact) T) := by
  have hcur := htracks.isTerminal_cur
  cases a with
  | run ctx => exact Option.some_inj.mp hstep ▸ h
  | store off b => exact Option.some_inj.mp hstep ▸ h
  | output bytes => exact Option.some_inj.mp hstep ▸ h.puts hcur bytes
  | execute st command =>
    obtain ⟨⟨o, m⟩, hexec, rfl⟩ := Option.map_eq_some_iff.mp hstep
    rw [signals]
    rcases htracks.execute_eq hexec with ⟨-, rfl⟩ | ⟨r, free, -, -, -, htext, rfl⟩
    · exact h.puts hcur _
    · have hscreen : (k.called E st command r free).screen = k.screen := screen_enter htracks.first
      rw [htext, hscreen]
      exact h
  | halt st ebx =>
    obtain ⟨⟨o, m⟩, hhalt, rfl⟩ := Option.map_eq_some_iff.mp hstep
    rw [htracks.screen_halt hshell hhalt]
    exact h
  | vidmap st v =>
    obtain ⟨⟨o, m⟩, hvid, rfl⟩ := Option.map_eq_some_iff.mp hstep
    rcases Kernel.Tracks.vidmap_eq hvid with ⟨-, rfl⟩ | hhalt | ⟨-, -, rfl⟩
    · exact h
    · rw [htracks.screen_halt hshell hhalt]
      exact h
    · exact h
  | tick =>
    obtain ⟨isr, ⟨-, rfl⟩ | ⟨p, -, -, ⟨-, rfl⟩ | ⟨-, rfl⟩⟩⟩ := tick_cases htracks.curProc hstep
    · exact h
    · exact h
    · exact h
  | screenChange st n => exact h.screenChange hshell htracks hstep

/-- The terminals when the first shell starts: terminal 1 is blank, the others are what memory held. -/
def bootTerminals (k : Kernel) : ℤ → Vterm :=
  Function.update (fun t => { vhome with cell := gridOf (k.screen.videoTerm t) }) 1 vhome

theorem Screen.Displays.booted (st : Stack) (r : ℕ) (hpower : PowerOn k) :
    (k.booted E st r).screen.Displays (bootTerminals k) := by
  have hscreen : (k.booted E st r).screen = k.screen.clear.screenInit :=
    if_neg (by show ¬k.first = true; rw [hpower.first]; decide)
  have hx : ∀ t : ℤ, k.screen.clear.screenInit.screenX (t - 1) = 0 := by
    intro t
    show Function.update k.screen.screenX (k.screen.currentTerminal - 1) 0 (t - 1) = 0
    rw [Function.update_apply, (hpower.cursors _).1, ite_self]
  have hy : ∀ t : ℤ, k.screen.clear.screenInit.screenY (t - 1) = 0 := by
    intro t
    show Function.update k.screen.screenY (k.screen.currentTerminal - 1) 0 (t - 1) = 0
    rw [Function.update_apply, (hpower.cursors _).2, ite_self]
  rw [hscreen]
  refine ⟨Or.inl rfl, hpower.keyInt, fun t _ => ?_⟩
  by_cases ht : t = 1
  · rw [bootTerminals, ht, Function.update_self]
    exact ⟨gridOf_clearPage _, hy 1, hx 1⟩
  · rw [bootTerminals, Function.update_of_ne ht]
    refine ⟨?_, hy t, hx t⟩
    rw [image, pageOf, if_neg (by exact ht)]
    rfl

/-- **Virtual terminals refine stand-alone terminals.**  After every run from power-on, each of the three
terminals shows what a stand-alone one would show that has heard exactly the bytes printed by processes of its
number, in order, and a reset when its shell was started, whether it was displayed at the time or not. -/
theorem virtual_terminals_refine (hshell : ValidShell E.image) {k₀ b : Kernel} {st : Stack}
    (hpower : PowerOn k₀) (hboot : boot E st k₀ = some b) (as : List Action)
    (hrun : runs (step E) as b = some k) (t : ℤ) (ht : IsTerminal t) :
    k.screen.Shows t
      ((addressed t (emitted (step E) (signals E) as b)).foldl vreact (bootTerminals k₀ t)) := by
  obtain ⟨r, hr⟩ := hshell
  rw [boot_eq st hr hpower, Option.some_inj] at hboot
  have hstart : (∃ σ, b.Tracks σ) ∧ b.screen.Displays (bootTerminals k₀) :=
    hboot ▸ ⟨booted_tracks st r hpower, Screen.Displays.booted st r hpower⟩
  have hend : (∃ σ, k.Tracks σ) ∧ k.screen.Displays
      ((emitted (step E) (signals E) as b).foldl (react vreact) (bootTerminals k₀)) := by
    refine runs_simulation (R := fun k T => (∃ σ, k.Tracks σ) ∧ k.screen.Displays T) ?_ hstart hrun
    rintro a s s' T ⟨⟨σ, htracks⟩, hdisplays⟩ hstep
    obtain ⟨σ', -, htracks'⟩ := (step_effect ⟨r, hr⟩ htracks hstep).refines htracks
    exact ⟨⟨σ', htracks'⟩, hdisplays.step ⟨r, hr⟩ htracks hstep⟩
  rw [← foldl_react_apply]
  exact hend.2.shows t ht

end Runs

/-- The shell of terminal 1 prints one byte while it is displayed and one after terminal 2 has been started. -/
def printBehind : List Action := [.output [0x61], .screenChange default 2, .tick, .output [0x62]]

/-- Terminal 1 shows both bytes, one after the other. -/
theorem virtual_terminals_refine_behind : ∃ b k, boot twoProgramPlatform default powerOnKernel = some b ∧
    runs (step twoProgramPlatform) printBehind b = some k ∧
    k.screen.Shows 1 (vfeed (vfeed vhome 0x61) 0x62) := by
  have heval : ((boot twoProgramPlatform default powerOnKernel).any fun b =>
      ((runs (step twoProgramPlatform) printBehind b).isSome &&
        decide (addressed 1 (emitted (step twoProgramPlatform) (signals twoProgramPlatform) printBehind b)
          = [.byte 0x61, .byte 0x62]))) = true := by
    decide +kernel
  simp only [Option.any_eq_true, Bool.and_eq_true, decide_eq_true_eq, Option.isSome_iff_exists] at heval
  obtain ⟨b, hboot, ⟨k, hk⟩, hheard⟩ := heval
  have hshows := virtual_terminals_refine twoProgramPlatform_shell powerOnKernel_powerOn hboot _ hk 1
    (Or.inl rfl)
  rw [hheard, bootTerminals, Function.update_self] at hshows
  exact ⟨b, k, hboot, hk, hshows⟩

/-! ### Echoing a key -/

namespace Screen

variable {s : Screen} {p : Page} {t cur : ℤ} {c : UInt8} {T : Vterm}

/-- The picture once the byte has been written and before it scrolls. -/
def written (T : Vterm) (c : UInt8) : Fin numRows → Fin numCols → UInt8 :=
  if isBreak c then T.cell else Function.update T.cell T.row (Function.update (T.cell T.row) T.col c)

/-- A byte that scrolls, for a stand-alone terminal. -/
theorem vfeed_of_scrolls (h : s.Shows t T) (hscrolls : s.Scrolls t c) :
    vfeed T c = { T with cell := scroll space (written T c), col := ⟨0, by decide⟩ } := by
  have hrow : ¬T.row.val + 1 < numRows := by
    rw [← h.row, hscrolls.1]
    decide
  cases hc : isBreak c with
  | true =>
    rw [show vfeed T c = T.lineBreak space from if_pos hc, Terminal.lineBreak_of_last hrow, written,
      if_pos hc]
  | false =>
    have hcol : ¬T.col.val + 1 < numCols := by
      have hx := hscrolls.2.resolve_left (by rw [hc]; decide)
      rw [h.col] at hx
      omega
    rw [show vfeed T c = T.write space c from if_neg (by simp [hc]), Terminal.write, dif_neg hcol,
      Terminal.lineBreak_of_last (by exact hrow), written, if_neg (by rw [hc]; decide)]

/-- A byte that scrolls while `tScroll` goes to another page: that page is scrolled, and the one the byte was
written to is not. -/
theorem putcAt_scrolls_elsewhere (cur : ℤ) (hp : s.pageOf t = p) (h : s.Shows t T) (hscrolls : s.Scrolls t c)
    (htarget : s.scrollTarget cur ≠ p) :
    gridOf ((s.putcAt p t cur c).page p) = written T c ∧
      (s.putcAt p t cur c).page (s.scrollTarget cur) = scrollPage (s.page (s.scrollTarget cur)) ∧
      (s.putcAt p t cur c).screenX (t - 1) = 0 ∧
      (s.putcAt p t cur c).screenY (t - 1) = s.screenY (t - 1) := by
  have hcell := h.cell
  rw [image, hp] at hcell
  cases hc : isBreak c with
  | true =>
    rw [putcAt_break hc, if_pos hscrolls.1, written, if_pos hc]
    refine ⟨?_, ?_, ?_, ?_⟩
    · simp only [setX_page, tScroll_page, if_neg htarget.symm]
      exact hcell
    · simp
    · simp
    · simp
  | false =>
    have hx := hscrolls.2.resolve_left (by rw [hc]; decide)
    have hsame : ∀ m x, ((s.setPage p m).setX t x).scrollTarget cur = s.scrollTarget cur := fun m x =>
      scrollTarget_eq_of_currentTerminal cur (setPage_currentTerminal s p m)
    rw [putcAt_char hc, if_pos ⟨hscrolls.1, hx⟩, written, if_neg (by rw [hc]; decide)]
    refine ⟨?_, ?_, ?_, ?_⟩
    · simp only [setX_page, tScroll_page, hsame, if_neg htarget.symm, setPage_page, if_true]
      rw [h.row, h.col, gridOf_pokeCell, hcell]
    · simp only [setX_page, tScroll_page, hsame, setPage_page, if_neg htarget, if_true]
    · simp [hx]
    · simp

/-- `s'` differs from `s` as if the displayed terminal, which showed `T`, had been fed `c`. -/
structure Echoes (s s' : Screen) (T : Vterm) (c : UInt8) : Prop where
  shows : s'.Shows s.currentTerminal (vfeed T c)
  pages : ∀ t, t ≠ s.currentTerminal → s'.videoTerm t = s.videoTerm t
  cursors : ∀ t, t ≠ s.currentTerminal →
    s'.screenX (t - 1) = s.screenX (t - 1) ∧ s'.screenY (t - 1) = s.screenY (t - 1)

/-- Where no scroll is due, or a scroll goes to the video page, the echo is faithful. -/
theorem echoes_of_scrollTarget (h : s.Shows s.currentTerminal T)
    (hscroll : s.Scrolls s.currentTerminal c → s.scrollTarget cur = .video) :
    s.Echoes (s.putcAt .video s.currentTerminal cur c) T c where
  shows := putcAt_shows (if_pos rfl) hscroll h
  pages t _ := putcAt_frame (q := .term t) (by simp) fun hs => by rw [hscroll hs]; simp
  cursors _ ht := putcAt_cursor ht

/-- A scroll that goes to the page of another terminal is harmless only if it changes neither page. -/
theorem echoes_iff_of_elsewhere (h : s.Shows s.currentTerminal T)
    (hscrolls : s.Scrolls s.currentTerminal c) (hcur : cur ≠ s.currentTerminal) :
    s.Echoes (s.putcAt .video s.currentTerminal cur c) T c ↔
      (∀ r j, written T c r j = space) ∧
        ∀ j < 2000, s.videoTerm cur (2 * j) = space ∧ s.videoTerm cur (2 * j + 1) = attrib := by
  have htarget : s.scrollTarget cur = .term cur := if_pos hcur
  have hvideo : (s.putcAt .video s.currentTerminal cur c).pageOf s.currentTerminal = .video :=
    if_pos (putcAt_statics ..).1.symm
  obtain ⟨hgrid, hpage, hx, hy⟩ := putcAt_scrolls_elsewhere cur (if_pos rfl) h hscrolls
    (by rw [htarget]; simp)
  rw [htarget] at hpage
  have hfeed := vfeed_of_scrolls h hscrolls
  constructor
  · intro hecho
    refine ⟨?_, (scrollPage_eq_self_iff _).mp (hpage.symm.trans (hecho.pages cur hcur))⟩
    have hcell := hecho.shows.cell
    rw [image, hvideo, hgrid, hfeed] at hcell
    exact scroll_eq_self_iff.mp hcell.symm
  · rintro ⟨hblank, hback⟩
    refine ⟨⟨?_, ?_, ?_⟩, fun t ht => ?_, fun t ht => putcAt_cursor ht⟩
    · rw [image, hvideo, hgrid, hfeed]
      exact (scroll_eq_self_iff.mpr hblank).symm
    · rw [hy, hfeed]
      exact h.row
    · rw [hx, hfeed]
    · by_cases htc : t = cur
      · rw [htc]
        exact hpage.trans ((scrollPage_eq_self_iff _).mpr hback)
      · exact putcAt_frame (q := .term t) (by simp) fun _ => by rw [htarget]; simpa using htc

end Screen

/-- **Echoing a key.**  With a key press being echoed, `putc` treats the displayed terminal as its own output would
and leaves the others alone, just if the running process is on the displayed terminal, or the byte does not
scroll, or the scroll that goes astray changes neither page: the displayed one is all blank once the byte is
written, and the backing page of the running process's terminal is freshly cleared. -/
theorem keyboard_echo_iff {s : Screen} {T : Vterm} (cur : ℤ) (c : UInt8) (hkey : s.keyInt = true)
    (h : s.Shows s.currentTerminal T) :
    s.Echoes (s.putc cur c) T c ↔
      cur = s.currentTerminal ∨ ¬s.Scrolls s.currentTerminal c ∨
        ((∀ r j, Screen.written T c r j = space) ∧
          ∀ j < 2000, s.videoTerm cur (2 * j) = space ∧ s.videoTerm cur (2 * j + 1) = attrib) := by
  rw [Screen.putc, if_pos (Or.inr hkey)]
  by_cases hcur : cur = s.currentTerminal
  · refine iff_of_true (Screen.echoes_of_scrollTarget h fun _ => ?_) (Or.inl hcur)
    exact if_neg (not_not.mpr hcur)
  by_cases hscrolls : s.Scrolls s.currentTerminal c
  · rw [Screen.echoes_iff_of_elsewhere h hscrolls hcur]
    exact ⟨fun hblank => Or.inr (Or.inr hblank),
      fun hor => (hor.resolve_left hcur).resolve_left (not_not.mpr hscrolls)⟩
  · exact iff_of_true (Screen.echoes_of_scrollTarget h fun hs => absurd hs hscrolls)
      (Or.inr (Or.inl hscrolls))

/-- A screen with a blank terminal 1, while a key press is being echoed. -/
def blankScreen : Screen := ⟨1, 3, fun _ => 0, fun _ => 0, fun _ => space, fun _ _ => 0, true, 0⟩

/-- A key that does not scroll is echoed faithfully, though a process of terminal 2 is running. -/
theorem keyboard_echo_iff_first_key :
    (blankScreen.keyInt = true ∧ blankScreen.Shows blankScreen.currentTerminal vhome) ∧
    blankScreen.Echoes (blankScreen.putc 2 0x61) vhome 0x61 := by
  have hshows : blankScreen.Shows blankScreen.currentTerminal vhome := ⟨rfl, rfl, rfl⟩
  refine ⟨⟨rfl, hshows⟩, (keyboard_echo_iff 2 0x61 rfl hshows).mpr (Or.inr (Or.inl ?_))⟩
  exact fun hscrolls => absurd hscrolls.1 (by decide)

/-- Terminal 1 has printed one byte; terminal 2 is displayed with its cursor on the last row, where it has printed
another; and the shell of terminal 1 is running. -/
def bottomRow : List Action :=
  [.output [0x61], .screenChange default 2, .output (List.replicate 24 0x0A ++ [0x62]), .tick]

/-- The screen while the keyboard handler echoes a key. -/
def Kernel.echoing (k : Kernel) : Screen := { k.screen with keyInt := true }

/-- **A key press that scrolls another terminal.**  Enter is echoed on terminal 2: its last row stays where it is,
and the backing page of terminal 1 loses its first row. -/
theorem keyboard_echo_scrolls_background : ∃ k, Reaches twoProgramPlatform bottomRow k ∧
    k.screen.currentTerminal = 2 ∧ k.cur.curTerminal = 1 ∧
    k.echoing.image 2 ⟨24, by decide⟩ ⟨0, by decide⟩ = 0x62 ∧
    (k.echoing.putc 1 0x0A).image 2 ⟨24, by decide⟩ ⟨0, by decide⟩ = 0x62 ∧
    k.echoing.videoTerm 1 0 = 0x61 ∧ (k.echoing.putc 1 0x0A).videoTerm 1 0 = space ∧
    ∀ T, ¬k.echoing.Echoes (k.echoing.putc 1 0x0A) T 0x0A := by
  have heval : ((boot twoProgramPlatform default powerOnKernel).any fun b =>
      (runs (step twoProgramPlatform) bottomRow b).any fun k =>
        decide (k.screen.currentTerminal = 2 ∧ k.cur.curTerminal = 1 ∧
          k.echoing.image 2 ⟨24, by decide⟩ ⟨0, by decide⟩ = 0x62 ∧
          (k.echoing.putc 1 0x0A).image 2 ⟨24, by decide⟩ ⟨0, by decide⟩ = 0x62 ∧
          k.echoing.videoTerm 1 0 = 0x61 ∧ (k.echoing.putc 1 0x0A).videoTerm 1 0 = space)) = true := by
    decide +kernel
  simp only [Option.any_eq_true, decide_eq_true_eq] at heval
  obtain ⟨b, hboot, k, hk, hshown, hcur, hrow, hrow', hback, hback'⟩ := heval
  refine ⟨k, reaches_of_runs hboot hk, hshown, hcur, hrow, hrow', hback, hback', fun T hecho => ?_⟩
  -- the page of terminal 1 would have to be the same
  have hpage := congrFun (hecho.pages 1 (by rw [Kernel.echoing, hshown]; decide)) 0
  rw [hback, hback'] at hpage
  exact absurd hpage (by decide)

end ClosKernel
