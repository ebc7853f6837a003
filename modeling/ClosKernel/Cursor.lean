import ClosKernel.Console

/-!
# The cursor and the stores of the screen driver (`lib.c`)

Every function of the screen driver computes addresses in the text pages from the cursors.  Here each of them gets the
list of its byte stores, in the order of the source, beside the model that says what they add up to.

* `PageWrites`, `Writes` — a list of stores leads from one page, or one screen, to another, and none of the stores is
  past the end of its page;
* `clear_writes`, `backspace_writes`, `puts_writes`, `screenChange_writes` — **one step**: each function stores just
  what its list says;
* `cursor_stays_on_screen` — **the run**: whatever is called, in whatever order, no cursor leaves its screen and no
  store its page.
-/

namespace ClosKernel

open PartialRun

/-! ### Stores into one page -/

/-- A byte of a page is overwritten. -/
def storeAt (m : Mem) (w : ℕ × UInt8) : Mem := Function.update m w.1 w.2

/-- The two stores of a cell. -/
def cellStores (i : ℕ) (c : UInt8) : List (ℕ × UInt8) := [(2 * i, c), (2 * i + 1, attrib)]

def pageBytes : ℕ := numCols * numRows * 2

/-- The stores `ws` turn the page `m` into `m'` and stay within it. -/
structure PageWrites (m : Mem) (ws : List (ℕ × UInt8)) (m' : Mem) : Prop where
  result : m' = ws.foldl storeAt m
  offset : ∀ w ∈ ws, w.1 < pageBytes

namespace PageWrites

variable {m m₁ m₂ : Mem} {ws ws' : List (ℕ × UInt8)}

theorem trans (h : PageWrites m ws m₁) (h' : PageWrites m₁ ws' m₂) : PageWrites m (ws ++ ws') m₂ where
  result := by rw [List.foldl_append, ← h.result, ← h'.result]
  offset w hw := (List.mem_append.mp hw).elim (h.offset w) (h'.offset w)

theorem update {a : ℕ} (ha : a < pageBytes) (b : UInt8) (m : Mem) :
    PageWrites m [(a, b)] (Function.update m a b) where
  result := rfl
  offset w hw := by
    rw [List.mem_singleton.mp hw]
    exact ha

theorem pokeCell {i : ℕ} (hi : i < numCols * numRows) (c : UInt8) (m : Mem) :
    PageWrites m (cellStores i c) (pokeCell i c m) := by
  unfold numCols numRows at hi
  refine (update ?_ c m).trans (update ?_ attrib _)
  · unfold pageBytes numCols numRows
    omega
  · unfold pageBytes numCols numRows
    omega

/-- A loop over a page, given by what one round does. -/
theorem loop {f : ℕ → Mem → Mem} {emit : ℕ → Mem → List (ℕ × UInt8)} {n : ℕ}
    (h : ∀ i < n, ∀ m, PageWrites m (emit i m) (f i m)) (m : Mem) :
    PageWrites m (uptoEmitted f emit n m) (upto f n m) := by
  obtain ⟨hresult, hoffset⟩ := upto_simulation (Q := fun w => w.1 < pageBytes)
    (fun i hi m => ⟨(h i hi m).result, (h i hi m).offset⟩) m
  exact ⟨hresult, hoffset⟩

end PageWrites

/-- The stores of the two loops of `tScroll`. -/
def scrollStores (m : Mem) : List (ℕ × UInt8) :=
  let copy := fun (i : ℕ) (m : Mem) => pokeCell i (m (2 * (i + numCols))) m
  uptoEmitted copy (fun i m => cellStores i (m (2 * (i + numCols)))) ((numRows - 1) * numCols) m ++
    uptoEmitted (fun j => pokeCell ((numRows - 1) * numCols + j) space)
      (fun j _ => cellStores ((numRows - 1) * numCols + j) space) numCols (upto copy ((numRows - 1) * numCols) m)

theorem scrollPage_writes (m : Mem) : PageWrites m (scrollStores m) (scrollPage m) := by
  refine PageWrites.trans (PageWrites.loop (fun i hi m => .pokeCell ?_ _ m) m)
    (PageWrites.loop (fun j hj m => .pokeCell ?_ _ m) _)
  · unfold numCols numRows at *
    omega
  · unfold numCols numRows at *
    omega

/-- The stores of a loop that fills every cell of a page. -/
def fillStores (f : ℕ → UInt8) (m : Mem) : List (ℕ × UInt8) :=
  uptoEmitted (fun i => pokeCell i (f i)) (fun i _ => cellStores i (f i)) (numRows * numCols) m

theorem fill_writes (f : ℕ → UInt8) (m : Mem) :
    PageWrites m (fillStores f m) (upto (fun i => pokeCell i (f i)) (numRows * numCols) m) :=
  PageWrites.loop (fun i hi m => .pokeCell (by rw [Nat.mul_comm]; exact hi) _ m) m

/-- The stores of the saving loop, which leaves the attributes alone. -/
def saveStores (video backing : Mem) : List (ℕ × UInt8) :=
  uptoEmitted (fun i m => Function.update m (2 * i) (video (2 * i))) (fun i _ => [(2 * i, video (2 * i))])
    (numRows * numCols) backing

theorem savePage_writes (video backing : Mem) :
    PageWrites backing (saveStores video backing) (savePage video backing) := by
  refine PageWrites.loop (fun i hi m => .update ?_ _ m) backing
  unfold pageBytes numCols numRows at *
  omega

/-! ### Stores into the pages of the screen -/

/-- A store of the screen driver: the page, the offset in it, the byte. -/
abbrev Store := Page × (ℕ × UInt8)

/-- What a store does to the pages. -/
def storeByte : (Page → Mem) → Store → Page → Mem := react storeAt

def onPage (p : Page) (ws : List (ℕ × UInt8)) : List Store := ws.map fun w => (p, w)

theorem foldl_onPage (p : Page) (ws : List (ℕ × UInt8)) (pages : Page → Mem) :
    (onPage p ws).foldl storeByte pages = Function.update pages p (ws.foldl storeAt (pages p)) := by
  induction ws generalizing pages with
  | nil => exact (Function.update_eq_self p pages).symm
  | cons w ws ih =>
    show (onPage p ws).foldl storeByte (storeByte pages (p, w)) = _
    rw [ih, storeByte, react, Function.update_self, Function.update_idem, List.foldl_cons]

/-- From the screen `s` the stores `ws`, all within their pages, lead to the pages of `s'`. -/
structure Writes (s : Screen) (ws : List Store) (s' : Screen) : Prop where
  page : s'.page = ws.foldl storeByte s.page
  offset : ∀ w ∈ ws, w.2.1 < pageBytes

namespace Writes

variable {s s' s₁ s₂ : Screen} {ws ws' : List Store}

/-- The static variables do not matter for the pages. -/
theorem nil (h : s'.page = s.page) : Writes s [] s' where
  page := h
  offset w hw := by cases hw

theorem trans (h : Writes s ws s₁) (h' : Writes s₁ ws' s₂) : Writes s (ws ++ ws') s₂ where
  page := by rw [List.foldl_append, ← h.page, ← h'.page]
  offset w hw := (List.mem_append.mp hw).elim (h.offset w) (h'.offset w)

theorem of_page_eq (h : Writes s₁ ws s₂) (hpage : s₁.page = s.page) (hpage' : s'.page = s₂.page) : Writes s ws s' where
  page := by rw [hpage', h.page, hpage]
  offset := h.offset

end Writes

namespace Screen

variable {s : Screen} {p : Page} {t cur : ℤ} {c : UInt8} {m : Mem} {ws : List (ℕ × UInt8)}

/-- A function that writes into one page. -/
theorem setPage_writes (h : PageWrites (s.page p) ws m) : Writes s (onPage p ws) (s.setPage p m) where
  page := by
    rw [foldl_onPage, ← h.result]
    funext q
    rw [setPage_page]
    by_cases hq : q = p
    · rw [if_pos hq, hq, Function.update_self]
    · rw [if_neg hq, Function.update_of_ne hq]
  offset w hw := by
    obtain ⟨v, hv, rfl⟩ := List.mem_map.mp hw
    exact h.offset v hv

theorem page_setX (s : Screen) (t : ℤ) (x : ℕ) : (s.setX t x).page = s.page := funext fun q => setX_page s q t x

theorem page_setY (s : Screen) (t : ℤ) (y : ℕ) : (s.setY t y).page = s.page := funext fun q => setY_page s q t y

/-- The cell at the cursor of a terminal. -/
theorem cell_at_cursor_lt {x y : ℕ} (h : x < numCols ∧ y < numRows) : numCols * y + x < numCols * numRows := by
  unfold numCols numRows at *
  omega

/-! ### `clear` and `backspace` -/

def clearStores (s : Screen) : List Store := onPage .video (fillStores (fun _ => space) s.videoMem)

theorem clear_writes (s : Screen) : Writes s s.clearStores s.clear :=
  (setPage_writes (fill_writes _ _)).of_page_eq rfl rfl

def backspaceStores (s : Screen) : List Store :=
  let t := s.currentTerminal
  onPage .video (cellStores (numCols * s.stepBack.screenY (t - 1) + s.stepBack.screenX (t - 1)) space)

theorem backspace_writes (h : s.InBounds) : Writes s s.backspaceStores s.backspace := by
  obtain ⟨-, -, -, hpage⟩ := s.stepBack_statics
  have hcell := cell_at_cursor_lt (h.stepBack.cursor _ h.displayed)
  have hback : Writes s.stepBack s.backspaceStores s.backspace := setPage_writes (.pokeCell hcell space _)
  exact hback.of_page_eq hpage rfl

/-! ### `putc` -/

def tScrollStores (cur : ℤ) (s : Screen) : List Store :=
  onPage (s.scrollTarget cur) (scrollStores (s.page (s.scrollTarget cur)))

def putcAtStores (p : Page) (t cur : ℤ) (c : UInt8) (s : Screen) : List Store :=
  let x := s.screenX (t - 1)
  let y := s.screenY (t - 1)
  if c = 0x0A ∨ c = 0x0D then
    if y = numRows - 1 then s.tScrollStores cur else []
  else
    onPage p (cellStores (numCols * y + x) c) ++
      let s := s.setPage p (pokeCell (numCols * y + x) c (s.page p))
      let s := s.setX t (x + 1)
      if y = numRows - 1 ∧ x + 1 = numCols then s.tScrollStores cur else []

def putcStores (cur : ℤ) (c : UInt8) (s : Screen) : List Store :=
  if cur = s.currentTerminal ∨ s.keyInt = true then s.putcAtStores .video s.currentTerminal cur c
  else s.putcAtStores (.term cur) cur cur c

def putsStores (cur : ℤ) : List UInt8 → Screen → List Store
  | [], _ => []
  | c :: bytes, s => s.putcStores cur c ++ putsStores cur bytes (s.putc cur c)

theorem tScroll_writes (cur : ℤ) (s : Screen) : Writes s (s.tScrollStores cur) (s.tScroll cur) :=
  setPage_writes (scrollPage_writes _)

/-- A copy of the body of `putc` stores one cell, unless it breaks the line, and may then scroll. -/
theorem putcAt_writes (h : s.screenX (t - 1) < numCols ∧ s.screenY (t - 1) < numRows) :
    Writes s (s.putcAtStores p t cur c) (s.putcAt p t cur c) := by
  rw [putcAtStores, putcAt]
  dsimp only
  by_cases hc : c = 0x0A ∨ c = 0x0D
  · rw [if_pos hc, if_pos hc]
    split
    · exact (s.tScroll_writes cur).of_page_eq rfl (page_setX ..)
    · exact .nil ((page_setX ..).trans (page_setY ..))
  · rw [if_neg hc, if_neg hc]
    have hstore : Writes s (onPage p (cellStores (numCols * s.screenY (t - 1) + s.screenX (t - 1)) c))
        ((s.setPage p (pokeCell (numCols * s.screenY (t - 1) + s.screenX (t - 1)) c (s.page p))).setX t
          (s.screenX (t - 1) + 1)) :=
      (setPage_writes (.pokeCell (cell_at_cursor_lt h) c _)).of_page_eq rfl (page_setX ..)
    refine hstore.trans ?_
    split
    · exact (tScroll_writes cur _).of_page_eq rfl (page_setX ..)
    · exact .nil ((page_setX ..).trans (page_setY ..))

theorem putc_writes (h : s.InBounds) (hcur : IsTerminal cur) : Writes s (s.putcStores cur c) (s.putc cur c) := by
  rw [putcStores, putc]
  split
  · exact putcAt_writes (h.cursor _ h.displayed)
  · exact putcAt_writes (h.cursor cur hcur)

theorem puts_writes (h : s.InBounds) (hcur : IsTerminal cur) (bytes : List UInt8) :
    Writes s (s.putsStores cur bytes) (s.puts cur bytes) ∧ (s.puts cur bytes).InBounds := by
  induction bytes generalizing s with
  | nil => exact ⟨.nil rfl, h⟩
  | cons c bytes ih =>
    obtain ⟨hrest, hin⟩ := ih (s := s.putc cur c) h.putc
    exact ⟨(putc_writes h hcur).trans hrest, hin⟩

/-! ### The copies of `screenChange` -/

def saveCurrentStores (s : Screen) : List Store :=
  onPage (.term s.currentTerminal) (saveStores s.videoMem (s.videoTerm s.currentTerminal))

def showTerminalStores (n : ℤ) (s : Screen) : List Store :=
  onPage .video (fillStores (fun i => s.videoTerm n (2 * i)) s.videoMem)

theorem saveCurrent_writes (s : Screen) : Writes s s.saveCurrentStores s.saveCurrent :=
  setPage_writes (savePage_writes _ _)

theorem showTerminal_writes (n : ℤ) (s : Screen) : Writes s (s.showTerminalStores n) (s.showTerminal n) :=
  (setPage_writes (fill_writes _ _)).of_page_eq rfl rfl

end Screen

/-! ### `screenChange` -/

/-- The stores of `sys_execute` on the screen, which are those of the message it prints. -/
def executeStores (E : Platform) (st : Stack) (command : List UInt8) (k : Kernel) : List Store :=
  k.screen.putsStores k.cur.curTerminal (executeText E st command k)

def switchToStores (E : Platform) (st : Stack) (n : ℤ) (k : Kernel) : List Store :=
  if k.getBitMap = 0x3F ∧ k.screen.numShells &&& (termMask n).toBitVec = 0 then []
  else if k.screen.numShells &&& (termMask n).toBitVec = 0 then
    { k.screen with
      numShells := k.screen.numShells ||| (termMask n).toBitVec
      currentTerminal := n }.clearStores ++
    (executeStores E st shellLine (startTerminal n k) ++
      match sysExecute E st shellLine (startTerminal n k) with
      | none | some (.launched, _) => []
      | some (_, k) => k.screen.showTerminalStores n)
  else k.screen.showTerminalStores n

def screenChangeStores (E : Platform) (st : Stack) (newScreen : ℤ) (k : Kernel) : List Store :=
  if newScreen = k.screen.currentTerminal then
    k.screen.putsStores k.cur.curTerminal (if IsTerminal newScreen then alreadyIn newScreen else messedUp)
  else
    (if IsTerminal k.screen.currentTerminal then k.screen.saveCurrentStores
      else k.screen.putsStores k.cur.curTerminal differentTerminal) ++
    let k := k.setScreen k.savedScreen
    if IsTerminal newScreen then switchToStores E st newScreen k
    else k.screen.putsStores k.cur.curTerminal higherTerminal

/-- What a call that may not come back does to the screen: its stores are within their pages, and if it comes back they
give the pages and the cursors are on the screen. -/
structure CallWrites (s : Screen) (ws : List Store) (r : Option Kernel) : Prop where
  offset : ∀ w ∈ ws, w.2.1 < pageBytes
  returns : ∀ k, r = some k → Writes s ws k.screen ∧ k.screen.InBounds

namespace CallWrites

variable {s s₁ : Screen} {ws ws' : List Store} {r : Option Kernel} {k : Kernel}

theorem of_writes (h : Writes s ws k.screen) (hin : k.screen.InBounds) : CallWrites s ws (some k) where
  offset := h.offset
  returns m hm := by
    rw [← Option.some_inj.mp hm]
    exact ⟨h, hin⟩

/-- A statement that returns, before the call. -/
theorem after (h : Writes s ws s₁) (h' : CallWrites s₁ ws' r) : CallWrites s (ws ++ ws') r where
  offset w hw := (List.mem_append.mp hw).elim (h.offset w) (h'.offset w)
  returns k hk := ⟨h.trans (h'.returns k hk).1, (h'.returns k hk).2⟩

end CallWrites

section Change

variable {E : Platform} {st : Stack} {k : Kernel} {n : ℤ}

/-- A call of `sys_execute` that launches a program prints nothing; only `screenInit` may have been called. -/
theorem sysExecute_writes {command : List UInt8} {o : Outcome} {m : Kernel} (h : k.screen.InBounds)
    (hcur : IsTerminal k.cur.curTerminal) (hexec : sysExecute E st command k = some (o, m)) :
    Writes k.screen (executeStores E st command k) m.screen ∧ m.screen.InBounds := by
  obtain ⟨-, rfl, -⟩ | ⟨r, free, -, -, -, -, htext, rfl⟩ := sysExecute_cases hexec
  · exact Screen.puts_writes h hcur _
  · rw [executeStores, htext]
    have hscreen := (enterProcess_keeps free (readProgram E st r).2 (commandBuffers command st.cmd).2
      (k.loaded E st free r)).screen
    change _ = if k.first then k.screen else k.screen.screenInit at hscreen
    rw [hscreen]
    split
    · exact ⟨.nil rfl, h⟩
    · exact ⟨.nil rfl, .inl rfl, h.cursor⟩

theorem startTerminal_writes (h : k.screen.InBounds) (hn : IsTerminal n) :
    Writes k.screen { k.screen with
        numShells := k.screen.numShells ||| (termMask n).toBitVec
        currentTerminal := n }.clearStores (startTerminal n k).screen ∧
      (startTerminal n k).screen.InBounds ∧ (startTerminal n k).cur = k.cur := by
  obtain ⟨isr, hstart⟩ := startTerminal_eq n k
  rw [hstart]
  have hnamed : Screen.InBounds { k.screen with
      numShells := k.screen.numShells ||| (termMask n).toBitVec
      currentTerminal := n } := ⟨hn, h.cursor⟩
  exact ⟨(Screen.clear_writes _).of_page_eq rfl rfl, hnamed.clear, rfl⟩

theorem switchTo_writes (h : k.screen.InBounds) (hcur : IsTerminal k.cur.curTerminal) (hn : IsTerminal n) :
    CallWrites k.screen (switchToStores E st n k) (switchTo E st n k) := by
  rw [switchTo, switchToWith, switchToStores, ← sysExecute]
  by_cases hfull : k.getBitMap = 0x3F ∧ k.screen.numShells &&& (termMask n).toBitVec = 0
  · rw [if_pos hfull, if_pos hfull]
    exact .of_writes (.nil rfl) h
  rw [if_neg hfull, if_neg hfull]
  by_cases hnew : k.screen.numShells &&& (termMask n).toBitVec = 0
  · rw [if_pos hnew, if_pos hnew]
    obtain ⟨hclear, hin, hsame⟩ := startTerminal_writes h hn
    rw [← hsame] at hcur
    refine .after hclear ?_
    cases hexec : sysExecute E st shellLine (startTerminal n k) with
    | none =>
      -- it never comes back, but what it prints is on the page
      refine ⟨?_, fun m hm => by cases hm⟩
      rw [List.append_nil]
      exact (Screen.puts_writes hin hcur _).1.offset
    | some result =>
      obtain ⟨o, m⟩ := result
      obtain ⟨hwrites, hin'⟩ := sysExecute_writes hin hcur hexec
      have hshow := Screen.showTerminal_writes n m.screen
      have hshown : (m.screen.showTerminal n).InBounds := ⟨hn, hin'.cursor⟩
      cases o with
      | launched => exact .of_writes (hwrites.trans (.nil rfl)) hin'
      | ret v => exact .of_writes (hwrites.trans hshow) hshown
      | resumed status => exact .of_writes (hwrites.trans hshow) hshown
  · rw [if_neg hnew, if_neg hnew]
    exact .of_writes (Screen.showTerminal_writes n k.screen) ⟨hn, h.cursor⟩

theorem screenChange_writes (h : k.screen.InBounds) (hcur : IsTerminal k.cur.curTerminal) :
    CallWrites k.screen (screenChangeStores E st n k) (screenChange E st n k) := by
  rw [screenChange, screenChangeWith, screenChangeStores]
  by_cases hsame : n = k.screen.currentTerminal
  · rw [if_pos hsame, if_pos hsame]
    have hn : IsTerminal n := hsame ▸ h.displayed
    rw [if_pos hn, if_pos hn]
    obtain ⟨hwrites, hin⟩ := Screen.puts_writes h hcur (alreadyIn n)
    exact .of_writes (hwrites.of_page_eq rfl rfl) ⟨hin.displayed, hin.cursor⟩
  · have hsaved : k.savedScreen = k.screen.saveCurrent := if_pos h.displayed
    have hin : k.screen.saveCurrent.InBounds := by
      refine ⟨?_, ?_⟩
      · rw [Screen.saveCurrent, Screen.setPage_currentTerminal]
        exact h.displayed
      · rw [Screen.saveCurrent, Screen.setPage_screenX, Screen.setPage_screenY]
        exact h.cursor
    rw [if_neg hsame, if_neg hsame, if_pos h.displayed, if_pos h.displayed, hsaved]
    refine .after k.screen.saveCurrent_writes ?_
    dsimp only
    by_cases hn : IsTerminal n
    · rw [if_pos hn, if_pos hn]
      exact switchTo_writes (k := k.setScreen k.screen.saveCurrent) hin hcur hn
    · rw [if_neg hn, if_neg hn]
      obtain ⟨hwrites, hin'⟩ := Screen.puts_writes hin hcur higherTerminal
      exact .of_writes hwrites hin'

end Change

/-! ### Runs -/

/-- The calls of the screen driver, and everything else that the kernel does between two of them: it may leave another
process running, or anything else different but the screen. -/
inductive ScreenCall
  | putc (keyInt : Bool) (c : UInt8)
  | backspace
  | clear
  | screenChange (st : Stack) (n : ℤ)
  | resume (m : Kernel)

namespace ScreenCall

def step (E : Platform) : ScreenCall → Kernel → Option Kernel
  | .putc keyInt c, k => some (k.setScreen ({ k.screen with keyInt := keyInt }.putc k.cur.curTerminal c))
  | .backspace, k => some (k.setScreen k.screen.backspace)
  | .clear, k => some (k.setScreen k.screen.clear)
  | .screenChange st n, k => ClosKernel.screenChange E st n k
  | .resume m, k => some (m.setScreen k.screen)

def stores (E : Platform) : ScreenCall → Kernel → List Store
  | .putc keyInt c, k => { k.screen with keyInt := keyInt }.putcStores k.cur.curTerminal c
  | .backspace, k => k.screen.backspaceStores
  | .clear, k => k.screen.clearStores
  | .screenChange st n, k => screenChangeStores E st n k
  | .resume _, _ => []

/-- A process of one of the three terminals is running. -/
def OnTerminal (_ : ScreenCall) (k : Kernel) : Prop := IsTerminal k.cur.curTerminal

instance (a : ScreenCall) (k : Kernel) : Decidable (a.OnTerminal k) := inferInstanceAs (Decidable (IsTerminal _))

theorem step_writes {E : Platform} {k : Kernel} (a : ScreenCall) (hcur : a.OnTerminal k) (h : k.screen.InBounds) :
    CallWrites k.screen (stores E a k) (step E a k) := by
  cases a with
  | putc keyInt c =>
    have hkey : Screen.InBounds { k.screen with keyInt := keyInt } := ⟨h.displayed, h.cursor⟩
    exact .of_writes ((Screen.putc_writes hkey hcur).of_page_eq rfl rfl) hkey.putc
  | backspace => exact .of_writes (Screen.backspace_writes h) ⟨h.stepBack.displayed, h.stepBack.cursor⟩
  | clear => exact .of_writes k.screen.clear_writes h.clear
  | screenChange st n => exact screenChange_writes h hcur
  | resume m => exact .of_writes (.nil rfl) h

end ScreenCall

/-- **No cursor leaves the screen, and no store its page.**  From a screen with all cursors at the origin, as
`screenInit` finds it, after any calls made for processes of the three terminals every cursor is within the 25 rows of
80 columns; and the pages are the result of byte stores that are all below `80 * 25 * 2`. -/
theorem cursor_stays_on_screen {E : Platform} {k₀ : Kernel} {s₀ : Screen} (hinit : k₀.screen = s₀.screenInit)
    (horigin : ∀ t, IsTerminal t → s₀.screenX (t - 1) = 0 ∧ s₀.screenY (t - 1) = 0) {calls : List ScreenCall}
    (hcalls : Meets (ScreenCall.step E) ScreenCall.OnTerminal calls k₀) :
    (∀ w ∈ emitted (ScreenCall.step E) (ScreenCall.stores E) calls k₀, w.2.1 < 80 * 25 * 2) ∧
      ∀ k, runs (ScreenCall.step E) calls k₀ = some k →
        (∀ t, IsTerminal t → k.screen.screenX (t - 1) < 80 ∧ k.screen.screenY (t - 1) < 25) ∧
        k.screen.page
          = (emitted (ScreenCall.step E) (ScreenCall.stores E) calls k₀).foldl storeByte k₀.screen.page := by
  have hstart : k₀.screen.InBounds := by
    rw [hinit]
    refine ⟨.inl rfl, fun t ht => ?_⟩
    obtain ⟨hx, hy⟩ := horigin t ht
    exact ⟨lt_of_eq_of_lt hx (by decide), lt_of_eq_of_lt hy (by decide)⟩
  have hkeep : ∀ a k k', a.OnTerminal k → k.screen.InBounds → ScreenCall.step E a k = some k' →
      k'.screen.InBounds :=
    fun a k k' hcur h hstep => ((a.step_writes hcur h).returns k' hstep).2
  have hoffset : ∀ a k, a.OnTerminal k → k.screen.InBounds → ∀ w ∈ ScreenCall.stores E a k, w.2.1 < 80 * 25 * 2 :=
    fun a k hcur h => (a.step_writes hcur h).offset
  refine ⟨forall_mem_emitted_iff_meets.mpr (hcalls.mono_of_invariant hkeep hoffset hstart), fun k hrun => ⟨?_, ?_⟩⟩
  · exact (runs_invariant_of_meets (P := fun k : Kernel => k.screen.InBounds) hkeep hcalls hstart hrun).cursor
  · refine (runs_simulation_of_meets (R := fun (k : Kernel) pages => k.screen.InBounds ∧ k.screen.page = pages)
      (fun a k k' pages hcur h hstep => ?_) hcalls ⟨hstart, rfl⟩ hrun).2
    obtain ⟨hwrites, hin⟩ := (a.step_writes hcur h.1).returns k' hstep
    exact ⟨hin, by rw [hwrites.page, h.2]⟩

/-- The shell of terminal 1 runs on a screen that has just been initialised. -/
def firstShellKernel : Kernel :=
  { powerOnKernel with
    pcb := pcbAddr 0
    pcbs := fun _ => { (default : Pcb) with curTerminal := 1, parentPid := -1 }
    pidBitmap := 0x01
    first := true
    screen := powerOnKernel.screen.screenInit }

/-- Terminal 2 is opened after a character has been erased twice, and left again. -/
def mixedCalls : List ScreenCall :=
  [.putc false 0x61, .backspace, .backspace, .screenChange default 2, .putc true 0x0A, .screenChange default 1, .clear]

theorem cursor_stays_on_screen_mixed :
    Meets (ScreenCall.step twoProgramPlatform) ScreenCall.OnTerminal mixedCalls firstShellKernel ∧
      ((runs (ScreenCall.step twoProgramPlatform) mixedCalls firstShellKernel).any fun k =>
        k.screen.currentTerminal == 1 && k.screen.screenY 1 == 1) = true ∧
      ∀ w ∈ emitted (ScreenCall.step twoProgramPlatform) (ScreenCall.stores twoProgramPlatform) mixedCalls
        firstShellKernel, w.2.1 < 80 * 25 * 2 :=
  ⟨by decide +kernel, by decide +kernel,
    (cursor_stays_on_screen (show firstShellKernel.screen = powerOnKernel.screen.screenInit from rfl)
      (fun _ _ => ⟨rfl, rfl⟩) (by decide +kernel)).1⟩

end ClosKernel
