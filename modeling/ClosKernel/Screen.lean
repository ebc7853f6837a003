import ClosKernel.Lib.PartialRun
import ClosKernel.Lib.TextTerminal
import ClosKernel.CString

/-!
# The text screens (`lib.c`)

Three virtual terminals share one VGA text page.  The displayed terminal (`currentTerminal`) lives in video
memory; every other terminal lives in its backing page at `VIDEO_TERM + VIDEO_OFFSET * t`.  A page is a byte
memory: cell `i` has its character at `2 * i` and its attribute at `2 * i + 1`.

`Screen` holds the pages, the cursors and the static variables of `lib.c` that choose between them, and this
file embeds `clear`, `backspace`, `updatecursor`, `tScroll`, `putc` and the two copy loops of `screenChange`.
`putc` picks its page from `keyInt` while `tScroll` picks its own from the running process; both choices are
kept as they are.

The second half relates a page to the stand-alone `TextTerminal`: `Shows s t T` says that terminal `t` looks
like `T`.  `putcAt_shows` and `putcAt_frame` are the one-byte refinement, for whichever page is written,
under the condition that `tScroll` picks the same page.
-/

namespace ClosKernel

open PartialRun TextTerminal

def numCols : ℕ := 80
def numRows : ℕ := 25
def attrib : UInt8 := 0x7
def space : UInt8 := 0x20

/-- Newline and carriage return both start the next row. -/
def isBreak (c : UInt8) : Bool := c == 0x0A || c == 0x0D

/-- Where a store of the screen driver goes: video memory, or the backing page of a terminal. -/
inductive Page
  | video
  | term (t : ℤ)
  deriving DecidableEq

/-- The screen state: the pages, and the static variables of `lib.c`. -/
structure Screen where
  currentTerminal : ℤ
  numShells : BitVec 8
  screenX : ℤ → ℕ
  screenY : ℤ → ℕ
  videoMem : Mem
  videoTerm : ℤ → Mem
  keyInt : Bool
  vgaCursor : ℕ

namespace Screen

def page (s : Screen) : Page → Mem
  | .video => s.videoMem
  | .term t => s.videoTerm t

def setPage (s : Screen) (p : Page) (m : Mem) : Screen :=
  match p with
  | .video => { s with videoMem := m }
  | .term t => { s with videoTerm := Function.update s.videoTerm t m }

def setX (s : Screen) (t : ℤ) (x : ℕ) : Screen :=
  { s with screenX := Function.update s.screenX (t - 1) x }

def setY (s : Screen) (t : ℤ) (y : ℕ) : Screen :=
  { s with screenY := Function.update s.screenY (t - 1) y }

/-- The page that shows terminal `t`. -/
def pageOf (s : Screen) (t : ℤ) : Page := if t = s.currentTerminal then .video else .term t

end Screen

/-! ### The loops over a page -/

/-- A cell store: the character and its attribute. -/
def pokeCell (i : ℕ) (c : UInt8) (m : Mem) : Mem :=
  Function.update (Function.update m (2 * i) c) (2 * i + 1) attrib

/-- The two loops of `tScroll`: rows move up by one, then the last row is blanked. -/
def scrollPage (m : Mem) : Mem :=
  upto (fun j => pokeCell ((numRows - 1) * numCols + j) space) numCols
    (upto (fun i m => pokeCell i (m (2 * (i + numCols))) m) ((numRows - 1) * numCols) m)

/-- The loop of `clear`. -/
def clearPage (m : Mem) : Mem :=
  upto (fun i => pokeCell i space) (numRows * numCols) m

/-- The saving loop of `screenChange` copies characters only. -/
def savePage (video backing : Mem) : Mem :=
  upto (fun i m => Function.update m (2 * i) (video (2 * i))) (numRows * numCols) backing

/-- The restoring loop of `screenChange` copies characters and resets the attributes. -/
def restorePage (backing video : Mem) : Mem :=
  upto (fun i => pokeCell i (backing (2 * i))) (numRows * numCols) video

namespace Screen

/-! ### The functions of `lib.c` -/

def clear (s : Screen) : Screen :=
  let s := s.setPage .video (clearPage s.videoMem)
  let s := s.setY s.currentTerminal 0
  s.setX s.currentTerminal 0

/-- The `if`s of `backspace`, which move the cursor. -/
def stepBack (s : Screen) : Screen :=
  let t := s.currentTerminal
  let x := s.screenX (t - 1)
  let y := s.screenY (t - 1)
  if 0 < y then
    if x = 0 then (s.setX t 79).setY t (y - 1)
    else
      let s := s.setX t ((x - 1) % numCols)
      s.setY t ((y + s.screenX (t - 1) / numCols) % numRows)
  else if 0 < x then s.setX t (x - 1) else s

def backspace (s : Screen) : Screen :=
  let t := s.currentTerminal
  let s := s.stepBack
  s.setPage .video (pokeCell (numCols * s.screenY (t - 1) + s.screenX (t - 1)) space s.videoMem)

/-- The position sent to the VGA cursor registers is truncated to 16 bits. -/
def updatecursor (s : Screen) : Screen :=
  let t := s.currentTerminal
  { s with vgaCursor := (s.screenY (t - 1) * 80 + s.screenX (t - 1)) % 2 ^ 16 }

/-- The page `tScroll` scrolls when a process of terminal `cur` is running.  The argument that `putc` passes
to `tScroll` is not used by it. -/
def scrollTarget (s : Screen) (cur : ℤ) : Page :=
  if cur ≠ s.currentTerminal then .term cur else .video

def tScroll (cur : ℤ) (s : Screen) : Screen :=
  s.setPage (s.scrollTarget cur) (scrollPage (s.page (s.scrollTarget cur)))

/-- One of the two copies of the body of `putc`: it writes to page `p` at the cursor of terminal `t`. -/
def putcAt (p : Page) (t cur : ℤ) (c : UInt8) (s : Screen) : Screen :=
  let x := s.screenX (t - 1)
  let y := s.screenY (t - 1)
  if c = 0x0A ∨ c = 0x0D then
    let s := if y = numRows - 1 then s.tScroll cur else s.setY t (y + 1)
    s.setX t 0
  else
    let s := s.setPage p (pokeCell (numCols * y + x) c (s.page p))
    let s := s.setX t (x + 1)
    let s :=
      if y = numRows - 1 ∧ x + 1 = numCols then s.tScroll cur
      else s.setY t ((y + (x + 1) / numCols) % numRows)
    s.setX t ((x + 1) % numCols)

/-- `putc(c)` while a process of terminal `cur` is running. -/
def putc (cur : ℤ) (c : UInt8) (s : Screen) : Screen :=
  if cur = s.currentTerminal ∨ s.keyInt = true then s.putcAt .video s.currentTerminal cur c
  else s.putcAt (.term cur) cur cur c

/-- `puts` and `printf` send their bytes to `putc` one by one. -/
def puts (cur : ℤ) (bytes : List UInt8) (s : Screen) : Screen :=
  bytes.foldl (fun s c => s.putc cur c) s

end Screen

/-! ### Pages, cell by cell -/

@[simp] theorem pokeCell_char (i j : ℕ) (c : UInt8) (m : Mem) :
    pokeCell i c m (2 * j) = if j = i then c else m (2 * j) := by
  unfold pokeCell
  rw [Function.update_of_ne (by omega)]
  by_cases h : j = i
  · rw [if_pos h, h, Function.update_self]
  · rw [if_neg h, Function.update_of_ne (by omega)]

@[simp] theorem pokeCell_attr (i j : ℕ) (c : UInt8) (m : Mem) :
    pokeCell i c m (2 * j + 1) = if j = i then attrib else m (2 * j + 1) := by
  unfold pokeCell
  by_cases h : j = i
  · rw [if_pos h, h, Function.update_self]
  · rw [if_neg h, Function.update_of_ne (by omega), Function.update_of_ne (by omega)]

/-- A byte address is the character or the attribute of a cell. -/
theorem mem_ext {m m' : Mem} (hchar : ∀ i, m (2 * i) = m' (2 * i))
    (hattr : ∀ i, m (2 * i + 1) = m' (2 * i + 1)) : m = m' := by
  funext a
  obtain ⟨i, rfl | rfl⟩ : ∃ i, a = 2 * i ∨ a = 2 * i + 1 := ⟨a / 2, by omega⟩
  · exact hchar i
  · exact hattr i

/-- A loop that stores into the cells `b, b + 1, …, b + n - 1`, each from the page at hand.  What it reads
for cell `b + i` must not be touched by the iterations before it. -/
theorem upto_pokeCell (b n : ℕ) (f : ℕ → Mem → UInt8) (m : Mem)
    (hf : ∀ i m', i < n → (∀ j, b + i ≤ j → m' (2 * j) = m (2 * j)) → f i m' = f i m) (j : ℕ) :
    upto (fun i m => pokeCell (b + i) (f i m) m) n m (2 * j)
        = (if b ≤ j ∧ j < b + n then f (j - b) m else m (2 * j)) ∧
      upto (fun i m => pokeCell (b + i) (f i m) m) n m (2 * j + 1)
        = (if b ≤ j ∧ j < b + n then attrib else m (2 * j + 1)) := by
  -- the invariant: cells below `b + i` are done, the others are as before
  have hinv : ∀ j, upto (fun i m => pokeCell (b + i) (f i m) m) n m (2 * j)
        = (if b ≤ j ∧ j < b + n then f (j - b) m else m (2 * j)) ∧
      upto (fun i m => pokeCell (b + i) (f i m) m) n m (2 * j + 1)
        = (if b ≤ j ∧ j < b + n then attrib else m (2 * j + 1)) := by
    refine upto_invariant (P := fun i (x : Mem) => ∀ j,
      x (2 * j) = (if b ≤ j ∧ j < b + i then f (j - b) m else m (2 * j)) ∧
      x (2 * j + 1) = (if b ≤ j ∧ j < b + i then attrib else m (2 * j + 1))) ?_ ?_
    · intro j
      rw [if_neg (by omega), if_neg (by omega)]
      exact ⟨rfl, rfl⟩
    · intro i x hi hx j
      have hread : f i x = f i m := by
        refine hf i x hi fun j hj => ?_
        rw [(hx j).1, if_neg (by omega)]
      rw [pokeCell_char, pokeCell_attr, hread, (hx j).1, (hx j).2]
      by_cases hj : j = b + i
      · rw [if_pos hj, if_pos hj, if_pos (by omega), if_pos (by omega), hj,
          Nat.add_sub_cancel_left]
        exact ⟨rfl, rfl⟩
      · rw [if_neg hj, if_neg hj]
        by_cases hb : b ≤ j ∧ j < b + i
        · rw [if_pos hb, if_pos hb, if_pos (by omega), if_pos (by omega)]
          exact ⟨rfl, rfl⟩
        · rw [if_neg hb, if_neg hb, if_neg (by omega), if_neg (by omega)]
          exact ⟨rfl, rfl⟩
  exact hinv j

/-- Both loops of `tScroll`, cell by cell: what the second one stores does not reach what the first one read. -/
theorem scrollPage_cell (m : Mem) (j : ℕ) :
    scrollPage m (2 * j) = (if j < 1920 then m (2 * (j + 80)) else if j < 2000 then space else m (2 * j)) ∧
      scrollPage m (2 * j + 1) = if j < 2000 then attrib else m (2 * j + 1) := by
  have hcopy := upto_pokeCell 0 1920 (fun i m => m (2 * (i + 80))) m (fun i m' hi h => h (i + 80) (by omega)) j
  have hblank := upto_pokeCell 1920 80 (fun _ _ => space)
    (upto (fun i m => pokeCell (0 + i) (m (2 * (i + 80))) m) 1920 m) (fun _ _ _ _ => rfl) j
  rw [hcopy.1, hcopy.2] at hblank
  simp only [Nat.zero_add, Nat.zero_le, true_and, Nat.sub_zero] at hblank
  have hchar := hblank.1
  have hattr := hblank.2
  refine ⟨hchar.trans ?_, hattr.trans ?_⟩
  · by_cases h1 : j < 1920
    · rw [if_neg (by omega), if_pos h1, if_pos h1]
    · rw [if_neg h1, if_neg h1]
      by_cases h2 : j < 2000
      · rw [if_pos (by omega), if_pos h2]
      · rw [if_neg (by omega), if_neg h2]
  · by_cases h1 : j < 1920
    · rw [if_neg (by omega), if_pos h1, if_pos (by omega)]
    · by_cases h2 : j < 2000
      · rw [if_pos (by omega), if_pos h2]
      · rw [if_neg (by omega), if_neg h1, if_neg h2]

theorem scrollPage_char (m : Mem) (j : ℕ) : scrollPage m (2 * j)
    = if j < 1920 then m (2 * (j + 80)) else if j < 2000 then space else m (2 * j) :=
  (scrollPage_cell m j).1

theorem scrollPage_attr (m : Mem) (j : ℕ) : scrollPage m (2 * j + 1)
    = if j < 2000 then attrib else m (2 * j + 1) :=
  (scrollPage_cell m j).2

theorem clearPage_char (m : Mem) (j : ℕ) :
    clearPage m (2 * j) = if j < 2000 then space else m (2 * j) := by
  have h := (upto_pokeCell 0 2000 (fun _ _ => space) m (fun _ _ _ _ => rfl) j).1
  simp only [Nat.zero_add, Nat.zero_le, true_and] at h
  exact h

theorem restorePage_char (backing video : Mem) (j : ℕ) :
    restorePage backing video (2 * j) = if j < 2000 then backing (2 * j) else video (2 * j) := by
  have h := (upto_pokeCell 0 2000 (fun i _ => backing (2 * i)) video (fun _ _ _ _ => rfl) j).1
  simp only [Nat.zero_add, Nat.zero_le, true_and, Nat.sub_zero] at h
  exact h

theorem savePage_char (video backing : Mem) (j : ℕ) :
    savePage video backing (2 * j) = if j < 2000 then video (2 * j) else backing (2 * j) := by
  unfold savePage
  rw [show numRows * numCols = 2000 from rfl]
  refine upto_invariant (P := fun n (x : Mem) => ∀ j,
    x (2 * j) = if j < n then video (2 * j) else backing (2 * j)) ?_ ?_ j
  · intro j
    rw [if_neg (Nat.not_lt_zero j)]
  · intro i x hi hx j
    by_cases hj : j = i
    · rw [hj, Function.update_self, if_pos (Nat.lt_succ_self i)]
    · rw [Function.update_of_ne (by omega), hx j]
      by_cases hlt : j < i
      · rw [if_pos hlt, if_pos (by omega)]
      · rw [if_neg hlt, if_neg (by omega)]

/-- A scroll leaves exactly the freshly cleared pages alone. -/
theorem scrollPage_eq_self_iff (m : Mem) :
    scrollPage m = m ↔ ∀ j < 2000, m (2 * j) = space ∧ m (2 * j + 1) = attrib := by
  constructor
  · intro hfix j hj
    refine ⟨?_, ?_⟩
    · -- from the last row upwards, a row at a time
      obtain ⟨d, hd⟩ : ∃ d, 1920 ≤ j + 80 * d := ⟨24, by omega⟩
      induction d generalizing j with
      | zero => rw [← hfix, scrollPage_char, if_neg (by omega), if_pos hj]
      | succ d ih =>
        by_cases hlast : 1920 ≤ j
        · rw [← hfix, scrollPage_char, if_neg (by omega), if_pos hj]
        · rw [← hfix, scrollPage_char, if_pos (by omega)]
          exact ih (j + 80) (by omega) (by omega)
    · rw [← hfix, scrollPage_attr, if_pos hj]
  · intro hblank
    refine mem_ext (fun j => ?_) (fun j => ?_)
    · rw [scrollPage_char]
      by_cases h1 : j < 1920
      · rw [if_pos h1, (hblank j (by omega)).1, (hblank (j + 80) (by omega)).1]
      · rw [if_neg h1]
        by_cases h2 : j < 2000
        · rw [if_pos h2, (hblank j h2).1]
        · rw [if_neg h2]
    · rw [scrollPage_attr]
      by_cases h2 : j < 2000
      · rw [if_pos h2, (hblank j h2).2]
      · rw [if_neg h2]

/-! ### Field lemmas -/

namespace Screen

variable (s : Screen) (p q : Page) (m : Mem) (t t' cur : ℤ) (x y : ℕ)

@[simp] theorem setPage_currentTerminal : (s.setPage p m).currentTerminal = s.currentTerminal := by
  cases p <;> rfl
@[simp] theorem setPage_numShells : (s.setPage p m).numShells = s.numShells := by cases p <;> rfl
@[simp] theorem setPage_keyInt : (s.setPage p m).keyInt = s.keyInt := by cases p <;> rfl
@[simp] theorem setPage_screenX : (s.setPage p m).screenX = s.screenX := by cases p <;> rfl
@[simp] theorem setPage_screenY : (s.setPage p m).screenY = s.screenY := by cases p <;> rfl

@[simp] theorem setPage_page : (s.setPage p m).page q = if q = p then m else s.page q := by
  cases p with
  | video => cases q <;> simp [setPage, page]
  | term t =>
    cases q with
    | video => simp [setPage, page]
    | term u =>
      by_cases h : u = t
      · simp [setPage, page, h]
      · simp [setPage, page, h]

@[simp] theorem setX_currentTerminal : (s.setX t x).currentTerminal = s.currentTerminal := rfl
@[simp] theorem setX_numShells : (s.setX t x).numShells = s.numShells := rfl
@[simp] theorem setX_keyInt : (s.setX t x).keyInt = s.keyInt := rfl
@[simp] theorem setX_screenY : (s.setX t x).screenY = s.screenY := rfl
@[simp] theorem setX_page : (s.setX t x).page q = s.page q := by cases q <;> rfl
@[simp] theorem setX_screenX :
    (s.setX t x).screenX (t' - 1) = if t' = t then x else s.screenX (t' - 1) := by
  by_cases h : t' = t
  · rw [if_pos h, h]
    exact Function.update_self ..
  · rw [if_neg h]
    exact Function.update_of_ne (by omega) ..

@[simp] theorem setY_currentTerminal : (s.setY t y).currentTerminal = s.currentTerminal := rfl
@[simp] theorem setY_numShells : (s.setY t y).numShells = s.numShells := rfl
@[simp] theorem setY_keyInt : (s.setY t y).keyInt = s.keyInt := rfl
@[simp] theorem setY_screenX : (s.setY t y).screenX = s.screenX := rfl
@[simp] theorem setY_page : (s.setY t y).page q = s.page q := by cases q <;> rfl
@[simp] theorem setY_screenY :
    (s.setY t y).screenY (t' - 1) = if t' = t then y else s.screenY (t' - 1) := by
  by_cases h : t' = t
  · rw [if_pos h, h]
    exact Function.update_self ..
  · rw [if_neg h]
    exact Function.update_of_ne (by omega) ..

@[simp] theorem tScroll_currentTerminal : (s.tScroll cur).currentTerminal = s.currentTerminal :=
  setPage_currentTerminal ..
@[simp] theorem tScroll_numShells : (s.tScroll cur).numShells = s.numShells := setPage_numShells ..
@[simp] theorem tScroll_keyInt : (s.tScroll cur).keyInt = s.keyInt := setPage_keyInt ..
@[simp] theorem tScroll_screenX : (s.tScroll cur).screenX = s.screenX := setPage_screenX ..
@[simp] theorem tScroll_screenY : (s.tScroll cur).screenY = s.screenY := setPage_screenY ..
@[simp] theorem tScroll_page : (s.tScroll cur).page q
    = if q = s.scrollTarget cur then scrollPage (s.page (s.scrollTarget cur)) else s.page q :=
  setPage_page ..

theorem pageOf_eq_of_currentTerminal {s s' : Screen}
    (h : s'.currentTerminal = s.currentTerminal) : s'.pageOf t = s.pageOf t := by
  rw [pageOf, pageOf, h]

theorem scrollTarget_eq_of_currentTerminal {s s' : Screen}
    (h : s'.currentTerminal = s.currentTerminal) : s'.scrollTarget cur = s.scrollTarget cur := by
  rw [scrollTarget, scrollTarget, h]

/-- Different terminals are shown on different pages. -/
theorem pageOf_ne {t t' : ℤ} (h : t' ≠ t) : s.pageOf t' ≠ s.pageOf t := by
  unfold pageOf
  split <;> split <;> simp <;> omega

end Screen

/-! ### Terminals as seen on their pages -/

/-- The character cells of a page. -/
def gridOf (m : Mem) : Fin numRows → Fin numCols → UInt8 := fun r c => m (2 * (numCols * r + c))

theorem gridOf_pokeCell (m : Mem) (r : Fin numRows) (c : Fin numCols) (b : UInt8) :
    gridOf (pokeCell (numCols * r + c) b m)
      = Function.update (gridOf m) r (Function.update (gridOf m r) c b) := by
  funext r' c'
  have hc := c.isLt
  have hc' := c'.isLt
  unfold numCols at hc hc'
  rw [gridOf, pokeCell_char]
  by_cases hr : r' = r
  · subst hr
    rw [Function.update_self]
    by_cases hcc : c' = c
    · rw [hcc, Function.update_self, if_pos rfl]
    · rw [Function.update_of_ne hcc, if_neg (fun h => hcc (Fin.ext (by omega)))]
      rfl
  · rw [Function.update_of_ne hr, if_neg (fun h => hr (Fin.ext (by unfold numCols at h; omega)))]
    rfl

theorem gridOf_scrollPage (m : Mem) : gridOf (scrollPage m) = scroll space (gridOf m) := by
  funext r c
  have hr := r.isLt
  have hc := c.isLt
  unfold numCols at hc
  unfold numRows at hr
  rw [gridOf, scrollPage_char]
  by_cases h : r.val + 1 < numRows
  · rw [scroll_apply_of_lt h]
    unfold numRows at h
    rw [if_pos (by unfold numCols; omega)]
    show m (2 * (numCols * r + c + 80)) = m (2 * (numCols * (r.val + 1) + c))
    exact congrArg m (by unfold numCols; omega)
  · rw [scroll_apply_of_last h]
    unfold numRows at h
    rw [if_neg (by unfold numCols; omega), if_pos (by unfold numCols; omega)]

/-- A cell index on the grid is below 2000. -/
theorem cell_lt (r : Fin numRows) (c : Fin numCols) : numCols * r.val + c.val < 2000 := by
  have hr := r.isLt
  have hc := c.isLt
  unfold numCols at *
  unfold numRows at hr
  omega

theorem gridOf_clearPage (m : Mem) : gridOf (clearPage m) = fun _ _ => space := by
  funext r c
  rw [gridOf, clearPage_char, if_pos (cell_lt r c)]

theorem gridOf_savePage (video backing : Mem) : gridOf (savePage video backing) = gridOf video := by
  funext r c
  rw [gridOf, savePage_char, if_pos (cell_lt r c)]
  rfl

theorem gridOf_restorePage (backing video : Mem) :
    gridOf (restorePage backing video) = gridOf backing := by
  funext r c
  rw [gridOf, restorePage_char, if_pos (cell_lt r c)]
  rfl

/-- The stand-alone terminal of this screen's size. -/
abbrev Vterm := Terminal numRows numCols UInt8

/-- What a stand-alone terminal does with one byte of output. -/
def vfeed (T : Vterm) (c : UInt8) : Vterm := T.feed space isBreak c

/-- A freshly cleared terminal. -/
def vhome : Vterm := Terminal.home space (by decide) (by decide)

namespace Screen

/-- The character cells of terminal `t`: video memory if it is displayed, its backing page otherwise. -/
def image (s : Screen) (t : ℤ) : Fin numRows → Fin numCols → UInt8 := gridOf (s.page (s.pageOf t))

/-- Terminal `t` has the picture and the cursor of the stand-alone terminal `T`. -/
structure Shows (s : Screen) (t : ℤ) (T : Vterm) : Prop where
  cell : s.image t = T.cell
  row : s.screenY (t - 1) = T.row
  col : s.screenX (t - 1) = T.col

/-- The byte `c` makes the terminal at cursor `t` scroll. -/
def Scrolls (s : Screen) (t : ℤ) (c : UInt8) : Prop :=
  s.screenY (t - 1) = numRows - 1 ∧ (isBreak c = true ∨ s.screenX (t - 1) + 1 = numCols)

end Screen

theorem isBreak_iff (c : UInt8) : isBreak c = true ↔ c = 0x0A ∨ c = 0x0D := by
  simp [isBreak]

/-! ### One byte of output -/

namespace Screen

variable {s : Screen} {p : Page} {t t' cur : ℤ} {c : UInt8} {T : Vterm}

theorem putcAt_break (h : isBreak c = true) : s.putcAt p t cur c
    = (if s.screenY (t - 1) = numRows - 1 then s.tScroll cur
        else s.setY t (s.screenY (t - 1) + 1)).setX t 0 := by
  rw [putcAt, if_pos ((isBreak_iff c).mp h)]

theorem putcAt_char (h : isBreak c = false) : s.putcAt p t cur c
    = (if s.screenY (t - 1) = numRows - 1 ∧ s.screenX (t - 1) + 1 = numCols then
        ((s.setPage p (pokeCell (numCols * s.screenY (t - 1) + s.screenX (t - 1)) c (s.page p))).setX t
          (s.screenX (t - 1) + 1)).tScroll cur
      else
        ((s.setPage p (pokeCell (numCols * s.screenY (t - 1) + s.screenX (t - 1)) c (s.page p))).setX t
          (s.screenX (t - 1) + 1)).setY t
            ((s.screenY (t - 1) + (s.screenX (t - 1) + 1) / numCols) % numRows)).setX t
        ((s.screenX (t - 1) + 1) % numCols) := by
  rw [putcAt, if_neg (fun hc => by simp [(isBreak_iff c).mpr hc] at h)]

/-- The static variables that choose the pages are not touched by output. -/
theorem putcAt_statics (p : Page) (t cur : ℤ) (c : UInt8) (s : Screen) :
    (s.putcAt p t cur c).currentTerminal = s.currentTerminal ∧
      (s.putcAt p t cur c).numShells = s.numShells ∧
      (s.putcAt p t cur c).keyInt = s.keyInt := by
  cases hc : isBreak c with
  | true =>
    rw [putcAt_break hc]
    split <;> simp
  | false =>
    rw [putcAt_char hc]
    split <;> simp

theorem puts_statics (cur : ℤ) (bytes : List UInt8) (s : Screen) :
    (s.puts cur bytes).currentTerminal = s.currentTerminal ∧
      (s.puts cur bytes).numShells = s.numShells ∧ (s.puts cur bytes).keyInt = s.keyInt := by
  induction bytes generalizing s with
  | nil => exact ⟨rfl, rfl, rfl⟩
  | cons c bytes ih =>
    obtain ⟨hcur, hshells, hkey⟩ := ih (s.putc cur c)
    have hput : (s.putc cur c).currentTerminal = s.currentTerminal ∧
        (s.putc cur c).numShells = s.numShells ∧ (s.putc cur c).keyInt = s.keyInt := by
      unfold putc
      split <;> exact putcAt_statics ..
    exact ⟨hcur.trans hput.1, hshells.trans hput.2.1, hkey.trans hput.2.2⟩

/-- A line break on the page that shows terminal `t`. -/
theorem putcAt_break_shows (hc : isBreak c = true) (hp : s.pageOf t = p)
    (hscroll : s.Scrolls t c → s.scrollTarget cur = p) (h : s.Shows t T) :
    (s.putcAt p t cur c).Shows t (T.lineBreak space) := by
  obtain ⟨hcell, hrow, hcol⟩ := h
  have hpage : (s.putcAt p t cur c).pageOf t = p :=
    (pageOf_eq_of_currentTerminal t (putcAt_statics p t cur c s).1).trans hp
  rw [image, hp] at hcell
  have hrlt := T.row.isLt
  unfold numRows at hrlt
  rw [putcAt_break hc] at hpage ⊢
  by_cases hlast : s.screenY (t - 1) = numRows - 1
  · -- a break on the last row scrolls
    have htarget : s.scrollTarget cur = p := hscroll ⟨hlast, Or.inl hc⟩
    rw [if_pos hlast] at hpage ⊢
    rw [Terminal.lineBreak_of_last (by rw [← hrow, hlast]; decide)]
    refine ⟨?_, ?_, ?_⟩
    · rw [image, hpage]
      simp only [setX_page, tScroll_page, htarget, if_true]
      rw [gridOf_scrollPage, hcell]
    · simpa using hrow
    · simp
  · have hlt : T.row.val + 1 < numRows := by
      rw [← hrow]; unfold numRows at hlast ⊢; omega
    rw [if_neg hlast] at hpage ⊢
    rw [Terminal.lineBreak_of_lt hlt]
    refine ⟨?_, ?_, ?_⟩
    · rw [image, hpage]
      simpa using hcell
    · simp [hrow]
    · simp

/-- A character on the page that shows terminal `t`. -/
theorem putcAt_char_shows (hc : isBreak c = false) (hp : s.pageOf t = p)
    (hscroll : s.Scrolls t c → s.scrollTarget cur = p) (h : s.Shows t T) :
    (s.putcAt p t cur c).Shows t (T.write space c) := by
  obtain ⟨hcell, hrow, hcol⟩ := h
  have hpage : (s.putcAt p t cur c).pageOf t = p :=
    (pageOf_eq_of_currentTerminal t (putcAt_statics p t cur c s).1).trans hp
  rw [image, hp] at hcell
  have hrlt := T.row.isLt
  unfold numRows at hrlt
  have hclt := T.col.isLt
  unfold numCols at hclt
  rw [putcAt_char hc] at hpage ⊢
  have hpoke : gridOf (pokeCell (numCols * s.screenY (t - 1) + s.screenX (t - 1)) c (s.page p))
      = Function.update T.cell T.row (Function.update (T.cell T.row) T.col c) := by
    rw [hrow, hcol, gridOf_pokeCell, hcell]
  by_cases hwrap : T.col.val + 1 < numCols
  · -- the cursor moves right
    have hx : s.screenX (t - 1) + 1 < numCols := by rw [hcol]; exact hwrap
    rw [if_neg (by omega)] at hpage ⊢
    rw [Terminal.write, dif_pos hwrap]
    refine ⟨?_, ?_, ?_⟩
    · rw [image, hpage]
      simpa using hpoke
    · simp only [setX_screenY, setY_screenY, if_true]
      rw [Nat.div_eq_of_lt hx, Nat.add_zero, hrow]
      exact Nat.mod_eq_of_lt T.row.isLt
    · simp only [setX_screenX, if_true]
      rw [Nat.mod_eq_of_lt hx, hcol]
  · have hx : s.screenX (t - 1) + 1 = numCols := by rw [hcol]; unfold numCols at hwrap ⊢; omega
    rw [Terminal.write, dif_neg hwrap]
    by_cases hlast : s.screenY (t - 1) = numRows - 1
    · -- the last cell of the grid: wrapping scrolls
      have htarget : s.scrollTarget cur = p := hscroll ⟨hlast, Or.inr hx⟩
      rw [if_pos ⟨hlast, hx⟩] at hpage ⊢
      rw [Terminal.lineBreak_of_last (by show ¬T.row.val + 1 < numRows; rw [← hrow, hlast]; decide)]
      refine ⟨?_, ?_, ?_⟩
      · rw [image, hpage]
        simp only [setX_page, tScroll_page,
          scrollTarget_eq_of_currentTerminal cur (setX_currentTerminal _ t _),
          scrollTarget_eq_of_currentTerminal cur (setPage_currentTerminal s p _), htarget,
          setPage_page, if_true]
        rw [gridOf_scrollPage, hpoke]
      · simpa using hrow
      · simp [hx]
    · have hlt : T.row.val + 1 < numRows := by
        rw [← hrow]; unfold numRows at hlast ⊢; omega
      rw [if_neg (fun h => hlast h.1)] at hpage ⊢
      rw [Terminal.lineBreak_of_lt (by exact hlt)]
      refine ⟨?_, ?_, ?_⟩
      · rw [image, hpage]
        simpa using hpoke
      · simp only [setX_screenY, setY_screenY, if_true]
        rw [hx, Nat.div_self (by decide), hrow]
        exact Nat.mod_eq_of_lt hlt
      · simp [hx]

/-- **Output refines the stand-alone terminal.**  If `putc` writes the page that shows terminal `t`, and a
scroll, when one is due, goes to that page too, then `t` changes as a stand-alone terminal does. -/
theorem putcAt_shows (hp : s.pageOf t = p) (hscroll : s.Scrolls t c → s.scrollTarget cur = p)
    (h : s.Shows t T) : (s.putcAt p t cur c).Shows t (vfeed T c) := by
  cases hc : isBreak c with
  | true =>
    rw [show vfeed T c = T.lineBreak space from if_pos hc]
    exact putcAt_break_shows hc hp hscroll h
  | false =>
    rw [show vfeed T c = T.write space c from if_neg (by simp [hc])]
    exact putcAt_char_shows hc hp hscroll h

/-- Output to terminal `t` leaves every page alone that it neither writes nor scrolls, and every cursor but
`t`'s. -/
theorem putcAt_frame {q : Page} (hq : q ≠ p) (hscroll : s.Scrolls t c → q ≠ s.scrollTarget cur) :
    (s.putcAt p t cur c).page q = s.page q := by
  cases hc : isBreak c with
  | true =>
    rw [putcAt_break hc]
    split
    · rename_i hlast
      simp [hscroll ⟨hlast, Or.inl hc⟩]
    · simp
  | false =>
    rw [putcAt_char hc]
    split
    · rename_i hwrap
      have htarget := hscroll ⟨hwrap.1, Or.inr hwrap.2⟩
      simp only [setX_page, tScroll_page,
        scrollTarget_eq_of_currentTerminal cur (setX_currentTerminal _ t _),
        scrollTarget_eq_of_currentTerminal cur (setPage_currentTerminal s p _), if_neg htarget,
        setPage_page, if_neg hq]
    · simp [hq]

theorem putcAt_cursor (ht : t' ≠ t) :
    (s.putcAt p t cur c).screenX (t' - 1) = s.screenX (t' - 1) ∧
      (s.putcAt p t cur c).screenY (t' - 1) = s.screenY (t' - 1) := by
  cases hc : isBreak c with
  | true =>
    rw [putcAt_break hc]
    split <;> simp [ht]
  | false =>
    rw [putcAt_char hc]
    split <;> simp [ht]

end Screen

end ClosKernel
