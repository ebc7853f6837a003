import ClosKernel.Screen
import ClosKernel.Lib.ScrolledText

/-!
# Erasing what was typed (`putc` and `backspace` of `lib.c`)

`putc` wraps at the end of a row and scrolls at the end of the page, and `backspace` walks back over the starts of rows
with rules of its own for row 0 and column 0.  Both are operations of a stand-alone terminal, where text and grid are
parts of one tape.

* `Screen.backspace_shows` — `backspace` refines `Terminal.erase`;
* `Screen.puts_shows` — text refines it too, and the scrolls of the page are those of the stand-alone terminal;
* `erasing_undoes_typing` — **the inverse**: text and as many erasures leave blanks and the scrolls.
-/

namespace ClosKernel

open PartialRun TextTerminal

namespace Screen

variable {s : Screen} {t : ℤ} {T : Vterm}

/-! ### One erasure -/

theorem setX_self (s : Screen) (t : ℤ) : s.setX t (s.screenX (t - 1)) = s := by
  rw [setX, Function.update_eq_self]

theorem setY_self (s : Screen) (t : ℤ) : s.setY t (s.screenY (t - 1)) = s := by
  rw [setY, Function.update_eq_self]

/-- Only the cursor of the displayed terminal moves, and not off the screen. -/
theorem stepBack_eq (s : Screen) : ∃ x y, s.stepBack = (s.setX s.currentTerminal x).setY s.currentTerminal y ∧
    (s.screenX (s.currentTerminal - 1) < numCols ∧ s.screenY (s.currentTerminal - 1) < numRows →
      x < numCols ∧ y < numRows) := by
  rw [stepBack]
  dsimp only
  split
  · split
    · exact ⟨79, s.screenY (s.currentTerminal - 1) - 1, rfl, fun h => ⟨by decide, by omega⟩⟩
    · exact ⟨_, _, rfl, fun h => ⟨Nat.mod_lt _ (by decide), Nat.mod_lt _ (by decide)⟩⟩
  · split
    · exact ⟨s.screenX (s.currentTerminal - 1) - 1, s.screenY (s.currentTerminal - 1),
        (setY_self (s.setX s.currentTerminal _) _).symm, fun h => ⟨by omega, h.2⟩⟩
    · exact ⟨s.screenX (s.currentTerminal - 1), s.screenY (s.currentTerminal - 1), by rw [setX_self, setY_self], id⟩

theorem stepBack_statics (s : Screen) : s.stepBack.currentTerminal = s.currentTerminal ∧
    s.stepBack.numShells = s.numShells ∧ s.stepBack.keyInt = s.keyInt ∧ s.stepBack.page = s.page := by
  obtain ⟨x, y, heq, -⟩ := s.stepBack_eq
  rw [heq]
  exact ⟨rfl, rfl, rfl, funext fun q => by rw [setY_page, setX_page]⟩

/-- The displayed terminal is in video memory. -/
theorem image_displayed (ht : s.currentTerminal = t) : s.image t = gridOf s.videoMem := by
  rw [image, pageOf, if_pos ht.symm]
  rfl

/-- From a cursor on the screen, the cell before it, or the same one in the upper left corner. -/
theorem stepBack_cursor {x y : ℕ} (ht : s.currentTerminal = t) (hx : s.screenX (t - 1) = x) (hy : s.screenY (t - 1) = y)
    (hx80 : x < 80) (hy25 : y < 25) :
    s.stepBack.screenX (t - 1) = (if 0 < x then x - 1 else if 0 < y then 79 else x) ∧
      s.stepBack.screenY (t - 1) = if 0 < x then y else y - 1 := by
  have hstep : s.stepBack = if 0 < y then
      if x = 0 then (s.setX t 79).setY t (y - 1)
      else (s.setX t ((x - 1) % 80)).setY t ((y + (s.setX t ((x - 1) % 80)).screenX (t - 1) / 80) % 25)
      else if 0 < x then s.setX t (x - 1) else s := by
    rw [← ht] at hx hy ⊢
    rw [← hx, ← hy]
    rfl
  rw [hstep]
  by_cases hrow : 0 < y
  · rw [if_pos hrow]
    by_cases hcol : x = 0
    · simp [hcol, hrow]
    · have hcol' : 0 < x := by omega
      rw [if_neg hcol, if_pos hcol', if_pos hcol']
      simp only [setY_screenX, setX_screenX, setY_screenY, if_true]
      omega
  · rw [if_neg hrow]
    by_cases hcol : 0 < x
    · rw [if_pos hcol, if_pos hcol, if_pos hcol]
      simp only [setX_screenX, setX_screenY, if_true, hy, true_and]
    · rw [if_neg hcol, if_neg hcol, if_neg hcol, if_neg hrow]
      omega

theorem stepBack_shows (ht : s.currentTerminal = t) (h : s.Shows t T) : s.stepBack.Shows t T.back := by
  have hcell : s.stepBack.image t = T.cell := by
    obtain ⟨hcur, -, -, hpage⟩ := s.stepBack_statics
    rw [← h.cell, image_displayed (hcur.trans ht), image_displayed ht]
    exact congrArg (fun pages : Page → Mem => gridOf (pages .video)) hpage
  obtain ⟨hx, hy⟩ := stepBack_cursor ht h.col h.row T.col.isLt T.row.isLt
  rw [Terminal.back]
  by_cases hcol : 0 < T.col.val
  · rw [if_pos hcol] at hx hy
    rw [if_pos hcol]
    exact ⟨hcell, hy, hx⟩
  · rw [if_neg hcol] at hx hy
    rw [if_neg hcol]
    by_cases hrow : 0 < T.row.val
    · rw [if_pos hrow] at hx
      rw [if_pos hrow]
      exact ⟨hcell, hy, hx⟩
    · rw [if_neg hrow] at hx
      rw [if_neg hrow]
      exact ⟨hcell, hy.trans (by omega), hx⟩

theorem backspace_currentTerminal (s : Screen) : s.backspace.currentTerminal = s.currentTerminal :=
  (s.stepBack_statics).1

/-- **`backspace` refines the stand-alone terminal.** -/
theorem backspace_shows (ht : s.currentTerminal = t) (h : s.Shows t T) : s.backspace.Shows t (T.erase space) := by
  have hback := stepBack_shows ht h
  have hcell : gridOf s.stepBack.videoMem = T.back.cell := by
    rw [← hback.cell, image_displayed (s.stepBack_statics.1.trans ht)]
  refine ⟨?_, hback.row, hback.col⟩
  rw [image_displayed (s.backspace_currentTerminal.trans ht), backspace, ht, hback.row, hback.col]
  show gridOf (pokeCell _ space s.stepBack.videoMem) = _
  rw [gridOf_pokeCell, hcell]
  rfl

theorem backspace_iterate_shows (n : ℕ) (ht : s.currentTerminal = t) (h : s.Shows t T) :
    (backspace^[n] s).currentTerminal = t ∧ (backspace^[n] s).Shows t ((Terminal.erase space)^[n] T) := by
  induction n generalizing s T with
  | zero => exact ⟨ht, h⟩
  | succ n ih => exact ih (s.backspace_currentTerminal.trans ht) (backspace_shows ht h)

/-! ### Text -/

instance (s : Screen) (t : ℤ) (c : UInt8) : Decidable (s.Scrolls t c) := inferInstanceAs (Decidable (_ ∧ _))

/-- How often the page scrolls while the bytes are sent to `putc`. -/
def scrollCount (cur : ℤ) : List UInt8 → Screen → ℕ
  | [], _ => 0
  | c :: w, s => (if s.Scrolls cur c then 1 else 0) + scrollCount cur w (s.putc cur c)

theorem putc_shows (ht : s.currentTerminal = t) (h : s.Shows t T) (c : UInt8) :
    (s.putc t c).currentTerminal = t ∧ (s.putc t c).Shows t (vfeed T c) := by
  have hput : s.putc t c = s.putcAt .video t t c := by
    rw [putc, if_pos (Or.inl ht.symm), ht]
  have htarget : s.scrollTarget t = .video := if_neg (not_not.mpr ht.symm)
  rw [hput]
  exact ⟨(putcAt_statics ..).1.trans ht, putcAt_shows (if_pos ht.symm) (fun _ => htarget) h⟩

/-- A character scrolls the page from its last cell. -/
theorem scrolls_iff (h : s.Shows t T) {c : UInt8} (hc : isBreak c = false) :
    s.Scrolls t c ↔ ¬(T.row.val + 1 < numRows ∨ T.col.val + 1 < numCols) := by
  have hrow := T.row.isLt
  have hcol := T.col.isLt
  rw [Scrolls, h.row, h.col, hc]
  unfold numRows numCols at *
  simp only [Bool.false_eq_true, false_or]
  omega

/-- Text on the displayed terminal, with its scrolls. -/
theorem puts_shows {w : List UInt8} (hw : ∀ c ∈ w, isBreak c = false) (ht : s.currentTerminal = t) (h : s.Shows t T) :
    (s.puts t w).currentTerminal = t ∧ (s.puts t w).Shows t (w.foldl vfeed T) ∧
      s.scrollCount t w = T.scrolls space isBreak w := by
  induction w generalizing s T with
  | nil => exact ⟨ht, h, rfl⟩
  | cons c w ih =>
    obtain ⟨hc, hw⟩ := List.forall_mem_cons.mp hw
    obtain ⟨hcur, hshows⟩ := putc_shows ht h c
    obtain ⟨hkept, hrest, hcount⟩ := ih hw hcur hshows
    refine ⟨hkept, hrest, ?_⟩
    rw [scrollCount, Terminal.scrolls, Terminal.overflow, hcount]
    simp only [scrolls_iff h hc, ite_not]
    rfl

/-! ### The inverse -/

/-- The picture of terminal `t`, moved up by `n` rows. -/
def moved (s : Screen) (t : ℤ) (n : ℕ) (r : Fin numRows) (c : Fin numCols) : UInt8 :=
  if h : r.val + n < numRows then s.image t ⟨r.val + n, h⟩ c else space

/-- Cell `(r, c)` is one of those that a text of `len` bytes occupies, once the page has scrolled `n` times. -/
def InText (s : Screen) (t : ℤ) (len n r c : ℕ) : Prop :=
  80 * s.screenY (t - 1) + s.screenX (t - 1) ≤ 80 * (r + n) + c ∧
    80 * (r + n) + c < 80 * s.screenY (t - 1) + s.screenX (t - 1) + len

/-- A text of `len` bytes has been erased, after `n` scrolls. -/
structure Erased (s s' : Screen) (t : ℤ) (len n : ℕ) : Prop where
  displayed : s'.currentTerminal = t
  col : s'.screenX (t - 1) = s.screenX (t - 1)
  room : n ≤ s.screenY (t - 1)
  row : s'.screenY (t - 1) = s.screenY (t - 1) - n
  text : ∀ r c, s.InText t len n r.val c.val → s'.image t r c = space
  others : ∀ r c, ¬s.InText t len n r.val c.val → s'.image t r c = s.moved t n r c

/-- The tape of a picture, from row `n` on. -/
theorem tapeOf_moved (s : Screen) (t : ℤ) (n : ℕ) (r : Fin numRows) (c : Fin numCols) :
    tapeOf space (s.image t) (numCols * (r.val + n) + c.val) = s.moved t n r c := by
  rw [moved]
  split
  · rename_i h
    exact tapeOf_place (s.image t) ⟨r.val + n, h⟩ c
  · rename_i h
    refine tapeOf_below _ (Nat.le_trans (Nat.mul_le_mul_left numCols ?_) (Nat.le_add_right _ c.val))
    omega

end Screen

/-- **Erasing undoes typing.**  On the displayed terminal, from any picture and any cursor on the screen, text without
breaks and as many calls of `backspace` leave the cursor where it was, moved up by the scrolls.  The cells of the text
are blank, and so are the rows that were scrolled in; every other cell is the one that the scrolls have put there. -/
theorem erasing_undoes_typing (s : Screen) {t : ℤ} (ht : s.currentTerminal = t) (hx : s.screenX (t - 1) < 80)
    (hy : s.screenY (t - 1) < 25) (w : List UInt8) (hw : ∀ c ∈ w, c ≠ 0x0A ∧ c ≠ 0x0D) (hlen : w.length ≤ 127) :
    s.Erased (Screen.backspace^[w.length] (s.puts t w)) t w.length (s.scrollCount t w) := by
  have hshows : s.Shows t ⟨s.image t, ⟨_, hy⟩, ⟨_, hx⟩⟩ := ⟨rfl, rfl, rfl⟩
  have hbreak : ∀ c ∈ w, isBreak c = false := by
    intro c hc
    rw [← Bool.not_eq_true, isBreak_iff]
    exact not_or.mpr (hw c hc)
  obtain ⟨hcur, htyped, hcount⟩ := Screen.puts_shows hbreak ht hshows
  obtain ⟨hkept, herased⟩ := Screen.backspace_iterate_shows w.length hcur htyped
  -- the picture at the start is the beginning of a tape
  obtain ⟨hviews, -⟩ := Views.erase_feed_text hbreak
    (Views.start space ⟨s.image t, ⟨_, hy⟩, ⟨_, hx⟩⟩) (Nat.zero_le _) (Nat.le_trans hlen (by decide))
  rw [Nat.zero_add, ← hcount] at hviews
  obtain ⟨hrow, hcol⟩ := (place_inj (Fin.isLt _) hx).mp hviews.cursor
  have hrow : (Screen.backspace^[w.length] (s.puts t w)).screenY (t - 1) + s.scrollCount t w = s.screenY (t - 1) :=
    (congrArg (· + s.scrollCount t w) herased.row).trans hrow
  have hcell := fun r c => (congrFun (congrFun herased.cell r) c).trans (hviews.cell r c)
  refine ⟨hkept, herased.col.trans hcol, by omega, by omega, fun r c hin => ?_, fun r c hout => ?_⟩
  · exact (hcell r c).trans (if_pos hin)
  · exact (hcell r c).trans ((if_neg hout).trans (s.tapeOf_moved t _ r c))

/-- A displayed terminal 1 with a letter in its first row and the cursor in its last cell. -/
def fullScreen : Screen where
  currentTerminal := 1
  numShells := 1
  screenX _ := 79
  screenY _ := 24
  videoMem i := if i = 160 then 0x61 else space
  videoTerm _ _ := space
  keyInt := false
  vgaCursor := 0

theorem erasing_undoes_typing_full : fullScreen.scrollCount 1 [0x62, 0x63] = 1 ∧
    fullScreen.Erased (Screen.backspace^[2] (fullScreen.puts 1 [0x62, 0x63])) 1 2 1 := by
  have hcount : fullScreen.scrollCount 1 [0x62, 0x63] = 1 := by decide +kernel
  have herased := erasing_undoes_typing fullScreen (t := 1) rfl (by decide) (by decide) [0x62, 0x63] (by simp)
    (by decide)
  rw [hcount] at herased
  exact ⟨hcount, herased⟩

end ClosKernel
