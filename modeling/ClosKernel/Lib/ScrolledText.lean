import ClosKernel.Lib.TextTerminal
import Mathlib.Tactic.Ring

/-!
# Text on a terminal that scrolls

What is written to a terminal without a break is one line of text, however often it wraps, and whether or not the grid
scrolls under it.  `Views tape s p T` says so: the grid of `T` is the part of an endless tape that starts `s` rows from
its beginning, everything below the grid is blank, and the cursor is at position `p` of the tape.  Writing a cell
stores it at `p`, and going back one cell blanks the one before `p`; a scroll only moves the grid along the tape.

* `Terminal.erase` — go back by one cell and blank it;
* `Views.write`, `Views.erase` — what the two operations do to the tape;
* `Views.feed_text`, `Views.erase_iterate` — what a text does to it, and erasing as many cells;
* `Views.erase_feed_text` — **erasing undoes writing**: only the cells of the text have become blank.
-/

namespace TextTerminal

variable {R C : ℕ} {γ : Type*} {blank : γ} {isBreak : γ → Bool}

namespace Terminal

/-- The cursor goes back by one cell, to the end of the row above if it is at the start of a row; in the upper left
corner it stays. -/
def back (T : Terminal R C γ) : Terminal R C γ :=
  if 0 < T.col.val then { T with col := ⟨T.col.val - 1, by have := T.col.isLt; omega⟩ }
  else if 0 < T.row.val then
    { T with row := ⟨T.row.val - 1, by have := T.row.isLt; omega⟩, col := ⟨C - 1, by have := T.col.isLt; omega⟩ }
  else T

/-- Store a cell under the cursor. -/
def poke (g : γ) (T : Terminal R C γ) : Terminal R C γ :=
  { T with cell := Function.update T.cell T.row (Function.update (T.cell T.row) T.col g) }

/-- Go back by one cell and blank it. -/
def erase (blank : γ) (T : Terminal R C γ) : Terminal R C γ := T.back.poke blank

/-- The scrolls that a cell makes which is not a break: one if the cursor is in the last cell of the grid. -/
def overflow (T : Terminal R C γ) : ℕ := if T.row.val + 1 < R ∨ T.col.val + 1 < C then 0 else 1

/-- The scrolls that a text without breaks makes. -/
def scrolls (blank : γ) (isBreak : γ → Bool) : List γ → Terminal R C γ → ℕ
  | [], _ => 0
  | g :: w, T => T.overflow + scrolls blank isBreak w (T.feed blank isBreak g)

theorem poke_apply (g : γ) (T : Terminal R C γ) (r : Fin R) (c : Fin C) :
    (T.poke g).cell r c = if r = T.row ∧ c = T.col then g else T.cell r c := by
  show Function.update T.cell T.row _ r c = _
  by_cases hr : r = T.row
  · rw [hr, Function.update_self]
    by_cases hc : c = T.col
    · rw [hc, Function.update_self, if_pos ⟨rfl, rfl⟩]
    · rw [Function.update_of_ne hc, if_neg fun h => hc h.2]
  · rw [Function.update_of_ne hr, if_neg fun h => hr h.1]

/-- A cell that is not a break is stored, and the cursor moves on. -/
theorem write_eq (g : γ) (T : Terminal R C γ) : T.write blank g
    = if h : T.col.val + 1 < C then { T.poke g with col := ⟨T.col.val + 1, h⟩ } else (T.poke g).lineBreak blank :=
  rfl

end Terminal

/-! ### The grid as a part of a tape -/

/-- Positions on the tape are places in its rows. -/
theorem place_inj {a b c d : ℕ} (hc : c < C) (hd : d < C) : C * a + c = C * b + d ↔ a = b ∧ c = d := by
  have hpos : 0 < C := Nat.lt_of_le_of_lt (Nat.zero_le c) hc
  constructor
  · intro h
    have hrow := congrArg (· / C) h
    simp only [Nat.mul_add_div hpos, Nat.div_eq_of_lt hc, Nat.div_eq_of_lt hd, Nat.add_zero] at hrow
    subst hrow
    exact ⟨rfl, by omega⟩
  · rintro ⟨rfl, rfl⟩
    rfl

/-- The grid of `T` is the part of the tape from row `s` on, and the cursor is at position `p`. -/
structure Views (blank : γ) (tape : ℕ → γ) (s p : ℕ) (T : Terminal R C γ) : Prop where
  cell : ∀ r c, T.cell r c = tape (C * (r.val + s) + c.val)
  below : ∀ a, C * (R + s) ≤ a → tape a = blank
  cursor : C * (T.row.val + s) + T.col.val = p

/-- The tape that a grid is the beginning of. -/
def tapeOf (blank : γ) (g : Fin R → Fin C → γ) (a : ℕ) : γ :=
  if h : a / C < R ∧ a % C < C then g ⟨a / C, h.1⟩ ⟨a % C, h.2⟩ else blank

theorem tapeOf_place (g : Fin R → Fin C → γ) (r : Fin R) (c : Fin C) :
    tapeOf blank g (C * r.val + c.val) = g r c := by
  have hpos : 0 < C := Nat.lt_of_le_of_lt (Nat.zero_le c.val) c.isLt
  have hdiv : (C * r.val + c.val) / C = r.val := by
    rw [Nat.mul_add_div hpos, Nat.div_eq_of_lt c.isLt, Nat.add_zero]
  have hmod : (C * r.val + c.val) % C = c.val := by
    rw [Nat.mul_add_mod, Nat.mod_eq_of_lt c.isLt]
  have hin : (C * r.val + c.val) / C < R ∧ (C * r.val + c.val) % C < C := by
    rw [hdiv, hmod]
    exact ⟨r.isLt, c.isLt⟩
  rw [tapeOf, dif_pos hin]
  exact congr (congrArg g (Fin.ext hdiv)) (Fin.ext hmod)

theorem tapeOf_below (g : Fin R → Fin C → γ) {a : ℕ} (h : C * R ≤ a) : tapeOf blank g a = blank := by
  refine dif_neg fun hin => ?_
  have hlt := (Nat.div_lt_iff_lt_mul (Nat.lt_of_le_of_lt (Nat.zero_le _) hin.2)).mp hin.1
  rw [Nat.mul_comm] at hlt
  omega

theorem Views.start (blank : γ) (T : Terminal R C γ) :
    Views blank (tapeOf blank T.cell) 0 (C * T.row.val + T.col.val) T where
  cell r c := (tapeOf_place T.cell r c).symm
  below _ ha := tapeOf_below T.cell ha
  cursor := rfl

/-! ### Writing and erasing on the tape -/

namespace Views

variable {tape : ℕ → γ} {s p p₀ : ℕ} {T : Terminal R C γ}

theorem cursor_lt (h : Views blank tape s p T) : p < C * (R + s) := by
  rw [← h.cursor]
  have hcol := T.col.isLt
  have hrow : C * (T.row.val + s + 1) ≤ C * (R + s) := Nat.mul_le_mul_left C (by have := T.row.isLt; omega)
  rw [Nat.mul_add_one] at hrow
  omega

/-- A store under the cursor is a store at its position. -/
theorem poke (h : Views blank tape s p T) (g : γ) : Views blank (Function.update tape p g) s p (T.poke g) where
  cell r c := by
    rw [Terminal.poke_apply, Function.update_apply, ← h.cursor]
    by_cases hcell : r = T.row ∧ c = T.col
    · rw [if_pos hcell, if_pos (by rw [hcell.1, hcell.2])]
    · rw [if_neg hcell, if_neg, h.cell]
      intro heq
      obtain ⟨hr, hc⟩ := (place_inj c.isLt T.col.isLt).mp heq
      exact hcell ⟨Fin.ext (by omega), Fin.ext hc⟩
  below a ha := by
    rw [Function.update_of_ne, h.below a ha]
    have := h.cursor_lt
    omega
  cursor := h.cursor

/-- **Writing** stores the cell at the cursor's position, which moves on; the grid moves along the tape if the cell was
its last one. -/
theorem write (h : Views blank tape s p T) (g : γ) :
    Views blank (Function.update tape p g) (s + T.overflow) (p + 1) (T.write blank g) := by
  have hpoke := h.poke g
  have hcursor := h.cursor
  rw [Terminal.write_eq, Terminal.overflow]
  by_cases hcol : T.col.val + 1 < C
  · rw [dif_pos hcol, if_pos (Or.inr hcol)]
    refine ⟨hpoke.cell, hpoke.below, ?_⟩
    show C * (T.row.val + s) + (T.col.val + 1) = p + 1
    omega
  · have hlast : T.col.val + 1 = C := by
      have := T.col.isLt
      omega
    have hnext : C * (T.row.val + s + 1) = p + 1 := by
      rw [Nat.mul_add_one]
      omega
    rw [dif_neg hcol]
    by_cases hrow : T.row.val + 1 < R
    · rw [if_pos (Or.inl hrow), Terminal.lineBreak_of_lt (show (T.poke g).row.val + 1 < R from hrow)]
      refine ⟨hpoke.cell, hpoke.below, ?_⟩
      show C * (T.row.val + 1 + s) + 0 = p + 1
      rw [← hnext, Nat.add_zero, Nat.add_right_comm]
    · rw [if_neg (not_or.mpr ⟨hrow, hcol⟩), Terminal.lineBreak_of_last (show ¬(T.poke g).row.val + 1 < R from hrow)]
      refine ⟨fun r c => ?_, fun a ha => hpoke.below a ?_, ?_⟩
      · show scroll blank (T.poke g).cell r c = _
        by_cases hr : r.val + 1 < R
        · rw [scroll_apply_of_lt hr, hpoke.cell, Nat.add_right_comm r.val 1 s, Nat.add_assoc]
        · -- the row that comes in is below the grid
          rw [scroll_apply_of_last hr, hpoke.below]
          refine Nat.le_trans (Nat.mul_le_mul_left C ?_) (Nat.le_add_right _ c.val)
          have := r.isLt
          omega
      · exact Nat.le_trans (Nat.mul_le_mul_left C (by omega)) ha
      · show C * (T.row.val + (s + 1)) + 0 = p + 1
        rw [← hnext, Nat.add_zero, Nat.add_assoc]

/-- While no more than a grid without its last row has been written from `p₀` on, `p₀` is still on the grid. -/
theorem start_stays (h : Views blank tape s p T) (hstart : C * s ≤ p₀) (hfew : p + 1 ≤ p₀ + C * (R - 1)) :
    C * (s + T.overflow) ≤ p₀ := by
  rw [Terminal.overflow]
  split
  · exact hstart
  · rename_i hlast
    have hrow : T.row.val = R - 1 := by
      have := T.row.isLt
      omega
    have hcol : T.col.val + 1 = C := by
      have := T.col.isLt
      omega
    have hcursor := h.cursor
    rw [hrow, Nat.mul_add] at hcursor
    rw [Nat.mul_add_one]
    omega

/-- Going back moves the cursor to the position before. -/
theorem back (h : Views blank tape s p T) (hp : C * s < p) : Views blank tape s (p - 1) T.back := by
  have hcursor := h.cursor
  rw [Terminal.back]
  by_cases hcol : 0 < T.col.val
  · rw [if_pos hcol]
    refine ⟨h.cell, h.below, ?_⟩
    show C * (T.row.val + s) + (T.col.val - 1) = p - 1
    omega
  · have hrow : 0 < T.row.val := by
      by_contra hzero
      rw [show T.row.val + s = s by omega] at hcursor
      omega
    rw [if_neg hcol, if_pos hrow]
    refine ⟨h.cell, h.below, ?_⟩
    show C * (T.row.val - 1 + s) + (C - 1) = p - 1
    have hC := T.col.isLt
    have hprev : C * (T.row.val + s) = C * (T.row.val - 1 + s) + C := by
      rw [← Nat.mul_add_one]
      congr 1
      omega
    omega

/-- **Erasing** blanks the position before the cursor. -/
theorem erase (h : Views blank tape s p T) (hp : C * s < p) :
    Views blank (Function.update tape (p - 1) blank) s (p - 1) (T.erase blank) :=
  (h.back hp).poke blank

end Views

/-! ### Texts -/

/-- The tape with `w` at position `p`. -/
def putText (blank : γ) (p : ℕ) (w : List γ) (tape : ℕ → γ) (a : ℕ) : γ :=
  if p ≤ a ∧ a < p + w.length then w.getD (a - p) blank else tape a

/-- The tape with `n` blanks at position `p`. -/
def blanked (blank : γ) (p n : ℕ) (tape : ℕ → γ) (a : ℕ) : γ := if p ≤ a ∧ a < p + n then blank else tape a

theorem putText_cons (p : ℕ) (g : γ) (w : List γ) (tape : ℕ → γ) :
    putText blank (p + 1) w (Function.update tape p g) = putText blank p (g :: w) tape := by
  funext a
  rw [putText, putText, List.length_cons]
  rcases Nat.lt_trichotomy a p with hlt | rfl | hgt
  · rw [if_neg (by omega), if_neg (by omega), Function.update_of_ne (by omega)]
  · rw [if_neg (by omega), if_pos (by omega), Function.update_self, Nat.sub_self, List.getD_cons_zero]
  · rw [Function.update_of_ne (by omega)]
    by_cases hin : a < p + (w.length + 1)
    · rw [if_pos (by omega), if_pos (by omega), show a - p = a - (p + 1) + 1 by omega, List.getD_cons_succ]
    · rw [if_neg (by omega), if_neg (by omega)]

theorem blanked_succ (p n : ℕ) (tape : ℕ → γ) :
    blanked blank p n (Function.update tape (p + n) blank) = blanked blank p (n + 1) tape := by
  funext a
  rw [blanked, blanked]
  by_cases hlast : a = p + n
  · rw [if_neg (by omega), if_pos (by omega), hlast, Function.update_self]
  · rw [Function.update_of_ne hlast]
    by_cases hin : p ≤ a ∧ a < p + n
    · rw [if_pos hin, if_pos (by omega)]
    · rw [if_neg hin, if_neg (by omega)]

/-- Blanks over a text leave nothing of it. -/
theorem blanked_putText (p : ℕ) (w : List γ) (tape : ℕ → γ) :
    blanked blank p w.length (putText blank p w tape) = blanked blank p w.length tape := by
  funext a
  rw [blanked, blanked, putText]
  by_cases hin : p ≤ a ∧ a < p + w.length
  · rw [if_pos hin, if_pos hin]
  · rw [if_neg hin, if_neg hin, if_neg hin]

namespace Views

variable {tape : ℕ → γ} {s p p₀ : ℕ} {T : Terminal R C γ}

/-- **A text** is put on the tape at the cursor's position. -/
theorem feed_text {w : List γ} (hw : ∀ g ∈ w, isBreak g = false) (h : Views blank tape s p T) (hstart : C * s ≤ p₀)
    (hfew : p + w.length ≤ p₀ + C * (R - 1)) :
    Views blank (putText blank p w tape) (s + T.scrolls blank isBreak w) (p + w.length)
        (w.foldl (Terminal.feed blank isBreak) T) ∧
      C * (s + T.scrolls blank isBreak w) ≤ p₀ := by
  induction w generalizing tape s p T with
  | nil =>
    have hnone : putText blank p [] tape = tape := funext fun a => if_neg (by rw [List.length_nil]; omega)
    rw [hnone]
    exact ⟨h, hstart⟩
  | cons g w ih =>
    obtain ⟨hg, hw⟩ := List.forall_mem_cons.mp hw
    rw [List.length_cons] at hfew
    have hfeed : T.feed blank isBreak g = T.write blank g := if_neg (by rw [hg]; decide)
    have hwrite : Views blank (Function.update tape p g) (s + T.overflow) (p + 1) (T.feed blank isBreak g) :=
      hfeed ▸ h.write g
    obtain ⟨hviews, hstays⟩ := ih hw hwrite (h.start_stays hstart (by omega)) (by omega)
    rw [putText_cons] at hviews
    rw [List.foldl_cons, List.length_cons, Terminal.scrolls, ← Nat.add_assoc, Nat.add_comm w.length 1, ← Nat.add_assoc]
    exact ⟨hviews, hstays⟩

/-- Erasing `n` cells blanks the `n` positions before the cursor. -/
theorem erase_iterate (h : Views blank tape s p T) {n : ℕ} (hn : C * s + n ≤ p) :
    Views blank (blanked blank (p - n) n tape) s (p - n) ((Terminal.erase blank)^[n] T) := by
  induction n generalizing tape p T with
  | zero =>
    have hnone : blanked blank (p - 0) 0 tape = tape := funext fun a => if_neg (by omega)
    rw [hnone]
    exact h
  | succ n ih =>
    have hrest := ih (h.erase (by omega)) (by omega)
    rw [Function.iterate_succ_apply]
    rwa [Nat.sub_sub, Nat.add_comm 1 n, show p - 1 = p - (n + 1) + n by omega, blanked_succ] at hrest

/-- **Erasing undoes writing.**  After a text and as many erasures, the cursor is at the position where it was, and the
tape is blank where the text had been. -/
theorem erase_feed_text {w : List γ} (hw : ∀ g ∈ w, isBreak g = false) (h : Views blank tape s p T) (hs : C * s ≤ p)
    (hfew : w.length ≤ C * (R - 1)) :
    Views blank (blanked blank p w.length tape) (s + T.scrolls blank isBreak w) p
        ((Terminal.erase blank)^[w.length] (w.foldl (Terminal.feed blank isBreak) T)) ∧
      C * (s + T.scrolls blank isBreak w) ≤ p := by
  obtain ⟨htyped, hstays⟩ := h.feed_text hw hs (Nat.add_le_add_left hfew p)
  have herased := htyped.erase_iterate (Nat.add_le_add_right hstays w.length)
  rw [Nat.add_sub_cancel, blanked_putText] at herased
  exact ⟨herased, hstays⟩

end Views

end TextTerminal
