import Mathlib.Data.Fin.Basic
import Mathlib.Data.Nat.Init
import Mathlib.Logic.Function.Basic

/-!
# A stand-alone text terminal

A terminal is a grid of `R` rows and `C` columns over an arbitrary cell type, with a cursor that always
lies on the grid (its coordinates are `Fin`s, so an off-screen cursor cannot be built).  It reacts to a
stream of cells:

* a *break* starts the next row, scrolling the grid up by one row when there is no next row;
* any other cell is written under the cursor, which then moves right and wraps by a break at the last
  column.

The lemmas describe the grid cell by cell, and `scroll_eq_self_iff` says which grids a scroll leaves alone.  A line of
text that fits its row is written by `feed_text`; on the last row, `feed_line_of_last` adds it below the others, and
`foldl_feed_two_lines_iff` says which terminals two added lines leave alone.
-/

namespace TextTerminal

variable {R C : ℕ} {γ : Type*}

/-- A terminal of `R` rows and `C` columns with its cursor. -/
@[ext] structure Terminal (R C : ℕ) (γ : Type*) where
  cell : Fin R → Fin C → γ
  row : Fin R
  col : Fin C

/-- Every row moves up by one; the last row becomes blank. -/
def scroll (blank : γ) (g : Fin R → Fin C → γ) : Fin R → Fin C → γ := fun r c =>
  if h : r.val + 1 < R then g ⟨r.val + 1, h⟩ c else blank

namespace Terminal

/-- Start the next row. -/
def lineBreak (blank : γ) (T : Terminal R C γ) : Terminal R C γ :=
  if h : T.row.val + 1 < R then
    { T with row := ⟨T.row.val + 1, h⟩, col := ⟨0, T.col.pos⟩ }
  else
    { T with cell := scroll blank T.cell, col := ⟨0, T.col.pos⟩ }

/-- Write `g` under the cursor and advance, wrapping at the last column. -/
def write (blank g : γ) (T : Terminal R C γ) : Terminal R C γ :=
  let T' := { T with cell := Function.update T.cell T.row (Function.update (T.cell T.row) T.col g) }
  if h : T.col.val + 1 < C then { T' with col := ⟨T.col.val + 1, h⟩ } else T'.lineBreak blank

/-- React to one cell of output. -/
def feed (blank : γ) (isBreak : γ → Bool) (T : Terminal R C γ) (g : γ) : Terminal R C γ :=
  if isBreak g then T.lineBreak blank else T.write blank g

/-- The blank terminal with its cursor in the upper left corner. -/
def home (blank : γ) (hR : 0 < R) (hC : 0 < C) : Terminal R C γ :=
  ⟨fun _ _ => blank, ⟨0, hR⟩, ⟨0, hC⟩⟩

theorem lineBreak_of_lt {blank : γ} {T : Terminal R C γ} (h : T.row.val + 1 < R) :
    T.lineBreak blank = { T with row := ⟨T.row.val + 1, h⟩, col := ⟨0, T.col.pos⟩ } :=
  dif_pos h

theorem lineBreak_of_last {blank : γ} {T : Terminal R C γ} (h : ¬T.row.val + 1 < R) :
    T.lineBreak blank = { T with cell := scroll blank T.cell, col := ⟨0, T.col.pos⟩ } :=
  dif_neg h

end Terminal

/-! ### Lines of text -/

/-- A line of text, filled up with blanks. -/
def padded (blank : γ) (xs : List γ) (c : Fin C) : γ := xs.getD c blank

/-- Every row moves up by one; the last row becomes `last`. -/
def scrollIn (last : Fin C → γ) (g : Fin R → Fin C → γ) : Fin R → Fin C → γ := fun r c =>
  if h : r.val + 1 < R then g ⟨r.val + 1, h⟩ c else last c

/-- Cells without a break that fit into the row are written one after the other. -/
theorem Terminal.feed_text {blank : γ} {isBreak : γ → Bool} {xs : List γ} (hxs : ∀ g ∈ xs, isBreak g = false)
    (T : Terminal R C γ) (hfit : T.col.val + xs.length < C) :
    xs.foldl (Terminal.feed blank isBreak) T = { T with
      cell := Function.update T.cell T.row fun c =>
        if T.col.val ≤ c.val ∧ c.val < T.col.val + xs.length then xs.getD (c.val - T.col.val) blank
        else T.cell T.row c
      col := ⟨T.col.val + xs.length, hfit⟩ } := by
  induction xs generalizing T with
  | nil =>
    ext r c
    · show T.cell r c = Function.update T.cell T.row _ r c
      rw [Function.update_apply]
      split
      · rename_i hr
        dsimp only
        rw [hr, if_neg (by rw [List.length_nil]; omega)]
      · rfl
    · rfl
    · rfl
  | cons x xs ih =>
    obtain ⟨hx, hxs⟩ := List.forall_mem_cons.mp hxs
    rw [List.length_cons] at hfit
    have hnext : T.col.val + 1 < C := by omega
    have hwrite : T.feed blank isBreak x = { T with
        cell := Function.update T.cell T.row (Function.update (T.cell T.row) T.col x)
        col := ⟨T.col.val + 1, hnext⟩ } := by
      rw [feed, if_neg (by rw [hx]; decide), write, dif_pos hnext]
    rw [List.foldl_cons, hwrite, ih hxs _ (by simp only; omega)]
    ext r c
    · simp only [Function.update_idem, Function.update_self]
      by_cases hr : r = T.row
      · subst hr
        simp only [Function.update_self, List.length_cons]
        rcases Nat.lt_trichotomy c.val T.col.val with hlt | heq | hgt
        · rw [if_neg (by omega), if_neg (by omega), Function.update_of_ne (Fin.ne_of_lt hlt)]
        · rw [if_neg (by omega), if_pos (by omega), Fin.ext heq, Function.update_self, Nat.sub_self,
            List.getD_cons_zero]
        · by_cases hend : c.val < T.col.val + 1 + xs.length
          · rw [if_pos (by omega), if_pos (by omega),
              show c.val - T.col.val = c.val - (T.col.val + 1) + 1 from by omega, List.getD_cons_succ]
          · rw [if_neg (by omega), if_neg (by omega), Function.update_of_ne (Fin.ne_of_gt hgt)]
      · rw [Function.update_of_ne hr, Function.update_of_ne hr]
    · rfl
    · simp only [List.length_cons]
      omega

/-- On the last row, a break and a line that fits add the line below the others. -/
theorem Terminal.feed_line_of_last {blank b : γ} {isBreak : γ → Bool} {xs : List γ} (hb : isBreak b = true)
    (hxs : ∀ g ∈ xs, isBreak g = false) (T : Terminal R C γ) (hlast : ¬T.row.val + 1 < R)
    (hfit : xs.length < C) :
    (b :: xs).foldl (Terminal.feed blank isBreak) T
      = ⟨scrollIn (padded blank xs) T.cell, T.row, ⟨xs.length, hfit⟩⟩ := by
  rw [List.foldl_cons, feed, if_pos hb, lineBreak_of_last hlast, feed_text hxs _ (by simpa using hfit)]
  ext r c
  · simp only
    by_cases hr : r = T.row
    · rw [hr, Function.update_self, scrollIn, dif_neg hlast, padded, Nat.zero_add, Nat.sub_zero]
      by_cases hc : c.val < xs.length
      · rw [if_pos ⟨Nat.zero_le _, hc⟩]
      · rw [if_neg (fun h => hc h.2), scroll, dif_neg hlast, List.getD_eq_getElem?_getD,
          List.getElem?_eq_none (Nat.not_lt.mp hc), Option.getD_none]
    · have hlt : r.val + 1 < R := by
        have := Fin.val_ne_of_ne hr
        omega
      rw [Function.update_of_ne hr, scrollIn, dif_pos hlt, scroll, dif_pos hlt]
  · rfl
  · simp

/-- Output never moves the cursor up. -/
theorem Terminal.row_le_foldl_feed {blank : γ} {isBreak : γ → Bool} (xs : List γ) (T : Terminal R C γ) :
    T.row.val ≤ (xs.foldl (Terminal.feed blank isBreak) T).row.val := by
  have hbreak : ∀ T : Terminal R C γ, T.row.val ≤ (T.lineBreak blank).row.val := by
    intro T
    rw [lineBreak]
    split
    · exact Nat.le_succ _
    · exact Nat.le_refl _
  induction xs generalizing T with
  | nil => exact Nat.le_refl _
  | cons x xs ih =>
    refine Nat.le_trans ?_ (ih _)
    rw [feed]
    split
    · exact hbreak T
    · rw [write]
      split
      · exact Nat.le_refl _
      · exact hbreak { T with cell := Function.update T.cell T.row (Function.update (T.cell T.row) T.col x) }

/-- Above the last row, a break moves it down for good. -/
theorem Terminal.row_lt_foldl_feed {blank b : γ} {isBreak : γ → Bool} (hb : isBreak b = true) (xs : List γ)
    (T : Terminal R C γ) (hrow : T.row.val + 1 < R) :
    T.row.val < ((b :: xs).foldl (Terminal.feed blank isBreak) T).row.val := by
  rw [List.foldl_cons, feed, if_pos hb, lineBreak_of_lt hrow]
  exact row_le_foldl_feed xs ⟨T.cell, ⟨T.row.val + 1, hrow⟩, ⟨0, T.col.pos⟩⟩

/-- **Only a grid of two alternating rows survives two added lines**: the last row is the second line, the row above
it the first, and so on upwards. -/
theorem scrollIn_scrollIn_eq_self_iff {l l' : Fin C → γ} {g : Fin R → Fin C → γ} :
    scrollIn l' (scrollIn l g) = g ↔ ∀ r c, g r c = if (R - 1 - r.val) % 2 = 0 then l' c else l c := by
  constructor
  · intro hfix r c
    -- induction on the distance to the last row, two rows at a time
    obtain ⟨d, hd⟩ : ∃ d, r.val + 1 + d = R := ⟨R - (r.val + 1), by omega⟩
    induction d using Nat.twoStepInduction generalizing r with
    | zero =>
      rw [← hfix, scrollIn, dif_neg (by omega), if_pos (by omega)]
    | one =>
      rw [← hfix, scrollIn, dif_pos (by omega), scrollIn, dif_neg (by simp only; omega), if_neg (by omega)]
    | more d ih _ =>
      rw [← hfix, scrollIn, dif_pos (by omega), scrollIn, dif_pos (by simp only; omega),
        ih ⟨r.val + 1 + 1, by omega⟩ (by simp only; omega)]
      simp only [show (R - 1 - (r.val + 1 + 1)) % 2 = (R - 1 - r.val) % 2 from by omega]
  · intro hrows
    funext r c
    by_cases h : r.val + 1 < R
    · rw [scrollIn, dif_pos h, scrollIn]
      by_cases h' : r.val + 1 + 1 < R
      · rw [dif_pos h', hrows, hrows]
        simp only [show (R - 1 - (r.val + 1 + 1)) % 2 = (R - 1 - r.val) % 2 from by omega]
      · rw [dif_neg h', hrows, if_neg (by omega)]
    · rw [scrollIn, dif_neg h, hrows, if_pos (by omega)]

/-- **Two lines of text leave a terminal alone** just if it shows them in turn, the second one in the last row with the
cursor behind it. -/
theorem Terminal.foldl_feed_two_lines_iff {blank b : γ} {isBreak : γ → Bool} {xs ys : List γ} (hb : isBreak b = true)
    (hxs : ∀ g ∈ xs, isBreak g = false) (hys : ∀ g ∈ ys, isBreak g = false) (hx : xs.length < C) (hy : ys.length < C)
    (T : Terminal R C γ) :
    ((b :: xs) ++ (b :: ys)).foldl (Terminal.feed blank isBreak) T = T ↔
      T.row.val + 1 = R ∧ T.col.val = ys.length ∧
        ∀ r c, T.cell r c = if (R - 1 - r.val) % 2 = 0 then padded blank ys c else padded blank xs c := by
  by_cases hlast : T.row.val + 1 < R
  · refine iff_of_false (fun h => ?_) (fun h => absurd h.1 (Nat.ne_of_lt hlast))
    have hmoved : T.row.val < (((b :: xs) ++ (b :: ys)).foldl (Terminal.feed blank isBreak) T).row.val :=
      row_lt_foldl_feed hb (xs ++ (b :: ys)) T hlast
    rw [h] at hmoved
    exact Nat.lt_irrefl _ hmoved
  · have hrow : T.row.val + 1 = R := by
      have := T.row.isLt
      omega
    rw [List.foldl_append, feed_line_of_last hb hxs T hlast hx,
      feed_line_of_last hb hys ⟨scrollIn (padded blank xs) T.cell, T.row, ⟨xs.length, hx⟩⟩ hlast hy, Terminal.ext_iff,
      scrollIn_scrollIn_eq_self_iff]
    constructor
    · rintro ⟨hcell, -, hcol⟩
      exact ⟨hrow, by rw [← hcol], hcell⟩
    · rintro ⟨-, hcol, hcell⟩
      exact ⟨hcell, rfl, Fin.ext hcol.symm⟩

/-! ### Scrolling, cell by cell -/

theorem scroll_apply_of_lt {blank : γ} {g : Fin R → Fin C → γ} {r : Fin R} {c : Fin C}
    (h : r.val + 1 < R) : scroll blank g r c = g ⟨r.val + 1, h⟩ c :=
  dif_pos h

theorem scroll_apply_of_last {blank : γ} {g : Fin R → Fin C → γ} {r : Fin R} {c : Fin C}
    (h : ¬r.val + 1 < R) : scroll blank g r c = blank :=
  dif_neg h

/-- **Only a blank grid survives a scroll.**  The last row has to be blank, and every row equals the one
below it. -/
theorem scroll_eq_self_iff {blank : γ} {g : Fin R → Fin C → γ} :
    scroll blank g = g ↔ ∀ r c, g r c = blank := by
  constructor
  · intro hfix r c
    -- induction on the distance to the last row
    obtain ⟨d, hd⟩ : ∃ d, r.val + 1 + d = R := ⟨R - (r.val + 1), by omega⟩
    induction d generalizing r with
    | zero =>
      rw [← hfix]
      exact scroll_apply_of_last (by omega)
    | succ d ih =>
      rw [← hfix, scroll_apply_of_lt (by omega)]
      exact ih ⟨r.val + 1, by omega⟩ (by simp only; omega)
  · intro hblank
    funext r c
    by_cases h : r.val + 1 < R
    · rw [scroll_apply_of_lt h, hblank, hblank]
    · rw [scroll_apply_of_last h, hblank]

end TextTerminal
