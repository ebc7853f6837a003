import ClosKernel.Lib.TextTerminal
import Mathlib.Data.List.Basic
import Mathlib.Logic.Nontrivial.Basic
import Mathlib.Tactic.Ring

/-!
# Output that does not scroll

The cells of a terminal are numbered row by row.  As long as the output does not come to the end of the grid, the place
of the cursor is a matter of arithmetic, and a cell is written only when the cursor passes it.

* `Broken`, `Broken.foldl_le` — a text with further breaks in it ends at a later place;
* `Terminal.foldl_feed_place`, `Terminal.foldl_feed_cell` — the cursor and the cells;
* `Terminal.exists_foldl_feed_ne` — **a break more can be seen**: there are grids on which the texts differ;
* `Terminal.lineBreak_breaks` — it cannot be seen any more where breaks have emptied the grid.
-/

namespace TextTerminal

variable {R C : ℕ} {γ : Type*} {isBreak : γ → Bool} {n m d : ℕ} {xs ys zs : List γ}

/-- The place of the cursor after one cell of output: in the next row, or in the next cell. -/
def nextPlace (C : ℕ) (isBreak : γ → Bool) (n : ℕ) (g : γ) : ℕ := if isBreak g then (n / C + 1) * C else n + 1

theorem lt_nextPlace (isBreak : γ → Bool) (hC : 0 < C) (n : ℕ) (g : γ) : n < nextPlace C isBreak n g := by
  rw [nextPlace]
  split
  · rw [Nat.mul_comm]
    exact Nat.lt_mul_div_succ n hC
  · exact Nat.lt_succ_self n

theorem nextPlace_mono (h : n ≤ m) (g : γ) : nextPlace C isBreak n g ≤ nextPlace C isBreak m g := by
  rw [nextPlace, nextPlace]
  split
  · exact Nat.mul_le_mul_right C (Nat.succ_le_succ (Nat.div_le_div_right h))
  · exact Nat.succ_le_succ h

/-- Rows are all alike. -/
theorem nextPlace_add (hC : 0 < C) (hd : C ∣ d) (g : γ) :
    nextPlace C isBreak (n + d) g = nextPlace C isBreak n g + d := by
  rw [nextPlace, nextPlace]
  split
  · obtain ⟨e, rfl⟩ := hd
    rw [Nat.add_mul_div_left n e hC]
    ring
  · omega

theorem le_foldl_nextPlace (isBreak : γ → Bool) (hC : 0 < C) (xs : List γ) (n : ℕ) :
    n ≤ xs.foldl (nextPlace C isBreak) n := by
  induction xs generalizing n with
  | nil => exact Nat.le_refl n
  | cons x xs ih => exact (Nat.le_of_lt (lt_nextPlace isBreak hC n x)).trans (ih _)

/-- `ys` is `xs` with breaks put in. -/
inductive Broken (isBreak : γ → Bool) : List γ → List γ → Prop
  | nil : Broken isBreak [] []
  | cons (x : γ) {xs ys : List γ} (h : Broken isBreak xs ys) : Broken isBreak (x :: xs) (x :: ys)
  | insert {b : γ} (hb : isBreak b = true) {xs ys : List γ} (h : Broken isBreak xs ys) : Broken isBreak xs (b :: ys)

namespace Broken

theorem refl (xs : List γ) : Broken isBreak xs xs := by
  induction xs with
  | nil => exact .nil
  | cons x xs ih => exact .cons x ih

theorem append_left (zs : List γ) (h : Broken isBreak xs ys) : Broken isBreak (zs ++ xs) (zs ++ ys) := by
  induction zs with
  | nil => exact h
  | cons z zs ih => exact .cons z ih

/-- The breaks only move the cursor on; whole rows between the places stay between them. -/
theorem foldl_le (hC : 0 < C) (hd : C ∣ d) (h : Broken isBreak xs ys) (hle : n + d ≤ m) :
    xs.foldl (nextPlace C isBreak) n + d ≤ ys.foldl (nextPlace C isBreak) m := by
  induction h generalizing n m with
  | nil => exact hle
  | cons x _ ih =>
    refine ih ?_
    rw [← nextPlace_add hC hd]
    exact nextPlace_mono hle x
  | insert _ _ ih => exact ih (hle.trans (Nat.le_of_lt (lt_nextPlace isBreak hC m _)))

/-- A text that begins with a break ends a row later if it is only started in the next row. -/
theorem foldl_le_of_break (hC : 0 < C) {w : γ} (hw : isBreak w = true) (h : Broken isBreak (w :: xs) ys)
    (hle : (n / C + 1) * C ≤ m) :
    (w :: xs).foldl (nextPlace C isBreak) n + C ≤ ys.foldl (nextPlace C isBreak) m := by
  generalize hxs : w :: xs = text at h
  induction h generalizing m with
  | nil => cases hxs
  | @cons x xs' ys' h' _ =>
    cases hxs
    show xs.foldl (nextPlace C isBreak) (nextPlace C isBreak n w) + C
      ≤ ys'.foldl (nextPlace C isBreak) (nextPlace C isBreak m w)
    refine h'.foldl_le hC (Nat.dvd_refl C) ?_
    rw [nextPlace, nextPlace, if_pos hw, if_pos hw]
    have hrow : n / C + 1 ≤ m / C := (Nat.le_div_iff_mul_le hC).mpr hle
    calc (n / C + 1) * C + C = (n / C + 1 + 1) * C := by ring
      _ ≤ (m / C + 1) * C := Nat.mul_le_mul_right C (Nat.succ_le_succ hrow)
  | insert _ _ ih => exact ih (hle.trans (Nat.le_of_lt (lt_nextPlace isBreak hC m _))) hxs

end Broken

namespace Terminal

variable {blank : γ} {T : Terminal R C γ}

/-- The place of the cursor. -/
def place (T : Terminal R C γ) : ℕ := C * T.row + T.col

theorem place_div (T : Terminal R C γ) : T.place / C = T.row := by
  rw [place, Nat.mul_add_div T.col.pos, Nat.div_eq_of_lt T.col.isLt, Nat.add_zero]

theorem lineBreak_place (h : T.row.val + 1 < R) : (T.lineBreak blank).place = (T.row.val + 1) * C := by
  rw [lineBreak_of_lt h, place, Nat.mul_comm]
  rfl

theorem lineBreak_cell (h : T.row.val + 1 < R) : (T.lineBreak blank).cell = T.cell := by
  rw [lineBreak_of_lt h]

theorem place_eq_iff (T : Terminal R C γ) (r : Fin R) (c : Fin C) :
    C * r.val + c.val = T.place ↔ r = T.row ∧ c = T.col := by
  constructor
  · intro h
    have hrow : r.val = T.row.val := by
      rw [← place_div, ← h, Nat.mul_add_div c.pos, Nat.div_eq_of_lt c.isLt, Nat.add_zero]
    rw [place, hrow] at h
    exact ⟨Fin.ext hrow, Fin.ext (Nat.add_left_cancel h)⟩
  · rintro ⟨rfl, rfl⟩
    rfl

/-- One cell of output, if there is room for what it does. -/
theorem feed_of_fits (blank : γ) {g : γ} (hfits : nextPlace C isBreak T.place g < R * C) :
    (T.feed blank isBreak g).place = nextPlace C isBreak T.place g ∧
      ∀ r c, (T.feed blank isBreak g).cell r c
        = if isBreak g = false ∧ C * r.val + c.val = T.place then g else T.cell r c := by
  rw [feed, nextPlace]
  rw [nextPlace] at hfits
  by_cases hg : isBreak g = true
  · rw [if_pos hg, place_div] at hfits
    have hrow := Nat.lt_of_mul_lt_mul_right hfits
    rw [if_pos hg, if_pos hg, place_div]
    refine ⟨lineBreak_place hrow, fun r c => ?_⟩
    rw [lineBreak_cell hrow, if_neg fun h => Bool.noConfusion (hg.symm.trans h.1)]
  · rw [if_neg hg] at hfits
    rw [if_neg hg, if_neg hg, write]
    dsimp only
    have hcell : ∀ r c, Function.update T.cell T.row (Function.update (T.cell T.row) T.col g) r c
        = if isBreak g = false ∧ C * r.val + c.val = T.place then g else T.cell r c := by
      intro r c
      by_cases hplace : C * r.val + c.val = T.place
      · obtain ⟨rfl, rfl⟩ := (place_eq_iff T r c).mp hplace
        rw [Function.update_self, Function.update_self, if_pos ⟨Bool.eq_false_of_not_eq_true hg, hplace⟩]
      · rw [if_neg fun h => hplace h.2]
        by_cases hr : r = T.row
        · have hc : c ≠ T.col := fun hc => hplace ((place_eq_iff T r c).mpr ⟨hr, hc⟩)
          rw [hr, Function.update_self, Function.update_of_ne hc]
        · rw [Function.update_of_ne hr]
    split
    · exact ⟨rfl, hcell⟩
    · -- the last column: the next place is the start of the next row
      rename_i hlast
      have hcol := T.col.isLt
      have hnext : T.place + 1 = (T.row.val + 1) * C := by
        rw [place, Nat.succ_mul, Nat.mul_comm]
        omega
      have hrow : T.row.val + 1 < R := by
        rw [hnext] at hfits
        exact Nat.lt_of_mul_lt_mul_right hfits
      rw [hnext]
      exact ⟨lineBreak_place (by exact hrow), fun r c =>
        (congrFun (congrFun (lineBreak_cell (by exact hrow)) r) c).trans (hcell r c)⟩

/-- Output that fits moves the cursor from place to place. -/
theorem foldl_feed_place (hfits : xs.foldl (nextPlace C isBreak) T.place < R * C) :
    (xs.foldl (feed blank isBreak) T).place = xs.foldl (nextPlace C isBreak) T.place := by
  induction xs generalizing T with
  | nil => rfl
  | cons x xs ih =>
    have hstep := feed_of_fits blank ((le_foldl_nextPlace isBreak T.col.pos xs _).trans_lt hfits)
    rw [List.foldl_cons, ← hstep.1] at hfits
    rw [List.foldl_cons, List.foldl_cons, ih hfits, hstep.1]

/-- It writes no cell before the place where it starts, and none from the place on where it ends. -/
theorem foldl_feed_cell (hfits : xs.foldl (nextPlace C isBreak) T.place < R * C) {r : Fin R} {c : Fin C}
    (hplace : C * r.val + c.val < T.place ∨ xs.foldl (nextPlace C isBreak) T.place ≤ C * r.val + c.val) :
    (xs.foldl (feed blank isBreak) T).cell r c = T.cell r c := by
  induction xs generalizing T with
  | nil => rfl
  | cons x xs ih =>
    have hlater := le_foldl_nextPlace isBreak T.col.pos xs (nextPlace C isBreak T.place x)
    have hstep := feed_of_fits blank (hlater.trans_lt hfits)
    have hnext := lt_nextPlace isBreak T.col.pos T.place x
    rw [List.foldl_cons] at hfits hplace
    rw [List.foldl_cons, ih (by rwa [hstep.1]) (by rw [hstep.1]; omega), hstep.2, if_neg]
    omega

/-- The cell under the cursor is written at once or not at all. -/
theorem foldl_feed_cell_place {g : γ} (hfits : (g :: xs).foldl (nextPlace C isBreak) T.place < R * C) {r : Fin R}
    {c : Fin C} (hplace : C * r.val + c.val = T.place) :
    ((g :: xs).foldl (feed blank isBreak) T).cell r c = if isBreak g then T.cell r c else g := by
  have hlater := le_foldl_nextPlace isBreak T.col.pos xs (nextPlace C isBreak T.place g)
  have hstep := feed_of_fits blank (hlater.trans_lt hfits)
  have hnext := lt_nextPlace isBreak T.col.pos T.place g
  rw [List.foldl_cons] at hfits
  rw [List.foldl_cons, foldl_feed_cell (by rwa [hstep.1]) (Or.inl (by rw [hstep.1, hplace]; exact hnext)), hstep.2]
  by_cases hg : isBreak g = true
  · rw [if_pos hg, if_neg fun h => Bool.noConfusion (hg.symm.trans h.1)]
  · rw [if_neg hg, if_pos ⟨Bool.eq_false_of_not_eq_true hg, hplace⟩]

/-- **A break more can be seen.**  If the longer text fits, there is a grid on which the two leave something else. -/
theorem exists_foldl_feed_ne [Nontrivial γ] (blank : γ) {b : γ} (hb : isBreak b = true) {u v y : List γ} (hv : v ≠ [])
    (hbroken : Broken isBreak v y) (hfits : (u ++ b :: y).foldl (nextPlace C isBreak) T.place < R * C) :
    ∃ cell, (u ++ v).foldl (feed blank isBreak) { T with cell := cell } ≠
      (u ++ b :: y).foldl (feed blank isBreak) { T with cell := cell } := by
  obtain ⟨w, x, rfl⟩ := List.exists_cons_of_ne_nil hv
  have hC := T.col.pos
  have hlonger := ((Broken.insert hb hbroken).append_left u).foldl_le hC (Nat.dvd_zero C) (Nat.le_refl T.place)
  have hfits' : (u ++ w :: x).foldl (nextPlace C isBreak) T.place < R * C := Nat.lt_of_le_of_lt hlonger hfits
  by_cases hw : isBreak w = true
  · -- the cursor is in another row, whatever the grid
    refine ⟨T.cell, fun heq => ?_⟩
    have hplaces := congrArg place heq
    rw [foldl_feed_place hfits', foldl_feed_place hfits] at hplaces
    have hgap : (u ++ w :: x).foldl (nextPlace C isBreak) T.place + C
        ≤ (u ++ b :: y).foldl (nextPlace C isBreak) T.place := by
      rw [List.foldl_append, List.foldl_append, List.foldl_cons (l := y), nextPlace, if_pos hb]
      exact hbroken.foldl_le_of_break hC hw (Nat.le_refl _)
    omega
  · -- the first text writes its next cell right here, the other one never
    obtain ⟨z, hz⟩ := exists_ne w
    refine ⟨fun _ _ => z, fun heq => ?_⟩
    rw [List.foldl_append] at hfits hfits'
    have hu : u.foldl (nextPlace C isBreak) T.place < R * C :=
      Nat.lt_of_le_of_lt (le_foldl_nextPlace isBreak hC _ _) hfits
    have hplace : (u.foldl (feed blank isBreak) { T with cell := fun _ _ => z }).place
        = u.foldl (nextPlace C isBreak) T.place := foldl_feed_place hu
    generalize hL : u.foldl (nextPlace C isBreak) T.place = L at hu hplace hfits hfits'
    have hcell : ∀ r c, C * r.val + c.val = L →
        (u.foldl (feed blank isBreak) { T with cell := fun _ _ => z }).cell r c = z := by
      intro r c hrc
      exact foldl_feed_cell (by show u.foldl _ T.place < _; rwa [hL]) (Or.inr (by rw [hrc]; exact Nat.le_of_eq hL))
    have hrow : L / C < R := Nat.div_lt_of_lt_mul (by rwa [Nat.mul_comm] at hu)
    have hrc : C * (L / C) + L % C = L := Nat.div_add_mod L C
    have heq' := congrFun (congrFun (congrArg Terminal.cell heq) ⟨L / C, hrow⟩) ⟨L % C, Nat.mod_lt L hC⟩
    rw [List.foldl_append, List.foldl_append, foldl_feed_cell_place (by rwa [hplace]) (by rw [hplace]; exact hrc),
      foldl_feed_cell_place (by rwa [hplace]) (by rw [hplace]; exact hrc), if_neg hw, if_pos hb, hcell _ _ hrc] at heq'
    exact hz heq'.symm

/-! ### Output that scrolls everything away -/

theorem foldl_breaks_succ {b : γ} (hb : isBreak b = true) (n : ℕ) (T : Terminal R C γ) :
    (List.replicate (n + 1) b).foldl (feed blank isBreak) T
      = ((List.replicate n b).foldl (feed blank isBreak) T).lineBreak blank := by
  rw [List.replicate_succ', List.foldl_append, List.foldl_cons, List.foldl_nil]
  exact if_pos hb

/-- Breaks move the cursor to the last row, and from there on the rows out of the grid. -/
theorem foldl_breaks {b : γ} (hb : isBreak b = true) (n : ℕ) (T : Terminal R C γ) :
    (n ≤ ((List.replicate n b).foldl (feed blank isBreak) T).row.val ∨
        ((List.replicate n b).foldl (feed blank isBreak) T).row.val + 1 = R) ∧
      ∀ r c, 2 * R ≤ r.val + n + 1 → ((List.replicate n b).foldl (feed blank isBreak) T).cell r c = blank := by
  induction n with
  | zero =>
    refine ⟨Or.inl (Nat.zero_le _), fun r c hr => ?_⟩
    have hlt := r.isLt
    omega
  | succ n ih =>
    obtain ⟨hrow, hcell⟩ := ih
    rw [foldl_breaks_succ hb]
    by_cases hlast : ((List.replicate n b).foldl (feed blank isBreak) T).row.val + 1 < R
    · rw [lineBreak_of_lt hlast]
      refine ⟨Or.inl (by dsimp only; omega), fun r c hr => ?_⟩
      have hlt := r.isLt
      omega
    · rw [lineBreak_of_last hlast]
      have hlt := ((List.replicate n b).foldl (feed blank isBreak) T).row.isLt
      refine ⟨Or.inr (by dsimp only; omega), fun r c hr => ?_⟩
      by_cases hnext : r.val + 1 < R
      · exact (scroll_apply_of_lt hnext).trans (hcell _ c (by dsimp only; omega))
      · exact scroll_apply_of_last hnext

theorem lineBreak_col (blank : γ) (T : Terminal R C γ) : (T.lineBreak blank).col = ⟨0, T.col.pos⟩ := by
  rw [lineBreak]
  split <;> rfl

/-- **Behind enough breaks one more changes nothing.** -/
theorem lineBreak_breaks {b : γ} (hb : isBreak b = true) {n : ℕ} (hn : 2 * R < n) (T : Terminal R C γ) :
    ((List.replicate n b).foldl (feed blank isBreak) T).lineBreak blank
      = (List.replicate n b).foldl (feed blank isBreak) T := by
  obtain ⟨hrow, hcell⟩ := foldl_breaks hb n T
  have hcol : ((List.replicate n b).foldl (feed blank isBreak) T).col = ⟨0, T.col.pos⟩ := by
    obtain ⟨m, rfl⟩ := Nat.exists_eq_succ_of_ne_zero (Nat.ne_zero_of_lt hn)
    rw [Nat.succ_eq_add_one, foldl_breaks_succ hb]
    exact lineBreak_col blank _
  generalize (List.replicate n b).foldl (feed blank isBreak) T = T' at hrow hcell hcol
  have hlt := T'.row.isLt
  rw [lineBreak_of_last (by omega), scroll_eq_self_iff.mpr fun r c => hcell r c (by omega)]
  exact Terminal.ext rfl rfl hcol.symm

end Terminal

end TextTerminal
