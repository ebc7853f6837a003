import ClosKernel.Commands
import ClosKernel.Lib.Unscrolled

/-!
# Output in pieces (`tWrite` of `terminal.c`)

`tWrite` skips NUL bytes, and counts the others; only a NUL in the last place of a call starts a new line.  A program
that writes a file in the pieces that `read` returned cuts it wherever they end.

* `tWrite_literal`, `writePieces_eq` — what is printed and counted, in one call and in several;
* `broken_printed`, `exists_break_of_nul` — the calls print the text of one call with further line breaks;
* `terminal_writes_join_iff` — **output does not depend on the pieces, if none but the last ends in a NUL**; otherwise
  the difference can be seen on every screen that has room for the output;
* `samePicture_behind_breaks` — where the output scrolls, it may be gone.
-/

namespace ClosKernel

open PartialRun TextTerminal

/-- Calls of `tWrite`, one after the other: the sum of what they return, and the kernel. -/
def writePieces : List (List UInt8) → Kernel → ℤ × Kernel
  | [], k => (0, k)
  | p :: ps, k =>
    let (bytesWritten, k) := tWrite (literal p) p.length k
    let (rest, k) := writePieces ps k
    (bytesWritten + rest, k)

/-! ### What is printed -/

/-- The bytes that a call counts. -/
def nonNul (b : List UInt8) : List UInt8 := b.filter (· ≠ 0)

/-- The line break for a NUL in the last place. -/
def lastBreak (b : List UInt8) : List UInt8 := if b.getLast? = some 0 then [0x0A] else []

/-- The bytes that a call prints. -/
def printedBy (b : List UInt8) : List UInt8 := nonNul b ++ lastBreak b

theorem nonNul_cons (c : UInt8) (b : List UInt8) : nonNul (c :: b) = if c ≠ 0 then c :: nonNul b else nonNul b := by
  rw [nonNul, List.filter_cons]
  simp only [decide_eq_true_eq]
  rfl

theorem lastBreak_cons (c : UInt8) {b : List UInt8} (hb : b ≠ []) : lastBreak (c :: b) = lastBreak b := by
  obtain ⟨d, b, rfl⟩ := List.exists_cons_of_ne_nil hb
  rw [lastBreak, lastBreak, List.getLast?_cons_cons]

theorem tWriteFrom_literal (pre post : List UInt8) :
    tWriteFrom (literal (pre ++ post)) post.length pre.length = (printedBy post, ((nonNul post).length : ℤ)) := by
  induction post generalizing pre with
  | nil => rfl
  | cons c post ih =>
    have hrest := ih (pre ++ [c])
    rw [List.append_assoc, List.length_append, List.length_singleton, List.singleton_append] at hrest
    have hc : literal (pre ++ c :: post) pre.length = c := by
      rw [literal, List.getD_eq_getElem?_getD, List.getElem?_append_right (Nat.le_refl _), Nat.sub_self]
      rfl
    rw [List.length_cons, tWriteFrom, hrest, hc, printedBy, printedBy, nonNul_cons]
    dsimp only
    by_cases hnul : c = 0
    · rw [if_neg (not_not.mpr hnul), if_neg (not_not.mpr hnul)]
      cases post with
      | nil => rw [hnul]; rfl
      | cons d post => rw [if_neg (by simp), lastBreak_cons c (by simp)]
    · rw [if_pos hnul, if_pos hnul, List.length_cons, List.cons_append, Nat.cast_succ]
      cases post with
      | nil =>
        rw [lastBreak, lastBreak, if_neg (by simp), if_neg (by simpa using hnul)]
      | cons d post => rw [lastBreak_cons c (by simp)]

theorem tWrite_literal (b : List UInt8) (k : Kernel) :
    tWrite (literal b) b.length k = (((nonNul b).length : ℤ), k.printf (printedBy b)) := by
  have hfrom := tWriteFrom_literal [] b
  rw [List.nil_append, List.length_nil] at hfrom
  rw [tWrite, Int.toNat_natCast, hfrom]

theorem printf_printf (k : Kernel) (xs ys : List UInt8) : (k.printf xs).printf ys = k.printf (xs ++ ys) := by
  rw [Kernel.printf, Kernel.printf, Kernel.printf, Screen.puts, Screen.puts, Screen.puts, List.foldl_append]
  rfl

/-- **Several calls** print the text of each, and count the bytes of all. -/
theorem writePieces_eq (ps : List (List UInt8)) (k : Kernel) :
    writePieces ps k = (((nonNul ps.flatten).length : ℤ), k.printf (ps.flatMap printedBy)) := by
  induction ps generalizing k with
  | nil => rfl
  | cons p ps ih =>
    rw [writePieces, tWrite_literal]
    dsimp only
    rw [ih, printf_printf, List.flatMap_cons, List.flatten_cons, nonNul, nonNul, nonNul, List.filter_append,
      List.length_append]
    push_cast
    rfl

/-! ### One text with further line breaks -/

/-- No piece but the last ends in a NUL. -/
def NulsLast (ps : List (List UInt8)) : Prop := ∀ p ∈ ps.dropLast, p.getLast? ≠ some 0

instance (ps : List (List UInt8)) : Decidable (NulsLast ps) := inferInstanceAs (Decidable (∀ p ∈ ps.dropLast, _))

theorem lastBreak_append (p : List UInt8) {b : List UInt8} (hb : b ≠ []) : lastBreak (p ++ b) = lastBreak b := by
  rw [lastBreak, lastBreak, List.getLast?_append_of_ne_nil p hb]

theorem printedBy_append (p : List UInt8) {b : List UInt8} (hb : b ≠ []) :
    printedBy (p ++ b) = nonNul p ++ printedBy b := by
  rw [printedBy, printedBy, lastBreak_append p hb, nonNul, nonNul, nonNul, List.filter_append, List.append_assoc]

/-- Something is printed for every byte string: a byte that is not NUL, or the line break. -/
theorem printedBy_ne_nil {b : List UInt8} (hb : b ≠ []) : printedBy b ≠ [] := by
  intro hnil
  rw [printedBy, List.append_eq_nil_iff] at hnil
  have hlast : b.getLast hb = 0 := by
    have hall := List.filter_eq_nil_iff.mp hnil.1 (b.getLast hb) (List.getLast_mem hb)
    simpa using hall
  rw [lastBreak, List.getLast?_eq_some_getLast hb, hlast, if_pos rfl] at hnil
  exact absurd hnil.2 (by simp)

section Pieces

variable {ps : List (List UInt8)}

theorem flatten_ne_nil {p : List UInt8} (hne : ∀ q ∈ p :: ps, q ≠ []) : (p :: ps).flatten ≠ [] := by
  rw [List.flatten_cons]
  exact List.append_ne_nil_of_left_ne_nil (hne p List.mem_cons_self) _

theorem printedBy_flatten_cons (p : List UInt8) (h : ps.flatten ≠ []) :
    printedBy (p :: ps).flatten = nonNul p ++ printedBy ps.flatten := by
  rw [List.flatten_cons, printedBy_append p h]

theorem flatMap_printedBy_cons (p : List UInt8) (ps : List (List UInt8)) :
    (p :: ps).flatMap printedBy = nonNul p ++ (lastBreak p ++ ps.flatMap printedBy) := by
  rw [List.flatMap_cons, printedBy, List.append_assoc]

theorem broken_lastBreak (p xs ys : List UInt8) (h : Broken isBreak xs ys) : Broken isBreak xs (lastBreak p ++ ys) := by
  rw [lastBreak]
  split
  · exact .insert (by decide) h
  · exact h

/-- The calls print the text of one call, and line breaks. -/
theorem broken_printed (hne : ∀ p ∈ ps, p ≠ []) : Broken isBreak (printedBy ps.flatten) (ps.flatMap printedBy) := by
  induction ps with
  | nil => exact .nil
  | cons p ps ih =>
    have hne' : ∀ q ∈ ps, q ≠ [] := fun q hq => hne q (List.mem_cons_of_mem p hq)
    cases ps with
    | nil =>
      rw [List.flatten_singleton, List.flatMap_singleton]
      exact .refl _
    | cons q ps =>
      rw [printedBy_flatten_cons p (flatten_ne_nil hne'), flatMap_printedBy_cons]
      exact (broken_lastBreak p _ _ (ih hne')).append_left (nonNul p)

theorem nulsLast_cons_cons (p q : List UInt8) (ps : List (List UInt8)) :
    NulsLast (p :: q :: ps) ↔ p.getLast? ≠ some 0 ∧ NulsLast (q :: ps) := by
  rw [NulsLast, NulsLast, List.dropLast_cons_cons, List.forall_mem_cons]

/-- Without a NUL at a cut there is no line break more. -/
theorem printed_of_nulsLast (hne : ∀ p ∈ ps, p ≠ []) (h : NulsLast ps) :
    ps.flatMap printedBy = printedBy ps.flatten := by
  induction ps with
  | nil => rfl
  | cons p ps ih =>
    have hne' : ∀ q ∈ ps, q ≠ [] := fun q hq => hne q (List.mem_cons_of_mem p hq)
    cases ps with
    | nil => rw [List.flatten_singleton, List.flatMap_singleton]
    | cons q ps =>
      obtain ⟨hp, hrest⟩ := (nulsLast_cons_cons p q ps).mp h
      rw [flatMap_printedBy_cons, ih hne' hrest, printedBy_flatten_cons p (flatten_ne_nil hne'), lastBreak, if_neg hp,
        List.nil_append]

/-- At the first cut behind a NUL the calls print a line break, and one call goes on with the text. -/
theorem exists_break_of_nul (hne : ∀ p ∈ ps, p ≠ []) (h : ¬NulsLast ps) :
    ∃ u v y, printedBy ps.flatten = u ++ v ∧ ps.flatMap printedBy = u ++ 0x0A :: y ∧ v ≠ [] ∧ Broken isBreak v y := by
  induction ps with
  | nil => exact absurd (fun p hp => absurd hp List.not_mem_nil) h
  | cons p ps ih =>
    have hne' : ∀ q ∈ ps, q ≠ [] := fun q hq => hne q (List.mem_cons_of_mem p hq)
    cases ps with
    | nil => exact absurd (fun q hq => absurd hq List.not_mem_nil) h
    | cons q ps =>
      have hflat := flatten_ne_nil hne'
      rw [printedBy_flatten_cons p hflat, flatMap_printedBy_cons, lastBreak]
      by_cases hp : p.getLast? = some 0
      · refine ⟨nonNul p, printedBy (q :: ps).flatten, (q :: ps).flatMap printedBy, rfl, ?_, printedBy_ne_nil hflat,
          broken_printed hne'⟩
        rw [if_pos hp, List.singleton_append]
      · have hrest : ¬NulsLast (q :: ps) := fun hrest => h ((nulsLast_cons_cons p q ps).mpr ⟨hp, hrest⟩)
        obtain ⟨u, v, y, hwhole, hcut, hv, hbroken⟩ := ih hne' hrest
        refine ⟨nonNul p ++ u, v, y, by rw [hwhole, List.append_assoc], ?_, hv, hbroken⟩
        rw [if_neg hp, List.nil_append, hcut, List.append_assoc]

end Pieces

/-! ### What is seen -/

/-- The pieces are written with the same result as all of them at once: the counts, and the pictures and cursors of all
terminals. -/
structure SameOutput (ps : List (List UInt8)) (k : Kernel) : Prop where
  total : (writePieces ps k).1 = (tWrite (literal ps.flatten) ps.flatten.length k).1
  picture : ∀ t,
    Screen.SamePicture (tWrite (literal ps.flatten) ps.flatten.length k).2.screen (writePieces ps k).2.screen t

/-- The calls do not scroll the terminal of the running process. -/
def FitsScreen (ps : List (List UInt8)) (k : Kernel) : Prop :=
  let t := k.cur.curTerminal
  let place := numCols * k.screen.screenY (t - 1) + k.screen.screenX (t - 1)
  (ps.flatMap printedBy).foldl (nextPlace numCols isBreak) place < numRows * numCols

/-- A page with the given characters. -/
def gridPage (g : Fin numRows → Fin numCols → UInt8) : Mem := fun a =>
  if h : a / 2 / numCols < numRows then g ⟨a / 2 / numCols, h⟩ ⟨a / 2 % numCols, Nat.mod_lt _ (by decide)⟩ else 0

theorem gridOf_gridPage (g : Fin numRows → Fin numCols → UInt8) : gridOf (gridPage g) = g := by
  funext r c
  have hcell : 2 * (numCols * r.val + c.val) / 2 = numCols * r.val + c.val := Nat.mul_div_cancel_left _ (by decide)
  have hrow : (numCols * r.val + c.val) / numCols = r.val := by
    rw [Nat.mul_add_div (by decide), Nat.div_eq_of_lt c.isLt, Nat.add_zero]
  have hcol : (numCols * r.val + c.val) % numCols = c.val := by
    rw [Nat.mul_add_mod, Nat.mod_eq_of_lt c.isLt]
  rw [gridOf, gridPage]
  simp only [hcell, hrow, hcol]
  rw [dif_pos r.isLt]

/-- The kernel with other characters on the page of the running process. -/
def Kernel.repainted (g : Fin numRows → Fin numCols → UInt8) (k : Kernel) : Kernel :=
  k.setScreen (k.screen.setPage (k.screen.pageOf k.cur.curTerminal)
    (restorePage (gridPage g) (k.screen.page (k.screen.pageOf k.cur.curTerminal))))

section Seen

variable {ps : List (List UInt8)} {k : Kernel} {T : ℤ → Vterm}

theorem Screen.Displays.repainted (h : k.screen.Displays T) (g : Fin numRows → Fin numCols → UInt8) :
    (k.repainted g).screen.Displays
      (Function.update T k.cur.curTerminal { T k.cur.curTerminal with cell := g }) := by
  have hterm : (k.repainted g).screen.currentTerminal = k.screen.currentTerminal := Screen.setPage_currentTerminal ..
  refine ⟨hterm ▸ h.displayed, (Screen.setPage_keyInt ..).trans h.keyInt, fun t ht => ?_⟩
  have hshows := h.shows t ht
  have hx : (k.repainted g).screen.screenX = k.screen.screenX := Screen.setPage_screenX ..
  have hy : (k.repainted g).screen.screenY = k.screen.screenY := Screen.setPage_screenY ..
  have himage : (k.repainted g).screen.image t = if t = k.cur.curTerminal then g else k.screen.image t := by
    rw [Screen.image, Screen.pageOf_eq_of_currentTerminal t hterm, Kernel.repainted]
    show gridOf ((Screen.setPage _ _ _).page _) = _
    rw [Screen.setPage_page]
    by_cases ht : t = k.cur.curTerminal
    · rw [ht, if_pos rfl, if_pos rfl, gridOf_restorePage, gridOf_gridPage]
    · rw [if_neg ht, if_neg (Screen.pageOf_ne _ ht)]
      rfl
  by_cases ht : t = k.cur.curTerminal
  · subst ht
    rw [if_pos rfl] at himage
    rw [Function.update_self]
    exact ⟨himage, (congrFun hy _).trans hshows.row, (congrFun hx _).trans hshows.col⟩
  · rw [if_neg ht] at himage
    rw [Function.update_of_ne ht]
    exact hshows.congr himage (congrFun hx _) (congrFun hy _)

/-- The text that a process prints is seen on its terminal. -/
theorem Screen.Displays.printf (h : k.screen.Displays T) (hcur : IsTerminal k.cur.curTerminal) (text : List UInt8) :
    (k.printf text).screen.Shows k.cur.curTerminal (text.foldl vfeed (T k.cur.curTerminal)) := by
  have hshows := (h.puts hcur text).shows _ hcur
  rwa [foldl_said, if_pos rfl] at hshows

/-- If the output is the same, the two texts leave the same picture. -/
theorem SameOutput.foldl_vfeed_eq (h : SameOutput ps k) (hdisplays : k.screen.Displays T)
    (hcur : IsTerminal k.cur.curTerminal) :
    (ps.flatMap printedBy).foldl vfeed (T k.cur.curTerminal)
      = (printedBy ps.flatten).foldl vfeed (T k.cur.curTerminal) := by
  have hpicture := h.picture k.cur.curTerminal
  rw [writePieces_eq, tWrite_literal] at hpicture
  exact (Screen.samePicture_iff (hdisplays.printf hcur _) (hdisplays.printf hcur _)).mp hpicture

theorem sameOutput_of_nulsLast (hne : ∀ p ∈ ps, p ≠ []) (h : NulsLast ps) (k : Kernel) : SameOutput ps k where
  total := by rw [writePieces_eq, tWrite_literal]
  picture t := by
    rw [writePieces_eq, tWrite_literal, printed_of_nulsLast hne h]
    exact ⟨rfl, rfl, rfl⟩

/-- A line break more is seen on some page with the cursor in this place. -/
theorem exists_not_sameOutput (hne : ∀ p ∈ ps, p ≠ []) (h : ¬NulsLast ps) (hsound : k.screen.Sound)
    (hcur : IsTerminal k.cur.curTerminal) (hfits : FitsScreen ps k) : ∃ g, ¬SameOutput ps (k.repainted g) := by
  obtain ⟨T, hT⟩ := Screen.sound_iff.mp hsound
  have hshows := hT.shows _ hcur
  obtain ⟨u, v, y, hwhole, hcut, hv, hbroken⟩ := exists_break_of_nul hne h
  have hroom : (u ++ 0x0A :: y).foldl (nextPlace numCols isBreak) (T k.cur.curTerminal).place < numRows * numCols := by
    rw [← hcut, Terminal.place, ← hshows.row, ← hshows.col]
    exact hfits
  have htwo : Nontrivial UInt8 := ⟨0, 1, by decide⟩
  obtain ⟨g, hg⟩ := Terminal.exists_foldl_feed_ne space (by decide) hv hbroken hroom
  refine ⟨g, fun hsame => hg ?_⟩
  have heq := hsame.foldl_vfeed_eq (hT.repainted g) hcur
  rw [hwhole, hcut, show (k.repainted g).cur = k.cur from rfl, Function.update_self] at heq
  exact heq.symm

/-- **A cut that is not seen.**  Behind enough line breaks the terminal is empty, with the cursor in the last row, and
the line break for the NUL leaves it so: if the output scrolls, the picture may be the same in spite of the cut. -/
theorem samePicture_behind_breaks (hsound : k.screen.Sound) (hcur : IsTerminal k.cur.curTerminal) (p : List UInt8)
    {q : List UInt8} (hq : q ≠ []) {n : ℕ} (hn : 2 * numRows < n)
    (hps : ps = [p ++ List.replicate n 0x0A ++ [0], q]) :
    Screen.SamePicture (tWrite (literal ps.flatten) ps.flatten.length k).2.screen (writePieces ps k).2.screen
      k.cur.curTerminal := by
  obtain ⟨T, hT⟩ := Screen.sound_iff.mp hsound
  have hprinted : nonNul (p ++ List.replicate n 0x0A ++ [0]) = nonNul p ++ List.replicate n 0x0A := by
    rw [nonNul, List.filter_append, List.filter_append, List.filter_replicate, if_pos (by decide)]
    exact List.append_nil _
  have hbreak : lastBreak (p ++ List.replicate n 0x0A ++ [0]) = [0x0A] := by
    rw [lastBreak, List.getLast?_concat, if_pos rfl]
  have hempty : ∀ T : Vterm, vfeed ((List.replicate n 0x0A).foldl vfeed T) 0x0A
      = (List.replicate n 0x0A).foldl vfeed T := fun T => Terminal.lineBreak_breaks (by decide) hn T
  rw [writePieces_eq, tWrite_literal]
  refine (Screen.samePicture_iff (hT.printf hcur _) (hT.printf hcur _)).mpr ?_
  subst hps
  rw [printedBy_flatten_cons _ (by rwa [List.flatten_singleton]), flatMap_printedBy_cons, List.flatMap_singleton,
    List.flatten_singleton, hprinted, hbreak, List.foldl_append, List.foldl_append, List.foldl_append,
    List.foldl_append, List.foldl_append, List.foldl_cons, List.foldl_nil, hempty]

end Seen

/-- **Output in pieces.**  The counts always add up to that of one call.  If no piece but the last ends in a NUL, the
screen is the same as after one call too, whatever it was before.  If the output does not scroll, this is the only
reason: a page that the running process could write to shows the difference. -/
theorem terminal_writes_join_iff {ps : List (List UInt8)} (hne : ∀ p ∈ ps, p ≠ []) :
    (∀ k, (writePieces ps k).1 = (tWrite (literal ps.flatten) ps.flatten.length k).1) ∧
    (NulsLast ps → ∀ k, SameOutput ps k) ∧
    ∀ k : Kernel, k.screen.Sound → IsTerminal k.cur.curTerminal → FitsScreen ps k →
      ((∀ g, SameOutput ps (k.repainted g)) ↔ NulsLast ps) := by
  refine ⟨fun k => by rw [writePieces_eq, tWrite_literal], sameOutput_of_nulsLast hne, ?_⟩
  intro k hsound hcur hfits
  constructor
  · intro hall
    by_contra hnul
    obtain ⟨g, hg⟩ := exists_not_sameOutput hne hnul hsound hcur hfits
    exact hg (hall g)
  · intro hnul g
    exact sameOutput_of_nulsLast hne hnul _

/-- A NUL at the very end is no obstacle. -/
theorem terminal_writes_join_text : ∃ b, boot twoProgramPlatform default powerOnKernel = some b ∧
    SameOutput [[0x61], [0x62, 0]] b := by
  have heval : (boot twoProgramPlatform default powerOnKernel).isSome = true := by decide +kernel
  obtain ⟨b, hboot⟩ := Option.isSome_iff_exists.mp heval
  exact ⟨b, hboot, (terminal_writes_join_iff (by decide)).2.1 (by decide) b⟩

/-- **A cut behind a NUL.**  Right after boot the cursor ends in the second row instead of the first. -/
theorem terminal_writes_cut : ∃ b, boot twoProgramPlatform default powerOnKernel = some b ∧
    (tWrite (literal [0x61, 0, 0x62]) 3 b).2.screen.screenY 0 = 0 ∧
    (writePieces [[0x61, 0], [0x62]] b).2.screen.screenY 0 = 1 ∧ ¬SameOutput [[0x61, 0], [0x62]] b := by
  have heval : ((boot twoProgramPlatform default powerOnKernel).any fun b =>
      decide ((tWrite (literal [0x61, 0, 0x62]) 3 b).2.screen.screenY 0 = 0 ∧
        (writePieces [[0x61, 0], [0x62]] b).2.screen.screenY 0 = 1)) = true := by
    decide +kernel
  simp only [Option.any_eq_true, decide_eq_true_eq] at heval
  obtain ⟨b, hboot, hwhole, hcut⟩ := heval
  refine ⟨b, hboot, hwhole, hcut, fun hsame => ?_⟩
  have hrow : (writePieces [[0x61, 0], [0x62]] b).2.screen.screenY 0
      = (tWrite (literal [0x61, 0, 0x62]) 3 b).2.screen.screenY 0 := (hsame.picture 1).y
  rw [hwhole, hcut] at hrow
  cases hrow

end ClosKernel
