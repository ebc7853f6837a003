import ClosKernel.Cursor

/-!
# The rows of the line buffers (`insert` and `backspacebuf` of `terminal.c`)

The lines of the three terminals are the rows of one array, `tbuf[3][128]`, and `insert` and `backspacebuf` compute
their place in it from `idx`.  `insert` tests the index before it stores; `backspacebuf` stores first, also in front of
an empty line.

* `LineCall.indices` — the indices into the row of the displayed terminal;
* `LineCall.apart_iff` — **one call**: it keeps to its row just if it does not erase on an empty line;
* `line_rows_apart_iff` — **the run**, with switches of the terminal between the calls.
-/

namespace ClosKernel

open PartialRun

/-- The calls that edit a line, switches of the terminal, and anything else that the kernel does between two of them
without a change to the line buffers or to which terminal is displayed. -/
inductive LineCall
  | insert (letter : UInt8)
  | backspacebuf
  | screenChange (st : Stack) (n : ℤ)
  | resume (m : Kernel)

/-- `idx[whatTerm()-1]`. -/
def Kernel.typedLength (k : Kernel) : ℤ := k.tty.idx (k.screen.currentTerminal - 1)

namespace LineCall

def step (E : Platform) : LineCall → Kernel → Option Kernel
  | .insert letter, k => some (k.insert letter).2
  | .backspacebuf, k => some k.backspacebuf.2
  | .screenChange st n, k => ClosKernel.screenChange E st n k
  | .resume m, k =>
    some { m with tty := k.tty, screen := { m.screen with currentTerminal := k.screen.currentTerminal } }

/-- The indices into `tbuf[whatTerm()-1]` at which a call stores. -/
def indices : LineCall → Kernel → List ℤ
  | .insert _, k => if 127 < k.typedLength then [] else [k.typedLength]
  | .backspacebuf, k => [k.typedLength - 1]
  | .screenChange _ _, _ | .resume _, _ => []

/-- The calls that edit the line of the displayed terminal. -/
def Edits : LineCall → Prop
  | .insert _ | .backspacebuf => True
  | .screenChange _ _ | .resume _ => False

/-- **A call keeps to its own row**: the indices are those of the row, the other rows and their lengths stay, and on an
empty line `backspacebuf` returns -1 and does nothing. -/
structure Apart (E : Platform) (a : LineCall) (k : Kernel) : Prop where
  index : ∀ i ∈ a.indices k, 0 ≤ i ∧ i ≤ 127
  others : a.Edits → ∀ k', step E a k = some k' → ∀ t, IsTerminal t → t ≠ k.screen.currentTerminal → k.SameLine k' t
  empty : a = .backspacebuf → k.typedLength = 0 → k.backspacebuf = (-1, k)

/-- Nothing is erased on an empty line. -/
def OnText : LineCall → Kernel → Prop
  | .backspacebuf, k => k.typedLength ≠ 0
  | .insert _, _ | .screenChange _ _, _ | .resume _, _ => True

instance : ∀ (a : LineCall) (k : Kernel), Decidable (a.OnText k)
  | .backspacebuf, _ => inferInstanceAs (Decidable (_ ≠ _))
  | .insert _, _ | .screenChange _ _, _ | .resume _, _ => isTrue trivial

/-! ### One call -/

section Step

variable {E : Platform} {k k' : Kernel} {t : ℤ}

/-- A call that edits a line changes the bytes at its indices only, and the length of that line only. -/
theorem step_changes {a : LineCall} (ha : a.Edits) (hstep : step E a k = some k') :
    (∀ j, (∀ i ∈ a.indices k, j ≠ bufsize * (k.screen.currentTerminal - 1) + i) → k'.tty.tbuf j = k.tty.tbuf j) ∧
      ∀ t, t ≠ k.screen.currentTerminal → k'.tty.idx (t - 1) = k.tty.idx (t - 1) := by
  cases a with
  | insert letter =>
    rw [step, Option.some_inj] at hstep
    by_cases hfull : 127 < k.typedLength
    · have hsame : (k.insert letter).2 = k := congrArg Prod.snd (if_pos hfull)
      rw [← hstep, hsame]
      exact ⟨fun j _ => rfl, fun t _ => rfl⟩
    · have hindices : indices (.insert letter) k = [k.typedLength] := if_neg hfull
      rw [← hstep, hindices, Kernel.insert]
      dsimp only
      rw [if_neg (show ¬127 < k.tty.idx (k.screen.currentTerminal - 1) from hfull)]
      exact ⟨fun j hj => Function.update_of_ne (hj _ (List.mem_singleton_self _)) _ _,
        fun t ht => Function.update_of_ne (by omega) _ _⟩
  | backspacebuf =>
    rw [step, Option.some_inj] at hstep
    rw [← hstep, indices, Kernel.backspacebuf]
    dsimp only [Kernel.typedLength]
    split
    · exact ⟨fun j hj => Function.update_of_ne (hj _ (List.mem_singleton_self _)) _ _,
        fun t ht => Function.update_of_ne (by omega) _ _⟩
    · exact ⟨fun j hj => Function.update_of_ne (hj _ (List.mem_singleton_self _)) _ _, fun t _ => rfl⟩
  | screenChange st n => exact ha.elim
  | resume m => exact ha.elim

/-- With its indices inside its row, a call leaves the other rows alone. -/
theorem sameLine_of_index {a : LineCall} (ha : a.Edits) (hindex : ∀ i ∈ a.indices k, 0 ≤ i ∧ i ≤ 127)
    (hstep : step E a k = some k') (ht : t ≠ k.screen.currentTerminal) : k.SameLine k' t := by
  obtain ⟨hbytes, hidx⟩ := step_changes ha hstep
  refine ⟨hidx t ht, fun j hj => hbytes _ fun i hi => ?_⟩
  have hrow := hindex i hi
  unfold bufsize
  omega

theorem apart_iff (hrange : k.tty.InRange) (hd : IsTerminal k.screen.currentTerminal) (a : LineCall) :
    a.Apart E k ↔ a.OnText k := by
  have hlength : 0 ≤ k.typedLength ∧ k.typedLength ≤ 128 := hrange _ hd
  constructor
  · intro h
    cases a with
    | backspacebuf =>
      intro hempty
      have hindex := h.index (k.typedLength - 1) (List.mem_singleton_self _)
      omega
    | insert letter => trivial
    | screenChange st n => trivial
    | resume m => trivial
  · intro h
    have hindex : ∀ i ∈ a.indices k, 0 ≤ i ∧ i ≤ 127 := by
      intro i hi
      cases a with
      | insert letter =>
        rw [indices] at hi
        split at hi
        · cases hi
        · rw [List.mem_singleton.mp hi]
          omega
      | backspacebuf =>
        have hne : k.typedLength ≠ 0 := h
        rw [List.mem_singleton.mp hi]
        omega
      | screenChange st n => cases hi
      | resume m => cases hi
    refine ⟨hindex, fun ha k' hstep t _ ht => sameLine_of_index ha hindex hstep ht, ?_⟩
    rintro rfl hempty
    exact absurd hempty h

/-- One of the terminals is displayed, and every index is in range. -/
def InRange (k : Kernel) : Prop := IsTerminal k.screen.currentTerminal ∧ k.tty.InRange

theorem step_inRange (a : LineCall) (h : InRange k) (hstep : step E a k = some k') : InRange k' := by
  obtain ⟨hd, hrange⟩ := h
  cases a with
  | insert letter =>
    rw [step, Option.some_inj] at hstep
    have hnew := hrange.insert hd letter
    rw [← hstep, insert_tty]
    exact ⟨hd, hnew⟩
  | backspacebuf =>
    rw [step, Option.some_inj] at hstep
    have hnew := hrange.backspacebuf hd
    rw [← hstep, backspacebuf_tty]
    exact ⟨hd, hnew⟩
  | screenChange st n =>
    refine ⟨screenChange_displayed hd hstep, ?_⟩
    obtain htty | ⟨-, htty⟩ := screenChange_tty hstep
    · exact htty ▸ hrange
    · exact htty ▸ hrange.clearbuf
  | resume m => exact Option.some_inj.mp hstep ▸ ⟨hd, hrange⟩

end Step

end LineCall

/-! ### Runs -/

/-- **The rows stay apart just if nothing is erased on an empty line.**  From empty lines, whatever is typed and erased
on whichever terminals, every line has from 0 to 128 characters.  The calls all keep to their own rows if and only if
each erases on a line that has a character. -/
theorem line_rows_apart_iff {E : Platform} {k₀ : Kernel} (hd : IsTerminal k₀.screen.currentTerminal)
    (hidx : ∀ t, IsTerminal t → k₀.tty.idx (t - 1) = 0) (calls : List LineCall) :
    (∀ k, runs (LineCall.step E) calls k₀ = some k →
        ∀ t, IsTerminal t → 0 ≤ k.tty.idx (t - 1) ∧ k.tty.idx (t - 1) ≤ 128) ∧
      (Meets (LineCall.step E) (LineCall.Apart E) calls k₀ ↔ Meets (LineCall.step E) LineCall.OnText calls k₀) := by
  have hstart : LineCall.InRange k₀ := ⟨hd, fun t ht => by rw [hidx t ht]; decide⟩
  have hkeep : ∀ (a : LineCall) k k', LineCall.InRange k → LineCall.step E a k = some k' → LineCall.InRange k' :=
    fun a k k' h hstep => a.step_inRange h hstep
  refine ⟨fun k hrun => (runs_invariant hkeep hstart hrun).2, ?_⟩
  exact meets_congr_of_invariant hkeep (fun a k h => a.apart_iff h.2 h.1) hstart

/-- A character is typed on terminal 1 and another on terminal 2, and both are erased. -/
def typedAndErased : List LineCall :=
  [.insert 0x61, .screenChange default 2, .insert 0x62, .backspacebuf, .screenChange default 1, .backspacebuf]

theorem line_rows_apart_typedAndErased :
    IsTerminal firstShellKernel.screen.currentTerminal ∧
      Meets (LineCall.step twoProgramPlatform) LineCall.OnText typedAndErased firstShellKernel ∧
      Meets (LineCall.step twoProgramPlatform) (LineCall.Apart twoProgramPlatform) typedAndErased firstShellKernel :=
  ⟨.inl rfl, by decide +kernel,
    (line_rows_apart_iff (.inl rfl) (fun _ _ => rfl) typedAndErased).2.mpr (by decide +kernel)⟩

/-- **Where the rows meet.**  The first backspace after boot is stored at index -1 of the row of terminal 1, in front of
the array.  On terminal 2 it is the last byte of a full line of terminal 1 that a backspace on the empty line clears. -/
theorem backspacebuf_leaves_row :
    (LineCall.indices .backspacebuf firstShellKernel = [-1] ∧
      ¬Meets (LineCall.step twoProgramPlatform) (LineCall.Apart twoProgramPlatform) [.backspacebuf] firstShellKernel) ∧
    ((runs (LineCall.step twoProgramPlatform)
        (List.replicate 128 (.insert 0x61) ++ [.screenChange default 2]) firstShellKernel).any fun k =>
      LineCall.indices .backspacebuf k == [-1] && k.backspacebuf.1 == -1 &&
        k.line 1 127 == 0x61 && k.backspacebuf.2.line 1 127 == 0) = true := by
  refine ⟨⟨rfl, fun h => ?_⟩, by decide +kernel⟩
  exact absurd (h.1.index (-1) (List.mem_singleton_self _)) (by decide)

end ClosKernel
