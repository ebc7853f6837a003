import Mathlib.Data.Nat.Notation
import Mathlib.Tactic.Common
import Mathlib.Tactic.Ring

/-!
# The x86 two-level page walk

A virtual address is translated through a page directory and, unless the directory entry maps a 4 MB page,
through a page table.  The words of the tables come from an arbitrary physical memory `load`, so that a
walk can be followed through whatever memory holds the tables.

* `walk load pse cr3 v` — the translation of `v`, or `none` for a page fault;
* `Access` — the physical address with the permissions the entries grant together;
* `walk_absent`, `walk_large`, `walk_small` — the three shapes of a walk;
* `or_flags` — how flag bits are set in an aligned address.

Global pages (bit 8) are not treated specially: they only matter when `CR4.PGE` is set.
-/

namespace PageWalk

/-- Bit `i` of a table entry. -/
abbrev Bit (e i : ℕ) : Prop := e / 2 ^ i % 2 = 1

abbrev Present (e : ℕ) : Prop := Bit e 0
abbrev Writable (e : ℕ) : Prop := Bit e 1
abbrev User (e : ℕ) : Prop := Bit e 2
abbrev Large (e : ℕ) : Prop := Bit e 7

/-- The result of a walk: where the access goes and what it may do there. -/
structure Access where
  phys : ℕ
  user : Bool
  writable : Bool
  deriving DecidableEq

/-- The base of the page or table that an entry points to. -/
def base (e : ℕ) : ℕ := e / 2 ^ 12 * 2 ^ 12

/-- The base of the 4 MB page that an entry points to. -/
def largeBase (e : ℕ) : ℕ := e / 2 ^ 22 * 2 ^ 22

/-- The directory entry for `v`. -/
def directoryEntry (load : ℕ → ℕ) (cr3 v : ℕ) : ℕ := load (base cr3 + 4 * (v / 2 ^ 22 % 2 ^ 10))

/-- The table entry for `v`, in the table that the directory entry `pde` points to. -/
def tableEntry (load : ℕ → ℕ) (pde v : ℕ) : ℕ := load (base pde + 4 * (v / 2 ^ 12 % 2 ^ 10))

/-- Translate the virtual address `v`. -/
def walk (load : ℕ → ℕ) (pse : Bool) (cr3 v : ℕ) : Option Access :=
  let pde := directoryEntry load cr3 v
  if ¬Present pde then none
  else if Large pde ∧ pse = true then
    some ⟨largeBase pde + v % 2 ^ 22, decide (User pde), decide (Writable pde)⟩
  else
    let pte := tableEntry load pde v
    if ¬Present pte then none
    else some ⟨base pte + v % 2 ^ 12, decide (User pde ∧ User pte),
      decide (Writable pde ∧ Writable pte)⟩

variable {load : ℕ → ℕ} {pse : Bool} {cr3 v pde pte : ℕ}

theorem walk_absent (hpde : directoryEntry load cr3 v = pde) (h : ¬Present pde) :
    walk load pse cr3 v = none := by
  rw [walk]
  dsimp only
  rw [hpde, if_pos h]

theorem walk_large (hpde : directoryEntry load cr3 v = pde) (h : Present pde) (hlarge : Large pde) :
    walk load true cr3 v
      = some ⟨largeBase pde + v % 2 ^ 22, decide (User pde), decide (Writable pde)⟩ := by
  rw [walk]
  dsimp only
  rw [hpde, if_neg (not_not.mpr h), if_pos ⟨hlarge, rfl⟩]

theorem walk_small (hpde : directoryEntry load cr3 v = pde) (h : Present pde) (hsmall : ¬Large pde)
    (hpte : tableEntry load pde v = pte) :
    walk load pse cr3 v = if ¬Present pte then none
      else some ⟨base pte + v % 2 ^ 12, decide (User pde ∧ User pte),
        decide (Writable pde ∧ Writable pte)⟩ := by
  rw [walk]
  dsimp only
  rw [hpde, if_neg (not_not.mpr h), if_neg (fun hl => hsmall hl.1), hpte]

/-- Setting flag bits in an aligned address adds them. -/
theorem or_flags {a f : ℕ} (ha : a % 2 ^ 12 = 0) (hf : f < 2 ^ 12) : a ||| f = a + f := by
  have h := Nat.two_pow_add_eq_or_of_lt hf (a / 2 ^ 12)
  rw [show 2 ^ 12 * (a / 2 ^ 12) = a by omega] at h
  exact h.symm

end PageWalk
