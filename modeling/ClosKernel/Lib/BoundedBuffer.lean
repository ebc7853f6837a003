import Mathlib.Data.List.Basic
import Mathlib.Logic.Function.Basic

/-!
# Buffers of a fixed size

A buffer is a memory with a size.  Loads and stores outside of it have no result, so that a routine that has one has
kept to the buffer.  Contents are described by lists: `Holds b base xs` says that the cells from `base` on hold `xs`,
and that they lie inside.

* `Holds.append`, `Holds.left`, `Holds.right` — what is held splits along `++`;
* `Holds.load`, `Holds.load_append` — a cell that is held can be loaded;
* `Holds.store_snoc`, `Holds.poke_away` — a store behind what is held, and one outside of it;
* `Holds.swap` — the two ends of a stretch are exchanged.
-/

namespace BoundedBuffer

structure Buffer (α : Type*) where
  size : ℕ
  cell : ℕ → α

namespace Buffer

variable {α : Type*} {b b' : Buffer α} {base i : ℕ} {a z : α} {xs ys pre mid post : List α}

def load (i : ℕ) (b : Buffer α) : Option α := if i < b.size then some (b.cell i) else none

/-- The buffer with another value in one of its cells. -/
def poke (i : ℕ) (a : α) (b : Buffer α) : Buffer α := { b with cell := Function.update b.cell i a }

def store (i : ℕ) (a : α) (b : Buffer α) : Option (Buffer α) := if i < b.size then some (b.poke i a) else none

theorem poke_self (i : ℕ) (a : α) (b : Buffer α) : (b.poke i a).cell i = a := Function.update_self ..

theorem poke_of_ne {j : ℕ} (h : j ≠ i) (a : α) (b : Buffer α) : (b.poke i a).cell j = b.cell j :=
  Function.update_of_ne h ..

@[simp] theorem poke_size (i : ℕ) (a : α) (b : Buffer α) : (b.poke i a).size = b.size := rfl

theorem store_of_lt (h : i < b.size) (a : α) : b.store i a = some (b.poke i a) := if_pos h

/-- The cells from `base` on are in the buffer and hold the list. -/
structure Holds (b : Buffer α) (base : ℕ) (xs : List α) : Prop where
  fits : base + xs.length ≤ b.size
  cells : ∀ i < xs.length, xs[i]? = some (b.cell (base + i))

namespace Holds

theorem nil (h : base ≤ b.size) : b.Holds base [] := ⟨h, fun i hi => absurd hi (Nat.not_lt_zero i)⟩

theorem append (hx : b.Holds base xs) (hy : b.Holds (base + xs.length) ys) : b.Holds base (xs ++ ys) where
  fits := by
    have hfits := hy.fits
    rw [List.length_append]
    omega
  cells i hi := by
    rw [List.length_append] at hi
    by_cases hlt : i < xs.length
    · rw [List.getElem?_append_left hlt, hx.cells i hlt]
    · rw [List.getElem?_append_right (by omega), hy.cells (i - xs.length) (by omega),
        show base + xs.length + (i - xs.length) = base + i by omega]

theorem left (h : b.Holds base (xs ++ ys)) : b.Holds base xs where
  fits := by
    have hfits := h.fits
    rw [List.length_append] at hfits
    omega
  cells i hi := by
    rw [← h.cells i (by rw [List.length_append]; omega), List.getElem?_append_left hi]

theorem right (h : b.Holds base (xs ++ ys)) : b.Holds (base + xs.length) ys where
  fits := by
    have hfits := h.fits
    rw [List.length_append] at hfits
    omega
  cells i hi := by
    have hcell := h.cells (xs.length + i) (by rw [List.length_append]; omega)
    rw [List.getElem?_append_right (by omega), Nat.add_sub_cancel_left] at hcell
    rw [hcell, Nat.add_assoc]

theorem load (h : b.Holds base (a :: ys)) : b.load base = some a := by
  have hfits := h.fits
  have hcell := h.cells 0 (Nat.zero_lt_succ _)
  rw [List.length_cons] at hfits
  rw [List.getElem?_cons_zero, Nat.add_zero] at hcell
  rw [Buffer.load, if_pos (by omega), hcell]

theorem load_append (h : b.Holds base (xs ++ a :: ys)) : b.load (base + xs.length) = some a := h.right.load

/-- A store to another place changes nothing of it. -/
theorem poke_away (h : b.Holds base xs) (hi : i < base ∨ base + xs.length ≤ i) (a : α) :
    (b.poke i a).Holds base xs where
  fits := h.fits
  cells j hj := by
    rw [h.cells j hj, poke_of_ne (by omega)]

theorem singleton (h : i < b.size) (a : α) : (b.poke i a).Holds i [a] where
  fits := h
  cells j hj := by
    rw [List.length_singleton, Nat.lt_one_iff] at hj
    rw [hj, Nat.add_zero, poke_self, List.getElem?_cons_zero]

/-- A store right behind what is held. -/
theorem store_snoc (h : b.Holds base xs) (hsize : base + xs.length < b.size) (a : α) :
    ∃ b', b.store (base + xs.length) a = some b' ∧ b'.size = b.size ∧ b'.Holds base (xs ++ [a]) :=
  ⟨_, store_of_lt hsize a, rfl, (h.poke_away (Or.inr (Nat.le_refl _)) a).append (singleton hsize a)⟩

/-- A store inside of it replaces one value. -/
theorem poke_append (h : b.Holds base (xs ++ a :: ys)) (z : α) :
    (b.poke (base + xs.length) z).Holds base (xs ++ z :: ys) := by
  have hfits := h.right.fits
  rw [List.length_cons] at hfits
  have hys : b.Holds (base + xs.length + 1) ys := (show b.Holds (base + xs.length) ([a] ++ ys) from h.right).right
  exact (h.left.poke_away (Or.inr (Nat.le_refl _)) z).append
    ((singleton (by omega) z).append (hys.poke_away (Or.inl (Nat.lt_succ_self _)) z))

end Holds

/-- Two cells exchange their values. -/
def swap (i j : ℕ) (b : Buffer α) : Option (Buffer α) :=
  (b.load j).bind fun tmp => (b.load i).bind fun a => (b.store j a).bind fun b => b.store i tmp

/-- **The ends of a stretch are exchanged.** -/
theorem Holds.swap (h : b.Holds base (pre ++ a :: mid ++ z :: post)) :
    ∃ b', b.swap (base + pre.length) (base + pre.length + mid.length + 1) = some b' ∧ b'.size = b.size ∧
      b'.Holds base (pre ++ z :: mid ++ a :: post) := by
  have hlast : base + (pre ++ a :: mid).length = base + pre.length + mid.length + 1 := by
    rw [List.length_append, List.length_cons]
    omega
  have hfits := h.right.fits
  rw [hlast, List.length_cons] at hfits
  have hz := h.load_append
  rw [hlast] at hz
  have hstored := h.poke_append a
  rw [hlast] at hstored
  have hboth : ((b.poke (base + pre.length + mid.length + 1) a).poke (base + pre.length) z).Holds base
      (pre ++ z :: mid ++ a :: post) := by
    rw [List.append_assoc] at hstored ⊢
    exact hstored.poke_append z
  refine ⟨(b.poke (base + pre.length + mid.length + 1) a).poke (base + pre.length) z, ?_, rfl, hboth⟩
  rw [Buffer.swap, hz, Option.bind_some, h.left.load_append, Option.bind_some, store_of_lt (by omega), Option.bind_some,
    store_of_lt (by rw [poke_size]; omega)]

end Buffer

end BoundedBuffer
