import Mathlib.Data.Nat.Notation
import Mathlib.Logic.Function.Basic

/-!
# The 8259 interrupt controller

Two controllers in a cascade, as a personal computer has them: the second one asks for attention at line 2 of the first.
A controller is programmed through two ports.  A command byte with bit 4 set starts the initialisation, which goes
on with the next bytes at the data port; a controller that is ready takes a byte at the data port as its mask.
Priorities are fixed, the lowest line first.

* `Chip.command`, `Chip.data` — the two ports of a controller;
* `Pair.inta` — what the processor gets when it asks which line interrupts;
* `Pair.Cascaded` and `Pair.inta_spec` — **a pair that is set up** delivers the vectors of lines that are not masked.
-/

namespace InterruptController

open Function (update)

/-- What the data port expects. -/
inductive Phase where
  | ready
  | icw2
  | icw3
  | icw4
  deriving DecidableEq

structure Chip where
  /-- The lines that are masked. -/
  imr : BitVec 8
  /-- The lines that ask for attention. -/
  irr : BitVec 8
  /-- The lines in service. -/
  isr : BitVec 8
  base : BitVec 8
  cascade : BitVec 8
  autoEoi : Bool
  phase : Phase
  single : Bool
  fourth : Bool

/-- The bit of a line. -/
def bit (i : ℕ) : BitVec 8 := 1#8 <<< i

theorem getLsbD_bit {i : ℕ} (hi : i < 8) (j : ℕ) : (bit i).getLsbD j = decide (j = i) := by
  rw [bit, BitVec.getLsbD_shiftLeft, BitVec.getLsbD_one]
  by_cases h : j = i
  · simp [h, hi]
  · have : j < i ∨ j - i ≠ 0 := by omega
    rcases this with hlt | hne
    · simp [hlt, h]
    · simp [hne, h]

/-- The bits of a register, as lines. -/
def HasBits (x : BitVec 8) (f : ℕ → Bool) : Prop := ∀ i < 8, x.getLsbD i = f i

theorem HasBits.congr {x : BitVec 8} {f g : ℕ → Bool} (h : HasBits x f) (hfg : ∀ i < 8, g i = f i) : HasBits x g :=
  fun i hi => (h i hi).trans (hfg i hi).symm

theorem HasBits.clear {x : BitVec 8} {f : ℕ → Bool} (h : HasBits x f) {n : ℕ} (hn : n < 8) :
    HasBits (x &&& ~~~bit n) (update f n false) := fun i hi => by
  rw [BitVec.getLsbD_and, BitVec.getLsbD_not, getLsbD_bit hn, decide_eq_true hi, Bool.true_and, h i hi]
  by_cases heq : i = n
  · rw [heq, Function.update_self, decide_eq_true rfl, Bool.not_true, Bool.and_false]
  · rw [Function.update_of_ne heq, decide_eq_false heq, Bool.not_false, Bool.and_true]

theorem HasBits.set {x : BitVec 8} {f : ℕ → Bool} (h : HasBits x f) {n : ℕ} (hn : n < 8) :
    HasBits (x ||| bit n) (update f n true) := fun i hi => by
  rw [BitVec.getLsbD_or, getLsbD_bit hn, h i hi]
  by_cases heq : i = n
  · rw [heq, Function.update_self, decide_eq_true rfl, Bool.or_true]
  · rw [Function.update_of_ne heq, decide_eq_false heq, Bool.or_false]

namespace Chip

variable (c : Chip)

/-- The line with the highest priority among those in service. -/
def highest : Option ℕ := (List.range 8).find? fun i => c.isr.getLsbD i

/-- A byte at the command port: the first word of an initialisation, the end of an interrupt, or a word that has no
effect here. -/
def command (v : BitVec 8) : Chip :=
  if v.getLsbD 4 then
    { c with
      imr := 0
      irr := 0
      isr := 0
      phase := .icw2
      single := v.getLsbD 1
      fourth := v.getLsbD 0
      autoEoi := false }
  else if v.getLsbD 3 then c
  else if v.extractLsb' 5 3 = 0b011#3 then { c with isr := c.isr &&& ~~~bit (v.extractLsb' 0 3).toNat }
  else if v.extractLsb' 5 3 = 0b001#3 then
    match c.highest with
    | some i => { c with isr := c.isr &&& ~~~bit i }
    | none => c
  else c

/-- A byte at the data port. -/
def data (v : BitVec 8) : Chip :=
  match c.phase with
  | .ready => { c with imr := v }
  | .icw2 =>
      { c with
        base := v &&& 0xF8#8
        phase := if c.single then (if c.fourth then .icw4 else .ready) else .icw3 }
  | .icw3 => { c with cascade := v, phase := if c.fourth then .icw4 else .ready }
  | .icw4 => { c with autoEoi := v.getLsbD 1, phase := .ready }

theorem data_ready (v : BitVec 8) (h : c.phase = .ready) : c.data v = { c with imr := v } := by
  simp only [data, h]

/-- A specific end of interrupt. -/
theorem command_eoi {n : ℕ} (hn : n < 8) :
    c.command (0x60#8 ||| BitVec.ofNat 8 n) = { c with isr := c.isr &&& ~~~bit n } := by
  have hword : ∀ n < 8, (0x60#8 ||| BitVec.ofNat 8 n).getLsbD 4 = false ∧
      (0x60#8 ||| BitVec.ofNat 8 n).getLsbD 3 = false ∧
      (0x60#8 ||| BitVec.ofNat 8 n).extractLsb' 5 3 = 0b011#3 ∧
      ((0x60#8 ||| BitVec.ofNat 8 n).extractLsb' 0 3).toNat = n := by decide
  obtain ⟨h₄, h₃, hkind, hline⟩ := hword n hn
  rw [command, h₄, h₃, if_neg Bool.false_ne_true, if_neg Bool.false_ne_true, if_pos hkind, hline]

/-- The line that a controller wants attention for: no line of the same or a higher priority is in service. -/
def pending : Option ℕ :=
  (List.range 8).find? fun i =>
    c.irr.getLsbD i && !c.imr.getLsbD i && (List.range (i + 1)).all fun j => !c.isr.getLsbD j

/-- The processor has been told of a line. -/
def acknowledge (i : ℕ) : Chip :=
  { c with irr := c.irr &&& ~~~bit i, isr := if c.autoEoi then c.isr else c.isr ||| bit i }

theorem acknowledge_isr (i : ℕ) (h : c.autoEoi = false) : (c.acknowledge i).isr = c.isr ||| bit i := by
  simp only [acknowledge, h, Bool.false_eq_true, if_false]

theorem pending_spec {i : ℕ} (h : c.pending = some i) :
    i < 8 ∧ c.imr.getLsbD i = false ∧ ∀ j ≤ i, c.isr.getLsbD j = false := by
  have hmem := List.mem_range.mp (List.mem_of_find?_eq_some h)
  have hp := List.find?_some h
  simp only [Bool.and_eq_true, Bool.not_eq_true', List.all_eq_true, List.mem_range] at hp
  exact ⟨hmem, hp.1.2, fun j hj => hp.2 j (by omega)⟩

end Chip

structure Pair where
  master : Chip
  slave : Chip

namespace Pair

variable (p : Pair)

/-- The first controller, with the second one at its line 2. -/
def wired : Chip :=
  { p.master with
    irr := if p.slave.pending.isSome then p.master.irr ||| bit 2 else p.master.irr &&& ~~~bit 2 }

/-- The processor asks for the vector.  If the first controller has a controller at the line, that one answers, if it
is the one that is meant. -/
def inta : Option (BitVec 8 × Pair) :=
  p.wired.pending.bind fun i =>
    if p.master.cascade.getLsbD i then
      if p.slave.cascade = BitVec.ofNat 8 i then
        p.slave.pending.map fun j => (p.slave.base + BitVec.ofNat 8 j, ⟨p.wired.acknowledge i, p.slave.acknowledge j⟩)
      else none
    else some (p.master.base + BitVec.ofNat 8 i, ⟨p.wired.acknowledge i, p.slave⟩)

/-- Both controllers are ready and know of each other; the end of an interrupt must be told. -/
structure Cascaded (b₁ b₂ : BitVec 8) : Prop where
  ready₁ : p.master.phase = .ready
  ready₂ : p.slave.phase = .ready
  base₁ : p.master.base = b₁
  base₂ : p.slave.base = b₂
  cascade₁ : p.master.cascade = bit 2
  cascade₂ : p.slave.cascade = 2#8
  told₁ : p.master.autoEoi = false
  told₂ : p.slave.autoEoi = false

/-- What `inta` delivers. -/
theorem inta_spec {b₁ b₂ v : BitVec 8} {p' : Pair} (hp : p.Cascaded b₁ b₂) (h : p.inta = some (v, p')) :
    (∃ i < 8, i ≠ 2 ∧ v = b₁ + BitVec.ofNat 8 i ∧ p.master.imr.getLsbD i = false ∧ p.master.isr.getLsbD i = false ∧
      p' = ⟨p.wired.acknowledge i, p.slave⟩) ∨
    ∃ j < 8, v = b₂ + BitVec.ofNat 8 j ∧ p.slave.imr.getLsbD j = false ∧ p.slave.isr.getLsbD j = false ∧
      p.master.imr.getLsbD 2 = false ∧ p.master.isr.getLsbD 2 = false ∧
      p' = ⟨p.wired.acknowledge 2, p.slave.acknowledge j⟩ := by
  rw [inta, Option.bind_eq_some_iff] at h
  obtain ⟨i, hi, h⟩ := h
  obtain ⟨hlt, himr, hisr⟩ := p.wired.pending_spec hi
  rw [hp.cascade₁, getLsbD_bit (by decide)] at h
  by_cases h2 : i = 2
  · subst h2
    rw [if_pos (by decide), if_pos hp.cascade₂, Option.map_eq_some_iff] at h
    obtain ⟨j, hj, heq⟩ := h
    obtain ⟨hjlt, hjimr, hjisr⟩ := p.slave.pending_spec hj
    rw [Prod.mk.injEq] at heq
    exact .inr ⟨j, hjlt, by rw [← heq.1, hp.base₂], hjimr, hjisr j (Nat.le_refl _), himr, hisr 2 (Nat.le_refl _),
      heq.2.symm⟩
  · rw [if_neg (by simpa using h2), Option.some_inj, Prod.mk.injEq] at h
    exact .inl ⟨i, hlt, h2, by rw [← h.1, hp.base₁], himr, hisr i (Nat.le_refl _), h.2.symm⟩

end Pair

end InterruptController
