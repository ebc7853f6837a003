import Mathlib.Algebra.Group.Nat.Defs
import Mathlib.Data.Nat.Notation
import Mathlib.Logic.Function.Basic

/-!
# The 8254 interval timer

Three channels, each of which divides the input frequency by a number of 16 bits.  A channel is programmed by a control
word, which names the channel, the bytes of the number that are going to be written, and the mode; the bytes follow at
the port of the channel.  If both bytes are to be written, the lower one comes first, and the number counts when it is
complete.

* `Timer.control`, `Timer.write` — the ports;
* `Timer.program_word` — **a control word and two bytes** program one channel, whatever it was doing before.
-/

namespace IntervalTimer

open Function (update)

/-- Which bytes are written to the port of a channel. -/
inductive Access where
  | low
  | high
  | both
  deriving DecidableEq

structure Channel where
  access : Access
  mode : BitVec 3
  /-- The number is binary, not decimal. -/
  binary : Bool
  /-- The lower byte, if the higher one is still to come. -/
  latch : Option (BitVec 8)
  count : BitVec 16

/-- By how much the channel divides. -/
def Channel.divisor (c : Channel) : ℕ := if c.count = 0 then 2 ^ 16 else c.count.toNat

/-- A byte at the port of the channel. -/
def Channel.write (v : BitVec 8) (c : Channel) : Channel :=
  match c.access, c.latch with
  | .low, _ => { c with count := 0#8 ++ v }
  | .high, _ => { c with count := v ++ 0#8 }
  | .both, none => { c with latch := some v }
  | .both, some low => { c with latch := none, count := v ++ low }

abbrev Timer := ℕ → Channel

def accessOf (w : BitVec 8) : Option Access :=
  if w.extractLsb' 4 2 = 1 then some .low
  else if w.extractLsb' 4 2 = 2 then some .high
  else if w.extractLsb' 4 2 = 3 then some .both
  else none

/-- A byte at the port for control words.  Commands that only read are ignored. -/
def Timer.control (w : BitVec 8) (t : Timer) : Timer :=
  if w.extractLsb' 6 2 = 3 then t
  else match accessOf w with
    | none => t
    | some access => update t (w.extractLsb' 6 2).toNat
        { t (w.extractLsb' 6 2).toNat with
          access := access, mode := w.extractLsb' 1 3, binary := !w.getLsbD 0, latch := none }

/-- A byte at the port of channel `i`. -/
def Timer.write (i : ℕ) (v : BitVec 8) (t : Timer) : Timer := update t i ((t i).write v)

/-- **A control word and two bytes.**  The channel takes the number, and the others are left alone. -/
theorem Timer.program_word {w : BitVec 8} (haccess : accessOf w = some .both) (hchannel : w.extractLsb' 6 2 ≠ 3)
    (low high : BitVec 8) (t : Timer) :
    Timer.write (w.extractLsb' 6 2).toNat high (Timer.write (w.extractLsb' 6 2).toNat low (t.control w))
      = update t (w.extractLsb' 6 2).toNat
          ⟨.both, w.extractLsb' 1 3, !w.getLsbD 0, none, high ++ low⟩ := by
  rw [Timer.control, if_neg hchannel, haccess]
  dsimp only [Timer.write, Channel.write]
  simp only [Function.update_self, Function.update_idem]

end IntervalTimer
