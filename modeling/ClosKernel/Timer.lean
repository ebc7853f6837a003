import ClosKernel.Lib.IntervalTimer
import Mathlib.Data.Int.Notation

/-!
# The rate of the scheduler (`pit.c`)

`pit_set_freq` programs a channel of the timer, after it has checked the channel and the frequency; channel 0 gives the
interrupts that drive `schedule`.  The lower bound of the frequency is a quotient that is not an integer, so that 18 is
refused and 19 is not: with 18 the divider would not fit into 16 bits.

* `Accepted.divider_lt` — the divider of a call that is accepted fits;
* `pitSetFreq_accepted`, `pitSetFreq_refused` — one call;
* `pit_keeps_last_rate` — **after any calls each channel divides by what the last accepted call for it asked for.**
-/

namespace ClosKernel

open IntervalTimer
open Function (update)

def pitFreqMax : ℕ := 1193182
def pitCh0Port : ℕ := 0x40
def pitCmdPort : ℕ := 0x43
def pitSetRateCmd : BitVec 8 := 0x36
def pitFreqSchedule : BitVec 32 := 25

/-- `outb`, at the ports of the timer. -/
def pitOutb (v : BitVec 8) (port : ℕ) (t : Timer) : Timer :=
  if port = pitCmdPort then t.control v
  else if pitCh0Port ≤ port ∧ port < pitCmdPort then Timer.write (port - pitCh0Port) v t
  else t

theorem pitOutb_command (v : BitVec 8) (t : Timer) : pitOutb v pitCmdPort t = t.control v := if_pos rfl

theorem pitOutb_channel {i : ℕ} (hi : i < 3) (v : BitVec 8) (t : Timer) :
    pitOutb v (pitCh0Port + i) t = Timer.write i v t := by
  have hport : pitCh0Port + i ≠ pitCmdPort ∧ pitCh0Port + i < pitCmdPort := by
    rw [pitCh0Port, pitCmdPort]
    omega
  rw [pitOutb, if_neg hport.1, if_pos ⟨Nat.le_add_right _ _, hport.2⟩, Nat.add_sub_cancel_left]

/-- `channel > 2 || channel == 1`. -/
def BadChannel (channel : BitVec 8) : Prop := 2 < channel ∨ channel = 1

/-- `freq > PIT_FREQ_MAX || freq < PIT_FREQ_MIN`.  `PIT_FREQ_MIN` is `PIT_FREQ_MAX / 65536.0`, and both sides of the
second comparison are exact. -/
def BadFreq (freq : BitVec 32) : Prop := pitFreqMax < freq.toNat ∨ freq.toNat * 65536 < pitFreqMax

instance (channel : BitVec 8) : Decidable (BadChannel channel) := inferInstanceAs (Decidable (_ ∨ _))
instance (freq : BitVec 32) : Decidable (BadFreq freq) := inferInstanceAs (Decidable (_ ∨ _))

def pitSetFreq (channel : BitVec 8) (freq : BitVec 32) (t : Timer) : ℤ × Timer :=
  if BadChannel channel then (-1, t)
  else if BadFreq freq then (-1, t)
  else
    let divider := BitVec.ofNat 16 (pitFreqMax / freq.toNat)
    let t := pitOutb (pitSetRateCmd + (channel <<< 6)) pitCmdPort t
    let t := pitOutb (divider.extractLsb' 0 8) (pitCh0Port + channel.toNat) t
    let t := pitOutb (divider.extractLsb' 8 8) (pitCh0Port + channel.toNat) t
    (0, t)

/-- A call, with its arguments. -/
abbrev RateCall := BitVec 8 × BitVec 32

/-- One call after the other, with what they return. -/
def pitSetFreqs : List RateCall → Timer → List ℤ × Timer
  | [], t => ([], t)
  | (channel, freq) :: calls, t =>
    let r := pitSetFreq channel freq t
    let rs := pitSetFreqs calls r.2
    (r.1 :: rs.1, rs.2)

/-! ### One call -/

/-- The call passes both checks. -/
def Accepted (c : RateCall) : Prop := ¬BadChannel c.1 ∧ ¬BadFreq c.2

instance (c : RateCall) : Decidable (Accepted c) := inferInstanceAs (Decidable (_ ∧ _))

section Call

variable {channel : BitVec 8} {freq : BitVec 32}

theorem Accepted.channel_cases (h : Accepted (channel, freq)) : channel = 0 ∨ channel = 2 := by
  have hbad : ¬(2 < channel ∨ channel = 1) := h.1
  bv_omega

theorem Accepted.freq_bounds (h : Accepted (channel, freq)) : 19 ≤ freq.toNat ∧ freq.toNat ≤ pitFreqMax := by
  have hbad : ¬(1193182 < freq.toNat ∨ freq.toNat * 65536 < 1193182) := h.2
  rw [pitFreqMax]
  omega

/-- The assignment to `divider` loses nothing. -/
theorem Accepted.divider_lt (h : Accepted (channel, freq)) :
    0 < pitFreqMax / freq.toNat ∧ pitFreqMax / freq.toNat < 2 ^ 16 := by
  obtain ⟨hlow, hhigh⟩ := h.freq_bounds
  refine ⟨Nat.div_pos hhigh (by omega), ?_⟩
  calc pitFreqMax / freq.toNat
      ≤ pitFreqMax / 19 := Nat.div_le_div_left hlow (by decide)
    _ < 2 ^ 16 := by decide

/-- A square wave of the given divider. -/
def squareWave (divider : ℕ) : Channel := ⟨.both, 3, true, none, BitVec.ofNat 16 divider⟩

theorem squareWave_divisor {divider : ℕ} (h : 0 < divider ∧ divider < 2 ^ 16) :
    (squareWave divider).divisor = divider := by
  have hnat : (BitVec.ofNat 16 divider).toNat = divider :=
    (BitVec.toNat_ofNat divider 16).trans (Nat.mod_eq_of_lt h.2)
  have hne : BitVec.ofNat 16 divider ≠ 0 := fun h0 => by
    have : divider = 0 := hnat.symm.trans (congrArg BitVec.toNat h0)
    omega
  rw [Channel.divisor, squareWave, if_neg hne, hnat]

theorem pitSetFreq_refused (h : ¬Accepted (channel, freq)) (t : Timer) : pitSetFreq channel freq t = (-1, t) := by
  rw [pitSetFreq]
  by_cases hchannel : BadChannel channel
  · rw [if_pos hchannel]
  · have hfreq : BadFreq freq := by
      by_contra hfreq
      exact h ⟨hchannel, hfreq⟩
    rw [if_neg hchannel, if_pos hfreq]

/-- The three writes program the channel, even if the timer was waiting for the second byte of an older number. -/
theorem pitSetFreq_accepted (h : Accepted (channel, freq)) (t : Timer) :
    pitSetFreq channel freq t = (0, update t channel.toNat (squareWave (pitFreqMax / freq.toNat))) := by
  rw [pitSetFreq, if_neg h.1, if_neg h.2]
  dsimp only
  generalize hd : BitVec.ofNat 16 (pitFreqMax / freq.toNat) = divider
  have hbytes : divider.extractLsb' 8 8 ++ divider.extractLsb' 0 8 = divider :=
    calc divider.extractLsb' 8 8 ++ divider.extractLsb' 0 8
        = divider.extractLsb' 0 16 := BitVec.extractLsb'_append_extractLsb'_eq_extractLsb' rfl
      _ = divider := BitVec.extractLsb'_eq_self
  have hwave : squareWave (pitFreqMax / freq.toNat)
      = ⟨.both, 3, true, none, divider.extractLsb' 8 8 ++ divider.extractLsb' 0 8⟩ := by
    rw [squareWave, hd, hbytes]
  have hchannel : channel.toNat < 3 := by rcases h.channel_cases with rfl | rfl <;> decide
  rw [hwave, pitOutb_command, pitOutb_channel hchannel, pitOutb_channel hchannel]
  rcases h.channel_cases with rfl | rfl
  · exact congrArg (Prod.mk 0) (Timer.program_word (w := 0x36) rfl (by decide) _ _ t)
  · exact congrArg (Prod.mk 0) (Timer.program_word (w := 0xB6) rfl (by decide) _ _ t)

end Call

/-! ### All calls -/

/-- The frequency that the last accepted call for channel `i` asked for. -/
def lastRate (i : ℕ) : List RateCall → Option (BitVec 32)
  | [] => none
  | c :: calls => (lastRate i calls).or (if Accepted c ∧ c.1.toNat = i then some c.2 else none)

/-- The channel gives a square wave, is not in the middle of a number, and has the largest divider for which the
frequency is not below `freq`. -/
structure GivesRate (freq : ℕ) (c : Channel) : Prop where
  access : c.access = .both
  mode : c.mode = 3
  binary : c.binary = true
  latch : c.latch = none
  le : c.divisor * freq ≤ pitFreqMax
  lt : pitFreqMax < (c.divisor + 1) * freq

theorem Accepted.gives {channel : BitVec 8} {freq : BitVec 32} (h : Accepted (channel, freq)) :
    GivesRate freq.toNat (squareWave (pitFreqMax / freq.toNat)) := by
  have hdivisor := squareWave_divisor h.divider_lt
  refine ⟨rfl, rfl, rfl, rfl, ?_, ?_⟩
  · rw [hdivisor]
    exact Nat.div_mul_le_self _ _
  · rw [hdivisor]
    exact Nat.lt_mul_of_div_lt (Nat.lt_succ_self _) (by have := h.freq_bounds; omega)

/-- What a channel is after calls of which `rate` is the last rate. -/
def After (rate : Option (BitVec 32)) (before after : Channel) : Prop :=
  rate.elim (after = before) fun freq => GivesRate freq.toNat after

/-- One more call before the others. -/
theorem After.cons {channel : BitVec 8} {freq : BitVec 32} {rate : Option (BitVec 32)} {t : Timer} {i : ℕ}
    {after : Channel} (h : After rate ((pitSetFreq channel freq t).2 i) after) :
    After (rate.or (if Accepted (channel, freq) ∧ channel.toNat = i then some freq else none)) (t i) after := by
  cases rate with
  | some _ => exact h
  | none =>
    have hafter : after = (pitSetFreq channel freq t).2 i := h
    rw [Option.none_or, hafter]
    by_cases hacc : Accepted (channel, freq)
    · rw [pitSetFreq_accepted hacc]
      by_cases hi : channel.toNat = i
      · subst hi
        rw [if_pos ⟨hacc, rfl⟩]
        dsimp only
        rw [Function.update_self]
        exact hacc.gives
      · rw [if_neg fun h => hi h.2]
        exact Function.update_of_ne (Ne.symm hi) _ t
    · rw [if_neg fun h => hacc h.1, pitSetFreq_refused hacc]
      exact rfl

theorem lastRate_one (calls : List RateCall) : lastRate 1 calls = none := by
  induction calls with
  | nil => rfl
  | cons c calls ih =>
    have hnot : ¬(Accepted c ∧ c.1.toNat = 1) := fun ⟨hacc, h1⟩ => by
      rcases Accepted.channel_cases hacc with h | h <;> rw [h] at h1 <;> exact absurd h1 (by decide)
    rw [lastRate, ih, if_neg hnot, Option.none_or]

/-- **Any sequence of calls, from any state of the timer.**  The calls that fail a check return -1 and the others 0; a
channel gives the rate of the last call that was accepted for it, and is as before if there was none; and channel 1,
which refreshes the memory, is never touched. -/
theorem pit_keeps_last_rate (calls : List RateCall) (t : Timer) :
    (pitSetFreqs calls t).1 = calls.map (fun c => if Accepted c then 0 else -1)
      ∧ (∀ i, After (lastRate i calls) (t i) ((pitSetFreqs calls t).2 i))
      ∧ (pitSetFreqs calls t).2 1 = t 1 := by
  have hruns : (pitSetFreqs calls t).1 = calls.map (fun c => if Accepted c then 0 else -1)
      ∧ ∀ i, After (lastRate i calls) (t i) ((pitSetFreqs calls t).2 i) := by
    -- the timer changes with the first call, and `After.cons` puts that call back in front of the rest
    induction calls generalizing t with
    | nil => exact ⟨rfl, fun _ => rfl⟩
    | cons c calls ih =>
      obtain ⟨hvalues, hafter⟩ := ih (pitSetFreq c.1 c.2 t).2
      refine ⟨?_, fun i => (hafter i).cons⟩
      rw [List.map_cons, ← hvalues]
      by_cases hacc : Accepted c
      · rw [if_pos hacc, pitSetFreqs, pitSetFreq_accepted hacc]
      · rw [if_neg hacc, pitSetFreqs, pitSetFreq_refused hacc]
  refine ⟨hruns.1, hruns.2, ?_⟩
  have hone := hruns.2 1
  rw [lastRate_one] at hone
  exact hone

/-- The call of `entry`, with two after it that are refused. -/
example : lastRate 0 [(0, pitFreqSchedule), (0, 18), (1, 50)] = some 25 := by decide

end ClosKernel
