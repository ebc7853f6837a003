import ClosKernel.Entries
import Mathlib.Algebra.Order.Ring.Int
import Mathlib.Tactic.IntervalCases
import Mathlib.Tactic.NormNum
import Mathlib.Tactic.Positivity

/-!
# The rate of the clock (`rtc_write`, `rtc_open`)

`rtc_write` halves the number it is given to see whether it is a power of two, and then counts up to the rate that
belongs to it.  Neither loop has a bound of its own: the first ends because the number is a 32-bit one, the second
because of what the first has shown.

* `halve_eq_one_iff` — the halving loop is over after 31 rounds, and ends at one for the powers of two;
* `rateFrom_two_pow` — the search for the rate of a power of two up to 1024;
* `rtc_write_programs_rate` — **`rtc_write`** programs the rate of the frequency, or leaves the clock as it was;
* `sysOpen_keeps_rtc` — **`sys_open`** never goes through the `open` entry of a driver, so that
  `sys_open_frequency_iff` finds the clock as the last program left it.
-/

namespace ClosKernel

open PartialRun

/-! ### The loops of `rtc_write` -/

/-- The loop that halves is over. -/
def Halved (tmp : ℤ) : Prop := ¬(1 < tmp ∧ tmp % 2 = 0)

theorem halve_succ_of_even {n : ℕ} {tmp : ℤ} (h : 1 < tmp ∧ tmp % 2 = 0) : halve (n + 1) tmp = halve n (tmp / 2) :=
  if_pos h

theorem halve_of_halved {tmp : ℤ} (h : Halved tmp) (n : ℕ) : halve n tmp = tmp := by
  cases n with
  | zero => rfl
  | succ n => exact if_neg h

/-- A number below `2 ^ (n + 1)` is halved at most `n` times. -/
theorem halve_halved (n : ℕ) {tmp : ℤ} (h : tmp < 2 ^ (n + 1)) : Halved (halve n tmp) := by
  induction n generalizing tmp with
  | zero =>
    rintro ⟨hone, -⟩
    have hlt : tmp < 2 := by simpa using h
    exact absurd hone (by simp only [halve]; omega)
  | succ n ih =>
    by_cases heven : 1 < tmp ∧ tmp % 2 = 0
    · rw [halve_succ_of_even heven]
      rw [pow_succ] at h
      exact ih (by omega)
    · rw [halve_of_halved heven]
      exact heven

theorem two_pow_halved_iff (e : ℕ) : Halved (2 ^ e) ↔ e = 0 := by
  cases e with
  | zero => simp [Halved]
  | succ e =>
    have hpos : (0 : ℤ) < 2 ^ e := by positivity
    simp only [Halved, pow_succ, Nat.succ_ne_zero, iff_false, not_not]
    omega

/-- **The test for a power of two.** -/
theorem halve_eq_one_iff {n : ℕ} {tmp : ℤ} (h : tmp < 2 ^ (n + 1)) : halve n tmp = 1 ↔ ∃ e : ℕ, tmp = 2 ^ e := by
  induction n generalizing tmp with
  | zero =>
    constructor
    · intro hone
      exact ⟨0, hone⟩
    · rintro ⟨e, rfl⟩
      have hpos : (0 : ℤ) < 2 ^ e := by positivity
      have hlt : (2 : ℤ) ^ e < 2 := by simpa using h
      show (2 : ℤ) ^ e = 1
      omega
  | succ n ih =>
    by_cases heven : 1 < tmp ∧ tmp % 2 = 0
    · have hhalf : tmp / 2 < 2 ^ (n + 1) := by
        rw [pow_succ] at h
        omega
      rw [halve_succ_of_even heven, ih hhalf]
      constructor
      · rintro ⟨e, he⟩
        exact ⟨e + 1, by rw [pow_succ]; omega⟩
      · rintro ⟨e, rfl⟩
        cases e with
        | zero => exact absurd heven.1 (by decide)
        | succ e => exact ⟨e, by rw [pow_succ]; omega⟩
    · rw [halve_of_halved heven]
      constructor
      · intro hone
        exact ⟨0, hone⟩
      · rintro ⟨e, rfl⟩
        rw [(two_pow_halved_iff e).mp heven]
        rfl

/-- The frequencies of the search: the rate of `2 ^ e` is `16 - e`, found after `16 - e` shifts. -/
theorem rateFrom_two_pow {e : ℕ} (he : e ≤ 10) : rateFrom (2 ^ e) 32 1 = some (16 - e) := by
  interval_cases e <;> rfl

/-! ### `rtc_write` -/

/-- `*(uint32_t*)buf`, read as an `int32_t`. -/
def freqOf (buf : Mem) : ℤ := toInt32 (wordOf buf)

theorem freqOf_lt (buf : Mem) : freqOf buf < 2 ^ (31 + 1) := by
  have h0 := (buf 0).toNat_lt
  have h1 := (buf 1).toNat_lt
  have h2 := (buf 2).toNat_lt
  have h3 := (buf 3).toNat_lt
  rw [freqOf, toInt32, wordOf]
  split
  · omega
  · omega

/-- A frequency that the clock can be given: a power of two from 2 to 1024. -/
def Programmable (freq : ℤ) : Prop := (∃ e : ℕ, freq = 2 ^ e) ∧ 2 ≤ freq ∧ freq ≤ 1024

/-- What a call of `rtc_write` may do: program the rate of the frequency, or nothing. -/
structure WritesRate (freq : ℤ) (before : Rtc) (r : ℤ) (after : Rtc) : Prop where
  accepted : r = 0 ↔ Programmable freq
  programmed : r = 0 → ∃ rate : ℕ, (6 ≤ rate ∧ rate ≤ 15) ∧ ((32768 >>> (rate - 1) : ℕ) : ℤ) = freq ∧
    after.regA &&& 0x0F = UInt8.ofNat rate ∧ after.regA &&& 0xF0 = before.regA &&& 0xF0 ∧ after.curFreq = freq
  refused : r ≠ 0 → r = -1 ∧ after = before

/-- Register A keeps its high half and receives the rate in the low one. -/
theorem regA_halves (old : UInt8) {rate : ℕ} (hrate : rate < 16) :
    ((old &&& 0xF0) ||| UInt8.ofNat rate) &&& 0x0F = UInt8.ofNat rate ∧
      ((old &&& 0xF0) ||| UInt8.ofNat rate) &&& 0xF0 = old &&& 0xF0 := by
  have hlow : ∀ r < 16, UInt8.ofNat r &&& 0x0F = UInt8.ofNat r ∧ UInt8.ofNat r &&& 0xF0 = 0 := by decide
  have hor : ∀ mask : UInt8, ((old &&& 0xF0) ||| UInt8.ofNat rate) &&& mask
      = (old &&& (0xF0 &&& mask)) ||| (UInt8.ofNat rate &&& mask) := by
    intro mask
    rw [← UInt8.and_assoc]
    exact UInt8.toBitVec_inj.mp BitVec.and_or_distrib_right
  constructor
  · rw [hor, (hlow rate hrate).1]
    exact (congrArg (· ||| _) UInt8.and_zero).trans UInt8.zero_or
  · rw [hor, (hlow rate hrate).2, UInt8.and_self, UInt8.or_zero]

/-- The clock after an accepted `rtc_write` of `2 ^ e`. -/
def Rtc.programmed (e : ℕ) (r : Rtc) : Rtc :=
  { r with curFreq := 2 ^ e, interruptCount := 0, regA := (r.regA &&& 0xF0) ||| UInt8.ofNat (16 - e) }

section Write

variable {buf : Mem} {k : Kernel} {e : ℕ}

theorem rtcWrite_of_two_pow (he : 1 ≤ e ∧ e ≤ 10) (hfreq : freqOf buf = 2 ^ e) :
    rtcWrite buf k = some (0, { k with rtc := k.rtc.programmed e }) := by
  have hpow : halve 31 (toInt32 (wordOf buf)) = 1 := (halve_eq_one_iff (freqOf_lt buf)).mpr ⟨e, hfreq⟩
  have hpos : (0 : ℤ) < 2 ^ e := by positivity
  have hmax : (2 : ℤ) ^ e ≤ 2 ^ 10 := pow_le_pow_right₀ (by norm_num) he.2
  have hrate : ¬(16 - e < rtcRateLow ∨ rtcRateHigh < 16 - e) := by
    simp only [rtcRateLow, rtcRateHigh]
    omega
  rw [freqOf] at hfreq
  rw [rtcWrite]
  dsimp only
  rw [hpow, hfreq, if_neg (by decide), if_neg (by simp only [rtcPrgmMaxFreq]; omega), rateFrom_two_pow he.2,
    Option.map_some, if_neg hrate]
  rfl

/-- A frequency that cannot be programmed only prints a message; `1` gets as far as the test of the rate. -/
theorem rtcWrite_of_not_programmable (h : ¬Programmable (freqOf buf)) :
    ∃ text, rtcWrite buf k = some (-1, k.printf text) := by
  rw [rtcWrite]
  dsimp only
  rw [← freqOf]
  by_cases hpow : halve 31 (freqOf buf) = 1
  · obtain ⟨e, he⟩ := (halve_eq_one_iff (freqOf_lt buf)).mp hpow
    by_cases hrange : rtcPrgmMaxFreq < freqOf buf ∨ freqOf buf ≤ 0
    · exact ⟨_, by rw [if_neg (not_not.mpr hpow), if_pos hrange]⟩
    · have hone : freqOf buf = 1 := by
        simp only [rtcPrgmMaxFreq] at hrange
        by_contra hne
        exact h ⟨⟨e, he⟩, by omega, by omega⟩
      refine ⟨rateOutOfRange, ?_⟩
      rw [if_neg (not_not.mpr hpow), if_neg hrange, hone]
      rfl
  · exact ⟨_, by rw [if_pos hpow]⟩

end Write

/-- **`rtc_write` programs the right rate or does nothing**: both loops come to their end, the second one before it
shifts by 32. -/
theorem rtc_write_programs_rate (buf : Mem) (k : Kernel) :
    Halved (halve 31 (freqOf buf)) ∧
      ∃ r k', rtcWrite buf k = some (r, k') ∧ WritesRate (freqOf buf) k.rtc r k'.rtc := by
  refine ⟨halve_halved 31 (freqOf_lt buf), ?_⟩
  by_cases h : Programmable (freqOf buf)
  · obtain ⟨⟨e, he⟩, hlow, hhigh⟩ := id h
    have hbounds : 1 ≤ e ∧ e ≤ 10 := by
      rw [he] at hlow hhigh
      constructor
      · by_contra hzero
        obtain rfl : e = 0 := by omega
        exact absurd hlow (by decide)
      · exact (pow_le_pow_iff_right₀ (by norm_num : (1 : ℤ) < 2)).mp (hhigh.trans (by norm_num))
    refine ⟨0, _, rtcWrite_of_two_pow hbounds he, by simp [h], fun _ => ⟨16 - e, by omega, ?_, ?_, ?_, he.symm⟩,
      fun hne => absurd rfl hne⟩
    · obtain ⟨hone, hten⟩ := hbounds
      rw [he]
      interval_cases e <;> rfl
    · exact (regA_halves k.rtc.regA (by omega)).1
    · exact (regA_halves k.rtc.regA (by omega)).2
  · obtain ⟨text, htext⟩ := rtcWrite_of_not_programmable (k := k) h
    exact ⟨-1, _, htext, by simp [h], fun hzero => absurd hzero (by decide), fun _ => ⟨rfl, rfl⟩⟩

/-! ### Opening the clock -/

def rtcOpen (k : Kernel) : Option (ℤ × Kernel) := rtcWrite (wordBytes 2) k

/-- What a reader of the clock depends on: `rtc_cur_freq`, and the rate in register A. -/
def Rtc.frequency (r : Rtc) : ℤ × UInt8 := (r.curFreq, r.regA &&& 0x0F)

/-- The frequency that `rtc_open` programs. -/
def twoHertz : ℤ × UInt8 := (2, 15)

theorem Rtc.programmed_frequency {e : ℕ} (he : 1 ≤ e) (r : Rtc) :
    (r.programmed e).frequency = (2 ^ e, UInt8.ofNat (16 - e)) :=
  Prod.ext rfl (regA_halves r.regA (by omega)).1

theorem rtcOpen_twoHertz (k : Kernel) : ∃ k', rtcOpen k = some (0, k') ∧ k'.rtc.frequency = twoHertz :=
  ⟨_, rtcWrite_of_two_pow (e := 1) (by decide) (by decide), Rtc.programmed_frequency (by decide) k.rtc⟩

section Open

variable {E : Platform} {openFile : Dentry} {filename : Mem} {fd : ℤ} {k k' : Kernel}

/-- `sys_open` fills in a descriptor and calls nothing. -/
theorem sysOpen_keeps_rtc (h : sysOpen E openFile filename k = some (fd, k')) : k'.rtc = k.rtc := by
  rcases sysOpen_eq_some h with ⟨-, rfl⟩ | ⟨i, fileType, inodeNum, -, -, -, rfl⟩
  · rfl
  · cases boundTo fileType inodeNum with
    | none => rfl
    | some f => rfl

/-- What `sys_open` does to the rest does not depend on the clock. -/
theorem sysOpen_rtc_only (h : sysOpen E openFile filename k = some (fd, k')) (rtc : Rtc) :
    sysOpen E openFile filename { k with rtc := rtc } = some (fd, { k' with rtc := rtc }) := by
  rw [sysOpen] at h ⊢
  rw [show Kernel.cur { k with rtc := rtc } = k.cur from rfl]
  cases hslot : findSlot k.cur.fileArray (maxOpenFiles - 2) 2 with
  | none =>
    simp only [hslot] at h ⊢
    obtain ⟨rfl, rfl⟩ : (-1 : ℤ) = fd ∧ k = k' := by simpa using h
    rfl
  | some i =>
    simp only [hslot] at h ⊢
    obtain ⟨found, hfound, h⟩ := Option.map_eq_some_iff.mp h
    rw [hfound, Option.map_some]
    cases found with
    | none =>
      obtain ⟨rfl, rfl⟩ : (-1 : ℤ) = fd ∧ k = k' := by simpa using h
      rfl
    | some dentry =>
      obtain ⟨rfl, rfl⟩ := Prod.mk.injEq .. ▸ h
      dsimp only
      cases boundTo (openType filename dentry.fileType) dentry.inodeNum with
      | none => rfl
      | some f => rfl

end Open

/-- The states differ in the frequency of the clock and in nothing else. -/
def Kernel.SameButFrequency (k₁ k₂ : Kernel) : Prop :=
  ∃ freq regA, k₂ = { k₁ with rtc := { k₁.rtc with curFreq := freq, regA := regA } }

/-- **Opening the clock leaves it as it was.**  Two programs that differ in what was left in the clock both open it
or both do not; they find the same 2 Hz exactly if both clocks ran at 2 Hz before. -/
theorem sys_open_frequency_iff {E : Platform} {openFile : Dentry} {filename : Mem} {fd : ℤ} {k₁ k₂ k₁' : Kernel}
    (hsame : k₁.SameButFrequency k₂) (hopen : sysOpen E openFile filename k₁ = some (fd, k₁'))
    (hrtc : (k₁'.cur.fileArray fd.toNat).OpenOn .rtc) :
    ∃ k₂', sysOpen E openFile filename k₂ = some (fd, k₂') ∧ (k₂'.cur.fileArray fd.toNat).OpenOn .rtc ∧
      (k₁'.rtc.frequency = k₂'.rtc.frequency ∧ k₁'.rtc.frequency = twoHertz ↔
        k₁.rtc.frequency = twoHertz ∧ k₂.rtc.frequency = twoHertz) := by
  obtain ⟨freq, regA, rfl⟩ := hsame
  have hopen₂ := sysOpen_rtc_only hopen { k₁.rtc with curFreq := freq, regA := regA }
  refine ⟨_, hopen₂, hrtc, ?_⟩
  rw [sysOpen_keeps_rtc hopen, sysOpen_keeps_rtc hopen₂]
  constructor
  · rintro ⟨heq, htwo⟩
    exact ⟨htwo, heq ▸ htwo⟩
  · rintro ⟨htwo₁, htwo₂⟩
    exact ⟨htwo₁.trans htwo₂.symm, htwo₁⟩

def rtcName : Mem := literal (ascii "rtc".toList)

/-- The two programs, and the clock as a device file behind them. -/
def rtcPlatform : Platform where
  layout := twoProgramPlatform.layout
  image := ⟨placed 192 (ascii "rtc".toList) twoProgramImage.mem⟩

/-- A program opens the clock and programs a frequency. -/
def leavesFrequency (freq : ℕ) : List FileAction :=
  [.sysOpen ⟨emptyString, 0, 0⟩ rtcName, .sysWrite 2 (wordBytes freq) 4]

section Runs

variable {k : Kernel} {e i : ℕ}

/-- The name is that of the third entry, a device. -/
theorem sysOpen_rtc (hslot : FirstFree k.cur.fileArray i) :
    sysOpen rtcPlatform ⟨emptyString, 0, 0⟩ rtcName k = some ((i : ℤ), k.setFile i (Driver.rtc.slot 0)) := by
  have hlookup : rtcPlatform.image.lookup rtcName = some (some 2) := by decide +kernel
  have hbound : boundTo (openType rtcName (rtcPlatform.image.dentryType 2)) (rtcPlatform.image.dentryInode 2)
      = some (Driver.rtc.slot 0) := by decide +kernel
  rw [sysOpen_of_found hslot hlookup, hbound]
  rfl

theorem sysWrite_rtc (hfile : k.cur.fileArray 2 = Driver.rtc.slot 0) (he : 1 ≤ e ∧ e ≤ 10) :
    fileStep rtcPlatform (.sysWrite 2 (wordBytes (2 ^ e)) 4) k = some { k with rtc := k.rtc.programmed e } := by
  have hword : freqOf (wordBytes (2 ^ e)) = 2 ^ e := by
    obtain ⟨hone, hten⟩ := he
    interval_cases e <;> rfl
  have hwrite : sysWrite 2 (wordBytes (2 ^ e)) 4 k = some (0, { k with rtc := k.rtc.programmed e }) := by
    rw [sysWrite, show (2 : ℤ).toNat = 2 from rfl, hfile, if_pos ⟨by decide, Driver.slot_isOpen _ _⟩]
    exact rtcWrite_of_two_pow he hword
  rw [fileStep, hwrite]
  rfl

theorem setFile_self (k : Kernel) (fd : ℕ) (f : FileStruct) : (k.setFile fd f).cur.fileArray fd = f := by
  rw [Kernel.setFile_fileArray, Function.update_self]

theorem setFile_openOn (k : Kernel) (fd : ℕ) :
    ((k.setFile fd (Driver.rtc.slot 0)).cur.fileArray fd).OpenOn .rtc := by
  rw [setFile_self]
  decide

theorem leavesFrequency_runs (hslot : FirstFree k.cur.fileArray 2) (he : 1 ≤ e ∧ e ≤ 10) :
    runs (fileStep rtcPlatform) (leavesFrequency (2 ^ e)) k
      = some { k.setFile 2 (Driver.rtc.slot 0) with rtc := k.rtc.programmed e } := by
  rw [leavesFrequency, runs_cons_eq_some]
  refine ⟨_, by rw [fileStep, sysOpen_rtc hslot]; rfl, ?_⟩
  rw [runs_cons_eq_some]
  exact ⟨_, sysWrite_rtc (setFile_self k 2 _) he, rfl⟩

/-- Another program opens the clock, while the first one still has it open. -/
theorem sysOpen_rtc_again (hfree : (k.cur.fileArray 3).flags = flagClose)
    (hfile : k.cur.fileArray 2 = Driver.rtc.slot 0) :
    sysOpen rtcPlatform ⟨emptyString, 0, 0⟩ rtcName k = some (3, k.setFile 3 (Driver.rtc.slot 0)) := by
  have hslot : FirstFree k.cur.fileArray 3 := by
    refine ⟨by decide, hfree, fun j hj hlt => ?_⟩
    obtain rfl : j = 2 := by omega
    rw [hfile]
    decide
  exact sysOpen_rtc hslot

end Runs

/-- The first shell, with its descriptors from 2 on closed. -/
theorem rtcPlatform_boots : ∃ b, boot rtcPlatform default powerOnKernel = some b ∧
    FirstFree b.cur.fileArray 2 ∧ (b.cur.fileArray 3).flags = flagClose := by
  have heval : ((boot rtcPlatform default powerOnKernel).any fun b =>
      decide ((b.cur.fileArray 2).flags = flagClose ∧ (b.cur.fileArray 3).flags = flagClose)) = true := by
    decide +kernel
  simp only [Option.any_eq_true, decide_eq_true_eq] at heval
  obtain ⟨b, hboot, htwo, hthree⟩ := heval
  exact ⟨b, hboot, ⟨by decide, htwo, fun j hj hlt => by omega⟩, hthree⟩

/-- Two programs leave 2 Hz behind, the second after another frequency. -/
theorem sys_open_frequency_twoHertz : ∃ b k₁ k₂ k₁' k₂', boot rtcPlatform default powerOnKernel = some b ∧
    runs (fileStep rtcPlatform) (leavesFrequency 2) b = some k₁ ∧
    runs (fileStep rtcPlatform) (leavesFrequency 1024 ++ [.sysWrite 2 (wordBytes 2) 4]) b = some k₂ ∧
    sysOpen rtcPlatform ⟨emptyString, 0, 0⟩ rtcName k₁ = some (3, k₁') ∧
    sysOpen rtcPlatform ⟨emptyString, 0, 0⟩ rtcName k₂ = some (3, k₂') ∧
    k₁'.rtc.frequency = k₂'.rtc.frequency ∧ k₁'.rtc.frequency = twoHertz := by
  obtain ⟨b, hboot, hslot, hfree⟩ := rtcPlatform_boots
  have hrun₁ := leavesFrequency_runs hslot (e := 1) (by decide)
  have hrun₂ : runs (fileStep rtcPlatform) (leavesFrequency 1024) b = _ :=
    leavesFrequency_runs hslot (e := 10) (by decide)
  have hlast := sysWrite_rtc (k := { b.setFile 2 (Driver.rtc.slot 0) with rtc := b.rtc.programmed 10 }) (e := 1)
    (setFile_self b 2 _) (by decide)
  have hthree : ((b.setFile 2 (Driver.rtc.slot 0)).cur.fileArray 3).flags = flagClose := by
    rw [Kernel.setFile_fileArray, Function.update_of_ne (by decide)]
    exact hfree
  have hopen := sysOpen_rtc_again (k := { b.setFile 2 (Driver.rtc.slot 0) with rtc := b.rtc.programmed 1 }) hthree
    (setFile_self b 2 _)
  have hsame : Kernel.SameButFrequency { b.setFile 2 (Driver.rtc.slot 0) with rtc := b.rtc.programmed 1 }
      { b.setFile 2 (Driver.rtc.slot 0) with rtc := (b.rtc.programmed 10).programmed 1 } := ⟨_, _, rfl⟩
  obtain ⟨k₂', hopen₂, -, hiff⟩ := sys_open_frequency_iff hsame hopen (setFile_openOn _ 3)
  refine ⟨b, _, _, _, k₂', hboot, hrun₁, ?_, hopen, hopen₂, hiff.mpr ⟨?_, ?_⟩⟩
  · rw [runs_append, hrun₂]
    exact runs_cons_eq_some.mpr ⟨_, hlast, rfl⟩
  · exact Rtc.programmed_frequency (by decide) _
  · exact Rtc.programmed_frequency (by decide) _

/-- **The frequency of another program.**  The same program opens the clock in two states of one machine; it finds
1024 Hz in the one and 2 Hz in the other. -/
theorem sys_open_finds_other_frequency : ∃ b k₁ k₂ k₁' k₂', boot rtcPlatform default powerOnKernel = some b ∧
    runs (fileStep rtcPlatform) (leavesFrequency 1024) b = some k₁ ∧
    runs (fileStep rtcPlatform) (leavesFrequency 2) b = some k₂ ∧ k₁.SameButFrequency k₂ ∧
    sysOpen rtcPlatform ⟨emptyString, 0, 0⟩ rtcName k₁ = some (3, k₁') ∧
    (k₁'.cur.fileArray 3).OpenOn .rtc ∧
    sysOpen rtcPlatform ⟨emptyString, 0, 0⟩ rtcName k₂ = some (3, k₂') ∧
    (k₂'.cur.fileArray 3).OpenOn .rtc ∧
    k₁'.rtc.frequency = (1024, 6) ∧ k₂'.rtc.frequency = twoHertz := by
  obtain ⟨b, hboot, hslot, hfree⟩ := rtcPlatform_boots
  have hthree : ((b.setFile 2 (Driver.rtc.slot 0)).cur.fileArray 3).flags = flagClose := by
    rw [Kernel.setFile_fileArray, Function.update_of_ne (by decide)]
    exact hfree
  have hopen (e : ℕ) := sysOpen_rtc_again
    (k := { b.setFile 2 (Driver.rtc.slot 0) with rtc := b.rtc.programmed e }) hthree (setFile_self b 2 _)
  refine ⟨b, _, _, _, _, hboot, leavesFrequency_runs hslot (e := 10) (by decide),
    leavesFrequency_runs hslot (e := 1) (by decide), ⟨_, _, rfl⟩, hopen 10, setFile_openOn _ 3, hopen 1,
    setFile_openOn _ 3, ?_, ?_⟩
  · exact Rtc.programmed_frequency (by decide) _
  · exact Rtc.programmed_frequency (by decide) _

end ClosKernel
