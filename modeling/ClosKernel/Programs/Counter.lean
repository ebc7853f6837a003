import ClosKernel.ClockRate
import ClosKernel.Printf
import ClosKernel.Programs.Shell

/-!
# Counting and bouncing (`ece391counter.c`, `ece391pingpong.c`)

`counter` asks how far to count, and prints the numbers one on a line, each through the buffer that held the answer.
`pingpong` never ends: letter after letter moves from one wall to the other and back, one picture for each interrupt of
the clock.

* `ece391Itoa_eq` — the `itoa` of the user programs is the one of the kernel;
* `counter_counts` — **`counter` prints the numbers from 1 on**, as far as the answer says;
* `pingpong_bounces` — **`pingpong` prints the pictures** in their order, for every number of rounds.
-/

namespace ClosKernel

open StateProgram BoundedBuffer

/-! ### The programs -/

/-- `ece391_strrev`, which returns at once if there is nothing to exchange. -/
def ece391Strrev (s : CharArray) : Option CharArray :=
  (strlenIn 0 (s.size + 1) 0 s).bind fun len =>
    if (len : ℤ) - 1 ≤ 0 then some s else strrevFrom 0 (len + 1) 0 (len - 1) s

def ece391Itoa (value radix : ℕ) (s : CharArray) : Option CharArray :=
  if value = 0 then (s.store 0 0x30).bind (·.store 1 0)
  else (itoaFrom radix 33 value 0 s).bind fun (newbuf, s) => (s.store newbuf 0).bind ece391Strrev

def enterTestNumber : List UInt8 :=
  ascii "Enter the Test Number: (0): 100, (1): 10000, (2): 100000\n".toList
def cannotReadNumber : List UInt8 := ascii "Can't read the number from keyboard.\n".toList
def wrongChoice : List UInt8 := ascii "Wrong Choice!\n".toList

/-- The `switch` of `counter`. -/
def countMax (c : UInt8) : ℕ := if c = 0x30 then 100 else if c = 0x31 then 10000 else if c = 0x32 then 100000 else 0

/-- The loop of `counter`; `buf` has 1024 bytes. -/
def countLoop (max : ℕ) (buf : Mem) : Prog Process Mem :=
  forEach (fun i buf => do
    let s ← (StateT.lift (ece391Itoa (i + 1) 10 ⟨1024, buf⟩) : Prog Process CharArray)
    ece391Fdputs 1 s.cell
    ece391Fdputs 1 (literal [lineFeed])
    pure s.cell) max 0 buf

/-- `main` of `ece391counter.c`; `junk` is what its buffer holds at the start. -/
def counter (E : Platform) (junk : Mem) : Prog Process ℤ := do
  ece391Fdputs 1 (literal enterTestNumber)
  let (cnt, buf) ← ece391Read E 0 junk 1023
  if cnt = -1 then do
    ece391Fdputs 1 (literal cannotReadNumber)
    pure 3
  else do
    let buf : Mem := Function.update buf cnt.toNat 0
    let len ← (StateT.lift (ece391Strlen buf) : Prog Process ℕ)
    if 2 < len ∨ (len = 2 ∧ (buf 0 < 0x30 ∨ 0x32 < buf 0)) then do
      ece391Fdputs 1 (literal wrongChoice)
      pure 0
    else do
      let _ ← countLoop (countMax (buf 0)) buf
      pure 0

/-- The buffer of `pingpong` before its loop, of 81 bytes. -/
def pingpongWalls (junk : Mem) : Mem :=
  let buf : Mem := fun i => if i < 81 then 0x20 else junk i
  let buf : Mem := Function.update buf 80 0
  let buf : Mem := Function.update buf 79 lineFeed
  let buf : Mem := Function.update buf 78 0x7C
  Function.update buf 1 0x7C

/-- The loop that clears the inner portion. -/
def clearInner (buf : Mem) : Mem := fun i => if 2 ≤ i ∧ i < 78 then 0x20 else buf i

/-- One picture: the letter at `j`. -/
def drawAt (E : Platform) (rtcFd : ℤ) (curchar : UInt8) (j : ℕ) (buf : Mem) : Prog Process Mem := do
  let buf : Mem := Function.update (clearInner buf) j curchar
  ece391Fdputs 1 buf
  let _ ← ece391Read E rtcFd (literal []) 4
  pure buf

/-- One round of `while(1)`: the letter moves out, and bounces back. -/
def pingpongRound (E : Platform) (rtcFd : ℤ) : UInt8 × Mem → Prog Process ((UInt8 × Mem) ⊕ ℤ)
  | (curchar, buf) => do
    let buf ← forEach (fun j buf => drawAt E rtcFd curchar j buf) 76 2 buf
    let buf ← forEach (fun i buf => drawAt E rtcFd curchar (77 - i) buf) 76 0 buf
    pure (.inl (if curchar = 0x5A then 0x41 else curchar + 1, buf))

/-- `main` of `ece391pingpong.c`, with the first `n` rounds of its loop. -/
def pingpong (E : Platform) (junk : Mem) (n : ℕ) : Prog Process ((UInt8 × Mem) ⊕ ℤ) := do
  let rtcFd ← ece391Open E rtcName
  let _ ← ece391Write rtcFd (literal [32, 0, 0, 0]) 4
  rounds (pingpongRound E rtcFd) n (0x41, pingpongWalls junk)

/-! ### `itoa` of the user programs -/

theorem ece391Strrev_eq (s : CharArray) : ece391Strrev s = strrev 0 s := by
  rw [ece391Strrev, strrev]
  refine congrArg _ (funext fun len => ?_)
  split
  · rename_i hlen
    rw [strrevFrom, if_neg (by omega)]
  · rfl

theorem ece391Itoa_eq (value radix : ℕ) (s : CharArray) : ece391Itoa value radix s = itoa value 0 radix s := by
  rw [ece391Itoa, itoa]
  split
  · rfl
  · refine congrArg _ (funext fun r => ?_)
    dsimp only
    rw [show ece391Strrev = strrev 0 from funext ece391Strrev_eq]

theorem spells_of_holds {s : CharArray} {text : List UInt8} (h : s.Holds 0 (text ++ [0])) (hnul : 0 ∉ text) :
    Spells s.cell text := by
  refine ⟨hnul, fun i hi => ?_⟩
  have hcell := h.cells i (by rw [List.length_append, List.length_singleton]; omega)
  rw [Nat.zero_add] at hcell
  rcases Nat.lt_or_eq_of_le hi with hlt | rfl
  · rw [List.getElem?_append_left hlt] at hcell
    rw [List.getD_eq_getElem?_getD, hcell, Option.getD_some]
  · rw [List.getElem?_concat_length, Option.some_inj] at hcell
    rw [← hcell, List.getD_eq_getElem?_getD, List.getElem?_eq_none (Nat.le_refl _), Option.getD_none]

/-- The numeral is a string at the start of the buffer. -/
theorem ece391Itoa_spells {value : ℕ} (hvalue : value < 2 ^ 32) (buf : Mem) :
    ∃ s : CharArray, ece391Itoa value 10 ⟨1024, buf⟩ = some s ∧ Spells s.cell (numeralText 10 value) := by
  have hlen := numeral_dec_length_le hvalue
  obtain ⟨s, hitoa, -, hs⟩ := itoa_holds (show 2 ≤ 10 by decide) (by decide) hvalue
    (holds_nil_junk (Nat.zero_le 1024) buf) (by rw [List.length_nil]; show _ < 1024; omega)
  exact ⟨s, (ece391Itoa_eq value 10 _).trans hitoa, spells_of_holds hs
    (nul_notMem_numeralText (by decide) (by decide) value)⟩

/-! ### `counter` -/

section Counter

variable {E : Platform} {s : Process}

/-- The numbers from 1 to `n`, one on a line. -/
def numberLines (n : ℕ) : List UInt8 := (List.range n).flatMap fun i => numeralText 10 (i + 1) ++ [lineFeed]

theorem numeralText_length_lt {value : ℕ} (hvalue : value < 2 ^ 32) : (numeralText 10 value).length < 2 ^ 31 := by
  have hlen := numeral_dec_length_le hvalue
  rw [numeralText, List.length_map]
  omega

theorem ensures_countLoop (hout : (s.files 1).OpenOn .term) {max : ℕ} (hmax : max < 2 ^ 32) (buf : Mem) :
    Ensures (countLoop max buf) s fun _ s' => s.Did (numberLines max) s.files s' := by
  refine Ensures.forEach (I := fun i _ s' => s.Did (numberLines i) s.files s') ?_ (Nat.zero_add max) (.refl s)
  intro i buf s' hi hdid
  have hvalue : i + 1 < 2 ^ 32 := by omega
  have hout' : (s'.files 1).OpenOn .term := by
    rw [hdid.files]
    exact hout
  obtain ⟨a, hitoa, hspells⟩ := ece391Itoa_spells hvalue buf
  refine (Ensures.lift hitoa).bind ?_
  rintro _ _ ⟨rfl, rfl⟩
  refine (ensures_fdputs hout' hspells (numeralText_length_lt hvalue)).bind fun _ s₁ h₁ => ?_
  refine (ensures_fdputs (h₁.files.symm ▸ hout') (.literal (by decide)) (by decide)).bind fun _ s₂ h₂ => .pure ?_
  have hall := (hdid.trans h₁).trans h₂
  rw [h₁.files, hdid.files, List.append_assoc] at hall
  rw [numberLines, List.range_succ, List.flatMap_append, List.flatMap_singleton]
  exact hall

/-- What `counter` answers to a line. -/
def counterAnswer (line : List UInt8) : List UInt8 :=
  if 1 < line.length ∨ (line.length = 1 ∧ (line.getD 0 0 < 0x30 ∨ 0x32 < line.getD 0 0)) then wrongChoice
  else numberLines (countMax (line.getD 0 0))

/-- A store of the terminator where it is. -/
theorem Spells.terminate {m : Mem} {text : List UInt8} (h : Spells m text) :
    Spells (Function.update m text.length 0) text := by
  have hend : m text.length = 0 := by
    rw [h.bytes _ (Nat.le_refl _), List.getD_eq_getElem?_getD, List.getElem?_eq_none (Nat.le_refl _), Option.getD_none]
  rw [← hend, Function.update_eq_self]
  exact h

/-- The program looks at the line with its line break. -/
theorem counterAnswer_eq (line : List UInt8) : counterAnswer line =
    if 2 < (line ++ [lineFeed]).length ∨ ((line ++ [lineFeed]).length = 2 ∧
      ((line ++ [lineFeed]).getD 0 0 < 0x30 ∨ 0x32 < (line ++ [lineFeed]).getD 0 0)) then wrongChoice
    else numberLines (countMax ((line ++ [lineFeed]).getD 0 0)) := by
  cases line with
  | nil => rfl
  | cons c line => simp [counterAnswer]

theorem countMax_lt (c : UInt8) : countMax c < 2 ^ 32 := by
  rw [countMax]
  split_ifs <;> decide

/-- **`counter` prints the numbers from 1 on**, one on a line, up to 100, 10000 or 100000 as the line that it reads
says, and nothing else for an empty line. -/
theorem counter_counts (hin : (s.files 0).OpenOn .term) (hout : (s.files 1).OpenOn .term) {lines : Set (List UInt8)}
    (hhears : s.Hears lines) (junk : Mem) :
    Ensures (counter E junk) s fun r s' => r = 0 ∧ ∃ line ∈ lines,
      s.Went (enterTestNumber.map .printed ++ [.typed (line ++ [lineFeed])] ++ (counterAnswer line).map .printed)
        s.files s' := by
  rw [counter]
  refine (ensures_fdputs hout (.literal (by decide)) (by decide)).bind fun _ s₁ hask => ?_
  have hfiles₁ := hask.files
  refine (ensures_read_line (hfiles₁ ▸ hin) (hhears.of_went hask) junk (by decide)).bind ?_
  rintro ⟨cnt, buf⟩ s₂ ⟨line, hmem, -, hshort, hcnt, hspells, htyped⟩
  dsimp only at hcnt hspells ⊢
  have hlen : (line ++ [lineFeed]).length = line.length + 1 := List.length_append
  have hwent : s.Went (enterTestNumber.map .printed ++ [.typed (line ++ [lineFeed])]) s.files s₂ := by
    rw [← hfiles₁]
    exact Process.Went.trans hask htyped
  have hout₂ : (s₂.files 1).OpenOn .term := by
    rw [hwent.files]
    exact hout
  have hstring := hspells.terminate
  rw [if_neg (by omega), hcnt, Int.toNat_natCast]
  refine (Ensures.lift (hstring.strlen (by omega))).bind ?_
  rintro _ _ ⟨rfl, rfl⟩
  rw [hstring.bytes 0 (Nat.zero_le _)]
  have hanswer := counterAnswer_eq line
  split
  · rename_i hwrong
    rw [if_pos hwrong] at hanswer
    refine (ensures_fdputs hout₂ (.literal (by decide)) (by decide)).bind fun _ s₃ h₃ => .pure ⟨rfl, line, hmem, ?_⟩
    rw [hanswer]
    exact hwent.files ▸ hwent.trans h₃
  · rename_i hright
    rw [if_neg hright] at hanswer
    refine (ensures_countLoop hout₂ (countMax_lt _) _).bind fun _ s₃ h₃ => .pure ⟨rfl, line, hmem, ?_⟩
    rw [hanswer]
    exact hwent.files ▸ hwent.trans h₃

end Counter

/-- The answer `0`: the numbers up to 100. -/
theorem counter_counts_hundred :
    Ensures (counter framePlatform emptyString) (startedTyping [0x30]) fun r s' =>
      r = 0 ∧ s'.printed = enterTestNumber ++ numberLines 100 := by
  have hcounter := counter_counts (E := framePlatform) (s := startedTyping [0x30]) (by decide) (by decide)
    (startedTyping_hears (by decide) (by decide) (by decide)) emptyString
  refine hcounter.mono fun r s' hr => ⟨hr.1, ?_⟩
  obtain ⟨-, line, rfl, hwent⟩ := hr
  have hanswer : counterAnswer [0x30] = numberLines 100 := counterAnswer_eq [0x30]
  rw [hwent.printed, hanswer, List.filterMap_append, List.filterMap_append, filterMap_char_printed,
    filterMap_char_printed]
  rfl

/-! ### `pingpong` -/

section Pingpong

variable {E : Platform} {s : Process}

/-- The picture with the letter `c` at `j`. -/
def pingpongLine (c : UInt8) (j : ℕ) : List UInt8 := (List.range 80).map fun i =>
  if i = j then c else if i = 1 ∨ i = 78 then 0x7C else if i = 79 then lineFeed else 0x20

/-- What one letter prints: out, and back. -/
def pingpongLetter (c : UInt8) : List UInt8 :=
  ((List.range 76).flatMap fun i => pingpongLine c (2 + i)) ++
    (List.range 76).flatMap fun i => pingpongLine c (77 - i)

/-- The letter of round `n`. -/
def letterAt (n : ℕ) : UInt8 := UInt8.ofNat (0x41 + n % 26)

/-- What is around the inner portion. -/
structure Walls (buf : Mem) : Prop where
  outside : buf 0 = 0x20
  left : buf 1 = 0x7C
  right : buf 78 = 0x7C
  line : buf 79 = lineFeed
  ends : buf 80 = 0

theorem walls_pingpongWalls (junk : Mem) : Walls (pingpongWalls junk) := ⟨rfl, rfl, rfl, rfl, rfl⟩

theorem pingpongLine_getD (c : UInt8) (j : ℕ) {i : ℕ} (hi : i < 80) : (pingpongLine c j).getD i 0 =
    if i = j then c else if i = 1 ∨ i = 78 then 0x7C else if i = 79 then lineFeed else 0x20 := by
  rw [pingpongLine, List.getD_eq_getElem?_getD, List.getElem?_map, List.getElem?_range hi]
  rfl

theorem nul_notMem_pingpongLine {c : UInt8} (hc : c ≠ 0) (j : ℕ) : 0 ∉ pingpongLine c j := by
  intro hmem
  obtain ⟨i, -, hzero⟩ := List.mem_map.mp hmem
  split_ifs at hzero
  · exact hc hzero
  all_goals exact absurd hzero (by decide)

/-- The letter is drawn between the walls. -/
theorem Walls.draw {buf : Mem} (h : Walls buf) {c : UInt8} (hc : c ≠ 0) {j : ℕ} (h2 : 2 ≤ j) (h78 : j < 78) :
    Walls (Function.update (clearInner buf) j c) ∧
      Spells (Function.update (clearInner buf) j c) (pingpongLine c j) := by
  have houter : ∀ i, i < 2 ∨ 78 ≤ i → Function.update (clearInner buf) j c i = buf i := by
    intro i hi
    rw [Function.update_of_ne (by omega), clearInner, if_neg (by omega)]
  have hinner : ∀ i, 2 ≤ i → i < 78 → i ≠ j → Function.update (clearInner buf) j c i = 0x20 := by
    intro i hi hi' hij
    rw [Function.update_of_ne hij, clearInner, if_pos ⟨hi, hi'⟩]
  have hwalls : Walls (Function.update (clearInner buf) j c) :=
    ⟨(houter 0 (by omega)).trans h.outside, (houter 1 (by omega)).trans h.left, (houter 78 (by omega)).trans h.right,
      (houter 79 (by omega)).trans h.line, (houter 80 (by omega)).trans h.ends⟩
  refine ⟨hwalls, nul_notMem_pingpongLine hc j, fun i hi => ?_⟩
  have hlen : (pingpongLine c j).length = 80 := by rw [pingpongLine, List.length_map, List.length_range]
  rw [hlen] at hi
  rcases Nat.lt_or_eq_of_le hi with hlt | rfl
  · rw [pingpongLine_getD c j hlt]
    by_cases hij : i = j
    · rw [if_pos hij, hij, Function.update_self]
    rw [if_neg hij]
    by_cases hin : 2 ≤ i ∧ i < 78
    · rw [hinner i hin.1 hin.2 hij, if_neg (by omega), if_neg (by omega)]
    · obtain rfl | rfl | rfl | rfl : i = 0 ∨ i = 1 ∨ i = 78 ∨ i = 79 := by omega
      · exact hwalls.outside
      · exact hwalls.left
      · exact hwalls.right
      · exact hwalls.line
  · rw [hwalls.ends, List.getD_eq_getElem?_getD, List.getElem?_eq_none (Nat.le_of_eq hlen), Option.getD_none]

/-- A call with the descriptor of the clock that sets one of its rates. -/
theorem ensures_write_rtc {i : ℕ} (hslot : (s.files i).OpenOn .rtc) (hi : 2 ≤ i ∧ i < 8) {buf : Mem} {e : ℕ}
    (he : 1 ≤ e ∧ e ≤ 10) (hfreq : freqOf buf = 2 ^ e) (n : ℤ) :
    Ensures (ece391Write i buf n) s fun r s' => r = 0 ∧ s.Did [] s.files s' := by
  have hopen : (1 ≤ (i : ℤ) ∧ (i : ℤ) < 8) ∧ (s.resumed.cur.fileArray (i : ℤ).toNat).IsOpen := by
    rw [Int.toNat_natCast, s.resumed_files]
    exact ⟨by omega, hslot.isOpen⟩
  have hfops : (s.resumed.cur.fileArray (i : ℤ).toNat).fopsTable = some .rtc := by
    rw [Int.toNat_natCast, s.resumed_files]
    exact hslot.1
  have hsys : sysWrite i buf n s.resumed
      = some (0, { s.resumed with rtc := s.resumed.rtc.programmed e }) := by
    rw [sysWrite, if_pos hopen, hfops, Option.bind_some]
    exact rtcWrite_of_two_pow he hfreq
  have houtput : terminalOutput i buf n s.resumed = [] := by
    refine if_neg fun h => ?_
    rw [hfops] at h
    exact absurd h.2.2 (by decide)
  refine .of_run 0 (s.returned { s.resumed with rtc := s.resumed.rtc.programmed e } []) ?_
    ⟨rfl, Process.did_returned ?_ _⟩
  · show (sysWrite i buf n s.resumed).map _ = _
    rw [hsys, houtput]
    rfl
  · exact s.resumed_files

variable {i : ℕ}

/-- **One picture.** -/
theorem ensures_drawAt (hout : (s.files 1).OpenOn .term) (hrtc : (s.files i).OpenOn .rtc) (hi : 2 ≤ i ∧ i < 8)
    (hticks : s.Ticks) {buf : Mem} (hwalls : Walls buf) {c : UInt8} (hc : c ≠ 0) {j : ℕ} (h2 : 2 ≤ j) (h78 : j < 78) :
    Ensures (drawAt E i c j buf) s fun buf' s' => Walls buf' ∧ s.Did (pingpongLine c j) s.files s' := by
  obtain ⟨hwalls', hspells⟩ := hwalls.draw hc h2 h78
  have hlen : (pingpongLine c j).length < 2 ^ 31 := by
    rw [pingpongLine, List.length_map, List.length_range]
    decide
  rw [drawAt]
  refine (ensures_fdputs hout hspells hlen).bind fun _ s₁ h₁ => ?_
  refine (ensures_read_rtc (h₁.files.symm ▸ hrtc) hi (hticks.of_did h₁) _ 4).bind ?_
  rintro _ s₂ ⟨-, h₂⟩
  refine .pure ⟨hwalls', ?_⟩
  have hall := h₁.trans h₂
  rwa [List.append_nil, h₁.files] at hall

/-- The letter goes one way, through the positions `p`. -/
theorem ensures_sweep (hout : (s.files 1).OpenOn .term) (hrtc : (s.files i).OpenOn .rtc) (hi : 2 ≤ i ∧ i < 8)
    (hticks : s.Ticks) {buf : Mem} (hwalls : Walls buf) {c : UInt8} (hc : c ≠ 0) {p : ℕ → ℕ} {start : ℕ}
    (hp : ∀ j, start ≤ j → j < start + 76 → 2 ≤ p j ∧ p j < 78) :
    Ensures (forEach (fun j buf => drawAt E i c (p j) buf) 76 start buf) s fun buf' s' => Walls buf' ∧
      s.Did ((List.range 76).flatMap fun k => pingpongLine c (p (start + k))) s.files s' := by
  refine Ensures.mono (Ensures.forEach (I := fun j buf' s' => start ≤ j ∧ Walls buf' ∧
    s.Did ((List.range (j - start)).flatMap fun k => pingpongLine c (p (start + k))) s.files s') ?_ rfl
    ⟨Nat.le_refl start, hwalls, ?_⟩) fun buf' s' h => ?_
  · rintro j buf' s' hj ⟨hstart, hwalls', hdid⟩
    obtain ⟨h2, h78⟩ := hp j hstart hj
    have hfiles := hdid.files
    refine (ensures_drawAt (hfiles.symm ▸ hout) (hfiles.symm ▸ hrtc) hi (hticks.of_did hdid) hwalls' hc h2 h78).mono
      fun buf'' s'' h => ⟨by omega, h.1, ?_⟩
    have hall := hdid.trans h.2
    rw [show j + 1 - start = (j - start) + 1 by omega, List.range_succ, List.flatMap_append, List.flatMap_singleton,
      show start + (j - start) = j by omega]
    rwa [hfiles] at hall
  · rw [Nat.sub_self]
    exact .refl s
  · rw [Nat.add_sub_cancel_left] at h
    exact h.2

theorem letterAt_ne_zero (n : ℕ) : letterAt n ≠ 0 := by
  have hall : ∀ m : Fin 26, UInt8.ofNat (0x41 + m) ≠ 0 := by decide
  exact hall ⟨n % 26, Nat.mod_lt n (by decide)⟩

/-- Behind the last letter comes the first one. -/
theorem letterAt_succ (n : ℕ) : (if letterAt n = 0x5A then 0x41 else letterAt n + 1) = letterAt (n + 1) := by
  have hall : ∀ m : Fin 26, (if UInt8.ofNat (0x41 + m) = 0x5A then 0x41 else UInt8.ofNat (0x41 + m) + 1)
      = UInt8.ofNat (0x41 + (m + 1) % 26) := by decide
  have hn := hall ⟨n % 26, Nat.mod_lt n (by decide)⟩
  rw [letterAt, letterAt, hn, Nat.mod_add_mod]

/-- **One round**: a letter goes out and comes back. -/
theorem ensures_pingpongRound (hout : (s.files 1).OpenOn .term) (hrtc : (s.files i).OpenOn .rtc) (hi : 2 ≤ i ∧ i < 8)
    (hticks : s.Ticks) {buf : Mem} (hwalls : Walls buf) (n : ℕ) :
    Ensures (pingpongRound E i (letterAt n, buf)) s fun r s' => ∃ buf', r = .inl (letterAt (n + 1), buf') ∧
      Walls buf' ∧ s.Did (pingpongLetter (letterAt n)) s.files s' := by
  rw [pingpongRound]
  refine (ensures_sweep (p := fun j => j) hout hrtc hi hticks hwalls (letterAt_ne_zero n) fun j h2 h78 =>
    ⟨h2, h78⟩).bind ?_
  rintro buf₁ s₁ ⟨hwalls₁, h₁⟩
  have hfiles := h₁.files
  refine (ensures_sweep (p := fun j => 77 - j) (hfiles.symm ▸ hout) (hfiles.symm ▸ hrtc) hi (hticks.of_did h₁) hwalls₁
    (letterAt_ne_zero n) fun j _ h76 => ⟨by omega, by omega⟩).bind ?_
  rintro buf₂ s₂ ⟨hwalls₂, h₂⟩
  refine .pure ⟨buf₂, by rw [letterAt_succ], hwalls₂, ?_⟩
  have hall := h₁.trans h₂
  simp only [hfiles, Nat.zero_add] at hall
  exact hall

/-- Before round `n` of `pingpong`. -/
structure PingpongState (s : Process) (files : ℕ → FileStruct) (n : ℕ) (b : UInt8 × Mem) (s' : Process) : Prop where
  letter : b.1 = letterAt n
  walls : Walls b.2
  did : s.Did ((List.range n).flatMap fun m => pingpongLetter (letterAt m)) files s'

theorem ensures_pingpongRounds {files : ℕ → FileStruct} (hout : (files 1).OpenOn .term) (hrtc : (files i).OpenOn .rtc)
    (hi : 2 ≤ i ∧ i < 8) (hticks : s.Ticks) {s' : Process} {b : UInt8 × Mem} (hstart : PingpongState s files 0 b s')
    (n : ℕ) :
    Ensures (rounds (pingpongRound E i) n b) s' fun r s'' => ∃ b', r = .inl b' ∧ PingpongState s files n b' s'' := by
  have hrounds : Ensures (rounds (pingpongRound E i) n b) s'
      (Round (PingpongState s files (0 + n)) fun _ _ => False) := by
    refine Ensures.rounds (I := PingpongState s files) ?_ hstart n
    rintro m ⟨_, buf⟩ s'' ⟨rfl, hwalls, hdid⟩
    have hfiles := hdid.files
    refine (ensures_pingpongRound (hfiles ▸ hout) (hfiles ▸ hrtc) hi (hticks.of_did hdid) hwalls m).mono
      fun r s₁ hr => ?_
    obtain ⟨buf', rfl, hwalls', hdid'⟩ := hr
    have hall := hdid.trans hdid'
    refine ⟨rfl, hwalls', ?_⟩
    rw [List.range_succ, List.flatMap_append, List.flatMap_singleton]
    rwa [hfiles] at hall
  rw [Nat.zero_add] at hrounds
  refine hrounds.mono fun r s'' hr => ?_
  cases r with
  | inl b' => exact ⟨b', rfl, hr⟩
  | inr a => exact hr.elim

/-- **`pingpong` prints the pictures.**  With the clock in the directory and ticking, the first `n` rounds print what
the first `n` letters of the alphabet, which starts again behind its end, print on their way out and back. -/
theorem pingpong_bounces {e : ℕ} (hslot : FirstFree s.files i) (he : E.image.lookup rtcName = some (some e))
    (htype : E.image.dentryType e = typeRtc) (hout : (s.files 1).OpenOn .term) (hticks : s.Ticks) (junk : Mem) (n : ℕ) :
    Ensures (pingpong E junk n) s fun r s' => (∃ buf, r = .inl (letterAt n, buf)) ∧
      s.Did ((List.range n).flatMap fun m => pingpongLetter (letterAt m))
        (Function.update s.files i (Driver.rtc.slot (E.image.dentryInode e))) s' := by
  have hi := hslot.bounds
  have hopenType : openType rtcName (E.image.dentryType e) = Driver.rtc.type := by
    rw [rtcName, openType_eq (.literal (by decide)), if_neg (by decide), htype]
    rfl
  rw [pingpong]
  refine (ensures_open hslot he hopenType).bind ?_
  rintro _ s₁ ⟨rfl, hopened⟩
  have hfiles₁ := hopened.files
  have hrtc : (s₁.files i).OpenOn .rtc := by
    rw [hfiles₁, Function.update_self]
    exact ⟨rfl, rfl⟩
  refine (ensures_write_rtc hrtc hi (e := 5) (by decide) (by decide) 4).bind ?_
  rintro _ s₂ ⟨-, hwritten⟩
  have hstart := hopened.trans hwritten
  rw [hfiles₁, List.append_nil] at hstart
  refine (ensures_pingpongRounds ?_ ?_ hi hticks ⟨rfl, walls_pingpongWalls junk, hstart⟩ n).mono fun r s' hr => ?_
  · rw [Function.update_of_ne (by omega)]
    exact hout
  · rw [Function.update_self]
    exact ⟨rfl, rfl⟩
  · obtain ⟨⟨c, buf⟩, rfl, rfl, -, hdid⟩ := hr
    exact ⟨⟨buf, rfl⟩, hdid⟩

end Pingpong

/-- Behind the whole alphabet and an `A` comes `B`. -/
theorem pingpong_bounces_again : Ensures (pingpong framePlatform emptyString 27) (startedWith []) fun r s' =>
    (∃ buf, r = .inl (0x42, buf)) ∧ s'.printed = (List.range 27).flatMap fun m => pingpongLetter (letterAt m) := by
  have hpingpong := pingpong_bounces (E := framePlatform) (s := startedWith []) (e := 2) (i := 2)
    ⟨by decide, by decide, fun j h1 h2 => by omega⟩ (by decide +kernel) (by decide) (by decide) (fun _ _ => rfl)
    emptyString 27
  refine hpingpong.mono fun r s' hr => ⟨hr.1, ?_⟩
  rw [hr.2.printed]
  rfl

end ClosKernel
