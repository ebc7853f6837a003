import Mathlib.Logic.Function.Basic
import Mathlib.Data.Nat.Notation
import Mathlib.Data.Int.Notation
import Mathlib.Tactic.Ring

/-!
# Byte memories and the string routines of `lib.c`

A pointer is modelled by the bytes found from it on (`Mem`), so that a routine may look at any index and
"which bytes did it look at" stays a meaningful question.  Strings that are only ever read up to their
terminator, such as command lines, are lists with an implicit NUL after the last byte.

* `strncmp_eq_zero_iff` — a zero result means agreement up to the first NUL or up to `n` bytes, whichever comes first,
  and `strncmp_eq_zero_iff_cString` says the same of the two strings cut at `n` bytes;
* `strcpy_apply`, `strncpy_apply` — what the copies leave at an index;
* `Spells` — the string at an address, and `Spells.cStringFrom` — the beginning of it that a bounded routine sees.
-/

namespace ClosKernel

/-- The bytes found from a base address on. -/
abbrev Mem := ℕ → UInt8

/-- The empty string literal. -/
def emptyString : Mem := fun _ => 0

/-- A string literal, as its bytes followed by NULs. -/
def literal (bytes : List UInt8) : Mem := fun i => bytes.getD i 0

/-- The bytes of an ASCII text. -/
def ascii (text : List Char) : List UInt8 := text.map fun c => UInt8.ofNat c.toNat

/-- A `char` converted to `int`. -/
def charToInt (b : UInt8) : ℤ := b.toInt8.toInt

/-- An unsigned 32-bit value converted to `int32_t`. -/
def toInt32 (n : ℕ) : ℤ := if n < 2 ^ 31 then n else n - 2 ^ 32

/-- The loop of `strncmp` at index `i`, with `n` iterations left. -/
def strncmpFrom (s1 s2 : Mem) : ℕ → ℕ → ℤ
  | _, 0 => 0
  | i, n + 1 =>
    if s1 i ≠ s2 i ∨ s1 i = 0 then charToInt (s1 i) - charToInt (s2 i)
    else strncmpFrom s1 s2 (i + 1) n

def strncmp (s1 s2 : Mem) (n : ℕ) : ℤ := strncmpFrom s1 s2 0 n

/-- The loop of `strcpy` at index `i`.  The bound is the size of the address space. -/
def strcpyFrom (src : Mem) : ℕ → ℕ → Mem → Mem
  | 0, _, dest => dest
  | n + 1, i, dest =>
    if src i = 0 then Function.update dest i 0
    else strcpyFrom src n (i + 1) (Function.update dest i (src i))

def strcpy (dest src : Mem) : Mem := strcpyFrom src (2 ^ 32) 0 dest

/-- The two loops of `strncpy`. -/
def strncpyFrom (src : Mem) (n : ℕ) : ℕ → ℕ → Mem → Mem
  | 0, _, dest => dest
  | k + 1, i, dest =>
    if src i ≠ 0 then strncpyFrom src n k (i + 1) (Function.update dest i (src i))
    else fun j => if i ≤ j ∧ j < n then 0 else dest j

def strncpy (dest src : Mem) (n : ℕ) : Mem := strncpyFrom src n n 0 dest

/-- The loop of `strlen`; `none` if `n` bytes hold no terminator. -/
def strlenFrom (s : Mem) : ℕ → ℕ → Option ℕ
  | 0, _ => none
  | n + 1, len => if s len ≠ 0 then strlenFrom s n (len + 1) else some len

/-- `strlen`, which never comes back from an address space without a NUL. -/
def strlen (s : Mem) : Option ℕ := strlenFrom s (2 ^ 32) 0

/-- The bytes from index `i` up to a NUL, `n` of them at most. -/
def cStringFrom (s : Mem) : ℕ → ℕ → List UInt8
  | 0, _ => []
  | n + 1, i => if s i = 0 then [] else s i :: cStringFrom s n (i + 1)

/-- The bytes that `%s` prints for the string at `s`. -/
def cString (s : Mem) : List UInt8 := cStringFrom s (2 ^ 32) 0

/-! ### What a comparison says -/

theorem charToInt_sub_eq_zero_iff (a b : UInt8) : charToInt a - charToInt b = 0 ↔ a = b := by
  unfold charToInt
  rw [Int.sub_eq_zero, Int8.toInt_inj]
  exact ⟨fun h => by simpa using congrArg Int8.toUInt8 h, fun h => by rw [h]⟩

theorem strncmpFrom_eq_zero_iff (s1 s2 : Mem) (i n : ℕ) :
    strncmpFrom s1 s2 i n = 0 ↔
      ∀ k, i ≤ k → k < i + n → (∀ j, i ≤ j → j < k → s1 j ≠ 0) → s1 k = s2 k := by
  induction n generalizing i with
  | zero =>
    refine ⟨fun _ k h1 h2 => by omega, fun _ => rfl⟩
  | succ n ih =>
    rw [strncmpFrom]
    split
    · rename_i hstop
      rw [charToInt_sub_eq_zero_iff]
      constructor
      · intro heq k hk _ hpre
        rcases hstop with hne | hzero
        · exact absurd heq hne
        · -- the strings end at `i`, so only `k = i` is compared
          have hki : k = i := by
            by_contra hki
            exact hpre i (Nat.le_refl i) (by omega) hzero
          rw [hki, heq]
      · intro hall
        exact hall i (Nat.le_refl i) (by omega) (fun j h1 h2 => by omega)
    · rename_i hgo
      have heq : s1 i = s2 i := not_not.mp (not_or.mp hgo).1
      have hnz : s1 i ≠ 0 := (not_or.mp hgo).2
      rw [ih]
      constructor
      · intro hall k hk hkn hpre
        by_cases hki : k = i
        · rw [hki, heq]
        · exact hall k (by omega) (by omega) fun j h1 h2 => hpre j (by omega) h2
      · intro hall k hk hkn hpre
        refine hall k (by omega) (by omega) fun j h1 h2 => ?_
        by_cases hji : j = i
        · rw [hji]
          exact hnz
        · exact hpre j (by omega) h2

/-- **`strncmp` returns zero exactly on agreement** up to the first NUL, or up to `n` bytes. -/
theorem strncmp_eq_zero_iff (s1 s2 : Mem) (n : ℕ) :
    strncmp s1 s2 n = 0 ↔ ∀ k < n, (∀ j < k, s1 j ≠ 0) → s1 k = s2 k := by
  rw [strncmp, strncmpFrom_eq_zero_iff]
  simp only [Nat.zero_le, Nat.zero_add, true_implies]

/-- Comparison with the empty string tests the first byte. -/
theorem strncmp_emptyString_iff (s : Mem) {n : ℕ} (hn : 0 < n) :
    strncmp s emptyString n = 0 ↔ s 0 = 0 := by
  rw [strncmp_eq_zero_iff]
  constructor
  · intro h
    exact h 0 hn (fun j hj => by omega)
  · intro h0 k _ hpre
    rcases Nat.eq_zero_or_pos k with rfl | hk
    · exact h0
    · exact absurd h0 (hpre 0 hk)

/-- The value of a comparison depends on the bytes compared only. -/
theorem strncmp_congr {s1 s2 s1' s2' : Mem} {n : ℕ} (h1 : ∀ i < n, s1 i = s1' i)
    (h2 : ∀ i < n, s2 i = s2' i) : strncmp s1 s2 n = 0 ↔ strncmp s1' s2' n = 0 := by
  rw [strncmp_eq_zero_iff, strncmp_eq_zero_iff]
  constructor
  · intro h k hk hpre
    rw [← h1 k hk, ← h2 k hk]
    exact h k hk fun j hj => by rw [h1 j (by omega)]; exact hpre j hj
  · intro h k hk hpre
    rw [h1 k hk, h2 k hk]
    exact h k hk fun j hj => by rw [← h1 j (by omega)]; exact hpre j hj

/-! ### Strings at an address -/

/-- The string at `s` is `text`: its bytes, none of them a NUL, and a terminator behind them. -/
structure Spells (s : Mem) (text : List UInt8) : Prop where
  nul_free : 0 ∉ text
  bytes : ∀ i ≤ text.length, s i = text.getD i 0

theorem Spells.literal {text : List UInt8} (h : 0 ∉ text) : Spells (ClosKernel.literal text) text :=
  ⟨h, fun _ _ => rfl⟩

theorem cStringFrom_nul_free (s : Mem) (n i : ℕ) : 0 ∉ cStringFrom s n i := by
  induction n generalizing i with
  | zero => simp [cStringFrom]
  | succ n ih =>
    rw [cStringFrom]
    split
    · simp
    · rename_i hne
      simp [Ne.symm hne, ih]

theorem cStringFrom_length_le (s : Mem) (n i : ℕ) : (cStringFrom s n i).length ≤ n := by
  induction n generalizing i with
  | zero => simp [cStringFrom]
  | succ n ih =>
    rw [cStringFrom]
    split
    · simp
    · simpa using ih (i + 1)

/-- A smaller bound cuts the string earlier. -/
theorem cStringFrom_take (s : Mem) {m n : ℕ} (h : m ≤ n) (i : ℕ) :
    (cStringFrom s n i).take m = cStringFrom s m i := by
  induction m generalizing n i with
  | zero => simp [cStringFrom]
  | succ m ih =>
    obtain ⟨n, rfl⟩ : ∃ n', n = n' + 1 := ⟨n - 1, by omega⟩
    rw [cStringFrom, cStringFrom]
    split
    · simp
    · rw [List.take_succ_cons, ih (by omega)]

/-- The two bounded strings are equal where the bytes agree up to the first NUL. -/
theorem cStringFrom_congr {s s' : Mem} {n : ℕ} (h : ∀ k < n, (∀ j < k, s j ≠ 0) → s' k = s k) :
    cStringFrom s' n 0 = cStringFrom s n 0 := by
  have hgen : ∀ m i, i + m = n → (∀ j < i, s j ≠ 0) → cStringFrom s' m i = cStringFrom s m i := by
    intro m
    induction m with
    | zero => intro i _ _; rfl
    | succ m ih =>
      intro i hi hpre
      rw [cStringFrom, cStringFrom, h i (by omega) hpre]
      by_cases hzero : s i = 0
      · rw [if_pos hzero, if_pos hzero]
      · rw [if_neg hzero, if_neg hzero, ih (i + 1) (by omega)]
        intro j hj
        rcases Nat.eq_or_lt_of_le (Nat.le_of_lt_succ hj) with rfl | hlt
        · exact hzero
        · exact hpre j hlt
  exact hgen n 0 (by omega) (fun j hj => absurd hj (Nat.not_lt_zero j))

theorem strncmpFrom_eq_zero_iff_cStringFrom (s1 s2 : Mem) (i n : ℕ) :
    strncmpFrom s1 s2 i n = 0 ↔ cStringFrom s1 n i = cStringFrom s2 n i := by
  induction n generalizing i with
  | zero => simp [strncmpFrom, cStringFrom]
  | succ n ih =>
    rw [strncmpFrom, cStringFrom, cStringFrom]
    by_cases heq : s1 i = s2 i
    · by_cases hzero : s1 i = 0
      · rw [if_pos (Or.inr hzero), if_pos hzero, if_pos (heq ▸ hzero), charToInt_sub_eq_zero_iff]
        exact iff_of_true heq rfl
      · rw [if_neg (not_or.mpr ⟨not_not.mpr heq, hzero⟩), if_neg hzero, if_neg (heq ▸ hzero), ih, heq]
        simp
    · rw [if_pos (Or.inl heq), charToInt_sub_eq_zero_iff]
      refine iff_of_false heq ?_
      split
      · rename_i hzero
        rw [if_neg (fun h => heq (hzero.trans h.symm))]
        simp
      · split
        · simp
        · simp [heq]

/-- **`strncmp` compares the strings**, each cut at `n` bytes. -/
theorem strncmp_eq_zero_iff_cString (s1 s2 : Mem) (n : ℕ) :
    strncmp s1 s2 n = 0 ↔ cStringFrom s1 n 0 = cStringFrom s2 n 0 :=
  strncmpFrom_eq_zero_iff_cStringFrom s1 s2 0 n

theorem cStringFrom_eq_nil_iff (s : Mem) {n : ℕ} (hn : 0 < n) (i : ℕ) : cStringFrom s n i = [] ↔ s i = 0 := by
  obtain ⟨n, rfl⟩ : ∃ n', n = n' + 1 := ⟨n - 1, by omega⟩
  rw [cStringFrom]
  split
  · rename_i h
    exact iff_of_true rfl h
  · rename_i h
    exact iff_of_false (List.cons_ne_nil _ _) h

/-- The empty string on the left: the first byte is tested again. -/
theorem emptyString_strncmp_iff (s : Mem) {n : ℕ} (hn : 0 < n) : strncmp emptyString s n = 0 ↔ s 0 = 0 := by
  rw [strncmp_eq_zero_iff_cString, (cStringFrom_eq_nil_iff emptyString hn 0).mpr rfl, eq_comm,
    cStringFrom_eq_nil_iff s hn]

/-- A routine bounded by `n` sees the first `n` bytes of a string. -/
theorem Spells.cStringFrom {s : Mem} {text : List UInt8} (h : Spells s text) (n : ℕ) :
    ClosKernel.cStringFrom s n 0 = text.take n := by
  have hgen : ∀ m i, i ≤ text.length → ClosKernel.cStringFrom s m i = (text.drop i).take m := by
    intro m
    induction m with
    | zero => intro i _; simp [ClosKernel.cStringFrom]
    | succ m ih =>
      intro i hi
      rw [ClosKernel.cStringFrom, h.bytes i hi]
      rcases Nat.eq_or_lt_of_le hi with rfl | hlt
      · simp
      · have hget : text.getD i 0 = text[i] := by simp [hlt]
        have hne : text[i] ≠ 0 := fun hzero => h.nul_free (hzero ▸ List.getElem_mem hlt)
        rw [hget, if_neg hne, ih (i + 1) hlt, List.drop_eq_getElem_cons hlt, List.take_succ_cons]
  simpa using hgen n 0 (Nat.zero_le _)

/-! ### Copies -/

theorem strcpyFrom_apply (src : Mem) (n i : ℕ) (dest : Mem) {k : ℕ} (hk : k < i + n)
    (hpre : ∀ j, i ≤ j → j < k → src j ≠ 0) :
    strcpyFrom src n i dest k = if i ≤ k then src k else dest k := by
  induction n generalizing i dest with
  | zero => rw [strcpyFrom, if_neg (by omega)]
  | succ n ih =>
    rw [strcpyFrom]
    by_cases hzero : src i = 0
    · rw [if_pos hzero]
      rcases Nat.lt_trichotomy k i with hlt | rfl | hgt
      · rw [Function.update_of_ne (by omega), if_neg (by omega)]
      · rw [Function.update_self, if_pos (Nat.le_refl k), hzero]
      · exact absurd hzero (hpre i (Nat.le_refl i) hgt)
    · rw [if_neg hzero, ih (i + 1) _ (by omega) (fun j h1 h2 => hpre j (by omega) h2)]
      rcases Nat.lt_trichotomy k i with hlt | rfl | hgt
      · rw [if_neg (by omega), if_neg (by omega), Function.update_of_ne (by omega)]
      · rw [if_neg (by omega), if_pos (Nat.le_refl k), Function.update_self]
      · rw [if_pos (by omega), if_pos (by omega)]

/-- Up to the terminator and with it, `strcpy` copies the source. -/
theorem strcpy_apply (dest src : Mem) {k : ℕ} (hk : k < 2 ^ 32) (hpre : ∀ j < k, src j ≠ 0) :
    strcpy dest src k = src k := by
  rw [strcpy, strcpyFrom_apply src _ 0 dest (by omega) (fun j _ hj => hpre j hj), if_pos (Nat.zero_le k)]

theorem strncpyFrom_apply (src : Mem) (n m i : ℕ) (dest : Mem) (hi : i + m = n) (k : ℕ) :
    strncpyFrom src n m i dest k
      = if i ≤ k ∧ k < n then (cStringFrom src m i).getD (k - i) 0 else dest k := by
  induction m generalizing i dest with
  | zero => rw [strncpyFrom, if_neg (by omega)]
  | succ m ih =>
    rw [strncpyFrom, cStringFrom]
    by_cases hzero : src i = 0
    · rw [if_neg (not_not.mpr hzero), if_pos hzero]
      simp
    · rw [if_pos hzero, if_neg hzero, ih (i + 1) _ (by omega)]
      rcases Nat.lt_trichotomy k i with hlt | rfl | hgt
      · rw [if_neg (by omega), if_neg (by omega), Function.update_of_ne (by omega)]
      · rw [if_neg (by omega), if_pos (by omega), Function.update_self, Nat.sub_self, List.getD_cons_zero]
      · rw [Function.update_of_ne (by omega), show k - i = k - (i + 1) + 1 by omega, List.getD_cons_succ]
        by_cases hkn : k < n
        · rw [if_pos (by omega), if_pos (by omega)]
        · rw [if_neg (by omega), if_neg (by omega)]

/-- **`strncpy` writes exactly `n` bytes**: the string as far as it goes, and zeros. -/
theorem strncpy_apply (dest src : Mem) (n k : ℕ) :
    strncpy dest src n k = if k < n then (cStringFrom src n 0).getD k 0 else dest k := by
  rw [strncpy, strncpyFrom_apply src n n 0 dest (by omega)]
  simp

theorem cStringFrom_getD_of_nul_free {s : Mem} {n i : ℕ} (h : ∀ j, i ≤ j → j < i + n → s j ≠ 0) {k : ℕ} (hk : k < n) :
    (cStringFrom s n i).getD k 0 = s (i + k) := by
  induction n generalizing i k with
  | zero => exact absurd hk (Nat.not_lt_zero k)
  | succ n ih =>
    rw [cStringFrom, if_neg (h i (by omega) (by omega))]
    cases k with
    | zero => rfl
    | succ k =>
      rw [List.getD_cons_succ, ih (fun j hj hj' => h j (by omega) (by omega)) (by omega)]
      congr 1
      omega

/-- `strncpy` copies bytes without a NUL as they are. -/
theorem strncpy_of_nul_free (dest : Mem) {src : Mem} {n k : ℕ} (h : ∀ j < n, src j ≠ 0) (hk : k < n) :
    strncpy dest src n k = src k := by
  rw [strncpy_apply, if_pos hk, cStringFrom_getD_of_nul_free (fun j _ hj => h j (by omega)) hk, Nat.zero_add]

/-! ### Lengths -/

theorem strlenFrom_eq_some_iff (s : Mem) (n i len : ℕ) :
    strlenFrom s n i = some len ↔
      i ≤ len ∧ len < i + n ∧ s len = 0 ∧ ∀ j, i ≤ j → j < len → s j ≠ 0 := by
  induction n generalizing i with
  | zero =>
    rw [strlenFrom]
    constructor
    · intro h
      cases h
    · intro h
      omega
  | succ n ih =>
    rw [strlenFrom]
    by_cases hzero : s i = 0
    · rw [if_neg (not_not.mpr hzero), Option.some_inj]
      constructor
      · rintro rfl
        exact ⟨le_rfl, by omega, hzero, fun j h1 h2 => absurd h2 (by omega)⟩
      · rintro ⟨hle, _, _, hpre⟩
        by_contra hne
        exact hpre i le_rfl (by omega) hzero
    · rw [if_pos hzero, ih (i + 1)]
      constructor
      · rintro ⟨hle, hlt, hend, hpre⟩
        refine ⟨by omega, by omega, hend, fun j h1 h2 => ?_⟩
        rcases Nat.eq_or_lt_of_le h1 with rfl | h1
        · exact hzero
        · exact hpre j h1 h2
      · rintro ⟨hle, hlt, hend, hpre⟩
        have hne : i ≠ len := fun h => hzero (h ▸ hend)
        exact ⟨by omega, by omega, hend, fun j h1 h2 => hpre j (by omega) h2⟩

/-- **`strlen` finds the first NUL.** -/
theorem strlen_eq_some_iff (s : Mem) (len : ℕ) :
    strlen s = some len ↔ len < 2 ^ 32 ∧ s len = 0 ∧ ∀ j < len, s j ≠ 0 := by
  rw [strlen, strlenFrom_eq_some_iff]
  simp

end ClosKernel
