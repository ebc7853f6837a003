import Mathlib.Data.Nat.Notation
import Mathlib.Logic.Function.Iterate

/-!
# Loops that go by words

A routine handles a range of memory from its beginning on.  It goes byte by byte until its pointer is aligned, then by
words of `width` bytes, and then byte by byte again for what is left.  The pointers `ρ` and the memory `σ` are
arbitrary; the routine says what it does with a byte and with a word.

* `Routine.run` — the three loops as a function, and `Routine.step` — the routine as a machine with labels and two
  counters;
* `Routine.halts_run` — **the machine halts**, whatever it is started with, and leaves what the function computes;
* `Routine.run_eq_bytes` — **it is the byte-wise loop**, if a word is as good as its bytes.
-/

namespace WordLoop

variable {ρ σ : Type*}

/-- What a routine does at its pointer, and how the pointer moves. -/
structure Routine (ρ σ : Type*) where
  width : ℕ
  isAligned : ρ → Bool
  byte : ρ → σ → σ
  word : ρ → σ → σ
  next : ρ → ρ
  nextWord : ρ → ρ
  nextWord_eq : ∀ p, nextWord p = next^[width] p

namespace Routine

variable (R : Routine ρ σ)

/-- `n` bytes, one after the other. -/
def bytes : ℕ → ρ → σ → σ
  | 0, _, m => m
  | n + 1, p, m => bytes n (R.next p) (R.byte p m)

/-- `n` words, and where the pointer is then. -/
def words : ℕ → ρ → σ → ρ × σ
  | 0, p, m => (p, m)
  | n + 1, p, m => words n (R.nextWord p) (R.word p m)

/-- From an aligned pointer: the words, and the bytes that are left. -/
def runAligned (n : ℕ) (p : ρ) (m : σ) : σ :=
  let (p, m) := R.words (n / R.width) p m
  R.bytes (n % R.width) p m

/-- The routine for `n` bytes. -/
def run : ℕ → ρ → σ → σ
  | 0, _, m => m
  | n + 1, p, m => if R.isAligned p then R.runAligned (n + 1) p m else run n (R.next p) (R.byte p m)

end Routine

/-! ### The machine -/

inductive Label where
  | top
  | aligned
  | words
  | bottom
  | done
  deriving DecidableEq

/-- The label that comes next, the pointer, the count of bytes or words, the bytes that are left behind the words, and
the memory. -/
structure State (ρ σ : Type*) where
  label : Label
  ptr : ρ
  count : ℕ
  rest : ℕ
  mem : σ

namespace Routine

variable (R : Routine ρ σ)

/-- What is done at a label, up to the next jump. -/
def step (s : State ρ σ) : State ρ σ :=
  match s.label with
  | .top =>
    if s.count = 0 then { s with label := .done }
    else if R.isAligned s.ptr then { s with label := .aligned }
    else { s with ptr := R.next s.ptr, count := s.count - 1, mem := R.byte s.ptr s.mem }
  | .aligned => { s with label := .words, count := s.count / R.width, rest := s.count % R.width }
  | .words =>
    if s.count = 0 then { s with label := .bottom }
    else { s with ptr := R.nextWord s.ptr, count := s.count - 1, mem := R.word s.ptr s.mem }
  | .bottom =>
    if s.rest = 0 then { s with label := .done }
    else { s with ptr := R.next s.ptr, rest := s.rest - 1, mem := R.byte s.ptr s.mem }
  | .done => s

/-- The machine comes to its end, with the memory `m`. -/
def Halts (s : State ρ σ) (m : σ) : Prop := ∃ t, (R.step^[t] s).label = .done ∧ (R.step^[t] s).mem = m

variable {R} {s : State ρ σ} {m m' : σ} {p : ρ} {n c d : ℕ}

theorem Halts.of_step (h : R.Halts (R.step s) m) : R.Halts s m := by
  obtain ⟨t, hlabel, hmem⟩ := h
  refine ⟨t + 1, ?_, ?_⟩
  · rw [Function.iterate_succ_apply]
    exact hlabel
  · rw [Function.iterate_succ_apply]
    exact hmem

theorem halts_done : R.Halts ⟨.done, p, c, d, m⟩ m := ⟨0, rfl, rfl⟩

theorem halts_bottom (n : ℕ) (p : ρ) (m : σ) : R.Halts ⟨.bottom, p, c, n, m⟩ (R.bytes n p m) := by
  induction n generalizing p m with
  | zero =>
    apply Halts.of_step
    exact halts_done
  | succ n ih =>
    apply Halts.of_step
    exact ih (R.next p) (R.byte p m)

theorem halts_words (n : ℕ) (p : ρ) (m : σ) :
    R.Halts ⟨.words, p, n, d, m⟩ (R.bytes d (R.words n p m).1 (R.words n p m).2) := by
  induction n generalizing p m with
  | zero =>
    apply Halts.of_step
    exact halts_bottom d p m
  | succ n ih =>
    apply Halts.of_step
    exact ih (R.nextWord p) (R.word p m)

/-- **The machine halts**, from its first label and with any count, and it leaves what the function computes. -/
theorem halts_run (R : Routine ρ σ) (n d : ℕ) (p : ρ) (m : σ) : R.Halts ⟨.top, p, n, d, m⟩ (R.run n p m) := by
  induction n generalizing p m with
  | zero =>
    apply Halts.of_step
    exact halts_done
  | succ n ih =>
    apply Halts.of_step
    rw [step, run]
    simp only [Nat.add_one_ne_zero, if_false, Nat.add_sub_cancel]
    by_cases haligned : R.isAligned p = true
    · rw [if_pos haligned, if_pos haligned]
      apply Halts.of_step
      exact halts_words ((n + 1) / R.width) p m
    · rw [if_neg haligned, if_neg haligned]
      exact ih (R.next p) (R.byte p m)

/-! ### Words are bytes -/

/-- The first `k` bytes, and the others. -/
theorem bytes_add (k n : ℕ) (p : ρ) (m : σ) : R.bytes (k + n) p m = R.bytes n (R.next^[k] p) (R.bytes k p m) := by
  induction k generalizing p m with
  | zero => rw [Nat.zero_add]; rfl
  | succ k ih =>
    rw [Nat.add_right_comm, bytes, ih, Function.iterate_succ_apply]
    rfl

section Equal

variable {I : ℕ → ρ → Prop}

/-- What the next byte keeps, the next word keeps. -/
theorem invariant_iterate (hnext : ∀ n p, I (n + 1) p → I n (R.next p)) (k : ℕ) (h : I (n + k) p) :
    I n (R.next^[k] p) := by
  induction k generalizing p with
  | zero => exact h
  | succ k ih =>
    rw [Function.iterate_succ_apply]
    exact ih (hnext (n + k) p h)

theorem words_eq_bytes (hnext : ∀ n p, I (n + 1) p → I n (R.next p))
    (hword : ∀ n p m, I (n + R.width) p → R.word p m = R.bytes R.width p m) (k : ℕ) (h : I (d + R.width * k) p)
    (m : σ) :
    R.bytes d (R.words k p m).1 (R.words k p m).2 = R.bytes (d + R.width * k) p m := by
  induction k generalizing p m with
  | zero => rfl
  | succ k ih =>
    rw [Nat.mul_succ, ← Nat.add_assoc] at h ⊢
    have hrest : I (d + R.width * k) (R.nextWord p) := by
      rw [R.nextWord_eq]
      exact invariant_iterate hnext R.width h
    rw [words, ih hrest, hword _ p m h, R.nextWord_eq, Nat.add_comm _ R.width, bytes_add R.width]

/-- **The routine is the byte-wise loop**: `I n p` says that the routine may be called for `n` bytes at `p`, and a word
is as good as its bytes there. -/
theorem run_eq_bytes (hnext : ∀ n p, I (n + 1) p → I n (R.next p))
    (hword : ∀ n p m, I (n + R.width) p → R.word p m = R.bytes R.width p m) (h : I n p) (m : σ) :
    R.run n p m = R.bytes n p m := by
  induction n generalizing p m with
  | zero => rfl
  | succ n ih =>
    rw [run]
    by_cases haligned : R.isAligned p = true
    · have hsplit : (n + 1) % R.width + R.width * ((n + 1) / R.width) = n + 1 := Nat.mod_add_div ..
      rw [if_pos haligned, runAligned]
      dsimp only
      rw [words_eq_bytes hnext hword _ (by rwa [hsplit]), hsplit]
    · rw [if_neg haligned, ih (hnext n p h)]
      rfl

end Equal

end Routine

end WordLoop
