import ClosKernel.Lib.PartialRun
import ClosKernel.Lib.WordLoop
import Mathlib.Tactic.Ring

/-!
# `memcpy` (`lib.c`)

`memcpy` is written in assembly: it copies bytes until the destination is aligned, then words with `rep movsl`, then
the bytes that are left.  The registers wrap at `2 ^ 32`.  The memory is whatever has a `load` and a `store`, so that
the same code can be run on plain memory and through a page directory.

* `memcpy_eq_run` — it is a routine that goes by words, and `movsl_eq` says when a word is as good as its bytes;
* `memcpy_eq_copyBytes` — **`memcpy` is the byte-wise copy** if no store changes what is still to be read.
-/

namespace ClosKernel

open PartialRun WordLoop

section Code

variable {σ : Type*} (load : σ → ℕ → UInt8) (store : ℕ → UInt8 → σ → σ)

/-- `movb (%esi), %al` and `movb %al, (%edi)`. -/
def movb (esi edi : ℕ) (m : σ) : σ := store edi (load m esi) m

/-- `movsl`: the word is read before it is written. -/
def movsl (esi edi : ℕ) (m : σ) : σ :=
  upto (fun j => store ((edi + j) % 2 ^ 32) (load m ((esi + j) % 2 ^ 32))) 4 m

/-- `rep movsl` with `n` in `ecx`; `esi` and `edi` are left behind the last word. -/
def repMovsl : ℕ → ℕ → ℕ → σ → ℕ × ℕ × σ
  | 0, esi, edi, m => (esi, edi, m)
  | n + 1, esi, edi, m => repMovsl n ((esi + 4) % 2 ^ 32) ((edi + 4) % 2 ^ 32) (movsl load store esi edi m)

/-- `.memcpy_bottom`, with `n` in `edx`. -/
def memcpyBottom : ℕ → ℕ → ℕ → σ → σ
  | 0, _, _, m => m
  | n + 1, esi, edi, m => memcpyBottom n ((esi + 1) % 2 ^ 32) ((edi + 1) % 2 ^ 32) (movb load store esi edi m)

/-- `.memcpy_aligned`, with `n` in `ecx`. -/
def memcpyAligned (n esi edi : ℕ) (m : σ) : σ :=
  let (esi, edi, m) := repMovsl load store (n / 4) esi edi m
  memcpyBottom load store (n % 4) esi edi m

/-- `.memcpy_top`, with `n` in `ecx`. -/
def memcpyTop : ℕ → ℕ → ℕ → σ → σ
  | 0, _, _, m => m
  | n + 1, esi, edi, m =>
    if edi % 4 = 0 then memcpyAligned load store (n + 1) esi edi m
    else memcpyTop n ((esi + 1) % 2 ^ 32) ((edi + 1) % 2 ^ 32) (movb load store esi edi m)

def memcpy (dest src n : ℕ) (m : σ) : σ := memcpyTop load store n src dest m

/-- The byte-wise copy. -/
def copyBytes (dest src n : ℕ) (m : σ) : σ :=
  upto (fun i m => store (dest + i) (load m (src + i)) m) n m

end Code

/-- `memcpy` as a routine that goes by words; the pointers are `esi` and `edi`. -/
def memcpyRoutine {σ : Type*} (load : σ → ℕ → UInt8) (store : ℕ → UInt8 → σ → σ) : Routine (ℕ × ℕ) σ where
  width := 4
  isAligned p := decide (p.2 % 4 = 0)
  byte p := movb load store p.1 p.2
  word p := movsl load store p.1 p.2
  next p := ((p.1 + 1) % 2 ^ 32, (p.2 + 1) % 2 ^ 32)
  nextWord p := ((p.1 + 4) % 2 ^ 32, (p.2 + 4) % 2 ^ 32)
  nextWord_eq p := by
    simp only [Function.iterate_succ_apply, Function.iterate_zero_apply]
    refine Prod.ext ?_ ?_
    · dsimp only
      omega
    · dsimp only
      omega

section Loops

variable {σ : Type*} {load : σ → ℕ → UInt8} {store : ℕ → UInt8 → σ → σ} {dest src n : ℕ}

theorem memcpyBottom_eq_bytes (n esi edi : ℕ) (m : σ) :
    memcpyBottom load store n esi edi m = (memcpyRoutine load store).bytes n (esi, edi) m := by
  induction n generalizing esi edi m with
  | zero => rfl
  | succ n ih => exact ih ..

theorem repMovsl_eq_words (n esi edi : ℕ) (m : σ) :
    repMovsl load store n esi edi m = (((memcpyRoutine load store).words n (esi, edi) m).1.1,
      ((memcpyRoutine load store).words n (esi, edi) m).1.2, ((memcpyRoutine load store).words n (esi, edi) m).2) := by
  induction n generalizing esi edi m with
  | zero => rfl
  | succ n ih => exact ih ..

/-- The three loops are those of the routine. -/
theorem memcpy_eq_run (dest src n : ℕ) (m : σ) :
    memcpy load store dest src n m = (memcpyRoutine load store).run n (src, dest) m := by
  rw [memcpy]
  induction n generalizing dest src m with
  | zero => rfl
  | succ n ih =>
    rw [memcpyTop, Routine.run]
    by_cases haligned : dest % 4 = 0
    · rw [if_pos haligned, if_pos (by exact decide_eq_true haligned), memcpyAligned, repMovsl_eq_words]
      exact memcpyBottom_eq_bytes ..
    · rw [if_neg haligned, if_neg (by simpa [memcpyRoutine] using haligned)]
      exact ih ..

/-- No byte that is stored is one that is loaded. -/
def Separate (load : σ → ℕ → UInt8) (store : ℕ → UInt8 → σ → σ) (dest src n : ℕ) : Prop :=
  ∀ i < n, ∀ j < n, ∀ v m, load (store (dest + i) v m) (src + j) = load m (src + j)

/-- The first byte, and the others. -/
theorem copyBytes_succ (dest src n : ℕ) (m : σ) :
    copyBytes load store dest src (n + 1) m
      = copyBytes load store (dest + 1) (src + 1) n (movb load store src dest m) := by
  rw [copyBytes, Nat.add_comm n 1, upto_add, copyBytes]
  refine upto_congr (fun i _ m => ?_) _
  rw [Nat.add_assoc, Nat.add_assoc]

/-- The registers wrap only behind the last byte. -/
theorem bytes_eq_copyBytes (hdest : dest + n ≤ 2 ^ 32) (hsrc : src + n ≤ 2 ^ 32) (m : σ) :
    (memcpyRoutine load store).bytes n (src, dest) m = copyBytes load store dest src n m := by
  induction n generalizing dest src m with
  | zero => rfl
  | succ n ih =>
    rw [copyBytes_succ, Routine.bytes]
    show (memcpyRoutine load store).bytes n ((src + 1) % 2 ^ 32, (dest + 1) % 2 ^ 32) (movb load store src dest m) = _
    rcases Nat.eq_zero_or_pos n with rfl | hpos
    · rfl
    · rw [Nat.mod_eq_of_lt (by omega), Nat.mod_eq_of_lt (by omega), ih (by omega) (by omega)]

theorem movsl_eq (hdest : dest + n ≤ 2 ^ 32) (hsrc : src + n ≤ 2 ^ 32) (hsep : Separate load store dest src n)
    (hn : 4 ≤ n) (m : σ) : movsl load store src dest m = copyBytes load store dest src 4 m := by
  -- what is loaded after some stores is what was there at the start
  have hsame : ∀ i ≤ 4, ∀ j < 4, load (copyBytes load store dest src i m) (src + j) = load m (src + j) := by
    intro i hi j hj
    refine upto_invariant (P := fun _ x => load x (src + j) = load m (src + j)) rfl fun a x ha hx => ?_
    rw [hsep a (by omega) j (by omega), hx]
  have hgo : ∀ i ≤ 4, upto (fun j => store ((dest + j) % 2 ^ 32) (load m ((src + j) % 2 ^ 32))) i m
      = copyBytes load store dest src i m := by
    intro i
    induction i with
    | zero => intro _; rfl
    | succ i ih =>
      intro hi
      rw [upto, ih (by omega), Nat.mod_eq_of_lt (by omega), Nat.mod_eq_of_lt (by omega),
        ← hsame i (by omega) i (by omega)]
      rfl
  exact hgo 4 (Nat.le_refl 4)

/-- **`memcpy` is the byte-wise copy**, for ranges that do not wrap and where no store changes what is still to be
read.  It makes no difference where the destination is aligned. -/
theorem memcpy_eq_copyBytes (hdest : dest + n ≤ 2 ^ 32) (hsrc : src + n ≤ 2 ^ 32)
    (hsep : Separate load store dest src n) (m : σ) :
    memcpy load store dest src n m = copyBytes load store dest src n m := by
  rw [memcpy_eq_run, ← bytes_eq_copyBytes hdest hsrc]
  refine Routine.run_eq_bytes
    (I := fun n p => (p.2 + n ≤ 2 ^ 32 ∧ p.1 + n ≤ 2 ^ 32) ∧ Separate load store p.2 p.1 n) ?_ ?_
    ⟨⟨hdest, hsrc⟩, hsep⟩ m
  · rintro n ⟨src, dest⟩ ⟨⟨hdest, hsrc⟩, hsep⟩
    show ((dest + 1) % 2 ^ 32 + n ≤ 2 ^ 32 ∧ (src + 1) % 2 ^ 32 + n ≤ 2 ^ 32) ∧
      Separate load store ((dest + 1) % 2 ^ 32) ((src + 1) % 2 ^ 32) n
    refine ⟨⟨by omega, by omega⟩, fun i hi j hj v m => ?_⟩
    rw [Nat.mod_eq_of_lt (by omega), Nat.mod_eq_of_lt (by omega), Nat.add_assoc, Nat.add_assoc]
    exact hsep (1 + i) (by omega) (1 + j) (by omega) v m
  · rintro n ⟨src, dest⟩ m ⟨⟨hdest, hsrc⟩, hsep⟩
    have hwidth : (memcpyRoutine load store).width = 4 := rfl
    rw [hwidth] at hdest hsrc hsep ⊢
    rw [bytes_eq_copyBytes (by dsimp only at hdest; omega) (by dsimp only at hsrc; omega)]
    exact movsl_eq hdest hsrc hsep (by omega) m

end Loops

end ClosKernel
