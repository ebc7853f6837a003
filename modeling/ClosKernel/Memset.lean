import ClosKernel.CString
import ClosKernel.Memcpy

/-!
# `memset`, and both routines on plain memory (`lib.c`)

`memset` has the three loops of `memcpy`: it stores `al` until the pointer is aligned, then `eax` with `rep stosl`, and
then `al` again.  For that `eax` has to hold the same byte four times.

* `eaxByte_fillWord` — each byte of `eax` is the low byte of the argument;
* `memset_eq_fillBytes` — **`memset` is the byte-wise loop**;
* `string_routines_bytewise` — on plain memory, **both routines come to their end and do to every byte what the
  byte-wise definitions say**.
-/

namespace ClosKernel

open PartialRun WordLoop

/-! ### The code -/

/-- Byte `j` of `eax`; `al` is byte 0. -/
def eaxByte (eax : Int32) (j : ℕ) : UInt8 := (eax.toUInt32 >>> UInt32.ofNat (8 * j)).toUInt8

/-- What `memset` has in `eax`. -/
def fillWord (c : Int32) : Int32 :=
  let c := c &&& 0xFF
  c <<< 24 ||| c <<< 16 ||| c <<< 8 ||| c

section Code

variable {σ : Type*} (store : ℕ → UInt8 → σ → σ)

/-- `stosl`. -/
def stosl (eax : Int32) (edi : ℕ) (m : σ) : σ := upto (fun j => store ((edi + j) % 2 ^ 32) (eaxByte eax j)) 4 m

/-- The loops of `memset`, with `edi` as the pointer. -/
def memsetRoutine (eax : Int32) : Routine ℕ σ where
  width := 4
  isAligned edi := decide (edi % 4 = 0)
  byte edi := store edi (eaxByte eax 0)
  word edi := stosl store eax edi
  next edi := (edi + 1) % 2 ^ 32
  nextWord edi := (edi + 4) % 2 ^ 32
  nextWord_eq edi := by
    simp only [Function.iterate_succ_apply, Function.iterate_zero_apply]
    omega

def memset (s : ℕ) (c : Int32) (n : ℕ) (m : σ) : σ := (memsetRoutine store (fillWord c)).run n s m

/-- The byte-wise loop. -/
def fillBytes (s : ℕ) (b : UInt8) (n : ℕ) (m : σ) : σ := upto (fun i => store (s + i) b) n m

end Code

/-! ### The word is four times the byte -/

/-- `c & 0xFF`. -/
def lowByte (c : Int32) : UInt8 := (c &&& 0xFF).toUInt32.toUInt8

theorem exists_lowByte (c : Int32) : ∃ b : Fin 256, c &&& 0xFF = Int32.ofNat b.val := by
  have hmask : (c &&& 0xFF).toBitVec.toNat = c.toBitVec.toNat % 256 := by
    rw [Int32.toBitVec_and, BitVec.toNat_and]
    exact Nat.and_two_pow_sub_one_eq_mod _ 8
  refine ⟨⟨c.toBitVec.toNat % 256, Nat.mod_lt _ (by decide)⟩, Int32.toBitVec_inj.mp (BitVec.eq_of_toNat_eq ?_)⟩
  rw [hmask]
  show c.toBitVec.toNat % 256 = c.toBitVec.toNat % 256 % 2 ^ 32
  omega

/-- **Each byte of the word is the low byte of the argument.** -/
theorem eaxByte_fillWord (c : Int32) {j : ℕ} (hj : j < 4) : eaxByte (fillWord c) j = lowByte c := by
  have hall : ∀ b : Fin 256, ∀ j < 4, eaxByte (Int32.ofNat b.val <<< 24 ||| Int32.ofNat b.val <<< 16 |||
      Int32.ofNat b.val <<< 8 ||| Int32.ofNat b.val) j = (Int32.ofNat b.val).toUInt32.toUInt8 := by
    decide +kernel
  obtain ⟨b, hb⟩ := exists_lowByte c
  rw [fillWord, lowByte, hb]
  exact hall b j hj

section Loops

variable {σ : Type*} {store : ℕ → UInt8 → σ → σ} {s n : ℕ} {c : Int32}

/-- The first byte, and the others. -/
theorem fillBytes_succ (s : ℕ) (b : UInt8) (n : ℕ) (m : σ) :
    fillBytes store s b (n + 1) m = fillBytes store (s + 1) b n (store s b m) := by
  rw [fillBytes, Nat.add_comm n 1, upto_add, fillBytes]
  refine upto_congr (fun i _ m => ?_) _
  rw [Nat.add_assoc]

/-- The register wraps only behind the last byte. -/
theorem bytes_eq_fillBytes (hs : s + n ≤ 2 ^ 32) (m : σ) :
    (memsetRoutine store (fillWord c)).bytes n s m = fillBytes store s (lowByte c) n m := by
  induction n generalizing s m with
  | zero => rfl
  | succ n ih =>
    rw [fillBytes_succ, Routine.bytes, ← eaxByte_fillWord c (by decide : 0 < 4)]
    show (memsetRoutine store (fillWord c)).bytes n ((s + 1) % 2 ^ 32) (store s (eaxByte (fillWord c) 0) m) = _
    rcases Nat.eq_zero_or_pos n with rfl | hpos
    · rfl
    · rw [Nat.mod_eq_of_lt (by omega), ih (by omega), eaxByte_fillWord c (by decide)]

theorem stosl_eq (hs : s + n ≤ 2 ^ 32) (hn : 4 ≤ n) (m : σ) :
    stosl store (fillWord c) s m = fillBytes store s (lowByte c) 4 m := by
  refine upto_congr (fun j hj m => ?_) m
  rw [Nat.mod_eq_of_lt (by omega), eaxByte_fillWord c hj]

/-- **`memset` is the byte-wise loop**, for a range that does not wrap. -/
theorem memset_eq_fillBytes (hs : s + n ≤ 2 ^ 32) (m : σ) :
    memset store s c n m = fillBytes store s (lowByte c) n m := by
  rw [memset, ← bytes_eq_fillBytes hs]
  refine Routine.run_eq_bytes (I := fun n edi => edi + n ≤ 2 ^ 32) ?_ ?_ hs m
  · intro n edi hedi
    show (edi + 1) % 2 ^ 32 + n ≤ 2 ^ 32
    omega
  · intro n edi m hedi
    have hwidth : (memsetRoutine store (fillWord c)).width = 4 := rfl
    rw [hwidth] at hedi ⊢
    rw [bytes_eq_fillBytes (by omega)]
    exact stosl_eq hedi (by omega) m

end Loops

/-! ### Plain memory -/

/-- A load from plain memory. -/
def peek (m : Mem) (a : ℕ) : UInt8 := m a

/-- A store to plain memory. -/
def poke (a : ℕ) (v : UInt8) (m : Mem) : Mem := Function.update m a v

/-- The bytes `b` are at `dest` and the `n - 1` places behind it, and nothing else has changed. -/
structure Overwrites (dest n : ℕ) (b : ℕ → UInt8) (m m' : Mem) : Prop where
  inside : ∀ i < n, m' (dest + i) = b i
  outside : ∀ a, a < dest ∨ dest + n ≤ a → m' a = m a

section Plain

variable {dest src n : ℕ} {b : ℕ → UInt8} {m m' : Mem}

theorem Overwrites.zero (dest : ℕ) (b : ℕ → UInt8) (m : Mem) : Overwrites dest 0 b m m :=
  ⟨fun i hi => absurd hi (Nat.not_lt_zero i), fun _ _ => rfl⟩

/-- One more byte. -/
theorem Overwrites.succ (h : Overwrites dest n b m m') : Overwrites dest (n + 1) b m (poke (dest + n) (b n) m') := by
  refine ⟨fun i hi => ?_, fun a ha => ?_⟩
  · rcases Nat.lt_succ_iff_lt_or_eq.mp hi with hlt | rfl
    · rw [poke, Function.update_of_ne (by omega), h.inside i hlt]
    · rw [poke, Function.update_self]
  · rw [poke, Function.update_of_ne (by omega), h.outside a (by omega)]

theorem copyBytes_overwrites (hapart : dest + n ≤ src ∨ src + n ≤ dest) (m : Mem) :
    Overwrites dest n (fun i => m (src + i)) m (copyBytes peek poke dest src n m) := by
  refine upto_invariant (P := fun k x => Overwrites dest k (fun i => m (src + i)) m x) (.zero ..) ?_
  intro k x hk hx
  -- the byte that is loaded has not been stored to
  have hload : peek x (src + k) = m (src + k) := hx.outside (src + k) (by omega)
  rw [hload]
  exact hx.succ

theorem fillBytes_overwrites (s : ℕ) (v : UInt8) (n : ℕ) (m : Mem) :
    Overwrites s n (fun _ => v) m (fillBytes poke s v n m) := by
  refine upto_invariant (P := fun k x => Overwrites s k (fun _ => v) m x) (.zero ..) ?_
  intro k x _ hx
  exact hx.succ

theorem separate_of_apart (hapart : dest + n ≤ src ∨ src + n ≤ dest) : Separate peek poke dest src n := by
  intro i hi j hj v m
  exact Function.update_of_ne (by omega) ..

end Plain

/-- **The string routines are the byte-wise ones.**  From their first labels both come to their end, whatever `edx`
holds, and with every count.  `memcpy` leaves the bytes of the source and `memset` the low byte of its argument, and
they change no other byte. -/
theorem string_routines_bytewise (m : Mem) :
    (∀ dest src n, dest + n ≤ 2 ^ 32 → src + n ≤ 2 ^ 32 → (dest + n ≤ src ∨ src + n ≤ dest) →
      Overwrites dest n (fun i => m (src + i)) m (memcpy peek poke dest src n m)) ∧
    (∀ s c n, s + n ≤ 2 ^ 32 → Overwrites s n (fun _ => lowByte c) m (memset poke s c n m)) ∧
    (∀ dest src n edx, (memcpyRoutine peek poke).Halts ⟨.top, (src, dest), n, edx, m⟩ (memcpy peek poke dest src n m)) ∧
    ∀ s c n edx, (memsetRoutine poke (fillWord c)).Halts ⟨.top, s, n, edx, m⟩ (memset poke s c n m) := by
  refine ⟨?_, ?_, ?_, ?_⟩
  · intro dest src n hdest hsrc hapart
    rw [memcpy_eq_copyBytes hdest hsrc (separate_of_apart hapart)]
    exact copyBytes_overwrites hapart m
  · intro s c n hs
    rw [memset_eq_fillBytes hs]
    exact fillBytes_overwrites s (lowByte c) n m
  · intro dest src n edx
    rw [memcpy_eq_run]
    exact Routine.halts_run _ n edx (src, dest) m
  · intro s c n edx
    exact Routine.halts_run _ n edx s m

/-- Seven bytes from an odd address to the last ones of the address space, and seven bytes set to `-2`. -/
theorem string_routines_bytewise_end :
    Overwrites (2 ^ 32 - 7) 7 (fun i => literal [1, 2, 3, 4, 5, 6, 7, 8] (1 + i)) (literal [1, 2, 3, 4, 5, 6, 7, 8])
      (memcpy peek poke (2 ^ 32 - 7) 1 7 (literal [1, 2, 3, 4, 5, 6, 7, 8])) ∧
    Overwrites (2 ^ 32 - 7) 7 (fun _ => 0xFE) (literal [1, 2, 3, 4, 5, 6, 7, 8])
      (memset poke (2 ^ 32 - 7) (-2) 7 (literal [1, 2, 3, 4, 5, 6, 7, 8])) := by
  obtain ⟨hcopy, hset, -⟩ := string_routines_bytewise (literal [1, 2, 3, 4, 5, 6, 7, 8])
  refine ⟨hcopy (2 ^ 32 - 7) 1 7 (by decide) (by decide) (Or.inr (by decide)), ?_⟩
  have hbyte : lowByte (-2) = 0xFE := by decide
  rw [← hbyte]
  exact hset (2 ^ 32 - 7) (-2) 7 (by decide)

end ClosKernel
