import ClosKernel.Memset

/-!
# `memmove` (`lib.c`)

`memmove` copies with `rep movsb`, upwards if the source does not lie below the destination and downwards otherwise.  It
clears the direction flag at its beginning and sets it for the way down, but does not clear it again.

* `repMovsb_up`, `repMovsb_down` — what has been copied at any time, in both directions;
* `memmove_moves` — **`memmove` moves the bytes for every overlap** of the two ranges, agrees with `memcpy` where they
  do not overlap, and returns with the direction flag set just if the source lies below the destination.
-/

namespace ClosKernel

/-- One place further, in the direction of the flag. -/
def advanceBy (df : Bool) (a : ℕ) : ℕ := if df then (a + 2 ^ 32 - 1) % 2 ^ 32 else (a + 1) % 2 ^ 32

/-- `rep movsb` with `n` in `ecx`. -/
def repMovsb (df : Bool) : ℕ → ℕ → ℕ → Mem → Mem
  | 0, _, _, m => m
  | n + 1, esi, edi, m => repMovsb df n (advanceBy df esi) (advanceBy df edi) (movb peek poke esi edi m)

/-- `memmove`: the direction flag when it returns, and the memory. -/
def memmove (dest src n : ℕ) (m : Mem) : Bool × Mem :=
  if dest ≤ src then (false, repMovsb false n src dest m)
  else
    let esi := (src + n + 2 ^ 32 - 1) % 2 ^ 32
    let edi := (dest + n + 2 ^ 32 - 1) % 2 ^ 32
    (true, repMovsb true n esi edi m)

/-- The bytes from `lo` to `hi` of the source have arrived, and nothing else has changed. -/
structure Moved (dest src lo hi : ℕ) (m m' : Mem) : Prop where
  inside : ∀ i, lo ≤ i → i < hi → m' (dest + i) = m (src + i)
  outside : ∀ a, a < dest + lo ∨ dest + hi ≤ a → m' a = m a

section Directions

variable {dest src lo hi n : ℕ} {m m' : Mem}

/-- One more byte at the upper end. -/
theorem Moved.up (h : Moved dest src lo hi m m') (hle : lo ≤ hi) (hfree : dest ≤ src) :
    Moved dest src lo (hi + 1) m (movb peek poke (src + hi) (dest + hi) m') := by
  have hload : m' (src + hi) = m (src + hi) := h.outside _ (Or.inr (by omega))
  refine ⟨fun i hlo hlt => ?_, fun a ha => ?_⟩
  · rcases Nat.lt_succ_iff_lt_or_eq.mp hlt with hin | rfl
    · rw [movb, poke, Function.update_of_ne (by omega), h.inside i hlo hin]
    · rw [movb, poke, Function.update_self]
      exact hload
  · rw [movb, poke, Function.update_of_ne (by omega), h.outside a (by omega)]

/-- One more byte at the lower end. -/
theorem Moved.down (h : Moved dest src (lo + 1) hi m m') (hlt : lo < hi) (hfree : src < dest) :
    Moved dest src lo hi m (movb peek poke (src + lo) (dest + lo) m') := by
  have hload : m' (src + lo) = m (src + lo) := h.outside _ (Or.inl (by omega))
  refine ⟨fun i hlo hi' => ?_, fun a ha => ?_⟩
  · rcases Nat.lt_or_eq_of_le hlo with hin | rfl
    · rw [movb, poke, Function.update_of_ne (by omega), h.inside i hin hi']
    · rw [movb, poke, Function.update_self]
      exact hload
  · rw [movb, poke, Function.update_of_ne (by omega), h.outside a (by omega)]

/-- **Upwards**, no byte is overwritten before it is read. -/
theorem repMovsb_up (hdest : dest + lo + n ≤ 2 ^ 32) (hsrc : src + lo + n ≤ 2 ^ 32) (hfree : dest ≤ src)
    (h : Moved dest src 0 lo m m') :
    Moved dest src 0 (lo + n) m (repMovsb false n ((src + lo) % 2 ^ 32) ((dest + lo) % 2 ^ 32) m') := by
  -- over the bytes that are left; `lo` of them have arrived
  induction n generalizing lo m' with
  | zero => exact h
  | succ n ih =>
    have hnext : ∀ a, a + lo + (n + 1) ≤ 2 ^ 32 →
        (a + lo) % 2 ^ 32 = a + lo ∧ advanceBy false ((a + lo) % 2 ^ 32) = (a + (lo + 1)) % 2 ^ 32 := by
      intro a ha
      rw [advanceBy, if_neg (by decide)]
      omega
    obtain ⟨hesi, hesi'⟩ := hnext src hsrc
    obtain ⟨hedi, hedi'⟩ := hnext dest hdest
    rw [repMovsb, hesi', hedi', hesi, hedi, Nat.add_comm n 1, ← Nat.add_assoc]
    exact ih (by omega) (by omega) (h.up (Nat.zero_le lo) hfree)

/-- **Downwards**, no byte is overwritten before it is read, either. -/
theorem repMovsb_down (hdest : dest + n ≤ 2 ^ 32) (hsrc : src + n ≤ 2 ^ 32) (hfree : src < dest) (hn : n ≤ hi)
    (h : Moved dest src n hi m m') :
    Moved dest src 0 hi m
      (repMovsb true n ((src + n + 2 ^ 32 - 1) % 2 ^ 32) ((dest + n + 2 ^ 32 - 1) % 2 ^ 32) m') := by
  induction n generalizing m' with
  | zero => exact h
  | succ n ih =>
    have hnext : ∀ a, a + (n + 1) ≤ 2 ^ 32 → (a + (n + 1) + 2 ^ 32 - 1) % 2 ^ 32 = a + n ∧
        advanceBy true ((a + (n + 1) + 2 ^ 32 - 1) % 2 ^ 32) = (a + n + 2 ^ 32 - 1) % 2 ^ 32 := by
      intro a ha
      rw [advanceBy, if_pos rfl]
      omega
    obtain ⟨hesi, hesi'⟩ := hnext src hsrc
    obtain ⟨hedi, hedi'⟩ := hnext dest hdest
    rw [repMovsb, hesi', hedi', hesi, hedi]
    exact ih (by omega) (by omega) (by omega) (h.down (by omega) hfree)

theorem Moved.overwrites (h : Moved dest src 0 n m m') : Overwrites dest n (fun i => m (src + i)) m m' :=
  ⟨fun i hi => h.inside i (Nat.zero_le i) hi, fun a ha => h.outside a (by rwa [Nat.add_zero])⟩

/-- What is overwritten with what determines the memory. -/
theorem Overwrites.unique {b : ℕ → UInt8} {m'' : Mem} (h : Overwrites dest n b m m') (h' : Overwrites dest n b m m'') :
    m' = m'' := by
  funext a
  by_cases ha : a < dest ∨ dest + n ≤ a
  · rw [h.outside a ha, h'.outside a ha]
  · obtain ⟨i, rfl⟩ : ∃ i, a = dest + i := ⟨a - dest, by omega⟩
    rw [h.inside i (by omega), h'.inside i (by omega)]

end Directions

/-- **`memmove` moves the bytes**, however the two ranges overlap: the destination holds what the source held before,
and nothing else has changed.  Where they do not overlap the result is that of `memcpy`.  The direction flag is left set
by the copies that go downwards. -/
theorem memmove_moves (dest src n : ℕ) (hdest : dest + n ≤ 2 ^ 32) (hsrc : src + n ≤ 2 ^ 32) (m : Mem) :
    Overwrites dest n (fun i => m (src + i)) m (memmove dest src n m).2 ∧
    (dest + n ≤ src ∨ src + n ≤ dest → (memmove dest src n m).2 = memcpy peek poke dest src n m) ∧
    ((memmove dest src n m).1 = true ↔ src < dest) := by
  have hmoved : Overwrites dest n (fun i => m (src + i)) m (memmove dest src n m).2 := by
    rw [memmove]
    rcases Nat.lt_or_ge src dest with hbelow | habove
    · have hnothing : Moved dest src n n m m := ⟨fun i h1 h2 => by omega, fun _ _ => rfl⟩
      rw [if_neg (by omega)]
      exact (repMovsb_down hdest hsrc hbelow (Nat.le_refl n) hnothing).overwrites
    · have hnothing : Moved dest src 0 0 m m := ⟨fun i h1 h2 => by omega, fun _ _ => rfl⟩
      rw [if_pos habove]
      rcases Nat.eq_zero_or_pos n with rfl | hpos
      · exact .zero ..
      · have hgo := repMovsb_up (n := n) hdest hsrc habove hnothing
        rw [Nat.add_zero, Nat.add_zero, Nat.mod_eq_of_lt (by omega), Nat.mod_eq_of_lt (by omega), Nat.zero_add] at hgo
        exact hgo.overwrites
  refine ⟨hmoved, fun hapart => ?_, ?_⟩
  · refine hmoved.unique ?_
    rw [memcpy_eq_copyBytes hdest hsrc (separate_of_apart hapart)]
    exact copyBytes_overwrites hapart m
  · rw [memmove]
    split <;> simp <;> omega

/-- Seven bytes, three places up: the ranges overlap, and the copy goes downwards. -/
theorem memmove_moves_overlap :
    (∀ i < 7, (memmove 4 1 7 (literal [1, 2, 3, 4, 5, 6, 7, 8])).2 (4 + i)
      = literal [1, 2, 3, 4, 5, 6, 7, 8] (1 + i)) ∧
    (memmove 4 1 7 (literal [1, 2, 3, 4, 5, 6, 7, 8])).1 = true := by
  have hmoves := memmove_moves 4 1 7 (by decide) (by decide) (literal [1, 2, 3, 4, 5, 6, 7, 8])
  exact ⟨hmoves.1.inside, hmoves.2.2.mpr (by decide)⟩

end ClosKernel
