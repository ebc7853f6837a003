import Mathlib.Data.Nat.Digits.Lemmas

/-!
# Numerals

The digits of a number as they are written, the most significant one first.  Mathlib has them in the other order
(`Nat.digits`), and without any for zero.

* `numeral_canonical`, `Canonical.eq_numeral` — there is one numeral without leading zeros;
* `numeral_length_le` — its length;
* `ofDigits_padded` — zeros in front do not change the value.
-/

namespace Numerals

/-- The numeral of a number. -/
def numeral (radix n : ℕ) : List ℕ := if n = 0 then [0] else (Nat.digits radix n).reverse

/-- Digits of the radix with the given value and without leading zeros. -/
structure Canonical (radix n : ℕ) (ds : List ℕ) : Prop where
  lt : ∀ d ∈ ds, d < radix
  value : Nat.ofDigits radix ds.reverse = n
  ne_nil : ds ≠ []
  leading : ds.head? = some 0 → ds = [0]

variable {radix n k : ℕ} {ds : List ℕ}

theorem numeral_zero (radix : ℕ) : numeral radix 0 = [0] := rfl

theorem numeral_of_pos (hn : 0 < n) : numeral radix n = (Nat.digits radix n).reverse := if_neg (by omega)

theorem numeral_canonical (hradix : 1 < radix) (n : ℕ) : Canonical radix n (numeral radix n) := by
  rcases Nat.eq_zero_or_pos n with rfl | hn
  · exact ⟨fun d hd => by rw [numeral_zero, List.mem_singleton] at hd; omega, by simp [numeral_zero],
      by simp [numeral_zero], fun _ => rfl⟩
  · rw [numeral_of_pos hn]
    have hne : Nat.digits radix n ≠ [] := Nat.digits_ne_nil_iff_ne_zero.mpr (by omega)
    refine ⟨fun d hd => Nat.digits_lt_base hradix (List.mem_reverse.mp hd), ?_, by simpa using hne, fun hzero => ?_⟩
    · rw [List.reverse_reverse, Nat.ofDigits_digits]
    · -- the leading digit is not zero
      rw [List.head?_reverse, List.getLast?_eq_some_getLast hne, Option.some_inj] at hzero
      exact absurd hzero (Nat.getLast_digit_ne_zero radix (by omega))

/-- **The numeral is the only one**: digits with the value and without leading zeros. -/
theorem Canonical.eq_numeral (hradix : 1 < radix) (h : Canonical radix n ds) : ds = numeral radix n := by
  rcases Nat.eq_zero_or_pos n with rfl | hn
  · -- only zeros have the value zero
    obtain ⟨d, rest, rfl⟩ := List.exists_cons_of_ne_nil h.ne_nil
    have hzero := h.value
    rw [Nat.ofDigits_reverse_cons] at hzero
    obtain rfl : d = 0 := by
      have hpow : 0 < radix ^ rest.length := Nat.pow_pos (by omega)
      have hmul : radix ^ rest.length * d = 0 := by omega
      exact (Nat.mul_eq_zero.mp hmul).resolve_left (by omega)
    exact h.leading rfl
  · rw [numeral_of_pos hn, ← h.value, Nat.digits_ofDigits radix hradix ds.reverse, List.reverse_reverse]
    · exact fun d hd => h.lt d (List.mem_reverse.mp hd)
    · intro hne hlast
      have hhead : ds.head? = some 0 := by
        rw [← List.getLast?_reverse, List.getLast?_eq_some_getLast hne, hlast]
      have hvalue := h.value
      rw [h.leading hhead] at hvalue
      simp at hvalue
      omega

theorem numeral_length_le (hradix : 1 < radix) (hk : 0 < k) (hn : n < radix ^ k) : (numeral radix n).length ≤ k := by
  rcases Nat.eq_zero_or_pos n with rfl | hpos
  · exact hk
  · rw [numeral_of_pos hpos, List.length_reverse]
    exact (Nat.digits_length_le_iff hradix n).mpr hn

/-- Zeros in front do not change the value. -/
theorem ofDigits_padded (radix m : ℕ) (ds : List ℕ) :
    Nat.ofDigits radix (List.replicate m 0 ++ ds).reverse = Nat.ofDigits radix ds.reverse := by
  rw [List.reverse_append, List.reverse_replicate, Nat.ofDigits_append_replicate_zero]

end Numerals
