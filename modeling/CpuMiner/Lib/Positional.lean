/-
Module: CpuMiner.Lib.Positional
Layer: Library
Purpose: Numbers in positional notation. Of two numbers with the same count of digits, the greater one has the greater
  digit in the first place where they differ, counted from the most significant end; so a comparison can go through
  the digits from there and stop at the first difference.
Imports: Mathlib.Algebra.BigOperators.Fin, Mathlib.Data.Nat.Digits.Defs
Trusted boundary: none
Main exports: ofDigits_ofFn, sum_lt, ofDigits_reverse_cons_le_iff
Open obligations: none
-/
import Mathlib.Algebra.BigOperators.Fin
import Mathlib.Data.Nat.Digits.Defs

namespace Positional

open Nat (ofDigits)

/-- The number with these digits, the least significant one first, as a sum. -/
theorem ofDigits_ofFn (b : Nat) {n : Nat} (d : Fin n → Nat) :
    ofDigits b (List.ofFn d) = ∑ i, d i * b ^ i.val := by
  induction n with
  | zero => rfl
  | succ n ih =>
      rw [List.ofFn_succ, Nat.ofDigits_cons, ih, Fin.sum_univ_succ, Finset.mul_sum]
      congr 1
      · simp
      · refine Finset.sum_congr rfl fun i _ => ?_
        rw [Fin.val_succ, Nat.pow_succ]
        ac_rfl

/-- A number of `n` digits is below the `n`th power of the base. -/
theorem sum_lt {b n : Nat} (base : 1 < b) {d : Fin n → Nat} (bound : ∀ i, d i < b) :
    ∑ i, d i * b ^ i.val < b ^ n := by
  have digits : ∀ x ∈ List.ofFn d, x < b := by
    intro x listed
    obtain ⟨i, rfl⟩ := (List.mem_ofFn' _ _).mp listed
    exact bound i
  have below := Nat.ofDigits_lt_base_pow_length base digits
  rwa [ofDigits_ofFn, List.length_ofFn] at below

/-- With the most significant digits `x` and `y` first: a number is at most another one if its first digit is less,
    or the same and the rest is at most the rest. -/
theorem ofDigits_reverse_cons_le_iff {b x y : Nat} {xs ys : List Nat} (length : xs.length = ys.length)
    (hxs : ofDigits b xs.reverse < b ^ xs.length) (hys : ofDigits b ys.reverse < b ^ ys.length) :
    ofDigits b (x :: xs).reverse ≤ ofDigits b (y :: ys).reverse ↔
      x < y ∨ (x = y ∧ ofDigits b xs.reverse ≤ ofDigits b ys.reverse) := by
  rw [Nat.ofDigits_reverse_cons, Nat.ofDigits_reverse_cons, length]
  rw [length] at hxs
  rcases Nat.lt_trichotomy x y with less | rfl | greater
  · have step : b ^ ys.length * (x + 1) ≤ b ^ ys.length * y := Nat.mul_le_mul_left _ less
    rw [Nat.mul_succ] at step
    exact iff_of_true (by omega) (.inl less)
  · simp
  · have step : b ^ ys.length * (y + 1) ≤ b ^ ys.length * x := Nat.mul_le_mul_left _ greater
    rw [Nat.mul_succ] at step
    exact iff_of_false (by omega) (by omega)

end Positional
