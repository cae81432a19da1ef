/-
Module: CpuMiner.Miner.Workload
Layer: Miner
Purpose: How `miner_thread` adjusts `max_nonce` to the target scan time. `elapsed_and_bound_exact` says that the elapsed
  time and the new bound are what they should be, without overflow.
Imports: CpuMiner.Lib.Words, CpuMiner.Util.Timeval
Trusted boundary: human-reviewed spec (the transcription of the C code)
Main exports: roundSeconds, adjustMaxNonce, adjustMaxNonce_toNat, adjustMaxNonce_eq_or_le, roundSeconds_spec,
  elapsed_and_bound_exact
Open obligations: none
-/
import CpuMiner.Lib.Words
import CpuMiner.Util.Timeval

namespace CpuMiner

open Words

/-! ### The adjustment -/

/-- `if (diff.tv_usec > 500000) diff.tv_sec++;` -/
def roundSeconds (diff : Timeval) : Int := if diff.tvUsec > 500000 then diff.tvSec + 1 else diff.tvSec

/-- `max64`: the product is one of 64-bit numbers, and the divisor is positive here. -/
def max64 (hashesDone : Nat) (optScantime seconds : Int) : Int :=
  let max64 := hashesDone * optScantime % 0x10000000000000000 / seconds
  if max64 > 0xfffffffa then 0xfffffffa else max64

/-- The new `max_nonce` after a scan. -/
def adjustMaxNonce (maxNonce : Word) (diff : Timeval) (hashesDone : Nat) (optScantime : Int) : Word :=
  let seconds := roundSeconds diff
  if seconds > 0 then BitVec.ofInt 32 (max64 hashesDone optScantime seconds) else maxNonce

section

variable {maxNonce : Word} {diff : Timeval} {hashesDone : Nat} {optScantime : Int}

theorem adjustMaxNonce_of_nonpos (short : roundSeconds diff ≤ 0) :
    adjustMaxNonce maxNonce diff hashesDone optScantime = maxNonce := if_neg (by omega)

/-- The bound for a scan that took a positive number of seconds. -/
theorem adjustMaxNonce_toNat (few : hashesDone < 0x100000000) (low : 1 ≤ optScantime) (high : optScantime ≤ 9999)
    (long : 0 < roundSeconds diff) :
    ((adjustMaxNonce maxNonce diff hashesDone optScantime).toNat : Int) =
      min 0xfffffffa (hashesDone * optScantime / roundSeconds diff) := by
  have product : (hashesDone : Int) * optScantime < 0x10000000000000000 := by
    have factor : (hashesDone : Int) * optScantime ≤ hashesDone * 9999 := Int.mul_le_mul_of_nonneg_left high (by omega)
    omega
  have positive : 0 ≤ (hashesDone : Int) * optScantime := Int.mul_nonneg (by omega) (by omega)
  have quotient : 0 ≤ (hashesDone : Int) * optScantime / roundSeconds diff :=
    Int.ediv_nonneg positive (Int.le_of_lt long)
  rw [adjustMaxNonce, if_pos long, max64, Int.emod_eq_of_lt positive product, BitVec.toNat_ofInt]
  split
  · omega
  · omega

/-- The bound stays, or the new one is at most the cap. -/
theorem adjustMaxNonce_eq_or_le :
    adjustMaxNonce maxNonce diff hashesDone optScantime = maxNonce ∨
      adjustMaxNonce maxNonce diff hashesDone optScantime ≤ 0xfffffffa := by
  by_cases long : 0 < roundSeconds diff
  · refine .inr ?_
    have cap : (0xfffffffa : Word).toNat = 0xfffffffa := rfl
    have wrapped : 0 ≤ (hashesDone : Int) * optScantime % 0x10000000000000000 := Int.emod_nonneg _ (by decide)
    have quotient : 0 ≤ (hashesDone : Int) * optScantime % 0x10000000000000000 / roundSeconds diff :=
      Int.ediv_nonneg wrapped (Int.le_of_lt long)
    rw [BitVec.le_def, cap, adjustMaxNonce, if_pos long, max64, BitVec.toNat_ofInt]
    split
    · omega
    · omega
  · exact .inl (adjustMaxNonce_of_nonpos (by omega))

/-- The seconds are the nearest ones; half a second rounds down. -/
theorem roundSeconds_spec (normalized : diff.Normalized) :
    -500000 < diff.micros - 1000000 * roundSeconds diff ∧ diff.micros - 1000000 * roundSeconds diff ≤ 500000 := by
  obtain ⟨low, high⟩ := normalized
  rw [roundSeconds, Timeval.micros]
  split
  · omega
  · omega

end

/-- For two normalized readings of the clock, in either order: the difference is exact and normalized and comes with
    its sign; no second that is computed leaves the range of the readings by more than their difference can; and the
    new bound is the quotient by the rounded seconds, up to the cap, or the old one when they are not positive. -/
theorem elapsed_and_bound_exact (tvEnd tvStart : Timeval) (hEnd : tvEnd.Normalized) (hStart : tvStart.Normalized)
    (maxNonce : Word) (hashesDone : Nat) (few : hashesDone < 0x100000000) (optScantime : Int) (low : 1 ≤ optScantime)
    (high : optScantime ≤ 9999) :
    let subtracted := timevalSubtract tvEnd tvStart
    let diff := subtracted.result
    let s := roundSeconds diff
    (diff.micros = tvEnd.micros - tvStart.micros ∧ diff.Normalized ∧
      (subtracted.ret = 1 ↔ tvEnd.micros < tvStart.micros) ∧ (subtracted.ret = 1 ∨ subtracted.ret = 0)) ∧
    (∀ bound, tvEnd.Within bound → tvStart.Within bound →
      subtracted.y.Within (bound + 1) ∧ diff.Within (2 * bound + 1)) ∧
    (-500000 < diff.micros - 1000000 * s ∧ diff.micros - 1000000 * s ≤ 500000) ∧
    hashesDone * optScantime < 0x10000000000000000 ∧
    (0 < s → ((adjustMaxNonce maxNonce diff hashesDone optScantime).toNat : Int) =
      min 0xfffffffa (hashesDone * optScantime / s)) ∧
    (s ≤ 0 → adjustMaxNonce maxNonce diff hashesDone optScantime = maxNonce) := by
  intro subtracted diff s
  obtain ⟨result, ret⟩ := timevalSubtract_exact hEnd hStart
  have normalized : diff.Normalized := by
    have ofMicros := Timeval.ofMicros_normalized (tvEnd.micros - tvStart.micros)
    rwa [← result] at ofMicros
  refine ⟨⟨?_, normalized, ?_, ?_⟩, ?_, roundSeconds_spec normalized, ?_, ?_, adjustMaxNonce_of_nonpos⟩
  · exact (congrArg Timeval.micros result).trans (Timeval.micros_ofMicros _)
  · rw [show subtracted.ret = _ from ret]
    split
    · exact iff_of_true rfl (by assumption)
    · exact iff_of_false (by decide) (by assumption)
  · rw [show subtracted.ret = _ from ret]
    split
    · exact .inl rfl
    · exact .inr rfl
  · exact fun bound endRange startRange => timevalSubtract_range hEnd hStart endRange startRange
  · have factor : (hashesDone : Int) * optScantime ≤ hashesDone * 9999 :=
      Int.mul_le_mul_of_nonneg_left high (by omega)
    omega
  · exact adjustMaxNonce_toNat few low high

/-- A scan of 10000001 hashes in 2.6 seconds, across a second of the clock. -/
theorem elapsed_and_bound_exact_example :
    (timevalSubtract ⟨12, 300000⟩ ⟨9, 700000⟩).result.micros = 2600000 ∧
      (adjustMaxNonce 0xffffff (timevalSubtract ⟨12, 300000⟩ ⟨9, 700000⟩).result 10000001 5).toNat = 16666668 := by
  obtain ⟨⟨micros, _⟩, _, _, _, bound, _⟩ := elapsed_and_bound_exact ⟨12, 300000⟩ ⟨9, 700000⟩
    ⟨by decide, by decide⟩ ⟨by decide, by decide⟩ 0xffffff 10000001 (by decide) 5 (by decide) (by decide)
  exact ⟨micros, Int.ofNat.inj (bound (by decide))⟩

end CpuMiner
