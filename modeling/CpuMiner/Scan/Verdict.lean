/-
Module: CpuMiner.Scan.Verdict
Layer: Scans
Purpose: What `fulltest` is given by `ScanHash_4WaySSE2`. The second block of the kernel leaves out the last three
  rounds ("not necessary for H==0"), so of the eight words in `phash` only 7 and 3 are those of the double hash.
  With word 7 zero, every target from 2^224 - 1 on gets the right verdict all the same; a smaller one does when it is
  not between the two numbers (`lane_verdict`).
Imports: CpuMiner.Scan.FourWay
Trusted boundary: none
Main exports: laneDoubleHash, laneHash_eq, hashNumber_lt_of_seven, lane_verdict, lane_verdict_differs
Open obligations: none
-/
import CpuMiner.Scan.FourWay

namespace CpuMiner.Scan

open Words
open Sha256
open FourWay

/-- The double hash for the nonce of lane `j`. -/
def laneDoubleHash (In Pad : Block) (hPre : HashValue) (j : Fin npar) : HashValue :=
  compress initialHash (digestBlock (compress hPre (withNonce In (In 3 + BitVec.ofNat 32 j))) Pad)

/-- The words that lane `j` hands to `fulltest`. -/
theorem laneHash_eq (In Pad : Block) (hPre : HashValue) (j : Fin npar) :
    laneHash (doubleBlockSHA256 In Pad hPre initialHash) j =
      stoppedCompress initialHash
        (digestBlock (compress hPre (withNonce In (In 3 + BitVec.ofNat 32 j))) Pad) := by
  funext i
  exact doubleBlockSHA256_word In Pad hPre initialHash j i

/-- Without its most significant word, a hash is below 2^224. -/
theorem hashNumber_lt_of_seven {hash : HashValue} (zero : hash 7 = 0) : hashNumber hash < 2 ^ 224 := by
  have swapped : (swab32 (hash 7)).toNat = 0 := by
    rw [zero]
    decide
  have rest := Positional.sum_lt (b := 2 ^ 32) (by decide) fun i : Fin 7 => (swab32 (hash i.castSucc)).isLt
  rw [hashNumber, Fin.sum_univ_castSucc, show Fin.last 7 = 7 from rfl, swapped, Nat.zero_mul, Nat.add_zero,
    show 224 = 32 * 7 from rfl, Nat.pow_mul]
  simpa only [Nat.pow_mul, Fin.val_castSucc] using rest

/-- Two verdicts are the same if and only if the target is not between the two numbers. -/
theorem rc_eq_iff (hash hash' target : Fin 8 → Word) :
    (runFulltest hash target).rc = (runFulltest hash' target).rc ↔
      (hashNumber hash ≤ targetNumber target ↔ hashNumber hash' ≤ targetNumber target) := by
  rw [← fulltest_rc_iff, ← fulltest_rc_iff]
  exact Bool.eq_iff_iff

/-- In every lane with a zero word 7, the words that `fulltest` is given are those of the double hash without the last
    three rounds; words 7 and 3 are final. The verdict on them is the one on the double hash exactly for the targets
    that are not between the two numbers, and so for every target from 2^224 - 1 on. -/
theorem lane_verdict (In Pad : Block) (hPre : HashValue) (target : Fin 8 → Word) (j : Fin npar)
    (zero : doubleBlockSHA256 In Pad hPre initialHash 7 j = 0) :
    let stored := laneHash (doubleBlockSHA256 In Pad hPre initialHash) j
    let double := laneDoubleHash In Pad hPre j
    (stored = stoppedCompress initialHash
        (digestBlock (compress hPre (withNonce In (In 3 + BitVec.ofNat 32 j))) Pad) ∧
      stored 7 = double 7 ∧ stored 3 = double 3) ∧
    ((runFulltest stored target).rc = (runFulltest double target).rc ↔
      (hashNumber stored ≤ targetNumber target ↔ hashNumber double ≤ targetNumber target)) ∧
    (2 ^ 224 - 1 ≤ targetNumber target → (runFulltest stored target).rc = (runFulltest double target).rc) := by
  intro stored double
  have words : stored = _ := laneHash_eq In Pad hPre j
  have seven : stored 7 = double 7 := by
    rw [words]
    exact stoppedCompress_seven _ _
  have three : stored 3 = double 3 := by
    rw [words]
    exact stoppedCompress_three _ _
  refine ⟨⟨words, seven, three⟩, rc_eq_iff stored double target, fun high => ?_⟩
  have storedLow : hashNumber stored < 2 ^ 224 := hashNumber_lt_of_seven zero
  have doubleLow : hashNumber double < 2 ^ 224 := hashNumber_lt_of_seven (seven.symm.trans zero)
  rw [rc_eq_iff]
  exact iff_of_true (by omega) (by omega)

/-- A block with nonce 32 whose double hash has word 7 zero, the padding of the digest, and the midstate of a first
    block of zeros. -/
def exampleIn : Block := fun i =>
  if i = 0 then 1 else if i = 2 then 0x373e790f else if i = 3 then 32 else if i = 4 then 0x80000000
  else if i = 15 then 640 else 0

def examplePad : Block := fun i => if i = 8 then 0x80000000 else if i = 15 then 256 else 0

def examplePre : HashValue := compress initialHash fun _ => 0

private theorem example_zero : doubleBlockSHA256 exampleIn examplePad examplePre initialHash 7 0 = 0 := by
  rw [doubleBlockSHA256_seven]
  decide +kernel

theorem lane_verdict_example :
    (runFulltest (laneHash (doubleBlockSHA256 exampleIn examplePad examplePre initialHash) 0) fun _ => 1).rc =
      (runFulltest (laneDoubleHash exampleIn examplePad examplePre 0) fun _ => 1).rc :=
  (lane_verdict exampleIn examplePad examplePre (fun _ => 1) 0 example_zero).2.2 (by decide +kernel)

/-- A target of 0xc0000000 in word 6 is met by the stored words and not by the double hash. -/
theorem lane_verdict_differs :
    ¬ ∀ (In Pad : Block) (hPre : HashValue) (target : Fin 8 → Word) (j : Fin npar),
      doubleBlockSHA256 In Pad hPre initialHash 7 j = 0 →
        (runFulltest (laneHash (doubleBlockSHA256 In Pad hPre initialHash) j) target).rc =
          (runFulltest (laneDoubleHash In Pad hPre j) target).rc := by
  intro same
  have verdicts := same exampleIn examplePad examplePre (fun i => if i = 6 then 0xc0000000 else 0) 0 example_zero
  rw [laneHash_eq] at verdicts
  exact absurd verdicts (by decide +kernel)

end CpuMiner.Scan
