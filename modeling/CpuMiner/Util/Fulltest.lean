/-
Module: CpuMiner.Util.Fulltest
Layer: Utilities
Purpose: `fulltest` of util.c, and the two 256-bit numbers it compares. The loop computes a verdict `rc`, which
  goes to the debug log; what is returned is true. The loop swaps the words of its copy of the target as it goes,
  for printing (`fulltestLoop`); its verdict is that of the comparison word by word (`fulltestLoop_rc`), and this is
  the order of the two numbers (`fulltestLoop_rc_iff`).
Imports: CpuMiner.Lib.Positional, CpuMiner.Lib.Sha256, Mathlib.Algebra.BigOperators.Fin
Trusted boundary: human-reviewed spec (the transcription of the C code)
Main exports: swap256, runFulltest, fulltest, hashNumber, targetNumber, fulltestLoop, compareWords_iff,
  fulltest_rc_iff, fulltestLoop_rc_iff
Open obligations: none
-/
import CpuMiner.Lib.Positional
import CpuMiner.Lib.Sha256
import Mathlib.Algebra.BigOperators.Fin

namespace CpuMiner

open Words
open Sha256

/-- `swap256`: the eight words in the opposite order. -/
def swap256 (src : Fin 8 → Word) : Fin 8 → Word := fun i => src i.rev

/-- The loop of `fulltest` from the words that are left, with the value of `rc` so far. -/
def compareWords (hash32 target32 : Fin 8 → Word) : List (Fin 8) → Bool → Bool
  | [], rc => rc
  | i :: is, rc =>
      let h32tmp := swab32 (hash32 i)
      let t32tmp := target32 i
      if h32tmp > t32tmp then false
      else if h32tmp < t32tmp then true
      else compareWords hash32 target32 is rc

/-- What `fulltest` logs as its verdict, and what it returns. -/
structure FulltestRun where
  rc : Bool
  result : Bool

/-- `fulltest` ends with `return true; /* FIXME: return rc; */`. -/
def runFulltest (hash target : Fin 8 → Word) : FulltestRun where
  rc := compareWords (swap256 hash) (swap256 target) (List.finRange 8) true
  result := true

def fulltest (hash target : Fin 8 → Word) : Bool := (runFulltest hash target).result

/-- The hash as a number: word 7 is the most significant one, and each word is big-endian. -/
def hashNumber (hash : Fin 8 → Word) : Nat := ∑ i, (swab32 (hash i)).toNat * 2 ^ (32 * i.val)

/-- The target as a little-endian number. -/
def targetNumber (target : Fin 8 → Word) : Nat := ∑ i, (target i).toNat * 2 ^ (32 * i.val)

/-! ### The loop with its stores -/

/-- What the loop leaves. -/
structure FulltestLoop where
  rc : Bool
  target32 : Fin 8 → Word

/-- The loop of `fulltest` from the words that are left. Each pass swaps its word of `target32`, after it has read
    it. -/
def fulltestLoop (hash32 : Fin 8 → Word) : List (Fin 8) → FulltestLoop → FulltestLoop
  | [], s => s
  | i :: is, s =>
      let h32tmp := swab32 (hash32 i)
      let t32tmp := s.target32 i
      let target32 := Function.update s.target32 i (swab32 (s.target32 i))
      if h32tmp > t32tmp then { rc := false, target32 }
      else if h32tmp < t32tmp then { rc := true, target32 }
      else fulltestLoop hash32 is { s with target32 }

/-- The loop of `fulltest` on its two swapped copies. -/
def loopOfFulltest (hash target : Fin 8 → Word) : FulltestLoop :=
  fulltestLoop (swap256 hash) (List.finRange 8) { rc := true, target32 := swap256 target }

/-- A word that is not compared any more does not matter. -/
theorem compareWords_update {hash32 target32 : Fin 8 → Word} {i : Fin 8} (w : Word) :
    ∀ {is : List (Fin 8)} (rc : Bool), i ∉ is →
      compareWords hash32 (Function.update target32 i w) is rc = compareWords hash32 target32 is rc := by
  intro is
  induction is with
  | nil => exact fun _ _ => rfl
  | cons j is ih =>
      intro rc outside
      have rest : i ∉ is := fun later => outside (List.mem_cons_of_mem j later)
      have other : j ≠ i := fun equal => outside (equal ▸ List.mem_cons_self)
      have same : Function.update target32 i w j = target32 j := Function.update_of_ne other ..
      simp only [compareWords, same, ih rc rest]

/-- The stores do not reach a word before it is compared. -/
theorem fulltestLoop_rc {hash32 : Fin 8 → Word} :
    ∀ {is : List (Fin 8)} (s : FulltestLoop), is.Nodup →
      (fulltestLoop hash32 is s).rc = compareWords hash32 s.target32 is s.rc := by
  intro is
  induction is with
  | nil => exact fun _ _ => rfl
  | cons i is ih =>
      intro s distinct
      obtain ⟨once, rest⟩ := List.nodup_cons.mp distinct
      simp only [fulltestLoop, compareWords]
      split
      · rfl
      · split
        · rfl
        · rw [ih _ rest, compareWords_update _ _ once]

/-! ### The order of the numbers -/

/-- The number of the words at these places, the most significant one first. -/
private def wordsNumber (word : Fin 8 → Word) (is : List (Fin 8)) : Nat :=
  Nat.ofDigits (2 ^ 32) (is.map fun i => (word i).toNat).reverse

private theorem wordsNumber_lt (word : Fin 8 → Word) (is : List (Fin 8)) :
    wordsNumber word is < (2 ^ 32) ^ (is.map fun i => (word i).toNat).length := by
  have bound : ∀ d ∈ (is.map fun i => (word i).toNat).reverse, d < 2 ^ 32 := by
    intro d listed
    obtain ⟨i, _, rfl⟩ := List.mem_map.mp (List.mem_reverse.mp listed)
    exact (word i).isLt
  have below := Nat.ofDigits_lt_base_pow_length (by decide) bound
  rwa [List.length_reverse] at below

/-- The verdict on equal words is true, so the loop says whether the number of the swapped hash words is at most that
    of the target words. -/
theorem compareWords_iff (hash32 target32 : Fin 8 → Word) (is : List (Fin 8)) :
    compareWords hash32 target32 is true = true ↔
      wordsNumber (fun i => swab32 (hash32 i)) is ≤ wordsNumber target32 is := by
  induction is with
  | nil => exact iff_of_true rfl (Nat.le_refl 0)
  | cons i is ih =>
      have order := Positional.ofDigits_reverse_cons_le_iff (x := (swab32 (hash32 i)).toNat)
        (y := (target32 i).toNat) (by rw [List.length_map, List.length_map])
        (wordsNumber_lt (fun i => swab32 (hash32 i)) is) (wordsNumber_lt target32 is)
      rw [wordsNumber, wordsNumber, List.map_cons, List.map_cons, order]
      simp only [compareWords]
      split
      · rename_i greater
        have above := BitVec.lt_def.mp greater
        exact iff_of_false (by simp) (by omega)
      · rename_i notGreater
        split
        · rename_i less
          exact iff_of_true rfl (.inl (BitVec.lt_def.mp less))
        · rename_i notLess
          have same : (swab32 (hash32 i)).toNat = (target32 i).toNat := by
            simp only [gt_iff_lt, BitVec.lt_def] at notGreater notLess
            omega
          rw [ih]
          exact ⟨fun rest => .inr ⟨same, rest⟩, fun either => either.elim (by omega) And.right⟩

/-- The words of a swapped array, in the order of the loop, are those of the array from the most significant one
    down. -/
private theorem wordsNumber_swap256 (word : Fin 8 → Word) :
    wordsNumber (swap256 word) (List.finRange 8) = ∑ i, (word i).toNat * 2 ^ (32 * i.val) := by
  have order : ((List.finRange 8).map fun i => (swap256 word i).toNat).reverse =
      List.ofFn fun i => (word i).toNat := rfl
  rw [wordsNumber, order, Positional.ofDigits_ofFn]
  exact Finset.sum_congr rfl fun i _ => by rw [Nat.pow_mul]

/-- The verdict of `fulltest` is whether the hash is at most the target. -/
theorem fulltest_rc_iff (hash target : Fin 8 → Word) :
    (runFulltest hash target).rc = true ↔ hashNumber hash ≤ targetNumber target := by
  have words := compareWords_iff (swap256 hash) (swap256 target) (List.finRange 8)
  rwa [wordsNumber_swap256, show (fun i => swab32 (swap256 hash i)) = swap256 fun i => swab32 (hash i) from rfl,
    wordsNumber_swap256] at words

theorem loopOfFulltest_rc (hash target : Fin 8 → Word) :
    (loopOfFulltest hash target).rc = (runFulltest hash target).rc :=
  fulltestLoop_rc _ (List.nodup_finRange 8)

/-- For all 32-byte hashes and targets, the loop leaves in `rc` whether the number of the swapped hash words is at most
    the number of the target words, and this is the verdict that is logged. -/
theorem fulltestLoop_rc_iff (hash target : Buf 32) :
    ((loopOfFulltest (Buf.words (n := 8) hash) (Buf.words (n := 8) target)).rc = true ↔
        hashNumber (Buf.words (n := 8) hash) ≤ targetNumber (Buf.words (n := 8) target)) ∧
      (runFulltest (Buf.words (n := 8) hash) (Buf.words (n := 8) target)).rc =
        (loopOfFulltest (Buf.words (n := 8) hash) (Buf.words (n := 8) target)).rc := by
  rw [loopOfFulltest_rc]
  exact ⟨fulltest_rc_iff _ _, rfl⟩

end CpuMiner
