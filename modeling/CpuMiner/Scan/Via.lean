/-
Module: CpuMiner.Scan.Via
Layer: Scans
Purpose: `scanhash_via`, which gives whole messages to the hash instruction of the VIA processor. The instruction
  is a parameter; it takes the state in `hash` and the bytes it reads. The loop is the scalar loop on a
  byte-swapped copy of the data.
Imports: CpuMiner.Kernel.Generic, CpuMiner.Scan.Scalar, CpuMiner.Util.Fulltest
Trusted boundary: human-reviewed spec (the transcription of the C code)
Main exports: viaSha256, viaHashes, viaScan, scanhashVia
Open obligations: none
-/
import CpuMiner.Kernel.Generic
import CpuMiner.Scan.Scalar
import CpuMiner.Util.Fulltest

namespace CpuMiner.Scan

open Words
open Sha256

/-- The bytes of an array of words in memory. -/
def bytesOf {n : Nat} (words : Fin n → Word) : List Byte := (List.ofFn words).flatMap leBytes

/-- `via_sha256`: the instruction hashes `len` bytes of `buf`, from the state in `hash`. -/
def viaSha256 (instruction : HashValue → List Byte → HashValue) (hash : HashValue) (buf : List Byte)
    (len : Nat) : HashValue := instruction hash (buf.take len)

/-- Both hashes of a pass. The words of the first result are swapped before they are hashed. -/
def viaHashes (instruction : HashValue → List Byte → HashValue) (data32 : Fin 32 → Word) : HashValue :=
  let tmpHash1 := viaSha256 instruction Generic.sha256InitState (bytesOf data32) 80
  let swapped := fun i => swab32 (tmpHash1 i)
  viaSha256 instruction Generic.sha256InitState (bytesOf swapped) 32

/-- What stands around the loop, with the nonce in word 64/4 + 3; the test is filled in by `against`. -/
def viaEnv {κ : Type} (runhashes : κ → (Fin 32 → Word) → κ × HashValue) (maxNonce : Word)
    (restart : Nat → Bool) : ScalarEnv κ 32 where
  runhashes := runhashes
  fulltest _ _ := true
  maxNonce := maxNonce
  restart := restart
  nonceAt := 19

/-- The scan, with the hashes of a pass as a parameter. The loop works on the swapped copy `data`; on
    success the copy is swapped back into `data_inout`. -/
def viaScan {κ : Type} (runhashes : κ → (Fin 32 → Word) → κ × HashValue) (target : Fin 8 → Word)
    (maxNonce : Word) (restart : Nat → Bool) (dataInout : Fin 32 → Word) (tmpHash : HashValue)
    (hasher : κ) (passes : Nat) : Option (Scanned Bool 32) :=
  let data32 := fun i => swab32 (dataInout i)
  (scalarScan ((viaEnv runhashes maxNonce restart).against target) data32 tmpHash hasher passes).map
    fun out =>
      { out with data := if out.ret = true then fun i => swab32 (out.data i) else dataInout }

/-- `scanhash_via`. The array `tmp_hash` is on the stack and holds anything before the first pass. -/
def scanhashVia (instruction : HashValue → List Byte → HashValue) (dataInout : Fin 32 → Word)
    (target : Fin 8 → Word) (maxNonce : Word) (restart : Nat → Bool) (tmpHash : HashValue)
    (passes : Nat) : Option (Scanned Bool 32) :=
  viaScan (fun (_ : Unit) data32 => ((), viaHashes instruction data32)) target maxNonce restart dataInout
    tmpHash () passes

/-! ### What the two calls hash -/

/-- Whole words of a buffer. -/
theorem take_leBytes (n : Nat) (ws : List Word) :
    (ws.flatMap leBytes).take (4 * n) = (ws.take n).flatMap leBytes := by
  induction ws generalizing n with
  | nil => simp
  | cons w ws ih =>
      cases n with
      | zero => rfl
      | succ n =>
          have split : 4 * (n + 1) = 4 * n + 4 := by omega
          rw [split, List.take_succ_cons, List.flatMap_cons, List.flatMap_cons, ← ih n]
          rfl

/-- The bytes of the swapped words of a hash value are its digest bytes. -/
theorem bytesOf_swab32 (H : HashValue) : bytesOf (fun i => swab32 (H i)) = wordBytes (List.ofFn H) := by
  have swapped : List.ofFn (fun i => swab32 (H i)) = (List.ofFn H).map swab32 := by
    rw [List.map_ofFn]
    rfl
  rw [bytesOf, swapped, List.flatMap_map, wordBytes]
  congr 1
  funext w
  exact leBytes_swab32 w

/-- If the instruction hashes messages, a pass computes the double hash of the first eighty bytes. -/
theorem viaHashes_eq {instruction : HashValue → List Byte → HashValue}
    (hashes : ∀ m, instruction initialHash m = hashWords m) (data32 : Fin 32 → Word) :
    viaHashes instruction data32 = hashWords (sha256 ((bytesOf data32).take 80)) := by
  simp only [viaHashes, viaSha256, Generic.sha256InitState_eq, hashes, bytesOf_swab32]
  rw [List.take_of_length_le (by simp)]
  rfl

end CpuMiner.Scan
