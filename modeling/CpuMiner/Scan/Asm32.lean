/-
Module: CpuMiner.Scan.Asm32
Layer: Scans
Purpose: `scanhash_asm32`, which is the loop of `scanhash_cryptopp` with the assembly kernel for 32-bit x86. The
  kernel leaves what `SHA256_Transform` leaves, so the scan has the same hashes (`asm32Hashes_eq`).
Imports: CpuMiner.Kernel.Asm32Transform, CpuMiner.Scan.Plain
Trusted boundary: human-reviewed spec (the transcription of the C code)
Main exports: Asm32Call, asm32Runhash, asm32Hashes, scanhashAsm32, asm32Hashes_eq, scanhashAsm32_eq
Open obligations: none
-/
import CpuMiner.Kernel.Asm32Transform
import CpuMiner.Scan.Plain

namespace CpuMiner.Scan

open Words
open Sha256
open X86

/-- What a call of the kernel finds: the machine as the compiler's code has left it, and its stack pointer. -/
structure Asm32Call where
  caller : Machine Asm32.Object
  sp : Int

/-- The word in a dword of an array. -/
def wordOf : Value Asm32.Object → Word
  | .word w => w
  | .ptr _ _ | .unknown => 0

/-- `runhash32`, as the loop uses it: the words that it leaves in `state`. It has returned after eight basic blocks,
    and with fewer there are no words. -/
def asm32Runhash (blocks : Nat) (call : Asm32Call) (input : Pointer) (init : HashValue) : HashValue :=
  match Asm32.runhash32 blocks call.caller call.sp input init with
  | some state => fun i => wordOf (state i)
  | none => fun _ => 0

/-- The two calls of `runhash32` in a pass. The array `hash1` has room for eight words; `behind` is what the stack
    holds after it. -/
def asm32Hashes (blocks : Nat) (calls : Nat → Asm32Call × Asm32Call) (midstate : HashValue)
    (behind : Nat → Nat → Word) (pass : Nat) (data : Block) : Nat × HashValue :=
  let hash1 := asm32Runhash blocks (calls pass).1 (Pointer.toObject data fun _ => 0) midstate
  (pass + 1, asm32Runhash blocks (calls pass).2 (Pointer.toObject hash1 (behind pass)) Generic.sha256InitState)

/-- `scanhash_asm32`. -/
def scanhashAsm32 (blocks : Nat) (calls : Nat → Asm32Call × Asm32Call) (midstate : HashValue) (data : Block)
    (hash : HashValue) (target : Fin 8 → Word) (maxNonce : Word) (restart : Nat → Bool)
    (behind : Nat → Nat → Word) (passes : Nat) : Option (Scanned Bool 16) :=
  plainScan (asm32Hashes blocks calls midstate behind) target maxNonce restart data hash 0 passes

theorem asm32Runhash_eq (blocks : Nat) (call : Asm32Call) (input : Pointer) (init : HashValue) :
    asm32Runhash (8 + blocks) call input init = (Cryptopp.runhash input init).state := by
  rw [asm32Runhash, Asm32.runhash32, Asm32.sha256Transform32_eq]
  rfl

/-- The hashes are those of `scanhash_cryptopp`. -/
theorem asm32Hashes_eq (blocks : Nat) (calls : Nat → Asm32Call × Asm32Call) (midstate : HashValue)
    (behind : Nat → Nat → Word) :
    asm32Hashes (8 + blocks) calls midstate behind = plainHashes .cryptopp midstate behind := by
  funext pass data
  rw [asm32Hashes, asm32Runhash_eq, asm32Runhash_eq]
  rfl

/-- The scan is `scanhash_cryptopp`. -/
theorem scanhashAsm32_eq (blocks : Nat) (calls : Nat → Asm32Call × Asm32Call) (midstate : HashValue) (data : Block)
    (hash : HashValue) (target : Fin 8 → Word) (maxNonce : Word) (restart : Nat → Bool)
    (behind : Nat → Nat → Word) (passes : Nat) :
    scanhashAsm32 (8 + blocks) calls midstate data hash target maxNonce restart behind passes =
      scanhashCryptopp midstate data hash target maxNonce restart behind passes := by
  rw [scanhashAsm32, asm32Hashes_eq]
  rfl

end CpuMiner.Scan
