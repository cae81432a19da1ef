/-
Module: CpuMiner.Scan.Plain
Layer: Scans
Purpose: `scanhash_c` and `scanhash_cryptopp`, which differ in the transform only. Both keep the first hash in a
  local array `hash1` of 32 bytes and pass it to a transform that reads 64. `secondCall_reads` says which words
  of the second call lie behind the array, and `secondCall_never_sound` that the call is never what a double
  hash needs, whatever lies there.
Imports: CpuMiner.Kernel.Cryptopp, CpuMiner.Kernel.FourWay, CpuMiner.Scan.Scalar, CpuMiner.Util.Fulltest
Trusted boundary: human-reviewed spec (the transcription of the C code)
Main exports: PlainBackend, hashPass, plainScan, scanhashC, scanhashCryptopp, SecondCallSound, secondCall_reads,
  secondCall_never_sound
Open obligations: none
-/
import CpuMiner.Kernel.Cryptopp
import CpuMiner.Kernel.FourWay
import CpuMiner.Scan.Scalar
import CpuMiner.Util.Fulltest

namespace CpuMiner.Scan

open Words
open Sha256
open FourWay

/-- The two files with this scan loop. -/
inductive PlainBackend where
  | c
  | cryptopp
deriving DecidableEq

def PlainBackend.runhash : PlainBackend → Pointer → HashValue → Transformed
  | .c => Generic.runhash
  | .cryptopp => Cryptopp.runhash

/-- The two calls of `runhash` in a pass. -/
structure HashPass where
  first : Transformed
  hash1 : Pointer
  second : Transformed

/-- `runhash(hash1, data, midstate); runhash(hash, hash1, sha256_init_state);`. The array `hash1` has room for
    the eight words of the first result; `behind` is what the stack holds after it. The words after the 64 bytes
    of `data` are not read. -/
def hashPass (backend : PlainBackend) (midstate : HashValue) (data : Block) (behind : Nat → Word) :
    HashPass :=
  let first := backend.runhash (Pointer.toObject data fun _ => 0) midstate
  let hash1 := Pointer.toObject first.state behind
  { first, hash1, second := backend.runhash hash1 Generic.sha256InitState }

/-- What stands around the loop in both files; the test is filled in by `against`. -/
def plainEnv {κ : Type} (runhashes : κ → Block → κ × HashValue) (maxNonce : Word)
    (restart : Nat → Bool) : ScalarEnv κ 16 where
  runhashes := runhashes
  fulltest _ _ := true
  maxNonce := maxNonce
  restart := restart
  nonceAt := 3

/-- The scan of both files, with the hashes of a pass as a parameter. -/
def plainScan {κ : Type} (runhashes : κ → Block → κ × HashValue) (target : Fin 8 → Word)
    (maxNonce : Word) (restart : Nat → Bool) (data : Block) (hash : HashValue) (hasher : κ)
    (passes : Nat) : Option (Scanned Bool 16) :=
  scalarScan ((plainEnv runhashes maxNonce restart).against target) data hash hasher passes

/-- The hashes of a pass. The contents of the stack behind `hash1` may be different in every pass. -/
def plainHashes (backend : PlainBackend) (midstate : HashValue) (behind : Nat → Nat → Word) (pass : Nat)
    (data : Block) : Nat × HashValue :=
  (pass + 1, (hashPass backend midstate data (behind pass)).second.state)

section

variable (midstate : HashValue) (data : Block) (hash : HashValue) (target : Fin 8 → Word)
  (maxNonce : Word) (restart : Nat → Bool) (behind : Nat → Nat → Word) (passes : Nat)

/-- `scanhash_c`. -/
def scanhashC : Option (Scanned Bool 16) :=
  plainScan (plainHashes .c midstate behind) target maxNonce restart data hash 0 passes

/-- `scanhash_cryptopp`. -/
def scanhashCryptopp : Option (Scanned Bool 16) :=
  plainScan (plainHashes .cryptopp midstate behind) target maxNonce restart data hash 0 passes

end

/-! ### What the second call reads -/

theorem PlainBackend.runhash_state (backend : PlainBackend) (input : Pointer) (init : HashValue) :
    (backend.runhash input init).state = compress init (inputBlock input) := by
  cases backend with
  | c => exact Generic.sha256Transform_state init input
  | cryptopp => exact Cryptopp.sha256Transform_state init input

theorem PlainBackend.runhash_reads (backend : PlainBackend) (input : Pointer) (init : HashValue) :
    (backend.runhash input init).reads = List.range 16 := by
  cases backend with
  | c => exact Generic.sha256Transform_reads init input
  | cryptopp => exact Cryptopp.sha256Transform_reads init input

section

variable (backend : PlainBackend) (midstate : HashValue) (data : Block) (behind : Nat → Word)

/-- The first call compresses the data from the midstate. -/
theorem firstCall_state : (hashPass backend midstate data behind).first.state = compress midstate data := by
  refine (backend.runhash_state _ _).trans (congrArg (compress midstate) ?_)
  funext i
  exact Pointer.toObject_word data _ i

/-- The second call reads the eight words of the first result and then eight words behind the array. -/
theorem secondCall_reads :
    (hashPass backend midstate data behind).second.reads = List.range 16 ∧
      (hashPass backend midstate data behind).hash1.size = 8 ∧
      ∀ i, (hashPass backend midstate data behind).hash1.word (8 + i) = behind i :=
  ⟨backend.runhash_reads _ _, rfl, Pointer.toObject_word_behind _ behind⟩

/-- The word that is tested is the last one of the compression of the first result and of what lies behind
    it. -/
theorem secondCall_state :
    (hashPass backend midstate data behind).second.state =
      compress initialHash (digestBlock (compress midstate data) fun i => behind (i - 8)) := by
  refine (backend.runhash_state _ _).trans (congrArg₂ compress Generic.sha256InitState_eq ?_)
  funext i
  rw [digestBlock, ← firstCall_state backend midstate data behind]
  by_cases digest : i.val < 8
  · rw [dif_pos digest]
    exact Pointer.toObject_word _ behind ⟨i, digest⟩
  · rw [dif_neg digest]
    have place : i.val = 8 + (i.val - 8) := by omega
    rw [inputBlock, place]
    exact (Pointer.toObject_word_behind _ behind (i.val - 8)).trans (by rw [Nat.add_sub_cancel_left])

end

/-- The padding of a 32-byte message, as words. -/
def digestPadding : Block := fun i => (padTail 8).getD (i - 8) 0

/-- The second call is what the double hash needs: it stays inside its buffer, it reads the first result
    followed by the padding, and so the tested word is word 7 of the hash of the 32-byte digest. -/
structure SecondCallSound (pass : HashPass) : Prop where
  inBounds : pass.hash1.InBounds pass.second.reads
  words : inputBlock pass.hash1 = digestBlock pass.first.state digestPadding
  tested : pass.second.state 7 = hashWords (wordBytes (List.ofFn pass.first.state)) 7

/-- What a scan needs of the two calls for one nonce: they are sound whatever lies behind the array, and the
    tested word does not depend on it. -/
def HashesNonce (backend : PlainBackend) (midstate : HashValue) (data : Block) (nonce : Word) : Prop :=
  (∀ behind, SecondCallSound (hashPass backend midstate (withNonce data nonce) behind)) ∧
    ∀ behind behind', (hashPass backend midstate (withNonce data nonce) behind).second.state 7 =
      (hashPass backend midstate (withNonce data nonce) behind').second.state 7

/-- The second call reads outside of its buffer, so it is not sound. -/
private theorem not_secondCallSound (backend : PlainBackend) (midstate : HashValue) (data : Block)
    (behind : Nat → Word) : ¬ SecondCallSound (hashPass backend midstate data behind) := by
  intro sound
  obtain ⟨reads, size, _⟩ := secondCall_reads backend midstate data behind
  have inside := sound.inBounds 8
  rw [reads, size] at inside
  exact absurd (inside (by decide)) (by decide)

/-- No work unit and no nonce get a sound second call, whatever lies behind the array. -/
theorem secondCall_never_sound (backend : PlainBackend) (midstate : HashValue) (data : Block)
    (nonce : Word) :
    (∀ behind, ¬ SecondCallSound (hashPass backend midstate (withNonce data nonce) behind)) ∧
      ¬ HashesNonce backend midstate data nonce := by
  constructor
  · intro behind
    exact not_secondCallSound backend midstate (withNonce data nonce) behind
  · rintro ⟨sound, _⟩
    exact not_secondCallSound backend midstate (withNonce data nonce) (fun _ => 0) (sound _)

/-- For a data block of zeros and nonce 1, the read leaves the array, and the tested word is one thing when the
    stack holds zeros behind it and another when it holds ones. -/
theorem secondCall_depends_on_stack :
    ¬ HashesNonce .c initialHash (fun _ => 0) 1 ∧
      (hashPass .c initialHash (withNonce (fun _ => 0) 1) fun _ => 0).second.state 7 ≠
        (hashPass .c initialHash (withNonce (fun _ => 0) 1) fun _ => 1).second.state 7 := by
  constructor
  · rintro ⟨sound, _⟩
    exact not_secondCallSound .c initialHash _ (fun _ => 0) (sound _)
  · rw [secondCall_state, secondCall_state]
    decide +kernel

end CpuMiner.Scan
