/-
Module: CpuMiner.Scan.Scalar
Layer: Scans
Purpose: The loop that `scanhash_c`, `scanhash_cryptopp`, `scanhash_asm32` and `scanhash_via` share: count the nonce
  up from 1, hash, return true on a hit that `fulltest` accepts, return false at `max_nonce` or on a restart. The
  hashes are a parameter, a machine with a state of its own that is given the data area in every pass.
  `scalar_simulates` says that the loop is a search through the nonces 1, 2, 3, ...
Imports: CpuMiner.Lib.Search, CpuMiner.Util.Fulltest
Trusted boundary: human-reviewed spec (the transcription of the C code)
Main exports: Scanned, ScalarLoop, scalarBody, scalarScan, scalarNonce, scalarHash, scalarPick, scalarStop,
  scalarStop_iff, scalar_simulates
Open obligations: none
-/
import CpuMiner.Lib.Search
import CpuMiner.Util.Fulltest

namespace CpuMiner

open Words
open Sha256

/-- What a scan leaves when it returns. `accepted` is the candidate that `fulltest` has just accepted, if the
    scan returned for that reason, and `hashed` the nonces that were hashed, in order; both are for the proofs.
    The type `ρ` is that of the returned value. -/
structure Scanned (ρ : Type) (m : Nat) where
  ret : ρ
  hashesDone : Nat
  data : Fin m → Word
  hash : HashValue
  accepted : Option (Word × HashValue)
  hashed : List Word

namespace Scan

variable {κ : Type} {m : Nat}

/-- The variables of the loop. The data area has `m` words. `stat_ctr` counts at most 2^32 nonces, so it is a
    number here. `pass` and `hashed` are for the proofs. -/
structure ScalarLoop (κ : Type) (m : Nat) where
  n : Word
  data : Fin m → Word
  hash : HashValue
  statCtr : Nat
  hasher : κ
  pass : Nat
  hashed : List Word

/-- The code that stands around the loop: the hashes, `fulltest`, the bound, what the read of
    `work_restart[thr_id].restart` in each pass gives, and the place of the nonce in the data area. The answer of
    `fulltest` may depend on the candidate in any way. -/
structure ScalarEnv (κ : Type) (m : Nat) where
  runhashes : κ → (Fin m → Word) → κ × HashValue
  fulltest : Word → HashValue → Bool
  maxNonce : Word
  restart : Nat → Bool
  nonceAt : Fin m

/-- The same surroundings with the `fulltest` of util.c, for a target. -/
def ScalarEnv.against (env : ScalarEnv κ m) (target : Fin 8 → Word) : ScalarEnv κ m :=
  { env with fulltest := fun _ hash => CpuMiner.fulltest hash target }

/-- The same surroundings with a test that accepts every candidate. -/
def ScalarEnv.acceptAll (env : ScalarEnv κ m) : ScalarEnv κ m :=
  { env with fulltest := fun _ _ => true }

/-- The body of `while (1)`. -/
def scalarBody (env : ScalarEnv κ m) (s : ScalarLoop κ m) : ScalarLoop κ m ⊕ Scanned Bool m :=
  let nonce := s.n + 1
  let data := Function.update s.data env.nonceAt nonce
  let hashing := env.runhashes s.hasher data
  let hash := hashing.2
  let statCtr := s.statCtr + 1
  let hashed := s.hashed ++ [nonce]
  if hash 7 = 0 ∧ env.fulltest nonce hash = true then
    .inr { ret := true, hashesDone := statCtr, data, hash, accepted := some (nonce, hash), hashed }
  else if nonce ≥ env.maxNonce ∨ env.restart s.pass = true then
    .inr { ret := false, hashesDone := statCtr, data, hash, accepted := none, hashed }
  else
    .inl { n := nonce, data, hash, statCtr, hasher := hashing.1, pass := s.pass + 1, hashed }

/-- The loop before its first pass. -/
def scalarStart (data : Fin m → Word) (hash : HashValue) (hasher : κ) : ScalarLoop κ m where
  n := 0
  data := data
  hash := hash
  statCtr := 0
  hasher := hasher
  pass := 0
  hashed := []

/-- The loop, for at most the given number of passes. -/
def scalarScan (env : ScalarEnv κ m) (data : Fin m → Word) (hash : HashValue) (hasher : κ)
    (passes : Nat) : Option (Scanned Bool m) :=
  Loop.run (scalarBody env) passes (scalarStart data hash hasher)

/-! ### The loop as a search -/

/-- The nonce of pass `k`. -/
def scalarNonce (k : Nat) : Word := BitVec.ofNat 32 (k + 1)

/-- The hash of pass `k`. -/
def scalarHash (env : ScalarEnv κ m) (data : Fin m → Word) (hasher : κ) (k : Nat) : HashValue :=
  Mealy.outputAt env.runhashes (fun k => Function.update data env.nonceAt (scalarNonce k)) hasher k

/-- The candidate of pass `k` that is accepted, if there is one. -/
def scalarPick (env : ScalarEnv κ m) (data : Fin m → Word) (hasher : κ) (k : Nat) : Option HashValue :=
  let hash := scalarHash env data hasher k
  if hash 7 = 0 ∧ env.fulltest (scalarNonce k) hash = true then some hash else none

/-- The test at the end of pass `k`. -/
def scalarStop (env : ScalarEnv κ m) (k : Nat) : Bool :=
  decide (scalarNonce k ≥ env.maxNonce) || env.restart k

/-- The nonces of the first `k` passes. -/
def scalarHashed (k : Nat) : List Word := (List.range k).map scalarNonce

/-- The loop state at the start of pass `k`. -/
structure ScalarAt (env : ScalarEnv κ m) (data : Fin m → Word) (hasher : κ) (k : Nat)
    (s : ScalarLoop κ m) : Prop where
  nonce : s.n = BitVec.ofNat 32 k
  area : ∀ w, Function.update s.data env.nonceAt w = Function.update data env.nonceAt w
  statCtr : s.statCtr = k
  hasher : s.hasher = Mealy.stateAt env.runhashes
    (fun k => Function.update data env.nonceAt (scalarNonce k)) hasher k
  pass : s.pass = k
  hashed : s.hashed = scalarHashed k

/-- What the scan returns for the outcome of the search. -/
def scalarResult (env : ScalarEnv κ m) (data : Fin m → Word) (hasher : κ) :
    Search.Outcome HashValue → Scanned Bool m
  | .found k hash =>
      { ret := true, hashesDone := k + 1, data := Function.update data env.nonceAt (scalarNonce k),
        hash, accepted := some (scalarNonce k, hash), hashed := scalarHashed (k + 1) }
  | .exhausted k =>
      { ret := false, hashesDone := k + 1, data := Function.update data env.nonceAt (scalarNonce k),
        hash := scalarHash env data hasher k, accepted := none, hashed := scalarHashed (k + 1) }

variable {env : ScalarEnv κ m} {data : Fin m → Word} {hasher : κ}

theorem scalarAt_start (hash : HashValue) :
    ScalarAt env data hasher 0 (scalarStart data hash hasher) where
  nonce := rfl
  area _ := rfl
  statCtr := rfl
  hasher := rfl
  pass := rfl
  hashed := rfl

theorem scalarNonce_toNat {k : Nat} (bound : k + 1 < 2 ^ 32) : (scalarNonce k).toNat = k + 1 := by
  rw [scalarNonce, BitVec.toNat_ofNat, Nat.mod_eq_of_lt bound]

theorem scalarStop_iff {k : Nat} (bound : k + 1 < 2 ^ 32) :
    scalarStop env k = true ↔ env.maxNonce.toNat ≤ k + 1 ∨ env.restart k = true := by
  rw [scalarStop, Bool.or_eq_true, decide_eq_true_eq, ge_iff_le, BitVec.le_def, scalarNonce_toNat bound]

/-- The loop is the search. -/
theorem scalar_simulates (env : ScalarEnv κ m) (data : Fin m → Word) (hasher : κ) :
    Search.Simulates (scalarBody env) (scalarPick env data hasher) (scalarStop env)
      (ScalarAt env data hasher) (fun o out => out = scalarResult env data hasher o) := by
  have nonce : ∀ {k s}, ScalarAt env data hasher k s → s.n + 1 = scalarNonce k := by
    intro k s here
    rw [here.nonce, scalarNonce, BitVec.ofNat_add]
    rfl
  have hashed : ∀ {k s}, ScalarAt env data hasher k s →
      s.hashed ++ [scalarNonce k] = scalarHashed (k + 1) := by
    intro k s here
    rw [here.hashed, scalarHashed, scalarHashed, List.range_succ, List.map_append, List.map_cons,
      List.map_nil]
  have hash : ∀ {k s}, ScalarAt env data hasher k s →
      (env.runhashes s.hasher (Function.update data env.nonceAt (scalarNonce k))).2 =
        scalarHash env data hasher k := by
    intro k s here
    rw [here.hasher]
    rfl
  refine ⟨?_, ?_, ?_⟩
  · intro k s b here picked
    simp only [scalarPick] at picked
    split at picked
    · rename_i hit
      cases picked
      refine ⟨_, ?_, rfl⟩
      simp only [scalarBody, nonce here, here.area, hash here, if_pos hit, hashed here, here.statCtr]
      rfl
    · cases picked
  · intro k s here nothing stopped
    simp only [scalarPick] at nothing
    split at nothing
    · cases nothing
    · rename_i miss
      refine ⟨_, ?_, rfl⟩
      have last : scalarNonce k ≥ env.maxNonce ∨ env.restart s.pass = true := by
        rw [here.pass]
        simpa only [scalarStop, Bool.or_eq_true, decide_eq_true_eq] using stopped
      simp only [scalarBody, nonce here, here.area, hash here, if_neg miss, if_pos last,
        hashed here, here.statCtr]
      rfl
  · intro k s here nothing goOn
    simp only [scalarPick] at nothing
    split at nothing
    · cases nothing
    · rename_i miss
      have more : ¬ (scalarNonce k ≥ env.maxNonce ∨ env.restart s.pass = true) := by
        rw [here.pass]
        simpa only [scalarStop, Bool.or_eq_false_iff, decide_eq_false_iff_not, not_or,
          Bool.not_eq_true] using goOn
      have next : scalarBody env s = .inl
          { n := scalarNonce k
            data := Function.update data env.nonceAt (scalarNonce k)
            hash := scalarHash env data hasher k
            statCtr := s.statCtr + 1
            hasher := (env.runhashes s.hasher (Function.update data env.nonceAt (scalarNonce k))).1
            pass := s.pass + 1
            hashed := s.hashed ++ [scalarNonce k] } := by
        simp only [scalarBody, nonce here, here.area, hash here, if_neg miss, if_neg more]
      refine ⟨_, next, rfl, ?_, ?_, ?_, ?_, hashed here⟩
      · intro w
        rw [Function.update_idem]
      · exact congrArg (· + 1) here.statCtr
      · simp only [here.hasher]
        rfl
      · exact congrArg (· + 1) here.pass

end Scan

end CpuMiner
