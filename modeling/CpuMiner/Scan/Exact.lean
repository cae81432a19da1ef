/-
Module: CpuMiner.Scan.Exact
Layer: Scans
Purpose: Postconditions of the loops that count from 0 without leaving out a nonce, when `fulltest` accepts every
  candidate, as that of util.c does. The scalar loops end with the first nonce that is a hit, reaches the bound or
  is followed by a restart (`scalar_scans_exact`). The loop of `scanhash_sse2_64` returns the least hit below the
  end of the first batch that reaches the bound or is followed by a restart (`sse2_scan_exact`).
Imports: CpuMiner.Scan.Asm32, CpuMiner.Scan.Plain, CpuMiner.Scan.Sse2Amd64, CpuMiner.Scan.Via,
  Mathlib.Order.Bounds.Basic
Trusted boundary: none
Main exports: LastNonce, ScansExactly, scalarScan_exact, scalar_scans_exact, LastBatch, BatchesExactly, CountsOn,
  sse2Scan_exact, sse2_scan_exact
Open obligations: none
-/
import CpuMiner.Scan.Asm32
import CpuMiner.Scan.Plain
import CpuMiner.Scan.Sse2Amd64
import CpuMiner.Scan.Via
import Mathlib.Order.Bounds.Basic

namespace CpuMiner.Scan

open Words
open Sha256
open FourWay

variable {κ : Type} {m : Nat}

/-! ### One nonce in each pass -/

/-- The nonce with which a scalar scan ends: the first one from 1 on that is a hit, or is at least the bound, or is
    followed by a restart. -/
def LastNonce (hit : Nat → Prop) (maxNonce : Word) (restart : Nat → Bool) (last : Nat) : Prop :=
  IsLeast {n | 1 ≤ n ∧ (hit n ∨ maxNonce.toNat ≤ n ∨ restart (n - 1) = true)} last

/-- What a scalar scan with this last nonce leaves. The data area afterwards depends on the result and the nonce. -/
structure ScalarPost (hit : Nat → Prop) (after : Bool → Word → Fin m → Word) (last : Nat) (out : Scanned Bool m) :
    Prop where
  ret : out.ret = true ↔ hit last
  hashed : out.hashed.map BitVec.toNat = List.range' 1 last
  hashesDone : out.hashesDone = last
  data : out.data = after out.ret (BitVec.ofNat 32 last)

/-- The scan ends with its last nonce. -/
def ScansExactly (hit : Nat → Prop) (maxNonce : Word) (restart : Nat → Bool) (after : Bool → Word → Fin m → Word)
    (scan : Nat → Option (Scanned Bool m)) : Prop :=
  ∃ last out, LastNonce hit maxNonce restart last ∧ last < 2 ^ 32 ∧ ScalarPost hit after last out ∧
    ∀ passes, last ≤ passes → scan passes = some out

/-- The hash of the pass with nonce `n` has a zero word. -/
def scalarHit (env : ScalarEnv κ m) (data : Fin m → Word) (hasher : κ) (n : Nat) : Prop :=
  scalarHash env data hasher (n - 1) 7 = 0

theorem scalarHashed_toNat {k : Nat} (bound : k < 2 ^ 32) :
    (scalarHashed k).map BitVec.toNat = List.range' 1 k := by
  rw [scalarHashed, List.map_map, List.range'_eq_map_range]
  refine List.map_congr_left fun i listed => ?_
  have below := List.mem_range.mp listed
  rw [Function.comp_apply, scalarNonce_toNat (by omega), Nat.add_comm]

section

variable {env : ScalarEnv κ m} {data : Fin m → Word} {hasher : κ}

/-- A pass picks if and only if its nonce is a hit. -/
theorem scalarPick_isSome_iff (accepts : ∀ nonce hash, env.fulltest nonce hash = true) {k : Nat} :
    (∃ hash, scalarPick env data hasher k = some hash) ↔ scalarHit env data hasher (k + 1) := by
  simp only [scalarPick, accepts, and_true, scalarHit, Nat.add_sub_cancel]
  constructor
  · rintro ⟨hash, picked⟩
    split at picked
    · assumption
    · cases picked
  · intro zero
    exact ⟨_, if_pos zero⟩

/-- The search of a scalar loop ends, before its counter wraps. -/
theorem scalar_ends (env : ScalarEnv κ m) (data : Fin m → Word) (hasher : κ) :
    ∃ o, Search.Ends (scalarPick env data hasher) (scalarStop env) o ∧ o.pass + 1 < 2 ^ 32 := by
  have below := env.maxNonce.isLt
  have stopped : scalarStop env (env.maxNonce.toNat - 1) = true :=
    (scalarStop_iff (by omega)).mpr (.inl (by omega))
  obtain ⟨o, ends⟩ : ∃ o, Search.Ends (scalarPick env data hasher) (scalarStop env) o :=
    Search.exists_ends_iff.mpr ⟨_, .inr stopped⟩
  have notLater := ends.open_pass.le (.inr stopped)
  exact ⟨o, ends, by omega⟩

theorem lastNonce_of_ends (accepts : ∀ nonce hash, env.fulltest nonce hash = true)
    {o : Search.Outcome HashValue} (ends : Search.Ends (scalarPick env data hasher) (scalarStop env) o)
    (noWrap : o.pass + 1 < 2 ^ 32) :
    LastNonce (scalarHit env data hasher) env.maxNonce env.restart (o.pass + 1) := by
  have closed_iff : ∀ {k}, k + 1 < 2 ^ 32 →
      (((∃ hash, scalarPick env data hasher k = some hash) ∨ scalarStop env k = true) ↔
        scalarHit env data hasher (k + 1) ∨ env.maxNonce.toNat ≤ k + 1 ∨ env.restart k = true) :=
    fun bound => or_congr (scalarPick_isSome_iff accepts) (scalarStop_iff bound)
  constructor
  · exact ⟨Nat.le_add_left 1 _, (closed_iff noWrap).mp ends.closed⟩
  · rintro n ⟨pos, last⟩
    obtain ⟨k, rfl⟩ : ∃ k, n = k + 1 := ⟨n - 1, by omega⟩
    by_cases bound : k + 1 < 2 ^ 32
    · exact Nat.succ_le_succ (ends.open_pass.le ((closed_iff bound).mpr last))
    · omega

/-- The scalar loop is exact, whatever computes the hashes. -/
theorem scalarScan_exact (env : ScalarEnv κ m) (accepts : ∀ nonce hash, env.fulltest nonce hash = true)
    (data : Fin m → Word) (hash : HashValue) (hasher : κ) :
    ScansExactly (scalarHit env data hasher) env.maxNonce env.restart
      (fun _ nonce => Function.update data env.nonceAt nonce) (scalarScan env data hash hasher) := by
  obtain ⟨o, ends, noWrap⟩ := scalar_ends env data hasher
  obtain ⟨out, right, ran⟩ := (scalar_simulates env data hasher).run_of_ends (scalarAt_start hash) ends
  refine ⟨o.pass + 1, out, lastNonce_of_ends accepts ends noWrap, noWrap, ?_, ran⟩
  have hashed := scalarHashed_toNat noWrap
  subst right
  cases ends with
  | @found k hash _ picked =>
      exact ⟨iff_of_true rfl ((scalarPick_isSome_iff accepts).mp ⟨hash, picked⟩), hashed, rfl, rfl⟩
  | @exhausted k _ nothing _ =>
      refine ⟨iff_of_false Bool.false_ne_true fun hit => ?_, hashed, rfl, rfl⟩
      obtain ⟨hash, picked⟩ := (scalarPick_isSome_iff accepts).mpr hit
      cases nothing.symm.trans picked

end

/-! ### The four scalar scans -/

/-- Whatever computes the hashes, the loop of sha256_generic.c and sha256_cryptopp.c is exact, and leaves the last
    nonce in the data. -/
theorem plainScan_exact (runhashes : κ → Block → κ × HashValue) (target : Fin 8 → Word) (maxNonce : Word)
    (restart : Nat → Bool) (data : Block) (hash : HashValue) (hasher : κ) :
    ScansExactly (scalarHit (plainEnv runhashes maxNonce restart) data hasher) maxNonce restart
      (fun _ nonce => withNonce data nonce) (plainScan runhashes target maxNonce restart data hash hasher) :=
  scalarScan_exact ((plainEnv runhashes maxNonce restart).against target) (fun _ _ => rfl) data hash hasher

/-- Swapping every word out and back cancels, except on the word that was written in between. -/
theorem swab32_update (dataInout : Fin 32 → Word) (i : Fin 32) (nonce : Word) :
    (fun j => swab32 (Function.update (fun k => swab32 (dataInout k)) i nonce j)) =
      Function.update dataInout i (swab32 nonce) := by
  funext j
  by_cases here : j = i
  · rw [here, Function.update_self, Function.update_self]
  · rw [Function.update_of_ne here, Function.update_of_ne here, swab32_swab32]

/-- The loop of sha256_via.c is exact. It stores the swapped nonce when it succeeds, and nothing when it fails. -/
theorem viaScan_exact (runhashes : κ → (Fin 32 → Word) → κ × HashValue) (target : Fin 8 → Word) (maxNonce : Word)
    (restart : Nat → Bool) (dataInout : Fin 32 → Word) (tmpHash : HashValue) (hasher : κ) :
    ScansExactly (scalarHit (viaEnv runhashes maxNonce restart) (fun i => swab32 (dataInout i)) hasher) maxNonce
      restart (fun ret nonce => if ret = true then Function.update dataInout 19 (swab32 nonce) else dataInout)
      (viaScan runhashes target maxNonce restart dataInout tmpHash hasher) := by
  obtain ⟨last, out, isLast, noWrap, post, ran⟩ :=
    scalarScan_exact ((viaEnv runhashes maxNonce restart).against target) (fun _ _ => rfl)
      (fun i => swab32 (dataInout i)) tmpHash hasher
  refine ⟨last, { out with data := if out.ret = true then fun i => swab32 (out.data i) else dataInout }, isLast, noWrap,
    ⟨post.ret, post.hashed, post.hashesDone, ?_⟩, ?_⟩
  · refine ite_congr rfl (fun _ => ?_) (fun _ => rfl)
    rw [post.data]
    exact swab32_update dataInout 19 (BitVec.ofNat 32 last)
  · intro passes enough
    rw [viaScan, ran passes enough]
    rfl

/-- Pass `k` of the hashes of a plain scan. -/
theorem plainHashes_scalarHash (backend : PlainBackend) (midstate : HashValue) (behind : Nat → Nat → Word)
    (maxNonce : Word) (restart : Nat → Bool) (data : Block) (k : Nat) :
    scalarHash (plainEnv (plainHashes backend midstate behind) maxNonce restart) data 0 k =
      (hashPass backend midstate (withNonce data (scalarNonce k)) (behind k)).second.state := by
  have pass : Mealy.stateAt (plainHashes backend midstate behind)
      (fun k => withNonce data (scalarNonce k)) 0 k = k := by
    induction k with
    | zero => rfl
    | succ k ih => rw [Mealy.stateAt, ih, plainHashes]
  exact congrArg (fun pass =>
    (hashPass backend midstate (withNonce data (scalarNonce k)) (behind pass)).second.state) pass

/-- The second hash of the pass with nonce `n` has a zero word. -/
def plainHit (backend : PlainBackend) (midstate : HashValue) (behind : Nat → Nat → Word) (data : Block) (n : Nat) :
    Prop :=
  (hashPass backend midstate (withNonce data (BitVec.ofNat 32 n)) (behind (n - 1))).second.state 7 = 0

/-- The hash of the swapped data with nonce `n` has a zero word. -/
def viaHit (instruction : HashValue → List Byte → HashValue) (dataInout : Fin 32 → Word) (n : Nat) : Prop :=
  viaHashes instruction (Function.update (fun i => swab32 (dataInout i)) 19 (BitVec.ofNat 32 n)) 7 = 0

/-- What a scan does depends on the hits from nonce 1 on. -/
theorem ScansExactly.congr {hit hit' : Nat → Prop} {maxNonce : Word} {restart : Nat → Bool}
    {after : Bool → Word → Fin m → Word} {scan : Nat → Option (Scanned Bool m)}
    (exact : ScansExactly hit maxNonce restart after scan) (same : ∀ k, hit (k + 1) ↔ hit' (k + 1)) :
    ScansExactly hit' maxNonce restart after scan := by
  have same : ∀ n, 1 ≤ n → (hit n ↔ hit' n) := by
    intro n pos
    obtain ⟨k, rfl⟩ : ∃ k, n = k + 1 := ⟨n - 1, by omega⟩
    exact same k
  obtain ⟨last, out, ⟨⟨pos, closed⟩, least⟩, noWrap, post, ran⟩ := exact
  refine ⟨last, out, ⟨⟨pos, ?_⟩, ?_⟩, noWrap, ?_, ran⟩
  · rwa [← same last pos]
  · rintro n ⟨first, closed⟩
    rw [← same n first] at closed
    exact least ⟨first, closed⟩
  · exact ⟨post.ret.trans (same last pos), post.hashed, post.hashesDone, post.data⟩

theorem plainScan_backend_exact (backend : PlainBackend) (midstate : HashValue) (behind : Nat → Nat → Word)
    (target : Fin 8 → Word) (maxNonce : Word) (restart : Nat → Bool) (data : Block) (hash : HashValue) :
    ScansExactly (plainHit backend midstate behind data) maxNonce restart (fun _ nonce => withNonce data nonce)
      (plainScan (plainHashes backend midstate behind) target maxNonce restart data hash 0) := by
  refine (plainScan_exact _ target maxNonce restart data hash 0).congr fun k => ?_
  rw [scalarHit, Nat.add_sub_cancel, plainHashes_scalarHash]
  rfl

/-- All four scalar scans are exact: both loops, whatever computes the hashes and so for every predicate on the
    nonces, and the four functions with the hashes that they compute. -/
theorem scalar_scans_exact {κ₁ κ₂ : Type} (runhashes : κ₁ → Block → κ₁ × HashValue)
    (viaRunhashes : κ₂ → (Fin 32 → Word) → κ₂ × HashValue) (hasher₁ : κ₁) (hasher₂ : κ₂)
    (midstate hash tmpHash : HashValue) (data : Block) (dataInout : Fin 32 → Word) (target : Fin 8 → Word)
    (behind : Nat → Nat → Word) (blocks : Nat) (calls : Nat → Asm32Call × Asm32Call)
    (instruction : HashValue → List Byte → HashValue) (maxNonce : Word) (restart : Nat → Bool) :
    let after := fun (_ : Bool) nonce => withNonce data nonce
    let viaAfter := fun ret nonce => if ret = true then Function.update dataInout 19 (swab32 nonce) else dataInout
    ScansExactly (scalarHit (plainEnv runhashes maxNonce restart) data hasher₁) maxNonce restart after
        (plainScan runhashes target maxNonce restart data hash hasher₁) ∧
      ScansExactly (scalarHit (viaEnv viaRunhashes maxNonce restart) (fun i => swab32 (dataInout i)) hasher₂) maxNonce
        restart viaAfter (viaScan viaRunhashes target maxNonce restart dataInout tmpHash hasher₂) ∧
      ScansExactly (plainHit .c midstate behind data) maxNonce restart after
        (scanhashC midstate data hash target maxNonce restart behind) ∧
      ScansExactly (plainHit .cryptopp midstate behind data) maxNonce restart after
        (scanhashCryptopp midstate data hash target maxNonce restart behind) ∧
      ScansExactly (plainHit .cryptopp midstate behind data) maxNonce restart after
        (scanhashAsm32 (8 + blocks) calls midstate data hash target maxNonce restart behind) ∧
      ScansExactly (viaHit instruction dataInout) maxNonce restart viaAfter
        (scanhashVia instruction dataInout target maxNonce restart tmpHash) := by
  refine ⟨plainScan_exact .., viaScan_exact .., plainScan_backend_exact .., plainScan_backend_exact .., ?_, ?_⟩
  · rw [funext (scanhashAsm32_eq blocks calls midstate data hash target maxNonce restart behind)]
    exact plainScan_backend_exact ..
  · refine (viaScan_exact _ target maxNonce restart dataInout tmpHash ()).congr fun k => ?_
    rw [scalarHit, Nat.add_sub_cancel]
    rfl

/-! ### Four nonces in each pass -/

open Simd

/-- The batch with which a scan of `scanhash_sse2_64` ends, unless it returns a nonce before: the first one whose end
    is at least the bound, or that is followed by a restart. -/
def LastBatch (maxNonce : Word) (restart : Nat → Bool) (last : Nat) : Prop :=
  IsLeast {k | maxNonce.toNat ≤ 4 * (k + 1) ∨ restart k = true} last

/-- What a scan leaves that tests the nonces from 0 to the one before `bound`, or returns the least hit among them. -/
structure BatchPost (hit : Nat → Prop) (data : Block) (bound : Nat) (out : Scanned Word 16) : Prop where
  found : ∀ n, IsLeast {n | n < bound ∧ hit n} n →
    out.ret = BitVec.ofNat 32 n ∧ out.data = withNonce data (BitVec.ofNat 32 n)
  missed : (∀ n, n < bound → ¬ hit n) →
    out.ret = -1 ∧ out.hashed.map BitVec.toNat = List.range bound ∧ out.data = data

/-- The scan returns, after its last batch at the latest, and leaves this. -/
def BatchesExactly (hit : Nat → Prop) (maxNonce : Word) (restart : Nat → Bool) (data : Block)
    (scan : Nat → Option (Scanned Word 16)) : Prop :=
  ∃ last out, LastBatch maxNonce restart last ∧ 4 * (last + 1) < 2 ^ 32 ∧ BatchPost hit data (4 * (last + 1)) out ∧
    ∀ passes, last < passes → scan passes = some out

/-- The counter does not wrap in any pass that the loop comes to. -/
def CountsOn (env : Sse2Env κ) (data : Block) (hash : HashValue) (hasher : κ) : Prop :=
  ∀ s, Loop.Visits (sse2Body env) (sse2Start data hash hasher) s → s.nonce.toNat + 4 < 2 ^ 32

/-- The lane with nonce `n` has a zero word. -/
def sse2Hit (env : Sse2Env κ) (hasher : κ) (n : Nat) : Prop :=
  sse2Hashes env hasher (n / 4) 7 ⟨n % 4, Nat.mod_lt n (by decide)⟩ = 0

/-- The double hash of the data with nonce `n` has a zero word. -/
def doubleHashHit (midstate : HashValue) (data hash1 : Block) (n : Nat) : Prop :=
  compress initialHash (digestBlock (compress midstate (withNonce data (BitVec.ofNat 32 n))) hash1) 7 = 0

theorem sse2Hashed_toNat {k : Nat} (bound : 4 * k < 2 ^ 32) :
    (sse2Hashed k).map BitVec.toNat = List.range (4 * k) := by
  rw [sse2Hashed_eq, List.map_map]
  refine (List.map_congr_left fun i listed => ?_).trans (List.map_id _)
  have below := List.mem_range.mp listed
  rw [Function.comp_apply, BitVec.toNat_ofNat, Nat.mod_eq_of_lt (by omega), id_eq]

section

variable {env : Sse2Env κ} {hasher : κ}

/-- What a pass picks is its first zero lane. -/
theorem sse2Pick_eq (accepts : ∀ nonce hash, env.fulltest nonce hash = true) (k : Nat) :
    sse2Pick env hasher k = firstZero (sse2Hashes env hasher k) := by
  simp only [sse2Pick, tryFirst, accepts]
  cases firstZero (sse2Hashes env hasher k) with
  | none => rfl
  | some j => rfl

/-- The nonces of passes that pick nothing are no hits. -/
theorem not_sse2Hit (accepts : ∀ nonce hash, env.fulltest nonce hash = true) {k n : Nat}
    (nothing : ∀ i, i < k → sse2Pick env hasher i = none) (below : n < 4 * k) : ¬ sse2Hit env hasher n := by
  have nothing := nothing (n / 4) (by omega)
  rw [sse2Pick_eq accepts, firstZero_eq_none_iff] at nothing
  exact nothing _

theorem sse2Hit_lane {k : Nat} {j : Fin 4} :
    sse2Hit env hasher (4 * k + j.val) ↔ sse2Hashes env hasher k 7 j = 0 := by
  have pass : (4 * k + j.val) / 4 = k := by omega
  have lane : (⟨(4 * k + j.val) % 4, Nat.mod_lt _ (by decide)⟩ : Fin 4) = j := Fin.ext (by simp only; omega)
  rw [sse2Hit, pass, lane]

/-- Below the cap, the last batch ends before the counter wraps. -/
theorem exists_lastBatch {maxNonce : Word} (cap : maxNonce ≤ 0xfffffffa) (restart : Nat → Bool) :
    ∃ last, LastBatch maxNonce restart last ∧ 4 * (last + 1) < 2 ^ 32 := by
  have literal : (0xfffffffa : Word).toNat = 0xfffffffa := rfl
  rw [BitVec.le_def, literal] at cap
  have reached : maxNonce.toNat ≤ 4 * ((maxNonce.toNat - 1) / 4 + 1) ∨
      restart ((maxNonce.toNat - 1) / 4) = true := .inl (by omega)
  have some : ∃ k, maxNonce.toNat ≤ 4 * (k + 1) ∨ restart k = true := ⟨_, reached⟩
  have notLater := Nat.find_min' some reached
  exact ⟨Nat.find some, ⟨Nat.find_spec some, fun _ last => Nat.find_min' some last⟩, by omega⟩

/-- The hit of a pass that picks is the least one. -/
theorem isLeast_of_pick (accepts : ∀ nonce hash, env.fulltest nonce hash = true) {k bound : Nat} {j : Fin 4}
    (isOpen : Search.Open (sse2Pick env hasher) (sse2Stop env) k) (picked : sse2Pick env hasher k = some j)
    (inside : 4 * (k + 1) ≤ bound) :
    IsLeast {n | n < bound ∧ sse2Hit env hasher n} (4 * k + j.val) := by
  rw [sse2Pick_eq accepts, firstZero_eq_some_iff] at picked
  obtain ⟨zero, first⟩ := picked
  have lane := j.isLt
  refine ⟨⟨by omega, sse2Hit_lane.mpr zero⟩, ?_⟩
  rintro n ⟨_, hit⟩
  by_contra earlier
  by_cases below : n < 4 * k
  · exact not_sse2Hit accepts (fun i before => (isOpen i before).1) below hit
  · obtain ⟨i, rfl⟩ : ∃ i : Fin 4, n = 4 * k + i.val := ⟨⟨n - 4 * k, by omega⟩, by simp only; omega⟩
    exact first i (by rw [Fin.lt_def]; omega) (sse2Hit_lane.mp hit)

/-- The search finds the least hit up to the last batch, or ends with the last batch if there is none. -/
theorem sse2_ends_cases (accepts : ∀ nonce hash, env.fulltest nonce hash = true) {last : Nat}
    (isLast : LastBatch env.maxNonce env.restart last) (noWrap : 4 * (last + 1) < 2 ^ 32)
    {o : Search.Outcome (Fin 4)} (ends : Search.Ends (sse2Pick env hasher) (sse2Stop env) o) :
    (∃ k j, o = .found k j ∧ k ≤ last ∧ IsLeast {n | n < 4 * (last + 1) ∧ sse2Hit env hasher n} (4 * k + j.val)) ∨
      (o = .exhausted last ∧ ∀ n, n < 4 * (last + 1) → ¬ sse2Hit env hasher n) := by
  have notLater : o.pass ≤ last := ends.open_pass.le (.inr ((sse2Stop_iff noWrap).mpr isLast.1))
  cases ends with
  | @found k j isOpen picked =>
      have inside : 4 * (k + 1) ≤ 4 * (last + 1) := Nat.mul_le_mul_left 4 (Nat.succ_le_succ notLater)
      exact .inl ⟨k, j, rfl, notLater, isLeast_of_pick accepts isOpen picked inside⟩
  | @exhausted k isOpen nothing stopped =>
      have notLater : k ≤ last := notLater
      obtain rfl : k = last :=
        Nat.le_antisymm notLater (isLast.2 ((sse2Stop_iff (by omega)).mp stopped))
      refine .inr ⟨rfl, fun n => not_sse2Hit accepts fun i before => ?_⟩
      rcases Nat.lt_or_eq_of_le (Nat.le_of_lt_succ before) with earlier | rfl
      · exact (isOpen i earlier).1
      · exact nothing

/-- Below the cap, the loop of `scanhash_sse2_64` is exact, whatever computes the hashes. -/
theorem sse2Scan_exact (env : Sse2Env κ) (accepts : ∀ nonce hash, env.fulltest nonce hash = true)
    (cap : env.maxNonce ≤ 0xfffffffa) (data : Block) (hash : HashValue) (hasher : κ) :
    BatchesExactly (sse2Hit env hasher) env.maxNonce env.restart data (sse2Scan env data hash hasher) ∧
      CountsOn env data hash hasher := by
  obtain ⟨last, isLast, noWrap⟩ := exists_lastBatch cap env.restart
  have stopped : sse2Stop env last = true := (sse2Stop_iff noWrap).mpr isLast.1
  have sim := sse2_simulates env data hasher
  constructor
  · obtain ⟨o, ends⟩ : ∃ o, Search.Ends (sse2Pick env hasher) (sse2Stop env) o :=
      Search.exists_ends_iff.mpr ⟨last, .inr stopped⟩
    have notLater := ends.open_pass.le (.inr stopped)
    obtain ⟨out, right, ran⟩ := sim.run_of_ends (sse2At_start hash) ends
    refine ⟨last, out, isLast, noWrap, ?_, fun passes later => ran passes (Nat.lt_of_le_of_lt notLater later)⟩
    obtain ⟨k, j, rfl, _, least⟩ | ⟨rfl, misses⟩ := sse2_ends_cases accepts isLast noWrap ends
    · obtain ⟨ret, _, area, _⟩ := right.found k j rfl
      have nonce : sse2Base k + BitVec.ofNat 32 j = BitVec.ofNat 32 (4 * k + j) := (BitVec.ofNat_add ..).symm
      constructor
      · intro n isLeast
        rw [isLeast.unique least, ← nonce]
        exact ⟨ret, area⟩
      · intro misses
        exact absurd least.1.2 (misses _ least.1.1)
    · obtain ⟨ret, _, area, _⟩ := right.exhausted last rfl
      constructor
      · intro n isLeast
        exact absurd isLeast.1.2 (misses n isLeast.1.1)
      · intro _
        refine ⟨ret, ?_, area⟩
        rw [right.hashed]
        exact sse2Hashed_toNat noWrap
  · intro s visited
    obtain ⟨k, isOpen, here⟩ := sim.visits (sse2At_start hash) visited
    have notLater := isOpen.le (.inr stopped)
    rw [here.nonce, sse2Base_toNat (by omega)]
    omega

end

/-- In the scan with its kernel, the hits are those of the double hash. -/
theorem sse2Hit_iff {midstate : HashValue} {env : Sse2Env Sse2Arrays} (kernel : env.calcHashes = calcHashes midstate)
    (data hash1 : Block) (stack : Nat → M128) (xmm : Fin 16 → M128) :
    sse2Hit env (sse2Arrays data hash1 stack xmm) = doubleHashHit midstate data hash1 := by
  funext n
  rw [sse2Hit, sse2Hashes_eq kernel, nonceLanes_lane, sse2Base, ← BitVec.ofNat_add, Nat.div_add_mod]
  rfl

/-- Below the cap of `miner_thread`, the scan of `scanhash_sse2_64` is exact and its counter does not wrap: with any
    hashes, and so for every predicate on the nonces, and with those that it computes. -/
theorem sse2_scan_exact {κ : Type} (anyHashes : κ → M128 → κ × Vectors) (hasher : κ) (midstate hash : HashValue)
    (data hash1 : Block) (target : Fin 8 → Word) (stack : Nat → M128) (xmm : Fin 16 → M128) (maxNonce : Word)
    (cap : maxNonce ≤ 0xfffffffa) (restart : Nat → Bool) :
    let env := (sse2Env anyHashes maxNonce restart).against target
    (BatchesExactly (sse2Hit env hasher) maxNonce restart data (sse2Scan env data hash hasher) ∧
      CountsOn env data hash hasher) ∧
    (BatchesExactly (doubleHashHit midstate data hash1) maxNonce restart data
        (scanhashSse264 midstate data hash1 hash target maxNonce restart stack xmm) ∧
      CountsOn ((sse2Env (calcHashes midstate) maxNonce restart).against target) data hash
        (sse2Arrays data hash1 stack xmm)) := by
  intro env
  refine ⟨sse2Scan_exact env (fun _ _ => rfl) cap data hash hasher, ?_⟩
  have exact := sse2Scan_exact ((sse2Env (calcHashes midstate) maxNonce restart).against target) (fun _ _ => rfl) cap
    data hash (sse2Arrays data hash1 stack xmm)
  rwa [sse2Hit_iff rfl] at exact

/-- The least bound that needs a second batch. -/
theorem sse2_scan_exact_secondBatch :
    BatchesExactly (doubleHashHit initialHash (fun _ => 0) (fun _ => 0)) 5 (fun _ => false) (fun _ => 0)
      (scanhashSse264 initialHash (fun _ => 0) (fun _ => 0) initialHash (fun _ => 0) 5 (fun _ => false)
        (fun _ _ => 0) (fun _ _ => 0)) :=
  (sse2_scan_exact (fun (_ : Unit) _ => ((), fun _ _ => 1)) () initialHash initialHash (fun _ => 0) (fun _ => 0)
    (fun _ => 0) (fun _ _ => 0) (fun _ _ => 0) 5 (by decide) (fun _ => false)).2.1

end CpuMiner.Scan
