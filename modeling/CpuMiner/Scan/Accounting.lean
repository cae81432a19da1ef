/-
Module: CpuMiner.Scan.Accounting
Layer: Scans
Purpose: Whether a scan reports as many hashes as it has made. The scalar loops count them. The vector loops report
  their nonce: that of `scanhash_sse2_64` when it returns a nonce is the first one of the batch, so it leaves out the
  batch, and that of `ScanHash_4WaySSE2` is right until it wraps (`scans_account_iff`).
Imports: CpuMiner.Scan.Exact, CpuMiner.Scan.FourWay
Trusted boundary: none
Main exports: Accounts, plain_accounts, sse2_accounts_iff, fourWay_accounts_iff, scans_account_iff
Open obligations: none
-/
import CpuMiner.Scan.Exact
import CpuMiner.Scan.FourWay

namespace CpuMiner.Scan

open Words
open Sha256
open FourWay

variable {κ : Type}

/-- If the scan ends, it reports the number of the nonces that it has hashed, which is at least 1. -/
def Accounts {ρ : Type} {m : Nat} (scan : Nat → Option (Scanned ρ m)) : Prop :=
  ∀ passes out, scan passes = some out → out.hashesDone = out.hashed.length ∧ 1 ≤ out.hashesDone

theorem length_sse2Hashed (k : Nat) : (sse2Hashed k).length = 4 * k := by
  rw [sse2Hashed_eq, List.length_map, List.length_range]

theorem length_fourWayHashed (k : Nat) : (fourWayHashed k).length = npar * k := by
  rw [fourWayHashed_eq, List.length_map, List.length_range]

theorem plain_accounts (runhashes : κ → Block → κ × HashValue) (target : Fin 8 → Word) (maxNonce : Word)
    (restart : Nat → Bool) (data : Block) (hash : HashValue) (hasher : κ) :
    Accounts (plainScan runhashes target maxNonce restart data hash hasher) := by
  intro passes out returned
  obtain ⟨o, _, rfl⟩ := (scalar_simulates _ data hasher).ends_of_returns (scalarAt_start hash) ⟨passes, returned⟩
  have length : (scalarHashed (o.pass + 1)).length = o.pass + 1 := by
    rw [scalarHashed, List.length_map, List.length_range]
  cases o with
  | found k hash => exact ⟨length.symm, Nat.le_add_left 1 k⟩
  | exhausted k => exact ⟨length.symm, Nat.le_add_left 1 k⟩

/-- Below the cap, the scan of `scanhash_sse2_64` accounts for its hashes if and only if there is no hit up to its last
    batch. -/
theorem sse2_accounts_iff (env : Sse2Env κ) (accepts : ∀ nonce hash, env.fulltest nonce hash = true)
    (cap : env.maxNonce ≤ 0xfffffffa) (data : Block) (hash : HashValue) (hasher : κ) :
    Accounts (sse2Scan env data hash hasher) ↔
      ∀ last, LastBatch env.maxNonce env.restart last → ∀ n, n < 4 * (last + 1) → ¬ sse2Hit env hasher n := by
  obtain ⟨last, isLast, noWrap⟩ := exists_lastBatch cap env.restart
  have sim := sse2_simulates env data hasher
  constructor
  · intro accounts last' isLast'
    obtain rfl := isLast'.unique isLast
    obtain ⟨o, ends⟩ : ∃ o, Search.Ends (sse2Pick env hasher) (sse2Stop env) o :=
      Search.exists_ends_iff.mpr ⟨last', .inr ((sse2Stop_iff noWrap).mpr isLast.1)⟩
    obtain ⟨out, ⟨passes, returned⟩, right⟩ := sim.returns_of_ends (sse2At_start hash) ends
    obtain ⟨reported, _⟩ := accounts passes out returned
    rw [right.hashed, length_sse2Hashed] at reported
    obtain ⟨k, j, rfl, notLater, _⟩ | ⟨_, misses⟩ := sse2_ends_cases accepts isLast noWrap ends
    · -- the nonce that is reported is the one before the batch
      rw [(right.found k j rfl).2.1, sse2Base_toNat (by omega)] at reported
      simp only [Search.Outcome.pass] at reported
      omega
    · exact misses
  · intro misses passes out returned
    obtain ⟨o, ends, right⟩ := sim.ends_of_returns (sse2At_start hash) ⟨passes, returned⟩
    rw [right.hashed, length_sse2Hashed]
    obtain ⟨k, j, rfl, _, least⟩ | ⟨rfl, _⟩ := sse2_ends_cases accepts isLast noWrap ends
    · exact absurd least.1.2 (misses last isLast _ least.1.1)
    · rw [(right.exhausted last rfl).2.1, sse2Base_toNat noWrap]
      exact ⟨rfl, by omega⟩

/-- The bound is at most the last batch below 2^32, or one of the batches below 2^32 has a hit or is followed by a
    restart, or no batch has or is, so that the scan does not end. -/
def FourWayBelow (env : FourWayEnv κ) (data : Block) (hasher : κ) : Prop :=
  env.maxNonce ≤ 0xffffffe0 ∨
    (∃ k, k < batchCount ∧ ((∃ j, fourWayHit env data hasher k j = true) ∨ env.restart k = true)) ∨
    ∀ k, (∀ j, fourWayHit env data hasher k j = false) ∧ env.restart k = false

/-- Under this condition a search that ends does so before its counter wraps. -/
theorem FourWayBelow.pass_lt {env : FourWayEnv κ} {data : Block} {hasher : κ} (below : FourWayBelow env data hasher)
    {o : Search.Outcome (Fin npar)} (ends : Search.Ends (fourWayPick env data hasher) (fourWayStop env) o) :
    o.pass < batchCount := by
  by_cases low : env.maxNonce ≤ 0xffffffe0
  · exact Nat.lt_of_le_of_lt (ends.open_pass.le (.inr (fourWayStop_last low))) (by decide)
  · rcases below with low' | ⟨k, inside, closed⟩ | silent
    · exact absurd low' low
    · rw [← fourWayPick_isSome_iff, ← fourWayStop_high low] at closed
      exact Nat.lt_of_le_of_lt (ends.open_pass.le closed) inside
    · obtain ⟨noHit, noRestart⟩ := silent o.pass
      rcases ends.closed with picked | stopped
      · obtain ⟨j, hit⟩ := fourWayPick_isSome_iff.mp picked
        rw [noHit j] at hit
        cases hit
      · rw [fourWayStop_high low, noRestart] at stopped
        cases stopped

/-- The scan of `ScanHash_4WaySSE2` accounts for its hashes if and only if it does not end after its counter has
    wrapped. -/
theorem fourWay_accounts_iff (env : FourWayEnv κ) (data : Block) (hash : HashValue) (hasher : κ) :
    Accounts (fourWayScan env data hash hasher) ↔ FourWayBelow env data hasher := by
  have sim := fourWay_simulates env data hasher
  constructor
  · intro accounts
    by_contra neither
    simp only [FourWayBelow, not_or, not_exists, not_and, not_forall] at neither
    obtain ⟨high, silent, k, closed⟩ := neither
    have closed : (∃ j, fourWayPick env data hasher k = some j) ∨ fourWayStop env k = true := by
      rw [fourWayPick_isSome_iff, fourWayStop_high high]
      by_contra stays
      obtain ⟨noHit, noRestart⟩ := not_or.mp stays
      refine closed (fun j => ?_) (Bool.eq_false_iff.mpr noRestart)
      exact Bool.eq_false_iff.mpr fun hit => noHit ⟨j, hit⟩
    obtain ⟨o, ends⟩ := Search.exists_ends_iff.mpr ⟨k, closed⟩
    have wrapped : batchCount ≤ o.pass := by
      by_contra below
      obtain ⟨noHit, noRestart⟩ := silent o.pass (by omega)
      rcases ends.closed with picked | stopped
      · obtain ⟨j, hit⟩ := fourWayPick_isSome_iff.mp picked
        exact noHit j hit
      · rw [fourWayStop_high high] at stopped
        exact noRestart stopped
    obtain ⟨out, ⟨passes, returned⟩, right⟩ := sim.returns_of_ends (fourWayAt_start hash) ends
    obtain ⟨reported, _⟩ := accounts passes out returned
    rw [right.hashed, length_fourWayHashed, right.hashesDone] at reported
    have bound := (fourWayBase o.pass).isLt
    simp only [batchCount, npar] at wrapped reported
    omega
  · intro below passes out returned
    obtain ⟨o, ends, right⟩ := sim.ends_of_returns (fourWayAt_start hash) ⟨passes, returned⟩
    have noWrap : o.pass < batchCount := below.pass_lt ends
    rw [right.hashed, length_fourWayHashed, right.hashesDone, fourWayBase_toNat noWrap]
    exact ⟨rfl, Nat.mul_pos (by decide) (Nat.succ_pos _)⟩

/-- Up to the cap of `miner_thread`, and whatever the hashes are, all scans report the number of nonces that they have
    hashed, if and only if that of `scanhash_sse2_64` has no hit up to its last batch and that of `ScanHash_4WaySSE2`
    does not end after its counter has wrapped. -/
theorem scans_account_iff {κ₁ κ₂ κ₃ : Type} (runhashes : κ₁ → Block → κ₁ × HashValue)
    (calcHashes : κ₂ → Simd.M128 → κ₂ × Vectors) (doubleBlock : κ₃ → Block → κ₃ × Lanes) (target : Fin 8 → Word)
    (maxNonce : Word) (cap : maxNonce ≤ 0xfffffffa) (restart : Nat → Bool) (data : Block) (hash : HashValue)
    (hasher₁ : κ₁) (hasher₂ : κ₂) (hasher₃ : κ₃) :
    let env₂ := (sse2Env calcHashes maxNonce restart).against target
    let env₃ := (fourWayEnv doubleBlock maxNonce restart).against target
    (Accounts (plainScan runhashes target maxNonce restart data hash hasher₁) ∧
      Accounts (sse2Scan env₂ data hash hasher₂) ∧ Accounts (fourWayScan env₃ data hash hasher₃)) ↔
      (∀ last, LastBatch maxNonce restart last → ∀ n, n < 4 * (last + 1) → ¬ sse2Hit env₂ hasher₂ n) ∧
        FourWayBelow env₃ data hasher₃ := by
  intro env₂ env₃
  rw [sse2_accounts_iff env₂ (fun _ _ => rfl) cap, fourWay_accounts_iff env₃]
  exact and_iff_right (plain_accounts runhashes target maxNonce restart data hash hasher₁)

/-- Hashes without a zero word. -/
theorem scans_account_iff_noHit :
    Accounts (sse2Scan ((sse2Env (fun (_ : Unit) _ => ((), fun _ _ => 1)) 5 fun _ => false).against fun _ => 0)
      (fun _ => 0) initialHash ()) :=
  ((scans_account_iff (fun (_ : Unit) _ => ((), initialHash)) (fun (_ : Unit) _ => ((), fun _ _ => 1))
    (fun (_ : Unit) _ => ((), fun _ _ => 1)) (fun _ => 0) 5 (by decide) (fun _ => false) (fun _ => 0) initialHash
    () () ()).mpr ⟨fun _ _ _ _ hit => absurd (show (1 : Word) = 0 from hit) (by decide), .inl (by decide)⟩).2.1

/-- The first nonce is a hit: four nonces have been hashed, and none is reported. -/
theorem sse2_reports_none :
    let scan := sse2Scan ((sse2Env (fun (_ : Unit) _ => ((), fun _ _ => 0)) 5 fun _ => false).against fun _ => 0)
      (fun _ => 0) initialHash ()
    (scan 1).map Scanned.hashesDone = some 0 ∧ (scan 1).map (fun out => out.hashed.length) = some 4 ∧
      ¬ Accounts scan := by
  intro scan
  have reported : (scan 1).map Scanned.hashesDone = some 0 := by decide
  refine ⟨reported, by decide, fun accounts => ?_⟩
  obtain ⟨out, returned, none⟩ := Option.map_eq_some_iff.mp reported
  obtain ⟨_, positive⟩ := accounts 1 out returned
  omega

end CpuMiner.Scan
