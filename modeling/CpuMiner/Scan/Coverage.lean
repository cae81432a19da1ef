/-
Module: CpuMiner.Scan.Coverage
Layer: Scans
Purpose: Which nonces a scan has tested when it ends reporting failure. The loops of scanhash_c, scanhash_cryptopp
  and scanhash_sse2_64 leave out none from 1 up to the bound (`plain_tests`, `sse2_tests`). `ScanHash_4WaySSE2`
  raises its nonce by 32 before the first batch, so the nonces 1 to 31 come up only after the counter has wrapped
  (`fourWay_tests_iff`).
Imports: CpuMiner.Scan.FourWay, CpuMiner.Scan.Plain, CpuMiner.Scan.Sse2Amd64
Trusted boundary: none
Main exports: TestsBelow, plain_tests, sse2_tests, fourWay_tests_iff, scans_test_iff, fourWay_tests_all_iff
Open obligations: none
-/
import CpuMiner.Scan.FourWay
import CpuMiner.Scan.Plain
import CpuMiner.Scan.Sse2Amd64

namespace CpuMiner.Scan

open Words
open Sha256
open FourWay

variable {κ : Type}

/-- If a scan with this outcome reports failure, it has tested every nonce from 1 to the one before the bound. A
    loop that goes on or reports failure has looked at each nonce it hashed. -/
def TestsBelow {ρ : Type} {m : Nat} (failure : ρ) (maxNonce : Word) (out : Scanned ρ m) : Prop :=
  out.ret = failure → ∀ n : Word, 1 ≤ n → n < maxNonce → n ∈ out.hashed

/-- The restart flag is never set. -/
def noRestart (_ : Nat) : Bool := false

/-! ### The nonces of the first passes -/

theorem mem_scalarHashed {n : Word} {k : Nat} (pos : 1 ≤ n) (upper : n.toNat ≤ k) : n ∈ scalarHashed k := by
  have one : 1 ≤ n.toNat := BitVec.le_def.mp pos
  have place : n.toNat - 1 + 1 = n.toNat := by omega
  refine List.mem_map.mpr ⟨n.toNat - 1, List.mem_range.mpr (by omega), ?_⟩
  rw [scalarNonce, place, BitVec.ofNat_toNat, BitVec.setWidth_eq]

theorem mem_sse2Hashed {n : Word} {k : Nat} (upper : n.toNat < 4 * k) : n ∈ sse2Hashed k := by
  rw [sse2Hashed_eq]
  refine List.mem_map.mpr ⟨n.toNat, List.mem_range.mpr upper, ?_⟩
  rw [BitVec.ofNat_toNat, BitVec.setWidth_eq]

theorem mem_fourWayHashed_iff {n : Word} {k : Nat} :
    n ∈ fourWayHashed k ↔ ∃ i, i < npar * k ∧ BitVec.ofNat 32 (npar + i) = n := by
  rw [fourWayHashed_eq, List.mem_map]
  simp only [List.mem_range]

/-- Before the counter wraps, the nonce 1 is not hashed. -/
theorem one_not_mem_fourWayHashed {k : Nat} (below : k ≤ batchCount) : (1 : Word) ∉ fourWayHashed k := by
  rw [mem_fourWayHashed_iff]
  rintro ⟨i, inside, same⟩
  have value := congrArg BitVec.toNat same
  have literal : (1 : Word).toNat = 1 := rfl
  rw [BitVec.toNat_ofNat, literal] at value
  simp only [batchCount, npar] at below inside value
  omega

/-- After the counter has wrapped, all nonces are hashed. -/
theorem mem_fourWayHashed_of_wrapped (n : Word) {k : Nat} (wrapped : batchCount < k) : n ∈ fourWayHashed k := by
  rw [mem_fourWayHashed_iff]
  simp only [batchCount, npar] at wrapped ⊢
  have bound := n.isLt
  by_cases small : n.toNat < 32
  · refine ⟨2 ^ 32 + n.toNat - 32, by omega, BitVec.eq_of_toNat_eq ?_⟩
    rw [BitVec.toNat_ofNat]
    omega
  · refine ⟨n.toNat - 32, by omega, BitVec.eq_of_toNat_eq ?_⟩
    rw [BitVec.toNat_ofNat]
    omega

/-! ### The loops that leave out no nonce -/

theorem plain_tests (runhashes : κ → Block → κ × HashValue) (target : Fin 8 → Word) (maxNonce : Word)
    (data : Block) (hash : HashValue) (hasher : κ) :
    ∀ passes out, plainScan runhashes target maxNonce noRestart data hash hasher passes = some out →
      TestsBelow false maxNonce out := by
  intro passes out returned failed n pos below
  obtain ⟨o, ends, rfl⟩ := (scalar_simulates _ data hasher).ends_of_returns (scalarAt_start hash)
    ⟨passes, returned⟩
  cases ends with
  | found _ _ => cases failed
  | @exhausted k _ _ stopped =>
      refine mem_scalarHashed pos ?_
      have reached : maxNonce ≤ scalarNonce k := by
        simpa [scalarStop, ScalarEnv.against, plainEnv, noRestart] using stopped
      rw [BitVec.le_def, scalarNonce, BitVec.toNat_ofNat] at reached
      have strict := BitVec.lt_def.mp below
      omega

theorem sse2_tests (calcHashes : κ → Simd.M128 → κ × Vectors) (target : Fin 8 → Word) (maxNonce : Word)
    (data : Block) (hash : HashValue) (hasher : κ) :
    ∀ passes out, sse2Scan ((sse2Env calcHashes maxNonce noRestart).against target) data hash hasher passes =
      some out → TestsBelow (-1) maxNonce out := by
  intro passes out returned failed n _ below
  obtain ⟨o, ends, right⟩ := (sse2_simulates _ data hasher).ends_of_returns (sse2At_start hash)
    ⟨passes, returned⟩
  rw [right.hashed]
  refine mem_sse2Hashed ?_
  have strict := BitVec.lt_def.mp below
  cases ends with
  | @found k j _ _ =>
      -- the nonce 0xffffffff was found, which is the last one of its batch
      obtain ⟨ret, _⟩ := right.found k j rfl
      have value := congrArg BitVec.toNat (ret.symm.trans failed)
      have literal : (-1 : Word).toNat = 0xffffffff := rfl
      rw [sse2Base, ← BitVec.ofNat_add, BitVec.toNat_ofNat, literal] at value
      simp only [Search.Outcome.pass]
      omega
  | @exhausted k _ _ stopped =>
      have reached : maxNonce ≤ sse2Base (k + 1) := by
        simpa [sse2Stop, Sse2Env.against, sse2Env, noRestart] using stopped
      rw [BitVec.le_def, sse2Base, BitVec.toNat_ofNat] at reached
      simp only [Search.Outcome.pass]
      omega

/-! ### The loop that begins at 32 -/

section

variable {env : FourWayEnv κ} {data : Block} {hasher : κ}

/-- The search ends with nothing, or with the nonce that is lost. -/
def FourWayFails (env : FourWayEnv κ) (data : Block) (hasher : κ) (o : Search.Outcome (Fin npar)) : Prop :=
  Search.Ends (fourWayPick env data hasher) (fourWayStop env) o ∧
    ∀ k j, o = .found k j → fourWayBase k + BitVec.ofNat 32 j = 0xffffffff

/-- A failing scan has tested all nonces below its bound if and only if none of them is below 2, or the counter
    has wrapped. -/
private theorem fourWay_failure_tests_iff {hash : HashValue} :
    (∀ passes out, fourWayScan env data hash hasher passes = some out → TestsBelow (-1) env.maxNonce out) ↔
      env.maxNonce ≤ 1 ∨ ∀ o, FourWayFails env data hasher o → batchCount ≤ o.pass := by
  have sim := fourWay_simulates env data hasher
  constructor
  · intro tests
    by_contra neither
    obtain ⟨high, early⟩ := not_or.mp neither
    refine early fun o ⟨ends, lost⟩ => ?_
    obtain ⟨out, ⟨passes, returned⟩, right⟩ := sim.returns_of_ends (fourWayAt_start hash) ends
    have failed : out.ret = -1 := by
      cases o with
      | found k j => exact (right.found k j rfl).1.trans (lost k j rfl)
      | exhausted k => exact (right.exhausted k rfl).1
    have tested := tests passes out returned failed 1 (BitVec.le_refl 1) (BitVec.not_le.mp high)
    rw [right.hashed] at tested
    by_contra before
    exact one_not_mem_fourWayHashed (by omega) tested
  · intro condition passes out returned failed n pos below
    obtain ⟨o, ends, right⟩ := sim.ends_of_returns (fourWayAt_start hash) ⟨passes, returned⟩
    rcases condition with low | late
    · exact absurd (BitVec.le_trans low pos) (BitVec.not_le.mpr below)
    · rw [right.hashed]
      refine mem_fourWayHashed_of_wrapped n (Nat.lt_succ_of_le (late o ⟨ends, ?_⟩))
      intro k j same
      exact (right.found k j same).1.symm.trans failed

/-- Of the batches before the counter wraps, only the last lane of the last one has the nonce 0xffffffff. -/
theorem fourWay_lastNonce_iff {k : Nat} (below : k < batchCount) (j : Fin npar) :
    fourWayBase k + BitVec.ofNat 32 j = 0xffffffff ↔ k + 1 = batchCount ∧ j.val = 31 := by
  have lane := j.isLt
  have literal : (0xffffffff : Word).toNat = 0xffffffff := rfl
  rw [fourWayBase, ← BitVec.ofNat_add, ← BitVec.toNat_inj, BitVec.toNat_ofNat, literal]
  simp only [batchCount, npar] at below lane ⊢
  omega

/-- A pass that picks its last lane has no other hit. -/
private theorem eq_of_pick_last {k : Nat} {last j : Fin npar} (isLast : last.val = 31)
    (picked : fourWayPick env data hasher k = some last) (hit : fourWayHit env data hasher k j = true) :
    j = last := by
  obtain ⟨_, before, after, split, misses⟩ := List.find?_eq_some_iff_append.mp picked
  have listed : j ∈ before ++ last :: after := split ▸ List.mem_finRange j
  rcases List.mem_append.mp listed with earlier | rest
  · have miss := misses j earlier
    rw [hit] at miss
    cases miss
  · rcases List.mem_cons.mp rest with same | later
    · exact same
    · have sorted : (before ++ last :: after).Pairwise (· < ·) := split ▸ List.pairwise_lt_finRange npar
      have above := List.rel_of_pairwise_cons (List.pairwise_append.mp sorted).2.1 later
      have lane := j.isLt
      rw [Fin.lt_def] at above
      simp only [npar] at lane
      omega

/-- When a failing scan has tested all nonces below its bound: the bound is at most 1; or the scan does not fail,
    since a nonce it comes to from 32 on and other than 0xffffffff is accepted; or its bound is above the last
    batch below 2^32 and no nonce from 32 on is accepted, so that the counter wraps. -/
def FourWayCondition (env : FourWayEnv κ) (data : Block) (hasher : κ) : Prop :=
  env.maxNonce ≤ 1 ∨
    (∃ k, k < batchCount ∧ (∀ i, i < k → fourWayBase i < env.maxNonce) ∧
      ∃ j, fourWayHit env data hasher k j = true ∧ fourWayBase k + BitVec.ofNat 32 j ≠ 0xffffffff) ∨
    (0xffffffe0 < env.maxNonce ∧ ∀ k, k < batchCount → ∀ j, fourWayHit env data hasher k j = false)

private theorem lt_maxNonce_of_open {k : Nat} (isOpen : Search.Open (fourWayPick env data hasher)
    (fourWayStop env) k) : ∀ i, i < k → fourWayBase i < env.maxNonce := by
  intro i hi
  have goOn := (isOpen i hi).2
  simp only [fourWayStop, Bool.or_eq_false_iff, decide_eq_false_iff_not] at goOn
  exact BitVec.not_le.mp goOn.1

/-- With a bound up to the last batch, or with a hit, the search ends before the counter wraps. -/
private theorem ends_before_wrap (closed : env.maxNonce ≤ 0xffffffe0 ∨
    ∃ k, k < batchCount ∧ ∃ j, fourWayHit env data hasher k j = true) :
    ∃ o, Search.Ends (fourWayPick env data hasher) (fourWayStop env) o ∧ o.pass < batchCount := by
  obtain ⟨k, below, last⟩ : ∃ k, k < batchCount ∧
      ((∃ j, fourWayPick env data hasher k = some j) ∨ fourWayStop env k = true) := by
    rcases closed with low | ⟨k, below, hit⟩
    · exact ⟨batchCount - 1, by decide, .inr (fourWayStop_last low)⟩
    · exact ⟨k, below, .inl (fourWayPick_isSome_iff.mpr hit)⟩
  obtain ⟨o, ends⟩ := Search.exists_ends_iff.mpr ⟨k, last⟩
  exact ⟨o, ends, Nat.lt_of_le_of_lt (ends.open_pass.le last) below⟩

/-- A scan that has an accepted nonce before it stops, other than the one that is lost, does not fail before the
    counter wraps. -/
private theorem pass_ge_of_hit (quiet : ∀ k, env.restart k = false) {k : Nat} {j : Fin npar} (below : k < batchCount)
    (comes : ∀ i, i < k → fourWayBase i < env.maxNonce) (hit : fourWayHit env data hasher k j = true)
    (other : fourWayBase k + BitVec.ofNat 32 j ≠ 0xffffffff) {o : Search.Outcome (Fin npar)}
    (fails : FourWayFails env data hasher o) : batchCount ≤ o.pass := by
  obtain ⟨ends, lost⟩ := fails
  have notLater : o.pass ≤ k := ends.open_pass.le (.inl (fourWayPick_isSome_iff.mpr ⟨j, hit⟩))
  cases ends with
  | @found k' j' _ picked =>
      have notLater : k' ≤ k := notLater
      obtain ⟨last, isLast⟩ := (fourWay_lastNonce_iff (by omega) j').mp (lost k' j' rfl)
      have same : k' = k := by omega
      rw [same] at picked last
      rw [eq_of_pick_last isLast picked hit] at other
      exact absurd ((fourWay_lastNonce_iff below j').mpr ⟨last, isLast⟩) other
  | @exhausted k' _ nothing stopped =>
      rcases Nat.lt_or_eq_of_le notLater with earlier | same
      · rw [fourWayStop, quiet, Bool.or_false, decide_eq_true_eq] at stopped
        exact absurd stopped (BitVec.not_le.mpr (comes k' earlier))
      · obtain ⟨_, picked⟩ := fourWayPick_isSome_iff.mpr ⟨j, hit⟩
        rw [← same] at picked
        exact absurd (picked.symm.trans nothing) (by simp)

/-- `ScanHash_4WaySSE2` has tested all nonces from 1 to its bound when it fails, exactly under this condition. -/
theorem fourWay_tests_iff (quiet : ∀ k, env.restart k = false) {hash : HashValue} :
    (∀ passes out, fourWayScan env data hash hasher passes = some out → TestsBelow (-1) env.maxNonce out) ↔
      FourWayCondition env data hasher := by
  rw [fourWay_failure_tests_iff, FourWayCondition]
  refine or_congr Iff.rfl ⟨?_, ?_⟩
  · intro late
    by_contra neither
    obtain ⟨noHit, noWrap⟩ := not_or.mp neither
    have closed : env.maxNonce ≤ 0xffffffe0 ∨
        ∃ k, k < batchCount ∧ ∃ j, fourWayHit env data hasher k j = true := by
      by_contra stays
      obtain ⟨high, silent⟩ := not_or.mp stays
      refine noWrap ⟨BitVec.not_le.mp high, fun k below j => ?_⟩
      exact Bool.eq_false_iff.mpr fun hit => silent ⟨k, below, j, hit⟩
    obtain ⟨o, ends, below⟩ := ends_before_wrap closed
    refine absurd (late o ⟨ends, ?_⟩) (by omega)
    rintro k j rfl
    by_contra other
    cases ends with
    | found isOpen picked =>
        exact noHit ⟨k, below, lt_maxNonce_of_open isOpen, j, List.find?_some picked, other⟩
  · rintro (⟨k, below, comes, j, hit, other⟩ | ⟨high, silent⟩) o fails
    · exact pass_ge_of_hit quiet below comes hit other fails
    · by_contra before
      rcases fails.1.closed with picked | stopped
      · obtain ⟨j, hit⟩ := fourWayPick_isSome_iff.mp picked
        rw [silent o.pass (by omega) j] at hit
        cases hit
      · rw [fourWayStop_high (BitVec.not_le.mpr high), quiet] at stopped
        cases stopped

end

/-! ### All four loops -/

/-- For every bound, and whatever the hashes are: without a restart, the loops of `scanhash_c`, `scanhash_cryptopp`
    and `scanhash_sse2_64` have tested all nonces from 1 to the bound when they fail, and that of
    `ScanHash_4WaySSE2` has under its condition only. -/
theorem scans_test_iff {κ₁ κ₂ κ₃ : Type} (runhashes : κ₁ → Block → κ₁ × HashValue)
    (calcHashes : κ₂ → Simd.M128 → κ₂ × Vectors) (doubleBlock : κ₃ → Block → κ₃ × Lanes)
    (target : Fin 8 → Word) (maxNonce : Word) (data : Block) (hash : HashValue) (hasher₁ : κ₁) (hasher₂ : κ₂)
    (hasher₃ : κ₃) :
    ((∀ passes out, plainScan runhashes target maxNonce noRestart data hash hasher₁ passes = some out →
        TestsBelow false maxNonce out) ∧
      (∀ passes out, sse2Scan ((sse2Env calcHashes maxNonce noRestart).against target) data hash hasher₂
          passes = some out → TestsBelow (-1) maxNonce out) ∧
      ∀ passes out, fourWayScan ((fourWayEnv doubleBlock maxNonce noRestart).against target) data hash hasher₃
          passes = some out → TestsBelow (-1) maxNonce out) ↔
      FourWayCondition ((fourWayEnv doubleBlock maxNonce noRestart).against target) data hasher₃ := by
  rw [← fourWay_tests_iff (fun _ => rfl)]
  exact ⟨fun tests => tests.2.2, fun tests => ⟨plain_tests _ _ _ _ _ _, sse2_tests _ _ _ _ _ _, tests⟩⟩

/-- Hashes whose word 7 is zero for the nonce 0xffffffff and no other. -/
def lastNonceBlock (_ : Unit) (data : Block) : Unit × Lanes :=
  ((), fun i j => if i = 7 ∧ data 3 + BitVec.ofNat 32 j = 0xffffffff then 0 else 1)

private theorem lastNonceBlock_hit (target : Fin 8 → Word) (maxNonce : Word) (data : Block) (k : Nat)
    (j : Fin npar) :
    fourWayHit ((fourWayEnv lastNonceBlock maxNonce noRestart).against target) data () k j =
      decide (fourWayBase k + BitVec.ofNat 32 j = 0xffffffff) := by
  simp [fourWayHit, fourWayHashes, Mealy.outputAt, lastNonceBlock, fourWayEnv, FourWayEnv.against, fulltest,
    runFulltest]

/-- Whatever the hashes are, `ScanHash_4WaySSE2` has tested all nonces from 1 to its bound when it fails: this
    holds for the bounds 0 and 1 only. -/
theorem fourWay_tests_all_iff (target : Fin 8 → Word) (maxNonce : Word) (data : Block) (hash : HashValue) :
    (∀ (κ : Type) (doubleBlock : κ → Block → κ × Lanes) (hasher : κ) passes out,
        fourWayScan ((fourWayEnv doubleBlock maxNonce noRestart).against target) data hash hasher passes =
          some out → TestsBelow (-1) maxNonce out) ↔ maxNonce ≤ 1 := by
  constructor
  · intro tests
    have condition := (fourWay_tests_iff (fun _ => rfl)).mp (tests Unit lastNonceBlock ())
    rcases condition with low | ⟨k, _, _, j, hit, other⟩ | ⟨_, silent⟩
    · exact low
    · rw [lastNonceBlock_hit, decide_eq_true_eq] at hit
      exact absurd hit other
    · have miss := silent (batchCount - 1) (by decide) 31
      rw [lastNonceBlock_hit, decide_eq_false_iff_not] at miss
      exact absurd ((fourWay_lastNonce_iff (by decide) 31).mpr ⟨by decide, rfl⟩) miss
  · intro low κ doubleBlock hasher
    exact (fourWay_tests_iff (fun _ => rfl)).mpr (.inl low)

/-- With the first bound of `miner_thread` and no zero word in any lane, the scan fails without having tested
    the nonce 1. -/
theorem fourWay_skips_first_nonces :
    ¬ ∀ passes out, fourWayScan ((fourWayEnv (fun (_ : Unit) _ => ((), fun _ _ => 1)) 0xffffff noRestart).against
      fun _ => 0) (fun _ => 0) (fun _ => 0) () passes = some out → TestsBelow (-1) 0xffffff out := by
  intro tests
  rcases (fourWay_tests_iff (fun _ => rfl)).mp tests with low | ⟨k, _, _, j, hit, _⟩ | ⟨high, _⟩
  · exact absurd low (by decide)
  · simp [fourWayHit, fourWayHashes, Mealy.outputAt, fourWayEnv, FourWayEnv.against] at hit
  · exact absurd high (by decide)

end CpuMiner.Scan
