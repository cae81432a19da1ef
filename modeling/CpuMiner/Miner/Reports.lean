/-
Module: CpuMiner.Miner.Reports
Layer: Miner
Purpose: What `rc` means after a scan. `vector_rc_faithful_iff` says when the return value of the vector backends
  tells a found nonce from none, and `reported_meets_target_iff` when a reported nonce has a hash that meets the
  target. Both are for any hashes, since the scans take them as a parameter.
Imports: CpuMiner.Miner.Switch
Trusted boundary: none
Main exports: RcFaithful, fourWay_rc_faithful_iff, sse2_rc_faithful, vector_rc_faithful_iff, MeetsTarget,
  reported_meets_target_iff
Open obligations: none
-/
import CpuMiner.Miner.Switch

namespace CpuMiner

open Words
open Sha256
open FourWay
open Scan
open Simd

/-! ### The sentinel -/

/-- `rc` is true exactly when the scan stopped on a candidate that `fulltest` accepted. -/
def RcFaithful (out : Scanned Word 16) : Prop := minerRc out.ret = true ↔ out.accepted.isSome = true

theorem minerRc_eq_true_iff (ret : Word) : minerRc ret = true ↔ ret ≠ 0xffffffff := by
  rw [minerRc, show (-1 : Word) = 0xffffffff from rfl]
  by_cases sentinel : ret = 0xffffffff
  · rw [if_pos sentinel]
    exact iff_of_false Bool.false_ne_true (not_not.mpr sentinel)
  · rw [if_neg sentinel]
    exact iff_of_true rfl sentinel

section

variable {κ : Type}

/-- `ScanHash_4WaySSE2` loses the nonce 0xffffffff and no other. -/
theorem fourWay_rc_faithful_iff (env : FourWayEnv κ) (data : Block) (hash : HashValue) (hasher : κ) :
    (∀ passes out, fourWayScan env data hash hasher passes = some out → RcFaithful out) ↔
      ∀ k j, Search.Ends (fourWayPick env data hasher) (fourWayStop env) (.found k j) →
        fourWayBase k + BitVec.ofNat 32 j ≠ 0xffffffff := by
  refine (fourWay_simulates env data hasher).forall_run_iff (fourWayAt_start hash) ?_ ?_
  · intro k j out right
    obtain ⟨ret, _, _, accepted⟩ := right.found k j rfl
    rw [RcFaithful, minerRc_eq_true_iff, ret, accepted]
    exact iff_true_right rfl
  · intro k out right
    obtain ⟨ret, _, accepted⟩ := right.exhausted k rfl
    rw [RcFaithful, minerRc_eq_true_iff, ret, accepted]
    exact iff_of_false (fun different => different rfl) (by decide)

/-- The batches of `scanhash_sse2_64` below the cap of `miner_thread` do not reach the sentinel. -/
theorem sse2Base_ne_sentinel {env : Sse2Env κ} {hasher : κ} {k : Nat} (j : Fin 4)
    (cap : env.maxNonce ≤ 0xfffffffa)
    (isOpen : Search.Open (sse2Pick env hasher) (sse2Stop env) k) :
    sse2Base k + BitVec.ofNat 32 j ≠ 0xffffffff := by
  intro sentinel
  have value := congrArg BitVec.toNat sentinel
  have base : (sse2Base k).toNat = 4 * k % 2 ^ 32 := BitVec.toNat_ofNat (4 * k) 32
  have literal : (0xffffffff : Word).toNat = 0xffffffff := rfl
  rw [BitVec.toNat_add, base, BitVec.toNat_ofNat, literal] at value
  obtain ⟨e, rfl⟩ : ∃ e, k = e + 1 := ⟨k - 1, by omega⟩
  have goOn := (isOpen e (by omega)).2
  simp only [sse2Stop, Bool.or_eq_false_iff, decide_eq_false_iff_not] at goOn
  have below := goOn.1
  have capLiteral : (0xfffffffa : Word).toNat = 0xfffffffa := rfl
  rw [BitVec.le_def, capLiteral] at cap
  rw [ge_iff_le, BitVec.le_def, base] at below
  omega

/-- `scanhash_sse2_64` loses no nonce for the bounds that `miner_thread` passes. -/
theorem sse2_rc_faithful {env : Sse2Env κ} (cap : env.maxNonce ≤ 0xfffffffa) (data : Block)
    (hash : HashValue) (hasher : κ) :
    ∀ passes out, sse2Scan env data hash hasher passes = some out → RcFaithful out := by
  intro passes out returned
  obtain ⟨o, ends, right⟩ := (sse2_simulates env data hasher).ends_of_returns (sse2At_start hash)
    ⟨passes, returned⟩
  rw [RcFaithful, minerRc_eq_true_iff]
  cases o with
  | found k j =>
      obtain ⟨ret, _, _, _, accepted⟩ := right.found k j rfl
      rw [ret, accepted]
      exact iff_of_true (sse2Base_ne_sentinel j cap ends.open_pass) rfl
  | exhausted k =>
      obtain ⟨ret, _, _, accepted⟩ := right.exhausted k rfl
      rw [ret, accepted]
      exact iff_of_false (fun different => different rfl) (by decide)

end

/-- For the bounds that `miner_thread` passes, `rc` is right after both vector backends exactly when the first
    accepted candidate of `ScanHash_4WaySSE2`, if there is one, is not the nonce 0xffffffff. -/
theorem vector_rc_faithful_iff {κ κ' : Type} (env4 : FourWayEnv κ) (env5 : Sse2Env κ')
    (cap : env5.maxNonce ≤ 0xfffffffa) (data : Block) (hash : HashValue) (hasher : κ) (hasher' : κ') :
    ((∀ passes out, fourWayScan env4 data hash hasher passes = some out → RcFaithful out) ∧
      ∀ passes out, sse2Scan env5 data hash hasher' passes = some out → RcFaithful out) ↔
      ∀ k j, Search.Ends (fourWayPick env4 data hasher) (fourWayStop env4) (.found k j) →
        fourWayBase k + BitVec.ofNat 32 j ≠ 0xffffffff := by
  rw [fourWay_rc_faithful_iff]
  exact ⟨And.left, fun other => ⟨other, sse2_rc_faithful cap data hash hasher'⟩⟩

/-- A kernel whose only zero word is in the last lane of the last batch below 2^32, at the cap of
    `miner_thread`. -/
def lastNonceEnv : FourWayEnv Unit where
  doubleBlock _ data := ((), fun i j => if i = 7 ∧ data 3 = 0xffffffe0 ∧ j = 31 then 0 else 1)
  fulltest _ _ := true
  maxNonce := 0xfffffffa
  restart _ := false

private theorem lastNonceEnv_hit (k : Nat) (j : Fin npar) :
    fourWayHit lastNonceEnv (fun _ => 0) () k j = decide (fourWayBase k = 0xffffffe0 ∧ j = 31) := by
  simp only [fourWayHit, fourWayHashes, Mealy.outputAt, lastNonceEnv, withNonce_nonce, Bool.and_true]
  by_cases last : fourWayBase k = 0xffffffe0 ∧ j = 31
  · simp [last]
  · simp

/-- It is found there, in pass 2^27 - 2. -/
private theorem lastNonceEnv_ends :
    Search.Ends (fourWayPick lastNonceEnv (fun _ => 0) ()) (fourWayStop lastNonceEnv)
      (.found (2 ^ 27 - 2) 31) := by
  apply Search.Ends.found
  · intro k hk
    refine ⟨?_, fourWayStop_high (by decide) k⟩
    have value := fourWayBase_toNat (show k < batchCount by simp only [batchCount]; omega)
    refine List.find?_eq_none.mpr ?_
    intro j _
    rw [lastNonceEnv_hit, decide_eq_true_eq]
    rintro ⟨base, _⟩
    rw [base] at value
    have literal : (0xffffffe0 : Word).toNat = 0xffffffe0 := rfl
    simp only [npar] at value
    omega
  · have only : fourWayHit lastNonceEnv (fun _ => 0) () (2 ^ 27 - 2) = fun j => decide (j = 31) := by
      funext j
      rw [lastNonceEnv_hit, show fourWayBase (2 ^ 27 - 2) = 0xffffffe0 from by decide]
      simp
    rw [fourWayPick, only]
    decide

/-- That nonce is accepted by `fulltest` and lost. -/
theorem fourWay_loses_last_nonce :
    ¬ ((∀ passes out, fourWayScan lastNonceEnv (fun _ => 0) (fun _ => 0) () passes = some out →
        RcFaithful out) ∧
      ∀ passes out, sse2Scan
        { calcHashes := fun (_ : Unit) _ => ((), fun _ _ => 1), fulltest := fun _ _ => true,
          maxNonce := 0xfffffffa, restart := fun _ => false } (fun _ => 0) (fun _ => 0) () passes =
            some out → RcFaithful out) := by
  rintro ⟨faithful, _⟩
  exact (fourWay_rc_faithful_iff lastNonceEnv _ _ ()).mp faithful _ _ lastNonceEnv_ends (by decide)

/-- A kernel that always has a zero word in lane 4. -/
def laneFourEnv : FourWayEnv Unit where
  doubleBlock _ _ := ((), fun i j => if i = 7 ∧ j = 4 then 0 else 1)
  fulltest _ _ := true
  maxNonce := 64
  restart _ := false

/-- A kernel that always has a zero word in lane 2. -/
def laneTwoEnv : Sse2Env Unit where
  calcHashes _ _ := ((), fun i l => if i = 7 ∧ l = 2 then 0 else 1)
  fulltest _ _ := true
  maxNonce := 64
  restart _ := false

/-- The theorem at batches that hit: both scans report their candidate, the nonce 36 and the nonce 2. -/
theorem vector_rc_faithful_hit :
    (fourWayScan laneFourEnv (fun _ => 0) (fun _ => 0) () 1).map Scanned.ret = some 36 ∧
      (sse2Scan laneTwoEnv (fun _ => 0) (fun _ => 0) () 1).map Scanned.ret = some 2 ∧
      (∀ passes out, fourWayScan laneFourEnv (fun _ => 0) (fun _ => 0) () passes = some out → RcFaithful out) ∧
      ∀ passes out, sse2Scan laneTwoEnv (fun _ => 0) (fun _ => 0) () passes = some out → RcFaithful out := by
  refine ⟨by decide +kernel, by decide +kernel,
    (vector_rc_faithful_iff laneFourEnv laneTwoEnv (by decide) _ _ _ _).mpr ?_⟩
  have first : fourWayPick laneFourEnv (fun _ => 0) () 0 = some 4 := by decide +kernel
  intro k j ends
  cases ends with
  | found isOpen picked =>
      rcases Nat.eq_zero_or_pos k with rfl | later
      · obtain rfl := Option.some.inj (first.symm.trans picked)
        decide
      · rw [(isOpen 0 later).1] at first
        cases first

/-! ### The target -/

/-- The hash meets the target. -/
def MeetsTarget (hash : HashValue) (target : Fin 8 → Word) : Prop :=
  hashNumber hash ≤ targetNumber target

instance (hash : HashValue) (target : Fin 8 → Word) : Decidable (MeetsTarget hash target) :=
  inferInstanceAs (Decidable (_ ≤ _))

section

variable {κ : Type} {m : Nat}

/-- In pass `k` the scalar loop comes to its first nonce with a zero word 7, and this is its hash. -/
def ScalarFirstZero (env : ScalarEnv κ m) (data : Fin m → Word) (hasher : κ) (k : Nat)
    (first : HashValue) : Prop :=
  Search.Ends (scalarPick env.acceptAll data hasher) (scalarStop env) (.found k first)

/-- In pass `k` the loop comes to its first nonce with a zero word 7, in lane `j`, and this is its hash. The
    nonce 0xffffffff is left out: the return value does not report it. -/
def FourWayFirstZero (env : FourWayEnv κ) (data : Block) (hasher : κ) (first : HashValue) : Prop :=
  ∃ k j, Search.Ends (fourWayPick env.acceptAll data hasher) (fourWayStop env) (.found k j) ∧
    fourWayBase k + BitVec.ofNat 32 j ≠ 0xffffffff ∧ laneHash (fourWayHashes env data hasher k) j = first

/-- The same for `scanhash_sse2_64`. -/
def Sse2FirstZero (env : Sse2Env κ) (hasher : κ) (first : HashValue) : Prop :=
  ∃ k j, Search.Ends (sse2Pick env.acceptAll hasher) (sse2Stop env) (.found k j) ∧
    sse2Base k + BitVec.ofNat 32 j ≠ 0xffffffff ∧ vectorHash (sse2Hashes env hasher k) j = first

/-- The scalar loop reports the first zero word, whatever the target is. -/
theorem scalar_meets_target_iff (env : ScalarEnv κ m) (target : Fin 8 → Word) (data : Fin m → Word)
    (hash : HashValue) (hasher : κ) :
    (∀ passes out, scalarScan (env.against target) data hash hasher passes = some out →
        out.ret = true → MeetsTarget out.hash target) ↔
      ∀ k first, ScalarFirstZero env data hasher k first → MeetsTarget first target := by
  refine (scalar_simulates (env.against target) data hasher).forall_run_iff (scalarAt_start hash) ?_ ?_
  · rintro k first _ rfl
    exact forall_prop_of_true rfl
  · rintro k _ rfl reported
    cases reported

end

section

variable {κ : Type}

theorem via_meets_target_iff (runhashes : κ → (Fin 32 → Word) → κ × HashValue)
    (target : Fin 8 → Word) (maxNonce : Word) (restart : Nat → Bool) (dataInout : Fin 32 → Word)
    (tmpHash : HashValue) (hasher : κ) :
    (∀ passes out, viaScan runhashes target maxNonce restart dataInout tmpHash hasher passes =
        some out → out.ret = true → MeetsTarget out.hash target) ↔
      ∀ k first, ScalarFirstZero (viaEnv runhashes maxNonce restart) (fun i => swab32 (dataInout i))
        hasher k first → MeetsTarget first target := by
  rw [← scalar_meets_target_iff _ target _ tmpHash hasher]
  constructor
  · intro all passes out returned
    have meets := all passes _ (Option.map_eq_some_iff.mpr ⟨out, returned, rfl⟩)
    exact meets
  · intro all passes out returned
    obtain ⟨inner, run, rfl⟩ := Option.map_eq_some_iff.mp returned
    exact all passes inner run

/-- A vector loop that returns -1 when it has found nothing reports the first zero word, whatever the target is, unless
    it has the nonce 0xffffffff. -/
private theorem vector_meets_target_iff {σ β : Type} {body : σ → σ ⊕ Scanned Word 16} {pick : Nat → Option β}
    {stop : Nat → Bool} {At : Nat → σ → Prop} {result : Search.Outcome β → Scanned Word 16 → Prop}
    (sim : Search.Simulates body pick stop At result) {s₀ : σ} (start : At 0 s₀) (nonceOf : Nat → β → Word)
    (hashOf : Nat → β → HashValue) (target : Fin 8 → Word)
    (found : ∀ k b out, result (.found k b) out → out.ret = nonceOf k b ∧ out.hash = hashOf k b)
    (exhausted : ∀ k out, result (.exhausted k) out → out.ret = -1) :
    (∀ passes out, Loop.run body passes s₀ = some out → minerRc out.ret = true → MeetsTarget out.hash target) ↔
      ∀ first, (∃ k b, Search.Ends pick stop (.found k b) ∧ nonceOf k b ≠ 0xffffffff ∧ hashOf k b = first) →
        MeetsTarget first target := by
  have firsts : (∀ passes out, Loop.run body passes s₀ = some out → minerRc out.ret = true →
      MeetsTarget out.hash target) ↔
      ∀ k b, Search.Ends pick stop (.found k b) → nonceOf k b ≠ 0xffffffff → MeetsTarget (hashOf k b) target := by
    refine sim.forall_run_iff start ?_ ?_
    · intro k b out right
      obtain ⟨ret, hash⟩ := found k b out right
      rw [minerRc_eq_true_iff, ret, hash]
    · intro k out right reported
      rw [exhausted k out right] at reported
      cases reported
  rw [firsts]
  constructor
  · rintro all _ ⟨k, b, ends, other, rfl⟩
    exact all k b ends other
  · intro all k b ends other
    exact all _ ⟨k, b, ends, other, rfl⟩

theorem fourWay_meets_target_iff (env : FourWayEnv κ) (target : Fin 8 → Word) (data : Block)
    (hash : HashValue) (hasher : κ) :
    (∀ passes out, fourWayScan (env.against target) data hash hasher passes = some out →
        minerRc out.ret = true → MeetsTarget out.hash target) ↔
      ∀ first, FourWayFirstZero env data hasher first → MeetsTarget first target := by
  refine vector_meets_target_iff (fourWay_simulates (env.against target) data hasher) (fourWayAt_start hash)
    (fun k j => fourWayBase k + BitVec.ofNat 32 j) (fun k j => laneHash (fourWayHashes env data hasher k) j) target
    ?_ ?_
  · intro k j out right
    obtain ⟨ret, _, first, _⟩ := right.found k j rfl
    exact ⟨ret, first⟩
  · intro k out right
    exact (right.exhausted k rfl).1

theorem sse2_meets_target_iff (env : Sse2Env κ) (target : Fin 8 → Word) (data : Block)
    (hash : HashValue) (hasher : κ) :
    (∀ passes out, sse2Scan (env.against target) data hash hasher passes = some out →
        minerRc out.ret = true → MeetsTarget out.hash target) ↔
      ∀ first, Sse2FirstZero env hasher first → MeetsTarget first target := by
  refine vector_meets_target_iff (sse2_simulates (env.against target) data hasher) (sse2At_start hash)
    (fun k j => sse2Base k + BitVec.ofNat 32 j) (fun k j => vectorHash (sse2Hashes env hasher k) j) target ?_ ?_
  · intro k j out right
    obtain ⟨ret, _, _, first, _⟩ := right.found k j rfl
    exact ⟨ret, first⟩
  · intro k out right
    exact (right.exhausted k rfl).1

end

/-- For each scan, whatever its hashes are: a reported nonce has a hash that meets the target exactly when the
    first nonce with a zero word 7, if the scan comes to one, has such a hash. The first part is `scanhash_c`
    and `scanhash_cryptopp`. -/
theorem reported_meets_target_iff {κ : Type} (target : Fin 8 → Word) (maxNonce : Word)
    (restart : Nat → Bool) (hash : HashValue) (hasher : κ) :
    (∀ (runhashes : κ → Block → κ × HashValue) (data : Block),
      (∀ passes out, plainScan runhashes target maxNonce restart data hash hasher passes = some out →
          out.ret = true → MeetsTarget out.hash target) ↔
        ∀ k first, ScalarFirstZero (plainEnv runhashes maxNonce restart) data hasher k first →
          MeetsTarget first target) ∧
    (∀ (runhashes : κ → (Fin 32 → Word) → κ × HashValue) (dataInout : Fin 32 → Word),
      (∀ passes out, viaScan runhashes target maxNonce restart dataInout hash hasher passes = some out →
          out.ret = true → MeetsTarget out.hash target) ↔
        ∀ k first, ScalarFirstZero (viaEnv runhashes maxNonce restart) (fun i => swab32 (dataInout i))
          hasher k first → MeetsTarget first target) ∧
    (∀ (doubleBlock : κ → Block → κ × Lanes) (data : Block),
      (∀ passes out, fourWayScan ((fourWayEnv doubleBlock maxNonce restart).against target) data hash
          hasher passes = some out → minerRc out.ret = true → MeetsTarget out.hash target) ↔
        ∀ first, FourWayFirstZero (fourWayEnv doubleBlock maxNonce restart) data hasher first →
          MeetsTarget first target) ∧
    ∀ (calcHashes : κ → M128 → κ × Vectors) (data : Block),
      (∀ passes out, sse2Scan ((sse2Env calcHashes maxNonce restart).against target) data hash hasher
          passes = some out → minerRc out.ret = true → MeetsTarget out.hash target) ↔
        ∀ first, Sse2FirstZero (sse2Env calcHashes maxNonce restart) hasher first →
          MeetsTarget first target :=
  ⟨fun _ data => scalar_meets_target_iff _ target data hash hasher,
    fun runhashes dataInout =>
      via_meets_target_iff runhashes target maxNonce restart dataInout hash hasher,
    fun _ data => fourWay_meets_target_iff _ target data hash hasher,
    fun _ data => sse2_meets_target_iff _ target data hash hasher⟩

/-- The first nonce has word 7 zero and word 6 all ones, at twice the lowest difficulty: it is reported,
    although the hash is above the target. -/
theorem reported_above_target :
    ¬ ∀ passes out, plainScan
      (fun (_ : Unit) _ => ((), fun i => if i = 7 then 0 else if i = 6 then 0xffffffff else 0))
      (fun i => if i = 6 then 0x7fff8000 else 0) 0xffffff (fun _ => false) (fun _ => 0) (fun _ => 0) ()
      passes = some out → out.ret = true →
        MeetsTarget out.hash (fun i => if i = 6 then 0x7fff8000 else 0) := by
  intro all
  have above := all 1 _ rfl rfl
  exact absurd above (by decide +kernel)

end CpuMiner
