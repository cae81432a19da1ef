/-
Module: CpuMiner.Scan.FourWay
Layer: Scans
Purpose: The loop of `ScanHash_4WaySSE2`: thirty-two nonces in each pass, every lane with a zero word 7 is offered
  to `fulltest`, the found nonce or -1 is returned. The hashes are a parameter. `fourWay_simulates` says that the
  loop is a search through the batches that start at 32, 64, 96, ... modulo 2^32, and
  `scanHash4WaySSE2_sound_iff` for which bounds and tests it ends, does not wrap and hashes no nonce twice.
Imports: CpuMiner.Kernel.FourWay, CpuMiner.Lib.Search, CpuMiner.Scan.Scalar, CpuMiner.Util.Fulltest
Trusted boundary: human-reviewed spec (the transcription of the C code)
Main exports: FourWayLoop, fourWayBody, fourWayScan, fourWayBase, fourWayPick, fourWayStop, fourWay_simulates,
  FourWaySound, scanHash4WaySSE2_sound_iff, scanHash4WaySSE2
Open obligations: none
-/
import CpuMiner.Kernel.FourWay
import CpuMiner.Lib.Search
import CpuMiner.Scan.Scalar
import CpuMiner.Util.Fulltest

namespace CpuMiner.Scan

open Words
open Sha256
open FourWay

variable {κ : Type}

/-- The array `thash`: nine words for each lane. -/
abbrev Lanes := Fin 9 → Fin npar → Word

/-- The eight words `thash[0..7][j]`, as they are copied to `phash`. -/
def laneHash (thash : Lanes) (j : Fin npar) : HashValue := fun i => thash ⟨i, by omega⟩ j

/-- The loop over the lanes: the new contents of `phash`, and the first lane that `fulltest` accepts. -/
def tryLanes (fulltest : Word → HashValue → Bool) (nonce : Word) (thash : Lanes) :
    List (Fin npar) → HashValue → HashValue × Option (Fin npar)
  | [], hash => (hash, none)
  | j :: js, hash =>
      if thash 7 j = 0 then
        let hash' := laneHash thash j
        if fulltest (nonce + BitVec.ofNat 32 j) hash' = true then (hash', some j)
        else tryLanes fulltest nonce thash js hash'
      else tryLanes fulltest nonce thash js hash

/-- The variables of the loop. `pass` and `hashed` are for the proofs. -/
structure FourWayLoop (κ : Type) where
  nonce : Word
  data : Block
  hash : HashValue
  hasher : κ
  pass : Nat
  hashed : List Word

/-- The code around the loop: the hashes, `fulltest`, the bound and what the reads of the restart flag give. -/
structure FourWayEnv (κ : Type) where
  doubleBlock : κ → Block → κ × Lanes
  fulltest : Word → HashValue → Bool
  maxNonce : Word
  restart : Nat → Bool

/-- The same surroundings with the `fulltest` of util.c, for a target. -/
def FourWayEnv.against (env : FourWayEnv κ) (target : Fin 8 → Word) : FourWayEnv κ :=
  { env with fulltest := fun _ hash => CpuMiner.fulltest hash target }

/-- The same surroundings with a test that accepts every candidate. -/
def FourWayEnv.acceptAll (env : FourWayEnv κ) : FourWayEnv κ :=
  { env with fulltest := fun _ _ => true }

/-- The nonces of the batch that starts at `base`. -/
def batch (base : Word) : List Word :=
  (List.finRange npar).map fun j => base + BitVec.ofNat 32 j.val

/-- The body of `for (;;)`. -/
def fourWayBody (env : FourWayEnv κ) (s : FourWayLoop κ) : FourWayLoop κ ⊕ Scanned Word 16 :=
  let nonce := s.nonce + BitVec.ofNat 32 npar
  let data := withNonce s.data nonce
  let hashing := env.doubleBlock s.hasher data
  let hashed := s.hashed ++ batch nonce
  let tried := tryLanes env.fulltest nonce hashing.2 (List.finRange npar) s.hash
  match tried.2 with
  | some j =>
      let found := nonce + BitVec.ofNat 32 j
      .inr { ret := found, hashesDone := nonce.toNat, data := withNonce data found, hash := tried.1,
             accepted := some (found, tried.1), hashed }
  | none =>
      if nonce ≥ env.maxNonce ∨ env.restart s.pass = true then
        .inr { ret := -1, hashesDone := nonce.toNat, data, hash := tried.1, accepted := none, hashed }
      else
        .inl { nonce, data, hash := tried.1, hasher := hashing.1, pass := s.pass + 1, hashed }

def fourWayStart (data : Block) (hash : HashValue) (hasher : κ) : FourWayLoop κ where
  nonce := 0
  data := data
  hash := hash
  hasher := hasher
  pass := 0
  hashed := []

/-- The loop, for at most the given number of passes. -/
def fourWayScan (env : FourWayEnv κ) (data : Block) (hash : HashValue) (hasher : κ) (passes : Nat) :
    Option (Scanned Word 16) :=
  Loop.run (fourWayBody env) passes (fourWayStart data hash hasher)

/-! ### The loop as a search -/

/-- The first nonce of the batch of pass `k`. -/
def fourWayBase (k : Nat) : Word := BitVec.ofNat 32 (npar * (k + 1))

/-- The hashes of pass `k`. -/
def fourWayHashes (env : FourWayEnv κ) (data : Block) (hasher : κ) (k : Nat) : Lanes :=
  Mealy.outputAt env.doubleBlock (fun k => withNonce data (fourWayBase k)) hasher k

/-- Lane `j` of pass `k` is a candidate that `fulltest` accepts. -/
def fourWayHit (env : FourWayEnv κ) (data : Block) (hasher : κ) (k : Nat) (j : Fin npar) : Bool :=
  let thash := fourWayHashes env data hasher k
  decide (thash 7 j = 0) && env.fulltest (fourWayBase k + BitVec.ofNat 32 j) (laneHash thash j)

/-- The lane that is accepted in pass `k`, if there is one. -/
def fourWayPick (env : FourWayEnv κ) (data : Block) (hasher : κ) (k : Nat) : Option (Fin npar) :=
  (List.finRange npar).find? (fourWayHit env data hasher k)

/-- The test at the end of pass `k`. -/
def fourWayStop (env : FourWayEnv κ) (k : Nat) : Bool :=
  decide (fourWayBase k ≥ env.maxNonce) || env.restart k

/-- The nonces of the first `k` passes. -/
def fourWayHashed (k : Nat) : List Word := (List.range k).flatMap fun i => batch (fourWayBase i)

/-- The loop state at the start of pass `k`. -/
structure FourWayAt (env : FourWayEnv κ) (data : Block) (hasher : κ) (k : Nat)
    (s : FourWayLoop κ) : Prop where
  nonce : s.nonce = BitVec.ofNat 32 (npar * k)
  area : ∀ w, withNonce s.data w = withNonce data w
  hasher : s.hasher = Mealy.stateAt env.doubleBlock
    (fun k => withNonce data (fourWayBase k)) hasher k
  pass : s.pass = k
  hashed : s.hashed = fourWayHashed k

/-- What the scan returns for the outcome of the search. Of the contents of `phash` this says only what they
    are after a hit. -/
structure FourWayResult (env : FourWayEnv κ) (data : Block) (hasher : κ)
    (o : Search.Outcome (Fin npar)) (out : Scanned Word 16) : Prop where
  hashesDone : out.hashesDone = (fourWayBase o.pass).toNat
  hashed : out.hashed = fourWayHashed (o.pass + 1)
  found : ∀ k j, o = .found k j →
    let nonce := fourWayBase k + BitVec.ofNat 32 j
    let hash := laneHash (fourWayHashes env data hasher k) j
    out.ret = nonce ∧ out.data = withNonce data nonce ∧ out.hash = hash ∧
      out.accepted = some (nonce, hash)
  exhausted : ∀ k, o = .exhausted k →
    out.ret = -1 ∧ out.data = withNonce data (fourWayBase k) ∧ out.accepted = none

variable {env : FourWayEnv κ} {data : Block} {hasher : κ}

theorem fourWayAt_start (hash : HashValue) :
    FourWayAt env data hasher 0 (fourWayStart data hash hasher) where
  nonce := rfl
  area _ := rfl
  hasher := rfl
  pass := rfl
  hashed := rfl

/-- The loop over the lanes finds the first lane that is accepted, and leaves its hash in `phash`. -/
theorem tryLanes_found (fulltest : Word → HashValue → Bool) (nonce : Word) (thash : Lanes)
    (js : List (Fin npar)) (hash : HashValue) :
    (tryLanes fulltest nonce thash js hash).2 =
      js.find? (fun j => decide (thash 7 j = 0) &&
        fulltest (nonce + BitVec.ofNat 32 j) (laneHash thash j)) := by
  induction js generalizing hash with
  | nil => rfl
  | cons j js ih =>
      by_cases zero : thash 7 j = 0
      · by_cases accepted : fulltest (nonce + BitVec.ofNat 32 j) (laneHash thash j) = true
        · simp [tryLanes, zero, accepted]
        · simp [tryLanes, zero, accepted, ih]
      · simp only [tryLanes, if_neg zero, ih, List.find?_cons, decide_eq_false zero, Bool.false_and]

theorem tryLanes_hash (fulltest : Word → HashValue → Bool) (nonce : Word) (thash : Lanes)
    (js : List (Fin npar)) (hash : HashValue) (j : Fin npar)
    (found : (tryLanes fulltest nonce thash js hash).2 = some j) :
    (tryLanes fulltest nonce thash js hash).1 = laneHash thash j := by
  induction js generalizing hash with
  | nil => cases found
  | cons i js ih =>
      by_cases zero : thash 7 i = 0
      · by_cases accepted : fulltest (nonce + BitVec.ofNat 32 i) (laneHash thash i) = true
        · simp only [tryLanes, zero, accepted, if_true] at found ⊢
          rw [Option.some.inj found]
        · simp only [tryLanes, zero, accepted, if_true, if_false, Bool.false_eq_true] at found ⊢
          exact ih _ found
      · simp only [tryLanes, zero, if_false] at found ⊢
        exact ih _ found

/-- The loop is the search. -/
theorem fourWay_simulates (env : FourWayEnv κ) (data : Block) (hasher : κ) :
    Search.Simulates (fourWayBody env) (fourWayPick env data hasher) (fourWayStop env)
      (FourWayAt env data hasher) (FourWayResult env data hasher) := by
  have nonce : ∀ {k s}, FourWayAt env data hasher k s →
      s.nonce + BitVec.ofNat 32 npar = fourWayBase k := by
    intro k s here
    rw [here.nonce, fourWayBase, ← BitVec.ofNat_add]
    rfl
  have hashed : ∀ {k s}, FourWayAt env data hasher k s →
      s.hashed ++ batch (fourWayBase k) = fourWayHashed (k + 1) := by
    intro k s here
    rw [here.hashed, fourWayHashed, fourWayHashed, List.range_succ, List.flatMap_append,
      List.flatMap_singleton]
  have hash : ∀ {k s}, FourWayAt env data hasher k s →
      (env.doubleBlock s.hasher (withNonce data (fourWayBase k))).2 =
        fourWayHashes env data hasher k := by
    intro k s here
    rw [here.hasher]
    rfl
  have pick : ∀ {k} (h : HashValue), (tryLanes env.fulltest (fourWayBase k)
      (fourWayHashes env data hasher k) (List.finRange npar) h).2 = fourWayPick env data hasher k := by
    intro k h
    rw [tryLanes_found]
    rfl
  refine ⟨?_, ?_, ?_⟩
  · intro k s j here picked
    have tried := (pick s.hash).trans picked
    have filled := tryLanes_hash _ _ _ _ _ j tried
    refine ⟨?out, ?returned, ?right⟩
    case returned =>
      simp only [fourWayBody, nonce here, here.area, hash here, tried]
      rfl
    case right =>
      refine ⟨rfl, hashed here, ?_, ?_⟩
      · intro k' j' same
        cases same
        refine ⟨rfl, ?_, filled, ?_⟩
        · exact withNonce_withNonce _ _ _
        · rw [filled]
      · intro k' same
        cases same
  · intro k s here nothing stopped
    have tried := (pick s.hash).trans nothing
    have last : fourWayBase k ≥ env.maxNonce ∨ env.restart s.pass = true := by
      rw [here.pass]
      simpa only [fourWayStop, Bool.or_eq_true, decide_eq_true_eq] using stopped
    refine ⟨?last, ?stopping, ?result⟩
    case stopping =>
      simp only [fourWayBody, nonce here, here.area, hash here, tried, if_pos last]
      rfl
    case result =>
      refine ⟨rfl, hashed here, ?_, ?_⟩
      · intro k' j' same
        cases same
      · intro k' same
        cases same
        exact ⟨rfl, rfl, rfl⟩
  · intro k s here nothing goOn
    have tried := (pick s.hash).trans nothing
    have more : ¬ (fourWayBase k ≥ env.maxNonce ∨ env.restart s.pass = true) := by
      rw [here.pass]
      simpa only [fourWayStop, Bool.or_eq_false_iff, decide_eq_false_iff_not, not_or,
        Bool.not_eq_true] using goOn
    refine ⟨?next, ?went, ?there⟩
    case went =>
      simp only [fourWayBody, nonce here, here.area, hash here, tried, if_neg more]
      rfl
    case there =>
      refine ⟨rfl, ?_, ?_, congrArg (· + 1) here.pass, hashed here⟩
      · intro w
        exact withNonce_withNonce _ _ _
      · simp only [here.hasher]
        rfl

/-! ### The top of the nonce range -/

/-- The number of batches that start above 0 and below 2^32. -/
def batchCount : Nat := 2 ^ 27 - 1

theorem fourWayBase_toNat {k : Nat} (hk : k < batchCount) :
    (fourWayBase k).toNat = npar * (k + 1) := by
  simp only [batchCount, npar] at hk ⊢
  rw [fourWayBase, BitVec.toNat_ofNat, npar]
  omega

/-- The nonces of the first passes are the numbers from 32 on. -/
theorem fourWayHashed_eq (k : Nat) :
    fourWayHashed k = (List.range (npar * k)).map fun i => BitVec.ofNat 32 (npar + i) := by
  induction k with
  | zero => rfl
  | succ k ih =>
      have lanes : batch (fourWayBase k) =
          (List.range npar).map fun j => BitVec.ofNat 32 (npar + (npar * k + j)) := by
        have offsets : (List.finRange npar).map Fin.val = List.range npar := by decide
        rw [← offsets, List.map_map, batch]
        apply List.map_congr_left
        intro j _
        rw [fourWayBase, ← BitVec.ofNat_add]
        simp only [npar]
        congr 1
        omega
      rw [fourWayHashed, List.range_succ, List.flatMap_append, List.flatMap_singleton, ← fourWayHashed,
        ih, lanes, show npar * (k + 1) = npar * k + npar from rfl, List.range_add, List.map_append,
        List.map_map]
      rfl

/-- Up to the last batch below 2^32, no nonce is hashed twice. -/
theorem fourWayHashed_nodup {k : Nat} (hk : k ≤ batchCount) : (fourWayHashed k).Nodup := by
  rw [fourWayHashed_eq, List.Nodup, List.pairwise_map]
  refine List.Pairwise.imp_of_mem ?_ List.pairwise_lt_range
  intro a b ha hb below same
  have upper := List.mem_range.mp hb
  have values := congrArg BitVec.toNat same
  rw [BitVec.toNat_ofNat, BitVec.toNat_ofNat] at values
  simp only [batchCount, npar] at hk upper values
  omega

/-- The lanes of a pass have a hit if and only if the pass picks one. -/
theorem fourWayPick_isSome_iff {k : Nat} :
    (∃ j, fourWayPick env data hasher k = some j) ↔ ∃ j, fourWayHit env data hasher k j = true := by
  constructor
  · rintro ⟨j, picked⟩
    exact ⟨j, List.find?_some picked⟩
  · rintro ⟨j, hit⟩
    have found : ((List.finRange npar).find? (fourWayHit env data hasher k)).isSome = true :=
      List.find?_isSome.mpr ⟨j, List.mem_finRange j, hit⟩
    exact Option.isSome_iff_exists.mp found

/-- The scan ends; its counter does not pass 2^32, also not when the next pass starts; and it hashes no nonce
    twice. -/
structure FourWaySound (env : FourWayEnv κ) (data : Block) (hash : HashValue) (hasher : κ) : Prop where
  ends : ∃ passes out, fourWayScan env data hash hasher passes = some out
  noWrap : ∀ s, Loop.Visits (fourWayBody env) (fourWayStart data hash hasher) s →
    s.nonce.toNat + npar < 2 ^ 32
  once : ∀ passes out, fourWayScan env data hash hasher passes = some out → out.hashed.Nodup

/-- If the search is over by the last batch below 2^32, the scan is sound. -/
private theorem fourWaySound_of_closed {hash : HashValue} {last : Nat} (below : last < batchCount)
    (closed : (∃ j, fourWayPick env data hasher last = some j) ∨ fourWayStop env last = true) :
    FourWaySound env data hash hasher := by
  have sim := fourWay_simulates env data hasher
  have start : FourWayAt env data hasher 0 _ := fourWayAt_start hash
  refine ⟨?_, ?_, ?_⟩
  · obtain ⟨out, passes, returned⟩ := (sim.exists_returns_iff start).mpr
      (Search.exists_ends_iff.mpr ⟨last, closed⟩)
    exact ⟨passes, out, returned⟩
  · intro s visited
    obtain ⟨k, isOpen, here⟩ := sim.visits start visited
    have notLater := isOpen.le closed
    rw [here.nonce, BitVec.toNat_ofNat]
    simp only [batchCount, npar] at below ⊢
    omega
  · intro passes out returned
    obtain ⟨o, ends, right⟩ := sim.ends_of_returns start ⟨passes, returned⟩
    have notLater := ends.open_pass.le closed
    rw [right.hashed]
    exact fourWayHashed_nodup (by omega)

/-- No batch starts after 0xffffffe0. -/
theorem fourWayBase_le (k : Nat) : (fourWayBase k).toNat ≤ 0xffffffe0 := by
  rw [fourWayBase, BitVec.toNat_ofNat]
  simp only [npar]
  omega

/-- A bound up to the last batch stops the scan there, if not before. -/
theorem fourWayStop_last (low : env.maxNonce ≤ 0xffffffe0) : fourWayStop env (batchCount - 1) = true := by
  have value := @fourWayBase_toNat (batchCount - 1) (by decide)
  have reached : fourWayBase (batchCount - 1) ≥ env.maxNonce := by
    rw [BitVec.le_def] at low
    rw [ge_iff_le, BitVec.le_def, value]
    exact low
  rw [fourWayStop, decide_eq_true reached, Bool.true_or]

/-- With a bound above the last batch, only a restart stops the scan. -/
theorem fourWayStop_high (high : ¬ env.maxNonce ≤ 0xffffffe0) (k : Nat) : fourWayStop env k = env.restart k := by
  have literal : (0xffffffe0 : Word).toNat = 0xffffffe0 := rfl
  have below := fourWayBase_le k
  have above : ¬ fourWayBase k ≥ env.maxNonce := by
    rw [BitVec.le_def, literal] at high
    rw [ge_iff_le, BitVec.le_def]
    omega
  rw [fourWayStop, decide_eq_false above, Bool.false_or]

/-- With such a bound and no candidate in the batches below 2^32, the counter wraps. -/
private theorem not_fourWaySound {hash : HashValue} (high : ¬ env.maxNonce ≤ 0xffffffe0)
    (noRestart : ∀ k, env.restart k = false)
    (noHit : ¬ ∃ k, k < batchCount ∧ ∃ j, fourWayHit env data hasher k j = true) :
    ¬ FourWaySound env data hash hasher := by
  intro sound
  have isOpen : Search.Open (fourWayPick env data hasher) (fourWayStop env) batchCount := by
    intro k hk
    refine ⟨?_, (fourWayStop_high high k).trans (noRestart k)⟩
    by_contra picked
    obtain ⟨j, hit⟩ := fourWayPick_isSome_iff.mp (Option.ne_none_iff_exists'.mp picked)
    exact noHit ⟨k, hk, j, hit⟩
  obtain ⟨s, visited, here⟩ := (fourWay_simulates env data hasher).visits_of_open
    (fourWayAt_start hash) batchCount isOpen
  have bounded := sound.noWrap s visited
  rw [here.nonce] at bounded
  exact absurd bounded (by decide)

/-- With such a bound and no candidate at all, the scan does not return. -/
theorem fourWayScan_eq_none {hash : HashValue} (high : ¬ env.maxNonce ≤ 0xffffffe0)
    (noRestart : ∀ k, env.restart k = false)
    (noHit : ¬ ∃ k j, fourWayHit env data hasher k j = true) (passes : Nat) :
    fourWayScan env data hash hasher passes = none := by
  by_contra returned
  obtain ⟨out, returned⟩ := Option.ne_none_iff_exists'.mp returned
  obtain ⟨o, ends, _⟩ := (fourWay_simulates env data hasher).ends_of_returns (fourWayAt_start hash)
    ⟨passes, returned⟩
  rcases ends.closed with picked | stopped
  · obtain ⟨j, hit⟩ := fourWayPick_isSome_iff.mp picked
    exact noHit ⟨o.pass, j, hit⟩
  · rw [fourWayStop_high high, noRestart] at stopped
    cases stopped

/-- For which bounds and tests the scan is sound under every restart schedule: the bound is at most the last
    batch below 2^32, or one of the batches below 2^32 has a candidate that `fulltest` accepts. -/
theorem scanHash4WaySSE2_sound_iff (doubleBlock : κ → Block → κ × Lanes)
    (fulltest : Word → HashValue → Bool) (maxNonce : Word) (data : Block) (hash : HashValue)
    (hasher : κ) :
    (∀ restart, FourWaySound { doubleBlock, fulltest, maxNonce, restart } data hash hasher) ↔
      maxNonce ≤ 0xffffffe0 ∨
        ∃ k, k < batchCount ∧ ∃ j, fourWayHit { doubleBlock, fulltest, maxNonce, restart := fun _ => false }
          data hasher k j = true := by
  constructor
  · intro sound
    by_contra neither
    obtain ⟨high, noHit⟩ := not_or.mp neither
    exact not_fourWaySound high (fun _ => rfl) noHit (sound fun _ => false)
  · rintro (low | ⟨k, below, hit⟩) restart
    · exact @fourWaySound_of_closed _ _ _ _ _ (batchCount - 1) (by decide) (.inr (fourWayStop_last low))
    · exact fourWaySound_of_closed below (.inl (fourWayPick_isSome_iff.mpr hit))

/-- At the cap of `miner_thread`, with no zero word in any lane and no restart. -/
theorem scanHash4WaySSE2_not_sound_at_cap :
    ¬ FourWaySound (κ := Unit)
      { doubleBlock := fun _ _ => ((), fun _ _ => 1), fulltest := fun _ _ => true,
        maxNonce := 0xfffffffa, restart := fun _ => false } (fun _ => 0) (fun _ => 0) () := by
  refine not_fourWaySound (by decide) (fun _ => rfl) ?_
  rintro ⟨k, _, j, hit⟩
  simp [fourWayHit, fourWayHashes, Mealy.outputAt] at hit

/-! ### The scan with its kernel -/

/-- What stands around the loop; the test is filled in by `against`. -/
def fourWayEnv (doubleBlock : κ → Block → κ × Lanes) (maxNonce : Word) (restart : Nat → Bool) :
    FourWayEnv κ where
  doubleBlock := doubleBlock
  fulltest _ _ := true
  maxNonce := maxNonce
  restart := restart

/-- The call of `DoubleBlockSHA256`. It fills all of `thash` that is read, so it has no state. -/
def fourWayHash (midstate : HashValue) (hash1 : Block) (_ : Unit) (data : Block) : Unit × Lanes :=
  ((), doubleBlockSHA256 data hash1 midstate pSHA256InitState)

/-- `ScanHash_4WaySSE2`. -/
def scanHash4WaySSE2 (midstate : HashValue) (data hash1 : Block) (hash : HashValue)
    (target : Fin 8 → Word) (maxNonce : Word) (restart : Nat → Bool) (passes : Nat) :
    Option (Scanned Word 16) :=
  fourWayScan ((fourWayEnv (fourWayHash midstate hash1) maxNonce restart).against target) data hash ()
    passes

/-- In every pass of `ScanHash_4WaySSE2`, word 7 of lane `j` is that of the double hash for the nonce of that
    lane. -/
theorem fourWayHashes_eq {midstate : HashValue} {hash1 : Block} {env : FourWayEnv Unit}
    (kernel : env.doubleBlock = fourWayHash midstate hash1) (data : Block) (k : Nat) (j : Fin npar) :
    fourWayHashes env data () k 7 j =
      compress initialHash (digestBlock (compress midstate
        (withNonce data (fourWayBase k + BitVec.ofNat 32 j))) hash1) 7 := by
  simp only [fourWayHashes, Mealy.outputAt, kernel, fourWayHash, pSHA256InitState_eq]
  rw [doubleBlockSHA256_seven, withNonce_nonce, withNonce_withNonce]

end CpuMiner.Scan
