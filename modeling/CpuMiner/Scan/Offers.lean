/-
Module: CpuMiner.Scan.Offers
Layer: Scans
Purpose: Which candidates the scans offer to `fulltest`, when it may reject some. The scalar loop goes on with the next
  nonce after a rejection, that of `ScanHash_4WaySSE2` with the next lane, and that of `scanhash_sse2_64` with the next
  batch: a second zero lane of the same batch is never offered. `hides_nothing_iff` says when no candidate is hidden.
Imports: CpuMiner.Lib.Offers, CpuMiner.Scan.FourWay, CpuMiner.Scan.Scalar, CpuMiner.Scan.Sse2Amd64
Trusted boundary: human-reviewed spec (what each pass tests and offers)
Main exports: Candidate, zeroWord, scalarOffers, sse2Offers, offeredLanes, fourWayOffers, hides_nothing_iff
Open obligations: none
-/
import CpuMiner.Lib.Offers
import CpuMiner.Scan.FourWay
import CpuMiner.Scan.Scalar
import CpuMiner.Scan.Sse2Amd64

namespace CpuMiner.Scan

open Words
open Sha256
open FourWay
open Simd

variable {κ : Type} {m : Nat}

/-- A nonce and the hash that was computed for it. -/
abbrev Candidate := Word × HashValue

/-- Those of the tested nonces whose hash has a zero word 7. -/
def zeroWord (tested : List Candidate) : List Candidate := tested.filter fun c => decide (c.2 7 = 0)

/-- The answer of `fulltest` on a candidate. -/
def answer (fulltest : Word → HashValue → Bool) (c : Candidate) : Bool := fulltest c.1 c.2

/-! ### One nonce in each pass -/

/-- What a pass of the scalar loop tests. -/
def scalarTested (env : ScalarEnv κ m) (s : ScalarLoop κ m) : List Candidate :=
  let nonce := s.n + 1
  [(nonce, (env.runhashes s.hasher (Function.update s.data env.nonceAt nonce)).2)]

/-- `(hash32[7] == 0) && fulltest(hash, target)` -/
def scalarOffers (env : ScalarEnv κ m) (s : ScalarLoop κ m) : List Candidate :=
  let nonce := s.n + 1
  let hash := (env.runhashes s.hasher (Function.update s.data env.nonceAt nonce)).2
  if hash 7 = 0 then [(nonce, hash)] else []

theorem scalarOffers_eq (env : ScalarEnv κ m) (s : ScalarLoop κ m) :
    scalarOffers env s = zeroWord (scalarTested env s) := by
  simp only [scalarOffers, scalarTested, zeroWord, List.filter_cons, List.filter_nil, decide_eq_true_eq]

theorem scalar_offers (env : ScalarEnv κ m) :
    Loop.Offers (scalarBody env) (fun out => out.ret = false) (answer env.fulltest) (fun _ => False)
      (fun s => zeroWord (scalarTested env s)) (scalarOffers env) where
  accepted s c first := by
    have offered := List.mem_of_find?_eq_some first
    have accepted := List.find?_some first
    simp only [scalarOffers] at offered
    split at offered
    · rename_i zero
      obtain rfl := List.mem_singleton.mp offered
      refine ⟨_, if_pos ⟨zero, accepted⟩, ?_⟩
      simp only [Bool.true_eq_false]
    · cases offered
  rejected s none r returned := by
    have miss : ¬ ((env.runhashes s.hasher (Function.update s.data env.nonceAt (s.n + 1))).2 7 = 0 ∧
        env.fulltest (s.n + 1)
          (env.runhashes s.hasher (Function.update s.data env.nonceAt (s.n + 1))).2 = true) := by
      rintro ⟨zero, accepted⟩
      simp only [scalarOffers, if_pos zero] at none
      exact List.find?_eq_none.mp none _ (List.mem_singleton_self _) accepted
    simp only [scalarBody, if_neg miss] at returned
    split at returned
    · cases returned
      rfl
    · cases returned
  inside s c offered := by rwa [scalarOffers_eq] at offered

/-- The scalar loop hides no candidate. -/
theorem scalar_hidesNothing (env : ScalarEnv κ m) (s₀ : ScalarLoop κ m) :
    Loop.HidesNothing (scalarBody env) s₀ (fun out => out.ret = false) (answer env.fulltest)
      (fun s => zeroWord (scalarTested env s)) (scalarOffers env) :=
  (scalar_offers env).hidesNothing_iff.mpr fun s _ =>
    ⟨fun _ c candidate => by rwa [scalarOffers_eq], fun _ _ lost => lost⟩

/-! ### Four nonces in each pass -/

/-- The candidate of lane `j`. -/
def sse2Lane (env : Sse2Env κ) (s : Sse2Loop κ) (j : Fin 4) : Candidate :=
  (s.nonce + BitVec.ofNat 32 j, vectorHash (env.calcHashes s.hasher (nonceLanes s.nonce)).2 j)

def sse2Tested (env : Sse2Env κ) (s : Sse2Loop κ) : List Candidate := (List.finRange 4).map (sse2Lane env s)

/-- The first lane that is zero, if there is one. -/
def sse2Offers (env : Sse2Env κ) (s : Sse2Loop κ) : List Candidate :=
  match firstZero (env.calcHashes s.hasher (nonceLanes s.nonce)).2 with
  | some j => [sse2Lane env s j]
  | none => []

/-- The candidate is the nonce that a scan returns as it returns a failure. -/
def Lost (c : Candidate) : Prop := c.1 = 0xffffffff

theorem sse2Offers_eq (env : Sse2Env κ) (s : Sse2Loop κ) :
    sse2Offers env s = (zeroWord (sse2Tested env s)).take 1 := by
  rw [zeroWord, sse2Tested, List.filter_map, List.take_one, List.head?_map, List.head?_filter, sse2Offers]
  change _ = ((firstZero (env.calcHashes s.hasher (nonceLanes s.nonce)).2).map (sse2Lane env s)).toList
  cases firstZero (env.calcHashes s.hasher (nonceLanes s.nonce)).2 with
  | none => rfl
  | some j => rfl

theorem sse2_offers (env : Sse2Env κ) :
    Loop.Offers (sse2Body env) (fun out => out.ret = -1) (answer env.fulltest) Lost
      (fun s => zeroWord (sse2Tested env s)) (sse2Offers env) where
  accepted s c first := by
    have offered := List.mem_of_find?_eq_some first
    have accepted := List.find?_some first
    simp only [sse2Offers] at offered
    split at offered
    · rename_i j zero
      obtain rfl := List.mem_singleton.mp offered
      have tried : tryFirst env.fulltest s.nonce (env.calcHashes s.hasher (nonceLanes s.nonce)).2 = some j :=
        Option.filter_eq_some_iff.mpr ⟨zero, accepted⟩
      simp only [sse2Body, tried]
      exact ⟨_, rfl, Iff.rfl⟩
    · cases offered
  rejected s none r returned := by
    have tried : tryFirst env.fulltest s.nonce (env.calcHashes s.hasher (nonceLanes s.nonce)).2 = .none := by
      rw [tryFirst, Option.filter_eq_none_iff]
      intro j zero accepted
      simp only [sse2Offers, zero] at none
      exact List.find?_eq_none.mp none _ (List.mem_singleton_self _) accepted
    simp only [sse2Body, tried] at returned
    split at returned
    · cases returned
      rfl
    · cases returned
  inside s c offered := by
    rw [sse2Offers_eq] at offered
    exact List.mem_of_mem_take offered

/-! ### Thirty-two nonces in each pass -/

/-- The candidate of lane `j`. -/
def fourWayLane (nonce : Word) (thash : Lanes) (j : Fin npar) : Candidate :=
  (nonce + BitVec.ofNat 32 j, laneHash thash j)

/-- What a pass tests: the lanes of the next batch. -/
def fourWayTested (env : FourWayEnv κ) (s : FourWayLoop κ) : List Candidate :=
  let nonce := s.nonce + BitVec.ofNat 32 npar
  (List.finRange npar).map (fourWayLane nonce (env.doubleBlock s.hasher (withNonce s.data nonce)).2)

/-- The lanes that are offered: those that are zero, up to the first one that is accepted. -/
def offeredLanes (fulltest : Word → HashValue → Bool) (nonce : Word) (thash : Lanes) :
    List (Fin npar) → List Candidate
  | [] => []
  | j :: js =>
      if thash 7 j = 0 then
        if fulltest (nonce + BitVec.ofNat 32 j) (laneHash thash j) = true then [fourWayLane nonce thash j]
        else fourWayLane nonce thash j :: offeredLanes fulltest nonce thash js
      else offeredLanes fulltest nonce thash js

def fourWayOffers (env : FourWayEnv κ) (s : FourWayLoop κ) : List Candidate :=
  let nonce := s.nonce + BitVec.ofNat 32 npar
  offeredLanes env.fulltest nonce (env.doubleBlock s.hasher (withNonce s.data nonce)).2 (List.finRange npar)

theorem offeredLanes_eq (fulltest : Word → HashValue → Bool) (nonce : Word) (thash : Lanes) (js : List (Fin npar)) :
    offeredLanes fulltest nonce thash js =
      Loop.upTo (answer fulltest) (zeroWord (js.map (fourWayLane nonce thash))) := by
  induction js with
  | nil => rfl
  | cons j js ih =>
      have word : (fourWayLane nonce thash j).2 7 = thash 7 j := rfl
      rw [List.map_cons, zeroWord, offeredLanes, List.filter_cons, word]
      by_cases zero : thash 7 j = 0
      · rw [if_pos zero, if_pos (decide_eq_true zero), Loop.upTo, ih]
        rfl
      · rw [if_neg zero, if_neg (by simpa using zero), ih]
        rfl

theorem fourWayOffers_eq (env : FourWayEnv κ) (s : FourWayLoop κ) :
    fourWayOffers env s = Loop.upTo (answer env.fulltest) (zeroWord (fourWayTested env s)) := offeredLanes_eq ..

/-- The first accepted candidate is that of the lane that the loop over the lanes finds. -/
theorem fourWayOffers_find? (env : FourWayEnv κ) (s : FourWayLoop κ) (hash : HashValue) :
    let nonce := s.nonce + BitVec.ofNat 32 npar
    let thash := (env.doubleBlock s.hasher (withNonce s.data nonce)).2
    (fourWayOffers env s).find? (answer env.fulltest) =
      (tryLanes env.fulltest nonce thash (List.finRange npar) hash).2.map (fourWayLane nonce thash) := by
  intro nonce thash
  rw [fourWayOffers_eq, Loop.find?_upTo, tryLanes_found, zeroWord, List.find?_filter, fourWayTested, List.find?_map]
  simp only [Bool.decide_and, Bool.decide_eq_true]
  rfl

theorem fourWay_offers (env : FourWayEnv κ) :
    Loop.Offers (fourWayBody env) (fun out => out.ret = -1) (answer env.fulltest) Lost
      (fun s => zeroWord (fourWayTested env s)) (fourWayOffers env) where
  accepted s c first := by
    rw [fourWayOffers_find? env s s.hash, Option.map_eq_some_iff] at first
    obtain ⟨j, tried, rfl⟩ := first
    simp only [fourWayBody, tried]
    exact ⟨_, rfl, Iff.rfl⟩
  rejected s none r returned := by
    rw [fourWayOffers_find? env s s.hash, Option.map_eq_none_iff] at none
    simp only [fourWayBody, none] at returned
    split at returned
    · cases returned
      rfl
    · cases returned
  inside s c offered := by
    rw [fourWayOffers_eq] at offered
    exact Loop.mem_of_mem_upTo offered

/-! ### All three loops -/

/-- The loop of `ScanHash_4WaySSE2` hides no candidate if and only if no candidate is lost. -/
theorem fourWay_hidesNothing_iff (env : FourWayEnv κ) (s₀ : FourWayLoop κ) :
    Loop.HidesNothing (fourWayBody env) s₀ (fun out => out.ret = -1) (answer env.fulltest)
        (fun s => zeroWord (fourWayTested env s)) (fourWayOffers env) ↔
      ∀ s, Loop.Visits (fourWayBody env) s₀ s →
        ∀ c, (zeroWord (fourWayTested env s)).find? (answer env.fulltest) = some c → ¬ Lost c := by
  rw [(fourWay_offers env).hidesNothing_iff]
  refine forall₂_congr fun s _ => ?_
  rw [fourWayOffers_eq, Loop.find?_upTo]
  refine and_iff_right fun none c candidate => ?_
  rwa [Loop.upTo_of_find?_eq_none none]

/-- The nonces of the four lanes are different. -/
theorem sse2Tested_nodup (env : Sse2Env κ) (s : Sse2Loop κ) : (sse2Tested env s).Nodup := by
  refine (List.nodup_finRange 4).map fun i j same => ?_
  have nonces : s.nonce + BitVec.ofNat 32 i = s.nonce + BitVec.ofNat 32 j := congrArg Prod.fst same
  have values := congrArg BitVec.toNat ((BitVec.add_right_inj _).mp nonces)
  rw [BitVec.toNat_ofNat, BitVec.toNat_ofNat] at values
  exact Fin.ext (by omega)

/-- The loop of `scanhash_sse2_64` hides no candidate if and only if, in every batch that it comes to, the first zero
    lane is accepted and its nonce is not lost, or it is the only one. -/
theorem sse2_hidesNothing_iff (env : Sse2Env κ) (s₀ : Sse2Loop κ) :
    Loop.HidesNothing (sse2Body env) s₀ (fun out => out.ret = -1) (answer env.fulltest)
        (fun s => zeroWord (sse2Tested env s)) (sse2Offers env) ↔
      ∀ s, Loop.Visits (sse2Body env) s₀ s → ∀ c rest, zeroWord (sse2Tested env s) = c :: rest →
        if answer env.fulltest c = true then ¬ Lost c else rest = [] := by
  rw [(sse2_offers env).hidesNothing_iff]
  refine forall₂_congr fun s _ => ?_
  have nodup : (zeroWord (sse2Tested env s)).Nodup := (sse2Tested_nodup env s).filter _
  rw [sse2Offers_eq]
  cases candidates : zeroWord (sse2Tested env s) with
  | nil =>
      refine iff_of_true ⟨fun _ _ none => none, ?_⟩ ?_
      · intro c none
        cases none
      · intro c rest empty
        cases empty
  | cons c rest =>
      rw [candidates] at nodup
      simp only [List.cons.injEq, and_imp, forall_eq', forall_apply_eq_imp_iff]
      exact Loop.offersFirst_iff nodup

/-- For all tests, hashes and restarts: no loop hides a candidate, if and only if `scanhash_sse2_64` comes to no batch
    whose first zero lane is rejected while another lane is zero, and neither vector loop accepts the nonce that reads
    as a failure. -/
theorem hides_nothing_iff {κ₁ κ₂ κ₃ : Type} (env₁ : ScalarEnv κ₁ 16) (env₂ : FourWayEnv κ₂) (env₃ : Sse2Env κ₃)
    (data : Block) (hash : HashValue) (hasher₁ : κ₁) (hasher₂ : κ₂) (hasher₃ : κ₃) :
    (Loop.HidesNothing (scalarBody env₁) (scalarStart data hash hasher₁) (fun out => out.ret = false)
        (answer env₁.fulltest) (fun s => zeroWord (scalarTested env₁ s)) (scalarOffers env₁) ∧
      Loop.HidesNothing (fourWayBody env₂) (fourWayStart data hash hasher₂) (fun out => out.ret = -1)
        (answer env₂.fulltest) (fun s => zeroWord (fourWayTested env₂ s)) (fourWayOffers env₂) ∧
      Loop.HidesNothing (sse2Body env₃) (sse2Start data hash hasher₃) (fun out => out.ret = -1)
        (answer env₃.fulltest) (fun s => zeroWord (sse2Tested env₃ s)) (sse2Offers env₃)) ↔
      (∀ s, Loop.Visits (fourWayBody env₂) (fourWayStart data hash hasher₂) s → ∀ c,
        (zeroWord (fourWayTested env₂ s)).find? (answer env₂.fulltest) = some c → ¬ Lost c) ∧
      ∀ s, Loop.Visits (sse2Body env₃) (sse2Start data hash hasher₃) s → ∀ c rest,
        zeroWord (sse2Tested env₃ s) = c :: rest →
          if answer env₃.fulltest c = true then ¬ Lost c else rest = [] := by
  rw [fourWay_hidesNothing_iff, sse2_hidesNothing_iff]
  exact and_iff_right (scalar_hidesNothing env₁ _)

/-- Hashes with a zero word in the first two lanes, a test that accepts the nonce 1 and no other, and the bound 4. -/
def twoZeroLanes : Sse2Env Unit where
  calcHashes _ _ := ((), fun i j => if i = 7 ∧ j.val < 2 then 0 else 1)
  fulltest nonce _ := decide (nonce = 1)
  maxNonce := 4
  restart _ := false

/-- The candidates of the first batch are 0 and 1. Only 0 is offered and rejected, and the scan fails, although 1 is
    accepted. -/
theorem sse2_hides_second :
    let s := sse2Start (fun _ => 0) initialHash ()
    (zeroWord (sse2Tested twoZeroLanes s)).map Prod.fst = [0, 1] ∧
      (sse2Offers twoZeroLanes s).map Prod.fst = [0] ∧
      (sse2Scan twoZeroLanes (fun _ => 0) initialHash () 1).map Scanned.ret = some (-1) ∧
      (∀ hash, answer twoZeroLanes.fulltest (1, hash) = true) ∧
      ¬ Loop.HidesNothing (sse2Body twoZeroLanes) s (fun out => out.ret = -1) (answer twoZeroLanes.fulltest)
        (fun s => zeroWord (sse2Tested twoZeroLanes s)) (sse2Offers twoZeroLanes) := by
  intro s
  have candidates : (zeroWord (sse2Tested twoZeroLanes s)).map Prod.fst = [0, 1] := by decide
  have offered : (sse2Offers twoZeroLanes s).map Prod.fst = [0] := by decide
  have accepted : ∀ hash, answer twoZeroLanes.fulltest (1, hash) = true := fun _ => rfl
  refine ⟨candidates, offered, by decide, accepted, fun hides => ?_⟩
  have one : (1 : Word) ∈ (zeroWord (sse2Tested twoZeroLanes s)).map Prod.fst := by
    rw [candidates]
    decide
  obtain ⟨⟨nonce, hash⟩, candidate, rfl⟩ := List.mem_map.mp one
  obtain ⟨out, returned, failed⟩ : ∃ out, sse2Body twoZeroLanes s = .inr out ∧ out.ret = -1 := ⟨_, rfl, rfl⟩
  have rejected := hides.rejectsAll out (.of_inr returned) failed s .start _ candidate
  rw [accepted] at rejected
  cases rejected

end CpuMiner.Scan
