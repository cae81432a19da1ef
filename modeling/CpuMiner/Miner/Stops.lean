/-
Module: CpuMiner.Miner.Stops
Layer: Miner
Purpose: What a scan does with its restart flag. `scanAfter` is a scan as a function of what it has read from the
  flag so far; for every backend, a scan that reads a set flag returns, and reports no nonce.
Imports: CpuMiner.Miner.Switch
Trusted boundary: none
Main exports: ScanReturn, Scan, scanAfter, scanAfter_stops
Open obligations: none
-/
import CpuMiner.Miner.Switch

namespace CpuMiner

open Words
open Sha256
open FourWay
open Scan
open Simd

/-- What a scan leaves in the work, and `rc`. -/
structure ScanReturn where
  work : Work
  rc : Bool

/-- A scan, as a function of what it has read from its restart flag so far: it has returned, or it goes on to
    read the flag again. -/
def Scan : Type := List Bool → Option ScanReturn

/-- The scan of the given backend. -/
def scanAfter (algo : Sha256Algo) (work : Work) (maxNonce : Word) (outside : Outside) : Scan :=
  fun reads =>
    (minerScan algo work maxNonce { outside with restart := fun k => reads.getD k false }
      (reads.length + 1)).map fun out => { work := out.work, rc := out.rc }

/-! ### The three loops -/

section

variable {restart : Nat → Bool} {hash : HashValue} {k : Nat}

/-- The flag reads as in `before` until pass `k`, and is set in this pass. -/
structure SetInPass (before restart : Nat → Bool) (k : Nat) : Prop where
  same : ∀ i, i < k → restart i = before i
  set : restart k = true

theorem scalarScan_stops {κ : Type} {m : Nat} {env : ScalarEnv κ m} {data : Fin m → Word} {hasher : κ}
    (flag : SetInPass env.restart restart k)
    (pending : scalarScan env data hash hasher (k + 1) = none) :
    ∃ out, scalarScan { env with restart := restart } data hash hasher (k + 2) = some out ∧
      out.ret = false := by
  obtain ⟨out, returned, rfl⟩ := (scalar_simulates env data hasher).stops_next
    (scalar_simulates { env with restart := restart } data hasher) (scalarAt_start hash)
    (scalarAt_start hash) pending (fun i early => by simp [scalarStop, flag.same i early])
    (by simp [scalarStop, flag.set])
  exact ⟨_, returned (k + 2) (by omega), rfl⟩

theorem fourWayScan_stops {κ : Type} {env : FourWayEnv κ} {data : Block} {hasher : κ}
    (flag : SetInPass env.restart restart k)
    (pending : fourWayScan env data hash hasher (k + 1) = none) :
    ∃ out, fourWayScan { env with restart := restart } data hash hasher (k + 2) = some out ∧
      minerRc out.ret = false := by
  obtain ⟨out, returned, right⟩ := (fourWay_simulates env data hasher).stops_next
    (fourWay_simulates { env with restart := restart } data hasher) (fourWayAt_start hash)
    (fourWayAt_start hash) pending (fun i early => by simp [fourWayStop, flag.same i early])
    (by simp [fourWayStop, flag.set])
  refine ⟨out, returned (k + 2) (by omega), ?_⟩
  rw [(right.exhausted k rfl).1]
  rfl

theorem sse2Scan_stops {κ : Type} {env : Sse2Env κ} {data : Block} {hasher : κ}
    (flag : SetInPass env.restart restart k)
    (pending : sse2Scan env data hash hasher (k + 1) = none) :
    ∃ out, sse2Scan { env with restart := restart } data hash hasher (k + 2) = some out ∧
      minerRc out.ret = false := by
  obtain ⟨out, returned, right⟩ := (sse2_simulates env data hasher).stops_next
    (sse2_simulates { env with restart := restart } data hasher) (sse2At_start hash)
    (sse2At_start hash) pending (fun i early => by simp [sse2Stop, flag.same i early])
    (by simp [sse2Stop, flag.set])
  refine ⟨out, returned (k + 2) (by omega), ?_⟩
  rw [(right.exhausted k rfl).1]
  rfl

theorem scanHash4WaySSE2_stops {midstate : HashValue} {data hash1 : Block} {target : Fin 8 → Word}
    {maxNonce : Word} {before : Nat → Bool} (flag : SetInPass before restart k)
    (pending : scanHash4WaySSE2 midstate data hash1 hash target maxNonce before (k + 1) = none) :
    ∃ out, scanHash4WaySSE2 midstate data hash1 hash target maxNonce restart (k + 2) = some out ∧
      minerRc out.ret = false := by
  obtain ⟨out, run, stopped⟩ := fourWayScan_stops flag pending
  exact ⟨out, run, stopped⟩

theorem scanhashSse264_stops {midstate : HashValue} {data hash1 : Block} {target : Fin 8 → Word}
    {maxNonce : Word} {before : Nat → Bool} {stack : Nat → M128} {xmm : Fin 16 → M128}
    (flag : SetInPass before restart k)
    (pending : scanhashSse264 midstate data hash1 hash target maxNonce before stack xmm (k + 1) = none) :
    ∃ out, scanhashSse264 midstate data hash1 hash target maxNonce restart stack xmm (k + 2) = some out ∧
      minerRc out.ret = false := by
  obtain ⟨out, run, stopped⟩ := sse2Scan_stops flag pending
  exact ⟨out, run, stopped⟩

theorem plainScan_stops {κ : Type} {runhashes : κ → Block → κ × HashValue} {target : Fin 8 → Word}
    {maxNonce : Word} {data : Block} {hasher : κ} {before : Nat → Bool}
    (flag : SetInPass before restart k)
    (pending : plainScan runhashes target maxNonce before data hash hasher (k + 1) = none) :
    ∃ out, plainScan runhashes target maxNonce restart data hash hasher (k + 2) = some out ∧
      out.ret = false := by
  obtain ⟨out, run, stopped⟩ := scalarScan_stops flag pending
  exact ⟨out, run, stopped⟩

theorem viaScan_stops {κ : Type} {runhashes : κ → (Fin 32 → Word) → κ × HashValue}
    {target : Fin 8 → Word} {maxNonce : Word} {dataInout : Fin 32 → Word} {hasher : κ}
    {before : Nat → Bool} (flag : SetInPass before restart k)
    (pending : viaScan runhashes target maxNonce before dataInout hash hasher (k + 1) = none) :
    ∃ out, viaScan runhashes target maxNonce restart dataInout hash hasher (k + 2) = some out ∧
      out.ret = false := by
  obtain ⟨out, run, stopped⟩ := scalarScan_stops flag (Option.map_eq_none_iff.mp pending)
  exact ⟨_, congrArg (Option.map _) run, stopped⟩

end

/-! ### The scan of a miner -/

/-- One more read, of a set flag. -/
theorem setInPass_append (reads : List Bool) :
    SetInPass (fun k => reads.getD k false) (fun k => (reads ++ [true]).getD k false) reads.length where
  same i early := by simp [List.getElem?_append_left early]
  set := by simp

/-- A scan that goes on to read its flag returns without a nonce if it reads a set flag. -/
theorem scanAfter_stops {algo : Sha256Algo} {work : Work} {maxNonce : Word} {outside : Outside}
    {reads : List Bool} (pending : scanAfter algo work maxNonce outside reads = none) :
    ∃ ret, scanAfter algo work maxNonce outside (reads ++ [true]) = some ret ∧ ret.rc = false := by
  have flag := setInPass_append reads
  have length : (reads ++ [true]).length + 1 = reads.length + 2 := by simp
  cases algo with
  | c =>
      simp only [scanAfter, minerScan, scanhashC, Option.map_eq_none_iff] at pending
      obtain ⟨out, run, stopped⟩ := plainScan_stops flag pending
      simp only [scanAfter, minerScan, scanhashC, length, run, Option.map_some]
      exact ⟨_, rfl, stopped⟩
  | cryptopp =>
      simp only [scanAfter, minerScan, scanhashCryptopp, Option.map_eq_none_iff] at pending
      obtain ⟨out, run, stopped⟩ := plainScan_stops flag pending
      simp only [scanAfter, minerScan, scanhashCryptopp, length, run, Option.map_some]
      exact ⟨_, rfl, stopped⟩
  | cryptoppAsm32 =>
      simp only [scanAfter, minerScan, scanhashAsm32, Option.map_eq_none_iff] at pending
      obtain ⟨out, run, stopped⟩ := plainScan_stops flag pending
      simp only [scanAfter, minerScan, scanhashAsm32, length, run, Option.map_some]
      exact ⟨_, rfl, stopped⟩
  | fourWay =>
      simp only [scanAfter, minerScan, Option.map_eq_none_iff] at pending
      obtain ⟨out, run, stopped⟩ := scanHash4WaySSE2_stops flag pending
      simp only [scanAfter, minerScan, length, run, Option.map_some]
      exact ⟨_, rfl, stopped⟩
  | sse2_64 =>
      simp only [scanAfter, minerScan, Option.map_eq_none_iff] at pending
      obtain ⟨out, run, stopped⟩ := scanhashSse264_stops flag pending
      simp only [scanAfter, minerScan, length, run, Option.map_some]
      exact ⟨_, rfl, stopped⟩
  | via =>
      simp only [scanAfter, minerScan, scanhashVia, Option.map_eq_none_iff] at pending
      obtain ⟨out, run, stopped⟩ := viaScan_stops flag pending
      simp only [scanAfter, minerScan, scanhashVia, length, run, Option.map_some]
      exact ⟨_, rfl, stopped⟩

end CpuMiner
