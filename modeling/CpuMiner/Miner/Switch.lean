/-
Module: CpuMiner.Miner.Switch
Layer: Miner
Purpose: The switch over `opt_algo` in `miner_thread`: which scan is called on a work unit, and how its return value
  becomes `rc`. `reported_header_doubleHash` says that the header of a unit that one of the vector or hardware
  backends reports has a double hash that ends in four zero bytes.
Imports: CpuMiner.Miner.Work, CpuMiner.Scan.Asm32, CpuMiner.Scan.FourWay, CpuMiner.Scan.Plain,
  CpuMiner.Scan.Sse2Amd64, CpuMiner.Scan.Via
Trusted boundary: human-reviewed spec (the transcription of the C code)
Main exports: Sha256Algo, Outside, minerRc, MinerScan, minerScan, reported_header_doubleHash
Open obligations: none
-/
import CpuMiner.Miner.Work
import CpuMiner.Scan.Asm32
import CpuMiner.Scan.FourWay
import CpuMiner.Scan.Plain
import CpuMiner.Scan.Sse2Amd64
import CpuMiner.Scan.Via

namespace CpuMiner

open Words
open Sha256
open FourWay
open Scan
open Simd

/-- `enum sha256_algos` -/
inductive Sha256Algo where
  | c
  | fourWay
  | via
  | cryptopp
  | cryptoppAsm32
  | sse2_64
deriving DecidableEq

/-- What a scan meets and does not compute: the reads of its restart flag, the stack behind `hash1` in each
    pass, the hash instruction of the VIA processor, the machine at the two calls of the 32-bit kernel in each
    pass, and what is in uninitialized arrays and registers. -/
structure Outside where
  restart : Nat → Bool
  behind : Nat → Nat → Word
  instruction : HashValue → List Byte → HashValue
  calls : Nat → Asm32Call × Asm32Call
  tmpHash : HashValue
  stack : Nat → M128
  xmm : Fin 16 → M128

/-- `rc = (rc4 == -1) ? false : true`, for an unsigned `rc4`. -/
def minerRc (ret : Word) : Bool := if ret = -1 then false else true

/-- What `miner_thread` has after the switch. -/
structure MinerScan where
  work : Work
  rc : Bool
  hashesDone : Nat

/-- The switch over `opt_algo`, for at most the given number of passes of the scan. A call of the 32-bit kernel runs
    eight basic blocks. -/
def minerScan (algo : Sha256Algo) (work : Work) (maxNonce : Word) (outside : Outside) (passes : Nat) :
    Option MinerScan :=
  let hash := Buf.words (n := 8) work.hash
  match algo with
  | .c =>
      (scanhashC work.midstateWords work.block hash work.targetWords maxNonce outside.restart
        outside.behind passes).map fun out =>
          { work := (work.withBlock out.data).withHash out.hash, rc := out.ret,
            hashesDone := out.hashesDone }
  | .sse2_64 =>
      (scanhashSse264 work.midstateWords work.block work.hash1Words hash work.targetWords maxNonce
        outside.restart outside.stack outside.xmm passes).map fun out =>
          { work := (work.withBlock out.data).withHash out.hash, rc := minerRc out.ret,
            hashesDone := out.hashesDone }
  | .fourWay =>
      (scanHash4WaySSE2 work.midstateWords work.block work.hash1Words hash work.targetWords maxNonce
        outside.restart passes).map fun out =>
          { work := (work.withBlock out.data).withHash out.hash, rc := minerRc out.ret,
            hashesDone := out.hashesDone }
  | .via =>
      (scanhashVia outside.instruction work.dataWords work.targetWords maxNonce outside.restart
        outside.tmpHash passes).map fun out =>
          { work := work.withData out.data, rc := out.ret, hashesDone := out.hashesDone }
  | .cryptopp =>
      (scanhashCryptopp work.midstateWords work.block hash work.targetWords maxNonce outside.restart
        outside.behind passes).map fun out =>
          { work := (work.withBlock out.data).withHash out.hash, rc := out.ret,
            hashesDone := out.hashesDone }
  | .cryptoppAsm32 =>
      (scanhashAsm32 8 outside.calls work.midstateWords work.block hash work.targetWords maxNonce
        outside.restart outside.behind passes).map fun out =>
          { work := (work.withBlock out.data).withHash out.hash, rc := out.ret,
            hashesDone := out.hashesDone }

/-! ### Reported headers -/

/-- The digest of the digest of the header ends in four zero bytes. -/
def DoubleHashEndsInZeros (header : List Byte) : Prop :=
  (sha256 (sha256 header)).drop 28 = [0, 0, 0, 0]

theorem doubleHashEndsInZeros_of_seven {header : List Byte}
    (zero : Sha256.hashWords (sha256 header) 7 = 0) : DoubleHashEndsInZeros header := by
  rw [DoubleHashEndsInZeros, sha256_drop, zero]
  decide

/-- A value other than -1 is a found nonce. -/
theorem fourWay_found {κ : Type} {env : FourWayEnv κ} {data : Block} {hasher : κ}
    {o : Search.Outcome (Fin npar)} {out : Scanned Word 16}
    (right : FourWayResult env data hasher o out) (reported : minerRc out.ret = true) :
    ∃ k j, o = .found k j := by
  cases o with
  | found k j => exact ⟨k, j, rfl⟩
  | exhausted k =>
      rw [(right.exhausted k rfl).1] at reported
      cases reported

theorem sse2_found {κ : Type} {env : Sse2Env κ} {data : Block} {hasher : κ}
    {o : Search.Outcome (Fin 4)} {out : Scanned Word 16}
    (right : Sse2Result env data hasher o out) (reported : minerRc out.ret = true) :
    ∃ k j, o = .found k j := by
  cases o with
  | found k j => exact ⟨k, j, rfl⟩
  | exhausted k =>
      rw [(right.exhausted k rfl).1] at reported
      cases reported

section

variable {work : Work} {hash : HashValue} {target : Fin 8 → Word} {maxNonce : Word}
  {restart : Nat → Bool} {passes : Nat}

/-- The header that `ScanHash_4WaySSE2` leaves for a reported nonce. -/
theorem scanHash4WaySSE2_header (wf : work.WellFormed) {out : Scanned Word 16}
    (returned : scanHash4WaySSE2 work.midstateWords work.block work.hash1Words hash target maxNonce
      restart passes = some out)
    (reported : minerRc out.ret = true) : DoubleHashEndsInZeros (work.withBlock out.data).header := by
  obtain ⟨o, ends, right⟩ := (fourWay_simulates _ _ _).ends_of_returns (fourWayAt_start hash)
    ⟨passes, returned⟩
  obtain ⟨k, j, rfl⟩ := fourWay_found right reported
  obtain ⟨_, data, _, _⟩ := right.found k j rfl
  rw [data]
  apply doubleHashEndsInZeros_of_seven
  rw [← doubleHash_eq wf]
  cases ends with
  | found _ picked =>
      have hit := List.find?_some picked
      simp only [fourWayHit, Bool.and_eq_true, decide_eq_true_eq] at hit
      have zero := hit.1
      rw [fourWayHashes_eq rfl] at zero
      exact zero

/-- The header that `scanhash_sse2_64` leaves for a reported nonce. -/
theorem scanhashSse264_header (wf : work.WellFormed) {stack : Nat → M128} {xmm : Fin 16 → M128}
    {out : Scanned Word 16}
    (returned : scanhashSse264 work.midstateWords work.block work.hash1Words hash target maxNonce
      restart stack xmm passes = some out)
    (reported : minerRc out.ret = true) : DoubleHashEndsInZeros (work.withBlock out.data).header := by
  obtain ⟨o, ends, right⟩ := (sse2_simulates _ _ _).ends_of_returns (sse2At_start hash)
    ⟨passes, returned⟩
  obtain ⟨k, j, rfl⟩ := sse2_found right reported
  obtain ⟨_, _, data, _, _⟩ := right.found k j rfl
  rw [data]
  apply doubleHashEndsInZeros_of_seven
  refine (congrFun (doubleHash_eq wf _).symm 7).trans ?_
  cases ends with
  | found _ picked =>
      have zero := List.find?_some (tryFirst_eq_some picked).1
      simp only [decide_eq_true_eq] at zero
      rw [sse2Hashes_eq rfl, nonceLanes_lane] at zero
      exact zero

/-- The header of a unit whose data words are stored swapped. -/
theorem header_withData_swab32 (data32 : Fin 32 → Word) :
    (work.withData fun i => swab32 (data32 i)).header = (bytesOf data32).take 80 := by
  have swapped : List.ofFn (fun i => swab32 (data32 i)) = (List.ofFn data32).map swab32 := by
    rw [List.map_ofFn]
    rfl
  rw [Work.header, Work.withData_dataWords, swapped, ← List.map_take, swappedBack, List.flatMap_map,
    bytesOf, show 80 = 4 * 20 from rfl, take_leBytes]
  congr 1
  funext w
  rw [swab32_swab32]

/-- The header that `scanhash_via` leaves for a reported nonce, if the instruction hashes messages. -/
theorem scanhashVia_header {instruction : HashValue → List Byte → HashValue}
    (hashes : ∀ m, instruction initialHash m = Sha256.hashWords m) {out : Scanned Bool 32}
    (returned : scanhashVia instruction work.dataWords target maxNonce restart hash passes = some out)
    (reported : out.ret = true) : DoubleHashEndsInZeros (work.withData out.data).header := by
  obtain ⟨inner, run, rfl⟩ := Option.map_eq_some_iff.mp returned
  obtain ⟨o, ends, rfl⟩ := (scalar_simulates _ _ _).ends_of_returns (scalarAt_start hash) ⟨passes, run⟩
  cases ends with
  | exhausted _ _ _ => cases reported
  | @found k b _ picked =>
      simp only [scalarPick] at picked
      split at picked
      · rename_i hit
        have zero : viaHashes instruction (Function.update (fun i => swab32 (work.dataWords i)) 19
          (scalarNonce k)) 7 = 0 := hit.1
        rw [viaHashes_eq hashes] at zero
        apply doubleHashEndsInZeros_of_seven
        simp only [scalarResult, if_true]
        rw [header_withData_swab32]
        exact zero
      · cases picked

end

/-- Whenever one of these three backends reports success on a well-formed unit, the header in the work as the
    scan leaves it has a double hash that ends in four zero bytes. -/
theorem reported_header_doubleHash {algo : Sha256Algo}
    (vector : algo = .sse2_64 ∨ algo = .fourWay ∨ algo = .via) {work : Work} (wf : work.WellFormed)
    {outside : Outside} (hashes : ∀ m, outside.instruction initialHash m = Sha256.hashWords m)
    {maxNonce : Word} {passes : Nat} {out : MinerScan}
    (returned : minerScan algo work maxNonce outside passes = some out) (reported : out.rc = true) :
    DoubleHashEndsInZeros out.work.header := by
  rcases vector with rfl | rfl | rfl
  · obtain ⟨scanned, run, rfl⟩ := Option.map_eq_some_iff.mp returned
    exact scanhashSse264_header wf run reported
  · obtain ⟨scanned, run, rfl⟩ := Option.map_eq_some_iff.mp returned
    exact scanHash4WaySSE2_header wf run reported
  · obtain ⟨scanned, run, rfl⟩ := Option.map_eq_some_iff.mp returned
    exact scanhashVia_header hashes run reported

/-- A well-formed unit whose header, with nonce 1, hashes to a number that ends in four zero bytes. -/
def exampleWork : Work where
  data := Buf.ofWords (n := 32) fun i =>
    if i = 16 then 1 else if i = 18 then 0x22d5056c else if i = 20 then 0x80000000
    else if i = 31 then 640 else 0
  hash1 := Buf.ofWords (n := 16) fun i => if i = 8 then 0x80000000 else if i = 15 then 256 else 0
  midstate := Buf.ofWords (n := 8) (compress initialHash fun _ => 0)
  target := fun _ => 0
  hash := fun _ => 0

/-- A call of the 32-bit kernel on an empty machine. -/
def exampleAsm32Call : Asm32Call where
  caller :=
    { regs := fun _ => .unknown
      mem := fun _ _ => .unknown
      below := none
      start := fun _ => 0 }
  sp := 0

/-- An instruction that hashes messages, and zeros everywhere else. -/
def exampleOutside : Outside where
  restart _ := false
  behind _ _ := 0
  instruction _ m := Sha256.hashWords m
  calls _ := (exampleAsm32Call, exampleAsm32Call)
  tmpHash _ := 0
  stack _ _ := 0
  xmm _ _ := 0

private theorem exampleWork_dataWords : exampleWork.dataWords = fun i =>
    if i = 16 then 1 else if i = 18 then 0x22d5056c else if i = 20 then 0x80000000
    else if i = 31 then 640 else 0 := by
  rw [Work.dataWords, exampleWork, Buf.words_ofWords]

theorem exampleWork_wellFormed : exampleWork.WellFormed where
  data := by
    rw [Work.header, exampleWork_dataWords]
    decide +kernel
  midstate := by
    rw [Work.midstateWords, exampleWork, Buf.words_ofWords]
    refine congrArg (compress initialHash) ?_
    funext i
    rw [Work.firstBlock, ← exampleWork, exampleWork_dataWords]
    revert i
    decide +kernel
  hash1 := by
    intro digest length
    rw [pad, length, List.append_assoc, List.drop_left' length, Work.hash1Words, exampleWork, Buf.words_ofWords]
    decide +kernel

theorem reported_header_doubleHash_via : ∃ out,
    minerScan .via exampleWork 0 exampleOutside 1 = some out ∧ DoubleHashEndsInZeros out.work.header := by
  have run : (minerScan .via exampleWork 0 exampleOutside 1).map (·.rc) = some true := by
    decide +kernel
  obtain ⟨out, returned, reported⟩ := Option.map_eq_some_iff.mp run
  exact ⟨out, returned, reported_header_doubleHash (.inr (.inr rfl)) exampleWork_wellFormed
    (fun _ => rfl) returned reported⟩

end CpuMiner
