/-
Module: CpuMiner.Scan.Sse2Amd64
Layer: Scans
Purpose: The loop of `scanhash_sse2_64`: four nonces in each pass, the first lane with a zero word 7 is offered to
  `fulltest`, the found nonce or -1 is returned. The hashes are a parameter. `sse2_simulates` says that the loop
  is a search through the batches that start at 0, 4, 8, ...
Imports: CpuMiner.Kernel.FourWay, CpuMiner.Kernel.Generic, CpuMiner.Kernel.Sse2Amd64, CpuMiner.Lib.Search,
  CpuMiner.Scan.Scalar, CpuMiner.Util.Fulltest
Trusted boundary: human-reviewed spec (the transcription of the C code)
Main exports: Sse2Loop, sse2Body, sse2Scan, sse2Base, sse2Pick, sse2Stop, firstZero_eq_some_iff,
  sse2Stop_iff, sse2Hashed_eq, sse2_simulates
Open obligations: none
-/
import CpuMiner.Kernel.FourWay
import CpuMiner.Kernel.Generic
import CpuMiner.Kernel.Sse2Amd64
import CpuMiner.Lib.Search
import CpuMiner.Scan.Scalar
import CpuMiner.Util.Fulltest

namespace CpuMiner.Scan

open Words
open Sha256
open Simd

variable {κ : Type}

/-- The vectors `m_4hash[0..7]`. -/
abbrev Vectors := Fin 8 → M128

/-- The lane `j` of the eight vectors, as it is copied to `phash`. -/
def vectorHash (m4hash : Vectors) (j : Fin 4) : HashValue := fun i => m4hash i j

/-- The loop over `j` stops at the first lane of `m_4hash[7]` that is zero; `none` is `j == 4`. -/
def firstZero (m4hash : Vectors) : Option (Fin 4) :=
  (List.finRange 4).find? fun j => decide (m4hash 7 j = 0)

/-- The variables of the loop. `pass` and `hashed` are for the proofs. -/
structure Sse2Loop (κ : Type) where
  nonce : Word
  data : Block
  hash : HashValue
  hasher : κ
  pass : Nat
  hashed : List Word

/-- The code around the loop. The hashes are those of the two calls of `CalcSha256_x64`, which are given the
    nonces in `m_4w[3]`. -/
structure Sse2Env (κ : Type) where
  calcHashes : κ → M128 → κ × Vectors
  fulltest : Word → HashValue → Bool
  maxNonce : Word
  restart : Nat → Bool

/-- The same surroundings with the `fulltest` of util.c, for a target. -/
def Sse2Env.against (env : Sse2Env κ) (target : Fin 8 → Word) : Sse2Env κ :=
  { env with fulltest := fun _ hash => CpuMiner.fulltest hash target }

/-- The same surroundings with a test that accepts every candidate. -/
def Sse2Env.acceptAll (env : Sse2Env κ) : Sse2Env κ :=
  { env with fulltest := fun _ _ => true }

/-- `_mm_add_epi32(offset, _mm_set1_epi32(nonce))` -/
def nonceLanes (nonce : Word) : M128 := mmAddEpi32 (mmSetEpi32 3 2 1 0) (mmSet1Epi32 nonce)

/-- The lane that is accepted: the first one with a zero word, if `fulltest` accepts it. -/
def tryFirst (fulltest : Word → HashValue → Bool) (nonce : Word) (m4hash : Vectors) : Option (Fin 4) :=
  (firstZero m4hash).filter fun j => fulltest (nonce + BitVec.ofNat 32 j) (vectorHash m4hash j)

/-- The body of `for (;;)`. The nonce goes up after the hashes, and the bound is tested after that. -/
def sse2Body (env : Sse2Env κ) (s : Sse2Loop κ) : Sse2Loop κ ⊕ Scanned Word 16 :=
  let hashing := env.calcHashes s.hasher (nonceLanes s.nonce)
  let hashed := s.hashed ++ List.ofFn (nonceLanes s.nonce)
  let hash := match firstZero hashing.2 with
    | some j => vectorHash hashing.2 j
    | none => s.hash
  match tryFirst env.fulltest s.nonce hashing.2 with
  | some j =>
      let found := s.nonce + BitVec.ofNat 32 j
      .inr { ret := found, hashesDone := s.nonce.toNat, data := Function.update s.data 3 found, hash,
             accepted := some (found, hash), hashed }
  | none =>
      let nonce := s.nonce + 4
      if nonce ≥ env.maxNonce ∨ env.restart s.pass = true then
        .inr { ret := -1, hashesDone := nonce.toNat, data := s.data, hash, accepted := none, hashed }
      else
        .inl { nonce, data := s.data, hash, hasher := hashing.1, pass := s.pass + 1, hashed }

def sse2Start (data : Block) (hash : HashValue) (hasher : κ) : Sse2Loop κ where
  nonce := 0
  data := data
  hash := hash
  hasher := hasher
  pass := 0
  hashed := []

/-- The loop, for at most the given number of passes. -/
def sse2Scan (env : Sse2Env κ) (data : Block) (hash : HashValue) (hasher : κ) (passes : Nat) :
    Option (Scanned Word 16) :=
  Loop.run (sse2Body env) passes (sse2Start data hash hasher)

/-! ### The loop as a search -/

/-- The first nonce of the batch of pass `k`. -/
def sse2Base (k : Nat) : Word := BitVec.ofNat 32 (4 * k)

/-- The hashes of pass `k`. -/
def sse2Hashes (env : Sse2Env κ) (hasher : κ) (k : Nat) : Vectors :=
  Mealy.outputAt env.calcHashes (fun k => nonceLanes (sse2Base k)) hasher k

/-- The lane that is accepted in pass `k`, if there is one. -/
def sse2Pick (env : Sse2Env κ) (hasher : κ) (k : Nat) : Option (Fin 4) :=
  tryFirst env.fulltest (sse2Base k) (sse2Hashes env hasher k)

/-- The test at the end of pass `k`. -/
def sse2Stop (env : Sse2Env κ) (k : Nat) : Bool :=
  decide (sse2Base (k + 1) ≥ env.maxNonce) || env.restart k

/-- The nonces of the first `k` passes. -/
def sse2Hashed (k : Nat) : List Word :=
  (List.range k).flatMap fun i => List.ofFn (nonceLanes (sse2Base i))

/-- The loop state at the start of pass `k`. -/
structure Sse2At (env : Sse2Env κ) (data : Block) (hasher : κ) (k : Nat) (s : Sse2Loop κ) : Prop where
  nonce : s.nonce = sse2Base k
  area : s.data = data
  hasher : s.hasher = Mealy.stateAt env.calcHashes (fun k => nonceLanes (sse2Base k)) hasher k
  pass : s.pass = k
  hashed : s.hashed = sse2Hashed k

/-- What the scan returns for the outcome of the search. -/
structure Sse2Result (env : Sse2Env κ) (data : Block) (hasher : κ) (o : Search.Outcome (Fin 4))
    (out : Scanned Word 16) : Prop where
  hashed : out.hashed = sse2Hashed (o.pass + 1)
  found : ∀ k j, o = .found k j →
    let nonce := sse2Base k + BitVec.ofNat 32 j
    let hash := vectorHash (sse2Hashes env hasher k) j
    out.ret = nonce ∧ out.hashesDone = (sse2Base k).toNat ∧ out.data = Function.update data 3 nonce ∧
      out.hash = hash ∧ out.accepted = some (nonce, hash)
  exhausted : ∀ k, o = .exhausted k →
    out.ret = -1 ∧ out.hashesDone = (sse2Base (k + 1)).toNat ∧ out.data = data ∧ out.accepted = none

variable {env : Sse2Env κ} {data : Block} {hasher : κ}

theorem sse2At_start (hash : HashValue) : Sse2At env data hasher 0 (sse2Start data hash hasher) where
  nonce := rfl
  area := rfl
  hasher := rfl
  pass := rfl
  hashed := rfl

theorem nonceLanes_lane (nonce : Word) (j : Fin 4) :
    nonceLanes nonce j = nonce + BitVec.ofNat 32 j := by
  have lane : mmSetEpi32 3 2 1 0 j = BitVec.ofNat 32 j := by
    match j with
    | 0 | 1 | 2 | 3 => rfl
  rw [nonceLanes, mmAddEpi32_lane, mmSet1Epi32_lane, lane, BitVec.add_comm]

/-- The accepted lane is the first zero lane, and `fulltest` accepts it. -/
theorem tryFirst_eq_some {fulltest : Word → HashValue → Bool} {nonce : Word} {m4hash : Vectors}
    {j : Fin 4} (picked : tryFirst fulltest nonce m4hash = some j) :
    firstZero m4hash = some j ∧
      fulltest (nonce + BitVec.ofNat 32 j) (vectorHash m4hash j) = true := by
  rw [tryFirst, Option.filter_eq_some_iff] at picked
  exact picked

theorem sse2Base_succ (k : Nat) : sse2Base k + 4 = sse2Base (k + 1) := by
  rw [sse2Base, sse2Base, show 4 * (k + 1) = 4 * k + 4 by omega, BitVec.ofNat_add]
  rfl

theorem firstZero_eq_some_iff {m4hash : Vectors} {j : Fin 4} :
    firstZero m4hash = some j ↔ m4hash 7 j = 0 ∧ ∀ i, i < j → m4hash 7 i ≠ 0 := by
  rw [firstZero, List.find?_eq_some_iff_getElem]
  simp only [List.getElem_finRange, List.length_finRange, decide_eq_true_eq, Bool.not_eq_eq_eq_not, Bool.not_true,
    decide_eq_false_iff_not]
  refine and_congr_right fun _ => ⟨?_, fun before => ⟨j, j.isLt, rfl, fun i below => before _ below⟩⟩
  rintro ⟨place, bound, here, before⟩ i below
  have here : place = j.val := congrArg Fin.val here
  exact before i (by rw [here]; exact below)

theorem firstZero_eq_none_iff {m4hash : Vectors} : firstZero m4hash = none ↔ ∀ j, m4hash 7 j ≠ 0 := by
  rw [firstZero, List.find?_eq_none]
  simp only [List.mem_finRange, decide_eq_true_eq, forall_const, ne_eq]

theorem sse2Base_toNat {k : Nat} (bound : 4 * k < 2 ^ 32) : (sse2Base k).toNat = 4 * k := by
  rw [sse2Base, BitVec.toNat_ofNat, Nat.mod_eq_of_lt bound]

theorem sse2Stop_iff {k : Nat} (bound : 4 * (k + 1) < 2 ^ 32) :
    sse2Stop env k = true ↔ env.maxNonce.toNat ≤ 4 * (k + 1) ∨ env.restart k = true := by
  rw [sse2Stop, Bool.or_eq_true, decide_eq_true_eq, ge_iff_le, BitVec.le_def, sse2Base_toNat bound]

/-- The nonces of the first passes are the numbers from 0 on. -/
theorem sse2Hashed_eq (k : Nat) : sse2Hashed k = (List.range (4 * k)).map (BitVec.ofNat 32) := by
  induction k with
  | zero => rfl
  | succ k ih =>
      have lanes : List.ofFn (nonceLanes (sse2Base k)) =
          (List.range 4).map fun j => BitVec.ofNat 32 (4 * k + j) := by
        simp only [List.ofFn_succ, List.ofFn_zero, nonceLanes_lane, sse2Base, ← BitVec.ofNat_add]
        rfl
      rw [sse2Hashed, List.range_succ, List.flatMap_append, List.flatMap_singleton, ← sse2Hashed, ih, lanes,
        show 4 * (k + 1) = 4 * k + 4 from rfl, List.range_add, List.map_append, List.map_map]
      rfl

/-- The loop is the search. -/
theorem sse2_simulates (env : Sse2Env κ) (data : Block) (hasher : κ) :
    Search.Simulates (sse2Body env) (sse2Pick env hasher) (sse2Stop env)
      (Sse2At env data hasher) (Sse2Result env data hasher) := by
  have hashed : ∀ {k s}, Sse2At env data hasher k s →
      s.hashed ++ List.ofFn (nonceLanes (sse2Base k)) = sse2Hashed (k + 1) := by
    intro k s here
    rw [here.hashed, sse2Hashed, sse2Hashed, List.range_succ, List.flatMap_append,
      List.flatMap_singleton]
  have hash : ∀ {k s}, Sse2At env data hasher k s →
      (env.calcHashes s.hasher (nonceLanes (sse2Base k))).2 = sse2Hashes env hasher k := by
    intro k s here
    rw [here.hasher]
    rfl
  refine ⟨?_, ?_, ?_⟩
  · intro k s j here picked
    have tried : tryFirst env.fulltest (sse2Base k) (sse2Hashes env hasher k) = some j := picked
    obtain ⟨first, _⟩ := tryFirst_eq_some tried
    refine ⟨?out, ?returned, ?right⟩
    case returned =>
      simp only [sse2Body, here.nonce, here.area, hash here, tried, first]
      rfl
    case right =>
      refine ⟨hashed here, ?_, ?_⟩
      · intro k' j' same
        cases same
        exact ⟨rfl, rfl, rfl, rfl, rfl⟩
      · intro k' same
        cases same
  · intro k s here nothing stopped
    have tried : tryFirst env.fulltest (sse2Base k) (sse2Hashes env hasher k) = none := nothing
    have last : sse2Base (k + 1) ≥ env.maxNonce ∨ env.restart s.pass = true := by
      rw [here.pass]
      simpa only [sse2Stop, Bool.or_eq_true, decide_eq_true_eq] using stopped
    refine ⟨?last, ?stopping, ?result⟩
    case stopping =>
      simp only [sse2Body, here.nonce, here.area, hash here, tried, sse2Base_succ, if_pos last]
      rfl
    case result =>
      refine ⟨hashed here, ?_, ?_⟩
      · intro k' j' same
        cases same
      · intro k' same
        cases same
        exact ⟨rfl, rfl, rfl, rfl⟩
  · intro k s here nothing goOn
    have tried : tryFirst env.fulltest (sse2Base k) (sse2Hashes env hasher k) = none := nothing
    have more : ¬ (sse2Base (k + 1) ≥ env.maxNonce ∨ env.restart s.pass = true) := by
      rw [here.pass]
      simpa only [sse2Stop, Bool.or_eq_false_iff, decide_eq_false_iff_not, not_or,
        Bool.not_eq_true] using goOn
    refine ⟨?next, ?went, ?there⟩
    case went =>
      simp only [sse2Body, here.nonce, here.area, hash here, tried, sse2Base_succ, if_neg more]
      rfl
    case there =>
      refine ⟨rfl, rfl, ?_, congrArg (· + 1) here.pass, hashed here⟩
      simp only [here.hasher]
      rfl

/-! ### The scan with its kernel -/

open Sse2Amd64 in
/-- A call of `CalcSha256_x64(res, data, init)`, with the table `g_4sha256_k`: the new contents of `res` and
    `data`, and of the vector registers. -/
def callCalcSha256 (g4sha256K : Nat → M128) (xmm : Fin 16 → M128) (res data : Nat → M128)
    (init : HashValue) : Machine Slot :=
  calcSha256X64
    { xmm
      mem := fun s => match s with
        | .res i => res i
        | .data i => data i
        | .k i => g4sha256K i
        | .init i => mmSet1Epi32 (if h : i < 8 then init ⟨i, h⟩ else 0) }

/-- The arrays of `scanhash_sse2_64`, and the registers. -/
structure Sse2Arrays where
  m4w : Nat → M128
  m4hash : Nat → M128
  m4hash1 : Nat → M128
  xmm : Fin 16 → M128

/-- The table `g_sha256_k`. -/
def gSha256K : List Word :=
  [0x428a2f98, 0x71374491, 0xb5c0fbcf, 0xe9b5dba5,
   0x3956c25b, 0x59f111f1, 0x923f82a4, 0xab1c5ed5,
   0xd807aa98, 0x12835b01, 0x243185be, 0x550c7dc3,
   0x72be5d74, 0x80deb1fe, 0x9bdc06a7, 0xc19bf174,
   0xe49b69c1, 0xefbe4786, 0x0fc19dc6, 0x240ca1cc,
   0x2de92c6f, 0x4a7484aa, 0x5cb0a9dc, 0x76f988da,
   0x983e5152, 0xa831c66d, 0xb00327c8, 0xbf597fc7,
   0xc6e00bf3, 0xd5a79147, 0x06ca6351, 0x14292967,
   0x27b70a85, 0x2e1b2138, 0x4d2c6dfc, 0x53380d13,
   0x650a7354, 0x766a0abb, 0x81c2c92e, 0x92722c85,
   0xa2bfe8a1, 0xa81a664b, 0xc24b8b70, 0xc76c51a3,
   0xd192e819, 0xd6990624, 0xf40e3585, 0x106aa070,
   0x19a4c116, 0x1e376c08, 0x2748774c, 0x34b0bcb5,
   0x391c0cb3, 0x4ed8aa4a, 0x5b9cca4f, 0x682e6ff3,
   0x748f82ee, 0x78a5636f, 0x84c87814, 0x8cc70208,
   0x90befffa, 0xa4506ceb, 0xbef9a3f7, 0xc67178f2]

/-- The table `g_4sha256_k`, as the first loops fill it. -/
def g4sha256K (i : Nat) : M128 := mmSet1Epi32 (gSha256K.getD i 0)

theorem g4sha256K_lane (i : Nat) (l : Fin 4) : g4sha256K i l = K i := rfl

/-- The array `g_sha256_hinit`. -/
def gSha256Hinit : HashValue := fun i =>
  [0x6a09e667, 0xbb67ae85, 0x3c6ef372, 0xa54ff53a,
   0x510e527f, 0x9b05688c, 0x1f83d9ab, 0x5be0cd19].getD i 0

theorem gSha256Hinit_eq : gSha256Hinit = initialHash := by
  funext i
  revert i
  decide

/-- The two calls of a pass, after the nonces went into `m_4w[3]`. -/
def calcHashes (midstate : HashValue) (a : Sse2Arrays) (nonces : M128) : Sse2Arrays × Vectors :=
  let first := callCalcSha256 g4sha256K a.xmm a.m4hash1 (Function.update a.m4w 3 nonces) midstate
  let second := callCalcSha256 g4sha256K first.xmm a.m4hash (fun i => first.mem (.res i)) gSha256Hinit
  ({ m4w := fun i => first.mem (.data i)
     m4hash := fun i => second.mem (.res i)
     m4hash1 := fun i => second.mem (.data i)
     xmm := second.xmm },
   fun i => second.mem (.res i))

/-- The arrays before the loop. What the code leaves uninitialized, `stack`, is written before it is read. -/
def sse2Arrays (data hash1 : Block) (stack : Nat → M128) (xmm : Fin 16 → M128) : Sse2Arrays where
  m4w i := if h : i < 16 then mmSet1Epi32 (data ⟨i, h⟩) else stack i
  m4hash _ := mmSet1Epi32 0
  m4hash1 i := if h : i < 16 then mmSet1Epi32 (hash1 ⟨i, h⟩) else stack i
  xmm := xmm

/-- What stands around the loop; the test is filled in by `against`. -/
def sse2Env (calcHashes : κ → M128 → κ × Vectors) (maxNonce : Word) (restart : Nat → Bool) :
    Sse2Env κ where
  calcHashes := calcHashes
  fulltest _ _ := true
  maxNonce := maxNonce
  restart := restart

/-- `scanhash_sse2_64`. -/
def scanhashSse264 (midstate : HashValue) (data hash1 : Block) (hash : HashValue)
    (target : Fin 8 → Word) (maxNonce : Word) (restart : Nat → Bool) (stack : Nat → M128)
    (xmm : Fin 16 → M128) (passes : Nat) : Option (Scanned Word 16) :=
  sse2Scan ((sse2Env (calcHashes midstate) maxNonce restart).against target) data hash
    (sse2Arrays data hash1 stack xmm) passes

/-! ### What the two calls compute -/

open FourWay

/-- The parts of the arrays that every pass needs again: all vectors of `m_4w` but the nonces, and the upper
    half of `m_4hash1`. -/
structure Sse2Ready (data hash1 : Block) (a : Sse2Arrays) : Prop where
  m4w : ∀ i (hi : i < 16), i ≠ 3 → a.m4w i = mmSet1Epi32 (data ⟨i, hi⟩)
  m4hash1 : ∀ i (hi : i < 16), 8 ≤ i → a.m4hash1 i = mmSet1Epi32 (hash1 ⟨i, hi⟩)

theorem sse2Arrays_ready (data hash1 : Block) (stack : Nat → M128) (xmm : Fin 16 → M128) :
    Sse2Ready data hash1 (sse2Arrays data hash1 stack xmm) where
  m4w i hi _ := by simp only [sse2Arrays, dif_pos hi]
  m4hash1 i hi _ := by simp only [sse2Arrays, dif_pos hi]

section

variable (xmm : Fin 16 → M128) (res data : Nat → M128) (init : HashValue)

open Sse2Amd64

/-- Every lane of the result is the compression of that lane of the data. -/
theorem callCalcSha256_res (j : Fin 8) (l : Fin 4) :
    (callCalcSha256 g4sha256K xmm res data init).mem (.res j) l =
      compress init (fun i => data i l) j := by
  rw [callCalcSha256, calcSha256X64_res _ (fun i _ l => g4sha256K_lane i l)]
  have words : ∀ i : Fin 8, mmSet1Epi32 (if h : i.val < 8 then init ⟨i, h⟩ else 0) 0 = init i := by
    intro i
    rw [mmSet1Epi32_lane, dif_pos i.isLt]
  simp only [words]
  rfl

theorem callCalcSha256_res_above (i : Nat) (hi : 8 ≤ i) :
    (callCalcSha256 g4sha256K xmm res data init).mem (.res i) = res i :=
  calcSha256X64_res_above _ i hi

theorem callCalcSha256_data (i : Nat) (hi : i < 16) :
    (callCalcSha256 g4sha256K xmm res data init).mem (.data i) = data i :=
  calcSha256X64_data _ i hi

end

/-- The vectors of `m_4hash1` after the first call of a pass, which are the data of the second call. -/
def secondData (midstate : HashValue) (a : Sse2Arrays) (nonces : M128) (i : Nat) : M128 :=
  (callCalcSha256 g4sha256K a.xmm a.m4hash1 (Function.update a.m4w 3 nonces) midstate).mem (.res i)

theorem m4w_lane {data hash1 : Block} {a : Sse2Arrays} (nonces : M128) (ready : Sse2Ready data hash1 a)
    (l : Fin 4) :
    (fun i : Fin 16 => Function.update a.m4w 3 nonces i l) = withNonce data (nonces l) := by
  funext i
  by_cases nonce : i = 3
  · rw [nonce]
    rfl
  · have other : i.val ≠ 3 := fun same => nonce (Fin.ext same)
    rw [Function.update_of_ne other, withNonce, Function.update_of_ne nonce, ready.m4w i i.isLt other]
    rfl

/-- The second call of a pass is given the digests of the nonces, and behind them words 8 to 15 of `hash1`. -/
theorem secondData_lane {midstate : HashValue} {data hash1 : Block} {a : Sse2Arrays} (nonces : M128)
    (ready : Sse2Ready data hash1 a) (l : Fin 4) :
    (fun i : Fin 16 => secondData midstate a nonces i l) =
      digestBlock (compress midstate (withNonce data (nonces l))) hash1 := by
  funext i
  rw [digestBlock]
  by_cases low : i.val < 8
  · rw [dif_pos low, ← m4w_lane nonces ready l]
    exact callCalcSha256_res _ _ _ _ ⟨i, low⟩ l
  · rw [dif_neg low, secondData, callCalcSha256_res_above _ _ _ _ i (by omega),
      ready.m4hash1 i i.isLt (by omega)]
    rfl

/-- A pass leaves what the next one needs, and lane `l` of its result is the double hash of the data with the
    nonce of that lane. -/
theorem calcHashes_spec {midstate : HashValue} {data hash1 : Block} {a : Sse2Arrays} (nonces : M128)
    (ready : Sse2Ready data hash1 a) :
    Sse2Ready data hash1 (calcHashes midstate a nonces).1 ∧
      (calcHashes midstate a nonces).2 = fun j l =>
        compress initialHash (digestBlock (compress midstate (withNonce data (nonces l))) hash1) j := by
  refine ⟨⟨?_, ?_⟩, ?_⟩
  · intro i hi other
    simp only [calcHashes]
    rw [callCalcSha256_data _ _ _ _ i hi, Function.update_of_ne other, ready.m4w i hi other]
  · intro i hi high
    simp only [calcHashes]
    rw [callCalcSha256_data _ _ _ _ i hi, callCalcSha256_res_above _ _ _ _ i high,
      ready.m4hash1 i hi high]
  · funext j l
    simp only [calcHashes, gSha256Hinit_eq]
    rw [callCalcSha256_res, ← secondData_lane nonces ready l]
    rfl

/-- In every pass of `scanhash_sse2_64`, lane `l` of the hashes is the double hash for the nonce of that
    lane. -/
theorem sse2Hashes_eq {midstate : HashValue} {env : Sse2Env Sse2Arrays}
    (kernel : env.calcHashes = calcHashes midstate) (data hash1 : Block) (stack : Nat → M128)
    (xmm : Fin 16 → M128) (k : Nat) (j : Fin 8) (l : Fin 4) :
    sse2Hashes env (sse2Arrays data hash1 stack xmm) k j l =
      compress initialHash
        (digestBlock (compress midstate (withNonce data (nonceLanes (sse2Base k) l))) hash1) j := by
  rw [sse2Hashes, kernel]
  exact congrFun (congrFun (Mealy.outputAt_eq (sse2Arrays_ready data hash1 stack xmm)
    (fun _ nonces ready => calcHashes_spec nonces ready) k) j) l

/-- The second call of every pass that the loop comes to is given the digests of the nonces of that pass, and
    behind them words 8 to 15 of `hash1`. -/
theorem visits_secondData {midstate : HashValue} {env : Sse2Env Sse2Arrays}
    (kernel : env.calcHashes = calcHashes midstate) {data hash1 : Block} {hash : HashValue}
    {stack : Nat → M128} {xmm : Fin 16 → M128} {s : Sse2Loop Sse2Arrays}
    (visited : Loop.Visits (sse2Body env) (sse2Start data hash (sse2Arrays data hash1 stack xmm)) s)
    (l : Fin 4) :
    (fun i : Fin 16 => secondData midstate s.hasher (nonceLanes s.nonce) i l) =
      digestBlock (compress midstate (withNonce data (s.nonce + BitVec.ofNat 32 l))) hash1 := by
  obtain ⟨k, _, here⟩ := (sse2_simulates env data _).visits (sse2At_start hash) visited
  have ready : Sse2Ready data hash1 s.hasher := by
    rw [here.hasher, kernel]
    exact Mealy.stateAt_inv (sse2Arrays_ready data hash1 stack xmm)
      (fun _ nonces ready => (calcHashes_spec nonces ready).1) k
  rw [secondData_lane _ ready, nonceLanes_lane]

/-- On every lane, the assembly kernel leaves what `sha256_transform` computes from the same state and the words
    of that lane, and its input stays as it was. So the second call of every pass of `scanhash_sse2_64` is given
    the digests of the nonces of that pass, and behind them words 8 to 15 of `hash1`. -/
theorem calcSha256_sha256Transform (xmm : Fin 16 → M128) (res data stack : Nat → M128)
    (init midstate target hash : HashValue) (block hash1 : Block) (behind : Nat → Word) (maxNonce : Word)
    (restart : Nat → Bool) :
    (∀ (j : Fin 8) (l : Fin 4), (callCalcSha256 g4sha256K xmm res data init).mem (.res j) l =
        (Generic.sha256Transform init (Pointer.toObject (fun i : Fin 16 => data i l) behind)).state j) ∧
      (∀ i : Fin 16, (callCalcSha256 g4sha256K xmm res data init).mem (.data i) = data i) ∧
      (∀ i : Fin 8, (callCalcSha256 g4sha256K xmm res data init).mem (.init i) = mmSet1Epi32 (init i)) ∧
      ∀ s, Loop.Visits (sse2Body ((sse2Env (calcHashes midstate) maxNonce restart).against target))
          (sse2Start block hash (sse2Arrays block hash1 stack xmm)) s →
        ∀ l : Fin 4, (fun i : Fin 16 => secondData midstate s.hasher (nonceLanes s.nonce) i l) =
          digestBlock (Generic.sha256Transform midstate
            (Pointer.toObject (withNonce block (s.nonce + BitVec.ofNat 32 l)) behind)).state hash1 := by
  simp only [Generic.sha256Transform_state, inputBlock_toObject]
  refine ⟨callCalcSha256_res xmm res data init, ?_, ?_, ?_⟩
  · intro i
    exact callCalcSha256_data xmm res data init i i.isLt
  · intro i
    rw [callCalcSha256, Sse2Amd64.calcSha256X64_init]
    simp only [dif_pos i.isLt]
  · intro s visited l
    exact visits_secondData rfl visited l

end CpuMiner.Scan
