/-
Module: CpuMiner.Kernel.FourWay
Layer: Kernels
Purpose: `DoubleBlockSHA256` of sha256_4way.c, which hashes a block twice for thirty-two nonces, four lanes at a
  time. The hand-unrolled rounds are a list of statements, one for each line of the source: `sha256round` is the
  macro `SHA256ROUND` on the named registers and `expand` is the line that computes the next schedule word in
  place. The second block stops after round 60. `doubleBlockSHA256_word` says what is stored then,
  `doubleBlockSHA256_seven` that the last hash word is exact all the same, and `doubleBlockSHA256_eight` which nonce
  each lane belongs to.
Imports: CpuMiner.Lib.Simd, CpuMiner.Lib.UnrolledRounds
Trusted boundary: human-reviewed spec (the transcription of the C code)
Main exports: Stmt, Vars, execStmt, sixteenRounds, sixteenExpanded, doubleBlockSHA256, stoppedCompress,
  doubleBlockSHA256_word, doubleBlockSHA256_seven, doubleBlockSHA256_eight
Open obligations: none
-/
import CpuMiner.Lib.Simd
import CpuMiner.Lib.UnrolledRounds

namespace CpuMiner.FourWay

open Words
open Sha256
open Simd

/-- `NPAR`, the number of nonces of one call. -/
abbrev npar : Nat := 32

/-- The table `sha256_consts`. -/
def sha256ConstsTable : List Word :=
  [0x428a2f98, 0x71374491, 0xb5c0fbcf, 0xe9b5dba5,
   0x3956c25b, 0x59f111f1, 0x923f82a4, 0xab1c5ed5,
   0xd807aa98, 0x12835b01, 0x243185be, 0x550c7dc3,
   0x72be5d74, 0x80deb1fe, 0x9bdc06a7, 0xc19bf174,
   0xe49b69c1, 0xefbe4786, 0x0fc19dc6, 0x240ca1cc,
   0x2de92c6f, 0x4a7484aa, 0x5cb0a9dc, 0x76f988da,
   0x983e5152, 0xa831c66d, 0xb00327c8, 0xbf597fc7,
   0xc6e00bf3, 0xd5a79147, 0x06ca6351, 0x14292967,
   0x27b70a85, 0x2e1b2138, 0x4d2c6dfc, 0x53380d13,
   0x650a7354, 0x766a0abb, 0x81c2c92e, 0x92722c85,
   0xa2bfe8a1, 0xa81a664b, 0xc24b8b70, 0xc76c51a3,
   0xd192e819, 0xd6990624, 0xf40e3585, 0x106aa070,
   0x19a4c116, 0x1e376c08, 0x2748774c, 0x34b0bcb5,
   0x391c0cb3, 0x4ed8aa4a, 0x5b9cca4f, 0x682e6ff3,
   0x748f82ee, 0x78a5636f, 0x84c87814, 0x8cc70208,
   0x90befffa, 0xa4506ceb, 0xbef9a3f7, 0xc67178f2]

def sha256Consts (i : Nat) : Word := sha256ConstsTable.getD i 0

theorem sha256Consts_eq (i : Nat) : sha256Consts i = K i := rfl

/-- The array `pSHA256InitState`. -/
def pSHA256InitState : HashValue := fun i =>
  [0x6a09e667, 0xbb67ae85, 0x3c6ef372, 0xa54ff53a,
   0x510e527f, 0x9b05688c, 0x1f83d9ab, 0x5be0cd19].getD i 0

theorem pSHA256InitState_eq : pSHA256InitState = initialHash := by
  funext i
  revert i
  decide

/-! ### The vector functions -/

def vCh (b c d : M128) : M128 := mmXorSi128 (mmAndSi128 b c) (mmAndnotSi128 b d)

def vMaj (b c d : M128) : M128 :=
  mmXorSi128 (mmAndSi128 b (mmXorSi128 c d)) (mmAndSi128 c d)

def vROTR (x : M128) (n : Nat) : M128 := mmOrSi128 (mmSrliEpi32 x n) (mmSlliEpi32 x (32 - n))

def vSHR (x : M128) (n : Nat) : M128 := mmSrliEpi32 x n

def vBIGSIGMA0 (x : M128) : M128 := mmXorSi128 (mmXorSi128 (vROTR x 2) (vROTR x 13)) (vROTR x 22)

def vBIGSIGMA1 (x : M128) : M128 := mmXorSi128 (mmXorSi128 (vROTR x 6) (vROTR x 11)) (vROTR x 25)

def vSIGMA0 (x : M128) : M128 := mmXorSi128 (mmXorSi128 (vROTR x 7) (vROTR x 18)) (vSHR x 3)

def vSIGMA1 (x : M128) : M128 := mmXorSi128 (mmXorSi128 (vROTR x 17) (vROTR x 19)) (vSHR x 10)

def add4 (x0 x1 x2 x3 : M128) : M128 := mmAddEpi32 (mmAddEpi32 x0 x1) (mmAddEpi32 x2 x3)

def add5 (x0 x1 x2 x3 x4 : M128) : M128 := mmAddEpi32 (add4 x0 x1 x2 x3) x4

section Lanes

variable (x y z : M128) (l : Fin 4)

@[simp] theorem vCh_lane : vCh x y z l = ch (x l) (y l) (z l) := rfl

@[simp] theorem vMaj_lane : vMaj x y z l = maj (x l) (y l) (z l) := maj_eq_xor (x l) (y l) (z l)

@[simp] theorem vBIGSIGMA0_lane : vBIGSIGMA0 x l = bigSigma0 (x l) := rfl

@[simp] theorem vBIGSIGMA1_lane : vBIGSIGMA1 x l = bigSigma1 (x l) := rfl

@[simp] theorem vSIGMA0_lane : vSIGMA0 x l = smallSigma0 (x l) := rfl

@[simp] theorem vSIGMA1_lane : vSIGMA1 x l = smallSigma1 (x l) := rfl

end Lanes

/-! ### The unrolled code -/

/-- One line of the unrolled code. The registers `a` to `h` are numbered 0 to 7. -/
inductive Stmt where
  | sha256round (a b c d e f g h : Fin 8) (i : Nat) (w : Fin 16)
  | expand (w0 w14 w9 w1 : Fin 16)
deriving DecidableEq

/-- The vector variables `a` to `h` and `w0` to `w15`. -/
structure Vars where
  reg : Fin 8 → M128
  w : Fin 16 → M128

/-- The macro `SHA256ROUND`, and `w0 = add4(SIGMA1_256(w14), w9, SIGMA0_256(w1), w0)`. -/
def execStmt (v : Vars) : Stmt → Vars
  | .sha256round a b c d e f g h i w =>
      let t1 := add5 (v.reg h) (vBIGSIGMA1 (v.reg e)) (vCh (v.reg e) (v.reg f) (v.reg g))
        (mmSet1Epi32 (sha256Consts i)) (v.w w)
      let reg' := Function.update v.reg d (mmAddEpi32 (v.reg d) t1)
      let t2 := mmAddEpi32 (vBIGSIGMA0 (reg' a)) (vMaj (reg' a) (reg' b) (reg' c))
      { v with reg := Function.update reg' h (mmAddEpi32 t1 t2) }
  | .expand w0 w14 w9 w1 =>
      let next := add4 (vSIGMA1 (v.w w14)) (v.w w9) (vSIGMA0 (v.w w1)) (v.w w0)
      { v with w := Function.update v.w w0 next }

def execStmts (v : Vars) (code : List Stmt) : Vars := code.foldl execStmt v

/-- The sixteen lines of the rounds `i` to `i + 15` with the schedule words as they are. -/
def sixteenRounds (i : Nat) : List Stmt :=
  [.sha256round 0 1 2 3 4 5 6 7 (i + 0) 0,
   .sha256round 7 0 1 2 3 4 5 6 (i + 1) 1,
   .sha256round 6 7 0 1 2 3 4 5 (i + 2) 2,
   .sha256round 5 6 7 0 1 2 3 4 (i + 3) 3,
   .sha256round 4 5 6 7 0 1 2 3 (i + 4) 4,
   .sha256round 3 4 5 6 7 0 1 2 (i + 5) 5,
   .sha256round 2 3 4 5 6 7 0 1 (i + 6) 6,
   .sha256round 1 2 3 4 5 6 7 0 (i + 7) 7,
   .sha256round 0 1 2 3 4 5 6 7 (i + 8) 8,
   .sha256round 7 0 1 2 3 4 5 6 (i + 9) 9,
   .sha256round 6 7 0 1 2 3 4 5 (i + 10) 10,
   .sha256round 5 6 7 0 1 2 3 4 (i + 11) 11,
   .sha256round 4 5 6 7 0 1 2 3 (i + 12) 12,
   .sha256round 3 4 5 6 7 0 1 2 (i + 13) 13,
   .sha256round 2 3 4 5 6 7 0 1 (i + 14) 14,
   .sha256round 1 2 3 4 5 6 7 0 (i + 15) 15]

/-- The thirty-two lines of the rounds `i` to `i + 15`, each after the line that computes its word. -/
def sixteenExpanded (i : Nat) : List Stmt :=
  [.expand 0 14 9 1,
   .sha256round 0 1 2 3 4 5 6 7 (i + 0) 0,
   .expand 1 15 10 2,
   .sha256round 7 0 1 2 3 4 5 6 (i + 1) 1,
   .expand 2 0 11 3,
   .sha256round 6 7 0 1 2 3 4 5 (i + 2) 2,
   .expand 3 1 12 4,
   .sha256round 5 6 7 0 1 2 3 4 (i + 3) 3,
   .expand 4 2 13 5,
   .sha256round 4 5 6 7 0 1 2 3 (i + 4) 4,
   .expand 5 3 14 6,
   .sha256round 3 4 5 6 7 0 1 2 (i + 5) 5,
   .expand 6 4 15 7,
   .sha256round 2 3 4 5 6 7 0 1 (i + 6) 6,
   .expand 7 5 0 8,
   .sha256round 1 2 3 4 5 6 7 0 (i + 7) 7,
   .expand 8 6 1 9,
   .sha256round 0 1 2 3 4 5 6 7 (i + 8) 8,
   .expand 9 7 2 10,
   .sha256round 7 0 1 2 3 4 5 6 (i + 9) 9,
   .expand 10 8 3 11,
   .sha256round 6 7 0 1 2 3 4 5 (i + 10) 10,
   .expand 11 9 4 12,
   .sha256round 5 6 7 0 1 2 3 4 (i + 11) 11,
   .expand 12 10 5 13,
   .sha256round 4 5 6 7 0 1 2 3 (i + 12) 12,
   .expand 13 11 6 14,
   .sha256round 3 4 5 6 7 0 1 2 (i + 13) 13,
   .expand 14 12 7 15,
   .sha256round 2 3 4 5 6 7 0 1 (i + 14) 14,
   .expand 15 13 8 0,
   .sha256round 1 2 3 4 5 6 7 0 (i + 15) 15]

/-- The lines for the first block: sixty-four rounds. -/
def firstBlock : List Stmt :=
  sixteenRounds 0 ++ sixteenExpanded 16 ++ sixteenExpanded 32 ++ sixteenExpanded 48

/-- The lines for the second block. The last three rounds are under `#if 0` ("not necessary for H==0"). -/
def secondBlock : List Stmt :=
  sixteenRounds 0 ++ sixteenExpanded 16 ++ sixteenExpanded 32 ++ (sixteenExpanded 48).take 26

/-- The four lanes of the loop step `k` of `DoubleBlockSHA256`: the vectors stored in
    `thash[0..8][k..k+3]`. -/
def doubleBlockLanes (In Pad : Fin 16 → Word) (hPre hInit : HashValue) (k : Nat) : Fin 9 → M128 :=
  let offset := mmSetEpi32 3 2 1 0
  let preNonce := mmAddEpi32 (mmSet1Epi32 (In 3)) offset
  -- hack nonce into lowest byte of w3
  let nonce := mmAddEpi32 preNonce (mmSet1Epi32 (BitVec.ofNat 32 k))
  let first := execStmts
    { reg := fun r => mmSet1Epi32 (hPre r)
      w := Function.update (fun i => mmSet1Epi32 (In i)) 3 nonce } firstBlock
  -- store_load(a, 0, w0) and so on: the digest of the first block is the start of the second one
  let second := execStmts
    { reg := fun r => mmSet1Epi32 (hInit r)
      w := fun i =>
        if h : i.val < 8 then mmAddEpi32 (mmSet1Epi32 (hPre ⟨i, h⟩)) (first.reg ⟨i, h⟩)
        else mmSet1Epi32 (Pad i) } secondBlock
  fun i =>
    if h : i.val < 8 then mmAddEpi32 (mmSet1Epi32 (hInit ⟨i, h⟩)) (second.reg ⟨i, h⟩)
    else nonce

/-- `DoubleBlockSHA256`: the loop over `k` in steps of four fills `thash[i][k..k+3]`. -/
def doubleBlockSHA256 (In Pad : Fin 16 → Word) (hPre hInit : HashValue) :
    Fin 9 → Fin npar → Word :=
  fun i j => doubleBlockLanes In Pad hPre hInit (4 * (j / 4)) i ⟨j % 4, Nat.mod_lt _ (by decide)⟩

/-! ### The unrolled code is the loop -/

/-- The line of round `t`. -/
def roundLine (t : Nat) : Stmt :=
  .sha256round (slot t 0) (slot t 1) (slot t 2) (slot t 3) (slot t 4) (slot t 5) (slot t 6) (slot t 7) t
    (ringPlace t)

/-- The line that computes schedule word `t`. -/
def expandLine (t : Nat) : Stmt :=
  .expand (ringPlace t) (ringPlace (t + 14)) (ringPlace (t + 9)) (ringPlace (t + 1))

/-- The lines of round `t`. -/
def linesAt (t : Nat) : List Stmt := if t < 16 then [roundLine t] else [expandLine t, roundLine t]

/-- The lines of the first `n` rounds. -/
def codeTo : Nat → List Stmt
  | 0 => []
  | n + 1 => codeTo n ++ linesAt n

theorem firstBlock_eq : firstBlock = codeTo 64 := by decide

theorem secondBlock_eq : secondBlock = codeTo 61 := by decide

/-! ### What the code computes -/

/-- After the code of `n` rounds, lane `l` of the registers holds the working variables, and lane `l` of the
    words `w0` to `w15` is the ring of the schedule. -/
structure Runs (M : Block) (v₀ : HashValue) (l : Fin 4) (n : Nat) (v : Vars) : Prop where
  regs : Holds n (fun r => v.reg r l) (rounds (schedule M) v₀ n)
  ring : RingFrom (n - 16) (fun i => v.w i l) (schedule M)

theorem Runs.start (v : Vars) (l : Fin 4) :
    Runs (fun i => v.w i l) (fun r => v.reg r l) l 0 v where
  regs j := by
    have same : slot 0 j = j := Fin.ext (by simp only [slot]; omega)
    rw [same]
    rfl
  ring := ringFrom_block _

/-- The line that computes word `e + 16` moves the ring on. -/
private theorem execStmt_expandLine {M : Block} {v : Vars} {l : Fin 4} {e : Nat}
    (ring : RingFrom e (fun i => v.w i l) (schedule M)) :
    RingFrom (e + 1) (fun i => (execStmt v (expandLine (e + 16))).w i l) (schedule M) := by
  have place : ∀ k : Nat, ringPlace (e + 16 + k) = ringPlace (e + k) := by
    intro k
    apply Fin.ext
    simp only [ringPlace]
    omega
  have word : ∀ k, k < 16 → v.w (ringPlace (e + 16 + k)) l = schedule M (e + k) := by
    intro k hk
    rw [place k]
    exact ring (e + k) (by omega) (by omega)
  have next : add4 (vSIGMA1 (v.w (ringPlace (e + 16 + 14)))) (v.w (ringPlace (e + 16 + 9)))
      (vSIGMA0 (v.w (ringPlace (e + 16 + 1)))) (v.w (ringPlace (e + 16 + 0))) l =
        schedule M (e + 16) := by
    rw [schedule_recurrence]
    simp only [add4, mmAddEpi32_lane, vSIGMA1_lane, vSIGMA0_lane]
    rw [word 14 (by decide), word 9 (by decide), word 1 (by decide), word 0 (by decide)]
    exact (BitVec.add_assoc _ _ _).symm
  have oldest : ringPlace e = ringPlace (e + 16) := (place 0).symm
  have moved := ringFrom_expand ring next
  rw [← update_lane, oldest] at moved
  exact moved

/-- The line of round `t` is that round. -/
private theorem execStmt_roundLine {v : Vars} {l : Fin 4} {t : Nat} {u : HashValue} {w : Word}
    (regs : Holds t (fun r => v.reg r l) u)
    (word : v.w (ringPlace t) l = w) :
    Holds (t + 1) (fun r => (execStmt v (roundLine t)).reg r l) (oneRound (K t) w u) := by
  have apart : ∀ j : Fin 8, j ≠ 3 → slot t j ≠ slot t 3 :=
    fun j different same => different (slot_injective t same)
  have step : (fun r => (execStmt v (roundLine t)).reg r l) =
      roundAt t
        (u 7 + bigSigma1 (u 4) + ch (u 4) (u 5) (u 6) + K t + w)
        (bigSigma0 (u 0) + maj (u 0) (u 1) (u 2))
        (fun r => v.reg r l) := by
    simp only [execStmt, roundLine]
    rw [update_lane, update_lane, roundAt]
    simp only [mmAddEpi32_lane, vBIGSIGMA0_lane, vMaj_lane]
    rw [Function.update_of_ne (apart 0 (by decide)), Function.update_of_ne (apart 1 (by decide)),
      Function.update_of_ne (apart 2 (by decide))]
    simp only [add5, add4, mmAddEpi32_lane, vBIGSIGMA1_lane, vCh_lane, mmSet1Epi32_lane]
    have register : ∀ j, v.reg (slot t j) l = u j := regs
    rw [word, register 0, register 1, register 2, register 3, register 4, register 5, register 6,
      register 7]
    have order : u 7 + bigSigma1 (u 4) +
        (ch (u 4) (u 5) (u 6) + sha256Consts t) + w =
        u 7 + bigSigma1 (u 4) + ch (u 4) (u 5) (u 6) + K t + w := by
      rw [sha256Consts_eq]
      ac_rfl
    rw [order]
  rw [step]
  exact holds_roundAt regs rfl rfl

/-- The lines of one round are one round and, from round 16 on, one new schedule word. -/
theorem Runs.step {M : Block} {v₀ : HashValue} {l : Fin 4} {n : Nat} {v : Vars}
    (runs : Runs M v₀ l n v) : Runs M v₀ l (n + 1) (execStmts v (linesAt n)) := by
  by_cases early : n < 16
  · have start : n - 16 = 0 := by omega
    have ring := runs.ring
    rw [start] at ring
    rw [linesAt, if_pos early]
    refine ⟨execStmt_roundLine runs.regs (ring n (by omega) (by omega)), ?_⟩
    have still : n + 1 - 16 = 0 := by omega
    rw [still]
    exact ring
  · obtain ⟨e, rfl⟩ : ∃ e, n = e + 16 := ⟨n - 16, by omega⟩
    have ring := runs.ring
    rw [Nat.add_sub_cancel] at ring
    have moved := execStmt_expandLine ring
    rw [linesAt, if_neg early]
    refine ⟨execStmt_roundLine runs.regs (moved (e + 16) (by omega) (by omega)), ?_⟩
    have next : e + 16 + 1 - 16 = e + 1 := by omega
    rw [next]
    exact moved

/-- The code of `n` rounds runs `n` rounds. -/
theorem runs_codeTo (v : Vars) (l : Fin 4) :
    ∀ n, Runs (fun i => v.w i l) (fun r => v.reg r l) l n (execStmts v (codeTo n)) := by
  intro n
  induction n with
  | zero => exact Runs.start v l
  | succ n ih =>
      have split : execStmts v (codeTo (n + 1)) = execStmts (execStmts v (codeTo n)) (linesAt n) :=
        List.foldl_append
      rw [split]
      exact ih.step

/-- Register `r` after `n` rounds is the working variable that is there by then. -/
theorem execStmts_codeTo_reg (v : Vars) (l : Fin 4) (n : Nat) (j : Fin 8) :
    (execStmts v (codeTo n)).reg (slot n j) l =
      rounds (schedule (fun i => v.w i l)) (fun r => v.reg r l) n j :=
  (runs_codeTo v l n).regs j

/-! ### The kernel -/

/-- The block in which the word 3 was replaced by the nonce. -/
def withNonce (In : Block) (nonce : Word) : Block := Function.update In 3 nonce

@[simp] theorem withNonce_nonce (In : Block) (nonce : Word) : withNonce In nonce 3 = nonce :=
  Function.update_self ..

@[simp] theorem withNonce_withNonce (In : Block) (first second : Word) :
    withNonce (withNonce In first) second = withNonce In second := Function.update_idem ..

/-- The block of the second hash: the digest of the first one, and the padding words. -/
def digestBlock (digest : HashValue) (Pad : Block) : Block := fun i =>
  if h : i.val < 8 then digest ⟨i, h⟩ else Pad i

/-- The nonces of the loop step `k`. -/
private theorem nonce_lane (w : Word) (k : Nat) (l : Fin 4) :
    w + mmSetEpi32 3 2 1 0 l + BitVec.ofNat 32 k = w + BitVec.ofNat 32 (k + l) := by
  have lane : mmSetEpi32 3 2 1 0 l = BitVec.ofNat 32 l := by
    match l with
    | 0 | 1 | 2 | 3 => rfl
  rw [lane, BitVec.add_assoc, ← BitVec.ofNat_add, Nat.add_comm l.val k]

/-- After the first block, the registers and the midstate add up to the compression of that block. -/
private theorem firstBlock_lane (In : Block) (hPre : HashValue) (nonce : M128) (l : Fin 4) (j : Fin 8) :
    hPre j + (execStmts
      { reg := fun r => mmSet1Epi32 (hPre r)
        w := Function.update (fun i => mmSet1Epi32 (In i)) 3 nonce } firstBlock).reg j l =
      compress hPre (withNonce In (nonce l)) j := by
  have same : slot 64 j = j := Fin.ext (by simp only [slot]; omega)
  have reg := execStmts_codeTo_reg
    { reg := fun r => mmSet1Epi32 (hPre r)
      w := Function.update (fun i => mmSet1Epi32 (In i)) 3 nonce } l 64 j
  rw [same] at reg
  rw [firstBlock_eq, reg, BitVec.add_comm]
  simp only [update_lane]
  rfl

/-- The lane `j` of the stored nonces is the nonce word plus `j`. -/
theorem doubleBlockSHA256_eight (In Pad : Block) (hPre hInit : HashValue) (j : Fin npar) :
    doubleBlockSHA256 In Pad hPre hInit 8 j = In 3 + BitVec.ofNat 32 j := by
  have lanes := nonce_lane (In 3) (4 * (j.val / 4)) ⟨j.val % 4, Nat.mod_lt _ (by decide)⟩
  have place : 4 * (j.val / 4) + j.val % 4 = j.val := Nat.div_add_mod j.val 4
  rw [place] at lanes
  exact lanes

/-- The working variable that register `i` holds when the second block stops. -/
def stoppedVar (i : Fin 8) : Fin 8 := ⟨(i.val + 5) % 8, by omega⟩

/-- The compression without its last three rounds, with the variables in the registers where round 60 leaves them. -/
def stoppedCompress (H : HashValue) (M : Block) : HashValue :=
  fun i => rounds (schedule M) H 61 (stoppedVar i) + H i

/-- The lane `j` of the stored words is the compression of the first digest without its last three rounds. -/
theorem doubleBlockSHA256_word (In Pad : Block) (hPre hInit : HashValue) (j : Fin npar) (i : Fin 8) :
    doubleBlockSHA256 In Pad hPre hInit ⟨i, Nat.lt_succ_of_lt i.isLt⟩ j =
      stoppedCompress hInit
        (digestBlock (compress hPre (withNonce In (In 3 + BitVec.ofNat 32 j))) Pad) i := by
  have nonce := doubleBlockSHA256_eight In Pad hPre hInit j
  simp only [doubleBlockSHA256] at nonce ⊢
  generalize (⟨j.val % 4, Nat.mod_lt _ (by decide)⟩ : Fin 4) = l at nonce ⊢
  generalize 4 * (j.val / 4) = k at nonce ⊢
  rw [← nonce]
  have isWord : i.val < 8 := i.isLt
  have notWord : ¬ (8 : Fin 9).val < 8 := by decide
  simp only [doubleBlockLanes, isWord, dif_pos, notWord, dif_neg, not_false_eq_true]
  generalize mmAddEpi32 (mmAddEpi32 (mmSet1Epi32 (In 3)) (mmSetEpi32 3 2 1 0))
    (mmSet1Epi32 (BitVec.ofNat 32 k)) = nonces
  generalize startEq : Vars.mk (fun r => mmSet1Epi32 (hInit r)) _ = start
  have block : (fun i => start.w i l) = digestBlock (compress hPre (withNonce In (nonces l))) Pad := by
    funext i
    rw [← startEq, digestBlock]
    by_cases digest : i.val < 8
    · simp only [digest, dif_pos]
      exact firstBlock_lane In hPre nonces l ⟨i, digest⟩
    · simp only [digest, dif_neg, not_false_eq_true]
      rfl
  have init : (fun r => start.reg r l) = hInit := by
    rw [← startEq]
    rfl
  have place : slot 61 (stoppedVar i) = i := Fin.ext (by simp only [slot, stoppedVar]; omega)
  have reg := execStmts_codeTo_reg start l 61 (stoppedVar i)
  rw [place, block, init] at reg
  rw [secondBlock_eq, mmAddEpi32_lane]
  exact (BitVec.add_comm _ _).trans (congrArg (· + hInit i) reg)

/-- The last three rounds only hand on what words 7 and 3 are made of. -/
theorem stoppedCompress_seven (H : HashValue) (M : Block) : stoppedCompress H M 7 = compress H M 7 :=
  congrArg (· + H 7) (rounds_shift (schedule M) H 61).symm

theorem stoppedCompress_three (H : HashValue) (M : Block) : stoppedCompress H M 3 = compress H M 3 :=
  congrArg (· + H 3) (rounds_shift_three (schedule M) H 61).symm

/-- Although the second block stops after round 60, the lane `j` of the last word is exact: it is the last
    word of the double hash for the nonce `In 3 + j`. -/
theorem doubleBlockSHA256_seven (In Pad : Block) (hPre hInit : HashValue) (j : Fin npar) :
    doubleBlockSHA256 In Pad hPre hInit 7 j =
      compress hInit
        (digestBlock (compress hPre (withNonce In (In 3 + BitVec.ofNat 32 j))) Pad) 7 :=
  (doubleBlockSHA256_word In Pad hPre hInit j 7).trans (stoppedCompress_seven _ _)

/-- What the scan reads of a call is exact: row 7 decides the hit test as the full double hash does, and row 8
    says which nonce the lane belongs to. -/
theorem doubleBlockSHA256_exact (In Pad : Block) (hPre hInit : HashValue) (j : Fin npar) :
    doubleBlockSHA256 In Pad hPre hInit 7 j =
        compress hInit
          (digestBlock (compress hPre (withNonce In (In 3 + BitVec.ofNat 32 j))) Pad) 7 ∧
      doubleBlockSHA256 In Pad hPre hInit 8 j = In 3 + BitVec.ofNat 32 j :=
  ⟨doubleBlockSHA256_seven In Pad hPre hInit j, doubleBlockSHA256_eight In Pad hPre hInit j⟩

end CpuMiner.FourWay
