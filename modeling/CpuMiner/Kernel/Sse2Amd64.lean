/-
Module: CpuMiner.Kernel.Sse2Amd64
Layer: Kernels
Purpose: The x86-64 assembly kernel `CalcSha256_x64` of x86_64/sha256_xmm_amd64.asm, instruction by instruction.
  It works on four lanes at once: it expands `data[0..15]` to sixty-four schedule words in place, runs the
  sixty-four rounds on eight registers and stores the sums in `res[0..7]`. `calcSha256X64_res` says that every
  lane of the result is the SHA-256 compression of that lane of the input.
Imports: CpuMiner.Lib.Simd, CpuMiner.Lib.UnrolledRounds
Trusted boundary: human-reviewed spec (the transcription of the assembly)
Main exports: Slot, calcBody, labCalc, initBody, loopBody, labLoop, saveBody, calcSha256X64,
  calcSha256X64_res, calcSha256X64_data, calcSha256X64_init
Open obligations: none
-/
import CpuMiner.Lib.Simd
import CpuMiner.Lib.UnrolledRounds

namespace CpuMiner.Sse2Amd64

open Words
open Sha256
open Simd

/-- The memory the kernel touches, in 16-byte slots: the result at `rdi`, the data at `rsi` and the table
    `g_4sha256_k`; and the words of `init` at `rdx`, which only `movd` reads. -/
inductive Slot where
  | res (i : Nat)
  | data (i : Nat)
  | k (i : Nat)
  | init (i : Nat)
deriving DecidableEq

/-- The body of `LAB_CALC`. `r11` counts slots from the start of `data`. -/
def calcBody (r11 : Nat) : List (Instr Slot) :=
  [.load 0 (.data (r11 - 15)),
   .movdqa 2 0,              -- (Rotr32(w_15, 7) ^ Rotr32(w_15, 18) ^ (w_15 >> 3))
   .psrld 0 3,
   .movdqa 1 0,
   .pslld 2 14,
   .psrld 1 4,
   .pxor 0 1,
   .pxor 0 2,
   .pslld 2 11,
   .psrld 1 11,
   .pxor 0 1,
   .pxor 0 2,
   .padddMem 0 (.data (r11 - 16)),
   .load 3 (.data (r11 - 2)),
   .movdqa 2 3,              -- (Rotr32(w_2, 17) ^ Rotr32(w_2, 19) ^ (w_2 >> 10))
   .psrld 3 10,
   .movdqa 1 3,
   .pslld 2 13,
   .psrld 1 7,
   .pxor 3 1,
   .pxor 3 2,
   .pslld 2 2,
   .psrld 1 2,
   .pxor 3 1,
   .pxor 3 2,
   .paddd 0 3,
   .padddMem 0 (.data (r11 - 7)),
   .store (.data r11) 0]

/-- The loop at `LAB_CALC`: `add r11, 16; cmp r11, rcx; jb LAB_CALC`. -/
def labCalc (rcx r11 : Nat) (m : Machine Slot) : Machine Slot :=
  let m' := exec m (calcBody r11)
  if r11 + 1 < rcx then labCalc rcx (r11 + 1) m' else m'
termination_by rcx - r11

/-- Load the init values of the message into the hash. -/
def initBody : List (Instr Slot) :=
  [.movd 0 (.init 4),        -- xmm0 == e
   .pshufd0 0 0,
   .movd 3 (.init 3),        -- xmm3 == d
   .pshufd0 3 3,
   .movd 4 (.init 2),        -- xmm4 == c
   .pshufd0 4 4,
   .movd 5 (.init 1),        -- xmm5 == b
   .pshufd0 5 5,
   .movd 7 (.init 0),        -- xmm7 == a
   .pshufd0 7 7,
   .movd 8 (.init 5),        -- xmm8 == f
   .pshufd0 8 8,
   .movd 9 (.init 6),        -- xmm9 == g
   .pshufd0 9 9,
   .movd 10 (.init 7),       -- xmm10 == h
   .pshufd0 10 10]

/-- The body of `LAB_LOOP`. `rax` goes up by 4 each round, and `[rsi+rax*4]` is slot `rax / 4`. -/
def loopBody (rax : Nat) : List (Instr Slot) :=
  [.load 6 (.data (rax / 4)),
   .padddMem 6 (.k (rax / 4)),
   .paddd 6 10,              -- +h
   .movdqa 1 0,
   .movdqa 2 9,
   .pandn 1 2,               -- ~e & g
   .movdqa 10 2,             -- h = g
   .movdqa 2 8,              -- f
   .movdqa 9 2,              -- g = f
   .pand 2 0,                -- e & f
   .pxor 1 2,                -- (e & f) ^ (~e & g)
   .movdqa 8 0,              -- f = e
   .paddd 6 1,               -- Ch + h + w[i] + k[i]
   .movdqa 1 0,
   .psrld 0 6,
   .movdqa 2 0,
   .pslld 1 7,
   .psrld 2 5,
   .pxor 0 1,
   .pxor 0 2,
   .pslld 1 14,
   .psrld 2 14,
   .pxor 0 1,
   .pxor 0 2,
   .pslld 1 5,
   .pxor 0 1,                -- Rotr32(e, 6) ^ Rotr32(e, 11) ^ Rotr32(e, 25)
   .paddd 6 0,               -- xmm6 = t1
   .movdqa 0 3,              -- d
   .paddd 0 6,               -- e = d+t1
   .movdqa 1 5,              -- =b
   .movdqa 3 4,              -- d = c
   .movdqa 2 4,              -- c
   .pand 2 5,                -- b & c
   .pxor 1 4,                -- b ^ c
   .pand 1 7,                -- a & (b ^ c)
   .pxor 1 2,                -- (a & (b ^ c)) ^ (b & c)
   .movdqa 4 5,              -- c = b
   .movdqa 5 7,              -- b = a
   .paddd 6 1,               -- t1 + ((a & c) ^ (a & d) ^ (c & d))
   .movdqa 2 7,
   .psrld 7 2,
   .movdqa 1 7,
   .pslld 2 10,
   .psrld 1 11,
   .pxor 7 2,
   .pxor 7 1,
   .pslld 2 9,
   .psrld 1 9,
   .pxor 7 2,
   .pxor 7 1,
   .pslld 2 11,
   .pxor 7 2,
   .paddd 7 6]               -- a = t1 + (Rotr32(a, 2) ^ Rotr32(a, 13) ^ Rotr32(a, 22)) + ...

/-- The loop at `LAB_LOOP`: `add rax, 4; ...; cmp rax, rcx; jb LAB_LOOP`. -/
def labLoop (rcx rax : Nat) (m : Machine Slot) : Machine Slot :=
  let m' := exec m (loopBody rax)
  if rax + 4 < rcx then labLoop rcx (rax + 4) m' else m'
termination_by rcx - rax

/-- Finished the 64 rounds, calculate hash and save. -/
def saveBody : List (Instr Slot) :=
  [.movd 1 (.init 0), .pshufd0 1 1, .paddd 7 1,
   .movd 1 (.init 1), .pshufd0 1 1, .paddd 5 1,
   .movd 1 (.init 2), .pshufd0 1 1, .paddd 4 1,
   .movd 1 (.init 3), .pshufd0 1 1, .paddd 3 1,
   .movd 1 (.init 4), .pshufd0 1 1, .paddd 0 1,
   .movd 1 (.init 5), .pshufd0 1 1, .paddd 8 1,
   .movd 1 (.init 6), .pshufd0 1 1, .paddd 9 1,
   .movd 1 (.init 7), .pshufd0 1 1, .paddd 10 1,
   .store (.res 0) 7,
   .store (.res 1) 5,
   .store (.res 2) 4,
   .store (.res 3) 3,
   .store (.res 4) 0,
   .store (.res 5) 8,
   .store (.res 6) 9,
   .store (.res 7) 10]

/-- `CalcSha256_x64`: expand the data from slot 16 to slot 64, load the init values, run the rounds for
    `rax` from 0 to 256, save the hash. -/
def calcSha256X64 (m : Machine Slot) : Machine Slot :=
  exec (labLoop (64 * 4) 0 (exec (labCalc 64 16 m) initBody)) saveBody

/-! ### The shift chains -/

theorem smallSigma0_chain (x : Word) :
    x >>> 3 ^^^ x >>> 3 >>> 4 ^^^ x <<< 14 ^^^ x >>> 3 >>> 4 >>> 11 ^^^ x <<< 14 <<< 11 =
      smallSigma0 x := by
  have turn7 := rotr_eq_xor x (n := 7) (by decide)
  have turn18 := rotr_eq_xor x (n := 18) (by decide)
  simp only [smallSigma0, turn7, turn18, ← BitVec.shiftRight_add, ← BitVec.shiftLeft_add,
    Nat.reduceAdd, Nat.reduceSub, BitVec.xor_assoc, BitVec.xor_comm, xor_left_comm]

theorem smallSigma1_chain (x : Word) :
    x >>> 10 ^^^ x >>> 10 >>> 7 ^^^ x <<< 13 ^^^ x >>> 10 >>> 7 >>> 2 ^^^ x <<< 13 <<< 2 =
      smallSigma1 x := by
  have turn17 := rotr_eq_xor x (n := 17) (by decide)
  have turn19 := rotr_eq_xor x (n := 19) (by decide)
  simp only [smallSigma1, turn17, turn19, ← BitVec.shiftRight_add, ← BitVec.shiftLeft_add,
    Nat.reduceAdd, Nat.reduceSub, BitVec.xor_assoc, BitVec.xor_comm, xor_left_comm]

theorem bigSigma1_chain (x : Word) :
    x >>> 6 ^^^ x <<< 7 ^^^ x >>> 6 >>> 5 ^^^ x <<< 7 <<< 14 ^^^ x >>> 6 >>> 5 >>> 14 ^^^
      x <<< 7 <<< 14 <<< 5 = bigSigma1 x := by
  have turn6 := rotr_eq_xor x (n := 6) (by decide)
  have turn11 := rotr_eq_xor x (n := 11) (by decide)
  have turn25 := rotr_eq_xor x (n := 25) (by decide)
  simp only [bigSigma1, turn6, turn11, turn25, ← BitVec.shiftRight_add, ← BitVec.shiftLeft_add, Nat.reduceAdd,
    Nat.reduceSub, BitVec.xor_assoc, BitVec.xor_comm, xor_left_comm]

theorem bigSigma0_chain (x : Word) :
    x >>> 2 ^^^ x <<< 10 ^^^ x >>> 2 >>> 11 ^^^ x <<< 10 <<< 9 ^^^ x >>> 2 >>> 11 >>> 9 ^^^
      x <<< 10 <<< 9 <<< 11 = bigSigma0 x := by
  have turn2 := rotr_eq_xor x (n := 2) (by decide)
  have turn13 := rotr_eq_xor x (n := 13) (by decide)
  have turn22 := rotr_eq_xor x (n := 22) (by decide)
  simp only [bigSigma0, turn2, turn13, turn22, ← BitVec.shiftRight_add, ← BitVec.shiftLeft_add, Nat.reduceAdd,
    Nat.reduceSub, BitVec.xor_assoc, BitVec.xor_comm, xor_left_comm]

/-! ### What each block does -/

/-- One pass of `LAB_CALC` stores one schedule word and changes no other memory. -/
theorem calcBody_mem (m : Machine Slot) (r11 : Nat) (s : Slot) :
    (exec m (calcBody r11)).mem s =
      if s = .data r11 then
        fun l => smallSigma0 (m.mem (.data (r11 - 15)) l) + m.mem (.data (r11 - 16)) l +
          smallSigma1 (m.mem (.data (r11 - 2)) l) + m.mem (.data (r11 - 7)) l
      else m.mem s := by
  simp only [← smallSigma0_chain, ← smallSigma1_chain]
  rfl

/-- The working variables of lane `l`: `a` to `h` are in the registers 7, 5, 4, 3, 0, 8, 9 and 10. -/
def vars (m : Machine Slot) (l : Fin 4) : HashValue := fun j =>
  match j with
  | 0 => m.xmm 7 l
  | 1 => m.xmm 5 l
  | 2 => m.xmm 4 l
  | 3 => m.xmm 3 l
  | 4 => m.xmm 0 l
  | 5 => m.xmm 8 l
  | 6 => m.xmm 9 l
  | 7 => m.xmm 10 l

theorem initBody_vars (m : Machine Slot) (l : Fin 4) (j : Fin 8) :
    vars (exec m initBody) l j = m.mem (.init j) 0 := by
  match j with
  | 0 | 1 | 2 | 3 | 4 | 5 | 6 | 7 => rfl

theorem initBody_mem (m : Machine Slot) : (exec m initBody).mem = m.mem := rfl

theorem loopBody_mem (m : Machine Slot) (rax : Nat) : (exec m (loopBody rax)).mem = m.mem := rfl

/-- The code adds the terms of `t1` in another order. -/
private theorem t1_order (e f g h k w : Word) :
    w + k + h + ((~~~e &&& g) ^^^ (f &&& e)) + bigSigma1 e = h + bigSigma1 e + ch e f g + k + w := by
  have select : (~~~e &&& g) ^^^ (f &&& e) = ch e f g := by
    rw [ch, BitVec.xor_comm, BitVec.and_comm f e]
  rw [select]
  ac_rfl

/-- One pass of `LAB_LOOP` is one round on every lane. -/
theorem loopBody_vars (m : Machine Slot) (rax : Nat) (l : Fin 4) :
    vars (exec m (loopBody rax)) l =
      oneRound (m.mem (.k (rax / 4)) l) (m.mem (.data (rax / 4)) l) (vars m l) := by
  funext j
  match j with
  | 0 =>
      have majority : ((m.xmm 5 l ^^^ m.xmm 4 l) &&& m.xmm 7 l) ^^^ (m.xmm 4 l &&& m.xmm 5 l) =
          maj (m.xmm 7 l) (m.xmm 5 l) (m.xmm 4 l) := by
        rw [← maj_eq_xor, BitVec.and_comm (m.xmm 7 l), BitVec.and_comm (m.xmm 4 l)]
      have order : ∀ t s j : Word, t + (s + j) = s + (t + j) := by
        intro t s j
        ac_rfl
      simp only [oneRound, vars]
      rw [order, ← t1_order, ← majority, ← bigSigma0_chain, ← bigSigma1_chain]
      rfl
  | 4 =>
      simp only [oneRound, vars]
      rw [← t1_order, ← bigSigma1_chain]
      rfl
  | 1 | 2 | 3 | 5 | 6 | 7 => rfl

theorem saveBody_res (m : Machine Slot) (j : Fin 8) (l : Fin 4) :
    (exec m saveBody).mem (.res j) l = vars m l j + m.mem (.init j) 0 := by
  match j with
  | 0 | 1 | 2 | 3 | 4 | 5 | 6 | 7 => rfl

theorem saveBody_data (m : Machine Slot) (i : Nat) :
    (exec m saveBody).mem (.data i) = m.mem (.data i) := rfl

theorem saveBody_init (m : Machine Slot) (i : Nat) :
    (exec m saveBody).mem (.init i) = m.mem (.init i) := rfl

/-- Only eight vectors of the result are written. -/
theorem saveBody_res_above (m : Machine Slot) (i : Nat) (hi : 8 ≤ i) :
    (exec m saveBody).mem (.res i) = m.mem (.res i) := by
  apply exec_mem_of_not_stored
  have stored : saveBody.filterMap Instr.stored =
      [.res 0, .res 1, .res 2, .res 3, .res 4, .res 5, .res 6, .res 7] := rfl
  rw [stored]
  simp only [List.mem_cons, Slot.res.injEq, List.not_mem_nil, or_false]
  omega

/-! ### The two loops -/

/-- Lane `l` of the sixteen data vectors, as a message block. -/
def laneBlock (m : Machine Slot) (l : Fin 4) : Block := fun i => m.mem (.data i) l

/-- In `m`, the first `n` data slots hold the schedule words of the data of `m₀`, lane by lane, and the rest
    of the memory is as it was in `m₀`. -/
structure Expanded (m₀ m : Machine Slot) (n : Nat) : Prop where
  words : ∀ t, t < n → ∀ l, m.mem (.data t) l = schedule (laneBlock m₀ l) t
  frame : ∀ s, (∀ i, s ≠ .data i) → m.mem s = m₀.mem s

theorem Expanded.start (m : Machine Slot) : Expanded m m 16 where
  words t ht l := (schedule_block (laneBlock m l) t ht).symm
  frame _ _ := rfl

theorem Expanded.calcBody {m₀ m : Machine Slot} {r11 : Nat} (h16 : 16 ≤ r11)
    (expanded : Expanded m₀ m r11) : Expanded m₀ (exec m (calcBody r11)) (r11 + 1) where
  words t ht l := by
    rw [calcBody_mem]
    by_cases newest : t = r11
    · obtain ⟨e, rfl⟩ : ∃ e, r11 = e + 16 := ⟨r11 - 16, by omega⟩
      rw [newest, if_pos rfl, schedule_recurrence]
      have back15 : e + 16 - 15 = e + 1 := by omega
      have back16 : e + 16 - 16 = e := by omega
      have back2 : e + 16 - 2 = e + 14 := by omega
      have back7 : e + 16 - 7 = e + 9 := by omega
      simp only [back15, back16, back2, back7]
      rw [expanded.words (e + 1) (by omega), expanded.words e (by omega),
        expanded.words (e + 14) (by omega), expanded.words (e + 9) (by omega)]
      ac_rfl
    · rw [if_neg (fun same => newest (Slot.data.inj same))]
      exact expanded.words t (by omega) l
  frame s other := by
    rw [calcBody_mem, if_neg (other r11)]
    exact expanded.frame s other

theorem labCalc_expanded {m₀ m : Machine Slot} {rcx r11 : Nat} (h16 : 16 ≤ r11)
    (below : r11 < rcx) (expanded : Expanded m₀ m r11) :
    Expanded m₀ (labCalc rcx r11 m) rcx := by
  induction r11, m using labCalc.induct rcx with
  | case1 r11 m m' more ih =>
      rw [labCalc, if_pos more]
      exact ih (by omega) more (expanded.calcBody h16)
  | case2 r11 m last =>
      rw [labCalc, if_neg last]
      have final : rcx = r11 + 1 := by omega
      rw [final]
      exact expanded.calcBody h16

theorem labLoop_mem (rcx rax : Nat) (m : Machine Slot) : (labLoop rcx rax m).mem = m.mem := by
  induction rax, m using labLoop.induct rcx with
  | case1 rax m m' more ih =>
      rw [labLoop, if_pos more, ih, loopBody_mem]
  | case2 rax m last =>
      rw [labLoop, if_neg last, loopBody_mem]

/-- The loop runs the rounds that are left. -/
theorem labLoop_vars {n rax : Nat} {m : Machine Slot} {l : Fin 4} {W : Nat → Word} {v : HashValue}
    (aligned : rax % 4 = 0) (below : rax < 4 * n)
    (k : ∀ t, t < n → m.mem (.k t) l = K t) (data : ∀ t, t < n → m.mem (.data t) l = W t)
    (held : vars m l = rounds W v (rax / 4)) :
    vars (labLoop (4 * n) rax m) l = rounds W v n := by
  induction rax, m using labLoop.induct (4 * n) with
  | case1 rax m m' more ih =>
      rw [labLoop, if_pos more]
      have next : (rax + 4) / 4 = rax / 4 + 1 := by omega
      refine ih (by omega) more k data ?_
      rw [next, rounds, loopBody_vars, held, k _ (by omega), data _ (by omega)]
  | case2 rax m last =>
      rw [labLoop, if_neg last]
      have final : n = rax / 4 + 1 := by omega
      rw [loopBody_vars, held, k _ (by omega), data _ (by omega), final]
      rfl

/-! ### The kernel -/

/-- The machine after the data is expanded. -/
private theorem expanded_data (m : Machine Slot) : Expanded m (labCalc 64 16 m) 64 :=
  labCalc_expanded (Nat.le_refl 16) (by decide) (Expanded.start m)

/-- Every lane of the result is the compression of that lane of the data, from the words of `init`. -/
theorem calcSha256X64_res (m : Machine Slot) (hk : ∀ t, t < 64 → ∀ l, m.mem (.k t) l = K t)
    (j : Fin 8) (l : Fin 4) :
    (calcSha256X64 m).mem (.res j) l =
      compress (fun i => m.mem (.init i) 0) (laneBlock m l) j := by
  have expanded := expanded_data m
  have init : ∀ i : Fin 8, (labCalc 64 16 m).mem (.init i) = m.mem (.init i) := fun i =>
    expanded.frame _ (fun _ same => by cases same)
  have workVars : vars (labLoop (64 * 4) 0 (exec (labCalc 64 16 m) initBody)) l =
      rounds (schedule (laneBlock m l)) (fun i => m.mem (.init i) 0) 64 := by
    refine @labLoop_vars 64 0 _ l _ _ (by decide) (by decide) ?_ ?_ ?_
    · intro t ht
      rw [initBody_mem, expanded.frame _ (fun _ same => by cases same), hk t ht]
    · intro t ht
      rw [initBody_mem, expanded.words t ht]
    · funext i
      rw [initBody_vars, init]
      rfl
  rw [calcSha256X64, saveBody_res, workVars, labLoop_mem, initBody_mem, init]
  rfl

/-- The sixteen data vectors are still there. -/
theorem calcSha256X64_data (m : Machine Slot) (i : Nat) (hi : i < 16) :
    (calcSha256X64 m).mem (.data i) = m.mem (.data i) := by
  funext l
  rw [calcSha256X64, saveBody_data, labLoop_mem, initBody_mem, (expanded_data m).words i (by omega),
    schedule_block _ i hi]
  rfl

/-- The words of `init` are still there. -/
theorem calcSha256X64_init (m : Machine Slot) (i : Nat) :
    (calcSha256X64 m).mem (.init i) = m.mem (.init i) := by
  rw [calcSha256X64, saveBody_init, labLoop_mem, initBody_mem,
    (expanded_data m).frame _ (fun _ same => by cases same)]

/-- The rest of the result array is left alone. -/
theorem calcSha256X64_res_above (m : Machine Slot) (i : Nat) (hi : 8 ≤ i) :
    (calcSha256X64 m).mem (.res i) = m.mem (.res i) := by
  rw [calcSha256X64, saveBody_res_above _ i hi, labLoop_mem, initBody_mem,
    (expanded_data m).frame _ (fun _ same => by cases same)]

end CpuMiner.Sse2Amd64
