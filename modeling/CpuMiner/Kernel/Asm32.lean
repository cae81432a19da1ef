/-
Module: CpuMiner.Kernel.Asm32
Layer: Kernels
Purpose: `X86_SHA256_HashBlocks` of sha256_cryptopp.c as the compiler sees it for 32-bit x86 without SSE2, macro by
  macro and instruction by instruction, and `SHA256_Transform32` and `runhash32`, which call it. The stack frame has
  eight words that the macros `H(i)` to `A(i)` name in turn, a ring of sixteen schedule words that the macro `Wt(i)`
  names from its end, and four saved pointers.
Imports: CpuMiner.Kernel.Cryptopp, CpuMiner.Lib.X86
Trusted boundary: human-reviewed spec (the transcription of the assembly)
Main exports: H, Wt, ROUND, SWAP_COPY, Label, x86Sha256HashBlocks, Object, callHashBlocks, sha256Transform32,
  runhash32
Open obligations: none
-/
import CpuMiner.Kernel.Cryptopp
import CpuMiner.Lib.X86

set_option linter.constructorNameAsVariable false

namespace CpuMiner.Asm32

open Words
open Sha256
open X86

/-! ### The macros -/

/-- `ASM_MOD(x, y)` -/
def asmMod (x y : Int) : Int := x - x / y * y

/-- The dword at `[BASE+k]`; `BASE` is `esp+4`. -/
def base (k : Int) : Operand := .mem .esp (4 + k)

/-- `LOCALS_SIZE` -/
def localsSize : Word := 8*4 + 16*4 + 4*4

/-- Where the frame has `H(i)`. -/
def hPlace (i : Int) : Int := asmMod (1024+7-i) 8 * 4

def H (i : Int) : Operand := base (hPlace i)

def G (i : Int) : Operand := H (i+1)

def F (i : Int) : Operand := H (i+2)

def E (i : Int) : Operand := H (i+3)

def D (i : Int) : Operand := H (i+4)

def C (i : Int) : Operand := H (i+5)

def B (i : Int) : Operand := H (i+6)

def A (i : Int) : Operand := H (i+7)

/-- Where the frame has `Wt(i)`. -/
def wtPlace (i : Int) : Int := 8*4 + asmMod (1024+15-i) 16 * 4

def Wt (i : Int) : Operand := base (wtPlace i)

/-- `K_END` -/
def kEnd : Operand := base (8*4 + 16*4 + 0*4)

/-- `STATE_SAVE` -/
def stateSave : Operand := base (8*4 + 16*4 + 1*4)

/-- `DATA_SAVE` -/
def dataSave : Operand := base (8*4 + 16*4 + 2*4)

/-- `DATA_END` -/
def dataEnd : Operand := base (8*4 + 16*4 + 3*4)

def Kt (i : Int) : Operand := .mem .esi (i*4)

section

open Instr Operand

def RA0 (i : Int) (edx _edi : Reg) : List Instr :=
  [.add (reg edx) (Kt i),
   .add (reg edx) (Wt i),
   .add (reg edx) (H i)]

def RA1 (_i : Int) (_edx _edi : Reg) : List Instr := []

def RB0 (_i : Int) (_edx _edi : Reg) : List Instr := []

def RB1 (i : Int) (edx edi : Reg) : List Instr :=
  [mov (reg .ebp) (Wt (i-2)),
   mov (reg edi) (Wt (i-15)),
   mov (reg .ebx) (reg .ebp),
   shr .ebp 10,
   ror .ebx 17,
   xor (reg .ebp) (reg .ebx),
   ror .ebx 2,
   xor (reg .ebx) (reg .ebp),      -- s1(W_t-2)
   add (reg .ebx) (Wt (i-7)),
   mov (reg .ebp) (reg edi),
   shr .ebp 3,
   ror edi 7,
   add (reg .ebx) (Wt i),          -- s1(W_t-2) + W_t-7 + W_t-16
   xor (reg .ebp) (reg edi),
   add (reg edx) (Kt i),
   ror edi 11,
   add (reg edx) (H i),
   xor (reg .ebp) (reg edi),       -- s0(W_t-15)
   add (reg .ebp) (reg .ebx),      -- W_t = s1(W_t-2) + W_t-7 + s0(W_t-15) W_t-16
   mov (Wt i) (reg .ebp),
   add (reg edx) (reg .ebp)]

/-- `RA##r` -/
def RA (r : Bool) : Int → Reg → Reg → List Instr := if r then RA1 else RA0

/-- `RB##r` -/
def RB (r : Bool) : Int → Reg → Reg → List Instr := if r then RB1 else RB0

/-- The first part of `ROUND`. In: `edi` = E. Unused: `eax`, `ecx`, temp: `ebx`, `ebp`, out: `edx` = T1. -/
def roundT1 (i : Int) (r : Bool) (edi edx : Reg) : List Instr :=
  [mov (reg edx) (F i),
   xor (reg edx) (G i),
   Instr.and (reg edx) (reg edi),
   xor (reg edx) (G i),            -- Ch(E,F,G) = (G^(E&(F^G)))
   mov (reg .ebp) (reg edi),
   ror edi 6,
   ror .ebp 25]
  ++ RA r i edx edi ++             -- H + Wt + Kt + Ch(E,F,G)
  [xor (reg .ebp) (reg edi),
   ror edi 5,
   xor (reg .ebp) (reg edi),       -- S1(E)
   add (reg edx) (reg .ebp)]       -- T1 = S1(E) + Ch(E,F,G) + H + Wt + Kt
  ++ RB r i edx edi                -- H + Wt + Kt + Ch(E,F,G)

/-- The second part of `ROUND`. In: `ecx` = A, `eax` = B^C, `edx` = T1. Temp: `ebx`, `ebp`, out: `eax` = A,
    `ecx` = B^C, `edx` = E. -/
def roundAE (i : Int) (eax ecx edx : Reg) : List Instr :=
  [mov (reg .ebx) (reg ecx),
   xor (reg ecx) (B i),            -- A^B
   Instr.and (reg eax) (reg ecx),
   xor (reg eax) (B i),            -- Maj(A,B,C) = B^((A^B)&(B^C)
   mov (reg .ebp) (reg .ebx),
   ror .ebx 2,
   add (reg eax) (reg edx),        -- T1 + Maj(A,B,C)
   add (reg edx) (D i),
   mov (D i) (reg edx),
   ror .ebp 22,
   xor (reg .ebp) (reg .ebx),
   ror .ebx 11,
   xor (reg .ebp) (reg .ebx),
   add (reg eax) (reg .ebp),       -- T1 + S0(A) + Maj(A,B,C)
   mov (H i) (reg eax)]

def ROUND (i : Int) (r : Bool) (eax ecx edi edx : Reg) : List Instr :=
  roundT1 i r edi edx ++ roundAE i eax ecx edx

def SWAP_COPY (i : Int) : List Instr :=
  [mov (reg .ebx) (mem .edx (i*4)),
   bswap .ebx,
   mov (Wt i) (reg .ebx)]

/-! ### The code -/

/-- `ROUND(0, r, eax, ecx, edi, edx)`, `ROUND(1, r, ecx, eax, edx, edi)` and so on to `ROUND(15, ...)`. -/
def sixteenRounds (r : Bool) : List Instr :=
  (List.range 16).flatMap fun i : Nat =>
    if i % 2 = 0 then ROUND i r .eax .ecx .edi .edx else ROUND i r .ecx .eax .edx .edi

/-- The entry, the labels of the source, what is between the two `jb`, and what is after the second one. -/
inductive Label where
  | entry
  | label2
  | label3
  | label1
  | sums
  | leave
deriving DecidableEq

/-- `X86_SHA256_HashBlocks` -/
def x86Sha256HashBlocks : Label → Block Label
  | .entry =>
      { code :=
          [push .ebx,
           push .ebp,
           mov (reg .ebx) (reg .esp),
           Instr.and (reg .esp) (imm (-16)),
           sub (reg .esp) (imm localsSize),
           push .ebx,
           mov stateSave (reg .ecx),
           mov dataSave (reg .edx),
           leaIndex .eax .edi .edx,
           mov dataEnd (reg .eax),
           mov kEnd (reg .esi)]
        jump := .jmp .label2 }
  | .label2 =>                       -- non-SSE2
      { code :=
          [mov (reg .esi) (reg .ecx),
           lea .edi (A 0),
           mov (reg .ecx) (imm 8),
           repMovsd,
           mov (reg .esi) kEnd]
        jump := .jmp .label3 }
  | .label3 =>
      { code :=
          [sub (reg .esi) (imm (48*4))]
          ++ (List.range 16).flatMap (fun i : Nat => SWAP_COPY i) ++
          [mov (reg .edi) (E 0),     -- E
           mov (reg .eax) (B 0),     -- B
           xor (reg .eax) (C 0),     -- B^C
           mov (reg .ecx) (A 0)]     -- A
          ++ sixteenRounds false
        jump := .jmp .label1 }
  | .label1 =>
      { code :=
          [add (reg .esi) (imm (4*16))]
          ++ sixteenRounds true ++
          [cmp (reg .esi) kEnd]
        jump := .jb .label1 .sums }
  | .sums =>
      { code :=
          [mov (reg .edx) dataSave,
           add (reg .edx) (imm 64),
           mov (reg .ebp) stateSave,
           mov dataSave (reg .edx),
           add (mem .ebp (0*4)) (reg .ecx),    -- A
           add (mem .ebp (4*4)) (reg .edi),    -- E
           mov (reg .eax) (B 0),
           mov (reg .ebx) (C 0),
           mov (reg .ecx) (D 0),
           add (mem .ebp (1*4)) (reg .eax),
           add (mem .ebp (2*4)) (reg .ebx),
           add (mem .ebp (3*4)) (reg .ecx),
           mov (reg .eax) (F 0),
           mov (reg .ebx) (G 0),
           mov (reg .ecx) (H 0),
           add (mem .ebp (5*4)) (reg .eax),
           add (mem .ebp (6*4)) (reg .ebx),
           add (mem .ebp (7*4)) (reg .ecx),
           mov (reg .ecx) (reg .ebp),
           cmp (reg .edx) dataEnd]
        jump := .jb .label2 .leave }
  | .leave =>
      { code := [pop .esp, pop .ebp, pop .ebx]
        jump := .done }

end

/-! ### The calls -/

/-- What the code has pointers into. -/
inductive Object where
  | stack
  | state
  | data
  | table
deriving DecidableEq

/-- The dwords of an object that has `n` words, and what is around it. -/
def dwords {n : Nat} (words : Fin n → Word) (around : Int → Value Object) (k : Int) : Value Object :=
  if h : k % 4 = 0 ∧ 0 ≤ k ∧ k < 4 * n then .word (words ⟨(k / 4).toNat, by omega⟩) else around k

/-- The operands of the `asm`: `state` in `ecx`, `data` in `edx`, `SHA256_K+48` in `esi` and `len` in `edi`. The stack
    pointer is `sp`, and everything else is as the caller has left it. -/
def callHashBlocks (caller : Machine Object) (sp : Int) (state : HashValue) (data : Block) (len : Word) :
    Machine Object where
  regs r :=
    match r with
    | .ecx => .ptr .state 0
    | .edx => .ptr .data 0
    | .esi => .ptr .table (48*4)
    | .edi => .word len
    | .esp => .ptr .stack sp
    | _ => caller.regs r
  mem o :=
    match o with
    | .stack => caller.mem .stack
    | .state => dwords state (caller.mem .state)
    | .data => dwords data (caller.mem .data)
    | .table => dwords (fun t : Fin 64 => Cryptopp.sha256K t) (caller.mem .table)
  below := caller.below
  start := caller.start

/-- `SHA256_Transform32`, with so many basic blocks of assembly: the dwords of `state` afterwards. -/
def sha256Transform32 (blocks : Nat) (caller : Machine Object) (sp : Int) (state : HashValue) (data : Pointer) :
    Option (Fin 8 → Value Object) :=
  let W : Block := fun i => swab32 (data.word i)
  match Loop.run (runBlock x86Sha256HashBlocks) blocks (.entry, callHashBlocks caller sp state W (16*4)) with
  | some (some m) => some fun j => m.mem .state (4 * j)
  | _ => none

/-- `runhash32`: `memcpy(state, init, 32)`, then the transform. -/
def runhash32 (blocks : Nat) (caller : Machine Object) (sp : Int) (input : Pointer) (init : HashValue) :
    Option (Fin 8 → Value Object) := sha256Transform32 blocks caller sp init input

end CpuMiner.Asm32
