/-
Module: CpuMiner.Lib.Simd
Layer: Library
Purpose: 128-bit vectors of four 32-bit lanes. The first part gives the SSE2 compiler intrinsics that work
  lane by lane, under their own names. The second part is a machine for straight-line SSE2 assembly: sixteen
  vector registers, a memory of vectors with addresses of any type, one `step` for each instruction and `exec`
  for a list of them. A block of instructions is run by computation: its effect on symbolic registers holds by
  `rfl`.
Imports: CpuMiner.Lib.Words
Trusted boundary: human-reviewed spec
Main exports: M128, mmAddEpi32, mmSet1Epi32, mmSetEpi32, mmXorSi128, mmAndSi128, mmAndnotSi128, mmOrSi128,
  mmSrliEpi32, mmSlliEpi32, Instr, Machine, step, exec
Open obligations: none
-/
import CpuMiner.Lib.Words

namespace Simd

open Words

/-- A vector of four 32-bit lanes; lane 0 is the least significant one. -/
abbrev M128 := Fin 4 → Word

/-! ### Intrinsics -/

def mmAddEpi32 (x y : M128) : M128 := fun l => x l + y l

def mmXorSi128 (x y : M128) : M128 := fun l => x l ^^^ y l

def mmAndSi128 (x y : M128) : M128 := fun l => x l &&& y l

/-- The complement of the first operand, and the second. -/
def mmAndnotSi128 (x y : M128) : M128 := fun l => ~~~ x l &&& y l

def mmOrSi128 (x y : M128) : M128 := fun l => x l ||| y l

def mmSrliEpi32 (x : M128) (n : Nat) : M128 := fun l => x l >>> n

def mmSlliEpi32 (x : M128) (n : Nat) : M128 := fun l => x l <<< n

def mmSet1Epi32 (w : Word) : M128 := fun _ => w

/-- The lanes are given from the most significant one down. -/
def mmSetEpi32 (e3 e2 e1 e0 : Word) : M128 := fun l =>
  match l with
  | 0 => e0
  | 1 => e1
  | 2 => e2
  | 3 => e3

section Lanes

variable (x y : M128) (l : Fin 4)

@[simp] theorem mmAddEpi32_lane : mmAddEpi32 x y l = x l + y l := rfl

@[simp] theorem mmXorSi128_lane : mmXorSi128 x y l = x l ^^^ y l := rfl

@[simp] theorem mmAndSi128_lane : mmAndSi128 x y l = x l &&& y l := rfl

@[simp] theorem mmAndnotSi128_lane : mmAndnotSi128 x y l = ~~~ x l &&& y l := rfl

@[simp] theorem mmOrSi128_lane : mmOrSi128 x y l = x l ||| y l := rfl

@[simp] theorem mmSrliEpi32_lane (n : Nat) : mmSrliEpi32 x n l = x l >>> n := rfl

@[simp] theorem mmSlliEpi32_lane (n : Nat) : mmSlliEpi32 x n l = x l <<< n := rfl

@[simp] theorem mmSet1Epi32_lane (w : Word) : mmSet1Epi32 w l = w := rfl

end Lanes

/-- One lane of an array of vectors in which one vector was replaced. -/
theorem update_lane {n : Nat} (f : Fin n → M128) (p : Fin n) (x : M128) (l : Fin 4) :
    (fun i => Function.update f p x i l) = Function.update (fun i => f i l) p (x l) := by
  funext i
  by_cases same : i = p
  · rw [same, Function.update_self, Function.update_self]
  · rw [Function.update_of_ne same, Function.update_of_ne same]

/-! ### Straight-line assembly -/

/-- A vector register. -/
abbrev Xmm := Fin 16

/-- The instructions, with the destination first. `ω` is the type of memory addresses. -/
inductive Instr (ω : Type) where
  | movdqa (dst src : Xmm)
  | load (dst : Xmm) (src : ω)
  | store (dst : ω) (src : Xmm)
  | movd (dst : Xmm) (src : ω)
  | pshufd0 (dst src : Xmm)
  | psrld (dst : Xmm) (n : Nat)
  | pslld (dst : Xmm) (n : Nat)
  | pxor (dst src : Xmm)
  | pand (dst src : Xmm)
  | pandn (dst src : Xmm)
  | paddd (dst src : Xmm)
  | padddMem (dst : Xmm) (src : ω)
deriving DecidableEq

/-- Registers and memory. -/
structure Machine (ω : Type) where
  xmm : Xmm → M128
  mem : ω → M128

variable {ω : Type} [DecidableEq ω]

def Machine.setXmm (m : Machine ω) (r : Xmm) (v : M128) : Machine ω :=
  { m with xmm := fun q => if q = r then v else m.xmm q }

def Machine.setMem (m : Machine ω) (a : ω) (v : M128) : Machine ω :=
  { m with mem := fun b => if b = a then v else m.mem b }

/-- One instruction. `movd` loads the low lane and clears the others; `pshufd0` is the shuffle with the
    constant 0, which copies the low lane to all four. -/
def step (m : Machine ω) : Instr ω → Machine ω
  | .movdqa dst src => m.setXmm dst (m.xmm src)
  | .load dst src => m.setXmm dst (m.mem src)
  | .store dst src => m.setMem dst (m.xmm src)
  | .movd dst src => m.setXmm dst (fun l => if l = 0 then m.mem src 0 else 0)
  | .pshufd0 dst src => m.setXmm dst (fun _ => m.xmm src 0)
  | .psrld dst n => m.setXmm dst (mmSrliEpi32 (m.xmm dst) n)
  | .pslld dst n => m.setXmm dst (mmSlliEpi32 (m.xmm dst) n)
  | .pxor dst src => m.setXmm dst (mmXorSi128 (m.xmm dst) (m.xmm src))
  | .pand dst src => m.setXmm dst (mmAndSi128 (m.xmm dst) (m.xmm src))
  | .pandn dst src => m.setXmm dst (mmAndnotSi128 (m.xmm dst) (m.xmm src))
  | .paddd dst src => m.setXmm dst (mmAddEpi32 (m.xmm dst) (m.xmm src))
  | .padddMem dst src => m.setXmm dst (mmAddEpi32 (m.xmm dst) (m.mem src))

/-- A list of instructions, in order. -/
def exec (m : Machine ω) (code : List (Instr ω)) : Machine ω := code.foldl step m

/-- The address an instruction stores to. -/
def Instr.stored : Instr ω → Option ω
  | .store dst _ => some dst
  | _ => none

/-- Code changes the memory at the addresses it stores to, and nowhere else. -/
theorem exec_mem_of_not_stored (m : Machine ω) (code : List (Instr ω)) {a : ω}
    (untouched : a ∉ code.filterMap Instr.stored) : (exec m code).mem a = m.mem a := by
  induction code generalizing m with
  | nil => rfl
  | cons i code ih =>
      have rest : a ∉ code.filterMap Instr.stored := by
        intro later
        apply untouched
        rw [List.filterMap_cons]
        split
        · exact later
        · exact List.mem_cons_of_mem _ later
      refine (ih (step m i) rest).trans ?_
      cases i with
      | store dst src =>
          have other : a ≠ dst := by
            intro same
            exact untouched (by simp [Instr.stored, same])
          exact if_neg other
      | _ => rfl

end Simd
