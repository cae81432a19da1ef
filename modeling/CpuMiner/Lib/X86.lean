/-
Module: CpuMiner.Lib.X86
Layer: Library
Purpose: 32-bit x86 code with integer registers. A dword is a number or a pointer into an object, so that code is run
  without addresses: pointers move inside their object, and two objects never overlap. The first part is one `step`
  for each instruction and `exec` for a list of them; the second part is a flow graph of basic blocks, which runs as
  a loop. What the architecture or the object model does not define gives `unknown`, or no result at all; a proof that
  the code ends in numbers is also a proof that it does nothing of the kind.
Imports: CpuMiner.Lib.Search, CpuMiner.Lib.Words
Trusted boundary: human-reviewed spec
Main exports: ror_ror, Reg, Value, Operand, Instr, Memory, Machine, step, exec, exec_append, exec_flatMap,
  Memory.store_self, Memory.store_apart, Block, Jump, runBlock, RunsIn
Open obligations: none
-/
import CpuMiner.Lib.Search
import CpuMiner.Lib.Words

namespace X86

open Words
open Function (update)

/-- The bits of a rotated word. -/
theorem getLsbD_ror (x : Word) {n i : Nat} (hn : n < 32) (hi : i < 32) :
    (x.rotateRight n).getLsbD i = x.getLsbD ((n + i) % 32) := by
  rw [BitVec.getLsbD_rotateRight_of_lt hn]
  by_cases low : i < 32 - n
  · have place : (n + i) % 32 = n + i := by omega
    simp [low, place]
  · have place : (n + i) % 32 = i - (32 - n) := by omega
    simp [low, hi, place]

/-- Two rotations in a row. -/
theorem ror_ror (x : Word) {m n : Nat} (small : m + n < 32) :
    (x.rotateRight m).rotateRight n = x.rotateRight (m + n) := by
  apply BitVec.eq_of_getLsbD_eq
  intro i hi
  rw [getLsbD_ror _ (by omega) hi, getLsbD_ror _ (by omega) (Nat.mod_lt _ (by decide)),
    getLsbD_ror _ small hi]
  have place : (m + (n + i) % 32) % 32 = (m + n + i) % 32 := by omega
  rw [place]

/-- The general registers. -/
inductive Reg where
  | eax
  | ebx
  | ecx
  | edx
  | esi
  | edi
  | ebp
  | esp
deriving DecidableEq

/-- A dword. A pointer is so many bytes from the start of its object. -/
inductive Value (ω : Type) where
  | word (w : Word)
  | ptr (object : ω) (offset : Int)
  | unknown

namespace Value

variable {ω : Type}

/-- A pointer moves by a signed number of bytes. -/
def add : Value ω → Value ω → Value ω
  | word x, word y => word (x + y)
  | ptr o k, word y => ptr o (k + y.toInt)
  | word x, ptr o k => ptr o (k + x.toInt)
  | _, _ => unknown

def sub : Value ω → Value ω → Value ω
  | word x, word y => word (x - y)
  | ptr o k, word y => ptr o (k - y.toInt)
  | _, _ => unknown

/-- An operation on the bits of two numbers. -/
def bits (f : Word → Word → Word) : Value ω → Value ω → Value ω
  | word x, word y => word (f x y)
  | _, _ => unknown

/-- `and`. A pointer is rounded down to a multiple of 16 of its address; `start` has the addresses of the objects. -/
def and (start : ω → Int) : Value ω → Value ω → Value ω
  | ptr o k, word y => if y = -16 then ptr o (k - (start o + k) % 16) else unknown
  | x, y => bits (· &&& ·) x y

/-- An operation on the bits of one number. -/
def map (f : Word → Word) : Value ω → Value ω
  | word x => word (f x)
  | _ => unknown

@[simp] theorem add_word (x y : Word) : (word x : Value ω).add (word y) = word (x + y) := rfl

@[simp] theorem add_ptr (o : ω) (k : Int) (x : Word) : (ptr o k).add (word x) = ptr o (k + x.toInt) := rfl

@[simp] theorem word_add (o : ω) (k : Int) (x : Word) : (word x).add (ptr o k) = ptr o (k + x.toInt) := rfl

@[simp] theorem sub_ptr (o : ω) (k : Int) (x : Word) : (ptr o k).sub (word x) = ptr o (k - x.toInt) := rfl

@[simp] theorem sub_word (x y : Word) : (word x : Value ω).sub (word y) = word (x - y) := rfl

@[simp] theorem bits_word (f : Word → Word → Word) (x y : Word) :
    (word x : Value ω).bits f (word y) = word (f x y) := rfl

@[simp] theorem and_word (start : ω → Int) (x y : Word) :
    (word x : Value ω).and start (word y) = word (x &&& y) := rfl

@[simp] theorem map_word (f : Word → Word) (x : Word) : (word x : Value ω).map f = word (f x) := rfl

/-- Is the first one below the second one, without sign? Pointers are compared in one object only. -/
def below [DecidableEq ω] : Value ω → Value ω → Option Bool
  | word x, word y => some (decide (x < y))
  | ptr o k, ptr o' k' => if o = o' then some (decide (k < k')) else none
  | _, _ => none

end Value

/-- An operand: a register, the dword at `[base + disp]`, or a number. -/
inductive Operand where
  | reg (r : Reg)
  | mem (base : Reg) (disp : Int)
  | imm (w : Word)

/-- The instructions, with the destination first. -/
inductive Instr where
  | mov (dst src : Operand)
  | add (dst src : Operand)
  | sub (dst src : Operand)
  | xor (dst src : Operand)
  | and (dst src : Operand)
  | shr (dst : Reg) (n : Nat)
  | ror (dst : Reg) (n : Nat)
  | bswap (dst : Reg)
  | lea (dst : Reg) (address : Operand)
  | leaIndex (dst base index : Reg)
  | push (src : Reg)
  | pop (dst : Reg)
  | cmp (x y : Operand)
  | repMovsd

/-- The dword that starts at an offset of an object. -/
abbrev Memory (ω : Type) := ω → Int → Value ω

/-- The machine. `below` is the carry flag after a `cmp`, and
    `none` after an instruction that has changed it. -/
structure Machine (ω : Type) where
  regs : Reg → Value ω
  mem : Memory ω
  below : Option Bool
  start : ω → Int

variable {ω : Type} [DecidableEq ω]

/-- Store a dword. The dwords that it covers in part are lost. -/
def Memory.store (mem : Memory ω) (o : ω) (k : Int) (v : Value ω) : Memory ω := fun o' k' =>
  if o' = o ∧ k' = k then v
  else if o' = o ∧ k - 4 < k' ∧ k' < k + 4 then .unknown
  else mem o' k'

namespace Machine

variable (m : Machine ω)

def set (r : Reg) (v : Value ω) : Machine ω := { m with regs := update m.regs r v }

def store (o : ω) (k : Int) (v : Value ω) : Machine ω := { m with mem := m.mem.store o k v }

/-- Load a dword. -/
def load : Value ω → Value ω
  | .ptr o k => m.mem o k
  | _ => .unknown

/-- The address of an operand in memory. -/
def address : Operand → Value ω
  | .mem base disp =>
      match m.regs base with
      | .ptr o k => .ptr o (k + disp)
      | _ => .unknown
  | _ => .unknown

def read : Operand → Value ω
  | .reg r => m.regs r
  | .mem base disp => m.load (m.address (.mem base disp))
  | .imm w => .word w

/-- Nothing is known of the memory. -/
def lost : Machine ω := { m with mem := fun _ _ => .unknown }

def write (dst : Operand) (v : Value ω) : Machine ω :=
  match dst with
  | .reg r => m.set r v
  | .mem base disp =>
      match m.address (.mem base disp) with
      | .ptr o k => m.store o k v
      | _ => m.lost
  | .imm _ => m.lost

/-- An instruction that changes the carry flag. -/
def flags : Machine ω := { m with below := none }

/-- One `movsd`, with the direction flag clear. -/
def movsd : Machine ω :=
  let m' := m.write (.mem .edi 0) (m.read (.mem .esi 0))
  (m'.set .esi ((m.regs .esi).add (.word 4))).set .edi ((m.regs .edi).add (.word 4))

end Machine

/-- One instruction. -/
def step (m : Machine ω) : Instr → Machine ω
  | .mov dst src => m.write dst (m.read src)
  | .add dst src => (m.write dst ((m.read dst).add (m.read src))).flags
  | .sub dst src => (m.write dst ((m.read dst).sub (m.read src))).flags
  | .xor dst src => (m.write dst ((m.read dst).bits (· ^^^ ·) (m.read src))).flags
  | .and dst src => (m.write dst ((m.read dst).and m.start (m.read src))).flags
  | .shr dst n => (m.set dst ((m.regs dst).map (· >>> n))).flags
  | .ror dst n => (m.set dst ((m.regs dst).map (·.rotateRight n))).flags
  | .bswap dst => m.set dst ((m.regs dst).map swab32)
  | .lea dst address => m.set dst (m.address address)
  | .leaIndex dst base index => m.set dst ((m.regs base).add (m.regs index))
  | .push src =>
      let m' := m.set .esp ((m.regs .esp).sub (.word 4))
      m'.write (.mem .esp 0) (m.regs src)
  | .pop dst => (m.set .esp ((m.regs .esp).add (.word 4))).set dst (m.read (.mem .esp 0))
  | .cmp x y => { m with below := (m.read x).below (m.read y) }
  | .repMovsd =>
      match m.regs .ecx with
      | .word n => (Nat.repeat Machine.movsd n.toNat m).set .ecx (.word 0)
      | _ => m.lost

/-- A list of instructions, in order. -/
def exec (m : Machine ω) (code : List Instr) : Machine ω := code.foldl step m

@[simp] theorem exec_nil (m : Machine ω) : exec m [] = m := rfl

@[simp] theorem exec_cons (m : Machine ω) (i : Instr) (code : List Instr) :
    exec m (i :: code) = exec (step m i) code := rfl

theorem exec_append (m : Machine ω) (code code' : List Instr) :
    exec m (code ++ code') = exec (exec m code) code' := List.foldl_append

/-- What the lines of code keep, one after the other, holds after all of them. -/
theorem exec_flatMap {m : Machine ω} {line : Nat → List Instr} {I : Nat → Machine ω → Prop} {n : Nat} (first : I 0 m)
    (next : ∀ i m, i < n → I i m → I (i + 1) (exec m (line i))) : I n (exec m ((List.range n).flatMap line)) := by
  suffices lines : ∀ k, k ≤ n → I k (exec m ((List.range k).flatMap line)) from lines n (Nat.le_refl n)
  intro k
  induction k with
  | zero => exact fun _ => first
  | succ k ih =>
      intro bound
      rw [List.range_succ, List.flatMap_append, exec_append, List.flatMap_singleton]
      exact next k _ bound (ih (Nat.le_of_succ_le bound))

theorem Memory.store_self (mem : Memory ω) (o : ω) (k : Int) (v : Value ω) : mem.store o k v o k = v := by
  simp [store]

/-- A dword that does not overlap the one that is stored. -/
theorem Memory.store_apart (mem : Memory ω) {o o' : ω} {k k' : Int} (v : Value ω)
    (apart : o' ≠ o ∨ k' + 4 ≤ k ∨ k + 4 ≤ k') : mem.store o k v o' k' = mem o' k' := by
  have here : ¬ (o' = o ∧ k' = k) := by
    rintro ⟨same, rfl⟩
    rcases apart with other | before | after
    · exact other same
    · omega
    · omega
  have part : ¬ (o' = o ∧ k - 4 < k' ∧ k' < k + 4) := by
    rintro ⟨same, low, high⟩
    rcases apart with other | before | after
    · exact other same
    · omega
    · omega
  simp only [store, if_neg here, if_neg part]

section

variable {m : Machine ω} {r q : Reg} {o : ω} {k disp : Int} {v : Value ω}

omit [DecidableEq ω]

@[simp] theorem Machine.set_regs_self : (m.set r v).regs r = v := Function.update_self ..

@[simp] theorem Machine.set_regs_of_ne (other : q ≠ r) : (m.set r v).regs q = m.regs q :=
  Function.update_of_ne other ..

@[simp] theorem Machine.set_mem : (m.set r v).mem = m.mem := rfl

@[simp] theorem Machine.set_start : (m.set r v).start = m.start := rfl

@[simp] theorem Machine.flags_start : m.flags.start = m.start := rfl

@[simp] theorem Machine.flags_regs : m.flags.regs = m.regs := rfl

@[simp] theorem Machine.flags_mem : m.flags.mem = m.mem := rfl

@[simp] theorem Machine.read_reg : m.read (.reg r) = m.regs r := rfl

@[simp] theorem Machine.read_imm (w : Word) : m.read (.imm w) = .word w := rfl

theorem Machine.read_mem (base : m.regs r = .ptr o k) : m.read (.mem r disp) = m.mem o (k + disp) := by
  simp only [read, address, load, base]

end

section

variable {m : Machine ω} {r : Reg} {o : ω} {k disp : Int} {v : Value ω}

@[simp] theorem Machine.store_regs : (m.store o k v).regs = m.regs := rfl

@[simp] theorem Machine.store_start : (m.store o k v).start = m.start := rfl

@[simp] theorem Machine.store_mem : (m.store o k v).mem = m.mem.store o k v := rfl

@[simp] theorem Machine.write_reg : m.write (.reg r) v = m.set r v := rfl

theorem Machine.write_mem (base : m.regs r = .ptr o k) : m.write (.mem r disp) v = m.store o (k + disp) v := by
  simp only [write, address, base]

theorem Machine.movsd_eq {o' : ω} {k' : Int} (esi : m.regs .esi = .ptr o k) (edi : m.regs .edi = .ptr o' k') :
    m.movsd = ((m.store o' k' (m.mem o k)).set .esi (.ptr o (k + 4))).set .edi (.ptr o' (k' + 4)) := by
  have four : (4 : Word).toInt = 4 := by decide
  simp only [movsd, read_mem esi, write_mem edi, esi, edi, Value.add_ptr, four, Int.add_zero]

end

/-! ### Basic blocks -/

/-- The end of a block: a jump, a `jb` with the block behind it, or the end of the code. -/
inductive Jump (Λ : Type) where
  | jmp (label : Λ)
  | jb (label next : Λ)
  | done

structure Block (Λ : Type) where
  code : List Instr
  jump : Jump Λ

variable {Λ : Type}

/-- Run one block. A `jb` after an instruction that has changed the flag gives nothing. -/
def runBlock (blocks : Λ → Block Λ) (s : Λ × Machine ω) : (Λ × Machine ω) ⊕ Option (Machine ω) :=
  let m := exec s.2 (blocks s.1).code
  match (blocks s.1).jump with
  | .jmp label => .inl (label, m)
  | .jb label next =>
      match m.below with
      | some true => .inl (label, m)
      | some false => .inl (next, m)
      | none => .inr none
  | .done => .inr (some m)

/-- The code that starts at this label ends in the second machine, after at most so many blocks. -/
def RunsIn (blocks : Λ → Block Λ) (n : Nat) (label : Λ) (m m' : Machine ω) : Prop :=
  Loop.run (runBlock blocks) n (label, m) = some (some m')

section

variable {blocks : Λ → Block Λ} {n : Nat} {label next target : Λ} {m m' : Machine ω}

theorem RunsIn.jmp (last : (blocks label).jump = .jmp target)
    (rest : RunsIn blocks n target (exec m (blocks label).code) m') : RunsIn blocks (n + 1) label m m' := by
  refine (Loop.run_inl n ?_).trans rest
  simp only [runBlock, last]

theorem RunsIn.taken (last : (blocks label).jump = .jb target next)
    (below : (exec m (blocks label).code).below = some true)
    (rest : RunsIn blocks n target (exec m (blocks label).code) m') : RunsIn blocks (n + 1) label m m' := by
  refine (Loop.run_inl n ?_).trans rest
  simp only [runBlock, last, below]

theorem RunsIn.passed (last : (blocks label).jump = .jb target next)
    (notBelow : (exec m (blocks label).code).below = some false)
    (rest : RunsIn blocks n next (exec m (blocks label).code) m') : RunsIn blocks (n + 1) label m m' := by
  refine (Loop.run_inl n ?_).trans rest
  simp only [runBlock, last, notBelow]

theorem RunsIn.done (last : (blocks label).jump = .done) :
    RunsIn blocks (n + 1) label m (exec m (blocks label).code) := by
  refine Loop.run_inr n ?_
  simp only [runBlock, last]

end

end X86
