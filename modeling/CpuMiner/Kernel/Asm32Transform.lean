/-
Module: CpuMiner.Kernel.Asm32Transform
Layer: Kernels
Purpose: `X86_SHA256_HashBlocks`, block by block. The entry saves the registers of the caller, aligns the stack and
  fills the saved part of the frame (`exec_entry`); `rep movsd` copies the state (`exec_label2`); the words are
  swapped into the ring and sixteen rounds run (`exec_label3`); sixteen more rounds run three times (`exec_label1`);
  the sums go to the state (`exec_sums`) and the registers come back (`exec_leave`). So `SHA256_Transform32` leaves
  the state that `SHA256_Transform` leaves.
Imports: CpuMiner.Kernel.Asm32Rounds
Trusted boundary: none
Main exports: Saved, exec_entry, exec_label2, exec_label3, exec_label1, exec_sums, exec_leave, Returned,
  hashBlocks_runs, sha256Transform32_eq, sha256Transform32_sha256Transform
Open obligations: none
-/
import CpuMiner.Kernel.Asm32Rounds

set_option linter.constructorNameAsVariable false

namespace CpuMiner.Asm32

open Words
open Sha256
open X86

variable {m c : Machine Object} {s sp k : Int} {len : Word}

/-! ### The entry -/

/-- What the entry has stored, for a call of the machine `c` with the stack pointer `sp`, when the stack pointer is
    `s`: the pointers of this function, and above the frame the registers of its caller. -/
structure Saved (c : Machine Object) (sp s : Int) (len : Word) (mem : Memory Object) : Prop where
  room : s + 116 ≤ sp - 8
  kEnd : mem .stack (s + 100) = .ptr .table 192
  stateSave : mem .stack (s + 104) = .ptr .state 0
  dataSave : mem .stack (s + 108) = .ptr .data 0
  dataEnd : mem .stack (s + 112) = .ptr .data len.toInt
  esp : mem .stack s = .ptr .stack (sp - 8)
  ebp : mem .stack (sp - 8) = c.regs .ebp
  ebx : mem .stack (sp - 4) = c.regs .ebx
  above : ∀ k, sp ≤ k → mem .stack k = c.mem .stack k
  others : ∀ o, o ≠ .stack → ∀ k, mem o k = c.mem o k

theorem Saved.kept {mem mem' : Memory Object} (saved : Saved c sp s len mem) (kept : Kept s mem mem') :
    Saved c sp s len mem' := by
  have room := saved.room
  constructor
  · exact room
  · rw [kept _ _ (by omega), saved.kEnd]
  · rw [kept _ _ (by omega), saved.stateSave]
  · rw [kept _ _ (by omega), saved.dataSave]
  · rw [kept _ _ (by omega), saved.dataEnd]
  · rw [kept _ _ (by omega), saved.esp]
  · rw [kept _ _ (by omega), saved.ebp]
  · rw [kept _ _ (by omega), saved.ebx]
  · intro k high
    rw [kept _ _ (by omega), saved.above k high]
  · intro o other k
    rw [kept o k (.inl other), saved.others o other k]

theorem exec_entry (esp : c.regs .esp = .ptr .stack sp) (ecx : c.regs .ecx = .ptr .state 0)
    (edx : c.regs .edx = .ptr .data 0) (esi : c.regs .esi = .ptr .table 192) (edi : c.regs .edi = .word len) :
    let m := exec c (x86Sha256HashBlocks .entry).code
    ∃ s, (m.regs .esp = .ptr .stack s ∧ m.regs .ecx = .ptr .state 0 ∧ m.regs .edx = .ptr .data 0) ∧
      Saved c sp s len m.mem := by
  have align : ∀ k, (Value.ptr Object.stack k).and c.start (.word 4294967280#32) =
      .ptr .stack (k - (c.start .stack + k) % 16) := fun _ => rfl
  have size : localsSize.toInt = 112 := by decide
  have eight : sp - 4 - 4 = sp - 8 := by omega
  obtain ⟨s, frame⟩ : ∃ s, sp - 8 - (c.start .stack + (sp - 8)) % 16 - 112 - 4 = s := ⟨_, rfl⟩
  have room : s + 116 ≤ sp - 8 := by omega
  have run : let m := exec c (x86Sha256HashBlocks .entry).code
      (m.regs .esp = .ptr .stack s ∧ m.regs .ecx = .ptr .state 0 ∧ m.regs .edx = .ptr .data 0) ∧
        m.mem = ((((((c.mem.store .stack (sp - 4) (c.regs .ebx)).store .stack (sp - 8) (c.regs .ebp)).store
          .stack s (.ptr .stack (sp - 8))).store .stack (s + 104) (.ptr .state 0)).store
          .stack (s + 108) (.ptr .data 0)).store .stack (s + 112) (.ptr .data len.toInt)).store
          .stack (s + 100) (.ptr .table 192) := by
    simp [x86Sha256HashBlocks, step, base, write_esp, esp, align, size, eight, frame, stateSave, dataSave, dataEnd,
      kEnd, ecx, edx, esi, edi]
  refine ⟨s, run.1, ?_⟩
  rw [run.2]
  -- each dword is the last one stored that overlaps it
  constructor
  · exact room
  · exact Memory.store_self ..
  · repeat rw [Memory.store_apart _ _ (by omega)]
    exact Memory.store_self ..
  · repeat rw [Memory.store_apart _ _ (by omega)]
    exact Memory.store_self ..
  · repeat rw [Memory.store_apart _ _ (by omega)]
    exact Memory.store_self ..
  · repeat rw [Memory.store_apart _ _ (by omega)]
    exact Memory.store_self ..
  · repeat rw [Memory.store_apart _ _ (by omega)]
    exact Memory.store_self ..
  · repeat rw [Memory.store_apart _ _ (by omega)]
    exact Memory.store_self ..
  · intro k high
    repeat rw [Memory.store_apart _ _ (by omega)]
  · intro o other k
    simp only [Memory.store_apart _ _ (.inl other)]

/-! ### The copy of the state -/

/-- So many dwords are copied from the state to the frame. -/
structure Copied (m : Machine Object) (s : Int) (v : HashValue) (n : Nat) (m' : Machine Object) : Prop where
  esi : m'.regs .esi = .ptr .state (4 * n)
  edi : m'.regs .edi = .ptr .stack (s + (4 + 4 * n))
  regs : ∀ q, q ≠ .esi → q ≠ .edi → m'.regs q = m.regs q
  vars : ∀ p : Fin 8, p.val < n → m'.mem .stack (s + (4 + 4 * p.val)) = .word (v p)
  kept : Kept s m.mem m'.mem

theorem copied_movsd {v : HashValue} (esi : m.regs .esi = .ptr .state 0) (edi : m.regs .edi = .ptr .stack (s + 4))
    (state : ∀ p : Fin 8, m.mem .state (4 * p.val) = .word (v p)) {n : Nat} (bound : n ≤ 8) :
    Copied m s v n (Nat.repeat Machine.movsd n m) := by
  induction n with
  | zero => exact ⟨esi, edi, fun _ _ _ => rfl, nofun, .refl s m.mem⟩
  | succ n ih =>
      have copied := ih (Nat.le_of_succ_le bound)
      have value : (Nat.repeat Machine.movsd n m).mem .state (4 * n) = .word (v ⟨n, bound⟩) := by
        rw [copied.kept .state _ (.inl (by decide))]
        exact state ⟨n, bound⟩
      rw [Nat.repeat, Machine.movsd_eq copied.esi copied.edi, value]
      generalize Nat.repeat Machine.movsd n m = m' at copied
      have place : s + (4 + 4 * (n + 1 : Nat)) = s + (4 + 4 * n) + 4 := by omega
      constructor
      · rfl
      · rw [place]
        rfl
      · intro q other other'
        rw [Machine.set_regs_of_ne other', Machine.set_regs_of_ne other]
        exact copied.regs q other other'
      · intro p below
        have memory : ∀ k, ((((m'.store .stack (s + (4 + 4 * n)) (.word (v ⟨n, bound⟩))).set .esi
            (.ptr .state (4 * n + 4))).set .edi (.ptr .stack (s + (4 + 4 * n) + 4))).mem .stack k) =
              m'.mem.store .stack (s + (4 + 4 * n)) (.word (v ⟨n, bound⟩)) .stack k := fun _ => rfl
        rw [memory]
        by_cases last : p.val = n
        · obtain rfl : p = ⟨n, bound⟩ := Fin.ext last
          exact Memory.store_self ..
        · rw [Memory.store_apart _ _ (by omega)]
          exact copied.vars p (by omega)
      · exact copied.kept.store (by omega) (by omega) _

/-- `rep movsd` copies the state to the places of `A` to `H`. -/
theorem exec_label2 {v : HashValue} (saved : Saved c sp s len m.mem) (esp : m.regs .esp = .ptr .stack s)
    (ecx : m.regs .ecx = .ptr .state 0) (edx : m.regs .edx = .ptr .data 0)
    (state : ∀ p : Fin 8, c.mem .state (4 * p.val) = .word (v p)) :
    let m' := exec m (x86Sha256HashBlocks .label2).code
    (m'.regs .esp = .ptr .stack s ∧ m'.regs .edx = .ptr .data 0 ∧ m'.regs .esi = .ptr .table 192) ∧
      Vars m'.mem s v ∧ Kept s m.mem m'.mem := by
  have split : (x86Sha256HashBlocks .label2).code =
      [.mov (.reg .esi) (.reg .ecx), .lea .edi (A 0), .mov (.reg .ecx) (.imm 8)] ++
        [.repMovsd, .mov (.reg .esi) kEnd] := rfl
  have placeA : hPlace 7 = 0 := by decide
  rw [split, exec_append]
  obtain ⟨m₁, ready⟩ : ∃ m₁, exec m [.mov (.reg .esi) (.reg .ecx), .lea .edi (A 0), .mov (.reg .ecx) (.imm 8)] = m₁ :=
    ⟨_, rfl⟩
  have first : (m₁.regs .esi = .ptr .state 0 ∧ m₁.regs .edi = .ptr .stack (s + 4) ∧ m₁.regs .ecx = .word 8) ∧
      (m₁.regs .esp = .ptr .stack s ∧ m₁.regs .edx = .ptr .data 0) ∧ m₁.mem = m.mem := by
    rw [← ready]
    simp [step, A, H, base, placeA, Machine.address, esp, ecx, edx]
  obtain ⟨⟨esi', edi', ecx'⟩, ⟨esp', edx'⟩, memory⟩ := first
  rw [ready]
  have state' : ∀ p : Fin 8, m₁.mem .state (4 * p.val) = .word (v p) := by
    intro p
    rw [memory, saved.others .state (by decide), state p]
  have copied := copied_movsd esi' edi' state' (Nat.le_refl 8)
  have moved : step m₁ .repMovsd = (Nat.repeat Machine.movsd 8 m₁).set .ecx (.word 0) := by
    simp only [step, ecx']
    rfl
  rw [exec_cons, moved]
  generalize Nat.repeat Machine.movsd 8 m₁ = m₂ at copied
  have esp₂ : m₂.regs .esp = .ptr .stack s := (copied.regs .esp (by decide) (by decide)).trans esp'
  have edx₂ : m₂.regs .edx = .ptr .data 0 := (copied.regs .edx (by decide) (by decide)).trans edx'
  have kept : Kept s m.mem m₂.mem := memory ▸ copied.kept
  have end₂ := (saved.kept kept).kEnd
  refine ⟨?_, ?_, ?_⟩
  · simp [step, kEnd, base, read_esp, esp₂, edx₂, end₂]
  · exact fun p => copied.vars p p.isLt
  · exact kept

/-! ### The words and the first sixteen rounds -/

theorem read_data (edx : m.regs .edx = .ptr .data k) (x : Int) : m.read (.mem .edx x) = m.mem .data (k + x) :=
  Machine.read_mem edx

theorem exec_SWAP_COPY {i : Int} {w : Word} (esp : m.regs .esp = .ptr .stack s) (edx : m.regs .edx = .ptr .data 0)
    (word : m.mem .data (i*4) = .word w) :
    let m' := exec m (SWAP_COPY i)
    (m'.regs .esp = m.regs .esp ∧ m'.regs .edx = m.regs .edx ∧ m'.regs .esi = m.regs .esi) ∧
      m'.mem = m.mem.store .stack (s + (4 + wtPlace i)) (.word (swab32 w)) := by
  simp [SWAP_COPY, step, Wt, base, write_esp, read_data, esp, edx, word]

/-- So many words are in the ring. -/
structure Swapped (mem₀ : Memory Object) (s k : Int) (M : Block) (v : HashValue) (n : Nat) (m : Machine Object) :
    Prop where
  esp : m.regs .esp = .ptr .stack s
  edx : m.regs .edx = .ptr .data 0
  esi : m.regs .esi = .ptr .table k
  vars : Vars m.mem s v
  words : Ring m.mem s n M
  kept : Kept s mem₀ m.mem

theorem Swapped.line {mem₀ : Memory Object} {M : Block} {v : HashValue} {n : Nat} (swapped : Swapped mem₀ s k M v n m)
    (bound : n < 16) (data : mem₀ .data (n*4) = .word (swab32 (M ⟨n, bound⟩))) :
    Swapped mem₀ s k M v (n + 1) (exec m (SWAP_COPY n)) := by
  have word := (swapped.kept .data (n*4) (.inl (by decide))).trans data
  obtain ⟨⟨esp, edx, esi⟩, memory⟩ := exec_SWAP_COPY swapped.esp swapped.edx word
  rw [swab32_swab32] at memory
  constructor
  · rw [esp, swapped.esp]
  · rw [edx, swapped.edx]
  · rw [esi, swapped.esi]
  · rw [memory]
    exact Vars.storeWord swapped.vars ⟨n, bound⟩ _
  · rw [memory]
    have others : ∀ q : Fin 16, q ≠ ⟨n, bound⟩ → q.val < n + 1 → q.val < n := by
      intro q other below
      have ne : q.val ≠ n := fun same => other (Fin.ext same)
      omega
    have stored := Ring.storeWord swapped.words ⟨n, bound⟩ (M ⟨n, bound⟩) others
    rwa [Function.update_eq_self] at stored
  · rw [memory]
    have place : wtPlace n = 92 - 4 * n := wtPlace_val ⟨n, bound⟩
    exact swapped.kept.store (by omega) (by omega) _

/-- The words are swapped into the ring, and the first sixteen rounds run on them. -/
theorem exec_label3 {M : Block} {v : HashValue} (esp : m.regs .esp = .ptr .stack s) (edx : m.regs .edx = .ptr .data 0)
    (esi : m.regs .esi = .ptr .table 192) (vars : Vars m.mem s v)
    (data : ∀ p : Fin 16, m.mem .data (p.val*4) = .word (swab32 (M p)))
    (table : ∀ t : Nat, t < 64 → m.mem .table (t*4) = .word (K t)) :
    InRounds m.mem s 0 M v 0 16 (exec m (x86Sha256HashBlocks .label3).code) := by
  have split : (x86Sha256HashBlocks .label3).code =
      .sub (.reg .esi) (.imm (48*4)) :: ((List.range 16).flatMap (fun i : Nat => SWAP_COPY i) ++
        ([.mov (.reg .edi) (E 0), .mov (.reg .eax) (B 0), .xor (.reg .eax) (C 0), .mov (.reg .ecx) (A 0)] ++
          sixteenRounds false)) := by
    simp [x86Sha256HashBlocks]
  obtain ⟨m₁, first⟩ : ∃ m₁, step m (.sub (.reg .esi) (.imm (48*4))) = m₁ := ⟨_, rfl⟩
  have start : Swapped m.mem s 0 M v 0 m₁ := by
    subst first
    constructor
    · simp [step, esp]
    · simp [step, edx]
    · simp [step, esi]
    · exact vars
    · exact fun _ below => absurd below (Nat.not_lt_zero _)
    · exact .refl s m.mem
  rw [split, exec_cons, exec_append, exec_append, first]
  have swapped : Swapped m.mem s 0 M v 16 (exec m₁ ((List.range 16).flatMap fun i : Nat => SWAP_COPY i)) :=
    exec_flatMap (I := Swapped m.mem s 0 M v) start fun n m' bound swapped => swapped.line bound (data ⟨n, bound⟩)
  generalize exec m₁ ((List.range 16).flatMap fun i : Nat => SWAP_COPY i) = m₂ at swapped
  have none : Holds 0 v (rounds (schedule M) v 0) := holds_zero v
  have hE := swapped.vars.read none rfl 4 (x := 3) rfl
  have hB := swapped.vars.read none rfl 1 (x := 6) rfl
  have hC := swapped.vars.read none rfl 2 (x := 5) rfl
  have hA := swapped.vars.read none rfl 0 (x := 7) rfl
  have ring : RingFrom 0 M (schedule M) := ringFrom_block M
  refine InRounds.sixteen_first ?_ ?_
  · have esp₂ := swapped.esp
    have esi₂ := swapped.esi
    constructor
    · simp [step, E, B, C, A, H, base, read_esp, esp₂]
    · simp [step, E, B, C, A, H, base, read_esp, esp₂, esi₂]
    · exact ⟨v, M, swapped.vars, none, swapped.words, ring⟩
    · simp [step, E, B, C, A, H, base, read_esp, esp₂, hA, rolesAt, Roles.even]
    · simp [step, E, B, C, A, H, base, read_esp, esp₂, hE, rolesAt, Roles.even]
    · simp [step, E, B, C, A, H, base, read_esp, esp₂, hB, hC, rolesAt, Roles.even]
    · exact swapped.kept
  · intro t early
    rw [Int.zero_add]
    exact table t (by omega)

/-! ### The loop over the other rounds -/

/-- The table moves on under the registers. -/
theorem InRounds.advance {mem₀ : Memory Object} {M : Block} {v : HashValue} {e t : Nat}
    (rounds : InRounds mem₀ s k M v e t m) :
    InRounds mem₀ s (k + 64) M v e t (step m (.add (.reg .esi) (.imm (4*16)))) := by
  have other : (rolesAt t).ecx ≠ .esi ∧ (rolesAt t).edi ≠ .esi ∧ (rolesAt t).eax ≠ .esi := by
    rcases rolesAt_known t with even | odd
    · rw [even]
      decide
    · rw [odd]
      decide
  constructor
  · simp [step, rounds.esp]
  · simp [step, rounds.esi]
  · exact rounds.frame
  · simp [step, other, rounds.regA]
  · simp [step, other, rounds.regE]
  · simp [step, other, rounds.regBC]
  · exact rounds.kept

/-- One pass runs sixteen rounds, and the loop goes on while there are constants left. -/
theorem exec_label1 {mem₀ : Memory Object} {M : Block} {v : HashValue} {j : Nat}
    (rounds : InRounds mem₀ s (64 * j) M v (16 * j) (16 * j + 16) m) (more : j < 3)
    (kEnd : mem₀ .stack (s + 100) = .ptr .table 192)
    (table : ∀ t : Nat, t < 64 → mem₀ .table (t*4) = .word (K t)) :
    let m' := exec m (x86Sha256HashBlocks .label1).code
    m'.below = some (decide (j < 2)) ∧
      InRounds mem₀ s (64 * (j + 1 : Nat)) M v (16 * (j + 1)) (16 * (j + 1) + 16) m' := by
  have split : (x86Sha256HashBlocks .label1).code =
      .add (.reg .esi) (.imm (4*16)) :: (sixteenRounds true ++ [.cmp (.reg .esi) Asm32.kEnd]) := rfl
  rw [split, exec_cons, exec_append]
  have table' : ∀ l : Nat, l < 16 → mem₀ .table (64 * j + 64 + l*4) = .word (K (16 * j + l + 16)) := by
    intro l small
    have place : (64 * j + 64 + l*4 : Int) = (16 * j + l + 16 : Nat) * 4 := by omega
    rw [place]
    exact table _ (by omega)
  have later := rounds.advance.sixteen_later (by omega) table'
  generalize exec (step m (.add (.reg .esi) (.imm (4*16)))) (sixteenRounds true) = m₁ at later
  have next : InRounds mem₀ s (64 * (j + 1 : Nat)) M v (16 * (j + 1)) (16 * (j + 1) + 16) m₁ := by
    have offset : (64 * (j + 1 : Nat) : Int) = 64 * j + 64 := by omega
    have first : 16 * (j + 1) = 16 * j + 16 := by omega
    rw [offset, first]
    exact later
  refine ⟨?_, next.esp, next.esi, next.frame, next.regA, next.regE, next.regBC, next.kept⟩
  have esp := next.esp
  have kEnd' := (next.kept .stack (s + 100) (.inr (.inr (Int.le_refl _)))).trans kEnd
  have test : (64 * (j + 1) : Int) < 192 ↔ j < 2 := by omega
  have esi := next.esi
  simp [step, Asm32.kEnd, base, read_esp, esp, esi, kEnd', Value.below, test]

/-! ### The sums -/

section

variable {mem : Memory Object} {o o' : Object} {x y : Int}

private theorem store_other (other : o' ≠ o) (x y : Int) (w : Value Object) :
    mem.store o x w o' y = mem o' y := Memory.store_apart mem w (.inl other)

private theorem store_apart (apart : y + 4 ≤ x ∨ x + 4 ≤ y) (w : Value Object) :
    mem.store o x w o y = mem o y := Memory.store_apart mem w (.inr apart)

private theorem store_frame (s : Int) (apart : y + 4 ≤ x ∨ x + 4 ≤ y) (w : Value Object) :
    mem.store o (s + x) w o (s + y) = mem o (s + y) := Memory.store_apart mem w (.inr (by omega))

end

private theorem read_state (ebp : m.regs .ebp = .ptr .state k) (x : Int) :
    m.read (.mem .ebp x) = m.mem .state (k + x) := Machine.read_mem ebp

private theorem write_state (ebp : m.regs .ebp = .ptr .state k) (x : Int) (w : Value Object) :
    m.write (.mem .ebp x) w = m.store .state (k + x) w := Machine.write_mem ebp

/-- The eight dwords of the state. -/
private theorem state_words {mem : Memory Object} {w : HashValue} (w0 : mem .state 0 = .word (w 0))
    (w1 : mem .state 4 = .word (w 1)) (w2 : mem .state 8 = .word (w 2)) (w3 : mem .state 12 = .word (w 3))
    (w4 : mem .state 16 = .word (w 4)) (w5 : mem .state 20 = .word (w 5)) (w6 : mem .state 24 = .word (w 6))
    (w7 : mem .state 28 = .word (w 7)) (p : Fin 8) : mem .state (4 * p.val) = .word (w p) := by
  match p with
  | 0 => exact w0
  | 1 => exact w1
  | 2 => exact w2
  | 3 => exact w3
  | 4 => exact w4
  | 5 => exact w5
  | 6 => exact w6
  | 7 => exact w7

/-- The variables are added to the state, and there is no further block of data. -/
theorem exec_sums {mem₀ : Memory Object} {M : Block} {h v : HashValue} (rounds : InRounds mem₀ s k M h 48 64 m)
    (final : ∀ p, Sha256.rounds (schedule M) h 64 p = v p)
    (state : ∀ p : Fin 8, m.mem .state (4 * p.val) = .word (h p)) (saved : Saved c sp s 64 m.mem) :
    let m' := exec m (x86Sha256HashBlocks .sums).code
    (m'.below = some false ∧ m'.regs .esp = .ptr .stack s) ∧
      (∀ p : Fin 8, m'.mem .state (4 * p.val) = .word (h p + v p)) ∧
      ∀ o k, o ≠ .state → o ≠ .stack ∨ k ≤ s ∨ s + 116 ≤ k → m'.mem o k = m.mem o k := by
  obtain ⟨T, ring, vars, held, _, _⟩ := rounds.frame
  -- the registers and the dwords that the code reads
  have place6 : hPlace 6 = 4 := by decide
  have place5 : hPlace 5 = 8 := by decide
  have place4 : hPlace 4 = 12 := by decide
  have place2 : hPlace 2 = 20 := by decide
  have place1 : hPlace 1 = 24 := by decide
  have place0 : hPlace 0 = 28 := by decide
  have hB : m.mem .stack (s + 8) = .word (v 1) := (vars.read held rfl 1 (x := 6) rfl).trans (by rw [final])
  have hC : m.mem .stack (s + 12) = .word (v 2) := (vars.read held rfl 2 (x := 5) rfl).trans (by rw [final])
  have hD : m.mem .stack (s + 16) = .word (v 3) := (vars.read held rfl 3 (x := 4) rfl).trans (by rw [final])
  have hF : m.mem .stack (s + 24) = .word (v 5) := (vars.read held rfl 5 (x := 2) rfl).trans (by rw [final])
  have hG : m.mem .stack (s + 28) = .word (v 6) := (vars.read held rfl 6 (x := 1) rfl).trans (by rw [final])
  have hH : m.mem .stack (s + 32) = .word (v 7) := (vars.read held rfl 7 (x := 0) rfl).trans (by rw [final])
  have regA : m.regs .ecx = .word (v 0) := rounds.regA.trans (by rw [final])
  have regE : m.regs .edi = .word (v 4) := rounds.regE.trans (by rw [final])
  have esp := rounds.esp
  have stateAt := saved.stateSave
  have dataAt := saved.dataSave
  have endAt : m.mem .stack (s + 112) = .ptr .data 64 := saved.dataEnd
  have h0 : m.mem .state 0 = .word (h 0) := state 0
  have h1 : m.mem .state 4 = .word (h 1) := state 1
  have h2 : m.mem .state 8 = .word (h 2) := state 2
  have h3 : m.mem .state 12 = .word (h 3) := state 3
  have h4 : m.mem .state 16 = .word (h 4) := state 4
  have h5 : m.mem .state 20 = .word (h 5) := state 5
  have h6 : m.mem .state 24 = .word (h 6) := state 6
  have h7 : m.mem .state 28 = .word (h 7) := state 7
  have run : let m' := exec m (x86Sha256HashBlocks .sums).code
      (m'.below = some false ∧ m'.regs .esp = .ptr .stack s) ∧
        m'.mem = ((((((((m.mem.store .stack (s + 108) (.ptr .data 64)).store .state 0 (.word (h 0 + v 0))).store
          .state 16 (.word (h 4 + v 4))).store .state 4 (.word (h 1 + v 1))).store
          .state 8 (.word (h 2 + v 2))).store .state 12 (.word (h 3 + v 3))).store
          .state 20 (.word (h 5 + v 5))).store .state 24 (.word (h 6 + v 6))).store
          .state 28 (.word (h 7 + v 7)) := by
    simp [x86Sha256HashBlocks, step, base, read_esp, write_esp, read_state, write_state, B, C, D, F, G, H, dataSave,
      stateSave, dataEnd, place6, place5, place4, place2, place1, place0, esp, regA, regE, hB, hC, hD, hF, hG, hH,
      stateAt, dataAt, endAt, store_other, store_frame, store_apart, h0, h1, h2, h3, h4, h5, h6, h7, Value.below]
  refine ⟨run.1, ?_, ?_⟩
  · rw [run.2]
    refine state_words (w := fun p => h p + v p) ?_ ?_ ?_ ?_ ?_ ?_ ?_ ?_ <;>
      simp [store_apart, Memory.store_self]
  · intro o k other outside
    have apart : o ≠ .stack ∨ k + 4 ≤ s + 108 ∨ s + 108 + 4 ≤ k := by
      rcases outside with elsewhere | below | above
      · exact .inl elsewhere
      · exact .inr (.inl (by omega))
      · exact .inr (.inr (by omega))
    rw [run.2, store_other other, store_other other, store_other other, store_other other, store_other other,
      store_other other, store_other other, store_other other, Memory.store_apart _ _ apart]

/-! ### The return -/

/-- The registers of the caller come back. -/
theorem exec_leave {bp bx : Value Object} (esp : m.regs .esp = .ptr .stack s)
    (saved : m.mem .stack s = .ptr .stack (sp - 8)) (savedBp : m.mem .stack (sp - 8) = bp)
    (savedBx : m.mem .stack (sp - 4) = bx) :
    let m' := exec m (x86Sha256HashBlocks .leave).code
    (m'.regs .esp = .ptr .stack sp ∧ m'.regs .ebp = bp ∧ m'.regs .ebx = bx) ∧ m'.mem = m.mem := by
  have next : sp - 8 + 4 = sp - 4 := by omega
  simp [x86Sha256HashBlocks, step, read_esp, esp, saved, savedBp, savedBx, next]

/-! ### The function -/

private theorem dwords_word {n : Nat} (words : Fin n → Word) (around : Int → Value Object) (p : Fin n) {k : Int}
    (here : k = 4 * p.val) : dwords words around k = .word (words p) := by
  have inside : k % 4 = 0 ∧ 0 ≤ k ∧ k < 4 * n := by omega
  have index : (⟨(k / 4).toNat, by omega⟩ : Fin n) = p := Fin.ext (by simp only; omega)
  rw [dwords, dif_pos inside, index]

/-- What the function does for its caller: the state is the compression of the swapped words, the registers that a
    function must keep are as they were, and so are the stack of the caller, the data and the table. -/
structure Returned (caller : Machine Object) (sp : Int) (h : HashValue) (W : Sha256.Block) (m : Machine Object) :
    Prop where
  state : ∀ p : Fin 8, m.mem .state (4 * p.val) = .word (compress h (fun i => swab32 (W i)) p)
  esp : m.regs .esp = .ptr .stack sp
  ebp : m.regs .ebp = caller.regs .ebp
  ebx : m.regs .ebx = caller.regs .ebx
  stack : ∀ k, sp ≤ k → m.mem .stack k = caller.mem .stack k
  data : ∀ k, m.mem .data k = (callHashBlocks caller sp h W 64).mem .data k
  table : ∀ k, m.mem .table k = (callHashBlocks caller sp h W 64).mem .table k

/-- On one block of 64 bytes the function returns, after eight basic blocks. -/
theorem hashBlocks_runs (caller : Machine Object) (sp : Int) (h : HashValue) (W : Sha256.Block) :
    ∃ m, RunsIn x86Sha256HashBlocks 8 .entry (callHashBlocks caller sp h W 64) m ∧ Returned caller sp h W m := by
  have state : ∀ p : Fin 8, (callHashBlocks caller sp h W 64).mem .state (4 * p.val) = .word (h p) :=
    fun p => dwords_word h _ p rfl
  have data : ∀ p : Fin 16, (callHashBlocks caller sp h W 64).mem .data (p.val*4) =
      .word (swab32 (swab32 (W p))) := by
    intro p
    rw [swab32_swab32]
    exact dwords_word W _ p (Int.mul_comm ..)
  have table : ∀ t : Nat, t < 64 → (callHashBlocks caller sp h W 64).mem .table (t*4) = .word (K t) := by
    intro t bound
    rw [← Cryptopp.sha256K_eq]
    exact dwords_word (fun t : Fin 64 => Cryptopp.sha256K t) _ ⟨t, bound⟩ (Int.mul_comm ..)
  obtain ⟨s, ⟨esp₁, ecx₁, edx₁⟩, saved₁⟩ :=
    @exec_entry (callHashBlocks caller sp h W 64) sp 64 rfl rfl rfl rfl rfl
  obtain ⟨⟨esp₂, edx₂, esi₂⟩, vars₂, kept₂⟩ := exec_label2 saved₁ esp₁ ecx₁ edx₁ state
  have saved₂ := saved₁.kept kept₂
  have data₂ := fun p : Fin 16 => (saved₂.others .data (by decide) (p.val*4)).trans (data p)
  have table₂ := fun (t : Nat) (bound : t < 64) =>
    (saved₂.others .table (by decide) (t*4)).trans (table t bound)
  have first := exec_label3 esp₂ edx₂ esi₂ vars₂ data₂ table₂
  obtain ⟨taken, second⟩ := exec_label1 (j := 0) first (by decide) saved₂.kEnd table₂
  obtain ⟨taken', third⟩ := exec_label1 (j := 1) second (by decide) saved₂.kEnd table₂
  obtain ⟨passed, fourth⟩ := exec_label1 (j := 2) third (by decide) saved₂.kEnd table₂
  have saved₃ := saved₂.kept fourth.kept
  have state₃ := fun p : Fin 8 => (saved₃.others .state (by decide) (4 * p.val)).trans (state p)
  obtain ⟨⟨done, esp₄⟩, sums, kept₄⟩ := exec_sums fourth (fun _ => rfl) state₃ saved₃
  have room := saved₃.room
  obtain ⟨⟨esp₅, ebp₅, ebx₅⟩, memory⟩ := exec_leave esp₄
    ((kept₄ .stack s (by decide) (by omega)).trans saved₃.esp)
    ((kept₄ .stack (sp - 8) (by decide) (by omega)).trans saved₃.ebp)
    ((kept₄ .stack (sp - 4) (by decide) (by omega)).trans saved₃.ebx)
  refine ⟨_, .jmp rfl (.jmp rfl (.jmp rfl (.taken rfl taken (.taken rfl taken' (.passed rfl passed
    (.passed rfl done (.done rfl))))))), ?_⟩
  constructor
  · intro p
    rw [memory, sums, compress, BitVec.add_comm]
  · exact esp₅
  · exact ebp₅
  · exact ebx₅
  · intro k high
    rw [memory, kept₄ .stack k (by decide) (by omega), saved₃.above k high]
    rfl
  · intro k
    rw [memory, kept₄ .data k (by decide) (.inl (by decide)), saved₃.others .data (by decide)]
  · intro k
    rw [memory, kept₄ .table k (by decide) (.inl (by decide)), saved₃.others .table (by decide)]

/-- Eight basic blocks are enough for `SHA256_Transform32`. -/
theorem sha256Transform32_eq (blocks : Nat) (caller : Machine Object) (sp : Int) (state : HashValue)
    (data : Pointer) :
    sha256Transform32 (8 + blocks) caller sp state data =
      some fun p => .word ((Cryptopp.sha256Transform state data).state p) := by
  obtain ⟨m, runs, returned⟩ := hashBlocks_runs caller sp state fun i => swab32 (data.word i)
  have run : Loop.run (runBlock x86Sha256HashBlocks) (8 + blocks) _ = some (some m) :=
    Loop.run_mono (Nat.le_add_right 8 blocks) runs
  have length : (16*4 : Word) = 64 := by decide
  have swapped : (fun i : Fin 16 => swab32 (swab32 (data.word i))) = inputBlock data := by
    funext i
    rw [swab32_swab32]
    rfl
  have words := returned.state
  rw [swapped, ← Cryptopp.sha256Transform_state] at words
  simp only [sha256Transform32, length, run, words]

/-- `SHA256_Transform32` leaves the state that `SHA256_Transform` leaves. -/
theorem sha256Transform32_sha256Transform (caller : Machine Object) (sp : Int) (state : HashValue) (data : Pointer) :
    ∃ blocks, sha256Transform32 blocks caller sp state data =
      some fun p => .word ((Cryptopp.sha256Transform state data).state p) :=
  ⟨8, sha256Transform32_eq 0 caller sp state data⟩

end CpuMiner.Asm32
