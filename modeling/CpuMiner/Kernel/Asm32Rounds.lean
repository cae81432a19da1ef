/-
Module: CpuMiner.Kernel.Asm32Rounds
Layer: Kernels
Purpose: What the macro `ROUND` does. The two spec lemmas for its parts run their instructions once and for both
  assignments of the registers; the rest is about the frame. `InRounds` says that the frame holds the working
  variables and the schedule words of the last sixteen rounds and the registers A, E and B^C, and `ROUND` keeps it
  from one round to the next (`InRounds.first`, `InRounds.later`).
Imports: CpuMiner.Kernel.Asm32
Trusted boundary: none
Main exports: Roles, rolesAt, exec_roundT1_RA0, exec_roundT1_RB1, exec_roundAE, Vars, Ring, Kept, InRounds,
  InRounds.sixteen_first, InRounds.sixteen_later
Open obligations: none
-/
import CpuMiner.Kernel.Asm32

set_option linter.constructorNameAsVariable false

namespace CpuMiner.Asm32

open Words
open Sha256
open X86

/-! ### The rotation chains -/

private theorem rotateRight_eq_rotr (x : Word) {n : Nat} (small : n < 32) : x.rotateRight n = rotr x n := by
  rw [BitVec.rotateRight_eq_rotateRightAux_of_lt small]
  rfl

theorem bigSigma0_chain (x : Word) :
    x.rotateRight 22 ^^^ x.rotateRight 2 ^^^ (x.rotateRight 2).rotateRight 11 = bigSigma0 x := by
  have turn13 : (x.rotateRight 2).rotateRight 11 = x.rotateRight 13 := ror_ror x (by decide)
  rw [turn13, rotateRight_eq_rotr x (by decide), rotateRight_eq_rotr x (by decide),
    rotateRight_eq_rotr x (by decide), bigSigma0]
  ac_rfl

theorem bigSigma1_chain (x : Word) :
    x.rotateRight 25 ^^^ x.rotateRight 6 ^^^ (x.rotateRight 6).rotateRight 5 = bigSigma1 x := by
  have turn11 : (x.rotateRight 6).rotateRight 5 = x.rotateRight 11 := ror_ror x (by decide)
  rw [turn11, rotateRight_eq_rotr x (by decide), rotateRight_eq_rotr x (by decide),
    rotateRight_eq_rotr x (by decide), bigSigma1]
  ac_rfl

theorem smallSigma0_chain (x : Word) :
    x >>> 3 ^^^ x.rotateRight 7 ^^^ (x.rotateRight 7).rotateRight 11 = smallSigma0 x := by
  have turn18 : (x.rotateRight 7).rotateRight 11 = x.rotateRight 18 := ror_ror x (by decide)
  rw [turn18, rotateRight_eq_rotr x (by decide), rotateRight_eq_rotr x (by decide), smallSigma0]
  ac_rfl

theorem smallSigma1_chain (x : Word) :
    (x.rotateRight 17).rotateRight 2 ^^^ (x >>> 10 ^^^ x.rotateRight 17) = smallSigma1 x := by
  have turn19 : (x.rotateRight 17).rotateRight 2 = x.rotateRight 19 := ror_ror x (by decide)
  rw [turn19, rotateRight_eq_rotr x (by decide), rotateRight_eq_rotr x (by decide), smallSigma1]
  ac_rfl

/-! ### What the two parts of `ROUND` do -/

/-- The registers that `ROUND` is given, under the names of its parameters. -/
structure Roles where
  eax : Reg
  ecx : Reg
  edi : Reg
  edx : Reg

/-- The registers of the even lines. -/
def Roles.even : Roles where
  eax := .eax
  ecx := .ecx
  edi := .edi
  edx := .edx

/-- The next line has the pairs exchanged. -/
def Roles.swap (r : Roles) : Roles where
  eax := r.ecx
  ecx := r.eax
  edi := r.edx
  edx := r.edi

/-- One of the two assignments. -/
def Roles.Known (r : Roles) : Prop := r = .even ∨ r = Roles.even.swap

variable {m : Machine Object} {s i k : Int} {r : Roles}

theorem read_esp (esp : m.regs .esp = .ptr .stack s) (k : Int) : m.read (.mem .esp k) = m.mem .stack (s + k) :=
  Machine.read_mem esp

theorem write_esp (esp : m.regs .esp = .ptr .stack s) (k : Int) (v : Value Object) :
    m.write (.mem .esp k) v = m.store .stack (s + k) v := Machine.write_mem esp

theorem read_Kt (esi : m.regs .esi = .ptr .table k) (i : Int) : m.read (Kt i) = m.mem .table (k + i*4) :=
  Machine.read_mem esi

/-- `edx` becomes T1, when the schedule word is in the ring already. -/
theorem exec_roundT1_RA0 (known : r.Known) {e f g h w kt : Word} (esp : m.regs .esp = .ptr .stack s)
    (esi : m.regs .esi = .ptr .table k) (regE : m.regs r.edi = .word e)
    (hF : m.mem .stack (s + (4 + hPlace (i+2))) = .word f) (hG : m.mem .stack (s + (4 + hPlace (i+1))) = .word g)
    (hH : m.mem .stack (s + (4 + hPlace i)) = .word h) (hW : m.mem .stack (s + (4 + wtPlace i)) = .word w)
    (hK : m.mem .table (k + i*4) = .word kt) :
    let m' := exec m (roundT1 i false r.edi r.edx)
    m'.regs r.edx = .word (h + bigSigma1 e + ch e f g + kt + w) ∧
      (m'.regs r.eax = m.regs r.eax ∧ m'.regs r.ecx = m.regs r.ecx ∧ m'.regs .esp = m.regs .esp ∧
        m'.regs .esi = m.regs .esi) ∧
      m'.mem = m.mem := by
  have choice : ((f ^^^ g) &&& e) ^^^ g = ch e f g := by
    rw [← ch_eq_select, BitVec.xor_comm, BitVec.and_comm]
  have sum : ch e f g + kt + w + h + bigSigma1 e = h + bigSigma1 e + ch e f g + kt + w := by
    ac_rfl
  rcases known with rfl | rfl <;> simp only [Roles.even, Roles.swap] at regE ⊢ <;>
    simp [roundT1, RA, RB, RA0, RB0, F, G, H, Wt, step, base, read_esp, read_Kt, esp, esi, regE, hF, hG, hH, hW, hK,
      choice, bigSigma1_chain, sum]

/-- The next schedule word goes to the place of the oldest one, and `edx` becomes T1. -/
theorem exec_roundT1_RB1 (known : r.Known) {e f g h kt w2 w7 w15 w16 : Word}
    (esp : m.regs .esp = .ptr .stack s) (esi : m.regs .esi = .ptr .table k) (regE : m.regs r.edi = .word e)
    (hF : m.mem .stack (s + (4 + hPlace (i+2))) = .word f) (hG : m.mem .stack (s + (4 + hPlace (i+1))) = .word g)
    (hH : m.mem .stack (s + (4 + hPlace i)) = .word h)
    (hW2 : m.mem .stack (s + (4 + wtPlace (i-2))) = .word w2)
    (hW7 : m.mem .stack (s + (4 + wtPlace (i-7))) = .word w7)
    (hW15 : m.mem .stack (s + (4 + wtPlace (i-15))) = .word w15)
    (hW16 : m.mem .stack (s + (4 + wtPlace i)) = .word w16) (hK : m.mem .table (k + i*4) = .word kt) :
    let m' := exec m (roundT1 i true r.edi r.edx)
    let w := smallSigma1 w2 + w7 + smallSigma0 w15 + w16
    m'.regs r.edx = .word (h + bigSigma1 e + ch e f g + kt + w) ∧
      (m'.regs r.eax = m.regs r.eax ∧ m'.regs r.ecx = m.regs r.ecx ∧ m'.regs .esp = m.regs .esp ∧
        m'.regs .esi = m.regs .esi) ∧
      m'.mem = m.mem.store .stack (s + (4 + wtPlace i)) (.word w) := by
  have choice : ((f ^^^ g) &&& e) ^^^ g = ch e f g := by
    rw [← ch_eq_select, BitVec.xor_comm, BitVec.and_comm]
  have word : smallSigma0 w15 + (smallSigma1 w2 + w7 + w16) = smallSigma1 w2 + w7 + smallSigma0 w15 + w16 := by
    ac_rfl
  have sum : ch e f g + bigSigma1 e + kt + h = h + bigSigma1 e + ch e f g + kt := by
    ac_rfl
  rcases known with rfl | rfl <;> simp only [Roles.even, Roles.swap] at regE ⊢ <;>
    simp [roundT1, RA, RB, RA1, RB1, F, G, H, Wt, step, base, read_esp, write_esp, read_Kt, esp, esi, regE, hF, hG,
      hH, hW2, hW7, hW15, hW16, hK, choice, bigSigma1_chain, smallSigma0_chain, smallSigma1_chain, word, sum]

/-- From T1 to the new A, E and B^C. -/
theorem exec_roundAE (known : r.Known) {a b c d t1 : Word} (esp : m.regs .esp = .ptr .stack s)
    (regA : m.regs r.ecx = .word a) (regBC : m.regs r.eax = .word (b ^^^ c)) (regT1 : m.regs r.edx = .word t1)
    (hB : m.mem .stack (s + (4 + hPlace (i+6))) = .word b)
    (hD : m.mem .stack (s + (4 + hPlace (i+4))) = .word d) :
    let m' := exec m (roundAE i r.eax r.ecx r.edx)
    let e' := d + t1
    let a' := t1 + (bigSigma0 a + maj a b c)
    (m'.regs r.eax = .word a' ∧ m'.regs r.ecx = .word (a ^^^ b) ∧ m'.regs r.edx = .word e') ∧
      (m'.regs .esp = m.regs .esp ∧ m'.regs .esi = m.regs .esi) ∧
      m'.mem = (m.mem.store .stack (s + (4 + hPlace (i+4))) (.word e')).store .stack (s + (4 + hPlace i))
        (.word a') := by
  have majority : ((b ^^^ c) &&& (a ^^^ b)) ^^^ b = maj a b c := by
    rw [← maj_eq_middle, BitVec.xor_comm, BitVec.and_comm]
  have sumA : maj a b c + t1 + bigSigma0 a = t1 + (bigSigma0 a + maj a b c) := by
    ac_rfl
  have sumE : t1 + d = d + t1 := BitVec.add_comm ..
  rcases known with rfl | rfl <;> simp only [Roles.even, Roles.swap] at regA regBC regT1 ⊢ <;>
    simp [roundAE, B, D, H, step, base, read_esp, write_esp, esp, regA, regBC, regT1, hB, hD, majority,
      bigSigma0_chain, sumA, sumE]

/-! ### The frame -/

/-- The frame, at `BASE`, has these words in the places of `H` to `A`. -/
def Vars (mem : Memory Object) (s : Int) (T : HashValue) : Prop :=
  ∀ p : Fin 8, mem .stack (s + (4 + 4 * p.val)) = .word (T p)

/-- The places of the first `n` schedule words have these words. -/
def Ring (mem : Memory Object) (s : Int) (n : Nat) (ring : Block) : Prop :=
  ∀ p : Fin 16, p.val < n → mem .stack (s + (4 + wtPlace p.val)) = .word (ring p)

/-- Memory outside of the places for variables and schedule words is the same. -/
def Kept (s : Int) (mem mem' : Memory Object) : Prop :=
  ∀ o k, o ≠ .stack ∨ k ≤ s ∨ s + 100 ≤ k → mem' o k = mem o k

theorem asmMod_eq (x y : Int) : asmMod x y = x % y := by
  rw [asmMod, Int.emod_def, Int.mul_comm]

/-- The place of variable `j` in round `t`. -/
theorem hPlace_eq {t i : Nat} (turn : t % 16 = i) (j : Fin 8) {x : Int} (here : x = i + (7 - j.val)) :
    hPlace x = 4 * (slot t j).val := by
  simp only [hPlace, asmMod_eq, slot]
  omega

/-- The places of the schedule words repeat after sixteen. -/
theorem wtPlace_eq {t : Nat} {x : Int} (here : (t - x) % 16 = 0) : wtPlace x = wtPlace (ringPlace t).val := by
  simp only [wtPlace, asmMod_eq, ringPlace]
  omega

theorem wtPlace_val (p : Fin 16) : wtPlace p.val = 92 - 4 * p.val := by
  simp only [wtPlace, asmMod_eq]
  omega

section

variable {mem mem' : Memory Object} {T : HashValue} {ring : Block} {n : Nat}

theorem Vars.storeVar (vars : Vars mem s T) (p : Fin 8) (w : Word) :
    Vars (mem.store .stack (s + (4 + 4 * p.val)) (.word w)) s (Function.update T p w) := by
  intro q
  by_cases same : q = p
  · subst same
    rw [Memory.store_self, Function.update_self]
  · have other : q.val ≠ p.val := fun eq => same (Fin.ext eq)
    rw [Memory.store_apart _ _ (by omega), Function.update_of_ne same, vars q]

theorem Vars.storeWord (vars : Vars mem s T) (p : Fin 16) (w : Word) :
    Vars (mem.store .stack (s + (4 + wtPlace p.val)) (.word w)) s T := by
  intro q
  have place := wtPlace_val p
  rw [Memory.store_apart _ _ (by omega), vars q]

theorem Ring.storeVar (held : Ring mem s n ring) (p : Fin 8) (w : Word) :
    Ring (mem.store .stack (s + (4 + 4 * p.val)) (.word w)) s n ring := by
  intro q inside
  have place := wtPlace_val q
  rw [Memory.store_apart _ _ (by omega), held q inside]

theorem Ring.storeWord (held : Ring mem s n ring) (p : Fin 16) (w : Word) {n' : Nat}
    (others : ∀ q : Fin 16, q ≠ p → q.val < n' → q.val < n) :
    Ring (mem.store .stack (s + (4 + wtPlace p.val)) (.word w)) s n' (Function.update ring p w) := by
  intro q inside
  by_cases same : q = p
  · subst same
    rw [Memory.store_self, Function.update_self]
  · have other : q.val ≠ p.val := fun eq => same (Fin.ext eq)
    have place := wtPlace_val p
    have place' := wtPlace_val q
    rw [Memory.store_apart _ _ (by omega), Function.update_of_ne same, held q (others q same inside)]

theorem Kept.refl (s : Int) (mem : Memory Object) : Kept s mem mem := fun _ _ _ => rfl

theorem Kept.store (kept : Kept s mem mem') {x : Int} (low : 0 ≤ x) (high : x ≤ 92) (v : Value Object) :
    Kept s mem (mem'.store .stack (s + (4 + x)) v) := by
  intro o k outside
  have apart : o ≠ .stack ∨ k + 4 ≤ s + (4 + x) ∨ s + (4 + x) + 4 ≤ k := by
    rcases outside with other | below | above
    · exact .inl other
    · exact .inr (.inl (by omega))
    · exact .inr (.inr (by omega))
  rw [Memory.store_apart _ _ apart, kept o k outside]

end

/-! ### Rounds -/

/-- The registers of line `t`. -/
def rolesAt (t : Nat) : Roles := if t % 2 = 0 then .even else Roles.even.swap

theorem rolesAt_known (t : Nat) : (rolesAt t).Known := by
  by_cases even : t % 2 = 0
  · exact .inl (if_pos even)
  · exact .inr (if_neg even)

theorem rolesAt_succ (t : Nat) : rolesAt (t + 1) = (rolesAt t).swap := by
  by_cases even : t % 2 = 0
  · have odd : ¬ (t + 1) % 2 = 0 := by omega
    rw [rolesAt, rolesAt, if_neg odd, if_pos even]
  · have next : (t + 1) % 2 = 0 := by omega
    rw [rolesAt, rolesAt, if_pos next, if_neg even]
    rfl

/-- Before round `t` the ring has the schedule words from `e` on. -/
structure InRounds (mem₀ : Memory Object) (s k : Int) (M : Block) (v₀ : HashValue) (e t : Nat)
    (m : Machine Object) : Prop where
  esp : m.regs .esp = .ptr .stack s
  esi : m.regs .esi = .ptr .table k
  frame : ∃ T ring, Vars m.mem s T ∧ Holds t T (rounds (schedule M) v₀ t) ∧ Ring m.mem s 16 ring ∧
    RingFrom e ring (schedule M)
  regA : m.regs (rolesAt t).ecx = .word (rounds (schedule M) v₀ t 0)
  regE : m.regs (rolesAt t).edi = .word (rounds (schedule M) v₀ t 4)
  regBC : m.regs (rolesAt t).eax = .word (rounds (schedule M) v₀ t 1 ^^^ rounds (schedule M) v₀ t 2)
  kept : Kept s mem₀ m.mem

/-- What is added to the variable `d` in round `t`. -/
def t1At (W : Nat → Word) (v : HashValue) (t : Nat) : Word :=
  v 7 + bigSigma1 (v 4) + ch (v 4) (v 5) (v 6) + K t + W t

/-- The same in the middle of round `t`, when `edx` has T1. -/
structure HasT1 (mem₀ : Memory Object) (s k : Int) (M : Block) (v₀ : HashValue) (e t : Nat)
    (m : Machine Object) : Prop where
  esp : m.regs .esp = .ptr .stack s
  esi : m.regs .esi = .ptr .table k
  frame : ∃ T ring, Vars m.mem s T ∧ Holds t T (rounds (schedule M) v₀ t) ∧ Ring m.mem s 16 ring ∧
    RingFrom e ring (schedule M)
  regA : m.regs (rolesAt t).ecx = .word (rounds (schedule M) v₀ t 0)
  regT1 : m.regs (rolesAt t).edx = .word (t1At (schedule M) (rounds (schedule M) v₀ t) t)
  regBC : m.regs (rolesAt t).eax = .word (rounds (schedule M) v₀ t 1 ^^^ rounds (schedule M) v₀ t 2)
  kept : Kept s mem₀ m.mem

section

variable {mem₀ : Memory Object} {M : Block} {v₀ : HashValue} {e t j : Nat}

/-- Variable `j` of round `t` is where the macro for it says. -/
theorem Vars.read {mem : Memory Object} {T v : HashValue} (vars : Vars mem s T) (held : Holds t T v)
    {l : Nat} (turn : t % 16 = l) (j : Fin 8) {x : Int} (here : x = l + (7 - j.val)) :
    mem .stack (s + (4 + hPlace x)) = .word (v j) := by
  rw [hPlace_eq turn j here, vars, held]

/-- Schedule word `u` is where the macro for it says. -/
theorem Ring.read {mem : Memory Object} {ring : Block} (held : Ring mem s 16 ring)
    (words : RingFrom e ring (schedule M)) {u : Nat} (old : e ≤ u) (new : u < e + 16) {x : Int}
    (here : (u - x) % 16 = 0) : mem .stack (s + (4 + wtPlace x)) = .word (schedule M u) := by
  rw [wtPlace_eq here, held _ (ringPlace u).isLt, words u old new]

/-- The second part of `ROUND` ends the round. -/
theorem HasT1.roundAE (has : HasT1 mem₀ s k M v₀ e t m) {l : Nat} (turn : t % 16 = l) :
    InRounds mem₀ s k M v₀ e (t + 1)
      (exec m (roundAE l (rolesAt t).eax (rolesAt t).ecx (rolesAt t).edx)) := by
  obtain ⟨T, ring, vars, held, words, from_⟩ := has.frame
  have hB := vars.read held turn 1 (x := l + 6) rfl
  have hD := vars.read held turn 3 (x := l + 4) rfl
  obtain ⟨⟨regA, regBC, regE⟩, ⟨esp, esi⟩, memory⟩ :=
    exec_roundAE (rolesAt_known t) has.esp has.regA has.regBC has.regT1 hB hD
  have placeD := hPlace_eq turn 3 (x := l + 4) rfl
  have placeH := hPlace_eq turn 7 (x := l) (Int.add_zero _).symm
  rw [placeD, placeH] at memory
  constructor
  · rw [esp, has.esp]
  · rw [esi, has.esi]
  · refine ⟨roundAt t _ _ T, ring, ?_, holds_roundAt held rfl rfl, ?_, from_⟩
    · rw [memory, ← held 3]
      exact Vars.storeVar (Vars.storeVar vars _ _) _ _
    · rw [memory]
      exact Ring.storeVar (Ring.storeVar words _ _) _ _
  · rw [rolesAt_succ]
    exact regA
  · rw [rolesAt_succ]
    exact regE
  · rw [rolesAt_succ]
    exact regBC
  · rw [memory]
    exact (has.kept.store (by omega) (by omega) _).store (by omega) (by omega) _

/-- A round whose schedule word is in the ring. -/
theorem InRounds.first (before : InRounds mem₀ s k M v₀ 0 t m) (early : t < 16)
    (table : mem₀ .table (k + t*4) = .word (K t)) :
    InRounds mem₀ s k M v₀ 0 (t + 1)
      (exec m (ROUND t false (rolesAt t).eax (rolesAt t).ecx (rolesAt t).edi (rolesAt t).edx)) := by
  obtain ⟨T, ring, vars, held, words, from_⟩ := before.frame
  have turn : t % 16 = t := Nat.mod_eq_of_lt early
  have hF := vars.read held turn 5 (x := t + 2) rfl
  have hG := vars.read held turn 6 (x := t + 1) rfl
  have hH := vars.read held turn 7 (x := t) (Int.add_zero _).symm
  have hW := words.read from_ (u := t) (x := t) (Nat.zero_le t) (by omega) (by omega)
  have hK := before.kept .table (k + t*4) (.inl nofun)
  rw [table] at hK
  obtain ⟨regT1, ⟨eax, ecx, esp, esi⟩, memory⟩ :=
    exec_roundT1_RA0 (rolesAt_known t) before.esp before.esi before.regE hF hG hH hW hK
  have has : HasT1 mem₀ s k M v₀ 0 t (exec m (roundT1 t false (rolesAt t).edi (rolesAt t).edx)) := by
    constructor
    · rw [esp, before.esp]
    · rw [esi, before.esi]
    · rw [memory]
      exact ⟨T, ring, vars, held, words, from_⟩
    · rw [ecx, before.regA]
    · exact regT1
    · rw [eax, before.regBC]
    · rw [memory]
      exact before.kept
  rw [ROUND, exec_append]
  exact has.roundAE turn

/-- A round that computes its schedule word. -/
theorem InRounds.later (before : InRounds mem₀ s k M v₀ e (e + 16) m) {l : Nat} (turn : (e + 16) % 16 = l)
    (table : mem₀ .table (k + l*4) = .word (K (e + 16))) :
    InRounds mem₀ s k M v₀ (e + 1) (e + 16 + 1)
      (exec m (ROUND l true (rolesAt l).eax (rolesAt l).ecx (rolesAt l).edi (rolesAt l).edx)) := by
  have roles : rolesAt l = rolesAt (e + 16) := by
    have parity : l % 2 = (e + 16) % 2 := by omega
    rw [rolesAt, rolesAt, parity]
  obtain ⟨T, ring, vars, held, words, from_⟩ := before.frame
  have hF := vars.read held turn 5 (x := l + 2) rfl
  have hG := vars.read held turn 6 (x := l + 1) rfl
  have hH := vars.read held turn 7 (x := l) (Int.add_zero _).symm
  have hW2 := words.read from_ (u := e + 14) (x := l - 2) (by omega) (by omega) (by omega)
  have hW7 := words.read from_ (u := e + 9) (x := l - 7) (by omega) (by omega) (by omega)
  have hW15 := words.read from_ (u := e + 1) (x := l - 15) (by omega) (by omega) (by omega)
  have hW16 := words.read from_ (u := e) (x := l) (by omega) (by omega) (by omega)
  have hK := before.kept .table (k + l*4) (.inl nofun)
  rw [table] at hK
  obtain ⟨regT1, ⟨eax, ecx, esp, esi⟩, memory⟩ :=
    exec_roundT1_RB1 (rolesAt_known _) before.esp before.esi before.regE hF hG hH hW2 hW7 hW15 hW16 hK
  rw [← schedule_recurrence] at regT1 memory
  have place : wtPlace l = wtPlace (ringPlace e).val := wtPlace_eq (by omega)
  rw [place] at memory
  have has : HasT1 mem₀ s k M v₀ (e + 1) (e + 16)
      (exec m (roundT1 l true (rolesAt (e + 16)).edi (rolesAt (e + 16)).edx)) := by
    constructor
    · rw [esp, before.esp]
    · rw [esi, before.esi]
    · rw [memory]
      exact ⟨T, _, vars.storeWord _ _, held, words.storeWord _ _ fun _ _ inside => inside, ringFrom_expand from_ rfl⟩
    · rw [ecx, before.regA]
    · exact regT1
    · rw [eax, before.regBC]
    · rw [memory]
      have bounds := wtPlace_val (ringPlace e)
      exact before.kept.store (by omega) (by omega) _
  rw [roles, ROUND, exec_append]
  exact has.roundAE turn

/-- Line `l` of the sixteen. -/
private theorem line_eq (r : Bool) (l : Nat) :
    (if l % 2 = 0 then ROUND l r .eax .ecx .edi .edx else ROUND l r .ecx .eax .edx .edi) =
      ROUND l r (rolesAt l).eax (rolesAt l).ecx (rolesAt l).edi (rolesAt l).edx := by
  by_cases even : l % 2 = 0
  · rw [rolesAt, if_pos even, if_pos even]
    rfl
  · rw [rolesAt, if_neg even, if_neg even]
    rfl

/-- The first sixteen rounds. -/
theorem InRounds.sixteen_first (before : InRounds mem₀ s k M v₀ 0 0 m)
    (table : ∀ t : Nat, t < 16 → mem₀ .table (k + t*4) = .word (K t)) :
    InRounds mem₀ s k M v₀ 0 16 (exec m (sixteenRounds false)) := by
  refine exec_flatMap (I := InRounds mem₀ s k M v₀ 0) before ?_
  intro t m early rounds
  rw [line_eq]
  exact rounds.first early (table t early)

/-- Sixteen more. -/
theorem InRounds.sixteen_later (before : InRounds mem₀ s k M v₀ e (e + 16) m) (turn : e % 16 = 0)
    (table : ∀ l : Nat, l < 16 → mem₀ .table (k + l*4) = .word (K (e + l + 16))) :
    InRounds mem₀ s k M v₀ (e + 16) (e + 16 + 16) (exec m (sixteenRounds true)) := by
  refine exec_flatMap (I := fun l m => InRounds mem₀ s k M v₀ (e + l) (e + l + 16) m) before ?_
  intro l m small rounds
  rw [line_eq]
  exact rounds.later (by omega) (table l small)

end

end CpuMiner.Asm32
