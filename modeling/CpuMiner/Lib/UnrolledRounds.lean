/-
Module: CpuMiner.Lib.UnrolledRounds
Layer: Library
Purpose: What unrolled SHA-256 code does to save moves. Such code leaves the eight working variables where
  they are and renames them: in round `t`, the variable `j` is in register `slot t j`, and the round writes
  only the registers of `d` and `h` (`holds_roundAt`). It also keeps the sixteen schedule words that are still
  needed in a ring (`RingFrom`), and computes the next word in the place of the oldest one
  (`ringFrom_expand`). The last part has the other spellings of the logical functions that such code uses.
Imports: CpuMiner.Lib.Sha256
Trusted boundary: none
Main exports: slot, Holds, roundAt, holds_roundAt, RingFrom, ringFrom_expand, rotr_eq_xor, rounds_shift
Open obligations: none
-/
import CpuMiner.Lib.Sha256

namespace Sha256

open Words

/-! ### Rotating registers -/

/-- The register that holds working variable `j` before round `t`. -/
def slot (t : Nat) (j : Fin 8) : Fin 8 := ⟨(j.val + 7 * t) % 8, by omega⟩

/-- Before round `t`, the registers hold the working variables `v`. -/
def Holds (t : Nat) (regs v : HashValue) : Prop := ∀ j, regs (slot t j) = v j

/-- Round `t` on the registers: `d` is increased by `t1`, and `h` becomes `t1 + t2`. -/
def roundAt (t : Nat) (t1 t2 : Word) (regs : HashValue) : HashValue :=
  Function.update (Function.update regs (slot t 3) (regs (slot t 3) + t1)) (slot t 7) (t1 + t2)

theorem slot_injective (t : Nat) : Function.Injective (slot t) := by
  intro i j h
  have same : (i.val + 7 * t) % 8 = (j.val + 7 * t) % 8 := congrArg Fin.val h
  apply Fin.ext
  omega

/-- Before the first round every variable is in its own register. -/
theorem holds_zero (v : HashValue) : Holds 0 v v := by
  intro j
  have same : slot 0 j = j := Fin.ext (by simp only [slot]; omega)
  rw [same]

/-- Renaming: variable `j` of the next round is where variable `j - 1` of this one was. -/
theorem slot_succ (t : Nat) (j : Fin 8) : slot (t + 1) j = slot t (j + 7) := by
  apply Fin.ext
  simp only [slot, Fin.val_add]
  omega

/-- Registers that hold the variables of round `t` hold those of the next round after it. -/
theorem holds_roundAt {t : Nat} {regs v : HashValue} {k w t1 t2 : Word} (held : Holds t regs v)
    (t1_eq : t1 = v 7 + bigSigma1 (v 4) + ch (v 4) (v 5) (v 6) + k + w)
    (t2_eq : t2 = bigSigma0 (v 0) + maj (v 0) (v 1) (v 2)) :
    Holds (t + 1) (roundAt t t1 t2 regs) (oneRound k w v) := by
  have apart : ∀ i j : Fin 8, i ≠ j → slot t i ≠ slot t j :=
    fun i j different same => different (slot_injective t same)
  intro j
  rw [slot_succ]
  subst t1_eq t2_eq
  match j with
  | 0 => exact Function.update_self ..
  | 4 =>
      rw [roundAt, Function.update_of_ne (apart _ _ (by decide)),
        show (4 : Fin 8) + 7 = 3 from rfl, Function.update_self, held 3]
      rfl
  | 1 | 2 | 3 | 5 | 6 | 7 =>
      rw [roundAt, Function.update_of_ne (apart _ _ (by decide)),
        Function.update_of_ne (apart _ _ (by decide)), held]
      rfl

/-! ### The schedule ring -/

/-- The place of schedule word `t` in a ring of sixteen. -/
def ringPlace (t : Nat) : Fin 16 := ⟨t % 16, Nat.mod_lt _ (by decide)⟩

/-- The ring of sixteen words holds the schedule words `e` to `e + 15`, word `s` in place `s mod 16`. -/
def RingFrom (e : Nat) (ring : Fin 16 → Word) (W : Nat → Word) : Prop :=
  ∀ s, e ≤ s → s < e + 16 → ring (ringPlace s) = W s

/-- A block is a ring that starts at the first schedule word. -/
theorem ringFrom_block (M : Block) : RingFrom 0 M (schedule M) := by
  intro s _ bound
  have small : s % 16 = s := Nat.mod_eq_of_lt (by omega)
  rw [schedule_block M s (by omega)]
  exact congrArg M (Fin.ext small)

/-- Writing schedule word `e + 16` over the word `e` moves the ring on by one. -/
theorem ringFrom_expand {e : Nat} {ring : Fin 16 → Word} {W : Nat → Word} {w : Word}
    (held : RingFrom e ring W) (next : w = W (e + 16)) :
    RingFrom (e + 1) (Function.update ring (ringPlace e) w) W := by
  intro s lower upper
  by_cases newest : s = e + 16
  · have place : ringPlace s = ringPlace e := Fin.ext (by simp only [ringPlace]; omega)
    rw [place, Function.update_self, newest, next]
  · have place : ringPlace s ≠ ringPlace e := by
      intro same
      have residues := congrArg Fin.val same
      simp only [ringPlace] at residues
      omega
    rw [Function.update_of_ne place]
    exact held s (by omega) (by omega)

/-! ### Rounds that are not needed -/

/-- Variable `h` after three more rounds is variable `e` now. -/
theorem rounds_shift (W : Nat → Word) (v : HashValue) (n : Nat) :
    rounds W v (n + 3) 7 = rounds W v n 4 := rfl

/-- And variable `d` after three more rounds is variable `a` now. -/
theorem rounds_shift_three (W : Nat → Word) (v : HashValue) (n : Nat) :
    rounds W v (n + 3) 3 = rounds W v n 0 := rfl

/-! ### Other spellings of the logical functions -/

/-- The two halves of a rotation have no bit in common. -/
theorem rotr_eq_xor (x : Word) {n : Nat} (hn : n < 32) :
    rotr x n = (x >>> n) ^^^ (x <<< (32 - n)) := by
  apply BitVec.eq_of_getLsbD_eq
  intro i hi
  simp only [rotr, BitVec.getLsbD_or, BitVec.getLsbD_xor, BitVec.getLsbD_ushiftRight,
    BitVec.getLsbD_shiftLeft]
  by_cases low : i < 32 - n
  · simp [low]
  · have high : x.getLsbD (n + i) = false := BitVec.getLsbD_of_ge x _ (by omega)
    simp [high]

theorem xor_left_comm (x y z : Word) : x ^^^ (y ^^^ z) = y ^^^ (x ^^^ z) := by
  rw [← BitVec.xor_assoc, BitVec.xor_comm x y, BitVec.xor_assoc]

theorem ch_eq_select (x y z : Word) : z ^^^ (x &&& (y ^^^ z)) = ch x y z := by
  apply BitVec.eq_of_getLsbD_eq
  intro i hi
  simp only [ch, BitVec.getLsbD_xor, BitVec.getLsbD_and, BitVec.getLsbD_not, hi, decide_true,
    Bool.true_and]
  cases x.getLsbD i <;> cases y.getLsbD i <;> cases z.getLsbD i <;> rfl

theorem maj_eq_or (x y z : Word) : (x &&& y) ||| (z &&& (x ||| y)) = maj x y z := by
  apply BitVec.eq_of_getLsbD_eq
  intro i _
  simp only [maj, BitVec.getLsbD_xor, BitVec.getLsbD_and, BitVec.getLsbD_or]
  cases x.getLsbD i <;> cases y.getLsbD i <;> cases z.getLsbD i <;> rfl

theorem maj_eq_xor (x y z : Word) : (x &&& (y ^^^ z)) ^^^ (y &&& z) = maj x y z := by
  apply BitVec.eq_of_getLsbD_eq
  intro i _
  simp only [maj, BitVec.getLsbD_xor, BitVec.getLsbD_and]
  cases x.getLsbD i <;> cases y.getLsbD i <;> cases z.getLsbD i <;> rfl

theorem maj_eq_middle (x y z : Word) : y ^^^ ((x ^^^ y) &&& (y ^^^ z)) = maj x y z := by
  apply BitVec.eq_of_getLsbD_eq
  intro i _
  simp only [maj, BitVec.getLsbD_xor, BitVec.getLsbD_and]
  cases x.getLsbD i <;> cases y.getLsbD i <;> cases z.getLsbD i <;> rfl

end Sha256
