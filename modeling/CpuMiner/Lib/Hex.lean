/-
Module: CpuMiner.Lib.Hex
Layer: Library
Purpose: Hexadecimal text as bytes of ASCII. Every byte is written as two lower-case digits (`encode`), and a string
  of digits of either case denotes the bytes of its pairs (`denote`). Writing and reading are inverse to each
  other, up to the case of the digits.
Imports: CpuMiner.Lib.Words
Trusted boundary: human-reviewed spec
Main exports: isDigit, value, digit, lower, encode, denote, encode_denote, denote_encode
Open obligations: none
-/
import CpuMiner.Lib.Words

namespace Hex

open Words

/-! ### Digits -/

/-- The characters `0` to `9`, `A` to `F` and `a` to `f`. -/
def isDigit (c : Byte) : Bool :=
  (0x30 ≤ c && c ≤ 0x39) || (0x41 ≤ c && c ≤ 0x46) || (0x61 ≤ c && c ≤ 0x66)

/-- The number a digit stands for. -/
def value (c : Byte) : Nat :=
  if c ≤ 0x39 then c.toNat - 0x30 else if c ≤ 0x46 then c.toNat - 0x37 else c.toNat - 0x57

/-- The lower-case digit for a number below 16. -/
def digit (n : Nat) : Byte := if n < 10 then BitVec.ofNat 8 (0x30 + n) else BitVec.ofNat 8 (0x57 + n)

/-- The character in lower case. -/
def lower (c : Byte) : Byte := if 0x41 ≤ c ∧ c ≤ 0x5a then c + 0x20 else c

theorem value_lt {c : Byte} : isDigit c = true → value c < 16 := by
  revert c
  decide +kernel

theorem digit_value {c : Byte} : isDigit c = true → digit (value c) = lower c := by
  revert c
  decide +kernel

theorem isDigit_digit {n : Nat} : n < 16 → isDigit (digit n) = true := by
  revert n
  decide

theorem value_digit {n : Nat} : n < 16 → value (digit n) = n := by
  revert n
  decide

/-! ### Strings -/

/-- A byte as two digits. -/
def pair (b : Byte) : List Byte := [digit (b.toNat / 16), digit (b.toNat % 16)]

def encode (bytes : List Byte) : List Byte := bytes.flatMap pair

/-- The bytes of the pairs of a string of digits. -/
def denote : List Byte → List Byte
  | c0 :: c1 :: rest => BitVec.ofNat 8 (16 * value c0 + value c1) :: denote rest
  | _ => []

@[simp] theorem encode_nil : encode [] = [] := rfl

@[simp] theorem encode_cons (b : Byte) (bytes : List Byte) :
    encode (b :: bytes) = pair b ++ encode bytes := rfl

theorem encode_append (first second : List Byte) : encode (first ++ second) = encode first ++ encode second := by
  simp [encode]

@[simp] theorem length_encode (bytes : List Byte) : (encode bytes).length = 2 * bytes.length := by
  induction bytes with
  | nil => rfl
  | cons b bytes ih =>
      rw [encode_cons, List.length_append, ih, List.length_cons, pair]
      simp only [List.length_cons, List.length_nil]
      omega

theorem encode_take (k : Nat) (bytes : List Byte) : encode (bytes.take k) = (encode bytes).take (2 * k) := by
  induction bytes generalizing k with
  | nil => simp
  | cons b bytes ih =>
      cases k with
      | zero => rfl
      | succ k =>
          have split : 2 * (k + 1) = 2 * k + 2 := by omega
          rw [split, List.take_succ_cons, encode_cons, encode_cons, ih]
          rfl

theorem encode_drop (k : Nat) (bytes : List Byte) : encode (bytes.drop k) = (encode bytes).drop (2 * k) := by
  induction bytes generalizing k with
  | nil => simp
  | cons b bytes ih =>
      cases k with
      | zero => rfl
      | succ k =>
          have split : 2 * (k + 1) = 2 * k + 2 := by omega
          rw [split, List.drop_succ_cons, encode_cons, ih]
          rfl

theorem isDigit_of_mem_encode {bytes : List Byte} : ∀ c ∈ encode bytes, isDigit c = true := by
  intro c listed
  obtain ⟨b, _, inPair⟩ := List.mem_flatMap.mp listed
  have bound := b.isLt
  rcases List.mem_cons.mp inPair with rfl | inLow
  · exact isDigit_digit (by omega)
  · rw [List.mem_singleton.mp inLow]
    exact isDigit_digit (by omega)

/-- Two digits are written back in lower case. -/
theorem pair_value {c0 c1 : Byte} (h0 : isDigit c0 = true) (h1 : isDigit c1 = true) :
    pair (BitVec.ofNat 8 (16 * value c0 + value c1)) = [lower c0, lower c1] := by
  have high := value_lt h0
  have low := value_lt h1
  have quotient : (16 * value c0 + value c1) % 2 ^ 8 / 16 = value c0 := by omega
  have remainder : (16 * value c0 + value c1) % 2 ^ 8 % 16 = value c1 := by omega
  rw [pair, BitVec.toNat_ofNat, quotient, remainder, digit_value h0, digit_value h1]

/-- Writing what a string of digits denotes gives the string back in lower case. -/
theorem encode_denote {s : List Byte} {n : Nat} (length : s.length = 2 * n)
    (digits : ∀ c ∈ s, isDigit c = true) : encode (denote s) = s.map lower := by
  induction n generalizing s with
  | zero =>
      obtain rfl := List.length_eq_zero_iff.mp length
      rfl
  | succ n ih =>
      match s, length, digits with
      | c0 :: c1 :: rest, length, digits =>
          have tail : rest.length = 2 * n := by
            simp only [List.length_cons] at length
            omega
          have later : ∀ c ∈ rest, isDigit c = true := fun c hc => digits c (by simp [hc])
          rw [denote, encode_cons, pair_value (digits c0 (by simp)) (digits c1 (by simp)), ih tail later]
          rfl
      | [], length, _ =>
          simp only [List.length_nil] at length
          omega
      | [_], length, _ =>
          simp only [List.length_cons, List.length_nil] at length
          omega

/-- Reading what was written gives the bytes back. -/
theorem denote_encode (bytes : List Byte) : denote (encode bytes) = bytes := by
  induction bytes with
  | nil => rfl
  | cons b bytes ih =>
      have bound := b.isLt
      have high : b.toNat / 16 < 16 := by omega
      have low : b.toNat % 16 < 16 := by omega
      rw [encode_cons, pair, List.cons_append, List.cons_append, List.nil_append, denote, ih,
        value_digit high, value_digit low, Nat.div_add_mod, BitVec.ofNat_toNat, BitVec.setWidth_eq]

end Hex
