/-
Module: CpuMiner.Util.HexGrammar
Layer: Utilities
Purpose: The strings that `hex2bin` accepts. `sscanf("%x")` converts a pair of characters also when the second one is
  no digit, and when the first one is white space or a sign; `pairByte` says which pairs these are and what they
  denote, without the scanner (`sscanfX_pair`). `hex2bin` does not notice. So it accepts more than the strings of
  digits, and `hex2bin_exact_iff` says which strings these are. `hex2bin_eq_iff` says what it has written when it
  accepts.
Imports: CpuMiner.Util.Hex
Trusted boundary: none
Main exports: pairScans, pairByte, pairsAll, sscanfX_pair, sscanfX_isSome_iff, hex2bin_accepts_iff, pairValues,
  hex2bin_eq_iff, pairValues_digits, HexString, HexExact, Slips, hex2bin_exact_iff, hex2bin_not_exact
Open obligations: none
-/
import CpuMiner.Util.Hex

namespace CpuMiner

open Words

/-! ### Pairs of characters -/

/-- What `%x` skips before the first digit of a pair: white space and signs. -/
def isSkipped (c : Byte) : Bool := isSpace c || c == 0x2d || c == 0x2b

/-- The pair is `0x` or `0X`. -/
def isHexPrefix (c0 c1 : Byte) : Bool := c0 == 0x30 && (c1 == 0x78 || c1 == 0x58)

/-- The pairs that `%x` converts: a digit and any other character, but not a prefix with nothing behind it, or a digit
    behind white space or a sign. -/
def pairScans (c0 c1 : Byte) : Bool :=
  (Hex.isDigit c0 && !isHexPrefix c0 c1) || (isSkipped c0 && Hex.isDigit c1)

/-- The byte that `%x` makes of a pair: what two digits denote, and what one digit denotes before another character or
    behind white space or a plus sign; behind a minus sign it is negated. -/
def pairByte (c0 c1 : Byte) : Option Byte :=
  match Hex.isDigit c0, Hex.isDigit c1 with
  | true, true => some (BitVec.ofNat 8 (16 * Hex.value c0 + Hex.value c1))
  | true, false => if isHexPrefix c0 c1 then none else some (BitVec.ofNat 8 (Hex.value c0))
  | false, true =>
      if isSpace c0 || c0 == 0x2b then some (BitVec.ofNat 8 (Hex.value c1))
      else if c0 == 0x2d then some (-BitVec.ofNat 8 (Hex.value c1))
      else none
  | false, false => none

/-- Every two characters of the string are such a pair, and none is left. -/
def pairsAll (P : Byte → Byte → Bool) : List Byte → Bool
  | [] => true
  | [_] => false
  | c0 :: c1 :: rest => P c0 c1 && pairsAll P rest

/-- One character is a number if it is a digit. -/
private theorem scanUnsigned_singleton (c : Byte) :
    scanUnsigned [c] = if Hex.isDigit c then some (BitVec.ofNat 32 (Hex.value c)) else none := by
  cases digit : Hex.isDigit c with
  | true => simp [scanUnsigned, scanDigits, digit]
  | false => simp [scanUnsigned, scanDigits, digit]

/-- The pair is no number without a sign if the first character is not a digit. -/
private theorem scanUnsigned_of_not_digit {c0 : Byte} (notDigit : Hex.isDigit c0 = false) (c1 : Byte) :
    scanUnsigned [c0, c1] = none := by
  have noPrefix : ¬ (c0 = 0x30 ∧ (c1 = 0x78 ∨ c1 = 0x58)) := by
    rintro ⟨rfl, _⟩
    cases notDigit
  rw [scanUnsigned, if_neg noPrefix]
  simp [scanDigits, notDigit]

/-- A digit before another character is the number, but for a prefix. -/
private theorem scanUnsigned_of_digit {c0 c1 : Byte} (digit : Hex.isDigit c0 = true) (other : Hex.isDigit c1 = false) :
    scanUnsigned [c0, c1] = if isHexPrefix c0 c1 then none else some (BitVec.ofNat 32 (Hex.value c0)) := by
  by_cases hexPrefix : c0 = 0x30 ∧ (c1 = 0x78 ∨ c1 = 0x58)
  · have isPrefix : isHexPrefix c0 c1 = true := by simpa [isHexPrefix] using hexPrefix
    rw [scanUnsigned, if_pos hexPrefix, isPrefix]
    simp [scanDigits]
  · have isPrefix : isHexPrefix c0 c1 = false := by simpa [isHexPrefix] using hexPrefix
    rw [scanUnsigned, if_neg hexPrefix, isPrefix]
    simp [scanDigits, digit, other]

/-- White space is neither a digit nor a sign. -/
private theorem isSpace_plain {c : Byte} : isSpace c = true →
    Hex.isDigit c = false ∧ c ≠ 0x2d ∧ c ≠ 0x2b := by
  revert c
  decide +kernel

private theorem sscanfX_space {c : Byte} (space : isSpace c = true) (rest : List Byte) :
    sscanfX (c :: rest) = sscanfX rest := by
  rw [sscanfX, sscanfX, List.dropWhile_cons_of_pos space]

private theorem sscanfX_cons {c : Byte} (notSpace : isSpace c = false) (rest : List Byte) :
    sscanfX (c :: rest) =
      if c = 0x2d then (scanUnsigned rest).map fun v => -v
      else if c = 0x2b then scanUnsigned rest
      else scanUnsigned (c :: rest) := by
  rw [sscanfX, List.dropWhile_cons_of_neg (by simp [notSpace])]

private theorem sscanfX_singleton (c : Byte) :
    sscanfX [c] = if Hex.isDigit c then some (BitVec.ofNat 32 (Hex.value c)) else none := by
  cases space : isSpace c with
  | true =>
      rw [sscanfX_space space, (isSpace_plain space).1]
      rfl
  | false =>
      rw [sscanfX_cons space]
      split
      · rename_i minus
        subst minus
        rfl
      · split
        · rename_i plus
          subst plus
          rfl
        · exact scanUnsigned_singleton c

/-- What `%x` makes of a pair, in its low byte. -/
theorem sscanfX_pair (c0 c1 : Byte) : (sscanfX [c0, c1]).map (BitVec.setWidth 8) = pairByte c0 c1 := by
  cases digit0 : Hex.isDigit c0 with
  | true =>
      cases digit1 : Hex.isDigit c1 with
      | true =>
          rw [sscanfX_digits digit0 digit1, pairByte, digit0, digit1]
      | false =>
          obtain ⟨notSpace, notMinus, notPlus, _, _⟩ := isDigit_plain digit0
          rw [sscanfX_cons notSpace, if_neg notMinus, if_neg notPlus, scanUnsigned_of_digit digit0 digit1, pairByte,
            digit0, digit1]
          cases isHexPrefix c0 c1 with
          | true => rfl
          | false => simp
  | false =>
      cases space : isSpace c0 with
      | true =>
          rw [sscanfX_space space, sscanfX_singleton, pairByte, digit0, space]
          cases Hex.isDigit c1 with
          | true => simp
          | false => rfl
      | false =>
          rw [sscanfX_cons space, pairByte, digit0, space]
          by_cases minus : c0 = 0x2d
          · subst minus
            rw [if_pos rfl, scanUnsigned_singleton]
            cases Hex.isDigit c1 with
            | true => simp [BitVec.setWidth_neg_of_le]
            | false => rfl
          · rw [if_neg minus]
            by_cases plus : c0 = 0x2b
            · subst plus
              rw [if_pos rfl, scanUnsigned_singleton]
              cases Hex.isDigit c1 with
              | true => simp
              | false => rfl
            · rw [if_neg plus, scanUnsigned_of_not_digit digit0, beq_eq_false_iff_ne.mpr minus,
                beq_eq_false_iff_ne.mpr plus]
              cases Hex.isDigit c1 with
              | true => rfl
              | false => rfl

/-- No digit is an `x`. -/
private theorem not_isHexPrefix {c0 c1 : Byte} (digit : Hex.isDigit c1 = true) : isHexPrefix c0 c1 = false := by
  obtain ⟨_, _, _, notLower, notUpper⟩ := isDigit_plain digit
  rw [isHexPrefix, beq_eq_false_iff_ne.mpr notLower, beq_eq_false_iff_ne.mpr notUpper]
  exact Bool.and_false _

/-- These pairs denote a byte. -/
theorem pairByte_isSome (c0 c1 : Byte) : (pairByte c0 c1).isSome = pairScans c0 c1 := by
  rw [pairByte, pairScans, isSkipped]
  cases Hex.isDigit c0 with
  | true =>
      cases digit1 : Hex.isDigit c1 with
      | true =>
          rw [not_isHexPrefix digit1]
          rfl
      | false => cases isHexPrefix c0 c1 <;> simp
  | false =>
      cases Hex.isDigit c1 with
      | true => cases isSpace c0 <;> cases c0 == 0x2b <;> cases c0 == 0x2d <;> rfl
      | false => simp

/-- The pairs that `%x` converts. -/
theorem sscanfX_isSome_iff (c0 c1 : Byte) : (sscanfX [c0, c1]).isSome = pairScans c0 c1 := by
  rw [← pairByte_isSome, ← sscanfX_pair, Option.isSome_map]

/-! ### Accepted strings -/

/-- `hex2bin` accepts a string of pairs that `%x` converts, as many as there are bytes. -/
theorem hex2bin_accepts_iff (s : List Byte) (len : Nat) :
    (hex2bin s len).error = none ↔ s.length = 2 * len ∧ pairsAll pairScans s = true := by
  fun_induction hex2bin s len with
  | case1 len =>
      by_cases zero : len = 0
      · subst zero
        simp [pairsAll]
      · have short : ¬ ([] : List Byte).length = 2 * len := by
          rw [List.length_nil]
          omega
        rw [if_neg zero]
        exact iff_of_false (by simp) (fun accepted => short accepted.1)
  | case2 => simp
  | case3 => simp [pairsAll]
  | case4 c0 c1 rest len refused =>
      have notScanned : pairScans c0 c1 = false := by
        rw [← sscanfX_isSome_iff, refused]
        rfl
      simp [pairsAll, notScanned]
  | case5 c0 c1 rest len v scanned after ih =>
      have isScanned : pairScans c0 c1 = true := by
        rw [← sscanfX_isSome_iff, scanned]
        rfl
      have length : (c0 :: c1 :: rest).length = 2 * (len + 1) ↔ rest.length = 2 * len := by
        rw [List.length_cons, List.length_cons]
        omega
      rw [length, pairsAll, isScanned, Bool.true_and]
      exact ih

/-! ### What is written -/

/-- The bytes that the pairs of a string denote. -/
def pairValues : List Byte → Option (List Byte)
  | [] => some []
  | [_] => none
  | c0 :: c1 :: rest =>
      match pairByte c0 c1, pairValues rest with
      | some b, some bytes => some (b :: bytes)
      | _, _ => none

/-- `hex2bin` accepts a string if its pairs denote as many bytes as the buffer has, and has then written these. -/
theorem hex2bin_eq_iff (s : List Byte) (len : Nat) (bytes : List Byte) :
    hex2bin s len = ⟨bytes, none⟩ ↔ pairValues s = some bytes ∧ bytes.length = len := by
  fun_induction hex2bin s len generalizing bytes with
  | case1 len =>
      by_cases zero : len = 0
      · subst zero
        simp only [if_true, Hex2Bin.mk.injEq, and_true, pairValues, Option.some.injEq]
        constructor
        · rintro rfl
          exact ⟨rfl, rfl⟩
        · exact fun same => same.1
      · simp only [if_neg zero, Hex2Bin.mk.injEq, reduceCtorEq, and_false, false_iff, pairValues, Option.some.injEq]
        rintro ⟨rfl, length⟩
        exact zero length.symm
  | case2 c rest =>
      simp only [Hex2Bin.mk.injEq, reduceCtorEq, and_false, false_iff]
      rintro ⟨denoted, length⟩
      obtain rfl := List.length_eq_zero_iff.mp length
      cases rest with
      | nil => cases denoted
      | cons c1 rest =>
          simp only [pairValues] at denoted
          split at denoted
          · cases denoted
          · cases denoted
  | case3 => simp [pairValues]
  | case4 c0 c1 rest len refused =>
      have nothing : pairByte c0 c1 = none := by
        rw [← sscanfX_pair, refused]
        rfl
      simp [pairValues, nothing]
  | case5 c0 c1 rest len v scanned after ih =>
      have denotes : pairByte c0 c1 = some (v.setWidth 8) := by
        rw [← sscanfX_pair, scanned]
        rfl
      simp only [pairValues, denotes, Hex2Bin.mk.injEq]
      constructor
      · rintro ⟨rfl, accepted⟩
        obtain ⟨denoted, length⟩ := (ih after.written).mp (by rw [← accepted])
        simp only [denoted, List.length_cons, length, and_self]
      · rintro ⟨denoted, length⟩
        cases tail : pairValues rest with
        | none =>
            rw [tail] at denoted
            cases denoted
        | some bytes' =>
            rw [tail] at denoted
            obtain rfl : v.setWidth 8 :: bytes' = bytes := Option.some.inj denoted
            have same : after = ⟨bytes', none⟩ := (ih bytes').mpr ⟨tail, Nat.succ.inj length⟩
            rw [same]
            exact ⟨rfl, rfl⟩

/-- For digits these are the bytes that two digits each denote. -/
theorem pairValues_digits {s : List Byte} {len : Nat} (length : s.length = 2 * len)
    (digits : ∀ c ∈ s, Hex.isDigit c = true) : pairValues s = some (Hex.denote s) :=
  ((hex2bin_eq_iff s len (Hex.denote s)).mp (hex2bin_digits length digits)).1

/-! ### Exactness -/

/-- The strings that denote `len` bytes. -/
def HexString (s : List Byte) (len : Nat) : Prop := s.length = 2 * len ∧ ∀ c ∈ s, Hex.isDigit c = true

/-- `hex2bin` accepts this string if and only if it denotes `len` bytes, and then it has written them. -/
def HexExact (s : List Byte) (len : Nat) : Prop :=
  ((hex2bin s len).error = none ↔ HexString s len) ∧ (HexString s len → (hex2bin s len).written = Hex.denote s)

/-- The string has the right length and consists of pairs that `%x` converts, and not all of its characters are
    digits. -/
def Slips (s : List Byte) (len : Nat) : Prop :=
  s.length = 2 * len ∧ pairsAll pairScans s = true ∧ ∃ c ∈ s, Hex.isDigit c = false

/-- `hex2bin` is exact on all strings but these. -/
theorem hex2bin_exact_iff (s : CString) (len : Nat) : HexExact s.bytes len ↔ ¬ Slips s.bytes len := by
  constructor
  · rintro ⟨accepts, _⟩ ⟨length, pairs, c, listed, notDigit⟩
    obtain ⟨_, digits⟩ := accepts.mp ((hex2bin_accepts_iff _ _).mpr ⟨length, pairs⟩)
    rw [digits c listed] at notDigit
    cases notDigit
  · intro noSlip
    refine ⟨⟨fun accepted => ?_, fun ⟨length, digits⟩ => ?_⟩, fun ⟨length, digits⟩ => ?_⟩
    · obtain ⟨length, pairs⟩ := (hex2bin_accepts_iff _ _).mp accepted
      refine ⟨length, fun c listed => ?_⟩
      by_contra notDigit
      exact noSlip ⟨length, pairs, c, listed, Bool.eq_false_iff.mpr notDigit⟩
    · rw [hex2bin_digits length digits]
    · rw [hex2bin_digits length digits]

/-- A blank and a digit are taken for a byte. -/
theorem hex2bin_not_exact : ¬ ∀ (s : CString) (len : Nat), HexExact s.bytes len := by
  intro all
  have blank := (all ⟨[0x20, 0x31], by decide⟩ 1).1.mp rfl
  exact absurd (blank.2 0x20 (by decide)) (by decide)

end CpuMiner
