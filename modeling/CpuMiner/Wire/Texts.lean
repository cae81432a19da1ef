/-
Module: CpuMiner.Wire.Texts
Layer: JSON
Purpose: Texts that are written. Plain characters are written as themselves, a text of ASCII bytes is in UTF-8, and
  the digits of a number are those of the grammar.
Imports: CpuMiner.Wire.Documents
Trusted boundary: none
Main exports: isPlain, StringText.of_plain, StringText.of_digits, valid_ascii, Document.of_valid, Document.of_ascii,
  formatD, decimal_formatD, formatD_noLeadingZero
Open obligations: none
-/
import CpuMiner.Wire.Documents

namespace CpuMiner.Jansson

open Words
open Utf8

/-- The character may stand for itself in a string. -/
def isPlain (c : Byte) : Bool := !(c ≤ 0x1F) && c != quote && c != backslash && c != eof

theorem isPlain_iff {c : Byte} : isPlain c = true ↔ Plain c := by
  simp only [isPlain, Bool.and_eq_true, Bool.not_eq_true', decide_eq_false_iff_not, bne_iff_ne, ne_eq]
  exact ⟨fun ⟨⟨⟨control, notQuote⟩, notBackslash⟩, notEof⟩ => ⟨control, notQuote, notBackslash, notEof⟩,
    fun ⟨control, notQuote, notBackslash, notEof⟩ => ⟨⟨⟨control, notQuote⟩, notBackslash⟩, notEof⟩⟩

/-- Plain characters in front of a string. -/
theorem StringText.plains {front value text : List Byte} (plain : ∀ c ∈ front, isPlain c = true)
    (string : StringText value text) : StringText (front ++ value) (front ++ text) := by
  induction front with
  | nil => exact string
  | cons c front ih =>
      have first := isPlain_iff.mp (plain c List.mem_cons_self)
      exact .plain first (ih fun d listed => plain d (List.mem_cons_of_mem c listed))

theorem StringText.of_plain {text : List Byte} (plain : ∀ c ∈ text, isPlain c = true) : StringText text text := by
  have whole := StringText.plains plain .nil
  rwa [List.append_nil] at whole

theorem isPlain_digit {c : Byte} : Hex.isDigit c = true → isPlain c = true ∧ c.toNat < 0x80 := by
  revert c
  decide

/-- Hexadecimal digits are a string. -/
theorem StringText.of_digits {text : List Byte} (digits : ∀ c ∈ text, Hex.isDigit c = true) : StringText text text :=
  .of_plain fun c listed => (isPlain_digit (digits c listed)).1

theorem valid_ascii {text : List Byte} (small : ∀ c ∈ text, c.toNat < 0x80) : Valid text := by
  induction text with
  | nil => exact valid_nil
  | cons c text ih =>
      obtain ⟨ch, _, same⟩ := exists_encode_ascii (small c List.mem_cons_self)
      have whole := (valid_encode ch).append (ih fun d listed => small d (List.mem_cons_of_mem c listed))
      rwa [same] at whole

theorem Document.of_valid {tree : Tree} {text : List Byte} (form : Text tree text) (valid : Valid text) :
    Document tree text text [] :=
  ⟨(List.append_nil text).symm, valid, form, .inl rfl⟩

theorem Document.of_ascii {tree : Tree} {text : List Byte} (form : Text tree text)
    (small : ∀ c ∈ text, c.toNat < 0x80) : Document tree text text [] :=
  .of_valid form (valid_ascii small)

/-! ### Fixed texts -/

theorem white_of_all {ws : List Byte} (all : (ws.all isWhite) = true) : White ws := fun c listed =>
  List.all_eq_true.mp all c listed

theorem stringText_of_all {text : List Byte} (all : (text.all isPlain) = true) : StringText text text :=
  .of_plain fun c listed => List.all_eq_true.mp all c listed

theorem ascii_of_all {text : List Byte} (all : (text.all fun c => decide (c.toNat < 0x80)) = true) :
    ∀ c ∈ text, c.toNat < 0x80 := fun c listed => of_decide_eq_true (List.all_eq_true.mp all c listed)

/-! ### Numbers -/

/-- `%d` of a number that is not negative. -/
def formatD (n : Nat) : List Byte := ascii (String.ofList (Nat.toDigits 10 n))

theorem formatD_eq (n : Nat) :
    formatD n = if n < 10 then [byteOf (0x30 + n)] else formatD (n / 10) ++ [byteOf (0x30 + n % 10)] := by
  have digit : ∀ d : Nat, d < 10 → BitVec.ofNat 8 (Nat.digitChar d).toNat = byteOf (0x30 + d) := by decide
  simp only [formatD, ascii, String.toList_ofList]
  rw [Nat.toDigits_eq_if (by decide)]
  split
  · rename_i small
    simp only [List.map_cons, List.map_nil, digit n small]
  · simp only [List.map_append, List.map_cons, List.map_nil, digit (n % 10) (Nat.mod_lt _ (by decide))]

theorem formatD_decimals (n : Nat) : Decimals (formatD n) := by
  have digit : ∀ d : Nat, d < 10 → isDecimal (byteOf (0x30 + d)) = true := by decide
  induction n using Nat.strong_induction_on with
  | _ n ih =>
      rw [formatD_eq]
      split
      · rename_i small
        refine ⟨List.cons_ne_nil _ _, ?_⟩
        simpa using digit n small
      · have shorter := ih (n / 10) (by omega)
        refine ⟨by simp, fun c listed => ?_⟩
        rcases List.mem_append.mp listed with front | last
        · exact shorter.digit c front
        · rw [List.mem_singleton.mp last]
          exact digit (n % 10) (Nat.mod_lt _ (by decide))

/-- The digits of a number denote it. -/
theorem decimal_formatD (n : Nat) : decimal (formatD n) = n := by
  have digit : ∀ d : Nat, d < 10 → (byteOf (0x30 + d)).toNat - 0x30 = d := by decide
  have all : ∀ m, (formatD m).takeWhile (fun c => 0x30 ≤ c && c ≤ 0x39) = formatD m := fun m =>
    List.takeWhile_eq_self_iff.mpr (formatD_decimals m).digit
  rw [decimal, all]
  induction n using Nat.strong_induction_on with
  | _ n ih =>
      rw [formatD_eq]
      split
      · rename_i small
        rw [List.foldl_cons, List.foldl_nil, digit n small, Nat.mul_zero, Nat.zero_add]
      · rw [List.foldl_append, ih (n / 10) (by omega), List.foldl_cons, List.foldl_nil,
          digit (n % 10) (Nat.mod_lt _ (by decide))]
        omega

theorem formatD_noLeadingZero (n : Nat) : NoLeadingZero (formatD n) := by
  refine ⟨formatD_decimals n, ?_⟩
  have digit : ∀ d : Nat, d < 10 → byteOf (0x30 + d) = 0x30 → d = 0 := by decide
  induction n using Nat.strong_induction_on with
  | _ n ih =>
      intro first
      rw [formatD_eq] at first ⊢
      split at first
      · rename_i small
        rw [if_pos small]
        rw [Option.some.inj first]
      · rename_i large
        have more := (formatD_decimals (n / 10)).some
        rw [List.head?_append_of_ne_nil _ more] at first
        have isZero := congrArg decimal (ih (n / 10) (by omega) first)
        rw [decimal_formatD] at isZero
        have zero : n / 10 = 0 := isZero
        omega
end CpuMiner.Jansson
