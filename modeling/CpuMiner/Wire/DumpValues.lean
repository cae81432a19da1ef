/-
Module: CpuMiner.Wire.DumpValues
Layer: JSON
Purpose: The parts of a value that `do_dump` writes: white space, the elements between their separators, and numbers.
  The loops of `do_dump` are one, so that what holds of a loop is shown once for arrays and objects. A text that is
  written is `Clean`: nothing in it ends a string, and with JSON_ENSURE_ASCII it is ASCII.
Imports: CpuMiner.Wire.DumpStrings
Trusted boundary: human-reviewed spec (`Readable` for `%.17g` and `strtod`)
Main exports: dumpIndent_indents, dumpLoop_written, dumpContainer_written, integerText_formatInt, Readable,
  realText_readable, Clean, clean_stringText
Open obligations: none
-/
import CpuMiner.Wire.DumpStrings

namespace CpuMiner.Jansson

open Words
open Utf8

variable {ρ : Type}

/-! ### White space -/

/-- The function writes white space. -/
def Indents (indent : Strbuffer → Option Strbuffer) (ws : List Byte) : Prop :=
  ∀ data before, Strbuffer.Holds data before → ∃ data', indent data = some data' ∧ data'.Holds (before ++ ws)

theorem white_whitespace (n : Nat) : White (whitespace.take n) := by
  intro c listed
  rw [List.eq_of_mem_replicate (List.mem_of_mem_take listed)]
  rfl

theorem indentLoop_indents (wsCount depth : Nat) : ∃ ws, White ws ∧ Indents (indentLoop wsCount depth) ws := by
  induction depth with
  | zero =>
      refine ⟨[], white_nil, fun data before holds => ⟨data, rfl, ?_⟩⟩
      rwa [List.append_nil]
  | succ depth ih =>
      obtain ⟨ws, white, indents⟩ := ih
      refine ⟨whitespace.take wsCount ++ ws, (white_whitespace wsCount).append white, fun data before holds => ?_⟩
      obtain ⟨data₁, appends, holds₁⟩ := strbufferAppendBytes_holds holds (whitespace.take wsCount)
      obtain ⟨data₂, loops, holds₂⟩ := indents data₁ _ holds₁
      refine ⟨data₂, ?_, by rwa [← List.append_assoc]⟩
      simp only [indentLoop, appends, loops, Option.bind_eq_bind, Option.bind_some]

theorem dumpIndent_indents (flags : DumpFlags) (depth : Nat) (space : Bool) :
    ∃ ws, White ws ∧ Indents (dumpIndent flags depth space) ws := by
  have newline : White (ascii "\n") := white_of_all rfl
  have blank : White (ascii " ") := white_of_all rfl
  unfold dumpIndent
  split_ifs
  · obtain ⟨ws, white, indents⟩ := indentLoop_indents flags.indent.toNat depth
    refine ⟨ascii "\n" ++ ws, newline.append white, fun data before holds => ?_⟩
    obtain ⟨data₁, appends, holds₁⟩ := strbufferAppendBytes_holds holds (ascii "\n")
    obtain ⟨data₂, loops, holds₂⟩ := indents data₁ _ holds₁
    refine ⟨data₂, ?_, by rwa [← List.append_assoc]⟩
    simp only [appends, loops, Option.bind_eq_bind, Option.bind_some]
  · exact ⟨ascii " ", blank, fun data before holds => strbufferAppendBytes_holds holds _⟩
  · refine ⟨[], white_nil, fun data before holds => ⟨data, rfl, ?_⟩⟩
    rwa [List.append_nil]

/-! ### Loops -/

/-- What holds of what a loop writes, by what holds of each element and of the rest. -/
theorem dumpLoop_written {α : Type} (flags : DumpFlags) (depth : Nat) {dumpOne : α → Dumper}
    {One : α → List Byte → Prop} {All : List α → List Byte → Prop}
    (last : ∀ x text ws, One x text → White ws → All [x] (text ++ ws))
    (more : ∀ x text ws rest restText, One x text → White ws → All rest restText →
      All (x :: rest) (text ++ 0x2C :: (ws ++ restText))) (xs : List α)
    (each : ∀ x ∈ xs, ∃ text, Prints (dumpOne x) text ∧ One x text) (some_one : xs ≠ []) :
    ∃ text, Prints (dumpLoop flags depth dumpOne xs) text ∧ All xs text := by
  induction xs with
  | nil => exact absurd rfl some_one
  | cons x rest ih =>
      obtain ⟨text, prints, one⟩ := each x List.mem_cons_self
      cases rest with
      | nil =>
          obtain ⟨ws, white, indents⟩ := dumpIndent_indents flags depth false
          refine ⟨text ++ ws, fun data before holds => ?_, last x text ws one white⟩
          obtain ⟨data₁, first, holds₁⟩ := prints data before holds
          obtain ⟨data₂, second, holds₂⟩ := indents data₁ _ holds₁
          refine ⟨data₂, ?_, by rwa [← List.append_assoc]⟩
          simp only [dumpLoop, first, second, not_true_eq_false, if_false, List.isEmpty_nil, if_true,
            Option.bind_eq_bind, Option.bind_some, Option.pure_def]
      | cons y rest =>
          obtain ⟨restText, printsRest, all⟩ := ih (fun z listed => each z (List.mem_cons_of_mem x listed))
            (List.cons_ne_nil y rest)
          obtain ⟨ws, white, indents⟩ := dumpIndent_indents flags (depth + 1) true
          refine ⟨text ++ 0x2C :: (ws ++ restText), fun data before holds => ?_,
            more x text ws (y :: rest) restText one white all⟩
          obtain ⟨data₁, first, holds₁⟩ := prints data before holds
          obtain ⟨data₂, comma, holds₂⟩ := strbufferAppendBytes_holds holds₁ (ascii ",")
          obtain ⟨data₃, third, holds₃⟩ := indents data₂ _ holds₂
          obtain ⟨data₄, loops, holds₄⟩ := printsRest data₃ _ holds₃
          refine ⟨data₄, ?_, ?_⟩
          · rw [dumpLoop]
            simp only [first, comma, third, loops, not_true_eq_false, if_false, List.isEmpty_cons, Bool.false_eq_true,
              Option.bind_eq_bind, Option.bind_some]
          · have mark : ascii "," = [0x2C] := rfl
            rw [mark] at holds₄
            simpa only [List.append_assoc, List.cons_append, List.nil_append] using holds₄

/-- An empty container, or the white space and the loop between two brackets. -/
theorem dumpContainer_written {α : Type} {flags : DumpFlags} {depth : Nat} (first last : String) {dumpOne : α → Dumper}
    {All : List α → List Byte → Prop} {xs : List α}
    (loop : xs ≠ [] → ∃ text, Prints (dumpLoop flags depth dumpOne xs) text ∧ All xs text) :
    (xs = [] ∧ Prints (dumpContainer flags depth first last dumpOne xs) (ascii first ++ ascii last)) ∨
      ∃ ws text, White ws ∧ All xs text ∧
        Prints (dumpContainer flags depth first last dumpOne xs) (ascii first ++ (ws ++ text) ++ ascii last) := by
  cases xs with
  | nil =>
      refine .inl ⟨rfl, fun data before holds => ?_⟩
      obtain ⟨data₁, opens, holds₁⟩ := strbufferAppendBytes_holds holds (ascii first)
      obtain ⟨data₂, closes, holds₂⟩ := dump_prints (ascii last) data₁ _ holds₁
      refine ⟨data₂, ?_, by rwa [← List.append_assoc]⟩
      simp only [dumpContainer, opens, closes, List.isEmpty_nil, if_true, Option.bind_eq_bind, Option.bind_some]
  | cons x xs =>
      obtain ⟨text, prints, all⟩ := loop (List.cons_ne_nil x xs)
      obtain ⟨ws, white, indents⟩ := dumpIndent_indents flags (depth + 1) false
      refine .inr ⟨ws, text, white, all, fun data before holds => ?_⟩
      obtain ⟨data₁, opens, holds₁⟩ := strbufferAppendBytes_holds holds (ascii first)
      obtain ⟨data₂, second, holds₂⟩ := indents data₁ _ holds₁
      obtain ⟨data₃, loops, holds₃⟩ := prints data₂ _ holds₂
      obtain ⟨data₄, closes, holds₄⟩ := dump_prints (ascii last) data₃ _ holds₃
      refine ⟨data₄, ?_, by simpa only [List.append_assoc] using holds₄⟩
      simp only [dumpContainer, opens, second, loops, closes, List.isEmpty_cons, Bool.false_eq_true, if_false, if_true,
        Option.bind_eq_bind, Option.bind_some]

/-! ### Numbers -/

theorem length_formatD {n : Nat} (k : Nat) (small : n < 10 ^ (k + 1)) : (formatD n).length ≤ k + 1 := by
  induction k generalizing n with
  | zero =>
      rw [formatD_eq, if_pos (by simpa using small)]
      exact Nat.le_refl 1
  | succ k ih =>
      rw [formatD_eq]
      split
      · exact Nat.le_add_left 1 (k + 1)
      · have shorter : n / 10 < 10 ^ (k + 1) := by
          rw [Nat.pow_succ] at small
          exact Nat.div_lt_of_lt_mul (by omega)
        have rest := ih shorter
        rw [List.length_append, List.length_singleton]
        omega

/-- `%d` writes a whole number. -/
theorem integerText_formatInt (value : Int) : IntegerText value (formatInt value) := by
  unfold formatInt
  split
  · rename_i negative
    have number := IntegerText.intro true (formatD_noLeadingZero value.natAbs)
    have same : signed true (decimal (formatD value.natAbs)) = value := by
      rw [decimal_formatD, signed, if_pos rfl]
      omega
    rwa [same] at number
  · rename_i positive
    have number := IntegerText.intro false (formatD_noLeadingZero value.toNat)
    have same : signed false (decimal (formatD value.toNat)) = value := by
      rw [decimal_formatD, signed, if_neg Bool.false_ne_true]
      omega
    rwa [same] at number

/-- The number of an `int` fits in the buffer. -/
theorem length_formatInt {value : Int} (range : InInt value) : (formatInt value).length < maxIntegerStrLength := by
  obtain ⟨low, high⟩ := range
  have limit : intMax = 2147483647 := rfl
  have digits : (formatD value.natAbs).length ≤ 9 + 1 := length_formatD 9 (by omega)
  have digits' : (formatD value.toNat).length ≤ 9 + 1 := length_formatD 9 (by omega)
  unfold formatInt maxIntegerStrLength
  split
  · rw [List.length_cons]
    omega
  · omega

/-- What `%.17g` writes for a finite number: a number of the grammar, with `e` if it has an exponent, that `strtod`
reads as the same number. -/
structure Readable (libc : Libc ρ) (reals : RealFormat ρ) (value : ρ) : Prop where
  number : ∃ whole fraction exponent, reals.format value = whole ++ fraction ++ exponent ∧
    (∃ n, IntegerText n whole) ∧ FractionText fraction ∧ ExponentText exponent
  lower : 0x45 ∉ reals.format value
  short : (reals.format value).length + 2 < maxRealStrLength
  exact : ∀ text, text = reals.format value ∨ text = reals.format value ++ ascii ".0" →
    reals.equal value (libc.strtod text).1 = true ∧ (libc.strtod text).2 = false

theorem strchr_eq_false {s : List Byte} {c : Byte} : strchr s c = false ↔ c ∉ s := by
  simp only [strchr, List.any_eq_false, decide_eq_true_eq]
  exact ⟨fun other listed => other c listed rfl, fun out d listed isC => out (isC ▸ listed)⟩

/-- A dot is there if the number has neither a fraction nor an exponent. -/
theorem realText_readable {libc : Libc ρ} {reals : RealFormat ρ} {value : ρ} (readable : Readable libc reals value) :
    ∃ text, realText reals value = some text ∧ RealText text ∧ reals.equal value (libc.strtod text).1 = true ∧
      (libc.strtod text).2 = false := by
  obtain ⟨whole, fraction, exponent, split, ⟨n, integer⟩, isFraction, isExponent⟩ := readable.number
  have short := readable.short
  unfold realText
  simp only
  rw [if_neg (by omega)]
  split_ifs with plain long
  · omega
  · -- neither a fraction nor an exponent can be empty of its mark
    obtain ⟨noDot, noE⟩ := plain
    rw [Bool.not_eq_true, strchr_eq_false, split] at noDot noE
    have lower := readable.lower
    rw [split] at lower
    simp only [List.mem_append, not_or] at noDot noE lower
    obtain rfl : fraction = [] := by
      cases isFraction with
      | none => rfl
      | digits _ => exact absurd List.mem_cons_self noDot.1.2
    obtain rfl : exponent = [] := by
      cases isExponent with
      | none => rfl
      | digits isE _ _ =>
          rcases isE with rfl | rfl
          · exact absurd List.mem_cons_self lower.2
          · exact absurd List.mem_cons_self noE.2
    refine ⟨_, rfl, ?_, readable.exact _ (.inr rfl)⟩
    have zero : Decimals [0x30] := ⟨List.cons_ne_nil _ _, by decide⟩
    have number := RealText.intro integer (.digits zero) .none (by simp)
    have dot : ascii ".0" = [0x2E, 0x30] := by decide
    rw [split, dot]
    simpa only [List.append_nil] using number
  · refine ⟨_, rfl, ?_, readable.exact _ (.inl rfl)⟩
    rw [split]
    refine .intro integer isFraction isExponent fun nothing => plain ?_
    obtain ⟨rfl, rfl⟩ := List.append_eq_nil_iff.mp nothing
    have digits : ∀ c ∈ whole, c ≠ 0x2E ∧ c ≠ 0x65 := by
      cases integer with
      | @intro negative digits number =>
          have decimal : ∀ c : Byte, isDecimal c = true → c ≠ 0x2E ∧ c ≠ 0x65 := by decide
          intro c listed
          rcases List.mem_append.mp listed with sign | digit
          · cases negative with
            | true => rw [List.mem_singleton.mp sign]; decide
            | false => exact absurd sign List.not_mem_nil
          · exact decimal c (number.decimals.digit c digit)
    rw [split, List.append_nil, List.append_nil, Bool.not_eq_true, Bool.not_eq_true, strchr_eq_false, strchr_eq_false]
    exact ⟨fun listed => (digits _ listed).1 rfl, fun listed => (digits _ listed).2 rfl⟩

/-! ### Texts -/

/-- The text is in UTF-8 without a NUL, and in ASCII if that is asked for. -/
structure Clean (flags : DumpFlags) (text : List Byte) : Prop where
  chars : Chars text
  small : flags.ensureAscii = true → ∀ c ∈ text, c.toNat < 0x80

theorem Clean.append {flags : DumpFlags} {a b : List Byte} (first : Clean flags a) (second : Clean flags b) :
    Clean flags (a ++ b) where
  chars := by
    refine ⟨first.chars.valid.append second.chars.valid, ?_⟩
    rw [List.mem_append, not_or]
    exact ⟨first.chars.noNul, second.chars.noNul⟩
  small := fun isAscii c listed =>
    (List.mem_append.mp listed).elim (first.small isAscii c) (second.small isAscii c)

theorem clean_ascii (flags : DumpFlags) {text : List Byte} (small : ∀ c ∈ text, c.toNat < 0x80) (noNul : 0 ∉ text) :
    Clean flags text :=
  ⟨⟨valid_ascii small, noNul⟩, fun _ => small⟩

theorem Clean.cons {flags : DumpFlags} {text : List Byte} (clean : Clean flags text) {c : Byte} (small : c.toNat < 0x80)
    (notNul : c ≠ 0) : Clean flags (c :: text) := by
  have first : Clean flags [c] := by
    refine clean_ascii flags (fun d listed => ?_) ?_
    · rwa [List.mem_singleton.mp listed]
    · rw [List.mem_singleton]
      exact notNul.symm
  exact first.append clean

theorem White.noNul {ws : List Byte} (white : White ws) : 0 ∉ ws := fun listed => absurd (white 0 listed) (by decide)

theorem White.clean {ws : List Byte} (white : White ws) (flags : DumpFlags) : Clean flags ws :=
  clean_ascii flags white.ascii white.noNul

theorem clean_nil (flags : DumpFlags) : Clean flags [] := white_nil.clean flags

theorem Decimals.clean {digits : List Byte} (decimals : Decimals digits) (flags : DumpFlags) : Clean flags digits := by
  have digit : ∀ c : Byte, isDecimal c = true → c.toNat < 0x80 ∧ c ≠ 0 := by decide
  refine clean_ascii flags (fun c listed => (digit c (decimals.digit c listed)).1) fun listed => ?_
  exact (digit 0 (decimals.digit 0 listed)).2 rfl

theorem IntegerText.clean {value : Int} {text : List Byte} (integer : IntegerText value text) (flags : DumpFlags) :
    Clean flags text := by
  cases integer with
  | @intro negative digits number =>
      refine Clean.append ?_ (number.decimals.clean flags)
      cases negative with
      | true => exact (clean_nil flags).cons (by decide) (by decide)
      | false => exact clean_nil flags

theorem RealText.clean {text : List Byte} (real : RealText text) (flags : DumpFlags) : Clean flags text := by
  cases real with
  | intro integer fraction exponent _ =>
      refine ((integer.clean flags).append ?_).append ?_
      · cases fraction with
        | none => exact clean_nil flags
        | digits decimals => exact (decimals.clean flags).cons (by decide) (by decide)
      · cases exponent with
        | none => exact clean_nil flags
        | @digits e sign digits isE listed decimals =>
            have signClean : Clean flags sign := by
              simp only [List.mem_cons, List.not_mem_nil, or_false] at listed
              rcases listed with rfl | rfl | rfl
              · exact clean_nil flags
              · exact (clean_nil flags).cons (by decide) (by decide)
              · exact (clean_nil flags).cons (by decide) (by decide)
            refine (signClean.append (decimals.clean flags)).cons ?_ ?_
            · rcases isE with rfl | rfl <;> decide
            · rcases isE with rfl | rfl <;> decide

theorem format04x_noNul {n : Nat} (small : n < 0x10000) : 0 ∉ format04x n := fun listed =>
  absurd ((format04x_digits small).1.digit 0 listed) (by decide)

theorem escapeText_noNul {codepoint : Nat} (unicode : codepoint < 0x110000) : 0 ∉ escapeText codepoint := by
  have mark : 0 ∉ ascii "\\u" := by decide
  unfold escapeText
  split_ifs with _ _ _ _ _ _ _ bmp
  any_goals decide
  · rw [List.mem_append, not_or]
    exact ⟨mark, format04x_noNul bmp⟩
  · have small : codepoint - 0x10000 < 0x100000 := by omega
    obtain ⟨first, last⟩ := surrogates small
    simp only [first, last, List.mem_append, not_or]
    exact ⟨⟨⟨mark, format04x_noNul (by omega)⟩, mark⟩, format04x_noNul (by omega)⟩

/-- A string between its quotes. -/
theorem clean_stringText (flags : DumpFlags) {cs : List Char} (noNul : 0 ∉ encodeAll cs) :
    Clean flags (stringText (charsText flags.ensureAscii cs)) := by
  have inside : Clean flags (charsText flags.ensureAscii cs) := by
    refine ⟨⟨valid_charsText _ cs, fun listed => ?_⟩, fun isAscii => ?_⟩
    · obtain ⟨c, inString, written⟩ := List.mem_flatMap.mp listed
      rw [charText] at written
      split at written
      · exact escapeText_noNul (toNat_lt c) written
      · exact noNul (List.mem_flatMap.mpr ⟨c, inString, written⟩)
    · rw [isAscii]
      exact ascii_charsText cs
  exact (inside.append ((clean_nil flags).cons (by decide) (by decide))).cons (by decide) (by decide)

end CpuMiner.Jansson
