/-
Module: CpuMiner.Wire.Grammar
Layer: JSON
Purpose: The texts that JSON has for values, as a grammar over bytes. A tree is what a text says: its members and
  elements in their order, its strings without escapes, its real numbers as they are written. White space is explicit,
  and there are no tokens: `Text` is all that a reader has to know about the format.
Imports: CpuMiner.Wire.Lexer
Trusted boundary: human-reviewed spec (the grammar)
Main exports: White, StringText, IntegerText, RealText, Tree, ValueText, ElementsText, MembersText, Text, Lexeme,
  RawText
Open obligations: none
-/
import CpuMiner.Wire.Lexer

namespace CpuMiner.Jansson

open Words
open Utf8

variable {ρ : Type}

def isWhite (c : Byte) : Bool := c = 0x20 ∨ c = 0x09 ∨ c = 0x0A ∨ c = 0x0D

/-- White space. -/
def White (ws : List Byte) : Prop := ∀ c ∈ ws, isWhite c = true

/-! ### Strings -/

/-- What a letter behind a backslash stands for. -/
def escapes : List (Byte × Byte) :=
  [(0x22, 0x22), (0x5C, 0x5C), (0x2F, 0x2F), (0x62, 0x08), (0x66, 0x0C), (0x6E, 0x0A), (0x72, 0x0D), (0x74, 0x09)]

/-- The number that hexadecimal digits denote. -/
def hexNumber (digits : List Byte) : Nat := digits.foldl (fun v c => 16 * v + Hex.value c) 0

/-- Four hexadecimal digits. -/
structure FourDigits (digits : List Byte) : Prop where
  length : digits.length = 4
  digit : ∀ c ∈ digits, Hex.isDigit c = true

/-- A character that may stand for itself in a string. -/
structure Plain (c : Byte) : Prop where
  notControl : ¬ c ≤ 0x1F
  notQuote : c ≠ quote
  notBackslash : c ≠ backslash
  notEof : c ≠ eof

/-- The bytes of a string, and how they may be written between the quotes. -/
inductive StringText : List Byte → List Byte → Prop where
  | nil : StringText [] []
  | plain {c : Byte} {value text : List Byte} : Plain c → StringText value text → StringText (c :: value) (c :: text)
  | escape {c b : Byte} {value text : List Byte} : (c, b) ∈ escapes → StringText value text →
      StringText (b :: value) (backslash :: c :: text)
  | unicode {digits value text : List Byte} {c : Char} : FourDigits digits → hexNumber digits = c.toNat →
      c.toNat ≠ 0 → StringText value text →
      StringText (encode c ++ value) (backslash :: 0x75 :: (digits ++ text))
  | pair {high low value text : List Byte} {c : Char} : FourDigits high → FourDigits low →
      0xD800 ≤ hexNumber high → hexNumber high ≤ 0xDBFF → 0xDC00 ≤ hexNumber low → hexNumber low ≤ 0xDFFF →
      c.toNat = 0x10000 + (hexNumber high - 0xD800) * 0x400 + (hexNumber low - 0xDC00) → StringText value text →
      StringText (encode c ++ value) (backslash :: 0x75 :: (high ++ backslash :: 0x75 :: (low ++ text)))

/-! ### Numbers -/

/-- One digit or more. -/
structure Decimals (digits : List Byte) : Prop where
  some : digits ≠ []
  digit : ∀ c ∈ digits, isDecimal c = true

/-- There is no zero in front. -/
structure NoLeadingZero (digits : List Byte) : Prop where
  decimals : Decimals digits
  first : digits.head? = some 0x30 → digits = [0x30]

/-- The sign is there for a negative number. -/
def signText (negative : Bool) : List Byte := if negative then [0x2D] else []

def signed (negative : Bool) (n : Nat) : Int := if negative then -n else n

/-- A whole number. -/
inductive IntegerText : Int → List Byte → Prop where
  | intro (negative : Bool) {digits : List Byte} : NoLeadingZero digits →
      IntegerText (signed negative (decimal digits)) (signText negative ++ digits)

/-- What may be behind the whole part of a number. -/
inductive FractionText : List Byte → Prop where
  | none : FractionText []
  | digits {digits : List Byte} : Decimals digits → FractionText (0x2E :: digits)

inductive ExponentText : List Byte → Prop where
  | none : ExponentText []
  | digits {e : Byte} {sign digits : List Byte} : e = 0x45 ∨ e = 0x65 → sign ∈ [[], [0x2B], [0x2D]] →
      Decimals digits → ExponentText (e :: (sign ++ digits))

/-- A number with a fraction or an exponent. -/
inductive RealText : List Byte → Prop where
  | intro {value : Int} {whole fraction exponent : List Byte} : IntegerText value whole → FractionText fraction →
      ExponentText exponent → fraction ++ exponent ≠ [] → RealText (whole ++ fraction ++ exponent)

/-- The numbers that an `int` can be. -/
def InInt (value : Int) : Prop := -(intMax : Int) - 1 ≤ value ∧ value ≤ intMax

/-! ### Values -/

/-- What a text says. -/
inductive Tree where
  | object (members : List (List Byte × Tree))
  | array (elements : List Tree)
  | string (value : List Byte)
  | integer (value : Int)
  | real (text : List Byte)
  | true
  | false
  | null

def stringText (text : List Byte) : List Byte := quote :: (text ++ [quote])

mutual

/-- The texts of a value. -/
inductive ValueText : Tree → List Byte → Prop where
  | emptyObject {ws : List Byte} : White ws → ValueText (.object []) (0x7B :: (ws ++ [0x7D]))
  | object {members : List (List Byte × Tree)} {text : List Byte} : MembersText members text →
      ValueText (.object members) (0x7B :: (text ++ [0x7D]))
  | emptyArray {ws : List Byte} : White ws → ValueText (.array []) (0x5B :: (ws ++ [0x5D]))
  | array {elements : List Tree} {text : List Byte} : ElementsText elements text →
      ValueText (.array elements) (0x5B :: (text ++ [0x5D]))
  | string {value text : List Byte} : StringText value text → ValueText (.string value) (stringText text)
  | integer {value : Int} {text : List Byte} : IntegerText value text → InInt value → ValueText (.integer value) text
  | real {text : List Byte} : RealText text → ValueText (.real text) text
  | true : ValueText .true (ascii "true")
  | false : ValueText .false (ascii "false")
  | null : ValueText .null (ascii "null")

/-- One element or more, with the white space around them. -/
inductive ElementsText : List Tree → List Byte → Prop where
  | last {before text after : List Byte} {element : Tree} : White before → ValueText element text → White after →
      ElementsText [element] (before ++ text ++ after)
  | more {before text after rest : List Byte} {element : Tree} {elements : List Tree} : White before →
      ValueText element text → White after → ElementsText elements rest →
      ElementsText (element :: elements) (before ++ text ++ after ++ 0x2C :: rest)

/-- One member or more. -/
inductive MembersText : List (List Byte × Tree) → List Byte → Prop where
  | last {key keyText before afterKey beforeText text after : List Byte} {value : Tree} : White before →
      StringText key keyText → White afterKey → White beforeText → ValueText value text → White after →
      MembersText [(key, value)]
        (before ++ stringText keyText ++ afterKey ++ 0x3A :: (beforeText ++ text ++ after))
  | more {key keyText before afterKey beforeText text after rest : List Byte} {value : Tree}
      {members : List (List Byte × Tree)} : White before → StringText key keyText → White afterKey →
      White beforeText → ValueText value text → White after → MembersText members rest →
      MembersText ((key, value) :: members)
        (before ++ stringText keyText ++ afterKey ++ 0x3A :: (beforeText ++ text ++ after ++ 0x2C :: rest))

end

/-- An object or an array. -/
def Tree.container : Tree → Bool
  | .object _ | .array _ => Bool.true
  | _ => Bool.false

/-- The texts of a tree as a whole. -/
inductive Text : Tree → List Byte → Prop where
  | intro {tree : Tree} {before text after : List Byte} : White before → ValueText tree text → White after →
      tree.container = Bool.true → Text tree (before ++ text ++ after)

/-! ### Tokens -/

/-- The characters that are tokens: `{`, `}`, `[`, `]`, `:` and `,`. -/
def punctuation : List Byte := [0x7B, 0x7D, 0x5B, 0x5D, 0x3A, 0x2C]

theorem mem_punctuation {c : Byte} :
    c ∈ punctuation ↔ c = 0x7B ∨ c = 0x7D ∨ c = 0x5B ∨ c = 0x5D ∨ c = 0x3A ∨ c = 0x2C := by
  simp only [punctuation, List.mem_cons, List.not_mem_nil, or_false]

/-- What `errno` is after a whole number, if it is accepted. A `long` at its limit is taken for one beyond it where
    there was an error before. -/
def Libc.integerErrno (libc : Libc ρ) (errno : Bool) (value : Int) : Option Bool :=
  if errno = true ∧ (value = libc.longMax ∨ value = -(libc.longMax : Int) - 1) then none else some errno

/-- What `errno` is after another number, if it is accepted. It is never reset. -/
def Libc.realErrno (libc : Libc ρ) (errno : Bool) (text : List Byte) : Option Bool :=
  let errno := errno || (libc.strtod text).2
  if errno ∧ ¬ libc.isZero (libc.strtod text).1 then none else some errno

/-- How a token may be written, by what `errno` is before it and after it. -/
inductive Lexeme (libc : Libc ρ) : Bool → Bool → Token ρ → List Byte → Prop where
  | char {errno : Bool} {c : Byte} : c ∈ punctuation → Lexeme libc errno errno (.char c) [c]
  | string {errno : Bool} {value text : List Byte} : StringText value text →
      Lexeme libc errno errno (.string value) (stringText text)
  | integer {errno errno' : Bool} {value : Int} {text : List Byte} : IntegerText value text → InInt value →
      libc.integerErrno errno value = some errno' → Lexeme libc errno errno' (.integer value) text
  | real {errno errno' : Bool} {text : List Byte} : RealText text → libc.realErrno errno text = some errno' →
      Lexeme libc errno errno' (.real (libc.strtod text).1) text
  | true {errno : Bool} : Lexeme libc errno errno .true (ascii "true")
  | false {errno : Bool} : Lexeme libc errno errno .false (ascii "false")
  | null {errno : Bool} : Lexeme libc errno errno .null (ascii "null")

/-- What comes behind a number or a word does not go on with it. -/
def Delimited (rest : List Byte) : Prop :=
  isDecimal (rest.headD eof) = false ∧ isAlpha (rest.headD eof) = false ∧ rest.headD eof ≠ 0x2E

/-- The letters of the escapes. -/
def simpleEscapes : List Byte := [0x22, 0x5C, 0x2F, 0x62, 0x66, 0x6E, 0x72, 0x74]

theorem mem_simpleEscapes {c : Byte} :
    c ∈ simpleEscapes ↔
      c = 0x22 ∨ c = 0x5C ∨ c = 0x2F ∨ c = 0x62 ∨ c = 0x66 ∨ c = 0x6E ∨ c = 0x72 ∨ c = 0x74 := by
  simp only [simpleEscapes, List.mem_cons, List.not_mem_nil, or_false]

/-- A string with its escapes as they are. -/
inductive RawText : List Byte → Prop where
  | nil : RawText []
  | plain {c : Byte} {text : List Byte} : Plain c → RawText text → RawText (c :: text)
  | escape {c : Byte} {text : List Byte} : c ∈ simpleEscapes → RawText text → RawText (backslash :: c :: text)
  | unicode {digits text : List Byte} : FourDigits digits → RawText text →
      RawText (backslash :: 0x75 :: (digits ++ text))

theorem StringText.raw {value text : List Byte} (string : StringText value text) : RawText text := by
  induction string with
  | nil => exact .nil
  | plain plain _ ih => exact .plain plain ih
  | @escape c b _ _ listed _ ih =>
      refine .escape ?_ ih
      revert listed
      simp only [escapes, simpleEscapes, List.mem_cons, Prod.mk.injEq, List.not_mem_nil, or_false]
      grind
  | unicode digits _ _ _ ih => exact .unicode digits ih
  | pair high low _ _ _ _ _ _ ih => exact .unicode high (.unicode low ih)

end CpuMiner.Jansson
