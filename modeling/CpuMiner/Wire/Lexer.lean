/-
Module: CpuMiner.Wire.Lexer
Layer: JSON
Purpose: The lexer of load.c, character by character as it is there. An assertion that does not hold, a read or a write
  outside a block and a loop that is not done in time are `none`; there is none of these for any string
  (`CpuMiner.Wire.Load`).
Imports: CpuMiner.Wire.Stream, CpuMiner.Miner.LongpollUrl, CpuMiner.Miner.Options
Trusted boundary: human-reviewed spec (the transcription of the C code; `strtol` and `errno` from the C standard)
Main exports: Libc, Token, Lex, lexGetSave, lexUngetUnsave, scanStringText, scanStringValue, lexScanString,
  lexScanNumber, lexScan, lexInit
Open obligations: none
-/
import CpuMiner.Wire.Stream
import CpuMiner.Miner.LongpollUrl
import CpuMiner.Miner.Options

namespace CpuMiner.Jansson

open Words

/-- What the C library does with numbers: the largest `long`, and `strtod`, which says whether it sets `errno` to
    `ERANGE`. It reads the whole of a number. -/
structure Libc (ρ : Type) where
  longMax : Nat
  strtod : List Byte → ρ × Bool
  isZero : ρ → Bool
  intMax_le : intMax ≤ longMax

theorem intMax_le_longMax : intMax ≤ 0x7FFFFFFFFFFFFFFF := by decide

/-- The token, with `lex->value`. -/
inductive Token (ρ : Type) where
  | invalid
  | eof
  | char (c : Byte)
  | string (value : List Byte)
  | integer (value : Int)
  | real (value : ρ)
  | true
  | false
  | null
deriving DecidableEq

/-- `lex_t`, with `*error`, and whether `errno` is `ERANGE`. -/
structure Lex (ρ : Type) where
  stream : Stream
  savedText : Strbuffer
  token : Token ρ
  line : Int
  error : JsonError
  errno : Bool
deriving DecidableEq

variable {ρ : Type}

def quote : Byte := 0x22

def backslash : Byte := 0x5C

/-- `isdigit` in the C locale. -/
def isDecimal (c : Byte) : Bool := 0x30 ≤ c && c ≤ 0x39

/-- `error_set(error, lex, ..)` -/
def lexError (lex : Lex ρ) (msg : List Byte) : Option (Lex ρ) := do
  let error ← errorSet lex.error (some (lex.line, lex.savedText)) msg
  return { lex with error := error }

/-- `lex_get` -/
def lexGet (lex : Lex ρ) : Option (Byte × Lex ρ) := do
  let (c, stream, error) ← streamGet lex.stream lex.error
  return (c, { lex with stream := stream, error := error })

/-- `lex_eof` -/
def lexEof (lex : Lex ρ) : Bool := lex.stream.data.isEmpty

/-- `lex_save` -/
def lexSave (lex : Lex ρ) (c : Byte) : Option (Lex ρ) := do
  let savedText ← strbufferAppendByte lex.savedText c
  return { lex with savedText := savedText }

/-- `lex_get_save` -/
def lexGetSave (lex : Lex ρ) : Option (Byte × Lex ρ) := do
  let (c, lex) ← lexGet lex
  let lex ← lexSave lex c
  return (c, lex)

/-- `lex_unget_unsave` -/
def lexUngetUnsave (lex : Lex ρ) (c : Byte) : Option (Lex ρ) := do
  let stream ← streamUnget lex.stream c
  let (d, savedText) ← strbufferPop lex.savedText
  if c = d then some { lex with stream := stream, savedText := savedText } else none

/-- `lex_save_cached`, for as many characters as fit in the buffer. -/
def lexSaveCached : Nat → Lex ρ → Option (Lex ρ)
  | 0, _ => none
  | fuel + 1, lex => do
      let c ← lex.stream.buffer[lex.stream.bufferPos]?
      if c = 0 then some lex
      else
        let lex ← lexSave lex c
        lexSaveCached fuel { lex with stream := { lex.stream with bufferPos := lex.stream.bufferPos + 1 } }

/-- More than the characters that are left. -/
def lexFuel (lex : Lex ρ) : Nat := lex.stream.data.length + 8

/-! ### Strings -/

/-- The loop of `decode_unicode_escape`. A character that is neither a digit nor a letter fails its assertion. -/
def decodeDigits (value : Nat) : Nat → List Byte → Option Nat
  | 0, _ => some value
  | _ + 1, [] => none
  | left + 1, c :: str =>
      if isDecimal c then decodeDigits ((value <<< 4) + (c.toNat - 0x30)) left str
      else if 0x61 ≤ c ∧ c ≤ 0x7A then decodeDigits ((value <<< 4) + (c.toNat - 0x61 + 10)) left str
      else if 0x41 ≤ c ∧ c ≤ 0x5A then decodeDigits ((value <<< 4) + (c.toNat - 0x41 + 10)) left str
      else none

/-- `decode_unicode_escape` -/
def decodeUnicodeEscape (str : List Byte) : Option Nat :=
  if str.headD 0 = 0x75 then decodeDigits 0 4 str.tail else none

/-- Four digits behind `\u`: the next character, unless one of them is no digit. -/
def scanHexDigits : Nat → Byte → Lex ρ → Option (Option Byte × Lex ρ)
  | 0, c, lex => some (some c, lex)
  | left + 1, c, lex =>
      if Hex.isDigit c then do
        let (c, lex) ← lexGetSave lex
        scanHexDigits left c lex
      else do
        let lex ← lexUngetUnsave lex c
        let lex ← lexError lex (ascii "invalid escape")
        return (none, lex)

/-- The first loop of `lex_scan_string`: whether it comes to the closing quote. -/
def scanStringText : Nat → Byte → Lex ρ → Option (Bool × Lex ρ)
  | 0, _, _ => none
  | fuel + 1, c, lex =>
      if c = quote then some (true, lex)
      else if c = eof then do
        let lex ← lexUngetUnsave lex c
        let lex ← if lexEof lex then lexError lex (ascii "premature end of input") else some lex
        return (false, lex)
      else if c ≤ 0x1F then do
        let lex ← lexUngetUnsave lex c
        let lex ← lexError lex
          (if c = 0x0A then ascii "unexpected newline" else ascii "control character 0x" ++ formatX c.toNat)
        return (false, lex)
      else if c = backslash then do
        let (c, lex) ← lexGetSave lex
        if c = 0x75 then
          let (c, lex) ← lexGetSave lex
          let (next, lex) ← scanHexDigits 4 c lex
          match next with
          | some c => scanStringText fuel c lex
          | none => some (false, lex)
        else if c = 0x22 ∨ c = 0x5C ∨ c = 0x2F ∨ c = 0x62 ∨ c = 0x66 ∨ c = 0x6E ∨ c = 0x72 ∨ c = 0x74 then
          let (c, lex) ← lexGetSave lex
          scanStringText fuel c lex
        else
          let lex ← lexUngetUnsave lex c
          let lex ← lexError lex (ascii "invalid escape")
          return (false, lex)
      else do
        let (c, lex) ← lexGetSave lex
        scanStringText fuel c lex

/-- The number behind a `\u`, which `p` points to, and where it ends; or the message of the error. -/
def scanUnicode (p : List Byte) : Option (Except (List Byte) (Nat × List Byte)) := do
  let value ← decodeUnicodeEscape p
  let p := p.drop 5
  if 0xD800 ≤ value ∧ value ≤ 0xDBFF then
    if p.headD 0 = backslash ∧ p.tail.headD 0 = 0x75 then
      let p := p.tail
      let value2 ← decodeUnicodeEscape p
      let p := p.drop 5
      if 0xDC00 ≤ value2 ∧ value2 ≤ 0xDFFF then
        return .ok (((value - 0xD800) <<< 10) + (value2 - 0xDC00) + 0x10000, p)
      else
        return .error (ascii "invalid Unicode '\\u" ++ format04X value ++ ascii "\\u" ++ format04X value2 ++ ascii "'")
    else return .error (ascii "invalid Unicode '\\u" ++ format04X value ++ ascii "'")
  else if 0xDC00 ≤ value ∧ value ≤ 0xDFFF then
    return .error (ascii "invalid Unicode '\\u" ++ format04X value ++ ascii "'")
  else if value = 0 then return .error (ascii "\\u0000 is not allowed")
  else return .ok (value, p)

/-- The switch over the character behind a backslash. -/
def simpleEscape (c : Byte) : Option Byte :=
  if c = 0x22 ∨ c = 0x5C ∨ c = 0x2F then some c
  else if c = 0x62 then some 0x08
  else if c = 0x66 then some 0x0C
  else if c = 0x6E then some 0x0A
  else if c = 0x72 then some 0x0D
  else if c = 0x74 then some 0x09
  else none

/-- The bytes are written behind those that are in the block of this size. -/
def put (size : Nat) (t bytes : List Byte) : Option (List Byte) :=
  if t.length + bytes.length ≤ size then some (t ++ bytes) else none

/-- The second loop of `lex_scan_string`, which writes to a block of this size: the value, or the message of an
    error. -/
def scanStringValue (size : Nat) : Nat → List Byte → List Byte → Option (Except (List Byte) (List Byte))
  | 0, _, _ => none
  | _ + 1, [], _ => none
  | fuel + 1, c :: p, t =>
      if c = quote then (put size t [0]).map fun _ => .ok t
      else if c = backslash then
        if p.headD 0 = 0x75 then do
          match ← scanUnicode p with
          | .error msg => return .error msg
          | .ok (value, p) =>
              let buffer ← utf8Encode value
              let t ← put size t buffer
              scanStringValue size fuel p t
        else do
          let b ← simpleEscape (p.headD 0)
          let t ← put size t [b]
          scanStringValue size fuel p.tail t
      else do
        let t ← put size t [c]
        scanStringValue size fuel p t

/-- `lex_scan_string`. There is memory for the value. -/
def lexScanString (lex : Lex ρ) : Option (Lex ρ) := do
  let fuel := lexFuel lex
  let (c, lex) ← lexGetSave { lex with token := .invalid }
  let (closed, lex) ← scanStringText fuel c lex
  if closed then
    let saved ← cstr lex.savedText.value
    match ← scanStringValue (lex.savedText.length + 1) saved.length saved.tail [] with
    | .error msg => lexError lex msg
    | .ok value => return { lex with token := .string value }
  else return lex

/-! ### Numbers -/

/-- `while(p(c)) c = lex_get_save(lex, error)` -/
def scanWhile (p : Byte → Bool) : Nat → Byte → Lex ρ → Option (Byte × Lex ρ)
  | 0, _, _ => none
  | fuel + 1, c, lex =>
      if p c then do
        let (c, lex) ← lexGetSave lex
        scanWhile p fuel c lex
      else some (c, lex)

/-- The loops over `isdigit`. -/
def scanDecimals (fuel : Nat) (c : Byte) (lex : Lex ρ) : Option (Byte × Lex ρ) := scanWhile isDecimal fuel c lex

/-- Where `strtol(s, &end, 10)` stops. -/
def strtolEnd (s : List Byte) : Nat :=
  let number := s.dropWhile isSpace
  let sign := if number.headD 0 = 0x2D ∨ number.headD 0 = 0x2B then 1 else 0
  let digits := (number.drop sign).takeWhile isDecimal
  if digits = [] then 0 else (s.takeWhile isSpace).length + sign + digits.length

/-- `strtol` sets `errno` to `ERANGE`. -/
def strtolRange (longMax : Nat) (s : List Byte) : Bool :=
  match s.dropWhile isSpace with
  | [] => false
  | c :: rest =>
      if c = 0x2D then decide (longMax + 1 < decimal rest)
      else if c = 0x2B then decide (longMax < decimal rest)
      else decide (longMax < decimal (c :: rest))

/-- The end of `lex_scan_number` for a number without a point and an exponent. -/
def scanInteger (libc : Libc ρ) (lex : Lex ρ) (c : Byte) : Option (Lex ρ) := do
  let lex ← lexUngetUnsave lex c
  let saved ← cstr lex.savedText.value
  let value := strtol libc.longMax saved
  let errno := lex.errno || strtolRange libc.longMax saved
  if strtolEnd saved ≠ lex.savedText.length then none
  else if (value = libc.longMax ∧ errno) ∨ value > intMax then
    lexError { lex with errno := errno } (ascii "too big integer")
  else if (value = -(libc.longMax : Int) - 1 ∧ errno) ∨ value < -(intMax : Int) - 1 then
    lexError { lex with errno := errno } (ascii "too big negative integer")
  else return { lex with token := .integer value, errno := errno }

/-- The end of `lex_scan_number` for the other numbers. -/
def scanReal (libc : Libc ρ) (lex : Lex ρ) (c : Byte) : Option (Lex ρ) := do
  let lex ← lexUngetUnsave lex c
  let saved ← cstr lex.savedText.value
  let (value, range) := libc.strtod saved
  let errno := lex.errno || range
  if errno ∧ ¬ libc.isZero value then lexError { lex with errno := errno } (ascii "real number overflow")
  else return { lex with token := .real value, errno := errno }

/-- `lex_scan_number` from the exponent on. -/
def scanExponent (libc : Libc ρ) (lex : Lex ρ) (c : Byte) : Option (Lex ρ) :=
  if c = 0x45 ∨ c = 0x65 then do
    let (c, lex) ← lexGetSave lex
    let (c, lex) ← if c = 0x2B ∨ c = 0x2D then lexGetSave lex else some (c, lex)
    if isDecimal c then
      let (c, lex) ← lexGetSave lex
      let (c, lex) ← scanDecimals (lexFuel lex) c lex
      scanReal libc lex c
    else lexUngetUnsave lex c
  else scanReal libc lex c

/-- `lex_scan_number` from the end of the integer part on. -/
def scanFraction (libc : Libc ρ) (lex : Lex ρ) (c : Byte) : Option (Lex ρ) :=
  if c ≠ 0x2E ∧ c ≠ 0x45 ∧ c ≠ 0x65 then scanInteger libc lex c
  else if c = 0x2E then do
    let (c, lex) ← lexGet lex
    if isDecimal c then
      let lex ← lexSave lex c
      let (c, lex) ← lexGetSave lex
      let (c, lex) ← scanDecimals (lexFuel lex) c lex
      scanExponent libc lex c
    else return lex
  else scanExponent libc lex c

/-- `lex_scan_number` -/
def lexScanNumber (libc : Libc ρ) (lex : Lex ρ) (c : Byte) : Option (Lex ρ) := do
  let lex := { lex with token := .invalid }
  let (c, lex) ← if c = 0x2D then lexGetSave lex else some (c, lex)
  if c = 0x30 then
    let (c, lex) ← lexGetSave lex
    if isDecimal c then lexUngetUnsave lex c else scanFraction libc lex c
  else if isDecimal c then
    let (c, lex) ← lexGetSave lex
    let (c, lex) ← scanDecimals (lexFuel lex) c lex
    scanFraction libc lex c
  else lexUngetUnsave lex c

/-! ### Tokens -/

/-- White space is skipped, and its lines are counted. -/
def skipWhite : Nat → Byte → Lex ρ → Option (Byte × Lex ρ)
  | 0, _, _ => none
  | fuel + 1, c, lex =>
      if c = 0x20 ∨ c = 0x09 ∨ c = 0x0A ∨ c = 0x0D then do
        let (c, lex) ← lexGet (if c = 0x0A then { lex with line := lex.line + 1 } else lex)
        skipWhite fuel c lex
      else some (c, lex)

/-- The loop over `isupper(c) || islower(c)`. -/
def scanLetters (fuel : Nat) (c : Byte) (lex : Lex ρ) : Option (Byte × Lex ρ) := scanWhile isAlpha fuel c lex

/-- The token that a word is. -/
def wordToken (word : List Byte) : Token ρ :=
  if word = ascii "true" then .true
  else if word = ascii "false" then .false
  else if word = ascii "null" then .null
  else .invalid

/-- The word that was read. -/
def lexScanWord (lex : Lex ρ) : Option (Lex ρ) := do
  let (c, lex) ← lexGetSave lex
  let (c, lex) ← scanLetters (lexFuel lex) c lex
  let lex ← lexUngetUnsave lex c
  let saved ← cstr lex.savedText.value
  return { lex with token := wordToken saved }

/-- `lex_scan` from the first character on that is no white space. -/
def lexScanToken (libc : Libc ρ) (lex : Lex ρ) (c : Byte) : Option (Lex ρ) :=
  if c = eof then some { lex with token := if lexEof lex then .eof else .invalid }
  else do
    let lex ← lexSave lex c
    if c = 0x7B ∨ c = 0x7D ∨ c = 0x5B ∨ c = 0x5D ∨ c = 0x3A ∨ c = 0x2C then return { lex with token := .char c }
    else if c = quote then lexScanString lex
    else if isDecimal c ∨ c = 0x2D then lexScanNumber libc lex c
    else if isAlpha c then lexScanWord lex
    else
      let lex ← lexSaveCached 5 lex
      return { lex with token := .invalid }

/-- `lex_scan` -/
def lexScan (libc : Libc ρ) (lex : Lex ρ) : Option (Lex ρ) := do
  let savedText ← strbufferClear lex.savedText
  let (c, lex) ← lexGet { lex with savedText := savedText }
  let (c, lex) ← skipWhite (lexFuel lex) c lex
  lexScanToken libc lex c

/-- `lex_init` for `json_loads`. -/
def lexInit (string : List Byte) (errno : Bool) : Option (Lex ρ) := do
  let savedText ← strbufferInit
  return { stream := streamInit string, savedText := savedText, token := .invalid, line := 1, error := errorInit,
           errno := errno }

end CpuMiner.Jansson
