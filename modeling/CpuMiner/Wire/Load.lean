/-
Module: CpuMiner.Wire.Load
Layer: JSON
Purpose: The parser of load.c over the lexer, and `json_loads`. A parser says `none` in the place of `NULL`, and the
  outer `none` is what it is in the lexer. Reference counts are not modelled: an object owns its members, and an array
  its elements.
Imports: CpuMiner.Wire.Lexer, CpuMiner.Wire.Table
Trusted boundary: human-reviewed spec (the transcription of the C code)
Main exports: Value, parseValue, parseObject, parseMembers, parseArray, parseElements, parseJson, jsonLoads
Open obligations: none
-/
import CpuMiner.Wire.Lexer
import CpuMiner.Wire.Table

namespace CpuMiner.Jansson

open Words

variable {ρ : Type}

/-- `json_t` -/
inductive Value (ρ : Type) where
  | object (hashtable : Table (List Byte) (Value ρ))
  | array (table : List (Value ρ))
  | string (value : List Byte)
  | integer (value : Int)
  | real (value : ρ)
  | true
  | false
  | null

/-- The token is this character. -/
def Token.isChar : Token ρ → Byte → Bool
  | .char c, d => c = d
  | _, _ => Bool.false

/-- `while(lex->token)` -/
def Token.isEof : Token ρ → Bool
  | .eof => Bool.true
  | _ => Bool.false

/-- `error_set`, and `NULL`. -/
def parseError (lex : Lex ρ) (msg : String) : Option (Option (Value ρ) × Lex ρ) := do
  let lex ← lexError lex (ascii msg)
  return (none, lex)

mutual

/-- `parse_value` -/
def parseValue (libc : Libc ρ) : Nat → Lex ρ → Option (Option (Value ρ) × Lex ρ)
  | 0, _ => none
  | fuel + 1, lex =>
      match lex.token with
      | .string value => some (some (.string value), lex)
      | .integer value => some (some (.integer value), lex)
      | .real value => some (some (.real value), lex)
      | .true => some (some .true, lex)
      | .false => some (some .false, lex)
      | .null => some (some .null, lex)
      | .char c =>
          if c = 0x7B then parseObject libc fuel lex
          else if c = 0x5B then parseArray libc fuel lex
          else parseError lex "unexpected token"
      | .invalid => parseError lex "invalid token"
      | .eof => parseError lex "unexpected token"

/-- `parse_object` -/
def parseObject (libc : Libc ρ) : Nat → Lex ρ → Option (Option (Value ρ) × Lex ρ)
  | 0, _ => none
  | fuel + 1, lex => do
      let lex ← lexScan libc lex
      if lex.token.isChar 0x7D then return (some (.object .empty), lex)
      else parseMembers libc fuel .empty lex

/-- The loop of `parse_object`. -/
def parseMembers (libc : Libc ρ) :
    Nat → Table (List Byte) (Value ρ) → Lex ρ → Option (Option (Value ρ) × Lex ρ)
  | 0, _, _ => none
  | fuel + 1, object, lex =>
      match lex.token with
      | .string key => do
          let lex ← lexScan libc lex
          if lex.token.isChar 0x3A then
            let lex ← lexScan libc lex
            let (value, lex) ← parseValue libc fuel lex
            match value with
            | none => return (none, lex)
            | some value =>
                let object := object.set hashKey key value
                let lex ← lexScan libc lex
                if lex.token.isChar 0x2C then
                  let lex ← lexScan libc lex
                  parseMembers libc fuel object lex
                else if lex.token.isChar 0x7D then return (some (.object object), lex)
                else parseError lex "'\x7d' expected"
          else parseError lex "':' expected"
      | _ => parseError lex "string or '\x7d' expected"

/-- `parse_array` -/
def parseArray (libc : Libc ρ) : Nat → Lex ρ → Option (Option (Value ρ) × Lex ρ)
  | 0, _ => none
  | fuel + 1, lex => do
      let lex ← lexScan libc lex
      if lex.token.isChar 0x5D then return (some (.array []), lex)
      else parseElements libc fuel [] lex

/-- The loop of `parse_array`. -/
def parseElements (libc : Libc ρ) : Nat → List (Value ρ) → Lex ρ → Option (Option (Value ρ) × Lex ρ)
  | 0, _, _ => none
  | fuel + 1, array, lex =>
      if lex.token.isEof then parseError lex "']' expected"
      else do
        let (elem, lex) ← parseValue libc fuel lex
        match elem with
        | none => return (none, lex)
        | some elem =>
            let array := array ++ [elem]
            let lex ← lexScan libc lex
            if lex.token.isChar 0x2C then
              let lex ← lexScan libc lex
              parseElements libc fuel array lex
            else if lex.token.isChar 0x5D then return (some (.array array), lex)
            else parseError lex "']' expected"

end

/-- `parse_json` -/
def parseJson (libc : Libc ρ) (fuel : Nat) (lex : Lex ρ) : Option (Option (Value ρ) × Lex ρ) := do
  let lex ← lexScan libc { lex with error := errorInit }
  if lex.token.isChar 0x5B ∨ lex.token.isChar 0x7B then parseValue libc fuel lex
  else parseError lex "'[' or '\x7b' expected"

/-- What `json_loads` returns, `*error`, and `errno`. -/
structure Loaded (ρ : Type) where
  result : Option (Value ρ)
  error : JsonError
  errno : Bool

/-- `json_loads`, from where `errno` may have been set before. Memory that is asked for is there, the stack is deep
    enough for the nesting of the string, and no `int` that counts bytes or lines overflows, as none does on a string
    of fewer than 2^30 bytes. -/
def jsonLoads (libc : Libc ρ) (string : List Byte) (errno : Bool) : Option (Loaded ρ) := do
  let lex ← lexInit string errno
  let (result, lex) ← parseJson libc (3 * string.length + 8) lex
  match result with
  | none => return { result := none, error := lex.error, errno := lex.errno }
  | some value =>
      let lex ← lexScan libc lex
      if lex.token.isEof then return { result := some value, error := lex.error, errno := lex.errno }
      else
        let lex ← lexError lex (ascii "end of file expected")
        return { result := none, error := lex.error, errno := lex.errno }

end CpuMiner.Jansson
