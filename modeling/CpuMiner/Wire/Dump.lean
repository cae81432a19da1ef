/-
Module: CpuMiner.Wire.Dump
Layer: JSON
Purpose: dump.c, to a string buffer, and `json_equal`. The outer `none` is what it is in the lexer; `false` is the -1 of
  a function that has written a part. Memory that is asked for is there. Values are trees, so that no container is
  visited again inside itself, and two values are never one in memory. JSON_PRESERVE_ORDER is not modelled.
Imports: CpuMiner.Wire.Load, CpuMiner.Wire.Texts
Trusted boundary: human-reviewed spec (the transcription of the C code)
Main exports: RealFormat, DumpFlags, dumpString, doDump, jsonDumps, jsonEqual, Value.height
Open obligations: none
-/
import CpuMiner.Wire.Load
import CpuMiner.Wire.Texts

namespace CpuMiner.Jansson

open Words

variable {ρ : Type}

/-- What the C library does with real numbers: `%.17g`, and `==`. -/
structure RealFormat (ρ : Type) where
  format : ρ → List Byte
  equal : ρ → ρ → Bool

/-- `flags`: JSON_INDENT(flags), and JSON_COMPACT, JSON_ENSURE_ASCII and JSON_SORT_KEYS. -/
structure DumpFlags where
  indent : Byte
  compact : Bool
  ensureAscii : Bool
  sortKeys : Bool

/-- What a function that dumps does to the buffer, and whether it returns 0. -/
abbrev Dumper := Strbuffer → Option (Bool × Strbuffer)

/-- `dump_to_strbuffer` -/
def dump (buffer : List Byte) : Dumper := fun data => (strbufferAppendBytes data buffer).map fun data => (true, data)

/-! ### White space -/

/-- 256 spaces -/
def whitespace : List Byte := List.replicate 256 0x20

/-- The loop of `dump_indent`. -/
def indentLoop (wsCount : Nat) : Nat → Strbuffer → Option Strbuffer
  | 0, data => some data
  | depth + 1, data => do
      let data ← strbufferAppendBytes data (whitespace.take wsCount)
      indentLoop wsCount depth data

/-- `dump_indent` -/
def dumpIndent (flags : DumpFlags) (depth : Nat) (space : Bool) (data : Strbuffer) : Option Strbuffer :=
  if flags.indent > 0 then do
    let data ← strbufferAppendBytes data (ascii "\n")
    indentLoop flags.indent.toNat depth data
  else if space ∧ ¬ flags.compact then strbufferAppendBytes data (ascii " ")
  else some data

/-! ### Strings -/

/-- `%04x` -/
def format04x (n : Nat) : List Byte :=
  let digits := Nat.toDigits 16 n
  ascii (String.ofList (List.replicate (4 - digits.length) '0' ++ digits))

/-- `text`, for a code point that is not written as it is. -/
def escapeText (codepoint : Nat) : List Byte :=
  if codepoint = 0x5C then ascii "\\\\"
  else if codepoint = 0x22 then ascii "\\\""
  else if codepoint = 0x08 then ascii "\\b"
  else if codepoint = 0x0C then ascii "\\f"
  else if codepoint = 0x0A then ascii "\\n"
  else if codepoint = 0x0D then ascii "\\r"
  else if codepoint = 0x09 then ascii "\\t"
  else if codepoint < 0x10000 then ascii "\\u" ++ format04x codepoint
  else
    let codepoint := codepoint - 0x10000
    let first := 0xD800 ||| ((codepoint &&& 0xFFC00) >>> 10)
    let last := 0xDC00 ||| (codepoint &&& 0x003FF)
    ascii "\\u" ++ format04x first ++ ascii "\\u" ++ format04x last

/-- A mandatory escape or control char, or one that is not ASCII. -/
def mustEscape (ascii : Bool) (codepoint : Nat) : Bool :=
  codepoint = 0x5C ∨ codepoint = 0x22 ∨ codepoint < 0x20 ∨ (ascii = true ∧ codepoint > 0x7F)

/-- The inner loop of `dump_string`: what is before `pos`, and the code point there and what is behind it, unless the
    string ends. Nothing for a character that is not UTF-8. -/
def plainLoop (ascii : Bool) :
    Nat → List Byte → List Byte → Option (Option (List Byte × Option (Nat × List Byte)))
  | _, str, [] => some (some (str, none))
  | 0, _, _ :: _ => none
  | fuel + 1, str, c :: pos =>
      match utf8Iterate (c :: pos) with
      | none => some none
      | some (codepoint, rest) =>
          if mustEscape ascii codepoint then some (some (str, some (codepoint, rest)))
          else plainLoop ascii fuel (str ++ (c :: pos).take ((c :: pos).length - rest.length)) rest

/-- The loop of `dump_string`. -/
def stringLoop (ascii : Bool) : Nat → List Byte → Dumper
  | 0, _, _ => none
  | fuel + 1, str, data => do
      match ← plainLoop ascii str.length [] str with
      | none => return (false, data)
      | some (plain, stop) =>
          let data ← (if plain.isEmpty then some data else strbufferAppendBytes data plain)
          match stop with
          | none => dump [quote] data
          | some (codepoint, rest) =>
              let data ← strbufferAppendBytes data (escapeText codepoint)
              stringLoop ascii fuel rest data

/-- `dump_string` -/
def dumpString (ascii : Bool) (str : List Byte) : Dumper := fun data => do
  let data ← strbufferAppendBytes data [quote]
  stringLoop ascii (str.length + 1) str data

/-! ### Numbers -/

/-- `%d` -/
def formatInt (value : Int) : List Byte := if value < 0 then 0x2D :: formatD value.natAbs else formatD value.toNat

def maxIntegerStrLength : Nat := 100

def maxRealStrLength : Nat := 100

/-- `strchr` finds the character. -/
def strchr (s : List Byte) (c : Byte) : Bool := s.any fun d => d = c

/-- What is written for a real number. -/
def realText (reals : RealFormat ρ) (value : ρ) : Option (List Byte) :=
  let buffer := reals.format value
  if buffer.length ≥ maxRealStrLength then none
  else if ¬ strchr buffer 0x2E ∧ ¬ strchr buffer 0x65 then
    if buffer.length + 2 ≥ maxRealStrLength then none else some (buffer ++ ascii ".0")
  else some buffer

/-! ### Values -/

/-- The sign of `strcmp`. -/
def strcmp : List Byte → List Byte → Int
  | [], [] => 0
  | [], _ :: _ => -1
  | _ :: _, [] => 1
  | c :: s, d :: t => if c < d then -1 else if d < c then 1 else strcmp s t

/-- The members in the order in which they are dumped. With JSON_SORT_KEYS each is looked up by its key. -/
def members (flags : DumpFlags) (object : Table (List Byte) (Value ρ)) : Option (List (List Byte × Value ρ)) :=
  if flags.sortKeys then
    let keys := (object.pairs.map Prod.fst).mergeSort fun key key' => strcmp key key' ≤ 0
    keys.mapM fun key => (object.get key).map fun value => (key, value)
  else some object.pairs

/-- The loop over an array or an object, with commas and white space between what is dumped. -/
def dumpLoop {α : Type} (flags : DumpFlags) (depth : Nat) (dumpOne : α → Dumper) : List α → Dumper
  | [], data => some (true, data)
  | element :: rest, data => do
      let (ok, data) ← dumpOne element data
      if ¬ ok then return (false, data)
      else if rest.isEmpty then
        let data ← dumpIndent flags depth false data
        return (true, data)
      else
        let data ← strbufferAppendBytes data (ascii ",")
        let data ← dumpIndent flags (depth + 1) true data
        dumpLoop flags depth dumpOne rest data

/-- An array or an object. -/
def dumpContainer {α : Type} (flags : DumpFlags) (depth : Nat) (first last : String) (dumpOne : α → Dumper)
    (elements : List α) : Dumper := fun data => do
  let data ← strbufferAppendBytes data (ascii first)
  if elements.isEmpty then dump (ascii last) data
  else
    let data ← dumpIndent flags (depth + 1) false data
    let (ok, data) ← dumpLoop flags depth dumpOne elements data
    if ok then dump (ascii last) data else return (false, data)

/-- A member of an object. What `dump_string` returns for the key is not looked at. -/
def dumpMember (flags : DumpFlags) (dumpValue : Value ρ → Dumper) (member : List Byte × Value ρ) : Dumper :=
  fun data => do
    let (_, data) ← dumpString flags.ensureAscii member.1 data
    let data ← strbufferAppendBytes data (ascii (if flags.compact then ":" else ": "))
    dumpValue member.2 data

/-- `do_dump`, for a value that is not nested more deeply than the fuel. -/
def doDump (reals : RealFormat ρ) (flags : DumpFlags) : Nat → Value ρ → Nat → Dumper
  | 0, _, _, _ => none
  | fuel + 1, json, depth, data =>
      match json with
      | .null => dump (ascii "null") data
      | .true => dump (ascii "true") data
      | .false => dump (ascii "false") data
      | .integer value =>
          let buffer := formatInt value
          if buffer.length ≥ maxIntegerStrLength then some (false, data) else dump buffer data
      | .real value =>
          match realText reals value with
          | none => some (false, data)
          | some buffer => dump buffer data
      | .string value => dumpString flags.ensureAscii value data
      | .array table =>
          dumpContainer flags depth "[" "]" (fun element => doDump reals flags fuel element (depth + 1)) table data
      | .object hashtable => do
          let members ← members flags hashtable
          dumpContainer flags depth "\x7b" "\x7d"
            (dumpMember flags fun value => doDump reals flags fuel value (depth + 1)) members data

mutual

/-- How deeply a value is nested. -/
def Value.height : Value ρ → Nat
  | .object hashtable => tableHeight hashtable + 1
  | .array table => elementsHeight table + 1
  | .string _ | .integer _ | .real _ | .true | .false | .null => 0

def tableHeight : Table (List Byte) (Value ρ) → Nat
  | ⟨_, pairs⟩ => pairsHeight pairs

def pairsHeight : List (List Byte × Value ρ) → Nat
  | [] => 0
  | pair :: pairs => max (pairHeight pair) (pairsHeight pairs)

def pairHeight : List Byte × Value ρ → Nat
  | (_, value) => value.height

def elementsHeight : List (Value ρ) → Nat
  | [] => 0
  | element :: elements => max element.height (elementsHeight elements)

end

/-- `json_is_array(json) || json_is_object(json)` -/
def Value.isContainer : Value ρ → Bool
  | .object _ | .array _ => Bool.true
  | _ => Bool.false

/-- `json_dumps`, when memory that is asked for is there, the stack is deep enough for the nesting of the value, and the
    text has fewer than 2^30 bytes. -/
def jsonDumps (reals : RealFormat ρ) (flags : DumpFlags) (json : Value ρ) : Option (Option (List Byte)) :=
  if json.isContainer then do
    let strbuff ← strbufferInit
    let (ok, strbuff) ← doDump reals flags (json.height + 1) json 0 strbuff
    if ok then (cstr strbuff.value).map some else return none
  else some none

/-! ### Equality -/

mutual

/-- `json_equal`, for two values that are there. -/
def jsonEqual (reals : RealFormat ρ) : Value ρ → Value ρ → Bool
  | .object object1, json2 =>
      match json2 with
      | .object object2 => jsonObjectEqual reals object1 object2
      | _ => Bool.false
  | .array array1, json2 =>
      match json2 with
      | .array array2 => array1.length = array2.length && jsonArrayEqual reals array1 array2
      | _ => Bool.false
  | .string value1, json2 =>
      match json2 with
      | .string value2 => value1 = value2
      | _ => Bool.false
  | .integer value1, json2 =>
      match json2 with
      | .integer value2 => value1 = value2
      | _ => Bool.false
  | .real value1, json2 =>
      match json2 with
      | .real value2 => reals.equal value1 value2
      | _ => Bool.false
  | .true, json2 =>
      match json2 with
      | .true => Bool.true
      | _ => Bool.false
  | .false, json2 =>
      match json2 with
      | .false => Bool.true
      | _ => Bool.false
  | .null, json2 =>
      match json2 with
      | .null => Bool.true
      | _ => Bool.false
termination_by structural json1 => json1

/-- `json_object_equal` -/
def jsonObjectEqual (reals : RealFormat ρ) : Table (List Byte) (Value ρ) → Table (List Byte) (Value ρ) → Bool
  | ⟨_, pairs⟩, object2 => pairs.length = object2.pairs.length && membersEqual reals pairs object2
termination_by structural object1 => object1

/-- The loop of `json_object_equal`. -/
def membersEqual (reals : RealFormat ρ) : List (List Byte × Value ρ) → Table (List Byte) (Value ρ) → Bool
  | [], _ => Bool.true
  | iter :: pairs, object2 => memberEqual reals iter object2 && membersEqual reals pairs object2
termination_by structural pairs => pairs

def memberEqual (reals : RealFormat ρ) : List Byte × Value ρ → Table (List Byte) (Value ρ) → Bool
  | (key, value1), object2 =>
      match object2.get key with
      | none => Bool.false
      | some value2 => jsonEqual reals value1 value2
termination_by structural iter => iter

/-- The loop of `json_array_equal`. -/
def jsonArrayEqual (reals : RealFormat ρ) : List (Value ρ) → List (Value ρ) → Bool
  | [], _ => Bool.true
  | value1 :: array1, array2 =>
      match array2 with
      | [] => Bool.false
      | value2 :: array2 => jsonEqual reals value1 value2 && jsonArrayEqual reals array1 array2
termination_by structural array1 => array1

end

end CpuMiner.Jansson
