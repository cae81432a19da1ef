/-
Module: CpuMiner.Util.Hex
Layer: Utilities
Purpose: `bin2hex` and `hex2bin` of util.c. A C string is the list of its bytes before the terminating NUL. The
  encoder counts with an `int`, so it is defined for at most 2^30 bytes (`bin2hex_eq`). The decoder reads two
  characters at a time with `sscanf("%x")`, which takes more than two digits can say: white space, a sign, one digit
  alone. `hex2bin_digits` says what it does with a string of digits. `hex_inverse_iff` puts the two together.
Imports: CpuMiner.Lib.Hex
Trusted boundary: human-reviewed spec (the transcription of the C code, and of `sscanf` from the C standard)
Main exports: CString, bin2hex, sscanfX, HexError, hex2bin, bin2hex_eq, hex2bin_digits, hex2bin_length,
  hex2bin_bin2hex, length_of_hex2bin, RoundTrips, WrittenBack, hex_inverse_iff
Open obligations: none
-/
import CpuMiner.Lib.Hex

namespace CpuMiner

open Words

/-- A NUL-terminated string. -/
structure CString where
  bytes : List Byte
  noNul : 0 ∉ bytes

def intMax : Nat := 0x7fffffff

/-- The loop of `bin2hex`, from index `i` on. The index is an `int`, and `s + (i * 2)` is not defined when `i * 2`
    overflows; this is `none`. -/
def bin2hexFrom (i : Nat) : List Byte → Option (List Byte)
  | [] => some []
  | b :: bytes => if i * 2 ≤ intMax then (bin2hexFrom (i + 1) bytes).map (Hex.pair b ++ ·) else none

/-- `bin2hex`: no string when `malloc` fails, or when the index overflows. Every `sprintf` writes a NUL behind its
    digits; without a byte there is none, and the memory that `malloc` gave is no string. -/
def bin2hex (malloc : Bool) (p : List Byte) : Option (List Byte) :=
  if malloc && !p.isEmpty then bin2hexFrom 0 p else none

/-! ### `sscanf(s, "%x", &v)` -/

/-- `isspace` in the C locale. -/
def isSpace (c : Byte) : Bool := c == 0x20 || (0x09 ≤ c && c ≤ 0x0d)

/-- The longest run of digits, if it is not empty. The number is stored in 32 bits. -/
def scanDigits (s : List Byte) : Option Word :=
  match s.takeWhile Hex.isDigit with
  | [] => none
  | digits => some (digits.foldl (fun v c => 16 * v + BitVec.ofNat 32 (Hex.value c)) 0)

/-- Digits, with or without `0x` before them. A prefix with no digit after it is not a number, as ISO C has it; glibc
    converts it to 0. -/
def scanUnsigned (s : List Byte) : Option Word :=
  match s with
  | c0 :: c1 :: rest => if c0 = 0x30 ∧ (c1 = 0x78 ∨ c1 = 0x58) then scanDigits rest else scanDigits s
  | _ => scanDigits s

/-- White space is skipped, and there may be a sign. -/
def sscanfX (s : List Byte) : Option Word :=
  match s.dropWhile isSpace with
  | [] => none
  | c :: rest =>
      if c = 0x2d then (scanUnsigned rest).map fun v => -v
      else if c = 0x2b then scanUnsigned rest
      else scanUnsigned (c :: rest)

/-! ### `hex2bin` -/

/-- Why a string is not accepted. -/
inductive HexError where
  | truncated
  | sscanf (hexByte : List Byte)
  | length
deriving DecidableEq

/-- The line that is logged. A string of the wrong length is refused without one. -/
def HexError.message : HexError → Option String
  | .truncated => some "hex2bin str truncated"
  | .sscanf hexByte =>
      some ("hex2bin sscanf '" ++ String.ofList (hexByte.map fun c => Char.ofNat c.toNat) ++ "' failed")
  | .length => none

/-- What `hex2bin` does: the bytes it wrote from `p` on, and `none` for `true`. -/
structure Hex2Bin where
  written : List Byte
  error : Option HexError
deriving DecidableEq

/-- `hex2bin`, from the characters and the number of bytes that are left. -/
def hex2bin : List Byte → Nat → Hex2Bin
  | [], len => ⟨[], if len = 0 then none else some .length⟩
  | _ :: _, 0 => ⟨[], some .length⟩
  | [_], _ + 1 => ⟨[], some .truncated⟩
  | c0 :: c1 :: rest, len + 1 =>
      match sscanfX [c0, c1] with
      | none => ⟨[], some (.sscanf [c0, c1])⟩
      | some v =>
          let after := hex2bin rest len
          ⟨v.setWidth 8 :: after.written, after.error⟩

/-! ### Strings of digits -/

theorem bin2hexFrom_eq (bytes : List Byte) {i : Nat} (small : i ≤ 0x40000000) :
    bin2hexFrom i bytes = if i + bytes.length ≤ 0x40000000 then some (Hex.encode bytes) else none := by
  induction bytes generalizing i with
  | nil => exact (if_pos small).symm
  | cons b bytes ih =>
      rw [bin2hexFrom, intMax, List.length_cons]
      by_cases last : i = 0x40000000
      · rw [if_neg (by omega), if_neg (by omega)]
      · have next : i + (bytes.length + 1) = i + 1 + bytes.length := by omega
        rw [if_pos (by omega), ih (by omega), next]
        split
        · rfl
        · rfl

theorem bin2hex_false (p : List Byte) : bin2hex false p = none := rfl

/-- `bin2hex` writes the digits of at most 2^30 bytes. -/
theorem bin2hex_eq {p : List Byte} (nonempty : p ≠ []) :
    bin2hex true p = if p.length ≤ 0x40000000 then some (Hex.encode p) else none := by
  have from_zero := bin2hexFrom_eq p (Nat.zero_le (0x40000000))
  rw [Nat.zero_add] at from_zero
  rw [bin2hex, List.isEmpty_eq_false_iff.mpr nonempty, ← from_zero]
  rfl

/-- A digit is no white space, no sign and no `x`. -/
theorem isDigit_plain {c : Byte} : Hex.isDigit c = true →
    isSpace c = false ∧ c ≠ 0x2d ∧ c ≠ 0x2b ∧ c ≠ 0x78 ∧ c ≠ 0x58 := by
  revert c
  decide +kernel

/-- Two digits are a number. -/
theorem sscanfX_digits {c0 c1 : Byte} (h0 : Hex.isDigit c0 = true) (h1 : Hex.isDigit c1 = true) :
    (sscanfX [c0, c1]).map (BitVec.setWidth 8) =
      some (BitVec.ofNat 8 (16 * Hex.value c0 + Hex.value c1)) := by
  obtain ⟨notSpace, notMinus, notPlus, _, _⟩ := isDigit_plain h0
  obtain ⟨_, _, _, notLower, notUpper⟩ := isDigit_plain h1
  have noPrefix : ¬ (c0 = 0x30 ∧ (c1 = 0x78 ∨ c1 = 0x58)) := by
    rintro ⟨_, isLower | isUpper⟩
    · exact notLower isLower
    · exact notUpper isUpper
  rw [sscanfX, List.dropWhile_cons_of_neg (by simp [notSpace])]
  simp only [if_neg notMinus, if_neg notPlus, scanUnsigned, if_neg noPrefix, scanDigits,
    List.takeWhile_cons, h0, h1, if_true, List.takeWhile_nil, List.foldl_cons, List.foldl_nil, Option.map_some,
    Option.some.injEq]
  apply BitVec.eq_of_toNat_eq
  simp

/-- A string of digits of the right length is accepted, and what it denotes is written. -/
theorem hex2bin_digits {s : List Byte} {len : Nat} (length : s.length = 2 * len)
    (digits : ∀ c ∈ s, Hex.isDigit c = true) : hex2bin s len = ⟨Hex.denote s, none⟩ := by
  induction len generalizing s with
  | zero =>
      obtain rfl := List.length_eq_zero_iff.mp length
      rfl
  | succ len ih =>
      match s, length, digits with
      | c0 :: c1 :: rest, length, digits =>
          have tail : rest.length = 2 * len := by
            simp only [List.length_cons] at length
            omega
          have later : ∀ c ∈ rest, Hex.isDigit c = true := fun c hc => digits c (by simp [hc])
          obtain ⟨v, scanned, narrow⟩ := Option.map_eq_some_iff.mp
            (sscanfX_digits (digits c0 (by simp)) (digits c1 (by simp)))
          simp only [hex2bin, scanned, narrow, ih tail later, Hex.denote]
      | [], length, _ =>
          simp only [List.length_nil] at length
          omega
      | [_], length, _ =>
          simp only [List.length_cons, List.length_nil] at length
          omega

/-- When a string is accepted, the whole buffer has been written. -/
theorem hex2bin_length {s : List Byte} {len : Nat} (accepted : (hex2bin s len).error = none) :
    (hex2bin s len).written.length = len := by
  fun_induction hex2bin s len with
  | case1 len =>
      split at accepted
      · rename_i zero
        exact zero.symm
      · cases accepted
  | case2 => cases accepted
  | case3 => cases accepted
  | case4 => cases accepted
  | case5 c0 c1 rest len v _ after ih => exact congrArg (· + 1) (ih accepted)

/-- `hex2bin` takes back what `bin2hex` has written. -/
theorem hex2bin_bin2hex {bytes hexstr : List Byte} (written : bin2hex true bytes = some hexstr) :
    hex2bin hexstr bytes.length = ⟨bytes, none⟩ := by
  have nonempty : bytes ≠ [] := by
    rintro rfl
    cases written
  rw [bin2hex_eq nonempty] at written
  split at written
  · obtain rfl : Hex.encode bytes = hexstr := Option.some.inj written
    rw [hex2bin_digits (Hex.length_encode bytes) (Hex.isDigit_of_mem_encode), Hex.denote_encode]
  · cases written

/-- A string that is accepted has two characters for each byte. -/
theorem length_of_hex2bin {s : List Byte} {len : Nat} (accepted : (hex2bin s len).error = none) :
    s.length = 2 * len := by
  fun_induction hex2bin s len with
  | case1 len =>
      split at accepted
      · rename_i zero
        rw [zero]
        rfl
      · cases accepted
  | case2 => cases accepted
  | case3 => cases accepted
  | case4 => cases accepted
  | case5 c0 c1 rest len v _ after ih =>
      have tail : rest.length = 2 * len := ih accepted
      rw [List.length_cons, List.length_cons, tail]
      omega

/-! ### Writing and reading -/

/-- `hex2bin` accepts what `bin2hex` writes for these bytes, and leaves the bytes. -/
def RoundTrips (b : List Byte) : Prop :=
  ∃ hexstr, bin2hex true b = some hexstr ∧ hex2bin hexstr b.length = ⟨b, none⟩

/-- `bin2hex` writes what `hex2bin` reads in this string as the string in lower case, and with another length than
    this `hex2bin` does not accept the string. -/
def WrittenBack (s : List Byte) (n : Nat) : Prop :=
  (hex2bin s n).error = none ∧ bin2hex true (hex2bin s n).written = some (s.map Hex.lower) ∧
    ∀ len, len ≠ n → (hex2bin s len).error ≠ none

theorem roundTrips_iff {b : List Byte} (nonempty : b ≠ []) : RoundTrips b ↔ b.length ≤ 0x40000000 := by
  constructor
  · rintro ⟨hexstr, written, _⟩
    rw [bin2hex_eq nonempty] at written
    split at written
    · assumption
    · cases written
  · intro small
    have written : bin2hex true b = some (Hex.encode b) := by rw [bin2hex_eq nonempty, if_pos small]
    exact ⟨Hex.encode b, written, hex2bin_bin2hex written⟩

theorem writtenBack_iff {s : List Byte} {n : Nat} (positive : 0 < n) (length : s.length = 2 * n)
    (digits : ∀ c ∈ s, Hex.isDigit c = true) : WrittenBack s n ↔ n ≤ 0x40000000 := by
  have read := hex2bin_digits length digits
  have accepted : (hex2bin s n).error = none := by rw [read]
  have bytes : (hex2bin s n).written.length = n := hex2bin_length accepted
  have nonempty : (hex2bin s n).written ≠ [] := List.ne_nil_of_length_pos (by rwa [bytes])
  constructor
  · rintro ⟨_, written, _⟩
    rw [bin2hex_eq nonempty, bytes] at written
    split at written
    · assumption
    · cases written
  · intro small
    refine ⟨accepted, ?_, fun len other wrong => ?_⟩
    · rw [bin2hex_eq nonempty, bytes, if_pos small, read]
      exact congrArg some (Hex.encode_denote length digits)
    · have same := length_of_hex2bin wrong
      omega

/-- Writing and reading are inverse to each other exactly as far as the index of `bin2hex` counts: for strings of up
    to 2^30 bytes. -/
theorem hex_inverse_iff (b : List Byte) (s : CString) (n : Nat) (nonempty : b ≠ []) (positive : 0 < n)
    (length : s.bytes.length = 2 * n) (digits : ∀ c ∈ s.bytes, Hex.isDigit c = true) :
    (RoundTrips b ↔ b.length ≤ 0x40000000) ∧ (WrittenBack s.bytes n ↔ n ≤ 0x40000000) :=
  ⟨roundTrips_iff nonempty, writtenBack_iff positive length digits⟩

/-- The theorem at the bytes a5 00 ff 07 and the string `A500fF`. -/
theorem hex_inverse_iff_example :
    RoundTrips [0xa5, 0x00, 0xff, 0x07] ∧ WrittenBack [0x41, 0x35, 0x30, 0x30, 0x66, 0x46] 3 := by
  obtain ⟨bytes, string⟩ := hex_inverse_iff [0xa5, 0x00, 0xff, 0x07] ⟨[0x41, 0x35, 0x30, 0x30, 0x66, 0x46], by decide⟩
    3 (by decide) (by decide) rfl (by decide)
  exact ⟨bytes.mpr (by decide), string.mpr (by decide)⟩

/-- One byte more is one too many. -/
theorem not_roundTrips_long : ¬ ∀ b : List Byte, b ≠ [] → RoundTrips b := by
  intro all
  have length : (List.replicate (0x40000000 + 1) (0 : Byte)).length = 0x40000000 + 1 := List.length_replicate ..
  have nonempty := List.ne_nil_of_length_pos (by rw [length]; omega)
  have small := (roundTrips_iff nonempty).mp (all _ nonempty)
  rw [length] at small
  omega

end CpuMiner
