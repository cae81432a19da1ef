/-
Module: CpuMiner.Wire.Utf
Layer: JSON
Purpose: utf.c. The encoder writes the encoding of every character (`utf8Encode_char`), and the decoder reads exactly
  the encodings: `utf8Iterate` takes one character from the front of a string if there is one (`utf8Iterate_eq_some`),
  and `utf8_check_string` accepts exactly the texts (`utf8CheckString_iff`). So overlong encodings, halves of surrogate
  pairs and numbers above 0x10FFFF are all refused. The length of the string is an `int`.
Imports: Mathlib.Data.List.Basic, CpuMiner.Lib.Utf8, CpuMiner.Util.Hex
Trusted boundary: human-reviewed spec (the transcription of the C code)
Main exports: utf8Encode, utf8CheckFirst, utf8CheckFull, utf8Iterate, utf8IterateString, utf8CheckString,
  utf8Encode_char, utf8Iterate_eq_some, utf8Iterate_utf8Encode, utf8CheckString_iff
Open obligations: none
-/
import Mathlib.Data.List.Basic
import CpuMiner.Lib.Utf8
import CpuMiner.Util.Hex

namespace CpuMiner.Jansson

open Words
open Utf8

/-- `utf8_encode`: the bytes in `buffer`, up to `size`. -/
def utf8Encode (codepoint : Int) : Option (List Byte) :=
  let value := codepoint.toNat
  if codepoint < 0 then none
  else if codepoint < 0x80 then some [byteOf value]
  else if codepoint < 0x800 then
    some [byteOf (0xC0 + ((value &&& 0x7C0) >>> 6)), byteOf (0x80 + (value &&& 0x03F))]
  else if codepoint < 0x10000 then
    some [byteOf (0xE0 + ((value &&& 0xF000) >>> 12)), byteOf (0x80 + ((value &&& 0x0FC0) >>> 6)),
      byteOf (0x80 + (value &&& 0x003F))]
  else if codepoint ≤ 0x10FFFF then
    some [byteOf (0xF0 + ((value &&& 0x1C0000) >>> 18)), byteOf (0x80 + ((value &&& 0x03F000) >>> 12)),
      byteOf (0x80 + ((value &&& 0x000FC0) >>> 6)), byteOf (0x80 + (value &&& 0x00003F))]
  else none

/-- `utf8_check_first` -/
def utf8CheckFirst (u : Byte) : Nat :=
  if u < 0x80 then 1
  else if 0x80 ≤ u ∧ u ≤ 0xBF then 0
  else if u = 0xC0 ∨ u = 0xC1 then 0
  else if 0xC2 ≤ u ∧ u ≤ 0xDF then 2
  else if 0xE0 ≤ u ∧ u ≤ 0xEF then 3
  else if 0xF0 ≤ u ∧ u ≤ 0xF4 then 4
  else 0

/-- The loop of `utf8_check_full`, with this many bytes left. The end of the list is the terminating NUL, which is no
    continuation byte. -/
def utf8Continue (value : Nat) : Nat → List Byte → Option Nat
  | 0, _ => some value
  | _ + 1, [] => none
  | left + 1, u :: buffer =>
      if u < 0x80 ∨ u > 0xBF then none else utf8Continue ((value <<< 6) + (u &&& 0x3F).toNat) left buffer

/-- The bits of the leading byte. -/
def leadBits (u : Byte) (size : Nat) : Option Nat :=
  if size = 2 then some (u &&& 0x1F).toNat
  else if size = 3 then some (u &&& 0xF).toNat
  else if size = 4 then some (u &&& 0x7).toNat
  else none

/-- `utf8_check_full`: the code point for 1. -/
def utf8CheckFull (buffer : List Byte) (size : Nat) : Option Nat := do
  let value ← leadBits (buffer.headD 0) size
  let value ← utf8Continue value (size - 1) buffer.tail
  if value > 0x10FFFF then none
  else if 0xD800 ≤ value ∧ value ≤ 0xDFFF then none
  else if (size = 2 ∧ value < 0x80) ∨ (size = 3 ∧ value < 0x800) ∨ (size = 4 ∧ value < 0x10000) then none
  else some value

/-- `utf8_iterate`, from `utf8_check_first` on: the code point and the rest, or nothing for NULL. -/
def utf8Iterate (buffer : List Byte) : Option (Nat × List Byte) :=
  let count := utf8CheckFirst (buffer.headD 0)
  if count ≤ 0 then none
  else if count = 1 then some ((buffer.headD 0).toNat, buffer.drop count)
  else (utf8CheckFull buffer count).map fun value => (value, buffer.drop count)

/-- `utf8_iterate`: what it stores in `codepoint`, and what it returns. At the end of the string it stores nothing. -/
def utf8IterateString (buffer : List Byte) : Option (Option Nat × List Byte) :=
  if buffer.headD 0 = 0 then some (none, buffer)
  else (utf8Iterate buffer).map fun (value, rest) => (some value, rest)

/-- The conversion of a `size_t` to an `int`, which keeps 32 bits. -/
def intOfSize (size : Nat) : Int := (BitVec.ofNat 32 size).toInt

/-- The loop of `utf8_check_string`, from index `i` on; nothing when `i + count` overflows. -/
def utf8CheckFrom (string : List Byte) (length : Int) (i : Nat) : Option Bool :=
  if i < length then
    let count := utf8CheckFirst (string.getD i 0)
    if count = 0 then some false
    else if count > 1 then
      if i + count > intMax then none
      else if i + count > length then some false
      else if utf8CheckFull (string.drop i) count = none then some false
      else utf8CheckFrom string length (i + count)
    else utf8CheckFrom string length (i + 1)
  else some true
termination_by (length - i).toNat
decreasing_by all_goals omega

/-- `utf8_check_string` -/
def utf8CheckString (string : CString) (length : Int) : Option Bool :=
  utf8CheckFrom string.bytes (if length = -1 then intOfSize string.bytes.length else length) 0

/-! ### Encoding -/

/-- Some bits, from a low one on. -/
theorem and_shiftRight (n : Nat) {mask low k p q : Nat} (isP : Nat.pow 2 low = p) (isQ : Nat.pow 2 k = q)
    (split : mask = (q - 1) * p) : (n &&& mask) >>> low = n / p % q := by
  subst isP isQ split
  have cancelled : (Nat.pow 2 k - 1) * Nat.pow 2 low / Nat.pow 2 low = Nat.pow 2 k - 1 :=
    Nat.mul_div_cancel _ (Nat.two_pow_pos low)
  rw [Nat.shiftRight_and_distrib, Nat.shiftRight_eq_div_pow, Nat.shiftRight_eq_div_pow]
  exact (congrArg _ cancelled).trans (Nat.and_two_pow_sub_one_eq_mod _ k)

theorem and_low (n : Nat) {mask k q : Nat} (isQ : Nat.pow 2 k = q) (low : mask = q - 1) : n &&& mask = n % q := by
  subst isQ low
  exact Nat.and_two_pow_sub_one_eq_mod n k

/-- A character is encoded as it should be. -/
theorem utf8Encode_char (c : Char) : utf8Encode c.toNat = some (encode c) := by
  have small := toNat_lt c
  rw [encode_eq, utf8Encode]
  simp only [Int.toNat_natCast]
  rw [if_neg (by omega)]
  by_cases one : c.toNat < 0x80
  · rw [if_pos (by omega), if_pos one]
  · rw [if_neg (by omega), if_neg one]
    by_cases two : c.toNat < 0x800
    · have lead : c.toNat / 0x40 % 0x20 = c.toNat / 0x40 := by omega
      rw [if_pos (by omega), if_pos two, @and_shiftRight c.toNat 0x7C0 6 5 0x40 0x20 rfl rfl rfl,
        @and_low c.toNat 0x3F 6 0x40 rfl rfl, lead]
    · rw [if_neg (by omega), if_neg two]
      by_cases three : c.toNat < 0x10000
      · have lead : c.toNat / 0x1000 % 0x10 = c.toNat / 0x1000 := by omega
        rw [if_pos (by omega), if_pos three, @and_shiftRight c.toNat 0xF000 12 4 0x1000 0x10 rfl rfl rfl,
          @and_shiftRight c.toNat 0xFC0 6 6 0x40 0x40 rfl rfl rfl, @and_low c.toNat 0x3F 6 0x40 rfl rfl, lead]
      · have lead : c.toNat / 0x40000 % 0x8 = c.toNat / 0x40000 := by omega
        rw [if_neg (by omega), if_pos (by omega), if_neg three,
          @and_shiftRight c.toNat 0x1C0000 18 3 0x40000 0x8 rfl rfl rfl,
          @and_shiftRight c.toNat 0x3F000 12 6 0x1000 0x40 rfl rfl rfl,
          @and_shiftRight c.toNat 0xFC0 6 6 0x40 0x40 rfl rfl rfl, @and_low c.toNat 0x3F 6 0x40 rfl rfl, lead]

/-! ### Decoding -/

/-- A continuation byte with these six bits. -/
def tailByte (d : Nat) : Byte := byteOf (0x80 + d)

theorem toNat_tailByte {d : Nat} (bits : d < 0x40) : (tailByte d).toNat = 0x80 + d := by
  rw [tailByte, BitVec.toNat_ofNat]
  omega

theorem tailByte_toNat {u : Byte} (tail : ¬ (u < 0x80 ∨ u > 0xBF)) :
    ∃ d < 0x40, u = tailByte d := by
  simp only [BitVec.lt_def, gt_iff_lt, BitVec.reduceToNat] at tail
  refine ⟨u.toNat - 0x80, by omega, BitVec.eq_of_toNat_eq ?_⟩
  rw [toNat_tailByte (by omega)]
  omega

/-- The number that a continuation byte adds to. -/
theorem shift_tailByte (value : Nat) {d : Nat} (bits : d < 0x40) :
    (value <<< 6) + (tailByte d &&& 0x3F).toNat = 0x40 * value + d := by
  rw [BitVec.toNat_and, toNat_tailByte bits, show (0x3F : Byte).toNat = 0x3F from rfl,
    @and_low _ 0x3F 6 0x40 rfl rfl, Nat.shiftLeft_eq]
  omega

theorem utf8Continue_eq_some {left value result : Nat} {buffer : List Byte} :
    utf8Continue value left buffer = some result ↔
      ∃ (ds : List Nat) (more : List Byte), ds.length = left ∧ (∀ d ∈ ds, d < 0x40) ∧
      buffer = ds.map tailByte ++ more ∧ result = ds.foldl (fun v d => 0x40 * v + d) value := by
  induction left generalizing value buffer with
  | zero =>
      constructor
      · rintro ⟨⟩
        exact ⟨[], buffer, rfl, by simp, rfl, rfl⟩
      · rintro ⟨ds, more, length, _, _, rfl⟩
        obtain rfl := List.length_eq_zero_iff.mp length
        rfl
  | succ left ih =>
      cases buffer with
      | nil =>
          constructor
          · rintro ⟨⟩
          · rintro ⟨_ | ⟨d, ds⟩, more, length, _, bytes, _⟩
            · cases length
            · cases bytes
      | cons u buffer =>
          rw [utf8Continue]
          split
          · rename_i other
            constructor
            · rintro ⟨⟩
            · rintro ⟨_ | ⟨d, ds⟩, more, length, small, bytes, _⟩
              · cases length
              · obtain ⟨rfl, _⟩ := List.cons.inj bytes
                have bits := small d List.mem_cons_self
                simp only [BitVec.lt_def, gt_iff_lt, toNat_tailByte bits, BitVec.reduceToNat] at other
                omega
          · rename_i tail
            obtain ⟨e, bits, rfl⟩ := tailByte_toNat tail
            rw [shift_tailByte value bits, ih]
            constructor
            · rintro ⟨ds, more, length, small, rfl, rfl⟩
              refine ⟨e :: ds, more, congrArg (· + 1) length, ?_, rfl, rfl⟩
              intro d listed
              rcases List.mem_cons.mp listed with rfl | later
              · exact bits
              · exact small d later
            · rintro ⟨_ | ⟨d, ds⟩, more, length, small, bytes, rfl⟩
              · cases length
              · obtain ⟨same, rfl⟩ := List.cons.inj bytes
                have value := congrArg BitVec.toNat same
                rw [toNat_tailByte bits, toNat_tailByte (small d List.mem_cons_self)] at value
                obtain rfl : e = d := by omega
                exact ⟨ds, more, Nat.succ.inj length, fun d listed => small d (List.mem_cons_of_mem e listed), rfl, rfl⟩

/-- What `utf8_check_full` checks of the code point. -/
structure InRange (size value : Nat) : Prop where
  unicode : value < 0x110000
  noSurrogate : ¬ (0xD800 ≤ value ∧ value ≤ 0xDFFF)
  notOverlong : (size = 2 → 0x80 ≤ value) ∧ (size = 3 → 0x800 ≤ value) ∧ (size = 4 → 0x10000 ≤ value)

theorem InRange.exists_char {size value : Nat} (range : InRange size value) : ∃ c : Char, c.toNat = value := by
  have valid : value.isValidChar := by
    have surrogate := range.noSurrogate
    have unicode := range.unicode
    unfold Nat.isValidChar
    omega
  exact ⟨Char.ofNatAux value valid, rfl⟩

theorem inRange_char (c : Char) : InRange (encode c).length c.toNat where
  unicode := toNat_lt c
  noSurrogate := by
    rcases c.valid with low | ⟨high, _⟩
    · exact fun surrogate => absurd low (Nat.not_lt.mpr surrogate.1)
    · exact fun surrogate => absurd high (Nat.not_lt.mpr surrogate.2)
  notOverlong := by
    rw [encode_eq]
    split
    · simp
    · split
      · simp
        omega
      · split
        · simp
          omega
        · simp
          omega

theorem utf8CheckFull_cons {u : Byte} {rest : List Byte} {size value : Nat} :
    utf8CheckFull (u :: rest) size = some value ↔
      ∃ top, leadBits u size = some top ∧ utf8Continue top (size - 1) rest = some value ∧ InRange size value := by
  rw [utf8CheckFull]
  simp only [List.headD_cons, List.tail_cons, Option.bind_eq_bind, Option.bind_eq_some_iff]
  refine exists_congr fun top => and_congr_right fun _ => ?_
  constructor
  · rintro ⟨read, continued, checked⟩
    split at checked
    · cases checked
    · split at checked
      · cases checked
      · split at checked
        · cases checked
        · obtain rfl := Option.some.inj checked
          exact ⟨continued, by constructor <;> omega⟩
  · rintro ⟨continued, range⟩
    have overlong := range.notOverlong
    refine ⟨value, continued, ?_⟩
    rw [if_neg (Nat.not_lt.mpr (Nat.le_of_lt_succ range.unicode)), if_neg range.noSurrogate, if_neg (by omega)]

/-- The leading bytes, and what they say about the first bits of the code point. -/
theorem utf8CheckFirst_lead {u : Byte} (many : 1 < utf8CheckFirst u) :
    (utf8CheckFirst u = 2 ∧ ∃ top < 0x20, u = byteOf (0xC0 + top) ∧ leadBits u 2 = some top) ∨
    (utf8CheckFirst u = 3 ∧ ∃ top < 0x10, u = byteOf (0xE0 + top) ∧ leadBits u 3 = some top) ∨
    (utf8CheckFirst u = 4 ∧ ∃ top < 0x8, u = byteOf (0xF0 + top) ∧ leadBits u 4 = some top) := by
  revert u
  decide +kernel

theorem encode_two {c : Char} {top d : Nat} (value : c.toNat = 0x40 * top + d) (bits : d < 0x40)
    (long : 0x80 ≤ c.toNat) (short : c.toNat < 0x800) : encode c = [byteOf (0xC0 + top), tailByte d] := by
  have first : c.toNat / 0x40 = top := by omega
  have second : c.toNat % 0x40 = d := by omega
  rw [encode_eq, if_neg (by omega), if_pos short, first, second]
  rfl

theorem encode_three {c : Char} {top d e : Nat} (value : c.toNat = 0x40 * (0x40 * top + d) + e) (bits : d < 0x40)
    (bits' : e < 0x40) (long : 0x800 ≤ c.toNat) (short : c.toNat < 0x10000) :
    encode c = [byteOf (0xE0 + top), tailByte d, tailByte e] := by
  have first : c.toNat / 0x1000 = top := by omega
  have second : c.toNat / 0x40 % 0x40 = d := by omega
  have third : c.toNat % 0x40 = e := by omega
  rw [encode_eq, if_neg (by omega), if_neg (by omega), if_pos short, first, second, third]
  rfl

theorem encode_four {c : Char} {top d e f : Nat} (value : c.toNat = 0x40 * (0x40 * (0x40 * top + d) + e) + f)
    (bits : d < 0x40) (bits' : e < 0x40) (bits'' : f < 0x40) (long : 0x10000 ≤ c.toNat) :
    encode c = [byteOf (0xF0 + top), tailByte d, tailByte e, tailByte f] := by
  have first : c.toNat / 0x40000 = top := by omega
  have second : c.toNat / 0x1000 % 0x40 = d := by omega
  have third : c.toNat / 0x40 % 0x40 = e := by omega
  have fourth : c.toNat % 0x40 = f := by omega
  rw [encode_eq, if_neg (by omega), if_neg (by omega), if_neg (by omega), first, second, third, fourth]
  rfl

/-- How many bytes a character has. -/
theorem length_encode (c : Char) :
    ((encode c).length = 1 ∧ c.toNat < 0x80) ∨ ((encode c).length = 2 ∧ 0x80 ≤ c.toNat ∧ c.toNat < 0x800) ∨
    ((encode c).length = 3 ∧ 0x800 ≤ c.toNat ∧ c.toNat < 0x10000) ∨
    ((encode c).length = 4 ∧ 0x10000 ≤ c.toNat) := by
  rw [encode_eq]
  split
  · exact .inl ⟨rfl, by omega⟩
  · split
    · exact .inr (.inl ⟨rfl, by omega, by omega⟩)
    · split
      · exact .inr (.inr (.inl ⟨rfl, by omega, by omega⟩))
      · exact .inr (.inr (.inr ⟨rfl, by omega⟩))

/-- A sequence of more than one byte is accepted exactly when it is a character. -/
theorem utf8CheckFull_eq_some {u : Byte} {rest : List Byte} {value : Nat} (many : 1 < utf8CheckFirst u) :
    utf8CheckFull (u :: rest) (utf8CheckFirst u) = some value ↔
      ∃ c more, c.toNat = value ∧ (encode c).length = utf8CheckFirst u ∧ u :: rest = encode c ++ more := by
  rw [utf8CheckFull_cons]
  rcases utf8CheckFirst_lead many with ⟨size, top, small, rfl, lead⟩ | ⟨size, top, small, rfl, lead⟩ |
    ⟨size, top, small, rfl, lead⟩
  · rw [size]
    simp only [lead, utf8Continue_eq_some, Option.some.injEq]
    constructor
    · rintro ⟨_, rfl, ⟨ds, more, length, bits, rfl, rfl⟩, range⟩
      obtain ⟨c, value⟩ := range.exists_char
      obtain ⟨d, rfl⟩ := List.length_eq_one_iff.mp length
      have small' := bits d (by simp)
      have long := range.notOverlong.1 rfl
      simp only [List.foldl_cons, List.foldl_nil] at value long
      have encoded := encode_two value small' (by omega) (by omega)
      exact ⟨c, more, value, by rw [encoded]; rfl, by rw [encoded]; rfl⟩
    · rintro ⟨c, more, rfl, length, bytes⟩
      obtain ⟨long, short⟩ : 0x80 ≤ c.toNat ∧ c.toNat < 0x800 := by
        have cases := length_encode c
        omega
      have encoded := @encode_two c (c.toNat / 0x40) (c.toNat % 0x40) (by omega) (by omega) long short
      rw [encoded] at bytes
      obtain ⟨same, rfl⟩ := List.cons.inj bytes
      have number := congrArg BitVec.toNat same
      simp only [BitVec.toNat_ofNat] at number
      refine ⟨top, rfl, ⟨[c.toNat % 0x40], more, rfl, by simp; omega, rfl, ?_⟩, ?_⟩
      · simp only [List.foldl_cons, List.foldl_nil]
        omega
      · have range := inRange_char c
        rwa [length] at range
  · rw [size]
    simp only [lead, utf8Continue_eq_some, Option.some.injEq]
    constructor
    · rintro ⟨_, rfl, ⟨ds, more, length, bits, rfl, rfl⟩, range⟩
      obtain ⟨c, value⟩ := range.exists_char
      obtain ⟨d, e, rfl⟩ := List.length_eq_two.mp length
      have small₁ := bits d (by simp)
      have small₂ := bits e (by simp)
      have long := range.notOverlong.2.1 rfl
      simp only [List.foldl_cons, List.foldl_nil] at value long
      have encoded := encode_three value small₁ small₂ (by omega) (by omega)
      exact ⟨c, more, value, by rw [encoded]; rfl, by rw [encoded]; rfl⟩
    · rintro ⟨c, more, rfl, length, bytes⟩
      obtain ⟨long, short⟩ : 0x800 ≤ c.toNat ∧ c.toNat < 0x10000 := by
        have cases := length_encode c
        omega
      have encoded := @encode_three c (c.toNat / 0x1000) (c.toNat / 0x40 % 0x40) (c.toNat % 0x40) (by omega) (by omega)
        (by omega) long short
      rw [encoded] at bytes
      obtain ⟨same, rfl⟩ := List.cons.inj bytes
      have number := congrArg BitVec.toNat same
      simp only [BitVec.toNat_ofNat] at number
      refine ⟨top, rfl, ⟨[c.toNat / 0x40 % 0x40, c.toNat % 0x40], more, rfl, by simp; omega, rfl, ?_⟩, ?_⟩
      · simp only [List.foldl_cons, List.foldl_nil]
        omega
      · have range := inRange_char c
        rwa [length] at range
  · rw [size]
    simp only [lead, utf8Continue_eq_some, Option.some.injEq]
    constructor
    · rintro ⟨_, rfl, ⟨ds, more, length, bits, rfl, rfl⟩, range⟩
      obtain ⟨c, value⟩ := range.exists_char
      obtain ⟨d, e, f, rfl⟩ := List.length_eq_three.mp length
      have small₁ := bits d (by simp)
      have small₂ := bits e (by simp)
      have small₃ := bits f (by simp)
      have long := range.notOverlong.2.2 rfl
      simp only [List.foldl_cons, List.foldl_nil] at value long
      have encoded := encode_four value small₁ small₂ small₃ (by omega)
      exact ⟨c, more, value, by rw [encoded]; rfl, by rw [encoded]; rfl⟩
    · rintro ⟨c, more, rfl, length, bytes⟩
      have unicode := toNat_lt c
      have long : 0x10000 ≤ c.toNat := by
        have cases := length_encode c
        omega
      have encoded := @encode_four c (c.toNat / 0x40000) (c.toNat / 0x1000 % 0x40) (c.toNat / 0x40 % 0x40)
        (c.toNat % 0x40) (by omega) (by omega) (by omega) (by omega) long
      rw [encoded] at bytes
      obtain ⟨same, rfl⟩ := List.cons.inj bytes
      have number := congrArg BitVec.toNat same
      simp only [BitVec.toNat_ofNat] at number
      refine ⟨top, rfl, ⟨[c.toNat / 0x1000 % 0x40, c.toNat / 0x40 % 0x40, c.toNat % 0x40], more, rfl,
        by simp; omega, rfl, ?_⟩, ?_⟩
      · simp only [List.foldl_cons, List.foldl_nil]
        omega
      · have range := inRange_char c
        rwa [length] at range

/-- The first byte of a character says how many there are. -/
theorem utf8CheckFirst_encode (c : Char) (more : List Byte) :
    utf8CheckFirst ((encode c ++ more).headD 0) = (encode c).length := by
  have classes : ∀ top < 0x80, utf8CheckFirst (byteOf top) = 1 := by decide +kernel
  have two : ∀ top < 0x20, 2 ≤ top → utf8CheckFirst (byteOf (0xC0 + top)) = 2 := by decide +kernel
  have three : ∀ top < 0x10, utf8CheckFirst (byteOf (0xE0 + top)) = 3 := by decide +kernel
  have four : ∀ top < 0x5, utf8CheckFirst (byteOf (0xF0 + top)) = 4 := by decide +kernel
  have unicode := toNat_lt c
  rw [encode_eq]
  split
  · exact classes _ (by omega)
  · split
    · exact two _ (by omega) (by omega)
    · split
      · exact three _ (by omega)
      · exact four _ (by omega)

theorem drop_encode (c : Char) (more : List Byte) : (encode c ++ more).drop (encode c).length = more :=
  List.drop_left

theorem utf8CheckFirst_eq_one {u : Byte} : utf8CheckFirst u = 1 ↔ u.toNat < 0x80 := by
  revert u
  decide +kernel

/-- An ASCII byte is a character. -/
theorem exists_encode_ascii {u : Byte} (ascii : u.toNat < 0x80) : ∃ c : Char, c.toNat = u.toNat ∧ encode c = [u] := by
  have valid : u.toNat.isValidChar := .inl (Nat.lt_trans ascii (by decide))
  refine ⟨Char.ofNatAux u.toNat valid, rfl, ?_⟩
  have value : (Char.ofNatAux u.toNat valid).toNat = u.toNat := rfl
  rw [encode_eq, value, if_pos ascii, byteOf, BitVec.ofNat_toNat, BitVec.setWidth_eq]

theorem utf8Iterate_cons (u : Byte) (tail : List Byte) :
    utf8Iterate (u :: tail) =
      if utf8CheckFirst u ≤ 0 then none
      else if utf8CheckFirst u = 1 then some (u.toNat, (u :: tail).drop (utf8CheckFirst u))
      else (utf8CheckFull (u :: tail) (utf8CheckFirst u)).map fun value =>
        (value, (u :: tail).drop (utf8CheckFirst u)) := rfl

/-- `utf8_iterate` takes the character at the front of a string if there is one. -/
theorem utf8Iterate_eq_some {buffer rest : List Byte} {value : Nat} (more : buffer ≠ []) :
    utf8Iterate buffer = some (value, rest) ↔ ∃ c : Char, c.toNat = value ∧ buffer = encode c ++ rest := by
  obtain ⟨u, tail, rfl⟩ := List.exists_cons_of_ne_nil more
  have count : ∀ c : Char, ∀ rest, u :: tail = encode c ++ rest → utf8CheckFirst u = (encode c).length := by
    intro c rest bytes
    rw [← utf8CheckFirst_encode c rest, ← bytes]
    rfl
  rw [utf8Iterate_cons]
  by_cases zero : utf8CheckFirst u ≤ 0
  · rw [if_pos zero]
    constructor
    · rintro ⟨⟩
    · rintro ⟨c, rfl, bytes⟩
      have length := count c rest bytes
      have cases := length_encode c
      omega
  · rw [if_neg zero]
    by_cases one : utf8CheckFirst u = 1
    · rw [if_pos one, one]
      obtain ⟨c, number, encoded⟩ := exists_encode_ascii (utf8CheckFirst_eq_one.mp one)
      constructor
      · rintro ⟨⟩
        exact ⟨c, number, by rw [encoded]; rfl⟩
      · rintro ⟨d, rfl, bytes⟩
        have length := count d rest bytes
        have low : d.toNat < 0x80 := by
          have cases := length_encode d
          omega
        rw [encode_eq, if_pos low] at bytes
        obtain ⟨rfl, rfl⟩ := List.cons.inj bytes
        have value : (byteOf d.toNat).toNat = d.toNat := by
          rw [BitVec.toNat_ofNat]
          omega
        rw [value]
        rfl
    · rw [if_neg one]
      have many : 1 < utf8CheckFirst u := by omega
      simp only [Option.map_eq_some_iff, utf8CheckFull_eq_some many, Prod.mk.injEq]
      constructor
      · rintro ⟨_, ⟨c, more, rfl, length, bytes⟩, rfl, rfl⟩
        refine ⟨c, rfl, ?_⟩
        rw [← length, bytes, drop_encode]
      · rintro ⟨c, rfl, bytes⟩
        refine ⟨c.toNat, ⟨c, rest, rfl, (count c rest bytes).symm, bytes⟩, rfl, ?_⟩
        rw [count c rest bytes, bytes, drop_encode]

/-- The encoder never writes nothing. -/
theorem utf8Encode_ne_nil {codepoint : Int} {bytes : List Byte} (encodes : utf8Encode codepoint = some bytes) :
    bytes ≠ [] := by
  rintro rfl
  unfold utf8Encode at encodes
  repeat' split at encodes
  all_goals cases encodes

theorem nonneg_of_utf8Encode {codepoint : Int} {bytes : List Byte} (encodes : utf8Encode codepoint = some bytes) :
    0 ≤ codepoint := by
  by_contra negative
  rw [utf8Encode, if_pos (by omega)] at encodes
  cases encodes

/-- The decoder gives back what was encoded, whatever stands behind it, exactly for the characters but NUL. The encoder
also writes the halves of surrogate pairs, but the decoder does not take them. -/
theorem utf8Iterate_utf8Encode (codepoint : Int) (rest : List Byte) :
    (∃ bytes, utf8Encode codepoint = some bytes ∧
      utf8IterateString (bytes ++ rest) = some (some codepoint.toNat, rest)) ↔
      0 < codepoint ∧ codepoint ≤ 0x10FFFF ∧ ¬ (0xD800 ≤ codepoint ∧ codepoint ≤ 0xDFFF) := by
  constructor
  · rintro ⟨bytes, encodes, decodes⟩
    have more : bytes ++ rest ≠ [] := fun empty => utf8Encode_ne_nil encodes (List.append_eq_nil_iff.mp empty).1
    unfold utf8IterateString at decodes
    split at decodes
    · cases decodes
    · rename_i goesOn
      obtain ⟨⟨value, behind⟩, read, same⟩ := Option.map_eq_some_iff.mp decodes
      obtain ⟨stored, rfl⟩ := Prod.mk.inj same
      obtain rfl := Option.some.inj stored
      obtain ⟨c, number, _⟩ := (utf8Iterate_eq_some more).mp read
      have nonneg := nonneg_of_utf8Encode encodes
      have nonzero : codepoint ≠ 0 := by
        rintro rfl
        obtain rfl := Option.some.inj encodes
        exact goesOn rfl
      have range := inRange_char c
      have unicode := range.unicode
      have noSurrogate := range.noSurrogate
      omega
  · rintro ⟨positive, unicode, noSurrogate⟩
    have range : InRange 1 codepoint.toNat :=
      ⟨by omega, by omega, fun two => by omega, fun three => by omega, fun four => by omega⟩
    obtain ⟨c, value⟩ := range.exists_char
    have number : (c.toNat : Int) = codepoint := by omega
    have encodes := utf8Encode_char c
    rw [number] at encodes
    obtain ⟨u, tail, bytes⟩ := List.exists_cons_of_ne_nil (utf8Encode_ne_nil encodes)
    have goesOn : u ≠ 0 := by
      rintro rfl
      exact encode_noNul (by omega) (bytes ▸ List.mem_cons_self)
    have read := (utf8Iterate_eq_some (List.cons_ne_nil u (tail ++ rest))).mpr ⟨c, value, by rw [bytes]; rfl⟩
    refine ⟨encode c, encodes, ?_⟩
    rw [bytes, List.cons_append, utf8IterateString, List.headD_cons, if_neg goesOn, read]
    rfl

theorem utf8CheckFirst_le (u : Byte) : utf8CheckFirst u ≤ 4 := by
  revert u
  decide +kernel

/-! ### Whole strings -/

theorem encode_ne_nil (c : Char) : encode c ≠ [] := by
  have cases := length_encode c
  intro empty
  rw [empty, List.length_nil] at cases
  omega

theorem intOfSize_of_le {size : Nat} (small : size ≤ intMax) : intOfSize size = size := by
  have limit : intMax = 0x7fffffff := rfl
  rw [intOfSize, BitVec.toInt_eq_toNat_of_lt, BitVec.toNat_ofNat]
  · omega
  · rw [BitVec.toNat_ofNat]
    omega

/-- The conversion never makes a length larger, and the result is an `int`. -/
theorem intOfSize_le (size : Nat) : intOfSize size ≤ size ∧ intOfSize size ≤ intMax := by
  have limit : intMax = 0x7fffffff := rfl
  have kept : (BitVec.ofNat 32 size).toNat ≤ size := by
    rw [BitVec.toNat_ofNat]
    exact Nat.mod_le _ _
  rw [intOfSize, BitVec.toInt_eq_toNat_cond]
  split
  · omega
  · omega

section

variable {string : List Byte} {length i : Nat}

/-- The bytes that are left at index `i`. -/
private abbrev left (string : List Byte) (length i : Nat) : List Byte := (string.drop i).take (length - i)

private theorem drop_eq_cons (bound : i < string.length) :
    string.drop i = string.getD i 0 :: string.drop (i + 1) := by
  rw [List.drop_eq_getElem_cons bound, List.getD, List.getElem?_eq_getElem bound, Option.getD_some]

/-- Behind a character. -/
private theorem left_encode {c : Char} {rest : List Byte} (here : left string length i = encode c ++ rest) :
    left string length (i + (encode c).length) = rest := by
  have behind : left string length (i + (encode c).length) = (left string length i).drop (encode c).length := by
    rw [left, left, List.drop_take, List.drop_drop, Nat.sub_sub]
  rw [behind, here, drop_encode]

/-- The loop takes a character. -/
private theorem utf8CheckFrom_encode (inside : length ≤ string.length) (fits : length ≤ intMax) {c : Char}
    {rest : List Byte} (here : left string length i = encode c ++ rest) :
    utf8CheckFrom string length i = utf8CheckFrom string length (i + (encode c).length) := by
  have cases := length_encode c
  have whole := congrArg List.length here
  rw [List.length_append, List.length_take, List.length_drop] at whole
  obtain ⟨behind, bytes⟩ : ∃ behind, string.drop i = encode c ++ behind :=
    ⟨rest ++ (string.drop i).drop (length - i), by rw [← List.append_assoc, ← here, List.take_append_drop]⟩
  have count : utf8CheckFirst (string.getD i 0) = (encode c).length := by
    rw [← utf8CheckFirst_encode c, ← bytes, drop_eq_cons (by omega), List.headD_cons]
  rw [utf8CheckFrom.eq_def, if_pos (by omega)]
  simp only [count]
  rw [if_neg (by omega)]
  by_cases one : (encode c).length = 1
  · rw [if_neg (by omega), one]
  · have many : 1 < utf8CheckFirst (string.getD i 0) := by omega
    have full : utf8CheckFull (string.drop i) (encode c).length = some c.toNat := by
      have first := @drop_eq_cons string i (by omega)
      rw [← count, first]
      exact (utf8CheckFull_eq_some many).mpr ⟨c, behind, rfl, count.symm, first.symm.trans bytes⟩
    rw [if_pos (by omega), if_neg (by omega), if_neg (by omega), if_neg (by rw [full]; exact Option.some_ne_none _)]

/-- The loop takes nothing else. -/
private theorem exists_encode_of_utf8CheckFrom (inside : length ≤ string.length) (more : i < length)
    (accepted : utf8CheckFrom string length i = some true) :
    ∃ (c : Char) (rest : List Byte), left string length i = encode c ++ rest := by
  have bytes := @drop_eq_cons string i (by omega)
  rw [utf8CheckFrom.eq_def, if_pos (by omega)] at accepted
  simp only at accepted
  by_cases zero : utf8CheckFirst (string.getD i 0) = 0
  · rw [if_pos zero] at accepted
    cases accepted
  rw [if_neg zero] at accepted
  by_cases many : utf8CheckFirst (string.getD i 0) > 1
  · rw [if_pos many] at accepted
    split at accepted
    · cases accepted
    split at accepted
    · cases accepted
    split at accepted
    · cases accepted
    rename_i _ room checked
    obtain ⟨value, full⟩ := Option.ne_none_iff_exists'.mp checked
    rw [bytes] at full
    obtain ⟨c, behind, _, count, split⟩ := (utf8CheckFull_eq_some many).mp full
    have whole : (encode c).take (length - i) = encode c := List.take_of_length_le (by omega)
    refine ⟨c, behind.take (length - i - (encode c).length), ?_⟩
    rw [left, bytes, split, List.take_append, whole]
  · have one : utf8CheckFirst (string.getD i 0) = 1 := by omega
    obtain ⟨c, _, encoded⟩ := exists_encode_ascii (utf8CheckFirst_eq_one.mp one)
    obtain ⟨room, positive⟩ : ∃ room, length - i = room + 1 := ⟨length - i - 1, by omega⟩
    refine ⟨c, (string.drop (i + 1)).take room, ?_⟩
    rw [left, bytes, positive, List.take_succ_cons, encoded]
    rfl

/-- From any index on, the loop accepts exactly the texts. -/
theorem utf8CheckFrom_iff (inside : length ≤ string.length) (fits : length ≤ intMax) :
    utf8CheckFrom string length i = some true ↔ Valid ((string.drop i).take (length - i)) := by
  induction size : length - i using Nat.strongRecOn generalizing i with
  | ind n ih =>
      subst size
      by_cases more : i < length
      · constructor
        · intro accepted
          obtain ⟨c, rest, here⟩ := exists_encode_of_utf8CheckFrom inside more accepted
          rw [utf8CheckFrom_encode inside fits here] at accepted
          have cases := length_encode c
          have later := (ih _ (by omega) rfl).mp accepted
          have behind := left_encode here
          rw [left] at behind here
          rw [behind] at later
          rw [here]
          exact (valid_encode c).append later
        · rintro ⟨_ | ⟨c, cs⟩, here⟩
          · have size := congrArg List.length here
            rw [List.length_take, List.length_drop] at size
            exact absurd size (by simp only [encodeAll, List.flatMap_nil, List.length_nil]; omega)
          · rw [encodeAll_cons] at here
            have cases := length_encode c
            rw [utf8CheckFrom_encode inside fits here, ih _ (by omega) rfl]
            have behind := left_encode here
            rw [left] at behind
            rw [behind]
            exact ⟨cs, rfl⟩
      · have empty : length - i = 0 := by omega
        rw [utf8CheckFrom.eq_def, if_neg (by omega), empty, List.take_zero]
        exact iff_of_true rfl valid_nil

/-- The index does not overflow on a string that is three bytes shorter than the largest `int`. -/
theorem exists_utf8CheckFrom {size : Int} (short : size + 3 ≤ intMax) :
    ∃ accepted, utf8CheckFrom string size i = some accepted := by
  induction rest : (size - i).toNat using Nat.strongRecOn generalizing i with
  | ind n ih =>
      subst rest
      have atMost := utf8CheckFirst_le (string.getD i 0)
      rw [utf8CheckFrom.eq_def]
      split
      · simp only
        split
        · exact ⟨false, rfl⟩
        split
        · rw [if_neg (by omega)]
          split
          · exact ⟨false, rfl⟩
          split
          · exact ⟨false, rfl⟩
          · exact ih _ (by omega) rfl
        · exact ih _ (by omega) rfl
      · exact ⟨true, rfl⟩

end

/-- `utf8_check_string` checks as many bytes of a string as the conversion of its length leaves, and accepts exactly
    the texts. Up to INT_MAX bytes these are all; of a longer string the rest is not looked at, and there may be no
    byte left to check. -/
theorem utf8CheckString_iff (string : CString) :
    (utf8CheckString string (-1) = some true ↔
      Valid (string.bytes.take (intOfSize string.bytes.length).toNat)) ∧
    (string.bytes.length ≤ intMax → (utf8CheckString string (-1) = some true ↔ Valid string.bytes)) ∧
    (string.bytes.length + 3 ≤ intMax → ∃ accepted, utf8CheckString string (-1) = some accepted) := by
  have checked : utf8CheckString string (-1) = some true ↔
      Valid (string.bytes.take (intOfSize string.bytes.length).toNat) := by
    rw [utf8CheckString, if_pos rfl]
    obtain ⟨inside, fits⟩ := intOfSize_le string.bytes.length
    by_cases negative : intOfSize string.bytes.length < 0
    · rw [utf8CheckFrom.eq_def, if_neg (by omega), Int.toNat_of_nonpos (by omega), List.take_zero]
      exact iff_of_true rfl valid_nil
    · obtain ⟨length, same⟩ := Int.eq_ofNat_of_zero_le (Int.not_lt.mp negative)
      rw [same] at inside fits ⊢
      exact utf8CheckFrom_iff (by omega) (by omega)
  refine ⟨checked, fun small => ?_, fun short => ?_⟩
  · rw [checked, intOfSize_of_le small, Int.toNat_natCast, List.take_length]
  · rw [utf8CheckString, if_pos rfl]
    exact exists_utf8CheckFrom (by rw [intOfSize_of_le (by omega)]; omega)

end CpuMiner.Jansson
