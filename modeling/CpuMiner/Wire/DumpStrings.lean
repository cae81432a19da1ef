/-
Module: CpuMiner.Wire.DumpStrings
Layer: JSON
Purpose: What `dump_string` writes: each character of the string for itself or as an escape, between quotes. It is a
  string of the grammar with the bytes that were given.
Imports: CpuMiner.Wire.Dump, CpuMiner.Wire.Values
Trusted boundary: none
Main exports: Prints, charsText, dumpString_prints, stringText_chars, valid_charsText
Open obligations: none
-/
import CpuMiner.Wire.Dump
import CpuMiner.Wire.Values

namespace CpuMiner.Jansson

open Words
open Utf8

/-- The function writes this text behind what the buffer holds, and returns 0. -/
def Prints (dumper : Dumper) (text : List Byte) : Prop :=
  ∀ data before, Strbuffer.Holds data before → ∃ data', dumper data = some (true, data') ∧ data'.Holds (before ++ text)

theorem dump_prints (buffer : List Byte) : Prints (dump buffer) buffer := by
  intro data before holds
  obtain ⟨data', appends, holds'⟩ := strbufferAppendBytes_holds holds buffer
  exact ⟨data', by rw [dump, appends, Option.map_some], holds'⟩

/-! ### Escapes -/

/-- The digits of `%04x`. -/
theorem format04x_eq {n : Nat} (small : n < 0x10000) :
    format04x n =
      [n / 4096, n / 256 % 16, n / 16 % 16, n % 16].map fun d => BitVec.ofNat 8 (Nat.digitChar d).toNat := by
  have zero : Nat.digitChar 0 = '0' := rfl
  have one : ∀ d, d < 16 → Nat.toDigits 16 d = [Nat.digitChar d] := fun d digit => by
    rw [Nat.toDigits_eq_if (by decide), if_pos digit]
  have more : ∀ d, ¬ d < 16 → Nat.toDigits 16 d = Nat.toDigits 16 (d / 16) ++ [Nat.digitChar (d % 16)] :=
    fun d large => by rw [Nat.toDigits_eq_if (by decide), if_neg large]
  have twice : n / 16 / 16 = n / 256 := Nat.div_div_eq_div_mul n 16 16
  have thrice : n / 256 / 16 = n / 4096 := Nat.div_div_eq_div_mul n 256 16
  simp only [format04x, ascii, String.toList_ofList]
  by_cases first : n < 16
  · have rest : n / 4096 = 0 ∧ n / 256 % 16 = 0 ∧ n / 16 % 16 = 0 ∧ n % 16 = n := by omega
    rw [one n first, rest.1, rest.2.1, rest.2.2.1, rest.2.2.2]
    rfl
  · rw [more n first]
    by_cases second : n / 16 < 16
    · have rest : n / 4096 = 0 ∧ n / 256 % 16 = 0 ∧ n / 16 % 16 = n / 16 := by omega
      rw [one _ second, rest.1, rest.2.1, rest.2.2]
      rfl
    · rw [more _ second, twice]
      by_cases third : n / 256 < 16
      · have rest : n / 4096 = 0 ∧ n / 256 % 16 = n / 256 := by omega
        rw [one _ third, rest.1, rest.2]
        rfl
      · have last : n / 4096 < 16 := by omega
        rw [more _ third, thrice, one _ last]
        rfl

theorem format04x_digits {n : Nat} (small : n < 0x10000) :
    FourDigits (format04x n) ∧ hexNumber (format04x n) = n := by
  have digit : ∀ d : Nat, d < 16 → Hex.isDigit (BitVec.ofNat 8 (Nat.digitChar d).toNat) = true ∧
      Hex.value (BitVec.ofNat 8 (Nat.digitChar d).toNat) = d := by decide
  have d₀ := digit (n / 4096) (by omega)
  have d₁ := digit (n / 256 % 16) (Nat.mod_lt _ (by decide))
  have d₂ := digit (n / 16 % 16) (Nat.mod_lt _ (by decide))
  have d₃ := digit (n % 16) (Nat.mod_lt _ (by decide))
  rw [format04x_eq small]
  refine ⟨⟨rfl, ?_⟩, ?_⟩
  · simp only [List.map_cons, List.map_nil, List.mem_cons, List.not_mem_nil, or_false]
    rintro c (rfl | rfl | rfl | rfl)
    exacts [d₀.1, d₁.1, d₂.1, d₃.1]
  · simp only [hexNumber, List.map_cons, List.map_nil, List.foldl_cons, List.foldl_nil, d₀.2, d₁.2, d₂.2, d₃.2]
    omega

/-- A character as it is written. -/
def charText (ascii : Bool) (c : Char) : List Byte :=
  if mustEscape ascii c.toNat then escapeText c.toNat else encode c

def charsText (ascii : Bool) (cs : List Char) : List Byte := cs.flatMap (charText ascii)

/-- A surrogate pair. -/
theorem surrogates {n : Nat} (small : n < 0x100000) :
    0xD800 ||| ((n &&& 0xFFC00) >>> 10) = 0xD800 + n / 0x400 ∧ 0xDC00 ||| (n &&& 0x003FF) = 0xDC00 + n % 0x400 := by
  have low : n &&& 0x003FF = n % 0x400 := Nat.and_two_pow_sub_one_eq_mod n 10
  have high : (n &&& 0xFFC00) >>> 10 = n / 0x400 := by
    have split : (n &&& 0xFFC00) >>> 10 = (n >>> 10) &&& 0x3FF := Nat.shiftRight_and_distrib
    rw [split, Nat.shiftRight_eq_div_pow]
    exact (Nat.and_two_pow_sub_one_eq_mod _ 10).trans (Nat.mod_eq_of_lt (by omega))
  have one : 0xD800 + n / 0x400 = 0xD800 ||| n / 0x400 := Nat.two_pow_add_eq_or_of_lt (i := 10) (by omega) 54
  have two : 0xDC00 + n % 0x400 = 0xDC00 ||| n % 0x400 := Nat.two_pow_add_eq_or_of_lt (i := 10) (by omega) 55
  rw [low, high, one, two]
  exact ⟨rfl, rfl⟩

theorem ascii_mark (rest : List Byte) : ascii "\\u" ++ rest = backslash :: 0x75 :: rest := by
  have mark : ascii "\\u" = [backslash, 0x75] := by decide
  rw [mark, List.cons_append, List.cons_append, List.nil_append]

/-- An escaped character is one of the grammar. -/
theorem StringText.escaped {value text : List Byte} {c : Char} (nonzero : c.toNat ≠ 0)
    (string : StringText value text) : StringText (encode c ++ value) (escapeText c.toNat ++ text) := by
  have simple : ∀ {s : String} (letter : Byte), c.toNat < 0x80 → ascii s = [backslash, letter] →
      (letter, byteOf c.toNat) ∈ escapes → StringText (encode c ++ value) (ascii s ++ text) := by
    intro s letter small written listed
    rw [encode_ascii small, written]
    exact .escape listed string
  have unicode := toNat_lt c
  unfold escapeText
  split_ifs with isBackslash isQuote isBack isFeed isLine isReturn isTab bmp
  · exact simple 0x5C (by omega) (by decide) (by rw [isBackslash]; decide)
  · exact simple 0x22 (by omega) (by decide) (by rw [isQuote]; decide)
  · exact simple 0x62 (by omega) (by decide) (by rw [isBack]; decide)
  · exact simple 0x66 (by omega) (by decide) (by rw [isFeed]; decide)
  · exact simple 0x6E (by omega) (by decide) (by rw [isLine]; decide)
  · exact simple 0x72 (by omega) (by decide) (by rw [isReturn]; decide)
  · exact simple 0x74 (by omega) (by decide) (by rw [isTab]; decide)
  · obtain ⟨four, number⟩ := format04x_digits bmp
    have whole := StringText.unicode four number nonzero string
    rw [List.append_assoc, ascii_mark]
    exact whole
  · have small : c.toNat - 0x10000 < 0x100000 := by omega
    obtain ⟨first, last⟩ := surrogates small
    simp only [first, last]
    have high : 0xD800 + (c.toNat - 0x10000) / 0x400 < 0x10000 := by omega
    have low : 0xDC00 + (c.toNat - 0x10000) % 0x400 < 0x10000 := by omega
    obtain ⟨four, number⟩ := format04x_digits high
    obtain ⟨four', number'⟩ := format04x_digits low
    have whole := StringText.pair (c := c) four four' (by omega) (by omega) (by omega) (by omega) (by omega) string
    rw [List.append_assoc, List.append_assoc, List.append_assoc, ascii_mark, ascii_mark]
    exact whole

theorem mustEscape_eq_false {ascii : Bool} {codepoint : Nat} :
    mustEscape ascii codepoint = false ↔
      codepoint ≠ 0x5C ∧ codepoint ≠ 0x22 ∧ 0x20 ≤ codepoint ∧ (ascii = true → codepoint ≤ 0x7F) := by
  simp only [mustEscape, decide_eq_false_iff_not, not_or, not_and, Nat.not_lt]

/-- The bytes of another character may stand in a string. -/
theorem plain_encode {ascii : Bool} {c : Char} (free : mustEscape ascii c.toNat = false) :
    ∀ b ∈ encode c, isPlain b = true := by
  obtain ⟨notBackslash, notQuote, notControl, _⟩ := mustEscape_eq_false.mp free
  have low : ∀ b : Byte, b.toNat ≠ 0x5C → b.toNat ≠ 0x22 → 0x20 ≤ b.toNat → b.toNat < 0x80 → isPlain b = true := by
    decide
  have high : ∀ b : Byte, 0x80 ≤ b.toNat → b ≠ eof → isPlain b = true := by decide
  intro b listed
  by_cases small : c.toNat < 0x80
  · rw [encode_ascii small, List.mem_singleton] at listed
    have value : b.toNat = c.toNat := by
      rw [listed, BitVec.toNat_ofNat]
      omega
    exact low b (by omega) (by omega) (by omega) (by omega)
  · exact high b (le_of_mem_encode small listed) fun isEof => eof_not_mem_encode c (isEof ▸ listed)

/-- What is written for the characters of a string is a string of the grammar. -/
theorem stringText_chars (ascii : Bool) {cs : List Char} (noNul : 0 ∉ encodeAll cs) :
    StringText (encodeAll cs) (charsText ascii cs) := by
  induction cs with
  | nil => exact .nil
  | cons c cs ih =>
      rw [encodeAll_cons, List.mem_append, not_or] at noNul
      have nonzero : c.toNat ≠ 0 := by
        intro zero
        refine noNul.1 ?_
        rw [encode_ascii (by omega), zero]
        exact List.mem_singleton_self _
      have rest := ih noNul.2
      have written : charsText ascii (c :: cs) = charText ascii c ++ charsText ascii cs := rfl
      rw [encodeAll_cons, written, charText]
      cases escape : mustEscape ascii c.toNat with
      | true => exact rest.escaped nonzero
      | false => exact rest.plains (plain_encode escape)

/-- An escape has ASCII bytes only. -/
theorem ascii_escapeText {codepoint : Nat} (unicode : codepoint < 0x110000) :
    ∀ b ∈ escapeText codepoint, b.toNat < 0x80 := by
  have four : ∀ {n : Nat}, n < 0x10000 → ∀ b ∈ format04x n, b.toNat < 0x80 := fun small =>
    (format04x_digits small).1.ascii
  have mark : ∀ b ∈ ascii "\\u", b.toNat < 0x80 := by decide
  unfold escapeText
  split_ifs with _ _ _ _ _ _ _ bmp
  any_goals decide
  · intro b listed
    rcases List.mem_append.mp listed with front | digit
    · exact mark b front
    · exact four bmp b digit
  · have small : codepoint - 0x10000 < 0x100000 := by omega
    obtain ⟨first, last⟩ := surrogates small
    simp only [first, last]
    intro b listed
    simp only [List.mem_append] at listed
    rcases listed with ((front | high) | front) | low
    · exact mark b front
    · exact four (by omega) b high
    · exact mark b front
    · exact four (by omega) b low

/-- What is written is in UTF-8. -/
theorem valid_charsText (ascii : Bool) (cs : List Char) : Valid (charsText ascii cs) := by
  induction cs with
  | nil => exact valid_nil
  | cons c cs ih =>
      have first : Valid (charText ascii c) := by
        unfold charText
        split
        · exact valid_ascii (ascii_escapeText (toNat_lt c))
        · exact valid_encode c
      exact first.append ih

/-- With JSON_ENSURE_ASCII there are ASCII bytes only. -/
theorem ascii_charsText (cs : List Char) : ∀ b ∈ charsText true cs, b.toNat < 0x80 := by
  intro b listed
  obtain ⟨c, _, written⟩ := List.mem_flatMap.mp listed
  rw [charText] at written
  split at written
  · exact ascii_escapeText (toNat_lt c) b written
  · rename_i free
    have small := (mustEscape_eq_false.mp (Bool.eq_false_iff.mpr free)).2.2.2 rfl
    have plain : c.toNat < 0x80 := by omega
    rw [encode_ascii plain, List.mem_singleton] at written
    rw [written, BitVec.toNat_ofNat]
    omega

/-! ### The loops -/

/-- Where the inner loop stops. -/
def stopOf : List Char → Option (Nat × List Byte)
  | [] => none
  | c :: cs => some (c.toNat, encodeAll cs)

theorem utf8Iterate_encode (c : Char) (rest : List Byte) : utf8Iterate (encode c ++ rest) = some (c.toNat, rest) := by
  have more : encode c ++ rest ≠ [] := List.append_ne_nil_of_left_ne_nil (encode_ne_nil c) rest
  exact (utf8Iterate_eq_some more).mpr ⟨c, rfl, rfl⟩

/-- The inner loop goes on to the first character that has to be escaped. -/
theorem plainLoop_eq (ascii : Bool) (cs : List Char) :
    ∀ {fuel : Nat} (str : List Byte), (encodeAll cs).length ≤ fuel →
      ∃ plain rest, cs = plain ++ rest ∧ (∀ c ∈ plain, mustEscape ascii c.toNat = false) ∧
        (∀ c ∈ rest.head?, mustEscape ascii c.toNat = true) ∧
        plainLoop ascii fuel str (encodeAll cs) = some (some (str ++ encodeAll plain, stopOf rest)) := by
  induction cs with
  | nil =>
      intro fuel str _
      refine ⟨[], [], rfl, fun _ listed => absurd listed List.not_mem_nil, nofun, ?_⟩
      cases fuel <;> simp [encodeAll, plainLoop, stopOf]
  | cons c cs ih =>
      intro fuel str enough
      obtain ⟨u, tail, first⟩ := List.exists_cons_of_ne_nil (encode_ne_nil c)
      have whole : encodeAll (c :: cs) = u :: (tail ++ encodeAll cs) := by rw [encodeAll_cons, first, List.cons_append]
      have iterates : utf8Iterate (u :: (tail ++ encodeAll cs)) = some (c.toNat, encodeAll cs) := by
        rw [← whole, encodeAll_cons, utf8Iterate_encode]
      rw [whole] at enough ⊢
      obtain ⟨fuel, rfl⟩ : ∃ n, fuel = n + 1 := ⟨fuel - 1, by rw [List.length_cons] at enough; omega⟩
      cases escape : mustEscape ascii c.toNat with
      | true =>
          refine ⟨[], c :: cs, rfl, fun _ listed => absurd listed List.not_mem_nil, ?_, ?_⟩
          · rintro d ⟨⟩
            exact escape
          · have nothing : encodeAll [] = [] := rfl
            simp only [plainLoop, iterates, escape, if_true, nothing, List.append_nil, stopOf]
      | false =>
          have taken :
              (u :: (tail ++ encodeAll cs)).take ((u :: (tail ++ encodeAll cs)).length - (encodeAll cs).length) =
                encode c := by
            have split : u :: (tail ++ encodeAll cs) = encode c ++ encodeAll cs := by rw [first, List.cons_append]
            rw [split, List.length_append, Nat.add_sub_cancel, List.take_left]
          have shorter : (encodeAll cs).length ≤ fuel := by
            rw [List.length_cons, List.length_append] at enough
            omega
          obtain ⟨plain, rest, rfl, free, stops, loops⟩ := ih (str ++ encode c) shorter
          refine ⟨c :: plain, rest, rfl, ?_, stops, ?_⟩
          · intro d listed
            rcases List.mem_cons.mp listed with rfl | later
            · exact escape
            · exact free d later
          · simp only [plainLoop, iterates, escape, taken, loops, Bool.false_eq_true, if_false, encodeAll_cons,
              List.append_assoc]

theorem charsText_plain {ascii : Bool} {plain : List Char} (free : ∀ c ∈ plain, mustEscape ascii c.toNat = false)
    (rest : List Char) : charsText ascii (plain ++ rest) = encodeAll plain ++ charsText ascii rest := by
  induction plain with
  | nil => rfl
  | cons c plain ih =>
      have first : charText ascii c = encode c := by rw [charText, free c List.mem_cons_self]; rfl
      have later := ih fun d listed => free d (List.mem_cons_of_mem c listed)
      have written : charsText ascii (c :: (plain ++ rest)) = charText ascii c ++ charsText ascii (plain ++ rest) := rfl
      rw [List.cons_append, written, first, later, encodeAll_cons, List.append_assoc]

theorem length_le_encodeAll (cs : List Char) : cs.length ≤ (encodeAll cs).length := by
  induction cs with
  | nil => exact Nat.le_refl _
  | cons c cs ih =>
      have some := List.length_pos_iff.mpr (encode_ne_nil c)
      rw [encodeAll_cons, List.length_append, List.length_cons]
      omega

/-- There is one pass more than there are escapes. -/
theorem stringLoop_prints (ascii : Bool) (fuel : Nat) :
    ∀ {cs : List Char}, cs.length < fuel →
      Prints (stringLoop ascii fuel (encodeAll cs)) (charsText ascii cs ++ [quote]) := by
  induction fuel with
  | zero => exact fun enough => absurd enough (Nat.not_lt_zero _)
  | succ fuel ih =>
      intro cs enough data before holds
      obtain ⟨plain, rest, rfl, free, stops, loops⟩ := plainLoop_eq ascii cs [] (Nat.le_refl _)
      rw [List.nil_append] at loops
      -- what is before `pos` is written
      obtain ⟨data₁, appends, holds₁⟩ : ∃ data₁,
          (if (encodeAll plain).isEmpty then some data else strbufferAppendBytes data (encodeAll plain)) = some data₁ ∧
            data₁.Holds (before ++ encodeAll plain) := by
        cases nothing : (encodeAll plain).isEmpty with
        | true =>
            refine ⟨data, if_pos rfl, ?_⟩
            rwa [List.isEmpty_iff.mp nothing, List.append_nil]
        | false =>
            obtain ⟨data₁, appends, holds₁⟩ := strbufferAppendBytes_holds holds (encodeAll plain)
            exact ⟨data₁, by rw [if_neg Bool.false_ne_true, appends], holds₁⟩
      rw [charsText_plain free]
      cases rest with
      | nil =>
          obtain ⟨data₂, ends, holds₂⟩ := dump_prints [quote] data₁ _ holds₁
          refine ⟨data₂, ?_, by simpa [charsText] using holds₂⟩
          simp only [stringLoop, loops, stopOf, appends, ends, Option.bind_eq_bind, Option.bind_some]
      | cons c rest =>
          have escape : charText ascii c = escapeText c.toNat := by rw [charText, stops c rfl]; rfl
          have written : charsText ascii (c :: rest) = escapeText c.toNat ++ charsText ascii rest := by
            rw [← escape]
            rfl
          obtain ⟨data₂, escapes, holds₂⟩ := strbufferAppendBytes_holds holds₁ (escapeText c.toNat)
          have shorter : rest.length < fuel := by
            rw [List.length_append, List.length_cons] at enough
            omega
          obtain ⟨data₃, later, holds₃⟩ := ih shorter data₂ _ holds₂
          refine ⟨data₃, ?_, by rw [written]; simpa only [List.append_assoc] using holds₃⟩
          simp only [stringLoop, loops, stopOf, appends, escapes, later, Option.bind_eq_bind, Option.bind_some]

/-- `dump_string` writes a string in UTF-8 between quotes. -/
theorem dumpString_prints (ascii : Bool) (cs : List Char) :
    Prints (dumpString ascii (encodeAll cs)) (stringText (charsText ascii cs)) := by
  intro data before holds
  obtain ⟨data₁, first, holds₁⟩ := strbufferAppendBytes_holds holds [quote]
  have enough : cs.length < (encodeAll cs).length + 1 := Nat.lt_succ_of_le (length_le_encodeAll cs)
  obtain ⟨data₂, loops, holds₂⟩ := stringLoop_prints ascii _ enough data₁ _ holds₁
  refine ⟨data₂, ?_, by simpa [stringText] using holds₂⟩
  simp only [dumpString, first, loops, Option.bind_eq_bind, Option.bind_some]

end CpuMiner.Jansson
