/-
Module: CpuMiner.Wire.Strings
Layer: JSON
Purpose: `lex_scan_string`. Its first loop comes to the closing quote exactly when the text up to there is a string as
  far as its escapes go (`scanStringText_run`, `scanStringText_scanning`); its second loop stays inside its block, and
  gives the bytes that the string stands for if there are any (`scanStringValue_raw`). Together they read the strings of
  the grammar and no others.
Imports: CpuMiner.Wire.Scanning
Trusted boundary: none
Main exports: scanStringText_scanning, scanStringText_run, scanStringValue_raw, scanStringValue_run,
  lexScanString_scanning, lexScanString_run
Open obligations: none
-/
import CpuMiner.Wire.Scanning

namespace CpuMiner.Jansson

open Words
open Utf8

variable {ρ : Type} {lex : Lex ρ} {saved text : List Byte}

/-! ### The text of a string -/

theorem invalidEscape : ascii "invalid escape" ≠ [] := by decide

/-- A character is given back, and there is an error. -/
theorem refuse_scanning {α : Type} (scanning : lex.Scanning saved text) (a : α) {msg : List Byte} (more : msg ≠ []) :
    ∃ lex', ((lexUngetUnsave lex (text.headD eof)).bind fun lex => (lexError lex msg).bind fun lex => some (a, lex)) =
      some (a, lex') ∧ lex.Frame lex' ∧ ∃ saved' text', lex'.At saved' text' := by
  obtain ⟨given, unget, at', frame, _⟩ := lexUngetUnsave_scanning scanning
  obtain ⟨last, error, at'', frame'⟩ := lexError_at at' more
  exact ⟨last, by simp only [unget, error, Option.bind_some], frame.trans frame', _, _, at''⟩

/-- Digits are scanned until there are enough of them. -/
theorem scanHexDigits_run {digits rest : List Byte} (digit : ∀ c ∈ digits, Hex.isDigit c = true)
    (scanning : lex.Scanning saved (digits ++ rest)) :
    ∃ lex', scanHexDigits digits.length ((digits ++ rest).headD eof) lex = some (some (rest.headD eof), lex') ∧
      lex'.Scanning (saved ++ digits) rest ∧ lex.Frame lex' := by
  induction digits generalizing lex saved with
  | nil => exact ⟨lex, rfl, by simpa using scanning, .refl lex⟩
  | cons c digits ih =>
      rw [List.cons_append] at scanning ⊢
      obtain ⟨next, get, scanning', frame⟩ := lexGetSave_scanning scanning
      obtain ⟨last, more, scanning'', frame'⟩ := ih (fun d listed => digit d (List.mem_cons_of_mem c listed)) scanning'
      refine ⟨last, ?_, by simpa using scanning'', frame.trans frame'⟩
      simp only [scanHexDigits, List.length_cons, List.headD_cons, digit c List.mem_cons_self, if_true,
        get, Option.bind_eq_bind, Option.bind_some, more]

theorem scanHexDigits_scanning {left : Nat} (scanning : lex.Scanning saved text) :
    ∃ next lex', scanHexDigits left (text.headD eof) lex = some (next, lex') ∧ lex.Frame lex' ∧
      ((next = none ∧ ∃ saved' text', lex'.At saved' text') ∨
        ∃ digits rest, text = digits ++ rest ∧ digits.length = left ∧ (∀ c ∈ digits, Hex.isDigit c = true) ∧
          next = some (rest.headD eof) ∧ lex'.Scanning (saved ++ digits) rest) := by
  induction left generalizing lex saved text with
  | zero => exact ⟨_, lex, rfl, .refl lex, .inr ⟨[], text, rfl, rfl, by simp, rfl, by simpa using scanning⟩⟩
  | succ left ih =>
      cases digit : Hex.isDigit (text.headD eof) with
      | false =>
          obtain ⟨last, refused, frame, at'⟩ := refuse_scanning scanning (none : Option Byte) invalidEscape
          refine ⟨none, last, ?_, frame, .inl ⟨rfl, at'⟩⟩
          rw [scanHexDigits, digit]
          exact refused
      | true =>
          cases text with
          | nil => exact absurd digit (by decide)
          | cons c text =>
              obtain ⟨got, get, scanning', frame⟩ := lexGetSave_scanning scanning
              obtain ⟨next, last, more, frame', result⟩ := ih scanning'
              refine ⟨next, last, ?_, frame.trans frame', ?_⟩
              · simp only [scanHexDigits, digit, if_true, get, Option.bind_eq_bind, Option.bind_some, more]
              · rcases result with fails | ⟨digits, rest, rfl, length, digits', rfl, scanning''⟩
                · exact .inl fails
                · refine .inr ⟨c :: digits, rest, rfl, congrArg (· + 1) length, ?_, rfl, by simpa using scanning''⟩
                  intro d listed
                  rcases List.mem_cons.mp listed with rfl | later
                  · exact digit
                  · exact digits' d later

/-- A string with its closing quote is scanned. -/
theorem scanStringText_run {raw rest : List Byte} {fuel : Nat} (string : RawText raw)
    (scanning : lex.Scanning saved (raw ++ quote :: rest)) (enough : raw.length < fuel) :
    ∃ lex', scanStringText fuel ((raw ++ quote :: rest).headD eof) lex = some (true, lex') ∧
      lex'.At (saved ++ raw ++ [quote]) rest ∧ lex.Frame lex' := by
  induction string generalizing lex saved fuel with
  | nil =>
      obtain ⟨fuel, rfl⟩ : ∃ k, fuel = k + 1 := ⟨fuel - 1, by simp at enough; omega⟩
      refine ⟨lex, ?_, ?_, .refl lex⟩
      · simp only [scanStringText, List.nil_append, List.headD_cons, if_true]
      · simpa using scanning.pass
  | @plain c raw plain _ ih =>
      obtain ⟨fuel, rfl⟩ : ∃ k, fuel = k + 1 := ⟨fuel - 1, by omega⟩
      rw [List.cons_append] at scanning ⊢
      obtain ⟨next, get, scanning', frame⟩ := lexGetSave_scanning scanning
      obtain ⟨last, more, at', frame'⟩ := ih scanning' (Nat.lt_of_succ_lt_succ enough)
      refine ⟨last, ?_, by simpa using at', frame.trans frame'⟩
      simp only [scanStringText, List.headD_cons, if_neg plain.notQuote, if_neg plain.notEof,
        if_neg plain.notControl, if_neg plain.notBackslash, get, Option.bind_eq_bind, Option.bind_some, more]
  | @escape c raw listed _ ih =>
      obtain ⟨fuel, rfl⟩ : ∃ k, fuel = k + 1 := ⟨fuel - 1, by omega⟩
      have notU : c ≠ 0x75 := by
        rintro rfl
        exact absurd listed (by decide)
      rw [List.cons_append, List.cons_append] at scanning ⊢
      obtain ⟨next, get, scanning', frame⟩ := lexGetSave_scanning scanning
      obtain ⟨next', get', scanning'', frame'⟩ := lexGetSave_scanning scanning'
      obtain ⟨last, more, at', frame''⟩ := @ih next' _ fuel scanning''
        (by simp only [List.length_cons] at enough; omega)
      refine ⟨last, ?_, by simpa using at', (frame.trans frame').trans frame''⟩
      rw [List.headD_cons] at get
      simp only [scanStringText, List.headD_cons, get, Option.bind_eq_bind, Option.bind_some,
        if_neg notU, if_pos (mem_simpleEscapes.mp listed), get', more,
        if_neg (show backslash ≠ quote by decide), if_neg (show backslash ≠ eof by decide),
        if_neg (show ¬ backslash ≤ 0x1F by decide), if_true]
  | @unicode digits raw four _ ih =>
      obtain ⟨fuel, rfl⟩ : ∃ k, fuel = k + 1 := ⟨fuel - 1, by omega⟩
      rw [List.cons_append, List.cons_append, List.append_assoc] at scanning ⊢
      obtain ⟨lex₁, get₁, scanning₁, frame₁⟩ := lexGetSave_scanning scanning
      obtain ⟨lex₂, get₂, scanning₂, frame₂⟩ := lexGetSave_scanning scanning₁
      obtain ⟨lex₃, digits₃, scanning₃, frame₃⟩ := scanHexDigits_run four.digit scanning₂
      obtain ⟨last, more, at', frame₄⟩ := @ih lex₃ _ fuel scanning₃ (by
        simp only [List.length_cons, List.length_append] at enough
        omega)
      refine ⟨last, ?_, by simpa using at', ((frame₁.trans frame₂).trans frame₃).trans frame₄⟩
      rw [List.headD_cons] at get₁
      rw [four.length] at digits₃
      simp only [scanStringText, List.headD_cons, get₁, Option.bind_eq_bind, Option.bind_some, get₂, digits₃, more,
        if_neg (show backslash ≠ quote by decide), if_neg (show backslash ≠ eof by decide),
        if_neg (show ¬ backslash ≤ 0x1F by decide), if_true]

/-- The first loop ends, and when it has come to a closing quote there was a string before it. -/
theorem scanStringText_scanning {fuel : Nat} (scanning : lex.Scanning saved text) (enough : text.length < fuel) :
    ∃ closed lex', scanStringText fuel (text.headD eof) lex = some (closed, lex') ∧ lex.Frame lex' ∧
      ((closed = false ∧ ∃ saved' text', lex'.At saved' text') ∨
        closed = true ∧ ∃ raw rest, text = raw ++ quote :: rest ∧ RawText raw ∧
          lex'.At (saved ++ raw ++ [quote]) rest) := by
  induction fuel generalizing lex saved text with
  | zero => exact absurd enough (Nat.not_lt_zero _)
  | succ fuel ih =>
      rw [scanStringText]
      by_cases isEof : text.headD eof = eof
      · have notQuote : text.headD eof ≠ quote := by
          rw [isEof]
          decide
        obtain ⟨given, unget, at', frame, _⟩ := lexUngetUnsave_scanning scanning
        rw [if_neg notQuote, if_pos isEof, unget]
        simp only [Option.bind_eq_bind, Option.bind_some]
        split
        · obtain ⟨last, error, at'', frame'⟩ := @lexError_at ρ given saved text at' (ascii "premature end of input")
            (by decide)
          exact ⟨false, last, by simp only [error, Option.bind_some, Option.pure_def], frame.trans frame',
            .inl ⟨rfl, _, _, at''⟩⟩
        · exact ⟨false, given, rfl, frame, .inl ⟨rfl, _, _, at'⟩⟩
      · obtain ⟨c, text, rfl⟩ := List.exists_cons_of_ne_nil (show text ≠ [] by rintro rfl; exact isEof rfl)
        rw [List.headD_cons] at isEof ⊢
        rw [List.length_cons] at enough
        by_cases isQuote : c = quote
        · subst isQuote
          rw [if_pos rfl]
          exact ⟨true, lex, rfl, .refl lex, .inr ⟨rfl, [], text, rfl, .nil, by simpa using scanning.pass⟩⟩
        · rw [if_neg isQuote, if_neg isEof]
          by_cases control : c ≤ 0x1F
          · rw [if_pos control]
            obtain ⟨last, refused, frame, at'⟩ := @refuse_scanning ρ lex saved (c :: text) Bool scanning false
              (if c = 0x0A then ascii "unexpected newline" else ascii "control character 0x" ++ formatX c.toNat)
              (by split <;> simp [ascii])
            exact ⟨false, last, refused, frame, .inl ⟨rfl, at'⟩⟩
          · rw [if_neg control]
            obtain ⟨lex₁, get₁, scanning₁, frame₁⟩ := lexGetSave_scanning scanning
            by_cases isBackslash : c = backslash
            · subst isBackslash
              simp only [if_true, get₁, Option.bind_eq_bind, Option.bind_some]
              by_cases isU : text.headD eof = 0x75
              · rw [if_pos isU]
                obtain ⟨c, text, rfl⟩ := List.exists_cons_of_ne_nil (show text ≠ [] by
                  rintro rfl
                  exact absurd isU (by decide))
                obtain rfl : c = 0x75 := isU
                obtain ⟨lex₂, get₂, scanning₂, frame₂⟩ := lexGetSave_scanning scanning₁
                obtain ⟨next, lex₃, scan₃, frame₃, result₃⟩ := @scanHexDigits_scanning ρ lex₂ _ _ 4 scanning₂
                simp only [get₂, Option.bind_some, scan₃]
                rcases result₃ with ⟨rfl, at'⟩ | ⟨digits, rest, rfl, length, digit, rfl, scanning₃⟩
                · exact ⟨false, lex₃, rfl, (frame₁.trans frame₂).trans frame₃, .inl ⟨rfl, at'⟩⟩
                · rw [List.length_cons, List.length_append] at enough
                  obtain ⟨closed, last, scan, frame, result⟩ := ih scanning₃ (by omega)
                  refine ⟨closed, last, scan, ((frame₁.trans frame₂).trans frame₃).trans frame, ?_⟩
                  rcases result with failed | ⟨rfl, raw, rest, rfl, string, at'⟩
                  · exact .inl failed
                  · exact .inr ⟨rfl, backslash :: 0x75 :: (digits ++ raw), rest, by simp,
                      .unicode ⟨length, digit⟩ string, by simpa using at'⟩
              · rw [if_neg isU]
                by_cases listed : text.headD eof ∈ simpleEscapes
                · rw [if_pos (mem_simpleEscapes.mp listed)]
                  obtain ⟨c, text, rfl⟩ := List.exists_cons_of_ne_nil (show text ≠ [] by
                    rintro rfl
                    exact absurd listed (by decide))
                  obtain ⟨lex₂, get₂, scanning₂, frame₂⟩ := lexGetSave_scanning scanning₁
                  rw [List.length_cons] at enough
                  obtain ⟨closed, last, scan, frame, result⟩ := ih scanning₂ (by omega)
                  simp only [get₂, Option.bind_some, scan]
                  refine ⟨closed, last, rfl, (frame₁.trans frame₂).trans frame, ?_⟩
                  rcases result with failed | ⟨rfl, raw, rest, rfl, string, at'⟩
                  · exact .inl failed
                  · exact .inr ⟨rfl, backslash :: c :: raw, rest, rfl, .escape listed string, by simpa using at'⟩
                · rw [if_neg (mem_simpleEscapes.not.mp listed)]
                  obtain ⟨last, refused, frame, at'⟩ := refuse_scanning scanning₁ false invalidEscape
                  exact ⟨false, last, refused, frame₁.trans frame, .inl ⟨rfl, at'⟩⟩
            · obtain ⟨closed, last, scan, frame, result⟩ := ih scanning₁ (by omega)
              simp only [if_neg isBackslash, get₁, Option.bind_eq_bind, Option.bind_some, scan]
              refine ⟨closed, last, rfl, frame₁.trans frame, ?_⟩
              rcases result with failed | ⟨rfl, raw, rest, rfl, string, at'⟩
              · exact .inl failed
              · exact .inr ⟨rfl, c :: raw, rest, rfl, .plain ⟨control, isQuote, isBackslash, isEof⟩ string,
                  by simpa using at'⟩

/-! ### The value of a string -/

theorem decodeDigits_digit {c : Byte} (digit : Hex.isDigit c = true) (value left : Nat) (str : List Byte) :
    decodeDigits value (left + 1) (c :: str) = decodeDigits (16 * value + Hex.value c) left str := by
  have same : ∀ c : Byte, Hex.isDigit c = true →
      (isDecimal c = true ∧ c.toNat - 0x30 = Hex.value c) ∨
      (isDecimal c = false ∧ (0x61 ≤ c ∧ c ≤ 0x7A) ∧ c.toNat - 0x61 + 10 = Hex.value c) ∨
      (isDecimal c = false ∧ ¬ (0x61 ≤ c ∧ c ≤ 0x7A) ∧ (0x41 ≤ c ∧ c ≤ 0x5A) ∧ c.toNat - 0x41 + 10 = Hex.value c) := by
    decide +kernel
  have shift : value <<< 4 = 16 * value := by
    rw [Nat.shiftLeft_eq]
    omega
  rw [decodeDigits, shift]
  rcases same c digit with ⟨decimal, number⟩ | ⟨decimal, lower, number⟩ | ⟨decimal, lower, upper, number⟩
  · rw [if_pos decimal, number]
  · rw [decimal, if_neg Bool.false_ne_true, if_pos lower, number]
  · rw [decimal, if_neg Bool.false_ne_true, if_neg lower, if_pos upper, number]

theorem decodeDigits_eq {digits : List Byte} (digit : ∀ c ∈ digits, Hex.isDigit c = true) (value : Nat)
    (rest : List Byte) :
    decodeDigits value digits.length (digits ++ rest) =
      some (digits.foldl (fun v c => 16 * v + Hex.value c) value) := by
  induction digits generalizing value with
  | nil => rfl
  | cons c digits ih =>
      rw [List.length_cons, List.cons_append, decodeDigits_digit (digit c List.mem_cons_self),
        ih fun d listed => digit d (List.mem_cons_of_mem c listed)]
      rfl

/-- Four digits are decoded. -/
theorem decodeUnicodeEscape_eq {digits : List Byte} (four : FourDigits digits) (rest : List Byte) :
    decodeUnicodeEscape (0x75 :: (digits ++ rest)) = some (hexNumber digits) := by
  have decoded := decodeDigits_eq four.digit 0 rest
  rw [four.length] at decoded
  exact decoded

theorem drop_escape {digits : List Byte} (four : FourDigits digits) (rest : List Byte) :
    (0x75 :: (digits ++ rest)).drop 5 = rest := by
  rw [List.drop_succ_cons, ← four.length, List.drop_left]

theorem exists_char {n : Nat} (small : n < 0x110000) (noSurrogate : ¬ (0xD800 ≤ n ∧ n ≤ 0xDFFF)) :
    ∃ c : Char, c.toNat = n :=
  @InRange.exists_char 0 n ⟨small, noSurrogate, by simp⟩

theorem put_eq {size : Nat} {t bytes : List Byte} (fits : t.length + bytes.length ≤ size) :
    put size t bytes = some (t ++ bytes) := if_pos fits

theorem simpleEscape_eq_some {c b : Byte} : simpleEscape c = some b ↔ (c, b) ∈ escapes := by
  have all : ∀ c : Byte, (simpleEscape c).all fun b => decide ((c, b) ∈ escapes) := by decide +kernel
  have each : (escapes.all fun p => simpleEscape p.1 == some p.2) = true := by decide +kernel
  refine ⟨fun some => ?_, fun listed => eq_of_beq (List.all_eq_true.mp each _ listed)⟩
  have listed := all c
  rw [some] at listed
  exact of_decide_eq_true listed

theorem hexNumber_lt {digits : List Byte} (four : FourDigits digits) : hexNumber digits < 0x10000 := by
  have bound : ∀ {ds : List Byte} {v : Nat}, (∀ c ∈ ds, Hex.isDigit c = true) →
      ds.foldl (fun v c => 16 * v + Hex.value c) v < (v + 1) * 16 ^ ds.length := by
    intro ds
    induction ds with
    | nil =>
        intro v _
        simp
    | cons c ds ih =>
        intro v digit
        have small := Hex.value_lt (digit c List.mem_cons_self)
        have later := @ih (16 * v + Hex.value c) fun d listed => digit d (List.mem_cons_of_mem c listed)
        refine Nat.lt_of_lt_of_le later ?_
        rw [List.length_cons, Nat.pow_succ', ← Nat.mul_assoc]
        exact Nat.mul_le_mul_right _ (by omega)
  have small := @bound digits 0 four.digit
  rw [four.length] at small
  exact small

/-- The value of a pair of surrogates. -/
theorem scanUnicode_pair {high low : List Byte} (four : FourDigits high) (four' : FourDigits low)
    (isHigh : 0xD800 ≤ hexNumber high ∧ hexNumber high ≤ 0xDBFF)
    (isLow : 0xDC00 ≤ hexNumber low ∧ hexNumber low ≤ 0xDFFF) (rest : List Byte) :
    scanUnicode (0x75 :: (high ++ backslash :: 0x75 :: (low ++ rest))) =
      some (.ok (0x10000 + (hexNumber high - 0xD800) * 0x400 + (hexNumber low - 0xDC00), rest)) := by
  have number : ((hexNumber high - 0xD800) <<< 10) + (hexNumber low - 0xDC00) + 0x10000 =
      0x10000 + (hexNumber high - 0xD800) * 0x400 + (hexNumber low - 0xDC00) := by
    rw [Nat.shiftLeft_eq]
    omega
  simp only [scanUnicode, decodeUnicodeEscape_eq four, drop_escape four, Option.bind_eq_bind, Option.bind_some,
    if_pos isHigh, List.headD_cons, List.tail_cons, and_self, if_true, decodeUnicodeEscape_eq four', if_pos isLow,
    drop_escape four', number, Option.pure_def]

/-- The value of another character. -/
theorem scanUnicode_single {digits : List Byte} (four : FourDigits digits)
    (noSurrogate : ¬ (0xD800 ≤ hexNumber digits ∧ hexNumber digits ≤ 0xDFFF)) (notZero : hexNumber digits ≠ 0)
    (rest : List Byte) : scanUnicode (0x75 :: (digits ++ rest)) = some (.ok (hexNumber digits, rest)) := by
  simp only [scanUnicode, decodeUnicodeEscape_eq four, drop_escape four, Option.bind_eq_bind, Option.bind_some,
    if_neg (show ¬ (0xD800 ≤ hexNumber digits ∧ hexNumber digits ≤ 0xDBFF) by omega),
    if_neg (show ¬ (0xDC00 ≤ hexNumber digits ∧ hexNumber digits ≤ 0xDFFF) by omega), if_neg notZero, Option.pure_def]

theorem scanStringValue_refused {size fuel : Nat} {p t msg : List Byte} (unicode : scanUnicode p = some (.error msg))
    (isU : p.headD 0 = 0x75) : scanStringValue size (fuel + 1) (backslash :: p) t = some (.error msg) := by
  rw [scanStringValue, if_neg (show backslash ≠ quote by decide), if_pos rfl, if_pos isU, unicode]
  rfl

theorem scanStringValue_unicode {size fuel : Nat} {p t rest : List Byte} {c : Char}
    (unicode : scanUnicode p = some (.ok (c.toNat, rest))) (isU : p.headD 0 = 0x75)
    (fits : t.length + (encode c).length ≤ size) :
    scanStringValue size (fuel + 1) (backslash :: p) t = scanStringValue size fuel rest (t ++ encode c) := by
  rw [scanStringValue, if_neg (show backslash ≠ quote by decide), if_pos rfl, if_pos isU, unicode]
  simp only [Option.bind_eq_bind, Option.bind_some, utf8Encode_char, put_eq fits]

/-- The bytes that a string stands for come out of the second loop. -/
theorem scanStringValue_run {size fuel : Nat} {value raw t : List Byte} (string : StringText value raw)
    (room : t.length + raw.length + 1 ≤ size) (enough : raw.length < fuel) :
    scanStringValue size fuel (raw ++ [quote]) t = some (.ok (t ++ value)) := by
  induction string generalizing t fuel with
  | nil =>
      obtain ⟨fuel, rfl⟩ : ∃ k, fuel = k + 1 := ⟨fuel - 1, by simp at enough; omega⟩
      have fits : t.length + [(0 : Byte)].length ≤ size := room
      rw [List.nil_append, scanStringValue, if_pos rfl, put_eq fits, List.append_nil]
      rfl
  | @plain c value raw plain _ ih =>
      obtain ⟨fuel, rfl⟩ : ∃ k, fuel = k + 1 := ⟨fuel - 1, by omega⟩
      rw [List.length_cons] at room enough
      have fits : t.length + [c].length ≤ size := by rw [List.length_singleton]; omega
      rw [List.cons_append, scanStringValue, if_neg plain.notQuote, if_neg plain.notBackslash, put_eq fits]
      simp only [Option.bind_eq_bind, Option.bind_some]
      rw [@ih fuel (t ++ [c]) (by rw [List.length_append, List.length_singleton]; omega) (by omega),
        List.append_assoc, List.singleton_append]
  | @escape c b value raw listed _ ih =>
      obtain ⟨fuel, rfl⟩ : ∃ k, fuel = k + 1 := ⟨fuel - 1, by omega⟩
      simp only [List.length_cons] at room enough
      have notU : c ≠ 0x75 := by
        rintro rfl
        have none : simpleEscape 0x75 = some b := simpleEscape_eq_some.mpr listed
        cases none
      have fits : t.length + [b].length ≤ size := by rw [List.length_singleton]; omega
      rw [List.cons_append, List.cons_append, scanStringValue, if_neg (show backslash ≠ quote by decide), if_pos rfl,
        List.headD_cons, if_neg notU, simpleEscape_eq_some.mpr listed]
      simp only [Option.bind_eq_bind, Option.bind_some, put_eq fits, List.tail_cons]
      rw [@ih fuel (t ++ [b]) (by rw [List.length_append, List.length_singleton]; omega) (by omega),
        List.append_assoc, List.singleton_append]
  | @unicode digits value raw c four number notZero _ ih =>
      obtain ⟨fuel, rfl⟩ : ∃ k, fuel = k + 1 := ⟨fuel - 1, by omega⟩
      simp only [List.length_cons, List.length_append, four.length] at room enough
      have noSurrogate := (inRange_char c).noSurrogate
      have lengths := length_encode c
      have fits : t.length + (encode c).length ≤ size := by omega
      rw [← number] at noSurrogate notZero
      have unicode := scanUnicode_single four noSurrogate notZero (raw ++ [quote])
      rw [number] at unicode
      rw [List.cons_append, List.cons_append, List.append_assoc, scanStringValue_unicode unicode rfl fits,
        @ih fuel (t ++ encode c) (by rw [List.length_append]; omega) (by omega), List.append_assoc]
  | @pair high low value raw c four four' geHigh leHigh geLow leLow number _ ih =>
      obtain ⟨fuel, rfl⟩ : ∃ k, fuel = k + 1 := ⟨fuel - 1, by omega⟩
      simp only [List.length_cons, List.length_append, four.length, four'.length] at room enough
      have lengths := length_encode c
      have fits : t.length + (encode c).length ≤ size := by omega
      have unicode := scanUnicode_pair four four' ⟨geHigh, leHigh⟩ ⟨geLow, leLow⟩ (raw ++ [quote])
      rw [← number] at unicode
      rw [List.cons_append, List.cons_append, List.append_assoc, List.cons_append, List.cons_append, List.append_assoc,
        scanStringValue_unicode unicode rfl fits,
        @ih fuel (t ++ encode c) (by rw [List.length_append]; omega) (by omega), List.append_assoc]

/-- What comes of a `\u`: an error, a character, or a character of two of them. -/
theorem scanUnicode_raw {digits raw : List Byte} (four : FourDigits digits) (string : RawText raw) :
    ∃ r, scanUnicode (0x75 :: (digits ++ (raw ++ [quote]))) = some r ∧
      ((∃ msg, r = .error msg ∧ msg ≠ []) ∨
      (∃ c : Char, hexNumber digits = c.toNat ∧ c.toNat ≠ 0 ∧ r = .ok (c.toNat, raw ++ [quote])) ∨
      ∃ (low raw' : List Byte) (c : Char), raw = backslash :: 0x75 :: (low ++ raw') ∧ FourDigits low ∧ RawText raw' ∧
        (0xD800 ≤ hexNumber digits ∧ hexNumber digits ≤ 0xDBFF) ∧ (0xDC00 ≤ hexNumber low ∧ hexNumber low ≤ 0xDFFF) ∧
        c.toNat = 0x10000 + (hexNumber digits - 0xD800) * 0x400 + (hexNumber low - 0xDC00) ∧
        r = .ok (c.toNat, raw' ++ [quote])) := by
  have small := hexNumber_lt four
  have begins : ∀ rest, ascii "invalid Unicode '\\u" ++ rest ≠ [] := fun rest =>
    List.append_ne_nil_of_left_ne_nil (by decide) rest
  have single : ascii "invalid Unicode '\\u" ++ format04X (hexNumber digits) ++ ascii "'" ≠ [] := by
    rw [List.append_assoc]
    exact begins _
  by_cases high : 0xD800 ≤ hexNumber digits ∧ hexNumber digits ≤ 0xDBFF
  · by_cases second : (raw ++ [quote]).headD 0 = backslash ∧ (raw ++ [quote]).tail.headD 0 = 0x75
    · -- what looks like a second escape is one, since the string was scanned
      obtain ⟨low, raw', rfl, four', string'⟩ : ∃ low raw', raw = backslash :: 0x75 :: (low ++ raw') ∧
          FourDigits low ∧ RawText raw' := by
        cases string with
        | nil => exact absurd second.1 (by decide)
        | plain plain _ => exact absurd second.1 plain.notBackslash
        | escape listed _ =>
            obtain rfl := second.2
            exact absurd listed (by decide)
        | unicode four' string' => exact ⟨_, _, rfl, four', string'⟩
      rw [List.cons_append, List.cons_append, List.append_assoc]
      by_cases isLow : 0xDC00 ≤ hexNumber low ∧ hexNumber low ≤ 0xDFFF
      · obtain ⟨c, number⟩ := @exists_char (0x10000 + (hexNumber digits - 0xD800) * 0x400 + (hexNumber low - 0xDC00))
          (by omega) (by omega)
        refine ⟨_, ?_, .inr (.inr ⟨low, raw', c, rfl, four', string', high, isLow, number, rfl⟩)⟩
        rw [scanUnicode_pair four four' high isLow, number]
      · refine ⟨.error (ascii "invalid Unicode '\\u" ++ format04X (hexNumber digits) ++ ascii "\\u" ++
          format04X (hexNumber low) ++ ascii "'"), ?_, .inl ⟨_, rfl, ?_⟩⟩
        · simp only [scanUnicode, decodeUnicodeEscape_eq four, drop_escape four, Option.bind_eq_bind, Option.bind_some,
            if_pos high, List.headD_cons, List.tail_cons, and_self, if_true, decodeUnicodeEscape_eq four', if_neg isLow,
            Option.pure_def]
        · simp only [List.append_assoc]
          exact begins _
    · refine ⟨_, ?_, .inl ⟨_, rfl, single⟩⟩
      simp only [scanUnicode, decodeUnicodeEscape_eq four, drop_escape four, Option.bind_eq_bind, Option.bind_some,
        if_pos high, if_neg second, Option.pure_def]
  · by_cases low : 0xDC00 ≤ hexNumber digits ∧ hexNumber digits ≤ 0xDFFF
    · refine ⟨_, ?_, .inl ⟨_, rfl, single⟩⟩
      simp only [scanUnicode, decodeUnicodeEscape_eq four, drop_escape four, Option.bind_eq_bind, Option.bind_some,
        if_neg high, if_pos low, Option.pure_def]
    · by_cases zero : hexNumber digits = 0
      · refine ⟨.error (ascii "\\u0000 is not allowed"), ?_, .inl ⟨_, rfl, by decide⟩⟩
        simp only [scanUnicode, decodeUnicodeEscape_eq four, drop_escape four, Option.bind_eq_bind, Option.bind_some,
          if_neg high, if_neg low, if_pos zero, Option.pure_def]
      · obtain ⟨c, number⟩ := @exists_char (hexNumber digits) (by omega) (by omega)
        refine ⟨_, scanUnicode_single four (by omega) zero _, .inr (.inl ⟨c, number.symm, ?_, ?_⟩)⟩
        · rwa [number]
        · rw [number]

/-- The second loop ends inside its block, with an error or with the bytes that the string stands for. -/
theorem scanStringValue_raw {size fuel : Nat} {raw t : List Byte} (string : RawText raw)
    (room : t.length + raw.length + 1 ≤ size) (enough : raw.length < fuel) :
    ∃ r, scanStringValue size fuel (raw ++ [quote]) t = some r ∧
      ((∃ msg, r = .error msg ∧ msg ≠ []) ∨ ∃ value, StringText value raw ∧ r = .ok (t ++ value)) := by
  induction fuel generalizing raw t with
  | zero => exact absurd enough (Nat.not_lt_zero _)
  | succ fuel ih =>
      cases string with
      | nil => exact ⟨_, scanStringValue_run .nil room enough, .inr ⟨[], .nil, by rw [List.append_nil]⟩⟩
      | @plain c raw plain string =>
          rw [List.length_cons] at room enough
          have fits : t.length + [c].length ≤ size := by rw [List.length_singleton]; omega
          obtain ⟨r, scan, result⟩ := @ih raw (t ++ [c]) string
            (by rw [List.length_append, List.length_singleton]; omega) (by omega)
          refine ⟨r, ?_, result.imp_right ?_⟩
          · rw [List.cons_append, scanStringValue, if_neg plain.notQuote, if_neg plain.notBackslash, put_eq fits]
            exact scan
          · rintro ⟨value, string', rfl⟩
            exact ⟨c :: value, .plain plain string', by simp⟩
      | @escape c raw listed string =>
          obtain ⟨b, isEscape⟩ : ∃ b, simpleEscape c = some b := by
            have all : (simpleEscapes.all fun c => (simpleEscape c).isSome) = true := by decide +kernel
            exact Option.isSome_iff_exists.mp (List.all_eq_true.mp all c listed)
          have notU : c ≠ 0x75 := by
            rintro rfl
            exact absurd listed (by decide)
          simp only [List.length_cons] at room enough
          have fits : t.length + [b].length ≤ size := by rw [List.length_singleton]; omega
          obtain ⟨r, scan, result⟩ := @ih raw (t ++ [b]) string
            (by rw [List.length_append, List.length_singleton]; omega) (by omega)
          refine ⟨r, ?_, result.imp_right ?_⟩
          · rw [List.cons_append, List.cons_append, scanStringValue, if_neg (show backslash ≠ quote by decide),
              if_pos rfl, List.headD_cons, if_neg notU, isEscape]
            simp only [Option.bind_eq_bind, Option.bind_some, put_eq fits, List.tail_cons, scan]
          · rintro ⟨value, string', rfl⟩
            exact ⟨b :: value, .escape (simpleEscape_eq_some.mp isEscape) string', by simp⟩
      | @unicode digits raw four string =>
          simp only [List.length_cons, List.length_append, four.length] at room enough
          obtain ⟨first, unicode, result⟩ := scanUnicode_raw four string
          rw [List.cons_append, List.cons_append, List.append_assoc]
          rcases result with ⟨msg, rfl, more⟩ | ⟨c, number, notZero, rfl⟩ |
            ⟨low, raw', c, rfl, four', string', high, isLow, number, rfl⟩
          · exact ⟨_, scanStringValue_refused unicode rfl, .inl ⟨msg, rfl, more⟩⟩
          · have lengths := length_encode c
            obtain ⟨r, scan, result⟩ := @ih raw (t ++ encode c) string (by rw [List.length_append]; omega) (by omega)
            refine ⟨r, ?_, result.imp_right ?_⟩
            · rw [scanStringValue_unicode unicode rfl (by omega), scan]
            · rintro ⟨value, string', rfl⟩
              exact ⟨encode c ++ value, .unicode four number notZero string', by simp⟩
          · have lengths := length_encode c
            simp only [List.length_cons, List.length_append, four'.length] at room enough
            obtain ⟨r, scan, result⟩ := @ih raw' (t ++ encode c) string' (by rw [List.length_append]; omega) (by omega)
            refine ⟨r, ?_, result.imp_right ?_⟩
            · rw [scanStringValue_unicode unicode rfl (by omega), scan]
            · rintro ⟨value, string'', rfl⟩
              exact ⟨encode c ++ value, .pair four four' high.1 high.2 isLow.1 isLow.2 number string'', by simp⟩

/-! ### The scanner -/

theorem length_stringText (raw : List Byte) : (stringText raw).length = raw.length + 2 := by simp [stringText]

theorem tail_stringText (raw : List Byte) : (stringText raw).tail = raw ++ [quote] := rfl

/-- A string is taken with its closing quote, or there is an error. -/
theorem lexScanString_scanning (libc : Libc ρ) (at' : lex.At [quote] text) :
    ∃ lex', lexScanString lex = some lex' ∧ lex'.Took libc lex.errno (quote :: text) := by
  obtain ⟨first, get, scanning, frame⟩ := @lexGetSave_at ρ { lex with token := .invalid } _ _
    ⟨at'.holds, at'.noNul, at'.reads⟩
  have enough := at'.lt_lexFuel
  obtain ⟨closed, second, scan, frame', result⟩ :=
    @scanStringText_scanning ρ first _ _ (lexFuel lex) scanning (by omega)
  have invalid : second.token = .invalid := frame'.token.trans frame.token
  have errno : second.errno = lex.errno := frame'.errno.trans frame.errno
  rcases result with ⟨rfl, saved', rest, at''⟩ | ⟨rfl, raw, rest, rfl, string, at''⟩
  · refine ⟨second, ?_, saved', rest, at'', .inl invalid⟩
    simp only [lexScanString, get, Option.bind_eq_bind, Option.bind_some, scan, Bool.false_eq_true, if_false,
      Option.pure_def]
  · replace at'' : second.At (stringText raw) rest := at''
    have read := at''.holds.cstr_value at''.noNul
    have length := at''.holds.length
    have size := length_stringText raw
    obtain ⟨r, value, result⟩ := @scanStringValue_raw (second.savedText.length + 1) (stringText raw).length raw []
      string (by rw [length, size, List.length_nil]; omega) (by rw [size]; omega)
    rcases result with ⟨msg, rfl, more⟩ | ⟨value', string', rfl⟩
    · obtain ⟨last, error, at''', frame''⟩ := lexError_at at'' more
      refine ⟨last, ?_, _, rest, at''', .inl (frame''.token.trans invalid)⟩
      simp only [lexScanString, get, Option.bind_eq_bind, Option.bind_some, scan, if_true, read, tail_stringText, value,
        error]
    · refine ⟨{ second with token := .string value' }, ?_, _, rest, ⟨at''.holds, at''.noNul, at''.reads⟩,
        .inr ⟨stringText raw, by simp [stringText], ?_⟩⟩
      · simp only [lexScanString, get, Option.bind_eq_bind, Option.bind_some, scan, if_true, read, tail_stringText,
          value, Option.pure_def, List.nil_append]
      · rw [show second.errno = lex.errno from errno]
        exact .string string'

/-- Every string of the grammar is read. -/
theorem lexScanString_run {value raw rest : List Byte} (string : StringText value raw)
    (at' : lex.At [quote] (raw ++ quote :: rest)) :
    ∃ lex', lexScanString lex = some lex' ∧ lex'.HasToken lex.errno (.string value) rest := by
  obtain ⟨first, get, scanning, frame⟩ := @lexGetSave_at ρ { lex with token := .invalid } _ _
    ⟨at'.holds, at'.noNul, at'.reads⟩
  have enough := at'.lt_lexFuel
  rw [List.length_append] at enough
  obtain ⟨second, scan, at'', frame'⟩ := @scanStringText_run ρ first _ _ _ (lexFuel lex) string.raw scanning (by omega)
  replace at'' : second.At (stringText raw) rest := at''
  have read := at''.holds.cstr_value at''.noNul
  have length := at''.holds.length
  have size := length_stringText raw
  have written := @scanStringValue_run (second.savedText.length + 1) (stringText raw).length value raw [] string
    (by rw [length, size, List.length_nil]; omega) (by rw [size]; omega)
  refine ⟨{ second with token := .string value }, ?_, frame'.errno.trans frame.errno, rfl, _,
    ⟨at''.holds, at''.noNul, at''.reads⟩⟩
  simp only [lexScanString, get, Option.bind_eq_bind, Option.bind_some, scan, if_true, read, tail_stringText, written,
    Option.pure_def, List.nil_append]

end CpuMiner.Jansson
