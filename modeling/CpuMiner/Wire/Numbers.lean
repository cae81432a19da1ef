/-
Module: CpuMiner.Wire.Numbers
Layer: JSON
Purpose: `lex_scan_number`. It takes the numbers of the grammar: a whole number that an `int` can be, and every other
  number, unless `errno` says that it is out of range. The assertions hold: a whole number is read by `strtol` to its
  end.
Imports: CpuMiner.Wire.Scanning
Trusted boundary: none
Main exports: strtol_integer, strtolEnd_integer, scanInteger_scanning, scanReal_scanning, lexScanNumber_scanning,
  lexScanNumber_integer_run, lexScanNumber_real_run
Open obligations: none
-/
import CpuMiner.Wire.Scanning

namespace CpuMiner.Jansson

open Words

variable {ρ : Type} {libc : Libc ρ} {lex : Lex ρ} {saved text : List Byte}

/-! ### The C library on whole numbers -/

theorem Decimals.takeWhile {digits : List Byte} (decimals : Decimals digits) :
    digits.takeWhile isDecimal = digits := by
  have taken := @List.takeWhile_append_of_pos _ isDecimal digits [] decimals.digit
  simpa using taken

theorem isSpace_decimal {c : Byte} (digit : isDecimal c = true) : isSpace c = false ∧ c ≠ 0x2D ∧ c ≠ 0x2B := by
  have all : ∀ c : Byte, isDecimal c = true → isSpace c = false ∧ c ≠ 0x2D ∧ c ≠ 0x2B := by decide +kernel
  exact all c digit

theorem Decimals.exists_cons {digits : List Byte} (decimals : Decimals digits) :
    ∃ c rest, digits = c :: rest ∧ isDecimal c = true := by
  obtain ⟨c, rest, rfl⟩ := List.exists_cons_of_ne_nil decimals.some
  exact ⟨c, rest, rfl, decimals.digit c List.mem_cons_self⟩

/-- `strtol` reads a whole number, to the limits of a `long`. -/
theorem strtol_integer {value : Int} (integer : IntegerText value saved) (longMax : Nat) :
    strtol longMax saved = max (-(longMax : Int) - 1) (min longMax value) := by
  cases integer with
  | @intro negative digits number =>
      cases negative with
      | true =>
          have space : isSpace 0x2D = false := by decide
          simp only [signText, if_true, signed, List.singleton_append, strtol, List.dropWhile_cons, space,
            Bool.false_eq_true, if_false]
          omega
      | false =>
          obtain ⟨c, rest, rfl, digit⟩ := number.decimals.exists_cons
          obtain ⟨space, minus, plus⟩ := isSpace_decimal digit
          simp only [signText, Bool.false_eq_true, if_false, signed, List.nil_append, strtol, List.dropWhile_cons,
            space, if_neg minus, if_neg plus]
          omega

/-- It stops at the end. -/
theorem strtolEnd_integer {value : Int} (integer : IntegerText value saved) : strtolEnd saved = saved.length := by
  cases integer with
  | @intro negative digits number =>
      have some := number.decimals.some
      cases negative with
      | true =>
          have space : isSpace 0x2D = false := by decide
          simp only [signText, if_true, List.singleton_append, strtolEnd, List.dropWhile_cons, space,
            Bool.false_eq_true, if_false, List.headD_cons, true_or, List.drop_succ_cons, List.drop_zero,
            number.decimals.takeWhile, if_neg some, List.takeWhile_cons, List.length_nil, List.length_cons]
          omega
      | false =>
          have takeWhile := number.decimals.takeWhile
          obtain ⟨c, rest, rfl, digit⟩ := number.decimals.exists_cons
          obtain ⟨space, minus, plus⟩ := isSpace_decimal digit
          have noSign : ¬ (c = 0x2D ∨ c = 0x2B) := not_or.mpr ⟨minus, plus⟩
          simp only [signText, Bool.false_eq_true, if_false, List.nil_append, strtolEnd, List.dropWhile_cons, space,
            List.headD_cons, if_neg noSign, List.drop_zero, takeWhile, if_neg some, List.takeWhile_cons,
            List.length_nil]
          omega

/-- It sets `errno` for a number beyond the limits. -/
theorem strtolRange_integer {value : Int} (integer : IntegerText value saved) (longMax : Nat) :
    strtolRange longMax saved = decide (¬ (-(longMax : Int) - 1 ≤ value ∧ value ≤ longMax)) := by
  cases integer with
  | @intro negative digits number =>
      cases negative with
      | true =>
          have space : isSpace 0x2D = false := by decide
          simp only [signText, if_true, signed, List.singleton_append, strtolRange, List.dropWhile_cons, space,
            Bool.false_eq_true, if_false]
          exact decide_eq_decide.mpr (by omega)
      | false =>
          obtain ⟨c, rest, rfl, digit⟩ := number.decimals.exists_cons
          obtain ⟨space, minus, plus⟩ := isSpace_decimal digit
          simp only [signText, Bool.false_eq_true, if_false, signed, List.nil_append, strtolRange, List.dropWhile_cons,
            space, if_neg minus, if_neg plus]
          exact decide_eq_decide.mpr (by omega)

/-! ### The ends of the scanner -/

/-- An error behind a number that has been read. -/
theorem lexError_errno (at' : lex.At saved text) (errno : Bool) {msg : List Byte} (more : msg ≠ []) :
    ∃ lex', lexError { lex with errno := errno } msg = some lex' ∧ lex'.At saved text ∧ lex'.token = lex.token := by
  obtain ⟨last, error, at'', frame⟩ := @lexError_at ρ { lex with errno := errno } saved text
    ⟨at'.holds, at'.noNul, at'.reads⟩ msg more
  exact ⟨last, error, at'', frame.token⟩

/-- A whole number is taken if an `int` can be it. -/
theorem scanInteger_scanning (longMax : intMax ≤ libc.longMax) {value : Int} (integer : IntegerText value saved)
    (scanning : lex.Scanning saved text) :
    ∃ lex', scanInteger libc lex (text.headD eof) = some lex' ∧ lex'.At saved text ∧
      ((InInt value ∧ libc.integerErrno lex.errno value = some lex'.errno ∧ lex'.token = .integer value) ∨
        (¬ (InInt value ∧ libc.integerErrno lex.errno value ≠ none) ∧ lex'.token = lex.token)) := by
  obtain ⟨given, unget, at', frame, _⟩ := lexUngetUnsave_scanning scanning
  have read := at'.holds.cstr_value at'.noNul
  have ends : ¬ strtolEnd saved ≠ given.savedText.length := by
    rw [strtolEnd_integer integer, at'.holds.length]
    exact not_not.mpr rfl
  simp only [scanInteger, unget, Option.bind_eq_bind, Option.bind_some, read, if_neg ends, strtol_integer integer,
    strtolRange_integer integer, frame.errno]
  by_cases inInt : InInt value
  · obtain ⟨low, high⟩ := inInt
    have same : max (-(libc.longMax : Int) - 1) (min libc.longMax value) = value := by omega
    have inRange : decide (¬ (-(libc.longMax : Int) - 1 ≤ value ∧ value ≤ libc.longMax)) = false :=
      decide_eq_false (by omega)
    simp only [same, inRange, Bool.or_false]
    by_cases limit : lex.errno = true ∧ (value = libc.longMax ∨ value = -(libc.longMax : Int) - 1)
    · have refused : ¬ (InInt value ∧ libc.integerErrno lex.errno value ≠ none) := fun accepted =>
        accepted.2 (if_pos limit)
      obtain ⟨before, largest | smallest⟩ := limit
      · obtain ⟨last, error, at'', token⟩ := @lexError_errno ρ given saved text at' lex.errno (ascii "too big integer")
          (by decide)
        rw [if_pos (.inl ⟨largest, before⟩)]
        exact ⟨last, error, at'', .inr ⟨refused, token.trans frame.token⟩⟩
      · obtain ⟨last, error, at'', token⟩ := @lexError_errno ρ given saved text at' lex.errno
          (ascii "too big negative integer") (by decide)
        rw [if_neg (by omega), if_pos (.inl ⟨smallest, before⟩)]
        exact ⟨last, error, at'', .inr ⟨refused, token.trans frame.token⟩⟩
    · refine ⟨{ given with token := .integer value, errno := lex.errno }, ?_, ⟨at'.holds, at'.noNul, at'.reads⟩,
        .inl ⟨⟨low, high⟩, if_neg limit, rfl⟩⟩
      rw [if_neg, if_neg]
      · rfl
      · rintro (⟨smallest, before⟩ | under)
        · exact limit ⟨before, .inr smallest⟩
        · omega
      · rintro (⟨largest, before⟩ | large)
        · exact limit ⟨before, .inl largest⟩
        · omega
  · have refused : ¬ (InInt value ∧ libc.integerErrno lex.errno value ≠ none) := fun accepted => inInt accepted.1
    -- a `long` may be no larger than an `int`, and then it is `errno` that says so
    by_cases large : value > intMax
    · have found : (max (-(libc.longMax : Int) - 1) (min libc.longMax value) = libc.longMax ∧
          (lex.errno || decide (¬ (-(libc.longMax : Int) - 1 ≤ value ∧ value ≤ libc.longMax))) = true) ∨
          max (-(libc.longMax : Int) - 1) (min libc.longMax value) > intMax := by
        by_cases beyond : value ≤ libc.longMax
        · exact .inr (by omega)
        · refine .inl ⟨by omega, ?_⟩
          rw [Bool.or_eq_true, decide_eq_true_eq]
          exact .inr fun inside => beyond inside.2
      obtain ⟨last, error, at'', token⟩ := @lexError_errno ρ given saved text at'
        (lex.errno || decide (¬ (-(libc.longMax : Int) - 1 ≤ value ∧ value ≤ libc.longMax))) (ascii "too big integer")
        (by decide)
      rw [if_pos found]
      exact ⟨last, error, at'', .inr ⟨refused, token.trans frame.token⟩⟩
    · have under : value < -(intMax : Int) - 1 := by
        unfold InInt at inInt
        omega
      have found : (max (-(libc.longMax : Int) - 1) (min libc.longMax value) = -(libc.longMax : Int) - 1 ∧
          (lex.errno || decide (¬ (-(libc.longMax : Int) - 1 ≤ value ∧ value ≤ libc.longMax))) = true) ∨
          max (-(libc.longMax : Int) - 1) (min libc.longMax value) < -(intMax : Int) - 1 := by
        by_cases beyond : -(libc.longMax : Int) - 1 ≤ value
        · exact .inr (by omega)
        · refine .inl ⟨by omega, ?_⟩
          rw [Bool.or_eq_true, decide_eq_true_eq]
          exact .inr fun inside => beyond inside.1
      obtain ⟨last, error, at'', token⟩ := @lexError_errno ρ given saved text at'
        (lex.errno || decide (¬ (-(libc.longMax : Int) - 1 ≤ value ∧ value ≤ libc.longMax)))
        (ascii "too big negative integer") (by decide)
      rw [if_neg (by omega), if_pos found]
      exact ⟨last, error, at'', .inr ⟨refused, token.trans frame.token⟩⟩

/-- Another number is taken if it is not out of range. -/
theorem scanReal_scanning (scanning : lex.Scanning saved text) :
    ∃ lex', scanReal libc lex (text.headD eof) = some lex' ∧ lex'.At saved text ∧
      ((libc.realErrno lex.errno saved = some lex'.errno ∧ lex'.token = .real (libc.strtod saved).1) ∨
        (libc.realErrno lex.errno saved = none ∧ lex'.token = lex.token)) := by
  obtain ⟨given, unget, at', frame, _⟩ := lexUngetUnsave_scanning scanning
  have read := at'.holds.cstr_value at'.noNul
  simp only [scanReal, unget, Option.bind_eq_bind, Option.bind_some, read, frame.errno]
  by_cases large : (lex.errno || (libc.strtod saved).2) = true ∧ ¬ libc.isZero (libc.strtod saved).1 = true
  · obtain ⟨last, error, at'', token⟩ := @lexError_errno ρ given saved text at' (lex.errno || (libc.strtod saved).2)
      (ascii "real number overflow") (by decide)
    refine ⟨last, ?_, at'', .inr ⟨if_pos large, token.trans frame.token⟩⟩
    rw [if_pos large, error]
  · refine ⟨_, if_neg large, ⟨at'.holds, at'.noNul, at'.reads⟩, .inl ⟨if_neg large, rfl⟩⟩

/-! ### Digits -/

theorem isDecimal_eof : isDecimal eof = false := by decide

theorem exists_cons_of_headD {p : Byte → Bool} (notEof : p eof = false) (member : p (text.headD eof) = true) :
    ∃ c rest, text = c :: rest ∧ p c = true := by
  cases text with
  | nil => exact absurd member (by rw [List.headD_nil, notEof]; exact Bool.false_ne_true)
  | cons c rest => exact ⟨c, rest, rfl, member⟩

theorem takeWhile_decimals (digit : isDecimal (text.headD eof) = true) : Decimals (text.takeWhile isDecimal) where
  some := by
    obtain ⟨c, rest, rfl, member⟩ := exists_cons_of_headD isDecimal_eof digit
    rw [List.takeWhile_cons_of_pos member]
    exact List.cons_ne_nil _ _
  digit := List.all_eq_true.mp List.all_takeWhile

/-- Digits are taken, as many as there are. -/
theorem scanDecimals_scanning (scanning : lex.Scanning saved text) (digit : isDecimal (text.headD eof) = true) :
    ∃ c first last, lexGetSave lex = some (c, first) ∧
      scanDecimals (lexFuel first) c first = some ((text.dropWhile isDecimal).headD eof, last) ∧
      last.Scanning (saved ++ text.takeWhile isDecimal) (text.dropWhile isDecimal) ∧ lex.Frame last := by
  obtain ⟨c, rest, rfl, member⟩ := exists_cons_of_headD isDecimal_eof digit
  obtain ⟨first, get, scanning', frame⟩ := lexGetSave_scanning scanning
  have enough := scanning'.lt_lexFuel
  obtain ⟨last, scan, scanning'', frame'⟩ := @scanWhile_scanning ρ first _ _ isDecimal isDecimal_eof (lexFuel first)
    scanning' (by omega)
  refine ⟨rest.headD eof, first, last, get, ?_, ?_, frame.trans frame'⟩
  · rw [List.dropWhile_cons_of_pos member]
    exact scan
  · rw [List.dropWhile_cons_of_pos member, List.takeWhile_cons_of_pos member]
    simpa using scanning''

theorem takeWhile_of_headD (other : isDecimal (text.headD eof) = false) :
    text.takeWhile isDecimal = [] ∧ text.dropWhile isDecimal = text := by
  cases text with
  | nil => exact ⟨rfl, rfl⟩
  | cons c rest =>
      rw [List.headD_cons] at other
      exact ⟨by simp [other], by simp [other]⟩

/-- The digits, when it is known how they end. -/
theorem takeWhile_append_decimals {digits rest : List Byte} (decimals : Decimals digits)
    (ends : isDecimal (rest.headD eof) = false) :
    (digits ++ rest).takeWhile isDecimal = digits ∧ (digits ++ rest).dropWhile isDecimal = rest := by
  rw [List.takeWhile_append_of_pos decimals.digit, List.dropWhile_append_of_pos decimals.digit,
    (takeWhile_of_headD ends).1, (takeWhile_of_headD ends).2, List.append_nil]
  exact ⟨rfl, rfl⟩

/-! ### Exponents and fractions -/

/-- A character that may be there. -/
theorem scanOptional_run {P : Byte → Prop} [DecidablePred P] {taken rest : List Byte}
    (form : (taken = [] ∧ ¬ P (rest.headD eof)) ∨ ∃ c, taken = [c] ∧ P c)
    (scanning : lex.Scanning saved (taken ++ rest)) :
    ∃ lex', (if P ((taken ++ rest).headD eof) then lexGetSave lex else some ((taken ++ rest).headD eof, lex)) =
      some (rest.headD eof, lex') ∧ lex'.Scanning (saved ++ taken) rest ∧ lex.Frame lex' := by
  rcases form with ⟨rfl, other⟩ | ⟨c, rfl, member⟩
  · refine ⟨lex, ?_, by simpa using scanning, .refl lex⟩
    rw [List.nil_append, if_neg other]
  · rw [List.singleton_append] at scanning ⊢
    obtain ⟨next, get, scanning', frame⟩ := lexGetSave_scanning scanning
    refine ⟨next, ?_, scanning', frame⟩
    rw [List.headD_cons, if_pos member, get]

theorem exists_optional {P : Byte → Prop} (notEof : ¬ P eof) (text : List Byte) :
    ∃ taken rest, text = taken ++ rest ∧ ((taken = [] ∧ ¬ P (rest.headD eof)) ∨ ∃ c, taken = [c] ∧ P c) := by
  by_cases member : P (text.headD eof)
  · obtain ⟨c, rest, rfl⟩ := List.exists_cons_of_ne_nil (show text ≠ [] by
      rintro rfl
      exact notEof member)
    exact ⟨[c], rest, rfl, .inr ⟨c, rfl, member⟩⟩
  · exact ⟨[], text, rfl, .inl ⟨rfl, member⟩⟩

theorem scanExponent_eq {e c c' : Byte} {first second : Lex ρ} (isE : e = 0x45 ∨ e = 0x65)
    (get : lexGetSave lex = some (c, first))
    (sign : (if c = 0x2B ∨ c = 0x2D then lexGetSave first else some (c, first)) = some (c', second)) :
    scanExponent libc lex e =
      if isDecimal c' then do
        let (c, lex) ← lexGetSave second
        let (c, lex) ← scanDecimals (lexFuel lex) c lex
        scanReal libc lex c
      else lexUngetUnsave second c' := by
  simp only [scanExponent, if_pos isE, get, Option.bind_eq_bind, Option.bind_some]
  split at sign
  · rename_i isSign
    rw [if_pos isSign, sign]
    rfl
  · rename_i noSign
    cases sign
    rw [if_neg noSign]

/-- An exponent is scanned if there is a digit in it. -/
theorem scanExponent_digits {e : Byte} {sign : List Byte} (isE : e = 0x45 ∨ e = 0x65)
    (form : (sign = [] ∧ ¬ ((text.headD eof) = 0x2B ∨ (text.headD eof) = 0x2D)) ∨
      ∃ c, sign = [c] ∧ (c = 0x2B ∨ c = 0x2D))
    (scanning : lex.Scanning saved (e :: (sign ++ text))) :
    if isDecimal (text.headD eof) then
      ∃ next, scanExponent libc lex e = scanReal libc next ((text.dropWhile isDecimal).headD eof) ∧
        next.Scanning (saved ++ e :: (sign ++ text.takeWhile isDecimal)) (text.dropWhile isDecimal) ∧ lex.Frame next
    else ∃ lex', scanExponent libc lex e = some lex' ∧ lex.Frame lex' ∧ ∃ saved' rest, lex'.At saved' rest := by
  obtain ⟨first, get, scanning', frame⟩ := lexGetSave_scanning scanning
  obtain ⟨second, signed, scanning'', frame'⟩ := @scanOptional_run ρ first _ (fun c => c = 0x2B ∨ c = 0x2D) _ sign
    text form scanning'
  rw [scanExponent_eq isE get signed]
  split
  · rename_i digit
    obtain ⟨c, third, last, get', scan, scanning''', frame''⟩ := scanDecimals_scanning scanning'' digit
    refine ⟨last, ?_, by simpa using scanning''', (frame.trans frame').trans frame''⟩
    simp only [get', Option.bind_eq_bind, Option.bind_some, scan]
  · obtain ⟨given, unget, at', frame'', _⟩ := lexUngetUnsave_scanning scanning''
    exact ⟨given, unget, (frame.trans frame').trans frame'', _, _, at'⟩

theorem scanExponent_none (other : ¬ (text.headD eof = 0x45 ∨ text.headD eof = 0x65)) :
    scanExponent libc lex (text.headD eof) = scanReal libc lex (text.headD eof) := if_neg other

theorem Delimited.notE {rest : List Byte} (ends : Delimited rest) :
    ¬ (rest.headD eof = 0x45 ∨ rest.headD eof = 0x65) := by
  have letter := ends.2.1
  rintro (isE | isE)
  all_goals
    rw [isE] at letter
    exact absurd letter (by decide)

theorem scanExponent_run {exponent rest : List Byte} (form : ExponentText exponent) (ends : Delimited rest)
    (scanning : lex.Scanning saved (exponent ++ rest)) :
    ∃ next, scanExponent libc lex ((exponent ++ rest).headD eof) = scanReal libc next (rest.headD eof) ∧
      next.Scanning (saved ++ exponent) rest ∧ lex.Frame next := by
  cases form with
  | none =>
      rw [List.nil_append] at scanning ⊢
      exact ⟨lex, scanExponent_none ends.notE, by rwa [List.append_nil], .refl lex⟩
  | @digits e sign digits isE listed decimals =>
      obtain ⟨c, tail, first, digit⟩ := decimals.exists_cons
      have head : (digits ++ rest).headD eof = c := by rw [first, List.cons_append, List.headD_cons]
      obtain ⟨_, minus, plus⟩ := isSpace_decimal digit
      obtain ⟨taken, dropped⟩ := takeWhile_append_decimals decimals ends.1
      rw [List.cons_append, List.append_assoc] at scanning ⊢
      have run := @scanExponent_digits ρ libc lex saved (digits ++ rest) e sign isE (by
        rw [head]
        simp only [List.mem_cons, List.not_mem_nil, or_false] at listed
        rcases listed with rfl | rfl | rfl
        · exact .inl ⟨rfl, not_or.mpr ⟨plus, minus⟩⟩
        · exact .inr ⟨_, rfl, .inl rfl⟩
        · exact .inr ⟨_, rfl, .inr rfl⟩) scanning
      rw [head, if_pos digit, taken, dropped] at run
      exact run

theorem scanExponent_scanning (scanning : lex.Scanning saved text) :
    (∃ lex', scanExponent libc lex (text.headD eof) = some lex' ∧ lex.Frame lex' ∧ ∃ saved' rest, lex'.At saved' rest) ∨
    ∃ exponent rest next, text = exponent ++ rest ∧ ExponentText exponent ∧
      (exponent = [] → ¬ (text.headD eof = 0x45 ∨ text.headD eof = 0x65)) ∧
      scanExponent libc lex (text.headD eof) = scanReal libc next (rest.headD eof) ∧
      next.Scanning (saved ++ exponent) rest ∧ lex.Frame next := by
  by_cases isE : text.headD eof = 0x45 ∨ text.headD eof = 0x65
  · obtain ⟨e, text, rfl⟩ := List.exists_cons_of_ne_nil (show text ≠ [] by
      rintro rfl
      exact absurd isE (by decide))
    obtain ⟨sign, rest, rfl, form⟩ := @exists_optional (fun c => c = 0x2B ∨ c = 0x2D) (by decide) text
    have run := @scanExponent_digits ρ libc lex saved rest e sign isE form scanning
    rw [List.headD_cons]
    cases digit : isDecimal (rest.headD eof) with
    | false =>
        rw [digit] at run
        exact .inl run
    | true =>
        rw [digit] at run
        obtain ⟨next, scan, scanning', frame⟩ := run
        refine .inr ⟨e :: (sign ++ rest.takeWhile isDecimal), rest.dropWhile isDecimal, next, ?_,
          .digits isE ?_ (takeWhile_decimals digit), fun empty => absurd empty (List.cons_ne_nil _ _), scan, scanning',
          frame⟩
        · rw [List.cons_append, List.append_assoc, List.takeWhile_append_dropWhile]
        · rcases form with ⟨rfl, _⟩ | ⟨c, rfl, rfl | rfl⟩
          · exact List.mem_cons_self
          · exact List.mem_cons_of_mem _ List.mem_cons_self
          · exact List.mem_cons_of_mem _ (List.mem_cons_of_mem _ List.mem_cons_self)
  · exact .inr ⟨[], text, lex, rfl, .none, fun _ => isE, scanExponent_none isE, by simpa using scanning, .refl lex⟩

theorem scanFraction_exponent (isE : text.headD eof = 0x45 ∨ text.headD eof = 0x65) :
    scanFraction libc lex (text.headD eof) = scanExponent libc lex (text.headD eof) := by
  rcases isE with isE | isE
  all_goals
    rw [isE, scanFraction, if_neg (by decide), if_neg (by decide)]

/-- A point is read without being saved when no digit follows. -/
theorem scanFraction_point (scanning : lex.Scanning saved (0x2E :: text)) :
    if isDecimal (text.headD eof) then
      ∃ next, scanFraction libc lex 0x2E = scanExponent libc next ((text.dropWhile isDecimal).headD eof) ∧
        next.Scanning (saved ++ 0x2E :: text.takeWhile isDecimal) (text.dropWhile isDecimal) ∧ lex.Frame next
    else ∃ lex', scanFraction libc lex 0x2E = some lex' ∧ lex.Frame lex' ∧ ∃ saved' rest, lex'.At saved' rest := by
  have at' := scanning.pass
  obtain ⟨got, get, delivered, same, frame⟩ := lexGet_at at'
  rw [scanFraction, if_neg (show ¬ ((0x2E : Byte) ≠ 0x2E ∧ (0x2E : Byte) ≠ 0x45 ∧ (0x2E : Byte) ≠ 0x65) by decide),
    if_pos rfl]
  simp only [get, Option.bind_eq_bind, Option.bind_some]
  split
  · rename_i digit
    obtain ⟨savedText, save, holds⟩ := lexSave_holds (same ▸ at'.holds) (text.headD eof)
    have scanning' : Lex.Scanning { got with savedText := savedText } (saved ++ [0x2E]) text :=
      ⟨holds, at'.noNul, at'.noNul', delivered⟩
    obtain ⟨c, third, last, get', scan, scanning'', frame'⟩ := scanDecimals_scanning scanning' digit
    refine ⟨last, ?_, by simpa using scanning'', frame'.token.trans frame.token, frame'.errno.trans frame.errno⟩
    simp only [save, Option.bind_some, get', scan]
  · exact ⟨got, rfl, frame, _, _, same ▸ at'.holds, at'.noNul, delivered.reads⟩

/-! ### Numbers -/

theorem scanReal_took (invalid : lex.token = .invalid) (real : RealText saved) (scanning : lex.Scanning saved text) :
    ∃ lex', scanReal libc lex (text.headD eof) = some lex' ∧ lex'.Took libc lex.errno (saved ++ text) := by
  obtain ⟨last, scan, at', ⟨errno, token⟩ | ⟨_, token⟩⟩ := @scanReal_scanning ρ libc lex _ _ scanning
  · exact ⟨last, scan, _, _, at', .inr ⟨saved, rfl, by rw [token]; exact .real real errno⟩⟩
  · exact ⟨last, scan, _, _, at', .inl (token.trans invalid)⟩

/-- What is scanned behind the whole part of a number. -/
theorem scanFraction_scanning (longMax : intMax ≤ libc.longMax) (invalid : lex.token = .invalid) {value : Int}
    (integer : IntegerText value saved) (scanning : lex.Scanning saved text) :
    ∃ lex', scanFraction libc lex (text.headD eof) = some lex' ∧ lex'.Took libc lex.errno (saved ++ text) := by
  -- an exponent ends every number that has not been refused
  have exponents : ∀ {next : Lex ρ} {fraction rest : List Byte}, FractionText fraction →
      (fraction = [] → rest.headD eof = 0x45 ∨ rest.headD eof = 0x65) → text = fraction ++ rest →
      next.Scanning (saved ++ fraction) rest → lex.Frame next →
      ∃ lex', scanExponent libc next (rest.headD eof) = some lex' ∧ lex'.Took libc lex.errno (saved ++ text) := by
    rintro next fraction rest form some rfl scanning' frame
    rcases @scanExponent_scanning ρ libc next _ _ scanning' with ⟨last, scan, frame', saved', rest', at'⟩ |
      ⟨exponent, rest', next', rfl, form', none, scan, scanning'', frame'⟩
    · exact ⟨last, scan, saved', rest', at', .inl ((frame'.token.trans frame.token).trans invalid)⟩
    · have more : fraction ++ exponent ≠ [] := by
        intro empty
        obtain ⟨isNil, isNil'⟩ := List.append_eq_nil_iff.mp empty
        exact none isNil' (some isNil)
      have took := @scanReal_took ρ libc next' _ _ ((frame'.token.trans frame.token).trans invalid)
        (.intro integer form form' more) scanning''
      rw [scan]
      rw [frame'.errno, frame.errno] at took
      simpa using took
  by_cases isE : text.headD eof = 0x45 ∨ text.headD eof = 0x65
  · rw [scanFraction_exponent isE]
    exact exponents .none (fun _ => isE) rfl (by rwa [List.append_nil]) (.refl lex)
  · by_cases point : text.headD eof = 0x2E
    · obtain ⟨c, text, rfl⟩ := List.exists_cons_of_ne_nil (show text ≠ [] by
        rintro rfl
        exact absurd point (by decide))
      obtain rfl : c = 0x2E := point
      have run := @scanFraction_point ρ libc lex _ _ scanning
      cases digit : isDecimal (text.headD eof) with
      | false =>
          rw [digit] at run
          obtain ⟨last, scan, frame, saved', rest, at'⟩ := run
          exact ⟨last, scan, saved', rest, at', .inl (frame.token.trans invalid)⟩
      | true =>
          rw [digit] at run
          obtain ⟨next, scan, scanning', frame⟩ := run
          rw [List.headD_cons, scan]
          refine exponents (.digits (takeWhile_decimals digit)) (fun empty => absurd empty (List.cons_ne_nil _ _)) ?_
            scanning' frame
          rw [List.cons_append, List.takeWhile_append_dropWhile]
    · rw [scanFraction, if_pos ⟨point, fun e => isE (.inl e), fun e => isE (.inr e)⟩]
      obtain ⟨last, scan, at', ⟨inInt, errno, token⟩ | ⟨_, token⟩⟩ := scanInteger_scanning longMax integer scanning
      · exact ⟨last, scan, _, _, at', .inr ⟨saved, rfl, by rw [token]; exact .integer integer inInt errno⟩⟩
      · exact ⟨last, scan, _, _, at', .inl (token.trans invalid)⟩

theorem lexScanNumber_eq {c c' : Byte} {second : Lex ρ}
    (sign : (if c = 0x2D then lexGetSave { lex with token := .invalid } else some (c, { lex with token := .invalid })) =
      some (c', second)) :
    lexScanNumber libc lex c =
      if c' = 0x30 then do
        let (c, lex) ← lexGetSave second
        if isDecimal c then lexUngetUnsave lex c else scanFraction libc lex c
      else if isDecimal c' then do
        let (c, lex) ← lexGetSave second
        let (c, lex) ← scanDecimals (lexFuel lex) c lex
        scanFraction libc lex c
      else lexUngetUnsave second c' := by
  unfold lexScanNumber
  split at sign
  · rename_i isSign
    simp only [if_pos isSign, sign, Option.bind_eq_bind, Option.bind_some]
  · rename_i noSign
    cases sign
    simp only [if_neg noSign, Option.bind_eq_bind, Option.bind_some]

/-- The whole part is scanned, unless there is none or there is a zero in front of it. -/
theorem lexScanNumber_whole {sign : List Byte}
    (form : (sign = [] ∧ ¬ text.headD eof = 0x2D) ∨ ∃ c, sign = [c] ∧ c = 0x2D)
    (scanning : lex.Scanning [] (sign ++ text)) :
    (NoLeadingZero (text.takeWhile isDecimal) →
      ∃ next, lexScanNumber libc lex ((sign ++ text).headD eof) =
          scanFraction libc next ((text.dropWhile isDecimal).headD eof) ∧
        next.Scanning (sign ++ text.takeWhile isDecimal) (text.dropWhile isDecimal) ∧
        next.token = .invalid ∧ next.errno = lex.errno) ∧
    (¬ NoLeadingZero (text.takeWhile isDecimal) →
      ∃ lex', lexScanNumber libc lex ((sign ++ text).headD eof) = some lex' ∧ lex'.token = .invalid ∧
        ∃ saved' rest, lex'.At saved' rest) := by
  obtain ⟨second, signed, scanning', frame⟩ := @scanOptional_run ρ { lex with token := .invalid } [] (· = 0x2D) _ sign
    text form ⟨scanning.holds, scanning.noNul, scanning.noNul', scanning.delivered⟩
  rw [List.nil_append] at scanning'
  rw [lexScanNumber_eq signed]
  by_cases zero : text.headD eof = 0x30
  · obtain ⟨c, text, rfl⟩ := List.exists_cons_of_ne_nil (show text ≠ [] by
      rintro rfl
      exact absurd zero (by decide))
    obtain rfl : c = 0x30 := zero
    obtain ⟨third, get, scanning'', frame'⟩ := lexGetSave_scanning scanning'
    rw [List.headD_cons, if_pos rfl, List.takeWhile_cons_of_pos (show isDecimal 0x30 = true by decide),
      List.dropWhile_cons_of_pos (show isDecimal 0x30 = true by decide)]
    simp only [get, Option.bind_eq_bind, Option.bind_some]
    cases digit : isDecimal (text.headD eof) with
    | true =>
        obtain ⟨given, unget, at', frame'', _⟩ := lexUngetUnsave_scanning scanning''
        refine ⟨fun noZero => ?_, fun _ => ⟨given, unget, ?_, _, _, at'⟩⟩
        · exact absurd (List.cons.inj (noZero.first rfl)).2 (takeWhile_decimals digit).some
        · exact frame''.token.trans (frame'.token.trans frame.token)
    | false =>
        rw [(takeWhile_of_headD digit).1, (takeWhile_of_headD digit).2]
        refine ⟨fun _ => ⟨third, rfl, scanning'', frame'.token.trans frame.token, frame'.errno.trans frame.errno⟩,
          fun noZero => absurd ⟨⟨List.cons_ne_nil _ _, ?_⟩, fun _ => rfl⟩ noZero⟩
        simp only [List.mem_singleton, forall_eq]
        decide
  · rw [if_neg zero]
    cases digit : isDecimal (text.headD eof) with
    | true =>
        obtain ⟨c, third, last, get, scan, scanning'', frame'⟩ := scanDecimals_scanning scanning' digit
        refine ⟨fun _ => ⟨last, ?_, scanning'', frame'.token.trans frame.token, frame'.errno.trans frame.errno⟩,
          fun noZero => absurd ⟨takeWhile_decimals digit, fun first => ?_⟩ noZero⟩
        · simp only [if_true, get, Option.bind_eq_bind, Option.bind_some, scan]
        · obtain ⟨c, rest, rfl, member⟩ := exists_cons_of_headD isDecimal_eof digit
          rw [List.takeWhile_cons_of_pos member, List.head?_cons, Option.some.injEq] at first
          exact absurd first zero
    | false =>
        obtain ⟨given, unget, at', frame', _⟩ := lexUngetUnsave_scanning scanning'
        refine ⟨fun noZero => ?_, fun _ => ⟨given, ?_, frame'.token.trans frame.token, _, _, at'⟩⟩
        · exact absurd (takeWhile_of_headD digit).1 noZero.decimals.some
        · rw [if_neg Bool.false_ne_true, unget]

/-- What is scanned as a number is one, or there is an error. -/
theorem lexScanNumber_scanning (longMax : intMax ≤ libc.longMax) (scanning : lex.Scanning [] text) :
    ∃ lex', lexScanNumber libc lex (text.headD eof) = some lex' ∧ lex'.Took libc lex.errno text := by
  obtain ⟨sign, rest, rfl, form⟩ := @exists_optional (· = 0x2D) (by decide) text
  obtain ⟨number, refused⟩ := @lexScanNumber_whole ρ libc lex rest sign form scanning
  by_cases noZero : NoLeadingZero (rest.takeWhile isDecimal)
  · obtain ⟨next, scan, scanning', token, errno⟩ := number noZero
    have integer : ∃ value, IntegerText value (sign ++ rest.takeWhile isDecimal) := by
      rcases form with ⟨rfl, _⟩ | ⟨c, rfl, rfl⟩
      · exact ⟨_, .intro false noZero⟩
      · exact ⟨_, .intro true noZero⟩
    obtain ⟨value, integer⟩ := integer
    have took := scanFraction_scanning longMax token integer scanning'
    rwa [← scan, errno, List.append_assoc, List.takeWhile_append_dropWhile] at took
  · obtain ⟨last, scan, invalid, saved', rest', at'⟩ := refused noZero
    exact ⟨last, scan, saved', rest', at', .inl invalid⟩

/-- The whole part of a number, when it is known how it ends. -/
theorem lexScanNumber_integer {value : Int} {whole rest : List Byte} (integer : IntegerText value whole)
    (ends : isDecimal (rest.headD eof) = false) (scanning : lex.Scanning [] (whole ++ rest)) :
    ∃ next, lexScanNumber libc lex ((whole ++ rest).headD eof) = scanFraction libc next (rest.headD eof) ∧
      next.Scanning whole rest ∧ next.token = .invalid ∧ next.errno = lex.errno := by
  cases integer with
  | @intro negative digits number =>
      obtain ⟨taken, dropped⟩ := takeWhile_append_decimals number.decimals ends
      rw [List.append_assoc] at scanning ⊢
      have form : (signText negative = [] ∧ ¬ (digits ++ rest).headD eof = 0x2D) ∨
          ∃ c, signText negative = [c] ∧ c = 0x2D := by
        cases negative with
        | true => exact .inr ⟨0x2D, rfl, rfl⟩
        | false =>
            obtain ⟨c, tail, rfl, digit⟩ := number.decimals.exists_cons
            exact .inl ⟨rfl, (isSpace_decimal digit).2.1⟩
      obtain ⟨whole, _⟩ := @lexScanNumber_whole ρ libc lex (digits ++ rest) _ form scanning
      rw [taken, dropped] at whole
      exact whole number

/-- Every whole number that an `int` can be is read. -/
theorem lexScanNumber_integer_run (longMax : intMax ≤ libc.longMax) {value : Int} {whole rest : List Byte}
    {errno : Bool} (integer : IntegerText value whole) (inInt : InInt value)
    (accepted : libc.integerErrno lex.errno value = some errno) (ends : Delimited rest)
    (scanning : lex.Scanning [] (whole ++ rest)) :
    ∃ lex', lexScanNumber libc lex ((whole ++ rest).headD eof) = some lex' ∧
      lex'.HasToken errno (.integer value) rest := by
  obtain ⟨next, scan, scanning', _, same⟩ := @lexScanNumber_integer ρ libc lex _ _ _ integer ends.1 scanning
  obtain ⟨last, scan', at', ⟨_, errno', token⟩ | ⟨refused, _⟩⟩ := scanInteger_scanning longMax integer scanning'
  · have isErrno : errno = last.errno := by
      rw [same, accepted] at errno'
      exact Option.some.inj errno'
    refine ⟨last, ?_, isErrno.symm, token, _, at'⟩
    rw [scan, scanFraction, if_pos ⟨ends.2.2, fun e => ends.notE (.inl e), fun e => ends.notE (.inr e)⟩, scan']
  · exact absurd ⟨inInt, by rw [same, accepted]; exact Option.some_ne_none errno⟩ refused

/-- Every other number is read, if it is not out of range. -/
theorem lexScanNumber_real_run {number rest : List Byte} {errno : Bool} (real : RealText number)
    (accepted : libc.realErrno lex.errno number = some errno) (ends : Delimited rest)
    (scanning : lex.Scanning [] (number ++ rest)) :
    ∃ lex', lexScanNumber libc lex ((number ++ rest).headD eof) = some lex' ∧
      lex'.HasToken errno (.real (libc.strtod number).1) rest := by
  cases real with
  | @intro value whole fraction exponent integer form form' more =>
      rw [List.append_assoc, List.append_assoc] at scanning ⊢
      have fractionEnds : isDecimal ((exponent ++ rest).headD eof) = false := by
        cases form' with
        | none => exact ends.1
        | digits isE _ _ =>
            rcases isE with rfl | rfl
            · rfl
            · rfl
      have wholeEnds : isDecimal ((fraction ++ (exponent ++ rest)).headD eof) = false := by
        cases form with
        | none => exact fractionEnds
        | digits _ => rfl
      obtain ⟨next, scan, scanning', _, errno'⟩ := @lexScanNumber_integer ρ libc lex _ _ _ integer wholeEnds scanning
      have point : ∃ next', scanFraction libc next ((fraction ++ (exponent ++ rest)).headD eof) =
          scanExponent libc next' ((exponent ++ rest).headD eof) ∧
          next'.Scanning (whole ++ fraction) (exponent ++ rest) ∧ next.Frame next' := by
        cases form with
        | none =>
            refine ⟨next, ?_, by rwa [List.append_nil], .refl next⟩
            rw [List.nil_append]
            refine scanFraction_exponent ?_
            cases form' with
            | none => exact absurd rfl more
            | digits isE _ _ => exact isE
        | @digits digits decimals =>
            have run := @scanFraction_point ρ libc next whole (digits ++ (exponent ++ rest)) scanning'
            obtain ⟨c, tail, first, digit⟩ := decimals.exists_cons
            have head : (digits ++ (exponent ++ rest)).headD eof = c := by rw [first, List.cons_append, List.headD_cons]
            obtain ⟨taken, dropped⟩ := takeWhile_append_decimals decimals fractionEnds
            rw [head, if_pos digit, taken, dropped] at run
            exact run
      obtain ⟨next', scan', scanning'', frame⟩ := point
      obtain ⟨next'', scan'', scanning''', frame'⟩ := @scanExponent_run ρ libc next' _ _ _ form' ends scanning''
      obtain ⟨last, scan''', at', ⟨errno'', token⟩ | ⟨refused, _⟩⟩ := @scanReal_scanning ρ libc next'' _ _ scanning'''
      · rw [frame'.errno, frame.errno, errno', accepted] at errno''
        refine ⟨last, ?_, (Option.some.inj errno'').symm, token, _, at'⟩
        rw [scan, scan', scan'', scan''']
      · rw [frame'.errno, frame.errno, errno', accepted] at refused
        cases refused

end CpuMiner.Jansson
