/-
Module: CpuMiner.Wire.Tokens
Layer: JSON
Purpose: `lex_scan`. From any place in any text it comes to a token, and what it has taken is white space and a text of
  that token (`lexScan_scanning`); and it takes every token that the grammar has there (`lexScan_run`,
  `lexScan_eof`).
Imports: CpuMiner.Wire.Numbers, CpuMiner.Wire.Strings
Trusted boundary: none
Main exports: Lex.Scanned, Token.Ends, lexScan_scanning, lexScan_run, lexScan_eof
Open obligations: none
-/
import CpuMiner.Wire.Numbers
import CpuMiner.Wire.Strings

namespace CpuMiner.Jansson

open Words

variable {ρ : Type} {libc : Libc ρ} {lex : Lex ρ} {saved text : List Byte}

/-! ### White space -/

/-- The first character of this text has been read, and nothing is saved. -/
structure Lex.Got (lex : Lex ρ) (text : List Byte) : Prop where
  holds : lex.savedText.Holds []
  noNul : 0 ∉ text
  delivered : Delivered lex.stream (text.headD eof) text.tail

theorem Lex.Got.lt_lexFuel (got : lex.Got text) : text.length + 1 < lexFuel lex := by
  have bound := got.delivered.reads.length_le
  rw [List.length_tail] at bound
  unfold lexFuel
  omega

theorem isWhite_iff {c : Byte} : isWhite c = true ↔ c = 0x20 ∨ c = 0x09 ∨ c = 0x0A ∨ c = 0x0D := decide_eq_true_iff

/-- White space is skipped. -/
theorem skipWhite_got {fuel : Nat} (got : lex.Got text) (enough : text.length < fuel) :
    ∃ lex', skipWhite fuel (text.headD eof) lex = some ((text.dropWhile isWhite).headD eof, lex') ∧
      lex'.Got (text.dropWhile isWhite) ∧ lex'.errno = lex.errno := by
  induction fuel generalizing lex text with
  | zero => exact absurd enough (Nat.not_lt_zero _)
  | succ fuel ih =>
      cases white : isWhite (text.headD eof) with
      | false =>
          have stays : text.dropWhile isWhite = text := by
            cases text with
            | nil => rfl
            | cons c rest => exact List.dropWhile_cons_of_neg (by rw [show isWhite c = false from white]; simp)
          have other : ¬ (text.headD eof = 0x20 ∨ text.headD eof = 0x09 ∨ text.headD eof = 0x0A ∨
              text.headD eof = 0x0D) := by
            rw [← isWhite_iff, white]
            exact Bool.false_ne_true
          rw [stays]
          exact ⟨lex, by rw [skipWhite, if_neg other], got, rfl⟩
      | true =>
          obtain ⟨c, text, rfl, member⟩ := exists_cons_of_headD (show isWhite eof = false by decide) white
          have noNul : 0 ∉ text := fun listed => got.noNul (List.mem_cons_of_mem c listed)
          obtain ⟨stream, error, get, delivered⟩ := streamGet_reads got.delivered.reads lex.error
          have next : ∀ line, lexGet { lex with line := line } =
              some (text.headD eof, { lex with line := line, stream := stream, error := error }) := by
            intro line
            rw [List.tail_cons] at get
            simp only [lexGet, get, Option.bind_eq_bind, Option.bind_some, Option.pure_def]
          have skips : ∀ line, ∃ lex', (lexGet { lex with line := line }).bind (fun p => skipWhite fuel p.1 p.2) =
              some ((text.dropWhile isWhite).headD eof, lex') ∧ lex'.Got (text.dropWhile isWhite) ∧
              lex'.errno = lex.errno := by
            intro line
            rw [next line]
            exact @ih { lex with line := line, stream := stream, error := error } text ⟨got.holds, noNul, delivered⟩
              (Nat.lt_of_succ_lt_succ enough)
          rw [List.headD_cons, skipWhite, if_pos (isWhite_iff.mp member), List.dropWhile_cons_of_pos member]
          split
          · exact skips _
          · exact skips lex.line

/-! ### Words -/

theorem lexScanWord_scanning (scanning : lex.Scanning [] text) (letter : isAlpha (text.headD eof) = true) :
    ∃ lex', lexScanWord lex = some lex' ∧ lex'.At (text.takeWhile isAlpha) (text.dropWhile isAlpha) ∧
      lex'.errno = lex.errno ∧ lex'.token = wordToken (text.takeWhile isAlpha) := by
  obtain ⟨c, text, rfl, member⟩ := exists_cons_of_headD (show isAlpha eof = false by decide) letter
  obtain ⟨first, get, scanning', frame⟩ := lexGetSave_scanning scanning
  have enough := scanning'.lt_lexFuel
  obtain ⟨second, scan, scanning'', frame'⟩ := @scanWhile_scanning ρ first _ _ isAlpha (by decide) (lexFuel first)
    scanning' (by omega)
  obtain ⟨third, unget, at', frame'', _⟩ := lexUngetUnsave_scanning scanning''
  rw [List.takeWhile_cons_of_pos member, List.dropWhile_cons_of_pos member]
  have read := at'.holds.cstr_value at'.noNul
  refine ⟨{ third with token := wordToken (c :: text.takeWhile isAlpha) }, ?_, ⟨at'.holds, at'.noNul, at'.reads⟩,
    frame''.errno.trans (frame'.errno.trans frame.errno), rfl⟩
  simp only [lexScanWord, scanLetters, get, Option.bind_eq_bind, Option.bind_some, scan, unget, read, Option.pure_def,
    List.nil_append, List.singleton_append]

theorem wordToken_lexeme (libc : Libc ρ) (errno : Bool) (word : List Byte) :
    (wordToken word : Token ρ) = .invalid ∨ Lexeme libc errno errno (wordToken word) word := by
  unfold wordToken
  split
  · rename_i isTrue
    exact .inr (isTrue ▸ .true)
  · split
    · rename_i isFalse
      exact .inr (isFalse ▸ .false)
    · split
      · rename_i isNull
        exact .inr (isNull ▸ .null)
      · exact .inl rfl

/-! ### What is no token -/

/-- The rest of a sequence is saved. -/
theorem lexSaveCached_holds {fuel : Nat} {behind ahead : List Byte} (stream : lex.stream.Holds behind ahead)
    (holds : lex.savedText.Holds saved) (enough : ahead.length < fuel) :
    ∃ lex', lexSaveCached fuel lex = some lex' ∧ lex'.savedText.Holds (saved ++ ahead) ∧
      lex'.stream.Holds (behind ++ ahead) [] ∧ lex'.stream.data = lex.stream.data := by
  induction fuel generalizing lex saved behind ahead with
  | zero => exact absurd enough (Nat.not_lt_zero _)
  | succ fuel ih =>
      have next := stream.next
      cases ahead with
      | nil =>
          refine ⟨lex, ?_, by rwa [List.append_nil], by rwa [List.append_nil], rfl⟩
          rw [lexSaveCached, next]
          rfl
      | cons c ahead =>
          have other : c ≠ 0 := fun zero => stream.noNul (zero ▸ List.mem_cons_self)
          obtain ⟨savedText, save, holds'⟩ := lexSave_holds holds c
          obtain ⟨last, rest, holds'', stream', data⟩ := @ih
            { lex with stream := { lex.stream with bufferPos := lex.stream.bufferPos + 1 }, savedText := savedText }
            _ _ ahead stream.advance holds' (Nat.lt_of_succ_lt_succ enough)
          refine ⟨last, ?_, by simpa using holds'', by simpa using stream', data⟩
          rw [lexSaveCached, next]
          simp only [List.headD_cons, Option.bind_eq_bind, Option.bind_some, if_neg other, save, rest]

/-! ### The scanner -/

/-- White space has been taken and a token behind it, or there is none. -/
def Lex.Scanned (libc : Libc ρ) (errno : Bool) (lex : Lex ρ) (text : List Byte) : Prop :=
  ∃ saved rest, lex.At saved rest ∧
    (lex.token = .invalid ∨
      (lex.token = .eof ∧ lex.errno = errno ∧ ∃ ws, White ws ∧ (text = ws ∨ text = ws ++ [eof])) ∨
      ∃ ws lexeme, White ws ∧ text = ws ++ lexeme ++ rest ∧ Lexeme libc errno lex.errno lex.token lexeme)

/-- White space is skipped first. -/
theorem lexScan_got (at' : lex.At saved text) :
    ∃ next, lexScan libc lex = lexScanToken libc next ((text.dropWhile isWhite).headD eof) ∧
      next.Got (text.dropWhile isWhite) ∧ next.errno = lex.errno := by
  obtain ⟨savedText, clear, holds⟩ := strbufferClear_holds at'.holds
  obtain ⟨first, get, delivered, same, frame⟩ := @lexGet_at ρ { lex with savedText := savedText } [] text
    ⟨holds, List.not_mem_nil, at'.reads⟩
  have got : first.Got text := ⟨same ▸ holds, at'.noNul', delivered⟩
  have enough := got.lt_lexFuel
  obtain ⟨next, skip, got', errno⟩ := @skipWhite_got ρ first text (lexFuel first) got (by omega)
  refine ⟨next, ?_, got', errno.trans frame.errno⟩
  simp only [lexScan, clear, get, skip, Option.bind_eq_bind, Option.bind_some]

/-- A character is saved. -/
theorem lexSave_got (got : lex.Got text) :
    ∃ next, lexSave lex (text.headD eof) = some next ∧ next.Scanning [] text ∧ lex.Frame next := by
  obtain ⟨savedText, save, holds⟩ := lexSave_holds got.holds (text.headD eof)
  exact ⟨_, save, ⟨holds, List.not_mem_nil, got.noNul, got.delivered⟩, rfl, rfl⟩

/-- The end of the text, and a byte that is no character. -/
theorem lexScanToken_eof (got : lex.Got text) (isEof : text.headD eof = eof) :
    ∃ lex', lexScanToken libc lex (text.headD eof) = some lex' ∧ lex'.errno = lex.errno ∧ lex'.At [] text.tail ∧
      lex'.token = if text.tail = [] then .eof else .invalid := by
  have delivered := got.delivered
  rw [isEof] at delivered
  have ends := delivered.eof_iff
  refine ⟨{ lex with token := if lexEof lex then .eof else .invalid }, if_pos isEof, rfl,
    ⟨got.holds, List.not_mem_nil, delivered.reads⟩, ?_⟩
  unfold lexEof
  by_cases empty : text.tail = []
  · rw [if_pos empty, if_pos (List.isEmpty_iff.mpr (ends.mpr empty))]
  · rw [if_neg empty, if_neg fun data => empty (ends.mp (List.isEmpty_iff.mp data))]

/-- What is taken is a token, or there is an error. -/
theorem lexScanToken_took (longMax : intMax ≤ libc.longMax) (got : lex.Got text) (more : text.headD eof ≠ eof) :
    ∃ lex', lexScanToken libc lex (text.headD eof) = some lex' ∧ lex'.Took libc lex.errno text := by
  obtain ⟨next, save, scanning, frame⟩ := lexSave_got got
  obtain ⟨c, text, rfl⟩ := List.exists_cons_of_ne_nil (show text ≠ [] by
    rintro rfl
    exact more rfl)
  rw [List.headD_cons] at save more ⊢
  rw [lexScanToken, if_neg more]
  simp only [save, Option.bind_eq_bind, Option.bind_some, Option.pure_def]
  have at' := scanning.pass
  rw [List.nil_append] at at'
  by_cases mark : c ∈ punctuation
  · rw [if_pos (mem_punctuation.mp mark)]
    exact ⟨_, rfl, _, text, ⟨at'.holds, at'.noNul, at'.reads⟩, .inr ⟨[c], rfl, frame.errno ▸ .char mark⟩⟩
  · rw [if_neg (mem_punctuation.not.mp mark)]
    by_cases isQuote : c = quote
    · subst isQuote
      obtain ⟨last, scan, took⟩ := lexScanString_scanning libc at'
      rw [if_pos rfl]
      exact ⟨last, scan, frame.errno ▸ took⟩
    · rw [if_neg isQuote]
      by_cases number : isDecimal c = true ∨ c = 0x2D
      · obtain ⟨last, scan, took⟩ := lexScanNumber_scanning longMax scanning
        rw [if_pos number]
        exact ⟨last, scan, frame.errno ▸ took⟩
      · rw [if_neg number]
        by_cases letter : isAlpha c = true
        · obtain ⟨last, scan, at'', errno, token⟩ := lexScanWord_scanning scanning letter
          rw [if_pos letter]
          refine ⟨last, scan, _, _, at'', ?_⟩
          rw [token, errno, frame.errno]
          refine (wordToken_lexeme libc lex.errno ((c :: text).takeWhile isAlpha)).imp_right fun lexeme => ?_
          exact ⟨_, List.takeWhile_append_dropWhile.symm, lexeme⟩
        · rw [if_neg letter]
          obtain ⟨behind, ahead, stream, comes, _, _⟩ := scanning.delivered
          have short : ahead.length < 5 := by
            obtain ⟨stale, buffer⟩ := stream.buffer
            have size := stream.size
            rw [buffer] at size
            simp only [List.length_append, List.length_cons, List.length_nil] at size
            omega
          obtain ⟨last, rest, holds, stream', data⟩ := lexSaveCached_holds stream at'.holds short
          have noNul : 0 ∉ [c] ++ ahead := by
            rw [List.mem_append, not_or]
            exact ⟨at'.noNul, stream.noNul⟩
          refine ⟨{ last with token := .invalid }, ?_, [c] ++ ahead, decode last.stream.data,
            ⟨holds, noNul, _, _, stream', .inl rfl⟩, .inl rfl⟩
          simp only [rest, Option.bind_some]

/-- From any place in any text `lex_scan` comes to a token. -/
theorem lexScan_scanning (longMax : intMax ≤ libc.longMax) (at' : lex.At saved text) :
    ∃ lex', lexScan libc lex = some lex' ∧ lex'.Scanned libc lex.errno text := by
  obtain ⟨next, scan, got, errno⟩ := @lexScan_got ρ libc lex saved text at'
  have white : White (text.takeWhile isWhite) := List.all_eq_true.mp List.all_takeWhile
  rw [scan]
  by_cases isEof : (text.dropWhile isWhite).headD eof = eof
  · obtain ⟨last, token, errno', at'', ends⟩ := lexScanToken_eof got isEof
    refine ⟨last, token, _, _, at'', ?_⟩
    by_cases empty : (text.dropWhile isWhite).tail = []
    · rw [if_pos empty] at ends
      refine .inr (.inl ⟨ends, errno'.trans errno, text.takeWhile isWhite, white, ?_⟩)
      cases rest : text.dropWhile isWhite with
      | nil => exact .inl (by rw [← List.append_nil (text.takeWhile isWhite), ← rest, List.takeWhile_append_dropWhile])
      | cons c tail =>
          rw [rest, List.tail_cons] at empty
          rw [rest, List.headD_cons] at isEof
          refine .inr ?_
          rw [← isEof, ← empty, ← rest, List.takeWhile_append_dropWhile]
    · rw [if_neg empty] at ends
      exact .inl ends
  · obtain ⟨last, token, saved', rest, at'', took⟩ := lexScanToken_took longMax got isEof
    refine ⟨last, token, saved', rest, at'', took.imp_right fun ⟨lexeme, text', lexeme'⟩ => .inr ?_⟩
    refine ⟨text.takeWhile isWhite, lexeme, white, ?_, errno ▸ lexeme'⟩
    rw [List.append_assoc, ← text', List.takeWhile_append_dropWhile]

/-! ### The tokens of the grammar -/

/-- How the text goes on behind a token. -/
def Token.Ends : Token ρ → List Byte → Prop
  | .char _, _ | .string _, _ => True
  | _, rest => Delimited rest

theorem dropWhile_white {ws rest : List Byte} (white : White ws) (ends : isWhite (rest.headD eof) = false) :
    (ws ++ rest).dropWhile isWhite = rest := by
  rw [List.dropWhile_append_of_pos white]
  cases rest with
  | nil => rfl
  | cons c rest => exact List.dropWhile_cons_of_neg (by rw [show isWhite c = false from ends]; simp)

/-- The end of the text is found. -/
theorem lexScan_eof {ws : List Byte} (white : White ws) (ends : text = ws ∨ text = ws ++ [eof])
    (at' : lex.At saved text) : ∃ lex', lexScan libc lex = some lex' ∧ lex'.HasToken lex.errno .eof [] := by
  obtain ⟨next, scan, got, errno⟩ := @lexScan_got ρ libc lex saved text at'
  have rest : text.dropWhile isWhite = [] ∨ text.dropWhile isWhite = [eof] := by
    rcases ends with rfl | rfl
    · refine .inl ?_
      have dropped := @dropWhile_white text [] white (by decide)
      rwa [List.append_nil] at dropped
    · exact .inr (dropWhile_white white (by decide))
  have isEof : (text.dropWhile isWhite).headD eof = eof := by
    rcases rest with rest | rest
    all_goals
      rw [rest]
      rfl
  have empty : (text.dropWhile isWhite).tail = [] := by
    rcases rest with rest | rest
    all_goals
      rw [rest]
      rfl
  obtain ⟨last, token, errno', at'', ends⟩ := lexScanToken_eof got isEof
  rw [if_pos empty] at ends
  rw [empty] at at''
  exact ⟨last, scan.trans token, errno'.trans errno, ends, _, at''⟩

theorem IntegerText.first {value : Int} (integer : IntegerText value text) :
    ∃ c rest, text = c :: rest ∧ (isDecimal c = true ∨ c = 0x2D) := by
  cases integer with
  | @intro negative digits number =>
      cases negative with
      | true => exact ⟨0x2D, digits, rfl, .inr rfl⟩
      | false =>
          obtain ⟨c, rest, rfl, digit⟩ := number.decimals.exists_cons
          exact ⟨c, rest, rfl, .inl digit⟩

theorem RealText.first (real : RealText text) : ∃ c rest, text = c :: rest ∧ (isDecimal c = true ∨ c = 0x2D) := by
  cases real with
  | intro integer _ _ _ =>
      obtain ⟨c, rest, rfl, number⟩ := integer.first
      exact ⟨c, _, rfl, number⟩

theorem not_mark_of_number {c : Byte} (number : isDecimal c = true ∨ c = 0x2D) :
    c ∉ punctuation ∧ c ≠ quote ∧ c ≠ eof ∧ isWhite c = false := by
  have all : ∀ c : Byte, isDecimal c = true ∨ c = 0x2D → c ∉ punctuation ∧ c ≠ quote ∧ c ≠ eof ∧ isWhite c = false := by
    decide +kernel
  exact all c number

theorem not_mark_of_letter {c : Byte} (letter : isAlpha c = true) :
    c ∉ punctuation ∧ c ≠ quote ∧ c ≠ eof ∧ isWhite c = false ∧ ¬ (isDecimal c = true ∨ c = 0x2D) := by
  have all : ∀ c : Byte, isAlpha c = true →
      c ∉ punctuation ∧ c ≠ quote ∧ c ≠ eof ∧ isWhite c = false ∧ ¬ (isDecimal c = true ∨ c = 0x2D) := by
    decide +kernel
  exact all c letter

/-- A character that begins a token ends white space, and is no end of the text. -/
theorem Lexeme.first {errno errno' : Bool} {token : Token ρ} (form : Lexeme libc errno errno' token text) :
    ∃ c rest, text = c :: rest ∧ isWhite c = Bool.false ∧ c ≠ eof := by
  cases form with
  | @char c mark =>
      have all : ∀ c ∈ punctuation, isWhite c = Bool.false ∧ c ≠ eof := by decide
      exact ⟨c, [], rfl, all c mark⟩
  | string _ => exact ⟨quote, _, rfl, by decide, by decide⟩
  | integer integer _ _ =>
      obtain ⟨c, rest, rfl, number⟩ := integer.first
      obtain ⟨_, _, notEof, white⟩ := not_mark_of_number number
      exact ⟨c, rest, rfl, white, notEof⟩
  | real real _ =>
      obtain ⟨c, rest, rfl, number⟩ := real.first
      obtain ⟨_, _, notEof, white⟩ := not_mark_of_number number
      exact ⟨c, rest, rfl, white, notEof⟩
  | true => exact ⟨_, _, rfl, by decide, by decide⟩
  | false => exact ⟨_, _, rfl, by decide, by decide⟩
  | null => exact ⟨_, _, rfl, by decide, by decide⟩

theorem lexScanToken_number {errno : Bool} {token : Token ρ} {number rest : List Byte} (got : lex.Got (number ++ rest))
    (first : ∃ c tail, number = c :: tail ∧ (isDecimal c = true ∨ c = 0x2D))
    (scans : ∀ {next : Lex ρ}, next.Scanning [] (number ++ rest) → next.errno = lex.errno →
      ∃ lex', lexScanNumber libc next ((number ++ rest).headD eof) = some lex' ∧ lex'.HasToken errno token rest) :
    ∃ lex', lexScanToken libc lex ((number ++ rest).headD eof) = some lex' ∧ lex'.HasToken errno token rest := by
  obtain ⟨next, save, scanning, frame⟩ := lexSave_got got
  obtain ⟨last, scan, has⟩ := scans scanning frame.errno
  obtain ⟨c, tail, rfl, isNumber⟩ := first
  obtain ⟨notMark, notQuote, notEof, _⟩ := not_mark_of_number isNumber
  rw [List.cons_append, List.headD_cons] at scan save ⊢
  refine ⟨last, ?_, has⟩
  rw [lexScanToken, if_neg notEof]
  simp only [save, Option.bind_eq_bind, Option.bind_some, if_neg (mem_punctuation.not.mp notMark), if_neg notQuote,
    if_pos isNumber, scan]

theorem lexScanToken_word {token : Token ρ} {word rest : List Byte} (got : lex.Got (word ++ rest))
    (more : word ≠ []) (letters : ∀ c ∈ word, isAlpha c = true) (ends : isAlpha (rest.headD eof) = false)
    (isToken : wordToken word = token) :
    ∃ lex', lexScanToken libc lex ((word ++ rest).headD eof) = some lex' ∧ lex'.HasToken lex.errno token rest := by
  obtain ⟨next, save, scanning, frame⟩ := lexSave_got got
  have run : (word ++ rest).takeWhile isAlpha = word ∧ (word ++ rest).dropWhile isAlpha = rest := by
    rw [List.takeWhile_append_of_pos letters, List.dropWhile_append_of_pos letters]
    cases rest with
    | nil => simp
    | cons c rest =>
        rw [List.headD_cons] at ends
        simp [ends]
  obtain ⟨c, tail, rfl⟩ := List.exists_cons_of_ne_nil more
  have letter := letters c List.mem_cons_self
  obtain ⟨notMark, notQuote, notEof, _, notNumber⟩ := not_mark_of_letter letter
  obtain ⟨last, scan, at', errno, token'⟩ := lexScanWord_scanning scanning letter
  rw [run.1, run.2] at at'
  rw [run.1, isToken] at token'
  rw [List.cons_append, List.headD_cons] at save ⊢
  refine ⟨last, ?_, errno.trans frame.errno, token', _, at'⟩
  rw [lexScanToken, if_neg notEof]
  simp only [save, Option.bind_eq_bind, Option.bind_some, if_neg (mem_punctuation.not.mp notMark), if_neg notQuote,
    if_neg notNumber, if_pos letter, scan]

theorem lexScanToken_run (longMax : intMax ≤ libc.longMax) {errno : Bool} {token : Token ρ} {lexeme rest : List Byte}
    (form : Lexeme libc lex.errno errno token lexeme) (ends : token.Ends rest) (got : lex.Got (lexeme ++ rest)) :
    ∃ lex', lexScanToken libc lex ((lexeme ++ rest).headD eof) = some lex' ∧ lex'.HasToken errno token rest := by
  cases form with
  | @char c mark =>
      obtain ⟨next, save, scanning, frame⟩ := lexSave_got got
      have at' := scanning.pass
      have notEof : c ≠ eof := by
        rintro rfl
        exact absurd mark (by decide)
      rw [List.singleton_append, List.headD_cons] at save ⊢
      refine ⟨{ next with token := .char c }, ?_, frame.errno, rfl, _, at'.holds, at'.noNul, at'.reads⟩
      rw [lexScanToken, if_neg notEof]
      simp only [save, Option.bind_eq_bind, Option.bind_some, if_pos (mem_punctuation.mp mark), Option.pure_def]
  | @string value text string =>
      obtain ⟨next, save, scanning, frame⟩ := lexSave_got got
      have whole : stringText text ++ rest = quote :: (text ++ quote :: rest) := by simp [stringText]
      rw [whole] at scanning save ⊢
      have at' := scanning.pass
      obtain ⟨last, scan, has⟩ := lexScanString_run string at'
      rw [List.headD_cons] at save ⊢
      refine ⟨last, ?_, frame.errno ▸ has⟩
      rw [lexScanToken, if_neg (by decide)]
      simp only [save, Option.bind_eq_bind, Option.bind_some,
        if_neg (mem_punctuation.not.mp (show ¬ quote ∈ punctuation by decide)), if_true, scan]
  | integer integer inInt accepted =>
      refine lexScanToken_number got integer.first fun scanning same => ?_
      rw [← same] at accepted
      exact lexScanNumber_integer_run longMax integer inInt accepted ends scanning
  | real real accepted =>
      refine lexScanToken_number got real.first fun scanning same => ?_
      rw [← same] at accepted
      exact lexScanNumber_real_run real accepted ends scanning
  | true => exact lexScanToken_word got (by decide) (by decide) ends.2.1 rfl
  | false => exact lexScanToken_word got (by decide) (by decide) ends.2.1 rfl
  | null => exact lexScanToken_word got (by decide) (by decide) ends.2.1 rfl

/-- Every token is taken. -/
theorem lexScan_run (longMax : intMax ≤ libc.longMax) {errno : Bool} {token : Token ρ} {ws lexeme rest : List Byte}
    (white : White ws) (form : Lexeme libc lex.errno errno token lexeme) (ends : token.Ends rest)
    (at' : lex.At saved (ws ++ lexeme ++ rest)) :
    ∃ lex', lexScan libc lex = some lex' ∧ lex'.HasToken errno token rest := by
  obtain ⟨next, scan, got, same⟩ := @lexScan_got ρ libc lex saved _ at'
  obtain ⟨c, tail, first, notWhite, _⟩ := form.first
  have dropped : (ws ++ lexeme ++ rest).dropWhile isWhite = lexeme ++ rest := by
    rw [List.append_assoc]
    refine dropWhile_white white ?_
    rw [first, List.cons_append, List.headD_cons, notWhite]
  rw [dropped] at scan got
  rw [scan]
  exact lexScanToken_run longMax (same.symm ▸ form) ends got

end CpuMiner.Jansson
