/-
Module: CpuMiner.Wire.Scanning
Layer: JSON
Purpose: What the steps of the lexer do, said about texts. `At` is a lexer between two characters: a text has been
  saved, and another one comes. In `Scanning` the next character has been read and saved already. The steps of load.c
  go from one to the other, and a loop over a class of characters takes the longest run of them.
Imports: CpuMiner.Wire.Grammar
Trusted boundary: none
Main exports: Lex.At, Lex.Scanning, Lex.Frame, lexGetSave_at, lexGetSave_scanning, lexUngetUnsave_scanning,
  scanWhile_scanning, lexError_at, Lex.Took, Lex.HasToken
Open obligations: none
-/
import CpuMiner.Wire.Grammar

namespace CpuMiner.Jansson

open Words

variable {ρ : Type} {lex lex' lex'' : Lex ρ} {saved text : List Byte} {c : Byte}

/-- The first text has been saved, and the second one comes. -/
structure Lex.At (lex : Lex ρ) (saved text : List Byte) : Prop where
  holds : lex.savedText.Holds saved
  noNul : 0 ∉ saved
  reads : Reads lex.stream text

/-- The first text has been saved and so has the first character of the second one, or `EOF` at its end. -/
structure Lex.Scanning (lex : Lex ρ) (saved text : List Byte) : Prop where
  holds : lex.savedText.Holds (saved ++ [text.headD eof])
  noNul : 0 ∉ saved
  noNul' : 0 ∉ text
  delivered : Delivered lex.stream (text.headD eof) text.tail

/-- What reading leaves alone. -/
structure Lex.Frame (lex lex' : Lex ρ) : Prop where
  token : lex'.token = lex.token
  errno : lex'.errno = lex.errno

theorem Lex.Frame.refl (lex : Lex ρ) : lex.Frame lex := ⟨rfl, rfl⟩

theorem Lex.Frame.trans (first : lex.Frame lex') (second : lex'.Frame lex'') : lex.Frame lex'' :=
  ⟨second.token.trans first.token, second.errno.trans first.errno⟩

theorem Lex.At.noNul' (at' : lex.At saved text) : 0 ∉ text := at'.reads.noNul

theorem headD_ne_zero (noNul : 0 ∉ text) : text.headD eof ≠ 0 := by
  cases text with
  | nil => decide
  | cons c rest => exact fun zero => noNul (zero ▸ List.mem_cons_self)

theorem not_mem_append_singleton (noNul : 0 ∉ saved) (other : c ≠ 0) : 0 ∉ saved ++ [c] := by
  rw [List.mem_append, not_or, List.mem_singleton]
  exact ⟨noNul, other.symm⟩

/-- There is fuel for what is left. -/
theorem Lex.At.lt_lexFuel (at' : lex.At saved text) : text.length + 2 < lexFuel lex := by
  have bound := at'.reads.length_le
  unfold lexFuel
  omega

theorem Lex.Scanning.lt_lexFuel (scanning : lex.Scanning saved text) : text.length + 1 < lexFuel lex := by
  have bound := scanning.delivered.reads.length_le
  rw [List.length_tail] at bound
  unfold lexFuel
  omega

/-! ### One character -/

theorem lexGet_at (at' : lex.At saved text) :
    ∃ lex', lexGet lex = some (text.headD eof, lex') ∧ Delivered lex'.stream (text.headD eof) text.tail ∧
      lex'.savedText = lex.savedText ∧ lex.Frame lex' := by
  obtain ⟨stream, error, get, delivered⟩ := streamGet_reads at'.reads lex.error
  refine ⟨{ lex with stream := stream, error := error }, ?_, delivered, rfl, rfl, rfl⟩
  simp only [lexGet, get, Option.bind_eq_bind, Option.bind_some, Option.pure_def]

theorem lexSave_holds (holds : lex.savedText.Holds saved) (c : Byte) :
    ∃ savedText, lexSave lex c = some { lex with savedText := savedText } ∧ savedText.Holds (saved ++ [c]) := by
  obtain ⟨savedText, append, holds'⟩ := strbufferAppendByte_holds holds c
  refine ⟨savedText, ?_, holds'⟩
  simp only [lexSave, append, Option.bind_eq_bind, Option.bind_some, Option.pure_def]

theorem lexGetSave_at (at' : lex.At saved text) :
    ∃ lex', lexGetSave lex = some (text.headD eof, lex') ∧ lex'.Scanning saved text ∧ lex.Frame lex' := by
  obtain ⟨got, get, delivered, same, frame⟩ := lexGet_at at'
  obtain ⟨savedText, save, holds⟩ := lexSave_holds (same ▸ at'.holds) (text.headD eof)
  refine ⟨{ got with savedText := savedText }, ?_, ⟨holds, at'.noNul, at'.noNul', delivered⟩, frame.token, frame.errno⟩
  simp only [lexGetSave, get, Option.bind_eq_bind, Option.bind_some, save, Option.pure_def]

/-- The character that was read stays. -/
theorem Lex.Scanning.pass (scanning : lex.Scanning saved (c :: text)) : lex.At (saved ++ [c]) text where
  holds := scanning.holds
  noNul := by
    have other := headD_ne_zero scanning.noNul'
    exact not_mem_append_singleton scanning.noNul other
  reads := scanning.delivered.reads

theorem lexGetSave_scanning (scanning : lex.Scanning saved (c :: text)) :
    ∃ lex', lexGetSave lex = some (text.headD eof, lex') ∧ lex'.Scanning (saved ++ [c]) text ∧ lex.Frame lex' :=
  lexGetSave_at scanning.pass

/-- The character that was read is given back. -/
theorem lexUngetUnsave_scanning (scanning : lex.Scanning saved text) :
    ∃ lex', lexUngetUnsave lex (text.headD eof) = some lex' ∧ lex'.At saved text ∧ lex.Frame lex' ∧
      lexEof lex' = lexEof lex := by
  obtain ⟨stream, unget, reads, data⟩ := streamUnget_reads scanning.delivered scanning.noNul'
  obtain ⟨savedText, pop, holds⟩ := strbufferPop_holds scanning.holds
  refine ⟨{ lex with stream := stream, savedText := savedText }, ?_, ⟨holds, scanning.noNul, reads⟩, ⟨rfl, rfl⟩, ?_⟩
  · simp only [lexUngetUnsave, unget, pop, Option.bind_eq_bind, Option.bind_some, if_true]
  · exact congrArg List.isEmpty data

/-! ### Errors -/

/-- An error changes nothing but the error, of which there is a text afterwards. -/
theorem lexError_holds (holds : lex.savedText.Holds saved) (noNul : 0 ∉ saved) {msg : List Byte} (more : msg ≠ []) :
    ∃ error, lexError lex msg = some { lex with error := error } ∧ error.text ≠ [] := by
  obtain ⟨error, set⟩ := errorSet_eq_some lex.error (some (lex.line, lex.savedText)) msg (by
    rintro _ _ ⟨⟩
    exact ⟨saved, holds.cstr_value noNul⟩)
  refine ⟨error, ?_, errorSet_ne_nil more set⟩
  simp only [lexError, set, Option.bind_eq_bind, Option.bind_some, Option.pure_def]

theorem lexError_at (at' : lex.At saved text) {msg : List Byte} (more : msg ≠ []) :
    ∃ lex', lexError lex msg = some lex' ∧ lex'.At saved text ∧ lex.Frame lex' := by
  obtain ⟨error, set, _⟩ := lexError_holds at'.holds at'.noNul more
  exact ⟨_, set, ⟨at'.holds, at'.noNul, at'.reads⟩, rfl, rfl⟩

/-! ### Classes of characters -/

/-- The loop takes the longest run of characters of its class. -/
theorem scanWhile_scanning {p : Byte → Bool} (notEof : p eof = false) {fuel : Nat}
    (scanning : lex.Scanning saved text) (enough : text.length < fuel) :
    ∃ lex', scanWhile p fuel (text.headD eof) lex = some ((text.dropWhile p).headD eof, lex') ∧
      lex'.Scanning (saved ++ text.takeWhile p) (text.dropWhile p) ∧ lex.Frame lex' := by
  induction fuel generalizing lex saved text with
  | zero => exact absurd enough (Nat.not_lt_zero _)
  | succ fuel ih =>
      cases text with
      | nil =>
          refine ⟨lex, ?_, by simpa using scanning, .refl lex⟩
          simp only [scanWhile, List.headD_nil, notEof, Bool.false_eq_true, if_false, List.dropWhile_nil]
      | cons c text =>
          cases member : p c with
          | false =>
              refine ⟨lex, ?_, by simpa [member] using scanning, .refl lex⟩
              simp only [scanWhile, List.headD_cons, member, Bool.false_eq_true, if_false, List.dropWhile_cons]
          | true =>
              obtain ⟨next, get, scanning', frame⟩ := lexGetSave_scanning scanning
              obtain ⟨last, rest, scanning'', frame'⟩ := ih scanning' (Nat.lt_of_succ_lt_succ enough)
              refine ⟨last, ?_, ?_, frame.trans frame'⟩
              · simp only [scanWhile, List.headD_cons, member, if_true, get, Option.bind_eq_bind, Option.bind_some,
                  rest, List.dropWhile_cons]
              · simpa [member, List.dropWhile_cons, List.takeWhile_cons] using scanning''

/-! ### What was scanned -/

/-- A token at the beginning of this text has been taken, or there is none. -/
def Lex.Took (libc : Libc ρ) (errno : Bool) (lex : Lex ρ) (text : List Byte) : Prop :=
  ∃ saved rest, lex.At saved rest ∧
    (lex.token = .invalid ∨ ∃ lexeme, text = lexeme ++ rest ∧ Lexeme libc errno lex.errno lex.token lexeme)

/-- This token has been taken, and this text comes. -/
structure Lex.HasToken (lex : Lex ρ) (errno : Bool) (token : Token ρ) (rest : List Byte) : Prop where
  errno : lex.errno = errno
  token : lex.token = token
  at' : ∃ saved, lex.At saved rest

end CpuMiner.Jansson
