/-
Module: CpuMiner.Wire.Documents
Layer: JSON
Purpose: `json_loads` as a whole. It comes back for every string; it returns `NULL` with the text of an error, or the
  value of the one document that the string is. A document is an object or an array, in UTF-8, with white space around
  it. The code takes a string with one broken character behind it for a document as well (`Remains`).
Imports: CpuMiner.Wire.Reading
Trusted boundary: none
Main exports: Document, jsonLoads_total, jsonLoads_document, jsonLoads_iff
Open obligations: none
-/
import CpuMiner.Wire.Reading

namespace CpuMiner.Jansson

open Words
open Utf8

variable {ρ : Type} {libc : Libc ρ}

/-! ### The first token -/

theorem White.noEof {ws : List Byte} (white : White ws) : eof ∉ ws := fun listed =>
  absurd (white eof listed) (by decide)

/-- What begins with a brace or a bracket is an object or an array. -/
theorem ValueText.container_of_first {tree : Tree} {c : Byte} {text : List Byte} (form : ValueText tree (c :: text))
    (bracket : c = 0x5B ∨ c = 0x7B) : tree.container = Bool.true := by
  have notNumber : ∀ d : Byte, isDecimal d = Bool.true ∨ d = 0x2D → ¬ (d = 0x5B ∨ d = 0x7B) := by decide +kernel
  generalize whole : c :: text = all at form
  cases form with
  | emptyObject _ => rfl
  | object _ => rfl
  | emptyArray _ => rfl
  | array _ => rfl
  | string _ =>
      obtain ⟨rfl, _⟩ := List.cons.inj whole
      exact absurd bracket (by decide)
  | integer integer _ =>
      obtain ⟨d, rest, first, number⟩ := integer.first
      rw [first] at whole
      obtain ⟨rfl, _⟩ := List.cons.inj whole
      exact absurd bracket (notNumber c number)
  | real real =>
      obtain ⟨d, rest, first, number⟩ := real.first
      rw [first] at whole
      obtain ⟨rfl, _⟩ := List.cons.inj whole
      exact absurd bracket (notNumber c number)
  | true =>
      obtain ⟨rfl, _⟩ := List.cons.inj whole
      exact absurd bracket (by decide)
  | false =>
      obtain ⟨rfl, _⟩ := List.cons.inj whole
      exact absurd bracket (by decide)
  | null =>
      obtain ⟨rfl, _⟩ := List.cons.inj whole
      exact absurd bracket (by decide)

theorem ValueText.first_of_container {tree : Tree} {text : List Byte} (form : ValueText tree text)
    (container : tree.container = Bool.true) : ∃ c rest, text = c :: rest ∧ (c = 0x5B ∨ c = 0x7B) := by
  cases form with
  | emptyObject _ => exact ⟨_, _, rfl, .inr rfl⟩
  | object _ => exact ⟨_, _, rfl, .inr rfl⟩
  | emptyArray _ => exact ⟨_, _, rfl, .inl rfl⟩
  | array _ => exact ⟨_, _, rfl, .inl rfl⟩
  | string _ => cases container
  | integer _ _ => cases container
  | real _ => cases container
  | true => cases container
  | false => cases container
  | null => cases container

/-! ### `json_loads` over what comes out of the stream -/

theorem lexInit_at {string : List Byte} (noNul : 0 ∉ string) (errno : Bool) :
    ∃ lex : Lex ρ, lexInit string errno = some lex ∧ lex.At [] (decode string) ∧ lex.errno = errno := by
  obtain ⟨savedText, init, holds⟩ := strbufferInit_holds
  refine ⟨{ stream := streamInit string, savedText := savedText, token := .invalid, line := 1, error := errorInit,
            errno := errno }, ?_, ⟨holds, List.not_mem_nil, streamInit_reads noNul⟩, rfl⟩
  simp only [lexInit, init, Option.bind_eq_bind, Option.bind_some, Option.pure_def]

theorem parseJson_sound {lex : Lex ρ} {saved text : List Byte} (at' : lex.At saved text) {fuel : Nat}
    (enough : 3 * text.length + 4 ≤ fuel) :
    ∃ r lex', parseJson libc fuel lex = some (r, lex') ∧ (Failed r lex' ∨
      ∃ tree ws body rest, text = ws ++ body ++ rest ∧ White ws ∧ ValueText tree body ∧ tree.container = Bool.true ∧
        Parsed r (tree.value libc) (tree.errno libc lex.errno) lex' rest) := by
  obtain ⟨first, scan, _, rest, at'', cases⟩ := @lexScan_cases ρ libc libc.intMax_le { lex with error := errorInit } _ _
    ⟨at'.holds, at'.noNul, at'.reads⟩
  by_cases bracket : first.token.isChar 0x5B = true ∨ first.token.isChar 0x7B = true
  · rcases cases with stops | takes
    · rcases bracket with isChar | isChar
      all_goals
        rw [stops.not_isChar] at isChar
        cases isChar
    · have shorter := takes.length_lt
      obtain ⟨ws, lexeme, white, rfl, form⟩ := takes
      obtain ⟨r, last, parse, result⟩ := (parse_sound libc.intMax_le fuel).1 at'' form (by omega)
      refine ⟨r, last, ?_, result.imp_right ?_⟩
      · simp only [parseJson, scan, Option.bind_eq_bind, Option.bind_some, if_pos bracket, parse]
      · rintro ⟨tree, body, rest', rfl, valueText, parsed⟩
        refine ⟨tree, ws, lexeme ++ body, rest', by simp, white, valueText, ?_, parsed⟩
        obtain ⟨c, isC, token⟩ : ∃ c, (c = 0x5B ∨ c = 0x7B) ∧ first.token = .char c := by
          rcases bracket with isChar | isChar
          · exact ⟨_, .inl rfl, isChar_iff.mp isChar⟩
          · exact ⟨_, .inr rfl, isChar_iff.mp isChar⟩
        rw [token] at form
        generalize first.errno = errno at form
        cases form with
        | char _ => exact valueText.container_of_first isC
  · obtain ⟨last, error, more⟩ := @parseError_at ρ first _ rest at'' "'[' or '\x7b' expected" (by decide)
    refine ⟨none, last, ?_, .inl ⟨rfl, more⟩⟩
    simp only [parseJson, scan, Option.bind_eq_bind, Option.bind_some, if_neg bracket, error]

/-- Every string is loaded or refused, and a refusal has a text. -/
theorem jsonLoads_total {string : List Byte} (noNul : 0 ∉ string) (errno : Bool) :
    ∃ loaded, jsonLoads libc string errno = some loaded ∧
      ((loaded.result = none ∧ loaded.error.text ≠ []) ∨
        ∃ tree document, (decode string = document ∨ decode string = document ++ [eof]) ∧ Text tree document ∧
          loaded.result = some (tree.value libc) ∧ tree.errno libc errno = some loaded.errno) := by
  obtain ⟨lex, init, at', same⟩ := @lexInit_at ρ string noNul errno
  have shorter := length_decode_le string
  obtain ⟨r, first, parse, failed | ⟨tree, ws, body, rest, text, white, valueText, container, rfl, errno', _, at''⟩⟩ :=
    @parseJson_sound ρ libc lex _ _ at' (3 * string.length + 8) (by omega)
  · obtain ⟨rfl, more⟩ := failed
    refine ⟨{ result := none, error := first.error, errno := first.errno }, ?_, .inl ⟨rfl, more⟩⟩
    simp only [jsonLoads, init, parse, Option.bind_eq_bind, Option.bind_some, Option.pure_def]
  · obtain ⟨last, scan, saved', rest', at₂, ends⟩ := lexScan_scanning libc.intMax_le at''
    cases isEof : last.token.isEof with
    | false =>
        obtain ⟨error, set, more⟩ := @lexError_holds ρ last saved' at₂.holds at₂.noNul (ascii "end of file expected")
          (by decide)
        refine ⟨{ result := none, error := error, errno := last.errno }, ?_, .inl ⟨rfl, more⟩⟩
        simp only [jsonLoads, init, parse, scan, isEof, set, Option.bind_eq_bind, Option.bind_some, Bool.false_eq_true,
          if_false, Option.pure_def]
    | true =>
        have token := isEof_iff.mp isEof
        refine ⟨{ result := some (tree.value libc), error := last.error, errno := last.errno }, ?_, .inr ?_⟩
        · simp only [jsonLoads, init, parse, scan, isEof, Option.bind_eq_bind, Option.bind_some, if_true,
            Option.pure_def]
        · rcases ends with invalid | ⟨_, errno₂, after, white', ends⟩ | ⟨_, _, _, _, form⟩
          · rw [invalid] at token
            cases token
          · refine ⟨tree, ws ++ body ++ after, ?_, .intro white valueText white' container, rfl, ?_⟩
            · rw [text]
              rcases ends with rfl | rfl
              · exact .inl rfl
              · exact .inr (List.append_assoc ..).symm
            · rw [← same, errno', errno₂]
          · have notEof := form.not_isEof
            rw [isEof] at notEof
            cases notEof

/-- Every document is loaded, if its numbers are accepted. -/
theorem jsonLoads_document {string document : List Byte} (noNul : 0 ∉ string) {tree : Tree} (form : Text tree document)
    (comes : decode string = document ∨ decode string = document ++ [eof]) {errno errno' : Bool}
    (accepted : tree.errno libc errno = some errno') :
    ∃ loaded, jsonLoads libc string errno = some loaded ∧ loaded.result = some (tree.value libc) ∧
      loaded.errno = errno' := by
  obtain ⟨lex, init, at', same⟩ := @lexInit_at ρ string noNul errno
  cases form with
  | @intro before text after white valueText white' container =>
      have shorter := length_decode_le string
      obtain ⟨tail, isTail, whole⟩ : ∃ tail, (tail = [] ∨ tail = [eof]) ∧
          decode string = before ++ text ++ (after ++ tail) := by
        rcases comes with whole | whole
        · exact ⟨[], .inl rfl, by rw [whole, List.append_nil]⟩
        · exact ⟨[eof], .inr rfl, by rw [whole, List.append_assoc]⟩
      have delimited : Delimited (after ++ tail) := by
        refine delimited_white white' ?_
        rcases isTail with rfl | rfl
        all_goals exact ⟨rfl, rfl, by decide⟩
      have enough : 3 * text.length ≤ 3 * string.length + 8 := by
        rw [whole, List.length_append, List.length_append] at shorter
        omega
      rw [whole] at at'
      have at₁ : Lex.At { lex with error := errorInit } [] (before ++ text ++ (after ++ tail)) :=
        ⟨at'.holds, at'.noNul, at'.reads⟩
      rw [← same] at accepted
      obtain ⟨second, parse, errno₂, _, at₂⟩ := @ValueText.run ρ libc libc.intMax_le tree text valueText
        (3 * string.length + 8) { lex with error := errorInit } [] before (after ++ tail) errno' enough white delimited
        accepted at₁
      obtain ⟨first, scan, parse'⟩ := Option.bind_eq_some_iff.mp parse
      have bracket : first.token.isChar 0x5B = true ∨ first.token.isChar 0x7B = true := by
        obtain ⟨c, rest, rfl, isC⟩ := valueText.first_of_container container
        have mark : c ∈ punctuation := by
          rcases isC with rfl | rfl <;> decide
        have at₃ : Lex.At { lex with error := errorInit } [] (before ++ c :: (rest ++ (after ++ tail))) := by
          simpa using at₁
        obtain ⟨next, scan', has⟩ := scan_mark libc.intMax_le mark white at₃
        obtain rfl : first = next := Option.some.inj (scan.symm.trans scan')
        rcases isC with rfl | rfl
        · exact .inl (isChar_iff.mpr has.token)
        · exact .inr (isChar_iff.mpr has.token)
      have ends : after ++ tail = after ∨ after ++ tail = after ++ [eof] := by
        rcases isTail with rfl | rfl
        · exact .inl (List.append_nil _)
        · exact .inr rfl
      obtain ⟨last, scan₃, errno₃, token, _⟩ := @lexScan_eof ρ libc second _ _ after white' ends at₂
      refine ⟨{ result := some (tree.value libc), error := last.error, errno := last.errno }, ?_, rfl,
        errno₃.trans errno₂⟩
      simp only [jsonLoads, init, parseJson, scan, if_pos bracket, parse', scan₃, isEof_iff.mpr token,
        Option.bind_eq_bind, Option.bind_some, if_true, Option.pure_def]

/-! ### Documents -/

/-- A document of this tree, and what the code lets stand behind it. -/
structure Document (tree : Tree) (string document junk : List Byte) : Prop where
  split : string = document ++ junk
  valid : Valid document
  text : Text tree document
  remains : Remains junk

/-- What is loaded has no byte `0xFF`. -/
theorem StringText.noEof {value text : List Byte} (string : StringText value text) : eof ∉ text := by
  have hex : ∀ {digits : List Byte}, FourDigits digits → eof ∉ digits := fun four listed =>
    absurd (four.digit eof listed) (by decide)
  induction string with
  | nil => exact List.not_mem_nil
  | plain plain _ ih =>
      rw [List.mem_cons, not_or]
      exact ⟨plain.notEof.symm, ih⟩
  | @escape c b value text listed _ ih =>
      have all : (escapes.all fun p => eof != p.1) = true := by decide
      simp only [List.mem_cons, not_or]
      exact ⟨by decide, bne_iff_ne.mp (List.all_eq_true.mp all _ listed), ih⟩
  | unicode four _ _ _ ih =>
      simp only [List.mem_cons, List.mem_append, not_or]
      exact ⟨by decide, by decide, hex four, ih⟩
  | pair high low _ _ _ _ _ _ ih =>
      simp only [List.mem_cons, List.mem_append, not_or]
      exact ⟨by decide, by decide, hex high, by decide, by decide, hex low, ih⟩

theorem Decimals.noEof {digits : List Byte} (decimals : Decimals digits) : eof ∉ digits := fun listed =>
  absurd (decimals.digit eof listed) (by decide)

theorem IntegerText.noEof {value : Int} {text : List Byte} (integer : IntegerText value text) : eof ∉ text := by
  cases integer with
  | @intro negative digits number =>
      rw [List.mem_append, not_or]
      refine ⟨?_, number.decimals.noEof⟩
      cases negative <;> decide

theorem RealText.noEof {text : List Byte} (real : RealText text) : eof ∉ text := by
  cases real with
  | intro integer fraction exponent _ =>
      simp only [List.mem_append, not_or]
      refine ⟨⟨integer.noEof, ?_⟩, ?_⟩
      · cases fraction with
        | none => exact List.not_mem_nil
        | digits decimals =>
            rw [List.mem_cons, not_or]
            exact ⟨by decide, decimals.noEof⟩
      · cases exponent with
        | none => exact List.not_mem_nil
        | @digits e sign digits isE listed decimals =>
            simp only [List.mem_cons, List.mem_append, not_or]
            refine ⟨?_, ?_, decimals.noEof⟩
            · rcases isE with rfl | rfl <;> decide
            · simp only [List.mem_cons, List.not_mem_nil, or_false] at listed
              rcases listed with rfl | rfl | rfl <;> decide

theorem stringText_noEof {value text : List Byte} (string : StringText value text) : eof ∉ stringText text := by
  simp only [stringText, List.mem_cons, List.mem_append, List.not_mem_nil, or_false, not_or]
  exact ⟨by decide, string.noEof, by decide⟩

mutual

theorem ValueText.noEof : ∀ {tree : Tree} {text : List Byte}, ValueText tree text → eof ∉ text
  | _, _, .emptyObject white => by
      simp only [List.mem_cons, List.mem_append, List.not_mem_nil, or_false, not_or]
      exact ⟨by decide, white.noEof, by decide⟩
  | _, _, .object members => by
      simp only [List.mem_cons, List.mem_append, List.not_mem_nil, or_false, not_or]
      exact ⟨by decide, members.noEof, by decide⟩
  | _, _, .emptyArray white => by
      simp only [List.mem_cons, List.mem_append, List.not_mem_nil, or_false, not_or]
      exact ⟨by decide, white.noEof, by decide⟩
  | _, _, .array elements => by
      simp only [List.mem_cons, List.mem_append, List.not_mem_nil, or_false, not_or]
      exact ⟨by decide, elements.noEof, by decide⟩
  | _, _, .string string => stringText_noEof string
  | _, _, .integer integer _ => integer.noEof
  | _, _, .real real => real.noEof
  | _, _, .true => by decide
  | _, _, .false => by decide
  | _, _, .null => by decide

theorem ElementsText.noEof : ∀ {elements : List Tree} {text : List Byte}, ElementsText elements text → eof ∉ text
  | _, _, .last before value after => by
      simp only [List.mem_append, not_or]
      exact ⟨⟨before.noEof, value.noEof⟩, after.noEof⟩
  | _, _, .more before value after rest => by
      simp only [List.mem_cons, List.mem_append, not_or]
      exact ⟨⟨⟨before.noEof, value.noEof⟩, after.noEof⟩, by decide, rest.noEof⟩

theorem MembersText.noEof : ∀ {members : List (List Byte × Tree)} {text : List Byte}, MembersText members text →
    eof ∉ text
  | _, _, .last before key afterKey beforeText value after => by
      simp only [List.mem_cons, List.mem_append, not_or]
      exact ⟨⟨⟨before.noEof, stringText_noEof key⟩, afterKey.noEof⟩, by decide, ⟨beforeText.noEof, value.noEof⟩,
        after.noEof⟩
  | _, _, .more before key afterKey beforeText value after rest => by
      simp only [List.mem_cons, List.mem_append, not_or]
      exact ⟨⟨⟨before.noEof, stringText_noEof key⟩, afterKey.noEof⟩, by decide,
        ⟨⟨beforeText.noEof, value.noEof⟩, after.noEof⟩, by decide, rest.noEof⟩

end

theorem Text.noEof {tree : Tree} {text : List Byte} (form : Text tree text) : eof ∉ text := by
  cases form with
  | intro before value after _ =>
      simp only [List.mem_append, not_or]
      exact ⟨⟨before.noEof, value.noEof⟩, after.noEof⟩

/-- What comes out of the stream is a text exactly for a document. -/
theorem exists_document {tree : Tree} {string : List Byte} :
    (∃ text, Text tree text ∧ (decode string = text ∨ decode string = text ++ [eof])) ↔
      ∃ document junk, Document tree string document junk := by
  constructor
  · rintro ⟨text, form, comes⟩
    obtain ⟨rest, isRest, comes⟩ : ∃ rest, (rest = [] ∨ rest = [eof]) ∧ decode string = text ++ rest := by
      rcases comes with comes | comes
      · exact ⟨[], .inl rfl, by rw [comes, List.append_nil]⟩
      · exact ⟨[eof], .inr rfl, comes⟩
    have ends : ∀ c ∈ rest.head?, c = eof := by
      rcases isRest with rfl | rfl
      · rintro c ⟨⟩
      · rintro c ⟨⟩
        rfl
    obtain ⟨junk, split, valid, junk'⟩ := exists_of_decode comes form.noEof ends
    refine ⟨text, junk, split, valid, form, decode_remains.mpr ?_⟩
    rwa [junk']
  · rintro ⟨document, junk, split, valid, form, remains⟩
    refine ⟨document, form, ?_⟩
    rw [split, decode_valid valid]
    rcases decode_remains.mp remains with nothing | broken
    · exact .inl (by rw [nothing, List.append_nil])
    · exact .inr (by rw [broken])

/-- `json_loads` comes back for every string, with a value or with an error, and the values are those of the
    documents. -/
theorem jsonLoads_iff (libc : Libc ρ) (string : CString) (errno : Bool) :
    ∃ loaded, jsonLoads libc string.bytes errno = some loaded ∧
      (loaded.result = none → loaded.error.text ≠ []) ∧
      ∀ value errno', (loaded.result = some value ∧ loaded.errno = errno') ↔
        ∃ tree document junk, Document tree string.bytes document junk ∧ tree.errno libc errno = some errno' ∧
          value = tree.value libc := by
  obtain ⟨loaded, loads, outcome⟩ := @jsonLoads_total ρ libc string.bytes string.noNul errno
  refine ⟨loaded, loads, ?_, ?_⟩
  · intro none
    rcases outcome with ⟨_, more⟩ | ⟨_, _, _, _, some, _⟩
    · exact more
    · rw [none] at some
      cases some
  · intro value errno'
    constructor
    · rintro ⟨some, rfl⟩
      rcases outcome with ⟨none, _⟩ | ⟨tree, text, comes, form, some', accepted⟩
      · rw [none] at some
        cases some
      · rw [some] at some'
        obtain ⟨document, junk, found⟩ := exists_document.mp ⟨text, form, comes⟩
        exact ⟨tree, document, junk, found, accepted, Option.some.inj some'⟩
    · rintro ⟨tree, document, junk, found, accepted, rfl⟩
      obtain ⟨text, form, comes⟩ := exists_document.mpr ⟨document, junk, found⟩
      obtain ⟨loaded', loads', result, same⟩ := jsonLoads_document string.noNul form comes accepted
      obtain rfl : loaded = loaded' := Option.some.inj (loads.symm.trans loads')
      exact ⟨result, same⟩

end CpuMiner.Jansson
