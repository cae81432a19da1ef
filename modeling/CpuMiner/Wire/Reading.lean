/-
Module: CpuMiner.Wire.Reading
Layer: JSON
Purpose: `json_loads` reads the texts of the grammar and no others. Whatever the string is, it comes back; without a
  value there is the text of an error. A value is what the text says (`Tree.value`), by what `strtod` makes of its real
  numbers, and by what the table of an object keeps of members with the same key.
Imports: CpuMiner.Wire.Load, CpuMiner.Wire.Tokens
Trusted boundary: human-reviewed spec (`Tree.value`, `Tree.errno`)
Main exports: Tree.value, Tree.errno, ValueSound, parse_sound, ValueRuns, ValueText.run
Open obligations: none
-/
import CpuMiner.Wire.Load
import CpuMiner.Wire.Tokens

namespace CpuMiner.Jansson

open Words

variable {ρ : Type} {libc : Libc ρ}

/-! ### What a tree stands for -/

mutual

/-- The value of a tree. -/
def Tree.value (libc : Libc ρ) : Tree → Value ρ
  | .object members => .object (membersValue libc .empty members)
  | .array elements => .array (elementsValue libc elements)
  | .string value => .string value
  | .integer value => .integer value
  | .real text => .real (libc.strtod text).1
  | .true => .true
  | .false => .false
  | .null => .null

/-- The members are set one after the other. -/
def membersValue (libc : Libc ρ) :
    Table (List Byte) (Value ρ) → List (List Byte × Tree) → Table (List Byte) (Value ρ)
  | object, [] => object
  | object, (key, value) :: members => membersValue libc (object.set hashKey key (value.value libc)) members

def elementsValue (libc : Libc ρ) : List Tree → List (Value ρ)
  | [] => []
  | element :: elements => element.value libc :: elementsValue libc elements

end

mutual

/-- `errno` after the numbers of a tree, if they are all accepted. -/
def Tree.errno (libc : Libc ρ) (errno : Bool) : Tree → Option Bool
  | .object members => membersErrno libc errno members
  | .array elements => elementsErrno libc errno elements
  | .integer value => libc.integerErrno errno value
  | .real text => libc.realErrno errno text
  | _ => some errno

def membersErrno (libc : Libc ρ) (errno : Bool) : List (List Byte × Tree) → Option Bool
  | [] => some errno
  | (_, value) :: members => (value.errno libc errno).bind fun errno => membersErrno libc errno members

def elementsErrno (libc : Libc ρ) (errno : Bool) : List Tree → Option Bool
  | [] => some errno
  | element :: elements => (element.errno libc errno).bind fun errno => elementsErrno libc errno elements

end

/-! ### White space in front -/

theorem White.append {ws ws' : List Byte} (white : White ws) (white' : White ws') : White (ws ++ ws') := by
  intro c listed
  rcases List.mem_append.mp listed with first | second
  · exact white c first
  · exact white' c second

theorem white_nil : White [] := by
  intro c listed
  cases listed

theorem ElementsText.white {elements : List Tree} {text ws : List Byte} (form : ElementsText elements text)
    (white : White ws) : ElementsText elements (ws ++ text) := by
  cases form with
  | last before value after =>
      simpa only [List.append_assoc] using ElementsText.last (white.append before) value after
  | more before value after rest =>
      simpa only [List.append_assoc] using ElementsText.more (white.append before) value after rest

theorem MembersText.white {members : List (List Byte × Tree)} {text ws : List Byte} (form : MembersText members text)
    (white : White ws) : MembersText members (ws ++ text) := by
  cases form with
  | last before key afterKey beforeText value after =>
      simpa only [List.append_assoc] using
        MembersText.last (white.append before) key afterKey beforeText value after
  | more before key afterKey beforeText value after rest =>
      simpa only [List.append_assoc] using
        MembersText.more (white.append before) key afterKey beforeText value after rest

/-! ### Tokens in the parser -/

theorem isChar_iff {token : Token ρ} {c : Byte} : token.isChar c = true ↔ token = .char c := by
  cases token <;> simp [Token.isChar]

theorem isEof_iff {token : Token ρ} : token.isEof = true ↔ token = .eof := by
  cases token <;> simp [Token.isEof]

/-- There is no token that a parser can take. -/
def Lex.Stops (lex : Lex ρ) : Prop := lex.token = .invalid ∨ lex.token = .eof

/-- A token that a parser can take has been scanned out of this text, and this one comes. -/
def Lex.Takes (libc : Libc ρ) (errno : Bool) (lex : Lex ρ) (text rest : List Byte) : Prop :=
  ∃ ws lexeme, White ws ∧ text = ws ++ lexeme ++ rest ∧ Lexeme libc errno lex.errno lex.token lexeme

theorem Lex.Takes.length_lt {errno : Bool} {lex : Lex ρ} {text rest : List Byte}
    (takes : lex.Takes libc errno text rest) :
    rest.length < text.length := by
  obtain ⟨ws, lexeme, _, rfl, form⟩ := takes
  obtain ⟨c, tail, rfl, _⟩ := form.first
  simp only [List.length_append, List.length_cons]
  omega

theorem lexScan_cases (longMax : intMax ≤ libc.longMax) {lex : Lex ρ} {saved text : List Byte}
    (at' : lex.At saved text) :
    ∃ lex', lexScan libc lex = some lex' ∧ ∃ saved' rest, lex'.At saved' rest ∧
      (lex'.Stops ∨ lex'.Takes libc lex.errno text rest) := by
  obtain ⟨last, scan, saved', rest, at'', invalid | ⟨isEof, _⟩ | takes⟩ := lexScan_scanning longMax at'
  · exact ⟨last, scan, saved', rest, at'', .inl (.inl invalid)⟩
  · exact ⟨last, scan, saved', rest, at'', .inl (.inr isEof)⟩
  · exact ⟨last, scan, saved', rest, at'', .inr takes⟩

/-- A character that has been taken as a token. -/
theorem Lex.Takes.char {errno : Bool} {lex : Lex ρ} {text rest : List Byte} {c : Byte}
    (takes : lex.Takes libc errno text rest) (isChar : lex.token.isChar c = true) :
    ∃ ws, White ws ∧ text = ws ++ c :: rest ∧ lex.errno = errno := by
  obtain ⟨ws, lexeme, white, rfl, form⟩ := takes
  rw [isChar_iff.mp isChar] at form
  generalize same : lex.errno = errno' at form
  cases form with
  | char _ => exact ⟨ws, white, by simp, rfl⟩

theorem Lex.Stops.not_isChar {lex : Lex ρ} (stops : lex.Stops) (c : Byte) : lex.token.isChar c = false := by
  rcases stops with token | token <;> rw [token] <;> rfl

theorem parseError_at {lex : Lex ρ} {saved text : List Byte} (at' : lex.At saved text) {msg : String}
    (more : ascii msg ≠ []) :
    ∃ lex', (parseError lex msg : Option (Option (Value ρ) × Lex ρ)) = some (none, lex') ∧ lex'.error.text ≠ [] := by
  obtain ⟨error, set, text⟩ := lexError_holds at'.holds at'.noNul more
  refine ⟨{ lex with error := error }, ?_, text⟩
  simp only [parseError, set, Option.bind_eq_bind, Option.bind_some, Option.pure_def]

/-- Nothing is parsed where there is no token. -/
theorem parseValue_stops {lex : Lex ρ} {saved text : List Byte} (at' : lex.At saved text) (stops : lex.Stops)
    (fuel : Nat) : ∃ lex', parseValue libc (fuel + 1) lex = some (none, lex') ∧ lex'.error.text ≠ [] := by
  rcases stops with token | token
  · obtain ⟨last, error, more⟩ := @parseError_at ρ lex saved text at' "invalid token" (by decide)
    exact ⟨last, by rw [parseValue, token]; exact error, more⟩
  · obtain ⟨last, error, more⟩ := @parseError_at ρ lex saved text at' "unexpected token" (by decide)
    exact ⟨last, by rw [parseValue, token]; exact error, more⟩

/-! ### What is parsed is in the grammar -/

/-- There is no value, and there is an error. -/
def Failed (r : Option (Value ρ)) (lex : Lex ρ) : Prop := r = none ∧ lex.error.text ≠ []

/-- This has been parsed, and this text comes. -/
def Parsed (r : Option (Value ρ)) (value : Value ρ) (errno : Option Bool) (lex : Lex ρ) (rest : List Byte) : Prop :=
  r = some value ∧ errno = some lex.errno ∧ ∃ saved, lex.At saved rest

/-- A value, behind the first token of its text. -/
def ValueSound (libc : Libc ρ) (fuel : Nat) : Prop :=
  ∀ ⦃lex : Lex ρ⦄ ⦃saved text lexeme : List Byte⦄ ⦃errno : Bool⦄, lex.At saved text →
    Lexeme libc errno lex.errno lex.token lexeme → 3 * text.length + 4 ≤ fuel →
    ∃ r lex', parseValue libc fuel lex = some (r, lex') ∧ (Failed r lex' ∨
      ∃ tree body rest, text = body ++ rest ∧ ValueText tree (lexeme ++ body) ∧
        Parsed r (tree.value libc) (tree.errno libc errno) lex' rest)

/-- An object, behind its brace. -/
def ObjectSound (libc : Libc ρ) (fuel : Nat) : Prop :=
  ∀ ⦃lex : Lex ρ⦄ ⦃saved text : List Byte⦄, lex.At saved text → 3 * text.length + 3 ≤ fuel →
    ∃ r lex', parseObject libc fuel lex = some (r, lex') ∧ (Failed r lex' ∨
      ∃ members body rest, text = body ++ rest ∧ ValueText (.object members) (0x7B :: body) ∧
        Parsed r (.object (membersValue libc .empty members)) (membersErrno libc lex.errno members) lex' rest)

/-- Members, behind the first token of their text. -/
def MembersSound (libc : Libc ρ) (fuel : Nat) : Prop :=
  ∀ ⦃lex : Lex ρ⦄ ⦃saved text lexeme : List Byte⦄ ⦃errno : Bool⦄ (object : Table (List Byte) (Value ρ)),
    lex.At saved text → Lexeme libc errno lex.errno lex.token lexeme → 3 * text.length + 5 ≤ fuel →
    ∃ r lex', parseMembers libc fuel object lex = some (r, lex') ∧ (Failed r lex' ∨
      ∃ members body rest, text = body ++ 0x7D :: rest ∧ MembersText members (lexeme ++ body) ∧
        Parsed r (.object (membersValue libc object members)) (membersErrno libc errno members) lex' rest)

/-- An array, behind its bracket. -/
def ArraySound (libc : Libc ρ) (fuel : Nat) : Prop :=
  ∀ ⦃lex : Lex ρ⦄ ⦃saved text : List Byte⦄, lex.At saved text → 3 * text.length + 3 ≤ fuel →
    ∃ r lex', parseArray libc fuel lex = some (r, lex') ∧ (Failed r lex' ∨
      ∃ elements body rest, text = body ++ rest ∧ ValueText (.array elements) (0x5B :: body) ∧
        Parsed r (.array (elementsValue libc elements)) (elementsErrno libc lex.errno elements) lex' rest)

/-- Elements, behind the first token of their text. -/
def ElementsSound (libc : Libc ρ) (fuel : Nat) : Prop :=
  ∀ ⦃lex : Lex ρ⦄ ⦃saved text lexeme : List Byte⦄ ⦃errno : Bool⦄ (array : List (Value ρ)),
    lex.At saved text → Lexeme libc errno lex.errno lex.token lexeme → 3 * text.length + 5 ≤ fuel →
    ∃ r lex', parseElements libc fuel array lex = some (r, lex') ∧ (Failed r lex' ∨
      ∃ elements body rest, text = body ++ 0x5D :: rest ∧ ElementsText elements (lexeme ++ body) ∧
        Parsed r (.array (array ++ elementsValue libc elements)) (elementsErrno libc errno elements) lex' rest)

/-- An error in a parser. -/
theorem parseError_failed {lex : Lex ρ} {saved text : List Byte} (at' : lex.At saved text) (msg : String)
    (more : ascii msg ≠ []) (P : Option (Value ρ) → Lex ρ → Prop) :
    ∃ r lex', (parseError lex msg : Option (Option (Value ρ) × Lex ρ)) = some (r, lex') ∧
      (Failed r lex' ∨ P r lex') := by
  obtain ⟨last, error, text⟩ := @parseError_at ρ lex saved _ at' msg more
  exact ⟨none, last, error, .inl ⟨rfl, text⟩⟩

theorem valueSound_succ {fuel : Nat} (object : ObjectSound libc fuel) (array : ArraySound libc fuel) :
    ValueSound libc (fuel + 1) := by
  intro lex saved text lexeme errno at' form enough
  generalize isToken : lex.token = token at form
  generalize isErrno : lex.errno = errno' at form
  have scalar : ∀ {tree : Tree}, ValueText tree lexeme → tree.errno libc errno = some errno' →
      ∃ tree' body rest, text = body ++ rest ∧ ValueText tree' (lexeme ++ body) ∧
        Parsed (some (tree.value libc)) (tree'.value libc) (tree'.errno libc errno) lex rest := by
    intro tree form accepted
    exact ⟨tree, [], text, rfl, by rwa [List.append_nil], rfl, by rw [accepted, isErrno], _, at'⟩
  cases form with
  | @char c _ =>
      rw [parseValue, isToken]
      by_cases brace : c = 0x7B
      · subst brace
        obtain ⟨r, last, parse, result⟩ := object at' (by omega)
        refine ⟨r, last, parse, result.imp_right ?_⟩
        rintro ⟨members, body, rest, text', form, parsed⟩
        rw [isErrno] at parsed
        exact ⟨.object members, body, rest, text', form, parsed⟩
      · by_cases bracket : c = 0x5B
        · subst bracket
          obtain ⟨r, last, parse, result⟩ := array at' (by omega)
          refine ⟨r, last, parse, result.imp_right ?_⟩
          rintro ⟨elements, body, rest, text', form, parsed⟩
          rw [isErrno] at parsed
          exact ⟨.array elements, body, rest, text', form, parsed⟩
        · simp only [if_neg brace, if_neg bracket]
          exact parseError_failed at' _ (by decide) _
  | string string => exact ⟨_, lex, by rw [parseValue, isToken]; rfl, .inr (scalar (.string string) rfl)⟩
  | integer integer inInt accepted =>
      exact ⟨_, lex, by rw [parseValue, isToken]; rfl, .inr (scalar (.integer integer inInt) accepted)⟩
  | real real accepted => exact ⟨_, lex, by rw [parseValue, isToken]; rfl, .inr (scalar (.real real) accepted)⟩
  | true => exact ⟨_, lex, by rw [parseValue, isToken]; rfl, .inr (scalar .true rfl)⟩
  | false => exact ⟨_, lex, by rw [parseValue, isToken]; rfl, .inr (scalar .false rfl)⟩
  | null => exact ⟨_, lex, by rw [parseValue, isToken]; rfl, .inr (scalar .null rfl)⟩

theorem objectSound_succ (longMax : intMax ≤ libc.longMax) {fuel : Nat} (members : MembersSound libc fuel) :
    ObjectSound libc (fuel + 1) := by
  intro lex saved text at' enough
  obtain ⟨first, scan, saved', rest, at'', stops | takes⟩ := lexScan_cases longMax at'
  all_goals simp only [parseObject, scan, Option.bind_eq_bind, Option.bind_some]
  · simp only [stops.not_isChar, Bool.false_eq_true, if_false]
    obtain ⟨fuel, rfl⟩ : ∃ k, fuel = k + 1 := ⟨fuel - 1, by omega⟩
    rw [parseMembers]
    rcases stops with token | token
    all_goals
      rw [token]
      exact parseError_failed at'' _ (by decide) _
  · have shorter := takes.length_lt
    cases isEnd : first.token.isChar 0x7D with
    | true =>
        obtain ⟨ws, white, rfl, errno⟩ := takes.char isEnd
        exact ⟨_, first, rfl, .inr ⟨[], ws ++ [0x7D], rest, by simp, .emptyObject white, rfl,
          congrArg some errno.symm, _, at''⟩⟩
    | false =>
        obtain ⟨ws, lexeme, white, rfl, form⟩ := takes
        obtain ⟨r, last, parse, result⟩ := members .empty at'' form (by omega)
        refine ⟨r, last, parse, result.imp_right ?_⟩
        rintro ⟨ms, body, rest', rfl, form', parsed⟩
        refine ⟨ms, ws ++ (lexeme ++ body) ++ [0x7D], rest', by simp, .object (form'.white white), parsed⟩

theorem arraySound_succ (longMax : intMax ≤ libc.longMax) {fuel : Nat} (elements : ElementsSound libc fuel) :
    ArraySound libc (fuel + 1) := by
  intro lex saved text at' enough
  obtain ⟨first, scan, saved', rest, at'', stops | takes⟩ := lexScan_cases longMax at'
  all_goals simp only [parseArray, scan, Option.bind_eq_bind, Option.bind_some]
  · simp only [stops.not_isChar, Bool.false_eq_true, if_false]
    obtain ⟨fuel, rfl⟩ : ∃ k, fuel = k + 2 := ⟨fuel - 2, by omega⟩
    rw [parseElements]
    split
    · exact parseError_failed at'' _ (by decide) _
    · obtain ⟨last, none, more⟩ := @parseValue_stops ρ libc first _ _ at'' stops fuel
      exact ⟨_, last, by simp only [none, Option.bind_eq_bind, Option.bind_some, Option.pure_def], .inl ⟨rfl, more⟩⟩
  · have shorter := takes.length_lt
    cases isEnd : first.token.isChar 0x5D with
    | true =>
        obtain ⟨ws, white, rfl, errno⟩ := takes.char isEnd
        exact ⟨_, first, rfl, .inr ⟨[], ws ++ [0x5D], rest, by simp, .emptyArray white, rfl,
          congrArg some errno.symm, _, at''⟩⟩
    | false =>
        obtain ⟨ws, lexeme, white, rfl, form⟩ := takes
        obtain ⟨r, last, parse, result⟩ := elements [] at'' form (by omega)
        refine ⟨r, last, parse, result.imp_right ?_⟩
        rintro ⟨es, body, rest', rfl, form', parsed⟩
        refine ⟨es, ws ++ (lexeme ++ body) ++ [0x5D], rest', by simp, .array (form'.white white), parsed⟩

theorem Lexeme.not_isEof {errno errno' : Bool} {token : Token ρ} {lexeme : List Byte}
    (form : Lexeme libc errno errno' token lexeme) : token.isEof = Bool.false := by
  cases form <;> rfl

/-- A character that is expected. -/
theorem scan_char (longMax : intMax ≤ libc.longMax) {lex : Lex ρ} {saved text : List Byte} (at' : lex.At saved text)
    (c : Byte) :
    ∃ next, lexScan libc lex = some next ∧ ∃ saved' rest, next.At saved' rest ∧
      if next.token.isChar c then ∃ ws, White ws ∧ text = ws ++ c :: rest ∧ next.errno = lex.errno else True := by
  obtain ⟨next, scan, saved', rest, at'', stops | takes⟩ := lexScan_cases longMax at'
  · exact ⟨next, scan, saved', rest, at'', by rw [stops.not_isChar, if_neg Bool.false_ne_true]; trivial⟩
  · refine ⟨next, scan, saved', rest, at'', ?_⟩
    split
    · rename_i isChar
      exact takes.char isChar
    · trivial

/-- A value with the white space in front of it. -/
theorem scan_value (longMax : intMax ≤ libc.longMax) {fuel : Nat} (value : ValueSound libc fuel) {lex : Lex ρ}
    {saved text : List Byte} (at' : lex.At saved text) (enough : 3 * text.length + 1 ≤ fuel) :
    ∃ r lex', (lexScan libc lex).bind (parseValue libc fuel) = some (r, lex') ∧ (Failed r lex' ∨
      ∃ tree ws body rest, text = ws ++ body ++ rest ∧ White ws ∧ ValueText tree body ∧
        Parsed r (tree.value libc) (tree.errno libc lex.errno) lex' rest) := by
  obtain ⟨next, scan, saved', rest, at'', stops | takes⟩ := lexScan_cases longMax at'
  all_goals rw [scan, Option.bind_some]
  · obtain ⟨fuel, rfl⟩ : ∃ k, fuel = k + 1 := ⟨fuel - 1, by omega⟩
    obtain ⟨last, none, more⟩ := @parseValue_stops ρ libc next _ _ at'' stops fuel
    exact ⟨_, last, none, .inl ⟨rfl, more⟩⟩
  · have shorter := takes.length_lt
    obtain ⟨ws, lexeme, white, rfl, form⟩ := takes
    obtain ⟨r, last, parse, result⟩ := value at'' form (by omega)
    refine ⟨r, last, parse, result.imp_right ?_⟩
    rintro ⟨tree, body, rest', rfl, valueText, parsed⟩
    exact ⟨tree, ws, lexeme ++ body, rest', by simp, white, valueText, parsed⟩

/-- Elements with the white space in front of them. -/
theorem scan_elements (longMax : intMax ≤ libc.longMax) {fuel : Nat} (elements : ElementsSound libc fuel) {lex : Lex ρ}
    {saved text : List Byte} (array : List (Value ρ)) (at' : lex.At saved text) (enough : 3 * text.length + 2 ≤ fuel) :
    ∃ r lex', (lexScan libc lex).bind (parseElements libc fuel array) = some (r, lex') ∧ (Failed r lex' ∨
      ∃ es body rest, text = body ++ 0x5D :: rest ∧ ElementsText es body ∧
        Parsed r (.array (array ++ elementsValue libc es)) (elementsErrno libc lex.errno es) lex' rest) := by
  obtain ⟨next, scan, saved', rest, at'', stops | takes⟩ := lexScan_cases longMax at'
  all_goals rw [scan, Option.bind_some]
  · obtain ⟨fuel, rfl⟩ : ∃ k, fuel = k + 2 := ⟨fuel - 2, by omega⟩
    rw [parseElements]
    split
    · exact parseError_failed at'' _ (by decide) _
    · obtain ⟨last, none, more⟩ := @parseValue_stops ρ libc next _ _ at'' stops fuel
      exact ⟨_, last, by simp only [none, Option.bind_eq_bind, Option.bind_some, Option.pure_def], .inl ⟨rfl, more⟩⟩
  · have shorter := takes.length_lt
    obtain ⟨ws, lexeme, white, rfl, form⟩ := takes
    obtain ⟨r, last, parse, result⟩ := elements array at'' form (by omega)
    refine ⟨r, last, parse, result.imp_right ?_⟩
    rintro ⟨es, body, rest', rfl, elementsText, parsed⟩
    exact ⟨es, ws ++ (lexeme ++ body), rest', by simp, elementsText.white white, parsed⟩

/-- Members with the white space in front of them. -/
theorem scan_members (longMax : intMax ≤ libc.longMax) {fuel : Nat} (members : MembersSound libc fuel) {lex : Lex ρ}
    {saved text : List Byte} (object : Table (List Byte) (Value ρ)) (at' : lex.At saved text)
    (enough : 3 * text.length + 2 ≤ fuel) :
    ∃ r lex', (lexScan libc lex).bind (parseMembers libc fuel object) = some (r, lex') ∧ (Failed r lex' ∨
      ∃ ms body rest, text = body ++ 0x7D :: rest ∧ MembersText ms body ∧
        Parsed r (.object (membersValue libc object ms)) (membersErrno libc lex.errno ms) lex' rest) := by
  obtain ⟨next, scan, saved', rest, at'', stops | takes⟩ := lexScan_cases longMax at'
  all_goals rw [scan, Option.bind_some]
  · obtain ⟨fuel, rfl⟩ : ∃ k, fuel = k + 1 := ⟨fuel - 1, by omega⟩
    rw [parseMembers]
    rcases stops with token | token
    all_goals
      rw [token]
      exact parseError_failed at'' _ (by decide) _
  · have shorter := takes.length_lt
    obtain ⟨ws, lexeme, white, rfl, form⟩ := takes
    obtain ⟨r, last, parse, result⟩ := members object at'' form (by omega)
    refine ⟨r, last, parse, result.imp_right ?_⟩
    rintro ⟨ms, body, rest', rfl, membersText, parsed⟩
    exact ⟨ms, ws ++ (lexeme ++ body), rest', by simp, membersText.white white, parsed⟩

theorem elementsSound_succ (longMax : intMax ≤ libc.longMax) {fuel : Nat} (value : ValueSound libc fuel)
    (elements : ElementsSound libc fuel) : ElementsSound libc (fuel + 1) := by
  intro lex saved text lexeme errno array at' form enough
  simp only [parseElements, form.not_isEof, Bool.false_eq_true, if_false, Option.bind_eq_bind]
  obtain ⟨r, first, parse, failed | ⟨tree, body, rest, rfl, valueText, rfl, errno', saved', at''⟩⟩ :=
    value at' form (by omega)
  · obtain ⟨rfl, more⟩ := failed
    exact ⟨none, first, by simp only [parse, Option.bind_some, Option.pure_def], .inl ⟨rfl, more⟩⟩
  · obtain ⟨second, scan, saved₂, rest₂, at₂, comma⟩ := scan_char longMax at'' 0x2C
    simp only [parse, scan, Option.bind_some]
    split at comma
    · rename_i isComma
      obtain ⟨ws, white, rfl, same⟩ := comma
      simp only [List.length_append, List.length_cons] at enough
      rw [if_pos isComma]
      obtain ⟨r, last, parse', result⟩ := scan_elements longMax elements (array ++ [tree.value libc]) at₂ (by omega)
      refine ⟨r, last, parse', result.imp_right ?_⟩
      rintro ⟨es, body', rest₃, rfl, elementsText, rfl, errno'', at₃⟩
      refine ⟨tree :: es, body ++ ws ++ 0x2C :: body', rest₃, by simp, ?_, ?_, ?_, at₃⟩
      · have whole := ElementsText.more white_nil valueText white elementsText
        simpa only [List.nil_append, List.append_assoc] using whole
      · simp only [elementsValue, List.append_assoc, List.singleton_append]
      · rw [elementsErrno, errno', Option.bind_some, ← same, errno'']
    · rename_i noComma
      rw [if_neg noComma]
      obtain ⟨second', scan', saved₃, rest₃, at₃, bracket⟩ := scan_char longMax at'' 0x5D
      obtain rfl : second = second' := Option.some.inj (scan.symm.trans scan')
      split at bracket
      · rename_i isEnd
        obtain ⟨ws, white, rfl, same⟩ := bracket
        rw [if_pos isEnd]
        refine ⟨_, second, rfl, .inr ⟨[tree], body ++ ws, rest₃, by simp, ?_, rfl, ?_, _, at₃⟩⟩
        · have whole := ElementsText.last white_nil valueText white
          simpa only [List.nil_append, List.append_assoc] using whole
        · rw [elementsErrno, errno', Option.bind_some, same]
          rfl
      · rename_i noEnd
        rw [if_neg noEnd]
        exact parseError_failed at₃ _ (by decide) _

theorem parseMembers_other {fuel : Nat} {object : Table (List Byte) (Value ρ)} {lex : Lex ρ}
    (other : ∀ key, lex.token ≠ .string key) :
    parseMembers libc (fuel + 1) object lex = parseError lex "string or '\x7d' expected" := by
  rw [parseMembers]
  split
  · rename_i key isKey
    exact absurd isKey (other key)
  · rfl

theorem parseMembers_string {fuel : Nat} {object : Table (List Byte) (Value ρ)} {lex : Lex ρ} {key : List Byte}
    (isKey : lex.token = .string key) :
    parseMembers libc (fuel + 1) object lex =
      (lexScan libc lex).bind fun lex =>
        if lex.token.isChar 0x3A then
          ((lexScan libc lex).bind (parseValue libc fuel)).bind fun p =>
            p.1.elim (some (none, p.2)) fun value =>
              (lexScan libc p.2).bind fun lex =>
                if lex.token.isChar 0x2C then
                  (lexScan libc lex).bind (parseMembers libc fuel (object.set hashKey key value))
                else if lex.token.isChar 0x7D then some (some (.object (object.set hashKey key value)), lex)
                else parseError lex "'\x7d' expected"
        else parseError lex "':' expected" := by
  rw [parseMembers, isKey]
  refine Option.bind_congr fun lex _ => ?_
  split
  · rw [Option.bind_assoc]
    refine Option.bind_congr fun lex _ => Option.bind_congr fun p _ => ?_
    obtain ⟨value, lex⟩ := p
    cases value <;> rfl
  · rfl

theorem membersSound_succ (longMax : intMax ≤ libc.longMax) {fuel : Nat} (value : ValueSound libc fuel)
    (members : MembersSound libc fuel) : MembersSound libc (fuel + 1) := by
  intro lex saved text lexeme errno object at' form enough
  by_cases isString : ∃ key, lex.token = .string key
  · obtain ⟨key, isKey⟩ := isString
    obtain ⟨keyText, string, rfl, rfl⟩ : ∃ keyText, StringText key keyText ∧ lexeme = stringText keyText ∧
        errno = lex.errno := by
      rw [isKey] at form
      generalize lex.errno = errno' at form
      cases form with
      | string string => exact ⟨_, string, rfl, rfl⟩
    rw [parseMembers_string isKey]
    obtain ⟨second, scan, _, rest, at₂, colon⟩ := scan_char longMax at' 0x3A
    rw [scan, Option.bind_some]
    split at colon
    · rename_i isColon
      obtain ⟨ws, white, rfl, same⟩ := colon
      simp only [List.length_append, List.length_cons] at enough
      rw [if_pos isColon]
      obtain ⟨r, third, parse, failed | ⟨tree, ws', body, rest', rfl, white', valueText, rfl, errno', _, at₃⟩⟩ :=
        scan_value longMax value at₂ (by omega)
      · obtain ⟨rfl, more⟩ := failed
        exact ⟨none, third, by rw [parse]; rfl, .inl ⟨rfl, more⟩⟩
      · rw [parse, Option.bind_some, Option.elim_some]
        obtain ⟨fourth, scan', _, rest₄, at₄, comma⟩ := scan_char longMax at₃ 0x2C
        rw [scan', Option.bind_some]
        split at comma
        · rename_i isComma
          obtain ⟨ws₂, white₂, rfl, same₂⟩ := comma
          simp only [List.length_append, List.length_cons] at enough
          rw [if_pos isComma]
          obtain ⟨r, last, parse', result⟩ :=
            scan_members longMax members (object.set hashKey key (tree.value libc)) at₄ (by omega)
          refine ⟨r, last, parse', result.imp_right ?_⟩
          rintro ⟨ms, body', rest₅, rfl, membersText, rfl, errno₅, at₅⟩
          refine ⟨(key, tree) :: ms, ws ++ 0x3A :: (ws' ++ body ++ ws₂ ++ 0x2C :: body'), rest₅, by simp, ?_, rfl, ?_,
            at₅⟩
          · have whole := MembersText.more white_nil string white white' valueText white₂ membersText
            simpa only [List.nil_append, List.append_assoc] using whole
          · rw [membersErrno, ← same, errno', Option.bind_some, ← same₂, errno₅]
        · rename_i noComma
          rw [if_neg noComma]
          obtain ⟨fourth', scan₅, _, rest₅, at₅, brace⟩ := scan_char longMax at₃ 0x7D
          obtain rfl : fourth = fourth' := Option.some.inj (scan'.symm.trans scan₅)
          split at brace
          · rename_i isEnd
            obtain ⟨ws₂, white₂, rfl, same₂⟩ := brace
            rw [if_pos isEnd]
            refine ⟨_, fourth, rfl, .inr ⟨[(key, tree)], ws ++ 0x3A :: (ws' ++ body ++ ws₂), rest₅, by simp, ?_, rfl,
              ?_, _, at₅⟩⟩
            · have whole := MembersText.last white_nil string white white' valueText white₂
              simpa only [List.nil_append, List.append_assoc] using whole
            · rw [membersErrno, ← same, errno', Option.bind_some, same₂]
              rfl
          · rename_i noEnd
            rw [if_neg noEnd]
            exact parseError_failed at₅ _ (by decide) _
    · rename_i noColon
      rw [if_neg noColon]
      exact parseError_failed at₂ _ (by decide) _
  · rw [parseMembers_other fun key isKey => isString ⟨key, isKey⟩]
    exact parseError_failed at' _ (by decide) _

theorem parse_sound (longMax : intMax ≤ libc.longMax) (fuel : Nat) :
    ValueSound libc fuel ∧ ObjectSound libc fuel ∧ MembersSound libc fuel ∧ ArraySound libc fuel ∧
      ElementsSound libc fuel := by
  induction fuel with
  | zero =>
      refine ⟨?_, ?_, ?_, ?_, ?_⟩
      · intro _ _ _ _ _ _ _ enough
        omega
      · intro _ _ _ _ enough
        omega
      · intro _ _ _ _ _ _ _ _ enough
        omega
      · intro _ _ _ _ enough
        omega
      · intro _ _ _ _ _ _ _ _ enough
        omega
  | succ fuel ih =>
      obtain ⟨value, object, members, array, elements⟩ := ih
      exact ⟨valueSound_succ object array, objectSound_succ longMax members, membersSound_succ longMax value members,
        arraySound_succ longMax elements, elementsSound_succ longMax value elements⟩

/-! ### What is in the grammar is parsed -/

/-- This value is read from this text. -/
def ValueRuns (libc : Libc ρ) (tree : Tree) (text : List Byte) : Prop :=
  ∀ ⦃fuel : Nat⦄ ⦃lex : Lex ρ⦄ ⦃saved ws rest : List Byte⦄ ⦃errno : Bool⦄, 3 * text.length ≤ fuel → White ws →
    Delimited rest → tree.errno libc lex.errno = some errno → lex.At saved (ws ++ text ++ rest) →
    ∃ lex', (lexScan libc lex).bind (parseValue libc fuel) = some (some (tree.value libc), lex') ∧
      lex'.errno = errno ∧ ∃ saved', lex'.At saved' rest

def ElementsRun (libc : Libc ρ) (elements : List Tree) (text : List Byte) : Prop :=
  ∀ ⦃fuel : Nat⦄ ⦃lex : Lex ρ⦄ ⦃saved rest : List Byte⦄ ⦃errno : Bool⦄ (array : List (Value ρ)),
    3 * text.length + 1 ≤ fuel → elementsErrno libc lex.errno elements = some errno →
    lex.At saved (text ++ 0x5D :: rest) →
    ∃ lex', (lexScan libc lex).bind (parseElements libc fuel array) =
        some (some (.array (array ++ elementsValue libc elements)), lex') ∧
      lex'.errno = errno ∧ ∃ saved', lex'.At saved' rest

def MembersRun (libc : Libc ρ) (members : List (List Byte × Tree)) (text : List Byte) : Prop :=
  ∀ ⦃fuel : Nat⦄ ⦃lex : Lex ρ⦄ ⦃saved rest : List Byte⦄ ⦃errno : Bool⦄ (object : Table (List Byte) (Value ρ)),
    3 * text.length + 1 ≤ fuel → membersErrno libc lex.errno members = some errno →
    lex.At saved (text ++ 0x7D :: rest) →
    ∃ lex', (lexScan libc lex).bind (parseMembers libc fuel object) =
        some (some (.object (membersValue libc object members)), lex') ∧
      lex'.errno = errno ∧ ∃ saved', lex'.At saved' rest

theorem delimited_white {ws rest : List Byte} (white : White ws) (ends : Delimited rest) : Delimited (ws ++ rest) := by
  cases ws with
  | nil => exact ends
  | cons c ws =>
      have all : ∀ c : Byte, isWhite c = true → isDecimal c = false ∧ isAlpha c = false ∧ c ≠ 0x2E := by decide +kernel
      exact all c (white c List.mem_cons_self)

theorem delimited_mark {c : Byte} (mark : c ∈ punctuation) (rest : List Byte) : Delimited (c :: rest) := by
  have all : ∀ c ∈ punctuation, isDecimal c = false ∧ isAlpha c = false ∧ c ≠ 0x2E := by decide
  exact all c mark

/-- A character that is there is taken. -/
theorem scan_mark (longMax : intMax ≤ libc.longMax) {lex : Lex ρ} {saved ws rest : List Byte} {c : Byte}
    (mark : c ∈ punctuation) (white : White ws) (at' : lex.At saved (ws ++ c :: rest)) :
    ∃ next, lexScan libc lex = some next ∧ next.HasToken lex.errno (.char c) rest := by
  have at'' : lex.At saved (ws ++ [c] ++ rest) := by simpa using at'
  exact lexScan_run longMax white (.char mark) trivial at''

theorem IntegerText.ne_nil {value : Int} {text : List Byte} (integer : IntegerText value text) : text ≠ [] := by
  obtain ⟨c, rest, rfl, _⟩ := integer.first
  exact List.cons_ne_nil c rest

theorem RealText.ne_nil {text : List Byte} (real : RealText text) : text ≠ [] := by
  obtain ⟨c, rest, rfl, _⟩ := real.first
  exact List.cons_ne_nil c rest

theorem parseError_none {lex lex' : Lex ρ} {msg : String} {value : Value ρ} :
    (parseError lex msg : Option (Option (Value ρ) × Lex ρ)) ≠ some (some value, lex') := by
  intro some
  simp only [parseError, Option.bind_eq_bind, Option.pure_def, Option.bind_eq_some_iff, Option.some.injEq,
    Prod.mk.injEq] at some
  obtain ⟨_, _, ⟨⟩, _⟩ := some

/-- Scalars are read. -/
theorem run_scalar (longMax : intMax ≤ libc.longMax) {tree : Tree} {token : Token ρ} {text : List Byte}
    (form : ∀ {errno errno' : Bool}, tree.errno libc errno = some errno' → Lexeme libc errno errno' token text)
    (ends : ∀ {rest : List Byte}, Delimited rest → token.Ends rest) (more : text ≠ [])
    (parse : ∀ {lex : Lex ρ} {fuel : Nat}, lex.token = token →
      parseValue libc (fuel + 1) lex = some (some (tree.value libc), lex)) : ValueRuns libc tree text := by
  intro fuel lex saved ws rest errno enough white delimited accepted at'
  have length := List.length_pos_iff.mpr more
  obtain ⟨fuel, rfl⟩ : ∃ k, fuel = k + 1 := ⟨fuel - 1, by omega⟩
  obtain ⟨next, scan, has⟩ := lexScan_run longMax white (form accepted) (ends delimited) at'
  exact ⟨next, by rw [scan, Option.bind_some, parse has.token], has.errno, has.at'⟩

/-- What begins a value. -/
theorem parseValue_begins {fuel : Nat} {lex lex' : Lex ρ} {value : Value ρ}
    (parse : parseValue libc fuel lex = some (some value, lex')) :
    lex.token.isEof = false ∧ lex.token.isChar 0x5D = false := by
  cases fuel with
  | zero => cases parse
  | succ fuel =>
      rw [parseValue] at parse
      refine ⟨Bool.eq_false_iff.mpr fun isEof => ?_, Bool.eq_false_iff.mpr fun isChar => ?_⟩
      · rw [isEof_iff.mp isEof] at parse
        exact parseError_none parse
      · rw [isChar_iff.mp isChar] at parse
        exact parseError_none parse

theorem parseElements_eq {fuel : Nat} {array : List (Value ρ)} {lex : Lex ρ} (notEof : lex.token.isEof = false) :
    parseElements libc (fuel + 1) array lex =
      (parseValue libc fuel lex).bind fun p =>
        p.1.elim (some (none, p.2)) fun elem =>
          (lexScan libc p.2).bind fun lex =>
            if lex.token.isChar 0x2C then (lexScan libc lex).bind (parseElements libc fuel (array ++ [elem]))
            else if lex.token.isChar 0x5D then some (some (.array (array ++ [elem])), lex)
            else parseError lex "']' expected" := by
  rw [parseElements, notEof, if_neg Bool.false_ne_true]
  refine Option.bind_congr fun p _ => ?_
  obtain ⟨value, lex⟩ := p
  cases value <;> rfl

theorem parseElements_begins {fuel : Nat} {array : List (Value ρ)} {lex lex' : Lex ρ} {value : Value ρ}
    (parse : parseElements libc fuel array lex = some (some value, lex')) : lex.token.isChar 0x5D = false := by
  cases fuel with
  | zero => cases parse
  | succ fuel =>
      cases isEof : lex.token.isEof with
      | true => rw [isEof_iff.mp isEof]; rfl
      | false =>
          rw [parseElements_eq isEof] at parse
          obtain ⟨⟨first, next⟩, parse', rest⟩ := Option.bind_eq_some_iff.mp parse
          cases first with
          | none => cases rest
          | some elem => exact (parseValue_begins parse').2

theorem parseMembers_begins {fuel : Nat} {object : Table (List Byte) (Value ρ)} {lex lex' : Lex ρ} {value : Value ρ}
    (parse : parseMembers libc fuel object lex = some (some value, lex')) : lex.token.isChar 0x7D = false := by
  cases fuel with
  | zero => cases parse
  | succ fuel =>
      refine Bool.eq_false_iff.mpr fun isChar => ?_
      rw [parseMembers_other (by rw [isChar_iff.mp isChar]; simp)] at parse
      exact parseError_none parse

theorem run_string (longMax : intMax ≤ libc.longMax) {value text : List Byte} (string : StringText value text) :
    ValueRuns libc (.string value) (stringText text) := by
  refine @run_scalar ρ libc longMax (.string value) (.string value) (stringText text) ?_ (fun _ => trivial)
    (List.cons_ne_nil _ _) fun token => by rw [parseValue, token]; rfl
  rintro errno errno' ⟨⟩
  exact .string string

theorem run_members (longMax : intMax ≤ libc.longMax) {members : List (List Byte × Tree)} {text : List Byte}
    (runs : MembersRun libc members text) : ValueRuns libc (.object members) (0x7B :: (text ++ [0x7D])) := by
  intro fuel lex saved ws rest errno enough white delimited accepted at'
  simp only [List.length_cons, List.length_append, List.length_nil] at enough
  obtain ⟨fuel, rfl⟩ : ∃ k, fuel = k + 2 := ⟨fuel - 2, by omega⟩
  have at'' : lex.At saved (ws ++ 0x7B :: (text ++ 0x7D :: rest)) := by simpa using at'
  obtain ⟨next, scan, errno', token, saved', at₂⟩ := scan_mark longMax (by decide) white at''
  rw [← errno'] at accepted
  obtain ⟨last, parse, errno₂, at₃⟩ := @runs fuel next saved' rest errno .empty (by omega) accepted at₂
  refine ⟨last, ?_, errno₂, at₃⟩
  obtain ⟨first, scan', parse'⟩ := Option.bind_eq_some_iff.mp parse
  have noEnd := parseMembers_begins parse'
  rw [scan, Option.bind_some, parseValue, token]
  simp only [if_true, parseObject, scan', Option.bind_eq_bind, Option.bind_some, noEnd, Bool.false_eq_true, if_false,
    parse', Tree.value]

theorem run_elements (longMax : intMax ≤ libc.longMax) {elements : List Tree} {text : List Byte}
    (runs : ElementsRun libc elements text) : ValueRuns libc (.array elements) (0x5B :: (text ++ [0x5D])) := by
  intro fuel lex saved ws rest errno enough white delimited accepted at'
  simp only [List.length_cons, List.length_append, List.length_nil] at enough
  obtain ⟨fuel, rfl⟩ : ∃ k, fuel = k + 2 := ⟨fuel - 2, by omega⟩
  have at'' : lex.At saved (ws ++ 0x5B :: (text ++ 0x5D :: rest)) := by simpa using at'
  obtain ⟨next, scan, errno', token, saved', at₂⟩ := scan_mark longMax (by decide) white at''
  rw [← errno'] at accepted
  obtain ⟨last, parse, errno₂, at₃⟩ := @runs fuel next saved' rest errno [] (by omega) accepted at₂
  refine ⟨last, ?_, errno₂, at₃⟩
  obtain ⟨first, scan', parse'⟩ := Option.bind_eq_some_iff.mp parse
  have noEnd := parseElements_begins parse'
  rw [scan, Option.bind_some, parseValue, token]
  simp only [if_neg (show ¬ (0x5B : Byte) = 0x7B by decide), if_true, parseArray, scan', Option.bind_eq_bind,
    Option.bind_some, noEnd, Bool.false_eq_true, if_false, parse', Tree.value, List.nil_append]

theorem run_last_element (longMax : intMax ≤ libc.longMax) {before text after : List Byte} {element : Tree}
    (white : White before) (value : ValueRuns libc element text) (white' : White after) :
    ElementsRun libc [element] (before ++ text ++ after) := by
  intro fuel lex saved rest errno array enough accepted at'
  simp only [List.length_append] at enough
  obtain ⟨fuel, rfl⟩ : ∃ k, fuel = k + 1 := ⟨fuel - 1, by omega⟩
  rw [elementsErrno] at accepted
  obtain ⟨errno₁, accepted₁, accepted₂⟩ := Option.bind_eq_some_iff.mp accepted
  cases accepted₂
  have at'' : lex.At saved (before ++ text ++ (after ++ 0x5D :: rest)) := by simpa using at'
  obtain ⟨second, parse, errno', _, at₂⟩ := @value fuel lex saved before _ errno (by omega) white
    (delimited_white white' (delimited_mark (by decide) rest)) accepted₁ at''
  obtain ⟨first, scan, parse'⟩ := Option.bind_eq_some_iff.mp parse
  obtain ⟨last, scan', errno₃, token, at₃⟩ := scan_mark longMax (by decide) white' at₂
  refine ⟨last, ?_, errno₃.trans errno', at₃⟩
  rw [scan, Option.bind_some, parseElements_eq (parseValue_begins parse').1, parse', Option.bind_some, Option.elim_some,
    scan', Option.bind_some, token]
  rfl

theorem run_more_elements (longMax : intMax ≤ libc.longMax) {before text after more : List Byte} {element : Tree}
    {elements : List Tree} (white : White before) (value : ValueRuns libc element text) (white' : White after)
    (runs : ElementsRun libc elements more) :
    ElementsRun libc (element :: elements) (before ++ text ++ after ++ 0x2C :: more) := by
  intro fuel lex saved rest errno array enough accepted at'
  simp only [List.length_append, List.length_cons] at enough
  obtain ⟨fuel, rfl⟩ : ∃ k, fuel = k + 1 := ⟨fuel - 1, by omega⟩
  rw [elementsErrno] at accepted
  obtain ⟨errno₁, accepted₁, accepted₂⟩ := Option.bind_eq_some_iff.mp accepted
  have at'' : lex.At saved (before ++ text ++ (after ++ 0x2C :: (more ++ 0x5D :: rest))) := by simpa using at'
  obtain ⟨second, parse, errno', _, at₂⟩ := @value fuel lex saved before _ errno₁ (by omega) white
    (delimited_white white' (delimited_mark (by decide) _)) accepted₁ at''
  obtain ⟨first, scan, parse'⟩ := Option.bind_eq_some_iff.mp parse
  obtain ⟨third, scan', errno₃, token, _, at₃⟩ := scan_mark longMax (by decide) white' at₂
  rw [← errno', ← errno₃] at accepted₂
  obtain ⟨last, parse₄, errno₄, at₄⟩ := @runs fuel third _ rest errno (array ++ [element.value libc]) (by omega)
    accepted₂ at₃
  refine ⟨last, ?_, errno₄, at₄⟩
  rw [scan, Option.bind_some, parseElements_eq (parseValue_begins parse').1, parse', Option.bind_some, Option.elim_some,
    scan', Option.bind_some, if_pos (isChar_iff.mpr token), parse₄]
  simp only [elementsValue, List.append_assoc, List.singleton_append]

/-- What every member begins with. -/
theorem run_key (longMax : intMax ≤ libc.longMax) {key keyText before afterKey rest : List Byte} {lex : Lex ρ}
    {saved : List Byte} (white : White before) (string : StringText key keyText) (white' : White afterKey)
    (at' : lex.At saved (before ++ stringText keyText ++ afterKey ++ 0x3A :: rest)) :
    ∃ first second saved', lexScan libc lex = some first ∧ first.token = .string key ∧
      lexScan libc first = some second ∧ second.token.isChar 0x3A = true ∧ second.errno = lex.errno ∧
      second.At saved' rest := by
  rw [List.append_assoc (before ++ stringText keyText)] at at'
  obtain ⟨first, scan, errno, token, _, at''⟩ := @lexScan_run ρ libc lex saved longMax _ (.string key) _ _ _ white
    (.string string) trivial at'
  obtain ⟨second, scan', errno', token', saved', at₂⟩ := scan_mark longMax (by decide) white' at''
  exact ⟨first, second, saved', scan, token, scan', isChar_iff.mpr token', errno'.trans errno, at₂⟩

theorem run_last_member (longMax : intMax ≤ libc.longMax)
    {key keyText before afterKey beforeText text after : List Byte} {value : Tree} (white : White before)
    (string : StringText key keyText) (whiteKey : White afterKey) (white' : White beforeText)
    (runs : ValueRuns libc value text) (white₂ : White after) :
    MembersRun libc [(key, value)]
      (before ++ stringText keyText ++ afterKey ++ 0x3A :: (beforeText ++ text ++ after)) := by
  intro fuel lex saved rest errno object enough accepted at'
  simp only [List.length_append, List.length_cons] at enough
  obtain ⟨fuel, rfl⟩ : ∃ k, fuel = k + 1 := ⟨fuel - 1, by omega⟩
  rw [membersErrno] at accepted
  obtain ⟨errno₁, accepted₁, accepted₂⟩ := Option.bind_eq_some_iff.mp accepted
  cases accepted₂
  rw [List.append_assoc (before ++ stringText keyText ++ afterKey), List.cons_append] at at'
  obtain ⟨first, second, saved₁, scan, token, scan', colon, errno', at₁⟩ := run_key longMax white string whiteKey at'
  rw [← errno'] at accepted₁
  rw [List.append_assoc] at at₁
  obtain ⟨third, parse, errno₃, _, at₃⟩ := @runs fuel second saved₁ beforeText _ errno (by omega) white'
    (delimited_white white₂ (delimited_mark (by decide) rest)) accepted₁ at₁
  obtain ⟨last, scan₄, errno₄, token₄, at₄⟩ := scan_mark longMax (by decide) white₂ at₃
  refine ⟨last, ?_, errno₄.trans errno₃, at₄⟩
  rw [scan, Option.bind_some, parseMembers_string token, scan', Option.bind_some, if_pos colon, parse, Option.bind_some,
    Option.elim_some, scan₄, Option.bind_some, token₄]
  rfl

theorem run_more_members (longMax : intMax ≤ libc.longMax)
    {key keyText before afterKey beforeText text after more : List Byte} {value : Tree}
    {members : List (List Byte × Tree)} (white : White before)
    (string : StringText key keyText) (whiteKey : White afterKey) (white' : White beforeText)
    (runs : ValueRuns libc value text) (white₂ : White after) (membersRun : MembersRun libc members more) :
    MembersRun libc ((key, value) :: members)
      (before ++ stringText keyText ++ afterKey ++ 0x3A :: (beforeText ++ text ++ after ++ 0x2C :: more)) := by
  intro fuel lex saved rest errno object enough accepted at'
  simp only [List.length_append, List.length_cons] at enough
  obtain ⟨fuel, rfl⟩ : ∃ k, fuel = k + 1 := ⟨fuel - 1, by omega⟩
  rw [membersErrno] at accepted
  obtain ⟨errno₁, accepted₁, accepted₂⟩ := Option.bind_eq_some_iff.mp accepted
  rw [List.append_assoc (before ++ stringText keyText ++ afterKey), List.cons_append] at at'
  obtain ⟨first, second, saved₁, scan, token, scan', colon, errno', at₁⟩ := run_key longMax white string whiteKey at'
  rw [← errno'] at accepted₁
  have at₂ : second.At saved₁ (beforeText ++ text ++ (after ++ 0x2C :: (more ++ 0x7D :: rest))) := by simpa using at₁
  obtain ⟨third, parse, errno₃, _, at₃⟩ := @runs fuel second saved₁ beforeText _ errno₁ (by omega) white'
    (delimited_white white₂ (delimited_mark (by decide) _)) accepted₁ at₂
  obtain ⟨fourth, scan₄, errno₄, token₄, _, at₄⟩ := scan_mark longMax (by decide) white₂ at₃
  rw [← errno₃, ← errno₄] at accepted₂
  obtain ⟨last, parse₅, errno₅, at₅⟩ := @membersRun fuel fourth _ rest errno
    (object.set hashKey key (value.value libc)) (by omega) accepted₂ at₄
  refine ⟨last, ?_, errno₅, at₅⟩
  rw [scan, Option.bind_some, parseMembers_string token, scan', Option.bind_some, if_pos colon, parse, Option.bind_some,
    Option.elim_some, scan₄, Option.bind_some, if_pos (isChar_iff.mpr token₄), parse₅]
  rfl

theorem run_emptyObject (longMax : intMax ≤ libc.longMax) {ws : List Byte} (white : White ws) :
    ValueRuns libc (.object []) (0x7B :: (ws ++ [0x7D])) := by
  intro fuel lex saved before rest errno enough whiteBefore delimited accepted at'
  simp only [List.length_cons, List.length_append, List.length_nil] at enough
  obtain ⟨fuel, rfl⟩ : ∃ k, fuel = k + 2 := ⟨fuel - 2, by omega⟩
  have at'' : lex.At saved (before ++ 0x7B :: (ws ++ 0x7D :: rest)) := by simpa using at'
  obtain ⟨first, scan, errno', token, _, at₁⟩ := scan_mark longMax (by decide) whiteBefore at''
  obtain ⟨last, scan', errno₂, token', at₂⟩ := scan_mark longMax (by decide) white at₁
  cases accepted
  refine ⟨last, ?_, errno₂.trans errno', at₂⟩
  rw [scan, Option.bind_some, parseValue, token]
  simp only [if_true, parseObject, scan', Option.bind_eq_bind, Option.bind_some, isChar_iff.mpr token', Option.pure_def]
  rfl

theorem run_emptyArray (longMax : intMax ≤ libc.longMax) {ws : List Byte} (white : White ws) :
    ValueRuns libc (.array []) (0x5B :: (ws ++ [0x5D])) := by
  intro fuel lex saved before rest errno enough whiteBefore delimited accepted at'
  simp only [List.length_cons, List.length_append, List.length_nil] at enough
  obtain ⟨fuel, rfl⟩ : ∃ k, fuel = k + 2 := ⟨fuel - 2, by omega⟩
  have at'' : lex.At saved (before ++ 0x5B :: (ws ++ 0x5D :: rest)) := by simpa using at'
  obtain ⟨first, scan, errno', token, _, at₁⟩ := scan_mark longMax (by decide) whiteBefore at''
  obtain ⟨last, scan', errno₂, token', at₂⟩ := scan_mark longMax (by decide) white at₁
  cases accepted
  refine ⟨last, ?_, errno₂.trans errno', at₂⟩
  rw [scan, Option.bind_some, parseValue, token]
  simp only [if_neg (show ¬ (0x5B : Byte) = 0x7B by decide), if_true, parseArray, scan', Option.bind_eq_bind,
    Option.bind_some, isChar_iff.mpr token', Option.pure_def]
  rfl

mutual

/-- Every value of the grammar is read. -/
theorem ValueText.run (longMax : intMax ≤ libc.longMax) : ∀ {tree : Tree} {text : List Byte}, ValueText tree text →
    ValueRuns libc tree text
  | _, _, .emptyObject white => run_emptyObject longMax white
  | _, _, .object members => run_members longMax (members.run longMax)
  | _, _, .emptyArray white => run_emptyArray longMax white
  | _, _, .array elements => run_elements longMax (elements.run longMax)
  | _, _, .string string =>
      run_string longMax string
  | _, _, .integer integer inInt =>
      run_scalar longMax (fun accepted => .integer integer inInt accepted) id integer.ne_nil
        (fun token => by rw [parseValue, token]; rfl)
  | _, _, .real real =>
      run_scalar longMax (fun accepted => .real real accepted) id real.ne_nil
        (fun token => by rw [parseValue, token]; rfl)
  | _, _, .true =>
      run_scalar longMax (by rintro _ _ ⟨⟩; exact .true) id (by decide) (fun token => by rw [parseValue, token]; rfl)
  | _, _, .false =>
      run_scalar longMax (by rintro _ _ ⟨⟩; exact .false) id (by decide) (fun token => by rw [parseValue, token]; rfl)
  | _, _, .null =>
      run_scalar longMax (by rintro _ _ ⟨⟩; exact .null) id (by decide) (fun token => by rw [parseValue, token]; rfl)

theorem ElementsText.run (longMax : intMax ≤ libc.longMax) : ∀ {elements : List Tree} {text : List Byte},
    ElementsText elements text → ElementsRun libc elements text
  | _, _, .last before value after => run_last_element longMax before (value.run longMax) after
  | _, _, .more before value after rest =>
      run_more_elements longMax before (value.run longMax) after (rest.run longMax)

theorem MembersText.run (longMax : intMax ≤ libc.longMax) : ∀ {members : List (List Byte × Tree)} {text : List Byte},
    MembersText members text → MembersRun libc members text
  | _, _, .last before key afterKey beforeText value after =>
      run_last_member longMax before key afterKey beforeText (value.run longMax) after
  | _, _, .more before key afterKey beforeText value after rest =>
      run_more_members longMax before key afterKey beforeText (value.run longMax) after (rest.run longMax)

end

end CpuMiner.Jansson
