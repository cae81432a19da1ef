/-
Module: CpuMiner.Wire.Values
Layer: JSON
Purpose: The values that come out of `json_loads`. Their strings and keys are UTF-8 without a NUL, so that no check of
  the constructors would refuse them, their numbers are those of an `int`, and the keys of an object are different
  (`Value.Wf`). What an object has at a key is its last member with that key (`get_membersValue`).
Imports: CpuMiner.Wire.Documents
Trusted boundary: human-reviewed spec (`Value.Wf`, `Tree.member`)
Main exports: Chars, Value.Wf, ValueText.wf, jsonLoads_wf, lastMember, Tree.member, get_membersValue
Open obligations: none
-/
import CpuMiner.Wire.Documents

namespace CpuMiner.Jansson

open Words
open Utf8

variable {ρ : Type} {libc : Libc ρ}

/-! ### Strings -/

/-- What `json_string` and `json_object_set` accept. -/
structure Chars (value : List Byte) : Prop where
  valid : Valid value
  noNul : 0 ∉ value

theorem FourDigits.ascii {digits : List Byte} (four : FourDigits digits) : ∀ c ∈ digits, c.toNat < 0x80 := by
  have small : ∀ c : Byte, Hex.isDigit c = true → c.toNat < 0x80 := by decide
  exact fun c listed => small c (four.digit c listed)

theorem mem_escapes {c b : Byte} (listed : (c, b) ∈ escapes) : c.toNat < 0x80 ∧ b.toNat < 0x80 ∧ b ≠ 0 := by
  have all : (escapes.all fun p => p.1.toNat < 0x80 ∧ p.2.toNat < 0x80 ∧ p.2 ≠ 0) = true := by decide
  exact of_decide_eq_true (List.all_eq_true.mp all _ listed)

/-- The bytes of a string are text where the string is. The bytes in front may be the beginning of a character. -/
theorem StringText.valid_append {value text : List Byte} (string : StringText value text) {front : List Byte}
    (valid : Valid (front ++ text)) : Valid (front ++ value) := by
  induction string generalizing front with
  | nil => exact valid
  | @plain c value text _ _ ih =>
      have moved : Valid ((front ++ [c]) ++ text) := by rwa [List.append_assoc]
      have result := ih moved
      rwa [List.append_assoc] at result
  | @escape c b value text listed _ ih =>
      obtain ⟨small, small', _⟩ := mem_escapes listed
      obtain ⟨validFront, rest⟩ := valid.split (by decide)
      obtain ⟨_, rest⟩ := @Valid.split [] _ _ rest small
      obtain ⟨ch, isByte, same⟩ := exists_encode_ascii small'
      have whole := validFront.append ((valid_encode ch).append (@ih [] rest))
      rwa [same] at whole
  | @unicode digits value text ch four _ _ _ ih =>
      obtain ⟨validFront, rest⟩ := valid.split (by decide)
      have rest : Valid (([0x75] ++ digits) ++ text) := rest
      have behind := Valid.behind rest <| by
        intro d listed
        rcases List.mem_append.mp listed with letter | digit
        · rw [List.mem_singleton.mp letter]
          decide
        · exact four.ascii d digit
      exact validFront.append ((valid_encode ch).append (@ih [] behind))
  | @pair high low value text ch four four' _ _ _ _ _ _ ih =>
      obtain ⟨validFront, rest⟩ := valid.split (by decide)
      have rest : Valid (([0x75] ++ high ++ [backslash, 0x75] ++ low) ++ text) := by simpa using rest
      have behind := Valid.behind rest <| by
        intro d listed
        simp only [List.mem_append, List.mem_cons, List.not_mem_nil, or_false] at listed
        rcases listed with ((rfl | digit) | rfl | rfl) | digit
        · decide
        · exact four.ascii d digit
        · decide
        · decide
        · exact four'.ascii d digit
      exact validFront.append ((valid_encode ch).append (@ih [] behind))

theorem StringText.noNul {value text : List Byte} (string : StringText value text) : 0 ∉ value := by
  induction string with
  | nil => exact List.not_mem_nil
  | @plain c _ _ plain _ ih =>
      rw [List.mem_cons, not_or]
      refine ⟨fun isNul => plain.notControl ?_, ih⟩
      rw [← isNul]
      decide
  | @escape c b _ _ listed _ ih =>
      rw [List.mem_cons, not_or]
      exact ⟨(mem_escapes listed).2.2.symm, ih⟩
  | unicode _ _ nonzero _ ih =>
      rw [List.mem_append, not_or]
      exact ⟨encode_noNul nonzero, ih⟩
  | pair _ _ _ _ _ _ value _ ih =>
      rw [List.mem_append, not_or]
      exact ⟨encode_noNul (by omega), ih⟩

theorem StringText.chars {value text : List Byte} (string : StringText value text) (valid : Valid text) :
    Chars value :=
  ⟨@StringText.valid_append _ _ string [] valid, string.noNul⟩

/-! ### Values -/

/-- A value that the constructors of jansson could have made. -/
inductive Value.Wf : Value ρ → Prop where
  | object {table : Table (List Byte) (Value ρ)} : table.Wf → (∀ p ∈ table.pairs, Chars p.1) →
      (∀ p ∈ table.pairs, p.2.Wf) → Value.Wf (.object table)
  | array {elements : List (Value ρ)} : (∀ element ∈ elements, element.Wf) → Value.Wf (.array elements)
  | string {value : List Byte} : Chars value → Value.Wf (.string value)
  | integer {value : Int} : InInt value → Value.Wf (.integer value)
  | real {value : ρ} : Value.Wf (.real value)
  | true : Value.Wf .true
  | false : Value.Wf .false
  | null : Value.Wf .null

/-- A well formed object stays one when a well formed value is set. -/
theorem Value.Wf.set {table : Table (List Byte) (Value ρ)} (wf : (Value.object table).Wf) {key : List Byte}
    {value : Value ρ} (chars : Chars key) (valueWf : value.Wf) : (Value.object (table.set hashKey key value)).Wf := by
  cases wf with
  | object nodup keys values =>
      refine .object (nodup.set hashKey key value) ?_ ?_
      · rintro ⟨key', value'⟩ listed
        rcases Table.mem_set.mp listed with ⟨rfl, _⟩ | ⟨_, before⟩
        · exact chars
        · exact keys _ before
      · rintro ⟨key', value'⟩ listed
        rcases Table.mem_set.mp listed with ⟨_, rfl⟩ | ⟨_, before⟩
        · exact valueWf
        · exact values _ before

theorem Value.wf_empty : (Value.object (Table.empty : Table (List Byte) (Value ρ))).Wf :=
  .object Table.wf_empty (fun _ listed => nomatch listed) (fun _ listed => nomatch listed)

theorem White.ascii {ws : List Byte} (white : White ws) : ∀ c ∈ ws, c.toNat < 0x80 := by
  have small : ∀ c : Byte, isWhite c = Bool.true → c.toNat < 0x80 := by decide
  exact fun c listed => small c (white c listed)

/-- A text with white space around it. -/
theorem Valid.between {before text after : List Byte} (valid : Valid (before ++ text ++ after))
    (white : White before) (white' : White after) : Valid text :=
  Valid.behind (Valid.before valid white'.ascii) white.ascii

theorem Valid.key {before keyText afterKey rest : List Byte}
    (valid : Valid (before ++ stringText keyText ++ afterKey ++ 0x3A :: rest)) (white : White before)
    (white' : White afterKey) : Valid keyText ∧ Valid rest := by
  obtain ⟨key, rest⟩ := valid.split (by decide)
  exact ⟨Valid.inside (Valid.between key white white') (by decide) (by decide), rest⟩

mutual

/-- The value of a text in UTF-8 is well formed. -/
theorem ValueText.wf : ∀ {tree : Tree} {text : List Byte}, ValueText tree text → Valid text →
    (tree.value libc).Wf
  | _, _, .emptyObject _, _ => by
      simp only [Tree.value, membersValue]
      exact Value.wf_empty
  | _, _, .object members, valid => by
      simp only [Tree.value]
      exact members.wf Value.wf_empty (Valid.inside valid (by decide) (by decide))
  | _, _, .emptyArray _, _ => by
      simp only [Tree.value, elementsValue]
      exact .array fun _ listed => nomatch listed
  | _, _, .array elements, valid => by
      simp only [Tree.value]
      exact .array (elements.wf (Valid.inside valid (by decide) (by decide)))
  | _, _, .string string, valid => by
      simp only [Tree.value]
      exact .string (string.chars (Valid.inside valid (by decide) (by decide)))
  | _, _, .integer _ range, _ => by
      simp only [Tree.value]
      exact .integer range
  | _, _, .real _, _ => by
      simp only [Tree.value]
      exact .real
  | _, _, .true, _ => by
      simp only [Tree.value]
      exact .true
  | _, _, .false, _ => by
      simp only [Tree.value]
      exact .false
  | _, _, .null, _ => by
      simp only [Tree.value]
      exact .null

theorem ElementsText.wf : ∀ {elements : List Tree} {text : List Byte}, ElementsText elements text → Valid text →
    ∀ element ∈ elementsValue libc elements, element.Wf
  | _, _, .last before value after, valid => by
      simp only [elementsValue, List.mem_singleton]
      rintro _ rfl
      exact value.wf (Valid.between valid before after)
  | _, _, .more before value after rest, valid => by
      obtain ⟨valid, validRest⟩ := valid.split (by decide)
      simp only [elementsValue, List.mem_cons]
      rintro element (rfl | later)
      · exact value.wf (Valid.between valid before after)
      · exact rest.wf validRest element later

theorem MembersText.wf : ∀ {members : List (List Byte × Tree)} {text : List Byte}, MembersText members text →
    ∀ {object : Table (List Byte) (Value ρ)}, (Value.object object).Wf → Valid text →
      (Value.object (membersValue libc object members)).Wf
  | _, _, .last before key afterKey beforeText value after, object, wf, valid => by
      obtain ⟨validKey, valid⟩ := Valid.key valid before afterKey
      simp only [membersValue]
      exact wf.set (key.chars validKey) (value.wf (Valid.between valid beforeText after))
  | _, _, .more before key afterKey beforeText value after rest, object, wf, valid => by
      obtain ⟨validKey, valid⟩ := Valid.key valid before afterKey
      obtain ⟨valid, validRest⟩ := valid.split (by decide)
      simp only [membersValue]
      exact rest.wf (wf.set (key.chars validKey) (value.wf (Valid.between valid beforeText after))) validRest

end

/-- Whatever `json_loads` is given, it comes back, and what it returns is well formed. -/
theorem jsonLoads_wf (libc : Libc ρ) (string : CString) (errno : Bool) :
    ∃ loaded, jsonLoads libc string.bytes errno = some loaded ∧ ∀ value ∈ loaded.result, value.Wf := by
  obtain ⟨loaded, loads, outcome⟩ := @jsonLoads_total ρ libc string.bytes string.noNul errno
  refine ⟨loaded, loads, ?_⟩
  rintro value isValue
  rcases outcome with ⟨nothing, _⟩ | ⟨tree, text, comes, form, result, _⟩
  · rw [nothing] at isValue
    cases isValue
  · rw [result] at isValue
    cases isValue
    obtain ⟨document, junk, found⟩ := exists_document.mp ⟨text, form, comes⟩
    cases found.text with
    | intro white valueText white' _ => exact valueText.wf (Valid.between found.valid white white')

/-! ### Members -/

/-- The last member with this key. -/
def lastMember (key : List Byte) : List (List Byte × Tree) → Option Tree
  | [] => none
  | (key', value) :: members => (lastMember key members).or (if key' = key then some value else none)

/-- What an object says at a key. -/
def Tree.member : Tree → List Byte → Option Tree
  | .object members, key => lastMember key members
  | _, _ => none

/-- The table of an object has the last member of each key. -/
theorem get_membersValue (members : List (List Byte × Tree)) {object : Table (List Byte) (Value ρ)} (wf : object.Wf)
    (key : List Byte) :
    (membersValue libc object members).get key =
      ((lastMember key members).map (Tree.value libc)).or (object.get key) := by
  induction members generalizing object with
  | nil => simp [membersValue, lastMember]
  | cons member members ih =>
      obtain ⟨key', value⟩ := member
      rw [membersValue, ih (wf.set hashKey key' _), Table.get_set wf]
      cases later : lastMember key members with
      | some tree => simp [lastMember, later]
      | none =>
          by_cases same : key' = key
          · simp [lastMember, later, same]
          · have other : ¬ key = key' := fun isKey => same isKey.symm
            simp [lastMember, later, same, other]

end CpuMiner.Jansson
