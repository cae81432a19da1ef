/-
Module: CpuMiner.Wire.DumpLoad
Layer: JSON
Purpose: `json_dumps` against `json_loads`. What is written for a well formed value is a document, whatever the flags
  are, and what is loaded from it is equal to the value by `json_equal`.
Imports: CpuMiner.Wire.DumpValues
Trusted boundary: human-reviewed spec (`Value.All`)
Main exports: Value.All, Written, members_sorted, members_perm, jsonObjectEqual_iff, Value.Wf.written,
  jsonDumps_written, jsonDumps_loads
Open obligations: none
-/
import CpuMiner.Wire.DumpValues

namespace CpuMiner.Jansson

open Words
open Utf8

variable {ρ : Type} {libc : Libc ρ} {reals : RealFormat ρ} {flags : DumpFlags}

/-! ### Values and their texts -/

/-- Every real number in the value. -/
inductive Value.All (P : ρ → Prop) : Value ρ → Prop where
  | object {table : Table (List Byte) (Value ρ)} : (∀ p ∈ table.pairs, p.2.All P) → Value.All P (.object table)
  | array {elements : List (Value ρ)} : (∀ element ∈ elements, element.All P) → Value.All P (.array elements)
  | string {value : List Byte} : Value.All P (.string value)
  | integer {value : Int} : Value.All P (.integer value)
  | real {value : ρ} : P value → Value.All P (.real value)
  | true : Value.All P .true
  | false : Value.All P .false
  | null : Value.All P .null

/-- A text of the value. It says a tree whose numbers are all accepted, and that has an equal value. -/
structure Written (libc : Libc ρ) (reals : RealFormat ρ) (flags : DumpFlags) (value : Value ρ) (tree : Tree)
    (text : List Byte) : Prop where
  form : ValueText tree text
  clean : Clean flags text
  errno : tree.errno libc Bool.false = some Bool.false
  equal : jsonEqual reals value (tree.value libc) = Bool.true

/-! ### Arrays -/

/-- The texts of some elements. -/
def ElementsWritten (libc : Libc ρ) (reals : RealFormat ρ) (flags : DumpFlags) (elements : List (Value ρ))
    (text : List Byte) : Prop :=
  ∃ trees, ElementsText trees text ∧ Clean flags text ∧ elementsErrno libc Bool.false trees = some Bool.false ∧
    jsonEqual reals (.array elements) (.array (elementsValue libc trees)) = Bool.true

theorem jsonEqual_cons {x y : Value ρ} {xs ys : List (Value ρ)} (first : jsonEqual reals x y = Bool.true)
    (rest : jsonEqual reals (.array xs) (.array ys) = Bool.true) :
    jsonEqual reals (.array (x :: xs)) (.array (y :: ys)) = Bool.true := by
  simp only [jsonEqual, Bool.and_eq_true, decide_eq_true_eq] at rest ⊢
  refine ⟨by rw [List.length_cons, List.length_cons, rest.1], ?_⟩
  simp only [jsonArrayEqual, first, rest.2, Bool.and_self]

theorem elementsWritten_last (element : Value ρ) (text ws : List Byte)
    (written : ∃ tree, Written libc reals flags element tree text) (white : White ws) :
    ElementsWritten libc reals flags [element] (text ++ ws) := by
  obtain ⟨tree, written⟩ := written
  refine ⟨[tree], ?_, written.clean.append (white.clean flags), ?_, ?_⟩
  · exact .last white_nil written.form white
  · simp only [elementsErrno, written.errno, Option.bind_some]
  · exact jsonEqual_cons written.equal rfl

theorem elementsWritten_more (element : Value ρ) (text ws : List Byte) (rest : List (Value ρ)) (restText : List Byte)
    (written : ∃ tree, Written libc reals flags element tree text) (white : White ws)
    (later : ElementsWritten libc reals flags rest restText) :
    ElementsWritten libc reals flags (element :: rest) (text ++ 0x2C :: (ws ++ restText)) := by
  obtain ⟨tree, written⟩ := written
  obtain ⟨trees, form, clean, errno, equal⟩ := later
  refine ⟨tree :: trees, ?_, ?_, ?_, ?_⟩
  · have whole := ElementsText.more white_nil written.form white_nil (form.white white)
    rwa [List.nil_append, List.append_nil] at whole
  · exact written.clean.append (((white.clean flags).append clean).cons (by decide) (by decide))
  · simp only [elementsErrno, written.errno, Option.bind_some]
    exact errno
  · exact jsonEqual_cons written.equal equal

/-! ### Objects -/

/-- A member and its text. -/
def MemberWritten (libc : Libc ρ) (reals : RealFormat ρ) (flags : DumpFlags) (member : List Byte × Value ρ)
    (text : List Byte) : Prop :=
  ∃ keyText ws tree valueText, text = stringText keyText ++ 0x3A :: (ws ++ valueText) ∧
    StringText member.1 keyText ∧ Clean flags (stringText keyText) ∧ White ws ∧
    Written libc reals flags member.2 tree valueText

/-- The texts of some members, with the same keys. -/
def MembersWritten (libc : Libc ρ) (reals : RealFormat ρ) (flags : DumpFlags) (members : List (List Byte × Value ρ))
    (text : List Byte) : Prop :=
  ∃ trees, MembersText trees text ∧ Clean flags text ∧ membersErrno libc Bool.false trees = some Bool.false ∧
    List.Forall₂ (fun member tree => member.1 = tree.1 ∧
      jsonEqual reals member.2 (tree.2.value libc) = Bool.true) members trees

theorem membersWritten_last (member : List Byte × Value ρ) (text ws : List Byte)
    (written : MemberWritten libc reals flags member text) (white : White ws) :
    MembersWritten libc reals flags [member] (text ++ ws) := by
  obtain ⟨keyText, before, tree, valueText, rfl, key, keyClean, white', written⟩ := written
  refine ⟨[(member.1, tree)], ?_, ?_, ?_, .cons ⟨rfl, written.equal⟩ .nil⟩
  · have whole := MembersText.last white_nil key white_nil white' written.form white
    simpa only [List.nil_append, List.append_nil, List.append_assoc, List.cons_append] using whole
  · refine (keyClean.append ?_).append (white.clean flags)
    exact ((white'.clean flags).append written.clean).cons (by decide) (by decide)
  · simp only [membersErrno, written.errno, Option.bind_some]

theorem membersWritten_more (member : List Byte × Value ρ) (text ws : List Byte) (rest : List (List Byte × Value ρ))
    (restText : List Byte) (written : MemberWritten libc reals flags member text) (white : White ws)
    (later : MembersWritten libc reals flags rest restText) :
    MembersWritten libc reals flags (member :: rest) (text ++ 0x2C :: (ws ++ restText)) := by
  obtain ⟨keyText, before, tree, valueText, rfl, key, keyClean, white', written⟩ := written
  obtain ⟨trees, form, clean, errno, equal⟩ := later
  refine ⟨(member.1, tree) :: trees, ?_, ?_, ?_, .cons ⟨rfl, written.equal⟩ equal⟩
  · have whole := MembersText.more white_nil key white_nil white' written.form white_nil (form.white white)
    simpa only [List.nil_append, List.append_nil, List.append_assoc, List.cons_append] using whole
  · refine (keyClean.append ?_).append (((white.clean flags).append clean).cons (by decide) (by decide))
    exact ((white'.clean flags).append written.clean).cons (by decide) (by decide)
  · simp only [membersErrno, written.errno, Option.bind_some]
    exact errno

/-- A member is dumped by its key and its value. -/
theorem dumpMember_written {dumpValue : Value ρ → Dumper} {member : List Byte × Value ρ} (key : Chars member.1)
    (value : ∃ text, Prints (dumpValue member.2) text ∧ ∃ tree, Written libc reals flags member.2 tree text) :
    ∃ text, Prints (dumpMember flags dumpValue member) text ∧ MemberWritten libc reals flags member text := by
  obtain ⟨valueText, prints, tree, written⟩ := value
  obtain ⟨⟨cs, isKey⟩, noNul⟩ := key
  rw [isKey] at noNul
  obtain ⟨ws, white, separator⟩ : ∃ ws, White ws ∧ ascii (if flags.compact then ":" else ": ") = 0x3A :: ws := by
    cases flags.compact with
    | true => exact ⟨[], white_nil, rfl⟩
    | false => exact ⟨ascii " ", white_of_all rfl, rfl⟩
  refine ⟨stringText (charsText flags.ensureAscii cs) ++ 0x3A :: (ws ++ valueText), fun data before holds => ?_,
    charsText flags.ensureAscii cs, ws, tree, valueText, rfl, ?_, clean_stringText flags noNul, white, written⟩
  · obtain ⟨data₁, first, holds₁⟩ := dumpString_prints flags.ensureAscii cs data before holds
    obtain ⟨data₂, second, holds₂⟩ := strbufferAppendBytes_holds holds₁ (0x3A :: ws)
    obtain ⟨data₃, third, holds₃⟩ := prints data₂ _ holds₂
    refine ⟨data₃, ?_, by simpa only [List.append_assoc, List.cons_append] using holds₃⟩
    simp only [dumpMember, isKey, separator, first, second, third, Option.bind_eq_bind, Option.bind_some]
  · rw [isKey]
    exact stringText_chars flags.ensureAscii noNul

/-! ### Members in their order -/

/-- Looking up keys that are there. -/
theorem mapM_get {object : Table (List Byte) (Value ρ)} {keys : List (List Byte)}
    (there : ∀ key ∈ keys, ∃ value, object.get key = some value) :
    ∃ found, (keys.mapM fun key => (object.get key).map fun value => (key, value)) = some found ∧
      found.map Prod.fst = keys ∧ ∀ p ∈ found, object.get p.1 = some p.2 := by
  induction keys with
  | nil => exact ⟨[], rfl, rfl, fun _ listed => absurd listed List.not_mem_nil⟩
  | cons key keys ih =>
      obtain ⟨value, isValue⟩ := there key List.mem_cons_self
      obtain ⟨found, maps, same, values⟩ := ih fun key' listed => there key' (List.mem_cons_of_mem key listed)
      refine ⟨(key, value) :: found, ?_, by rw [List.map_cons, same], ?_⟩
      · simp only [List.mapM_cons, isValue, maps, Option.map_some, Option.bind_eq_bind, Option.bind_some,
          Option.pure_def]
      · intro p listed
        rcases List.mem_cons.mp listed with rfl | later
        · exact isValue
        · exact values p later

/-- What the keys are sorted to. -/
def sortedKeys (object : Table (List Byte) (Value ρ)) : List (List Byte) :=
  object.keys.mergeSort fun key key' => strcmp key key' ≤ 0

/-- With JSON_SORT_KEYS the members have the keys in their order. -/
theorem members_sorted (sorted : flags.sortKeys = Bool.true) {object : Table (List Byte) (Value ρ)} (wf : object.Wf) :
    ∃ found, members flags object = some found ∧ found.map Prod.fst = sortedKeys object ∧
      ∀ p ∈ found, object.get p.1 = some p.2 := by
  have perm : (sortedKeys object).Perm object.keys := List.mergeSort_perm _ _
  obtain ⟨found, maps, same, values⟩ := @mapM_get ρ object (sortedKeys object) fun key listed => by
    obtain ⟨value, inside⟩ := Table.mem_keys.mp (perm.mem_iff.mp listed)
    exact ⟨value, (Table.get_eq_some wf).mpr inside⟩
  exact ⟨found, by rw [members, if_pos sorted]; exact maps, same, values⟩

/-- Sorted or not, the members are those of the object. -/
theorem members_perm (flags : DumpFlags) {object : Table (List Byte) (Value ρ)} (wf : object.Wf) :
    ∃ found, members flags object = some found ∧ found.Perm object.pairs := by
  cases sorted : flags.sortKeys with
  | false => exact ⟨object.pairs, by rw [members, sorted, if_neg Bool.false_ne_true], .refl _⟩
  | true =>
      obtain ⟨found, ordered, same, values⟩ := members_sorted sorted wf
      have perm : (found.map Prod.fst).Perm object.keys := by
        rw [same]
        exact List.mergeSort_perm _ _
      refine ⟨found, ordered, ?_⟩
      refine (List.perm_ext_iff_of_nodup (List.Nodup.of_map _ (perm.nodup_iff.mpr wf)) (List.Nodup.of_map _ wf)).mpr ?_
      rintro ⟨key, value⟩
      rw [← Table.get_eq_some wf]
      refine ⟨values _, fun isValue => ?_⟩
      have listed : key ∈ found.map Prod.fst :=
        perm.mem_iff.mpr (List.mem_map_of_mem ((Table.get_eq_some wf).mp isValue))
      obtain ⟨⟨_, value'⟩, inside, rfl⟩ := List.mem_map.mp listed
      have again := values _ inside
      rw [isValue] at again
      cases again
      exact inside

theorem membersEqual_iff {pairs : List (List Byte × Value ρ)} {object2 : Table (List Byte) (Value ρ)} :
    membersEqual reals pairs object2 = Bool.true ↔
      ∀ p ∈ pairs, ∃ value2, object2.get p.1 = some value2 ∧ jsonEqual reals p.2 value2 = Bool.true := by
  induction pairs with
  | nil => simp [membersEqual]
  | cons p pairs ih =>
      obtain ⟨key, value1⟩ := p
      simp only [membersEqual, memberEqual, Bool.and_eq_true, ih, List.forall_mem_cons]
      refine and_congr_left' ?_
      cases object2.get key with
      | none => simp
      | some value2 => simp

/-- Two objects are equal if they have as many members, and each member of the one has an equal one in the other. -/
theorem jsonObjectEqual_iff {object1 object2 : Table (List Byte) (Value ρ)} :
    jsonEqual reals (.object object1) (.object object2) = Bool.true ↔
      object1.pairs.length = object2.pairs.length ∧
        ∀ p ∈ object1.pairs, ∃ value2, object2.get p.1 = some value2 ∧ jsonEqual reals p.2 value2 = Bool.true := by
  obtain ⟨_, pairs⟩ := object1
  simp only [jsonEqual, jsonObjectEqual, Bool.and_eq_true, decide_eq_true_eq, membersEqual_iff]

/-- A member whose key comes once. -/
theorem lastMember_of_mem {trees : List (List Byte × Tree)} (nodup : (trees.map Prod.fst).Nodup) {key : List Byte}
    {tree : Tree} (listed : (key, tree) ∈ trees) : lastMember key trees = some tree := by
  have none_of_out : ∀ {trees : List (List Byte × Tree)}, key ∉ trees.map Prod.fst → lastMember key trees = none := by
    intro trees
    induction trees with
    | nil => exact fun _ => rfl
    | cons member trees ih =>
        obtain ⟨key', value⟩ := member
        intro out
        rw [List.map_cons, List.mem_cons, not_or] at out
        rw [lastMember, ih out.2, if_neg fun same => out.1 same.symm, Option.none_or]
  induction trees with
  | nil => exact absurd listed List.not_mem_nil
  | cons member trees ih =>
      obtain ⟨key', value⟩ := member
      obtain ⟨out, nodup⟩ := List.nodup_cons.mp nodup
      rcases List.mem_cons.mp listed with same | later
      · obtain ⟨rfl, rfl⟩ := Prod.mk.inj same
        rw [lastMember, none_of_out out, if_pos rfl, Option.none_or]
      · rw [lastMember, ih nodup later, Option.some_or]

/-- Members with different keys are all there. -/
theorem length_membersValue (libc : Libc ρ) (trees : List (List Byte × Tree)) :
    ∀ {object : Table (List Byte) (Value ρ)}, (trees.map Prod.fst ++ object.keys).Nodup →
      (membersValue libc object trees).pairs.length = trees.length + object.pairs.length := by
  induction trees with
  | nil => exact fun _ => (Nat.zero_add _).symm
  | cons member trees ih =>
      obtain ⟨key, value⟩ := member
      intro object nodup
      obtain ⟨out, nodup⟩ : key ∉ trees.map Prod.fst ++ object.keys ∧ (trees.map Prod.fst ++ object.keys).Nodup :=
        List.nodup_cons.mp nodup
      rw [List.mem_append, not_or] at out
      have keys := @Table.keys_set _ _ hashKey object key (value.value libc) _
      rw [if_neg out.2] at keys
      have length := keys.length_eq
      simp only [Table.keys, List.length_map, List.length_cons] at length
      have nodup' : (trees.map Prod.fst ++ (object.set hashKey key (value.value libc)).keys).Nodup := by
        have moved := (keys.append_left (trees.map Prod.fst)).trans List.perm_middle
        refine moved.nodup_iff.mpr (List.nodup_cons.mpr ⟨?_, nodup⟩)
        rw [List.mem_append, not_or]
        exact out
      rw [membersValue, ih nodup', length, List.length_cons]
      omega

/-- The object of members that were written is equal to the one that they are from. -/
theorem MembersWritten.equal {members : List (List Byte × Value ρ)} {trees : List (List Byte × Tree)}
    {object : Table (List Byte) (Value ρ)} (wf : object.Wf) (perm : members.Perm object.pairs)
    (each : List.Forall₂ (fun member tree => member.1 = tree.1 ∧
      jsonEqual reals member.2 (tree.2.value libc) = Bool.true) members trees) :
    jsonEqual reals (.object object) ((Tree.object trees).value libc) = Bool.true := by
  have keys : members.map Prod.fst = trees.map Prod.fst := by
    clear perm
    induction each with
    | nil => rfl
    | cons first _ ih => rw [List.map_cons, List.map_cons, first.1, ih]
  have nodup : (trees.map Prod.fst).Nodup := by
    rw [← keys]
    exact (perm.map Prod.fst).nodup_iff.mpr wf
  have count : (membersValue libc (Table.empty : Table (List Byte) (Value ρ)) trees).pairs.length = trees.length :=
    length_membersValue libc trees (by simpa [Table.keys, Table.empty] using nodup)
  rw [Tree.value, jsonObjectEqual_iff, count, ← perm.length_eq, each.length_eq]
  refine ⟨rfl, fun p listed => ?_⟩
  have found : ∀ {ms : List (List Byte × Value ρ)} {ts : List (List Byte × Tree)},
      List.Forall₂ (fun member tree => member.1 = tree.1 ∧
        jsonEqual reals member.2 (tree.2.value libc) = Bool.true) ms ts → p ∈ ms →
      ∃ tree, (p.1, tree) ∈ ts ∧ jsonEqual reals p.2 (tree.value libc) = Bool.true := by
    intro ms ts each
    induction each with
    | nil => exact fun listed => absurd listed List.not_mem_nil
    | @cons m t _ _ first _ ih =>
        intro listed
        rcases List.mem_cons.mp listed with rfl | later
        · exact ⟨t.2, first.1 ▸ List.mem_cons_self, first.2⟩
        · obtain ⟨tree, inside, same⟩ := ih later
          exact ⟨tree, List.mem_cons_of_mem _ inside, same⟩
  obtain ⟨tree, inside, same⟩ := found each (perm.mem_iff.mpr listed)
  refine ⟨tree.value libc, ?_, same⟩
  rw [get_membersValue trees Table.wf_empty, lastMember_of_mem nodup inside, Option.map_some, Option.some_or]

/-! ### Whole values -/

theorem height_le_elements {elements : List (Value ρ)} {element : Value ρ} (listed : element ∈ elements) :
    element.height ≤ elementsHeight elements := by
  induction elements with
  | nil => exact absurd listed List.not_mem_nil
  | cons first elements ih =>
      rw [elementsHeight]
      rcases List.mem_cons.mp listed with rfl | later
      · exact Nat.le_max_left _ _
      · exact (ih later).trans (Nat.le_max_right _ _)

theorem height_le_pairs {pairs : List (List Byte × Value ρ)} {p : List Byte × Value ρ} (listed : p ∈ pairs) :
    p.2.height ≤ pairsHeight pairs := by
  induction pairs with
  | nil => exact absurd listed List.not_mem_nil
  | cons first pairs ih =>
      obtain ⟨key, value⟩ := first
      rw [pairsHeight, pairHeight]
      rcases List.mem_cons.mp listed with rfl | later
      · exact Nat.le_max_left _ _
      · exact (ih later).trans (Nat.le_max_right _ _)

theorem height_object (table : Table (List Byte) (Value ρ)) :
    (Value.object table).height = pairsHeight table.pairs + 1 := by
  obtain ⟨_, pairs⟩ := table
  rw [Value.height, tableHeight]

theorem doDump_object {table : Table (List Byte) (Value ρ)} {found : List (List Byte × Value ρ)}
    (ordered : members flags table = some found) (fuel depth : Nat) :
    doDump reals flags (fuel + 1) (.object table) depth =
      dumpContainer flags depth "\x7b" "\x7d"
        (dumpMember flags fun value => doDump reals flags fuel value (depth + 1)) found := by
  funext data
  simp only [doDump, ordered, Option.bind_eq_bind, Option.bind_some]

/-- A text that is written as it is. -/
theorem dump_written {value : Value ρ} {tree : Tree} {buffer : List Byte}
    (written : Written libc reals flags value tree buffer) :
    ∃ text, Prints (dump buffer) text ∧ ∃ tree, Written libc reals flags value tree text :=
  ⟨buffer, dump_prints buffer, tree, written⟩

/-- `do_dump` writes a text of the value. The induction is on the value, at any depth. -/
theorem Value.Wf.written {value : Value ρ} (wf : value.Wf) :
    value.All (Readable libc reals) → ∀ (fuel depth : Nat), value.height ≤ fuel →
      ∃ text, Prints (doDump reals flags (fuel + 1) value depth) text ∧
        ∃ tree, Written libc reals flags value tree text := by
  induction wf with
  | @object table nodup keys values ih =>
      intro readable fuel depth deep
      cases readable with
      | object readable =>
          rw [height_object] at deep
          obtain ⟨fuel, rfl⟩ : ∃ n, fuel = n + 1 := ⟨fuel - 1, by omega⟩
          obtain ⟨members, ordered, perm⟩ := members_perm flags nodup
          have each : ∀ member ∈ members, ∃ text,
              Prints (dumpMember flags (fun value => doDump reals flags (fuel + 1) value (depth + 1)) member) text ∧
                MemberWritten libc reals flags member text := by
            intro member listed
            have inside := perm.mem_iff.mp listed
            have shallow := height_le_pairs inside
            exact dumpMember_written (keys member inside)
              (ih member inside (readable member inside) fuel (depth + 1) (by omega))
          have container := dumpContainer_written "\x7b" "\x7d"
            (dumpLoop_written flags depth membersWritten_last membersWritten_more members each)
          rw [doDump_object ordered]
          rcases container with ⟨rfl, prints⟩ | ⟨ws, text, white, ⟨trees, form, clean, errno, each⟩, prints⟩
          · refine ⟨_, prints, .object [], .emptyObject white_nil, ?_, rfl, MembersWritten.equal nodup perm .nil⟩
            exact clean_ascii flags (by decide) (by decide)
          · refine ⟨_, prints, .object trees, .object (form.white white), ?_, errno,
              MembersWritten.equal nodup perm each⟩
            have brace : Clean flags (ascii "\x7b") := clean_ascii flags (by decide) (by decide)
            have brace' : Clean flags (ascii "\x7d") := clean_ascii flags (by decide) (by decide)
            exact (brace.append ((white.clean flags).append clean)).append brace'
  | @array elements _ ih =>
      intro readable fuel depth deep
      cases readable with
      | array readable =>
          rw [Value.height] at deep
          obtain ⟨fuel, rfl⟩ : ∃ n, fuel = n + 1 := ⟨fuel - 1, by omega⟩
          have each : ∀ element ∈ elements, ∃ text, Prints (doDump reals flags (fuel + 1) element (depth + 1)) text ∧
              ∃ tree, Written libc reals flags element tree text := by
            intro element listed
            have shallow := height_le_elements listed
            exact ih element listed (readable element listed) fuel (depth + 1) (by omega)
          have container := dumpContainer_written "[" "]"
            (dumpLoop_written flags depth elementsWritten_last elementsWritten_more elements each)
          rcases container with ⟨rfl, prints⟩ | ⟨ws, text, white, ⟨trees, form, clean, errno, equal⟩, prints⟩
          · exact ⟨_, prints, .array [], .emptyArray white_nil, clean_ascii flags (by decide) (by decide), rfl, rfl⟩
          · refine ⟨_, prints, .array trees, .array (form.white white), ?_, errno, equal⟩
            have bracket : Clean flags (ascii "[") := clean_ascii flags (by decide) (by decide)
            have bracket' : Clean flags (ascii "]") := clean_ascii flags (by decide) (by decide)
            exact (bracket.append ((white.clean flags).append clean)).append bracket'
  | @string value chars =>
      intro _ fuel depth _
      obtain ⟨⟨cs, rfl⟩, noNul⟩ := chars
      refine ⟨_, dumpString_prints flags.ensureAscii cs, .string (encodeAll cs), ?_, clean_stringText flags noNul, rfl,
        ?_⟩
      · exact .string (stringText_chars flags.ensureAscii noNul)
      · simp only [Tree.value, jsonEqual, decide_true]
  | @integer value range =>
      intro _ fuel depth _
      have number := integerText_formatInt value
      have fits := length_formatInt range
      have run : doDump reals flags (fuel + 1) (.integer value) depth = dump (formatInt value) := by
        funext data
        simp only [doDump, if_neg (Nat.not_le.mpr fits)]
      rw [run]
      refine @dump_written ρ libc reals flags (.integer value) (.integer value) _
        ⟨.integer number range, number.clean flags, ?_, ?_⟩
      · simp only [Tree.errno, Libc.integerErrno, Bool.false_eq_true, false_and, if_false]
      · simp only [Tree.value, jsonEqual, decide_true]
  | @real value =>
      intro readable fuel depth _
      cases readable with
      | real readable =>
          obtain ⟨text, isText, form, equal, noError⟩ := realText_readable readable
          have run : doDump reals flags (fuel + 1) (.real value) depth = dump text := by
            funext data
            simp only [doDump, isText]
          rw [run]
          refine @dump_written ρ libc reals flags (.real value) (.real text) _ ⟨.real form, form.clean flags, ?_, ?_⟩
          · simp only [Tree.errno, Libc.realErrno, noError, Bool.or_self, Bool.false_eq_true, false_and, if_false]
          · simp only [Tree.value, jsonEqual, equal]
  | true =>
      intro _ fuel depth _
      exact dump_written ⟨.true, clean_ascii flags (by decide) (by decide), rfl, rfl⟩
  | false =>
      intro _ fuel depth _
      exact dump_written ⟨.false, clean_ascii flags (by decide) (by decide), rfl, rfl⟩
  | null =>
      intro _ fuel depth _
      exact dump_written ⟨.null, clean_ascii flags (by decide) (by decide), rfl, rfl⟩

/-! ### `json_dumps` -/

/-- A container is equal to a container only. -/
theorem Written.container {value : Value ρ} {tree : Tree} {text : List Byte}
    (written : Written libc reals flags value tree text) (container : value.isContainer = Bool.true) :
    tree.container = Bool.true := by
  have equal := written.equal
  cases value with
  | object _ => cases tree <;> simp [jsonEqual, Tree.value, Tree.container] at equal ⊢
  | array _ => cases tree <;> simp [jsonEqual, Tree.value, Tree.container] at equal ⊢
  | _ => cases container

/-- `json_dumps` gives a text of an object or an array. -/
theorem jsonDumps_written {value : Value ρ} (wf : value.Wf) (readable : value.All (Readable libc reals))
    (container : value.isContainer = Bool.true) (flags : DumpFlags) :
    ∃ text tree, jsonDumps reals flags value = some (some text) ∧ Written libc reals flags value tree text := by
  obtain ⟨text, prints, tree, written⟩ := @Value.Wf.written ρ libc reals flags value wf readable value.height 0
    (Nat.le_refl _)
  obtain ⟨strbuff, init, holds⟩ := strbufferInit_holds
  obtain ⟨strbuff', dumps, holds'⟩ := prints strbuff [] holds
  refine ⟨text, tree, ?_, written⟩
  have result := holds'.cstr_value written.clean.chars.noNul
  simp only [jsonDumps, container, init, dumps, List.nil_append, Option.bind_eq_bind, Option.bind_some,
    if_true] at result ⊢
  rw [result, Option.map_some]

/-- The value of its tree is loaded from the text. -/
theorem Written.loads {value : Value ρ} {tree : Tree} {text : List Byte}
    (written : Written libc reals flags value tree text) (container : value.isContainer = Bool.true) :
    ∃ loaded, jsonLoads libc text Bool.false = some loaded ∧ loaded.result = some (tree.value libc) := by
  have form : Text tree text := by
    have whole := Text.intro white_nil written.form white_nil (written.container container)
    rwa [List.nil_append, List.append_nil] at whole
  have comes : decode text = text := by
    have whole := decode_valid written.clean.chars.valid []
    rwa [List.append_nil, decode_nil, List.append_nil] at whole
  obtain ⟨loaded, loads, result, _⟩ := jsonLoads_document written.clean.chars.noNul form (.inl comes) written.errno
  exact ⟨loaded, loads, result⟩

/-- What `json_dumps` writes for a well formed object or array, `json_loads` reads as an equal value. -/
theorem jsonDumps_loads {value : Value ρ} (wf : value.Wf) (readable : value.All (Readable libc reals))
    (container : value.isContainer = Bool.true) (flags : DumpFlags) :
    ∃ text loaded value', jsonDumps reals flags value = some (some text) ∧
      (flags.ensureAscii = Bool.true → ∀ c ∈ text, c.toNat < 0x80) ∧
      jsonLoads libc text Bool.false = some loaded ∧ loaded.result = some value' ∧
      jsonEqual reals value value' = Bool.true ∧ value'.Wf := by
  obtain ⟨text, tree, dumps, written⟩ := jsonDumps_written wf readable container flags
  obtain ⟨loaded, loads, result⟩ := written.loads container
  exact ⟨text, loaded, tree.value libc, dumps, written.clean.small, loads, result, written.equal,
    written.form.wf written.clean.chars.valid⟩

/-! ### An example -/

theorem Value.All.set {P : ρ → Prop} {table : Table (List Byte) (Value ρ)} (all : (Value.object table).All P)
    (key : List Byte) {value : Value ρ} (valueAll : value.All P) :
    (Value.object (table.set hashKey key value)).All P := by
  cases all with
  | object each =>
      refine .object ?_
      rintro ⟨key', value'⟩ listed
      rcases Table.mem_set.mp listed with ⟨_, rfl⟩ | ⟨_, before⟩
      · exact valueAll
      · exact each _ before

/-- Of the real numbers only 0 and 0.5. -/
def halfLibc : Libc Bool where
  longMax := 0x7FFFFFFFFFFFFFFF
  strtod text := (strchr text 0x35, Bool.false)
  isZero half := !half
  intMax_le := intMax_le_longMax

def halfReals : RealFormat Bool where
  format half := if half then ascii "0.5" else ascii "0"
  equal a b := a == b

theorem readable_half : Readable halfLibc halfReals Bool.true := by
  have zero : NoLeadingZero (ascii "0") := ⟨⟨List.cons_ne_nil _ _, by decide⟩, fun _ => rfl⟩
  have five : Decimals (ascii "5") := ⟨List.cons_ne_nil _ _, by decide⟩
  refine ⟨⟨ascii "0", ascii ".5", [], rfl, ⟨_, .intro Bool.false zero⟩, .digits five, .none⟩, by decide, by decide, ?_⟩
  rintro text (rfl | rfl) <;> exact ⟨rfl, rfl⟩

/-- An object that `json_loads` could have made, with these members in their order. -/
def exampleObject (members : List (List Byte × Value Bool)) : Value Bool :=
  .object (members.foldl (fun table member => table.set hashKey member.1 member.2) .empty)

def exampleMembers : List (List Byte × Value Bool) :=
  [(ascii "id", .array [.null, .integer (-12), .real Bool.true]),
    (ascii "result", .string (encodeAll ['"', 'é'])), (ascii "error", exampleObject [])]

theorem exampleObject_wf {members : List (List Byte × Value Bool)}
    (each : ∀ member ∈ members, Chars member.1 ∧ member.2.Wf) : (exampleObject members).Wf :=
  List.foldlRecOn (motive := fun table => (Value.object table).Wf) members _ Value.wf_empty
    fun _ wf member listed => wf.set (each member listed).1 (each member listed).2

theorem exampleObject_all {P : Bool → Prop} {members : List (List Byte × Value Bool)}
    (each : ∀ member ∈ members, member.2.All P) : (exampleObject members).All P :=
  List.foldlRecOn (motive := fun table => (Value.object table).All P) members _
    (.object fun _ listed => absurd listed List.not_mem_nil) fun _ all member listed =>
    all.set member.1 (each member listed)

theorem exampleMembers_wf : ∀ member ∈ exampleMembers, Chars member.1 ∧ member.2.Wf := by
  have key : ∀ {s : String}, (∀ c ∈ ascii s, c.toNat < 0x80) → 0 ∉ ascii s → Chars (ascii s) := fun small noNul =>
    ⟨valid_ascii small, noNul⟩
  have twelve : (Value.integer (-12) : Value Bool).Wf := .integer ⟨by decide, by decide⟩
  have array : (Value.array [.null, .integer (-12), .real Bool.true] : Value Bool).Wf := by
    refine .array fun element listed => ?_
    simp only [List.mem_cons, List.not_mem_nil, or_false] at listed
    rcases listed with rfl | rfl | rfl
    exacts [.null, twelve, .real]
  have string : (Value.string (encodeAll ['"', 'é']) : Value Bool).Wf := .string ⟨⟨_, rfl⟩, by decide⟩
  have object : (exampleObject []).Wf := exampleObject_wf fun _ listed => absurd listed List.not_mem_nil
  rintro member listed
  simp only [exampleMembers, List.mem_cons, List.not_mem_nil, or_false] at listed
  rcases listed with rfl | rfl | rfl
  · exact ⟨key (by decide) (by decide), array⟩
  · exact ⟨key (by decide) (by decide), string⟩
  · exact ⟨key (by decide) (by decide), object⟩

theorem exampleMembers_all {P : Bool → Prop} (half : P Bool.true) : ∀ member ∈ exampleMembers, member.2.All P := by
  have array : (Value.array [.null, .integer (-12), .real Bool.true] : Value Bool).All P := by
    refine .array fun element listed => ?_
    simp only [List.mem_cons, List.not_mem_nil, or_false] at listed
    rcases listed with rfl | rfl | rfl
    exacts [.null, .integer, .real half]
  rintro member listed
  simp only [exampleMembers, List.mem_cons, List.not_mem_nil, or_false] at listed
  rcases listed with rfl | rfl | rfl
  exacts [array, .string, exampleObject_all fun _ listed => absurd listed List.not_mem_nil]

/-- The flags of `json_rpc_call`. -/
def protocolFlags : DumpFlags where
  indent := 3
  compact := Bool.false
  ensureAscii := Bool.false
  sortKeys := Bool.false

theorem jsonDumps_loads_exampleMembers : ∃ text loaded value',
    jsonDumps halfReals protocolFlags (exampleObject exampleMembers) = some (some text) ∧
      (protocolFlags.ensureAscii = Bool.true → ∀ c ∈ text, c.toNat < 0x80) ∧
      jsonLoads halfLibc text Bool.false = some loaded ∧ loaded.result = some value' ∧
      jsonEqual halfReals (exampleObject exampleMembers) value' = Bool.true ∧ value'.Wf :=
  jsonDumps_loads (exampleObject_wf exampleMembers_wf) (exampleObject_all (exampleMembers_all readable_half)) rfl
    protocolFlags

end CpuMiner.Jansson
