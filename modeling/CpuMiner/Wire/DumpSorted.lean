/-
Module: CpuMiner.Wire.DumpSorted
Layer: JSON
Purpose: With JSON_SORT_KEYS the text is one for all equal values: `json_dumps` gives the same for two of them exactly
  when `json_equal` holds. The keys of equal objects are the same in another order, and `strcmp` has one order for them.
Imports: CpuMiner.Wire.DumpLoad
Trusted boundary: none
Main exports: strcmp_total, sort_eq_of_perm, keys_perm_of_equal, doDump_sorted, jsonEqual_euclidean,
  jsonDumps_sorted_iff
Open obligations: none
-/
import CpuMiner.Wire.DumpLoad

namespace CpuMiner.Jansson

open Words
open Utf8

variable {ρ : Type} {libc : Libc ρ} {reals : RealFormat ρ} {flags : DumpFlags}

/-! ### The order of the keys -/

theorem strcmp_cons_le {c d : Byte} {s t : List Byte} :
    strcmp (c :: s) (d :: t) ≤ 0 ↔ c.toNat < d.toNat ∨ (c.toNat = d.toNat ∧ strcmp s t ≤ 0) := by
  rw [strcmp]
  simp only [BitVec.lt_def]
  split_ifs with less greater
  · exact ⟨fun _ => .inl less, fun _ => by decide⟩
  · exact ⟨fun wrong => absurd wrong (by decide), fun wrong => by omega⟩
  · constructor
    · exact fun rest => .inr ⟨by omega, rest⟩
    · rintro (wrong | ⟨_, rest⟩)
      · exact absurd wrong less
      · exact rest

theorem strcmp_nil (t : List Byte) : strcmp [] t ≤ 0 := by
  cases t with
  | nil => decide
  | cons d t =>
      rw [strcmp]
      decide

theorem not_strcmp_cons_nil (c : Byte) (s : List Byte) : ¬ strcmp (c :: s) [] ≤ 0 := by
  rw [strcmp]
  decide

theorem strcmp_total (s t : List Byte) : strcmp s t ≤ 0 ∨ strcmp t s ≤ 0 := by
  induction s generalizing t with
  | nil => exact .inl (strcmp_nil t)
  | cons c s ih =>
      cases t with
      | nil => exact .inr (strcmp_nil _)
      | cons d t =>
          have rest := ih t
          rw [strcmp_cons_le, strcmp_cons_le]
          omega

theorem strcmp_trans {s t u : List Byte} (first : strcmp s t ≤ 0) (second : strcmp t u ≤ 0) : strcmp s u ≤ 0 := by
  induction s generalizing t u with
  | nil => exact strcmp_nil u
  | cons c s ih =>
      cases t with
      | nil => exact absurd first (not_strcmp_cons_nil c s)
      | cons d t =>
          cases u with
          | nil => exact absurd second (not_strcmp_cons_nil d t)
          | cons e u =>
              rw [strcmp_cons_le] at first second ⊢
              rcases first with less | ⟨same, rest⟩
              · rcases second with less' | ⟨same', _⟩ <;> exact .inl (by omega)
              · rcases second with less' | ⟨same', rest'⟩
                · exact .inl (by omega)
                · exact .inr ⟨same.trans same', ih rest rest'⟩

theorem strcmp_antisymm {s t : List Byte} (first : strcmp s t ≤ 0) (second : strcmp t s ≤ 0) : s = t := by
  induction s generalizing t with
  | nil =>
      cases t with
      | nil => rfl
      | cons d t => exact absurd second (not_strcmp_cons_nil d t)
  | cons c s ih =>
      cases t with
      | nil => exact absurd first (not_strcmp_cons_nil c s)
      | cons d t =>
          rw [strcmp_cons_le] at first second
          have same : c.toNat = d.toNat := by omega
          have below : strcmp s t ≤ 0 := by omega
          have above : strcmp t s ≤ 0 := by omega
          rw [BitVec.eq_of_toNat_eq same, ih below above]

/-- There is one order for the same keys. -/
theorem sort_eq_of_perm {keys keys' : List (List Byte)} (perm : keys.Perm keys') :
    (keys.mergeSort fun key key' => strcmp key key' ≤ 0) = keys'.mergeSort fun key key' => strcmp key key' ≤ 0 := by
  have sorted : ∀ keys : List (List Byte), List.Pairwise (fun key key' => strcmp key key' ≤ 0)
      (keys.mergeSort fun key key' => strcmp key key' ≤ 0) := by
    intro keys
    have pairwise := @List.pairwise_mergeSort _ (fun key key' : List Byte => decide (strcmp key key' ≤ 0))
      (fun s t u first second => decide_eq_true (strcmp_trans (of_decide_eq_true first) (of_decide_eq_true second)))
      (fun s t => by simpa using strcmp_total s t) keys
    exact pairwise.imp fun holds => of_decide_eq_true holds
  refine List.Perm.eq_of_pairwise (fun s t _ _ first second => strcmp_antisymm first second) (sorted keys)
    (sorted keys') ?_
  exact ((List.mergeSort_perm keys _).trans perm).trans (List.mergeSort_perm keys' _).symm

/-! ### Equal objects -/

/-- The other value is of the same type. -/
theorem exists_object_of_equal {object1 : Table (List Byte) (Value ρ)} {value2 : Value ρ}
    (equal : jsonEqual reals (.object object1) value2 = Bool.true) : ∃ object2, value2 = .object object2 := by
  cases value2 with
  | object object2 => exact ⟨object2, rfl⟩
  | _ => simp [jsonEqual] at equal

theorem exists_array_of_equal {array1 : List (Value ρ)} {value2 : Value ρ}
    (equal : jsonEqual reals (.array array1) value2 = Bool.true) : ∃ array2, value2 = .array array2 := by
  cases value2 with
  | array array2 => exact ⟨array2, rfl⟩
  | _ => simp [jsonEqual] at equal

/-- Equal objects have the same keys. -/
theorem keys_perm_of_equal {object1 object2 : Table (List Byte) (Value ρ)} (wf : object1.Wf)
    (equal : jsonEqual reals (.object object1) (.object object2) = Bool.true) :
    object1.keys.Perm object2.keys := by
  obtain ⟨length, each⟩ := jsonObjectEqual_iff.mp equal
  have subset : object1.keys ⊆ object2.keys := by
    intro key listed
    obtain ⟨value, inside⟩ := Table.mem_keys.mp listed
    obtain ⟨value2, found, _⟩ := each _ inside
    by_contra out
    rw [Table.get_eq_none.mpr out] at found
    cases found
  refine (List.subperm_of_subset wf subset).perm_of_length_le ?_
  simp only [Table.keys, List.length_map]
  exact length.ge

/-- Arrays are equal by their elements. -/
theorem jsonArrayEqual_iff {array1 array2 : List (Value ρ)} :
    jsonEqual reals (.array array1) (.array array2) = Bool.true ↔
      List.Forall₂ (fun value1 value2 => jsonEqual reals value1 value2 = Bool.true) array1 array2 := by
  induction array1 generalizing array2 with
  | nil => cases array2 <;> simp [jsonEqual, jsonArrayEqual]
  | cons value1 array1 ih =>
      cases array2 with
      | nil => simp [jsonEqual]
      | cons value2 array2 =>
          rw [List.forall₂_cons, ← ih]
          simp only [jsonEqual, jsonArrayEqual, List.length_cons, Bool.and_eq_true, decide_eq_true_eq,
            Nat.add_right_cancel_iff]
          exact and_left_comm

/-! ### One text -/

/-- A loop over two lists whose elements are written in the same way. -/
theorem dumpLoop_congr {α β : Type} {flags : DumpFlags} {depth : Nat} {dumpOne : α → Dumper} {dumpOther : β → Dumper}
    {xs : List α} {ys : List β} (same : List.Forall₂ (fun x y => dumpOne x = dumpOther y) xs ys) :
    dumpLoop flags depth dumpOne xs = dumpLoop flags depth dumpOther ys := by
  induction same with
  | nil => rfl
  | @cons x y xs ys first rest ih =>
      have empty : xs.isEmpty = ys.isEmpty := by cases rest <;> rfl
      funext data
      simp only [dumpLoop, first, ih, empty]

theorem dumpContainer_congr {α β : Type} {flags : DumpFlags} {depth : Nat} {first last : String}
    {dumpOne : α → Dumper} {dumpOther : β → Dumper} {xs : List α} {ys : List β}
    (same : List.Forall₂ (fun x y => dumpOne x = dumpOther y) xs ys) :
    dumpContainer flags depth first last dumpOne xs = dumpContainer flags depth first last dumpOther ys := by
  funext data
  rw [dumpContainer, dumpContainer, dumpLoop_congr same]
  cases same with
  | nil => rfl
  | cons _ _ => rfl

/-- Lists with the same keys, member by member. -/
theorem forall₂_of_keys {α β κ : Type} {R : κ × α → κ × β → Prop} {xs : List (κ × α)} {ys : List (κ × β)}
    (keys : xs.map Prod.fst = ys.map Prod.fst) (each : ∀ p ∈ xs, ∀ q ∈ ys, p.1 = q.1 → R p q) :
    List.Forall₂ R xs ys := by
  induction xs generalizing ys with
  | nil =>
      obtain rfl : ys = [] := List.map_eq_nil_iff.mp keys.symm
      exact .nil
  | cons p xs ih =>
      obtain ⟨q, ys, rfl, same, rest⟩ := List.map_eq_cons_iff.mp keys.symm
      refine .cons (each p List.mem_cons_self q List.mem_cons_self same.symm)
        (ih rest.symm fun p' listed q' listed' => ?_)
      exact each p' (List.mem_cons_of_mem p listed) q' (List.mem_cons_of_mem q listed')

/-- Real numbers that are equal are written in one way. This is not so for the two zeros. -/
def Spelled (reals : RealFormat ρ) (a : ρ) : Prop := ∀ b, reals.equal a b = Bool.true → reals.format a = reals.format b

/-- Equal values are dumped in the same way when the keys are sorted. The induction is on the first of them. -/
theorem doDump_sorted (sorted : flags.sortKeys = Bool.true) {value : Value ρ} (wf : value.Wf) :
    ∀ {value' : Value ρ}, value'.Wf → value.All (Spelled reals) → jsonEqual reals value value' = Bool.true →
      ∀ {fuel fuel' : Nat} (depth : Nat), value.height ≤ fuel → value'.height ≤ fuel' →
        doDump reals flags (fuel + 1) value depth = doDump reals flags (fuel' + 1) value' depth := by
  induction wf with
  | @object object1 nodup _ _ ih =>
      intro value' wf' spelled equal fuel fuel' depth deep deep'
      obtain ⟨object2, rfl⟩ := exists_object_of_equal equal
      cases wf' with
      | object nodup' _ values' =>
        cases spelled with
        | object spelled =>
          rw [height_object] at deep deep'
          obtain ⟨fuel, rfl⟩ : ∃ n, fuel = n + 1 := ⟨fuel - 1, by omega⟩
          obtain ⟨fuel', rfl⟩ : ∃ n, fuel' = n + 1 := ⟨fuel' - 1, by omega⟩
          obtain ⟨found, ordered, keys, gets⟩ := members_sorted sorted nodup
          obtain ⟨found', ordered', keys', gets'⟩ := members_sorted sorted nodup'
          have sameKeys : found.map Prod.fst = found'.map Prod.fst := by
            rw [keys, keys', sortedKeys, sortedKeys, sort_eq_of_perm (keys_perm_of_equal nodup equal)]
          obtain ⟨_, each⟩ := jsonObjectEqual_iff.mp equal
          have same : List.Forall₂ (fun p q =>
              dumpMember flags (fun value => doDump reals flags (fuel + 1) value (depth + 1)) p =
                dumpMember flags (fun value => doDump reals flags (fuel' + 1) value (depth + 1)) q) found found' := by
            refine forall₂_of_keys sameKeys ?_
            rintro ⟨key, value⟩ listed ⟨_, value'⟩ listed' rfl
            have inside := (Table.get_eq_some nodup).mp (gets _ listed)
            have inside' := (Table.get_eq_some nodup').mp (gets' _ listed')
            obtain ⟨value2, isValue, equal'⟩ := each _ inside
            obtain rfl : value' = value2 := Option.some.inj ((gets' _ listed').symm.trans isValue)
            have dumps := ih _ inside (values' _ inside') (spelled _ inside) equal' (depth + 1)
              ((height_le_pairs inside).trans (Nat.le_of_succ_le_succ deep))
              ((height_le_pairs inside').trans (Nat.le_of_succ_le_succ deep'))
            funext data
            simp only [dumpMember, dumps]
          rw [doDump_object ordered, doDump_object ordered', dumpContainer_congr same]
  | @array array1 _ ih =>
      intro value' wf' spelled equal fuel fuel' depth deep deep'
      obtain ⟨array2, rfl⟩ := exists_array_of_equal equal
      cases wf' with
      | array values' =>
        cases spelled with
        | array spelled =>
          rw [Value.height] at deep deep'
          obtain ⟨fuel, rfl⟩ : ∃ n, fuel = n + 1 := ⟨fuel - 1, by omega⟩
          obtain ⟨fuel', rfl⟩ : ∃ n, fuel' = n + 1 := ⟨fuel' - 1, by omega⟩
          have same : List.Forall₂ (fun x y =>
              doDump reals flags (fuel + 1) x (depth + 1) = doDump reals flags (fuel' + 1) y (depth + 1))
              array1 array2 := by
            obtain ⟨length, each⟩ := List.forall₂_iff_zip.mp (jsonArrayEqual_iff.mp equal)
            refine List.forall₂_iff_zip.mpr ⟨length, fun {x y} both => ?_⟩
            obtain ⟨listed, listed'⟩ := List.of_mem_zip both
            exact ih x listed (values' y listed') (spelled x listed) (each both) (depth + 1)
              ((height_le_elements listed).trans (Nat.le_of_succ_le_succ deep))
              ((height_le_elements listed').trans (Nat.le_of_succ_le_succ deep'))
          exact dumpContainer_congr same
  | @string value _ =>
      intro value' _ _ equal fuel fuel' depth _ _
      cases value' with
      | string value' =>
          obtain rfl : value = value' := by simpa [jsonEqual] using equal
          rfl
      | _ => simp [jsonEqual] at equal
  | @integer value _ =>
      intro value' _ _ equal fuel fuel' depth _ _
      cases value' with
      | integer value' =>
          obtain rfl : value = value' := by simpa [jsonEqual] using equal
          rfl
      | _ => simp [jsonEqual] at equal
  | @real value =>
      intro value' _ spelled equal fuel fuel' depth _ _
      cases value' with
      | real value' =>
          cases spelled with
          | real spelled =>
              have same : realText reals value = realText reals value' := by
                rw [realText, realText, spelled value' equal]
              funext data
              simp only [doDump, same]
      | _ => simp [jsonEqual] at equal
  | true =>
      intro value' _ _ equal fuel fuel' depth _ _
      cases value' with
      | true => rfl
      | _ => simp [jsonEqual] at equal
  | false =>
      intro value' _ _ equal fuel fuel' depth _ _
      cases value' with
      | false => rfl
      | _ => simp [jsonEqual] at equal
  | null =>
      intro value' _ _ equal fuel fuel' depth _ _
      cases value' with
      | null => rfl
      | _ => simp [jsonEqual] at equal

/-! ### Equal to the same -/

/-- Values that are equal to the same value are equal, if this is so for real numbers. -/
theorem jsonEqual_euclidean
    (euclidean : ∀ a b c, reals.equal a c = Bool.true → reals.equal b c = Bool.true → reals.equal a b = Bool.true)
    {value : Value ρ} (wf : value.Wf) :
    ∀ {value' common : Value ρ}, value'.Wf → jsonEqual reals value common = Bool.true →
      jsonEqual reals value' common = Bool.true → jsonEqual reals value value' = Bool.true := by
  induction wf with
  | @object object1 nodup _ _ ih =>
      intro value' common wf' equal equal'
      obtain ⟨object3, rfl⟩ := exists_object_of_equal equal
      cases wf' with
      | @object object2 nodup' _ values' =>
          obtain ⟨length, each⟩ := jsonObjectEqual_iff.mp equal
          obtain ⟨length', each'⟩ := jsonObjectEqual_iff.mp equal'
          have keys := keys_perm_of_equal nodup' equal'
          refine jsonObjectEqual_iff.mpr ⟨length.trans length'.symm, fun p listed => ?_⟩
          obtain ⟨value3, isValue, same⟩ := each p listed
          have there : p.1 ∈ object3.keys := by
            by_contra out
            rw [Table.get_eq_none.mpr out] at isValue
            cases isValue
          obtain ⟨value2, inside⟩ := Table.mem_keys.mp (keys.mem_iff.mpr there)
          obtain ⟨value4, isValue', same'⟩ := each' _ inside
          obtain rfl : value3 = value4 := Option.some.inj (isValue.symm.trans isValue')
          exact ⟨value2, (Table.get_eq_some nodup').mpr inside, ih p listed (values' _ inside) same same'⟩
      | _ => simp [jsonEqual] at equal'
  | @array array1 _ ih =>
      intro value' common wf' equal equal'
      obtain ⟨array3, rfl⟩ := exists_array_of_equal equal
      cases wf' with
      | @array array2 values' =>
          obtain ⟨length, each⟩ := List.forall₂_iff_get.mp (jsonArrayEqual_iff.mp equal)
          obtain ⟨length', each'⟩ := List.forall₂_iff_get.mp (jsonArrayEqual_iff.mp equal')
          refine jsonArrayEqual_iff.mpr
            (List.forall₂_iff_get.mpr ⟨length.trans length'.symm, fun i inside inside' => ?_⟩)
          exact ih _ (List.get_mem array1 _) (values' _ (List.get_mem array2 _)) (each i inside (length ▸ inside))
            (each' i inside' (length ▸ inside))
      | _ => simp [jsonEqual] at equal'
  | string _ | integer _ =>
      intro value' common _ equal equal'
      cases common <;> simp [jsonEqual] at equal
      cases value' <;> simp [jsonEqual] at equal'
      simp only [jsonEqual, equal, equal', decide_true]
  | real =>
      intro value' common _ equal equal'
      cases common <;> simp [jsonEqual] at equal
      cases value' <;> simp [jsonEqual] at equal'
      exact euclidean _ _ _ equal equal'
  | true | false | null =>
      intro value' common _ equal equal'
      cases common <;> simp [jsonEqual] at equal
      cases value' <;> simp [jsonEqual] at equal'
      rfl

/-- With JSON_SORT_KEYS two objects or arrays have the same text exactly if they are equal. -/
theorem jsonDumps_sorted_iff {value value' : Value ρ} (wf : value.Wf) (wf' : value'.Wf)
    (container : value.isContainer = Bool.true) (container' : value'.isContainer = Bool.true)
    (readable : value.All (Readable libc reals)) (readable' : value'.All (Readable libc reals))
    (spelled : value.All (Spelled reals))
    (euclidean : ∀ a b c, reals.equal a c = Bool.true → reals.equal b c = Bool.true → reals.equal a b = Bool.true)
    (sorted : flags.sortKeys = Bool.true) :
    jsonDumps reals flags value = jsonDumps reals flags value' ↔ jsonEqual reals value value' = Bool.true := by
  constructor
  · intro same
    obtain ⟨text, tree, dumps, written⟩ := jsonDumps_written wf readable container flags
    obtain ⟨text', tree', dumps', written'⟩ := jsonDumps_written wf' readable' container' flags
    rw [dumps, dumps'] at same
    obtain rfl : text = text' := Option.some.inj (Option.some.inj same)
    obtain ⟨loaded, loads, result⟩ := written.loads container
    obtain ⟨loaded', loads', result'⟩ := written'.loads container'
    obtain rfl : loaded = loaded' := Option.some.inj (loads.symm.trans loads')
    have trees : tree.value libc = tree'.value libc := Option.some.inj (result.symm.trans result')
    exact jsonEqual_euclidean euclidean wf wf' written.equal (trees ▸ written'.equal)
  · intro equal
    have dumps := doDump_sorted sorted wf wf' spelled equal 0 (Nat.le_refl _) (Nat.le_refl _)
    simp only [jsonDumps, container, container', dumps]

/-- The members in two orders. -/
theorem jsonDumps_sorted_iff_reverse :
    jsonDumps halfReals { protocolFlags with sortKeys := Bool.true } (exampleObject exampleMembers) =
      jsonDumps halfReals { protocolFlags with sortKeys := Bool.true } (exampleObject exampleMembers.reverse) := by
  have spelled : Spelled halfReals Bool.true := by
    rintro b same
    rw [eq_of_beq same]
  have wf : (exampleObject exampleMembers.reverse).Wf :=
    exampleObject_wf fun member listed => exampleMembers_wf member (List.mem_reverse.mp listed)
  have readable : (exampleObject exampleMembers.reverse).All (Readable halfLibc halfReals) :=
    exampleObject_all fun member listed => exampleMembers_all readable_half member (List.mem_reverse.mp listed)
  refine (jsonDumps_sorted_iff (exampleObject_wf exampleMembers_wf) wf rfl rfl
    (exampleObject_all (exampleMembers_all readable_half)) readable (exampleObject_all (exampleMembers_all spelled))
    ?_ rfl).mpr (by decide)
  intro a b c first second
  exact beq_iff_eq.mpr ((eq_of_beq first).trans (eq_of_beq second).symm)

end CpuMiner.Jansson
