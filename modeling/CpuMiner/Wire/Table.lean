/-
Module: CpuMiner.Wire.Table
Layer: JSON
Purpose: What the hash table of jansson is for: a finite map from keys to values. The pairs stand in the order of the
  table's list, which is what is iterated over; keys are hashed into buckets, and the table grows when there are more
  pairs than buckets. Up to their order the pairs are those that were set last.
Imports: CpuMiner.Lib.Buckets, CpuMiner.Lib.Words
Trusted boundary: human-reviewed spec (the primes and the hash function)
Main exports: primes, Table, Table.set, Table.get, Table.del, hashKey, Table.mem_set, Table.get_set, Table.get_del,
  Table.Wf.set, Table.Wf.del
Open obligations: none
-/
import CpuMiner.Lib.Buckets
import CpuMiner.Lib.Words

namespace CpuMiner.Jansson

open Words

/-- The numbers of buckets. -/
def primes : List Nat :=
  [5, 13, 23, 53, 97, 193, 389, 769, 1543, 3079, 6151, 12289, 24593, 49157, 98317, 196613, 393241, 786433, 1572869,
    3145739, 6291469, 12582917, 25165843, 50331653, 100663319, 201326611, 402653189, 805306457, 1610612741]

/-- A table, by its index in `primes` and the pairs of its list. -/
structure Table (κ ν : Type) where
  numBuckets : Nat
  pairs : List (κ × ν)

/-- `hash_key`. A `char` has a sign. -/
def hashKey (key : List Byte) : Word := key.foldl (fun hash c => (hash <<< 5) + hash + c.signExtend 32) 5381

namespace Table

variable {κ ν : Type} (hash : κ → Word)

/-- The number of buckets of a table. There is no table with more than `1610612741` pairs. -/
def buckets (numBuckets : Nat) : Nat := primes.getD numBuckets 1

/-- The bucket of a pair. -/
def index (numBuckets : Nat) (p : κ × ν) : Nat := (hash p.1).toNat % buckets numBuckets

def empty : Table κ ν := { numBuckets := 0, pairs := [] }

def keys (t : Table κ ν) : List κ := t.pairs.map Prod.fst

/-- The keys are different. -/
def Wf (t : Table κ ν) : Prop := t.keys.Nodup

/-- `hashtable_do_rehash`, where there are as many pairs as buckets. -/
def grow (t : Table κ ν) : Table κ ν :=
  if t.pairs.length ≥ buckets t.numBuckets then
    { numBuckets := t.numBuckets + 1, pairs := Buckets.regroup (index hash (t.numBuckets + 1)) t.pairs }
  else t

/-- `hashtable_clear` -/
def clear (t : Table κ ν) : Table κ ν := { t with pairs := [] }

variable {hash} {t : Table κ ν} {key key' : κ} {value value' : ν}

theorem mem_keys : key ∈ t.keys ↔ ∃ value, (key, value) ∈ t.pairs := by
  simp [keys]

theorem perm_grow : (t.grow hash).pairs.Perm t.pairs := by
  unfold grow
  split
  · exact Buckets.perm_regroup _ _
  · exact .refl _

theorem keys_grow : (t.grow hash).keys.Perm t.keys := perm_grow.map Prod.fst

theorem wf_empty : (empty : Table κ ν).Wf := List.nodup_nil

/-! ### Keys -/

variable [DecidableEq κ] (hash)

/-- `hashtable_set`. A key that is there stays. -/
def set (t : Table κ ν) (key : κ) (value : ν) : Table κ ν :=
  let t := t.grow hash
  if key ∈ t.keys then { t with pairs := t.pairs.map fun p => if p.1 = key then (p.1, value) else p }
  else { t with pairs := Buckets.insert (index hash t.numBuckets) (key, value) t.pairs }

/-- `hashtable_get` -/
def get (t : Table κ ν) (key : κ) : Option ν := (t.pairs.find? fun p => p.1 = key).map Prod.snd

/-- `hashtable_del`, and whether the key was there. -/
def del (t : Table κ ν) (key : κ) : Table κ ν × Bool :=
  ({ t with pairs := t.pairs.filter fun p => p.1 ≠ key }, decide (key ∈ t.keys))

variable {hash}

/-- A key that is found has the value that is listed with it. -/
theorem get_eq_some (wf : t.Wf) : t.get key = some value ↔ (key, value) ∈ t.pairs := by
  obtain ⟨numBuckets, pairs⟩ := t
  induction pairs with
  | nil => simp [get]
  | cons p pairs ih =>
      obtain ⟨k, v⟩ := p
      have nodup : k ∉ pairs.map Prod.fst ∧ (pairs.map Prod.fst).Nodup := List.nodup_cons.mp wf
      by_cases same : k = key
      · subst same
        have notLater : (k, value) ∉ pairs := fun listed => nodup.1 (List.mem_map_of_mem listed)
        simp [get, notLater, eq_comm]
      · have later := ih nodup.2
        have other : ¬ key = k := fun isKey => same isKey.symm
        simpa [get, same, other] using later

theorem get_eq_none : t.get key = none ↔ key ∉ t.keys := by
  simp only [get, keys, Option.map_eq_none_iff, List.find?_eq_none, decide_eq_true_eq, List.mem_map, not_exists,
    not_and]

theorem set_of_mem (present : key ∈ (t.grow hash).keys) :
    t.set hash key value =
      { t.grow hash with pairs := (t.grow hash).pairs.map fun p => if p.1 = key then (p.1, value) else p } :=
  if_pos present

theorem set_of_not_mem (absent : key ∉ (t.grow hash).keys) :
    t.set hash key value =
      { t.grow hash with
        pairs := Buckets.insert (index hash (t.grow hash).numBuckets) (key, value) (t.grow hash).pairs } :=
  if_neg absent

/-- The pairs after `hashtable_set` are the new one, and those with other keys. -/
theorem mem_set :
    (key', value') ∈ (t.set hash key value).pairs ↔
      (key' = key ∧ value' = value) ∨ (key' ≠ key ∧ (key', value') ∈ t.pairs) := by
  rw [← (@perm_grow κ ν hash t).mem_iff]
  by_cases present : key ∈ (t.grow hash).keys
  · obtain ⟨old, listed⟩ := mem_keys.mp present
    simp only [set_of_mem present, List.mem_map, Prod.exists]
    constructor
    · rintro ⟨k, v, listed', changed⟩
      split at changed
      · rename_i same
        cases changed
        exact .inl ⟨same, rfl⟩
      · rename_i other
        cases changed
        exact .inr ⟨other, listed'⟩
    · rintro (⟨rfl, rfl⟩ | ⟨other, listed'⟩)
      · exact ⟨_, old, listed, if_pos rfl⟩
      · exact ⟨key', value', listed', if_neg other⟩
  · rw [set_of_not_mem present, Buckets.mem_insert, Prod.mk.injEq]
    refine or_congr_right ⟨fun listed => ⟨?_, listed⟩, And.right⟩
    rintro rfl
    exact present (mem_keys.mpr ⟨_, listed⟩)

/-- The keys after `hashtable_set`. -/
theorem keys_set :
    if key ∈ t.keys then (t.set hash key value).keys.Perm t.keys
    else (t.set hash key value).keys.Perm (key :: t.keys) := by
  have grown := @keys_grow κ ν hash t
  by_cases present : key ∈ (t.grow hash).keys
  · rw [if_pos (grown.mem_iff.mp present), set_of_mem present]
    have same : (((t.grow hash).pairs.map fun p => if p.1 = key then (p.1, value) else p).map Prod.fst) =
        (t.grow hash).pairs.map Prod.fst := by
      rw [List.map_map]
      refine List.map_congr_left fun p _ => ?_
      simp only [Function.comp_apply]
      split <;> rfl
    simp only [Table.keys] at grown ⊢
    rw [same]
    exact grown
  · rw [if_neg fun listed => present (grown.mem_iff.mpr listed), set_of_not_mem present]
    exact ((Buckets.perm_insert _ _ _).map Prod.fst).trans (grown.cons key)

/-- The keys stay different. -/
theorem Wf.set (wf : t.Wf) (hash : κ → Word) (key : κ) (value : ν) : (t.set hash key value).Wf := by
  have keys := @keys_set κ ν hash t key value _
  split at keys
  · exact keys.nodup_iff.mpr wf
  · rename_i absent
    exact keys.nodup_iff.mpr (List.nodup_cons.mpr ⟨absent, wf⟩)

/-- What was set is got, and nothing else is changed. -/
theorem get_set (wf : t.Wf) (hash : κ → Word) (key key' : κ) (value : ν) :
    (t.set hash key value).get key' = if key' = key then some value else t.get key' := by
  refine Option.ext fun v => ?_
  rw [get_eq_some (wf.set hash key value), mem_set]
  split
  · rename_i same
    subst same
    simp [eq_comm]
  · rename_i other
    rw [get_eq_some wf]
    simp [other]

/-- `size` after `hashtable_set`. -/
theorem length_set_le : (t.set hash key value).pairs.length ≤ t.pairs.length + 1 := by
  have keys := @keys_set κ ν hash t key value _
  split at keys
  all_goals
    have length := keys.length_eq
    simp only [Table.keys, List.length_map, List.length_cons] at length
    omega

/-- The pairs after `hashtable_del` are those with other keys. -/
theorem mem_del : (key', value') ∈ (t.del key).1.pairs ↔ key' ≠ key ∧ (key', value') ∈ t.pairs := by
  simp [del, and_comm]

theorem Wf.del (wf : t.Wf) (key : κ) : (t.del key).1.Wf :=
  List.Nodup.sublist (List.Sublist.map Prod.fst List.filter_sublist) wf

/-- What was deleted is not found, and nothing else is changed. -/
theorem get_del (wf : t.Wf) (key key' : κ) : (t.del key).1.get key' = if key' = key then none else t.get key' := by
  refine Option.ext fun v => ?_
  rw [get_eq_some (wf.del key), mem_del]
  split
  · rename_i same
    simp [same]
  · rename_i different
    rw [get_eq_some wf]
    simp [different]

/-- `hashtable_del` says whether there was a value. -/
theorem found_del : (t.del key).2 = (t.get key).isSome := by
  rw [← Option.not_isNone, Bool.eq_iff_iff, Bool.not_eq_true', Bool.eq_false_iff, Ne, Option.isNone_iff_eq_none,
    get_eq_none, Classical.not_not]
  exact decide_eq_true_iff

end Table

end CpuMiner.Jansson
