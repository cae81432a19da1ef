/-
Module: CpuMiner.Wire.Hashtable
Layer: JSON
Purpose: hashtable.c in memory: the list of all pairs, the buckets with pointers to their first and last pair in it, and
  the pairs on the heap. An operation that would follow a null pointer, use a pair that is not there or go outside
  `buckets` or `primes` gives nothing. `Represents` says which table the memory stands for. The functions are
  instantiated with the hash function and with equality of keys; all allocations succeed.
Imports: CpuMiner.Util.Elist, CpuMiner.Wire.Table, Mathlib.Data.List.Nodup
Trusted boundary: human-reviewed spec (the transcription of the C code)
Main exports: ListNode, Pair, Bucket, Hashtable, hashtableInit, hashtableSet, hashtableGet, hashtableDel,
  hashtableClear, iterate, Represents
Open obligations: none
-/
import CpuMiner.Util.Elist
import CpuMiner.Wire.Table
import Mathlib.Data.List.Nodup

namespace CpuMiner.Jansson

open Words
open LinkedList
open Buckets (Segment)
open Function (update)

/-- A pointer to a `struct hashtable_pair`. -/
abbrev PairAddr := Nat

/-- A `struct hashtable_list`: the one of the table, or that of a pair. -/
inductive ListNode where
  | table
  | pair (a : PairAddr)
deriving DecidableEq

/-- A `struct hashtable_pair` without its `list`. -/
structure Pair (κ ν : Type) where
  key : κ
  value : ν
  hash : Word

/-- `struct hashtable_bucket` -/
structure Bucket where
  first : ListNode
  last : ListNode

/-- `struct hashtable` and the pairs on the heap. `numBuckets` is the index in `primes`. -/
structure Hashtable (κ ν : Type) where
  links : Links ListNode
  heap : PairAddr → Option (Pair κ ν)
  size : Word
  buckets : List Bucket
  numBuckets : Nat

/-! ### Lists -/

/-- `list_insert` -/
def listInsert (m : Links ListNode) (list node : ListNode) : Option (Links ListNode) :=
  let m := Elist.setNext m node (some list)
  let m := Elist.setPrev m node (m.prev list)
  (m.prev list).map fun prev => Elist.setPrev (Elist.setNext m prev (some node)) list (some node)

/-- `list_remove` -/
def listRemove (m : Links ListNode) (list : ListNode) : Option (Links ListNode) := do
  let prev ← m.prev list
  let m := Elist.setNext m prev (m.next list)
  let next ← m.next list
  return Elist.setPrev m next (m.prev list)

section

variable {m : Links ListNode} {head : ListNode} {front back : List ListNode}

/-- `list_insert` puts a new node before another one of the ring. Only nodes of the ring get another successor. -/
theorem ring_listInsert (ring : Ring m head (front ++ back)) {node new : ListNode}
    (place : (back ++ [head]).head? = some node) (fresh : new ∉ head :: (front ++ back)) :
    ∃ m', listInsert m node new = some m' ∧ Ring m' head (front ++ new :: back) ∧
      ∀ a, a ∉ head :: (front ++ back) → a ≠ new → m'.next a = m.next a := by
  obtain ⟨last, memLast, prev, linked⟩ := ring.insertBefore fresh place
  have memNode : node ∈ head :: (front ++ back) := by
    have listed := List.mem_of_mem_head? (Option.mem_def.mpr place)
    rcases List.mem_append.mp listed with inBack | isHead
    · exact List.mem_cons_of_mem head (List.mem_append_right front inBack)
    · rw [List.mem_singleton.mp isHead]
      exact List.mem_cons_self
  have notLast : last ≠ new := fun same => fresh (same ▸ memLast)
  have notNode : node ≠ new := fun same => fresh (same ▸ memNode)
  have inserted : listInsert m node new = some (Elist.setPrev (Elist.setNext (Elist.setPrev
      (Elist.setNext m new (some node)) new (some last)) last (some new)) node (some new)) := by
    simp [listInsert, Elist.setNext, Elist.setPrev, notNode, prev]
  refine ⟨_, inserted, linked _ ?_ ?_ ?_ ?_, ?_⟩
  · simp [Linked, Elist.setNext, Elist.setPrev, notNode.symm]
  · simp [Linked, Elist.setNext, Elist.setPrev, notLast.symm]
  · intro a notLast' new'
    simp [Elist.setNext, Elist.setPrev, notLast', new']
  · intro b notNode' new'
    simp [Elist.setNext, Elist.setPrev, notNode', new']
  · intro a outside new'
    have notLast' : a ≠ last := fun same => outside (same ▸ memLast)
    simp [Elist.setNext, Elist.setPrev, notLast', new']

/-- `list_remove` takes a node out of the ring. -/
theorem ring_listRemove {list : ListNode} (ring : Ring m head (front ++ list :: back)) :
    ∃ m', listRemove m list = some m' ∧ Ring m' head (front ++ back) := by
  obtain ⟨p, n, prev, next, notP, notN, linked⟩ := ring.remove
  have removed : listRemove m list = some (Elist.setPrev (Elist.setNext m p (some n)) n (some p)) := by
    simp [listRemove, Elist.setNext, Elist.setPrev, prev, next, notP.symm]
  refine ⟨_, removed, linked _ ?_ ?_ ?_⟩
  · simp [Linked, Elist.setNext, Elist.setPrev]
  · intro a notP' _
    simp [Elist.setNext, Elist.setPrev, notP']
  · intro b notN' _
    simp [Elist.setNext, Elist.setPrev, notN']

end

namespace Hashtable

variable {κ ν : Type} [DecidableEq κ]

/-! ### Operations -/

/-- `bucket_is_empty` -/
def bucketIsEmpty (bucket : Bucket) : Bool := bucket.first = .table ∧ bucket.first = bucket.last

/-- `insert_to_bucket`, for the bucket at this index. -/
def insertToBucket (m : Hashtable κ ν) (index : Nat) (list : ListNode) : Option (Hashtable κ ν) := do
  let bucket ← m.buckets[index]?
  if bucketIsEmpty bucket then
    let links ← listInsert m.links .table list
    return { m with links, buckets := m.buckets.set index { first := list, last := list } }
  else
    let links ← listInsert m.links bucket.first list
    return { m with links, buckets := m.buckets.set index { bucket with first := list } }

/-- `num_buckets` -/
def sizeOfBuckets (m : Hashtable κ ν) : Option Nat := primes[m.numBuckets]?

/-- The loop of `hashtable_find_pair`. -/
def findLoop (m : Hashtable κ ν) (bucket : Bucket) (key : κ) (hash : Word) :
    Nat → ListNode → Option (Option PairAddr)
  | 0, _ | _ + 1, .table => none
  | fuel + 1, .pair a => do
      let pair ← m.heap a
      if pair.hash = hash ∧ pair.key = key then return some a
      else if ListNode.pair a = bucket.last then return none
      else
        let list ← m.links.next (.pair a)
        findLoop m bucket key hash fuel list

/-- `hashtable_find_pair`. There are not more passes than pairs. -/
def findPair (m : Hashtable κ ν) (bucket : Bucket) (key : κ) (hash : Word) : Option (Option PairAddr) :=
  if bucketIsEmpty bucket then some none else findLoop m bucket key hash m.size.toNat bucket.first

/-- `free(pair)` -/
def freePair (m : Hashtable κ ν) (a : PairAddr) : Hashtable κ ν :=
  { m with
    heap := update m.heap a none
    links := Elist.setPrev (Elist.setNext m.links (.pair a) none) (.pair a) none }

/-- The bucket without the pair, in `hashtable_do_del`. -/
def bucketWithout (m : Hashtable κ ν) (bucket : Bucket) (list : ListNode) : Option Bucket :=
  if list = bucket.first ∧ list = bucket.last then some { first := .table, last := .table }
  else if list = bucket.first then (m.links.next list).map fun first => { bucket with first }
  else if list = bucket.last then (m.links.prev list).map fun last => { bucket with last }
  else some bucket

/-- `hashtable_do_del`, and whether the key was found. -/
def hashtableDoDel (m : Hashtable κ ν) (key : κ) (hash : Word) : Option (Hashtable κ ν × Bool) := do
  let size ← m.sizeOfBuckets
  let index := hash.toNat % size
  let bucket ← m.buckets[index]?
  match ← findPair m bucket key hash with
  | none => return (m, false)
  | some a =>
      let bucket ← bucketWithout m bucket (.pair a)
      let links ← listRemove m.links (.pair a)
      let m := { m with links, buckets := m.buckets.set index bucket }
      return ({ m.freePair a with size := m.size - 1 }, true)

/-- The loop of `hashtable_do_rehash`. -/
def rehashLoop (newSize : Nat) : Nat → ListNode → Hashtable κ ν → Option (Hashtable κ ν)
  | 0, _, _ => none
  | _ + 1, .table, m => some m
  | fuel + 1, .pair a, m => do
      let next ← m.links.next (.pair a)
      let pair ← m.heap a
      let m ← insertToBucket m (pair.hash.toNat % newSize) (.pair a)
      rehashLoop newSize fuel next m

/-- `buckets[i].first = buckets[i].last = &hashtable->list` -/
def emptyBuckets (size : Nat) : List Bucket := List.replicate size { first := .table, last := .table }

/-- `hashtable_do_rehash` -/
def hashtableDoRehash (m : Hashtable κ ν) : Option (Hashtable κ ν) := do
  let m := { m with numBuckets := m.numBuckets + 1 }
  let newSize ← m.sizeOfBuckets
  let m := { m with buckets := emptyBuckets newSize }
  let list ← m.links.next .table
  let m := { m with links := Elist.initListHead m.links .table }
  rehashLoop newSize (m.size.toNat + 1) list m

/-- `hashtable_init`, in memory with any contents. -/
def hashtableInit (m : Hashtable κ ν) : Hashtable κ ν :=
  { m with
    size := 0
    numBuckets := 0
    buckets := emptyBuckets (Table.buckets 0)
    links := Elist.initListHead m.links .table }

variable (hash : κ → Word)

/-- `hashtable_set`, with the pair that `malloc` would give. -/
def hashtableSet (m : Hashtable κ ν) (key : κ) (value : ν) (malloc : PairAddr) : Option (Hashtable κ ν) := do
  let size ← m.sizeOfBuckets
  let m ← (if m.size.toNat ≥ size then hashtableDoRehash m else some m)
  let size ← m.sizeOfBuckets
  let index := (hash key).toNat % size
  let bucket ← m.buckets[index]?
  match ← findPair m bucket key (hash key) with
  | some a =>
      let pair ← m.heap a
      return { m with heap := update m.heap a (some { pair with value }) }
  | none =>
      let m :=
        { m with
          heap := update m.heap malloc (some { key, value, hash := hash key })
          links := Elist.initListHead m.links (.pair malloc) }
      let m ← insertToBucket m index (.pair malloc)
      return { m with size := m.size + 1 }

/-- `hashtable_get` -/
def hashtableGet (m : Hashtable κ ν) (key : κ) : Option (Option ν) := do
  let size ← m.sizeOfBuckets
  let bucket ← m.buckets[(hash key).toNat % size]?
  match ← findPair m bucket key (hash key) with
  | none => return none
  | some a =>
      let pair ← m.heap a
      return some pair.value

/-- `hashtable_del`, and whether the key was found. -/
def hashtableDel (m : Hashtable κ ν) (key : κ) : Option (Hashtable κ ν × Bool) := hashtableDoDel m key (hash key)

/-- `hashtable_do_clear` -/
def doClear : Nat → ListNode → Hashtable κ ν → Option (Hashtable κ ν)
  | 0, _, _ => none
  | _ + 1, .table, m => some m
  | fuel + 1, .pair a, m => do
      let next ← m.links.next (.pair a)
      let _ ← m.heap a
      doClear fuel next (m.freePair a)

/-- `hashtable_clear` -/
def hashtableClear (m : Hashtable κ ν) : Option (Hashtable κ ν) := do
  let list ← m.links.next .table
  let m ← doClear (m.size.toNat + 1) list m
  let size ← m.sizeOfBuckets
  return { m with buckets := emptyBuckets size, links := Elist.initListHead m.links .table, size := 0 }

/-- `hashtable_iter_next`, with `NULL` at the end. `hashtable_iter` calls it for the list of the table. -/
def iterNext (m : Hashtable κ ν) (list : ListNode) : Option (Option PairAddr) := do
  match ← m.links.next list with
  | .table => return none
  | .pair a => return some a

/-- The keys and values from an iterator on. -/
def iterateFrom (m : Hashtable κ ν) : Nat → ListNode → Option (List (κ × ν))
  | 0, _ => none
  | fuel + 1, list => do
      match ← m.iterNext list with
      | none => return []
      | some iter =>
          let pair ← m.heap iter
          let rest ← iterateFrom m fuel (.pair iter)
          return (pair.key, pair.value) :: rest

/-- The keys and values that are iterated over. -/
def iterate (m : Hashtable κ ν) : Option (List (κ × ν)) := iterateFrom m (m.size.toNat + 1) .table

/-! ### What the memory stands for -/

/-- A bucket of the list. -/
def bucketOf (seg : List PairAddr) : Bucket where
  first := seg.head?.elim .table .pair
  last := seg.getLast?.elim .table .pair

/-- The pairs are in the list, and each bucket has its part of it. -/
structure Shape (m : Hashtable κ ν) (cls : PairAddr → Nat) (ents : List PairAddr) : Prop where
  ring : Ring m.links .table (ents.map .pair)
  bucket : ∀ {i bucket}, m.buckets[i]? = some bucket →
    ∃ before seg after, Segment cls i ents before seg after ∧ bucket = bucketOf seg

/-- The hash of a pair on the heap. -/
def hashAt (m : Hashtable κ ν) (a : PairAddr) : Word := ((m.heap a).map Pair.hash).getD 0

/-- The pair of a key. -/
def pairOf (p : κ × ν) : Pair κ ν := { key := p.1, value := p.2, hash := hash p.1 }

/-- The memory is this table, with its pairs at these places. The rest of the heap is as it was without the table. -/
structure Represents (other : PairAddr → Option (Pair κ ν)) (m : Hashtable κ ν) (ents : List PairAddr)
    (t : Table κ ν) : Prop where
  shape : m.Shape (fun a => (m.hashAt a).toNat % Table.buckets t.numBuckets) ents
  pairs : ents.map m.heap = t.pairs.map fun p => some (pairOf hash p)
  size : m.size.toNat = ents.length
  numBuckets : m.numBuckets = t.numBuckets
  inPrimes : t.numBuckets < primes.length
  length : m.buckets.length = Table.buckets t.numBuckets
  heap : ∀ a, a ∉ ents → m.heap a = other a
  own : ∀ a ∈ ents, other a = none

/-! ### The list and the buckets -/

section

variable {m : Hashtable κ ν} {cls : PairAddr → Nat} {ents : List PairAddr}

omit [DecidableEq κ] in
theorem Shape.nodup (shape : m.Shape cls ents) : ents.Nodup :=
  List.Nodup.of_map _ (List.nodup_cons.mp shape.ring.nodup).2

theorem fresh_pair {a : PairAddr} (out : a ∉ ents) : ListNode.pair a ∉ ListNode.table :: ents.map .pair := by
  rw [List.mem_cons, not_or]
  refine ⟨ListNode.noConfusion, fun listed => ?_⟩
  obtain ⟨b, inside, same⟩ := List.mem_map.mp listed
  exact out (ListNode.pair.inj same ▸ inside)

omit [DecidableEq κ] in
/-- The node behind a pair. -/
theorem Shape.next {front back : List PairAddr} {a : PairAddr} (shape : m.Shape cls (front ++ a :: back)) :
    m.links.next (.pair a) = some (back.head?.elim .table .pair) := by
  have ring := shape.ring
  rw [List.map_append, List.map_cons] at ring
  rw [ring.next_of_mem]
  cases back <;> rfl

omit [DecidableEq κ] in
/-- The node in front of a pair. -/
theorem Shape.prev {front back : List PairAddr} {a : PairAddr} (shape : m.Shape cls (front ++ a :: back)) :
    m.links.prev (.pair a) = some (front.getLast?.elim .table .pair) := by
  have ring := shape.ring
  rw [List.map_append, List.map_cons] at ring
  rw [ring.prev_of_mem]
  cases front using List.reverseRecOn with
  | nil => rfl
  | append_singleton front b => simp [List.getLast?_cons]

theorem bucketIsEmpty_iff {seg : List PairAddr} : bucketIsEmpty (bucketOf seg) = true ↔ seg = [] := by
  cases seg with
  | nil => simp [bucketIsEmpty, bucketOf]
  | cons a seg => simp [bucketIsEmpty, bucketOf]

/-! ### Finding a pair -/

/-- The test of `hashtable_find_pair`. -/
def isPair (m : Hashtable κ ν) (key : κ) (hash : Word) (a : PairAddr) : Bool :=
  (m.heap a).any fun pair => pair.hash = hash ∧ pair.key = key

/-- The loop looks through the rest of its bucket. -/
theorem findLoop_eq (shape : m.Shape cls ents) (there : ∀ a ∈ ents, (m.heap a).isSome) {i : Nat} {key : κ} {hash : Word}
    {before after : List PairAddr} (rest : List PairAddr) :
    ∀ {done : List PairAddr} {a : PairAddr} {fuel : Nat}, Segment cls i ents before (done ++ a :: rest) after →
      rest.length < fuel →
      findLoop m (bucketOf (done ++ a :: rest)) key hash fuel (.pair a) =
        some ((a :: rest).find? (m.isPair key hash)) := by
  induction rest with
  | nil =>
      intro done a fuel segment enough
      obtain ⟨fuel, rfl⟩ : ∃ n, fuel = n + 1 := ⟨fuel - 1, by omega⟩
      have listed : a ∈ ents := (segment.mem_iff.mp (by simp)).1
      obtain ⟨pair, isPair⟩ := Option.isSome_iff_exists.mp (there a listed)
      have last : (bucketOf (done ++ [a])).last = .pair a := by simp [bucketOf]
      by_cases found : pair.hash = hash ∧ pair.key = key
      · simp [findLoop, isPair, found, Hashtable.isPair]
      · simp [findLoop, isPair, found, last, Hashtable.isPair]
  | cons b rest ih =>
      intro done a fuel segment enough
      obtain ⟨fuel, rfl⟩ : ∃ n, fuel = n + 1 := ⟨fuel - 1, by omega⟩
      have listed : a ∈ ents := (segment.mem_iff.mp (by simp)).1
      obtain ⟨pair, isPair⟩ := Option.isSome_iff_exists.mp (there a listed)
      have nodup := shape.nodup
      have next : m.links.next (.pair a) = some (.pair b) := by
        have split : ents = (before ++ done) ++ a :: (b :: rest ++ after) := by rw [segment.split]; simp
        rw [split] at shape
        exact shape.next
      have notLast : ¬ ListNode.pair a = (bucketOf (done ++ a :: b :: rest)).last := by
        intro same
        have inRest : a ∈ b :: rest := by
          have isLast : (done ++ a :: b :: rest).getLast? = (b :: rest).getLast? := by
            simp [List.getLast?_append, List.getLast?_cons]
          obtain ⟨c, isC⟩ : ∃ c, (b :: rest).getLast? = some c :=
            ⟨_, List.getLast?_eq_some_getLast (List.cons_ne_nil b rest)⟩
          simp only [bucketOf, isLast, isC, Option.elim_some, ListNode.pair.injEq] at same
          exact same ▸ List.mem_of_getLast? isC
        rw [segment.split] at nodup
        have inner := (List.nodup_append.mp (List.nodup_append.mp nodup).1).2.1
        exact (List.nodup_cons.mp (List.nodup_append.mp inner).2.1).1 inRest
      by_cases found : pair.hash = hash ∧ pair.key = key
      · simp [findLoop, isPair, found, Hashtable.isPair]
      · have moved : done ++ a :: b :: rest = (done ++ [a]) ++ b :: rest := by simp
        rw [List.length_cons] at enough
        have later := @ih (done ++ [a]) b fuel (moved ▸ segment) (by omega)
        rw [← moved] at later
        have skip : m.isPair key hash a = false := by
          rw [Hashtable.isPair, isPair, Option.any_some]
          exact decide_eq_false found
        rw [List.find?_cons, skip]
        simp only [findLoop, isPair, found, notLast, next, Option.bind_eq_bind, Option.bind_some, if_false]
        exact later

/-- `hashtable_find_pair` looks through its bucket. -/
theorem findPair_eq (shape : m.Shape cls ents) (there : ∀ a ∈ ents, (m.heap a).isSome)
    (size : m.size.toNat = ents.length) {i : Nat} {key : κ} {hash : Word} {before seg after : List PairAddr}
    (segment : Segment cls i ents before seg after) :
    findPair m (bucketOf seg) key hash = some (seg.find? (m.isPair key hash)) := by
  cases seg with
  | nil => rw [findPair, if_pos (bucketIsEmpty_iff.mpr rfl), List.find?_nil]
  | cons a rest =>
      have enough := congrArg List.length segment.split
      simp only [List.length_append, List.length_cons] at enough
      have some_pair : ¬ bucketIsEmpty (bucketOf (a :: rest)) = true := fun nothing =>
        absurd (bucketIsEmpty_iff.mp nothing) (List.cons_ne_nil a rest)
      rw [findPair, if_neg some_pair]
      exact @findLoop_eq κ ν _ m cls ents shape there i key hash before after rest [] a _ segment (by omega)

end

/-! ### Putting a pair in and taking it out -/

section

variable {m : Hashtable κ ν} {cls : PairAddr → Nat} {ents : List PairAddr}

omit [DecidableEq κ] in
/-- `insert_to_bucket` puts a pair before the others of its bucket. Only links of these pairs are changed. -/
theorem insertToBucket_shape (shape : m.Shape cls ents) {a : PairAddr} (out : a ∉ ents)
    (inside : cls a < m.buckets.length) :
    ∃ links buckets, insertToBucket m (cls a) (.pair a) = some { m with links, buckets } ∧
      buckets.length = m.buckets.length ∧ Shape { m with links, buckets } cls (Buckets.insert cls a ents) ∧
      ∀ b, b ∉ ents → b ≠ a → links.next (.pair b) = m.links.next (.pair b) := by
  obtain ⟨before, seg, after, segment, isBucket⟩ := shape.bucket (List.getElem?_eq_getElem inside)
  have fresh := fresh_pair out
  have outside : ∀ b, b ∉ ents → b ≠ a → ListNode.pair b ∉ ListNode.table :: ents.map .pair ∧
      ListNode.pair b ≠ ListNode.pair a := fun b out other =>
    ⟨fresh_pair out, fun same => other (ListNode.pair.inj same)⟩
  obtain ⟨links, inserted, ring, kept⟩ : ∃ links,
      listInsert m.links (bucketOf seg).first (.pair a) = some links ∧
        Ring links .table ((Buckets.insert cls a ents).map .pair) ∧
        ∀ b, b ∉ ListNode.table :: ents.map .pair → b ≠ .pair a → links.next b = m.links.next b := by
    cases seg with
    | nil =>
        have ring : Ring m.links .table (ents.map .pair ++ []) := by
          rw [List.append_nil]
          exact shape.ring
        have fresh' : ListNode.pair a ∉ ListNode.table :: (ents.map .pair ++ []) := by rwa [List.append_nil]
        have inserted := @ring_listInsert _ _ _ _ ring .table (.pair a) rfl fresh'
        rw [List.append_nil] at inserted
        rw [segment.insert_first, List.map_append]
        exact inserted
    | cons y seg =>
        have split : ents.map ListNode.pair = before.map .pair ++ (y :: seg ++ after).map .pair := by
          rw [← List.map_append, ← List.append_assoc, ← segment.split]
        have ring := shape.ring
        rw [split] at ring fresh ⊢
        have inserted := @ring_listInsert _ _ _ _ ring (.pair y) (.pair a) rfl fresh
        rw [segment.insert_before, List.map_append, List.map_cons]
        exact inserted
  have isEmpty : bucketIsEmpty (bucketOf seg) = true → (bucketOf seg).first = .table := by
    intro nothing
    rw [bucketIsEmpty_iff.mp nothing]
    rfl
  have result : insertToBucket m (cls a) (.pair a) =
      some { m with links, buckets := m.buckets.set (cls a) (bucketOf (a :: seg)) } := by
    have found : m.buckets[cls a]? = some (bucketOf seg) := by rw [List.getElem?_eq_getElem inside, isBucket]
    unfold insertToBucket
    simp only [found, Option.bind_eq_bind, Option.bind_some]
    by_cases nothing : bucketIsEmpty (bucketOf seg) = true
    · rw [if_pos nothing, ← isEmpty nothing, inserted, bucketIsEmpty_iff.mp nothing]
      rfl
    · rw [if_neg nothing, inserted]
      cases seg with
      | nil => exact absurd rfl nothing
      | cons y seg => rfl
  refine ⟨links, _, result, List.length_set, ⟨ring, ?_⟩, fun b out other => kept _ (outside b out other).1
    (outside b out other).2⟩
  intro i bucket atIndex
  by_cases same : cls a = i
  · subst same
    obtain ⟨before', after', segment'⟩ := segment.insert_same
    rw [List.getElem?_set_self inside] at atIndex
    exact ⟨before', a :: seg, after', segment', (Option.some.inj atIndex).symm⟩
  · rw [List.getElem?_set_ne same] at atIndex
    obtain ⟨_, seg', _, segment', isBucket'⟩ := shape.bucket atIndex
    obtain ⟨before', after', segment''⟩ := segment'.insert_other (x := a) same
    exact ⟨before', seg', after', segment'', isBucket'⟩

theorem first_bucketOf {front back : List PairAddr} {a : PairAddr} (out : a ∉ front) :
    ListNode.pair a = (bucketOf (front ++ a :: back)).first ↔ front = [] := by
  cases front with
  | nil => simp [bucketOf]
  | cons b front =>
      have other : a ≠ b := fun same => out (same ▸ List.mem_cons_self)
      simp [bucketOf, other]

theorem last_bucketOf {front back : List PairAddr} {a : PairAddr} (out : a ∉ back) :
    ListNode.pair a = (bucketOf (front ++ a :: back)).last ↔ back = [] := by
  have isLast : (front ++ a :: back).getLast? = (a :: back).getLast? :=
    List.getLast?_append_of_ne_nil _ (List.cons_ne_nil a back)
  rw [bucketOf, isLast]
  cases back using List.reverseRecOn with
  | nil => simp
  | append_singleton back b =>
      have other : a ≠ b := fun same => out (by rw [same]; simp)
      simp [List.getLast?_cons, other]

omit [DecidableEq κ] in
/-- The bucket of a pair that is taken out has its other pairs. -/
theorem bucketWithout_eq (shape : m.Shape cls ents) {i : Nat} {before front back after : List PairAddr} {a : PairAddr}
    (segment : Segment cls i ents before (front ++ a :: back) after) :
    bucketWithout m (bucketOf (front ++ a :: back)) (.pair a) = some (bucketOf (front ++ back)) := by
  have nodup : (front ++ a :: back).Nodup := by
    have nodup := shape.nodup
    rw [segment.split] at nodup
    exact (List.nodup_append.mp (List.nodup_append.mp nodup).1).2.1
  have moved := (List.nodup_cons.mp (List.perm_middle.nodup_iff.mp nodup)).1
  have isFirst := @first_bucketOf front back a fun listed => moved (List.mem_append_left _ listed)
  have isLast := @last_bucketOf front back a fun listed => moved (List.mem_append_right _ listed)
  have split : ents = (before ++ front) ++ a :: (back ++ after) := by rw [segment.split]; simp
  rw [split] at shape
  have next := shape.next
  have prev := shape.prev
  simp only [bucketWithout, isFirst, isLast]
  cases front with
  | nil =>
      cases back with
      | nil => rw [if_pos ⟨rfl, rfl⟩]; rfl
      | cons b back =>
          rw [if_neg fun both => List.cons_ne_nil b back both.2, if_pos rfl, next]
          simp [bucketOf, List.getLast?_cons]
  | cons b front =>
      rw [if_neg fun both => List.cons_ne_nil b front both.1, if_neg (List.cons_ne_nil b front)]
      cases back with
      | nil =>
          rw [if_pos rfl, prev, List.getLast?_append_of_ne_nil _ (List.cons_ne_nil b front)]
          simp [bucketOf]
      | cons c back =>
          rw [if_neg (List.cons_ne_nil c back)]
          simp [bucketOf, List.getLast?_cons, List.getLast?_append]

theorem filter_ne_self {xs : List PairAddr} {a : PairAddr} (out : a ∉ xs) : (xs.filter fun b => b ≠ a) = xs := by
  refine List.filter_eq_self.mpr fun b listed => decide_eq_true ?_
  rintro rfl
  exact out listed

theorem filter_ne {front back : List PairAddr} {a : PairAddr} (out : a ∉ front ++ back) :
    ((front ++ a :: back).filter fun b => b ≠ a) = front ++ back := by
  rw [List.filter_append, List.filter_cons_of_neg (by simp),
    filter_ne_self fun listed => out (List.mem_append_left _ listed),
    filter_ne_self fun listed => out (List.mem_append_right _ listed)]

omit [DecidableEq κ] in
/-- A pair is taken out of the list and of its bucket, and freed. -/
theorem remove_shape {front back : List PairAddr} {a : PairAddr} (shape : m.Shape cls (front ++ a :: back))
    {bucket : Bucket} (isBucket : m.buckets[cls a]? = some bucket) :
    ∃ bucket' links, bucketWithout m bucket (.pair a) = some bucket' ∧ listRemove m.links (.pair a) = some links ∧
      ({ m with links, buckets := m.buckets.set (cls a) bucket' }.freePair a).Shape cls (front ++ back) := by
  obtain ⟨before, seg, after, segment, rfl⟩ := shape.bucket isBucket
  have ring := shape.ring
  rw [List.map_append, List.map_cons] at ring
  obtain ⟨links, removed, ring'⟩ := ring_listRemove ring
  have nodup := shape.nodup
  have out : a ∉ front ++ back := (List.nodup_cons.mp (List.perm_middle.nodup_iff.mp nodup)).1
  have listed : a ∈ seg := segment.mem_iff.mpr ⟨by simp, rfl⟩
  obtain ⟨front', back', rfl⟩ := List.append_of_mem listed
  refine ⟨_, links, bucketWithout_eq shape segment, removed, ⟨?_, ?_⟩⟩
  · rw [← List.map_append] at ring'
    refine ring'.congr fun b inRing => ?_
    have other : b ≠ .pair a := by
      rintro rfl
      exact fresh_pair out inRing
    simp [freePair, Elist.setNext, Elist.setPrev, other]
  · intro i bucket atIndex
    have inside : cls a < m.buckets.length := (List.getElem?_eq_some_iff.mp isBucket).1
    by_cases same : cls a = i
    · subst same
      rw [freePair, List.getElem?_set_self inside] at atIndex
      have outSeg : a ∉ front' ++ back' := by
        rw [segment.split] at nodup
        have nodup' := (List.nodup_append.mp (List.nodup_append.mp nodup).1).2.1
        exact (List.nodup_cons.mp (List.perm_middle.nodup_iff.mp nodup')).1
      have segment' := segment.filter fun b => b ≠ a
      rw [filter_ne out, filter_ne outSeg] at segment'
      exact ⟨_, _, _, segment', (Option.some.inj atIndex).symm⟩
    · rw [freePair, List.getElem?_set_ne same] at atIndex
      obtain ⟨before', seg', after', segment', isBucket'⟩ := shape.bucket atIndex
      have outSeg : a ∉ seg' := fun listed => same (segment'.inside a listed)
      have segment'' := segment'.filter fun b => b ≠ a
      rw [filter_ne out, filter_ne_self outSeg] at segment''
      exact ⟨_, _, _, segment'', isBucket'⟩

end

end Hashtable

end CpuMiner.Jansson
