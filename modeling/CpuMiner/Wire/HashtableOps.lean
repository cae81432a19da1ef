/-
Module: CpuMiner.Wire.HashtableOps
Layer: JSON
Purpose: The functions of hashtable.c on a memory that stands for a table: they stay inside their memory, and leave the
  memory of what `Table` has for them. A rehash walks over the list while it builds the new one.
Imports: CpuMiner.Wire.Hashtable
Trusted boundary: none
Main exports: findPair_found, doRehash_represents, set_represents, get_represents, del_represents, clear_represents,
  iterate_represents, init_represents
Open obligations: none
-/
import CpuMiner.Wire.Hashtable

namespace CpuMiner.Jansson.Hashtable

open Words
open LinkedList
open Buckets (Segment)
open Function (update)

variable {κ ν : Type} {hash : κ → Word} {other : PairAddr → Option (Pair κ ν)} {m : Hashtable κ ν}
  {ents : List PairAddr} {t : Table κ ν}

/-! ### What is represented -/

theorem buckets_pos (numBuckets : Nat) : 0 < Table.buckets numBuckets := by
  have all : ∀ p ∈ primes, 0 < p := by decide
  rw [Table.buckets, List.getD_eq_getElem?_getD]
  cases found : primes[numBuckets]? with
  | none => decide
  | some p => exact all p (List.mem_of_getElem? found)

theorem Represents.sizeOfBuckets (rep : Represents hash other m ents t) :
    m.sizeOfBuckets = some (Table.buckets t.numBuckets) := by
  rw [Hashtable.sizeOfBuckets, rep.numBuckets, Table.buckets, List.getD_eq_getElem?_getD,
    List.getElem?_eq_getElem rep.inPrimes, Option.getD_some]

theorem Represents.size_eq (rep : Represents hash other m ents t) : m.size.toNat = t.pairs.length := by
  have length := congrArg List.length rep.pairs
  rw [List.length_map, List.length_map] at length
  rw [rep.size, length]

theorem Represents.there (rep : Represents hash other m ents t) : ∀ a ∈ ents, (m.heap a).isSome := by
  intro a listed
  have there : m.heap a ∈ t.pairs.map fun p => some (pairOf hash p) := by
    rw [← rep.pairs]
    exact List.mem_map_of_mem listed
  obtain ⟨p, _, isPair⟩ := List.mem_map.mp there
  rw [← isPair]
  rfl

/-- A pair of the list is a pair of the table. -/
theorem Represents.split {front back : List PairAddr} {a : PairAddr}
    (rep : Represents hash other m (front ++ a :: back) t) :
    ∃ before p after, t.pairs = before ++ p :: after ∧
      front.map m.heap = (before.map fun p => some (pairOf hash p)) ∧ m.heap a = some (pairOf hash p) ∧
      back.map m.heap = after.map fun p => some (pairOf hash p) := by
  have pairs := rep.pairs.symm
  rw [List.map_append, List.map_cons] at pairs
  obtain ⟨before, rest, split, isFront, isRest⟩ := List.map_eq_append_iff.mp pairs
  obtain ⟨p, after, rfl, isPair, isBack⟩ := List.map_eq_cons_iff.mp isRest
  exact ⟨before, p, after, split, isFront.symm, isPair.symm, isBack.symm⟩

/-- The bucket of a key. -/
theorem Represents.index (rep : Represents hash other m ents t) (key : κ) :
    (hash key).toNat % Table.buckets t.numBuckets < m.buckets.length := by
  rw [rep.length]
  exact Nat.mod_lt _ (buckets_pos t.numBuckets)

variable [DecidableEq κ]

/-- What `hashtable_find_pair` finds for a key. -/
inductive Found (hash : κ → Word) (m : Hashtable κ ν) (ents : List PairAddr) (t : Table κ ν) (key : κ) :
    Option PairAddr → Prop where
  | absent : key ∉ t.keys → Found hash m ents t key none
  | present {front back : List PairAddr} {a : PairAddr} {before after : List (κ × ν)} {value : ν} :
      ents = front ++ a :: back → t.pairs = before ++ (key, value) :: after →
      (front.map m.heap = before.map fun p => some (pairOf hash p)) → m.heap a = some (pairOf hash (key, value)) →
      (back.map m.heap = after.map fun p => some (pairOf hash p)) → Found hash m ents t key (some a)

/-- A key is found in its bucket if it is there. -/
theorem findPair_found (rep : Represents hash other m ents t) (key : κ) :
    ∃ bucket r, m.buckets[(hash key).toNat % Table.buckets t.numBuckets]? = some bucket ∧
      findPair m bucket key (hash key) = some r ∧ Found hash m ents t key r := by
  have isBucket := List.getElem?_eq_getElem (rep.index key)
  obtain ⟨before, seg, after, segment, same⟩ := rep.shape.bucket isBucket
  have finds := @findPair_eq κ ν _ m _ ents rep.shape rep.there rep.size _ key (hash key) before seg after segment
  refine ⟨bucketOf seg, seg.find? (m.isPair key (hash key)), by rw [isBucket, same], finds, ?_⟩
  cases found : seg.find? (m.isPair key (hash key)) with
  | none =>
      refine .absent fun listed => ?_
      obtain ⟨value, listed⟩ := Table.mem_keys.mp listed
      have there : some (pairOf hash (key, value)) ∈ ents.map m.heap := by
        rw [rep.pairs]
        exact List.mem_map_of_mem listed
      obtain ⟨a, inside, isPair⟩ := List.mem_map.mp there
      have sameHash : m.hashAt a = hash key := by rw [hashAt, isPair, Option.map_some, Option.getD_some, pairOf]
      have inSeg : a ∈ seg := segment.mem_iff.mpr ⟨inside, by rw [sameHash]⟩
      have skipped := List.find?_eq_none.mp found a inSeg
      simp [Hashtable.isPair, isPair, pairOf] at skipped
  | some a =>
      obtain ⟨inside, _⟩ := segment.mem_iff.mp (List.mem_of_find?_eq_some found)
      obtain ⟨front, back, rfl⟩ := List.append_of_mem inside
      obtain ⟨before', p, after', split, isFront, isPair, isBack⟩ := rep.split
      have test := List.find?_some found
      obtain ⟨key', value⟩ := p
      have isKey : key' = key := by
        simp [Hashtable.isPair, isPair, pairOf] at test
        exact test.2
      subst isKey
      exact .present rfl split isFront isPair isBack

/-! ### Walking over the list -/

/-- From this node on `next` leads through these pairs to the table. -/
def Leads (links : Links ListNode) : ListNode → List PairAddr → Prop
  | list, [] => list = .table
  | list, a :: rest => list = .pair a ∧ ∃ next, links.next (.pair a) = some next ∧ Leads links next rest

theorem Leads.congr {links links' : Links ListNode} {rest : List PairAddr} :
    ∀ {list : ListNode}, Leads links list rest → (∀ a ∈ rest, links'.next (.pair a) = links.next (.pair a)) →
      Leads links' list rest := by
  induction rest with
  | nil => exact fun leads _ => leads
  | cons a rest ih =>
      rintro list ⟨isPair, next, link, leads⟩ same
      refine ⟨isPair, next, (same a List.mem_cons_self).trans link, ih leads fun b listed => ?_⟩
      exact same b (List.mem_cons_of_mem a listed)

omit [DecidableEq κ] in
theorem Shape.leads {cls : PairAddr → Nat} (shape : m.Shape cls ents) :
    ∃ list, m.links.next .table = some list ∧ Leads m.links list ents := by
  have rest : ∀ rest done, ents = done ++ rest → Leads m.links (rest.head?.elim .table .pair) rest := by
    intro rest
    induction rest with
    | nil => exact fun _ _ => rfl
    | cons a rest ih =>
        rintro done rfl
        exact ⟨rfl, _, shape.next, ih (done ++ [a]) (by simp)⟩
  refine ⟨_, ?_, rest ents [] rfl⟩
  rw [shape.ring.next_head]
  cases ents <;> rfl

/-! ### Growing -/

omit [DecidableEq κ] in
/-- The loop of the rehash puts the pairs that are left into the new list. -/
theorem rehashLoop_shape {cls : PairAddr → Nat} {newSize : Nat} (rest : List PairAddr) :
    ∀ {m : Hashtable κ ν} {ys : List PairAddr} {list : ListNode} {fuel : Nat}, m.Shape cls ys →
      Leads m.links list rest → (rest ++ ys).Nodup →
      (∀ a ∈ rest, ∃ pair, m.heap a = some pair ∧ pair.hash.toNat % newSize = cls a ∧ cls a < m.buckets.length) →
      rest.length < fuel →
      ∃ links buckets, rehashLoop newSize fuel list m = some { m with links, buckets } ∧
        buckets.length = m.buckets.length ∧
        Shape { m with links, buckets } cls (rest.foldl (fun ys a => Buckets.insert cls a ys) ys) := by
  induction rest with
  | nil =>
      rintro m ys list fuel shape rfl _ _ enough
      obtain ⟨fuel, rfl⟩ : ∃ n, fuel = n + 1 := ⟨fuel - 1, by omega⟩
      exact ⟨m.links, m.buckets, rfl, rfl, shape⟩
  | cons a rest ih =>
      rintro m ys list fuel shape ⟨rfl, next, link, leads⟩ nodup there enough
      obtain ⟨fuel, rfl⟩ : ∃ n, fuel = n + 1 := ⟨fuel - 1, by omega⟩
      obtain ⟨pair, isPair, isClass, inside⟩ := there a List.mem_cons_self
      obtain ⟨out, nodup⟩ := List.nodup_cons.mp nodup
      obtain ⟨links, buckets, inserted, length, shape', kept⟩ := insertToBucket_shape shape
        (fun listed => out (List.mem_append_right _ listed)) inside
      have outRest : ∀ b ∈ rest, b ∉ ys ∧ b ≠ a := by
        intro b listed
        refine ⟨fun inYs => ?_, ?_⟩
        · exact (List.nodup_append.mp nodup).2.2 b listed b inYs rfl
        · rintro rfl
          exact out (List.mem_append_left _ listed)
      have leads' : Leads links next rest := leads.congr fun b listed =>
        kept b (outRest b listed).1 (outRest b listed).2
      have nodup' : (rest ++ Buckets.insert cls a ys).Nodup := by
        have moved : (rest ++ Buckets.insert cls a ys).Perm (a :: (rest ++ ys)) :=
          ((Buckets.perm_insert cls a ys).append_left rest).trans List.perm_middle
        exact moved.nodup_iff.mpr (List.nodup_cons.mpr ⟨out, nodup⟩)
      have there' : ∀ b ∈ rest, ∃ pair, m.heap b = some pair ∧ pair.hash.toNat % newSize = cls b ∧
          cls b < buckets.length := by
        intro b listed
        rw [length]
        exact there b (List.mem_cons_of_mem a listed)
      rw [List.length_cons] at enough
      have enough' : rest.length < fuel := by omega
      obtain ⟨links', buckets', loops, length', shape''⟩ := ih shape' leads' nodup' there' enough'
      refine ⟨links', buckets', ?_, length'.trans length, shape''⟩
      simp only [rehashLoop, link, isPair, isClass, inserted, Option.bind_eq_bind, Option.bind_some]
      exact loops

omit [DecidableEq κ] in
/-- A list of new pairs, in buckets that are all empty. -/
theorem shape_nil (cls : PairAddr → Nat) {m : Hashtable κ ν} {size : Nat} (ring : Ring m.links .table [])
    (buckets : m.buckets = emptyBuckets size) : m.Shape cls [] where
  ring := ring
  bucket := by
    intro i bucket atIndex
    rw [buckets, emptyBuckets, List.getElem?_replicate] at atIndex
    split at atIndex
    · exact ⟨[], [], [], .nil cls i, (Option.some.inj atIndex).symm⟩
    · cases atIndex

/-- The bucket of a place on the heap, by the hash of what is there. -/
def pairIndex (size : Nat) (o : Option (Pair κ ν)) : Nat := ((o.map Pair.hash).getD 0).toNat % size

omit [DecidableEq κ] in
/-- The pairs that are put in are those of the table. -/
theorem map_regroup_pairs {size : Nat} (pairs : ents.map m.heap = t.pairs.map fun p => some (pairOf hash p)) :
    (Buckets.regroup (fun a => (m.hashAt a).toNat % size) ents).map m.heap =
      (Buckets.regroup (fun p => (hash p.1).toNat % size) t.pairs).map fun p => some (pairOf hash p) := by
  have onHeap : (Buckets.regroup (fun a => (m.hashAt a).toNat % size) ents).map m.heap =
      Buckets.regroup (pairIndex size) (ents.map m.heap) := Buckets.map_regroup ents fun _ _ => rfl
  have inTable : (Buckets.regroup (fun p => (hash p.1).toNat % size) t.pairs).map (fun p => some (pairOf hash p)) =
      Buckets.regroup (pairIndex size) (t.pairs.map fun p => some (pairOf hash p)) :=
    Buckets.map_regroup t.pairs fun _ _ => rfl
  rw [onHeap, inTable, pairs]

omit [DecidableEq κ] in
/-- `hashtable_do_rehash` makes the next larger table. -/
theorem doRehash_represents (rep : Represents hash other m ents t) (larger : t.numBuckets + 1 < primes.length) :
    ∃ m' ents', hashtableDoRehash m = some m' ∧ m'.heap = m.heap ∧
      Represents hash other m' ents'
        { numBuckets := t.numBuckets + 1, pairs := Buckets.regroup (Table.index hash (t.numBuckets + 1)) t.pairs } := by
  have newSize : primes[m.numBuckets + 1]? = some (Table.buckets (t.numBuckets + 1)) := by
    rw [rep.numBuckets, Table.buckets, List.getD_eq_getElem?_getD, List.getElem?_eq_getElem larger, Option.getD_some]
  obtain ⟨list, first, leads⟩ := rep.shape.leads
  -- the memory when the loop begins
  obtain ⟨start, isStart⟩ : ∃ start : Hashtable κ ν, start =
      { m with
        numBuckets := m.numBuckets + 1
        buckets := emptyBuckets (Table.buckets (t.numBuckets + 1))
        links := Elist.initListHead m.links .table } := ⟨_, rfl⟩
  have length : start.buckets.length = Table.buckets (t.numBuckets + 1) := by
    rw [isStart]
    exact List.length_replicate
  have shape : start.Shape (fun a => (m.hashAt a).toNat % Table.buckets (t.numBuckets + 1)) [] := by
    subst isStart
    exact shape_nil _ (Elist.ring_initListHead m.links .table) rfl
  have leads' : Leads start.links list ents := by
    subst isStart
    exact leads.congr fun a _ => by simp [Elist.initListHead, Elist.setNext, Elist.setPrev]
  have there : ∀ a ∈ ents, ∃ pair, start.heap a = some pair ∧
      pair.hash.toNat % Table.buckets (t.numBuckets + 1) = (m.hashAt a).toNat % Table.buckets (t.numBuckets + 1) ∧
      (m.hashAt a).toNat % Table.buckets (t.numBuckets + 1) < start.buckets.length := by
    intro a listed
    obtain ⟨pair, isPair⟩ := Option.isSome_iff_exists.mp (rep.there a listed)
    refine ⟨pair, by rw [isStart]; exact isPair, by rw [hashAt, isPair, Option.map_some, Option.getD_some], ?_⟩
    rw [length]
    exact Nat.mod_lt _ (buckets_pos _)
  have enough : ents.length < m.size.toNat + 1 := by
    rw [rep.size]
    exact Nat.lt_succ_self _
  have nodup : (ents ++ []).Nodup := by
    rw [List.append_nil]
    exact rep.shape.nodup
  obtain ⟨links, buckets, loops, length', shape'⟩ := rehashLoop_shape ents shape leads' nodup there enough
  subst isStart
  refine ⟨{ m with numBuckets := m.numBuckets + 1, links, buckets },
    Buckets.regroup (fun a => (m.hashAt a).toNat % Table.buckets (t.numBuckets + 1)) ents, ?_, rfl,
    ⟨shape', map_regroup_pairs rep.pairs, ?_, congrArg (· + 1) rep.numBuckets, larger, length'.trans length, ?_, ?_⟩⟩
  · simp only [hashtableDoRehash, Hashtable.sizeOfBuckets, newSize, first, Option.bind_eq_bind, Option.bind_some]
    exact loops
  · have same : (Buckets.regroup (fun a => (m.hashAt a).toNat % Table.buckets (t.numBuckets + 1)) ents).length =
        ents.length := (Buckets.perm_regroup _ ents).length_eq
    exact rep.size.trans same.symm
  · exact fun a out => rep.heap a fun listed => out ((Buckets.perm_regroup _ ents).mem_iff.mpr listed)
  · exact fun a listed => rep.own a ((Buckets.perm_regroup _ ents).mem_iff.mp listed)

omit [DecidableEq κ] in
/-- The pairs of the list are the same, in the same buckets. -/
theorem Shape.congr {m' : Hashtable κ ν} {cls cls' : PairAddr → Nat} (shape : m.Shape cls ents)
    (ring : Ring m'.links .table (ents.map .pair)) (buckets : m'.buckets = m.buckets)
    (same : ∀ a ∈ ents, cls' a = cls a) : m'.Shape cls' ents where
  ring := ring
  bucket := by
    intro i bucket atIndex
    rw [buckets] at atIndex
    obtain ⟨before, seg, after, segment, isBucket⟩ := shape.bucket atIndex
    exact ⟨before, seg, after, segment.congr same, isBucket⟩

omit [DecidableEq κ] in
/-- The table grows when there are as many pairs as buckets. -/
theorem grow_represents (rep : Represents hash other m ents t) (few : t.pairs.length < 1610612741) :
    ∃ m' ents', (if m.size.toNat ≥ Table.buckets t.numBuckets then hashtableDoRehash m else some m) = some m' ∧
      m'.heap = m.heap ∧ Represents hash other m' ents' (t.grow hash) := by
  rw [rep.size_eq, Table.grow]
  by_cases full : t.pairs.length ≥ Table.buckets t.numBuckets
  · have larger : t.numBuckets + 1 < primes.length := by
      have inPrimes := rep.inPrimes
      have notLast : t.numBuckets ≠ 28 := by
        intro last
        rw [last] at full
        exact absurd few (Nat.not_lt.mpr full)
      have number : primes.length = 29 := rfl
      omega
    obtain ⟨m', ents', grows, sameHeap, rep'⟩ := doRehash_represents rep larger
    exact ⟨m', ents', by rw [if_pos full, grows], sameHeap, by rwa [if_pos full]⟩
  · exact ⟨m, ents, if_neg full, rfl, by rwa [if_neg full]⟩

/-! ### Setting -/

omit [DecidableEq κ] in
theorem map_update {xs : List PairAddr} {a : PairAddr} (out : a ∉ xs) (heap : PairAddr → Option (Pair κ ν))
    (pair : Option (Pair κ ν)) : xs.map (update heap a pair) = xs.map heap := by
  refine List.map_congr_left fun b listed => Function.update_of_ne ?_ _ _
  rintro rfl
  exact out listed

/-- One pair has the key. -/
theorem map_set {before after : List (κ × ν)} {key : κ} {old value : ν}
    (nodup : ((before ++ (key, old) :: after).map Prod.fst).Nodup) :
    ((before ++ (key, old) :: after).map fun p => if p.1 = key then (p.1, value) else p) =
      before ++ (key, value) :: after := by
  rw [List.map_append, List.map_cons] at nodup
  have out := (List.nodup_cons.mp (List.perm_middle.nodup_iff.mp nodup)).1
  have kept : ∀ {ps : List (κ × ν)}, key ∉ ps.map Prod.fst →
      (ps.map fun p => if p.1 = key then (p.1, value) else p) = ps := by
    intro ps notKey
    refine (List.map_congr_left fun p listed => if_neg ?_).trans (List.map_id ps)
    rintro rfl
    exact notKey (List.mem_map_of_mem listed)
  rw [List.map_append, List.map_cons, kept fun listed => out (List.mem_append_left _ listed),
    kept fun listed => out (List.mem_append_right _ listed), if_pos rfl]

theorem set_represents (rep : Represents hash other m ents t) (wf : t.Wf) (few : t.pairs.length < 1610612741)
    {malloc : PairAddr} (free : m.heap malloc = none) (key : κ) (value : ν) :
    ∃ m' ents', hashtableSet hash m key value malloc = some m' ∧
      Represents hash other m' ents' (t.set hash key value) := by
  obtain ⟨m₁, ents₁, grows, sameHeap, rep₁⟩ := grow_represents rep few
  have wf₁ : (t.grow hash).Wf := Table.keys_grow.nodup_iff.mpr wf
  obtain ⟨bucket, r, isBucket, finds, found⟩ := findPair_found rep₁ key
  cases found with
  | @present front back a before after old isEnts isPairs isFront isPair isBack =>
      have present : key ∈ (t.grow hash).keys := Table.mem_keys.mpr ⟨old, isPairs ▸ by simp⟩
      obtain ⟨m', isMem⟩ : ∃ m' : Hashtable κ ν, m' =
          { m₁ with heap := update m₁.heap a (some (pairOf hash (key, value))) } := ⟨_, rfl⟩
      have sameHash : ∀ b, m'.hashAt b = m₁.hashAt b := by
        intro b
        subst isMem
        by_cases same : b = a
        · subst same
          simp [hashAt, isPair, pairOf]
        · simp [hashAt, same]
      refine ⟨m', ents₁, ?_, ?_⟩
      · simp only [hashtableSet, rep.sizeOfBuckets, grows, rep₁.sizeOfBuckets, isBucket, finds, isPair, isMem,
          Option.bind_eq_bind, Option.bind_some, Option.pure_def, pairOf]
      · have nodup := rep₁.shape.nodup
        rw [isEnts] at nodup
        have out := (List.nodup_cons.mp (List.perm_middle.nodup_iff.mp nodup)).1
        rw [Table.set_of_mem present]
        subst isMem
        refine ⟨rep₁.shape.congr rep₁.shape.ring rfl fun b _ => by rw [sameHash], ?_, rep₁.size, rep₁.numBuckets,
          rep₁.inPrimes, rep₁.length, fun b out' => ?_, rep₁.own⟩
        case refine_2 =>
          have isOther : b ≠ a := by
            rintro rfl
            exact out' (isEnts ▸ by simp)
          exact (Function.update_of_ne isOther _ _).trans (rep₁.heap b out')
        have nodupKeys := wf₁
        rw [Table.Wf, Table.keys, isPairs] at nodupKeys
        have onHeap : (front ++ a :: back).map (update m₁.heap a (some (pairOf hash (key, value)))) =
            (before ++ (key, value) :: after).map fun p => some (pairOf hash p) := by
          rw [List.map_append, List.map_cons, Function.update_self,
            map_update fun listed => out (List.mem_append_left _ listed),
            map_update fun listed => out (List.mem_append_right _ listed), isFront, isBack, List.map_append,
            List.map_cons]
        rw [isPairs, map_set nodupKeys, isEnts]
        exact onHeap
  | absent notKey =>
      obtain ⟨m₂, isMem⟩ : ∃ m₂ : Hashtable κ ν, m₂ =
          { m₁ with
            heap := update m₁.heap malloc (some (pairOf hash (key, value)))
            links := Elist.initListHead m₁.links (.pair malloc) } := ⟨_, rfl⟩
      have out : malloc ∉ ents₁ := by
        intro listed
        have there := rep₁.there malloc listed
        rw [sameHeap, free] at there
        cases there
      have newHash : m₂.hashAt malloc = hash key := by
        subst isMem
        simp [hashAt, pairOf]
      have sameHash : ∀ b ∈ ents₁, m₂.hashAt b = m₁.hashAt b := by
        intro b listed
        have other : b ≠ malloc := fun same => out (same ▸ listed)
        subst isMem
        simp [hashAt, other]
      have ring : Ring m₂.links .table (ents₁.map .pair) := by
        refine rep₁.shape.ring.congr fun node inRing => ?_
        have other : node ≠ .pair malloc := by
          rintro rfl
          exact fresh_pair out inRing
        subst isMem
        simp [Elist.initListHead, Elist.setNext, Elist.setPrev, other]
      have shape : m₂.Shape (fun a => (m₂.hashAt a).toNat % Table.buckets (t.grow hash).numBuckets) ents₁ :=
        rep₁.shape.congr ring (by rw [isMem]) fun b listed => by rw [sameHash b listed]
      have inside : (m₂.hashAt malloc).toNat % Table.buckets (t.grow hash).numBuckets < m₂.buckets.length := by
        rw [newHash, isMem]
        exact rep₁.index key
      obtain ⟨links, buckets, inserted, length, shape', _⟩ := insertToBucket_shape shape out inside
      rw [newHash] at inserted
      have onHeap : (Buckets.insert (fun a => (m₂.hashAt a).toNat % Table.buckets (t.grow hash).numBuckets) malloc
            ents₁).map m₂.heap =
          (Buckets.insert (Table.index hash (t.grow hash).numBuckets) (key, value) (t.grow hash).pairs).map
            fun p => some (pairOf hash p) := by
        have inMemory : (Buckets.insert (fun a => (m₂.hashAt a).toNat % Table.buckets (t.grow hash).numBuckets) malloc
            ents₁).map m₂.heap =
            Buckets.insert (pairIndex (Table.buckets (t.grow hash).numBuckets)) (m₂.heap malloc) (ents₁.map m₂.heap) :=
          Buckets.map_insert malloc ents₁ fun _ _ => rfl
        have inTable : (Buckets.insert (Table.index hash (t.grow hash).numBuckets) (key, value)
              (t.grow hash).pairs).map (fun p => some (pairOf hash p)) =
            Buckets.insert (pairIndex (Table.buckets (t.grow hash).numBuckets)) (some (pairOf hash (key, value)))
              ((t.grow hash).pairs.map fun p => some (pairOf hash p)) :=
          Buckets.map_insert (key, value) _ fun _ _ => rfl
        have newPair : m₂.heap malloc = some (pairOf hash (key, value)) := by
          rw [isMem]
          exact Function.update_self ..
        have others : ents₁.map m₂.heap = ents₁.map m₁.heap := by
          rw [isMem]
          exact map_update out _ _
        rw [inMemory, inTable, newPair, others, rep₁.pairs]
      have counts : (m₂.size + 1).toNat = ents₁.length + 1 := by
        have same : m₂.size.toNat = ents₁.length := by
          rw [isMem]
          exact rep₁.size
        have few₁ : ents₁.length < 1610612741 := by
          rw [← rep₁.size, rep₁.size_eq, (@Table.perm_grow κ ν hash t).length_eq]
          exact few
        have one : (1 : Word).toNat = 1 := rfl
        rw [BitVec.toNat_add, same, one]
        exact Nat.mod_eq_of_lt (by omega)
      rw [Table.set_of_not_mem notKey]
      refine ⟨{ m₂ with links, buckets, size := m₂.size + 1 }, _, ?_, ⟨⟨shape'.ring, shape'.bucket⟩, onHeap, ?_, ?_,
        rep₁.inPrimes, ?_, ?_, ?_⟩⟩
      · rw [isMem] at inserted ⊢
        simp only [pairOf] at inserted
        simp only [hashtableSet, rep.sizeOfBuckets, grows, rep₁.sizeOfBuckets, isBucket, finds, inserted,
          Option.bind_eq_bind, Option.bind_some, Option.pure_def, pairOf]
      · rw [(Buckets.perm_insert _ malloc ents₁).length_eq, List.length_cons]
        exact counts
      · rw [isMem]
        exact rep₁.numBuckets
      · rw [isMem] at length
        exact length.trans rep₁.length
      · intro b out'
        rw [Buckets.mem_insert, not_or] at out'
        rw [isMem]
        exact (Function.update_of_ne out'.1 _ _).trans (rep₁.heap b out'.2)
      · intro b listed
        rcases Buckets.mem_insert.mp listed with rfl | listed
        · rw [← rep₁.heap b out, sameHeap, free]
        · exact rep₁.own b listed

/-! ### Getting and deleting -/

theorem get_of_split {before after : List (κ × ν)} {key : κ} {value : ν} (wf : t.Wf)
    (isPairs : t.pairs = before ++ (key, value) :: after) : t.get key = some value :=
  (Table.get_eq_some wf).mpr (isPairs ▸ by simp)

theorem get_represents (rep : Represents hash other m ents t) (wf : t.Wf) (key : κ) :
    hashtableGet hash m key = some (t.get key) := by
  obtain ⟨bucket, r, isBucket, finds, found⟩ := findPair_found rep key
  cases found with
  | @present front back a before after value isEnts isPairs isFront isPair isBack =>
      rw [get_of_split wf isPairs]
      simp only [hashtableGet, rep.sizeOfBuckets, isBucket, finds, isPair, Option.bind_eq_bind, Option.bind_some,
        Option.pure_def, pairOf]
  | absent notKey =>
      rw [Table.get_eq_none.mpr notKey]
      simp only [hashtableGet, rep.sizeOfBuckets, isBucket, finds, Option.bind_eq_bind, Option.bind_some,
        Option.pure_def]

/-- The pairs with other keys. -/
theorem filter_key {before after : List (κ × ν)} {key : κ} {value : ν}
    (nodup : ((before ++ (key, value) :: after).map Prod.fst).Nodup) :
    ((before ++ (key, value) :: after).filter fun p => p.1 ≠ key) = before ++ after := by
  rw [List.map_append, List.map_cons] at nodup
  have out := (List.nodup_cons.mp (List.perm_middle.nodup_iff.mp nodup)).1
  have kept : ∀ {ps : List (κ × ν)}, key ∉ ps.map Prod.fst → (ps.filter fun p => p.1 ≠ key) = ps := by
    intro ps notKey
    refine List.filter_eq_self.mpr fun p listed => decide_eq_true ?_
    rintro rfl
    exact notKey (List.mem_map_of_mem listed)
  rw [List.filter_append, List.filter_cons_of_neg (by simp), kept fun listed => out (List.mem_append_left _ listed),
    kept fun listed => out (List.mem_append_right _ listed)]

theorem del_represents (rep : Represents hash other m ents t) (wf : t.Wf) (key : κ) :
    ∃ m' ents', hashtableDel hash m key = some (m', (t.del key).2) ∧ Represents hash other m' ents' (t.del key).1 := by
  obtain ⟨bucket, r, isBucket, finds, found⟩ := findPair_found rep key
  cases found with
  | @present front back a before after value isEnts isPairs isFront isPair isBack =>
      subst isEnts
      have nodupKeys := wf
      rw [Table.Wf, Table.keys, isPairs] at nodupKeys
      have removes : t.del key = ({ t with pairs := before ++ after }, true) := by
        have present : key ∈ t.keys := Table.mem_keys.mpr ⟨value, isPairs ▸ by simp⟩
        simp only [Table.del, isPairs, filter_key nodupKeys, decide_eq_true present]
      have isHash : m.hashAt a = hash key := by rw [hashAt, isPair, Option.map_some, Option.getD_some, pairOf]
      have isBucket' : m.buckets[(m.hashAt a).toNat % Table.buckets t.numBuckets]? = some bucket := by
        rw [isHash, isBucket]
      obtain ⟨bucket', links, without, removed, shape⟩ := remove_shape rep.shape isBucket'
      rw [isHash] at shape
      have out : a ∉ front ++ back :=
        (List.nodup_cons.mp (List.perm_middle.nodup_iff.mp rep.shape.nodup)).1
      obtain ⟨m', isMem⟩ : ∃ m' : Hashtable κ ν, m' =
          { freePair
              { m with links, buckets := m.buckets.set ((hash key).toNat % Table.buckets t.numBuckets) bucket' } a
            with size := m.size - 1 } := ⟨_, rfl⟩
      have isHeap : m'.heap = update m.heap a none := by
        rw [isMem]
        rfl
      have counts : m'.size.toNat = (front ++ back).length := by
        have size := rep.size
        have one : (1 : Word).toNat = 1 := rfl
        simp only [List.length_append, List.length_cons] at size
        rw [isMem, BitVec.toNat_sub_of_le (by rw [BitVec.le_def, one]; omega), one, List.length_append]
        omega
      refine ⟨m', front ++ back, ?_, ?_⟩
      · simp only [hashtableDel, hashtableDoDel, rep.sizeOfBuckets, isBucket, finds, without, removed, removes, isMem,
          Option.bind_eq_bind, Option.bind_some, Option.pure_def, freePair]
      · rw [removes]
        refine ⟨shape.congr (by rw [isMem]; exact shape.ring) (by rw [isMem]) ?_, ?_, counts, ?_, rep.inPrimes,
          ?_, ?_, ?_⟩
        · intro b listed
          have other : b ≠ a := fun same => out (same ▸ listed)
          simp [hashAt, isHeap, other]
        · rw [isHeap, map_update out, List.map_append, isFront, isBack, List.map_append]
        · rw [isMem]
          exact rep.numBuckets
        · rw [isMem]
          exact List.length_set.trans rep.length
        · intro b out'
          rw [isHeap]
          by_cases same : b = a
          · rw [same, Function.update_self, rep.own a (by simp)]
          · rw [Function.update_of_ne same]
            refine rep.heap b fun listed => ?_
            rcases List.mem_append.mp listed with inFront | behind
            · exact out' (List.mem_append_left _ inFront)
            · rcases List.mem_cons.mp behind with isA | inBack
              · exact same isA
              · exact out' (List.mem_append_right _ inBack)
        · intro b listed
          refine rep.own b ?_
          rcases List.mem_append.mp listed with inFront | inBack
          · exact List.mem_append_left _ inFront
          · exact List.mem_append_right _ (List.mem_cons_of_mem a inBack)
  | absent notKey =>
      have unchanged : t.del key = (t, false) := by
        have kept : (t.pairs.filter fun p => p.1 ≠ key) = t.pairs := by
          refine List.filter_eq_self.mpr fun p listed => decide_eq_true ?_
          rintro rfl
          exact notKey (List.mem_map_of_mem listed)
        simp only [Table.del, kept, decide_eq_false notKey]
      refine ⟨m, ents, ?_, by rwa [unchanged]⟩
      simp only [hashtableDel, hashtableDoDel, rep.sizeOfBuckets, isBucket, finds, unchanged, Option.bind_eq_bind,
        Option.bind_some, Option.pure_def]

/-! ### Making, clearing and iterating -/

omit [DecidableEq κ] in
/-- A table as `hashtable_init` makes it has no pairs. -/
theorem init_represents (hash : κ → Word) (m : Hashtable κ ν) :
    Represents hash m.heap (hashtableInit m) [] Table.empty where
  shape := shape_nil _ (Elist.ring_initListHead m.links .table) rfl
  pairs := rfl
  size := rfl
  numBuckets := rfl
  inPrimes := Nat.zero_lt_succ 28
  length := List.length_replicate
  heap := fun _ _ => rfl
  own := fun _ listed => absurd listed List.not_mem_nil

omit [DecidableEq κ] in
theorem heap_freePair (m : Hashtable κ ν) (a : PairAddr) : (m.freePair a).heap = update m.heap a none := rfl

omit [DecidableEq κ] in
/-- `hashtable_do_clear` takes the link out of each pair before it frees it. -/
theorem doClear_eq (rest : List PairAddr) :
    ∀ {m : Hashtable κ ν} {list : ListNode} {fuel : Nat}, Leads m.links list rest → rest.Nodup →
      (∀ a ∈ rest, (m.heap a).isSome) → rest.length < fuel →
      ∃ links heap, doClear fuel list m = some { m with links, heap } ∧ (∀ a ∈ rest, heap a = none) ∧
        ∀ a, a ∉ rest → heap a = m.heap a := by
  induction rest with
  | nil =>
      rintro m list fuel rfl _ _ enough
      obtain ⟨fuel, rfl⟩ : ∃ n, fuel = n + 1 := ⟨fuel - 1, by omega⟩
      exact ⟨m.links, m.heap, rfl, fun _ listed => absurd listed List.not_mem_nil, fun _ _ => rfl⟩
  | cons a rest ih =>
      rintro m list fuel ⟨rfl, next, link, leads⟩ nodup there enough
      obtain ⟨fuel, rfl⟩ : ∃ n, fuel = n + 1 := ⟨fuel - 1, by omega⟩
      obtain ⟨out, nodup⟩ := List.nodup_cons.mp nodup
      obtain ⟨pair, isPair⟩ := Option.isSome_iff_exists.mp (there a List.mem_cons_self)
      have kept : ∀ b ∈ rest, b ≠ a := by
        rintro b listed rfl
        exact out listed
      have leads' : Leads (m.freePair a).links next rest := by
        refine leads.congr fun b listed => ?_
        simp [freePair, Elist.setNext, Elist.setPrev, kept b listed]
      have there' : ∀ b ∈ rest, ((m.freePair a).heap b).isSome := by
        intro b listed
        rw [heap_freePair, Function.update_of_ne (kept b listed)]
        exact there b (List.mem_cons_of_mem a listed)
      rw [List.length_cons] at enough
      have enough' : rest.length < fuel := by omega
      obtain ⟨links, heap, clears, freed, others⟩ := ih leads' nodup there' enough'
      refine ⟨links, heap, ?_, ?_, ?_⟩
      · simp only [doClear, link, isPair, Option.bind_eq_bind, Option.bind_some]
        exact clears
      · intro b listed
        by_cases same : b = a
        · rw [same, others a out, heap_freePair, Function.update_self]
        · exact freed b ((List.mem_cons.mp listed).resolve_left same)
      · intro b out'
        rw [List.mem_cons, not_or] at out'
        rw [others b out'.2, heap_freePair, Function.update_of_ne out'.1]

omit [DecidableEq κ] in
theorem clear_represents (rep : Represents hash other m ents t) :
    ∃ m', hashtableClear m = some m' ∧ Represents hash other m' [] t.clear := by
  obtain ⟨list, first, leads⟩ := rep.shape.leads
  have enough : ents.length < m.size.toNat + 1 := by
    rw [rep.size]
    exact Nat.lt_succ_self _
  obtain ⟨links, heap, clears, freed, others⟩ := doClear_eq ents leads rep.shape.nodup rep.there enough
  have buckets : ({ m with links, heap } : Hashtable κ ν).sizeOfBuckets = some (Table.buckets t.numBuckets) :=
    rep.sizeOfBuckets
  refine ⟨{ m with
      heap
      links := Elist.initListHead links .table
      buckets := emptyBuckets (Table.buckets t.numBuckets)
      size := 0 }, ?_, shape_nil _ (Elist.ring_initListHead links .table) rfl, rfl, rfl, rep.numBuckets, rep.inPrimes,
    List.length_replicate, fun a _ => ?_, fun _ listed => absurd listed List.not_mem_nil⟩
  · simp only [hashtableClear, first, clears, buckets, Option.bind_eq_bind, Option.bind_some, Option.pure_def]
  · by_cases listed : a ∈ ents
    · exact (freed a listed).trans (rep.own a listed).symm
    · exact (others a listed).trans (rep.heap a listed)

omit [DecidableEq κ] in
/-- An iterator goes on through the pairs behind it. -/
theorem iterateFrom_eq {links : Links ListNode} (isLinks : m.links = links) (rest : List PairAddr) :
    ∀ {list next : ListNode} {pairs : List (κ × ν)} {fuel : Nat}, links.next list = some next →
      Leads links next rest → (rest.map m.heap = pairs.map fun p => some (pairOf hash p)) → rest.length < fuel →
      iterateFrom m fuel list = some pairs := by
  subst isLinks
  induction rest with
  | nil =>
      rintro list next pairs fuel link rfl isPairs enough
      obtain ⟨fuel, rfl⟩ : ∃ n, fuel = n + 1 := ⟨fuel - 1, by omega⟩
      obtain rfl : pairs = [] := List.map_eq_nil_iff.mp isPairs.symm
      simp only [iterateFrom, iterNext, link, Option.bind_eq_bind, Option.bind_some, Option.pure_def]
  | cons a rest ih =>
      rintro list next pairs fuel link ⟨rfl, next', link', leads⟩ isPairs enough
      obtain ⟨fuel, rfl⟩ : ∃ n, fuel = n + 1 := ⟨fuel - 1, by omega⟩
      obtain ⟨p, pairs, rfl, isPair, isRest⟩ := List.map_eq_cons_iff.mp isPairs.symm
      rw [List.length_cons] at enough
      have later := ih link' leads isRest.symm (Nat.lt_of_succ_lt_succ enough)
      simp only [iterateFrom, iterNext, link, ← isPair, later, Option.bind_eq_bind, Option.bind_some, Option.pure_def,
        pairOf]

omit [DecidableEq κ] in
/-- The iterators come to each pair of the table, in the order of its list. -/
theorem iterate_represents (rep : Represents hash other m ents t) : iterate m = some t.pairs := by
  obtain ⟨list, first, leads⟩ := rep.shape.leads
  have enough : ents.length < m.size.toNat + 1 := by
    rw [rep.size]
    exact Nat.lt_succ_self _
  exact iterateFrom_eq rfl ents first leads rep.pairs enough

end CpuMiner.Jansson.Hashtable
