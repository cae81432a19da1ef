/-
Module: CpuMiner.Lib.LinkedList
Layer: Library
Purpose: Circular doubly linked lists in memory. Every node has two pointers, which may be null. A list is a ring:
  from its head one comes through the nodes of the list back to the head, and each of these links has its inverse.
  `Ring.insert` and `Ring.remove` say which pointers have to be set to put a node at the end and to take one out;
  all other links may stay as they are, since a node has only one predecessor and one successor.
Imports: Mathlib.Data.List.Chain
Trusted boundary: none
Main exports: Links, Linked, Ring, walk, Ring.init, Ring.insert, Ring.remove, Ring.next_head, Ring.next_first,
  Ring.empty_iff, Ring.congr, Ring.walk_head, Ring.next_prev, Ring.prev_next, Ring.rotate, Ring.next_of_mem,
  Ring.prev_of_mem, Ring.insertBefore
Open obligations: none
-/
import Mathlib.Data.List.Chain

namespace LinkedList

variable {α : Type}

/-- The two pointers of every node. -/
structure Links (α : Type) where
  next : α → Option α
  prev : α → Option α

/-- The second node comes after the first one. -/
def Linked (m : Links α) (a b : α) : Prop := m.next a = some b ∧ m.prev b = some a

/-- The list from `head` on has the nodes `xs`, and closes. -/
structure Ring (m : Links α) (head : α) (xs : List α) : Prop where
  linked : (head :: xs ++ [head]).IsChain (Linked m)
  nodup : (head :: xs).Nodup

/-- Follow `next` some times. -/
def walk (m : Links α) : Nat → α → Option α
  | 0, a => some a
  | n + 1, a => (m.next a).bind (walk m n)

theorem Linked.next_unique {m : Links α} {a b b' : α} (one : Linked m a b) (two : Linked m a b') : b = b' :=
  Option.some.inj (one.1.symm.trans two.1)

theorem Linked.prev_unique {m : Links α} {a a' b : α} (one : Linked m a b) (two : Linked m a' b) : a = a' :=
  Option.some.inj (one.2.symm.trans two.2)

namespace Ring

variable {m m' : Links α} {head : α} {xs : List α}

/-- A head that points to itself is an empty list. -/
theorem init (next : m.next head = some head) (prev : m.prev head = some head) : Ring m head [] where
  linked := .cons_cons ⟨next, prev⟩ (.singleton _)
  nodup := List.nodup_cons.mpr ⟨List.not_mem_nil, List.nodup_nil⟩

/-! ### What a ring gives -/

/-- The first node, or the head again. -/
theorem next_head (ring : Ring m head xs) : m.next head = (xs ++ [head]).head? := by
  cases xs with
  | nil => exact (List.isChain_cons_cons.mp ring.linked).1.1
  | cons x xs => exact (List.isChain_cons_cons.mp ring.linked).1.1

/-- The node after the first one, or the head again. -/
theorem next_first {x : α} (ring : Ring m head (x :: xs)) : m.next x = (xs ++ [head]).head? := by
  obtain ⟨_, rest⟩ := List.isChain_cons_cons.mp ring.linked
  cases xs with
  | nil => exact (List.isChain_cons_cons.mp rest).1.1
  | cons y xs => exact (List.isChain_cons_cons.mp rest).1.1

theorem empty_iff (ring : Ring m head xs) : m.next head = some head ↔ xs = [] := by
  rw [ring.next_head]
  cases xs with
  | nil => simp
  | cons x xs =>
      have other : x ≠ head := fun same => (List.nodup_cons.mp ring.nodup).1 (same ▸ List.mem_cons_self)
      simpa using other

private theorem walk_chain {a : α} {l : List α} (chain : (a :: l).IsChain (Linked m)) {i : Nat}
    (inside : i ≤ l.length) : walk m i a = (a :: l)[i]? := by
  induction l generalizing a i with
  | nil =>
      obtain rfl : i = 0 := Nat.le_zero.mp inside
      rfl
  | cons b l ih =>
      obtain ⟨linked, rest⟩ := List.isChain_cons_cons.mp chain
      cases i with
      | zero => rfl
      | succ i =>
          rw [walk, linked.1, Option.bind_some, ih rest (Nat.le_of_succ_le_succ inside), List.getElem?_cons_succ]

/-- Following `next` from the head visits the nodes in order and comes back to the head. -/
theorem walk_head (ring : Ring m head xs) {i : Nat} (inside : i ≤ xs.length) :
    walk m (i + 1) head = (xs ++ [head])[i]? := by
  have chain : (head :: (xs ++ [head])).IsChain (Linked m) := ring.linked
  have length : i + 1 ≤ (xs ++ [head]).length := by
    rw [List.length_append, List.length_singleton]
    omega
  rw [walk_chain chain length, List.getElem?_cons_succ]

/-- Every node of the ring has a successor there, whose predecessor it is. -/
theorem next_prev (ring : Ring m head xs) {a : α} (mem : a ∈ head :: xs) :
    ∃ b ∈ head :: xs, m.next a = some b ∧ m.prev b = some a := by
  obtain ⟨before, after, split⟩ := List.mem_iff_append.mp mem
  have linked := ring.linked
  cases after with
  | nil =>
      rw [split, List.append_assoc] at linked
      obtain ⟨_, link, _⟩ := List.isChain_append_cons_cons.mp linked
      exact ⟨head, List.mem_cons_self, link⟩
  | cons b after =>
      rw [split, List.append_assoc] at linked
      obtain ⟨_, link, _⟩ := List.isChain_append_cons_cons.mp linked
      exact ⟨b, by rw [split]; simp, link⟩

private theorem exists_last (a : α) (l : List α) : ∃ before last, a :: l = before ++ [last] :=
  ⟨_, _, (List.dropLast_append_getLast (List.cons_ne_nil a l)).symm⟩

/-- Every node of the ring has a predecessor there, whose successor it is. -/
theorem prev_next (ring : Ring m head xs) {b : α} (mem : b ∈ head :: xs) :
    ∃ a ∈ head :: xs, m.prev b = some a ∧ m.next a = some b := by
  have linked := ring.linked
  rcases List.mem_cons.mp mem with rfl | inside
  · obtain ⟨before, last, split⟩ := exists_last b xs
    rw [split, List.append_assoc] at linked
    obtain ⟨_, link, _⟩ := List.isChain_append_cons_cons.mp linked
    exact ⟨last, by rw [split]; simp, link.2, link.1⟩
  · obtain ⟨front, after, splitXs⟩ := List.mem_iff_append.mp inside
    obtain ⟨before, last, split⟩ := exists_last head front
    have whole : head :: xs = before ++ last :: b :: after := by
      rw [splitXs, ← List.cons_append, split, List.append_assoc]
      rfl
    rw [whole, List.append_assoc] at linked
    obtain ⟨_, link, _⟩ := List.isChain_append_cons_cons.mp linked
    exact ⟨last, by rw [whole]; simp, link.2, link.1⟩

/-- The node before the head. -/
theorem prev_head (ring : Ring m head xs) : m.prev head = (head :: xs).getLast? := by
  obtain ⟨before, last, split⟩ := exists_last head xs
  have linked := ring.linked
  rw [split, List.append_assoc] at linked
  obtain ⟨_, link, _⟩ := List.isChain_append_cons_cons.mp linked
  rw [link.2, split, List.getLast?_append, List.getLast?_singleton, Option.some_or]

/-- The ring, from another node on. -/
theorem rotate {front back : List α} {a : α} (ring : Ring m head (front ++ a :: back)) :
    Ring m a (back ++ head :: front) where
  linked := by
    have linked := ring.linked
    have whole : head :: (front ++ a :: back) ++ [head] = (head :: front) ++ a :: (back ++ [head]) := by simp
    rw [whole, List.isChain_split] at linked
    have turned : a :: (back ++ head :: front) ++ [a] = (a :: back) ++ head :: (front ++ [a]) := by simp
    rw [turned, List.isChain_split]
    exact ⟨linked.2, linked.1⟩
  nodup := by
    have moved : (head :: (front ++ a :: back)).Perm (a :: (back ++ head :: front)) :=
      (@List.perm_middle _ a (head :: front) back).trans ((@List.perm_append_comm _ (head :: front) back).cons a)
    exact moved.nodup_iff.mp ring.nodup

/-- The node behind one of the list, or the head. -/
theorem next_of_mem {front back : List α} {a : α} (ring : Ring m head (front ++ a :: back)) :
    m.next a = (back ++ [head]).head? := by
  rw [ring.rotate.next_head]
  cases back with
  | nil => rfl
  | cons b back => rfl

/-- The node in front of one of the list, or the head. -/
theorem prev_of_mem {front back : List α} {a : α} (ring : Ring m head (front ++ a :: back)) :
    m.prev a = (head :: front).getLast? := by
  have split : a :: (back ++ head :: front) = (a :: back) ++ (head :: front) := rfl
  rw [ring.rotate.prev_head, split, List.getLast?_append_of_ne_nil _ (List.cons_ne_nil head front)]

/-! ### What changes it -/

/-- Another memory with the same pointers in the nodes of the ring. -/
theorem congr (ring : Ring m head xs)
    (same : ∀ a ∈ head :: xs, m'.next a = m.next a ∧ m'.prev a = m.prev a) : Ring m' head xs where
  linked := by
    refine ring.linked.imp_of_mem_imp ?_
    intro a b memA memB link
    have inside : ∀ c, c ∈ head :: xs ++ [head] → c ∈ head :: xs := by
      intro c mem
      rcases List.mem_append.mp mem with inside | isHead
      · exact inside
      · rw [List.mem_singleton.mp isHead]
        exact List.mem_cons_self
    exact ⟨(same a (inside a memA)).1.trans link.1, (same b (inside b memB)).2.trans link.2⟩
  nodup := ring.nodup

/-- To put a new node at the end of the list, four pointers are set: those between it and the last node, and those
    between it and the head. -/
theorem insert (ring : Ring m head xs) {new : α} (fresh : new ∉ head :: xs) :
    ∃ last ∈ head :: xs, m.prev head = some last ∧
      ∀ m', Linked m' last new → Linked m' new head → (∀ a, a ≠ last → a ≠ new → m'.next a = m.next a) →
        (∀ b, b ≠ head → b ≠ new → m'.prev b = m.prev b) → Ring m' head (xs ++ [new]) := by
  obtain ⟨before, last, split⟩ := exists_last head xs
  have linked := ring.linked
  have nodup := ring.nodup
  rw [split, List.append_assoc] at linked
  obtain ⟨rest, link, _⟩ := List.isChain_append_cons_cons.mp linked
  have memLast : last ∈ head :: xs := by rw [split]; simp
  refine ⟨last, memLast, link.2, ?_⟩
  intro m' toNew toHead next prev
  refine ⟨?_, ?_⟩
  · rw [← List.cons_append, split, List.append_assoc, List.append_assoc]
    refine List.isChain_append_cons_cons.mpr ⟨?_, toNew, .cons_cons toHead (.singleton _)⟩
    -- the links before the last node: none of them starts in it, and none of them ends in the head
    refine rest.imp_of_mem_tail_imp ?_
    intro a b memA memB old
    rw [← split] at memA memB
    have notHead : b ≠ head := fun same => (List.nodup_cons.mp nodup).1 (same ▸ memB)
    have notLast : a ≠ last := fun same => notHead ((same ▸ old).next_unique link)
    have freshA : a ≠ new := fun same => fresh (same ▸ memA)
    have freshB : b ≠ new := fun same => fresh (same ▸ List.mem_cons_of_mem head memB)
    exact ⟨(next a notLast freshA).trans old.1, (prev b notHead freshB).trans old.2⟩
  · rw [← List.cons_append]
    exact List.nodup_append.mpr ⟨nodup, List.pairwise_singleton _ _, fun a mem b new' same =>
      fresh (by rw [← List.mem_singleton.mp new', ← same]; exact mem)⟩

/-- A new node is put before another one as it is put before the head. -/
theorem insertBefore {front back : List α} (ring : Ring m head (front ++ back)) {new : α}
    (fresh : new ∉ head :: (front ++ back)) {node : α} (place : (back ++ [head]).head? = some node) :
    ∃ last ∈ head :: (front ++ back), m.prev node = some last ∧
      ∀ m', Linked m' last new → Linked m' new node → (∀ a, a ≠ last → a ≠ new → m'.next a = m.next a) →
        (∀ b, b ≠ node → b ≠ new → m'.prev b = m.prev b) → Ring m' head (front ++ new :: back) := by
  cases back with
  | nil =>
      obtain rfl := Option.some.inj place
      rw [List.append_nil] at ring fresh ⊢
      exact ring.insert fresh
  | cons b back =>
      obtain rfl := Option.some.inj place
      have moved : ∀ a : α, a ∈ b :: (back ++ head :: front) ↔ a ∈ head :: (front ++ b :: back) := by
        intro a
        simp only [List.mem_cons, List.mem_append]
        tauto
      obtain ⟨last, mem, prev, linked⟩ := ring.rotate.insert fun listed => fresh ((moved new).mp listed)
      refine ⟨last, (moved last).mp mem, prev, fun m' toNew toNode next prev => ?_⟩
      have inserted := linked m' toNew toNode next prev
      rw [List.append_assoc, List.cons_append] at inserted
      have whole := inserted.rotate
      rwa [List.append_assoc] at whole

/-- To take a node out, its predecessor and its successor are linked. -/
theorem remove {front back : List α} {e : α} (ring : Ring m head (front ++ e :: back)) :
    ∃ p n, m.prev e = some p ∧ m.next e = some n ∧ p ≠ e ∧ n ≠ e ∧
      ∀ m', Linked m' p n → (∀ a, a ≠ p → a ≠ e → m'.next a = m.next a) →
        (∀ b, b ≠ n → b ≠ e → m'.prev b = m.prev b) → Ring m' head (front ++ back) := by
  obtain ⟨before, p, splitFront⟩ := exists_last head front
  obtain ⟨n, after, splitBack⟩ : ∃ n after, back ++ [head] = n :: after := by
    cases back with
    | nil => exact ⟨head, [], rfl⟩
    | cons b back => exact ⟨b, back ++ [head], rfl⟩
  have whole : head :: (front ++ e :: back) ++ [head] = before ++ p :: e :: n :: after := by
    rw [← List.cons_append, splitFront]
    simp only [List.append_assoc, List.cons_append, List.nil_append, splitBack]
  have linked := ring.linked
  rw [whole] at linked
  obtain ⟨first, toE, linked⟩ := List.isChain_append_cons_cons.mp linked
  obtain ⟨fromE, second⟩ := List.isChain_cons_cons.mp linked
  obtain ⟨out, nodup⟩ : e ∉ head :: front ++ back ∧ (head :: front ++ back).Nodup :=
    List.nodup_cons.mp ((@List.perm_middle _ e (head :: front) back).nodup_iff.mp ring.nodup)
  have outFront : e ∉ head :: front := fun mem => out (List.mem_append_left back mem)
  have outBack : e ∉ n :: after := by
    rw [← splitBack]
    intro mem
    rcases List.mem_append.mp mem with inBack | isHead
    · exact out (List.mem_append_right _ inBack)
    · exact outFront (by rw [List.mem_singleton.mp isHead]; exact List.mem_cons_self)
  refine ⟨p, n, toE.2, fromE.1, ?_, ?_, ?_⟩
  · exact fun same => outFront (by rw [splitFront, same]; simp)
  · exact fun same => outBack (by rw [same]; simp)
  · intro m' link next prev
    have kept : ∀ {a b}, a ≠ e → b ≠ e → Linked m a b → Linked m' a b := by
      intro a b notA notB old
      have notP : a ≠ p := fun same => notB ((same ▸ old).next_unique toE)
      have notN : b ≠ n := fun same => notA ((same ▸ old).prev_unique fromE)
      exact ⟨(next a notP notA).trans old.1, (prev b notN notB).trans old.2⟩
    refine ⟨?_, ?_⟩
    · have merged : head :: (front ++ back) ++ [head] = before ++ p :: n :: after := by
        rw [← List.cons_append, splitFront]
        simp only [List.append_assoc, List.cons_append, List.nil_append, splitBack]
      rw [merged]
      refine List.isChain_append_cons_cons.mpr ⟨?_, link, ?_⟩
      · refine first.imp_of_mem_imp fun a b memA memB old => ?_
        rw [← splitFront] at memA memB
        exact kept (fun same => outFront (same ▸ memA)) (fun same => outFront (same ▸ memB)) old
      · refine second.imp_of_mem_imp fun a b memA memB old => ?_
        exact kept (fun same => outBack (same ▸ memA)) (fun same => outBack (same ▸ memB)) old
    · exact nodup

end Ring

end LinkedList
