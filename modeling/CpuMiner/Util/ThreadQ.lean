/-
Module: CpuMiner.Util.ThreadQ
Layer: Utilities
Purpose: The thread queue of util.c in memory: a `struct thread_q` with the head of a list, and the entries on the
  heap. The operations are the parts of the functions between `pthread_mutex_lock` and `pthread_mutex_unlock`, what
  `tq_push` does before it has the mutex, and `tq_free`. An operation that would follow a null pointer gives
  nothing. `Represents` says which queue of values the memory stands for; every operation does to it what the
  abstract operation does, and `tq_free` visits and frees each entry once.
Imports: CpuMiner.Lib.Search, CpuMiner.Threads.Queue, CpuMiner.Util.Elist
Trusted boundary: human-reviewed spec (the transcription of the C code)
Main exports: Node, TqMem, tqNew, pushAlloc, pushLocked, popLocked, freezethaw, tqFree, Represents,
  represents_tqNew, represents_pushLocked, represents_pushRefused, represents_popLocked, tqFree_visits
Open obligations: none
-/
import CpuMiner.Lib.Search
import CpuMiner.Threads.Queue
import CpuMiner.Util.Elist

namespace CpuMiner

open LinkedList
open Function (update)

/-- A pointer to a `struct tq_ent`. -/
abbrev EntAddr := Nat

/-- A `struct list_head`: the one in the queue, or the `q_node` of an entry. -/
inductive Node where
  | head
  | ent (a : EntAddr)
deriving DecidableEq

/-- The queue and its entries. A value is a `void *`, and `none` is `NULL`. -/
structure TqMem (α : Type) where
  links : Links Node
  data : EntAddr → Option α
  allocated : EntAddr → Bool
  frozen : Bool

namespace TqMem

variable {α : Type}

/-! ### Operations -/

/-- `tq_new`, in memory with any contents. -/
def tqNew (m : TqMem α) : TqMem α := { m with links := Elist.initListHead m.links .head, frozen := false }

/-- `tq_push` before it has the mutex, with the entry that `calloc` has given it. -/
def pushAlloc (m : TqMem α) (ent : EntAddr) (data : Option α) : TqMem α :=
  { m with
    data := update m.data ent data
    links := Elist.initListHead m.links (.ent ent)
    allocated := update m.allocated ent true }

/-- `free(ent)` -/
def freeEnt (m : TqMem α) (ent : EntAddr) : TqMem α := { m with allocated := update m.allocated ent false }

/-- `tq_push` with the mutex: the new memory and `rc`. -/
def pushLocked (m : TqMem α) (ent : EntAddr) : Option (TqMem α × Bool) :=
  if m.frozen = false then
    (Elist.listAddTail m.links (.ent ent) .head).map fun links => ({ m with links }, true)
  else some (m.freeEnt ent, false)

/-- `list_empty(&tq->q)` -/
def empty (m : TqMem α) : Bool := Elist.listEmpty m.links .head

/-- `tq_pop` from the label `pop` on: `rval` and the new memory. On an empty list there is no entry. -/
def popLocked (m : TqMem α) : Option (Option α × TqMem α) :=
  match m.links.next .head with
  | some (.ent ent) =>
      let rval := m.data ent
      (Elist.listDel m.links (.ent ent)).map fun links => (rval, { m with links }.freeEnt ent)
  | _ => none

/-- `tq_freezethaw` with the mutex. -/
def freezethaw (m : TqMem α) (frozen : Bool) : TqMem α := { m with frozen }

/-- The variables of the loop of `tq_free`. `freed` is for the proofs. -/
structure FreeLoop (α : Type) where
  mem : TqMem α
  ent : Node
  iter : Node
  freed : List EntAddr

/-- One pass of `list_for_each_entry_safe`: the test, the body, and `pos = n, n = list_entry(n->member.next)`. The
    loop returns at the head, and gives nothing when it would follow a null pointer. -/
def freeBody (s : FreeLoop α) : FreeLoop α ⊕ Option (FreeLoop α) :=
  match s.ent with
  | .head => .inr (some s)
  | .ent ent =>
      match Elist.listDel s.mem.links (.ent ent) with
      | none => .inr none
      | some links =>
          match links.next s.iter with
          | none => .inr none
          | some iter =>
              .inl { mem := { s.mem with links }.freeEnt ent, ent := s.iter, iter, freed := s.freed ++ [ent] }

/-- `tq_free` up to the end of its loop, for at most the given number of passes. -/
def tqFree (m : TqMem α) (passes : Nat) : Option (Option (FreeLoop α)) :=
  match m.links.next .head with
  | none => some none
  | some ent =>
      match m.links.next ent with
      | none => some none
      | some iter => Loop.run freeBody passes { mem := m, ent, iter, freed := [] }

/-! ### The queue in memory -/

/-- The list has these entries, and they hold the values of this queue. -/
structure Represents (m : TqMem α) (ents : List EntAddr) (tq : ThreadQ (Option α)) : Prop where
  ring : Ring m.links .head (ents.map Node.ent)
  data : ents.map m.data = tq.q
  frozen : m.frozen = tq.frozen

/-- The queue of values that a list of these entries is. -/
def view (m : TqMem α) (ents : List EntAddr) : ThreadQ (Option α) := { q := ents.map m.data, frozen := m.frozen }

variable {m : TqMem α} {ents : List EntAddr} {tq : ThreadQ (Option α)}

theorem represents_tqNew (m : TqMem α) : m.tqNew.Represents [] .new where
  ring := Elist.ring_initListHead m.links .head
  data := rfl
  frozen := rfl

theorem Represents.empty_iff (rep : m.Represents ents tq) : m.empty = true ↔ tq.q = [] := by
  rw [empty, Elist.listEmpty_iff rep.ring, ← rep.data, List.map_eq_nil_iff, List.map_eq_nil_iff]

private theorem ent_mem {ents : List EntAddr} {ent : EntAddr} :
    Node.ent ent ∈ Node.head :: ents.map Node.ent ↔ ent ∈ ents := by
  simp

/-- Filling a new entry changes none of the others. -/
theorem links_pushAlloc {ent : EntAddr} (fresh : ent ∉ ents) (data : Option α) {a : Node}
    (mem : a ∈ Node.head :: ents.map Node.ent) :
    (m.pushAlloc ent data).links.next a = m.links.next a ∧ (m.pushAlloc ent data).links.prev a = m.links.prev a := by
  have other : a ≠ .ent ent := by
    rintro rfl
    exact fresh (ent_mem.mp mem)
  simp [pushAlloc, Elist.initListHead, Elist.setNext, Elist.setPrev, other]

theorem data_pushAlloc {ent : EntAddr} (fresh : ent ∉ ents) (data : Option α) {e : EntAddr} (mem : e ∈ ents) :
    (m.pushAlloc ent data).data e = m.data e := by
  refine Function.update_of_ne ?_ ..
  rintro rfl
  exact fresh mem

/-- Exactly one entry is on the list. -/
def single (m : TqMem α) : Prop := m.empty = false ∧ walk m.links 2 .head = some .head

theorem Represents.single_iff (rep : m.Represents ents tq) : m.single ↔ tq.q.length = 1 := by
  have filled : m.empty = false ↔ ents ≠ [] := by
    rw [Ne, ← List.map_eq_nil_iff (f := m.data), rep.data, ← rep.empty_iff, Bool.not_eq_true]
  rw [single, filled, ← rep.data, List.length_map]
  cases ents with
  | nil => simp
  | cons ent rest =>
      have second := rep.ring.walk_head (i := 1) (by simp)
      cases rest with
      | nil => simpa using second
      | cons next rest => simp [second]

/-- An entry that is not on the list can be changed. -/
theorem represents_pushAlloc (rep : m.Represents ents tq) {ent : EntAddr} (fresh : ent ∉ ents)
    (data : Option α) : (m.pushAlloc ent data).Represents ents tq where
  ring := rep.ring.congr fun _ mem => links_pushAlloc fresh data mem
  data := by
    rw [← rep.data]
    exact List.map_congr_left fun _ mem => data_pushAlloc fresh data mem
  frozen := rep.frozen

/-- `tq_push` returns true if the queue is not frozen, and otherwise it only frees its entry. -/
theorem pushLocked_eq_some {mem : TqMem α} {ent : EntAddr} {rc : Bool} (locked : m.pushLocked ent = some (mem, rc)) :
    rc = !m.frozen ∧ (m.frozen = true → mem = m.freeEnt ent) := by
  cases cold : m.frozen with
  | false =>
      rw [pushLocked, if_pos cold] at locked
      obtain ⟨links, _, result⟩ := Option.map_eq_some_iff.mp locked
      exact ⟨(Prod.mk.inj result).2.symm, nofun⟩
  | true =>
      rw [pushLocked, if_neg (by simp [cold])] at locked
      obtain ⟨rfl, rfl⟩ := Prod.mk.inj (Option.some.inj locked)
      exact ⟨rfl, fun _ => rfl⟩

/-- On a queue that is not frozen, `tq_push` puts its entry at the end and returns true. -/
theorem represents_pushLocked (rep : m.Represents ents tq) {ent : EntAddr} (fresh : ent ∉ ents)
    {tq' : ThreadQ (Option α)} (pushed : tq.push (m.data ent) = some tq') :
    ∃ links, m.pushLocked ent = some ({ m with links }, true) ∧
      { m with links }.Represents (ents ++ [ent]) tq' := by
  obtain ⟨thawed, rfl⟩ := ThreadQ.push_eq_some.mp pushed
  obtain ⟨links, added, ring⟩ := Elist.ring_listAddTail rep.ring (mt ent_mem.mp fresh)
  refine ⟨links, ?_, ?_, ?_, rep.frozen⟩
  · rw [pushLocked, if_pos (rep.frozen.trans thawed), added, Option.map_some]
  · rw [List.map_append]
    exact ring
  · rw [List.map_append, rep.data]
    rfl

/-- On a frozen queue, `tq_push` frees its entry and returns false. -/
theorem represents_pushRefused (rep : m.Represents ents tq) (ent : EntAddr) {data : Option α}
    (refused : tq.push data = none) :
    m.pushLocked ent = some (m.freeEnt ent, false) ∧ (m.freeEnt ent).Represents ents tq := by
  have cold := ThreadQ.push_eq_none.mp refused
  refine ⟨?_, rep.ring, rep.data, rep.frozen⟩
  rw [pushLocked, if_neg (by simp [rep.frozen, cold])]

/-- `tq_pop` takes the first entry and returns its value. -/
theorem represents_popLocked (rep : m.Represents ents tq) {data : Option α} {tq' : ThreadQ (Option α)}
    (popped : tq.pop = some (data, tq')) :
    ∃ ent rest links, ents = ent :: rest ∧ m.popLocked = some (data, { m with links }.freeEnt ent) ∧
      ({ m with links }.freeEnt ent).Represents rest tq' := by
  obtain ⟨values, same⟩ := ThreadQ.pop_eq_some.mp popped
  have held := rep.data
  rw [values] at held
  obtain ⟨ent, rest, rfl, first, later⟩ := List.map_eq_cons_iff.mp held
  have ring : Ring m.links .head ([] ++ Node.ent ent :: rest.map Node.ent) := rep.ring
  obtain ⟨links, deleted, ring'⟩ := Elist.ring_listDel ring
  have next : m.links.next .head = some (.ent ent) := ring.next_head
  refine ⟨ent, rest, links, rfl, ?_, ring', later, rep.frozen.trans same.symm⟩
  simp only [popLocked, next, deleted, Option.map_some, first]

/-- What `tq_push` leaves. -/
theorem Represents.pushed (rep : m.Represents ents tq) {ent : EntAddr} (fresh : ent ∉ ents) {mem : TqMem α}
    {rc : Bool} (locked : m.pushLocked ent = some (mem, rc)) :
    mem.frozen = m.frozen ∧ (m.frozen = false → mem.empty = false) := by
  cases accepts : tq.push (m.data ent) with
  | some tq' =>
      obtain ⟨links, linked, rep'⟩ := represents_pushLocked rep fresh accepts
      obtain ⟨rfl, _⟩ := Prod.mk.inj (Option.some.inj (linked.symm.trans locked))
      refine ⟨rfl, fun _ => ?_⟩
      rw [← Bool.not_eq_true, rep'.empty_iff, ← rep'.data]
      simp
  | none =>
      obtain ⟨refused, _⟩ := represents_pushRefused rep ent accepts
      obtain ⟨rfl, _⟩ := Prod.mk.inj (Option.some.inj (refused.symm.trans locked))
      refine ⟨rfl, fun thawed => ?_⟩
      have cold := rep.frozen.trans (ThreadQ.push_eq_none.mp accepts)
      exact absurd thawed (by simp [cold])

/-- What `tq_pop` takes and leaves. -/
theorem Represents.popped (rep : m.Represents ents tq) {rval : Option α} {mem : TqMem α}
    (filled : m.empty = false) (taken : m.popLocked = some (rval, mem)) :
    rval ∈ tq.q ∧ mem.frozen = m.frozen ∧ (mem.empty = true ↔ m.single) := by
  cases first : tq.pop with
  | none =>
      rw [rep.empty_iff.mpr (ThreadQ.pop_eq_none.mp first)] at filled
      cases filled
  | some popped =>
      obtain ⟨data, tq'⟩ := popped
      obtain ⟨_, _, links, _, popped, rep'⟩ := represents_popLocked rep first
      obtain ⟨rfl, rfl⟩ := Prod.mk.inj (Option.some.inj (popped.symm.trans taken))
      obtain ⟨values, _⟩ := ThreadQ.pop_eq_some.mp first
      refine ⟨by simp [values], rfl, ?_⟩
      rw [rep'.empty_iff, rep.single_iff, values]
      simp

theorem represents_freezethaw (rep : m.Represents ents tq) (frozen : Bool) :
    (m.freezethaw frozen).Represents ents { tq with frozen } := ⟨rep.ring, rep.data, rfl⟩

/-! ### `tq_free` -/

/-- The loop is at the first node of what is left of the list. -/
private theorem freeBody_run {ents : List EntAddr} {s : FreeLoop α}
    (ring : Ring s.mem.links .head (ents.map Node.ent)) (here : s.mem.links.next .head = some s.ent)
    (next : s.mem.links.next s.ent = some s.iter) :
    ∃ passes final, Loop.run freeBody passes s = some (some final) ∧ final.freed = s.freed ++ ents ∧
      Ring final.mem.links .head [] ∧
      ∀ e, final.mem.allocated e = if e ∈ ents then false else s.mem.allocated e := by
  induction ents generalizing s with
  | nil =>
      have atHead : s.ent = .head := Option.some.inj (here.symm.trans ring.next_head)
      refine ⟨1, s, Loop.run_inr 0 ?_, (List.append_nil _).symm, ring, fun _ => rfl⟩
      simp only [freeBody, atHead]
  | cons ent rest ih =>
      have atEnt : s.ent = .ent ent := Option.some.inj (here.symm.trans ring.next_head)
      have ring' : Ring s.mem.links .head ([] ++ Node.ent ent :: rest.map Node.ent) := ring
      obtain ⟨links, deleted, left⟩ := Elist.ring_listDel ring'
      -- the saved pointer is what the head now points to
      have saved : links.next .head = some s.iter := by
        rw [left.next_head, ← next, atEnt]
        exact (Ring.next_first ring).symm
      have inRing : s.iter ∈ Node.head :: rest.map Node.ent := by
        obtain ⟨b, mem, following, _⟩ := left.next_prev List.mem_cons_self
        rw [saved] at following
        rw [Option.some.inj following]
        exact mem
      obtain ⟨iter, _, following, _⟩ := left.next_prev inRing
      have body : freeBody s = .inl { mem := { s.mem with links }.freeEnt ent, ent := s.iter, iter,
                                      freed := s.freed ++ [ent] } := by
        have following : links.next s.iter = some iter := following
        simp only [freeBody, atEnt, deleted, following]
      obtain ⟨passes, final, run, freed, done, allocated⟩ := @ih
        { mem := { s.mem with links }.freeEnt ent, ent := s.iter, iter, freed := s.freed ++ [ent] }
        left saved following
      refine ⟨passes + 1, final, by rw [Loop.run_inl _ body, run], ?_, done, ?_⟩
      · rw [freed, List.append_assoc]
        rfl
      · intro e
        rw [allocated e]
        by_cases gone : e = ent
        · simp [gone, freeEnt]
        · simp [gone, freeEnt]

/-- `tq_free` on a list visits each of its entries once, in order, unlinks and frees it, and stops. -/
theorem tqFree_visits (ring : Ring m.links .head (ents.map Node.ent)) :
    ∃ passes final, m.tqFree passes = some (some final) ∧ final.freed = ents ∧
      Ring final.mem.links .head [] ∧
      ∀ e, final.mem.allocated e = if e ∈ ents then false else m.allocated e := by
  obtain ⟨first, inRing, here, _⟩ := ring.next_prev List.mem_cons_self
  obtain ⟨iter, _, next, _⟩ := ring.next_prev inRing
  obtain ⟨passes, final, run, freed, done, allocated⟩ :=
    @freeBody_run α ents { mem := m, ent := first, iter, freed := [] } ring here next
  refine ⟨passes, final, ?_, freed, done, allocated⟩
  simp only [tqFree, here, next, run]

end TqMem

end CpuMiner
