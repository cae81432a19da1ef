/-
Module: CpuMiner.Util.Elist
Layer: Utilities
Purpose: The list operations of elist.h that the thread queues use, with the stores of the source in their order. An
  operation that would follow a null pointer gives nothing. On a ring, `list_add_tail` puts a node at the end and
  `list_del` takes a node out, and neither follows a null pointer.
Imports: CpuMiner.Lib.LinkedList, Mathlib.Logic.Function.Basic
Trusted boundary: human-reviewed spec (the transcription of the C code)
Main exports: initListHead, listAddBetween, listAddTail, listDelBetween, listDel, listEmpty,
  ring_initListHead, ring_listAddTail, ring_listDel, listEmpty_iff
Open obligations: none
-/
import CpuMiner.Lib.LinkedList
import Mathlib.Logic.Function.Basic

namespace CpuMiner.Elist

open LinkedList
open Function (update)

variable {α : Type} [DecidableEq α]

/-! ### Operations -/

def setNext (m : Links α) (node : α) (ptr : Option α) : Links α := { m with next := update m.next node ptr }

def setPrev (m : Links α) (node : α) (ptr : Option α) : Links α := { m with prev := update m.prev node ptr }

/-- `INIT_LIST_HEAD` -/
def initListHead (m : Links α) (ptr : α) : Links α := setPrev (setNext m ptr (some ptr)) ptr (some ptr)

/-- `__list_add` -/
def listAddBetween (m : Links α) (new prev next : α) : Links α :=
  let m := setPrev m next (some new)
  let m := setNext m new (some next)
  let m := setPrev m new (some prev)
  setNext m prev (some new)

/-- `list_add_tail` -/
def listAddTail (m : Links α) (new head : α) : Option (Links α) :=
  (m.prev head).map fun prev => listAddBetween m new prev head

/-- `__list_del` -/
def listDelBetween (m : Links α) (prev next : α) : Links α :=
  let m := setPrev m next (some prev)
  setNext m prev (some next)

/-- `list_del` -/
def listDel (m : Links α) (entry : α) : Option (Links α) :=
  match m.prev entry, m.next entry with
  | some prev, some next =>
      let m := listDelBetween m prev next
      let m := setNext m entry none
      some (setPrev m entry none)
  | _, _ => none

/-- `list_empty` -/
def listEmpty (m : Links α) (head : α) : Bool := m.next head = some head

/-! ### Rings -/

theorem ring_initListHead (m : Links α) (ptr : α) : Ring (initListHead m ptr) ptr [] :=
  .init (Function.update_self ..) (Function.update_self ..)

variable {m : Links α} {head : α} {xs : List α}

theorem listEmpty_iff (ring : Ring m head xs) : listEmpty m head = true ↔ xs = [] := by
  rw [listEmpty, decide_eq_true_eq, ring.empty_iff]

/-- `list_add_tail` puts a new node at the end. -/
theorem ring_listAddTail (ring : Ring m head xs) {new : α} (fresh : new ∉ head :: xs) :
    ∃ m', listAddTail m new head = some m' ∧ Ring m' head (xs ++ [new]) := by
  obtain ⟨last, memLast, prev, linked⟩ := ring.insert fresh
  have notLast : last ≠ new := fun same => fresh (same ▸ memLast)
  have notHead : head ≠ new := fun same => fresh (same ▸ List.mem_cons_self)
  refine ⟨listAddBetween m new last head, by rw [listAddTail, prev, Option.map_some], linked _ ?_ ?_ ?_ ?_⟩
  · simp [Linked, listAddBetween, setNext, setPrev]
  · simp [Linked, listAddBetween, setNext, setPrev, notHead, notLast.symm]
  · intro a notLast' new'
    simp [listAddBetween, setNext, setPrev, notLast', new']
  · intro b notHead' new'
    simp [listAddBetween, setNext, setPrev, notHead', new']

/-- `list_del` takes a node out. -/
theorem ring_listDel {front back : List α} {entry : α} (ring : Ring m head (front ++ entry :: back)) :
    ∃ m', listDel m entry = some m' ∧ Ring m' head (front ++ back) := by
  obtain ⟨p, n, prev, next, notP, notN, linked⟩ := ring.remove
  have deleted : listDel m entry = some (setPrev (setNext (listDelBetween m p n) entry none) entry none) := by
    simp only [listDel, prev, next]
  refine ⟨_, deleted, linked _ ?_ ?_ ?_⟩
  · simp [Linked, listDelBetween, setNext, setPrev, notP, notN]
  · intro a notP' notE
    simp [listDelBetween, setNext, setPrev, notP', notE]
  · intro b notN' notE
    simp [listDelBetween, setNext, setPrev, notN', notE]

end CpuMiner.Elist
