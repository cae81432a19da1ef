/-
Module: CpuMiner.Threads.Queue
Layer: Threads
Purpose: The thread queue of util.c. Every function holds the mutex of its queue from beginning to end, but for the
  wait in `tq_pop`, so `tq_push` and `tq_freeze` are one step each and `tq_pop` is two: it takes an entry or falls
  asleep, and when it wakes up it takes an entry or gives up. It does not look at `frozen`.
Imports: none
Trusted boundary: human-reviewed spec (the transcription of the C code)
Main exports: ThreadQ, ThreadQ.push, ThreadQ.pop, ThreadQ.freeze, TqPop, TqPop.signal
Open obligations: none
-/

namespace CpuMiner

/-- `struct thread_q`. -/
structure ThreadQ (α : Type) where
  q : List α
  frozen : Bool

namespace ThreadQ

variable {α : Type}

/-- `tq_new`. -/
def new : ThreadQ α := { q := [], frozen := false }

/-- `tq_push`, once its entry is allocated. On a frozen queue it returns false. -/
def push (tq : ThreadQ α) (data : α) : Option (ThreadQ α) :=
  if tq.frozen then none else some { tq with q := tq.q ++ [data] }

/-- The part of `tq_pop` that takes the first entry; there is nothing to take from an empty list. -/
def pop (tq : ThreadQ α) : Option (α × ThreadQ α) :=
  match tq.q with
  | [] => none
  | data :: q => some (data, { tq with q := q })

/-- `tq_freeze`. -/
def freeze (tq : ThreadQ α) : ThreadQ α := { tq with frozen := true }

theorem push_eq_some {tq tq' : ThreadQ α} {data : α} :
    tq.push data = some tq' ↔ tq.frozen = false ∧ tq' = { tq with q := tq.q ++ [data] } := by
  cases frozen : tq.frozen with
  | false => simp [push, frozen, eq_comm]
  | true => simp [push, frozen]

theorem push_eq_none {tq : ThreadQ α} {data : α} : tq.push data = none ↔ tq.frozen = true := by
  simp [push]

theorem pop_eq_none {tq : ThreadQ α} : tq.pop = none ↔ tq.q = [] := by
  obtain ⟨q, frozen⟩ := tq
  cases q with
  | nil => simp [pop]
  | cons head tail => simp [pop]

theorem pop_eq_some {tq tq' : ThreadQ α} {data : α} :
    tq.pop = some (data, tq') ↔ tq.q = data :: tq'.q ∧ tq'.frozen = tq.frozen := by
  obtain ⟨q, frozen⟩ := tq
  obtain ⟨q', frozen'⟩ := tq'
  cases q with
  | nil => simp [pop]
  | cons head tail => simp [pop, and_assoc, eq_comm]

end ThreadQ

/-- Where a thread is in `tq_pop`: before it has the mutex for the first time, or in `pthread_cond_wait`. A signal
    to a thread that does not wait is lost; a thread that waits may also wake up without one. -/
inductive TqPop where
  | entering
  | asleep (signalled : Bool)
deriving DecidableEq

/-- `pthread_cond_signal`. -/
def TqPop.signal : TqPop → TqPop
  | .entering => .entering
  | .asleep _ => .asleep true

end CpuMiner
