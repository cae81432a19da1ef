/-
Module: CpuMiner.Util.ThreadQRun
Layer: Utilities
Purpose: Any number of threads that call `tq_push`, `tq_pop`, `tq_freeze` and `tq_thaw` on one queue. Each critical
  section is one step; a wait on the condition variable ends one and begins another, and a thread that waits may
  wake up at any time. `FifoStep` is what a queue of values does, and every step of the memory does that
  (`Sound.step`); so the list is well formed in every state reached, and values come out as they went in.
Imports: CpuMiner.Lib.Ownership, CpuMiner.Lib.Transition, CpuMiner.Util.ThreadQ
Trusted boundary: human-reviewed spec (the transcription of the C code)
Main exports: Tq.Pc, Tq.Event, Tq.State, Tq.Signal, Tq.Step, Tq.Reachable, Tq.FifoStep, Tq.Sound, Tq.Sound.step,
  Tq.QueueSound, Tq.queue_sound, Tq.null_not_returned
Open obligations: none
-/
import CpuMiner.Lib.Ownership
import CpuMiner.Lib.Transition
import CpuMiner.Util.ThreadQ

namespace CpuMiner.Tq

open LinkedList
open Function (update)

variable {τ α : Type}

/-! ### Threads -/

/-- Where a thread is: in none of the functions, in `tq_push` with its entry and before it has the mutex, or in
    `tq_pop` in `pthread_cond_timedwait` or `pthread_cond_wait`, perhaps with a signal. -/
inductive Pc (α : Type) where
  | idle
  | pushing (ent : EntAddr) (data : Option α)
  | waiting (timed signalled : Bool)

/-- A return of `tq_push` with `rc`, or of `tq_pop` with the value of the entry it has taken, if it has taken one, and
    with `frozen` as it is then. -/
inductive Event (τ α : Type) where
  | push (thr : τ) (data : Option α) (rc : Bool)
  | pop (thr : τ) (timed : Bool) (entry : Option (Option α)) (frozen : Bool)

namespace Event

/-- The value of a push that returned true. -/
def accepted? : Event τ α → Option (Option α)
  | .push _ data true => some data
  | _ => none

/-- The value of the entry that a pop has taken. -/
def taken? : Event τ α → Option (Option α)
  | .pop _ _ entry _ => entry
  | _ => none

/-- What a pop has returned, if it is not `NULL`. -/
def returned? : Event τ α → Option α
  | .pop _ _ entry _ => entry.join
  | _ => none

end Event

/-- The values of the pushes that returned true, in order. -/
def accepted (log : List (Event τ α)) : List (Option α) := log.filterMap Event.accepted?

/-- The values of the entries that were taken, in order. -/
def taken (log : List (Event τ α)) : List (Option α) := log.filterMap Event.taken?

/-- The values other than `NULL` that pops have returned, in order. -/
def returned (log : List (Event τ α)) : List α := log.filterMap Event.returned?

/-- The queue in memory, the threads, and the returns so far in the order of their critical sections. -/
structure State (τ α : Type) where
  mem : TqMem α
  thread : τ → Pc α
  log : List (Event τ α)

/-- A queue that comes from `tq_new`. -/
structure Init (s : State τ α) : Prop where
  mem : ∃ m : TqMem α, s.mem = m.tqNew ∧ ∀ ent, m.allocated ent = false
  thread : ∀ t, s.thread t = .idle
  log : s.log = []

variable [DecidableEq τ]

/-- `pthread_cond_signal`: one of the threads that wait without a signal gets it, if there is one. That more than one
    may wake up is part of the steps of these threads. -/
inductive Signal (threads : τ → Pc α) : (τ → Pc α) → Prop where
  | nobody (awake : ∀ t timed, threads t ≠ .waiting timed false) : Signal threads threads
  | wakes (t : τ) (timed : Bool) (asleep : threads t = .waiting timed false) :
      Signal threads (update threads t (.waiting timed true))

inductive Action (τ α : Type) where
  | alloc (t : τ) (data : Option α)
  | push (t : τ)
  | pop (t : τ) (timed : Bool)
  | wake (t : τ)
  | timeout (t : τ)
  | freezethaw (t : τ) (frozen : Bool)

@[simp] def State.at (s : State τ α) (t : τ) (pc : Pc α) : State τ α := { s with thread := update s.thread t pc }

@[simp] def State.returns (s : State τ α) (event : Event τ α) : State τ α := { s with log := s.log ++ [event] }

inductive Step (s : State τ α) : Action τ α → State τ α → Prop where
  | allocFails (t : τ) (data : Option α) (pc : s.thread t = .idle) :
      Step s (.alloc t data) (s.returns (.push t data false))
  | alloc (t : τ) (data : Option α) (ent : EntAddr) (pc : s.thread t = .idle)
      (fresh : s.mem.allocated ent = false) :
      Step s (.alloc t data) { s.at t (.pushing ent data) with mem := s.mem.pushAlloc ent data }
  | push (t : τ) (ent : EntAddr) (data : Option α) (mem : TqMem α) (rc : Bool) (thread : τ → Pc α)
      (pc : s.thread t = .pushing ent data) (locked : s.mem.pushLocked ent = some (mem, rc))
      (signal : Signal (s.at t .idle).thread thread) :
      Step s (.push t) { s.returns (.push t data rc) with mem, thread }
  | popTake (t : τ) (timed : Bool) (rval : Option α) (mem : TqMem α) (pc : s.thread t = .idle)
      (filled : s.mem.empty = false) (taken : s.mem.popLocked = some (rval, mem)) :
      Step s (.pop t timed) { s.returns (.pop t timed (some rval) s.mem.frozen) with mem }
  | popSleep (t : τ) (timed : Bool) (pc : s.thread t = .idle) (empty : s.mem.empty = true) :
      Step s (.pop t timed) (s.at t (.waiting timed false))
  | wakeTake (t : τ) (timed signalled : Bool) (rval : Option α) (mem : TqMem α)
      (pc : s.thread t = .waiting timed signalled) (filled : s.mem.empty = false)
      (taken : s.mem.popLocked = some (rval, mem)) :
      Step s (.wake t) { (s.at t .idle).returns (.pop t timed (some rval) s.mem.frozen) with mem }
  | wakeEmpty (t : τ) (timed signalled : Bool) (pc : s.thread t = .waiting timed signalled)
      (empty : s.mem.empty = true) :
      Step s (.wake t) ((s.at t .idle).returns (.pop t timed none s.mem.frozen))
  | timeout (t : τ) (signalled : Bool) (pc : s.thread t = .waiting true signalled) :
      Step s (.timeout t) ((s.at t .idle).returns (.pop t true none s.mem.frozen))
  | freezethaw (t : τ) (frozen : Bool) (thread : τ → Pc α) (pc : s.thread t = .idle)
      (signal : Signal s.thread thread) :
      Step s (.freezethaw t frozen) { s with mem := s.mem.freezethaw frozen, thread }

/-- The threads can come to this state by steps that are allowed. -/
def Reachable (allowed : State τ α → Action τ α → Prop) (s : State τ α) : Prop :=
  Transition.Reachable Init Step allowed s

/-! ### The queue of values -/

/-- What a step does to a queue of values, and which returns it logs. -/
inductive FifoStep (tq : ThreadQ (Option α)) : List (Event τ α) → ThreadQ (Option α) → Prop where
  | silent : FifoStep tq [] tq
  | pushed (t : τ) (data : Option α) (tq' : ThreadQ (Option α)) (accepts : tq.push data = some tq') :
      FifoStep tq [.push t data true] tq'
  | refused (t : τ) (data : Option α) : FifoStep tq [.push t data false] tq
  | popped (t : τ) (timed : Bool) (data : Option α) (tq' : ThreadQ (Option α))
      (first : tq.pop = some (data, tq')) : FifoStep tq [.pop t timed (some data) tq.frozen] tq'
  | nothing (t : τ) (timed : Bool) : FifoStep tq [.pop t timed none tq.frozen] tq
  | frozen (frozen : Bool) : FifoStep tq [] { tq with frozen }

omit [DecidableEq τ] in
/-- What was taken and what is still there is what was accepted. -/
theorem FifoStep.account {tq tq' : ThreadQ (Option α)} {log events : List (Event τ α)}
    (step : FifoStep tq events tq') (balanced : taken log ++ tq.q = accepted log) :
    taken (log ++ events) ++ tq'.q = accepted (log ++ events) := by
  have split : accepted (log ++ events) = accepted log ++ accepted events := List.filterMap_append
  have splitTaken : taken (log ++ events) = taken log ++ taken events := List.filterMap_append
  rw [split, splitTaken, ← balanced]
  cases step with
  | silent | frozen => simp [taken, accepted]
  | refused t data =>
      have none : taken [Event.push t data false] = [] ∧ accepted [Event.push t data false] = [] := ⟨rfl, rfl⟩
      simp [none]
  | nothing t timed =>
      have none : taken [Event.pop t timed (none : Option (Option α)) tq.frozen] = [] ∧
          accepted [Event.pop t timed (none : Option (Option α)) tq.frozen] = [] := ⟨rfl, rfl⟩
      simp [none]
  | pushed t data tq' accepts =>
      obtain ⟨_, rfl⟩ := ThreadQ.push_eq_some.mp accepts
      simp [taken, accepted, Event.taken?, Event.accepted?]
  | popped t timed data tq' first =>
      obtain ⟨values, _⟩ := ThreadQ.pop_eq_some.mp first
      simp [taken, accepted, Event.taken?, Event.accepted?, values]

/-! ### The memory does what the queue does -/

/-- An entry and the value in it. -/
abbrev Cell (α : Type) := EntAddr × Option α

/-- Who has which entries: the queue those on its list, and a thread in `tq_push` its new one. -/
def held (cells : List (Cell α)) (thread : τ → Pc α) : Option τ → List (Ownership.Block EntAddr (Option α))
  | none => cells.map fun cell => (cell.1, some cell.2)
  | some t =>
      match thread t with
      | .pushing ent data => [(ent, some data)]
      | _ => []

/-- The list has these entries with these values, it represents the queue of the values, and every entry that is
    allocated is on the list or belongs to one thread. -/
structure Sound (s : State τ α) (cells : List (Cell α)) (tq : ThreadQ (Option α)) : Prop where
  rep : s.mem.Represents (cells.map Prod.fst) tq
  values : cells.map Prod.snd = tq.q
  owned : Ownership.Owned (held cells s.thread) s.mem.allocated s.mem.data

omit [DecidableEq τ] in
theorem Init.sound {s : State τ α} (init : Init s) : Sound s [] .new := by
  obtain ⟨m, mem, free⟩ := init.mem
  refine ⟨by rw [mem]; exact m.represents_tqNew, rfl, ?_⟩
  rw [mem]
  refine Ownership.Owned.init ?_ free
  intro h
  cases h with
  | none => rfl
  | some t => simp only [held, init.thread t]

omit [DecidableEq τ] in
theorem held_eq {cells : List (Cell α)} {thread thread' : τ → Pc α}
    (same : ∀ t ent data, thread' t = .pushing ent data ↔ thread t = .pushing ent data) (h : Option τ) :
    held cells thread' h = held cells thread h := by
  cases h with
  | none => rfl
  | some t =>
      have here := same t
      cases before : thread t with
      | pushing ent data => simp only [held, before, (here ent data).mpr before]
      | idle | waiting =>
          cases after : thread' t with
          | pushing ent data => exact absurd ((here ent data).mp after) (by simp [before])
          | idle | waiting => simp only [held, before, after]

/-- A signal moves no thread in or out of `tq_push`. -/
theorem Signal.pushing_iff {threads threads' : τ → Pc α} (signal : Signal threads threads') (t : τ)
    (ent : EntAddr) (data : Option α) : threads' t = .pushing ent data ↔ threads t = .pushing ent data := by
  cases signal with
  | nobody _ => exact Iff.rfl
  | wakes u timed asleep =>
      by_cases same : t = u
      · subst same
        rw [Function.update_self, asleep]
        simp
      · rw [Function.update_of_ne same]

variable {s s' : State τ α} {cells : List (Cell α)} {tq : ThreadQ (Option α)}

omit [DecidableEq τ] in
/-- The entry of a thread in `tq_push` is not on the list. -/
theorem Sound.fresh (sound : Sound s cells tq) {t : τ} {ent : EntAddr} {data : Option α}
    (pc : s.thread t = .pushing ent data) : ent ∉ cells.map Prod.fst := by
  intro linked
  obtain ⟨⟨ent, value⟩, mem, rfl⟩ := List.mem_map.mp linked
  have mine : (ent, some data) ∈ held cells s.thread (some t) := by simp [held, pc]
  have listed : (ent, some value) ∈ held cells s.thread none := List.mem_map_of_mem mem
  exact absurd (sound.owned.holder_unique mine listed rfl) nofun

omit [DecidableEq τ] in
theorem Sound.data_pushing (sound : Sound s cells tq) {t : τ} {ent : EntAddr} {data : Option α}
    (pc : s.thread t = .pushing ent data) : s.mem.data ent = data := by
  have mine : (ent, some data) ∈ held cells s.thread (some t) := by simp [held, pc]
  exact sound.owned.content mine

omit [DecidableEq τ] in
/-- `calloc` gives an entry that is not on the list. -/
theorem Sound.fresh_alloc (sound : Sound s cells tq) {ent : EntAddr} (free : s.mem.allocated ent = false) :
    ent ∉ cells.map Prod.fst := by
  intro linked
  obtain ⟨⟨ent, value⟩, mem, rfl⟩ := List.mem_map.mp linked
  have listed : (ent, some value) ∈ held cells s.thread none := List.mem_map_of_mem mem
  have live := sound.owned.live_of_held listed
  rw [free] at live
  cases live

/-- The step of a thread that holds no entry moves no entry. -/
private theorem held_idle {thread : τ → Pc α} {t : τ} {pc : Pc α}
    (before : ∀ ent data, thread t ≠ .pushing ent data) (after : ∀ ent data, pc ≠ .pushing ent data)
    (h : Option τ) : held cells (update thread t pc) h = held cells thread h := by
  refine held_eq ?_ h
  intro u ent data
  by_cases same : u = t
  · subst same
    rw [Function.update_self]
    exact ⟨fun pushing => absurd pushing (after ent data), fun pushing => absurd pushing (before ent data)⟩
  · rw [Function.update_of_ne same]

private theorem held_other {cells' : List (Cell α)} {thread : τ → Pc α} {t : τ} {pc : Pc α} (h : Option τ)
    (other : h ≠ some t) (listed : h ≠ none) :
    held cells' (update thread t pc) h = held cells thread h := by
  cases h with
  | none => exact absurd rfl listed
  | some u =>
      have ne : u ≠ t := fun same => other (congrArg some same)
      simp only [held, Function.update_of_ne ne]

/-- A thread gets a new entry. -/
private theorem Sound.alloc (sound : Sound s cells tq) {t : τ} {data : Option α} {ent : EntAddr}
    (pc : s.thread t = .idle) (free : s.mem.allocated ent = false) :
    Sound { s.at t (.pushing ent data) with mem := s.mem.pushAlloc ent data } cells tq where
  rep := TqMem.represents_pushAlloc sound.rep (sound.fresh_alloc free) data
  values := sound.values
  owned := by
    refine sound.owned.allocate (some t) (c := some data) free (fun _ same => Option.some.inj same) ?_ ?_
    · simp [held, pc]
    · intro h other
      cases h with
      | none => rfl
      | some u => exact held_other (some u) other nofun

/-- A thread in `tq_push` gets the mutex: its entry goes to the list, or it is freed. -/
private theorem Sound.push (sound : Sound s cells tq) {t : τ} {ent : EntAddr} {data : Option α}
    {mem : TqMem α} {rc : Bool} {thread : τ → Pc α} (pc : s.thread t = .pushing ent data)
    (locked : s.mem.pushLocked ent = some (mem, rc)) (signal : Signal (s.at t .idle).thread thread) :
    ∃ cells' tq', FifoStep tq [.push t data rc] tq' ∧
      Sound { s.returns (.push t data rc) with mem, thread } cells' tq' := by
  have unmoved : ∀ cells' h, held cells' thread h = held cells' (update s.thread t .idle) h :=
    fun cells' => held_eq signal.pushing_iff
  cases accepts : tq.push data with
  | some tq' =>
      have pushed := accepts
      rw [← sound.data_pushing pc] at pushed
      obtain ⟨links, linked, rep⟩ := TqMem.represents_pushLocked sound.rep (sound.fresh pc) pushed
      obtain ⟨rfl, rfl⟩ := Prod.mk.inj (Option.some.inj (linked.symm.trans locked))
      refine ⟨cells ++ [(ent, data)], tq', .pushed t data tq' accepts, ?_, ?_, ?_⟩
      · rw [List.map_append]
        exact rep
      · obtain ⟨_, rfl⟩ := ThreadQ.push_eq_some.mp accepts
        rw [List.map_append, sound.values]
        rfl
      · refine Ownership.Owned.same ?_ (unmoved _)
        refine sound.owned.transfer (some t) none nofun (p := (ent, some data)) ?_ ?_ ?_
        · simp [held, pc]
        · simp only [held, List.map_append]
          exact List.perm_append_singleton ..
        · intro h other elsewhere
          exact held_other h other elsewhere
  | none =>
      obtain ⟨refused, rep⟩ := TqMem.represents_pushRefused sound.rep ent accepts
      obtain ⟨rfl, rfl⟩ := Prod.mk.inj (Option.some.inj (refused.symm.trans locked))
      refine ⟨cells, tq, .refused t data, rep, sound.values, ?_⟩
      refine Ownership.Owned.same ?_ (unmoved _)
      refine sound.owned.release (some t) (c := some data) ?_ ?_
      · simp [held, pc]
      · intro h other
        cases h with
        | none => rfl
        | some u => exact held_other (some u) other nofun

/-- A thread in `tq_pop` finds an entry. -/
private theorem Sound.take (sound : Sound s cells tq) (t : τ) (timed : Bool) {rval : Option α} {mem : TqMem α}
    {thread : τ → Pc α} (filled : s.mem.empty = false) (taken : s.mem.popLocked = some (rval, mem))
    (unmoved : ∀ cells' h, held cells' thread h = held cells' s.thread h) :
    ∃ cells' tq', FifoStep tq [.pop t timed (some rval) s.mem.frozen] tq' ∧
      Sound { s.returns (.pop t timed (some rval) s.mem.frozen) with mem, thread } cells' tq' := by
  cases first : tq.pop with
  | none =>
      rw [sound.rep.empty_iff.mpr (ThreadQ.pop_eq_none.mp first)] at filled
      cases filled
  | some popped =>
      obtain ⟨data, tq'⟩ := popped
      obtain ⟨ent, rest, links, entries, popped, rep⟩ := TqMem.represents_popLocked sound.rep first
      obtain ⟨rfl, rfl⟩ := Prod.mk.inj (Option.some.inj (popped.symm.trans taken))
      obtain ⟨⟨ent, value⟩, cells', rfl, rfl, rfl⟩ := List.map_eq_cons_iff.mp entries
      obtain ⟨values, _⟩ := ThreadQ.pop_eq_some.mp first
      have both := sound.values.trans values
      refine ⟨cells', tq', ?_, rep, (List.cons.inj both).2, ?_⟩
      · rw [sound.rep.frozen]
        exact .popped t timed data tq' first
      · refine Ownership.Owned.same ?_ (unmoved _)
        refine sound.owned.release none (c := some value) (.refl _) ?_
        intro h other
        cases h with
        | none => exact absurd rfl other
        | some u => rfl

/-- Every step does to the list what a queue of values does. -/
theorem Sound.step {a : Action τ α} (sound : Sound s cells tq) (step : Step s a s') :
    ∃ events cells' tq', s'.log = s.log ++ events ∧ FifoStep tq events tq' ∧ Sound s' cells' tq' := by
  have frozen := sound.rep.frozen
  cases step with
  | allocFails t data pc =>
      exact ⟨[.push t data false], cells, tq, rfl, .refused t data, sound.rep, sound.values, sound.owned⟩
  | alloc t data ent pc free =>
      exact ⟨[], cells, tq, (List.append_nil _).symm, .silent, sound.alloc pc free⟩
  | push t ent data mem rc thread pc locked signal =>
      obtain ⟨cells', tq', does, sound'⟩ := sound.push pc locked signal
      exact ⟨[.push t data rc], cells', tq', rfl, does, sound'⟩
  | popTake t timed rval mem pc filled taken =>
      obtain ⟨cells', tq', does, sound'⟩ := sound.take t timed filled taken fun _ _ => rfl
      exact ⟨_, cells', tq', rfl, does, sound'⟩
  | popSleep t timed pc empty =>
      refine ⟨[], cells, tq, (List.append_nil _).symm, .silent, sound.rep, sound.values, ?_⟩
      exact sound.owned.same (held_idle (by simp [pc]) nofun)
  | wakeTake t timed signalled rval mem pc filled taken =>
      have unmoved : ∀ cells' h, held cells' (update s.thread t .idle) h = held cells' s.thread h :=
        fun cells' => held_idle (by simp [pc]) nofun
      obtain ⟨cells', tq', does, sound'⟩ := sound.take t timed filled taken unmoved
      exact ⟨_, cells', tq', rfl, does, sound'⟩
  | wakeEmpty t timed signalled pc empty =>
      refine ⟨[.pop t timed none s.mem.frozen], cells, tq, rfl, ?_, sound.rep, sound.values, ?_⟩
      · rw [frozen]
        exact .nothing t timed
      · exact sound.owned.same (held_idle (by simp [pc]) nofun)
  | timeout t signalled pc =>
      refine ⟨[.pop t true none s.mem.frozen], cells, tq, rfl, ?_, sound.rep, sound.values, ?_⟩
      · rw [frozen]
        exact .nothing t true
      · exact sound.owned.same (held_idle (by simp [pc]) nofun)
  | freezethaw t cold thread pc signal =>
      refine ⟨[], cells, { tq with frozen := cold }, (List.append_nil _).symm, .frozen cold,
        TqMem.represents_freezethaw sound.rep cold, sound.values, ?_⟩
      exact sound.owned.same (held_eq signal.pushing_iff)

/-- In every state reached the list is a queue of the values that were accepted and not taken. -/
theorem Reachable.sound {allowed : State τ α → Action τ α → Prop} (reached : Reachable allowed s) :
    ∃ cells tq, Sound s cells tq ∧ taken s.log ++ tq.q = accepted s.log := by
  refine Transition.Reachable.invariant (I := fun s => ∃ cells tq, Sound s cells tq ∧
    taken s.log ++ tq.q = accepted s.log) reached ?_ ?_
  · intro s init
    refine ⟨[], .new, init.sound, ?_⟩
    rw [init.log]
    rfl
  · rintro s a s' _ ⟨cells, tq, sound, balanced⟩ step _
    obtain ⟨events, cells', tq', log, does, sound'⟩ := sound.step step
    refine ⟨cells', tq', sound', ?_⟩
    rw [log]
    exact does.account balanced

/-! ### What the functions promise -/

/-- The queue and the entries on its list are the same in both memories. -/
structure SameList (m m' : TqMem α) (ents : List EntAddr) : Prop where
  links : ∀ a ∈ Node.head :: ents.map Node.ent, m'.links.next a = m.links.next a ∧ m'.links.prev a = m.links.prev a
  data : ∀ ent ∈ ents, m'.data ent = m.data ent
  frozen : m'.frozen = m.frozen

/-- The list has these entries. -/
structure QueueSound (s : State τ α) (ents : List EntAddr) : Prop where
  /-- `next` goes from the head through the entries and back. -/
  visits : ∀ i ≤ ents.length, walk s.mem.links (i + 1) .head = (ents.map Node.ent ++ [.head])[i]?
  distinct : ents.Nodup
  nextPrev : ∀ a ∈ Node.head :: ents.map Node.ent, ∃ b ∈ Node.head :: ents.map Node.ent,
    s.mem.links.next a = some b ∧ s.mem.links.prev b = some a
  prevNext : ∀ b ∈ Node.head :: ents.map Node.ent, ∃ a ∈ Node.head :: ents.map Node.ent,
    s.mem.links.prev b = some a ∧ s.mem.links.next a = some b
  /-- Entries are taken in the order in which they were accepted, and the others are linked in that order. -/
  fifo : taken s.log ++ ents.map s.mem.data = accepted s.log
  nonNull : returned s.log ++ ents.filterMap s.mem.data = (accepted s.log).filterMap id
  pushes : ∀ a s' t data rc, Step s a s' → s'.log = s.log ++ [.push t data rc] →
    (rc = true ↔ s.mem.frozen = false ∧ ∃ ent, s.thread t = .pushing ent data) ∧
      (rc = false → SameList s.mem s'.mem ents)
  allocs : ∀ t data s', Step s (.alloc t data) s' → SameList s.mem s'.mem ents
  /-- No function follows a null pointer. -/
  pushDefined : ∀ t ent data, s.thread t = .pushing ent data → (s.mem.pushLocked ent).isSome
  popDefined : s.mem.empty = false → s.mem.popLocked.isSome
  frees : ∃ passes final, s.mem.tqFree passes = some (some final) ∧ final.freed = ents ∧
    Ring final.mem.links .head [] ∧
    ∀ e, final.mem.allocated e = if e ∈ ents then false else s.mem.allocated e

omit [DecidableEq τ] in
private theorem returned_eq (log : List (Event τ α)) : returned log = (taken log).filterMap id := by
  rw [returned, taken, List.filterMap_filterMap]
  refine List.filterMap_congr fun event _ => ?_
  cases event with
  | push thr data rc => rfl
  | pop thr timed entry frozen =>
      cases entry with
      | none => rfl
      | some data => rfl

/-- A step that logs the return of a push is one of that push. -/
private theorem push_logged {a : Action τ α} {t : τ} {data : Option α} {rc : Bool} {ents : List EntAddr}
    (step : Step s a s') (logged : s'.log = s.log ++ [.push t data rc]) :
    (rc = true ↔ s.mem.frozen = false ∧ ∃ ent, s.thread t = .pushing ent data) ∧
      (rc = false → SameList s.mem s'.mem ents) := by
  have silent : ∀ event : Event τ α, s.log ≠ s.log ++ [event] := fun event => by simp
  cases step with
  | allocFails u value pc =>
      obtain ⟨rfl, rfl, rfl⟩ := Event.push.inj (List.singleton_inj.mp (List.append_cancel_left logged))
      refine ⟨?_, fun _ => ⟨fun _ _ => ⟨rfl, rfl⟩, fun _ _ => rfl, rfl⟩⟩
      simp [pc]
  | push u ent value mem rc thread pc locked signal =>
      obtain ⟨rfl, rfl, rfl⟩ := Event.push.inj (List.singleton_inj.mp (List.append_cancel_left logged))
      obtain ⟨result, refused⟩ := TqMem.pushLocked_eq_some locked
      refine ⟨?_, fun fails => ?_⟩
      · rw [result]
        simp [pc]
      · have cold : s.mem.frozen = true := by simpa [result] using fails
        rw [refused cold]
        exact ⟨fun _ _ => ⟨rfl, rfl⟩, fun _ _ => rfl, rfl⟩
  | alloc | popSleep | freezethaw => exact absurd logged (silent _)
  | popTake | wakeTake | wakeEmpty | timeout =>
      have other := List.singleton_inj.mp (List.append_cancel_left logged)
      cases other

/-- What holds of the queue in every state reached. -/
theorem Sound.queueSound (sound : Sound s cells tq) (balanced : taken s.log ++ tq.q = accepted s.log) :
    QueueSound s (cells.map Prod.fst) where
  visits i inside := sound.rep.ring.walk_head (by simpa using inside)
  distinct := by
    have nodes := (List.nodup_cons.mp sound.rep.ring.nodup).2
    exact List.Pairwise.of_map Node.ent (fun _ _ ne same => ne (congrArg Node.ent same)) nodes
  nextPrev a mem := sound.rep.ring.next_prev mem
  prevNext b mem := sound.rep.ring.prev_next mem
  fifo := by rw [sound.rep.data, balanced]
  nonNull := by
    have values : (cells.map Prod.fst).filterMap s.mem.data = tq.q.filterMap id := by
      rw [← sound.rep.data]
      symm
      exact List.filterMap_map
    rw [returned_eq, values, ← List.filterMap_append, balanced]
  pushes a s' t data rc step logged := push_logged step logged
  allocs t data s' step := by
    cases step with
    | allocFails => exact ⟨fun _ _ => ⟨rfl, rfl⟩, fun _ _ => rfl, rfl⟩
    | alloc _ _ ent pc free =>
        have absent := sound.fresh_alloc free
        exact ⟨fun _ mem => TqMem.links_pushAlloc absent data mem,
          fun _ mem => TqMem.data_pushAlloc absent data mem, rfl⟩
  pushDefined t ent data pc := by
    cases accepts : tq.push data with
    | some tq' =>
        rw [← sound.data_pushing pc] at accepts
        obtain ⟨links, linked, _⟩ := TqMem.represents_pushLocked sound.rep (sound.fresh pc) accepts
        rw [linked]
        rfl
    | none =>
        rw [(TqMem.represents_pushRefused sound.rep ent accepts).1]
        rfl
  popDefined filled := by
    cases first : tq.pop with
    | none =>
        rw [sound.rep.empty_iff.mpr (ThreadQ.pop_eq_none.mp first)] at filled
        cases filled
    | some popped =>
        obtain ⟨_, _, _, _, popped, _⟩ := TqMem.represents_popLocked sound.rep first
        rw [popped]
        rfl
  frees := TqMem.tqFree_visits sound.rep.ring

omit [DecidableEq τ] in
private theorem Sound.view (sound : Sound s cells tq) : s.mem.view (cells.map Prod.fst) = tq := by
  rw [TqMem.view, sound.rep.data, sound.rep.frozen]

/-- Whatever the threads do, the list is a ring of the entries that were accepted and not taken, and each step of a
    thread does to it what it does to a queue of values. -/
theorem queue_sound {allowed : State τ α → Action τ α → Prop} (reached : Reachable allowed s) :
    ∃ ents, QueueSound s ents ∧ ∀ a s', Step s a s' → ∃ events ents', s'.log = s.log ++ events ∧
      FifoStep (s.mem.view ents) events (s'.mem.view ents') ∧ QueueSound s' ents' := by
  obtain ⟨cells, tq, sound, balanced⟩ := reached.sound
  refine ⟨_, sound.queueSound balanced, ?_⟩
  intro a s' step
  obtain ⟨events, cells', tq', log, does, sound'⟩ := sound.step step
  have balanced' : taken s'.log ++ tq'.q = accepted s'.log := by
    rw [log]
    exact does.account balanced
  refine ⟨events, cells'.map Prod.fst, log, ?_, sound'.queueSound balanced'⟩
  rw [sound.view, sound'.view]
  exact does

/-- A new queue, and nobody uses it. -/
def start (τ α : Type) : State τ α where
  mem := TqMem.tqNew { links := ⟨fun _ => none, fun _ => none⟩, data := fun _ => none, allocated := fun _ => false,
                       frozen := false }
  thread := fun _ => .idle
  log := []

omit [DecidableEq τ] in
theorem init_start : Init (start τ α) := ⟨⟨_, rfl, fun _ => rfl⟩, fun _ => rfl, rfl⟩

/-- One push, of this value. -/
private theorem reachable_push (data : Option Nat) : ∃ s : State Unit Nat, Reachable Transition.anyStep s ∧
    s.log = [.push () data true] ∧ s.thread () = .idle ∧ s.mem.empty = false ∧
    ∃ mem, s.mem.popLocked = some (data, mem) ∧ Ring mem.links .head [] := by
  have started : Reachable Transition.anyStep (start Unit Nat) := .start init_start
  have allocated := started.next (.alloc () data 0 rfl rfl) trivial
  have pushed := allocated.next (.push () 0 data _ _ _ rfl rfl (.nobody fun _ _ => nofun)) trivial
  exact ⟨_, pushed, rfl, rfl, rfl, _, rfl, .init rfl rfl⟩

theorem queue_sound_onePush : ∃ s : State Unit Nat, s.log = [.push () (some 7) true] ∧
    ∃ ents, QueueSound s ents ∧ ∀ a s', Step s a s' → ∃ events ents', s'.log = s.log ++ events ∧
      FifoStep (s.mem.view ents) events (s'.mem.view ents') ∧ QueueSound s' ents' := by
  obtain ⟨s, reached, log, _⟩ := reachable_push (some 7)
  exact ⟨s, log, queue_sound reached⟩

/-- The values other than `NULL` that were returned and those still linked need not be all that were accepted: a
    `NULL` that is pushed is taken, and nobody can tell. -/
theorem null_not_returned : ¬ ∀ (s : State Unit Nat) (ents : List EntAddr), Reachable Transition.anyStep s →
    Ring s.mem.links .head (ents.map Node.ent) →
    (returned s.log).map some ++ ents.map s.mem.data = accepted s.log := by
  intro all
  obtain ⟨s, reached, log, pc, filled, mem, popped, ring⟩ := reachable_push none
  have taken := all _ [] (reached.next (.popTake () false none mem pc filled popped) trivial) ring
  simp only [State.returns, log] at taken
  cases taken

end CpuMiner.Tq
