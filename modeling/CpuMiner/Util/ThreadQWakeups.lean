/-
Module: CpuMiner.Util.ThreadQWakeups
Layer: Utilities
Purpose: Who is woken up, and what `tq_pop` returns then. `tq_pop` waits at most once, so a thread that is woken up
  and finds nothing returns `NULL`, frozen or not; and `tq_freezethaw` signals one thread, however many wait.
  `WakesWell` says which steps do not make `tq_pop` return `NULL` on a queue that is not frozen, and `FreezesWell`
  which steps leave nobody asleep on a frozen queue. Each is exact: a step that breaks it leads to what it excludes.
Imports: CpuMiner.Util.ThreadQRun
Trusted boundary: none
Main exports: Tq.WakesWell, Tq.null_pop_frozen, Tq.wakesWell_needed, Tq.null_pop_thawed, Tq.FreezesWell, Tq.Released,
  Tq.freeze_releases, Tq.pop_sleeps_frozen
Open obligations: none
-/
import CpuMiner.Util.ThreadQRun

namespace CpuMiner.Tq

open Function (update)

variable {τ α : Type} {s s' : State τ α}

/-! ### Nobody is woken up for nothing -/

/-- The values that are pushed are not `NULL`. -/
def NonNull : Action τ α → Prop
  | .alloc _ data => data ≠ none
  | _ => True

/-- If this thread takes the last entry of a queue that is not frozen, no other thread in `tq_pop(tq, NULL)` has a
    signal. -/
def LeavesEntry (s : State τ α) (t : τ) : Prop :=
  s.mem.single → s.mem.frozen = false → ∀ u, u ≠ t → s.thread u ≠ .waiting false true

/-- A thread in `tq_pop(tq, NULL)` does not wake up without a signal on an empty queue that is not frozen; nobody
    takes the last entry of such a queue while another one has a signal; nobody thaws an empty queue while one
    waits. -/
def WakesWell (s : State τ α) : Action τ α → Prop
  | .pop t _ => LeavesEntry s t
  | .wake t =>
      LeavesEntry s t ∧ (s.thread t = .waiting false false → s.mem.empty = true → s.mem.frozen = true)
  | .freezethaw _ false => s.mem.empty = true → ∀ u signalled, s.thread u ≠ .waiting false signalled
  | _ => True

/-- Nobody who has a signal would find an empty queue that is not frozen. -/
def Calm (s : State τ α) : Prop :=
  ∀ t, s.thread t = .waiting false true → s.mem.frozen = false → s.mem.empty = false

/-- `tq_pop(tq, NULL)` returns `NULL` on frozen queues only. -/
def NullWhenFrozen (log : List (Event τ α)) : Prop :=
  ∀ t entry frozen, Event.pop t false entry frozen ∈ log → entry.join = none → frozen = true

/-- No `NULL` was pushed, and none is about to be. -/
structure Fed (s : State τ α) : Prop where
  accepted : none ∉ accepted s.log
  pushing : ∀ t ent, s.thread t ≠ .pushing ent none

theorem NullWhenFrozen.push {log : List (Event τ α)} (before : NullWhenFrozen log) (t : τ) (data : Option α)
    (rc : Bool) : NullWhenFrozen (log ++ [.push t data rc]) := by
  intro u entry frozen logged null
  rcases List.mem_append.mp logged with old | new
  · exact before u entry frozen old null
  · cases List.mem_singleton.mp new

theorem NullWhenFrozen.pop {log : List (Event τ α)} (before : NullWhenFrozen log) {t : τ} {timed : Bool}
    {entry : Option (Option α)} {frozen : Bool} (last : timed = false → entry.join = none → frozen = true) :
    NullWhenFrozen (log ++ [.pop t timed entry frozen]) := by
  intro u entry frozen logged null
  rcases List.mem_append.mp logged with old | new
  · exact before u entry frozen old null
  · obtain ⟨_, rfl, rfl, rfl⟩ := Event.pop.inj (List.mem_singleton.mp new)
    exact last rfl null

variable [DecidableEq τ]

/-- Who has a signal had it before, or has it now from `pthread_cond_signal`; who has none had none. -/
theorem Signal.asleep {threads threads' : τ → Pc α} (signal : Signal threads threads') {t : τ} {timed : Bool}
    (asleep : threads' t = .waiting timed false) : threads t = .waiting timed false := by
  cases signal with
  | nobody _ => exact asleep
  | wakes u _ _ =>
      by_cases same : t = u
      · subst same
        rw [Function.update_self] at asleep
        cases asleep
      · rwa [Function.update_of_ne same] at asleep

/-- A signal moves nobody in or out of `tq_pop`. -/
theorem Signal.waiting {threads threads' : τ → Pc α} (signal : Signal threads threads') {t : τ}
    {timed signalled : Bool} (waits : threads' t = .waiting timed signalled) :
    ∃ signalled, threads t = .waiting timed signalled := by
  cases signal with
  | nobody _ => exact ⟨signalled, waits⟩
  | wakes u timed' asleep =>
      by_cases same : t = u
      · subst same
        rw [Function.update_self] at waits
        obtain ⟨rfl, _⟩ := Pc.waiting.inj waits
        exact ⟨false, asleep⟩
      · rw [Function.update_of_ne same] at waits
        exact ⟨signalled, waits⟩

theorem Signal.woken {threads threads' : τ → Pc α} (signal : Signal threads threads') {t : τ} {timed : Bool}
    (woken : threads t = .waiting timed true) : threads' t = .waiting timed true := by
  cases signal with
  | nobody _ => exact woken
  | wakes u _ asleep =>
      have other : t ≠ u := by
        rintro rfl
        rw [woken] at asleep
        cases asleep
      rw [Function.update_of_ne other, woken]

/-- A thread that moves to where it has no signal gives no other thread one. -/
private theorem waiting_update {thread : τ → Pc α} {t u : τ} {pc : Pc α} {timed signalled : Bool}
    (waits : update thread t pc u = .waiting timed signalled) (moved : pc ≠ .waiting timed signalled) :
    u ≠ t ∧ thread u = .waiting timed signalled := by
  by_cases same : u = t
  · subst same
    rw [Function.update_self] at waits
    exact absurd waits moved
  · rw [Function.update_of_ne same] at waits
    exact ⟨same, waits⟩

theorem Fed.step {a : Action τ α} (fed : Fed s) (step : Step s a s') (nonNull : NonNull a) : Fed s' := by
  have logs : ∀ event : Event τ α, event.accepted? ≠ some none → none ∉ Tq.accepted (s.log ++ [event]) := by
    intro event other mem
    have split : Tq.accepted (s.log ++ [event]) = Tq.accepted s.log ++ Tq.accepted [event] := List.filterMap_append
    rw [split] at mem
    rcases List.mem_append.mp mem with old | new
    · exact fed.accepted old
    · obtain ⟨event', mem, is⟩ := List.mem_filterMap.mp new
      rw [List.mem_singleton.mp mem] at is
      exact other is
  have moves : ∀ (t : τ) (pc : Pc α), (∀ ent, pc ≠ .pushing ent none) → ∀ u ent,
      update s.thread t pc u ≠ .pushing ent none := by
    intro t pc other u ent
    by_cases same : u = t
    · subst same
      rw [Function.update_self]
      exact other ent
    · rw [Function.update_of_ne same]
      exact fed.pushing u ent
  cases step with
  | allocFails t data pc => exact ⟨logs _ (by simp [Event.accepted?]), fed.pushing⟩
  | alloc t data ent pc free =>
      refine ⟨fed.accepted, moves t _ ?_⟩
      rintro ent' same
      exact nonNull (Pc.pushing.inj same).2
  | push t ent data mem rc thread pc locked signal =>
      refine ⟨logs _ ?_, ?_⟩
      · cases data with
        | none => exact absurd pc (fed.pushing t ent)
        | some value => cases rc <;> simp [Event.accepted?]
      · intro u ent' pushing
        exact moves t .idle (by simp) u ent' ((signal.pushing_iff u ent' none).mp pushing)
  | popTake t timed rval mem pc filled taken => exact ⟨logs _ (by simp [Event.accepted?]), fed.pushing⟩
  | popSleep t timed pc empty => exact ⟨fed.accepted, moves t _ (by simp)⟩
  | wakeTake | wakeEmpty | timeout => exact ⟨logs _ (by simp [Event.accepted?]), moves _ _ (by simp)⟩
  | freezethaw t cold thread pc signal =>
      exact ⟨fed.accepted, fun u ent pushing => fed.pushing u ent ((signal.pushing_iff u ent none).mp pushing)⟩

section

variable {cells : List (Cell α)} {tq : ThreadQ (Option α)}

omit [DecidableEq τ] in
/-- What is on the list is not `NULL`. -/
theorem Fed.linked (fed : Fed s) (balanced : taken s.log ++ tq.q = Tq.accepted s.log) : none ∉ tq.q := by
  intro mem
  refine fed.accepted ?_
  rw [← balanced]
  exact List.mem_append_right _ mem

omit [DecidableEq τ] in
/-- A thread that takes an entry leaves one for the others who have a signal. -/
private theorem LeavesEntry.take {t : τ} (leaves : LeavesEntry s t) (sound : Sound s cells tq)
    {rval : Option α} {mem : TqMem α} (filled : s.mem.empty = false)
    (taken : s.mem.popLocked = some (rval, mem)) {u : τ} (other : u ≠ t)
    (woken : s.thread u = .waiting false true) (thawed : mem.frozen = false) : mem.empty = false := by
  obtain ⟨_, frozen, last⟩ := sound.rep.popped filled taken
  rw [← Bool.not_eq_true, last]
  intro single
  exact leaves single (frozen.symm.trans thawed) u other woken

theorem Calm.step {a : Action τ α} (calm : Calm s) (sound : Sound s cells tq) (step : Step s a s')
    (well : WakesWell s a) : Calm s' := by
  cases step with
  | allocFails t data pc => exact calm
  | alloc t data ent pc free =>
      intro u woken thawed
      change update s.thread t (.pushing ent data) u = _ at woken
      have waits := (waiting_update woken nofun).2
      have filled := calm u waits thawed
      have rep := TqMem.represents_pushAlloc sound.rep (sound.fresh_alloc free) data
      rw [← Bool.not_eq_true, rep.empty_iff, ← sound.rep.empty_iff, filled]
      nofun
  | push t ent data mem rc thread pc locked signal =>
      intro u _ thawed
      obtain ⟨frozen, filled⟩ := sound.rep.pushed (sound.fresh pc) locked
      exact filled (frozen.symm.trans thawed)
  | popTake t timed rval mem pc filled taken =>
      intro u woken thawed
      have other : u ≠ t := by
        rintro rfl
        exact absurd woken (by simp [pc])
      exact LeavesEntry.take well sound filled taken other woken thawed
  | popSleep t timed pc empty =>
      intro u woken thawed
      exact calm u (waiting_update woken (by simp)).2 thawed
  | wakeTake t timed signalled rval mem pc filled taken =>
      intro u woken thawed
      change update s.thread t .idle u = _ at woken
      obtain ⟨other, waits⟩ := waiting_update woken nofun
      exact well.1.take sound filled taken other waits thawed
  | wakeEmpty t | timeout t =>
      intro u woken thawed
      change update s.thread t .idle u = _ at woken
      exact calm u (waiting_update woken nofun).2 thawed
  | freezethaw t cold thread pc signal =>
      intro u woken thawed
      have thawed : cold = false := thawed
      subst thawed
      obtain ⟨signalled, waits⟩ := signal.waiting woken
      rw [← Bool.not_eq_true]
      exact fun empty => well empty u signalled waits

theorem NullWhenFrozen.step {a : Action τ α} (before : NullWhenFrozen s.log) (calm : Calm s) (fed : Fed s)
    (sound : Sound s cells tq) (balanced : taken s.log ++ tq.q = accepted s.log) (step : Step s a s')
    (well : WakesWell s a) : NullWhenFrozen s'.log := by
  have takes : ∀ {rval : Option α} {mem : TqMem α}, s.mem.empty = false → s.mem.popLocked = some (rval, mem) →
      rval ≠ none := by
    rintro rval mem filled taken rfl
    exact fed.linked balanced (sound.rep.popped filled taken).1
  cases step with
  | allocFails t data | push t _ data => exact NullWhenFrozen.push before t data _
  | alloc | popSleep | freezethaw => exact before
  | popTake t timed rval mem pc filled taken => exact before.pop fun _ null => absurd null (takes filled taken)
  | wakeTake t timed signalled rval mem pc filled taken =>
      exact before.pop fun _ null => absurd null (takes filled taken)
  | wakeEmpty t timed signalled pc empty =>
      refine before.pop ?_
      rintro rfl _
      cases signalled with
      | false => exact well.2 pc empty
      | true =>
          by_contra thawed
          have filled := calm t pc (Bool.not_eq_true _ ▸ thawed)
          rw [empty] at filled
          cases filled
  | timeout t signalled pc => exact before.pop nofun

end

/-- When only values other than `NULL` are pushed and every step wakes well, `tq_pop(tq, NULL)` returns `NULL` on
    frozen queues only. -/
theorem null_pop_frozen (reached : Reachable (fun s a => NonNull a ∧ WakesWell s a) s) : NullWhenFrozen s.log := by
  have all : Calm s ∧ Fed s ∧ NullWhenFrozen s.log := by
    refine Transition.Reachable.invariant (I := fun s => Calm s ∧ Fed s ∧ NullWhenFrozen s.log) reached ?_ ?_
    · intro s init
      refine ⟨fun t woken => ?_, ⟨?_, fun t ent pushing => ?_⟩, ?_⟩
      · rw [init.thread t] at woken
        cases woken
      · rw [init.log]
        exact List.not_mem_nil
      · rw [init.thread t] at pushing
        cases pushing
      · rw [init.log]
        exact fun _ _ _ logged => absurd logged List.not_mem_nil
    · rintro s a s' reached ⟨calm, fed, before⟩ step ⟨nonNull, well⟩
      obtain ⟨cells, tq, sound, balanced⟩ := Reachable.sound reached
      exact ⟨calm.step sound step well, fed.step step nonNull, before.step calm fed sound balanced step well⟩
  exact all.2.2

/-- The condition holds of every step here, and `NULL` is returned, on a frozen queue. -/
theorem null_pop_frozen_frozen : ∃ s : State Unit Nat, s.log = [.pop () false none true] ∧ NullWhenFrozen s.log := by
  have started : Reachable (fun s a => NonNull a ∧ WakesWell s a) (start Unit Nat) := .start init_start
  have froze := started.next (.freezethaw () true _ rfl (.nobody fun _ _ => nofun)) ⟨trivial, trivial⟩
  have slept := froze.next (.popSleep () false rfl rfl) ⟨trivial, fun single => absurd single.1 nofun⟩
  have woke := slept.next (.wakeEmpty () false false rfl rfl)
    ⟨trivial, fun single => absurd single.1 nofun, fun _ _ => rfl⟩
  exact ⟨_, rfl, null_pop_frozen woke⟩

/-- A step that does not wake well can be one after which a thread in `tq_pop(tq, NULL)` has returned `NULL` on a
    queue that is not frozen, or has a signal and nothing else to return. -/
theorem wakesWell_needed {allowed : State τ α → Action τ α → Prop} (reached : Reachable allowed s)
    {a : Action τ α} (step : Step s a s') (ill : ¬ WakesWell s a) :
    ∃ s₁, Step s a s₁ ∧ ((∃ t, s₁.log = s.log ++ [.pop t false none false]) ∨
      ∃ t, s₁.thread t = .waiting false true ∧ s₁.mem.empty = true ∧ s₁.mem.frozen = false) := by
  obtain ⟨cells, tq, sound, _⟩ := reached.sound
  cases step with
  | allocFails | alloc | push | timeout => exact absurd trivial ill
  | popTake t timed rval mem pc filled taken =>
      refine ⟨_, .popTake t timed rval mem pc filled taken, .inr ?_⟩
      obtain ⟨_, frozen, last⟩ := sound.rep.popped filled taken
      simp only [WakesWell, LeavesEntry, not_forall, not_not] at ill
      obtain ⟨single, thawed, u, _, woken⟩ := ill
      exact ⟨u, woken, last.mpr single, frozen.trans thawed⟩
  | popSleep t timed pc empty =>
      simp only [WakesWell, LeavesEntry, not_forall] at ill
      obtain ⟨single, _⟩ := ill
      rw [single.1] at empty
      cases empty
  | wakeTake t timed signalled rval mem pc filled taken =>
      refine ⟨_, .wakeTake t timed signalled rval mem pc filled taken, .inr ?_⟩
      obtain ⟨_, frozen, last⟩ := sound.rep.popped filled taken
      have leaves : ¬ LeavesEntry s t := by
        intro leaves
        refine ill ⟨leaves, fun _ empty => ?_⟩
        rw [filled] at empty
        cases empty
      simp only [LeavesEntry, not_forall, not_not] at leaves
      obtain ⟨single, thawed, u, other, woken⟩ := leaves
      refine ⟨u, ?_, last.mpr single, frozen.trans thawed⟩
      exact (Function.update_of_ne other ..).trans woken
  | wakeEmpty t timed signalled pc empty =>
      refine ⟨_, .wakeEmpty t timed signalled pc empty, .inl ⟨t, ?_⟩⟩
      have leaves : LeavesEntry s t := by
        intro single
        have filled := single.1
        rw [empty] at filled
        cases filled
      have wakes : ¬ (s.thread t = .waiting false false → s.mem.empty = true → s.mem.frozen = true) :=
        fun wakes => ill ⟨leaves, wakes⟩
      simp only [not_forall, Bool.not_eq_true] at wakes
      obtain ⟨waits, _, thawed⟩ := wakes
      obtain ⟨rfl, _⟩ := Pc.waiting.inj (pc.symm.trans waits)
      simp only [State.returns, State.at, thawed]
  | freezethaw t cold thread pc signal =>
      cases cold with
      | true => exact absurd trivial ill
      | false =>
          simp only [WakesWell, not_forall, not_not] at ill
          obtain ⟨empty, u, signalled, waits⟩ := ill
          cases signalled with
          | false =>
              refine ⟨_, .freezethaw t false _ pc (.wakes u false waits), .inr ⟨u, ?_, empty, rfl⟩⟩
              exact Function.update_self ..
          | true => exact ⟨_, .freezethaw t false thread pc signal, .inr ⟨u, signal.woken waits, empty, rfl⟩⟩

/-- A thread that wakes up without a signal returns `NULL` on a queue that is not frozen. -/
theorem null_pop_thawed : ¬ ∀ s : State Unit Nat, Reachable (fun _ a => NonNull a) s → NullWhenFrozen s.log := by
  intro all
  have started : Reachable (fun _ a => NonNull a) (start Unit Nat) := .start init_start
  have slept := started.next (.popSleep () false rfl rfl) trivial
  have woke := slept.next (.wakeEmpty () false false rfl rfl) trivial
  exact absurd (all _ woke () none false (List.mem_singleton.mpr rfl) rfl) nofun

/-! ### Who is left asleep -/

/-- The threads wait without a timeout, and nobody thaws the queue. -/
def OnlyFreezes : Action τ α → Prop
  | .pop _ timed => timed = false
  | .freezethaw _ frozen => frozen = true
  | _ => True

/-- Nobody goes to sleep in `tq_pop` on a frozen queue, and at most one thread sleeps there when the queue is
    frozen. -/
def FreezesWell (s : State τ α) : Action τ α → Prop
  | .pop _ _ => s.mem.frozen = true → s.mem.empty = false
  | .freezethaw _ true =>
      ∀ t u timed timed', s.thread t = .waiting timed false → s.thread u = .waiting timed' false → t = u
  | _ => True

/-- If the queue is frozen, then everybody who waits in `tq_pop` has a signal. -/
def Released (s : State τ α) : Prop :=
  s.mem.frozen = true → ∀ t timed, s.thread t ≠ .waiting timed false

theorem Released.step {a : Action τ α} {cells : List (Cell α)} {tq : ThreadQ (Option α)} (released : Released s)
    (sound : Sound s cells tq) (step : Step s a s') (only : OnlyFreezes a) (well : FreezesWell s a) :
    Released s' := by
  cases step with
  | allocFails t data pc => exact released
  | alloc t data ent pc free =>
      intro cold u timed asleep
      change update s.thread t (.pushing ent data) u = _ at asleep
      exact released cold u timed (waiting_update asleep nofun).2
  | push t ent data mem rc thread pc locked signal =>
      intro cold u timed asleep
      have frozen := (sound.rep.pushed (sound.fresh pc) locked).1
      have before : update s.thread t .idle u = _ := signal.asleep asleep
      exact released (frozen.symm.trans cold) u timed (waiting_update before nofun).2
  | popTake t timed rval mem pc filled taken =>
      intro cold
      exact released ((sound.rep.popped filled taken).2.1.symm.trans cold)
  | popSleep t timed pc empty =>
      intro cold
      have filled := well cold
      rw [empty] at filled
      cases filled
  | wakeTake t timed signalled rval mem pc filled taken =>
      intro cold u timed' asleep
      change update s.thread t .idle u = _ at asleep
      have frozen := (sound.rep.popped filled taken).2.1
      exact released (frozen.symm.trans cold) u timed' (waiting_update asleep nofun).2
  | wakeEmpty t | timeout t =>
      intro cold u timed' asleep
      change update s.thread t .idle u = _ at asleep
      exact released cold u timed' (waiting_update asleep nofun).2
  | freezethaw t cold thread pc signal =>
      obtain rfl : cold = true := only
      intro _ u timed asleep
      have before := signal.asleep asleep
      cases signal with
      | nobody awake => exact awake u timed before
      | wakes v timed' asleep' =>
          obtain rfl := well u v timed timed' before asleep'
          change update s.thread u _ u = _ at asleep
          rw [Function.update_self] at asleep
          cases asleep

/-- A step that does not freeze well leaves somebody asleep on a frozen queue. -/
theorem FreezesWell.needed {a : Action τ α} (step : Step s a s') (ill : ¬ FreezesWell s a) : ¬ Released s' := by
  cases step with
  | allocFails | alloc | push | wakeTake | wakeEmpty | timeout => exact absurd trivial ill
  | popTake t timed rval mem pc filled taken => exact absurd (fun _ => filled) ill
  | popSleep t timed pc empty =>
      simp only [FreezesWell, not_forall] at ill
      obtain ⟨cold, _⟩ := ill
      exact fun released => released cold t timed (Function.update_self ..)
  | freezethaw t cold thread pc signal =>
      cases cold with
      | false => exact absurd trivial ill
      | true =>
          simp only [FreezesWell, not_forall] at ill
          obtain ⟨u, v, timed, timed', asleep, asleep', different⟩ := ill
          intro released
          cases signal with
          | nobody awake => exact awake u timed asleep
          | wakes w _ _ =>
              by_cases same : u = w
              · have other : v ≠ w := fun same' => different (same.trans same'.symm)
                exact released rfl v timed' ((Function.update_of_ne other ..).trans asleep')
              · exact released rfl u timed ((Function.update_of_ne same ..).trans asleep)

/-- Without timeouts and thaws: as long as every step freezes well, a frozen queue has released its readers, and the
    first step that does not leaves one of them asleep. -/
theorem freeze_releases (reached : Reachable (fun s a => OnlyFreezes a ∧ FreezesWell s a) s) :
    Released s ∧ ∀ a s', Step s a s' → OnlyFreezes a → (Released s' ↔ FreezesWell s a) := by
  have released : Released s := by
    refine Transition.Reachable.invariant (I := Released) reached ?_ ?_
    · intro s init cold
      obtain ⟨m, mem, _⟩ := init.mem
      rw [mem] at cold
      cases cold
    · rintro s a s' reached released step ⟨only, well⟩
      obtain ⟨cells, tq, sound, _⟩ := Reachable.sound reached
      exact released.step sound step only well
  refine ⟨released, fun a s' step only => ⟨?_, fun well => ?_⟩⟩
  · intro released'
    by_contra ill
    exact FreezesWell.needed step ill released'
  · obtain ⟨cells, tq, sound, _⟩ := Reachable.sound reached
    exact released.step sound step only well

/-- A thread that slept when the queue was frozen has a signal. -/
theorem freeze_releases_one : ∃ s : State Bool Nat, s.thread true = .waiting false true ∧ s.mem.frozen = true ∧
    (Released s ∧ ∀ a s', Step s a s' → OnlyFreezes a → (Released s' ↔ FreezesWell s a)) := by
  have started : Reachable (fun s a => OnlyFreezes a ∧ FreezesWell s a) (start Bool Nat) := .start init_start
  have slept := started.next (.popSleep true false rfl rfl) ⟨rfl, nofun⟩
  have one : ∀ t : Bool, ∀ timed, ((start Bool Nat).at true (.waiting false false)).thread t = .waiting timed false →
      t = true := by
    rintro (_ | _) timed asleep
    · cases asleep
    · rfl
  have froze := slept.next (.freezethaw false true _ rfl (.wakes true false rfl))
    ⟨rfl, fun t u timed timed' asleep asleep' => (one t timed asleep).trans (one u timed' asleep').symm⟩
  exact ⟨_, rfl, rfl, freeze_releases froze⟩

/-- A thread that calls `tq_pop` after the freeze sleeps, and nobody wakes it up. -/
theorem pop_sleeps_frozen : ¬ ∀ s : State Unit Nat, Reachable (fun _ a => OnlyFreezes a) s → Released s := by
  intro all
  have started : Reachable (fun _ a => OnlyFreezes a) (start Unit Nat) := .start init_start
  have froze := started.next (.freezethaw () true _ rfl (.nobody fun _ _ => nofun)) rfl
  have slept := froze.next (.popSleep () false rfl rfl) rfl
  exact all _ slept rfl () false rfl

end CpuMiner.Tq
