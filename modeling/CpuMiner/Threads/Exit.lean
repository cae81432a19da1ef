/-
Module: CpuMiner.Threads.Exit
Layer: Threads
Purpose: The end of the program. `main` waits for `workio_thread`, which ends when it gives up a call or wakes up with
  an empty queue, but not because the miners have ended: nobody freezes its queue for it. So the program hangs when
  the last miner fails by itself, and it does not when no miner that is the last one fails by itself.
Imports: CpuMiner.Threads.Step
Trusted boundary: none
Main exports: Hangs, LastDoesNotFail, no_hang, hang
Open obligations: none
-/
import CpuMiner.Threads.Step

namespace CpuMiner

open Function (update)

variable {n : Nat} {cfg : Config n} {s s' : State n}

/-- All miners have ended, `workio_thread` waits on its empty queue, and `main` waits for `workio_thread`. -/
structure Hangs (s : State n) : Prop where
  miners : ∀ i, s.miner i = .done
  workio : s.workio = .popping (.asleep false)
  empty : s.workioQ.q = []
  unfrozen : s.workioQ.frozen = false
  main : s.main = .joining

/-- A miner fails by itself: it cannot allocate something, or it wakes up and its queue is empty. -/
def MinerAction.Fails : MinerAction → Prop
  | .noMemory | .wakesEmpty => True
  | _ => False

/-- While `workio_thread` is in its loop, a miner does not fail by itself when all the others have left theirs. -/
def LastDoesNotFail (s : State n) (a : Action n) : Prop :=
  ∀ i action, a = .miner i action → action.Fails → s.workio.stopped = false →
    ∃ j, j ≠ i ∧ (s.miner j).stopped = false

/-! ### The queue of `workio_thread` -/

/-- A thread that has left its loop does not come back. -/
theorem WorkioStep.stopped {a : WorkioAction} (step : WorkioStep cfg s a s')
    (stopped : s.workio.stopped = true) : s'.workio.stopped = true := by
  cases step with
  | stop cmd pc => rfl
  | fetchAgain _ _ pc _ | fetchEnds _ pc _ =>
      rcases pc with pc | ⟨_, pc⟩ <;> simp [WorkioPc.stopped, pc] at stopped
  | _ => simp [WorkioPc.stopped, *] at stopped

theorem MinerStep.workio_stopped {i : Fin n} {a : MinerAction} (step : MinerStep cfg i s a s') :
    s'.workio.stopped = s.workio.stopped := by
  rcases step.workio with same | signal
  · rw [same]
  · rw [signal, WorkioPc.signal_stopped]

theorem WorkioStep.miner_stopped {a : WorkioAction} (step : WorkioStep cfg s a s') (i : Fin n) :
    (s'.miner i).stopped = (s.miner i).stopped := by
  rcases step.miner i with same | signal
  · rw [same]
  · rw [signal, MinerPc.signal_stopped]

theorem MinerStep.frozen_queue {i : Fin n} {a : MinerAction} (step : MinerStep cfg i s a s') :
    s'.workioQ.frozen = s.workioQ.frozen := by
  cases step with
  | ask q pc pushed | hand _ _ q pc pushed =>
      obtain ⟨_, rfl⟩ := ThreadQ.push_eq_some.mp pushed
      rfl
  | _ => rfl

theorem WorkioStep.frozen_queue {a : WorkioAction} (step : WorkioStep cfg s a s') :
    s'.workioQ.frozen = s.workioQ.frozen ∨ s'.workio.stopped = true := by
  cases step with
  | stop cmd pc => exact .inr rfl
  | takeGetWork _ _ q pc popped | takeSubmitWork _ _ _ _ q pc popped =>
      obtain ⟨_, same⟩ := ThreadQ.pop_eq_some.mp popped
      exact .inl same
  | _ => exact .inl rfl

/-- Nobody but `workio_thread` freezes its queue. -/
theorem frozen_stopped {allowed : State n → Action n → Prop} (reached : Reachable cfg allowed s) :
    s.workioQ.frozen = true → s.workio.stopped = true := by
  refine reached.invariant (I := fun s => s.workioQ.frozen = true → s.workio.stopped = true) ?_ ?_
  · intro s init frozen
    rw [init.workioQ] at frozen
    cases frozen
  · rintro s a s' _ stopped step _ frozen
    cases step with
    | main step => cases step <;> exact stopped frozen
    | miner step =>
        rw [step.frozen_queue] at frozen
        rw [step.workio_stopped]
        exact stopped frozen
    | workio step =>
        rcases step.frozen_queue with same | ended
        · rw [same] at frozen
          exact step.stopped (stopped frozen)
        · exact ended
    | longpoll step => cases step <;> exact stopped frozen

/-! ### The last miner -/

/-- `workio_thread` has left its loop, or some miner has not. -/
def SomebodyStays (s : State n) : Prop :=
  s.workio.stopped = true ∨ ∃ i, (s.miner i).stopped = false

/-- A miner leaves its loop when it fails by itself, or when the queue of `workio_thread` is frozen. -/
theorem MinerStep.leaves {i : Fin n} {a : MinerAction} (step : MinerStep cfg i s a s')
    (stays : (s.miner i).stopped = false) (stopped : (s'.miner i).stopped = true) :
    a.Fails ∨ s.workioQ.frozen = true := by
  cases step with
  | askNoMemory | wakeEmpty | submitNoMemory | handNoMemory => exact .inl trivial
  | askRefused pc frozen | handRefused _ _ pc frozen => exact .inr (ThreadQ.push_eq_none.mp frozen)
  | freeze pc => simp [pc, MinerPc.stopped] at stays
  | _ => simp [MinerPc.stopped] at stopped

theorem MinerStep.somebodyStays {i : Fin n} {a : MinerAction} (step : MinerStep cfg i s a s')
    (fine : LastDoesNotFail s (.miner i a))
    (frozen : s.workioQ.frozen = true → s.workio.stopped = true) (somebody : SomebodyStays s) :
    SomebodyStays s' := by
  rcases somebody with ended | ⟨j, stays⟩
  · exact .inl (step.workio_stopped.trans ended)
  have other : ∀ {j}, j ≠ i → (s.miner j).stopped = false → SomebodyStays s' := by
    intro j ne stays
    refine .inr ⟨j, ?_⟩
    rwa [step.other_miner ne]
  by_cases me : j = i
  · subst me
    cases now : (s'.miner j).stopped with
    | false => exact .inr ⟨j, now⟩
    | true =>
        cases ended : s.workio.stopped with
        | true => exact .inl (step.workio_stopped.trans ended)
        | false =>
            rcases step.leaves stays now with fails | cold
            · obtain ⟨k, ne, alive⟩ := fine j a rfl fails ended
              exact other ne alive
            · rw [frozen cold] at ended
              cases ended
  · exact other me stays

theorem somebodyStays (reached : Reachable cfg LastDoesNotFail s) : SomebodyStays s := by
  refine reached.invariant ?_ ?_
  · intro s init
    refine .inr ⟨⟨0, cfg.threads⟩, ?_⟩
    rw [init.miner]
    rfl
  · rintro s a s' reached somebody step fine
    cases step with
    | main step =>
        cases step with
        | create i pc => exact .inr ⟨i, by simp [MinerPc.stopped]⟩
        | join | joined => exact somebody
    | miner step => exact step.somebodyStays fine (frozen_stopped reached) somebody
    | workio step =>
        rcases somebody with stopped | ⟨j, stays⟩
        · exact .inl (step.stopped stopped)
        · exact .inr ⟨j, (step.miner_stopped j).trans stays⟩
    | longpoll step => cases step <;> exact somebody

/-- In a run in which no miner that is the last one in its loop fails by itself while `workio_thread` is in its
    loop, the program does not hang. -/
theorem no_hang (reached : Reachable cfg LastDoesNotFail s) : ¬ Hangs s := by
  intro hangs
  rcases somebodyStays reached with stopped | ⟨i, stays⟩
  · rw [hangs.workio] at stopped
    cases stopped
  · rw [hangs.miners i] at stays
    cases stays

/-- When `workio_thread` has ended, the only miner is refused, and the program goes on to its end. -/
theorem no_hang_refused : ∃ s, Reachable exampleConfig LastDoesNotFail s ∧ (∀ i, s.miner i = .done) ∧
    ¬ Hangs s := by
  have reached : Reachable exampleConfig LastDoesNotFail _ :=
    (Transition.Reachable.start exampleState_init)
      |>.next (.main (.create 0 rfl)) nofun
      |>.next (.main (.join rfl)) nofun
      |>.next (.workio (.start rfl)) nofun
      |>.next (.workio (.sleep rfl rfl)) nofun
      |>.next (.workio (.wakeEmpty _ rfl rfl)) nofun
      |>.next (.workio (.stop _ rfl)) nofun
      |>.next (.miner (i := 0) (.askRefused rfl rfl)) (by rintro i action ⟨⟩ ⟨⟩)
      |>.next (.miner (i := 0) (.freeze rfl)) (by rintro i action ⟨⟩ ⟨⟩)
  refine ⟨_, reached, ?_, no_hang reached⟩
  intro i
  rw [Subsingleton.elim i 0]
  rfl

/-- When the only miner cannot allocate its first command, the program hangs. -/
theorem hang : ∃ s, Reachable exampleConfig Transition.anyStep s ∧ Hangs s := by
  have reached : Reachable exampleConfig Transition.anyStep _ :=
    (Transition.Reachable.start exampleState_init)
      |>.next (.main (.create 0 rfl)) trivial
      |>.next (.main (.join rfl)) trivial
      |>.next (.workio (.start rfl)) trivial
      |>.next (.workio (.sleep rfl rfl)) trivial
      |>.next (.miner (i := 0) (.askNoMemory rfl)) trivial
      |>.next (.miner (i := 0) (.freeze rfl)) trivial
  refine ⟨_, reached, ?_⟩
  constructor
  case miners =>
    intro i
    rw [Subsingleton.elim i 0]
    rfl
  all_goals rfl

end CpuMiner
