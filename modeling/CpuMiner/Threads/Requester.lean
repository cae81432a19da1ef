/-
Module: CpuMiner.Threads.Requester
Layer: Threads
Purpose: A miner that waits in `get_work` has its command on the queue of `workio_thread`, or `workio_thread` is
  working on it, or its reply is there, or `workio_thread` has ended. The return value of `tq_push` in
  `workio_get_work` is lost: when the queue entry of a reply cannot be allocated, the requester waits for ever.
Imports: CpuMiner.Threads.Routing
Trusted boundary: none
Main exports: MinerPc.Waits, RepliesAllocated, requester_not_stranded, requester_stranded
Open obligations: none
-/
import CpuMiner.Threads.Routing

namespace CpuMiner

open Function (update)

variable {n : Nat} {cfg : Config n} {s s' : State n}

/-- The thread is in `tq_pop`. -/
def MinerPc.Waits (pc : MinerPc n) : Prop := ∃ stage, pc = .popping stage

theorem MinerPc.signal_waits {pc : MinerPc n} : pc.signal.Waits ↔ pc.Waits := by
  cases pc <;> simp [MinerPc.signal, MinerPc.Waits]

/-! ### Frozen queues -/

/-- A miner freezes its queue when it ends. -/
def FrozenDone (s : State n) : Prop := ∀ i, (s.minerQ i).frozen = true → s.miner i = .done

theorem MinerStep.frozenDone {i : Fin n} {a : MinerAction} (step : MinerStep cfg i s a s')
    (frozen : FrozenDone s) : FrozenDone s' := by
  intro j cold
  by_cases me : j = i
  · subst me
    cases step with
    | freeze pc => exact Function.update_self ..
    | receive stage reply q pc popped =>
        obtain ⟨_, same⟩ := ThreadQ.pop_eq_some.mp popped
        have before : (s.minerQ j).frozen = true := by simpa [same] using cold
        rw [frozen j before] at pc
        cases pc
    | askNoMemory pc | askRefused pc _ | ask _ pc _ | sleep pc _ | wakeEmpty _ pc _ | clear _ _ pc _
    | read _ _ _ pc _ | notFound _ _ _ _ _ pc _ _ _ | found _ _ _ _ _ pc _ _ _
    | submitNoMemory _ pc | copy _ _ pc _ | handNoMemory _ _ pc | handRefused _ _ pc _
    | hand _ _ _ pc _ =>
        rw [frozen j cold] at pc
        cases pc
  · rw [step.other_minerQ me] at cold
    rw [step.other_miner me]
    exact frozen j cold

theorem WorkioStep.frozen {a : WorkioAction} (step : WorkioStep cfg s a s') (i : Fin n) :
    (s'.minerQ i).frozen = (s.minerQ i).frozen := by
  cases step with
  | sendReply reply q pc pushed =>
      obtain ⟨_, rfl⟩ := ThreadQ.push_eq_some.mp pushed
      by_cases me : i = reply.unit.request.thr
      · subst me
        simp
      · exact congrArg ThreadQ.frozen (Function.update_of_ne me ..)
  | replyRefused reply pc frozen => simp
  | _ => rfl

theorem frozenDone {allowed : State n → Action n → Prop} (reached : Reachable cfg allowed s) :
    FrozenDone s := by
  refine reached.invariant ?_ ?_
  · intro s init i cold
    rw [init.minerQ] at cold
    cases cold
  · rintro s a s' reached frozen step _
    cases step with
    | main step =>
        cases step with
        | create i pc =>
            intro j cold
            have done := frozen j cold
            have absent := absentFrom reached pc
            by_cases me : j = i
            · subst me
              rw [absent j (Nat.le_refl _)] at done
              cases done
            · simpa [me] using done
        | join | joined => exact frozen
    | miner step => exact step.frozenDone frozen
    | workio step =>
        intro i cold
        rw [step.frozen] at cold
        have done := frozen i cold
        rcases step.miner i with same | signal
        · rwa [same]
        · rw [signal, done]
          rfl
    | longpoll step => cases step <;> exact frozen

/-! ### Waiting miners -/

/-- When `tq_push` cannot allocate the entry of a reply, the requester does not wait for it any more. -/
def RepliesAllocated (s : State n) (a : Action n) : Prop :=
  a = .workio .replyLost → ∀ reply, s.workio = .replying reply →
    ¬ (s.miner reply.unit.request.thr).Waits

/-- The request of a miner that waits is on its way, until `workio_thread` ends. -/
def WaitersServed (s : State n) : Prop :=
  ∀ i, (s.miner i).Waits → s.workio = .done ∨ s.inFlight i ≠ []

theorem MinerStep.workio_done {i : Fin n} {a : MinerAction} (step : MinerStep cfg i s a s')
    (done : s.workio = .done) : s'.workio = .done := by
  rcases step.workio with same | signal
  · rwa [same]
  · rw [signal, done]
    rfl

theorem MinerStep.waitersServed {i : Fin n} {a : MinerAction} (step : MinerStep cfg i s a s')
    (served : WaitersServed s) : WaitersServed s' := by
  intro j waits
  have others : j ≠ i → (s.miner j).Waits := fun me => step.other_miner me ▸ waits
  rcases step.requests with ⟨_, _, commands, minerQ, _⟩ | ⟨reply, q, ready, _, commands, minerQ, _⟩ |
    ⟨_, popping, commands, minerQ, _, _, _⟩
  · rw [inFlight_ask commands minerQ]
    by_cases me : j = i
    · subst me
      right
      simp [State.nextRequest]
    · refine (served j (others me)).imp step.workio_done fun flight => ?_
      exact List.append_ne_nil_of_left_ne_nil flight _
  · by_cases me : j = i
    · subst me
      obtain ⟨stage, pc⟩ := waits
      rw [ready] at pc
      cases pc
    · have same : s'.inFlight j = s.inFlight j := by
        refine inFlight_eq commands ?_
        rw [minerQ, Function.update_of_ne me]
      rw [same]
      exact (served j (others me)).imp_left step.workio_done
  · have before : (s.miner j).Waits := by
      by_cases me : j = i
      · subst me
        obtain ⟨stage, pc⟩ := waits
        exact ⟨.entering, popping stage pc⟩
      · exact others me
    rw [inFlight_eq commands (minerQ j)]
    exact (served j before).imp_left step.workio_done

/-- The requests of the other miners are on their way as before. -/
theorem inFlight_drop {request : Request n} {i : Fin n} (commands : s.commands = request :: s'.commands)
    (q : (s'.minerQ i).q = (s.minerQ i).q) (other : request.thr ≠ i) :
    s'.inFlight i = s.inFlight i := by
  simp [State.inFlight, State.outstanding, commands, q, other]

theorem WorkioStep.waitersServed {a : WorkioAction} (step : WorkioStep cfg s a s')
    (fine : RepliesAllocated s (.workio a)) (frozen : FrozenDone s) (served : WaitersServed s) :
    WaitersServed s' := by
  intro j waits
  have before : (s.miner j).Waits := by
    rcases step.miner j with same | signal
    · rwa [same] at waits
    · rwa [signal, MinerPc.signal_waits] at waits
  rcases served j before with done | flight
  · exact absurd done step.not_done
  · rcases step.commands with ⟨commands, q⟩ | ⟨request, commands, q, why⟩ | ⟨reply, _, commands, q⟩
    · right
      rwa [inFlight_eq commands (q j)]
    · by_cases mine : request.thr = j
      · subst mine
        rcases why with ended | cold | ⟨rfl, reply, pc, rfl⟩
        · exact .inl ended
        · obtain ⟨stage, pc⟩ := before
          rw [frozen _ cold] at pc
          cases pc
        · exact absurd before (fine rfl reply pc)
      · right
        rwa [inFlight_drop commands (q j) mine]
    · right
      rwa [inFlight_deliver commands q]

theorem waitersServed (reached : Reachable cfg RepliesAllocated s) : WaitersServed s := by
  refine reached.invariant ?_ ?_
  · rintro s init i ⟨stage, pc⟩
    rw [init.miner] at pc
    cases pc
  · rintro s a s' reached served step fine
    cases step with
    | main step =>
        cases step with
        | create i pc =>
            rintro j ⟨stage, waits⟩
            by_cases me : j = i
            · subst me
              simp at waits
            · exact served j ⟨stage, by simpa [me] using waits⟩
        | join | joined => exact served
    | miner step => exact step.waitersServed served
    | workio step => exact step.waitersServed fine (frozenDone reached) served
    | longpoll step => cases step <;> exact served

/-! ### Blocked miners -/

/-- The thread waits in `get_work` on its empty queue. -/
def BlockedInGetWork (s : State n) (i : Fin n) : Prop :=
  (∃ signalled, s.miner i = .popping (.asleep signalled)) ∧ (s.minerQ i).q = []

/-- A `WC_GET_WORK` of the thread is on the queue of `workio_thread`, or `workio_thread` is processing it. That
    includes `.stopping`, where it has left its loop and is about to free the command. -/
def CommandPending (s : State n) (i : Fin n) : Prop :=
  ∃ request, request.thr = i ∧
    (.getWork request ∈ s.workioQ.q ∨ s.workio.request? = some request)

theorem mem_commands {request : Request n} :
    request ∈ s.commands ↔ s.workio.request? = some request ∨ .getWork request ∈ s.workioQ.q := by
  simp only [State.commands, List.mem_append, Option.mem_toList, List.mem_filterMap]
  refine or_congr_right ⟨?_, fun mem => ⟨_, mem, rfl⟩⟩
  rintro ⟨cmd, mem, same⟩
  cases cmd with
  | getWork request' =>
      obtain rfl := Option.some.inj same
      exact mem
  | submitWork _ _ _ => cases same

/-- In a run in which every reply to a waiting miner gets its queue entry, whoever is blocked in `get_work` has its
    command pending, until `workio_thread` has ended. -/
theorem requester_not_stranded (reached : Reachable cfg RepliesAllocated s) {i : Fin n}
    (blocked : BlockedInGetWork s i) (running : s.workio ≠ .done) : CommandPending s i := by
  obtain ⟨⟨signalled, pc⟩, empty⟩ := blocked
  rcases waitersServed reached i ⟨_, pc⟩ with done | flight
  · exact absurd done running
  · have outstanding : s.outstanding i ≠ [] := by simpa [State.inFlight, empty] using flight
    obtain ⟨request, mem⟩ := List.exists_mem_of_ne_nil _ outstanding
    obtain ⟨command, mine⟩ := List.mem_filter.mp mem
    exact ⟨request, by simpa using mine, (mem_commands.mp command).symm⟩

/-- One miner waits for its first reply, which `workio_thread` is about to push. -/
theorem exists_firstReply {allowed : State 1 → Action 1 → Prop}
    (fine : ∀ s a, a ≠ .workio .replyLost → allowed s a) : ∃ s reply,
    Reachable exampleConfig allowed s ∧ s.miner 0 = .popping (.asleep false) ∧
      s.minerQ 0 = .new ∧ s.workio = .replying reply ∧ s.workioQ = .new := by
  have reached : Reachable exampleConfig allowed _ :=
    (Transition.Reachable.start exampleState_init)
      |>.next (.main (.create 0 rfl)) (fine _ _ (by simp))
      |>.next (.miner (i := 0) (.ask _ rfl rfl)) (fine _ _ (by simp))
      |>.next (.miner (i := 0) (.sleep rfl rfl)) (fine _ _ (by simp))
      |>.next (.workio (.start rfl)) (fine _ _ (by simp))
      |>.next (.workio (.takeGetWork _ _ _ rfl rfl)) (fine _ _ (by simp))
      |>.next (.workio (.allocate _ 0 rfl rfl)) (fine _ _ (by simp))
      |>.next (.workio (.reply _ rfl)) (fine _ _ (by simp))
      |>.next (.workio (.decode _ _ exampleWork rfl rfl)) (fine _ _ (by simp))
  exact ⟨_, _, reached, rfl, rfl, rfl, rfl⟩

theorem requester_not_stranded_firstReply : ∃ s, Reachable exampleConfig RepliesAllocated s ∧
    BlockedInGetWork s 0 ∧ s.workio ≠ .done ∧ CommandPending s 0 := by
  obtain ⟨s, reply, reached, miner, minerQ, workio, _⟩ :=
    @exists_firstReply RepliesAllocated fun _ _ other lost => absurd lost other
  have blocked : BlockedInGetWork s 0 := ⟨⟨false, miner⟩, by rw [minerQ]; rfl⟩
  have running : s.workio ≠ .done := by simp [workio]
  exact ⟨s, reached, blocked, running, requester_not_stranded reached blocked running⟩

/-- Without the queue entry the unit is freed, `workio_thread` goes on, and nobody knows of the request. -/
theorem requester_stranded : ∃ s, Reachable exampleConfig Transition.anyStep s ∧
    BlockedInGetWork s 0 ∧ s.workio = .popping .entering ∧ ¬ CommandPending s 0 := by
  obtain ⟨s, reply, reached, miner, minerQ, workio, workioQ⟩ :=
    @exists_firstReply Transition.anyStep fun _ _ _ => trivial
  have lost := reached.next (.workio (.replyNoMemory reply workio)) trivial
  refine ⟨_, lost, ⟨⟨false, miner⟩, congrArg ThreadQ.q minerQ⟩, rfl, ?_⟩
  rintro ⟨request, _, queued | processed⟩
  · have nothing : (s.workioQ).q = [] := congrArg ThreadQ.q workioQ
    have mem : WorkioCmd.getWork request ∈ s.workioQ.q := queued
    rw [nothing] at mem
    cases mem
  · cases processed

end CpuMiner
