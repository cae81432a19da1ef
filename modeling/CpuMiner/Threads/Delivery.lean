/-
Module: CpuMiner.Threads.Delivery
Layer: Threads
Purpose: Shares on their way upstream. The miners and `workio_thread` together are an outbox: `submit_work` accepts a
  share, the queue between them keeps the order, and `workio_submit_work` attempts the shares one after another
  and abandons one after `opt_retries` retries. So the accepted shares are those with a reply, then the one that
  is being sent or was abandoned, then those on the queue, and what is posted is the work as `submit_work` got it.
Imports: CpuMiner.Threads.Memory
Trusted boundary: none
Main exports: Config.limit, outbox, Step.outbox, SharesDelivered, shares_delivered, abandoned_not_working
Open obligations: none
-/
import CpuMiner.Threads.Memory

namespace CpuMiner

open Words
open Function (update)

variable {n : Nat} {cfg : Config n} {s s' : State n}

/-! ### The outbox -/

def WorkioCmd.share? : WorkioCmd n → Option Share
  | .getWork _ => none
  | .submitWork _ _ share => some share

/-- The share that `workio_thread` is sending, and how often that has failed. -/
def WorkioPc.trying : WorkioPc n → Option (Share × Nat)
  | .posting _ _ share failures => some (share, failures)
  | _ => none

/-- How many retries there are; a negative `opt_retries` is no limit. -/
def Config.limit (cfg : Config n) : Option Nat :=
  if cfg.optRetries < 0 then none else some cfg.optRetries.toNat

/-- What is posted for a share. -/
def Share.data (share : Share) : Buf 128 := share.work.data

/-- The miners and `workio_thread` as a sender of shares. -/
def outbox (s : State n) : Outbox.State Share (Buf 128) where
  accepted := s.hist.accepted
  waiting := s.workioQ.q.filterMap WorkioCmd.share?
  trying := s.workio.trying
  abandoned := s.hist.abandoned
  stopped := s.workio.stopped
  log := s.hist.upstream

@[simp] theorem WorkioPc.signal_trying (pc : WorkioPc n) : pc.signal.trying = pc.trying := by
  cases pc <;> rfl

@[simp] theorem filterMap_share_getWork (request : Request n) (cmds : List (WorkioCmd n)) :
    (.getWork request :: cmds).filterMap WorkioCmd.share? = cmds.filterMap WorkioCmd.share? := rfl

/-- The retries that `tryAgain` allows are within the limit. -/
theorem Config.tryAgain_eq_some {failures next r : Nat} (again : cfg.tryAgain failures = some next)
    (limited : cfg.limit = some r) : next = failures + 1 ∧ failures + 1 ≤ r := by
  unfold Config.limit at limited
  unfold Config.tryAgain at again
  split at limited
  · cases limited
  · rename_i bounded
    obtain rfl := Option.some.inj limited
    rw [if_neg bounded] at again
    split at again
    · cases again
    · obtain rfl := Option.some.inj again
      omega

theorem Config.tryAgain_eq_none {failures : Nat} (last : cfg.tryAgain failures = none) :
    ∃ r, cfg.limit = some r ∧ r < failures + 1 := by
  unfold Config.tryAgain at last
  split at last
  · cases last
  · rename_i bounded
    split at last
    · exact ⟨cfg.optRetries.toNat, if_neg bounded, by omega⟩
    · cases last

/-! ### The numbers of the shares -/

/-- The shares are numbered in the order in which they are accepted. -/
def NumbersInOrder (s : State n) : Prop :=
  s.hist.accepted.map (·.number) = List.range s.hist.accepted.length

theorem NumbersInOrder.fresh (order : NumbersInOrder s) (called : Work) :
    s.nextShare called ∉ s.hist.accepted := by
  intro mem
  have number : (s.nextShare called).number ∈ s.hist.accepted.map (·.number) := List.mem_map_of_mem mem
  rw [order, List.mem_range] at number
  exact Nat.lt_irrefl _ number

theorem MinerStep.numbersInOrder {i : Fin n} {a : MinerAction} (step : MinerStep cfg i s a s')
    (order : NumbersInOrder s) : NumbersInOrder s' := by
  cases step with
  | hand called a q pc pushed =>
      unfold NumbersInOrder at order ⊢
      simp [order, List.range_succ, State.nextShare]
  | _ => exact order

theorem numbersInOrder {allowed : State n → Action n → Prop} (reached : Reachable cfg allowed s) :
    NumbersInOrder s := by
  refine reached.invariant ?_ ?_
  · intro s init
    simp [NumbersInOrder, init.hist, History.empty]
  · rintro s a s' _ order step _
    cases step with
    | main step => cases step <;> exact order
    | miner step => exact step.numbersInOrder order
    | workio step => cases step <;> exact order
    | longpoll step => cases step <;> exact order

/-! ### The refinement -/

/-- A miner hands a share over, or leaves the outbox alone. -/
theorem MinerStep.outbox {i : Fin n} {a : MinerAction} (step : MinerStep cfg i s a s')
    (order : NumbersInOrder s) :
    outbox s' = outbox s ∨ Outbox.Step Share.data cfg.limit (outbox s) (outbox s') := by
  cases step with
  | hand called a q pc pushed =>
      obtain ⟨_, rfl⟩ := ThreadQ.push_eq_some.mp pushed
      have accept : Outbox.Step Share.data cfg.limit (CpuMiner.outbox s) _ :=
        .accept (s.nextShare called) (order.fresh called)
      right
      simpa [CpuMiner.outbox, WorkioCmd.share?] using accept
  | ask q pc pushed =>
      obtain ⟨_, rfl⟩ := ThreadQ.push_eq_some.mp pushed
      left
      simp [CpuMiner.outbox, WorkioCmd.share?]
  | _ =>
      left
      simp [CpuMiner.outbox]

/-- Every step of `workio_thread` is a step of the outbox, or leaves it alone. -/
theorem WorkioStep.outbox {a : WorkioAction} (step : WorkioStep cfg s a s') (owned : MemoryOwned s) :
    outbox s' = outbox s ∨ Outbox.Step Share.data cfg.limit (outbox s) (outbox s') := by
  -- what is behind the pointer of the command is the work of its share
  have honest : ∀ {thr a share failures} {memory : Bool}, s.workio = .posting thr a share failures →
      ∀ v, (if memory then some (s.heap a).data else none) = some v → v = share.data := by
    intro thr a share failures memory pc v posted
    have mine : (a, some share.work) ∈ held s .workio := by simp [held, pc, WorkioPc.blocks]
    rw [owned.content mine] at posted
    cases memory with
    | true => exact (Option.some.inj posted).symm
    | false => cases posted
  cases step with
  | takeSubmitWork stage thr a share q pc popped =>
      obtain ⟨entries, _⟩ := ThreadQ.pop_eq_some.mp popped
      have take : Outbox.Step Share.data cfg.limit (CpuMiner.outbox s) _ :=
        .take share (q.q.filterMap WorkioCmd.share?) (by simp [CpuMiner.outbox, pc, WorkioPc.trying])
          (by simp [CpuMiner.outbox, pc, WorkioPc.stopped])
          (by simp [CpuMiner.outbox, entries, WorkioCmd.share?])
      right
      simpa [CpuMiner.outbox, pc, WorkioPc.trying, WorkioPc.stopped] using take
  | post thr a share failures pc =>
      have posted := @honest thr a share failures true pc _ rfl
      have succeed : Outbox.Step Share.data cfg.limit (CpuMiner.outbox s) _ :=
        .succeed share failures (by simp [CpuMiner.outbox, pc, WorkioPc.trying])
      right
      simpa [CpuMiner.outbox, pc, WorkioPc.trying, WorkioPc.stopped, posted] using succeed
  | postAgain thr a share failures next memory pc again =>
      have retry : Outbox.Step Share.data cfg.limit (CpuMiner.outbox s) _ :=
        .retry share failures next _ (by simp [CpuMiner.outbox, pc, WorkioPc.trying])
          (@honest thr a share failures memory pc) fun r limited => Config.tryAgain_eq_some again limited
      right
      simpa [CpuMiner.outbox, pc, WorkioPc.trying, WorkioPc.stopped] using retry
  | postEnds thr a share failures memory pc last =>
      obtain ⟨r, limited, many⟩ := Config.tryAgain_eq_none last
      have abandon : Outbox.Step Share.data cfg.limit (CpuMiner.outbox s) _ :=
        .abandon share failures r _ (by simp [CpuMiner.outbox, pc, WorkioPc.trying])
          (@honest thr a share failures memory pc) ⟨limited, many⟩
      right
      simpa [CpuMiner.outbox, pc, WorkioPc.trying, WorkioPc.stopped] using abandon
  | startFails pc | wakeEmpty _ pc _ | noMemory _ pc =>
      have stop : Outbox.Step Share.data cfg.limit (CpuMiner.outbox s) _ :=
        .stop (by simp [CpuMiner.outbox, pc, WorkioPc.trying])
      right
      simpa [CpuMiner.outbox, pc, WorkioPc.trying, WorkioPc.stopped] using stop
  | fetchEnds fetch pc last =>
      have stop : Outbox.Step Share.data cfg.limit (CpuMiner.outbox s) _ := .stop (by
        rcases pc with pc | ⟨stamp, pc⟩ <;> simp [CpuMiner.outbox, pc, WorkioPc.trying])
      right
      rcases pc with pc | ⟨stamp, pc⟩ <;>
        simpa [CpuMiner.outbox, pc, WorkioPc.trying, WorkioPc.stopped] using stop
  | fetchAgain fetch failures pc again =>
      left
      rcases pc with pc | ⟨stamp, pc⟩ <;>
        simp [CpuMiner.outbox, pc, WorkioPc.trying, WorkioPc.stopped]
  | takeGetWork stage request q pc popped =>
      obtain ⟨entries, _⟩ := ThreadQ.pop_eq_some.mp popped
      left
      simp [CpuMiner.outbox, pc, entries, WorkioPc.trying, WorkioPc.stopped]
  | stop cmd pc =>
      left
      simp [CpuMiner.outbox, pc, WorkioPc.trying, WorkioPc.stopped, State.cmdFree, ThreadQ.freeze]
  | start pc | sleep pc _ | allocate _ _ pc _ | reply _ pc | replyNamesPath _ pc _
  | announce _ _ _ pc _ | announceRefused _ _ pc _ | announceNoMemory _ _ pc | decode _ _ _ pc _
  | sendReply _ _ pc _ | replyRefused _ pc _ | replyNoMemory _ pc =>
      left
      simp [CpuMiner.outbox, pc, WorkioPc.trying, WorkioPc.stopped]

/-- The program is an outbox: each of its steps is a step of it, or leaves it alone. -/
theorem Step.outbox {a : Action n} (step : Step cfg s a s') (order : NumbersInOrder s)
    (owned : MemoryOwned s) :
    outbox s' = outbox s ∨ Outbox.Step Share.data cfg.limit (outbox s) (outbox s') := by
  cases step with
  | main step => cases step <;> exact .inl rfl
  | miner step => exact step.outbox order
  | workio step => exact step.outbox owned
  | longpoll step => cases step <;> exact .inl rfl

theorem outbox_inv {allowed : State n → Action n → Prop} (reached : Reachable cfg allowed s) :
    Outbox.Inv Share.data cfg.limit (outbox s) := by
  refine reached.invariant (I := fun s => Outbox.Inv Share.data cfg.limit (outbox s)) ?_ ?_
  · intro s init
    refine Outbox.Inv.init ?_ ?_ ?_ ?_ ?_
    all_goals simp [outbox, init.hist, init.workio, init.workioQ, History.empty, ThreadQ.new,
      WorkioPc.trying]
  · rintro s a s' reached inv step _
    rcases step.outbox (numbersInOrder reached) (memory_owned reached) with same | moves
    · rwa [same]
    · exact inv.step moves

/-- Once `workio_thread` has left its loop, nothing is attempted. -/
theorem stopped_run (reached : Reachable cfg Transition.anyStep s) (stopped : s.workio.stopped = true)
    (run : Transition.Run (Step cfg) Transition.anyStep s s') :
    s'.workio.stopped = true ∧ s'.hist.upstream = s.hist.upstream := by
  have both : Reachable cfg Transition.anyStep s' ∧ s'.workio.stopped = true ∧
      s'.hist.upstream = s.hist.upstream := by
    refine run.invariant (I := fun s' => Reachable cfg Transition.anyStep s' ∧
      s'.workio.stopped = true ∧ s'.hist.upstream = s.hist.upstream) ⟨reached, stopped, rfl⟩ ?_
    rintro t a t' ⟨reached, stopped, log⟩ step fine
    refine ⟨reached.next step fine, ?_⟩
    rcases step.outbox (numbersInOrder reached) (memory_owned reached) with same | moves
    · have stopped' := congrArg Outbox.State.stopped same
      have log' := congrArg Outbox.State.log same
      exact ⟨stopped'.trans stopped, log'.trans log⟩
    · have idle := (outbox_inv reached).idle stopped
      obtain ⟨stopped', _, log'⟩ := moves.stopped idle stopped
      exact ⟨stopped', log'.trans log⟩
  exact both.2

/-! ### The delivery -/

/-- The shares whose calls have returned a reply, in this order. -/
def State.replied (s : State n) : List Share := Outbox.replied s.hist.upstream

/-- The share that `workio_thread` is working on. -/
def State.workingOn (s : State n) : List Share :=
  match s.workio with
  | .posting _ _ share _ => [share]
  | .stopping (some cmd) => cmd.share?.toList
  | _ => []

/-- The share that `workio_thread` is sending, or the one it has given up. -/
def State.sendingOrAbandoned (s : State n) : List Share :=
  (s.workio.trying.map Prod.fst).toList ++ s.hist.abandoned

/-- The shares on the queue of `workio_thread`. -/
def State.queued (s : State n) : List Share := s.workioQ.q.filterMap WorkioCmd.share?

/-- How often `submit_upstream_work` was called for a share. -/
def State.attempts (s : State n) (share : Share) : Nat := Outbox.attempts s.hist.upstream share

/-- The accepted shares, numbered as they come, are those with a reply, the one that is being sent or was
    abandoned if there is one, and those on the queue. What is posted is the data of the share. After its reply, or
    after `opt_retries + 1` attempts, a share is not attempted; and nothing is after one is abandoned. -/
structure SharesDelivered (cfg : Config n) (s : State n) : Prop where
  inOrder : s.hist.accepted = s.replied ++ s.sendingOrAbandoned ++ s.queued
  atMostOne : s.sendingOrAbandoned.length ≤ 1
  numbers : s.hist.accepted.map (·.number) = List.range s.hist.accepted.length
  posted : ∀ share data, .attempt share (some data) ∈ s.hist.upstream →
    share ∈ s.hist.accepted ∧ data = share.work.data
  acknowledged : Outbox.AttemptedBeforeReply s.hist.upstream
  bounded : 0 ≤ cfg.optRetries → ∀ share, s.attempts share ≤ cfg.optRetries + 1
  abandoned : ∀ share ∈ s.hist.abandoned, 0 ≤ cfg.optRetries ∧ s.attempts share = cfg.optRetries + 1
  stops : s.hist.abandoned ≠ [] → ∀ s', Transition.Run (Step cfg) Transition.anyStep s s' →
    s'.workio.stopped = true ∧ s'.hist.upstream = s.hist.upstream

theorem Config.limit_eq_some {r : Nat} : cfg.limit = some r ↔ cfg.optRetries = r := by
  unfold Config.limit
  split
  · simp only [reduceCtorEq, false_iff]
    omega
  · simp only [Option.some.injEq]
    omega

/-- In every state that the program can come to, the accepted shares are delivered in order. -/
theorem shares_delivered (reached : Reachable cfg Transition.anyStep s) : SharesDelivered cfg s := by
  have inv := outbox_inv reached
  refine ⟨inv.inOrder, inv.atMostOne, numbersInOrder reached, ?_, inv.noMore, ?_, ?_, ?_⟩
  · intro share data mem
    refine ⟨?_, inv.honest share data mem⟩
    have whole : s.hist.accepted = s.replied ++ s.sendingOrAbandoned ++ s.queued := inv.inOrder
    rw [whole]
    exact List.mem_append_left _ (inv.attempted share _ mem)
  · intro limited share
    have bound := inv.bounded cfg.optRetries.toNat (Config.limit_eq_some.mpr (by omega)) share
    have count : s.attempts share = Outbox.attempts (outbox s).log share := rfl
    omega
  · intro share mem
    obtain ⟨r, limited, count⟩ := inv.exhausted share mem
    have retries := Config.limit_eq_some.mp limited
    have same : s.attempts share = Outbox.attempts (outbox s).log share := rfl
    omega
  · intro some s' run
    exact stopped_run reached (inv.stopped some) run

/-! ### A first share -/

/-- A scan of the example unit finds a nonce before it reads its flag. -/
theorem exampleScan_found :
    (scanAfter .via exampleWork 0xffffff exampleOutside []).map (·.rc) = some true := by
  decide +kernel

/-- `workio_thread` is about to post the first share, and nothing else is on its way. -/
structure FirstShare (s : State 1) (a : Addr) (share : Share) : Prop where
  workio : s.workio = .posting 0 a share 0
  workioQ : s.workioQ = .new
  accepted : s.hist.accepted = [share]
  upstream : s.hist.upstream = []
  abandoned : s.hist.abandoned = []

theorem exists_firstShare : ∃ s a share, Reachable exampleConfig Transition.anyStep s ∧
    FirstShare s a share := by
  obtain ⟨s, reached, first⟩ := @exists_firstUnit Transition.anyStep fun _ _ _ => trivial
  obtain ⟨ret, returned, rc⟩ := Option.map_eq_some_iff.mp exampleScan_found
  obtain ⟨main, miner, workio, longpoll, minerQ, workioQ, longpollQ, work, maxNonce, workRestart,
    haveLongpoll, heap, allocated, hist⟩ := s
  obtain rfl : workio = .popping .entering := first.workio
  obtain rfl : workioQ = .new := first.workioQ
  have posting := reached
    |>.next (.miner (.clear firstUnit (scanAfter .via exampleWork 0xffffff exampleOutside) first.miner
      ⟨exampleOutside, by rw [first.work, first.maxNonce]⟩)) trivial
    |>.next (.miner (i := 0) (.found _ _ _ ret (maxNonce 0) rfl returned rc (.inl rfl))) trivial
    |>.next (.miner (i := 0) (.copy ret.work 0 rfl (first.allocated 0))) trivial
    |>.next (.miner (i := 0) (.hand ret.work 0 _ rfl rfl)) trivial
    |>.next (.workio (.takeSubmitWork _ _ _ _ _ rfl rfl)) trivial
  refine ⟨_, 0, _, posting, rfl, rfl, ?_, first.upstream, first.abandoned⟩
  exact congrArg (· ++ [_]) first.accepted

theorem shares_delivered_firstShare : ∃ s share, Reachable exampleConfig Transition.anyStep s ∧
    s.hist.accepted = [share] ∧ s.replied = [share] ∧ SharesDelivered exampleConfig s := by
  obtain ⟨s, a, share, reached, first⟩ := exists_firstShare
  have posted := reached.next (.workio (.post 0 a share 0 first.workio)) trivial
  refine ⟨_, share, posted, first.accepted, ?_, shares_delivered posted⟩
  simp [State.replied, first.upstream]

/-- When the only attempt fails, the share is accepted and has no reply, and `workio_thread` neither works on it
    nor has it on its queue. -/
theorem abandoned_not_working : ∃ s, Reachable exampleConfig Transition.anyStep s ∧
    s.hist.accepted ≠ s.replied ++ s.workingOn ++ s.queued := by
  obtain ⟨s, a, share, reached, first⟩ := exists_firstShare
  have stopped := reached
    |>.next (.workio (.postEnds 0 a share 0 true first.workio rfl)) trivial
    |>.next (.workio (.stop _ rfl)) trivial
  refine ⟨_, stopped, ?_⟩
  simp [State.replied, State.workingOn, State.queued, State.cmdFree, first.accepted, first.upstream,
    first.workioQ, ThreadQ.new, ThreadQ.freeze]

end CpuMiner
