/-
Module: CpuMiner.Threads.Memory
Layer: Threads
Purpose: Who has the work structs on the heap. A struct goes from the thread that allocates it through a queue to the
  thread that frees it; all the time exactly one of them has it, and until it is freed it contains what it is
  supposed to contain. So no struct is used after it is freed, freed twice or leaked.
Imports: CpuMiner.Lib.Ownership, CpuMiner.Threads.Step
Trusted boundary: none
Main exports: Holder, held, CalledWork, memory_owned, allocated_iff_held, calledWork
Open obligations: none
-/
import CpuMiner.Lib.Ownership
import CpuMiner.Threads.Step

namespace CpuMiner

open Ownership
open Function (update)

variable {n : Nat} {cfg : Config n} {s s' : State n}

/-- Those who have work structs: the threads, and the queues between them. -/
inductive Holder (n : Nat) where
  | miner (i : Fin n)
  | queue
  | workio
  | replies (i : Fin n)
deriving DecidableEq

/-- What a miner has in `submit_work`. -/
def MinerPc.blocks : MinerPc n → List (Block Addr Work)
  | .handing called a => [(a, some called)]
  | _ => []

def WorkioCmd.block : WorkioCmd n → Option (Block Addr Work)
  | .getWork _ => none
  | .submitWork _ a share => some (a, some share.work)

def Reply.block (reply : Reply n) : Block Addr Work := (reply.work, some reply.unit.work)

/-- What `workio_thread` has: `ret_work`, or the work of its command. -/
def WorkioPc.blocks : WorkioPc n → List (Block Addr Work)
  | .fetching fetch | .announcing fetch _ | .decoding fetch _ => [(fetch.retWork, none)]
  | .replying reply => [reply.block]
  | .posting _ a share _ => [(a, some share.work)]
  | .stopping (some cmd) => cmd.block.toList
  | .starting | .popping _ | .allocating _ | .stopping none | .done => []

/-- The work structs that somebody has. -/
def held (s : State n) : Holder n → List (Block Addr Work)
  | .miner i => (s.miner i).blocks
  | .queue => s.workioQ.q.filterMap WorkioCmd.block
  | .workio => s.workio.blocks
  | .replies i => (s.minerQ i).q.map Reply.block

def MemoryOwned (s : State n) : Prop := Owned (held s) s.allocated s.heap

@[simp] theorem MinerPc.signal_blocks (pc : MinerPc n) : pc.signal.blocks = pc.blocks := by
  cases pc <;> rfl

@[simp] theorem WorkioPc.signal_blocks (pc : WorkioPc n) : pc.signal.blocks = pc.blocks := by
  cases pc <;> rfl

theorem WorkioPc.Calls.blocks {pc : WorkioPc n} {fetch : Fetch n} (calls : pc.Calls fetch) :
    pc.blocks = [(fetch.retWork, none)] := by
  rcases calls with rfl | ⟨stamp, rfl⟩ <;> rfl

/-! ### The work of a share -/

/-- `submit_work` is called with the variable `work`, and nothing changes it during the call. -/
def CalledWork (s : State n) : Prop := ∀ i called, s.miner i = .submitting called → s.work i = called

theorem MinerStep.calledWork {i : Fin n} {a : MinerAction} (step : MinerStep cfg i s a s')
    (called : CalledWork s) : CalledWork s' := by
  intro j work pc'
  by_cases same : j = i
  · subst same
    cases step with
    | found => simpa using pc'
    | _ => simp at pc'
  · rw [step.other_miner same] at pc'
    have old := called j work pc'
    cases step <;> simpa [same] using old

theorem MinerPc.signal_eq_submitting {pc : MinerPc n} {called : Work} :
    pc.signal = .submitting called ↔ pc = .submitting called := by
  cases pc <;> simp [MinerPc.signal]

/-- Another thread signals a miner at most. -/
theorem CalledWork.frame (called : CalledWork s)
    (pc : ∀ i, s'.miner i = s.miner i ∨ s'.miner i = (s.miner i).signal)
    (work : s'.work = s.work) : CalledWork s' := by
  intro i w now
  rw [work]
  rcases pc i with same | signal
  · exact called i w (same ▸ now)
  · rw [signal, MinerPc.signal_eq_submitting] at now
    exact called i w now

theorem WorkioStep.work {a : WorkioAction} (step : WorkioStep cfg s a s') : s'.work = s.work := by
  cases step <;> rfl

theorem MainStep.calledWork (step : MainStep s s') (called : CalledWork s) : CalledWork s' := by
  cases step with
  | create i _ =>
      intro j work pc'
      by_cases same : j = i
      · subst same
        simp at pc'
      · simp only [State.minerAt, Function.update_of_ne same] at pc'
        exact called j work pc'
  | join | joined => exact called

theorem LongpollStep.calledWork {a : LongpollAction} (step : LongpollStep s a s')
    (called : CalledWork s) : CalledWork s' := by
  cases step <;> exact called

theorem calledWork {allowed : State n → Action n → Prop} (reached : Reachable cfg allowed s) :
    CalledWork s := by
  refine reached.invariant ?_ ?_
  · rintro s init i called pc
    rw [init.miner] at pc
    cases pc
  · rintro s a s' _ called step _
    cases step with
    | main step => exact step.calledWork called
    | miner step => exact step.calledWork called
    | workio step => exact called.frame step.miner step.work
    | longpoll step => exact step.calledWork called

/-! ### Ownership -/

theorem Init.owned (init : Init cfg s) : MemoryOwned s := by
  refine Owned.init ?_ init.allocated
  rintro (i | _ | _ | i)
  · simp [held, init.miner, MinerPc.blocks]
  · simp [held, init.workioQ, ThreadQ.new]
  · simp [held, init.workio, WorkioPc.blocks]
  · simp [held, init.minerQ, ThreadQ.new]

/-- A step after which everybody has the same blocks. -/
theorem MemoryOwned.frame (owned : MemoryOwned s)
    (miner : ∀ i, (s'.miner i).blocks = (s.miner i).blocks)
    (queue : s'.workioQ.q.filterMap WorkioCmd.block = s.workioQ.q.filterMap WorkioCmd.block)
    (workio : s'.workio.blocks = s.workio.blocks) (replies : ∀ i, (s'.minerQ i).q = (s.minerQ i).q)
    (allocated : s'.allocated = s.allocated) (heap : s'.heap = s.heap) : MemoryOwned s' := by
  unfold MemoryOwned
  rw [allocated, heap]
  refine owned.same ?_
  rintro (i | _ | _ | i)
  · exact miner i
  · exact queue
  · exact workio
  · exact congrArg (List.map Reply.block) (replies i)

/-- A step after which everybody but `workio_thread` has the same blocks. -/
private theorem held_except_workio (miner : s'.miner = s.miner) (queue : s'.workioQ = s.workioQ)
    (replies : s'.minerQ = s.minerQ) : ∀ k, k ≠ .workio → held s' k = held s k := by
  rintro (i | _ | _ | i) other
  · exact congrArg MinerPc.blocks (congrFun miner i)
  · simp only [held, queue]
  · exact absurd rfl other
  · simp only [held, replies]

/-- A step after which everybody but one miner has the same blocks. -/
private theorem held_except_miner {i : Fin n} (miner : ∀ j, j ≠ i → s'.miner j = s.miner j)
    (queue : s'.workioQ = s.workioQ) (workio : s'.workio.blocks = s.workio.blocks)
    (replies : s'.minerQ = s.minerQ) : ∀ k, k ≠ .miner i → held s' k = held s k := by
  rintro (j | _ | _ | j) other
  · exact congrArg MinerPc.blocks (miner j fun same => other (congrArg Holder.miner same))
  · simp only [held, queue]
  · exact workio
  · simp only [held, replies]

/-- A miner that comes to a place where it has the same blocks. -/
private theorem blocks_update {i j : Fin n} {old new : MinerPc n} (pc : s.miner i = old)
    (same : new.blocks = old.blocks) : (update s.miner i new j).blocks = (s.miner j).blocks := by
  by_cases me : j = i
  · subst me
    rw [Function.update_self, same, pc]
  · rw [Function.update_of_ne me]

/-- A signal changes no blocks. -/
private theorem blocks_signal {i j : Fin n} :
    (update s.miner i (s.miner i).signal j).blocks = (s.miner j).blocks :=
  blocks_update rfl (MinerPc.signal_blocks _)

private theorem replies_update {i j : Fin n} {q : ThreadQ (Reply n)} (same : q.q = (s.minerQ i).q) :
    (update s.minerQ i q j).q = (s.minerQ j).q := by
  by_cases me : j = i
  · subst me
    rw [Function.update_self, same]
  · rw [Function.update_of_ne me]

theorem MinerStep.owned {i : Fin n} {a : MinerAction} (step : MinerStep cfg i s a s')
    (called : CalledWork s) (owned : MemoryOwned s) : MemoryOwned s' := by
  have others : ∀ j, j ≠ i → s'.miner j = s.miner j := fun j ne => step.other_miner ne
  cases step with
  | receive stage reply q pc popped =>
      obtain ⟨entries, _⟩ := ThreadQ.pop_eq_some.mp popped
      refine owned.release (.replies i) (c := some reply.unit.work) ?_ ?_
      · simp [held, entries, Reply.block]
      · rintro (j | _ | _ | j) other
        · exact blocks_update pc rfl
        · rfl
        · rfl
        · have ne : j ≠ i := fun same => other (congrArg Holder.replies same)
          simp [held, ne]
  | copy work a pc fresh =>
      refine owned.allocate (.miner i) (c := some work) fresh ?_ ?_ (held_except_miner others rfl rfl rfl)
      · rintro w ⟨⟩
        exact called i work pc
      · simp [held, pc, MinerPc.blocks]
  | handNoMemory work a pc =>
      refine owned.release (.miner i) (c := some work) ?_ (held_except_miner others rfl rfl rfl)
      simp [held, pc, MinerPc.blocks]
  | handRefused work a pc frozen =>
      refine owned.release (.miner i) (c := some work) ?_
        (held_except_miner others rfl (WorkioPc.signal_blocks _) rfl)
      simp [held, pc, MinerPc.blocks]
  | hand work a q pc pushed =>
      obtain ⟨_, rfl⟩ := ThreadQ.push_eq_some.mp pushed
      refine owned.transfer (.miner i) .queue nofun (p := (a, some work)) ?_ ?_ ?_
      · simp [held, pc, MinerPc.blocks]
      · simp only [held, State.pushWorkioQ, State.minerAt, State.accept, State.note,
          List.filterMap_append]
        exact List.perm_append_singleton ..
      · rintro (j | _ | _ | j) other elsewhere
        · have ne : j ≠ i := fun same => other (congrArg Holder.miner same)
          simp [held, ne]
        · exact absurd rfl elsewhere
        · simp [held]
        · rfl
  | ask q pc pushed =>
      obtain ⟨_, rfl⟩ := ThreadQ.push_eq_some.mp pushed
      have queue : (s.workioQ.q ++ [WorkioCmd.getWork (s.nextRequest i)]).filterMap WorkioCmd.block =
          s.workioQ.q.filterMap WorkioCmd.block := by
        simp [WorkioCmd.block]
      exact owned.frame (fun _ => blocks_update pc rfl) queue (WorkioPc.signal_blocks _) (fun _ => rfl)
        rfl rfl
  | askRefused pc _ =>
      exact owned.frame (fun _ => blocks_update pc rfl) rfl (WorkioPc.signal_blocks _) (fun _ => rfl)
        rfl rfl
  | freeze pc =>
      exact owned.frame (fun _ => blocks_update pc rfl) rfl rfl (fun _ => replies_update rfl) rfl rfl
  | askNoMemory pc | sleep pc _ | wakeEmpty _ pc _ | clear _ _ pc _ | read _ _ _ pc _
  | notFound _ _ _ _ _ pc _ _ _ | found _ _ _ _ _ pc _ _ _ | submitNoMemory _ pc =>
      exact owned.frame (fun _ => blocks_update pc rfl) rfl rfl (fun _ => rfl) rfl rfl

theorem WorkioStep.owned {a : WorkioAction} (step : WorkioStep cfg s a s') (owned : MemoryOwned s) :
    MemoryOwned s' := by
  cases step with
  | takeSubmitWork stage thr a share q pc popped =>
      obtain ⟨entries, _⟩ := ThreadQ.pop_eq_some.mp popped
      refine owned.transfer .queue .workio nofun (p := (a, some share.work)) ?_ ?_ ?_
      · simp [held, entries, WorkioCmd.block]
      · simp [held, pc, WorkioPc.blocks]
      · rintro (j | _ | _ | j) other elsewhere
        · rfl
        · exact absurd rfl other
        · exact absurd rfl elsewhere
        · rfl
  | allocate request a pc fresh =>
      refine owned.allocate .workio (c := none) fresh nofun ?_ (held_except_workio rfl rfl rfl)
      simp [held, pc, WorkioPc.blocks]
  | fetchEnds fetch pc last =>
      refine owned.release .workio (c := none) ?_ (held_except_workio rfl rfl rfl)
      have mine : held s .workio = [(fetch.retWork, none)] := pc.blocks
      rw [mine]
      exact .refl _
  | decode fetch stamp work pc hash =>
      have before : (held s .workio).Perm [(fetch.retWork, none)] := by
        simp [held, pc, WorkioPc.blocks]
      refine owned.store .workio before ?_ (held_except_workio rfl rfl rfl)
      simp [held, WorkioPc.blocks, Reply.block]
  | sendReply reply q pc pushed =>
      obtain ⟨_, rfl⟩ := ThreadQ.push_eq_some.mp pushed
      refine owned.transfer .workio (.replies reply.unit.request.thr) nofun (p := reply.block) ?_ ?_ ?_
      · simp [held, pc, WorkioPc.blocks]
      · simp only [held, State.pushMinerQ, State.workioAt, Function.update_self, List.map_append]
        exact List.perm_append_singleton ..
      · rintro (j | _ | _ | j) other elsewhere
        · exact blocks_signal
        · rfl
        · exact absurd rfl other
        · have ne : j ≠ reply.unit.request.thr := fun same => elsewhere (congrArg Holder.replies same)
          simp [held, ne]
  | replyRefused reply pc frozen =>
      refine owned.release .workio (c := some reply.unit.work) ?_ ?_
      · simp [held, pc, WorkioPc.blocks, Reply.block]
      · rintro (j | _ | _ | j) other
        · exact blocks_signal
        · rfl
        · exact absurd rfl other
        · exact congrArg (List.map Reply.block) (replies_update rfl)
  | replyNoMemory reply pc =>
      refine owned.release .workio (c := some reply.unit.work) ?_ (held_except_workio rfl rfl rfl)
      simp [held, pc, WorkioPc.blocks, Reply.block]
  | post thr a share failures pc =>
      -- The attempt and its reply change nothing but the history.
      obtain ⟨hist, noted⟩ : ∃ hist, (s.attempt a share true).answered share = s.note hist := ⟨_, rfl⟩
      rw [noted]
      refine owned.release .workio (c := some share.work) ?_ (held_except_workio rfl rfl rfl)
      simp [held, pc, WorkioPc.blocks]
  | stop cmd pc =>
      rcases cmd with _ | ⟨request | ⟨thr, a, share⟩⟩
      · exact owned.frame (fun _ => rfl) rfl (by simp [pc, WorkioPc.blocks]) (fun _ => rfl) rfl rfl
      · exact owned.frame (fun _ => rfl) rfl (by simp [pc, WorkioPc.blocks, WorkioCmd.block])
          (fun _ => rfl) rfl rfl
      · refine owned.release .workio (c := some share.work) ?_ ?_
        · simp [held, pc, State.cmdFree, WorkioPc.blocks, WorkioCmd.block]
        · rintro (j | _ | _ | j) other
          · rfl
          · rfl
          · exact absurd rfl other
          · rfl
  | takeGetWork stage request q pc popped =>
      obtain ⟨entries, _⟩ := ThreadQ.pop_eq_some.mp popped
      have queue : q.q.filterMap WorkioCmd.block = s.workioQ.q.filterMap WorkioCmd.block := by
        rw [entries]
        rfl
      exact owned.frame (fun _ => rfl) queue (by simp [pc, WorkioPc.blocks]) (fun _ => rfl) rfl rfl
  | fetchAgain fetch failures pc again =>
      exact owned.frame (fun _ => rfl) rfl pc.blocks.symm (fun _ => rfl) rfl rfl
  | start pc | startFails pc | sleep pc _ | wakeEmpty _ pc _ | noMemory _ pc | reply _ pc
  | replyNamesPath _ pc _ | announce _ _ _ pc _ | announceRefused _ _ pc _ | announceNoMemory _ _ pc
  | postAgain _ _ _ _ _ _ pc _ | postEnds _ _ _ _ _ pc _ =>
      exact owned.frame (fun _ => rfl) rfl (by simp [pc, WorkioPc.blocks, WorkioCmd.block])
        (fun _ => rfl) rfl rfl

theorem MainStep.owned (step : MainStep s s') (absent : ∀ i : Fin n, s.main = .creating i →
    s.miner i = .absent) (owned : MemoryOwned s) : MemoryOwned s' := by
  cases step with
  | create i pc =>
      exact owned.frame (fun _ => blocks_update (absent i pc) rfl) rfl rfl (fun _ => rfl) rfl rfl
  | join | joined => exact owned

theorem LongpollStep.owned {a : LongpollAction} (step : LongpollStep s a s') (owned : MemoryOwned s) :
    MemoryOwned s' := by
  cases step <;> exact owned

/-- In every state that the program can come to, every work struct on the heap has exactly one holder. -/
theorem memory_owned {allowed : State n → Action n → Prop} (reached : Reachable cfg allowed s) :
    MemoryOwned s := by
  refine reached.invariant (fun _ init => init.owned) ?_
  rintro s a s' reached owned step _
  cases step with
  | main step => exact step.owned (fun i pc => absentFrom reached pc i (Nat.le_refl _)) owned
  | miner step => exact step.owned (calledWork reached) owned
  | workio step => exact step.owned owned
  | longpoll step => exact step.owned owned

/-- A work struct is allocated as long as it has a holder, and it has one holder at a time: none is used after it
    is freed, none is freed twice, and none leaks. -/
theorem allocated_iff_held {allowed : State n → Action n → Prop} (reached : Reachable cfg allowed s)
    (a : Addr) : s.allocated a = true ↔ ∃! h, a ∈ (held s h).map Prod.fst := by
  have owned := memory_owned reached
  constructor
  · intro used
    obtain ⟨h, c, mine⟩ := owned.held_of_live used
    refine ⟨h, List.mem_map_of_mem mine, ?_⟩
    intro h' has
    obtain ⟨p, yours, same⟩ := List.mem_map.mp has
    exact owned.holder_unique yours mine same
  · rintro ⟨h, has, _⟩
    obtain ⟨p, mine, rfl⟩ := List.mem_map.mp has
    exact owned.live_of_held mine

end CpuMiner
