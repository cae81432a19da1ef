/-
Module: CpuMiner.Threads.Step
Layer: Threads
Purpose: The steps of the threads. Each operation on a queue, each reply from upstream and each read or write of a
  restart flag is one step of its thread; what a thread does between two of them is part of one of the two, because
  no other thread sees it. An allocation may fail wherever the code allocates, and a thread that waits in `tq_pop`
  may always wake up.
Imports: CpuMiner.Lib.Transition, CpuMiner.Miner.Workload, CpuMiner.Threads.State
Trusted boundary: human-reviewed spec (the transcription of the C code)
Main exports: MainStep, MinerStep, WorkioStep, LongpollStep, Action, Step, Reachable
Open obligations: none
-/
import CpuMiner.Lib.Transition
import CpuMiner.Miner.Workload
import CpuMiner.Threads.State

namespace CpuMiner

open Words
open Function (update)

variable {n : Nat}

/-! ### Memory -/

/-- An allocation at `a`, with its first contents. -/
@[simp] def State.alloc (s : State n) (a : Addr) (work : Work) : State n :=
  { s with heap := update s.heap a work, allocated := update s.allocated a true }

/-- The contents of freed memory are no longer reliable, but nothing changes them before the next allocation. -/
@[simp] def State.free (s : State n) (a : Addr) : State n :=
  { s with allocated := update s.allocated a false }

/-- `workio_cmd_free`: a command to submit work owns its work. -/
def State.cmdFree (s : State n) (cmd : Option (WorkioCmd n)) : State n :=
  { s with
    allocated :=
      match cmd with
      | some (.submitWork _ a _) => update s.allocated a false
      | some (.getWork _) | none => s.allocated }

/-! ### Threads -/

/-- Thread `i` comes to `pc`. -/
@[simp] def State.minerAt (s : State n) (i : Fin n) (pc : MinerPc n) : State n :=
  { s with miner := update s.miner i pc }

@[simp] def State.workioAt (s : State n) (pc : WorkioPc n) : State n := { s with workio := pc }

@[simp] def State.longpollAt (s : State n) (pc : LongpollPc) : State n := { s with longpoll := pc }

/-- The queue of a miner after an operation of this miner. -/
@[simp] def State.setMinerQ (s : State n) (i : Fin n) (q : ThreadQ (Reply n)) : State n :=
  { s with minerQ := update s.minerQ i q }

/-- The queue of `workio_thread` after `tq_push`, which also signals. -/
@[simp] def State.pushWorkioQ (s : State n) (q : ThreadQ (WorkioCmd n)) : State n :=
  { s with workioQ := q, workio := s.workio.signal }

@[simp] def State.pushMinerQ (s : State n) (i : Fin n) (q : ThreadQ (Reply n)) : State n :=
  { s with minerQ := update s.minerQ i q, miner := update s.miner i (s.miner i).signal }

@[simp] def State.pushLongpollQ (s : State n) (q : ThreadQ Unit) : State n :=
  { s with longpollQ := q, longpoll := s.longpoll.signal }

/-- The observer writes something down. -/
@[simp] def State.note (s : State n) (hist : History n) : State n := { s with hist := hist }

/-! ### `main` -/

/-- `main` creates the mining threads and joins `workio_thread`. If a thread cannot be created the process ends, so
    there is no state after that. -/
inductive MainStep (s : State n) : State n → Prop where
  | create (i : Fin n) (pc : s.main = .creating i) :
      MainStep s { s.minerAt i .asking with main := .creating (i + 1) }
  | join (pc : s.main = .creating n) : MainStep s { s with main := .joining }
  | joined (pc : s.main = .joining) (dead : s.workio = .done) :
      MainStep s { s with main := .returned }

/-! ### `miner_thread` -/

/-- The new `max_nonce`, which depends on how long the scan took. -/
def Adjusted (maxNonce new : Word) : Prop := new = maxNonce ∨ new ≤ 0xfffffffa

theorem adjusted_adjustMaxNonce (maxNonce : Word) (diff : Timeval) (hashesDone : Nat) (optScantime : Int) :
    Adjusted maxNonce (adjustMaxNonce maxNonce diff hashesDone optScantime) := adjustMaxNonce_eq_or_le

inductive MinerAction where
  | asks
  | noMemory
  | refused
  | receives
  | sleeps
  | wakesEmpty
  | clears
  | reads
  | returns
  | copies
  | submits
  | freezes

/-- A request by thread `i`. -/
def State.nextRequest (s : State n) (i : Fin n) : Request n where
  thr := i
  number := s.hist.requests i

/-- Thread `i` writes down that its command is on the queue. -/
@[simp] def State.asked (s : State n) (i : Fin n) : State n :=
  s.note { s.hist with requests := update s.hist.requests i (s.hist.requests i + 1) }

/-- Thread `i` copies the work behind a reply, and writes down what it got. -/
@[simp] def State.receive (s : State n) (i : Fin n) (reply : Reply n) : State n :=
  { s.note { s.hist with received := s.hist.received ++
      [{ request := { thr := i, number := s.hist.requests i - 1 }, unit := reply.unit,
         work := s.heap reply.work }] } with
    work := update s.work i (s.heap reply.work) }

/-- The variables of thread `i` after its scan. -/
@[simp] def State.afterScan (s : State n) (i : Fin n) (ret : ScanReturn) (maxNonce : Word) : State n :=
  { s with work := update s.work i ret.work, maxNonce := update s.maxNonce i maxNonce }

/-- The share that `submit_work` hands over. -/
def State.nextShare (s : State n) (called : Work) : Share where
  number := s.hist.accepted.length
  work := called

@[simp] def State.accept (s : State n) (called : Work) : State n :=
  s.note { s.hist with accepted := s.hist.accepted ++ [s.nextShare called] }

inductive MinerStep (cfg : Config n) (i : Fin n) (s : State n) : MinerAction → State n → Prop where
  -- get_work: the command, its queue entry
  | askNoMemory (pc : s.miner i = .asking) :
      MinerStep cfg i s .noMemory (s.minerAt i .leaving)
  | askRefused (pc : s.miner i = .asking)
      (frozen : s.workioQ.push (.getWork (s.nextRequest i)) = none) :
      MinerStep cfg i s .refused ((s.minerAt i .leaving).pushWorkioQ s.workioQ)
  | ask (q : ThreadQ (WorkioCmd n)) (pc : s.miner i = .asking)
      (pushed : s.workioQ.push (.getWork (s.nextRequest i)) = some q) :
      MinerStep cfg i s .asks (((s.asked i).minerAt i (.popping .entering)).pushWorkioQ q)
  -- get_work: the reply
  | receive (stage : TqPop) (reply : Reply n) (q : ThreadQ (Reply n))
      (pc : s.miner i = .popping stage) (popped : (s.minerQ i).pop = some (reply, q)) :
      MinerStep cfg i s .receives
        ((((s.receive i reply).free reply.work).setMinerQ i q).minerAt i (.ready reply.unit))
  | sleep (pc : s.miner i = .popping .entering) (empty : (s.minerQ i).pop = none) :
      MinerStep cfg i s .sleeps (s.minerAt i (.popping (.asleep false)))
  | wakeEmpty (signalled : Bool) (pc : s.miner i = .popping (.asleep signalled))
      (empty : (s.minerQ i).pop = none) :
      MinerStep cfg i s .wakesEmpty (s.minerAt i .leaving)
  -- the scan
  | clear (unit : WorkUnit n) (scan : Scan) (pc : s.miner i = .ready unit)
      (possible : cfg.scans (s.work i) (s.maxNonce i) scan) :
      MinerStep cfg i s .clears
        { s.minerAt i (.scanning unit scan []) with workRestart := update s.workRestart i false }
  | read (unit : WorkUnit n) (scan : Scan) (reads : List Bool)
      (pc : s.miner i = .scanning unit scan reads) (goesOn : scan reads = none) :
      MinerStep cfg i s .reads (s.minerAt i (.scanning unit scan (reads ++ [s.workRestart i])))
  | notFound (unit : WorkUnit n) (scan : Scan) (reads : List Bool) (ret : ScanReturn)
      (maxNonce : Word) (pc : s.miner i = .scanning unit scan reads)
      (returned : scan reads = some ret) (rc : ret.rc = false)
      (adjusted : Adjusted (s.maxNonce i) maxNonce) :
      MinerStep cfg i s .returns ((s.afterScan i ret maxNonce).minerAt i .asking)
  | found (unit : WorkUnit n) (scan : Scan) (reads : List Bool) (ret : ScanReturn)
      (maxNonce : Word) (pc : s.miner i = .scanning unit scan reads)
      (returned : scan reads = some ret) (rc : ret.rc = true)
      (adjusted : Adjusted (s.maxNonce i) maxNonce) :
      MinerStep cfg i s .returns ((s.afterScan i ret maxNonce).minerAt i (.submitting ret.work))
  -- submit_work: the command, the copy
  | submitNoMemory (called : Work) (pc : s.miner i = .submitting called) :
      MinerStep cfg i s .noMemory (s.minerAt i .leaving)
  | copy (called : Work) (a : Addr) (pc : s.miner i = .submitting called)
      (fresh : s.allocated a = false) :
      MinerStep cfg i s .copies ((s.alloc a (s.work i)).minerAt i (.handing called a))
  -- submit_work: the queue entry
  | handNoMemory (called : Work) (a : Addr) (pc : s.miner i = .handing called a) :
      MinerStep cfg i s .noMemory ((s.free a).minerAt i .leaving)
  | handRefused (called : Work) (a : Addr) (pc : s.miner i = .handing called a)
      (frozen : s.workioQ.push (.submitWork i a (s.nextShare called)) = none) :
      MinerStep cfg i s .refused (((s.free a).minerAt i .leaving).pushWorkioQ s.workioQ)
  | hand (called : Work) (a : Addr) (q : ThreadQ (WorkioCmd n))
      (pc : s.miner i = .handing called a)
      (pushed : s.workioQ.push (.submitWork i a (s.nextShare called)) = some q) :
      MinerStep cfg i s .submits (((s.accept called).minerAt i .asking).pushWorkioQ q)
  -- out
  | freeze (pc : s.miner i = .leaving) :
      MinerStep cfg i s .freezes ((s.setMinerQ i (s.minerQ i).freeze).minerAt i .done)

/-! ### `workio_thread` -/

inductive WorkioAction where
  | starts
  | takes
  | sleeps
  | wakesEmpty
  | noMemory
  | allocates
  | callFails
  | replyComes
  | announces
  | pathLost
  | decodes
  | replies
  | replyLost
  | posted
  | postFails
  | stops

/-- The unit that a good reply carries. -/
def State.nextUnit (s : State n) (request : Request n) (work : Work) (stamp : Stamp) : WorkUnit n where
  serial := s.hist.fetched.length
  request := request
  work := work
  stamp := stamp

/-- `have_longpoll = true; opt_scantime = 60;` -/
@[simp] def State.activate (s : State n) : State n := { s with haveLongpoll := true, optScantime := 60 }

/-- The queue of `longpoll_thread` has accepted a path. -/
@[simp] def State.pathAccepted (s : State n) : State n :=
  s.note { s.hist with paths := s.hist.paths + 1 }

/-- The decoded work is behind the pointer. -/
@[simp] def State.fetch (s : State n) (a : Addr) (unit : WorkUnit n) : State n :=
  { s.note { s.hist with fetched := s.hist.fetched ++ [unit] } with heap := update s.heap a unit.work }

/-- A call of `submit_upstream_work` for the work behind the pointer; without memory for the hex string nothing is
    posted. -/
@[simp] def State.attempt (s : State n) (a : Addr) (share : Share) (memory : Bool) : State n :=
  s.note { s.hist with upstream := s.hist.upstream ++
    [.attempt share (if memory then some (s.heap a).data else none)] }

@[simp] def State.answered (s : State n) (share : Share) : State n :=
  s.note { s.hist with upstream := s.hist.upstream ++ [.reply share] }

@[simp] def State.abandon (s : State n) (share : Share) : State n :=
  s.note { s.hist with abandoned := s.hist.abandoned ++ [share] }

/-- `get_upstream_work` may fail in this call: before a reply, or because of the reply. -/
def WorkioPc.Calls (pc : WorkioPc n) (fetch : Fetch n) : Prop :=
  pc = .fetching fetch ∨ ∃ stamp, pc = .decoding fetch stamp

inductive WorkioStep (cfg : Config n) (s : State n) : WorkioAction → State n → Prop where
  | start (pc : s.workio = .starting) : WorkioStep cfg s .starts (s.workioAt (.popping .entering))
  | startFails (pc : s.workio = .starting) : WorkioStep cfg s .starts (s.workioAt .done)
  | takeGetWork (stage : TqPop) (request : Request n) (q : ThreadQ (WorkioCmd n))
      (pc : s.workio = .popping stage) (popped : s.workioQ.pop = some (.getWork request, q)) :
      WorkioStep cfg s .takes { s.workioAt (.allocating request) with workioQ := q }
  | takeSubmitWork (stage : TqPop) (thr : Fin n) (a : Addr) (share : Share)
      (q : ThreadQ (WorkioCmd n)) (pc : s.workio = .popping stage)
      (popped : s.workioQ.pop = some (.submitWork thr a share, q)) :
      WorkioStep cfg s .takes { s.workioAt (.posting thr a share 0) with workioQ := q }
  | sleep (pc : s.workio = .popping .entering) (empty : s.workioQ.pop = none) :
      WorkioStep cfg s .sleeps (s.workioAt (.popping (.asleep false)))
  | wakeEmpty (signalled : Bool) (pc : s.workio = .popping (.asleep signalled))
      (empty : s.workioQ.pop = none) :
      WorkioStep cfg s .wakesEmpty (s.workioAt (.stopping none))
  -- workio_get_work: ret_work
  | noMemory (request : Request n) (pc : s.workio = .allocating request) :
      WorkioStep cfg s .noMemory (s.workioAt (.stopping (some (.getWork request))))
  | allocate (request : Request n) (a : Addr) (pc : s.workio = .allocating request)
      (fresh : s.allocated a = false) :
      WorkioStep cfg s .allocates ((s.alloc a zeroWork).workioAt
        (.fetching { request := request, retWork := a, failures := 0 }))
  -- workio_get_work: get_upstream_work
  | fetchAgain (fetch : Fetch n) (failures : Nat) (pc : s.workio.Calls fetch)
      (again : cfg.tryAgain fetch.failures = some failures) :
      WorkioStep cfg s .callFails (s.workioAt (.fetching { fetch with failures := failures }))
  | fetchEnds (fetch : Fetch n) (pc : s.workio.Calls fetch)
      (last : cfg.tryAgain fetch.failures = none) :
      WorkioStep cfg s .callFails
        ((s.free fetch.retWork).workioAt (.stopping (some (.getWork fetch.request))))
  | reply (fetch : Fetch n) (pc : s.workio = .fetching fetch) :
      WorkioStep cfg s .replyComes (s.workioAt (.decoding fetch s.hist.restarts))
  | replyNamesPath (fetch : Fetch n) (pc : s.workio = .fetching fetch)
      (scanning : cfg.wantLongpoll = true ∧ s.haveLongpoll = false) :
      WorkioStep cfg s .replyComes (s.workioAt (.announcing fetch s.hist.restarts))
  -- Only this thread looks at have_longpoll, and Adjusted holds for every opt_scantime: nobody sees them assigned
  -- before the call of tq_push, which is the next thing that others see.
  | announce (fetch : Fetch n) (stamp : Stamp) (q : ThreadQ Unit)
      (pc : s.workio = .announcing fetch stamp) (pushed : s.longpollQ.push () = some q) :
      WorkioStep cfg s .announces ((s.activate.pathAccepted.workioAt (.decoding fetch stamp)).pushLongpollQ q)
  | announceRefused (fetch : Fetch n) (stamp : Stamp) (pc : s.workio = .announcing fetch stamp)
      (frozen : s.longpollQ.push () = none) :
      WorkioStep cfg s .announces ((s.activate.workioAt (.decoding fetch stamp)).pushLongpollQ s.longpollQ)
  | announceNoMemory (fetch : Fetch n) (stamp : Stamp) (pc : s.workio = .announcing fetch stamp) :
      WorkioStep cfg s .pathLost (s.activate.workioAt (.decoding fetch stamp))
  | decode (fetch : Fetch n) (stamp : Stamp) (work : Work) (pc : s.workio = .decoding fetch stamp)
      (hash : work.hash = fun _ => 0) :
      WorkioStep cfg s .decodes
        ((s.fetch fetch.retWork (s.nextUnit fetch.request work stamp)).workioAt
          (.replying { work := fetch.retWork, unit := s.nextUnit fetch.request work stamp }))
  -- workio_get_work: tq_push, whose return value only decides whether ret_work is freed
  | sendReply (reply : Reply n) (q : ThreadQ (Reply n)) (pc : s.workio = .replying reply)
      (pushed : (s.minerQ reply.unit.request.thr).push reply = some q) :
      WorkioStep cfg s .replies
        ((s.workioAt (.popping .entering)).pushMinerQ reply.unit.request.thr q)
  | replyRefused (reply : Reply n) (pc : s.workio = .replying reply)
      (frozen : (s.minerQ reply.unit.request.thr).push reply = none) :
      WorkioStep cfg s .replies
        (((s.free reply.work).workioAt (.popping .entering)).pushMinerQ reply.unit.request.thr
          (s.minerQ reply.unit.request.thr))
  | replyNoMemory (reply : Reply n) (pc : s.workio = .replying reply) :
      WorkioStep cfg s .replyLost ((s.free reply.work).workioAt (.popping .entering))
  -- workio_submit_work
  | post (thr : Fin n) (a : Addr) (share : Share) (failures : Nat)
      (pc : s.workio = .posting thr a share failures) :
      WorkioStep cfg s .posted
        ((((s.attempt a share true).answered share).free a).workioAt (.popping .entering))
  | postAgain (thr : Fin n) (a : Addr) (share : Share) (failures next : Nat) (memory : Bool)
      (pc : s.workio = .posting thr a share failures) (again : cfg.tryAgain failures = some next) :
      WorkioStep cfg s .postFails ((s.attempt a share memory).workioAt (.posting thr a share next))
  | postEnds (thr : Fin n) (a : Addr) (share : Share) (failures : Nat) (memory : Bool)
      (pc : s.workio = .posting thr a share failures) (last : cfg.tryAgain failures = none) :
      WorkioStep cfg s .postFails
        (((s.attempt a share memory).abandon share).workioAt
          (.stopping (some (.submitWork thr a share))))
  -- workio_cmd_free and tq_freeze
  | stop (cmd : Option (WorkioCmd n)) (pc : s.workio = .stopping cmd) :
      WorkioStep cfg s .stops { (s.cmdFree cmd).workioAt .done with workioQ := s.workioQ.freeze }

/-! ### `longpoll_thread` -/

inductive LongpollAction where
  | takes
  | sleeps
  | wakesEmpty
  | opens
  | polls
  | sets
  | returns
  | freezes

/-- A call of `restart_threads` begins. -/
@[simp] def State.restartBegins (s : State n) : State n :=
  s.note { s.hist with restarts := { s.hist.restarts with begun := s.hist.restarts.begun + 1 } }

/-- `work_restart[i].restart = 1`. -/
@[simp] def State.setRestart (s : State n) (i : Fin n) : State n :=
  { s.note { s.hist with setBy := update s.hist.setBy i s.hist.restarts.begun } with
    workRestart := update s.workRestart i true }

/-- The call of `restart_threads` returns. -/
@[simp] def State.restartReturns (s : State n) : State n :=
  s.note { s.hist with restarts := { s.hist.restarts with done := s.hist.restarts.begun } }

inductive LongpollStep (s : State n) : LongpollAction → State n → Prop where
  | take (stage : TqPop) (q : ThreadQ Unit) (pc : s.longpoll = .popping stage)
      (popped : s.longpollQ.pop = some ((), q)) :
      LongpollStep s .takes { s.longpollAt .opening with longpollQ := q }
  | sleep (pc : s.longpoll = .popping .entering) (empty : s.longpollQ.pop = none) :
      LongpollStep s .sleeps (s.longpollAt (.popping (.asleep false)))
  | wakeEmpty (signalled : Bool) (pc : s.longpoll = .popping (.asleep signalled))
      (empty : s.longpollQ.pop = none) :
      LongpollStep s .wakesEmpty (s.longpollAt .leaving)
  | curl (pc : s.longpoll = .opening) : LongpollStep s .opens (s.longpollAt (.polling 0))
  | curlFails (pc : s.longpoll = .opening) : LongpollStep s .opens (s.longpollAt .leaving)
  | poll (failures : Nat) (pc : s.longpoll = .polling failures) :
      LongpollStep s .polls (s.restartBegins.longpollAt (.restarting 0))
  | pollAgain (failures : Nat) (pc : s.longpoll = .polling failures) (few : failures < 10) :
      LongpollStep s .polls (s.longpollAt (.polling (failures + 1)))
  | pollEnds (failures : Nat) (pc : s.longpoll = .polling failures) (many : ¬ failures < 10) :
      LongpollStep s .polls (s.longpollAt .leaving)
  | set (i : Fin n) (pc : s.longpoll = .restarting i) :
      LongpollStep s .sets ((s.setRestart i).longpollAt (.restarting (i + 1)))
  | restarted (pc : s.longpoll = .restarting n) :
      LongpollStep s .returns (s.restartReturns.longpollAt (.polling 0))
  | freeze (pc : s.longpoll = .leaving) :
      LongpollStep s .freezes { s.longpollAt .done with longpollQ := s.longpollQ.freeze }

/-! ### What the threads leave alone -/

section

variable {cfg : Config n} {s s' : State n} {i j : Fin n} {a : MinerAction}

theorem MinerStep.other_miner (step : MinerStep cfg i s a s') (other : j ≠ i) :
    s'.miner j = s.miner j := by
  cases step <;> simp [other]

theorem MinerStep.other_minerQ (step : MinerStep cfg i s a s') (other : j ≠ i) :
    s'.minerQ j = s.minerQ j := by
  cases step <;> simp [other]

theorem MinerStep.other_workRestart (step : MinerStep cfg i s a s') (other : j ≠ i) :
    s'.workRestart j = s.workRestart j := by
  cases step <;> simp [other]

/-- A miner signals `workio_thread` at most. -/
theorem MinerStep.workio (step : MinerStep cfg i s a s') :
    s'.workio = s.workio ∨ s'.workio = s.workio.signal := by
  cases step with
  | askRefused | ask | handRefused | hand => exact .inr rfl
  | _ => exact .inl rfl

/-- A thread that does not exist makes no steps. -/
theorem MinerStep.not_absent (step : MinerStep cfg i s a s') : s.miner i ≠ .absent := by
  cases step <;> simp [*]

/-- `workio_thread` signals a miner at most. -/
theorem WorkioStep.miner {a : WorkioAction} (step : WorkioStep cfg s a s') (i : Fin n) :
    s'.miner i = s.miner i ∨ s'.miner i = (s.miner i).signal := by
  cases step with
  | sendReply reply _ _ _ | replyRefused reply _ _ =>
      by_cases same : i = reply.unit.request.thr
      · subst same
        exact .inr (Function.update_self ..)
      · exact .inl (Function.update_of_ne same ..)
  | _ => exact .inl rfl

/-- A thread that has ended makes no steps. -/
theorem WorkioStep.not_done {a : WorkioAction} (step : WorkioStep cfg s a s') : s.workio ≠ .done := by
  cases step with
  | fetchAgain _ _ pc _ | fetchEnds _ pc _ => rcases pc with pc | ⟨_, pc⟩ <;> simp [pc]
  | _ => simp [*]

theorem LongpollStep.miner {a : LongpollAction} (step : LongpollStep s a s') : s'.miner = s.miner := by
  cases step <;> rfl

end

/-! ### The program -/

inductive Action (n : Nat) where
  | main
  | miner (i : Fin n) (action : MinerAction)
  | workio (action : WorkioAction)
  | longpoll (action : LongpollAction)

/-- A step of the program is a step of one of its threads. -/
inductive Step (cfg : Config n) (s : State n) : Action n → State n → Prop where
  | main {s' : State n} (step : MainStep s s') : Step cfg s .main s'
  | miner {i : Fin n} {action : MinerAction} {s' : State n} (step : MinerStep cfg i s action s') :
      Step cfg s (.miner i action) s'
  | workio {action : WorkioAction} {s' : State n} (step : WorkioStep cfg s action s') :
      Step cfg s (.workio action) s'
  | longpoll {action : LongpollAction} {s' : State n} (step : LongpollStep s action s') :
      Step cfg s (.longpoll action) s'

/-- The program can come to this state by steps that are allowed. -/
def Reachable (cfg : Config n) (allowed : State n → Action n → Prop) (s : State n) : Prop :=
  Transition.Reachable (Init cfg) (Step cfg) allowed s

section

variable {cfg : Config n} {allowed : State n → Action n → Prop} {s : State n}

/-- The miners from this one on do not exist. -/
def AbsentFrom (s : State n) (k : Nat) : Prop := ∀ i : Fin n, k ≤ i → s.miner i = .absent

theorem absentFrom (reached : Reachable cfg allowed s) {k : Nat} (pc : s.main = .creating k) :
    AbsentFrom s k := by
  revert k
  refine reached.invariant (I := fun s => ∀ {k}, s.main = .creating k → AbsentFrom s k) ?_ ?_
  · intro s init k pc i _
    exact init.miner i
  · rintro s a s' _ absent step _ k pc' j late
    cases step with
    | main step =>
        cases step with
        | create i pc =>
            obtain rfl := MainPc.creating.inj pc'
            have other : j ≠ i := by
              rintro rfl
              omega
            have before := absent pc j (by omega)
            simpa [other] using before
        | join | joined => cases pc'
    | @miner i a _ step =>
        have pc : s.main = .creating k := by
          cases step <;> exact pc'
        have before := absent pc j late
        have other : j ≠ i := by
          rintro rfl
          exact step.not_absent before
        rwa [step.other_miner other]
    | workio step =>
        have pc : s.main = .creating k := by
          cases step <;> exact pc'
        have before := absent pc j late
        rcases step.miner j with same | signal
        · rwa [same]
        · rw [signal, before]
          rfl
    | longpoll step =>
        have pc : s.main = .creating k := by
          cases step <;> exact pc'
        rw [step.miner]
        exact absent pc j late

end

/-! ### A first unit -/

/-- The answer to the first request of the only miner. -/
def firstUnit : WorkUnit 1 where
  serial := 0
  request := { thr := 0, number := 0 }
  work := exampleWork
  stamp := { begun := 0, done := 0 }

/-- The only miner has got its first unit, and `longpoll_thread` waits for a new block. -/
structure FirstUnit (s : State 1) : Prop where
  miner : s.miner 0 = .ready firstUnit
  work : s.work 0 = exampleWork
  maxNonce : s.maxNonce 0 = 0xffffff
  allocated : ∀ a, s.allocated a = false
  workio : s.workio = .popping .entering
  workioQ : s.workioQ = .new
  longpoll : s.longpoll = .polling 0
  received : s.hist.received.map (·.unit) = [firstUnit]
  restarts : s.hist.restarts = { begun := 0, done := 0 }
  setBy : s.hist.setBy 0 = 0
  accepted : s.hist.accepted = []
  upstream : s.hist.upstream = []
  abandoned : s.hist.abandoned = []

/-- A run to the first unit in which no scan begins. -/
theorem exists_firstUnit {allowed : State 1 → Action 1 → Prop}
    (fine : ∀ s a, (∀ i, a ≠ .miner i .clears) → allowed s a) :
    ∃ s, Reachable exampleConfig allowed s ∧ FirstUnit s := by
  have reached : Reachable exampleConfig allowed _ :=
    (Transition.Reachable.start exampleState_init)
      |>.next (.main (.create 0 rfl)) (fine _ _ (by simp))
      |>.next (.miner (i := 0) (.ask _ rfl rfl)) (fine _ _ (by simp))
      |>.next (.workio (.start rfl)) (fine _ _ (by simp))
      |>.next (.workio (.takeGetWork _ _ _ rfl rfl)) (fine _ _ (by simp))
      |>.next (.workio (.allocate _ 0 rfl rfl)) (fine _ _ (by simp))
      |>.next (.workio (.replyNamesPath _ rfl ⟨rfl, rfl⟩)) (fine _ _ (by simp))
      |>.next (.workio (.announce _ _ _ rfl rfl)) (fine _ _ (by simp))
      |>.next (.workio (.decode _ _ exampleWork rfl rfl)) (fine _ _ (by simp))
      |>.next (.workio (.sendReply _ _ rfl rfl)) (fine _ _ (by simp))
      |>.next (.miner (i := 0) (.receive _ _ _ rfl rfl)) (fine _ _ (by simp))
      |>.next (.longpoll (.take _ _ rfl rfl)) (fine _ _ (by simp))
      |>.next (.longpoll (.curl rfl)) (fine _ _ (by simp))
  refine ⟨_, reached, ?_⟩
  constructor
  case allocated =>
    intro a
    simp [exampleState]
  all_goals rfl

end CpuMiner
