/-
Module: CpuMiner.Threads.State
Layer: Threads
Purpose: The state of the running program: where each of its threads is, the thread queues, the restart flags and
  the work structs on the heap. `n` is `opt_n_threads`. A program counter names the next thing its thread does that
  other threads can see, with the local variables that are still needed. The history is what an observer writes
  down; the program does not look at it. The tags of requests, work units and shares are part of it.
Imports: CpuMiner.Lib.Outbox, CpuMiner.Miner.Stops, CpuMiner.Threads.Queue
Trusted boundary: human-reviewed spec (the transcription of the C code)
Main exports: Config, programScans, Request, WorkUnit, Share, WorkioCmd, Reply, MinerPc, WorkioPc,
  LongpollPc, MainPc, History, State, Init
Open obligations: none
-/
import CpuMiner.Lib.Outbox
import CpuMiner.Miner.Stops
import CpuMiner.Threads.Queue

namespace CpuMiner

open Words

/-! ### Scans -/

/-- The scans of the program: those of the selected backend, whatever else they meet. -/
def programScans (algo : Sha256Algo) (work : Work) (maxNonce : Word) (scan : Scan) : Prop :=
  ∃ outside, scan = scanAfter algo work maxNonce outside

/-- The options the threads look at, and the scans they may make. -/
structure Config (n : Nat) where
  threads : 0 < n
  optRetries : Int
  /-- `opt_scantime`, as the command line sets it -/
  optScantime : Int
  wantLongpoll : Bool
  scans : Work → Word → Scan → Prop

/-- `(opt_retries >= 0) && (++failures > opt_retries)`: the new value of `failures`, if that is false. -/
def Config.tryAgain {n : Nat} (cfg : Config n) (failures : Nat) : Option Nat :=
  if cfg.optRetries < 0 then some failures
  else if cfg.optRetries < (failures + 1 : Nat) then none else some (failures + 1)

/-- What `calloc` returns. -/
def zeroWork : Work where
  data _ := 0
  hash1 _ := 0
  midstate _ := 0
  target _ := 0
  hash _ := 0

/-! ### Messages -/

/-- A pointer to a `struct work` on the heap. -/
abbrev Addr := Nat

/-- A call of `get_work`: its thread, and how many calls of this thread came before. -/
structure Request (n : Nat) where
  thr : Fin n
  number : Nat

/-- How many calls of `restart_threads` have begun, and how many have returned. -/
structure Stamp where
  begun : Nat
  done : Nat

/-- A work unit that came from upstream: how many came before, the request it is for, and when it came. -/
structure WorkUnit (n : Nat) where
  serial : Nat
  request : Request n
  work : Work
  stamp : Stamp

/-- A call of `submit_work` that returned true: how many did before, and the work when it was called. -/
structure Share where
  number : Nat
  work : Work
deriving DecidableEq

/-- `struct workio_cmd`. -/
inductive WorkioCmd (n : Nat) where
  | getWork (request : Request n)
  | submitWork (thr : Fin n) (work : Addr) (share : Share)

/-- An entry of the queue of a miner. -/
structure Reply (n : Nat) where
  work : Addr
  unit : WorkUnit n

/-! ### Program counters -/

/-- `main`, from the loop that starts the mining threads on. -/
inductive MainPc where
  | creating (i : Nat)
  | joining
  | returned

/-- `miner_thread`. -/
inductive MinerPc (n : Nat) where
  /-- not created yet -/
  | absent
  /-- in `get_work`, before its command is on the queue -/
  | asking
  /-- in `get_work`, in `tq_pop` -/
  | popping (stage : TqPop)
  /-- `get_work` has returned true -/
  | ready (unit : WorkUnit n)
  /-- in the scan, which has read these values from its restart flag -/
  | scanning (unit : WorkUnit n) (scan : Scan) (reads : List Bool)
  /-- in `submit_work`, which was called with this work -/
  | submitting (called : Work)
  /-- in `submit_work`, with the copy made and its command not yet on the queue -/
  | handing (called : Work) (work : Addr)
  /-- at `out` -/
  | leaving
  | done

/-- The local variables of `workio_get_work`. -/
structure Fetch (n : Nat) where
  request : Request n
  retWork : Addr
  failures : Nat

/-- `workio_thread`. -/
inductive WorkioPc (n : Nat) where
  /-- before `curl_easy_init` -/
  | starting
  | popping (stage : TqPop)
  /-- in `workio_get_work`, before its `calloc` -/
  | allocating (request : Request n)
  /-- in `get_upstream_work`, before the reply -/
  | fetching (fetch : Fetch n)
  /-- in `json_rpc_call`, with a reply that names a path for long polling -/
  | announcing (fetch : Fetch n) (stamp : Stamp)
  /-- in `get_upstream_work`, with a reply -/
  | decoding (fetch : Fetch n) (stamp : Stamp)
  /-- in `workio_get_work`, before `tq_push` -/
  | replying (reply : Reply n)
  /-- in `workio_submit_work`, before the call -/
  | posting (thr : Fin n) (work : Addr) (share : Share) (failures : Nat)
  /-- out of the loop, with the command that made it stop -/
  | stopping (cmd : Option (WorkioCmd n))
  | done

/-- `longpoll_thread`. -/
inductive LongpollPc where
  /-- without long polling the thread is not created -/
  | absent
  | popping (stage : TqPop)
  /-- with a path, before `curl_easy_init` -/
  | opening
  | polling (failures : Nat)
  /-- in `restart_threads` -/
  | restarting (i : Nat)
  /-- at `out` -/
  | leaving
  | done

/-- `pthread_cond_signal`, seen from the thread of the queue. -/
def MinerPc.signal {n : Nat} : MinerPc n → MinerPc n
  | .popping stage => .popping stage.signal
  | pc => pc

@[inherit_doc MinerPc.signal]
def WorkioPc.signal {n : Nat} : WorkioPc n → WorkioPc n
  | .popping stage => .popping stage.signal
  | pc => pc

@[inherit_doc MinerPc.signal]
def LongpollPc.signal : LongpollPc → LongpollPc
  | .popping stage => .popping stage.signal
  | pc => pc

/-- The thread has left its loop. -/
def MinerPc.stopped {n : Nat} : MinerPc n → Bool
  | .leaving | .done => true
  | _ => false

@[inherit_doc MinerPc.stopped]
def WorkioPc.stopped {n : Nat} : WorkioPc n → Bool
  | .stopping _ | .done => true
  | _ => false

@[simp] theorem MinerPc.signal_stopped {n : Nat} (pc : MinerPc n) : pc.signal.stopped = pc.stopped := by
  cases pc <;> rfl

@[simp] theorem WorkioPc.signal_stopped {n : Nat} (pc : WorkioPc n) :
    pc.signal.stopped = pc.stopped := by
  cases pc <;> rfl

/-! ### The state -/

/-- What `submit_upstream_work` does for a share, seen from upstream: an attempt, with the data it posts if
    there was memory for it, and a reply. -/
abbrev Call : Type := Outbox.Event Share (Buf 128)

/-- A return of `get_work` with a work unit: the last request of the thread, and the bytes it has copied. -/
structure Receipt (n : Nat) where
  request : Request n
  unit : WorkUnit n
  work : Work

/-- What an observer has written down. -/
structure History (n : Nat) where
  /-- the number of commands each miner has pushed for work -/
  requests : Fin n → Nat
  fetched : List (WorkUnit n)
  received : List (Receipt n)
  /-- the shares for which `submit_work` has returned true -/
  accepted : List Share
  upstream : List Call
  /-- the shares that `workio_submit_work` gave up -/
  abandoned : List Share
  restarts : Stamp
  /-- the last call of `restart_threads` that has set the flag of each miner -/
  setBy : Fin n → Nat
  /-- the number of long-poll paths that the queue of `longpoll_thread` has accepted -/
  paths : Nat

structure State (n : Nat) where
  main : MainPc
  miner : Fin n → MinerPc n
  workio : WorkioPc n
  longpoll : LongpollPc
  /-- `thr_info[i].q` -/
  minerQ : Fin n → ThreadQ (Reply n)
  /-- `thr_info[work_thr_id].q` -/
  workioQ : ThreadQ (WorkioCmd n)
  /-- `thr_info[longpoll_thr_id].q`, without the texts of the paths -/
  longpollQ : ThreadQ Unit
  /-- the variable `work` of each miner -/
  work : Fin n → Work
  /-- the variable `max_nonce` of each miner -/
  maxNonce : Fin n → Word
  /-- `work_restart[i].restart` is not 0 -/
  workRestart : Fin n → Bool
  haveLongpoll : Bool
  optScantime : Int
  heap : Addr → Work
  allocated : Addr → Bool
  hist : History n

/-- Nothing has happened yet. -/
def History.empty (n : Nat) : History n where
  requests _ := 0
  fetched := []
  received := []
  accepted := []
  upstream := []
  abandoned := []
  restarts := { begun := 0, done := 0 }
  setBy _ := 0
  paths := 0

/-- `main` when it comes to the loop that starts the mining threads. What is in the variables of the threads and
    on the heap does not matter. -/
structure Init {n : Nat} (cfg : Config n) (s : State n) : Prop where
  main : s.main = .creating 0
  miner : ∀ i, s.miner i = .absent
  workio : s.workio = .starting
  longpoll : s.longpoll = if cfg.wantLongpoll then .popping .entering else .absent
  minerQ : ∀ i, s.minerQ i = .new
  workioQ : s.workioQ = .new
  longpollQ : s.longpollQ = .new
  maxNonce : ∀ i, s.maxNonce i = 0xffffff
  workRestart : ∀ i, s.workRestart i = false
  haveLongpoll : s.haveLongpoll = false
  optScantime : s.optScantime = cfg.optScantime
  allocated : ∀ a, s.allocated a = false
  hist : s.hist = .empty n

/-- One miner, which scans with the VIA processor, and one try for each call. -/
def exampleConfig : Config 1 where
  threads := Nat.zero_lt_one
  optRetries := 0
  optScantime := 5
  wantLongpoll := true
  scans := programScans .via

/-- A first state, with zeros in the variables and on the heap. -/
def exampleState : State 1 where
  main := .creating 0
  miner _ := .absent
  workio := .starting
  longpoll := .popping .entering
  minerQ _ := .new
  workioQ := .new
  longpollQ := .new
  work _ := zeroWork
  maxNonce _ := 0xffffff
  workRestart _ := false
  haveLongpoll := false
  optScantime := 5
  heap _ := zeroWork
  allocated _ := false
  hist := .empty 1

theorem exampleState_init : Init exampleConfig exampleState := by
  constructor <;> intros <;> rfl

end CpuMiner
