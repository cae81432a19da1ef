/-
Module: CpuMiner.Threads.Routing
Layer: Threads
Purpose: Work units go to the thread that asked for them. Requests and replies go through different queues and name
  nothing but a thread; they match because a miner that has given up a request never makes another one, so that
  at most one request of a miner is on its way, be it as a command or as a reply.
Imports: CpuMiner.Threads.Memory
Trusted boundary: none
Main exports: State.commands, State.outstanding, State.inFlight, RequestsInOrder, UnitsKnown, ReceiptsInOrder,
  UnitsRouted, units_routed
Open obligations: none
-/
import CpuMiner.Threads.Memory

namespace CpuMiner

open Function (update)

variable {n : Nat} {cfg : Config n} {s s' : State n}

/-! ### Requests on their way -/

def WorkioCmd.request? : WorkioCmd n → Option (Request n)
  | .getWork request => some request
  | .submitWork _ _ _ => none

/-- The request that `workio_thread` is working on. In `.stopping` it has left its loop and still has the command, which
    it is about to free; the request counts as worked on until then. -/
def WorkioPc.request? : WorkioPc n → Option (Request n)
  | .allocating request => some request
  | .fetching fetch | .announcing fetch _ | .decoding fetch _ => some fetch.request
  | .replying reply => some reply.unit.request
  | .stopping (some cmd) => cmd.request?
  | .starting | .popping _ | .posting _ _ _ _ | .stopping none | .done => none

/-- The `WC_GET_WORK` commands that have no reply yet, in their order. -/
def State.commands (s : State n) : List (Request n) :=
  s.workio.request?.toList ++ s.workioQ.q.filterMap WorkioCmd.request?

/-- Those of thread `i`. -/
def State.outstanding (s : State n) (i : Fin n) : List (Request n) :=
  s.commands.filter fun request => request.thr = i

/-- The requests of thread `i` on their way, as a command or with a reply. -/
def State.inFlight (s : State n) (i : Fin n) : List (Request n) :=
  ((s.minerQ i).q.map fun reply => reply.unit.request) ++ s.outstanding i

@[simp] theorem WorkioPc.signal_request? (pc : WorkioPc n) : pc.signal.request? = pc.request? := by
  cases pc <;> rfl

theorem WorkioPc.Calls.request? {pc : WorkioPc n} {fetch : Fetch n} (calls : pc.Calls fetch) :
    pc.request? = some fetch.request := by
  rcases calls with rfl | ⟨stamp, rfl⟩ <;> rfl

/-- The request of a thread may be on its way when the thread waits for its reply, or has given up. -/
def MinerPc.Asked : MinerPc n → Prop
  | .popping _ | .leaving | .done => True
  | _ => False

theorem MinerPc.signal_asked {pc : MinerPc n} : pc.signal.Asked ↔ pc.Asked := by
  cases pc <;> exact Iff.rfl

/-- At most the last request of thread `i` is on its way, and it is not answered yet. -/
def LastInFlight (s : State n) (i : Fin n) : Prop :=
  s.inFlight i = [] ∨ ∃ k, s.hist.requests i = k + 1 ∧ s.inFlight i = [{ thr := i, number := k }] ∧
    (s.miner i).Asked ∧ ∀ receipt ∈ s.hist.received, receipt.request ≠ { thr := i, number := k }

/-- What a step may do to the requests on their way, other than making one or receiving a reply. -/
structure Drops (s s' : State n) (i : Fin n) : Prop where
  inFlight : (s'.inFlight i).Sublist (s.inFlight i)
  requests : s'.hist.requests i = s.hist.requests i
  received : s'.hist.received = s.hist.received
  asked : (s.miner i).Asked → (s'.miner i).Asked

theorem LastInFlight.of_drops {i : Fin n} (last : LastInFlight s i) (drops : Drops s s' i) :
    LastInFlight s' i := by
  rcases last with nothing | ⟨k, requests, flight, asked, new⟩
  · have sub := drops.inFlight
    rw [nothing] at sub
    exact .inl (List.sublist_nil.mp sub)
  · have sub := drops.inFlight
    rw [flight] at sub
    rcases List.sublist_singleton.mp sub with gone | still
    · exact .inl gone
    · refine .inr ⟨k, drops.requests.trans requests, still, drops.asked asked, ?_⟩
      rw [drops.received]
      exact new

/-- A thread that has not asked has nothing on its way. -/
theorem LastInFlight.nothing {i : Fin n} (last : LastInFlight s i) (quiet : ¬ (s.miner i).Asked) :
    s.inFlight i = [] := by
  rcases last with nothing | ⟨_, _, _, asked, _⟩
  · exact nothing
  · exact absurd asked quiet

/-! ### One step -/

/-- A miner makes a request, receives a reply, or leaves the requests alone. -/
theorem MinerStep.requests {i : Fin n} {a : MinerAction} (step : MinerStep cfg i s a s') :
    (s.miner i = .asking ∧ (s'.miner i).Asked ∧ s'.commands = s.commands ++ [s.nextRequest i] ∧
      s'.minerQ = s.minerQ ∧ s'.hist = (s.asked i).hist) ∨
    (∃ reply q, s'.miner i = .ready reply.unit ∧ (s.minerQ i).q = reply :: q.q ∧
      s'.commands = s.commands ∧ s'.minerQ = update s.minerQ i q ∧
      s'.hist = (s.receive i reply).hist) ∨
    (((s.miner i).Asked → (s'.miner i).Asked) ∧
      (∀ stage, s'.miner i = .popping stage → s.miner i = .popping .entering) ∧
      s'.commands = s.commands ∧ (∀ j, (s'.minerQ j).q = (s.minerQ j).q) ∧
      s'.hist.requests = s.hist.requests ∧ s'.hist.received = s.hist.received ∧
      s'.hist.fetched = s.hist.fetched) := by
  cases step with
  | ask q pc pushed =>
      obtain ⟨_, rfl⟩ := ThreadQ.push_eq_some.mp pushed
      refine .inl ⟨pc, ?_, ?_, rfl, rfl⟩
      · simp [MinerPc.Asked]
      · simp [State.commands, WorkioCmd.request?]
  | receive stage reply q pc popped =>
      obtain ⟨entries, _⟩ := ThreadQ.pop_eq_some.mp popped
      exact .inr (.inl ⟨reply, q, Function.update_self .., entries, rfl, rfl, rfl⟩)
  | freeze pc =>
      refine .inr (.inr ⟨fun _ => by simp [MinerPc.Asked], by simp, rfl, fun j => ?_, rfl, rfl, rfl⟩)
      by_cases me : j = i
      · subst me
        simp [ThreadQ.freeze]
      · simp [me]
  | hand called a q pc pushed =>
      obtain ⟨_, rfl⟩ := ThreadQ.push_eq_some.mp pushed
      refine .inr (.inr ⟨fun asked => ?_, by simp, ?_, fun _ => rfl, rfl, rfl, rfl⟩)
      · rw [pc] at asked
        exact asked.elim
      · simp [State.commands, WorkioCmd.request?]
  | _ =>
      refine .inr (.inr ⟨?_, ?_, ?_, fun _ => rfl, rfl, rfl, rfl⟩)
      · simp [MinerPc.Asked, *]
      · simp [*]
      · simp [State.commands]

/-- `workio_thread` passes requests on, in their order, or drops the one it is working on. -/
theorem WorkioStep.commands {a : WorkioAction} (step : WorkioStep cfg s a s') :
    (s'.commands = s.commands ∧ ∀ j, (s'.minerQ j).q = (s.minerQ j).q) ∨
    (∃ request, s.commands = request :: s'.commands ∧ (∀ j, (s'.minerQ j).q = (s.minerQ j).q) ∧
      (s'.workio = .done ∨ (s.minerQ request.thr).frozen = true ∨
        a = .replyLost ∧ ∃ reply, s.workio = .replying reply ∧ reply.unit.request = request)) ∨
    (∃ reply, s.workio = .replying reply ∧ s.commands = reply.unit.request :: s'.commands ∧
      s'.minerQ = update s.minerQ reply.unit.request.thr
        { s.minerQ reply.unit.request.thr with q := (s.minerQ reply.unit.request.thr).q ++ [reply] }) := by
  cases step with
  | takeGetWork stage request q pc popped =>
      obtain ⟨entries, _⟩ := ThreadQ.pop_eq_some.mp popped
      refine .inl ⟨?_, fun _ => rfl⟩
      simp only [State.commands, State.workioAt, pc, entries]
      rfl
  | takeSubmitWork stage thr a share q pc popped =>
      obtain ⟨entries, _⟩ := ThreadQ.pop_eq_some.mp popped
      refine .inl ⟨?_, fun _ => rfl⟩
      simp only [State.commands, State.workioAt, pc, entries]
      rfl
  | fetchAgain fetch failures pc again =>
      refine .inl ⟨?_, fun _ => rfl⟩
      simp only [State.commands, State.workioAt, pc.request?]
      rfl
  | fetchEnds fetch pc last =>
      refine .inl ⟨?_, fun _ => rfl⟩
      simp only [State.commands, State.workioAt, State.free, pc.request?]
      rfl
  | sendReply reply q pc pushed =>
      obtain ⟨_, rfl⟩ := ThreadQ.push_eq_some.mp pushed
      refine .inr (.inr ⟨reply, pc, ?_, rfl⟩)
      simp [State.commands, pc, WorkioPc.request?]
  | replyRefused reply pc frozen =>
      refine .inr (.inl ⟨reply.unit.request, ?_, fun j => ?_,
        .inr (.inl (ThreadQ.push_eq_none.mp frozen))⟩)
      · simp [State.commands, pc, WorkioPc.request?]
      · simp
  | replyNoMemory reply pc =>
      refine .inr (.inl ⟨reply.unit.request, ?_, fun _ => rfl, .inr (.inr ⟨rfl, reply, pc, rfl⟩)⟩)
      simp [State.commands, pc, WorkioPc.request?]
  | stop cmd pc =>
      rcases cmd with _ | ⟨request | _⟩
      · refine .inl ⟨?_, fun _ => rfl⟩
        simp [State.commands, pc, WorkioPc.request?, State.cmdFree, ThreadQ.freeze]
      · refine .inr (.inl ⟨request, ?_, fun _ => rfl, .inl rfl⟩)
        simp [State.commands, pc, WorkioPc.request?, WorkioCmd.request?, State.cmdFree, ThreadQ.freeze]
      · refine .inl ⟨?_, fun _ => rfl⟩
        simp [State.commands, pc, WorkioPc.request?, WorkioCmd.request?, State.cmdFree, ThreadQ.freeze]
  | start pc | startFails pc | sleep pc _ | wakeEmpty _ pc _ | noMemory _ pc | allocate _ _ pc _
  | reply _ pc | replyNamesPath _ pc _ | announce _ _ _ pc _ | announceRefused _ _ pc _
  | announceNoMemory _ _ pc | decode _ _ _ pc _ | post _ _ _ _ pc | postAgain _ _ _ _ _ _ pc _
  | postEnds _ _ _ _ _ pc _ =>
      refine .inl ⟨?_, fun _ => rfl⟩
      simp [State.commands, pc, WorkioPc.request?, WorkioCmd.request?, State.nextUnit]

theorem inFlight_eq {i : Fin n} (commands : s'.commands = s.commands)
    (q : (s'.minerQ i).q = (s.minerQ i).q) : s'.inFlight i = s.inFlight i := by
  simp only [State.inFlight, State.outstanding, commands, q]

/-- A delivered unit is on its way as before. -/
theorem inFlight_deliver {reply : Reply n} (commands : s.commands = reply.unit.request :: s'.commands)
    (q : s'.minerQ = update s.minerQ reply.unit.request.thr
      { s.minerQ reply.unit.request.thr with q := (s.minerQ reply.unit.request.thr).q ++ [reply] })
    (i : Fin n) : s'.inFlight i = s.inFlight i := by
  simp only [State.inFlight, State.outstanding, commands, q]
  by_cases me : i = reply.unit.request.thr
  · subst me
    simp
  · simp [me, Ne.symm me]

theorem WorkioStep.inFlight {a : WorkioAction} (step : WorkioStep cfg s a s') (i : Fin n) :
    (s'.inFlight i).Sublist (s.inFlight i) := by
  rcases step.commands with ⟨commands, q⟩ | ⟨request, commands, q, _⟩ | ⟨reply, _, commands, q⟩
  · rw [inFlight_eq commands (q i)]
  · simp only [State.inFlight, State.outstanding, commands, q i]
    exact ((List.sublist_cons_self ..).filter _).append_left _
  · rw [inFlight_deliver commands q]

theorem WorkioStep.requests {a : WorkioAction} (step : WorkioStep cfg s a s') :
    s'.hist.requests = s.hist.requests ∧ s'.hist.received = s.hist.received := by
  cases step <;> exact ⟨rfl, rfl⟩

theorem WorkioStep.drops {a : WorkioAction} (step : WorkioStep cfg s a s') (i : Fin n) :
    Drops s s' i where
  inFlight := step.inFlight i
  requests := congrFun step.requests.1 i
  received := step.requests.2
  asked asked := by
    rcases step.miner i with same | signal
    · rwa [same]
    · rwa [signal, MinerPc.signal_asked]

theorem MainStep.drops (step : MainStep s s') (absent : ∀ i : Fin n, s.main = .creating i →
    s.miner i = .absent) (i : Fin n) : Drops s s' i := by
  cases step with
  | create j pc =>
      refine ⟨.refl _, rfl, rfl, fun asked => ?_⟩
      by_cases me : i = j
      · subst me
        rw [absent i pc] at asked
        exact asked.elim
      · simpa [me] using asked
  | join | joined => exact ⟨.refl _, rfl, rfl, id⟩

theorem LongpollStep.drops {a : LongpollAction} (step : LongpollStep s a s') (i : Fin n) :
    Drops s s' i := by
  cases step <;> exact ⟨.refl _, rfl, rfl, id⟩

/-! ### Receipts -/

/-- Every receipt is for the request that was then the last one of its thread, and no request is answered twice. -/
structure ReceiptsInOrder (s : State n) : Prop where
  early : ∀ receipt ∈ s.hist.received, receipt.request.number < s.hist.requests receipt.request.thr
  once : (s.hist.received.map (·.request)).Nodup
  answer : ∀ receipt ∈ s.hist.received, receipt.unit.request = receipt.request
  bytes : ∀ receipt ∈ s.hist.received, receipt.work = receipt.unit.work

/-- What the routing rests on. -/
structure RequestsInOrder (s : State n) : Prop where
  last : ∀ i, LastInFlight s i
  receipts : ReceiptsInOrder s

theorem RequestsInOrder.of_drops (order : RequestsInOrder s) (drops : ∀ i, Drops s s' i)
    (requests : s'.hist.requests = s.hist.requests) (received : s'.hist.received = s.hist.received) :
    RequestsInOrder s' where
  last i := (order.last i).of_drops (drops i)
  receipts := by
    obtain ⟨early, once, answer, bytes⟩ := order.receipts
    constructor <;> simpa only [requests, received]

/-- The reply at the head of its queue answers the last request of a miner, and nothing else is on its way. -/
theorem RequestsInOrder.head (order : RequestsInOrder s) {i : Fin n} {reply : Reply n}
    {rest : List (Reply n)} (entries : (s.minerQ i).q = reply :: rest) :
    ∃ k, s.hist.requests i = k + 1 ∧ reply.unit.request = { thr := i, number := k } ∧
      (rest.map fun reply => reply.unit.request) ++ s.outstanding i = [] ∧
      ∀ receipt ∈ s.hist.received, receipt.request ≠ { thr := i, number := k } := by
  rcases order.last i with nothing | ⟨k, requests, flight, _, new⟩
  · simp [State.inFlight, entries] at nothing
  · simp only [State.inFlight, entries, List.map_cons, List.cons_append, List.cons.injEq] at flight
    exact ⟨k, requests, flight.1, flight.2, new⟩

/-- A new request is on its way behind those that were. -/
theorem inFlight_ask {request : Request n} (commands : s'.commands = s.commands ++ [request])
    (minerQ : s'.minerQ = s.minerQ) (j : Fin n) :
    s'.inFlight j = s.inFlight j ++ [request].filter fun r => r.thr = j := by
  simp only [State.inFlight, State.outstanding, commands, minerQ, List.filter_append,
    List.append_assoc]

/-- A new request. -/
theorem RequestsInOrder.ask (order : RequestsInOrder s) {i : Fin n} (pc : s.miner i = .asking)
    (others : ∀ j, j ≠ i → s'.miner j = s.miner j) (asked : (s'.miner i).Asked)
    (commands : s'.commands = s.commands ++ [s.nextRequest i]) (minerQ : s'.minerQ = s.minerQ)
    (hist : s'.hist = (s.asked i).hist) : RequestsInOrder s' := by
  obtain ⟨early, once, answer, bytes⟩ := order.receipts
  have flight := inFlight_ask commands minerQ
  constructor
  · intro j
    by_cases me : j = i
    · subst me
      have nothing := (order.last j).nothing (by rw [pc]; exact id)
      refine .inr ⟨s.hist.requests j, ?_, ?_, asked, ?_⟩
      · simp [hist]
      · rw [flight, nothing]
        simp [State.nextRequest]
      · rw [hist]
        intro receipt received same
        have before := early receipt received
        rw [same] at before
        exact Nat.lt_irrefl _ before
    · refine (order.last j).of_drops ⟨?_, ?_, ?_, ?_⟩
      · rw [flight]
        simp [State.nextRequest, Ne.symm me]
      · simp [hist, me]
      · rw [hist]
        rfl
      · rw [others j me]
        exact id
  · have later : ∀ j, s.hist.requests j ≤ s'.hist.requests j := by
      intro j
      by_cases me : j = i
      · subst me
        simp [hist]
      · simp [hist, me]
    have received : s'.hist.received = s.hist.received := by rw [hist]; rfl
    refine ⟨?_, ?_, ?_, ?_⟩
    · rw [received]
      intro receipt mem
      exact (early receipt mem).trans_le (later _)
    all_goals rwa [received]

/-- A receipt. -/
theorem RequestsInOrder.receive (order : RequestsInOrder s) (owned : MemoryOwned s) {i : Fin n}
    {reply : Reply n} {q : ThreadQ (Reply n)} (entries : (s.minerQ i).q = reply :: q.q)
    (others : ∀ j, j ≠ i → s'.miner j = s.miner j) (commands : s'.commands = s.commands)
    (minerQ : s'.minerQ = update s.minerQ i q) (hist : s'.hist = (s.receive i reply).hist) :
    RequestsInOrder s' := by
  obtain ⟨early, once, answer, bytes⟩ := order.receipts
  obtain ⟨k, requests, request, nothing, new⟩ := order.head entries
  have received : s'.hist.received = s.hist.received ++
      [{ request := { thr := i, number := k }, unit := reply.unit, work := s.heap reply.work }] := by
    rw [hist]
    simp [requests]
  have counts : s'.hist.requests = s.hist.requests := by rw [hist]; rfl
  constructor
  · intro j
    by_cases me : j = i
    · subst me
      refine .inl ?_
      simpa only [State.inFlight, State.outstanding, commands, minerQ, Function.update_self] using nothing
    · have flight : s'.inFlight j = s.inFlight j := by
        refine inFlight_eq commands ?_
        rw [minerQ, Function.update_of_ne me]
      rw [LastInFlight, flight, counts, others j me]
      refine (order.last j).imp_right ?_
      rintro ⟨m, requests', flight', asked, fresh⟩
      refine ⟨m, requests', flight', asked, fun receipt mem => ?_⟩
      rw [received, List.mem_append, List.mem_singleton] at mem
      rcases mem with old | rfl
      · exact fresh receipt old
      · intro same
        exact me (congrArg Request.thr same).symm
  · refine ⟨?_, ?_, ?_, ?_⟩
    · rw [received, counts]
      intro receipt mem
      rcases List.mem_append.mp mem with old | last
      · exact early receipt old
      · obtain rfl := List.mem_singleton.mp last
        simp [requests]
    · rw [received, List.map_append, List.nodup_append]
      refine ⟨once, List.nodup_singleton _, ?_⟩
      intro r old r' last same
      obtain ⟨receipt, mem, rfl⟩ := List.mem_map.mp old
      simp only [List.map_cons, List.map_nil, List.mem_singleton] at last
      exact new receipt mem (same.trans last)
    · rw [received]
      intro receipt mem
      rcases List.mem_append.mp mem with old | last
      · exact answer receipt old
      · obtain rfl := List.mem_singleton.mp last
        exact request
    · rw [received]
      intro receipt mem
      rcases List.mem_append.mp mem with old | last
      · exact bytes receipt old
      · obtain rfl := List.mem_singleton.mp last
        have mine : (reply.work, some reply.unit.work) ∈ held s (.replies i) := by
          simp [held, entries, Reply.block]
        exact owned.content mine

theorem MinerStep.requestsInOrder {i : Fin n} {a : MinerAction} (step : MinerStep cfg i s a s')
    (owned : MemoryOwned s) (order : RequestsInOrder s) : RequestsInOrder s' := by
  have others : ∀ j, j ≠ i → s'.miner j = s.miner j := fun j other => step.other_miner other
  rcases step.requests with ⟨pc, asked, commands, minerQ, hist⟩ |
    ⟨reply, q, _, entries, commands, minerQ, hist⟩ |
    ⟨asked, _, commands, minerQ, requests, received, _⟩
  · exact order.ask pc others asked commands minerQ hist
  · exact order.receive owned entries others commands minerQ hist
  · refine order.of_drops (fun j => ⟨?_, congrFun requests j, received, ?_⟩) requests received
    · rw [inFlight_eq commands (minerQ j)]
    · by_cases me : j = i
      · subst me
        exact asked
      · rw [others j me]
        exact id

theorem requestsInOrder {allowed : State n → Action n → Prop} (reached : Reachable cfg allowed s) :
    RequestsInOrder s := by
  refine reached.invariant ?_ ?_
  · intro s init
    constructor
    · intro i
      refine .inl ?_
      simp [State.inFlight, State.outstanding, State.commands, init.minerQ, init.workio, init.workioQ,
        ThreadQ.new, WorkioPc.request?]
    · constructor <;> simp [init.hist, History.empty]
  · rintro s a s' reached order step _
    cases step with
    | main step =>
        refine order.of_drops (step.drops fun i pc => absentFrom reached pc i (Nat.le_refl _)) ?_ ?_
        all_goals cases step <;> rfl
    | miner step => exact step.requestsInOrder (memory_owned reached) order
    | workio step => exact order.of_drops step.drops step.requests.1 step.requests.2
    | longpoll step =>
        refine order.of_drops step.drops ?_ ?_
        all_goals cases step <;> rfl

/-! ### Units -/

/-- Every unit on its way and every received one was fetched, and the serial numbers name the fetched units. -/
structure UnitsKnown (s : State n) : Prop where
  serials : s.hist.fetched.map (·.serial) = List.range s.hist.fetched.length
  replying : ∀ reply, s.workio = .replying reply → reply.unit ∈ s.hist.fetched
  queued : ∀ i, ∀ reply ∈ (s.minerQ i).q, reply.unit ∈ s.hist.fetched
  received : ∀ receipt ∈ s.hist.received, receipt.unit ∈ s.hist.fetched

theorem WorkioPc.signal_eq_replying {pc : WorkioPc n} {reply : Reply n} :
    pc.signal = .replying reply ↔ pc = .replying reply := by
  cases pc <;> simp [WorkioPc.signal]

/-- Two fetched units with the same serial number are the same. -/
theorem UnitsKnown.eq_of_serial (known : UnitsKnown s) {u u' : WorkUnit n} (mem : u ∈ s.hist.fetched)
    (mem' : u' ∈ s.hist.fetched) (same : u.serial = u'.serial) : u = u' := by
  have nodup : (s.hist.fetched.map (·.serial)).Nodup := known.serials ▸ List.nodup_range
  exact List.inj_on_of_nodup_map nodup mem mem' same

/-- A step that neither decodes nor delivers nor receives a unit. -/
private theorem UnitsKnown.frame (known : UnitsKnown s) (minerQ : ∀ j, (s'.minerQ j).q = (s.minerQ j).q)
    (fetched : s'.hist.fetched = s.hist.fetched) (received : s'.hist.received = s.hist.received)
    (replying : ∀ reply, s'.workio = .replying reply → s.workio = .replying reply) :
    UnitsKnown s' where
  serials := by
    rw [fetched]
    exact known.serials
  replying reply pc := by
    rw [fetched]
    exact known.replying reply (replying reply pc)
  queued j reply mem := by
    rw [fetched]
    exact known.queued j reply (minerQ j ▸ mem)
  received := by
    rw [fetched, received]
    exact known.received

theorem MinerStep.unitsKnown {i : Fin n} {a : MinerAction} (step : MinerStep cfg i s a s')
    (known : UnitsKnown s) : UnitsKnown s' := by
  have replying : ∀ reply, s'.workio = .replying reply → s.workio = .replying reply := by
    intro reply pc'
    rcases step.workio with same | signal
    · rwa [same] at pc'
    · rwa [signal, WorkioPc.signal_eq_replying] at pc'
  rcases step.requests with ⟨_, _, _, minerQ, hist⟩ | ⟨reply, q, _, entries, _, minerQ, hist⟩ |
    ⟨_, _, _, minerQ, _, received, fetched⟩
  · exact known.frame (fun j => by rw [minerQ]) (by rw [hist]; rfl) (by rw [hist]; rfl) replying
  · have fetched : s'.hist.fetched = s.hist.fetched := by rw [hist]; rfl
    constructor
    · rw [fetched]
      exact known.serials
    · rw [fetched]
      exact fun reply pc' => known.replying reply (replying reply pc')
    · rw [fetched, minerQ]
      intro j reply' mem
      refine known.queued j reply' ?_
      by_cases me : j = i
      · subst me
        rw [Function.update_self] at mem
        rw [entries]
        exact List.mem_cons_of_mem _ mem
      · rwa [Function.update_of_ne me] at mem
    · rw [fetched, hist]
      intro receipt mem
      rcases List.mem_append.mp mem with old | last
      · exact known.received receipt old
      · obtain rfl := List.mem_singleton.mp last
        refine known.queued i reply ?_
        rw [entries]
        exact List.mem_cons_self ..
  · exact known.frame minerQ fetched received replying

theorem WorkioStep.unitsKnown {a : WorkioAction} (step : WorkioStep cfg s a s')
    (known : UnitsKnown s) : UnitsKnown s' := by
  cases step with
  | decode fetch stamp work pc hash =>
      constructor
      · simp [known.serials, State.nextUnit, List.range_succ]
      · rintro reply ⟨⟩
        exact List.mem_append_right _ (List.mem_singleton_self _)
      · intro j reply mem
        exact List.mem_append_left _ (known.queued j reply mem)
      · intro receipt mem
        exact List.mem_append_left _ (known.received receipt mem)
  | sendReply reply q pc pushed =>
      obtain ⟨_, rfl⟩ := ThreadQ.push_eq_some.mp pushed
      refine ⟨known.serials, nofun, ?_, known.received⟩
      intro j reply' mem
      by_cases me : j = reply.unit.request.thr
      · subst me
        simp only [State.pushMinerQ, State.workioAt, Function.update_self, List.mem_append,
          List.mem_singleton] at mem
        rcases mem with old | rfl
        · exact known.queued _ reply' old
        · exact known.replying reply' pc
      · simp only [State.pushMinerQ, State.workioAt, Function.update_of_ne me] at mem
        exact known.queued j reply' mem
  | replyRefused reply pc frozen =>
      refine known.frame (fun j => ?_) rfl rfl nofun
      simp
  | _ => exact known.frame (fun _ => rfl) rfl rfl nofun

theorem unitsKnown {allowed : State n → Action n → Prop} (reached : Reachable cfg allowed s) :
    UnitsKnown s := by
  refine reached.invariant ?_ ?_
  · intro s init
    constructor <;> simp [init.hist, init.workio, init.minerQ, History.empty, ThreadQ.new]
  · rintro s a s' reached known step _
    cases step with
    | main step => cases step <;> exact known.frame (fun _ => rfl) rfl rfl fun _ => id
    | miner step => exact step.unitsKnown known
    | workio step => exact step.unitsKnown known
    | longpoll step => cases step <;> exact known.frame (fun _ => rfl) rfl rfl fun _ => id

/-! ### The routing -/

/-- A fetched unit is received at most once, unchanged, by the thread whose last request it answers; the queue of a
    miner has at most one unit, and at most one command of a miner waits for its reply. -/
structure UnitsRouted (s : State n) : Prop where
  serials : s.hist.fetched.map (·.serial) = List.range s.hist.fetched.length
  atMostOnce : (s.hist.received.map (·.unit.serial)).Nodup
  toRequester : ∀ receipt ∈ s.hist.received, receipt.unit ∈ s.hist.fetched ∧
    receipt.unit.request = receipt.request ∧ receipt.work = receipt.unit.work
  oneUnit : ∀ i, (s.minerQ i).q.length ≤ 1
  oneCommand : ∀ i, (s.outstanding i).length ≤ 1

/-- At most one request of a miner is on its way. -/
theorem RequestsInOrder.length_le (order : RequestsInOrder s) (i : Fin n) :
    (s.minerQ i).q.length + (s.outstanding i).length ≤ 1 := by
  have length : (s.inFlight i).length ≤ 1 := by
    rcases order.last i with nothing | ⟨_, _, flight, _, _⟩
    · simp [nothing]
    · simp [flight]
  simpa [State.inFlight] using length

/-- In every state that the program can come to, units have gone to exactly those who asked for them. -/
theorem units_routed (reached : Reachable cfg Transition.anyStep s) : UnitsRouted s := by
  have known := unitsKnown reached
  have order := requestsInOrder reached
  refine ⟨known.serials, ?_, ?_, ?_, ?_⟩
  · refine List.pairwise_map.mpr ((List.pairwise_map.mp order.receipts.once).imp_of_mem ?_)
    intro one two mem mem' different same
    have unit := known.eq_of_serial (known.received one mem) (known.received two mem') same
    rw [← order.receipts.answer one mem, ← order.receipts.answer two mem', unit] at different
    exact different rfl
  · intro receipt mem
    exact ⟨known.received receipt mem, order.receipts.answer receipt mem,
      order.receipts.bytes receipt mem⟩
  · intro i
    have one := order.length_le i
    omega
  · intro i
    have one := order.length_le i
    omega

theorem units_routed_firstUnit : ∃ s, Reachable exampleConfig Transition.anyStep s ∧
    s.hist.received.map (·.unit) = [firstUnit] ∧ UnitsRouted s := by
  obtain ⟨s, reached, first⟩ := @exists_firstUnit Transition.anyStep fun _ _ _ => trivial
  exact ⟨s, reached, first.received, units_routed reached⟩

end CpuMiner
