/-
Module: CpuMiner.Threads.Shares
Layer: Threads
Purpose: Where the shares come from. A miner works on the unit it has received last until it asks for the next one, and
  hands over at most one share for it. So the accepted shares can be traced back to receipts, to each one at most once
  (`Mined`). What is posted upstream is the data of a unit with another nonce (`posted_from_unit`), and with the vector
  backends it solves the unit (`posted_solves`).
Imports: CpuMiner.Miner.Upstream, CpuMiner.Threads.Delivery, CpuMiner.Threads.Routing
Trusted boundary: none
Main exports: Found, MinerPc.busy, MinerPc.WorksOn, Mined, mined, sha256Scans, SharesMined, posted_from_unit,
  dataHeader, posted_solves
Open obligations: none
-/
import CpuMiner.Miner.Upstream
import CpuMiner.Threads.Delivery
import CpuMiner.Threads.Routing

namespace CpuMiner

open Words
open Sha256
open Function (update)

variable {n : Nat} {cfg : Config n} {s s' : State n}

/-! ### The unit of a miner -/

/-- A scan of this work reports success, and leaves that work. -/
def Found (cfg : Config n) (given found : Work) : Prop :=
  ∃ maxNonce scan reads, cfg.scans given maxNonce scan ∧ scan reads = some { work := found, rc := true }

/-- The thread has a unit that it has not yet been done with. -/
def MinerPc.busy : MinerPc n → Bool
  | .ready _ | .scanning _ _ _ | .submitting _ | .handing _ _ => true
  | .absent | .asking | .popping _ | .leaving | .done => false

/-- The thread, whose variable `work` has this value, is working on what it was given. -/
def MinerPc.WorksOn (cfg : Config n) (work : Work) : MinerPc n → Work → Prop
  | .ready _, given => work = given
  | .scanning _ scan _, given => work = given ∧ ∃ maxNonce, cfg.scans given maxNonce scan
  | .submitting called, given | .handing called _, given => Found cfg given called
  | .absent, _ | .asking, _ | .popping _, _ | .leaving, _ | .done, _ => False

@[simp] theorem MinerPc.signal_busy (pc : MinerPc n) : pc.signal.busy = pc.busy := by
  cases pc <;> rfl

@[simp] theorem MinerPc.signal_worksOn (work given : Work) (pc : MinerPc n) :
    pc.signal.WorksOn cfg work given ↔ pc.WorksOn cfg work given := by
  cases pc <;> exact Iff.rfl

/-! ### The receipts behind the shares -/

/-- Every accepted share was found in a unit that was received, and no unit has two of them. The unit that a miner is
    working on has none yet. -/
structure Mined (cfg : Config n) (s : State n) (origins : List (Receipt n)) : Prop where
  found : List.Forall₂ (fun share receipt => Found cfg receipt.work share.work) s.hist.accepted origins
  received : ∀ receipt ∈ origins, receipt ∈ s.hist.received
  once : origins.Nodup
  current : ∀ i, (s.miner i).busy = true → ∃ receipt ∈ s.hist.received, receipt.request.thr = i ∧
    receipt ∉ origins ∧ (s.miner i).WorksOn cfg (s.work i) receipt.work

/-- A step after which no thread has begun with a unit, and which hands over no share. -/
theorem Mined.frame {origins : List (Receipt n)} (mined : Mined cfg s origins)
    (accepted : s'.hist.accepted = s.hist.accepted) (received : s'.hist.received = s.hist.received)
    (goesOn : ∀ i, (s'.miner i).busy = true → (s.miner i).busy = true ∧
      ∀ given, (s.miner i).WorksOn cfg (s.work i) given → (s'.miner i).WorksOn cfg (s'.work i) given) :
    Mined cfg s' origins where
  found := by
    rw [accepted]
    exact mined.found
  received := by
    rw [received]
    exact mined.received
  once := mined.once
  current i busy' := by
    obtain ⟨busy, works⟩ := goesOn i busy'
    obtain ⟨receipt, mem, thr, fresh, on⟩ := mined.current i busy
    rw [received]
    exact ⟨receipt, mem, thr, fresh, works _ on⟩

/-- Another thread makes the step. -/
theorem Mined.elsewhere {origins : List (Receipt n)} (mined : Mined cfg s origins)
    (accepted : s'.hist.accepted = s.hist.accepted) (received : s'.hist.received = s.hist.received)
    (work : s'.work = s.work) (miner : ∀ i, s'.miner i = s.miner i ∨ s'.miner i = (s.miner i).signal) :
    Mined cfg s' origins := by
  refine mined.frame accepted received fun i busy' => ?_
  rw [work]
  rcases miner i with same | signal
  · rw [same] at busy' ⊢
    exact ⟨busy', fun _ => id⟩
  · rw [signal, MinerPc.signal_busy] at busy'
    rw [signal]
    exact ⟨busy', fun given on => (MinerPc.signal_worksOn _ _ _).mpr on⟩

/-- A step of thread `i` within its unit, or after which it has no unit. -/
theorem Mined.within {origins : List (Receipt n)} {i : Fin n} (mined : Mined cfg s origins)
    (accepted : s'.hist.accepted = s.hist.accepted) (received : s'.hist.received = s.hist.received)
    (work : ∀ j, j ≠ i → s'.work j = s.work j) (miner : ∀ j, j ≠ i → s'.miner j = s.miner j)
    (goesOn : (s'.miner i).busy = true → (s.miner i).busy = true ∧
      ∀ given, (s.miner i).WorksOn cfg (s.work i) given → (s'.miner i).WorksOn cfg (s'.work i) given) :
    Mined cfg s' origins := by
  refine mined.frame accepted received fun j => ?_
  by_cases me : j = i
  · subst me
    exact goesOn
  · rw [miner j me, work j me]
    exact fun busy => ⟨busy, fun _ => id⟩

/-- A new receipt. -/
theorem Mined.receive {origins : List (Receipt n)} {i : Fin n} {receipt : Receipt n} (mined : Mined cfg s origins)
    (accepted : s'.hist.accepted = s.hist.accepted) (received : s'.hist.received = s.hist.received ++ [receipt])
    (fresh : receipt ∉ s.hist.received) (thr : receipt.request.thr = i)
    (work : ∀ j, j ≠ i → s'.work j = s.work j) (miner : ∀ j, j ≠ i → s'.miner j = s.miner j)
    (on : (s'.miner i).WorksOn cfg (s'.work i) receipt.work) : Mined cfg s' origins where
  found := by
    rw [accepted]
    exact mined.found
  received old mem := by
    rw [received]
    exact List.mem_append_left _ (mined.received old mem)
  once := mined.once
  current j busy := by
    rw [received]
    by_cases me : j = i
    · subst me
      exact ⟨receipt, by simp, thr, fun mem => fresh (mined.received receipt mem), on⟩
    · rw [miner j me, work j me] at *
      obtain ⟨old, mem, rest⟩ := mined.current j busy
      exact ⟨old, List.mem_append_left _ mem, rest⟩

/-- A share is handed over, and its thread is done with the unit. -/
theorem Mined.hand {origins : List (Receipt n)} {i : Fin n} {share : Share} {called : Work} {a : Addr}
    (mined : Mined cfg s origins) (pc : s.miner i = .handing called a) (carries : share.work = called)
    (accepted : s'.hist.accepted = s.hist.accepted ++ [share]) (received : s'.hist.received = s.hist.received)
    (work : s'.work = s.work) (miner : ∀ j, j ≠ i → s'.miner j = s.miner j) (idle : s'.miner i = .asking) :
    ∃ origins', Mined cfg s' origins' := by
  obtain ⟨receipt, mem, thr, fresh, on⟩ := mined.current i (by rw [pc]; rfl)
  rw [pc] at on
  have found : Found cfg receipt.work share.work := carries ▸ on
  refine ⟨origins ++ [receipt], ?_, ?_, ?_, ?_⟩
  · rw [accepted]
    exact List.rel_append mined.found (.cons found .nil)
  · rw [received]
    intro other listed
    rcases List.mem_append.mp listed with old | new
    · exact mined.received other old
    · rwa [List.mem_singleton.mp new]
  · refine List.nodup_append.mpr ⟨mined.once, List.nodup_singleton receipt, ?_⟩
    rintro old listed new isNew rfl
    exact fresh (List.mem_singleton.mp isNew ▸ listed)
  · intro j busy
    have other : j ≠ i := by
      rintro rfl
      rw [idle] at busy
      cases busy
    rw [miner j other] at busy ⊢
    rw [work, received]
    obtain ⟨theirs, listed, theirThr, theirFresh, theirOn⟩ := mined.current j busy
    refine ⟨theirs, listed, theirThr, fun inNew => ?_, theirOn⟩
    rcases List.mem_append.mp inNew with old | new
    · exact theirFresh old
    · -- it belongs to another thread
      rw [List.mem_singleton.mp new, thr] at theirThr
      exact other theirThr.symm

theorem MinerStep.mined {origins : List (Receipt n)} {i : Fin n} {a : MinerAction}
    (step : MinerStep cfg i s a s') (order : RequestsInOrder s)
    (mined : Mined cfg s origins) : ∃ origins', Mined cfg s' origins' := by
  have miner : ∀ j, j ≠ i → s'.miner j = s.miner j := fun j other => step.other_miner other
  cases step with
  | receive stage reply q pc popped =>
      obtain ⟨entries, _⟩ := ThreadQ.pop_eq_some.mp popped
      obtain ⟨k, requests, _, _, new⟩ := order.head entries
      refine ⟨origins, mined.receive rfl rfl (fun old => ?_) rfl (fun j other => ?_) miner ?_⟩
      · exact new _ old (by simp [requests])
      · simp [other]
      · simp [MinerPc.WorksOn]
  | clear unit scan pc possible =>
      refine ⟨origins, mined.within rfl rfl (fun _ _ => rfl) miner fun _ => ⟨by rw [pc]; rfl, ?_⟩⟩
      intro given on
      rw [pc] at on
      obtain rfl : s.work i = given := on
      simpa [MinerPc.WorksOn] using ⟨_, possible⟩
  | read unit scan reads pc goesOn =>
      refine ⟨origins, mined.within rfl rfl (fun _ _ => rfl) miner fun _ => ⟨by rw [pc]; rfl, ?_⟩⟩
      intro given on
      rw [pc] at on
      simpa [MinerPc.WorksOn] using on
  | found unit scan reads ret maxNonce pc returned rc adjusted =>
      refine ⟨origins, mined.within rfl rfl (fun j other => by simp [other]) miner
        fun _ => ⟨by rw [pc]; rfl, ?_⟩⟩
      intro given on
      rw [pc] at on
      obtain ⟨_, asked, possible⟩ := on
      have reported : scan reads = some { work := ret.work, rc := true } := by rw [returned, ← rc]
      simpa [MinerPc.WorksOn] using ⟨asked, scan, reads, possible, reported⟩
  | copy called a pc fresh =>
      refine ⟨origins, mined.within rfl rfl (fun _ _ => rfl) miner fun _ => ⟨by rw [pc]; rfl, ?_⟩⟩
      intro given on
      rw [pc] at on
      simpa [MinerPc.WorksOn] using on
  | hand called a q pc pushed =>
      exact mined.hand pc rfl rfl rfl rfl miner (by simp)
  | notFound unit scan reads ret maxNonce pc returned rc adjusted =>
      exact ⟨origins, mined.within rfl rfl (fun j other => by simp [other]) miner (by simp [MinerPc.busy])⟩
  | _ => exact ⟨origins, mined.within rfl rfl (fun _ _ => rfl) miner (by simp [MinerPc.busy])⟩

/-- In every run the accepted shares have come from receipts, each from one of its own. -/
theorem mined {allowed : State n → Action n → Prop} (reached : Reachable cfg allowed s) :
    ∃ origins, Mined cfg s origins := by
  refine reached.invariant (I := fun s => ∃ origins, Mined cfg s origins) ?_ ?_
  · intro s init
    refine ⟨[], ?_, by simp, List.nodup_nil, fun i busy => ?_⟩
    · simp [init.hist, History.empty]
    · rw [init.miner i] at busy
      cases busy
  · rintro s a s' reached ⟨origins, mined⟩ step _
    cases step with
    | main step =>
        cases step with
        | create i pc =>
            refine ⟨origins, mined.within (i := i) rfl rfl (fun _ _ => rfl) (fun j other => ?_) ?_⟩
            · simp [other]
            · simp [MinerPc.busy]
        | join | joined => exact ⟨origins, mined.elsewhere rfl rfl rfl fun _ => .inl rfl⟩
    | miner step => exact step.mined (requestsInOrder reached) mined
    | workio step =>
        refine ⟨origins, mined.elsewhere ?_ ?_ ?_ step.miner⟩
        all_goals cases step <;> rfl
    | longpoll step =>
        refine ⟨origins, mined.elsewhere ?_ ?_ ?_ fun i => .inl (congrFun step.miner i)⟩
        all_goals cases step <;> rfl

/-! ### What a scan has found -/

/-- The scans of the program when the hash instruction of the processor computes SHA-256. -/
def sha256Scans (algo : Sha256Algo) (work : Work) (maxNonce : Word) (scan : Scan) : Prop :=
  ∃ outside : Outside, (∀ m, outside.instruction initialHash m = Sha256.hashWords m) ∧
    scan = scanAfter algo work maxNonce outside

theorem scanAfter_eq_some {algo : Sha256Algo} {work : Work} {maxNonce : Word} {outside : Outside}
    {reads : List Bool} {ret : ScanReturn} (returned : scanAfter algo work maxNonce outside reads = some ret) :
    ∃ restart passes out, minerScan algo work maxNonce { outside with restart := restart } passes = some out ∧
      out.work = ret.work ∧ out.rc = ret.rc := by
  obtain ⟨out, run, rfl⟩ := Option.map_eq_some_iff.mp returned
  exact ⟨_, _, out, run, rfl, rfl⟩

theorem Found.data {algo : Sha256Algo} (program : cfg.scans = programScans algo) {given found : Work}
    (mined : Found cfg given found) :
    ∃ nonce, found.data = Buf.ofWords (n := 32) (update given.dataWords 19 nonce) := by
  obtain ⟨maxNonce, scan, reads, possible, reported⟩ := mined
  rw [program] at possible
  obtain ⟨outside, rfl⟩ := possible
  obtain ⟨_, _, out, run, rfl, rc⟩ := scanAfter_eq_some reported
  obtain ⟨nonce, reports⟩ := minerScan_reports run rc
  exact ⟨nonce, reports.data⟩

theorem Found.solves {algo : Sha256Algo} (program : cfg.scans = sha256Scans algo)
    (exact : algo = .sse2_64 ∨ algo = .fourWay ∨ algo = .via) {given found : Work} (wf : given.WellFormed)
    (mined : Found cfg given found) : DoubleHashEndsInZeros found.header := by
  obtain ⟨maxNonce, scan, reads, possible, reported⟩ := mined
  rw [program] at possible
  obtain ⟨outside, hashes, rfl⟩ := possible
  obtain ⟨_, _, out, run, rfl, rc⟩ := scanAfter_eq_some reported
  rcases exact with rfl | rfl | rfl
  · obtain ⟨scanned, inner, rfl⟩ := Option.map_eq_some_iff.mp run
    exact scanhashSse264_header wf inner rc
  · obtain ⟨scanned, inner, rfl⟩ := Option.map_eq_some_iff.mp run
    exact scanHash4WaySSE2_header wf inner rc
  · obtain ⟨scanned, inner, rfl⟩ := Option.map_eq_some_iff.mp run
    exact scanhashVia_header hashes inner rc

/-! ### What is posted -/

/-- What is posted is the data of an accepted share. -/
theorem posted_accepted {allowed : State n → Action n → Prop} (reached : Reachable cfg allowed s) {share : Share}
    {data : Buf 128} (posted : .attempt share (some data) ∈ s.hist.upstream) :
    share ∈ s.hist.accepted ∧ data = share.work.data := by
  have inv := outbox_inv reached
  refine ⟨?_, inv.honest share data posted⟩
  have whole : s.hist.accepted = s.replied ++ s.sendingOrAbandoned ++ s.queued := inv.inOrder
  rw [whole]
  exact List.mem_append_left _ (inv.attempted share _ posted)

/-- The accepted shares, and the receipts that they come from. -/
structure SharesMined (s : State n) (origins : List (Receipt n)) : Prop where
  received : ∀ receipt ∈ origins, receipt ∈ s.hist.received
  oncePerUnit : (origins.map (·.unit.serial)).Nodup
  newNonce : List.Forall₂ (fun share receipt => ∃ nonce, share.work.data =
    Buf.ofWords (n := 32) (update receipt.unit.work.dataWords 19 nonce)) s.hist.accepted origins
  posted : ∀ share data, .attempt share (some data) ∈ s.hist.upstream →
    share ∈ s.hist.accepted ∧ data = share.work.data

/-- In every run, and with every backend, what is posted is a unit that was received with another nonce in it, and no
    unit is the origin of two shares. -/
theorem posted_from_unit {algo : Sha256Algo} (program : cfg.scans = programScans algo)
    (reached : Reachable cfg Transition.anyStep s) : ∃ origins, SharesMined s origins := by
  obtain ⟨origins, mined⟩ := mined reached
  have known := unitsKnown reached
  have receipts := (requestsInOrder reached).receipts
  refine ⟨origins, mined.received, ?_, ?_, fun _ _ posted => posted_accepted reached posted⟩
  · refine List.pairwise_map.mpr (mined.once.imp_of_mem ?_)
    intro one two mem mem' different same
    have received := mined.received one mem
    have received' := mined.received two mem'
    have unit := known.eq_of_serial (known.received one received) (known.received two received') same
    -- two receipts of one unit answer one request
    have request : one.request = two.request := by
      rw [← receipts.answer one received, ← receipts.answer two received', unit]
    exact different (List.inj_on_of_nodup_map receipts.once received received' request)
  · refine List.forall₂_iff_get.mpr ⟨mined.found.length_eq, fun k inShares inOrigins => ?_⟩
    have found := (List.forall₂_iff_get.mp mined.found).2 k inShares inOrigins
    rw [receipts.bytes _ (mined.received _ (List.get_mem _ _))] at found
    exact found.data program

theorem posted_from_unit_firstShare : ∃ s share origins, Reachable exampleConfig Transition.anyStep s ∧
    .attempt share (some share.work.data) ∈ s.hist.upstream ∧ SharesMined s origins := by
  obtain ⟨s, a, share, reached, first⟩ := exists_firstShare
  have posted := reached.next (.workio (.post 0 a share 0 first.workio)) trivial
  have mine : (a, some share.work) ∈ held s .workio := by simp [held, first.workio, WorkioPc.blocks]
  obtain ⟨origins, mined⟩ := posted_from_unit rfl posted
  refine ⟨_, share, origins, posted, ?_, mined⟩
  simp [(memory_owned reached).content mine]

/-- The header in 128 bytes of data. -/
def dataHeader (data : Buf 128) : List Byte := swappedBack ((List.ofFn (Buf.words (n := 32) data)).take 20)

/-- When every unit that was received is well formed, every header that is posted by one of these backends has a double
    hash that ends in four zero bytes. -/
theorem posted_solves {algo : Sha256Algo} (program : cfg.scans = sha256Scans algo)
    (exact : algo = .sse2_64 ∨ algo = .fourWay ∨ algo = .via) (reached : Reachable cfg Transition.anyStep s)
    (wf : ∀ receipt ∈ s.hist.received, receipt.unit.work.WellFormed) {share : Share} {data : Buf 128}
    (posted : .attempt share (some data) ∈ s.hist.upstream) : DoubleHashEndsInZeros (dataHeader data) := by
  obtain ⟨origins, mined⟩ := mined reached
  obtain ⟨accepted, rfl⟩ := posted_accepted reached posted
  obtain ⟨k, inShares, rfl⟩ := List.getElem_of_mem accepted
  have inOrigins : k < origins.length := mined.found.length_eq ▸ inShares
  have found := (List.forall₂_iff_get.mp mined.found).2 k inShares inOrigins
  have received := mined.received _ (List.get_mem origins ⟨k, inOrigins⟩)
  rw [(requestsInOrder reached).receipts.bytes _ received] at found
  exact found.solves program exact (wf _ received)

/-! ### A first solution -/

/-- The example with a processor that computes SHA-256. -/
def hashingConfig : Config 1 := { exampleConfig with scans := sha256Scans .via }

/-- A step other than the beginning of a scan does not depend on the scans. -/
theorem Step.rescan {scans : Work → Word → Scan → Prop} {a : Action n} (step : Step cfg s a s')
    (noClear : ∀ i, a ≠ .miner i .clears) : Step { cfg with scans := scans } s a s' := by
  cases step with
  | main step => exact .main step
  | longpoll step => exact .longpoll step
  | workio step =>
      refine .workio ?_
      cases step <;> constructor <;> assumption
  | @miner i _ _ step =>
      refine .miner ?_
      cases step with
      | clear => exact absurd rfl (noClear i)
      | submitNoMemory called pc => exact .submitNoMemory called pc
      | handNoMemory called a pc => exact .handNoMemory called a pc
      | handRefused called a pc frozen => exact .handRefused called a pc frozen
      | _ => constructor <;> assumption

theorem Reachable.rescan {scans : Work → Word → Scan → Prop}
    (reached : Reachable cfg (fun _ a => ∀ i, a ≠ .miner i .clears) s) :
    Reachable { cfg with scans := scans } Transition.anyStep s := by
  refine reached.invariant ?_ ?_
  · rintro s ⟨⟩
    exact .start (by constructor <;> assumption)
  · rintro s a s' _ ih step noClear
    exact ih.next (step.rescan noClear) trivial

/-- The first share is posted. -/
theorem exists_firstPost : ∃ s share, Reachable hashingConfig Transition.anyStep s ∧
    s.hist.upstream = [.attempt share (some share.work.data), .reply share] ∧
    s.hist.received.map (·.unit) = [firstUnit] := by
  obtain ⟨s, reached, first⟩ :=
    @exists_firstUnit (fun _ a => ∀ i, a ≠ .miner i .clears) fun _ _ other i clears => other i clears
  have start : Reachable hashingConfig Transition.anyStep s := Reachable.rescan reached
  obtain ⟨ret, returned, rc⟩ := Option.map_eq_some_iff.mp exampleScan_found
  obtain ⟨main, miner, workio, longpoll, minerQ, workioQ, longpollQ, work, maxNonce, workRestart,
    haveLongpoll, optScantime, heap, allocated, hist⟩ := s
  obtain rfl : workio = .popping .entering := first.workio
  obtain rfl : workioQ = .new := first.workioQ
  have posted := start
    |>.next (.miner (.clear firstUnit (scanAfter .via exampleWork 0xffffff exampleOutside) first.miner
      ⟨exampleOutside, fun _ => rfl, by rw [first.work, first.maxNonce]⟩)) trivial
    |>.next (.miner (i := 0) (.found _ _ _ ret (maxNonce 0) rfl returned rc (.inl rfl))) trivial
    |>.next (.miner (i := 0) (.copy ret.work 0 rfl (first.allocated 0))) trivial
    |>.next (.miner (i := 0) (.hand ret.work 0 _ rfl rfl)) trivial
    |>.next (.workio (.takeSubmitWork _ _ _ _ _ rfl rfl)) trivial
    |>.next (.workio (.post _ _ _ _ rfl)) trivial
  refine ⟨_, { number := hist.accepted.length, work := ret.work }, posted, ?_, first.received⟩
  exact congrArg (· ++ _ ++ _) first.upstream

theorem posted_solves_firstPost : ∃ s share, Reachable hashingConfig Transition.anyStep s ∧
    .attempt share (some share.work.data) ∈ s.hist.upstream ∧ DoubleHashEndsInZeros (dataHeader share.work.data) := by
  obtain ⟨s, share, reached, upstream, received⟩ := exists_firstPost
  have posted : .attempt share (some share.work.data) ∈ s.hist.upstream := by simp [upstream]
  refine ⟨s, share, reached, posted, posted_solves rfl (.inr (.inr rfl)) reached ?_ posted⟩
  intro receipt mem
  have unit : receipt.unit ∈ s.hist.received.map (·.unit) := List.mem_map_of_mem mem
  rw [received, List.mem_singleton] at unit
  rw [unit]
  exact exampleWork_wellFormed

end CpuMiner
