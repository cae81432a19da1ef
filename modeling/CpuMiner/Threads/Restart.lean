/-
Module: CpuMiner.Threads.Restart
Layer: Threads
Purpose: Restart requests. `restart_threads` sets the flag of every miner, and a scan clears its flag when it begins.
  A miner that scans a unit from before a completed call has its flag set, if every scan begins with a unit that
  came after all the calls that have already set its flag; a call that comes between the fetch of a unit and the
  beginning of its scan is lost.
Imports: CpuMiner.Threads.Step
Trusted boundary: none
Main exports: Reading, FreshClears, StopsAtNextRead, restart_not_lost, restart_lost
Open obligations: none
-/
import CpuMiner.Threads.Step

namespace CpuMiner

open Function (update)

variable {n : Nat} {cfg : Config n} {s s' : State n}

/-! ### The calls of `restart_threads` -/

/-- The calls are made one after another, and the flags are set in order. -/
structure SetsInOrder (s : State n) : Prop where
  restarting : ∀ k, s.longpoll = .restarting k →
    s.hist.restarts.begun = s.hist.restarts.done + 1 ∧
      ∀ i : Fin n, s.hist.setBy i = if i < k then s.hist.restarts.begun else s.hist.restarts.done
  idle : (∀ k, s.longpoll ≠ .restarting k) →
    s.hist.restarts.begun = s.hist.restarts.done ∧ ∀ i, s.hist.setBy i = s.hist.restarts.done

/-- Every completed call has set every flag. -/
theorem SetsInOrder.done_le (order : SetsInOrder s) (i : Fin n) :
    s.hist.restarts.done ≤ s.hist.setBy i := by
  by_cases restarting : ∃ k, s.longpoll = .restarting k
  · obtain ⟨k, pc⟩ := restarting
    obtain ⟨begun, sets⟩ := order.restarting k pc
    rw [sets i]
    split <;> omega
  · have idle := order.idle fun k pc => restarting ⟨k, pc⟩
    exact (idle.2 i).ge

theorem LongpollPc.signal_eq_restarting {pc : LongpollPc} {k : Nat} :
    pc.signal = .restarting k ↔ pc = .restarting k := by
  cases pc <;> simp [LongpollPc.signal]

/-- Only `longpoll_thread` changes what the order is about; other threads may signal it. -/
theorem SetsInOrder.frame (order : SetsInOrder s)
    (pc : s'.longpoll = s.longpoll ∨ s'.longpoll = s.longpoll.signal)
    (restarts : s'.hist.restarts = s.hist.restarts) (setBy : s'.hist.setBy = s.hist.setBy) :
    SetsInOrder s' := by
  have same : ∀ k, s'.longpoll = .restarting k ↔ s.longpoll = .restarting k := by
    intro k
    rcases pc with pc | pc
    · rw [pc]
    · rw [pc, LongpollPc.signal_eq_restarting]
  constructor
  · intro k now
    rw [restarts, setBy]
    exact order.restarting k ((same k).mp now)
  · intro idle
    rw [restarts, setBy]
    exact order.idle fun k before => idle k ((same k).mpr before)

theorem Init.setsInOrder (init : Init cfg s) : SetsInOrder s where
  restarting k pc := by
    rw [init.longpoll] at pc
    split at pc <;> cases pc
  idle _ := by
    rw [init.hist]
    exact ⟨rfl, fun _ => rfl⟩

theorem MainStep.setsInOrder (step : MainStep s s') (order : SetsInOrder s) : SetsInOrder s' := by
  cases step <;> exact order.frame (.inl rfl) rfl rfl

theorem MinerStep.setsInOrder {i : Fin n} {a : MinerAction} (step : MinerStep cfg i s a s')
    (order : SetsInOrder s) : SetsInOrder s' := by
  cases step <;> exact order.frame (.inl rfl) rfl rfl

theorem WorkioStep.setsInOrder {a : WorkioAction} (step : WorkioStep cfg s a s')
    (order : SetsInOrder s) : SetsInOrder s' := by
  cases step with
  | announce | announceRefused => exact order.frame (.inr rfl) rfl rfl
  | _ => exact order.frame (.inl rfl) rfl rfl

/-- Outside of `restart_threads`, a step that does not enter it changes nothing. -/
private theorem SetsInOrder.idle_step (order : SetsInOrder s)
    (before : ∀ k, s.longpoll ≠ .restarting k) (after : ∀ k, s'.longpoll ≠ .restarting k)
    (hist : s'.hist = s.hist) : SetsInOrder s' where
  restarting k pc := absurd pc (after k)
  idle _ := by
    rw [hist]
    exact order.idle before

theorem LongpollStep.setsInOrder {a : LongpollAction} (step : LongpollStep s a s')
    (order : SetsInOrder s) : SetsInOrder s' := by
  cases step with
  | poll failures pc =>
      obtain ⟨begun, sets⟩ := order.idle (by simp [pc])
      constructor
      · rintro k ⟨⟩
        refine ⟨congrArg (· + 1) begun, fun i => ?_⟩
        rw [if_neg (Nat.not_lt_zero _)]
        exact sets i
      · intro idle
        exact absurd rfl (idle 0)
  | set i pc =>
      obtain ⟨begun, sets⟩ := order.restarting _ pc
      constructor
      · rintro k ⟨⟩
        refine ⟨begun, fun j => ?_⟩
        have old := sets j
        by_cases same : j = i
        · simp [same]
        · have place : j.val ≠ i.val := fun h => same (Fin.ext h)
          simp only [State.setRestart, State.note, State.longpollAt, Function.update_of_ne same, old]
          have bound : j.val < i.val ↔ j.val < i.val + 1 := by omega
          simp only [bound]
      · intro idle
        exact absurd rfl (idle (i + 1))
  | restarted pc =>
      obtain ⟨_, sets⟩ := order.restarting n pc
      constructor
      · rintro k ⟨⟩
      · intro _
        refine ⟨rfl, fun i => ?_⟩
        have old := sets i
        rw [if_pos i.isLt] at old
        exact old
  | take _ _ pc _ | sleep pc _ | wakeEmpty _ pc _ | curl pc | curlFails pc | pollAgain _ pc _
  | pollEnds _ pc _ | freeze pc =>
      exact order.idle_step (by simp [pc]) (by simp) rfl

theorem setsInOrder {allowed : State n → Action n → Prop} (reached : Reachable cfg allowed s) :
    SetsInOrder s := by
  refine reached.invariant (fun _ init => init.setsInOrder) ?_
  rintro s a s' _ order step _
  cases step with
  | main step => exact step.setsInOrder order
  | miner step => exact step.setsInOrder order
  | workio step => exact step.setsInOrder order
  | longpoll step => exact step.setsInOrder order

/-! ### The flag during a scan -/

/-- When a unit is from before a call: when it came before the call began, or before it returned. -/
inductive Reading where
  | begun
  | done

/-- The calls that a unit with this stamp is not from before. -/
def Stamp.count (stamp : Stamp) : Reading → Nat
  | .begun => stamp.begun
  | .done => stamp.done

/-- Every scan begins with a unit that is not from before a call that has already set its flag. -/
def FreshClears (r : Reading) (s : State n) (a : Action n) : Prop :=
  ∀ i unit, a = .miner i .clears → s.miner i = .ready unit → s.hist.setBy i ≤ unit.stamp.count r

/-- Thread `i` is inside of this scan, of this unit. -/
def Scans (s : State n) (i : Fin n) (unit : WorkUnit n) (scan : Scan) : Prop :=
  ∃ reads, s.miner i = .scanning unit scan reads

/-- While the flag of a scan is clear, no call has set it since the unit came. -/
def FlagsKept (r : Reading) (s : State n) : Prop :=
  ∀ i unit scan, Scans s i unit scan → s.workRestart i = false → s.hist.setBy i ≤ unit.stamp.count r

/-- A scan goes on with its flag as it is, or begins. -/
theorem MinerStep.scans {i j : Fin n} {a : MinerAction} {unit : WorkUnit n} {scan : Scan}
    (step : MinerStep cfg i s a s') (now : Scans s' j unit scan) :
    Scans s j unit scan ∧ s'.workRestart j = s.workRestart j ∨
      j = i ∧ a = .clears ∧ s.miner j = .ready unit ∧ cfg.scans (s.work j) (s.maxNonce j) scan := by
  obtain ⟨reads, pc'⟩ := now
  by_cases same : j = i
  · subst same
    cases step with
    | clear unit' scan' pc possible =>
        simp only [State.minerAt, Function.update_self, MinerPc.scanning.injEq] at pc'
        obtain ⟨rfl, rfl, _⟩ := pc'
        exact .inr ⟨rfl, rfl, pc, possible⟩
    | read unit' scan' reads' pc _ =>
        simp only [State.minerAt, Function.update_self, MinerPc.scanning.injEq] at pc'
        obtain ⟨rfl, rfl, _⟩ := pc'
        exact .inl ⟨⟨reads', pc⟩, rfl⟩
    | _ => simp at pc'
  · rw [step.other_miner same] at pc'
    exact .inl ⟨⟨reads, pc'⟩, step.other_workRestart same⟩

theorem MinerPc.signal_eq_scanning {pc : MinerPc n} {unit : WorkUnit n} {scan : Scan}
    {reads : List Bool} : pc.signal = .scanning unit scan reads ↔ pc = .scanning unit scan reads := by
  cases pc <;> simp [MinerPc.signal]

theorem WorkioStep.scans {a : WorkioAction} {j : Fin n} {unit : WorkUnit n} {scan : Scan}
    (step : WorkioStep cfg s a s') (now : Scans s' j unit scan) : Scans s j unit scan := by
  obtain ⟨reads, pc⟩ := now
  refine ⟨reads, ?_⟩
  rcases step.miner j with same | signal
  · rwa [same] at pc
  · rwa [signal, MinerPc.signal_eq_scanning] at pc

theorem LongpollStep.scans {a : LongpollAction} {j : Fin n} {unit : WorkUnit n} {scan : Scan}
    (step : LongpollStep s a s') (now : Scans s' j unit scan) : Scans s j unit scan := by
  obtain ⟨reads, pc⟩ := now
  rw [step.miner] at pc
  exact ⟨reads, pc⟩

theorem MainStep.scans {j : Fin n} {unit : WorkUnit n} {scan : Scan} (step : MainStep s s')
    (now : Scans s' j unit scan) : Scans s j unit scan := by
  obtain ⟨reads, pc⟩ := now
  cases step with
  | create i _ =>
      by_cases same : j = i
      · subst same
        simp at pc
      · simp only [State.minerAt, Function.update_of_ne same] at pc
        exact ⟨reads, pc⟩
  | _ => exact ⟨reads, pc⟩

theorem MinerStep.setBy {i : Fin n} {a : MinerAction} (step : MinerStep cfg i s a s') :
    s'.hist.setBy = s.hist.setBy := by
  cases step <;> rfl

theorem MinerStep.flagsKept {r : Reading} {i : Fin n} {a : MinerAction}
    (step : MinerStep cfg i s a s') (fresh : FreshClears r s (.miner i a)) (kept : FlagsKept r s) :
    FlagsKept r s' := by
  intro j unit scan now clear
  rw [step.setBy]
  rcases step.scans now with ⟨before, flag⟩ | ⟨rfl, rfl, ready, _⟩
  · rw [flag] at clear
    exact kept j unit scan before clear
  · exact fresh j unit rfl ready

theorem WorkioStep.workRestart {a : WorkioAction} (step : WorkioStep cfg s a s') :
    s'.workRestart = s.workRestart := by
  cases step <;> rfl

theorem WorkioStep.setBy {a : WorkioAction} (step : WorkioStep cfg s a s') :
    s'.hist.setBy = s.hist.setBy := by
  cases step <;> rfl

theorem WorkioStep.flagsKept {r : Reading} {a : WorkioAction} (step : WorkioStep cfg s a s')
    (kept : FlagsKept r s) : FlagsKept r s' := by
  intro j unit scan now clear
  rw [step.workRestart] at clear
  rw [step.setBy]
  exact kept j unit scan (step.scans now) clear

theorem LongpollStep.flagsKept {r : Reading} {a : LongpollAction} (step : LongpollStep s a s')
    (kept : FlagsKept r s) : FlagsKept r s' := by
  intro j unit scan now clear
  have before := step.scans now
  cases step with
  | set i pc =>
      by_cases same : j = i
      · subst same
        simp at clear
      · simp only [State.setRestart, State.note, State.longpollAt, Function.update_of_ne same] at clear ⊢
        exact kept j unit scan before clear
  | _ => exact kept j unit scan before clear

theorem MainStep.flagsKept {r : Reading} (step : MainStep s s') (kept : FlagsKept r s) :
    FlagsKept r s' := by
  intro j unit scan now clear
  have before := step.scans now
  cases step <;> exact kept j unit scan before clear

theorem flagsKept {r : Reading} (reached : Reachable cfg (FreshClears r) s) : FlagsKept r s := by
  refine reached.invariant ?_ ?_
  · rintro s init i unit scan ⟨reads, pc⟩
    rw [init.miner] at pc
    cases pc
  · rintro s a s' _ kept step fresh
    cases step with
    | main step => exact step.flagsKept kept
    | miner step => exact step.flagsKept fresh kept
    | workio step => exact step.flagsKept kept
    | longpoll step => exact step.flagsKept kept

/-! ### The next read of a set flag -/

/-- Every thread is inside of a scan that it may make. -/
def ScansPossible (cfg : Config n) (s : State n) : Prop :=
  ∀ i unit scan, Scans s i unit scan → ∃ work maxNonce, cfg.scans work maxNonce scan

theorem scansPossible {allowed : State n → Action n → Prop} (reached : Reachable cfg allowed s) :
    ScansPossible cfg s := by
  refine reached.invariant ?_ ?_
  · rintro s init i unit scan ⟨reads, pc⟩
    rw [init.miner] at pc
    cases pc
  · rintro s a s' _ possible step _ i unit scan now
    cases step with
    | main step => exact possible i unit scan (step.scans now)
    | workio step => exact possible i unit scan (step.scans now)
    | longpoll step => exact possible i unit scan (step.scans now)
    | miner step =>
        rcases step.scans now with ⟨before, _⟩ | ⟨_, _, _, chosen⟩
        · exact possible i unit scan before
        · exact ⟨_, _, chosen⟩

/-- When the scan of thread `i` next reads its flag, it returns without a nonce. -/
def StopsAtNextRead (s : State n) (i : Fin n) : Prop :=
  ∀ unit scan reads, s.miner i = .scanning unit scan reads → scan reads = none →
    ∃ ret, scan (reads ++ [s.workRestart i]) = some ret ∧ ret.rc = false

/-- The scans of the program stop when their flag is set. -/
theorem stopsAtNextRead {allowed : State n → Action n → Prop} (reached : Reachable cfg allowed s)
    {algo : Sha256Algo} (program : cfg.scans = programScans algo) {i : Fin n}
    (set : s.workRestart i = true) : StopsAtNextRead s i := by
  intro unit scan reads pc goesOn
  obtain ⟨work, maxNonce, chosen⟩ := scansPossible reached i unit scan ⟨reads, pc⟩
  rw [program] at chosen
  obtain ⟨outside, rfl⟩ := chosen
  rw [set]
  exact scanAfter_stops goesOn

/-- In a run in which every scan begins with a unit that is not from before a call that has already set its flag,
    whoever scans a unit from before the last completed call has its flag set, and stops when it reads it. -/
theorem restart_not_lost (r : Reading) (reached : Reachable cfg (FreshClears r) s) {i : Fin n}
    {unit : WorkUnit n} {scan : Scan} (scans : Scans s i unit scan)
    (stale : unit.stamp.count r < s.hist.restarts.done) :
    s.workRestart i = true ∧ ∀ algo, cfg.scans = programScans algo → StopsAtNextRead s i := by
  have set : s.workRestart i = true := by
    by_contra clear
    have early := flagsKept reached i unit scan scans (by simpa using clear)
    have late := (setsInOrder reached).done_le i
    omega
  exact ⟨set, fun _ program => stopsAtNextRead reached program set⟩

/-! ### The order of a restart and the beginning of a scan -/

/-- When the restart comes after the beginning of the scan, the flag stays set. -/
theorem restart_not_lost_example : ∃ s unit scan,
    Reachable exampleConfig (FreshClears .begun) s ∧ Scans s 0 unit scan ∧
      unit.stamp.count .begun < s.hist.restarts.done ∧ s.workRestart 0 = true ∧ StopsAtNextRead s 0 := by
  obtain ⟨s, reached, first⟩ :=
    @exists_firstUnit (FreshClears .begun) fun _ _ other i _ clears => absurd clears (other i)
  let scan := scanAfter .via (s.work 0) (s.maxNonce 0) exampleOutside
  have cleared := reached.next (.miner (.clear firstUnit scan first.miner ⟨exampleOutside, rfl⟩)) (by
    rintro i unit' _ _
    rw [Subsingleton.elim i 0, first.setBy]
    exact Nat.zero_le _)
  have restarted := cleared
    |>.next (.longpoll (.poll 0 first.longpoll)) nofun
    |>.next (.longpoll (.set 0 rfl)) nofun
    |>.next (.longpoll (.restarted rfl)) nofun
  refine ⟨_, firstUnit, scan, restarted, ?scans, ?stale,
    (restart_not_lost .begun restarted ?scans ?stale).imp_right fun stops => stops .via rfl⟩
  case scans => exact ⟨_, rfl⟩
  case stale => exact Nat.succ_pos _

/-- When it comes between the fetch of the unit and the beginning of its scan, it is lost. -/
theorem restart_lost : ∃ s i unit scan, Reachable exampleConfig Transition.anyStep s ∧
    Scans s i unit scan ∧ (∀ r, unit.stamp.count r < s.hist.restarts.done) ∧ s.workRestart i = false := by
  obtain ⟨s, reached, first⟩ := @exists_firstUnit Transition.anyStep fun _ _ _ => trivial
  have restarted := reached
    |>.next (.longpoll (.poll 0 first.longpoll)) trivial
    |>.next (.longpoll (.set 0 rfl)) trivial
    |>.next (.longpoll (.restarted rfl)) trivial
  have cleared := restarted.next (.miner (.clear firstUnit _ first.miner ⟨exampleOutside, rfl⟩)) trivial
  refine ⟨_, 0, firstUnit, _, cleared, ⟨_, rfl⟩, ?_, rfl⟩
  intro r
  have early : firstUnit.stamp.count r = 0 := by
    cases r <;> rfl
  rw [early]
  exact Nat.succ_pos _

end CpuMiner
