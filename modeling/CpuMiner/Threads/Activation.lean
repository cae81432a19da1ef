/-
Module: CpuMiner.Threads.Activation
Layer: Threads
Purpose: How long polling is activated. When the first reply names a path, `json_rpc_call` sets `have_longpoll`,
  raises `opt_scantime` and hands the path over with `tq_push`, whose return value it does not look at. If the hand-over
  never fails, long polling is activated with exactly one path or not at all (`longpoll_activation`); otherwise the
  half-done activation is there for good (`activation_permanent`).
Imports: CpuMiner.Threads.Step
Trusted boundary: none
Main exports: Activation, ActivationStep, HandOverSucceeds, AllOrNothing, longpoll_activation,
  activation_permanent, activation_half_done
Open obligations: none
-/
import CpuMiner.Threads.Step

namespace CpuMiner

variable {n : Nat} {cfg : Config n} {s s' : State n}

/-- A reply has named a path, and `json_rpc_call` has not activated long polling yet. -/
def WorkioPc.handing : WorkioPc n → Bool
  | .announcing _ _ => true
  | _ => false

@[simp] theorem WorkioPc.signal_handing (pc : WorkioPc n) : pc.signal.handing = pc.handing := by
  cases pc <;> rfl

/-- What the activation of long polling has to do with. -/
structure Activation where
  haveLongpoll : Bool
  optScantime : Int
  paths : Nat
  handing : Bool

def State.activation (s : State n) : Activation where
  haveLongpoll := s.haveLongpoll
  optScantime := s.optScantime
  paths := s.hist.paths
  handing := s.workio.handing

/-- The `tq_push` of a path finds memory for its entry, and the queue of `longpoll_thread` is not frozen. -/
def HandOverSucceeds (s : State n) (a : Action n) : Prop :=
  a ≠ .workio .pathLost ∧ (a = .workio .announces → s.longpollQ.frozen = false)

/-- What one step can do to the activation. -/
inductive ActivationStep (s : State n) (a : Action n) (s' : State n) : Prop where
  | same (unchanged : s'.activation = s.activation)
  | named (off : s.activation.haveLongpoll = false) (free : s.activation.handing = false)
      (result : s'.activation = { s.activation with handing := true })
  | accepted (handing : s.activation.handing = true)
      (result : s'.activation =
        { haveLongpoll := true, optScantime := 60, paths := s.activation.paths + 1, handing := false })
  | failed (handing : s.activation.handing = true) (fails : ¬ HandOverSucceeds s a)
      (result : s'.activation =
        { haveLongpoll := true, optScantime := 60, paths := s.activation.paths, handing := false })

theorem MinerStep.activation {i : Fin n} {a : MinerAction} (step : MinerStep cfg i s a s') :
    s'.activation = s.activation := by
  cases step <;> simp [State.activation]

theorem LongpollStep.activation {a : LongpollAction} (step : LongpollStep s a s') :
    s'.activation = s.activation := by
  cases step <;> rfl

theorem WorkioStep.activation {a : WorkioAction} (step : WorkioStep cfg s a s') :
    ActivationStep s (.workio a) s' := by
  cases step with
  | replyNamesPath fetch pc scanning =>
      exact .named scanning.2 (by simp [State.activation, pc, WorkioPc.handing]) rfl
  | announce fetch stamp q pc pushed =>
      exact .accepted (by simp [State.activation, pc, WorkioPc.handing]) rfl
  | announceRefused fetch stamp pc frozen =>
      refine .failed (by simp [State.activation, pc, WorkioPc.handing]) ?_ rfl
      rintro ⟨_, open_⟩
      rw [ThreadQ.push_eq_none, open_ rfl] at frozen
      cases frozen
  | announceNoMemory fetch stamp pc =>
      exact .failed (by simp [State.activation, pc, WorkioPc.handing]) (fun ⟨memory, _⟩ => memory rfl) rfl
  | fetchAgain _ _ pc _ | fetchEnds _ pc _ =>
      refine .same ?_
      rcases pc with pc | ⟨_, pc⟩ <;> simp [State.activation, pc, WorkioPc.handing]
  | _ =>
      refine .same ?_
      simp [State.activation, *, WorkioPc.handing, State.cmdFree]

/-- Every step leaves the activation alone, finds that a path is named, or ends the hand-over in one of two ways. -/
theorem Step.activation {a : Action n} (step : Step cfg s a s') : ActivationStep s a s' := by
  cases step with
  | main step =>
      cases step <;> exact .same rfl
  | miner step => exact .same step.activation
  | workio step => exact step.activation
  | longpoll step => exact .same step.activation

/-- Either long polling is off, with no path accepted and the scan time of the command line; or it is on, and
    exactly one path has been accepted. -/
structure AllOrNothing (cfg : Config n) (s : State n) : Prop where
  off : s.haveLongpoll = false → s.hist.paths = 0 ∧ s.optScantime = cfg.optScantime
  on : s.haveLongpoll = true → s.hist.paths = 1

/-- It is off as long as a path is to be handed over, which carries the induction. -/
structure ActivationInv (cfg : Config n) (s : State n) : Prop extends AllOrNothing cfg s where
  handing : s.workio.handing = true → s.haveLongpoll = false

theorem Init.activationInv (init : Init cfg s) : ActivationInv cfg s where
  off _ := by simp [init.hist, init.optScantime, History.empty]
  on active := by
    rw [init.haveLongpoll] at active
    cases active
  handing _ := init.haveLongpoll

/-- A step keeps this, unless it is a hand-over that fails. -/
theorem ActivationInv.step {a : Action n} (holds : ActivationInv cfg s) (step : Step cfg s a s')
    (succeeds : HandOverSucceeds s a) : ActivationInv cfg s' := by
  have known : ∀ {v : Activation}, s'.activation = v → s'.haveLongpoll = v.haveLongpoll ∧
      s'.optScantime = v.optScantime ∧ s'.hist.paths = v.paths ∧ s'.workio.handing = v.handing := by
    rintro _ rfl
    exact ⟨rfl, rfl, rfl, rfl⟩
  cases step.activation with
  | same unchanged =>
      obtain ⟨flag, time, paths, handing⟩ := known unchanged
      refine ⟨⟨?_, ?_⟩, ?_⟩
      · rw [flag, time, paths]
        exact holds.off
      · rw [flag, paths]
        exact holds.on
      · rw [flag, handing]
        exact holds.handing
  | named off _ result =>
      obtain ⟨flag, time, paths, _⟩ := known result
      refine ⟨⟨?_, ?_⟩, fun _ => flag.trans off⟩
      · rw [flag, time, paths]
        exact holds.off
      · rw [flag, paths]
        exact holds.on
  | accepted wasHanding result =>
      obtain ⟨flag, _, paths, handing⟩ := known result
      have none : s.hist.paths = 0 := (holds.off (holds.handing wasHanding)).1
      refine ⟨⟨?_, ?_⟩, ?_⟩
      · intro inactive
        exact absurd (inactive.symm.trans flag) Bool.false_ne_true
      · intro _
        exact paths.trans (congrArg (· + 1) none)
      · intro still
        exact absurd (handing.symm.trans still) Bool.false_ne_true
  | failed _ fails _ => exact absurd succeeds fails

/-- In a run in which no hand-over fails, long polling is activated with exactly one path or not at all. -/
theorem longpoll_activation (reached : Reachable cfg HandOverSucceeds s) : AllOrNothing cfg s :=
  (reached.invariant (fun _ init => init.activationInv)
    (fun _ holds step succeeds => holds.step step succeeds)).toAllOrNothing

/-- Once the flag is set, the activation stays as it is: later replies are not searched for a path. -/
theorem activation_permanent {allowed : State n → Action n → Prop}
    (run : Transition.Run (Step cfg) allowed s s') (on : s.haveLongpoll = true)
    (idle : s.workio.handing = false) : s'.activation = s.activation := by
  refine run.invariant (I := fun s' => s'.activation = s.activation) rfl ?_
  intro t a t' same step _
  have still : t.activation.haveLongpoll = true := by
    rw [same]
    exact on
  have notHanding : t.activation.handing = false := by
    rw [same]
    exact idle
  cases step.activation with
  | same unchanged => exact unchanged.trans same
  | named off _ _ =>
      rw [still] at off
      cases off
  | accepted handing _ | failed handing _ _ =>
      rw [notHanding] at handing
      cases handing

/-- The first reply names a path, and `json_rpc_call` is about to hand it over. -/
theorem exists_handing {allowed : State 1 → Action 1 → Prop}
    (fine : ∀ s a, a ≠ .workio .pathLost → a ≠ .workio .announces → allowed s a) :
    ∃ s fetch stamp, Reachable exampleConfig allowed s ∧ s.workio = .announcing fetch stamp ∧
      s.longpollQ = .new ∧ s.hist.paths = 0 := by
  have reached : Reachable exampleConfig allowed _ :=
    (Transition.Reachable.start exampleState_init)
      |>.next (.main (.create 0 rfl)) (fine _ _ (by simp) (by simp))
      |>.next (.miner (i := 0) (.ask _ rfl rfl)) (fine _ _ (by simp) (by simp))
      |>.next (.workio (.start rfl)) (fine _ _ (by simp) (by simp))
      |>.next (.workio (.takeGetWork _ _ _ rfl rfl)) (fine _ _ (by simp) (by simp))
      |>.next (.workio (.allocate _ 0 rfl rfl)) (fine _ _ (by simp) (by simp))
      |>.next (.workio (.replyNamesPath _ rfl ⟨rfl, rfl⟩)) (fine _ _ (by simp) (by simp))
  exact ⟨_, _, _, reached, rfl, rfl, rfl⟩

theorem longpoll_activation_onePath : ∃ s, Reachable exampleConfig HandOverSucceeds s ∧
    s.haveLongpoll = true ∧ s.hist.paths = 1 ∧ AllOrNothing exampleConfig s := by
  obtain ⟨s, fetch, stamp, reached, workio, queue, none⟩ :=
    @exists_handing HandOverSucceeds fun _ _ kept other => ⟨kept, fun same => absurd same other⟩
  have open_ : s.longpollQ.frozen = false := by rw [queue]; rfl
  have activated := reached.next (.workio (.announce fetch stamp _ workio (ThreadQ.push_eq_some.mpr ⟨open_, rfl⟩)))
    ⟨by simp, fun _ => open_⟩
  exact ⟨_, activated, rfl, congrArg (· + 1) none, longpoll_activation activated⟩

/-- When the `calloc` in `tq_push` fails, long polling counts as activated without a path, and no later reply changes
    that. -/
theorem activation_half_done : ∃ s, Reachable exampleConfig Transition.anyStep s ∧
    ¬ AllOrNothing exampleConfig s ∧ s.optScantime ≠ exampleConfig.optScantime ∧
      ∀ s', Transition.Run (Step exampleConfig) Transition.anyStep s s' →
        s'.haveLongpoll = true ∧ s'.hist.paths = 0 := by
  obtain ⟨s, fetch, stamp, reached, workio, _, none⟩ :=
    @exists_handing Transition.anyStep fun _ _ _ _ => trivial
  have lost := reached.next (.workio (.announceNoMemory fetch stamp workio)) trivial
  refine ⟨_, lost, ?_, ?_, ?_⟩
  · intro holds
    have one : s.hist.paths = 1 := holds.on rfl
    exact absurd (none.symm.trans one) (by decide)
  · have raised : (60 : Int) ≠ exampleConfig.optScantime := by decide
    exact raised
  · intro s' run
    have same := activation_permanent run rfl rfl
    exact ⟨congrArg Activation.haveLongpoll same, (congrArg Activation.paths same).trans none⟩

end CpuMiner
