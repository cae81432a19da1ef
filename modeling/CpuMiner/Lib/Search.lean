/-
Module: CpuMiner.Lib.Search
Layer: Library
Purpose: Endless loops that are left by a return, and the search they implement. A loop body takes the loop
  state to the next one or returns; `run` gives it a number of passes, so a loop that never returns is one
  for which every number of passes gives `none`. A search goes through the passes 0, 1, 2, ... and ends in
  the first pass that picks something or that says stop; a pass that picks does not look at the stop test.
  `Simulates` connects the two, and its lemmas are the induction over the passes that every scan loop needs.
  A test that carries a state from one pass to the next is a Mealy machine.
Imports: Mathlib.Logic.Function.Basic
Trusted boundary: none
Main exports: Loop.run, Loop.Returns, Loop.Visits, Outcome, Open, Ends, Simulates, Simulates.ends_of_returns,
  Simulates.run_of_ends, Simulates.returns_of_ends, Simulates.stops_next, Simulates.forall_run_iff,
  Mealy.stateAt, Mealy.outputAt, Mealy.stateAt_inv
Open obligations: none
-/
import Mathlib.Logic.Function.Basic

/-! ### Loops -/

namespace Loop

variable {σ ρ : Type}

/-- Run a loop body for at most the given number of passes. -/
def run (body : σ → σ ⊕ ρ) : Nat → σ → Option ρ
  | 0, _ => none
  | n + 1, s =>
      match body s with
      | .inl s' => run body n s'
      | .inr r => some r

/-- The loop that starts in `s` returns `r`. -/
def Returns (body : σ → σ ⊕ ρ) (s : σ) (r : ρ) : Prop := ∃ n, run body n s = some r

/-- The loop that starts in `s₀` comes to the start of a pass in the second state. -/
inductive Visits (body : σ → σ ⊕ ρ) (s₀ : σ) : σ → Prop where
  | start : Visits body s₀ s₀
  | next {s s' : σ} : Visits body s₀ s → body s = .inl s' → Visits body s₀ s'

theorem run_inl {body : σ → σ ⊕ ρ} {s s' : σ} (n : Nat) (h : body s = .inl s') :
    run body (n + 1) s = run body n s' := by
  simp only [run, h]

theorem run_inr {body : σ → σ ⊕ ρ} {s : σ} {r : ρ} (n : Nat) (h : body s = .inr r) :
    run body (n + 1) s = some r := by
  simp only [run, h]

/-- A loop that has returned returns the same with more passes. -/
theorem run_mono {body : σ → σ ⊕ ρ} {r : ρ} :
    ∀ {n m : Nat} {s : σ}, n ≤ m → run body n s = some r → run body m s = some r := by
  intro n
  induction n with
  | zero =>
      intro m s _ h
      cases h
  | succ n ih =>
      intro m s le h
      obtain ⟨m, rfl⟩ : ∃ k, m = k + 1 := ⟨m - 1, by omega⟩
      cases step : body s with
      | inl s' =>
          rw [run_inl _ step] at h ⊢
          exact ih (by omega) h
      | inr r' =>
          rw [run_inr _ step] at h ⊢
          exact h

theorem Returns.of_inr {body : σ → σ ⊕ ρ} {s : σ} {r : ρ} (h : body s = .inr r) :
    Returns body s r := ⟨1, run_inr 0 h⟩

theorem returns_of_inl {body : σ → σ ⊕ ρ} {s s' : σ} {r : ρ} (h : body s = .inl s') :
    Returns body s r ↔ Returns body s' r := by
  constructor
  · rintro ⟨n, hn⟩
    cases n with
    | zero => cases hn
    | succ n => exact ⟨n, by rwa [run_inl _ h] at hn⟩
  · rintro ⟨n, hn⟩
    exact ⟨n + 1, by rwa [run_inl _ h]⟩

/-- From every state that it comes to, the loop returns the same. -/
theorem Visits.returns_iff {body : σ → σ ⊕ ρ} {s₀ s : σ} {r : ρ} (visited : Visits body s₀ s) :
    Returns body s₀ r ↔ Returns body s r := by
  induction visited with
  | start => exact Iff.rfl
  | next _ step ih => exact ih.trans (returns_of_inl step)

/-- A loop that returns something from a state, and whose body returns something there. -/
theorem Returns.eq_of_inr {body : σ → σ ⊕ ρ} {s : σ} {r r' : ρ} (returns : Returns body s r) (h : body s = .inr r') :
    r = r' := by
  obtain ⟨n, hn⟩ := returns
  cases n with
  | zero => cases hn
  | succ n =>
      rw [run_inr n h] at hn
      exact (Option.some.inj hn).symm

end Loop

/-! ### Searches -/

namespace Search

variable {β : Type}

/-- How a search ends: in pass `k` with something picked, or in pass `k` with nothing. -/
inductive Outcome (β : Type) where
  | found (k : Nat) (b : β)
  | exhausted (k : Nat)

/-- The passes before `k` pick nothing and do not stop, so the search comes to pass `k`. -/
def Open (pick : Nat → Option β) (stop : Nat → Bool) (k : Nat) : Prop :=
  ∀ i, i < k → pick i = none ∧ stop i = false

/-- The search with these picks and stop tests ends in this way. -/
inductive Ends (pick : Nat → Option β) (stop : Nat → Bool) : Outcome β → Prop where
  | found {k : Nat} {b : β} : Open pick stop k → pick k = some b → Ends pick stop (.found k b)
  | exhausted {k : Nat} : Open pick stop k → pick k = none → stop k = true →
      Ends pick stop (.exhausted k)

variable {pick : Nat → Option β} {stop : Nat → Bool}

theorem open_zero : Open pick stop 0 := by
  intro i hi
  omega

theorem Open.succ {k : Nat} (isOpen : Open pick stop k) (nothing : pick k = none)
    (goOn : stop k = false) : Open pick stop (k + 1) := by
  intro i hi
  by_cases last : i = k
  · rw [last]
    exact ⟨nothing, goOn⟩
  · exact isOpen i (by omega)

/-- A search does not come past a pass that picks or stops. -/
theorem Open.le {k last : Nat} (isOpen : Open pick stop k)
    (closed : (∃ b, pick last = some b) ∨ stop last = true) : k ≤ last := by
  by_contra later
  obtain ⟨nothing, goOn⟩ := isOpen last (by omega)
  rcases closed with ⟨b, picked⟩ | stopped
  · rw [picked] at nothing
    cases nothing
  · rw [stopped] at goOn
    cases goOn

/-- The pass in which a search ends. -/
def Outcome.pass : Outcome β → Nat
  | .found k _ | .exhausted k => k

theorem Ends.open_pass {o : Outcome β} (ends : Ends pick stop o) : Open pick stop o.pass := by
  cases ends with
  | found isOpen _ => exact isOpen
  | exhausted isOpen _ _ => exact isOpen

theorem Ends.closed {o : Outcome β} (ends : Ends pick stop o) :
    (∃ b, pick o.pass = some b) ∨ stop o.pass = true := by
  cases ends with
  | found _ picked => exact .inl ⟨_, picked⟩
  | exhausted _ _ stopped => exact .inr stopped

/-- A search ends if and only if some pass picks or stops. -/
theorem exists_ends_iff :
    (∃ o, Ends pick stop o) ↔ ∃ k, (∃ b, pick k = some b) ∨ stop k = true := by
  constructor
  · rintro ⟨o, ends⟩
    cases ends with
    | @found k b _ picked => exact ⟨k, .inl ⟨b, picked⟩⟩
    | @exhausted k _ _ stopped => exact ⟨k, .inr stopped⟩
  · rintro ⟨k, last⟩
    induction k using Nat.strongRecOn with
    | ind k ih =>
        by_cases earlier : Open pick stop k
        · cases picked : pick k with
          | some b => exact ⟨_, .found earlier picked⟩
          | none =>
              rcases last with ⟨b, hb⟩ | stopped
              · rw [picked] at hb
                cases hb
              · exact ⟨_, .exhausted earlier picked stopped⟩
        · simp only [Open, not_forall] at earlier
          obtain ⟨i, hi, closed⟩ := earlier
          refine ih i hi ?_
          cases picked : pick i with
          | some b => exact .inl ⟨b, rfl⟩
          | none =>
              refine .inr ?_
              simpa [picked] using closed

/-! ### Loops that search -/

variable {σ ρ : Type}

/-- A loop body implements a search. `At k s` says that `s` is a loop state at the start of pass `k`, and
    `result o r` that `r` is the right value to return when the search ends in the way `o`. -/
structure Simulates (body : σ → σ ⊕ ρ) (pick : Nat → Option β) (stop : Nat → Bool)
    (At : Nat → σ → Prop) (result : Outcome β → ρ → Prop) : Prop where
  picks : ∀ k s b, At k s → pick k = some b → ∃ r, body s = .inr r ∧ result (.found k b) r
  stops : ∀ k s, At k s → pick k = none → stop k = true →
    ∃ r, body s = .inr r ∧ result (.exhausted k) r
  goesOn : ∀ k s, At k s → pick k = none → stop k = false →
    ∃ s', body s = .inl s' ∧ At (k + 1) s'

namespace Simulates

variable {body : σ → σ ⊕ ρ} {At : Nat → σ → Prop} {result : Outcome β → ρ → Prop}

/-- Every state the loop visits is a state at the start of an open pass. -/
theorem visits (sim : Simulates body pick stop At result) {s₀ s : σ} (start : At 0 s₀)
    (visited : Loop.Visits body s₀ s) : ∃ k, Open pick stop k ∧ At k s := by
  induction visited with
  | start => exact ⟨0, open_zero, start⟩
  | @next s s' _ step ih =>
      obtain ⟨k, isOpen, here⟩ := ih
      cases picked : pick k with
      | some b =>
          obtain ⟨r, returned, _⟩ := sim.picks k s b here picked
          rw [returned] at step
          cases step
      | none =>
          cases stopped : stop k with
          | true =>
              obtain ⟨r, returned, _⟩ := sim.stops k s here picked stopped
              rw [returned] at step
              cases step
          | false =>
              obtain ⟨s'', next, there⟩ := sim.goesOn k s here picked stopped
              rw [next] at step
              cases step
              exact ⟨k + 1, isOpen.succ picked stopped, there⟩

/-- Every open pass is visited. -/
theorem visits_of_open (sim : Simulates body pick stop At result) {s₀ : σ} (start : At 0 s₀) :
    ∀ k, Open pick stop k → ∃ s, Loop.Visits body s₀ s ∧ At k s := by
  intro k
  induction k with
  | zero => exact fun _ => ⟨s₀, .start, start⟩
  | succ k ih =>
      intro isOpen
      obtain ⟨s, visited, here⟩ := ih (fun i hi => isOpen i (by omega))
      obtain ⟨nothing, goOn⟩ := isOpen k (by omega)
      obtain ⟨s', next, there⟩ := sim.goesOn k s here nothing goOn
      exact ⟨s', .next visited next, there⟩

/-- An open pass is reached after as many passes. -/
theorem run_of_open (sim : Simulates body pick stop At result) {s₀ : σ} (start : At 0 s₀) :
    ∀ k, Open pick stop k → ∃ s, At k s ∧ ∀ n, Loop.run body (n + k) s₀ = Loop.run body n s := by
  intro k
  induction k with
  | zero => exact fun _ => ⟨s₀, start, fun _ => rfl⟩
  | succ k ih =>
      intro isOpen
      obtain ⟨s, here, same⟩ := ih (fun i hi => isOpen i (by omega))
      obtain ⟨nothing, goOn⟩ := isOpen k (by omega)
      obtain ⟨s', next, there⟩ := sim.goesOn k s here nothing goOn
      refine ⟨s', there, fun n => ?_⟩
      rw [← Loop.run_inl n next, ← same (n + 1)]
      congr 1
      omega

/-- The passes that a loop has made without returning are open. -/
theorem open_of_run (sim : Simulates body pick stop At result) {s₀ : σ} (start : At 0 s₀) :
    ∀ k, Loop.run body k s₀ = none → Open pick stop k := by
  intro k
  induction k with
  | zero => exact fun _ => open_zero
  | succ k ih =>
      intro pending
      have earlier : Loop.run body k s₀ = none := by
        cases returned : Loop.run body k s₀ with
        | none => rfl
        | some r =>
            rw [Loop.run_mono (Nat.le_succ k) returned] at pending
            cases pending
      obtain ⟨s, here, same⟩ := sim.run_of_open start k (ih earlier)
      have last : Loop.run body 1 s = none := by rw [← same 1, Nat.add_comm, pending]
      cases picked : pick k with
      | some b =>
          obtain ⟨r, returned, _⟩ := sim.picks k s b here picked
          rw [Loop.run_inr 0 returned] at last
          cases last
      | none =>
          cases stopped : stop k with
          | true =>
              obtain ⟨r, returned, _⟩ := sim.stops k s here picked stopped
              rw [Loop.run_inr 0 returned] at last
              cases last
          | false => exact (ih earlier).succ picked stopped

/-- Two loops that search with the same picks. When the first one has not returned after pass `k`, and the second
    one has the same stops before pass `k` and stops in it, then the second one returns there with nothing. -/
theorem stops_next {body' : σ → σ ⊕ ρ} {stop' : Nat → Bool} {At' : Nat → σ → Prop}
    {result' : Outcome β → ρ → Prop} (sim : Simulates body pick stop At result)
    (sim' : Simulates body' pick stop' At' result') {s₀ s₀' : σ} (start : At 0 s₀)
    (start' : At' 0 s₀') {k : Nat} (pending : Loop.run body (k + 1) s₀ = none)
    (before : ∀ i, i < k → stop i = false → stop' i = false) (set : stop' k = true) :
    ∃ r, (∀ n, k < n → Loop.run body' n s₀' = some r) ∧ result' (.exhausted k) r := by
  have isOpen := sim.open_of_run start (k + 1) pending
  have isOpen' : Open pick stop' k := fun i hi =>
    ⟨(isOpen i (by omega)).1, before i hi (isOpen i (by omega)).2⟩
  obtain ⟨s, here, same⟩ := sim'.run_of_open start' k isOpen'
  obtain ⟨r, returned, right⟩ := sim'.stops k s here (isOpen k (by omega)).1 set
  refine ⟨r, fun n later => ?_, right⟩
  obtain ⟨m, rfl⟩ : ∃ m, n = m + 1 + k := ⟨n - 1 - k, by omega⟩
  rw [same, Loop.run_inr m returned]

/-- If the search ends in some pass, the loop returns in this pass, and returns the right value. -/
theorem run_of_ends (sim : Simulates body pick stop At result) {s₀ : σ} (start : At 0 s₀)
    {o : Outcome β} (ends : Ends pick stop o) :
    ∃ r, result o r ∧ ∀ n, o.pass < n → Loop.run body n s₀ = some r := by
  obtain ⟨s, here, same⟩ := sim.run_of_open start o.pass ends.open_pass
  suffices last : ∃ r, body s = .inr r ∧ result o r by
    obtain ⟨r, returned, right⟩ := last
    refine ⟨r, right, fun n later => ?_⟩
    obtain ⟨m, rfl⟩ : ∃ m, n = m + 1 + o.pass := ⟨n - 1 - o.pass, by omega⟩
    rw [same, Loop.run_inr m returned]
  cases ends with
  | @found k b _ picked => exact sim.picks k s b here picked
  | @exhausted k _ nothing stopped => exact sim.stops k s here nothing stopped

theorem returns_of_ends (sim : Simulates body pick stop At result) {s₀ : σ} (start : At 0 s₀)
    {o : Outcome β} (ends : Ends pick stop o) : ∃ r, Loop.Returns body s₀ r ∧ result o r := by
  obtain ⟨r, right, ran⟩ := sim.run_of_ends start ends
  exact ⟨r, ⟨o.pass + 1, ran _ (Nat.lt_succ_self _)⟩, right⟩

/-- If the loop returns, the search ends, and the value is the right one. -/
theorem ends_of_returns (sim : Simulates body pick stop At result) {s₀ : σ} (start : At 0 s₀)
    {r : ρ} (returns : Loop.Returns body s₀ r) : ∃ o, Ends pick stop o ∧ result o r := by
  obtain ⟨n, hn⟩ := returns
  suffices general : ∀ n k s, At k s → Open pick stop k → Loop.run body n s = some r →
      ∃ o, Ends pick stop o ∧ result o r from general n 0 s₀ start open_zero hn
  clear hn n
  intro n
  induction n with
  | zero =>
      intro k s _ _ h
      cases h
  | succ n ih =>
      intro k s here isOpen h
      cases picked : pick k with
      | some b =>
          obtain ⟨r', returned, right⟩ := sim.picks k s b here picked
          rw [Loop.run_inr _ returned] at h
          cases h
          exact ⟨_, .found isOpen picked, right⟩
      | none =>
          cases stopped : stop k with
          | true =>
              obtain ⟨r', returned, right⟩ := sim.stops k s here picked stopped
              rw [Loop.run_inr _ returned] at h
              cases h
              exact ⟨_, .exhausted isOpen picked stopped, right⟩
          | false =>
              obtain ⟨s', next, there⟩ := sim.goesOn k s here picked stopped
              rw [Loop.run_inl _ next] at h
              exact ih (k + 1) s' there (isOpen.succ picked stopped) h

/-- The loop returns if and only if the search ends. -/
theorem exists_returns_iff (sim : Simulates body pick stop At result) {s₀ : σ} (start : At 0 s₀) :
    (∃ r, Loop.Returns body s₀ r) ↔ ∃ o, Ends pick stop o := by
  constructor
  · rintro ⟨r, returns⟩
    obtain ⟨o, ends, _⟩ := sim.ends_of_returns start returns
    exact ⟨o, ends⟩
  · rintro ⟨o, ends⟩
    obtain ⟨r, returns, _⟩ := sim.returns_of_ends start ends
    exact ⟨r, returns⟩

/-- Partial correctness of a loop that searches: a postcondition that holds of what an exhausted search returns holds of
    everything the loop returns if and only if it holds where the search ends with something found. -/
theorem forall_run_iff (sim : Simulates body pick stop At result) {s₀ : σ} (start : At 0 s₀)
    {post : ρ → Prop} {right : Nat → β → Prop}
    (found : ∀ k b r, result (.found k b) r → (post r ↔ right k b))
    (exhausted : ∀ k r, result (.exhausted k) r → post r) :
    (∀ n r, Loop.run body n s₀ = some r → post r) ↔
      ∀ k b, Ends pick stop (.found k b) → right k b := by
  constructor
  · intro all k b ends
    obtain ⟨r, ⟨n, returned⟩, result⟩ := sim.returns_of_ends start ends
    exact (found k b r result).mp (all n r returned)
  · intro all n r returned
    obtain ⟨o, ends, result⟩ := sim.ends_of_returns start ⟨n, returned⟩
    cases o with
    | found k b => exact (found k b r result).mpr (all k b ends)
    | exhausted k => exact exhausted k r result

end Simulates

end Search

/-! ### Tests with a state -/

namespace Mealy

variable {κ ι ω : Type}

/-- The state of the machine before pass `k`, when pass `i` gives it `input i`. -/
def stateAt (step : κ → ι → κ × ω) (input : Nat → ι) (s₀ : κ) : Nat → κ
  | 0 => s₀
  | k + 1 => (step (stateAt step input s₀ k) (input k)).1

/-- What the machine puts out in pass `k`. -/
def outputAt (step : κ → ι → κ × ω) (input : Nat → ι) (s₀ : κ) (k : Nat) : ω :=
  (step (stateAt step input s₀ k) (input k)).2

/-- An invariant of the step holds before every pass. -/
theorem stateAt_inv {step : κ → ι → κ × ω} {input : Nat → ι} {s₀ : κ} {Inv : κ → Prop} (start : Inv s₀)
    (next : ∀ s i, Inv s → Inv (step s i).1) (k : Nat) : Inv (stateAt step input s₀ k) := by
  induction k with
  | zero => exact start
  | succ k ih => exact next _ _ ih

/-- A machine whose output in all states of an invariant depends on the input only. -/
theorem outputAt_eq {step : κ → ι → κ × ω} {input : Nat → ι} {s₀ : κ} {f : ι → ω} {Inv : κ → Prop}
    (start : Inv s₀) (next : ∀ s i, Inv s → Inv (step s i).1 ∧ (step s i).2 = f i) (k : Nat) :
    outputAt step input s₀ k = f (input k) := by
  have inv : Inv (stateAt step input s₀ k) := stateAt_inv start (fun s i held => (next s i held).1) k
  exact (next _ _ inv).2

end Mealy
