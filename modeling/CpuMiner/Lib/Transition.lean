/-
Module: CpuMiner.Lib.Transition
Layer: Library
Purpose: Runs of a labelled transition system. A run takes steps that are allowed in the state they start from,
  so that a condition on the steps of a run is a parameter of the system and not of every theorem. An invariant
  is shown for the initial states and for one allowed step.
Imports: none
Trusted boundary: none
Main exports: Run, Reachable, Reachable.invariant, Run.invariant
Open obligations: none
-/

namespace Transition

variable {σ α : Type} {init : σ → Prop} {step : σ → α → σ → Prop} {allowed : σ → α → Prop}

/-- Every step is allowed. -/
def anyStep (_ : σ) (_ : α) : Prop := True

/-- The second state is reached from the first one by allowed steps. -/
inductive Run (step : σ → α → σ → Prop) (allowed : σ → α → Prop) (s₀ : σ) : σ → Prop where
  | refl : Run step allowed s₀ s₀
  | snoc {s s' : σ} {a : α} : Run step allowed s₀ s → step s a s' → allowed s a →
      Run step allowed s₀ s'

/-- The state is reached from an initial one by allowed steps. -/
def Reachable (init : σ → Prop) (step : σ → α → σ → Prop) (allowed : σ → α → Prop) (s : σ) : Prop :=
  ∃ s₀, init s₀ ∧ Run step allowed s₀ s

/-- What the steps of a run preserve holds at its end. -/
theorem Run.invariant {I : σ → Prop} {s₀ s : σ} (run : Run step allowed s₀ s) (start : I s₀)
    (next : ∀ {s a s'}, I s → step s a s' → allowed s a → I s') : I s := by
  induction run with
  | refl => exact start
  | snoc _ taken fine ih => exact next ih taken fine

namespace Reachable

theorem start {s : σ} (first : init s) : Reachable init step allowed s := ⟨s, first, .refl⟩

theorem next {s s' : σ} {a : α} (reached : Reachable init step allowed s) (taken : step s a s')
    (fine : allowed s a) : Reachable init step allowed s' := by
  obtain ⟨s₀, first, run⟩ := reached
  exact ⟨s₀, first, run.snoc taken fine⟩

/-- A property of the initial states that every allowed step between reachable states preserves. -/
theorem invariant {I : σ → Prop} {s : σ} (reached : Reachable init step allowed s)
    (first : ∀ s, init s → I s)
    (next : ∀ {s a s'}, Reachable init step allowed s → I s → step s a s' → allowed s a → I s') :
    I s := by
  obtain ⟨s₀, start, run⟩ := reached
  have both : Reachable init step allowed s ∧ I s := by
    refine run.invariant (I := fun s => Reachable init step allowed s ∧ I s)
      ⟨.start start, first s₀ start⟩ ?_
    rintro s a s' ⟨reached, holds⟩ taken fine
    exact ⟨reached.next taken fine, next reached holds taken fine⟩
  exact both.2

end Reachable

end Transition
