/-
Module: CpuMiner.Lib.Offers
Layer: Library
Purpose: Loops that offer candidates to a test until one is accepted. In each pass there are some candidates, of which
  the body offers some; it returns when one is accepted, and otherwise goes on or fails. `HidesNothing` says that no
  candidate is left out when the loop goes on or fails, and `Offers.hidesNothing_iff` what that means for the single
  pass.
Imports: CpuMiner.Lib.Search
Trusted boundary: none
Main exports: Loop.Offers, Loop.HidesNothing, Loop.Offers.hidesNothing_iff, Loop.offersFirst_iff,
  Loop.upTo
Open obligations: none
-/
import CpuMiner.Lib.Search

namespace Loop

variable {σ ρ γ : Type}

/-- The passes of a loop that offers candidates: `fails` says which results are a failure, and `lost` which accepted
    candidates have such a result. -/
structure Offers (body : σ → σ ⊕ ρ) (fails : ρ → Prop) (accepts : γ → Bool) (lost : γ → Prop)
    (candidates offers : σ → List γ) : Prop where
  accepted : ∀ s c, (offers s).find? accepts = some c → ∃ r, body s = .inr r ∧ (fails r ↔ lost c)
  rejected : ∀ s, (offers s).find? accepts = none → ∀ r, body s = .inr r → fails r
  inside : ∀ s c, c ∈ offers s → c ∈ candidates s

/-- Before the loop leaves a pass without a result, or with a failure, it has offered every candidate of the pass; and
    if it fails, the test has rejected every candidate that there was. -/
structure HidesNothing (body : σ → σ ⊕ ρ) (s₀ : σ) (fails : ρ → Prop) (accepts : γ → Bool)
    (candidates offers : σ → List γ) : Prop where
  offersAll : ∀ s, Visits body s₀ s → (∀ r, body s = .inr r → fails r) → ∀ c, c ∈ candidates s → c ∈ offers s
  rejectsAll : ∀ r, Returns body s₀ r → fails r → ∀ s, Visits body s₀ s → ∀ c, c ∈ candidates s → accepts c = false

variable {body : σ → σ ⊕ ρ} {s₀ : σ} {fails : ρ → Prop} {accepts : γ → Bool} {lost : γ → Prop}
  {candidates offers : σ → List γ}

/-- Nothing is hidden if and only if, in every pass the loop comes to, all candidates are offered when those that are
    offered are rejected, and no accepted candidate is lost. -/
theorem Offers.hidesNothing_iff (loop : Offers body fails accepts lost candidates offers) :
    HidesNothing body s₀ fails accepts candidates offers ↔ ∀ s, Visits body s₀ s →
      ((offers s).find? accepts = none → ∀ c, c ∈ candidates s → c ∈ offers s) ∧
      ∀ c, (offers s).find? accepts = some c → ¬ lost c := by
  constructor
  · intro hides s visited
    constructor
    · intro none
      exact hides.offersAll s visited (loop.rejected s none)
    · intro c first isLost
      obtain ⟨r, returned, failed⟩ := loop.accepted s c first
      have rejected := hides.rejectsAll r (visited.returns_iff.mpr (.of_inr returned)) (failed.mpr isLost) s visited c
        (loop.inside s c (List.mem_of_find?_eq_some first))
      rw [List.find?_some first] at rejected
      cases rejected
  · intro passes
    constructor
    · intro s visited goesOn
      obtain ⟨all, honest⟩ := passes s visited
      cases first : (offers s).find? accepts with
      | none => exact all first
      | some c =>
          obtain ⟨r, returned, failed⟩ := loop.accepted s c first
          exact absurd (failed.mp (goesOn r returned)) (honest c first)
    · intro r returns failing s visited c candidate
      obtain ⟨all, honest⟩ := passes s visited
      cases first : (offers s).find? accepts with
      | none =>
          have rejected := List.find?_eq_none.mp first c (all first c candidate)
          exact Bool.eq_false_iff.mpr rejected
      | some c' =>
          obtain ⟨r', returned, failed⟩ := loop.accepted s c' first
          have same : r = r' := (visited.returns_iff.mp returns).eq_of_inr returned
          exact absurd (failed.mp (same ▸ failing)) (honest c' first)

/-! ### Offering the first candidate only -/

/-- When only the first candidate is offered, none is hidden if and only if it is accepted and not lost, or it is the
    only one. -/
theorem offersFirst_iff {c : γ} {rest : List γ} (nodup : (c :: rest).Nodup) :
    (([c].find? accepts = none → ∀ c', c' ∈ c :: rest → c' ∈ [c]) ∧ ∀ c', [c].find? accepts = some c' → ¬ lost c') ↔
      if accepts c = true then ¬ lost c else rest = [] := by
  by_cases accepted : accepts c = true
  · rw [List.find?_cons_of_pos accepted, if_pos accepted]
    constructor
    · rintro ⟨_, honest⟩
      exact honest c rfl
    · intro notLost
      refine ⟨fun none => absurd none (Option.some_ne_none c), fun c' same => ?_⟩
      rwa [← Option.some.inj same]
  · rw [List.find?_cons_of_neg accepted, if_neg accepted, List.find?_nil]
    constructor
    · rintro ⟨all, _⟩
      rw [List.eq_nil_iff_forall_not_mem]
      intro c' other
      obtain rfl := List.mem_singleton.mp (all rfl c' (List.mem_cons_of_mem c other))
      exact (List.nodup_cons.mp nodup).1 other
    · rintro rfl
      exact ⟨fun _ c' only => only, fun c' none => absurd none.symm (Option.some_ne_none c')⟩

/-! ### Offering one candidate after the other -/

/-- The candidates up to the first one that is accepted. -/
def upTo (accepts : γ → Bool) : List γ → List γ
  | [] => []
  | c :: cs => if accepts c = true then [c] else c :: upTo accepts cs

theorem find?_upTo (accepts : γ → Bool) (cs : List γ) : (upTo accepts cs).find? accepts = cs.find? accepts := by
  induction cs with
  | nil => rfl
  | cons c cs ih =>
      by_cases accepted : accepts c = true
      · rw [upTo, if_pos accepted, List.find?_cons_of_pos accepted, List.find?_cons_of_pos accepted]
      · rw [upTo, if_neg accepted, List.find?_cons_of_neg accepted, List.find?_cons_of_neg accepted, ih]

theorem upTo_of_find?_eq_none {cs : List γ} (none : cs.find? accepts = none) : upTo accepts cs = cs := by
  induction cs with
  | nil => rfl
  | cons c cs ih =>
      have rejected : ¬ accepts c = true := List.find?_eq_none.mp none c List.mem_cons_self
      rw [List.find?_cons_of_neg rejected] at none
      rw [upTo, if_neg rejected, ih none]

theorem mem_of_mem_upTo {c : γ} {cs : List γ} (offered : c ∈ upTo accepts cs) : c ∈ cs := by
  induction cs with
  | nil => exact offered
  | cons c' cs ih =>
      rw [upTo] at offered
      split at offered
      · exact List.mem_cons.mpr (.inl (List.mem_singleton.mp offered))
      · exact List.mem_cons.mpr ((List.mem_cons.mp offered).imp_right ih)

end Loop
