/-
Module: CpuMiner.Util.Timeval
Layer: Utilities
Purpose: `timeval_subtract` of util.c. Seconds and microseconds are numbers; `timevalSubtract_range` says how far from
  the two times the values go that it computes. For normalized times the difference is exact and normalized
  (`timevalSubtract_exact`), also when the second time is the later one.
Imports: none (Mathlib-free)
Trusted boundary: human-reviewed spec (the transcription of the C code)
Main exports: Timeval, Timeval.Normalized, Timeval.micros, Timeval.ofMicros, timevalSubtract,
  timevalSubtract_exact, timevalSubtract_range
Open obligations: none
-/
namespace CpuMiner

/-- `struct timeval` -/
structure Timeval where
  tvSec : Int
  tvUsec : Int
deriving DecidableEq

namespace Timeval

/-- The microseconds are less than a second. -/
def Normalized (t : Timeval) : Prop := 0 ≤ t.tvUsec ∧ t.tvUsec < 1000000

/-- The seconds are at most so many from zero. -/
def Within (t : Timeval) (bound : Int) : Prop := -bound ≤ t.tvSec ∧ t.tvSec ≤ bound

/-- The time in microseconds. -/
def micros (t : Timeval) : Int := t.tvSec * 1000000 + t.tvUsec

/-- The normalized time of so many microseconds. -/
def ofMicros (d : Int) : Timeval where
  tvSec := d / 1000000
  tvUsec := d % 1000000

theorem ofMicros_normalized (d : Int) : (ofMicros d).Normalized := by
  simp only [ofMicros, Normalized]
  omega

@[simp] theorem micros_ofMicros (d : Int) : (ofMicros d).micros = d := by
  simp only [ofMicros, micros]
  omega

end Timeval

/-- "Perform the carry for the later subtraction by updating Y." -/
def carryDown (x y : Timeval) : Timeval :=
  if x.tvUsec < y.tvUsec then
    let nsec := (y.tvUsec - x.tvUsec).tdiv 1000000 + 1
    { tvSec := y.tvSec + nsec, tvUsec := y.tvUsec - 1000000 * nsec }
  else y

/-- The second update of `Y`. -/
def carryUp (x y : Timeval) : Timeval :=
  if x.tvUsec - y.tvUsec > 1000000 then
    let nsec := (x.tvUsec - y.tvUsec).tdiv 1000000
    { tvSec := y.tvSec - nsec, tvUsec := y.tvUsec + 1000000 * nsec }
  else y

/-- What `timeval_subtract` stores in `result` and in `y`, and what it returns. -/
structure TimevalSubtract where
  result : Timeval
  y : Timeval
  ret : Int

/-- `timeval_subtract` -/
def timevalSubtract (x y : Timeval) : TimevalSubtract :=
  let y := carryUp x (carryDown x y)
  { result := { tvSec := x.tvSec - y.tvSec, tvUsec := x.tvUsec - y.tvUsec }
    y
    ret := if x.tvSec < y.tvSec then 1 else 0 }

/-! ### Normalized times -/

variable {x y : Timeval}

/-- Between normalized times at most one second is carried, and the second update does nothing. -/
theorem timevalSubtract_y (hx : x.Normalized) (hy : y.Normalized) :
    (timevalSubtract x y).y =
      if x.tvUsec < y.tvUsec then { tvSec := y.tvSec + 1, tvUsec := y.tvUsec - 1000000 } else y := by
  obtain ⟨xLow, xHigh⟩ := hx
  obtain ⟨yLow, yHigh⟩ := hy
  have down : carryDown x y =
      if x.tvUsec < y.tvUsec then { tvSec := y.tvSec + 1, tvUsec := y.tvUsec - 1000000 } else y := by
    rw [carryDown]
    split
    · have none : (y.tvUsec - x.tvUsec).tdiv 1000000 = 0 := Int.tdiv_eq_zero_of_lt (by omega) (by omega)
      rw [none]
      rfl
    · rfl
  simp only [timevalSubtract]
  rw [down, carryUp]
  split
  · exact if_neg (by simp only; omega)
  · exact if_neg (by omega)

/-- The result is the exact difference, normalized; 1 is returned if and only if it is negative. -/
theorem timevalSubtract_exact (hx : x.Normalized) (hy : y.Normalized) :
    (timevalSubtract x y).result = Timeval.ofMicros (x.micros - y.micros) ∧
      (timevalSubtract x y).ret = if x.micros < y.micros then 1 else 0 := by
  have carried := timevalSubtract_y hx hy
  obtain ⟨xLow, xHigh⟩ := hx
  obtain ⟨yLow, yHigh⟩ := hy
  have result : (timevalSubtract x y).result =
      { tvSec := x.tvSec - (timevalSubtract x y).y.tvSec, tvUsec := x.tvUsec - (timevalSubtract x y).y.tvUsec } := rfl
  have ret : (timevalSubtract x y).ret = if x.tvSec < (timevalSubtract x y).y.tvSec then 1 else 0 := rfl
  by_cases carry : x.tvUsec < y.tvUsec
  · rw [if_pos carry] at carried
    rw [result, ret, carried]
    simp only [Timeval.micros, Timeval.ofMicros]
    constructor
    · congr 1
      · omega
      · omega
    · exact ite_congr (propext (by omega)) (fun _ => rfl) (fun _ => rfl)
  · rw [if_neg carry] at carried
    rw [result, ret, carried]
    simp only [Timeval.micros, Timeval.ofMicros]
    constructor
    · congr 1
      · omega
      · omega
    · exact ite_congr (propext (by omega)) (fun _ => rfl) (fun _ => rfl)

/-- The seconds that are computed are at most twice as far from zero as those of the two times, and one more. -/
theorem timevalSubtract_range (hx : x.Normalized) (hy : y.Normalized) {bound : Int} (xRange : x.Within bound)
    (yRange : y.Within bound) :
    (timevalSubtract x y).y.Within (bound + 1) ∧ (timevalSubtract x y).result.Within (2 * bound + 1) := by
  have result : (timevalSubtract x y).result.tvSec = x.tvSec - (timevalSubtract x y).y.tvSec := rfl
  have carried := timevalSubtract_y hx hy
  simp only [Timeval.Within] at xRange yRange ⊢
  by_cases carry : x.tvUsec < y.tvUsec
  · rw [if_pos carry] at carried
    rw [result, carried]
    simp only
    omega
  · rw [if_neg carry] at carried
    rw [result, carried]
    omega

end CpuMiner
