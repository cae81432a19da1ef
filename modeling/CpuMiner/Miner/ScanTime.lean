/-
Module: CpuMiner.Miner.ScanTime
Layer: Miner
Purpose: Which values of `max_nonce` the adjustment of `miner_thread` leaves as they are. It is left out when a scan
  took no second, rounded, so a bound that gives such a scan stays for ever, and `max_nonce` gets there when the
  machine sleeps through a scan. `NoTrap` says that every bound that stays gives about the target scan time, and
  `noTrap_iff_rate` for which hash rates this is so: only for those of up to two hashes per second.
Imports: CpuMiner.Miner.Workload, CpuMiner.Scan.Exact, Mathlib.Algebra.Order.Archimedean.Real.Basic
Trusted boundary: human-reviewed spec (the scans and the readings of the clock)
Main exports: scanHashes, scanAdjust, ReachesBound, scanTime, ScanTakes, NoTrap, seconds_of_stays, noTrap_iff_rate
Open obligations: none
-/
import CpuMiner.Miner.Workload
import CpuMiner.Scan.Exact
import Mathlib.Algebra.Order.Archimedean.Real.Basic

namespace CpuMiner

open Words

/-! ### Bounds that stay -/

/-- The hashes of a scan without a hit that runs to its bound. -/
def scanHashes (m : Word) : Nat := max 1 m.toNat

/-- The scalar scans report that many hashes. -/
theorem scanHashes_of_noHit {k : Nat} {hit : Nat → Prop} {maxNonce : Word} {restart : Nat → Bool}
    {after : Bool → Word → Fin k → Word} {scan : Nat → Option (Scanned Bool k)}
    (exact : Scan.ScansExactly hit maxNonce restart after scan) (misses : ∀ n, ¬ hit n)
    (quiet : ∀ k, restart k = false) :
    ∃ out, (∀ passes, scanHashes maxNonce ≤ passes → scan passes = some out) ∧ out.ret = false ∧
      out.hashesDone = scanHashes maxNonce := by
  obtain ⟨last, out, ⟨⟨pos, closed⟩, least⟩, _, post, ran⟩ := exact
  have reached : maxNonce.toNat ≤ last := by
    rcases closed with hit | reached | restarted
    · exact absurd hit (misses last)
    · exact reached
    · rw [quiet] at restarted
      cases restarted
  have notLater : last ≤ scanHashes maxNonce :=
    least ⟨Nat.le_max_left 1 _, .inr (.inl (Nat.le_max_right 1 _))⟩
  obtain rfl : last = scanHashes maxNonce := Nat.le_antisymm notLater (Nat.max_le.mpr ⟨pos, reached⟩)
  exact ⟨out, ran, Bool.eq_false_iff.mpr fun found => misses _ (post.ret.mp found), post.hashesDone⟩

/-- `max_nonce` after a scan of so many hashes between two readings of the clock. -/
def scanAdjust (optScantime : Int) (m : Word) (hashesDone : Nat) (tvStart tvEnd : Timeval) : Word :=
  adjustMaxNonce m (timevalSubtract tvEnd tvStart).result hashesDone optScantime

/-- What `max_nonce` can be. A scan may also end early, and it may take any time. -/
inductive ReachesBound (optScantime : Int) : Word → Prop where
  | initial : ReachesBound optScantime 0xffffff
  | scanned {m : Word} (earlier : ReachesBound optScantime m) {hashesDone : Nat} (most : hashesDone ≤ scanHashes m)
      {tvStart tvEnd : Timeval} (hStart : tvStart.Normalized) (hEnd : tvEnd.Normalized) :
      ReachesBound optScantime (scanAdjust optScantime m hashesDone tvStart tvEnd)

/-- The seconds of a scan with bound `m` at `rate` hashes per second. -/
noncomputable def scanTime (rate : ℝ) (m : Word) : ℝ := scanHashes m / rate

/-- The clock is read before and after such a scan. A reading is at most the time, and less than a microsecond
    behind it. -/
structure ScanTakes (rate : ℝ) (m : Word) (tvStart tvEnd : Timeval) : Prop where
  hStart : tvStart.Normalized
  hEnd : tvEnd.Normalized
  elapsed : |((tvEnd.micros - tvStart.micros : Int) : ℝ) - 1000000 * scanTime rate m| < 1

/-- A bound that stays gives a scan of about the target time. -/
def NoTrap (rate : ℝ) (optScantime : Int) : Prop :=
  ∀ m, ReachesBound optScantime m → ∀ tvStart tvEnd, ScanTakes rate m tvStart tvEnd →
    scanAdjust optScantime m (scanHashes m) tvStart tvEnd = m →
      (optScantime : ℝ) / 2 ≤ scanTime rate m ∧ scanTime rate m ≤ 2 * optScantime

section

variable {m : Word} {diff : Timeval} {optScantime : Int}

theorem scanHashes_lt (m : Word) : scanHashes m < 0x100000000 := by
  have bound := m.isLt
  rw [scanHashes]
  omega

/-- A bound that stays although it was computed anew: the seconds are close to the target. -/
theorem seconds_of_stays (low : 1 ≤ optScantime) (high : optScantime ≤ 9999) (long : 0 < roundSeconds diff)
    (stays : adjustMaxNonce m diff (scanHashes m) optScantime = m) :
    (m.toNat = 0 ∧ optScantime < roundSeconds diff) ∨
      (roundSeconds diff ≤ optScantime ∧ (m.toNat = 0xfffffffa ∨ optScantime < 2 * roundSeconds diff)) := by
  have bound : ((adjustMaxNonce m diff (scanHashes m) optScantime).toNat : Int) = _ :=
    adjustMaxNonce_toNat (scanHashes_lt m) low high long
  rw [stays] at bound
  generalize roundSeconds diff = s at long bound ⊢
  by_cases zero : m.toNat = 0
  · left
    rw [scanHashes, zero, show (((max 1 0 : Nat) : Int)) = 1 from rfl, Int.one_mul] at bound
    have quotient : ¬ 1 ≤ optScantime / s := by omega
    rw [Int.le_ediv_iff_mul_le long] at quotient
    exact ⟨zero, by omega⟩
  · right
    have positive : 0 < (m.toNat : Int) := by omega
    rw [scanHashes, show max 1 m.toNat = m.toNat by omega] at bound
    have least : (m.toNat : Int) ≤ m.toNat * optScantime / s := by omega
    rw [Int.le_ediv_iff_mul_le long] at least
    refine ⟨Int.le_of_mul_le_mul_left least positive, ?_⟩
    by_cases cap : m.toNat = 0xfffffffa
    · exact .inl cap
    · right
      have most : (m.toNat : Int) * optScantime / s < m.toNat + 1 := by omega
      rw [Int.ediv_lt_iff_lt_mul long] at most
      by_contra far
      have apart : (m.toNat : Int) * (2 * s) ≤ m.toNat * optScantime :=
        Int.mul_le_mul_of_nonneg_left (by omega) (by omega)
      have once : 1 * s ≤ (m.toNat : Int) * s := Int.mul_le_mul_of_nonneg_right (by omega) (by omega)
      linarith

end

section

variable {rate : ℝ} {m : Word} {tvStart tvEnd : Timeval} {optScantime : Int}

/-- The rounded seconds of a scan are close to its time. -/
theorem ScanTakes.seconds (takes : ScanTakes rate m tvStart tvEnd) :
    let s := roundSeconds (timevalSubtract tvEnd tvStart).result
    1000000 * (s : ℝ) - 500000 < 1000000 * scanTime rate m ∧
      1000000 * scanTime rate m < 1000000 * s + 500001 := by
  intro s
  obtain ⟨result, _⟩ := timevalSubtract_exact takes.hEnd takes.hStart
  have nearest := roundSeconds_spec (Timeval.ofMicros_normalized (tvEnd.micros - tvStart.micros))
  rw [Timeval.micros_ofMicros, ← result] at nearest
  have elapsed := takes.elapsed
  generalize tvEnd.micros - tvStart.micros = d at nearest elapsed
  obtain ⟨behind, ahead⟩ := abs_lt.mp elapsed
  have least : ((1000000 * s - 499999 : Int) : ℝ) ≤ d := by
    exact_mod_cast show 1000000 * s - 499999 ≤ d by omega
  have most : (d : ℝ) ≤ ((1000000 * s + 500000 : Int) : ℝ) := by
    exact_mod_cast show d ≤ 1000000 * s + 500000 by omega
  push_cast at least most
  constructor
  · linarith
  · linarith

/-- The readings of a scan that starts at a microsecond of the clock. -/
theorem exists_scanTakes (rate : ℝ) (m : Word) :
    ∃ tvStart tvEnd, ScanTakes rate m tvStart tvEnd ∧
      roundSeconds (timevalSubtract tvEnd tvStart).result =
        roundSeconds (Timeval.ofMicros ⌊1000000 * scanTime rate m⌋) := by
  refine ⟨Timeval.ofMicros 0, Timeval.ofMicros ⌊1000000 * scanTime rate m⌋,
    ⟨Timeval.ofMicros_normalized _, Timeval.ofMicros_normalized _, ?_⟩, ?_⟩
  · rw [Timeval.micros_ofMicros, Timeval.micros_ofMicros, Int.sub_zero, abs_lt]
    have least := Int.floor_le (1000000 * scanTime rate m)
    have most := Int.lt_floor_add_one (1000000 * scanTime rate m)
    constructor
    · linarith
    · linarith
  · rw [(timevalSubtract_exact (Timeval.ofMicros_normalized _) (Timeval.ofMicros_normalized _)).1,
      Timeval.micros_ofMicros, Timeval.micros_ofMicros, Int.sub_zero]

/-- After a scan that took long enough, if only because the machine was suspended, `max_nonce` is 0. -/
theorem reachesBound_zero (low : 1 ≤ optScantime) (high : optScantime ≤ 9999) : ReachesBound optScantime 0 := by
  let diff : Timeval := (timevalSubtract ⟨0xffffff * 9999 + 1, 0⟩ ⟨0, 0⟩).result
  have seconds : roundSeconds diff = 0xffffff * 9999 + 1 := rfl
  have scanned : ReachesBound optScantime (adjustMaxNonce 0xffffff diff (scanHashes 0xffffff) optScantime) :=
    ReachesBound.initial.scanned (Nat.le_refl _) ⟨by decide, by decide⟩ ⟨by decide, by decide⟩
  have bound : ((adjustMaxNonce 0xffffff diff (scanHashes 0xffffff) optScantime).toNat : Int) = _ :=
    adjustMaxNonce_toNat (by decide) low high (by rw [seconds]; decide)
  rw [seconds, show scanHashes 0xffffff = 0xffffff from rfl] at bound
  have none : adjustMaxNonce 0xffffff diff (scanHashes 0xffffff) optScantime = 0 := by
    apply BitVec.eq_of_toNat_eq
    rw [show (0 : Word).toNat = 0 from rfl, show scanHashes 0xffffff = 0xffffff from rfl]
    omega
  rwa [none] at scanned

end

/-! ### Hash rates without a trap -/

section

variable {rate : ℝ} {optScantime : Int} (positive : 0 < rate) (low : 1 ≤ optScantime) (high : optScantime ≤ 9999)

include positive

theorem scanTime_mul (m : Word) : scanTime rate m * rate = scanHashes m := div_mul_cancel₀ _ positive.ne'

/-- A scan makes at least one hash. -/
theorem one_le_scanTime_mul (m : Word) : 1 ≤ scanTime rate m * rate := by
  have one : 1 ≤ scanHashes m := Nat.le_max_left 1 m.toNat
  rw [scanTime_mul positive]
  exact_mod_cast one

/-- The scan with bound 0 makes one hash. -/
theorem scanTime_zero_mul : scanTime rate 0 * rate = 1 := by
  rw [scanTime_mul positive]
  exact Nat.cast_one

include low high

theorem noTrap_of_rate (slow : 500001 * rate ≤ 1000000 ∨ (optScantime = 1 ∧ rate ≤ 2))
    (fast : 1 ≤ 2 * optScantime * rate) : NoTrap rate optScantime := by
  intro m _ tvStart tvEnd takes stays
  have one := one_le_scanTime_mul positive m
  have total := scanTime_mul positive m
  have nonneg : 0 ≤ scanTime rate m := div_nonneg (Nat.cast_nonneg _) positive.le
  have two : rate ≤ 2 := by
    obtain slow | ⟨-, slow⟩ := slow
    · linarith
    · exact slow
  have half : scanTime rate m * rate ≤ scanTime rate m * 2 := mul_le_mul_of_nonneg_left two nonneg
  have lowReal : (1 : ℝ) ≤ optScantime := by exact_mod_cast low
  obtain ⟨lower, upper⟩ := takes.seconds
  have close := fun long => seconds_of_stays low high long stays
  generalize roundSeconds (timevalSubtract tvEnd tvStart).result = s at lower upper close
  by_cases long : 0 < s
  · obtain ⟨zero, more⟩ | ⟨less, near⟩ := close long
    · have moreReal : ((optScantime + 1 : Int) : ℝ) ≤ s := by exact_mod_cast more
      push_cast at moreReal
      have single : scanTime rate m * rate = 1 := by
        rw [total, scanHashes, zero]
        norm_num
      refine ⟨by linarith, le_of_mul_le_mul_right ?_ positive⟩
      rw [single]
      exact fast
    · have lessReal : (s : ℝ) ≤ optScantime := by exact_mod_cast less
      refine ⟨?_, by linarith⟩
      obtain cap | near := near
      · have highReal : (optScantime : ℝ) ≤ 9999 := by exact_mod_cast high
        rw [scanHashes, cap] at total
        norm_num at total
        linarith
      · have nearReal : ((optScantime + 1 : Int) : ℝ) ≤ ((2 * s : Int) : ℝ) := by exact_mod_cast near
        push_cast at nearReal
        linarith
  · have shortReal : (s : ℝ) ≤ 0 := by exact_mod_cast Int.not_lt.mp long
    -- A scan that is rounded to no second takes at most half a second and a microsecond.
    have brief : 1000000 * scanTime rate m < 500001 := by linarith
    obtain slow | ⟨target, -⟩ := slow
    · have product : 1000000 * scanTime rate m * rate < 500001 * rate := mul_lt_mul_of_pos_right brief positive
      linarith
    · rw [target, Int.cast_one]
      exact ⟨by linarith, by linarith⟩

/-- If a scan of one hash takes no second, rounded, then it is of the target time. -/
theorem NoTrap.slow (noTrap : NoTrap rate optScantime) :
    500001 * rate ≤ 1000000 ∨ (optScantime = 1 ∧ rate ≤ 2) := by
  obtain ⟨tvStart, tvEnd, takes, seconds⟩ := exists_scanTakes rate 0
  have single := scanTime_zero_mul positive
  by_contra trap
  rw [not_or, not_le] at trap
  obtain ⟨fast, other⟩ := trap
  have brief : 1000000 * scanTime rate 0 < 500001 := by
    refine lt_of_mul_lt_mul_right ?_ positive.le
    linarith
  have floor : ⌊1000000 * scanTime rate 0⌋ < 500001 := Int.floor_lt.mpr (by exact_mod_cast brief)
  have short : roundSeconds (timevalSubtract tvEnd tvStart).result ≤ 0 := by
    rw [seconds]
    have nearest := roundSeconds_spec (Timeval.ofMicros_normalized ⌊1000000 * scanTime rate 0⌋)
    rw [Timeval.micros_ofMicros] at nearest
    omega
  obtain ⟨lower, -⟩ := noTrap 0 (reachesBound_zero low high) tvStart tvEnd takes (adjustMaxNonce_of_nonpos short)
  refine other ⟨?_, ?_⟩
  · have small : (optScantime : ℝ) < ((2 : Int) : ℝ) := by
      push_cast
      linarith
    have small : optScantime < 2 := by exact_mod_cast small
    omega
  · have lowReal : (1 : ℝ) ≤ optScantime := by exact_mod_cast low
    have half : 1 / 2 * rate ≤ scanTime rate 0 * rate := mul_le_mul_of_nonneg_right (by linarith) positive.le
    linarith

/-- A scan of one hash that takes more than twice the target leaves the bound 0. -/
theorem NoTrap.fast (noTrap : NoTrap rate optScantime) : 1 ≤ 2 * optScantime * rate := by
  obtain ⟨tvStart, tvEnd, takes, _⟩ := exists_scanTakes rate 0
  have single := scanTime_zero_mul positive
  by_contra slow
  have above : 2 * (optScantime : ℝ) < scanTime rate 0 := by
    refine lt_of_mul_lt_mul_right ?_ positive.le
    linarith
  have long : optScantime < roundSeconds (timevalSubtract tvEnd tvStart).result := by
    have upper := takes.seconds.2
    have lowReal : (1 : ℝ) ≤ optScantime := by exact_mod_cast low
    have longReal : (optScantime : ℝ) < roundSeconds (timevalSubtract tvEnd tvStart).result := by linarith
    exact_mod_cast longReal
  have stays : scanAdjust optScantime 0 (scanHashes 0) tvStart tvEnd = 0 := by
    have bound : ((scanAdjust optScantime 0 (scanHashes 0) tvStart tvEnd).toNat : Int) = _ :=
      adjustMaxNonce_toNat (by decide) low high (by omega)
    have none : (scanHashes 0 : Int) * optScantime / roundSeconds (timevalSubtract tvEnd tvStart).result = 0 := by
      rw [show (scanHashes 0 : Int) = 1 from rfl, Int.one_mul]
      exact Int.ediv_eq_zero_of_lt (by omega) long
    apply BitVec.eq_of_toNat_eq
    rw [show (0 : Word).toNat = 0 from rfl]
    omega
  linarith [(noTrap 0 (reachesBound_zero low high) tvStart tvEnd takes stays).2]

end

/-- Every bound that stays gives about the target time if and only if a scan of one hash is rounded to a second at
    least, or is short enough for the target of one second, and one hash takes at most twice the target. -/
theorem noTrap_iff_rate (rate : ℝ) (positive : 0 < rate) (optScantime : Int) (low : 1 ≤ optScantime)
    (high : optScantime ≤ 9999) :
    NoTrap rate optScantime ↔
      (500001 * rate ≤ 1000000 ∨ (optScantime = 1 ∧ rate ≤ 2)) ∧ 1 ≤ 2 * optScantime * rate :=
  ⟨fun noTrap => ⟨noTrap.slow positive low high, noTrap.fast positive low high⟩,
    fun ⟨slow, fast⟩ => noTrap_of_rate positive low high slow fast⟩

/-- One hash per second, and the target of five seconds. -/
theorem noTrap_iff_rate_example : NoTrap 1 5 :=
  (noTrap_iff_rate 1 one_pos 5 (by decide) (by decide)).mpr ⟨.inl (by norm_num), by norm_num⟩

/-- At a million hashes per second, a machine that sleeps through a scan for 1000000 seconds then makes scans of 83
    hashes, and goes on so. -/
theorem not_noTrap :
    scanAdjust 5 0xffffff (scanHashes 0xffffff) ⟨0, 0⟩ ⟨1000000, 0⟩ = 83 ∧ ReachesBound 5 83 ∧
      ScanTakes 1000000 83 ⟨0, 0⟩ ⟨0, 83⟩ ∧ scanAdjust 5 83 (scanHashes 83) ⟨0, 0⟩ ⟨0, 83⟩ = 83 ∧
      scanTime 1000000 83 < 5 / 2 ∧ ¬ NoTrap 1000000 5 := by
  have slept : scanAdjust 5 0xffffff (scanHashes 0xffffff) ⟨0, 0⟩ ⟨1000000, 0⟩ = 83 := by decide
  have reached : ReachesBound 5 83 := by
    rw [← slept]
    exact ReachesBound.initial.scanned (Nat.le_refl _) ⟨by decide, by decide⟩ ⟨by decide, by decide⟩
  have time : scanTime 1000000 83 = 83 / 1000000 := by
    rw [scanTime, show scanHashes 83 = 83 from rfl]
    norm_num
  have takes : ScanTakes 1000000 83 ⟨0, 0⟩ ⟨0, 83⟩ := by
    refine ⟨⟨by decide, by decide⟩, ⟨by decide, by decide⟩, ?_⟩
    rw [time, show (Timeval.mk 0 83).micros - (Timeval.mk 0 0).micros = 83 from rfl]
    norm_num
  have stays : scanAdjust 5 83 (scanHashes 83) ⟨0, 0⟩ ⟨0, 83⟩ = 83 := by decide
  have brief : scanTime 1000000 83 < 5 / 2 := by
    rw [time]
    norm_num
  refine ⟨slept, reached, takes, stays, brief, fun noTrap => ?_⟩
  have least := (noTrap 83 reached _ _ takes stays).1
  rw [Int.cast_ofNat] at least
  linarith

end CpuMiner
