/-
Module: CpuMiner.Miner.Affinity
Layer: Miner
Purpose: `miner_thread` divides `opt_n_threads` and its own number by `num_processors`, which `parse_arg` sets as a side
  effect of every option, but not in a build for WIN32. `establishesAffinity_iff` says for which builds and answers of
  `sysconf` every start that comes as far as creating threads has set both numbers.
Imports: CpuMiner.Miner.Options
Trusted boundary: human-reviewed spec (the transcription of the C code)
Main exports: minerAffinity, AffinityReady, EstablishesAffinity, main_eq_some, calls_of_credentials, win32_run,
  counted_run, establishesAffinity_iff, win32_not_establishesAffinity
Open obligations: none
-/
import CpuMiner.Miner.Options

namespace CpuMiner

open Words

/-! ### What is divided -/

/-- `if (!(opt_n_threads % num_processors)) affine_to_cpu(mythr->id, mythr->id % num_processors)`: the processor that
    `miner_thread` asks for, if it does. Nothing when it divides by zero. -/
def minerAffinity (s : Settings) (id : Nat) : Option (Option Int) :=
  if s.numProcessors = 0 then none
  else some (if s.optNThreads.tmod s.numProcessors = 0 then some (Int.tmod id s.numProcessors) else none)

/-- There are threads, at most 9999 or as many as processors, and the divisor is not zero. -/
structure AffinityReady (processors : Int) (s : Settings) : Prop where
  atLeastOne : 1 ≤ s.optNThreads
  atMost : s.optNThreads ≤ max 9999 processors
  divisor : s.numProcessors ≠ 0

theorem AffinityReady.defined {processors : Int} {s : Settings} (ready : AffinityReady processors s) (id : Nat) :
    minerAffinity s id ≠ none := by
  rw [minerAffinity, if_neg ready.divisor]
  exact Option.some_ne_none _

/-- Every start that comes as far as creating threads has made the numbers ready, with any options, files and memory.
    The processors are counted when the first option is handled. -/
def EstablishesAffinity (build : Build) (sysconf : Nat → Int) : Prop :=
  ∀ (world : World) (argv : List (Key × CString)) (s : Settings),
    main build sysconf world argv = some s → AffinityReady (sysconf 0) s

/-! ### Starts -/

variable {build : Build} {sysconf : Nat → Int} {world : World}

theorem credentials_eq_some {s s' : Settings} (supplied : credentials world s = some s') :
    s'.optNThreads = s.optNThreads ∧ s'.numProcessors = s.numProcessors ∧ s'.calls = s.calls ∧
      (s.rpcUserpass ≠ none ∨ (s.rpcUser ≠ none ∧ s.rpcPass ≠ none)) := by
  unfold credentials at supplied
  split at supplied
  · rename_i given
    obtain rfl := Option.some.inj supplied
    exact ⟨rfl, rfl, rfl, .inl (by rw [given]; exact Option.some_ne_none _)⟩
  · obtain ⟨user, hasUser, rest⟩ := Option.bind_eq_some_iff.mp supplied
    obtain ⟨pass, hasPass, rest⟩ := Option.bind_eq_some_iff.mp rest
    split at rest
    · obtain rfl := Option.some.inj rest
      exact ⟨rfl, rfl, rfl, .inr ⟨by rw [hasUser]; exact Option.some_ne_none _,
        by rw [hasPass]; exact Option.some_ne_none _⟩⟩
    · cases rest

/-- What `main` has done when it creates the first thread. -/
theorem main_eq_some {argv : List (Key × CString)} {s : Settings} (started : main build sysconf world argv = some s) :
    ∃ parsed, OptionRun build sysconf world (Settings.initial build world) parsed ∧
      credentials world parsed = some s ∧ calloc world.workRestartCalloc s.optNThreads 128 = true := by
  obtain ⟨parsed, handled, rest⟩ := Option.bind_eq_some_iff.mp started
  obtain ⟨supplied, given, rest⟩ := Option.bind_eq_some_iff.mp rest
  split at rest
  · rename_i memory
    obtain rfl := Option.some.inj rest
    exact ⟨parsed, parseCmdline_run handled, given, (Bool.and_eq_true_iff.mp memory).1⟩
  · cases rest

/-- A negative number of elements is too large for `calloc`. -/
theorem calloc_nonneg {memory : Bool} {nmemb : Int} (int : -0x80000000 ≤ nmemb)
    (given : calloc memory nmemb 128 = true) : 0 ≤ nmemb := by
  have small := of_decide_eq_true (Bool.and_eq_true_iff.mp given).2
  by_contra negative
  have wraps : nmemb % 0x10000000000000000 = nmemb + 0x10000000000000000 := by omega
  rw [wraps] at small
  omega

/-! ### What the options have set -/

theorem toInt_le {n : Int} (positive : 1 ≤ n) : toInt n ≤ n := by
  rw [toInt, Int.bmod_def]
  split <;> omega

theorem toInt_range (n : Int) : -0x80000000 ≤ toInt n := by
  rw [toInt, Int.bmod_def]
  split <;> omega

/-- Without an option there are no credentials. -/
theorem calls_of_credentials {parsed s : Settings}
    (run : OptionRun build sysconf world (Settings.initial build world) parsed)
    (supplied : credentials world parsed = some s) : 0 < parsed.calls := by
  have unset : parsed.calls = 0 → parsed.rpcUserpass = none ∧ parsed.rpcUser = none := by
    refine run.invariant (I := fun s => s.calls = 0 → s.rpcUserpass = none ∧ s.rpcUser = none)
      (fun _ => ⟨rfl, rfl⟩) ?_
    intro s option s' _ handled _ zero
    rw [(parseArg_eq_some handled).1] at zero
    cases zero
  by_contra none_handled
  obtain ⟨noUserpass, noUser⟩ := unset (Nat.eq_zero_of_not_pos none_handled)
  rcases (credentials_eq_some supplied).2.2.2 with given | ⟨given, _⟩
  · exact given noUserpass
  · exact given noUser

/-- In a build for WIN32 no option sets `num_processors`. -/
theorem win32_run (win32 : build.win32 = true) {s : Settings}
    (run : OptionRun build sysconf world (Settings.initial build world) s) : s.numProcessors = 0 := by
  refine run.invariant (I := fun s => s.numProcessors = 0) rfl ?_
  intro s option s' unset handled _
  rw [(parseArg_eq_some handled).2.1, if_pos win32, unset]

/-- The numbers after some options, when every answer of `sysconf` is a number of processors as an `int`. -/
structure Counted (sysconf : Nat → Int) (s : Settings) : Prop where
  unset : s.calls = 0 → s.optNThreads = 0
  divisor : 0 < s.calls → s.numProcessors ≠ 0
  threads : 0 < s.calls → s.optNThreads ≠ 0
  atMost : s.optNThreads ≤ max 9999 (sysconf 0)
  int : -0x80000000 ≤ s.optNThreads

/-- One option keeps the numbers counted. -/
theorem counted_step (posix : build.win32 = false) (positive : 1 ≤ sysconf 0) (counts : ∀ k, toInt (sysconf k) ≠ 0)
    {s s' : Settings} {option : Key × CString} (counted : Counted sysconf s)
    (handled : Handles build sysconf world s option s') : Counted sysconf s' := by
  obtain ⟨calls, processors, threads, switched, set⟩ := parseArg_eq_some handled
  rw [posix] at processors set
  simp only [Bool.false_eq_true, if_false] at processors set
  have nonzero : s'.optNThreads ≠ 0 := by
    rw [set]
    split
    · exact counts _
    · assumption
  have range : s'.optNThreads ≤ max 9999 (sysconf 0) ∧ -0x80000000 ≤ s'.optNThreads := by
    rw [set]
    rcases switched with same | checked
    · by_cases zero : threads = 0
      · -- only the first option can find no number of threads
        have first : s.calls = 0 := by
          by_contra later
          exact counted.threads (Nat.pos_of_ne_zero later) (same ▸ zero)
        have fromSysconf := toInt_le positive
        have int := toInt_range (sysconf 0)
        rw [if_pos zero, first]
        omega
      · rw [if_neg zero, same]
        exact ⟨counted.atMost, counted.int⟩
    · rw [if_neg (by omega)]
      omega
  exact ⟨fun zero => absurd (calls ▸ zero) (Nat.succ_ne_zero _), fun _ => processors ▸ counts _, fun _ => nonzero,
    range.1, range.2⟩

theorem counted_run (posix : build.win32 = false) (positive : 1 ≤ sysconf 0) (counts : ∀ k, toInt (sysconf k) ≠ 0)
    {s : Settings} (run : OptionRun build sysconf world (Settings.initial build world) s) : Counted sysconf s := by
  have int : (-0x80000000 : Int) ≤ 0 := by decide
  have bound : (0 : Int) ≤ max 9999 (sysconf 0) := by omega
  refine run.invariant ⟨fun _ => rfl, fun called => absurd called (Nat.lt_irrefl 0),
    fun called => absurd called (Nat.lt_irrefl 0), bound, int⟩ ?_
  intro s option s' counted handled _
  exact counted_step posix positive counts counted handled

/-- The numbers of a start are ready if the processors are counted and their number is not lost in the conversion. -/
theorem affinityReady_of_counts (posix : build.win32 = false) (positive : 1 ≤ sysconf 0)
    (counts : ∀ k, toInt (sysconf k) ≠ 0) : EstablishesAffinity build sysconf := by
  intro world argv s started
  obtain ⟨parsed, run, supplied, memory⟩ := main_eq_some started
  have counted := counted_run posix positive counts run
  have called := calls_of_credentials run supplied
  obtain ⟨threads, processors, _, _⟩ := credentials_eq_some supplied
  have int : -0x80000000 ≤ s.optNThreads := threads ▸ counted.int
  have nonneg := calloc_nonneg int memory
  have nonzero : s.optNThreads ≠ 0 := threads ▸ counted.threads called
  exact ⟨by omega, threads ▸ counted.atMost, processors ▸ counted.divisor called⟩

/-! ### Starts that divide by zero -/

/-- There is always memory, and no file. -/
def plenty : World where
  strdup _ := true
  jsonLoadFile _ _ := none
  configStrdup _ := true
  urlStrdup := true
  userpassMalloc := true
  workRestartCalloc := true
  thrInfoCalloc := true

/-- `--threads 1` -/
def oneThread : Key × CString := (.threads, ⟨[0x31], by decide⟩)

/-- `--userpass a:b` -/
def someUserpass : Key × CString := (.userpass, ⟨[0x61, 0x3a, 0x62], by decide⟩)

theorem atoi_one (build : Build) : atoi build oneThread.2 = 1 := by
  rw [atoi]
  cases build.win32 <;> rfl

theorem parseArg_oneThread (s : Settings) :
    parseArg build sysconf plenty oneThread.1 oneThread.2 s =
      some (setThreads build sysconf { s with optNThreads := 1 }) := by
  have checked : checkedAtoi build 1 oneThread.2 = some 1 := by
    rw [checkedAtoi, atoi_one]
    rfl
  exact congrArg (fun v => (v.map fun v => { s with optNThreads := v }).map (setThreads build sysconf)) checked

/-- Some times `--threads 1`: the options are counted, and there is no or one thread. -/
theorem parseKeys_oneThread (build : Build) (sysconf : Nat → Int) (times : Nat) (rest : List (Key × CString))
    {s : Settings} (noFile : s.optConfig = none) (few : s.optNThreads = 0 ∨ s.optNThreads = 1) :
    ∃ s', parseKeys build sysconf plenty (List.replicate times oneThread ++ rest) s =
        parseKeys build sysconf plenty rest s' ∧
      s'.calls = s.calls + times ∧ s'.optConfig = none ∧ (s'.optNThreads = 0 ∨ s'.optNThreads = 1) ∧
      (build.win32 = true → s'.numProcessors = s.numProcessors) := by
  induction times generalizing s with
  | zero => exact ⟨s, rfl, rfl, noFile, few, fun _ => rfl⟩
  | succ times ih =>
      have one : (setThreads build sysconf { s with optNThreads := 1 }).optNThreads = 1 := by
        rw [setThreads_optNThreads, if_neg Int.one_ne_zero]
      obtain ⟨s', parsed, calls, file, threads, unset⟩ := ih
        (s := setThreads build sysconf { s with optNThreads := 1 }) (by rw [setThreads_optConfig, noFile]) (.inr one)
      refine ⟨s', ?_, ?_, file, threads, fun win32 => ?_⟩
      · rw [← parsed, List.replicate_succ, List.cons_append]
        simp only [parseKeys, parseArg_oneThread, Option.bind_eq_bind, Option.bind_some]
      · have counted : (setThreads build sysconf { s with optNThreads := 1 }).calls = s.calls + 1 := setThreads_calls _
        omega
      · rw [unset win32, setThreads_numProcessors, if_pos win32]

/-- A start without a configuration file, with the credentials in one option. -/
theorem main_of_parseKeys {argv : List (Key × CString)} {s : Settings} {userpass : CString}
    (parsed : parseKeys build sysconf plenty argv (Settings.initial build plenty) = some s)
    (noFile : s.optConfig = none) (given : s.rpcUserpass = some userpass)
    (few : s.optNThreads = 0 ∨ s.optNThreads = 1) : main build sysconf plenty argv = some s := by
  have cmdline : parseCmdline build sysconf plenty argv (Settings.initial build plenty) = some s := by
    simp only [parseCmdline, parsed, Option.bind_eq_bind, Option.bind_some, parseConfig, noFile]
  have supplied : credentials plenty s = some s := by
    simp only [credentials, given]
  have memory : (calloc plenty.workRestartCalloc s.optNThreads 128 && plenty.thrInfoCalloc) = true := by
    rcases few with none_set | one
    · rw [none_set]
      rfl
    · rw [one]
      rfl
  simp only [main, cmdline, supplied, memory, Option.bind_eq_bind, Option.bind_some, if_true]

/-- Some times `--threads 1` and then `--userpass a:b` come as far as creating threads when the last count of the
    processors is lost, or there is none; and then `num_processors` is zero. -/
theorem main_dividesByZero (build : Build) (sysconf : Nat → Int) (times : Nat)
    (lost : build.win32 = true ∨ toInt (sysconf times) = 0) :
    ∃ s, main build sysconf plenty (List.replicate times oneThread ++ [someUserpass]) = some s ∧
      s.numProcessors = 0 := by
  have noFile : (Settings.initial build plenty).optConfig = none := rfl
  obtain ⟨s, parsed, calls, noFile, few, unset⟩ :=
    parseKeys_oneThread build sysconf times [someUserpass] noFile (.inl rfl)
  have calls : s.calls = times := calls.trans (Nat.zero_add times)
  have last : parseKeys build sysconf plenty [someUserpass] s =
      some (setThreads build sysconf { s with rpcUserpass := some someUserpass.2 }) := rfl
  refine ⟨_, main_of_parseKeys (parsed.trans last) ?_ (setThreads_rpcUserpass _) ?_, ?_⟩
  · rw [setThreads_optConfig, noFile]
  · rw [setThreads_optNThreads]
    rcases few with none_set | one
    · rw [if_pos none_set]
      split
      · exact .inr rfl
      · rename_i posix
        exact .inl (calls ▸ lost.resolve_left posix)
    · rw [if_neg (by rw [one]; exact Int.one_ne_zero)]
      exact .inr one
  · rw [setThreads_numProcessors]
    split
    · rename_i win32
      exact unset win32
    · rename_i posix
      exact calls ▸ lost.resolve_left posix

/-- Every start makes the numbers ready exactly in a build that is not for WIN32, when no count of the processors is
    lost in the conversion to an `int`. In a build for WIN32 no start does: wherever threads are created, each of them
    divides by zero. -/
theorem establishesAffinity_iff (build : Build) (sysconf : Nat → Int) (online : ∀ k, 1 ≤ sysconf k) :
    (EstablishesAffinity build sysconf ↔ build.win32 = false ∧ ∀ k, toInt (sysconf k) ≠ 0) ∧
      (build.win32 = true → ∀ (world : World) (argv : List (Key × CString)) (s : Settings) (id : Nat),
        main build sysconf world argv = some s → minerAffinity s id = none) := by
  refine ⟨⟨fun ready => ⟨Bool.eq_false_iff.mpr fun win32 => ?_, fun k lost => ?_⟩, ?_⟩, ?_⟩
  · obtain ⟨s, started, zero⟩ := main_dividesByZero build sysconf 0 (.inl win32)
    exact (ready _ _ s started).divisor zero
  · obtain ⟨s, started, zero⟩ := main_dividesByZero build sysconf k (.inr lost)
    exact (ready _ _ s started).divisor zero
  · rintro ⟨posix, counts⟩
    exact affinityReady_of_counts posix (online 0) counts
  · intro win32 world argv s id started
    obtain ⟨parsed, run, supplied, _⟩ := main_eq_some started
    have processors : s.numProcessors = parsed.numProcessors := (credentials_eq_some supplied).2.1
    rw [minerAffinity, processors, win32_run win32 run, if_pos rfl]

/-- A build with nothing in it, for WIN32 or not. -/
def plainBuild (win32 : Bool) : Build where
  win32 := win32
  haveSyslog := false
  wantSse2FourWay := false
  wantViaPadlock := false
  wantCryptoppAsm32 := false
  wantX8664Sse2 := false

/-- The theorem with four processors. -/
theorem establishesAffinity_iff_four : EstablishesAffinity (plainBuild false) fun _ => 4 := by
  have ready := establishesAffinity_iff (plainBuild false) (fun _ => 4) fun _ => by decide
  exact ready.1.mpr ⟨rfl, fun _ => by decide⟩

/-- A build for WIN32 on a machine with four processors, with `--userpass a:b`: the first thread divides by zero. -/
theorem win32_not_establishesAffinity :
    ¬ EstablishesAffinity (plainBuild true) (fun _ => 4) ∧
      ∃ s, main (plainBuild true) (fun _ => 4) plenty [someUserpass] = some s ∧ minerAffinity s 0 = none := by
  obtain ⟨s, started, zero⟩ := main_dividesByZero (plainBuild true) (fun _ => 4) 0 (.inl rfl)
  exact ⟨fun ready => (ready _ _ s started).divisor zero, s, started, if_pos zero⟩

end CpuMiner
