/-
Module: CpuMiner.Miner.Options
Layer: Miner
Purpose: The start of the program: `main` handles the options of the command line and those of the configuration file
  with `parse_arg`, asks for credentials and makes the arrays of the threads. What is outside the program (memory,
  files, the number of processors) is `World` and `sysconf`. An option that is refused ends the program in
  `show_usage`. `parseArg_eq_some` is what every option does to the two numbers that `miner_thread` divides.
Imports: CpuMiner.Lib.Transition, CpuMiner.Miner.Upstream
Trusted boundary: human-reviewed spec (the transcription of the C code, and of `atoi` from the C standard)
Main exports: Build, Key, Settings, World, atoi, toInt, parseArg, options, parseConfig, parseCmdline, main,
  parseArg_eq_some, Handles, OptionRun, parseCmdline_run
Open obligations: none
-/
import CpuMiner.Lib.Transition
import CpuMiner.Miner.Upstream

namespace CpuMiner

open Words

/-! ### Surroundings -/

/-- How the program was configured and compiled. -/
structure Build where
  win32 : Bool
  haveSyslog : Bool
  wantSse2FourWay : Bool
  wantViaPadlock : Bool
  wantCryptoppAsm32 : Bool
  wantX8664Sse2 : Bool

/-- `algo_names`. An algorithm that is not compiled has no name. -/
def algoNames (build : Build) : List (Sha256Algo × Option String) :=
  [(.c, some "c"), (.fourWay, if build.wantSse2FourWay then some "4way" else none),
    (.via, if build.wantViaPadlock then some "via" else none), (.cryptopp, some "cryptopp"),
    (.cryptoppAsm32, if build.wantCryptoppAsm32 then some "cryptopp_asm32" else none),
    (.sse2_64, if build.wantX8664Sse2 then some "sse2_64" else none)]

/-- What the code sees of a value in the configuration file. -/
inductive ConfigValue where
  | string (value : CString)
  | true
  | other

/-- The object in a configuration file. -/
abbrev ConfigFile := String → Option ConfigValue

/-- What memory and files there are. Call `k` of `parse_arg` has `strdup k` and `jsonLoadFile k`, which gives nothing
    when the file has no object in it. -/
structure World where
  strdup : Nat → Bool
  jsonLoadFile : Nat → CString → Option ConfigFile
  configStrdup : String → Bool
  urlStrdup : Bool
  userpassMalloc : Bool
  workRestartCalloc : Bool
  thrInfoCalloc : Bool

/-! ### Numbers -/

/-- The digits at the beginning, as a number. -/
def decimal (s : List Byte) : Nat :=
  (s.takeWhile fun c => 0x30 ≤ c && c ≤ 0x39).foldl (fun v c => 10 * v + (c.toNat - 0x30)) 0

/-- `strtol(s, NULL, 10)` for a `long` up to this number. -/
def strtol (longMax : Nat) (s : List Byte) : Int :=
  match s.dropWhile isSpace with
  | [] => 0
  | c :: rest =>
      if c = 0x2d then max (-(longMax : Int) - 1) (-(decimal rest : Int))
      else if c = 0x2b then min (longMax : Int) (decimal rest)
      else min (longMax : Int) (decimal (c :: rest))

/-- The conversion of a `long` to an `int`. -/
def toInt (n : Int) : Int := Int.bmod n 0x100000000

/-- `atoi` -/
def atoi (build : Build) (arg : CString) : Int :=
  toInt (strtol (if build.win32 then 0x7fffffff else 0x7fffffffffffffff) arg.bytes)

/-! ### Options -/

/-- The keys of `parse_arg`. All other keys are `unknown`; `getopt_long` returns `'?'` for an option that it does not
    know. -/
inductive Key where
  | algo
  | config
  | quiet
  | debug
  | help
  | pass
  | protocolDump
  | retries
  | retryPause
  | scantime
  | threads
  | user
  | url
  | userpass
  | noLongpoll
  | syslog
  | unknown
deriving DecidableEq

/-- The variables that the options set. `calls` counts the options that were handled; it is for the surroundings. -/
structure Settings where
  optDebug : Bool
  optProtocol : Bool
  wantLongpoll : Bool
  useSyslog : Bool
  optQuiet : Bool
  optRetries : Int
  optFailPause : Int
  optScantime : Int
  optConfig : Option ConfigFile
  optAlgo : Sha256Algo
  optNThreads : Int
  numProcessors : Int
  rpcUrl : Option CString
  rpcUserpass : Option CString
  rpcUser : Option CString
  rpcPass : Option CString
  calls : Nat

/-- `#define DEF_RPC_URL` -/
def defRpcUrl : CString := ⟨ascii "http://127.0.0.1:8332/", by decide⟩

def strdup (memory : Bool) (s : CString) : Option CString := if memory then some s else none

/-- The variables when `main` has set `rpc_url`. -/
def Settings.initial (build : Build) (world : World) : Settings where
  optDebug := false
  optProtocol := false
  wantLongpoll := true
  useSyslog := false
  optQuiet := false
  optRetries := 10
  optFailPause := 30
  optScantime := 5
  optConfig := none
  optAlgo := if build.wantX8664Sse2 then .sse2_64 else .c
  optNThreads := 0
  numProcessors := 0
  rpcUrl := strdup world.urlStrdup defRpcUrl
  rpcUserpass := none
  rpcUser := none
  rpcPass := none
  calls := 0

/-- `v = atoi(arg); if (v < low || v > 9999) show_usage();` -/
def checkedAtoi (build : Build) (low : Int) (arg : CString) : Option Int :=
  let v := atoi build arg
  if v < low ∨ v > 9999 then none else some v

/-- The `switch` of `parse_arg`; none when it calls `show_usage`, which exits. -/
def parseKey (build : Build) (world : World) (key : Key) (arg : CString) (s : Settings) : Option Settings :=
  match key with
  | .algo =>
      ((algoNames build).find? fun entry => entry.2.map ascii == some arg.bytes).map fun entry =>
        { s with optAlgo := entry.1 }
  | .config => (world.jsonLoadFile s.calls arg).map fun config => { s with optConfig := some config }
  | .quiet => some { s with optQuiet := true }
  | .debug => some { s with optDebug := true }
  | .pass => some { s with rpcPass := strdup (world.strdup s.calls) arg }
  | .protocolDump => some { s with optProtocol := true }
  | .retries => (checkedAtoi build (-1) arg).map fun v => { s with optRetries := v }
  | .retryPause => (checkedAtoi build 1 arg).map fun v => { s with optFailPause := v }
  | .scantime => (checkedAtoi build 1 arg).map fun v => { s with optScantime := v }
  | .threads => (checkedAtoi build 1 arg).map fun v => { s with optNThreads := v }
  | .user => some { s with rpcUser := strdup (world.strdup s.calls) arg }
  | .url =>
      if (ascii "http://").isPrefixOf arg.bytes || (ascii "https://").isPrefixOf arg.bytes then
        some { s with rpcUrl := strdup (world.strdup s.calls) arg }
      else none
  | .userpass =>
      if 0x3a ∈ arg.bytes then some { s with rpcUserpass := strdup (world.strdup s.calls) arg } else none
  | .noLongpoll => some { s with wantLongpoll := false }
  | .syslog => some { s with useSyslog := true }
  | .help | .unknown => none

/-- What `parse_arg` does after the `switch`. The answer of `sysconf` in call `k` is `sysconf k`. -/
def setThreads (build : Build) (sysconf : Nat → Int) (s : Settings) : Settings :=
  if build.win32 then
    { s with optNThreads := if s.optNThreads = 0 then 1 else s.optNThreads, calls := s.calls + 1 }
  else
    let numProcessors := toInt (sysconf s.calls)
    { s with
      numProcessors
      optNThreads := if s.optNThreads = 0 then numProcessors else s.optNThreads
      calls := s.calls + 1 }

/-- `parse_arg` -/
def parseArg (build : Build) (sysconf : Nat → Int) (world : World) (key : Key) (arg : CString) (s : Settings) :
    Option Settings :=
  (parseKey build world key arg s).map (setThreads build sysconf)

/-- An entry of `options`. -/
structure LongOption where
  name : String
  hasArg : Bool
  val : Key

/-- `options` -/
def options (build : Build) : List LongOption :=
  [⟨"algo", true, .algo⟩, ⟨"config", true, .config⟩, ⟨"debug", false, .debug⟩, ⟨"help", false, .help⟩,
    ⟨"no-longpoll", false, .noLongpoll⟩, ⟨"pass", true, .pass⟩, ⟨"protocol-dump", false, .protocolDump⟩,
    ⟨"quiet", false, .quiet⟩, ⟨"threads", true, .threads⟩, ⟨"retries", true, .retries⟩,
    ⟨"retry-pause", true, .retryPause⟩, ⟨"scantime", true, .scantime⟩] ++
  (if build.haveSyslog then [⟨"syslog", false, .syslog⟩] else []) ++
  [⟨"url", true, .url⟩, ⟨"user", true, .user⟩, ⟨"userpass", true, .userpass⟩]

/-- The loop of `parse_config`, for the options that are left. A value of the wrong kind is logged and passed over. -/
def parseConfigFrom (build : Build) (sysconf : Nat → Int) (world : World) (config : ConfigFile) :
    List LongOption → Settings → Option Settings
  | [], s => some s
  | option :: rest, s =>
      if option.name = "config" then parseConfigFrom build sysconf world config rest s
      else
        match config option.name, option.hasArg with
        | some (.string value), true =>
            if world.configStrdup option.name then do
              let s ← parseArg build sysconf world option.val value s
              parseConfigFrom build sysconf world config rest s
            else some s
        | some .true, false => do
            let s ← parseArg build sysconf world option.val ⟨[], by decide⟩ s
            parseConfigFrom build sysconf world config rest s
        | _, _ => parseConfigFrom build sysconf world config rest s

/-- `parse_config` -/
def parseConfig (build : Build) (sysconf : Nat → Int) (world : World) (s : Settings) : Option Settings :=
  match s.optConfig with
  | none => some s
  | some config => parseConfigFrom build sysconf world config (options build) s

/-- The loop of `parse_cmdline`, with the keys that `getopt_long` returns and their arguments. -/
def parseKeys (build : Build) (sysconf : Nat → Int) (world : World) :
    List (Key × CString) → Settings → Option Settings
  | [], s => some s
  | (key, arg) :: rest, s => do
      let s ← parseArg build sysconf world key arg s
      parseKeys build sysconf world rest s

/-- `parse_cmdline` -/
def parseCmdline (build : Build) (sysconf : Nat → Int) (world : World) (argv : List (Key × CString)) (s : Settings) :
    Option Settings := do
  let s ← parseKeys build sysconf world argv s
  parseConfig build sysconf world s

/-- `sprintf(rpc_userpass, "%s:%s", rpc_user, rpc_pass)` -/
def joinUserpass (user pass : CString) : CString where
  bytes := user.bytes ++ [0x3a] ++ pass.bytes
  noNul listed := by
    rcases List.mem_append.mp listed with front | inPass
    · rcases List.mem_append.mp front with inUser | colon
      · exact user.noNul inUser
      · exact absurd colon (by decide)
    · exact pass.noNul inPass

/-- The credentials: none when `main` returns because there are none, or no memory for them. -/
def credentials (world : World) (s : Settings) : Option Settings :=
  match s.rpcUserpass with
  | some _ => some s
  | none => do
      let user ← s.rpcUser
      let pass ← s.rpcPass
      if world.userpassMalloc then some { s with rpcUserpass := some (joinUserpass user pass) } else none

/-- `calloc(nmemb, size)` with an `int` for the number of elements: no block is larger than `size_t` can say. -/
def calloc (memory : Bool) (nmemb : Int) (size : Nat) : Bool :=
  memory && decide ((nmemb % 0x10000000000000000).toNat * size < 0x10000000000000000)

/-- `main` up to the place where it creates the first thread: the variables, or none when the program has ended.
    A `struct work_restart` has 128 bytes. -/
def main (build : Build) (sysconf : Nat → Int) (world : World) (argv : List (Key × CString)) : Option Settings := do
  let s ← parseCmdline build sysconf world argv (Settings.initial build world)
  let s ← credentials world s
  if calloc world.workRestartCalloc s.optNThreads 128 && world.thrInfoCalloc then some s else none

/-! ### What an option does to the number of threads -/

variable {build : Build} {sysconf : Nat → Int} {world : World}

@[simp] theorem setThreads_calls (s : Settings) : (setThreads build sysconf s).calls = s.calls + 1 := by
  unfold setThreads
  split <;> rfl

@[simp] theorem setThreads_optConfig (s : Settings) : (setThreads build sysconf s).optConfig = s.optConfig := by
  unfold setThreads
  split <;> rfl

@[simp] theorem setThreads_rpcUserpass (s : Settings) : (setThreads build sysconf s).rpcUserpass = s.rpcUserpass := by
  unfold setThreads
  split <;> rfl

theorem setThreads_numProcessors (s : Settings) :
    (setThreads build sysconf s).numProcessors =
      if build.win32 then s.numProcessors else toInt (sysconf s.calls) := by
  unfold setThreads
  split <;> rfl

theorem setThreads_optNThreads (s : Settings) :
    (setThreads build sysconf s).optNThreads =
      if s.optNThreads = 0 then (if build.win32 then 1 else toInt (sysconf s.calls)) else s.optNThreads := by
  unfold setThreads
  split <;> rfl

theorem checkedAtoi_eq_some {low v : Int} {arg : CString} (checked : checkedAtoi build low arg = some v) :
    low ≤ v ∧ v ≤ 9999 := by
  simp only [checkedAtoi] at checked
  split at checked
  · cases checked
  · rename_i inRange
    obtain rfl := Option.some.inj checked
    omega

/-- The `switch` leaves the number of threads alone, or sets it to one that was checked. -/
theorem parseKey_eq_some {key : Key} {arg : CString} {s s' : Settings}
    (handled : parseKey build world key arg s = some s') :
    s'.calls = s.calls ∧ s'.numProcessors = s.numProcessors ∧
      (s'.optNThreads = s.optNThreads ∨ (1 ≤ s'.optNThreads ∧ s'.optNThreads ≤ 9999)) := by
  cases key with
  | quiet | debug | pass | protocolDump | user | noLongpoll | syslog =>
      obtain rfl := Option.some.inj handled
      exact ⟨rfl, rfl, .inl rfl⟩
  | algo | config | retries | retryPause | scantime =>
      obtain ⟨_, _, rfl⟩ := Option.map_eq_some_iff.mp handled
      exact ⟨rfl, rfl, .inl rfl⟩
  | threads =>
      obtain ⟨v, checked, rfl⟩ := Option.map_eq_some_iff.mp handled
      exact ⟨rfl, rfl, .inr (checkedAtoi_eq_some checked)⟩
  | url | userpass =>
      simp only [parseKey] at handled
      split at handled
      · obtain rfl := Option.some.inj handled
        exact ⟨rfl, rfl, .inl rfl⟩
      · cases handled
  | help | unknown => cases handled

/-- An option that was handled: it is counted, the processors are counted unless the build is for WIN32, and a number of
    threads that is still zero becomes one or the number of processors. -/
theorem parseArg_eq_some {key : Key} {arg : CString} {s s' : Settings}
    (handled : parseArg build sysconf world key arg s = some s') :
    s'.calls = s.calls + 1 ∧
      s'.numProcessors = (if build.win32 then s.numProcessors else toInt (sysconf s.calls)) ∧
      ∃ threads, (threads = s.optNThreads ∨ (1 ≤ threads ∧ threads ≤ 9999)) ∧
        s'.optNThreads =
          if threads = 0 then (if build.win32 then 1 else toInt (sysconf s.calls)) else threads := by
  obtain ⟨switched, inner, rfl⟩ := Option.map_eq_some_iff.mp handled
  obtain ⟨calls, processors, threads⟩ := parseKey_eq_some inner
  rw [setThreads_calls, setThreads_numProcessors, setThreads_optNThreads, calls, processors]
  exact ⟨rfl, rfl, switched.optNThreads, threads, rfl⟩

/-! ### Runs of options -/

/-- `parse_arg` handles an option. -/
def Handles (build : Build) (sysconf : Nat → Int) (world : World) (s : Settings) (option : Key × CString)
    (s' : Settings) : Prop := parseArg build sysconf world option.1 option.2 s = some s'

/-- One option after the other is handled. -/
abbrev OptionRun (build : Build) (sysconf : Nat → Int) (world : World) : Settings → Settings → Prop :=
  Transition.Run (Handles build sysconf world) Transition.anyStep

variable {start s s' : Settings}

theorem parseConfigFrom_run {config : ConfigFile} {entries : List LongOption}
    (run : OptionRun build sysconf world start s)
    (handled : parseConfigFrom build sysconf world config entries s = some s') :
    OptionRun build sysconf world start s' := by
  fun_induction parseConfigFrom build sysconf world config entries s with
  | case1 s =>
      obtain rfl := Option.some.inj handled
      exact run
  | case2 option rest s _ ih => exact ih run handled
  | case3 option rest s _ value _ _ _ ih =>
      obtain ⟨middle, first, later⟩ := Option.bind_eq_some_iff.mp handled
      exact ih middle (run.snoc (a := (option.val, value)) first trivial) later
  | case4 =>
      obtain rfl := Option.some.inj handled
      exact run
  | case5 option rest s _ _ _ ih =>
      obtain ⟨middle, first, later⟩ := Option.bind_eq_some_iff.mp handled
      exact ih middle (run.snoc (a := (option.val, _)) first trivial) later
  | case6 option rest s _ _ _ ih => exact ih run handled

theorem parseKeys_run {argv : List (Key × CString)} (run : OptionRun build sysconf world start s)
    (handled : parseKeys build sysconf world argv s = some s') : OptionRun build sysconf world start s' := by
  induction argv generalizing s with
  | nil =>
      obtain rfl := Option.some.inj handled
      exact run
  | cons first rest ih =>
      obtain ⟨middle, once, later⟩ := Option.bind_eq_some_iff.mp handled
      exact ih (run.snoc (a := first) once trivial) later

/-- The command line and the configuration file are a run of options. -/
theorem parseCmdline_run {argv : List (Key × CString)}
    (handled : parseCmdline build sysconf world argv s = some s') : OptionRun build sysconf world s s' := by
  obtain ⟨middle, keys, file⟩ := Option.bind_eq_some_iff.mp handled
  have run := parseKeys_run .refl keys
  unfold parseConfig at file
  split at file
  · obtain rfl := Option.some.inj file
    exact run
  · exact parseConfigFrom_run run file

end CpuMiner
