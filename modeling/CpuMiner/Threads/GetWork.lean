/-
Module: CpuMiner.Threads.GetWork
Layer: Threads
Purpose: `workio_get_work`: the reply is decoded into the unit that `calloc` has given, and again into the same unit
  when the reply is refused, until one is accepted or there were more than `opt_retries` failures. What a reply
  denotes is said without the unit it is written to (`Denotes`). `workioGetWork_iff` says that the unit that goes to
  the requester is what the first reply that denotes one denotes, whatever the replies before it have left in the
  buffer, and how many replies there were. The steps of `workio_thread` leave out what refused replies write;
  `workioGetWork_run` says that every call of `workio_get_work` is a run of these steps.
Imports: CpuMiner.Lib.Search, CpuMiner.Miner.Upstream, CpuMiner.Threads.Step, CpuMiner.Util.HexGrammar
Trusted boundary: human-reviewed spec (the transcription of the C code)
Main exports: getUpstreamWork, GetWork, workioGetWork, Denotes, denotes_of_digits, Denotes.unique,
  getUpstreamWork_iff, FirstDenoted, Fetched, State.AfterGetWork, workioGetWork_iff, workioGetWork_run
Open obligations: none
-/
import CpuMiner.Lib.Search
import CpuMiner.Miner.Upstream
import CpuMiner.Threads.Step
import CpuMiner.Util.HexGrammar

namespace CpuMiner

open Words

/-! ### The loop -/

/-- `get_upstream_work`, when `json_rpc_call` returns this: the work and `rc`. Without a result `work_decode` is
    called with `NULL`, in which `json_object_get` finds nothing, as in any value that is no object. -/
def getUpstreamWork (reply : Option Json) (work : Work) : Work × Bool :=
  match reply with
  | none => (work, false)
  | some val =>
      let decoded := workDecode ((val.objectGet "result").getD .other) work
      (decoded.work, decoded.error.isNone)

/-- The variables of the loop of `workio_get_work`, and how often it has called `get_upstream_work`. -/
structure GetWorkLoop where
  retWork : Work
  failures : Nat
  attempts : Nat

/-- How the loop is left: with a unit, or with none when it gives up. -/
structure GetWorkEnd where
  retWork : Option Work
  attempts : Nat

variable {n : Nat}

/-- One pass, with the reply to each call. -/
def getWorkBody (cfg : Config n) (replies : Nat → Option Json) (s : GetWorkLoop) : GetWorkLoop ⊕ GetWorkEnd :=
  let upstream := getUpstreamWork (replies s.attempts) s.retWork
  if upstream.2 then .inr { retWork := some upstream.1, attempts := s.attempts + 1 }
  else
    match cfg.tryAgain s.failures with
    | none => .inr { retWork := none, attempts := s.attempts + 1 }
    | some failures => .inl { retWork := upstream.1, failures, attempts := s.attempts + 1 }

/-- What `workio_get_work` returns, and the queue of the requester. When it returns false `workio_thread` stops. -/
structure GetWork where
  rc : Bool
  q : ThreadQ Work
  attempts : Nat

/-- `tq_push`, whose entry may not be allocated, and `free` of what is not pushed. -/
def pushOrFree (ent : Bool) (q : ThreadQ Work) (retWork : Work) : ThreadQ Work :=
  if ent then (q.push retWork).getD q else q

/-- What is pushed stands at the end of the queue, and nothing is pushed without an entry or on a frozen queue. -/
theorem pushOrFree_eq (ent : Bool) (q : ThreadQ Work) (retWork : Work) :
    pushOrFree ent q retWork = if ent = true ∧ q.frozen = false then { q with q := q.q ++ [retWork] } else q := by
  cases ent with
  | false => simp [pushOrFree]
  | true =>
      cases frozen : q.frozen with
      | false => simp [pushOrFree, ThreadQ.push, frozen]
      | true => simp [pushOrFree, ThreadQ.push, frozen]

/-- What follows the loop. -/
def GetWorkEnd.finish (ent : Bool) (q : ThreadQ Work) (left : GetWorkEnd) : GetWork :=
  match left.retWork with
  | none => { rc := false, q, attempts := left.attempts }
  | some retWork => { rc := true, q := pushOrFree ent q retWork, attempts := left.attempts }

/-- `workio_get_work`, for at most the given number of passes. -/
def workioGetWork (cfg : Config n) (calloc ent : Bool) (replies : Nat → Option Json) (q : ThreadQ Work)
    (passes : Nat) : Option GetWork :=
  if calloc then
    (Loop.run (getWorkBody cfg replies) passes { retWork := zeroWork, failures := 0, attempts := 0 }).map
      (GetWorkEnd.finish ent q)
  else some { rc := false, q, attempts := 0 }

/-! ### What a reply denotes -/

/-- The reply has a result, in which every field is a string that denotes the bytes of this unit; the hash of the
    unit is zero. -/
def Denotes (reply : Option Json) (work : Work) : Prop :=
  (∃ val result, reply = some val ∧ val.objectGet "result" = some result ∧
    ∀ field : Field, ∃ hexstr : CString, result.objectGet field.key = some (.string hexstr) ∧
      pairValues hexstr.bytes = some (work.bytes field)) ∧
  work.hash = fun _ => 0

/-- A result with digits in all fields, two for each byte, denotes the unit of the bytes they denote. -/
theorem denotes_of_digits {val result : Json} {hexstr : Field → CString} {work : Work}
    (found : val.objectGet "result" = some result)
    (fields : ∀ field : Field, result.objectGet field.key = some (.string (hexstr field)))
    (length : ∀ field, (hexstr field).bytes.length = 2 * field.size)
    (digits : ∀ field, ∀ c ∈ (hexstr field).bytes, Hex.isDigit c = true)
    (bytes : ∀ field, work.bytes field = Hex.denote (hexstr field).bytes) (hash : work.hash = fun _ => 0) :
    Denotes (some val) work := by
  refine ⟨⟨val, result, rfl, found, fun field => ⟨hexstr field, fields field, ?_⟩⟩, hash⟩
  rw [bytes field]
  exact pairValues_digits (length field) (digits field)

/-! ### One reply -/

theorem jobjBinary_eq_iff (obj : Json) (key : String) (buflen : Nat) (bytes : List Byte) :
    jobjBinary obj key buflen = ⟨bytes, none⟩ ↔
      ∃ hexstr : CString, obj.objectGet key = some (.string hexstr) ∧
        pairValues hexstr.bytes = some bytes ∧ bytes.length = buflen := by
  constructor
  · intro accepted
    cases field : obj.objectGet key with
    | none => simp [jobjBinary, field] at accepted
    | some tmp =>
        cases tmp with
        | object member => simp [jobjBinary, field, Json.stringValue] at accepted
        | other => simp [jobjBinary, field, Json.stringValue] at accepted
        | string hexstr =>
            rw [jobjBinary_string field, JobjBinary.mk.injEq, Option.map_eq_none_iff] at accepted
            refine ⟨hexstr, rfl, (hex2bin_eq_iff _ _ _).mp ?_⟩
            rw [← accepted.1, ← accepted.2]
  · rintro ⟨hexstr, field, denoted⟩
    rw [jobjBinary_string field, (hex2bin_eq_iff _ _ _).mpr denoted]
    rfl

/-- A reply denotes at most one unit. -/
theorem Denotes.unique {reply : Option Json} {work work' : Work} (denoted : Denotes reply work)
    (denoted' : Denotes reply work') : work = work' := by
  obtain ⟨⟨val, result, rfl, found, fields⟩, hash⟩ := denoted
  obtain ⟨⟨val', result', same, found', fields'⟩, hash'⟩ := denoted'
  cases same
  rw [found] at found'
  cases found'
  refine Work.ext_bytes (fun field => ?_) (hash.trans hash'.symm)
  obtain ⟨hexstr, string, bytes⟩ := fields field
  obtain ⟨hexstr', string', bytes'⟩ := fields' field
  rw [string] at string'
  cases string'
  exact Option.some.inj (bytes.symm.trans bytes')

/-- When no field is refused, `work_decode` accepts. -/
private theorem decodeFields_error {val : Json} {fields : List Field}
    (fine : ∀ field ∈ fields, (jobjBinary val field.key field.size).error = none) (work : Work) :
    (decodeFields val fields work).error = none := by
  induction fields generalizing work with
  | nil => rfl
  | cons first fields ih =>
      simp only [decodeFields, fine first List.mem_cons_self]
      exact ih (fun field later => fine field (List.mem_cons_of_mem _ later)) _

/-- `work_decode` accepts a result, and leaves this unit, if every field of the result is a string that denotes its
    field of the unit. -/
theorem workDecode_eq_iff (val : Json) (before work : Work) :
    workDecode val before = ⟨work, none⟩ ↔
      (∀ field : Field, ∃ hexstr : CString, val.objectGet field.key = some (.string hexstr) ∧
        pairValues hexstr.bytes = some (work.bytes field)) ∧
      work.hash = fun _ => 0 := by
  constructor
  · intro accepted
    obtain ⟨fields, hash⟩ := workDecode_accepted (congrArg WorkDecode.error accepted)
    rw [accepted] at fields hash
    refine ⟨fun field => ?_, hash⟩
    obtain ⟨hexstr, string, denoted, _⟩ := (jobjBinary_eq_iff _ _ _ _).mp (fields field)
    exact ⟨hexstr, string, denoted⟩
  · rintro ⟨fields, hash⟩
    have binary : ∀ field : Field, jobjBinary val field.key field.size = ⟨work.bytes field, none⟩ := by
      intro field
      obtain ⟨hexstr, string, denoted⟩ := fields field
      exact (jobjBinary_eq_iff _ _ _ _).mpr ⟨hexstr, string, denoted, work.length_bytes field⟩
    have accepted : (workDecode val before).error = none :=
      decodeFields_error (fun field _ => congrArg JobjBinary.error (binary field)) before
    obtain ⟨decoded, cleared⟩ := workDecode_accepted accepted
    have same : (workDecode val before).work = work :=
      Work.ext_bytes (fun field => congrArg JobjBinary.written ((decoded field).symm.trans (binary field)))
        (cleared.trans hash.symm)
    rw [← same, ← accepted]

/-- `get_upstream_work` returns true, and leaves this unit, if the reply denotes it. What was in the buffer does not
    matter. -/
theorem getUpstreamWork_iff (reply : Option Json) (before work : Work) :
    getUpstreamWork reply before = (work, true) ↔ Denotes reply work := by
  cases reply with
  | none => simp [getUpstreamWork, Denotes]
  | some val =>
      have decoded : getUpstreamWork (some val) before = (work, true) ↔
          workDecode ((val.objectGet "result").getD .other) before = ⟨work, none⟩ := by
        rw [getUpstreamWork, Prod.mk.injEq, Option.isNone_iff_eq_none]
        constructor
        · rintro ⟨left, accepted⟩
          rw [← left, ← accepted]
        · intro accepted
          rw [accepted]
          exact ⟨rfl, rfl⟩
      rw [decoded, workDecode_eq_iff, Denotes]
      refine and_congr_left fun _ => ?_
      constructor
      · intro fields
        cases found : val.objectGet "result" with
        | none =>
            obtain ⟨hexstr, string, _⟩ := fields .data
            rw [found] at string
            cases string
        | some result =>
            rw [found] at fields
            exact ⟨val, result, rfl, found, fields⟩
      · rintro ⟨val', result, same, found, fields⟩
        cases same
        rw [found]
        exact fields

/-! ### All replies -/

/-- What the decoding of reply `k` gives, in a buffer of its own. -/
def fetchPick (replies : Nat → Option Json) (k : Nat) : Option Work :=
  let upstream := getUpstreamWork (replies k) zeroWork
  if upstream.2 then some upstream.1 else none

/-- Reply `k` is one failure too many. -/
def fetchStop (cfg : Config n) (k : Nat) : Bool := decide (0 ≤ cfg.optRetries ∧ cfg.optRetries < (k + 1 : Nat))

theorem fetchPick_eq_some {replies : Nat → Option Json} {k : Nat} {work : Work} :
    fetchPick replies k = some work ↔ Denotes (replies k) work := by
  rw [← getUpstreamWork_iff (replies k) zeroWork work, fetchPick, Prod.ext_iff]
  split <;> simp_all

theorem fetchPick_eq_none {replies : Nat → Option Json} {k : Nat} :
    fetchPick replies k = none ↔ ∀ work, ¬ Denotes (replies k) work := by
  rw [Option.eq_none_iff_forall_ne_some]
  exact forall_congr' fun work => not_congr fetchPick_eq_some

/-- Such a reply is refused with any buffer. -/
private theorem getUpstreamWork_refused {reply : Option Json} (nothing : ∀ work, ¬ Denotes reply work)
    (before : Work) : (getUpstreamWork reply before).2 = false := by
  by_contra accepted
  exact nothing _ ((getUpstreamWork_iff reply before _).mp
    (Prod.ext rfl (Bool.eq_true_of_not_eq_false accepted)))

/-- The variables at the start of pass `k`. The unit may hold anything. -/
structure GetWorkAt (cfg : Config n) (k : Nat) (s : GetWorkLoop) : Prop where
  attempts : s.attempts = k
  failures : 0 ≤ cfg.optRetries → s.failures = k

/-- How the loop is left when the search ends. -/
def fetchResult : Search.Outcome Work → GetWorkEnd
  | .found k work => { retWork := some work, attempts := k + 1 }
  | .exhausted k => { retWork := none, attempts := k + 1 }

/-- The loop looks for the first reply that denotes a unit. -/
theorem getWork_simulates (cfg : Config n) (replies : Nat → Option Json) :
    Search.Simulates (getWorkBody cfg replies) (fetchPick replies) (fetchStop cfg) (GetWorkAt cfg)
      (fun o out => out = fetchResult o) where
  picks k s work here picked := by
    have decoded := (getUpstreamWork_iff (replies k) s.retWork work).mpr (fetchPick_eq_some.mp picked)
    refine ⟨_, ?_, rfl⟩
    rw [getWorkBody, here.attempts, decoded]
    rfl
  stops k s here nothing stopped := by
    obtain ⟨limited, many⟩ := of_decide_eq_true stopped
    have refused := getUpstreamWork_refused (fetchPick_eq_none.mp nothing) s.retWork
    have last : cfg.tryAgain s.failures = none := by
      rw [Config.tryAgain, if_neg (not_lt.mpr limited), here.failures limited, if_pos many]
    refine ⟨_, ?_, rfl⟩
    simp only [getWorkBody, here.attempts, refused, last]
    rfl
  goesOn k s here nothing goOn := by
    have within : ¬ (0 ≤ cfg.optRetries ∧ cfg.optRetries < (k + 1 : Nat)) := of_decide_eq_false goOn
    have refused := getUpstreamWork_refused (fetchPick_eq_none.mp nothing) s.retWork
    obtain ⟨failures, again, counted⟩ : ∃ failures, cfg.tryAgain s.failures = some failures ∧
        (0 ≤ cfg.optRetries → failures = k + 1) := by
      by_cases unlimited : cfg.optRetries < 0
      · exact ⟨s.failures, if_pos unlimited, fun limited => absurd unlimited (not_lt.mpr limited)⟩
      · have limited := not_lt.mp unlimited
        refine ⟨k + 1, ?_, fun _ => rfl⟩
        rw [Config.tryAgain, if_neg unlimited, here.failures limited, if_neg fun many => within ⟨limited, many⟩]
    refine ⟨{ retWork := (getUpstreamWork (replies k) s.retWork).1, failures, attempts := k + 1 }, ?_, rfl, counted⟩
    simp only [getWorkBody, here.attempts, refused, again]
    rfl

/-- Reply `k` denotes this unit, and those before it denote none. -/
def FirstDenoted (replies : Nat → Option Json) (k : Nat) (work : Work) : Prop :=
  Denotes (replies k) work ∧ ∀ j, j < k → ∀ other, ¬ Denotes (replies j) other

/-- How `workio_get_work` ends with these replies. -/
inductive Fetched (cfg : Config n) (ent : Bool) (replies : Nat → Option Json) (q : ThreadQ Work) :
    Bool → GetWork → Prop where
  | noMemory : Fetched cfg ent replies q false { rc := false, q, attempts := 0 }
  /-- The first reply that denotes a unit was the one number `k + 1`. The unit goes to the end of the queue, but not
      when there is no memory for the entry or the requester has frozen the queue. -/
  | pushes {k : Nat} {work : Work} : FirstDenoted replies k work → (0 ≤ cfg.optRetries → (k : Int) ≤ cfg.optRetries) →
      Fetched cfg ent replies q true
        { rc := true
          q := if ent = true ∧ q.frozen = false then { q with q := q.q ++ [work] } else q
          attempts := k + 1 }
  /-- The first `opt_retries + 1` replies denote no unit. -/
  | stops {retries : Nat} : cfg.optRetries = retries → (∀ j, j ≤ retries → ∀ other, ¬ Denotes (replies j) other) →
      Fetched cfg ent replies q true { rc := false, q, attempts := retries + 1 }

/-- The loop is left with nothing exactly when the first `opt_retries + 1` replies denote nothing. -/
private theorem fetch_exhausted_iff {cfg : Config n} {replies : Nat → Option Json} {k : Nat} :
    Search.Ends (fetchPick replies) (fetchStop cfg) (.exhausted k) ↔
      cfg.optRetries = k ∧ ∀ j, j ≤ k → ∀ other, ¬ Denotes (replies j) other := by
  constructor
  · rintro (_ | ⟨isOpen, nothing, stopped⟩)
    obtain ⟨limited, many⟩ := of_decide_eq_true stopped
    have enough : (k : Int) ≤ cfg.optRetries := by
      by_contra more
      have earlier : k - 1 < k := by omega
      have goOn := of_decide_eq_false (isOpen (k - 1) earlier).2
      omega
    refine ⟨by omega, fun j le => ?_⟩
    rcases Nat.lt_or_eq_of_le le with before | rfl
    · exact fetchPick_eq_none.mp (isOpen j before).1
    · exact fetchPick_eq_none.mp nothing
  · rintro ⟨retries, nothing⟩
    refine .exhausted (fun j before => ⟨fetchPick_eq_none.mpr (nothing j (by omega)), ?_⟩)
      (fetchPick_eq_none.mpr (nothing k le_rfl)) ?_
    · exact decide_eq_false (by omega)
    · exact decide_eq_true (by omega)

private theorem fetch_found_iff {cfg : Config n} {replies : Nat → Option Json} {k : Nat} {work : Work} :
    Search.Ends (fetchPick replies) (fetchStop cfg) (.found k work) ↔
      FirstDenoted replies k work ∧ (0 ≤ cfg.optRetries → (k : Int) ≤ cfg.optRetries) := by
  constructor
  · rintro (⟨isOpen, picked⟩ | _)
    refine ⟨⟨fetchPick_eq_some.mp picked, fun j before => fetchPick_eq_none.mp (isOpen j before).1⟩, fun limited => ?_⟩
    by_contra more
    have earlier : k - 1 < k := by omega
    have goOn := of_decide_eq_false (isOpen (k - 1) earlier).2
    omega
  · rintro ⟨⟨denoted, nothing⟩, enough⟩
    refine .found (fun j before => ⟨fetchPick_eq_none.mpr (nothing j before), ?_⟩) (fetchPick_eq_some.mpr denoted)
    exact decide_eq_false (by omega)

/-- The ways in which the loop can be left. -/
private theorem getWork_returns_iff {cfg : Config n} {replies : Nat → Option Json} {out : GetWorkEnd} :
    Loop.Returns (getWorkBody cfg replies) { retWork := zeroWork, failures := 0, attempts := 0 } out ↔
      ∃ o, Search.Ends (fetchPick replies) (fetchStop cfg) o ∧ out = fetchResult o := by
  have start : GetWorkAt cfg 0 { retWork := zeroWork, failures := 0, attempts := 0 } := ⟨rfl, fun _ => rfl⟩
  constructor
  · exact (getWork_simulates cfg replies).ends_of_returns start
  · rintro ⟨o, ends, rfl⟩
    obtain ⟨r, returns, rfl⟩ := (getWork_simulates cfg replies).returns_of_ends start ends
    exact returns

/-- The ways in which `workio_get_work` can return. -/
private theorem workioGetWork_returns_iff {cfg : Config n} {calloc ent : Bool} {replies : Nat → Option Json}
    {q : ThreadQ Work} {out : GetWork} :
    (∃ passes, workioGetWork cfg calloc ent replies q passes = some out) ↔
      Fetched cfg ent replies q calloc out := by
  cases calloc with
  | false =>
      constructor
      · rintro ⟨_, returned⟩
        cases Option.some.inj returned
        exact .noMemory
      · rintro ⟨⟩
        exact ⟨0, rfl⟩
  | true =>
      constructor
      · rintro ⟨passes, returned⟩
        obtain ⟨left, run, rfl⟩ := Option.map_eq_some_iff.mp returned
        obtain ⟨o, ends, rfl⟩ := getWork_returns_iff.mp ⟨passes, run⟩
        cases o with
        | found k work =>
            obtain ⟨first, enough⟩ := fetch_found_iff.mp ends
            simp only [fetchResult, GetWorkEnd.finish, pushOrFree_eq]
            exact .pushes first enough
        | exhausted k =>
            obtain ⟨retries, nothing⟩ := fetch_exhausted_iff.mp ends
            exact .stops retries nothing
      · intro fetched
        suffices left : ∃ o, Search.Ends (fetchPick replies) (fetchStop cfg) o ∧ (fetchResult o).finish ent q = out by
          obtain ⟨o, ends, rfl⟩ := left
          obtain ⟨passes, run⟩ := getWork_returns_iff.mpr ⟨o, ends, rfl⟩
          exact ⟨passes, congrArg (Option.map (GetWorkEnd.finish ent q)) run⟩
        cases fetched with
        | @pushes k work first enough =>
            refine ⟨.found k work, fetch_found_iff.mpr ⟨first, enough⟩, ?_⟩
            simp only [fetchResult, GetWorkEnd.finish, pushOrFree_eq]
        | @stops retries limit nothing => exact ⟨.exhausted retries, fetch_exhausted_iff.mpr ⟨limit, nothing⟩, rfl⟩

/-! ### In the program -/

/-- The queue of a miner, with the works of its entries. -/
def ThreadQ.works (tq : ThreadQ (Reply n)) : ThreadQ Work where
  q := tq.q.map (·.unit.work)
  frozen := tq.frozen

theorem ThreadQ.works_push (tq : ThreadQ (Reply n)) (reply : Reply n) :
    tq.works.push reply.unit.work = (tq.push reply).map ThreadQ.works := by
  cases frozen : tq.frozen with
  | true => simp [push, works, frozen]
  | false => simp [push, works, frozen]

/-- Some steps of `workio_thread`, while no other thread makes one. -/
abbrev WorkioRun (cfg : Config n) : State n → State n → Prop :=
  Transition.Run (WorkioStep cfg) Transition.anyStep

/-- Where `workio_thread` is when the loop of `workio_get_work` is left. -/
inductive FetchLeft (request : Request n) (s : State n) : Option Work → Prop where
  | nothing : s.workio = .stopping (some (.getWork request)) → FetchLeft request s none
  | work {reply : Reply n} {work : Work} : s.workio = .replying reply → reply.unit.request = request →
      reply.unit.work = work → FetchLeft request s (some work)

/-- The loop of `workio_get_work` is a run of `workio_thread`, from any call of `get_upstream_work` on. -/
private theorem getWorkBody_run {cfg : Config n} {replies : Nat → Option Json} {request : Request n} {a : Addr}
    {s₀ : State n} {left : GetWorkEnd} (passes : Nat) :
    ∀ {s : State n} {loop : GetWorkLoop}, WorkioRun cfg s₀ s →
      s.workio = .fetching { request, retWork := a, failures := loop.failures } →
      Loop.run (getWorkBody cfg replies) passes loop = some left →
      ∃ s', WorkioRun cfg s₀ s' ∧ s'.minerQ = s.minerQ ∧ FetchLeft request s' left.retWork := by
  induction passes with
  | zero =>
      intro s loop _ _ returned
      cases returned
  | succ passes ih =>
      intro s loop run pc returned
      cases accepted : (getUpstreamWork (replies loop.attempts) loop.retWork).2 with
      | true =>
          have body : getWorkBody cfg replies loop = .inr
              { retWork := some (getUpstreamWork (replies loop.attempts) loop.retWork).1,
                attempts := loop.attempts + 1 } := by
            simp only [getWorkBody, accepted, if_true]
          rw [Loop.run_inr _ body] at returned
          obtain rfl := Option.some.inj returned
          have denoted := (getUpstreamWork_iff _ loop.retWork _).mp (Prod.ext rfl accepted)
          have decoding := run.snoc (.reply _ pc) trivial
          have replying := decoding.snoc (.decode _ _ _ rfl denoted.2) trivial
          exact ⟨_, replying, rfl, .work rfl rfl rfl⟩
      | false =>
          cases again : cfg.tryAgain loop.failures with
          | none =>
              have body : getWorkBody cfg replies loop =
                  .inr { retWork := none, attempts := loop.attempts + 1 } := by
                simp only [getWorkBody, accepted, again, Bool.false_eq_true, if_false]
              rw [Loop.run_inr _ body] at returned
              obtain rfl := Option.some.inj returned
              exact ⟨_, run.snoc (.fetchEnds _ (.inl pc) again) trivial, rfl, .nothing rfl⟩
          | some failures =>
              have body : getWorkBody cfg replies loop = .inl
                  { retWork := (getUpstreamWork (replies loop.attempts) loop.retWork).1, failures,
                    attempts := loop.attempts + 1 } := by
                simp only [getWorkBody, accepted, again, Bool.false_eq_true, if_false]
              rw [Loop.run_inl _ body] at returned
              have fetching := run.snoc (.fetchAgain _ failures (.inl pc) again) trivial
              obtain ⟨s', there, minerQ, fetchLeft⟩ := ih fetching rfl returned
              exact ⟨s', there, minerQ, fetchLeft⟩

/-- `tq_push` in `workio_get_work`, with or without memory for the entry. -/
private theorem pushOrFree_run {cfg : Config n} {s₀ s : State n} {reply : Reply n} (run : WorkioRun cfg s₀ s)
    (pc : s.workio = .replying reply) (ent : Bool) :
    ∃ s', WorkioRun cfg s₀ s' ∧ s'.workio = .popping .entering ∧
      (s'.minerQ reply.unit.request.thr).works =
        pushOrFree ent (s.minerQ reply.unit.request.thr).works reply.unit.work := by
  cases ent with
  | false => exact ⟨_, run.snoc (.replyNoMemory reply pc) trivial, rfl, rfl⟩
  | true =>
      rw [pushOrFree, if_pos rfl, ThreadQ.works_push]
      cases pushed : (s.minerQ reply.unit.request.thr).push reply with
      | none =>
          refine ⟨_, run.snoc (.replyRefused reply pc pushed) trivial, rfl, ?_⟩
          exact congrArg ThreadQ.works (Function.update_self ..)
      | some q =>
          refine ⟨_, run.snoc (.sendReply reply q pc pushed) trivial, rfl, ?_⟩
          exact congrArg ThreadQ.works (Function.update_self ..)

/-- Where `workio_thread` is after a call of `workio_get_work`: it goes on to the next command, or it has left its loop
    and ends with the next step. -/
def State.AfterGetWork (cfg : Config n) (request : Request n) (s : State n) : Bool → Prop
  | true => s.workio = .popping .entering
  | false => s.workio = .stopping (some (.getWork request)) ∧
      ∀ a s', WorkioStep cfg s a s' → s'.workio = .done

/-- Outside its loop `workio_thread` can only end. -/
private theorem WorkioStep.done_of_stopping {cfg : Config n} {s s' : State n} {cmd : Option (WorkioCmd n)}
    (pc : s.workio = .stopping cmd) {a : WorkioAction} (step : WorkioStep cfg s a s') : s'.workio = .done := by
  cases step with
  | stop _ _ => rfl
  | fetchAgain _ _ calls _ | fetchEnds _ calls _ =>
      rcases calls with there | ⟨_, there⟩ <;> cases pc.symm.trans there
  | start there | startFails there | takeGetWork _ _ _ there _ | takeSubmitWork _ _ _ _ _ there _ | sleep there _
  | wakeEmpty _ there _ | noMemory _ there | allocate _ _ there _ | reply _ there | replyNamesPath _ there _
  | announce _ _ _ there _ | announceRefused _ _ there _ | announceNoMemory _ _ there | decode _ _ _ there _
  | sendReply _ _ there _ | replyRefused _ there _ | replyNoMemory _ there | post _ _ _ _ there
  | postAgain _ _ _ _ _ _ there _ | postEnds _ _ _ _ _ there _ =>
      cases pc.symm.trans there

/-- A call of `workio_get_work` as a run of `workio_thread`. -/
private theorem getWork_run {cfg : Config n} {s : State n} {request : Request n} {a : Addr}
    (pc : s.workio = .allocating request) (fresh : s.allocated a = false) {calloc ent : Bool}
    {replies : Nat → Option Json} {passes : Nat} {out : GetWork}
    (returned : workioGetWork cfg calloc ent replies (s.minerQ request.thr).works passes = some out) :
    ∃ s', WorkioRun cfg s s' ∧ (s'.minerQ request.thr).works = out.q ∧ s'.AfterGetWork cfg request out.rc := by
  cases calloc with
  | false =>
      obtain rfl := Option.some.inj returned
      refine ⟨_, Transition.Run.refl.snoc (.noMemory request pc) trivial, rfl, rfl, fun _ _ step => ?_⟩
      exact step.done_of_stopping rfl
  | true =>
      obtain ⟨left, run, rfl⟩ := Option.map_eq_some_iff.mp returned
      have allocated : WorkioRun cfg s _ := Transition.Run.refl.snoc (.allocate request a pc fresh) trivial
      obtain ⟨s', there, minerQ, fetchLeft⟩ := getWorkBody_run passes allocated rfl run
      obtain ⟨retWork, attempts⟩ := left
      cases fetchLeft with
      | nothing stopping =>
          exact ⟨s', there, by rw [minerQ]; rfl, stopping, fun _ _ step => step.done_of_stopping stopping⟩
      | @work reply work replying same carried =>
          obtain ⟨s'', pushed, popping, works⟩ := pushOrFree_run there replying ent
          rw [same, minerQ, carried] at works
          exact ⟨s'', pushed, works, popping⟩

/-- The first request of the only miner. -/
def firstRequest : Request 1 where
  thr := ⟨0, Nat.zero_lt_one⟩
  number := 0

/-- The first state, with this request taken. -/
def exampleCall : State 1 := { exampleState with workio := .allocating firstRequest }

/-- `workio_get_work` pushes the unit of the first reply that denotes one, and the number of its calls is the place of
    that reply; it gives up when the first `opt_retries + 1` replies denote nothing; and it does not come to an end in
    any other way. Of what the refused replies have written nothing is left. In the program `workio_thread` goes on
    after a push, and stops when the call gives up. -/
theorem workioGetWork_iff (cfg : Config n) (calloc ent : Bool) (replies : Nat → Option Json) (q : ThreadQ Work)
    (out : GetWork) :
    ((∃ passes, workioGetWork cfg calloc ent replies q passes = some out) ↔
      Fetched cfg ent replies q calloc out) ∧
    (Fetched cfg ent replies q calloc out → ∀ (s : State n) (request : Request n) (a : Addr),
      s.workio = .allocating request → s.allocated a = false → (s.minerQ request.thr).works = q →
      ∃ s', WorkioRun cfg s s' ∧ (s'.minerQ request.thr).works = out.q ∧ s'.AfterGetWork cfg request out.rc) := by
  refine ⟨workioGetWork_returns_iff, ?_⟩
  rintro fetched s request a pc fresh rfl
  obtain ⟨passes, returned⟩ := workioGetWork_returns_iff.mpr fetched
  exact getWork_run pc fresh returned

/-- Two replies that fail, and one retry: the call gives up, and the thread stops. -/
theorem workioGetWork_iff_givesUp :
    ∃ s', WorkioRun { exampleConfig with optRetries := 1 } exampleCall s' ∧
      (s'.minerQ firstRequest.thr).works = (exampleCall.minerQ firstRequest.thr).works ∧
      s'.AfterGetWork { exampleConfig with optRetries := 1 } firstRequest false := by
  obtain ⟨returns, runs⟩ := workioGetWork_iff { exampleConfig with optRetries := 1 } true true (fun _ => none)
    (exampleCall.minerQ firstRequest.thr).works
    { rc := false, q := (exampleCall.minerQ firstRequest.thr).works, attempts := 2 }
  exact runs (returns.mp ⟨2, rfl⟩) exampleCall firstRequest 0 rfl rfl rfl

end CpuMiner
