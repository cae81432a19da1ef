/-
Module: CpuMiner.Lib.Outbox
Layer: Library
Purpose: A sender with a queue of items. It takes the items in their order and attempts to send each one until it
  gets a reply; with a limit on the retries it abandons an item after too many failures and stops. What is accepted
  is at every time what is replied, then the one item that is being sent or was abandoned, then what waits; an item is
  not attempted after its reply, nor more often than the limit says, and a stopped sender attempts nothing.
Imports: Mathlib.Data.List.Nodup
Trusted boundary: none
Main exports: Event, State, State.current, Step, Inv, Inv.step, Step.stopped
Open obligations: none
-/
import Mathlib.Data.List.Nodup

namespace Outbox

variable {α ν : Type}

/-- What the other side sees: an attempt, with what was sent if anything was, and a reply. -/
inductive Event (α ν : Type) where
  | attempt (item : α) (sent : Option ν)
  | reply (item : α)

namespace Event

def replied? : Event α ν → Option α
  | attempt _ _ => none
  | reply item => some item

def attempts [DecidableEq α] (x : α) : Event α ν → Bool
  | attempt item _ => item = x
  | reply _ => false

end Event

/-- The items that have a reply, in the order of the replies. -/
def replied (log : List (Event α ν)) : List α := log.filterMap Event.replied?

/-- How often an item was attempted. -/
def attempts [DecidableEq α] (log : List (Event α ν)) (x : α) : Nat := log.countP (Event.attempts x)

/-- No item is attempted after its reply. -/
def AttemptedBeforeReply (log : List (Event α ν)) : Prop :=
  log.Pairwise fun event later => ∀ x, event = .reply x → ∀ sent, later ≠ .attempt x sent

structure State (α ν : Type) where
  accepted : List α
  waiting : List α
  /-- the item that is being sent, and how often that has failed -/
  trying : Option (α × Nat)
  abandoned : List α
  stopped : Bool
  log : List (Event α ν)

/-- What is between the replied items and the waiting ones. -/
def State.current (s : State α ν) : List α := (s.trying.map Prod.fst).toList ++ s.abandoned

/-- The steps of a sender that encodes its items in this way and, with a limit, retries so often. -/
inductive Step (encode : α → ν) (limit : Option Nat) (s : State α ν) : State α ν → Prop where
  | accept (x : α) (fresh : x ∉ s.accepted) :
      Step encode limit s { s with accepted := s.accepted ++ [x], waiting := s.waiting ++ [x] }
  | take (x : α) (rest : List α) (idle : s.trying = none) (running : s.stopped = false)
      (first : s.waiting = x :: rest) :
      Step encode limit s { s with waiting := rest, trying := some (x, 0) }
  | retry (x : α) (f f' : Nat) (sent : Option ν) (trying : s.trying = some (x, f))
      (honest : ∀ v, sent = some v → v = encode x)
      (more : ∀ r, limit = some r → f' = f + 1 ∧ f + 1 ≤ r) :
      Step encode limit s { s with trying := some (x, f'), log := s.log ++ [.attempt x sent] }
  | succeed (x : α) (f : Nat) (trying : s.trying = some (x, f)) :
      Step encode limit s
        { s with trying := none, log := s.log ++ [.attempt x (some (encode x)), .reply x] }
  | abandon (x : α) (f r : Nat) (sent : Option ν) (trying : s.trying = some (x, f))
      (honest : ∀ v, sent = some v → v = encode x) (last : limit = some r ∧ r < f + 1) :
      Step encode limit s
        { s with trying := none, abandoned := s.abandoned ++ [x], stopped := true,
                 log := s.log ++ [.attempt x sent] }
  | stop (idle : s.trying = none) : Step encode limit s { s with stopped := true }

/-- What holds of a sender at every time. -/
structure Inv [DecidableEq α] (encode : α → ν) (limit : Option Nat) (s : State α ν) : Prop where
  inOrder : s.accepted = replied s.log ++ s.current ++ s.waiting
  atMostOne : s.current.length ≤ 1
  distinct : s.accepted.Nodup
  idle : s.stopped = true → s.trying = none
  stopped : s.abandoned ≠ [] → s.stopped = true
  honest : ∀ x v, Event.attempt x (some v) ∈ s.log → v = encode x
  attempted : ∀ x sent, Event.attempt x sent ∈ s.log → x ∈ replied s.log ++ s.current
  noMore : AttemptedBeforeReply s.log
  counted : ∀ r, limit = some r → ∀ x f, s.trying = some (x, f) → attempts s.log x = f ∧ f ≤ r
  bounded : ∀ r, limit = some r → ∀ x, attempts s.log x ≤ r + 1
  exhausted : ∀ x ∈ s.abandoned, ∃ r, limit = some r ∧ attempts s.log x = r + 1

variable {encode : α → ν} {limit : Option Nat} {s s' : State α ν}

/-! ### The log -/

@[simp] theorem replied_append (log more : List (Event α ν)) :
    replied (log ++ more) = replied log ++ replied more := List.filterMap_append

@[simp] theorem replied_attempt (x : α) (sent : Option ν) (more : List (Event α ν)) :
    replied (.attempt x sent :: more) = replied more := rfl

@[simp] theorem replied_reply (x : α) (more : List (Event α ν)) :
    replied (.reply x :: more) = x :: replied more := rfl

@[simp] theorem replied_nil : replied ([] : List (Event α ν)) = [] := rfl

theorem mem_replied {log : List (Event α ν)} {x : α} (mem : Event.reply x ∈ log) : x ∈ replied log :=
  List.mem_filterMap.mpr ⟨_, mem, rfl⟩

section

variable [DecidableEq α]

@[simp] theorem attempts_append (log more : List (Event α ν)) (x : α) :
    attempts (log ++ more) x = attempts log x + attempts more x := List.countP_append ..

@[simp] theorem attempts_attempt (x y : α) (sent : Option ν) (more : List (Event α ν)) :
    attempts (.attempt y sent :: more) x = attempts more x + if y = x then 1 else 0 := by
  simp [attempts, Event.attempts, List.countP_cons]

@[simp] theorem attempts_reply (x y : α) (more : List (Event α ν)) :
    attempts (.reply y :: more) x = attempts more x := by
  simp [attempts, Event.attempts]

@[simp] theorem attempts_nil (x : α) : attempts ([] : List (Event α ν)) x = 0 := rfl

theorem attempts_eq_zero {log : List (Event α ν)} {x : α}
    (never : ∀ sent, Event.attempt x sent ∉ log) : attempts log x = 0 := by
  refine List.countP_eq_zero.mpr ?_
  rintro (⟨y, sent⟩ | y) mem
  · simp only [Event.attempts, decide_eq_true_eq]
    rintro rfl
    exact never sent mem
  · simp [Event.attempts]

end

/-- An attempt of an item that has no reply yet may be added. -/
theorem AttemptedBeforeReply.attempt {log : List (Event α ν)} {x : α} {sent : Option ν}
    (noMore : AttemptedBeforeReply log) (unanswered : x ∉ replied log) :
    AttemptedBeforeReply (log ++ [.attempt x sent]) := by
  refine List.pairwise_append.mpr ⟨noMore, List.pairwise_singleton _ _, ?_⟩
  rintro event mem later last y rfl sent' rfl
  obtain ⟨rfl, _⟩ := Event.attempt.inj (List.mem_singleton.mp last)
  exact unanswered (mem_replied mem)

theorem AttemptedBeforeReply.reply {log : List (Event α ν)} {x : α}
    (noMore : AttemptedBeforeReply log) : AttemptedBeforeReply (log ++ [.reply x]) := by
  refine List.pairwise_append.mpr ⟨noMore, List.pairwise_singleton _ _, ?_⟩
  rintro event mem later last y _ sent' rfl
  cases List.mem_singleton.mp last

/-! ### The invariant -/

variable [DecidableEq α]

theorem Inv.init {s : State α ν} (accepted : s.accepted = []) (waiting : s.waiting = [])
    (trying : s.trying = none) (abandoned : s.abandoned = []) (log : s.log = []) :
    Inv encode limit s := by
  constructor <;> simp [accepted, waiting, trying, abandoned, log, State.current, AttemptedBeforeReply]

/-- The item that is being sent has no reply. -/
theorem Inv.unanswered (inv : Inv encode limit s) {x : α} {f : Nat} (trying : s.trying = some (x, f)) :
    x ∉ replied s.log := by
  have distinct := inv.distinct
  rw [inv.inOrder] at distinct
  have here : x ∈ s.current := by simp [State.current, trying]
  intro answered
  exact (List.nodup_append.mp (List.nodup_append.mp distinct).1).2.2 x answered x here rfl

/-- While an item is being sent, none is abandoned. -/
theorem Inv.none_abandoned (inv : Inv encode limit s) {x : α} {f : Nat}
    (trying : s.trying = some (x, f)) : s.abandoned = [] := by
  by_contra some
  have idle := inv.idle (inv.stopped some)
  rw [trying] at idle
  cases idle

/-- An item that waits was not attempted. -/
theorem Inv.attempts_waiting (inv : Inv encode limit s) {x : α} (waits : x ∈ s.waiting) :
    attempts s.log x = 0 := by
  refine attempts_eq_zero fun sent mem => ?_
  have distinct := inv.distinct
  rw [inv.inOrder] at distinct
  have earlier := inv.attempted x sent mem
  exact (List.nodup_append.mp distinct).2.2 x earlier x waits rfl

/-- The current items while one is being sent. -/
theorem Inv.current_eq (inv : Inv encode limit s) {x : α} {f : Nat} (trying : s.trying = some (x, f)) :
    s.current = [x] := by
  rw [State.current, trying, inv.none_abandoned trying]
  rfl

/-- A failed attempt of the item that is being sent may be added to the log. -/
theorem Inv.log_attempt (inv : Inv encode limit s) {x : α} {f : Nat} {sent : Option ν}
    (trying : s.trying = some (x, f)) (honest : ∀ v, sent = some v → v = encode x) :
    (∀ y v, Event.attempt y (some v) ∈ s.log ++ [.attempt x sent] → v = encode y) ∧
    (∀ y sent', Event.attempt y sent' ∈ s.log ++ [.attempt x sent] → y ∈ replied s.log ++ [x]) ∧
    AttemptedBeforeReply (s.log ++ [.attempt x sent]) ∧
    ∀ r, limit = some r → ∀ y, attempts (s.log ++ [.attempt x sent]) y ≤ r + 1 := by
  refine ⟨?_, ?_, inv.noMore.attempt (inv.unanswered trying), ?_⟩
  · intro y v mem
    rcases List.mem_append.mp mem with old | last
    · exact inv.honest y v old
    · obtain ⟨rfl, sent'⟩ := Event.attempt.inj (List.mem_singleton.mp last)
      exact honest v sent'.symm
  · intro y sent' mem
    rcases List.mem_append.mp mem with old | last
    · have earlier := inv.attempted y sent' old
      rwa [inv.current_eq trying] at earlier
    · obtain ⟨rfl, _⟩ := Event.attempt.inj (List.mem_singleton.mp last)
      exact List.mem_append_right _ (List.mem_singleton_self _)
  · intro r limited y
    by_cases same : x = y
    · subst same
      obtain ⟨count, few⟩ := inv.counted r limited x f trying
      simpa [count] using few
    · simpa [same] using inv.bounded r limited y

/-- Every step keeps the invariant. -/
theorem Inv.step (inv : Inv encode limit s) (step : Step encode limit s s') : Inv encode limit s' := by
  cases step with
  | accept x fresh =>
      refine { inv with inOrder := ?_, distinct := ?_ }
      · rw [inv.inOrder, List.append_assoc]
        rfl
      · exact List.nodup_append.mpr ⟨inv.distinct, List.nodup_singleton x, by
          rintro y mem z last rfl
          exact fresh (List.mem_singleton.mp last ▸ mem)⟩
  | take x rest idle running first =>
      have waits : x ∈ s.waiting := first ▸ List.mem_cons_self ..
      have none_abandoned : s.abandoned = [] := by
        by_contra some
        rw [inv.stopped some] at running
        cases running
      have current : s.current = [] := by
        rw [State.current, idle, none_abandoned]
        rfl
      refine { inv with inOrder := ?_, atMostOne := ?_, idle := ?_, attempted := ?_, counted := ?_ }
      · rw [inv.inOrder, current, first]
        simp [State.current, none_abandoned]
      · simp [State.current, none_abandoned]
      · intro stopped
        rw [running] at stopped
        cases stopped
      · intro y sent mem
        have earlier := inv.attempted y sent mem
        rw [current, List.append_nil] at earlier
        exact List.mem_append_left _ earlier
      · rintro r _ y f ⟨⟩
        exact ⟨inv.attempts_waiting waits, Nat.zero_le r⟩
  | retry x f f' sent trying honest more =>
      obtain ⟨honest', attempted, noMore, bounded⟩ := inv.log_attempt trying honest
      have none_abandoned := inv.none_abandoned trying
      refine { inv with inOrder := ?_, atMostOne := ?_, idle := ?_, honest := honest', attempted := ?_,
                        noMore := noMore, counted := ?_, bounded := bounded, exhausted := ?_ }
      · rw [inv.inOrder, inv.current_eq trying]
        simp [State.current, none_abandoned]
      · simp [State.current, none_abandoned]
      · intro stopped
        have idle := inv.idle stopped
        rw [trying] at idle
        cases idle
      · intro y sent' mem
        simpa [State.current, none_abandoned] using attempted y sent' mem
      · rintro r limited y g ⟨⟩
        obtain ⟨rfl, few⟩ := more r limited
        exact ⟨by simp [(inv.counted r limited x f trying).1], few⟩
      · simp [none_abandoned]
  | succeed x f trying =>
      obtain ⟨honest, attempted, noMore, bounded⟩ :=
        inv.log_attempt trying fun v (sent : some (encode x) = some v) => (Option.some.inj sent).symm
      have none_abandoned := inv.none_abandoned trying
      have split : s.log ++ [.attempt x (some (encode x)), .reply x] =
          s.log ++ [.attempt x (some (encode x))] ++ [.reply x] := by simp
      refine { inv with inOrder := ?_, atMostOne := ?_, idle := ?_, honest := ?_, attempted := ?_, noMore := ?_,
                        counted := ?_, bounded := ?_, exhausted := ?_ }
      · rw [inv.inOrder, inv.current_eq trying]
        simp [State.current, none_abandoned]
      · simp [State.current, none_abandoned]
      · intro _
        rfl
      · intro y v mem
        rw [split] at mem
        rcases List.mem_append.mp mem with old | last
        · exact honest y v old
        · cases List.mem_singleton.mp last
      · intro y sent mem
        rw [split] at mem
        rcases List.mem_append.mp mem with old | last
        · have earlier := attempted y sent old
          simpa [State.current, none_abandoned] using earlier
        · cases List.mem_singleton.mp last
      · rw [split]
        exact noMore.reply
      · rintro r _ y g ⟨⟩
      · intro r limited y
        rw [split, attempts_append]
        simpa using bounded r limited y
      · simp [none_abandoned]
  | abandon x f r sent trying honest last =>
      obtain ⟨honest', attempted, noMore, bounded⟩ := inv.log_attempt trying honest
      have none_abandoned := inv.none_abandoned trying
      refine { inv with inOrder := ?_, atMostOne := ?_, idle := ?_, stopped := ?_, honest := honest',
                        attempted := ?_, noMore := noMore, counted := ?_, bounded := bounded, exhausted := ?_ }
      · rw [inv.inOrder, inv.current_eq trying]
        simp [State.current, none_abandoned]
      · simp [State.current, none_abandoned]
      · intro _
        rfl
      · intro _
        rfl
      · intro y sent' mem
        simpa [State.current, none_abandoned] using attempted y sent' mem
      · rintro r' _ y g ⟨⟩
      · intro y mem
        simp only [none_abandoned, List.nil_append, List.mem_singleton] at mem
        subst mem
        obtain ⟨count, few⟩ := inv.counted r last.1 y f trying
        refine ⟨r, last.1, ?_⟩
        simp only [attempts_append, count, attempts_attempt, attempts_nil, if_true]
        omega
  | stop idle =>
      refine { inv with idle := fun _ => idle, stopped := fun _ => rfl }

omit [DecidableEq α] in
/-- A stopped sender attempts nothing more. -/
theorem Step.stopped (step : Step encode limit s s') (idle : s.trying = none)
    (stopped : s.stopped = true) : s'.stopped = true ∧ s'.trying = none ∧ s'.log = s.log := by
  cases step with
  | accept x fresh => exact ⟨stopped, idle, rfl⟩
  | take x rest _ running _ =>
      rw [running] at stopped
      cases stopped
  | retry x f f' sent trying _ _ | succeed x f trying | abandon x f r sent trying _ _ =>
      rw [trying] at idle
      cases idle
  | stop _ => exact ⟨rfl, idle, rfl⟩

end Outbox
