/-
Module: CpuMiner.Wire.HashtableRuns
Layer: JSON
Purpose: The hash table over a whole run of calls, against the table that the parser uses and the finite map that both
  are for. A call does on the memory what it does on the table, and on the table what it does on the map. No call leaves
  its memory, no answer is wrong, and nothing is left on the heap but the pairs of the map.
Imports: CpuMiner.Wire.HashtableOps
Trusted boundary: human-reviewed spec (`MapStep`, `MapRun` and `Holds`)
Main exports: Op, Output, step, run, tableRun, Fresh, MapStep, MapRun, Holds, run_table, run_map
Open obligations: none
-/
import CpuMiner.Wire.HashtableOps

namespace CpuMiner.Jansson.Hashtable

open Words
open Function (update)

/-- A call. Where a pair is needed `malloc` would give this one. -/
inductive Op (κ ν : Type) where
  | set (key : κ) (value : ν) (malloc : PairAddr)
  | get (key : κ)
  | del (key : κ)
  | clear
  | iter

/-- What a call gives back. -/
inductive Output (κ ν : Type) where
  | done
  | value (value : Option ν)
  | found (found : Bool)
  | pairs (pairs : List (κ × ν))
deriving DecidableEq

section

variable {κ ν : Type} [DecidableEq κ] (hash : κ → Word)

def step (m : Hashtable κ ν) : Op κ ν → Option (Hashtable κ ν × Output κ ν)
  | .set key value malloc => (hashtableSet hash m key value malloc).map fun m => (m, .done)
  | .get key => (hashtableGet hash m key).map fun value => (m, .value value)
  | .del key => (hashtableDel hash m key).map fun (m, found) => (m, .found found)
  | .clear => (hashtableClear m).map fun m => (m, .done)
  | .iter => (iterate m).map fun pairs => (m, .pairs pairs)

/-- The calls one after another, with all that they give back. -/
def run (m : Hashtable κ ν) : List (Op κ ν) → Option (Hashtable κ ν × List (Output κ ν))
  | [] => some (m, [])
  | op :: ops => do
      let (m, output) ← step hash m op
      let (m, outputs) ← run m ops
      return (m, output :: outputs)

/-- A call on the table. -/
def tableStep (t : Table κ ν) : Op κ ν → Table κ ν × Output κ ν
  | .set key value _ => (t.set hash key value, .done)
  | .get key => (t, .value (t.get key))
  | .del key => ((t.del key).1, .found (t.del key).2)
  | .clear => (t.clear, .done)
  | .iter => (t, .pairs t.pairs)

def tableRun (t : Table κ ν) : List (Op κ ν) → Table κ ν × List (Output κ ν)
  | [] => (t, [])
  | op :: ops =>
      let (t, output) := tableStep hash t op
      let (t, outputs) := tableRun t ops
      (t, output :: outputs)

/-- `malloc` gives places that are free when it is called. -/
def Fresh (m : Hashtable κ ν) : List (Op κ ν) → Prop
  | [] => True
  | op :: ops =>
      (∀ key value malloc, op = .set key value malloc → m.heap malloc = none) ∧
        ∀ m' output, step hash m op = some (m', output) → Fresh m' ops

variable {hash}

theorem fresh_cons {op : Op κ ν} {ops : List (Op κ ν)} {m : Hashtable κ ν} {result : Hashtable κ ν × Output κ ν}
    (steps : step hash m op = some result)
    (free : ∀ key value malloc, op = .set key value malloc → m.heap malloc = none) (rest : Fresh hash result.1 ops) :
    Fresh hash m (op :: ops) := by
  refine ⟨free, fun m' output again => ?_⟩
  obtain rfl := Option.some.inj (steps.symm.trans again)
  exact rest

end

variable {κ ν : Type}

/-- How many pairs are set. -/
def sets : List (Op κ ν) → Nat
  | [] => 0
  | .set .. :: ops => sets ops + 1
  | _ :: ops => sets ops

/-! ### The map -/

section

variable [DecidableEq κ]

/-- What a call does to a finite map, and gives back. The pairs are given in any order. -/
inductive MapStep (f : κ → Option ν) : Op κ ν → Output κ ν → (κ → Option ν) → Prop where
  | set (key : κ) (value : ν) (malloc : PairAddr) : MapStep f (.set key value malloc) .done (update f key (some value))
  | get (key : κ) : MapStep f (.get key) (.value (f key)) f
  | del (key : κ) : MapStep f (.del key) (.found (f key).isSome) (update f key none)
  | clear : MapStep f .clear .done fun _ => none
  | iter {pairs : List (κ × ν)} : (pairs.map Prod.fst).Nodup →
      (∀ key value, (key, value) ∈ pairs ↔ f key = some value) →
      MapStep f .iter (.pairs pairs) f

/-- A run of calls from one map to another. -/
inductive MapRun : (κ → Option ν) → List (Op κ ν) → List (Output κ ν) → (κ → Option ν) → Prop where
  | nil (f : κ → Option ν) : MapRun f [] [] f
  | cons {f f' f'' : κ → Option ν} {op : Op κ ν} {ops : List (Op κ ν)} {output : Output κ ν}
      {outputs : List (Output κ ν)} : MapStep f op output f' → MapRun f' ops outputs f'' →
      MapRun f (op :: ops) (output :: outputs) f''

end

/-- The heap has one more pair for each key of the map, with its value. Elsewhere it is as it was. -/
def Holds (hash : κ → Word) (before after : PairAddr → Option (Pair κ ν)) (f : κ → Option ν) : Prop :=
  ∃ (places : List PairAddr) (pairs : List (κ × ν)), places.Nodup ∧ (pairs.map Prod.fst).Nodup ∧
    (∀ key value, (key, value) ∈ pairs ↔ f key = some value) ∧
    (places.map after = pairs.map fun p => some (pairOf hash p)) ∧
    (∀ a ∈ places, before a = none) ∧ ∀ a, a ∉ places → after a = before a

/-! ### The memory and the table -/

variable {hash : κ → Word} {other : PairAddr → Option (Pair κ ν)} {m : Hashtable κ ν} {ents : List PairAddr}
  {t : Table κ ν} {f : κ → Option ν} [DecidableEq κ]

omit [DecidableEq κ] in
theorem sets_cons (op : Op κ ν) (ops : List (Op κ ν)) : sets (op :: ops) = sets [op] + sets ops := by
  cases op <;> simp only [sets] <;> omega

/-- A call does on the memory what it does on the table. -/
theorem step_represents (rep : Represents hash other m ents t) (wf : t.Wf) {op : Op κ ν}
    (few : t.pairs.length + sets [op] ≤ 1610612741)
    (fresh : ∀ key value malloc, op = .set key value malloc → m.heap malloc = none) :
    ∃ m' ents', step hash m op = some (m', (tableStep hash t op).2) ∧
      Represents hash other m' ents' (tableStep hash t op).1 := by
  cases op with
  | set key value malloc =>
      obtain ⟨m', ents', inserts, rep'⟩ := set_represents rep wf few (fresh key value malloc rfl) key value
      exact ⟨m', ents', by rw [step, inserts, Option.map_some, tableStep], rep'⟩
  | get key => exact ⟨m, ents, by rw [step, get_represents rep wf key, Option.map_some, tableStep], rep⟩
  | del key =>
      obtain ⟨m', ents', deletes, rep'⟩ := del_represents rep wf key
      exact ⟨m', ents', by rw [step, deletes, Option.map_some, tableStep], rep'⟩
  | clear =>
      obtain ⟨m', clears, rep'⟩ := clear_represents rep
      exact ⟨m', [], by rw [step, clears, Option.map_some, tableStep], rep'⟩
  | iter => exact ⟨m, ents, by rw [step, iterate_represents rep, Option.map_some, tableStep], rep⟩

theorem wf_tableStep (wf : t.Wf) (hash : κ → Word) (op : Op κ ν) : (tableStep hash t op).1.Wf := by
  cases op with
  | set key value _ => exact wf.set hash key value
  | get _ | iter => exact wf
  | del key => exact wf.del key
  | clear => exact List.nodup_nil

theorem length_tableStep (hash : κ → Word) (t : Table κ ν) (op : Op κ ν) :
    (tableStep hash t op).1.pairs.length ≤ t.pairs.length + sets [op] := by
  cases op with
  | set => exact Table.length_set_le
  | get | iter => exact Nat.le_refl _
  | del => exact List.length_filter_le _ _
  | clear => exact Nat.zero_le _

/-- The induction is on the calls, with any table at their beginning. -/
theorem run_represents (ops : List (Op κ ν)) :
    ∀ {m : Hashtable κ ν} {ents : List PairAddr} {t : Table κ ν}, Represents hash other m ents t → t.Wf →
      t.pairs.length + sets ops ≤ 1610612741 → Fresh hash m ops →
      ∃ m' ents', run hash m ops = some (m', (tableRun hash t ops).2) ∧
        Represents hash other m' ents' (tableRun hash t ops).1 := by
  induction ops with
  | nil => exact fun rep _ _ _ => ⟨_, _, rfl, rep⟩
  | cons op ops ih =>
      intro m ents t rep wf few fresh
      rw [sets_cons] at few
      have length := length_tableStep hash t op
      obtain ⟨m', ents', steps, rep'⟩ := step_represents rep wf (by omega) fresh.1
      obtain ⟨m'', ents'', runs, rep''⟩ := ih rep' (wf_tableStep wf hash op) (by omega) (fresh.2 m' _ steps)
      refine ⟨m'', ents'', ?_, rep''⟩
      simp only [run, tableRun, steps, runs, Option.bind_eq_bind, Option.bind_some, Option.pure_def]

/-! ### The table and the map -/

/-- The table has the values of the map. -/
structure Graph (t : Table κ ν) (f : κ → Option ν) : Prop where
  wf : t.Wf
  get : ∀ key, t.get key = f key

theorem Graph.mem_iff (graph : Graph t f) (key : κ) (value : ν) : (key, value) ∈ t.pairs ↔ f key = some value := by
  rw [← Table.get_eq_some graph.wf, graph.get]

/-- A call does on the table what it does on the map. -/
theorem tableStep_map (graph : Graph t f) (hash : κ → Word) (op : Op κ ν) :
    ∃ f', MapStep f op (tableStep hash t op).2 f' ∧ Graph (tableStep hash t op).1 f' := by
  have wf' := wf_tableStep graph.wf hash op
  cases op with
  | set key value malloc =>
      refine ⟨_, .set key value malloc, wf', fun key' => ?_⟩
      rw [tableStep, Table.get_set graph.wf, graph.get, Function.update_apply]
  | get key =>
      refine ⟨f, ?_, graph⟩
      rw [tableStep, graph.get]
      exact .get key
  | del key =>
      refine ⟨update f key none, ?_, wf', fun key' => ?_⟩
      · rw [tableStep, Table.found_del, graph.get]
        exact .del key
      · rw [tableStep, Table.get_del graph.wf, graph.get, Function.update_apply]
  | clear => exact ⟨_, .clear, wf', fun _ => rfl⟩
  | iter => exact ⟨f, .iter graph.wf graph.mem_iff, graph⟩

theorem tableRun_map (hash : κ → Word) (ops : List (Op κ ν)) :
    ∀ {t : Table κ ν} {f : κ → Option ν}, Graph t f →
      ∃ f', MapRun f ops (tableRun hash t ops).2 f' ∧ Graph (tableRun hash t ops).1 f' := by
  induction ops with
  | nil => exact fun graph => ⟨_, .nil _, graph⟩
  | cons op ops ih =>
      intro t f graph
      obtain ⟨f', step, graph'⟩ := tableStep_map graph hash op
      obtain ⟨f'', run, graph''⟩ := ih graph'
      exact ⟨f'', .cons step run, graph''⟩

/-! ### Runs -/

/-- A new hash table gives what the table of the parser gives, pairs in the same order, whatever the calls and the hash
function. -/
theorem run_table (m : Hashtable κ ν) {ops : List (Op κ ν)} (few : sets ops ≤ 1610612741)
    (fresh : Fresh hash (hashtableInit m) ops) :
    ∃ m' ents, run hash (hashtableInit m) ops = some (m', (tableRun hash .empty ops).2) ∧
      Represents hash m.heap m' ents (tableRun hash .empty ops).1 :=
  run_represents ops (init_represents hash m) Table.wf_empty (by simpa [Table.empty] using few) fresh

/-- A new hash table never leaves its memory, answers as the finite map does, and has nothing on the heap but a pair for
each key of the map. -/
theorem run_map (m : Hashtable κ ν) {ops : List (Op κ ν)} (few : sets ops ≤ 1610612741)
    (fresh : Fresh hash (hashtableInit m) ops) :
    ∃ m' outputs f, run hash (hashtableInit m) ops = some (m', outputs) ∧ MapRun (fun _ => none) ops outputs f ∧
      Holds hash m.heap m'.heap f := by
  obtain ⟨m', ents, runs, rep⟩ := run_represents ops (init_represents hash m) Table.wf_empty
    (by simpa [Table.empty] using few) fresh
  have start : Graph (Table.empty : Table κ ν) fun _ => none := ⟨Table.wf_empty, fun _ => rfl⟩
  obtain ⟨f, right, graph⟩ := tableRun_map hash ops start
  exact ⟨m', _, f, runs, right, ents, _, rep.shape.nodup, graph.wf, graph.mem_iff, rep.pairs, rep.own, rep.heap⟩

/-! ### An example -/

/-- Two keys of one bucket. -/
def exampleOps : List (Op Nat Nat) := [.set 1 10 0, .set 6 20 1, .get 6, .del 1, .set 6 30 0, .iter]

/-- Memory with nothing on the heap. -/
def exampleMemory : Hashtable Nat Nat where
  links := { next := fun _ => none, prev := fun _ => none }
  heap := fun _ => none
  size := 0
  buckets := []
  numBuckets := 0

theorem fresh_exampleOps : Fresh (BitVec.ofNat 32) (hashtableInit exampleMemory) exampleOps := by
  have place : ∀ {m : Hashtable Nat Nat} {k v a : Nat}, m.heap a = none →
      ∀ key value malloc, Op.set k v a = .set key value malloc → m.heap malloc = none := by
    rintro m k v a free key value malloc ⟨⟩
    exact free
  refine fresh_cons rfl (place rfl) ?_
  refine fresh_cons rfl (place rfl) ?_
  refine fresh_cons rfl (fun _ _ _ => nofun) ?_
  refine fresh_cons rfl (fun _ _ _ => nofun) ?_
  refine fresh_cons rfl (place rfl) ?_
  exact fresh_cons rfl (fun _ _ _ => nofun) trivial

theorem run_table_exampleOps :
    ∃ m' ents, run (BitVec.ofNat 32) (hashtableInit exampleMemory) exampleOps =
        some (m', (tableRun (BitVec.ofNat 32) .empty exampleOps).2) ∧
      Represents (BitVec.ofNat 32) exampleMemory.heap m' ents (tableRun (BitVec.ofNat 32) .empty exampleOps).1 :=
  run_table exampleMemory (by decide) fresh_exampleOps

theorem run_map_exampleOps :
    ∃ m' outputs f, run (BitVec.ofNat 32) (hashtableInit exampleMemory) exampleOps = some (m', outputs) ∧
      MapRun (fun _ => none) exampleOps outputs f ∧ Holds (BitVec.ofNat 32) exampleMemory.heap m'.heap f :=
  run_map exampleMemory (by decide) fresh_exampleOps

end CpuMiner.Jansson.Hashtable
