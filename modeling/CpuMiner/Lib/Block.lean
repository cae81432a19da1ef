/-
Module: CpuMiner.Lib.Block
Layer: Library
Purpose: Blocks of memory with checked bounds. A block is the list of its cells; an access that is not inside the block
  gives nothing. The laws are those a program needs that builds a text in a block from left to right: adjacent stores
  are one store, a block that grows keeps what it holds, and a block that was cleared before a text was written to its
  start holds the text and a terminator as long as one cell is left over (`Padded`).
Imports: Mathlib.Data.List.Basic
Trusted boundary: human-reviewed spec (when an access is inside a block)
Main exports: Block.load, Block.store, Block.resize, Block.cstring, Block.load_append, Block.store_append,
  Block.length_of_store, Block.store_store, Block.padded, Block.store_padded, Block.store_padded_last,
  Block.cstring_padded
Open obligations: none
-/
import Mathlib.Data.List.Basic

namespace Block

variable {α : Type}

/-- The `len` cells from cell `i` on. -/
def load (block : List α) (i len : Nat) : Option (List α) :=
  if i + len ≤ block.length then some ((block.drop i).take len) else none

/-- The block with these values from cell `i` on. -/
def store (block : List α) (i : Nat) (values : List α) : Option (List α) :=
  if i + values.length ≤ block.length then
    some (block.take i ++ values ++ block.drop (i + values.length))
  else none

/-- The block with another size. New cells hold `fresh`. -/
def resize (fresh : α) (block : List α) (size : Nat) : List α :=
  block.take size ++ List.replicate (size - block.length) fresh

/-- The values before the first terminator, which is looked for inside the block only. -/
def cstring [DecidableEq α] (zero : α) (block : List α) : Option (List α) :=
  if zero ∈ block then some (block.takeWhile (· ≠ zero)) else none

/-! ### Loads and stores -/

theorem load_append (before values after : List α) :
    load (before ++ values ++ after) before.length values.length = some values := by
  rw [load, if_pos (by simp only [List.length_append]; omega), List.append_assoc, List.drop_left, List.take_left]

/-- A block is loaded as a whole. -/
theorem load_all (block : List α) : load block 0 block.length = some block := by
  simpa using load_append [] block []

theorem store_append (before old after values : List α) (length : values.length = old.length) :
    store (before ++ old ++ after) before.length values = some (before ++ values ++ after) := by
  have kept : (before ++ old ++ after).take before.length = before := by
    rw [List.append_assoc, List.take_left]
  have rest : (before ++ old ++ after).drop (before.length + values.length) = after := by
    rw [length, ← List.length_append, List.drop_left]
  rw [store, if_pos (by simp only [List.length_append]; omega), kept, rest]

/-- A store that is inside the block does not change its size. -/
theorem length_of_store {block block' values : List α} {i : Nat} (stored : store block i values = some block') :
    block'.length = block.length ∧ i + values.length ≤ block.length := by
  unfold store at stored
  split at stored
  · rename_i inside
    obtain rfl := Option.some.inj stored
    refine ⟨?_, inside⟩
    simp only [List.length_append, List.length_take, List.length_drop]
    omega
  · cases stored

/-- The parts of a block before, in and after a range of cells. -/
theorem exists_split {block : List α} {i len : Nat} (inside : i + len ≤ block.length) :
    ∃ before values after, block = before ++ values ++ after ∧ before.length = i ∧ values.length = len := by
  refine ⟨block.take i, (block.drop i).take len, (block.drop i).drop len, ?_, ?_, ?_⟩
  · rw [List.append_assoc, List.take_append_drop, List.take_append_drop]
  · exact List.length_take_of_le (by omega)
  · exact List.length_take_of_le (by rw [List.length_drop]; omega)

/-- Two stores side by side are one store. -/
theorem store_store (block first second : List α) (i : Nat) :
    ((store block i first).bind fun block' => store block' (i + first.length) second) =
      store block i (first ++ second) := by
  by_cases inside : i + (first ++ second).length ≤ block.length
  · rw [List.length_append] at inside
    have range : i + first.length ≤ block.length := by omega
    obtain ⟨before, old₁, rest, rfl, rfl, size₁⟩ := exists_split range
    obtain ⟨old₂, after, rfl, size₂⟩ :
        ∃ old₂ after, rest = old₂ ++ after ∧ old₂.length = second.length := by
      simp only [List.length_append] at inside
      exact ⟨_, _, (List.take_append_drop second.length rest).symm, List.length_take_of_le (by omega)⟩
    have one := store_append before old₁ (old₂ ++ after) first size₁.symm
    have two := store_append (before ++ first) old₂ after second size₂.symm
    have both := store_append before (old₁ ++ old₂) after (first ++ second)
      (by rw [List.length_append, List.length_append, size₁, size₂])
    simp only [List.append_assoc, List.length_append] at one two both ⊢
    rw [one, both]
    exact two
  · have size : (first ++ second).length = first.length + second.length := List.length_append
    have outside : store block i (first ++ second) = none := if_neg inside
    rw [outside]
    cases stored : store block i first with
    | none => rfl
    | some block' =>
        obtain ⟨same, _⟩ := length_of_store stored
        exact if_neg (by omega)

/-- A store up to the end of the block. -/
theorem store_to_end (block values : List α) {i : Nat} (length : block.length = i + values.length) :
    store block i values = some (block.take i ++ values) := by
  rw [store, if_pos (Nat.le_of_eq length.symm), List.drop_eq_nil_of_le (Nat.le_of_eq length), List.append_nil]

/-! ### Growing -/

theorem length_resize (fresh : α) (block : List α) (size : Nat) : (resize fresh block size).length = size := by
  rw [resize, List.length_append, List.length_take, List.length_replicate]
  omega

/-- What a block holds is still there when it grows. -/
theorem take_resize (fresh : α) (block : List α) {k size : Nat} (held : k ≤ block.length) (room : k ≤ size) :
    (resize fresh block size).take k = block.take k := by
  rw [resize, List.take_append_of_le_length (by rw [List.length_take]; omega), List.take_take, Nat.min_eq_left room]

/-! ### A text at the start of a cleared block -/

/-- A block of `size` cells that was cleared before the text was written to its start. -/
def padded (zero : α) (size : Nat) (text : List α) : List α := text ++ List.replicate (size - text.length) zero

theorem padded_nil (zero : α) (size : Nat) : padded zero size [] = List.replicate size zero := rfl

/-- Writing goes on where the text ends. -/
theorem store_padded (zero : α) {size : Nat} (text values : List α)
    (fits : text.length + values.length ≤ size) :
    store (padded zero size text) text.length values = some (padded zero size (text ++ values)) := by
  have room : size - text.length = values.length + (size - (text ++ values).length) := by
    rw [List.length_append]
    omega
  rw [padded, room, List.replicate_add, ← List.append_assoc,
    store_append _ _ _ _ List.length_replicate.symm]
  rfl

/-- The first text in a cleared block. -/
theorem store_cleared (zero : α) {size : Nat} (text : List α) (fits : text.length ≤ size) :
    store (List.replicate size zero) 0 text = some (padded zero size text) := by
  have total : ([] : List α).length + text.length ≤ size := by rwa [List.length_nil, Nat.zero_add]
  exact store_padded zero [] text total

/-- A terminator in the place of the last value makes the text one shorter. -/
theorem store_padded_last (zero : α) {size : Nat} (text : List α) (last : α) (fits : text.length < size) :
    store (padded zero size (text ++ [last])) text.length [zero] = some (padded zero size text) := by
  have room : size - text.length = 1 + (size - (text ++ [last]).length) := by
    rw [List.length_append, List.length_singleton]
    omega
  have stored := store_append text [last] (List.replicate (size - (text ++ [last]).length) zero) [zero] rfl
  rw [padded, padded, room, List.replicate_add, ← List.append_assoc]
  exact stored

/-- The terminator that is there already. -/
theorem store_padded_end (zero : α) {size : Nat} (text : List α) (fits : text.length < size) :
    store (padded zero size text) text.length [zero] = some (padded zero size text) := by
  have room : size - text.length = 1 + (size - text.length - 1) := by omega
  rw [padded, room, List.replicate_add, ← List.append_assoc]
  exact store_append text [zero] _ [zero] rfl

/-- The text is the string in the block if a cell is left over for the terminator. -/
theorem cstring_padded [DecidableEq α] (zero : α) {size : Nat} {text : List α} (plain : zero ∉ text)
    (fits : text.length < size) : cstring zero (padded zero size text) = some text := by
  have room : size - text.length = size - text.length - 1 + 1 := by omega
  have last : zero ∈ padded zero size text := by
    rw [padded, room, List.replicate_succ]
    simp
  rw [cstring, if_pos last, padded, room, List.replicate_succ, List.takeWhile_append_of_pos]
  · simp
  · intro a listed
    exact decide_eq_true fun same => plain (same ▸ listed)

end Block
