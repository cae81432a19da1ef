/-
Module: CpuMiner.Wire.Strbuffer
Layer: JSON
Purpose: strbuffer.c. A buffer is a block that grows, with a text and its terminator at the start (`Strbuffer.Holds`).
  Every operation stays inside its block, and does to the text what its name says. Over a whole run the block is
  reallocated only as often as its size doubles, and stays below twice the longest text that it had to hold; so no
  `int` overflows as long as this text is shorter than 2^30 bytes.
Imports: CpuMiner.Util.DataBuffer, CpuMiner.Util.Hex
Trusted boundary: human-reviewed spec (the transcription of the C code, and `Edited`)
Main exports: Strbuffer, Strbuffer.Holds, strbufferInit, strbufferClear, strbufferAppendBytes, strbufferPop, cstr,
  strbufferAppendBytes_holds, strbufferPop_holds, StrbufferOp, strbufferRun, Edited, Edited.Matches, strbufferRun_edited
Open obligations: none
-/
import CpuMiner.Util.DataBuffer
import CpuMiner.Util.Hex

namespace CpuMiner.Jansson

open Words

/-- `strbuffer_t`. Memory that is asked for is there. The operations have the numbers as they are; that they are
    those of an `int` is a matter of the run (`StrbufferRun.append`). -/
structure Strbuffer where
  value : List Cell
  length : Nat
  size : Nat
deriving DecidableEq

def strbufferMinSize : Nat := 16

def strbufferFactor : Nat := 2

/-- `strbuffer_init` -/
def strbufferInit : Option Strbuffer := do
  let value ← Block.store (List.replicate strbufferMinSize none) 0 [some 0]
  return { value := value, length := 0, size := strbufferMinSize }

/-- `strbuffer_clear` -/
def strbufferClear (strbuff : Strbuffer) : Option Strbuffer := do
  let value ← Block.store strbuff.value 0 [some 0]
  return { strbuff with value := value, length := 0 }

/-- The reallocation in `strbuffer_append_bytes`. -/
def strbufferGrow (strbuff : Strbuffer) (size : Nat) : Strbuffer :=
  if strbuff.length + size ≥ strbuff.size then
    let newSize := max (strbuff.size * strbufferFactor) (strbuff.length + size + 1)
    { strbuff with value := Block.resize none strbuff.value newSize, size := newSize }
  else strbuff

/-- `strbuffer_append_bytes` -/
def strbufferAppendBytes (strbuff : Strbuffer) (data : List Byte) : Option Strbuffer := do
  let strbuff := strbufferGrow strbuff data.length
  let value ← Block.store strbuff.value strbuff.length (data.map some)
  let length := strbuff.length + data.length
  let value ← Block.store value length [some 0]
  return { strbuff with value := value, length := length }

/-- `strbuffer_append_byte` -/
def strbufferAppendByte (strbuff : Strbuffer) (byte : Byte) : Option Strbuffer := strbufferAppendBytes strbuff [byte]

/-- `strbuffer_pop` -/
def strbufferPop (strbuff : Strbuffer) : Option (Byte × Strbuffer) :=
  if strbuff.length > 0 then do
    let c ← (← strbuff.value[strbuff.length - 1]?)
    let value ← Block.store strbuff.value (strbuff.length - 1) [some 0]
    return (c, { strbuff with value := value, length := strbuff.length - 1 })
  else some (0, strbuff)

/-- The string at the start of a block, up to its terminator. Nothing when it is read outside the block, or where the
    block is indeterminate. -/
def cstr : List Cell → Option (List Byte)
  | [] | none :: _ => none
  | some c :: rest => if c = 0 then some [] else (cstr rest).map (c :: ·)

/-- The buffer holds this text. -/
structure Strbuffer.Holds (strbuff : Strbuffer) (text : List Byte) : Prop where
  length : strbuff.length = text.length
  block : strbuff.value.length = strbuff.size
  value : ∃ behind, strbuff.value = text.map some ++ some 0 :: behind

theorem cstr_append {text : List Byte} (noNul : 0 ∉ text) (behind : List Cell) :
    cstr (text.map some ++ some 0 :: behind) = some text := by
  induction text with
  | nil => rfl
  | cons c text ih =>
      have other : c ≠ 0 := fun zero => noNul (zero ▸ List.mem_cons_self)
      simp only [List.map_cons, List.cons_append, cstr, if_neg other,
        ih fun listed => noNul (List.mem_cons_of_mem c listed), Option.map_some]

theorem Strbuffer.Holds.cstr_value {strbuff : Strbuffer} {text : List Byte} (holds : strbuff.Holds text)
    (noNul : 0 ∉ text) : cstr strbuff.value = some text := by
  obtain ⟨behind, value⟩ := holds.value
  rw [value, cstr_append noNul]

/-- A terminator behind a text that is in the block. -/
private theorem holds_of_store {value value' : List Cell} {text : List Byte} {size : Nat}
    (block : value.length = size) (begins : value.take text.length = text.map some)
    (stored : Block.store value text.length [some 0] = some value') :
    Strbuffer.Holds { value := value', length := text.length, size := size } text := by
  obtain ⟨same, inside⟩ := Block.length_of_store stored
  rw [Block.store, if_pos inside, begins] at stored
  obtain rfl := Option.some.inj stored
  exact ⟨rfl, same.trans block, _, List.append_assoc ..⟩

theorem strbufferInit_holds : ∃ strbuff, strbufferInit = some strbuff ∧ strbuff.Holds [] :=
  ⟨_, rfl, rfl, rfl, _, rfl⟩

theorem Strbuffer.Holds.room {strbuff : Strbuffer} {text : List Byte} (holds : strbuff.Holds text) :
    text.length < strbuff.size := by
  obtain ⟨behind, value⟩ := holds.value
  rw [← holds.block, value, List.length_append, List.length_cons, List.length_map]
  omega

theorem strbufferClear_holds {strbuff : Strbuffer} {text : List Byte} (holds : strbuff.Holds text) :
    ∃ strbuff', strbufferClear strbuff = some strbuff' ∧ strbuff'.Holds [] := by
  have room := holds.room
  have inside : 0 + [some (0 : Byte)].length ≤ strbuff.value.length := by
    rw [holds.block, List.length_singleton]
    omega
  obtain ⟨value, stored⟩ : ∃ value, Block.store strbuff.value 0 [some 0] = some value := ⟨_, if_pos inside⟩
  refine ⟨{ strbuff with value := value, length := 0 }, ?_, @holds_of_store _ _ [] _ holds.block rfl stored⟩
  simp only [strbufferClear, stored, Option.bind_eq_bind, Option.bind_some, Option.pure_def]

/-- What is in the block stays there when it grows, and there is room for what comes. -/
theorem strbufferGrow_holds {strbuff : Strbuffer} {text : List Byte} (holds : strbuff.Holds text) (size : Nat) :
    (strbufferGrow strbuff size).length = text.length ∧
    (strbufferGrow strbuff size).value.length = (strbufferGrow strbuff size).size ∧
    (strbufferGrow strbuff size).value.take text.length = text.map some ∧
    text.length + size < (strbufferGrow strbuff size).size := by
  have room := holds.room
  have begins : strbuff.value.take text.length = text.map some := by
    obtain ⟨behind, value⟩ := holds.value
    rw [value, ← List.length_map some, List.take_left]
  unfold strbufferGrow
  split
  · refine ⟨holds.length, Block.length_resize _ _ _, ?_, ?_⟩
    · rw [Block.take_resize _ _ (by rw [holds.block]; omega) (by rw [holds.length]; omega), begins]
    · simp only [holds.length]
      omega
  · rename_i fits
    rw [holds.length] at fits
    exact ⟨holds.length, holds.block, begins, by omega⟩

/-- `strbuffer_append_bytes` appends. -/
theorem strbufferAppendBytes_holds {strbuff : Strbuffer} {text : List Byte} (holds : strbuff.Holds text)
    (data : List Byte) :
    ∃ strbuff', strbufferAppendBytes strbuff data = some strbuff' ∧ strbuff'.Holds (text ++ data) := by
  obtain ⟨length, block, begins, room⟩ := strbufferGrow_holds holds data.length
  obtain ⟨value, first⟩ : ∃ value, Block.store (strbufferGrow strbuff data.length).value text.length (data.map some) =
      some value := ⟨_, if_pos (by rw [block, List.length_map]; omega)⟩
  obtain ⟨same, inside⟩ := Block.length_of_store first
  obtain ⟨value', second⟩ : ∃ value', Block.store value (text.length + data.length) [some 0] = some value' :=
    ⟨_, if_pos (by rw [same, block, List.length_singleton]; omega)⟩
  have total : text.length + data.length = (text ++ data).length := List.length_append.symm
  refine ⟨{ strbufferGrow strbuff data.length with value := value', length := text.length + data.length }, ?_, ?_⟩
  · simp only [strbufferAppendBytes, length, first, second, Option.bind_eq_bind, Option.bind_some, Option.pure_def]
  · rw [total] at second ⊢
    refine holds_of_store (same.trans block) ?_ second
    rw [Block.store, if_pos inside, begins] at first
    obtain rfl := Option.some.inj first
    rw [← List.map_append, List.take_left' (by simp)]

theorem strbufferAppendByte_holds {strbuff : Strbuffer} {text : List Byte} (holds : strbuff.Holds text) (byte : Byte) :
    ∃ strbuff', strbufferAppendByte strbuff byte = some strbuff' ∧ strbuff'.Holds (text ++ [byte]) :=
  strbufferAppendBytes_holds holds [byte]

/-- `strbuffer_pop` takes the last byte away. -/
theorem strbufferPop_holds {strbuff : Strbuffer} {text : List Byte} {byte : Byte}
    (holds : strbuff.Holds (text ++ [byte])) :
    ∃ strbuff', strbufferPop strbuff = some (byte, strbuff') ∧ strbuff'.Holds text := by
  have room := holds.room
  obtain ⟨behind, value⟩ := holds.value
  have length : strbuff.length = text.length + 1 := by rw [holds.length, List.length_append, List.length_singleton]
  have last : strbuff.value[text.length]? = some (some byte) := by
    rw [value, List.map_append, List.append_assoc, ← List.length_map some, List.getElem?_append_right (Nat.le_refl _),
      Nat.sub_self]
    rfl
  obtain ⟨value', stored⟩ : ∃ value', Block.store strbuff.value text.length [some 0] = some value' :=
    ⟨_, if_pos (by rw [List.length_append] at room; rw [holds.block]; exact Nat.le_of_lt room)⟩
  refine ⟨{ strbuff with value := value', length := text.length }, ?_, ?_⟩
  · rw [strbufferPop, if_pos (by omega), length, Nat.add_sub_cancel]
    simp only [last, stored, Option.bind_eq_bind, Option.bind_some, Option.pure_def]
  · refine holds_of_store holds.block ?_ stored
    rw [value, List.map_append, List.append_assoc, ← List.length_map some, List.take_left]

/-! ### Runs -/

/-- A call on a buffer. -/
inductive StrbufferOp where
  | appendBytes (data : List Byte)
  | appendByte (byte : Byte)
  | pop
  | clear
deriving DecidableEq

/-- A buffer in use: the bytes that were popped, the last one first, and how often the block was reallocated. -/
structure StrbufferRun where
  strbuff : Strbuffer
  popped : List Byte
  reallocs : Nat
deriving DecidableEq

/-- What `strbuffer_append_bytes` computes fits in an `int`: the length that is compared, and before a reallocation
    the two numbers of which it takes the larger one. -/
def Strbuffer.Fits (strbuff : Strbuffer) (size : Nat) : Prop :=
  strbuff.length + size ≤ intMax ∧
    (strbuff.length + size ≥ strbuff.size →
      strbuff.size * strbufferFactor ≤ intMax ∧ strbuff.length + size + 1 ≤ intMax)

instance (strbuff : Strbuffer) (size : Nat) : Decidable (strbuff.Fits size) :=
  inferInstanceAs (Decidable (_ ∧ (_ → _ ∧ _)))

/-- An overflow is not defined. `realloc` makes the block longer whenever it is called. -/
def StrbufferRun.append (r : StrbufferRun) (data : List Byte) : Option StrbufferRun :=
  if r.strbuff.Fits data.length then do
    let strbuff ← strbufferAppendBytes r.strbuff data
    return { r with
      strbuff := strbuff
      reallocs := if strbuff.size = r.strbuff.size then r.reallocs else r.reallocs + 1 }
  else none

def strbufferStep (r : StrbufferRun) : StrbufferOp → Option StrbufferRun
  | .appendBytes data => r.append data
  | .appendByte byte => r.append [byte]
  | .pop => (strbufferPop r.strbuff).map fun (c, strbuff) => { r with strbuff := strbuff, popped := c :: r.popped }
  | .clear => (strbufferClear r.strbuff).map fun strbuff => { r with strbuff := strbuff }

/-- A new buffer, and the calls on it. -/
def strbufferRun (ops : List StrbufferOp) : Option StrbufferRun := do
  let strbuff ← strbufferInit
  ops.foldlM strbufferStep { strbuff := strbuff, popped := [], reallocs := 0 }

/-- What the calls are for: a text that is changed at its end. The longest one is remembered. -/
structure Edited where
  text : List Byte
  popped : List Byte
  peak : Nat
deriving DecidableEq

def Edited.append (e : Edited) (data : List Byte) : Edited :=
  { e with text := e.text ++ data, peak := max e.peak (e.text ++ data).length }

def Edited.step (e : Edited) : StrbufferOp → Edited
  | .appendBytes data => e.append data
  | .appendByte byte => e.append [byte]
  | .pop => { e with text := e.text.dropLast, popped := e.text.getLastD 0 :: e.popped }
  | .clear => { e with text := [] }

def Edited.start : Edited where
  text := []
  popped := []
  peak := 0

/-- The buffer holds the text. Its size has doubled with every reallocation, and was never more than the longest text
needed. -/
structure Edited.Matches (e : Edited) (r : StrbufferRun) : Prop where
  holds : r.strbuff.Holds e.text
  popped : r.popped = e.popped
  within : e.text.length ≤ e.peak
  doubled : strbufferMinSize * Nat.pow 2 r.reallocs ≤ r.strbuff.size
  needed : r.strbuff.size ≤ max strbufferMinSize (2 * e.peak + 1)

/-! ### Sizes -/

theorem size_strbufferAppendBytes {strbuff strbuff' : Strbuffer} {data : List Byte}
    (appends : strbufferAppendBytes strbuff data = some strbuff') :
    strbuff'.size = (strbufferGrow strbuff data.length).size := by
  simp only [strbufferAppendBytes, Option.bind_eq_bind, Option.bind_eq_some_iff, Option.pure_def,
    Option.some.injEq] at appends
  obtain ⟨_, _, _, _, rfl⟩ := appends
  rfl

/-- Where the block has to grow it at least doubles, and it grows only where it has to. -/
theorem size_strbufferGrow (strbuff : Strbuffer) (size : Nat) :
    (strbufferGrow strbuff size).size = strbuff.size ∨
      strbuff.size * 2 ≤ (strbufferGrow strbuff size).size ∧
        (strbufferGrow strbuff size).size ≤ 2 * (strbuff.length + size) + 1 := by
  unfold strbufferGrow
  split
  · simp only [strbufferFactor]
    omega
  · exact .inl rfl

theorem size_strbufferClear {strbuff strbuff' : Strbuffer} (clears : strbufferClear strbuff = some strbuff') :
    strbuff'.size = strbuff.size := by
  simp only [strbufferClear, Option.bind_eq_bind, Option.bind_eq_some_iff, Option.pure_def, Option.some.injEq] at clears
  obtain ⟨_, _, rfl⟩ := clears
  rfl

theorem size_strbufferPop {strbuff strbuff' : Strbuffer} {c : Byte} (pops : strbufferPop strbuff = some (c, strbuff')) :
    strbuff'.size = strbuff.size := by
  unfold strbufferPop at pops
  split at pops
  · simp only [Option.bind_eq_bind, Option.bind_eq_some_iff, Option.pure_def, Option.some.injEq, Prod.mk.injEq] at pops
    obtain ⟨_, _, _, _, _, _, _, rfl⟩ := pops
    rfl
  · obtain ⟨_, rfl⟩ := Prod.mk.inj (Option.some.inj pops)
    rfl

/-- `strbuffer_pop` on any text. From the empty one it takes the terminator, which stays. -/
theorem strbufferPop_text {strbuff : Strbuffer} {text : List Byte} (holds : strbuff.Holds text) :
    ∃ strbuff', strbufferPop strbuff = some (text.getLastD 0, strbuff') ∧ strbuff'.Holds text.dropLast := by
  rcases List.eq_nil_or_concat' text with rfl | ⟨front, byte, rfl⟩
  · have length : strbuff.length = 0 := holds.length
    exact ⟨strbuff, by rw [strbufferPop, if_neg (by omega)]; rfl, holds⟩
  · obtain ⟨strbuff', pops, holds'⟩ := strbufferPop_holds holds
    refine ⟨strbuff', ?_, ?_⟩
    · rw [pops, List.getLastD_concat]
    · rwa [List.dropLast_concat]

/-! ### What a call keeps -/

/-- Below 2^30 bytes nothing overflows: a block that has to grow is not longer than the text that is to come. -/
theorem Edited.Matches.fits {e : Edited} {r : StrbufferRun} (same : e.Matches r) {data : List Byte}
    (short : (e.append data).peak < 0x40000000) : r.strbuff.Fits data.length := by
  have limit : intMax = 0x7fffffff := rfl
  have total : (e.text ++ data).length = r.strbuff.length + data.length := by
    rw [List.length_append, same.holds.length]
  have within : (e.text ++ data).length ≤ (e.append data).peak := Nat.le_max_right _ _
  refine ⟨by omega, fun grows => ?_⟩
  rw [strbufferFactor]
  omega

theorem Edited.Matches.append {e : Edited} {r : StrbufferRun} (same : e.Matches r) {data : List Byte}
    (short : (e.append data).peak < 0x40000000) :
    ∃ r', r.append data = some r' ∧ (e.append data).Matches r' := by
  obtain ⟨strbuff, appends, holds⟩ := strbufferAppendBytes_holds same.holds data
  have size := size_strbufferAppendBytes appends
  have grown := size_strbufferGrow r.strbuff data.length
  have doubled := same.doubled
  have needed := same.needed
  let reallocs := if strbuff.size = r.strbuff.size then r.reallocs else r.reallocs + 1
  refine ⟨{ r with strbuff := strbuff, reallocs := reallocs }, ?_, holds, same.popped, Nat.le_max_right _ _, ?_, ?_⟩
  · rw [StrbufferRun.append, if_pos (same.fits short)]
    simp only [appends, Option.bind_eq_bind, Option.bind_some, Option.pure_def, reallocs]
  · show strbufferMinSize * Nat.pow 2 (if strbuff.size = r.strbuff.size then r.reallocs else r.reallocs + 1) ≤
      strbuff.size
    split
    · omega
    · have twice : Nat.pow 2 (r.reallocs + 1) = Nat.pow 2 r.reallocs * 2 := rfl
      rw [twice, ← Nat.mul_assoc]
      omega
  · have total : (e.text ++ data).length = r.strbuff.length + data.length := by
      rw [List.length_append, same.holds.length]
    show strbuff.size ≤ max strbufferMinSize (2 * max e.peak (e.text ++ data).length + 1)
    omega

/-- A call that leaves the size of the block as it is. -/
theorem Edited.Matches.keep {e e' : Edited} {r : StrbufferRun} (same : e.Matches r) {strbuff : Strbuffer}
    {popped : List Byte} (holds : strbuff.Holds e'.text) (isPopped : popped = e'.popped)
    (shorter : e'.text.length ≤ e.text.length) (peak : e'.peak = e.peak) (size : strbuff.size = r.strbuff.size) :
    e'.Matches { r with strbuff := strbuff, popped := popped } where
  holds := holds
  popped := isPopped
  within := by
    rw [peak]
    exact Nat.le_trans shorter same.within
  doubled := by
    rw [size]
    exact same.doubled
  needed := by
    rw [size, peak]
    exact same.needed

theorem Edited.Matches.step {e : Edited} {r : StrbufferRun} (same : e.Matches r) {op : StrbufferOp}
    (short : (e.step op).peak < 0x40000000) :
    ∃ r', strbufferStep r op = some r' ∧ (e.step op).Matches r' := by
  cases op with
  | appendBytes data => exact same.append short
  | appendByte byte => exact same.append short
  | pop =>
      obtain ⟨strbuff, pops, holds⟩ := strbufferPop_text same.holds
      have popped : e.text.getLastD 0 :: r.popped = (e.step .pop).popped := congrArg _ same.popped
      have shorter : e.text.dropLast.length ≤ e.text.length := List.length_dropLast ▸ Nat.sub_le _ _
      have kept : (e.step .pop).Matches { r with strbuff := strbuff, popped := e.text.getLastD 0 :: r.popped } :=
        same.keep holds popped shorter rfl (size_strbufferPop pops)
      exact ⟨_, by rw [strbufferStep, pops, Option.map_some], kept⟩
  | clear =>
      obtain ⟨strbuff, clears, holds⟩ := strbufferClear_holds same.holds
      have kept : (e.step .clear).Matches { r with strbuff := strbuff } :=
        same.keep holds same.popped (Nat.zero_le _) rfl (size_strbufferClear clears)
      exact ⟨_, by rw [strbufferStep, clears, Option.map_some], kept⟩

/-- The longest text is only replaced by a longer one. -/
theorem Edited.peak_le_steps (ops : List StrbufferOp) (e : Edited) : e.peak ≤ (ops.foldl Edited.step e).peak := by
  induction ops generalizing e with
  | nil => exact Nat.le_refl _
  | cons op ops ih =>
      have first : e.peak ≤ (e.step op).peak := by
        cases op with
        | appendBytes data => exact Nat.le_max_left _ _
        | appendByte byte => exact Nat.le_max_left _ _
        | pop => exact Nat.le_refl _
        | clear => exact Nat.le_refl _
      exact Nat.le_trans first (ih (e.step op))

theorem Edited.Matches.steps (ops : List StrbufferOp) :
    ∀ {e : Edited} {r : StrbufferRun}, e.Matches r → (ops.foldl Edited.step e).peak < 0x40000000 →
      ∃ r', ops.foldlM strbufferStep r = some r' ∧ (ops.foldl Edited.step e).Matches r' := by
  induction ops with
  | nil => exact fun same _ => ⟨_, rfl, same⟩
  | cons op ops ih =>
      intro e r same short
      have now : (e.step op).peak < 0x40000000 := Nat.lt_of_le_of_lt (Edited.peak_le_steps ops (e.step op)) short
      obtain ⟨next, step, same'⟩ := same.step now
      obtain ⟨last, steps, same''⟩ := ih same' short
      exact ⟨last, by rw [List.foldlM_cons, step]; exact steps, same''⟩

/-- Whatever the calls are, as long as the text stays shorter than 2^30 bytes a new buffer never leaves its block, no
    `int` overflows, and the buffer has the text that the calls make. -/
theorem strbufferRun_edited {ops : List StrbufferOp} (short : (ops.foldl Edited.step .start).peak < 0x40000000) :
    ∃ r, strbufferRun ops = some r ∧ (ops.foldl Edited.step .start).Matches r := by
  obtain ⟨strbuff, init, holds⟩ := strbufferInit_holds
  have size : strbuff.size = strbufferMinSize := by
    obtain rfl := Option.some.inj init
    rfl
  have start : Edited.start.Matches { strbuff := strbuff, popped := [], reallocs := 0 } :=
    ⟨holds, rfl, Nat.le_refl _, Nat.le_of_eq size.symm, Nat.le_trans (Nat.le_of_eq size) (Nat.le_max_left _ _)⟩
  obtain ⟨r, steps, same⟩ := start.steps ops short
  exact ⟨r, by rw [strbufferRun, init]; exact steps, same⟩

/-- A text that does not fit in the first block, cleared, and a byte taken from the empty buffer. -/
theorem strbufferRun_edited_grows :
    let ops := [.appendBytes (List.replicate 20 0x61), .appendByte 0x62, .pop, .clear, .pop]
    ∃ r, strbufferRun ops = some r ∧ (ops.foldl Edited.step .start).Matches r :=
  strbufferRun_edited (by decide)

end CpuMiner.Jansson
