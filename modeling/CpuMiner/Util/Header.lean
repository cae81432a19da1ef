/-
Module: CpuMiner.Util.Header
Layer: Utilities
Purpose: `resp_hdr_cb`, which looks for the header `X-Long-Polling` in the lines that libcurl gives it. A line has no
  terminator, and the two buffers have no byte more than the line. `respHdrCb_eq` says that a call stays inside the
  line and the buffers and finds exactly the lines that announce a path (`Announces`); `respHdrCalls_exact` is this
  for all lines of a reply: the last announcement counts.
Imports: Mathlib.Data.List.DropRight, CpuMiner.Lib.Block, CpuMiner.Util.Hex
Trusted boundary: human-reviewed spec (the transcription of the C code, in the C locale)
Main exports: HeaderCall, skipSpace, trimEnd, strcasecmp, respHdrCb, respHdrCalls, Announces, skipSpace_eq, trimEnd_eq,
  respHdrCb_eq, respHdrCalls_exact
Open obligations: none
-/
import Mathlib.Data.List.DropRight
import CpuMiner.Lib.Block
import CpuMiner.Util.Hex

namespace CpuMiner

open Words

/-! ### The callback -/

/-- A call of `resp_hdr_cb`: the line, which is not terminated, and whether `calloc` gives memory for `val` and for
    `key`. -/
structure HeaderCall where
  line : List Byte
  noNul : 0 ∉ line
  val : Bool
  key : Bool

/-- `memchr`: the index of the first such byte. -/
def memchr (block : List Byte) (c : Byte) (len : Nat) : Option (Option Nat) :=
  (Block.load block 0 len).map (List.findIdx? (· == c))

/-- `while ((remlen > 0) && (isspace(*rem)))`: `rem`, as an index into the line, and `remlen` after the loop. -/
def skipSpace (ptr : List Byte) (rem : Nat) : Nat → Option (Nat × Nat)
  | 0 => some (rem, 0)
  | remlen + 1 => do
      let c ← ptr[rem]?
      if isSpace c then skipSpace ptr (rem + 1) remlen else some (rem, remlen + 1)

/-- `while ((*val) && (isspace(val[strlen(val) - 1])))`: `val` after the loop, with at most this many tests of its
    condition. -/
def trimEnd : Nat → List Byte → Option (List Byte)
  | 0, _ => none
  | tests + 1, val => do
      let strlen ← (Block.cstring 0 val).map List.length
      if strlen = 0 then some val
      else
        let c ← val[strlen - 1]?
        if isSpace c then
          let val ← Block.store val (strlen - 1) [0]
          trimEnd tests val
        else some val

def tolower (c : Byte) : Byte := if 0x41 ≤ c ∧ c ≤ 0x5a then c + 0x20 else c

def xLongPolling : List Byte := "X-Long-Polling".toList.map fun c => BitVec.ofNat 8 c.toNat

/-- `!strcasecmp(s, key)` for the string in a block. -/
def strcasecmp (s block : List Byte) : Option Bool :=
  (Block.cstring 0 block).map fun key => s.map tolower == key.map tolower

/-- `resp_hdr_cb`: what it returns, and `hi->lp_path`, as the block it points to. Nothing when it reads or writes
    outside the line or its two buffers. -/
def respHdrCb (call : HeaderCall) (lpPath : Option (List Byte)) : Option (Nat × Option (List Byte)) :=
  let ptrlen := call.line.length
  let val := List.replicate ptrlen 0
  let key := List.replicate ptrlen 0
  let out := some (ptrlen, lpPath)
  if !call.key || !call.val then out
  else do
    match ← memchr call.line 0x3a ptrlen with
    | none => out
    | some slen =>
        if slen = 0 then out
        else if slen + 1 = ptrlen then out
        else
          let name ← Block.load call.line 0 slen
          let key ← Block.store key 0 name
          let key ← Block.store key slen [0]
          let (rem, remlen) ← skipSpace call.line (slen + 1) (ptrlen - slen - 1)
          let value ← Block.load call.line rem remlen
          let val ← Block.store val 0 value
          let val ← Block.store val remlen [0]
          let val ← trimEnd ptrlen val
          let first ← val[0]?
          if first = 0 then out
          else if ← strcasecmp xLongPolling key then some (ptrlen, some val)
          else out

/-- The calls for the lines of a reply: what they return, and `hi->lp_path` in the end. -/
def respHdrCalls : List HeaderCall → Option (List Byte) → Option (List Nat × Option (List Byte))
  | [], lpPath => some ([], lpPath)
  | call :: calls, lpPath => do
      let (ret, lpPath) ← respHdrCb call lpPath
      let (rets, lpPath) ← respHdrCalls calls lpPath
      return (ret :: rets, lpPath)

/-! ### What a line says -/

/-- Without the white space at both ends. -/
def stripped (s : List Byte) : List Byte := (s.dropWhile isSpace).rdropWhile isSpace

theorem stripped_subset (s : List Byte) : stripped s ⊆ s := fun _ listed =>
  (List.dropWhile_suffix _).subset ((List.rdropWhile_prefix _ _).subset listed)

theorem length_stripped_le (s : List Byte) : (stripped s).length ≤ s.length :=
  (List.rdropWhile_prefix _ _).length_le.trans (List.dropWhile_suffix _).length_le

/-- The line announces this path: the key before its first colon is `X-Long-Polling` in capital or small letters, and
    the path is what stands behind the colon, and is not empty. -/
def Announces (line path : List Byte) : Prop :=
  ∃ key value, line = key ++ 0x3a :: value ∧ 0x3a ∉ key ∧ key ≠ [] ∧
    key.map tolower = xLongPolling.map tolower ∧ path = stripped value ∧ path ≠ []

private theorem takeWhile_key {key : List Byte} (plain : 0x3a ∉ key) (value : List Byte) :
    (key ++ 0x3a :: value).takeWhile (· ≠ 0x3a) = key := by
  have others : ∀ c ∈ key, decide (c ≠ 0x3a) = true := by
    rintro c listed
    exact decide_eq_true fun same => plain (same ▸ listed)
  rw [List.takeWhile_append_of_pos others, List.takeWhile_cons_of_neg (by decide), List.append_nil]

/-- A line has one first colon. -/
theorem announces_iff {key value path : List Byte} (plain : 0x3a ∉ key) :
    Announces (key ++ 0x3a :: value) path ↔
      key ≠ [] ∧ key.map tolower = xLongPolling.map tolower ∧ path = stripped value ∧ path ≠ [] := by
  constructor
  · rintro ⟨key', value', same, plain', said⟩
    have keys := congrArg (List.takeWhile (· ≠ 0x3a)) same
    rw [takeWhile_key plain, takeWhile_key plain'] at keys
    subst keys
    obtain rfl := (List.cons.inj (List.append_cancel_left same)).2
    exact said
  · exact fun said => ⟨key, value, rfl, plain, said⟩

theorem not_announces {line : List Byte} (noColon : 0x3a ∉ line) (path : List Byte) : ¬ Announces line path := by
  rintro ⟨key, value, rfl, _⟩
  simp at noColon

/-! ### The loops -/

/-- The first loop stops at the first byte that is no white space, or at the end of the line. -/
theorem skipSpace_eq (before rest : List Byte) :
    ∃ rem, skipSpace (before ++ rest) before.length rest.length = some (rem, (rest.dropWhile isSpace).length) ∧
      Block.load (before ++ rest) rem (rest.dropWhile isSpace).length = some (rest.dropWhile isSpace) := by
  induction rest generalizing before with
  | nil => exact ⟨before.length, rfl, by simp [Block.load]⟩
  | cons c rest ih =>
      have here : (before ++ c :: rest)[before.length]? = some c := by simp
      cases space : isSpace c with
      | false =>
          refine ⟨before.length, ?_, ?_⟩
          · rw [List.dropWhile_cons_of_neg (by simp [space])]
            simp only [List.length_cons, skipSpace, here, Option.bind_eq_bind, Option.bind_some, space]
            rfl
          · have loaded := Block.load_append before (c :: rest) []
            rw [List.append_nil] at loaded
            rw [List.dropWhile_cons_of_neg (by simp [space])]
            exact loaded
      | true =>
          obtain ⟨rem, skipped, loaded⟩ := ih (before ++ [c])
          rw [List.append_assoc, List.singleton_append] at skipped loaded
          rw [List.dropWhile_cons_of_pos space]
          refine ⟨rem, ?_, loaded⟩
          rw [List.length_append] at skipped
          simp only [List.length_cons, skipSpace, here, Option.bind_eq_bind, Option.bind_some, space, if_true]
          exact skipped

/-- The second loop moves the terminator to the front, and has enough tests with one more than there are bytes. -/
theorem trimEnd_eq {size tests : Nat} {text : List Byte} (plain : 0 ∉ text) (fits : text.length < size)
    (enough : text.length < tests) :
    trimEnd tests (Block.padded 0 size text) = some (Block.padded 0 size (text.rdropWhile isSpace)) := by
  induction text using List.reverseRecOn generalizing tests with
  | nil =>
      obtain ⟨tests, rfl⟩ : ∃ k, tests = k + 1 := ⟨tests - 1, by omega⟩
      have strlen : (Block.cstring 0 (Block.padded 0 size ([] : List Byte))).map List.length = some 0 := by
        rw [Block.cstring_padded 0 plain fits]
        rfl
      simp only [trimEnd, strlen, Option.bind_eq_bind, Option.bind_some, if_true, List.rdropWhile_nil]
  | append_singleton text last ih =>
      obtain ⟨tests, rfl⟩ : ∃ k, tests = k + 1 := ⟨tests - 1, by omega⟩
      have strlen :
          (Block.cstring 0 (Block.padded 0 size (text ++ [last]))).map List.length = some (text.length + 1) := by
        rw [Block.cstring_padded 0 plain fits, Option.map_some, List.length_append, List.length_singleton]
      have there : (Block.padded 0 size (text ++ [last]))[text.length]? = some last := by
        simp [Block.padded]
      have plain' : 0 ∉ text := fun listed => plain (List.mem_append_left _ listed)
      rw [List.length_append, List.length_singleton] at fits enough
      simp only [trimEnd, strlen, Option.bind_eq_bind, Option.bind_some, Nat.add_one_ne_zero, if_false,
        Nat.add_sub_cancel, there, List.rdropWhile_concat]
      cases space : isSpace last with
      | false => rfl
      | true =>
          rw [if_pos rfl, if_pos rfl, Block.store_padded_last 0 text last (by omega), Option.bind_some]
          exact ih plain' (by omega) (by omega)

theorem memchr_none {line : List Byte} (noColon : 0x3a ∉ line) : memchr line 0x3a line.length = some none := by
  rw [memchr, Block.load_all, Option.map_some, List.findIdx?_eq_none_iff.mpr]
  intro c listed
  exact beq_eq_false_iff_ne.mpr fun same => noColon (same ▸ listed)

theorem memchr_some {key : List Byte} (plain : 0x3a ∉ key) (value : List Byte) :
    memchr (key ++ 0x3a :: value) 0x3a (key ++ 0x3a :: value).length = some (some key.length) := by
  have others : key.findIdx? (· == 0x3a) = none := by
    rw [List.findIdx?_eq_none_iff]
    intro c listed
    exact beq_eq_false_iff_ne.mpr fun same => plain (same ▸ listed)
  have here : (0x3a :: value).findIdx? (· == 0x3a) = some 0 := by
    rw [List.findIdx?_cons, if_pos (beq_self_eq_true _)]
  rw [memchr, Block.load_all, Option.map_some, List.findIdx?_append, others, here, Option.none_or, Option.map_some,
    Nat.zero_add]

/-! ### One line -/

/-- The call gets its memory, and its line announces this path. -/
def HeaderCall.Announces (call : HeaderCall) (path : List Byte) : Prop :=
  call.val = true ∧ call.key = true ∧ CpuMiner.Announces call.line path

/-- The pointer points to this string. -/
def PointsTo (pointer : Option (List Byte)) (s : List Byte) : Prop :=
  ∃ block, pointer = some block ∧ Block.cstring 0 block = some s

/-- The first byte of a terminated text is the terminator if the text is empty. -/
theorem padded_first {size : Nat} {text : List Byte} (plain : 0 ∉ text) (fits : text.length < size) :
    ∃ first, (Block.padded 0 size text)[0]? = some first ∧ (first = 0 ↔ text = []) := by
  cases text with
  | nil =>
      refine ⟨0, ?_, iff_of_true rfl rfl⟩
      rw [Block.padded_nil, List.getElem?_replicate, if_pos (Nat.zero_lt_of_lt fits)]
  | cons c text =>
      refine ⟨c, rfl, iff_of_false (fun zero => ?_) (List.cons_ne_nil c text)⟩
      exact plain (zero ▸ List.mem_cons_self)

/-! Lines that are skipped: without a colon, with nothing before it, with nothing behind it, and without memory. -/

theorem respHdrCb_noColon {line : List Byte} {noNul : 0 ∉ line} (noColon : 0x3a ∉ line)
    (lpPath : Option (List Byte)) :
    respHdrCb { line, noNul, val := true, key := true } lpPath = some (line.length, lpPath) := by
  simp only [respHdrCb, Bool.not_true, Bool.or_self, memchr_none noColon, Option.bind_eq_bind, Option.bind_some]
  rfl

theorem respHdrCb_noKey {value : List Byte} {noNul : 0 ∉ 0x3a :: value} (lpPath : Option (List Byte)) :
    respHdrCb { line := 0x3a :: value, noNul, val := true, key := true } lpPath =
      some ((0x3a :: value).length, lpPath) := by
  have found : memchr (0x3a :: value) 0x3a (0x3a :: value).length = some (some 0) :=
    memchr_some List.not_mem_nil value
  simp only [respHdrCb, Bool.not_true, Bool.or_self, found, Option.bind_eq_bind, Option.bind_some]
  rfl

theorem respHdrCb_noValue {key : List Byte} {noNul : 0 ∉ key ++ [0x3a]} (plain : 0x3a ∉ key)
    (lpPath : Option (List Byte)) :
    respHdrCb { line := key ++ [0x3a], noNul, val := true, key := true } lpPath =
      some ((key ++ [0x3a]).length, lpPath) := by
  have last : key.length + 1 = (key ++ [0x3a]).length := by rw [List.length_append, List.length_singleton]
  simp only [respHdrCb, Bool.not_true, Bool.or_self, memchr_some plain, Option.bind_eq_bind, Option.bind_some,
    if_pos last, ite_self]

theorem respHdrCb_noMemory {call : HeaderCall} (memory : ¬ (call.val = true ∧ call.key = true))
    (lpPath : Option (List Byte)) : respHdrCb call lpPath = some (call.line.length, lpPath) := by
  have missing : (!call.key || !call.val) = true := by
    cases val : call.val with
    | false => exact Bool.or_true _
    | true =>
        cases key : call.key with
        | false => rfl
        | true => exact absurd ⟨val, key⟩ memory
  exact if_pos missing

/-- A line with a key and bytes behind the colon: the buffers hold the key and the stripped value. -/
theorem respHdrCb_colon {key value : List Byte} {noNul : 0 ∉ key ++ 0x3a :: value} (plain : 0x3a ∉ key)
    (hasKey : key ≠ []) (hasValue : value ≠ []) (lpPath : Option (List Byte)) :
    respHdrCb { line := key ++ 0x3a :: value, noNul, val := true, key := true } lpPath =
      some ((key ++ 0x3a :: value).length,
        if stripped value = [] then lpPath
        else if xLongPolling.map tolower == key.map tolower then
          some (Block.padded 0 (key ++ 0x3a :: value).length (stripped value))
        else lpPath) := by
  obtain ⟨size, sized⟩ : ∃ size, (key ++ 0x3a :: value).length = size := ⟨_, rfl⟩
  have total : size = key.length + 1 + value.length := by
    rw [← sized, List.length_append, List.length_cons]
    omega
  have keyPos : 0 < key.length := List.length_pos_of_ne_nil hasKey
  have valuePos : 0 < value.length := List.length_pos_of_ne_nil hasValue
  have lead_le : (value.dropWhile isSpace).length ≤ value.length := (List.dropWhile_suffix _).length_le
  have strip_le : (stripped value).length ≤ value.length := length_stripped_le value
  have keyPlain : 0 ∉ key := fun listed => noNul (List.mem_append_left _ listed)
  have valuePlain : 0 ∉ value := fun listed => noNul (List.mem_append_right _ (List.mem_cons_of_mem _ listed))
  have leadPlain : 0 ∉ value.dropWhile isSpace := fun listed => valuePlain ((List.dropWhile_suffix _).subset listed)
  have stripPlain : 0 ∉ stripped value := fun listed => valuePlain (stripped_subset value listed)
  have found : memchr (key ++ 0x3a :: value) 0x3a size = some (some key.length) := by
    rw [← sized, memchr_some plain]
  -- `key`
  have name : Block.load (key ++ 0x3a :: value) 0 key.length = some key := Block.load_append [] key (0x3a :: value)
  have keyStored : Block.store (List.replicate size 0) 0 key = some (Block.padded 0 size key) :=
    Block.store_cleared 0 key (by omega)
  have keyEnd : Block.store (Block.padded 0 size key) key.length [0] = some (Block.padded 0 size key) :=
    Block.store_padded_end 0 key (by omega)
  have compared : strcasecmp xLongPolling (Block.padded 0 size key) =
      some (xLongPolling.map tolower == key.map tolower) := by
    rw [strcasecmp, Block.cstring_padded 0 keyPlain (by omega), Option.map_some]
  -- `rem` and `val`
  obtain ⟨rem, skipped, loaded⟩ := skipSpace_eq (key ++ [0x3a]) value
  rw [List.append_assoc, List.singleton_append] at skipped loaded
  rw [List.length_append, List.length_singleton] at skipped
  have remlen : size - key.length - 1 = value.length := by omega
  have valStored : Block.store (List.replicate size 0) 0 (value.dropWhile isSpace) =
      some (Block.padded 0 size (value.dropWhile isSpace)) :=
    Block.store_cleared 0 _ (by omega)
  have valEnd : Block.store (Block.padded 0 size (value.dropWhile isSpace)) (value.dropWhile isSpace).length [0] =
      some (Block.padded 0 size (value.dropWhile isSpace)) :=
    Block.store_padded_end 0 _ (by omega)
  have trimmed : trimEnd size (Block.padded 0 size (value.dropWhile isSpace)) =
      some (Block.padded 0 size (stripped value)) := trimEnd_eq leadPlain (by omega) (by omega)
  have shorter : (stripped value).length < size := by omega
  obtain ⟨first, firstRead, blank⟩ := padded_first stripPlain shorter
  have noValue : key.length + 1 ≠ size := by omega
  simp only [respHdrCb, sized, Bool.not_true, Bool.or_self, Bool.false_eq_true, if_false, found,
    Option.bind_eq_bind, Option.bind_some, keyPos.ne', noValue, name, keyStored, keyEnd, remlen, skipped, loaded,
    valStored, valEnd, trimmed, firstRead, blank, compared]
  split
  · rfl
  · split
    · rfl
    · rfl

/-- A call returns the full length and does not leave its memory; it sets `lp_path` to the path that its line
    announces, and leaves it alone if the line announces none. -/
theorem respHdrCb_eq (call : HeaderCall) (lpPath : Option (List Byte)) :
    ∃ lpPath', respHdrCb call lpPath = some (call.line.length, lpPath') ∧
      ((∃ path, call.Announces path ∧ PointsTo lpPath' path) ∨
        ((∀ path, ¬ call.Announces path) ∧ lpPath' = lpPath)) := by
  obtain ⟨line, noNul, valMem, keyMem⟩ := call
  by_cases memory : valMem = true ∧ keyMem = true
  · obtain ⟨rfl, rfl⟩ := memory
    by_cases colon : 0x3a ∈ line
    · obtain ⟨key, value, rfl, plain⟩ := List.eq_append_cons_of_mem colon
      rcases eq_or_ne key [] with rfl | hasKey
      · exact ⟨lpPath, respHdrCb_noKey lpPath,
          .inr ⟨fun path announced => ((announces_iff plain).mp announced.2.2).1 rfl, rfl⟩⟩
      rcases eq_or_ne value [] with rfl | hasValue
      · refine ⟨lpPath, respHdrCb_noValue plain lpPath, .inr ⟨fun path announced => ?_, rfl⟩⟩
        obtain ⟨_, _, rfl, notEmpty⟩ := (announces_iff plain).mp announced.2.2
        exact notEmpty rfl
      rw [respHdrCb_colon plain hasKey hasValue lpPath]
      refine ⟨_, rfl, ?_⟩
      by_cases blank : stripped value = []
      · rw [if_pos blank]
        refine .inr ⟨fun path announced => ?_, rfl⟩
        obtain ⟨_, _, rfl, notEmpty⟩ := (announces_iff plain).mp announced.2.2
        exact notEmpty blank
      rw [if_neg blank]
      by_cases same : xLongPolling.map tolower = key.map tolower
      · rw [if_pos (beq_iff_eq.mpr same)]
        refine .inl ⟨stripped value, ⟨rfl, rfl, (announces_iff plain).mpr ⟨hasKey, same.symm, rfl, blank⟩⟩, _, rfl,
          Block.cstring_padded 0 (fun listed => ?_) ?_⟩
        · exact noNul (List.mem_append_right _ (List.mem_cons_of_mem _ (stripped_subset value listed)))
        · have shorter := length_stripped_le value
          rw [List.length_append, List.length_cons]
          omega
      · rw [if_neg fun equal => same (beq_iff_eq.mp equal)]
        exact .inr ⟨fun path announced => same ((announces_iff plain).mp announced.2.2).2.1.symm, rfl⟩
    · exact ⟨lpPath, respHdrCb_noColon colon lpPath,
        .inr ⟨fun path announced => not_announces colon path announced.2.2, rfl⟩⟩
  · exact ⟨lpPath, respHdrCb_noMemory memory lpPath,
      .inr ⟨fun path announced => memory ⟨announced.1, announced.2.1⟩, rfl⟩⟩

/-! ### All lines -/

/-- This path is announced, and none after it. -/
def LastAnnounced (calls : List HeaderCall) (path : List Byte) : Prop :=
  ∃ before call after, calls = before ++ call :: after ∧ call.Announces path ∧
    ∀ later ∈ after, ∀ other, ¬ later.Announces other

theorem lastAnnounced_cons {call : HeaderCall} {calls : List HeaderCall} {path : List Byte} :
    LastAnnounced (call :: calls) path ↔
      LastAnnounced calls path ∨ (call.Announces path ∧ ∀ later ∈ calls, ∀ other, ¬ later.Announces other) := by
  constructor
  · rintro ⟨before, last, after, same, announced, nothing⟩
    cases before with
    | nil =>
        obtain ⟨rfl, rfl⟩ := List.cons.inj same
        exact .inr ⟨announced, nothing⟩
    | cons first before => exact .inl ⟨before, last, after, (List.cons.inj same).2, announced, nothing⟩
  · rintro (⟨before, last, after, rfl, announced, nothing⟩ | ⟨announced, nothing⟩)
    · exact ⟨call :: before, last, after, rfl, announced, nothing⟩
    · exact ⟨[], call, calls, rfl, announced, nothing⟩

theorem HeaderCall.Announces.unique {call : HeaderCall} {path path' : List Byte} (announced : call.Announces path)
    (announced' : call.Announces path') : path = path' := by
  obtain ⟨_, _, key, value, line, plain, _, _, rfl, _⟩ := announced
  have again := announced'.2.2
  rw [line, announces_iff plain] at again
  exact again.2.2.1.symm

theorem LastAnnounced.unique {calls : List HeaderCall} {path path' : List Byte} (last : LastAnnounced calls path)
    (last' : LastAnnounced calls path') : path = path' := by
  induction calls with
  | nil =>
      obtain ⟨before, _, _, same, _⟩ := last
      cases before <;> cases same
  | cons call calls ih =>
      have excluded : ∀ {q}, LastAnnounced calls q → ¬ ∀ later ∈ calls, ∀ other, ¬ later.Announces other := by
        rintro q ⟨before, c, after, rfl, announced, _⟩ nothing
        exact nothing c (by simp) q announced
      rcases lastAnnounced_cons.mp last with later | ⟨announced, nothing⟩
      · rcases lastAnnounced_cons.mp last' with later' | ⟨_, nothing'⟩
        · exact ih later later'
        · exact absurd nothing' (excluded later)
      · rcases lastAnnounced_cons.mp last' with later' | ⟨announced', _⟩
        · exact absurd nothing (excluded later')
        · exact announced.unique announced'

/-- From any `lp_path`: the calls return the full lengths, and leave the last path that is announced, or what was there
    if there is none. -/
theorem respHdrCalls_eq (calls : List HeaderCall) (lpPath : Option (List Byte)) :
    ∃ lpPath', respHdrCalls calls lpPath = some (calls.map fun call => call.line.length, lpPath') ∧
      ((∃ path, LastAnnounced calls path ∧ PointsTo lpPath' path) ∨
        ((∀ call ∈ calls, ∀ path, ¬ call.Announces path) ∧ lpPath' = lpPath)) := by
  induction calls generalizing lpPath with
  | nil => exact ⟨lpPath, rfl, .inr ⟨fun call listed => absurd listed List.not_mem_nil, rfl⟩⟩
  | cons call calls ih =>
      obtain ⟨middle, called, first⟩ := respHdrCb_eq call lpPath
      obtain ⟨lpPath', rest, later⟩ := ih middle
      refine ⟨lpPath', ?_, ?_⟩
      · simp only [respHdrCalls, called, rest, Option.bind_eq_bind, Option.bind_some, Option.pure_def, List.map_cons]
      · rcases later with ⟨path, last, points⟩ | ⟨nothing, rfl⟩
        · exact .inl ⟨path, lastAnnounced_cons.mpr (.inl last), points⟩
        · rcases first with ⟨path, announced, points⟩ | ⟨silent, rfl⟩
          · exact .inl ⟨path, lastAnnounced_cons.mpr (.inr ⟨announced, nothing⟩), points⟩
          · refine .inr ⟨fun c listed => ?_, rfl⟩
            rcases List.mem_cons.mp listed with rfl | listed
            · exact silent
            · exact nothing c listed

/-- `resp_hdr_cb` for any lines of a reply: no call reads or writes outside its line and its buffers, each returns the
    full length of its line, and in the end `lp_path` points to the last path that is announced, and is not set if
    there is none. -/
theorem respHdrCalls_exact (calls : List HeaderCall) :
    ∃ lpPath, respHdrCalls calls none = some (calls.map fun call => call.line.length, lpPath) ∧
      (∀ path, PointsTo lpPath path ↔ LastAnnounced calls path) ∧
      (lpPath = none ↔ ∀ call ∈ calls, ∀ path, ¬ call.Announces path) := by
  obtain ⟨lpPath, called, result⟩ := respHdrCalls_eq calls none
  refine ⟨lpPath, called, ?_⟩
  rcases result with ⟨path, last, block, rfl, string⟩ | ⟨nothing, rfl⟩
  · refine ⟨fun other => ⟨?_, fun last' => ?_⟩, ?_⟩
    · rintro ⟨_, same, string'⟩
      cases same
      rw [string] at string'
      cases string'
      exact last
    · exact ⟨block, rfl, last.unique last' ▸ string⟩
    · refine iff_of_false (Option.some_ne_none _) fun nothing => ?_
      obtain ⟨before, call, after, rfl, announced, _⟩ := last
      exact nothing call (by simp) path announced
  · refine ⟨fun path => iff_of_false ?_ ?_, iff_of_true rfl nothing⟩
    · rintro ⟨_, same, _⟩
      cases same
    · rintro ⟨before, call, after, rfl, announced, _⟩
      exact nothing call (by simp) path announced

end CpuMiner
