/-
Module: CpuMiner.Wire.RpcCall
Layer: JSON
Purpose: `json_rpc_call` from the transfer on, and what `get_upstream_work` makes of its reply. The body comes in
  chunks, it is parsed up to its first NUL, and it is a response when it has a `result` and no `error`. A transfer gives
  the unit that its document grants (`Grants`), and a unit only then (`getUpstreamWork_transfer_iff`). The options of
  the transfer and the log are left out; the header lines are in `CpuMiner.Util.Header`.
Imports: CpuMiner.Threads.GetWork, CpuMiner.Util.DataBuffer, CpuMiner.Wire.Texts, CpuMiner.Wire.Values
Trusted boundary: human-reviewed spec (the transcription of the C code, `Grants`)
Main exports: Value.objectGet, Value.json, Transfer, jsonRpcCall, Grants, Transfer.Grants, jsonRpcCall_eq,
  jsonRpcCall_denotes, getUpstreamWork_transfer_iff, Transfer.Gives, workioGetWork_transfers
Open obligations: none
-/
import CpuMiner.Threads.GetWork
import CpuMiner.Util.DataBuffer
import CpuMiner.Wire.Texts
import CpuMiner.Wire.Values

namespace CpuMiner.Jansson

open Words

variable {ρ : Type} {libc : Libc ρ}

/-! ### Values of C -/

/-- `json_object_get` -/
def Value.objectGet : Value ρ → List Byte → Option (Value ρ)
  | .object table, key => table.get key
  | _, _ => none

/-- `json_is_null` -/
def Value.isNull : Value ρ → Bool
  | .null => Bool.true
  | _ => Bool.false

/-- A `char *` is read up to its NUL. -/
def cstring (value : List Byte) : CString where
  bytes := value.takeWhile (· ≠ 0)
  noNul listed := absurd (List.mem_takeWhile_imp listed) (by decide)

mutual

/-- A value as the miner looks at it. -/
def Value.json : Value ρ → Json
  | .object table => .object (tableJson table)
  | .string value => .string (cstring value)
  | .array _ | .integer _ | .real _ | .true | .false | .null => .other

def tableJson : Table (List Byte) (Value ρ) → String → Option Json
  | ⟨_, pairs⟩ => pairsJson pairs

def pairsJson : List (List Byte × Value ρ) → String → Option Json
  | [], _ => none
  | p :: pairs, key => if p.1 = ascii key then some (pairJson p) else pairsJson pairs key

def pairJson : List Byte × Value ρ → Json
  | (_, value) => value.json

end

/-! ### The call -/

/-- What `curl_easy_perform` returns, the chunks that came before that, and whether `errno` is `ERANGE` when the body is
    parsed. -/
structure Transfer where
  rc : Int
  chunks : List (List Byte)
  errno : Bool

/-- There is no `result`, or there is an `error`. -/
def rpcFailed (resVal errVal : Option (Value ρ)) : Bool :=
  resVal.all Value.isNull || errVal.any fun errVal => !errVal.isNull

/-- `json_rpc_call`, when the transfer is this: what it returns. Nothing when it goes outside its memory. -/
def jsonRpcCall (libc : Libc ρ) (transfer : Transfer) : Option (Option (Value ρ)) := do
  let buf ← jsonLoadsInput transfer.chunks
  if transfer.rc ≠ 0 then return none
  let string ← buf.bind cstr
  let loaded ← jsonLoads libc string transfer.errno
  match loaded.result with
  | none => return none
  | some val =>
      if rpcFailed (val.objectGet (ascii "result")) (val.objectGet (ascii "error")) then return none
      else return some val

/-- The body, up to its first NUL. -/
def Transfer.body (transfer : Transfer) : CString := cstring transfer.chunks.flatten

/-- A body has come where there was no error, and its length and its NUL can be counted. -/
structure Transfer.Arrived (transfer : Transfer) : Prop where
  some_chunk : transfer.rc = 0 → transfer.chunks ≠ []
  counts : transfer.chunks.flatten.length + 1 < 0x10000000000000000

theorem cstr_map (text : List Byte) : cstr ((text ++ [0]).map some) = some (cstring text).bytes := by
  induction text with
  | nil => rfl
  | cons c text ih =>
      by_cases isNul : c = 0
      · subst isNul
        rfl
      · have more : cstr ((c :: text ++ [0]).map some) = (cstr ((text ++ [0]).map some)).map (c :: ·) := if_neg isNul
        have front : (cstring (c :: text)).bytes = c :: (cstring text).bytes := by
          simpa [cstring, List.takeWhile_cons] using isNul
        rw [more, ih, Option.map_some, front]

/-- What is handed to the parser is the body. -/
theorem jsonLoadsInput_body {transfer : Transfer} (arrived : transfer.Arrived) :
    ∃ buf, jsonLoadsInput transfer.chunks = some buf ∧
      (transfer.rc = 0 → buf.bind cstr = some transfer.body.bytes) := by
  cases isChunks : transfer.chunks with
  | nil => exact ⟨none, rfl, fun fine => absurd isChunks (arrived.some_chunk fine)⟩
  | cons chunk later =>
      have counts := arrived.counts
      rw [isChunks, List.flatten_cons] at counts
      have first : ([] ++ chunk).length + 1 < 0x10000000000000000 := by
        rw [List.length_append] at counts
        rw [List.nil_append]
        omega
      obtain ⟨db, called, holds⟩ := allDataCb_eq allData_begins first
      obtain ⟨db', rest, holds'⟩ := receiveBody_holds holds counts
      refine ⟨db'.buf, ?_, fun _ => ?_⟩
      · simp only [jsonLoadsInput, receiveBody, called, Option.bind_eq_bind, Option.bind_some, rest, Option.map_some]
      · rw [holds'.buf, Transfer.body, isChunks]
        exact cstr_map (chunk ++ later.flatten)

/-- `json_rpc_call` comes back from every transfer. -/
theorem jsonRpcCall_eq {transfer : Transfer} (arrived : transfer.Arrived) :
    ∃ val, jsonRpcCall libc transfer = some val ∧ ∀ value, val = some value ↔
      transfer.rc = 0 ∧ (∃ loaded, jsonLoads libc transfer.body.bytes transfer.errno = some loaded ∧
        loaded.result = some value) ∧
      rpcFailed (value.objectGet (ascii "result")) (value.objectGet (ascii "error")) = false := by
  obtain ⟨buf, input, isBody⟩ := jsonLoadsInput_body arrived
  obtain ⟨loaded, loads, _⟩ := @jsonLoads_total ρ libc transfer.body.bytes transfer.body.noNul transfer.errno
  by_cases fine : transfer.rc = 0
  · cases result : loaded.result with
    | none =>
        refine ⟨none, ?_, fun value => ⟨fun nothing => (nomatch nothing), ?_⟩⟩
        · simp [jsonRpcCall, input, fine, isBody fine, loads, result]
        · rintro ⟨_, ⟨loaded', loads', result'⟩, _⟩
          obtain rfl := Option.some.inj (loads.symm.trans loads')
          rw [result] at result'
          cases result'
    | some val =>
        cases failed : rpcFailed (val.objectGet (ascii "result")) (val.objectGet (ascii "error")) with
        | true =>
            refine ⟨none, ?_, fun value => ⟨fun nothing => (nomatch nothing), ?_⟩⟩
            · simp [jsonRpcCall, input, fine, isBody fine, loads, result, failed]
            · rintro ⟨_, ⟨loaded', loads', result'⟩, succeeded⟩
              obtain rfl := Option.some.inj (loads.symm.trans loads')
              obtain rfl := Option.some.inj (result.symm.trans result')
              rw [failed] at succeeded
              cases succeeded
        | false =>
            refine ⟨some val, ?_, fun value => ⟨?_, ?_⟩⟩
            · simp [jsonRpcCall, input, fine, isBody fine, loads, result, failed]
            · rintro ⟨⟩
              exact ⟨fine, ⟨loaded, loads, result⟩, failed⟩
            · rintro ⟨_, ⟨loaded', loads', result'⟩, _⟩
              obtain rfl := Option.some.inj (loads.symm.trans loads')
              exact result.symm.trans result'
  · refine ⟨none, ?_, fun value => ⟨fun nothing => (nomatch nothing), fun ⟨fine', _⟩ => absurd fine' fine⟩⟩
    simp [jsonRpcCall, input, fine]

/-! ### Objects -/

theorem objectGet_value (tree : Tree) (key : List Byte) :
    (tree.value libc).objectGet key = (tree.member key).map (Tree.value libc) := by
  cases tree with
  | object members =>
      simp only [Tree.value, Value.objectGet, Tree.member, get_membersValue members Table.wf_empty key]
      exact Option.or_none
  | array elements => simp only [Tree.value, Value.objectGet, Tree.member, Option.map_none]
  | string value => simp only [Tree.value, Value.objectGet, Tree.member, Option.map_none]
  | integer value => simp only [Tree.value, Value.objectGet, Tree.member, Option.map_none]
  | real text => simp only [Tree.value, Value.objectGet, Tree.member, Option.map_none]
  | true => simp only [Tree.value, Value.objectGet, Tree.member, Option.map_none]
  | false => simp only [Tree.value, Value.objectGet, Tree.member, Option.map_none]
  | null => simp only [Tree.value, Value.objectGet, Tree.member, Option.map_none]

theorem pairsJson_eq (pairs : List (List Byte × Value ρ)) (key : String) :
    pairsJson pairs key = (pairs.find? fun p => p.1 = ascii key).map fun p => p.2.json := by
  induction pairs with
  | nil => simp only [pairsJson, List.find?_nil, Option.map_none]
  | cons p pairs ih =>
      by_cases same : p.1 = ascii key
      · obtain ⟨key', value⟩ := p
        simp only at same
        simp [pairsJson, pairJson, same]
      · simp [pairsJson, same, ih]

theorem objectGet_json (value : Value ρ) (key : String) :
    value.json.objectGet key = (value.objectGet (ascii key)).map Value.json := by
  cases value with
  | object table =>
      obtain ⟨numBuckets, pairs⟩ := table
      simp only [Value.json, Json.objectGet, tableJson, pairsJson_eq, Value.objectGet, Table.get, Option.map_map]
      rfl
  | array elements => simp only [Value.json, Json.objectGet, Value.objectGet, Option.map_none]
  | string value => simp only [Value.json, Json.objectGet, Value.objectGet, Option.map_none]
  | integer value => simp only [Value.json, Json.objectGet, Value.objectGet, Option.map_none]
  | real value => simp only [Value.json, Json.objectGet, Value.objectGet, Option.map_none]
  | true => simp only [Value.json, Json.objectGet, Value.objectGet, Option.map_none]
  | false => simp only [Value.json, Json.objectGet, Value.objectGet, Option.map_none]
  | null => simp only [Value.json, Json.objectGet, Value.objectGet, Option.map_none]

/-! ### What is granted -/

/-- A response that grants this unit: it has no `error`, and a `result` whose members are strings of pairs that denote
    the bytes of the unit: in hexadecimal, or what `pairByte` takes for it. Of members with the same key the last one
    counts. -/
structure Grants (tree : Tree) (work : Work) : Prop where
  noError : ∀ error, tree.member (ascii "error") = some error → error = .null
  fields : ∃ result, tree.member (ascii "result") = some result ∧
    ∀ field : Field, ∃ hexstr, result.member (ascii field.key) = some (.string hexstr) ∧
      pairValues hexstr = some (work.bytes field)
  hash : work.hash = fun _ => 0

/-- The transfer has brought a document that grants this unit. -/
def Transfer.Grants (libc : Libc ρ) (transfer : Transfer) (work : Work) : Prop :=
  transfer.rc = 0 ∧ ∃ tree document junk errno, Document tree transfer.body.bytes document junk ∧
    tree.errno libc transfer.errno = some errno ∧ Jansson.Grants tree work

theorem isNull_value {tree : Tree} : (tree.value libc).isNull = true ↔ tree = .null := by
  cases tree <;> simp [Tree.value, Value.isNull]

theorem cstring_of_noNul {value : List Byte} (noNul : 0 ∉ value) : (cstring value).bytes = value := by
  refine List.takeWhile_eq_self_iff.mpr fun c listed => decide_eq_true ?_
  rintro rfl
  exact noNul listed

/-- The test of `json_rpc_call` on a tree. -/
theorem rpcFailed_value {tree : Tree} :
    rpcFailed ((tree.value libc).objectGet (ascii "result")) ((tree.value libc).objectGet (ascii "error")) = false ↔
      (∃ result, tree.member (ascii "result") = some result ∧ result ≠ .null) ∧
      ∀ error, tree.member (ascii "error") = some error → error = .null := by
  rw [objectGet_value, objectGet_value, rpcFailed, Bool.or_eq_false_iff]
  refine and_congr ?_ ?_
  · cases tree.member (ascii "result") with
    | none => simp
    | some result =>
        rw [Option.map_some, Option.all_some, Bool.eq_false_iff, Ne, isNull_value]
        simp
  · cases tree.member (ascii "error") with
    | none => simp
    | some error =>
        rw [Option.map_some, Option.any_some, Bool.not_eq_false', isNull_value]
        simp

/-- A string of a tree, as the miner gets it. -/
theorem json_string_iff {tree : Tree} (wf : (tree.value libc).Wf) {hexstr : CString} :
    (tree.value libc).json = .string hexstr ↔ tree = .string hexstr.bytes := by
  cases tree with
  | string value =>
      rw [Tree.value] at wf ⊢
      rw [Value.json, Json.string.injEq, Tree.string.injEq]
      cases wf with
      | string chars =>
          constructor
          · rintro rfl
            exact (cstring_of_noNul chars.noNul).symm
          · rintro rfl
            obtain ⟨bytes, noNul⟩ := hexstr
            exact (CString.mk.injEq ..).mpr (cstring_of_noNul noNul)
  | object members => simp [Tree.value, Value.json]
  | array elements => simp [Tree.value, Value.json]
  | integer value => simp [Tree.value, Value.json]
  | real text => simp [Tree.value, Value.json]
  | true => simp [Tree.value, Value.json]
  | false => simp [Tree.value, Value.json]
  | null => simp [Tree.value, Value.json]

/-- The members of a well formed tree are well formed. -/
theorem wf_member {tree member : Tree} {key : List Byte} (wf : (tree.value libc).Wf)
    (found : tree.member key = some member) : (member.value libc).Wf := by
  have got := @objectGet_value ρ libc tree key
  rw [found, Option.map_some] at got
  cases isObject : tree.value libc with
  | object table =>
      rw [isObject] at wf got
      cases wf with
      | object nodup _ values => exact values _ ((Table.get_eq_some nodup).mp got)
  | array elements => rw [isObject] at got; cases got
  | string value => rw [isObject] at got; cases got
  | integer value => rw [isObject] at got; cases got
  | real value => rw [isObject] at got; cases got
  | true => rw [isObject] at got; cases got
  | false => rw [isObject] at got; cases got
  | null => rw [isObject] at got; cases got

/-- A well formed response denotes what its tree grants. -/
theorem denotes_iff {tree : Tree} (wf : (tree.value libc).Wf) {work : Work} :
    Denotes (some (tree.value libc).json) work ↔
      (∃ result, tree.member (ascii "result") = some result ∧
        ∀ field : Field, ∃ hexstr, result.member (ascii field.key) = some (.string hexstr) ∧
          pairValues hexstr = some (work.bytes field)) ∧
      work.hash = fun _ => 0 := by
  refine and_congr_left fun _ => ?_
  constructor
  · rintro ⟨val, json, isVal, found, fields⟩
    rw [← Option.some.inj isVal, objectGet_json, objectGet_value, Option.map_map, Option.map_eq_some_iff] at found
    obtain ⟨result, isResult, rfl⟩ := found
    refine ⟨result, isResult, fun field => ?_⟩
    obtain ⟨hexstr, string, bytes⟩ := fields field
    rw [Function.comp_apply, objectGet_json, objectGet_value, Option.map_map, Option.map_eq_some_iff] at string
    obtain ⟨member, isMember, isString⟩ := string
    refine ⟨hexstr.bytes, ?_, bytes⟩
    rw [isMember, (json_string_iff (wf_member (wf_member wf isResult) isMember)).mp isString]
  · rintro ⟨result, isResult, fields⟩
    refine ⟨_, (result.value libc).json, rfl, ?_, fun field => ?_⟩
    · rw [objectGet_json, objectGet_value, isResult]
      rfl
    · obtain ⟨hexstr, isMember, bytes⟩ := fields field
      have wf' := wf_member (wf_member wf isResult) isMember
      have noNul : 0 ∉ hexstr := by
        rw [Tree.value] at wf'
        cases wf' with
        | string chars => exact chars.noNul
      refine ⟨⟨hexstr, noNul⟩, ?_, bytes⟩
      rw [objectGet_json, objectGet_value, isMember]
      exact congrArg some ((@json_string_iff ρ libc _ wf' ⟨hexstr, noNul⟩).mpr rfl)

/-- What was loaded is a document, and well formed. -/
theorem loaded_iff {string : List Byte} (noNul : 0 ∉ string) {errno : Bool} {value : Value ρ} :
    (∃ loaded, jsonLoads libc string errno = some loaded ∧ loaded.result = some value) ↔
      ∃ tree document junk errno', Document tree string document junk ∧ tree.errno libc errno = some errno' ∧
        value = tree.value libc := by
  constructor
  · rintro ⟨loaded, loads, result⟩
    obtain ⟨loaded', loads', outcome⟩ := @jsonLoads_total ρ libc string noNul errno
    obtain rfl := Option.some.inj (loads.symm.trans loads')
    rcases outcome with ⟨nothing, _⟩ | ⟨tree, text, comes, form, result', accepted⟩
    · rw [result] at nothing
      cases nothing
    · obtain ⟨document, junk, found⟩ := exists_document.mp ⟨text, form, comes⟩
      exact ⟨tree, document, junk, _, found, accepted, Option.some.inj (result.symm.trans result')⟩
  · rintro ⟨tree, document, junk, errno', found, accepted, rfl⟩
    obtain ⟨text, form, comes⟩ := exists_document.mpr ⟨document, junk, found⟩
    obtain ⟨loaded, loads, result, _⟩ := jsonLoads_document noNul form comes accepted
    exact ⟨loaded, loads, result⟩

theorem Document.wf {tree : Tree} {string document junk : List Byte} (found : Document tree string document junk) :
    (tree.value libc).Wf := by
  cases found.text with
  | intro white value white' _ => exact value.wf (Valid.between found.valid white white')

/-- What a transfer gives denotes the unit that its document grants. -/
theorem jsonRpcCall_denotes {transfer : Transfer} (arrived : transfer.Arrived) :
    ∃ val, jsonRpcCall libc transfer = some val ∧
      ∀ work, Denotes (val.map Value.json) work ↔ transfer.Grants libc work := by
  obtain ⟨val, called, returned⟩ := @jsonRpcCall_eq ρ libc transfer arrived
  refine ⟨val, called, fun work => ⟨?_, ?_⟩⟩
  · intro denoted
    cases val with
    | none =>
        obtain ⟨⟨_, _, nothing, _⟩, _⟩ := denoted
        cases nothing
    | some value =>
        obtain ⟨fine, loaded, succeeded⟩ := (returned value).mp rfl
        obtain ⟨tree, document, junk, errno, found, accepted, rfl⟩ := (loaded_iff transfer.body.noNul).mp loaded
        obtain ⟨fields, hash⟩ := (denotes_iff found.wf).mp denoted
        exact ⟨fine, tree, document, junk, errno, found, accepted, (rpcFailed_value.mp succeeded).2, fields, hash⟩
  · rintro ⟨fine, tree, document, junk, errno, found, accepted, noError, fields, hash⟩
    have notNull : ∃ result, tree.member (ascii "result") = some result ∧ result ≠ .null := by
      obtain ⟨result, isResult, members⟩ := fields
      refine ⟨result, isResult, ?_⟩
      rintro rfl
      obtain ⟨hexstr, nothing, _⟩ := members .data
      cases nothing
    have isVal : val = some (tree.value libc) := (returned _).mpr
      ⟨fine, (loaded_iff transfer.body.noNul).mpr ⟨tree, document, junk, errno, found, accepted, rfl⟩,
        rpcFailed_value.mpr ⟨notNull, noError⟩⟩
    rw [isVal]
    exact (denotes_iff found.wf).mpr ⟨fields, hash⟩

/-- From the bytes of a transfer to the unit of work: `get_upstream_work` returns true, and leaves this unit, if the
    transfer has brought a document that grants it. -/
theorem getUpstreamWork_transfer_iff (libc : Libc ρ) {transfer : Transfer} (arrived : transfer.Arrived)
    (before work : Work) :
    ∃ val, jsonRpcCall libc transfer = some val ∧
      (getUpstreamWork (val.map Value.json) before = (work, true) ↔ transfer.Grants libc work) := by
  obtain ⟨val, called, denotes⟩ := @jsonRpcCall_denotes ρ libc transfer arrived
  exact ⟨val, called, (getUpstreamWork_iff _ before work).trans (denotes work)⟩

/-- A member whose string needs no escapes. -/
def memberText (key value : List Byte) : List Byte := stringText key ++ 0x3A :: stringText value

/-- A response with the fields of this unit. -/
def grantTree (work : Work) : Tree :=
  .object [(ascii "result", .object
    [(ascii "midstate", .string (Hex.encode (work.bytes .midstate))),
      (ascii "data", .string (Hex.encode (work.bytes .data))),
      (ascii "hash1", .string (Hex.encode (work.bytes .hash1))),
      (ascii "target", .string (Hex.encode (work.bytes .target)))])]

def grantText (work : Work) : List Byte :=
  ascii "\x7b\"result\":\x7b" ++ memberText (ascii "midstate") (Hex.encode (work.bytes .midstate)) ++ ascii "," ++
    memberText (ascii "data") (Hex.encode (work.bytes .data)) ++ ascii "," ++
    memberText (ascii "hash1") (Hex.encode (work.bytes .hash1)) ++ ascii "," ++
    memberText (ascii "target") (Hex.encode (work.bytes .target)) ++ ascii "\x7d\x7d"

theorem grant_text (work : Work) : Text (grantTree work) (grantText work) := by
  have nothing : White [] := white_nil
  have key : ∀ {text : List Byte}, (text.all isPlain) = true → StringText text text := stringText_of_all
  have value : ∀ field : Field, ValueText (.string (Hex.encode (work.bytes field)))
      (stringText (Hex.encode (work.bytes field))) := fun _ => .string (.of_digits Hex.isDigit_of_mem_encode)
  have target := MembersText.last nothing (@key (ascii "target") (by decide)) nothing nothing (value .target) nothing
  have hash1 := MembersText.more nothing (@key (ascii "hash1") (by decide)) nothing nothing (value .hash1) nothing
    target
  have data := MembersText.more nothing (@key (ascii "data") (by decide)) nothing nothing (value .data) nothing hash1
  have midstate := MembersText.more nothing (@key (ascii "midstate") (by decide)) nothing nothing (value .midstate)
    nothing data
  have result := MembersText.last nothing (@key (ascii "result") (by decide)) nothing nothing (.object midstate)
    nothing
  have whole := Text.intro nothing (.object result) nothing rfl
  simpa [grantTree, grantText, memberText, stringText, ascii, quote] using whole

theorem grant_grants (work : Work) (hash : work.hash = fun _ => 0) : Jansson.Grants (grantTree work) work where
  noError error isError := by
    simp [grantTree, Tree.member, lastMember, ascii] at isError
  fields := by
    refine ⟨_, rfl, fun field => ⟨Hex.encode (work.bytes field), ?_, ?_⟩⟩
    · cases field <;> rfl
    · rw [pairValues_digits (work.length_bytes field ▸ Hex.length_encode _) Hex.isDigit_of_mem_encode,
        Hex.denote_encode]
  hash := hash

/-- A C library whose numbers are 64 bits wide, and that takes every real number for the same. -/
def exampleLibc : Libc Unit where
  longMax := 0x7FFFFFFFFFFFFFFF
  strtod _ := ((), false)
  isZero _ := false
  intMax_le := intMax_le_longMax

/-- The unit of zeros, in one piece. -/
def zerosTransfer : Transfer where
  rc := 0
  chunks := [grantText zeroWork]
  errno := false

theorem zerosTransfer_arrived : zerosTransfer.Arrived :=
  ⟨fun _ => List.cons_ne_nil _ _, by decide +kernel⟩

theorem zerosTransfer_grants : zerosTransfer.Grants exampleLibc zeroWork := by
  have small : ∀ c ∈ grantText zeroWork, c.toNat < 0x80 := ascii_of_all (by decide +kernel)
  have noNul : 0 ∉ zerosTransfer.chunks.flatten := by decide +kernel
  refine ⟨rfl, grantTree zeroWork, grantText zeroWork, [], false, ?_, ?_, grant_grants zeroWork rfl⟩
  · rw [Transfer.body, cstring_of_noNul noNul, zerosTransfer, List.flatten_singleton]
    exact .of_ascii (grant_text zeroWork) small
  · simp only [grantTree, Tree.errno, membersErrno, Option.bind_some, zerosTransfer]

theorem getUpstreamWork_transfer_iff_zeros : ∃ val, jsonRpcCall exampleLibc zerosTransfer = some val ∧
    getUpstreamWork (val.map Value.json) zeroWork = (zeroWork, true) := by
  obtain ⟨val, called, granted⟩ := getUpstreamWork_transfer_iff exampleLibc zerosTransfer_arrived zeroWork zeroWork
  exact ⟨val, called, granted.mpr zerosTransfer_grants⟩

/-! ### All transfers -/

/-- `json_rpc_call` makes this of the transfer. -/
def Transfer.Gives (libc : Libc ρ) (transfer : Transfer) (reply : Option Json) : Prop :=
  ∃ val, jsonRpcCall libc transfer = some val ∧ reply = val.map Value.json

/-- A reply denotes what the transfer grants. -/
theorem Transfer.Gives.denotes_iff {transfer : Transfer} {reply : Option Json} (gives : transfer.Gives libc reply)
    (arrived : transfer.Arrived) (work : Work) : Denotes reply work ↔ transfer.Grants libc work := by
  obtain ⟨val, called, rfl⟩ := gives
  obtain ⟨val', called', denotes⟩ := @jsonRpcCall_denotes ρ libc transfer arrived
  obtain rfl := Option.some.inj (called.symm.trans called')
  exact denotes work

/-- When `workio_get_work` returns true, the unit of the first transfer that grants one is at the end of the queue,
    whatever the transfers before it have brought; without an entry, or on a frozen queue, it is not pushed. -/
theorem workioGetWork_transfers {n : Nat} (libc : Libc ρ) {cfg : Config n} {calloc ent : Bool}
    {transfers : Nat → Transfer} (arrived : ∀ k, (transfers k).Arrived) {replies : Nat → Option Json}
    (gives : ∀ k, (transfers k).Gives libc (replies k)) {q : ThreadQ Work} {passes : Nat} {out : GetWork}
    (returned : workioGetWork cfg calloc ent replies q passes = some out) (fetched : out.rc = true) :
    ∃ k work, (transfers k).Grants libc work ∧ (∀ j, j < k → ∀ other, ¬ (transfers j).Grants libc other) ∧
      out.q = (if ent = true ∧ q.frozen = false then { q with q := q.q ++ [work] } else q) ∧
      out.attempts = k + 1 := by
  have grants : ∀ k work, Denotes (replies k) work ↔ (transfers k).Grants libc work := fun k work =>
    (gives k).denotes_iff (arrived k) work
  cases calloc with
  | false =>
      obtain rfl := Option.some.inj returned
      cases fetched
  | true =>
      obtain ⟨left, run, rfl⟩ := Option.map_eq_some_iff.mp returned
      obtain ⟨o, ends, rfl⟩ := (getWork_simulates cfg replies).ends_of_returns ⟨rfl, fun _ => rfl⟩ ⟨passes, run⟩
      cases ends with
      | exhausted _ _ _ => cases fetched
      | @found k work isOpen picked =>
          refine ⟨k, work, (grants k work).mp (fetchPick_eq_some.mp picked), fun j before other granted => ?_,
            pushOrFree_eq ent q work, rfl⟩
          exact fetchPick_eq_none.mp (isOpen j before).1 other ((grants j other).mpr granted)

/-- A transfer that fails, and then the unit of zeros. -/
def exampleTransfers (k : Nat) : Transfer :=
  if k = 0 then { rc := 7, chunks := [], errno := false } else zerosTransfer

theorem workioGetWork_transfers_second : ∃ replies out, (∀ k, (exampleTransfers k).Gives exampleLibc (replies k)) ∧
    workioGetWork { exampleConfig with optRetries := 1 } true true replies ThreadQ.new 2 = some out ∧
    ∃ k work, (exampleTransfers k).Grants exampleLibc work ∧
      (∀ j, j < k → ∀ other, ¬ (exampleTransfers j).Grants exampleLibc other) ∧
      out.q = { q := [work], frozen := false } ∧ out.attempts = k + 1 := by
  obtain ⟨val, called, denotes⟩ := @jsonRpcCall_denotes Unit exampleLibc zerosTransfer zerosTransfer_arrived
  have granted : getUpstreamWork (val.map Value.json) zeroWork = (zeroWork, true) :=
    (getUpstreamWork_iff _ zeroWork zeroWork).mpr ((denotes zeroWork).mpr zerosTransfer_grants)
  have arrived : ∀ k, (exampleTransfers k).Arrived := by
    intro k
    unfold exampleTransfers
    split
    · exact ⟨fun fine => absurd fine (by decide), by decide⟩
    · exact zerosTransfer_arrived
  have gives : ∀ k, (exampleTransfers k).Gives exampleLibc (if k = 0 then none else val.map Value.json) := by
    intro k
    unfold exampleTransfers
    split
    · exact ⟨none, rfl, rfl⟩
    · exact ⟨val, called, rfl⟩
  have returned : workioGetWork { exampleConfig with optRetries := 1 } true true
      (fun k => if k = 0 then none else val.map Value.json) ThreadQ.new 2 =
        some { rc := true, q := pushOrFree true ThreadQ.new zeroWork, attempts := 2 } := by
    have failed : getUpstreamWork none zeroWork = (zeroWork, false) := rfl
    simp [workioGetWork, Loop.run, getWorkBody, failed, granted, Config.tryAgain, GetWorkEnd.finish]
  exact ⟨_, _, gives, returned, workioGetWork_transfers exampleLibc arrived gives returned rfl⟩

end CpuMiner.Jansson
