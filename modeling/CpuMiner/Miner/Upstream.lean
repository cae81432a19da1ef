/-
Module: CpuMiner.Miner.Upstream
Layer: Miner
Purpose: The work unit on its way from the server and back: `jobj_binary` and `work_decode` read it from the JSON
  result, a scan changes it, and `submit_upstream_work` writes its data into the getwork call. When the received
  data is a string of hexadecimal digits, the string in the call is that string in lower case, with the digits of
  the reported nonce in their place (`submitted_digits`).
Imports: CpuMiner.Miner.Switch, CpuMiner.Util.Hex
Trusted boundary: human-reviewed spec (the transcription of the C code)
Main exports: Json, Field, FieldError, jobjBinary, DecodeError, workDecode, workDecode_accepted, getworkCall,
  submitRequest, ScanReports, minerScan_reports, submitted_digits
Open obligations: none
-/
import CpuMiner.Miner.Switch
import CpuMiner.Util.Hex

namespace CpuMiner

open Words
open Sha256
open FourWay
open Scan
open Simd

/-! ### Decoding -/

/-- What the code sees of a JSON value. It does not look into the kinds that are `other`. -/
inductive Json where
  | string (value : CString)
  | object (member : String → Option Json)
  | other

/-- `json_object_get` -/
def Json.objectGet : Json → String → Option Json
  | .object member, key => member key
  | _, _ => none

/-- `json_string_value` -/
def Json.stringValue : Json → Option CString
  | .string value => some value
  | _ => none

/-- The fields of `struct work` that come from the server. -/
inductive Field where
  | midstate
  | data
  | hash1
  | target
deriving DecidableEq

def Field.key : Field → String
  | .midstate => "midstate"
  | .data => "data"
  | .hash1 => "hash1"
  | .target => "target"

/-- `sizeof` of the field. -/
def Field.size : Field → Nat
  | .midstate => 32
  | .data => 128
  | .hash1 => 64
  | .target => 32

namespace Work

/-- The bytes of a field. -/
def bytes (work : Work) : Field → List Byte
  | .midstate => List.ofFn work.midstate
  | .data => List.ofFn work.data
  | .hash1 => List.ofFn work.hash1
  | .target => List.ofFn work.target

/-- The work after bytes were written to a field, from its start on. -/
def write (work : Work) (written : List Byte) : Field → Work
  | .midstate => { work with midstate := work.midstate.write written }
  | .data => { work with data := work.data.write written }
  | .hash1 => { work with hash1 := work.hash1.write written }
  | .target => { work with target := work.target.write written }

theorem bytes_write (work : Work) {written : List Byte} {field : Field} (length : written.length = field.size) :
    (work.write written field).bytes field = written := by
  cases field <;> exact Buf.ofFn_write _ length

theorem bytes_write_of_ne (work : Work) (written : List Byte) {field other : Field} (ne : other ≠ field) :
    (work.write written field).bytes other = work.bytes other := by
  cases field <;> cases other <;> first | rfl | exact absurd rfl ne

theorem length_bytes (work : Work) (field : Field) : (work.bytes field).length = field.size := by
  cases field <;> exact List.length_ofFn

/-- A unit is its four fields and its hash. -/
theorem ext_bytes {work work' : Work} (fields : ∀ field, work.bytes field = work'.bytes field)
    (hash : work.hash = work'.hash) : work = work' := by
  obtain ⟨data, hash1, midstate, target, _⟩ := work
  obtain ⟨data', hash1', midstate', target', _⟩ := work'
  obtain rfl : data = data' := List.ofFn_injective (fields .data)
  obtain rfl : hash1 = hash1' := List.ofFn_injective (fields .hash1)
  obtain rfl : midstate = midstate' := List.ofFn_injective (fields .midstate)
  obtain rfl : target = target' := List.ofFn_injective (fields .target)
  obtain rfl := hash
  rfl

end Work

/-- Why a field is not accepted. -/
inductive FieldError where
  | notFound
  | notString
  | hex2bin (error : HexError)
deriving DecidableEq

/-- What `jobj_binary` does: the bytes it wrote to `buf`, and `none` for `true`. -/
structure JobjBinary where
  written : List Byte
  error : Option FieldError

/-- `jobj_binary` -/
def jobjBinary (obj : Json) (key : String) (buflen : Nat) : JobjBinary :=
  match obj.objectGet key with
  | none => ⟨[], some .notFound⟩
  | some tmp =>
      match tmp.stringValue with
      | none => ⟨[], some .notString⟩
      | some hexstr =>
          let decoded := hex2bin hexstr.bytes buflen
          ⟨decoded.written, decoded.error.map .hex2bin⟩

/-- The field that was refused, and why. -/
structure DecodeError where
  field : Field
  error : FieldError
deriving DecidableEq

/-- The lines that are logged: `jobj_binary` or `hex2bin` says what is wrong, `work_decode` says where. -/
def DecodeError.log (e : DecodeError) : List String :=
  let cause := match e.error with
    | .notFound => ["JSON key '" ++ e.field.key ++ "' not found"]
    | .notString => ["JSON key '" ++ e.field.key ++ "' is not a string"]
    | .hex2bin error => error.message.toList
  cause ++ ["JSON inval " ++ e.field.key]

/-- The work as `work_decode` leaves it, and `none` for `true`. -/
structure WorkDecode where
  work : Work
  error : Option DecodeError
deriving DecidableEq

/-- The fields that are left, in order. The first one that is refused ends the function; the hash is cleared
    after the last one. -/
def decodeFields (val : Json) : List Field → Work → WorkDecode
  | [], work => ⟨{ work with hash := fun _ => 0 }, none⟩
  | field :: fields, work =>
      let binary := jobjBinary val field.key field.size
      let work := work.write binary.written field
      match binary.error with
      | some error => ⟨work, some ⟨field, error⟩⟩
      | none => decodeFields val fields work

/-- `work_decode` -/
def workDecode (val : Json) (work : Work) : WorkDecode :=
  decodeFields val [.midstate, .data, .hash1, .target] work

theorem jobjBinary_string {obj : Json} {key : String} {buflen : Nat} {hexstr : CString}
    (field : obj.objectGet key = some (.string hexstr)) :
    jobjBinary obj key buflen =
      ⟨(hex2bin hexstr.bytes buflen).written, (hex2bin hexstr.bytes buflen).error.map .hex2bin⟩ := by
  simp only [jobjBinary, field, Json.stringValue]

/-- A field that is accepted has been written in full. -/
theorem jobjBinary_length {obj : Json} {key : String} {buflen : Nat}
    (accepted : (jobjBinary obj key buflen).error = none) :
    (jobjBinary obj key buflen).written.length = buflen := by
  unfold jobjBinary at accepted ⊢
  split at accepted
  · cases accepted
  · split at accepted
    · cases accepted
    · exact hex2bin_length (Option.map_eq_none_iff.mp accepted)

/-- The fields that are still to come when a decoding succeeds hold what their strings say in the end, and the
    others are as they were. -/
private theorem decodeFields_accepted {val : Json} {fields : List Field} {work : Work} (once : fields.Nodup)
    (accepted : (decodeFields val fields work).error = none) (field : Field) :
    if field ∈ fields then
      jobjBinary val field.key field.size = ⟨(decodeFields val fields work).work.bytes field, none⟩
    else (decodeFields val fields work).work.bytes field = work.bytes field := by
  induction fields generalizing work with
  | nil => cases field <;> rfl
  | cons first fields ih =>
      obtain ⟨notLater, once⟩ := List.nodup_cons.mp once
      simp only [decodeFields] at accepted ⊢
      split at accepted
      · cases accepted
      · rename_i fine
        have later := ih once accepted
        by_cases isFirst : field = first
        · subst isFirst
          rw [if_neg notLater, Work.bytes_write work (jobjBinary_length fine)] at later
          rw [if_pos List.mem_cons_self, later, ← fine]
        · simp only [List.mem_cons, isFirst, false_or]
          rw [Work.bytes_write_of_ne work _ isFirst] at later
          exact later

private theorem decodeFields_hash {val : Json} {fields : List Field} {work : Work}
    (accepted : (decodeFields val fields work).error = none) :
    (decodeFields val fields work).work.hash = fun _ => 0 := by
  induction fields generalizing work with
  | nil => rfl
  | cons first fields ih =>
      simp only [decodeFields] at accepted ⊢
      split at accepted
      · cases accepted
      · exact ih accepted

/-- When a result is accepted, every field holds the bytes of its string and the hash is zero, whatever was in the
    work before. -/
theorem workDecode_accepted {val : Json} {work : Work} (accepted : (workDecode val work).error = none) :
    (∀ field, jobjBinary val field.key field.size = ⟨(workDecode val work).work.bytes field, none⟩) ∧
      (workDecode val work).work.hash = fun _ => 0 := by
  refine ⟨fun field => ?_, decodeFields_hash accepted⟩
  have fields := decodeFields_accepted (by decide) accepted field
  rwa [if_pos (by cases field <;> decide)] at fields

/-- The last line that is logged names the field that was refused. -/
theorem DecodeError.log_getLast (e : DecodeError) : e.log.getLast? = some ("JSON inval " ++ e.field.key) := by
  simp [DecodeError.log]

/-! ### Submitting -/

/-- A C string literal. -/
def ascii (s : String) : List Byte := s.toList.map fun c => BitVec.ofNat 8 c.toNat

/-- The request: `sprintf` of the format with the hex string. -/
def getworkCall (hexstr : List Byte) : List Byte :=
  ascii "\x7b\"method\": \"getwork\", \"params\": [ \"" ++ hexstr ++ ascii "\" ], \"id\":1\x7d\r\n"

/-- The string stands between two quotes, and what is before and behind them does not depend on it. -/
theorem getworkCall_quoted (hexstr : List Byte) :
    getworkCall hexstr = ascii "\x7b\"method\": \"getwork\", \"params\": [ " ++ (0x22 :: (hexstr ++ [0x22])) ++
      ascii " ], \"id\":1\x7d\r\n" := by
  simp [getworkCall, ascii]

/-- So there is a request of its own for every string. -/
theorem getworkCall_injective : Function.Injective getworkCall := by
  intro hexstr hexstr' same
  rw [getworkCall, getworkCall] at same
  exact List.append_cancel_left (List.append_cancel_right same)

/-- The data of a unit is short enough for `bin2hex`. -/
theorem bin2hex_data (malloc : Bool) (work : Work) :
    bin2hex malloc (List.ofFn work.data) = if malloc then some (Hex.encode (List.ofFn work.data)) else none := by
  cases malloc with
  | false => exact (bin2hex_false _).trans (if_neg Bool.false_ne_true).symm
  | true =>
      have length := @List.length_ofFn _ _ work.data
      rw [bin2hex_eq (List.ne_nil_of_length_pos (by omega)), List.length_ofFn, if_pos (by omega), if_pos rfl]

/-- `submit_upstream_work` up to the call of the server: the request, or nothing when `malloc` fails. -/
def submitRequest (malloc : Bool) (work : Work) : Option (List Byte) :=
  (bin2hex malloc (List.ofFn work.data)).map getworkCall

/-- The request and its NUL fit in `s[345]`. -/
theorem submitRequest_fits {malloc : Bool} {work : Work} {request : List Byte}
    (built : submitRequest malloc work = some request) : request.length + 1 ≤ 345 := by
  obtain ⟨hexstr, written, rfl⟩ := Option.map_eq_some_iff.mp built
  have length : hexstr.length = 256 := by
    cases malloc with
    | false => cases written
    | true =>
        have encoded : Hex.encode (List.ofFn work.data) = hexstr :=
          Option.some.inj ((bin2hex_data true work).symm.trans written)
        rw [← encoded, Hex.length_encode, List.length_ofFn]
  simp only [getworkCall, List.length_append, length]
  decide

/-! ### What a scan changes -/

/-- A scan on the work has reported success and left this work and this nonce; the hashes may be anything. The
    loops of `scanhash_c` and `scanhash_cryptopp` are `plainScan`. The nonce of `scanhash_via` is its counter with
    the bytes swapped. -/
inductive ScanReports (work : Work) : Work → Word → Prop where
  | plain {κ : Type} {runhashes : κ → Block → κ × HashValue} {target : Fin 8 → Word} {maxNonce : Word}
      {restart : Nat → Bool} {hash : HashValue} {hasher : κ} {passes : Nat} {out : Scanned Bool 16}
      {nonce : Word} {found : HashValue} :
      plainScan runhashes target maxNonce restart work.block hash hasher passes = some out →
      out.ret = true → out.accepted = some (nonce, found) →
      ScanReports work ((work.withBlock out.data).withHash out.hash) nonce
  | fourWay {κ : Type} {doubleBlock : κ → Block → κ × Lanes} {target : Fin 8 → Word} {maxNonce : Word}
      {restart : Nat → Bool} {hash : HashValue} {hasher : κ} {passes : Nat} {out : Scanned Word 16} :
      fourWayScan ((fourWayEnv doubleBlock maxNonce restart).against target) work.block hash hasher passes =
        some out →
      minerRc out.ret = true →
      ScanReports work ((work.withBlock out.data).withHash out.hash) out.ret
  | sse2 {κ : Type} {calcHashes : κ → M128 → κ × Vectors} {target : Fin 8 → Word} {maxNonce : Word}
      {restart : Nat → Bool} {hash : HashValue} {hasher : κ} {passes : Nat} {out : Scanned Word 16} :
      sse2Scan ((sse2Env calcHashes maxNonce restart).against target) work.block hash hasher passes =
        some out →
      minerRc out.ret = true →
      ScanReports work ((work.withBlock out.data).withHash out.hash) out.ret
  | via {κ : Type} {runhashes : κ → (Fin 32 → Word) → κ × HashValue} {target : Fin 8 → Word}
      {maxNonce : Word} {restart : Nat → Bool} {tmpHash : HashValue} {hasher : κ} {passes : Nat}
      {out : Scanned Bool 32} {counter : Word} {found : HashValue} :
      viaScan runhashes target maxNonce restart work.dataWords tmpHash hasher passes = some out →
      out.ret = true → out.accepted = some (counter, found) →
      ScanReports work (work.withData out.data) (swab32 counter)

/-- Storing a nonce in the second half of the data is storing it in word 19. -/
theorem withBlock_withNonce (work : Work) (nonce : Word) :
    work.withBlock (withNonce work.block nonce) =
      work.withData (Function.update work.dataWords 19 nonce) := by
  rw [Work.withBlock]
  congr 1
  funext i
  by_cases first : i.val < 16
  · have other : i ≠ 19 := fun same => absurd (same ▸ first) (by decide)
    rw [dif_pos first, Function.update_of_ne other, Work.firstBlock]
  · rw [dif_neg first, withNonce]
    by_cases isNonce : i = 19
    · subst isNonce
      rfl
    · have other : (⟨i - 16, by omega⟩ : Fin 16) ≠ 3 := by
        intro same
        have value : i.val - 16 = 3 := congrArg Fin.val same
        have position : i.val = 19 := by omega
        exact isNonce (Fin.ext position)
      have place : 16 + (i.val - 16) = i.val := by omega
      rw [Function.update_of_ne other, Function.update_of_ne isNonce]
      exact congrArg work.dataWords (Fin.ext place)

/-- Every scan that reports success has stored the nonce in word 19 of the data and changed nothing else there. -/
theorem ScanReports.data {work after : Work} {nonce : Word} (reported : ScanReports work after nonce) :
    after.data = Buf.ofWords (n := 32) (Function.update work.dataWords 19 nonce) := by
  have stored : ∀ (block : Block) (hash : HashValue), block = withNonce work.block nonce →
      ((work.withBlock block).withHash hash).data =
        Buf.ofWords (n := 32) (Function.update work.dataWords 19 nonce) := by
    intro block hash same
    rw [same, withBlock_withNonce]
    rfl
  cases reported with
  | @plain _ _ _ _ _ _ _ passes out _ found returned success accepted =>
      obtain ⟨o, ends, rfl⟩ := (scalar_simulates _ _ _).ends_of_returns (scalarAt_start _) ⟨passes, returned⟩
      cases ends with
      | exhausted _ _ _ => cases success
      | found _ _ =>
          refine stored _ _ ?_
          obtain ⟨rfl, _⟩ := Prod.mk.inj (Option.some.inj accepted)
          rfl
  | @fourWay _ _ _ _ _ _ _ passes out returned success =>
      obtain ⟨o, ends, right⟩ := (fourWay_simulates _ _ _).ends_of_returns (fourWayAt_start _)
        ⟨passes, returned⟩
      obtain ⟨k, j, rfl⟩ := fourWay_found right success
      obtain ⟨ret, data, _, _⟩ := right.found k j rfl
      exact stored _ _ (by rw [data, ret])
  | @sse2 _ _ _ _ _ _ _ passes out returned success =>
      obtain ⟨o, ends, right⟩ := (sse2_simulates _ _ _).ends_of_returns (sse2At_start _) ⟨passes, returned⟩
      obtain ⟨k, j, rfl⟩ := sse2_found right success
      obtain ⟨ret, _, data, _, _⟩ := right.found k j rfl
      exact stored _ _ (by rw [data, ret]; rfl)
  | @via _ _ _ _ _ _ _ passes out counter found returned success accepted =>
      obtain ⟨inner, run, rfl⟩ := Option.map_eq_some_iff.mp returned
      obtain ⟨o, ends, rfl⟩ := (scalar_simulates _ _ _).ends_of_returns (scalarAt_start _) ⟨passes, run⟩
      cases ends with
      | exhausted _ _ _ => cases success
      | @found k hash _ _ =>
          obtain ⟨rfl, _⟩ := Prod.mk.inj (Option.some.inj accepted)
          simp only [Work.withData, scalarResult, if_true]
          congr 1
          funext i
          by_cases isNonce : i = 19
          · subst isNonce
            rfl
          · rw [Function.update_of_ne isNonce]
            exact (congrArg swab32 (Function.update_of_ne isNonce _ _)).trans (swab32_swab32 _)

/-- What `miner_thread` reports with any of its backends is reported by one of these scans. -/
theorem minerScan_reports {algo : Sha256Algo} {work : Work} {maxNonce : Word} {outside : Outside} {passes : Nat}
    {out : MinerScan} (returned : minerScan algo work maxNonce outside passes = some out)
    (reported : out.rc = true) : ∃ nonce, ScanReports work out.work nonce := by
  have accepts : ∀ {κ : Type} {m : Nat} {env : ScalarEnv κ m} {data : Fin m → Word} {hash : HashValue}
      {hasher : κ} {scanned : Scanned Bool m}, scalarScan env data hash hasher passes = some scanned →
        scanned.ret = true → ∃ candidate, scanned.accepted = some candidate := by
    intro κ m env data hash hasher scanned run success
    obtain ⟨o, ends, rfl⟩ := (scalar_simulates env data hasher).ends_of_returns (scalarAt_start hash)
      ⟨passes, run⟩
    cases ends with
    | found _ _ => exact ⟨_, rfl⟩
    | exhausted _ _ _ => cases success
  cases algo with
  | c =>
      obtain ⟨scanned, run, rfl⟩ := Option.map_eq_some_iff.mp returned
      obtain ⟨⟨nonce, found⟩, accepted⟩ := accepts run reported
      exact ⟨nonce, .plain run reported accepted⟩
  | cryptopp =>
      obtain ⟨scanned, run, rfl⟩ := Option.map_eq_some_iff.mp returned
      obtain ⟨⟨nonce, found⟩, accepted⟩ := accepts run reported
      exact ⟨nonce, .plain run reported accepted⟩
  | cryptoppAsm32 =>
      obtain ⟨scanned, run, rfl⟩ := Option.map_eq_some_iff.mp returned
      obtain ⟨⟨nonce, found⟩, accepted⟩ := accepts run reported
      exact ⟨nonce, .plain run reported accepted⟩
  | fourWay =>
      obtain ⟨scanned, run, rfl⟩ := Option.map_eq_some_iff.mp returned
      exact ⟨_, .fourWay run reported⟩
  | sse2_64 =>
      obtain ⟨scanned, run, rfl⟩ := Option.map_eq_some_iff.mp returned
      exact ⟨_, .sse2 run reported⟩
  | via =>
      obtain ⟨scanned, run, rfl⟩ := Option.map_eq_some_iff.mp returned
      obtain ⟨inner, innerRun, rfl⟩ := Option.map_eq_some_iff.mp run
      obtain ⟨⟨counter, found⟩, accepted⟩ := accepts innerRun reported
      exact ⟨_, .via run reported accepted⟩

/-- The digits of a submitted unit: those of the data it was made from, with the digits of the nonce in the place
    of the digits 152 to 159. -/
theorem ScanReports.encode_data {work after : Work} {nonce : Word} (reported : ScanReports work after nonce) :
    Hex.encode (List.ofFn after.data) =
      (Hex.encode (List.ofFn work.data)).take 152 ++ Hex.encode (leBytes nonce) ++
        (Hex.encode (List.ofFn work.data)).drop 160 := by
  have bytes := Buf.ofFn_ofWords_update (n := 32) work.data 19 nonce
  rw [reported.data]
  refine (congrArg Hex.encode bytes).trans ?_
  rw [Hex.encode_append, Hex.encode_append, Hex.encode_take, Hex.encode_drop]
  rfl

/-- What is submitted is what was received, in lower case, with only the digits 152 to 159 replaced, and these are
    the bytes of the reported nonce, least significant byte first: for every result that `work_decode` accepts with
    256 hexadecimal digits as its data, and for every scan that reports success on that unit. -/
theorem submitted_digits {val : Json} {before work after : Work} {received : CString} {nonce : Word}
    (accepted : workDecode val before = ⟨work, none⟩)
    (field : val.objectGet "data" = some (.string received)) (length : received.bytes.length = 256)
    (digits : ∀ c ∈ received.bytes, Hex.isDigit c = true) (reported : ScanReports work after nonce)
    (malloc : Bool) :
    submitRequest malloc after =
      if malloc then
        some (getworkCall ((received.bytes.map Hex.lower).take 152 ++ Hex.encode (leBytes nonce) ++
          (received.bytes.map Hex.lower).drop 160))
      else none := by
  have fields := (workDecode_accepted (congrArg WorkDecode.error accepted)).1 .data
  rw [accepted] at fields
  have decoded : jobjBinary val "data" 128 = ⟨List.ofFn work.data, none⟩ := fields
  rw [jobjBinary_string field] at decoded
  have written : (hex2bin received.bytes 128).written = List.ofFn work.data := (JobjBinary.mk.inj decoded).1
  have received_eq : Hex.encode (List.ofFn work.data) = received.bytes.map Hex.lower := by
    rw [← written, hex2bin_digits (by rw [length]) digits]
    exact Hex.encode_denote (n := 128) (by rw [length]) digits
  rw [submitRequest, bin2hex_data, reported.encode_data, received_eq]
  cases malloc <;> rfl

/-- The string of `n` times the same digit. -/
def repeated (n : Nat) (c : Byte) (nonzero : 0 ≠ c) : CString where
  bytes := List.replicate n c
  noNul listed := nonzero (List.mem_replicate.mp listed).2

/-- A result whose data is 256 times the digit `A`. -/
def exampleResult : Json := .object fun key =>
  if key = "midstate" then some (.string (repeated 64 0x30 (by decide)))
  else if key = "data" then some (.string (repeated 256 0x41 (by decide)))
  else if key = "hash1" then some (.string (repeated 128 0x30 (by decide)))
  else if key = "target" then some (.string (repeated 64 0x30 (by decide)))
  else none

/-- A scan on that unit that finds the nonce 1. -/
theorem submitted_digits_upperCase : ∃ after, ScanReports (workDecode exampleResult exampleWork).work after 1 ∧
    submitRequest true after =
      some (getworkCall (List.replicate 152 0x61 ++ Hex.encode (leBytes 1) ++ List.replicate 96 0x61)) := by
  have fine : (workDecode exampleResult exampleWork).error = none := by decide +kernel
  have accepted : workDecode exampleResult exampleWork = ⟨(workDecode exampleResult exampleWork).work, none⟩ := by
    rw [← fine]
  have reported : ∃ after, ScanReports (workDecode exampleResult exampleWork).work after 1 :=
    ⟨_, @ScanReports.plain _ Unit (fun _ _ => ((), fun _ => 0)) (fun _ => 0) 1 (fun _ => false) (fun _ => 0) ()
      1 _ 1 (fun _ => 0) rfl rfl rfl⟩
  obtain ⟨after, reported⟩ := reported
  refine ⟨after, reported, ?_⟩
  have field : exampleResult.objectGet "data" = some (.string (repeated 256 0x41 (by decide))) := rfl
  have submitted := submitted_digits accepted field
    (List.length_replicate ..) (fun c listed => by rw [(List.mem_replicate.mp listed).2]; decide) reported true
  rw [submitted]
  decide +kernel

end CpuMiner
