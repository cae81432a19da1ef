/-
Module: CpuMiner.Wire.Request
Layer: JSON
Purpose: The requests of the miner on their way to the server. libcurl takes the request out of `upload_data_cb` in
  pieces as large as it has room for, until a call returns 0; it gets every byte once and in order, as many as the
  header `Content-Length` says (`sendBody_exact`). A request is a JSON text: what a server reads off a submitted one is
  the data of the unit (`submitRequest_read`).
Imports: CpuMiner.Lib.Block, CpuMiner.Wire.RpcCall, CpuMiner.Wire.Texts
Trusted boundary: human-reviewed spec (the transcription of the C code)
Main exports: UploadBuffer, uploadDataCb, sendBody, lenHdr, sendBody_exact, rpcReq, getworkTree, submitRequest_read
Open obligations: none
-/
import CpuMiner.Lib.Block
import CpuMiner.Wire.RpcCall
import CpuMiner.Wire.Texts

namespace CpuMiner.Jansson

open Words

variable {ρ : Type} {libc : Libc ρ}

/-! ### Uploading -/

/-- `struct upload_buffer`: the block of the request, the place in it that `buf` points to, and `len`. -/
structure UploadBuffer where
  block : List Byte
  buf : Nat
  len : Size

/-- An `int` as a `size_t`. -/
def sizeOfInt (len : Word) : Size := len.signExtend 64

/-- `upload_data_cb`: what it returns, what it writes to `ptr`, and the new buffer. Nothing when it goes outside the
    block, or outside `ptr`, where there is room for `size * nmemb` bytes. `len` is an `int`. -/
def uploadDataCb (size nmemb : Size) (ub : UploadBuffer) : Option (Size × List Byte × UploadBuffer) :=
  let len : Word := (size * nmemb).setWidth 32
  let len : Word := if sizeOfInt len > ub.len then ub.len.setWidth 32 else len
  if len = 0 then some (0, [], ub)
  else
    if sizeOfInt len ≤ size * nmemb then do
      let bytes ← Block.load ub.block ub.buf (sizeOfInt len).toNat
      return (sizeOfInt len, bytes,
        { ub with buf := ub.buf + (sizeOfInt len).toNat, len := ub.len - sizeOfInt len })
    else none

/-- `upload_data.buf = rpc_req`, and `strlen`. -/
def uploadData (rpc_req : CString) : UploadBuffer where
  block := rpc_req.bytes ++ [0]
  buf := 0
  len := BitVec.ofNat 64 rpc_req.bytes.length

/-- `len_hdr` -/
def lenHdr (rpc_req : CString) : List Byte := ascii "Content-Length: " ++ formatD rpc_req.bytes.length

/-- The body that libcurl sends: the pieces of its calls, each with this room, until one returns 0. -/
def sendBody (room : Nat → Size × Size) : Nat → Nat → UploadBuffer → Option (List Byte)
  | 0, _, _ => none
  | passes + 1, k, ub => do
      let (ret, bytes, ub) ← uploadDataCb (room k).1 (room k).2 ub
      if ret = 0 then return []
      else
        let rest ← sendBody room passes (k + 1) ub
        return bytes ++ rest

/-- This much of the request is still to be sent. -/
structure UploadBuffer.Holds (ub : UploadBuffer) (rest : List Byte) : Prop where
  block : ∃ sent, ub.block = sent ++ rest ++ [0] ∧ ub.buf = sent.length
  len : ub.len.toNat = rest.length

theorem toNat_sizeOfInt {len : Word} (small : len.toNat < 0x80000000) : (sizeOfInt len).toNat = len.toNat := by
  have positive : len.msb = false := by
    rw [BitVec.msb_eq_decide, decide_eq_false_iff_not, not_le]
    exact small
  rw [sizeOfInt, BitVec.signExtend_eq_setWidth_of_msb_false positive, BitVec.toNat_setWidth]
  exact Nat.mod_eq_of_lt (by omega)

theorem uploadData_holds {rpc_req : CString} (counts : rpc_req.bytes.length < 0x10000000000000000) :
    (uploadData rpc_req).Holds rpc_req.bytes :=
  ⟨⟨[], rfl, rfl⟩, by rw [uploadData, BitVec.toNat_ofNat, Nat.mod_eq_of_lt (by omega)]⟩

/-- How many bytes a call takes. -/
theorem toNat_len {ub : UploadBuffer} {room : Size} (small : room.toNat < 0x80000000) :
    (if sizeOfInt (room.setWidth 32) > ub.len then ub.len.setWidth 32 else room.setWidth 32 : Word).toNat =
      min room.toNat ub.len.toNat := by
  have whole : (room.setWidth 32 : Word).toNat = room.toNat := by
    rw [BitVec.toNat_setWidth]
    exact Nat.mod_eq_of_lt (by omega)
  have same := @toNat_sizeOfInt (room.setWidth 32) (by omega)
  by_cases more : sizeOfInt (room.setWidth 32) > ub.len
  · have less : ub.len.toNat < room.toNat := by
      rw [← whole, ← same]
      exact more
    rw [if_pos more, BitVec.toNat_setWidth, Nat.mod_eq_of_lt (by omega), Nat.min_eq_right (by omega)]
  · have enough : room.toNat ≤ ub.len.toNat := by
      rw [← whole, ← same]
      exact not_lt.mp more
    rw [if_neg more, whole, Nat.min_eq_left enough]

/-- A call takes as many bytes as there is room for. -/
theorem uploadDataCb_holds {ub : UploadBuffer} {rest : List Byte} (holds : ub.Holds rest) {size nmemb : Size}
    (room : (size * nmemb).toNat < 0x80000000) :
    ∃ ub', uploadDataCb size nmemb ub =
        some (BitVec.ofNat 64 (rest.take (size * nmemb).toNat).length, rest.take (size * nmemb).toNat, ub') ∧
      ub'.Holds (rest.drop (size * nmemb).toNat) := by
  have taken := @toNat_len ub _ room
  rw [holds.len, ← List.length_take] at taken
  unfold uploadDataCb
  dsimp only
  generalize (if sizeOfInt ((size * nmemb).setWidth 32) > ub.len then ub.len.setWidth 32
    else (size * nmemb).setWidth 32 : Word) = len at taken
  have limit : (rest.take (size * nmemb).toNat).length ≤ (size * nmemb).toNat := List.length_take_le _ _
  have same := @toNat_sizeOfInt len (by omega)
  by_cases nothing : len = 0
  · subst nothing
    have noBytes : rest.take (size * nmemb).toNat = [] := List.length_eq_zero_iff.mp taken.symm
    refine ⟨ub, by rw [if_pos rfl, noBytes]; rfl, ?_⟩
    have split := List.take_append_drop (size * nmemb).toNat rest
    rw [noBytes, List.nil_append] at split
    rwa [split]
  · obtain ⟨sent, block, place⟩ := holds.block
    have split := List.take_append_drop (size * nmemb).toNat rest
    have inside : sizeOfInt len ≤ size * nmemb := by
      rw [BitVec.le_def]
      omega
    have loaded : Block.load ub.block ub.buf (sizeOfInt len).toNat = some (rest.take (size * nmemb).toNat) := by
      have found := Block.load_append sent (rest.take (size * nmemb).toNat) (rest.drop (size * nmemb).toNat ++ [0])
      rw [← List.append_assoc, List.append_assoc sent, split, ← block, ← place] at found
      rw [same, taken]
      exact found
    have returned : sizeOfInt len = BitVec.ofNat 64 (rest.take (size * nmemb).toNat).length := by
      apply BitVec.eq_of_toNat_eq
      rw [BitVec.toNat_ofNat, same, taken, Nat.mod_eq_of_lt (by omega)]
    refine ⟨{ ub with buf := ub.buf + (sizeOfInt len).toNat, len := ub.len - sizeOfInt len }, ?_, ?_⟩
    · rw [if_neg nothing, if_pos inside, loaded, ← returned]
      rfl
    · refine ⟨⟨sent ++ rest.take (size * nmemb).toNat, ?_, ?_⟩, ?_⟩
      · rw [block, List.append_assoc sent (rest.take _), split]
      · rw [List.length_append, place, same, taken]
      · have length := congrArg List.length split
        rw [List.length_append] at length
        rw [BitVec.toNat_sub_of_le (by rw [BitVec.le_def, holds.len]; omega), holds.len]
        omega

/-- The calls of libcurl for what is left of the request. -/
theorem sendBody_holds {room : Nat → Size × Size}
    (fits : ∀ k, 0 < ((room k).1 * (room k).2).toNat ∧ ((room k).1 * (room k).2).toNat < 0x80000000)
    {passes k : Nat} {ub : UploadBuffer} {rest : List Byte} (holds : ub.Holds rest) (enough : rest.length < passes) :
    sendBody room passes k ub = some rest := by
  induction passes generalizing k ub rest with
  | zero => omega
  | succ passes ih =>
      obtain ⟨ub', called, holds'⟩ := uploadDataCb_holds holds (fits k).2
      have counts : (rest.take ((room k).1 * (room k).2).toNat).length < 0x80000000 :=
        Nat.lt_of_le_of_lt (List.length_take_le _ _) (fits k).2
      simp only [sendBody, called, Option.bind_eq_bind, Option.bind_some]
      cases rest with
      | nil => simp only [List.take_nil, List.length_nil, BitVec.ofNat_eq_ofNat, if_true, Option.pure_def]
      | cons c rest =>
          have some_room := (fits k).1
          rw [List.length_cons] at enough
          have goesOn : BitVec.ofNat 64 ((c :: rest).take ((room k).1 * (room k).2).toNat).length ≠ 0 := by
            intro isZero
            have value := congrArg BitVec.toNat isZero
            rw [BitVec.toNat_ofNat, Nat.mod_eq_of_lt (by omega), List.length_take, List.length_cons] at value
            have zero : min ((room k).1 * (room k).2).toNat (rest.length + 1) = 0 := value
            omega
          have shorter : ((c :: rest).drop ((room k).1 * (room k).2).toNat).length < passes := by
            rw [List.length_drop, List.length_cons]
            omega
          rw [if_neg goesOn, ih holds' shorter, Option.bind_some, Option.pure_def, List.take_append_drop]

/-- libcurl is given the whole request and nothing else, whatever it has room for in each call, and the header says how
    much that is. -/
theorem sendBody_exact (rpc_req : CString) (counts : rpc_req.bytes.length < 0x10000000000000000)
    (room : Nat → Size × Size)
    (fits : ∀ k, 0 < ((room k).1 * (room k).2).toNat ∧ ((room k).1 * (room k).2).toNat < 0x80000000) :
    (∀ passes, rpc_req.bytes.length < passes →
      sendBody room passes 0 (uploadData rpc_req) = some rpc_req.bytes) ∧
    ∃ digits, lenHdr rpc_req = ascii "Content-Length: " ++ digits ∧ Decimals digits ∧
      decimal digits = rpc_req.bytes.length :=
  ⟨fun _ enough => sendBody_holds fits (uploadData_holds counts) enough,
    _, rfl, formatD_decimals _, decimal_formatD _⟩

/-- Two bytes at a time. -/
theorem sendBody_exact_pairs :
    sendBody (fun _ => (1, 2)) 4 0 (uploadData ⟨[0x7B, 0x7D, 0x0A], by decide⟩) = some [0x7B, 0x7D, 0x0A] :=
  (sendBody_exact ⟨[0x7B, 0x7D, 0x0A], by decide⟩ (by decide) (fun _ => (1, 2)) (fun _ => by decide)).1 4 (by decide)

/-! ### The requests as documents -/

/-- `rpc_req` of `get_upstream_work` -/
def rpcReq : List Byte := ascii "\x7b\"method\": \"getwork\", \"params\": [], \"id\":0\x7d\r\n"

/-- A getwork call with these parameters. -/
def getworkTree (params : List Tree) (id : Int) : Tree :=
  .object [(ascii "method", .string (ascii "getwork")), (ascii "params", .array params), (ascii "id", .integer id)]

/-- The text of a getwork call, from the texts of its parameters and of its number. -/
theorem getwork_text {params : List Tree} {paramsText : List Byte} (array : ValueText (.array params) paramsText)
    {id : Int} {idText : List Byte} (integer : IntegerText id idText) (range : InInt id) :
    Text (getworkTree params id)
      (ascii "\x7b\"method\": \"getwork\", \"params\": " ++ paramsText ++ ascii ", \"id\":" ++ idText ++
        ascii "\x7d\r\n") := by
  have nothing : White [] := white_nil
  have space : White [0x20] := white_of_all (by decide)
  have key : ∀ {text : List Byte}, (text.all isPlain) = true → StringText text text := stringText_of_all
  have last := MembersText.last space (@key (ascii "id") (by decide)) nothing nothing (.integer integer range) nothing
  have middle := MembersText.more space (@key (ascii "params") (by decide)) nothing space array nothing last
  have members := MembersText.more nothing (@key (ascii "method") (by decide)) nothing space
    (.string (@key (ascii "getwork") (by decide))) nothing middle
  have whole := Text.intro nothing (.object members) (@white_of_all [0x0D, 0x0A] (by decide)) rfl
  simpa [getworkTree, stringText, ascii, quote] using whole

/-- A digit is the text of its number. -/
theorem integerText_digit {c : Byte} (digit : isDecimal c = true) : IntegerText (decimal [c] : Nat) [c] :=
  .intro false ⟨⟨List.cons_ne_nil c [], fun d listed => by rwa [List.mem_singleton.mp listed]⟩, fun first => by
    rw [Option.some.inj first]⟩

/-- The request for work is a getwork call without parameters. -/
theorem rpcReq_document : Document (getworkTree [] 0) rpcReq rpcReq [] := by
  have zero : IntegerText 0 [0x30] := @integerText_digit 0x30 (by decide)
  have text := getwork_text (.emptyArray white_nil) zero ⟨by decide, by decide⟩
  exact .of_ascii (by simpa [rpcReq, ascii] using text) (ascii_of_all (by decide))

/-- A submitted unit is the one parameter of a call, in hexadecimal. -/
theorem getworkCall_document {hexstr : List Byte} (digits : ∀ c ∈ hexstr, Hex.isDigit c = true) :
    Document (getworkTree [.string hexstr] 1) (getworkCall hexstr) (getworkCall hexstr) [] := by
  have space : White [0x20] := white_of_all (by decide)
  have one : IntegerText 1 [0x31] := @integerText_digit 0x31 (by decide)
  have text := getwork_text (.array (.last space (.string (.of_digits digits)) space)) one ⟨by decide, by decide⟩
  refine .of_ascii (by simpa [getworkCall_quoted, stringText, quote, ascii] using text) fun c listed => ?_
  simp only [getworkCall, List.mem_append] at listed
  rcases listed with (front | inside) | behind
  · exact ascii_of_all (by decide) c front
  · exact (isPlain_digit (digits c inside)).2
  · exact ascii_of_all (by decide) c behind

/-- What `json_loads` makes of a getwork call. -/
theorem jsonLoads_getwork {request : List Byte} {params : List Tree} {id : Int}
    (document : Document (getworkTree params id) request request []) (noNul : 0 ∉ request) {errno errno' : Bool}
    (accepted : (getworkTree params id).errno libc errno = some errno') :
    ∃ loaded value, jsonLoads libc request errno = some loaded ∧ loaded.result = some value ∧
      value.objectGet (ascii "method") = some (.string (ascii "getwork")) ∧
      value.objectGet (ascii "params") = some (.array (elementsValue libc params)) ∧
      value.objectGet (ascii "id") = some (.integer id) := by
  obtain ⟨loaded, loads, result⟩ := (loaded_iff noNul).mpr ⟨_, _, _, _, document, accepted, rfl⟩
  refine ⟨loaded, _, loads, result, ?_, ?_, ?_⟩
  all_goals
    rw [objectGet_value]
    simp [getworkTree, Tree.member, lastMember, Tree.value, ascii]

/-- A small number is accepted whatever `errno` was. -/
theorem integerErrno_small {errno : Bool} {value : Int} (small : -intMax ≤ value) (small' : value < intMax) :
    libc.integerErrno errno value = some errno := by
  have longMax := @libc.intMax_le
  exact if_neg fun limit => by omega

/-- `json_loads` reads a submitted unit, and `hex2bin` gets its data back. -/
theorem submitRequest_read (libc : Libc ρ) (errno : Bool) (work : Work) :
    ∃ request loaded value hexstr, submitRequest true work = some request ∧
      jsonLoads libc request errno = some loaded ∧ loaded.result = some value ∧
      value.objectGet (ascii "method") = some (.string (ascii "getwork")) ∧
      value.objectGet (ascii "params") = some (.array [.string hexstr]) ∧
      value.objectGet (ascii "id") = some (.integer 1) ∧
      hex2bin hexstr 128 = ⟨List.ofFn work.data, none⟩ := by
  have written : bin2hex true (List.ofFn work.data) = some (Hex.encode (List.ofFn work.data)) := bin2hex_data true work
  have document := getworkCall_document (@Hex.isDigit_of_mem_encode (List.ofFn work.data))
  have noNul : 0 ∉ getworkCall (Hex.encode (List.ofFn work.data)) := by
    intro listed
    simp only [getworkCall, List.mem_append] at listed
    rcases listed with (front | inside) | behind
    · exact absurd front (by decide)
    · exact absurd (Hex.isDigit_of_mem_encode 0 inside) (by decide)
    · exact absurd behind (by decide)
  have accepted : (getworkTree [.string (Hex.encode (List.ofFn work.data))] 1).errno libc errno = some errno := by
    have one : libc.integerErrno errno 1 = some errno := @integerErrno_small ρ libc errno 1 (by decide) (by decide)
    simp only [getworkTree, Tree.errno, membersErrno, elementsErrno, Option.bind_some, one]
  obtain ⟨loaded, value, loads, result, method, params, id⟩ := jsonLoads_getwork document noNul accepted
  have back := hex2bin_bin2hex written
  rw [List.length_ofFn] at back
  refine ⟨_, loaded, value, _, ?_, loads, result, method, ?_, id, back⟩
  · rw [submitRequest, written, Option.map_some]
  · simpa only [elementsValue, Tree.value] using params

end CpuMiner.Jansson
