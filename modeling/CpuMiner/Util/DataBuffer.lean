/-
Module: CpuMiner.Util.DataBuffer
Layer: Utilities
Purpose: The body of an HTTP reply on its way to the parser: libcurl gives it to `all_data_cb` in chunks, which appends
  them to a buffer that grows, and `json_rpc_call` hands the buffer to `json_loads`. The buffer is `NULL` before the
  first chunk and its terminator is written with each chunk, so a body without chunks leaves nothing that could be
  read (`wholeReply_iff`).
Imports: CpuMiner.Lib.Block, CpuMiner.Lib.Words
Trusted boundary: human-reviewed spec (the transcription of the C code)
Main exports: DataBuffer, allDataCb, receiveBody, jsonLoadsInput, stringGet, allDataCb_eq, allDataCb_room, WholeReply,
  WholeReply.stringGet, wholeReply_iff, not_wholeReply_nil
Open obligations: none
-/
import CpuMiner.Lib.Block
import CpuMiner.Lib.Words

namespace CpuMiner

open Words

/-- `size_t` -/
abbrev Size := BitVec 64

/-- A byte on the heap; `none` where `malloc` or `realloc` has left it indeterminate. -/
abbrev Cell := Option Byte

/-- `struct data_buffer`. The block of `buf`, or none when it is `NULL`. -/
structure DataBuffer where
  buf : Option (List Cell)
  len : Size

/-- `all_data_cb`: what it returns, and the new buffer. Nothing when it goes outside its memory. `realloc` gives a
    block of the size it was asked for, or fails. -/
def allDataCb (realloc : Bool) (ptr : List Byte) (size nmemb : Size) (db : DataBuffer) :
    Option (Size × DataBuffer) :=
  let len := size * nmemb
  let oldlen := db.len
  let newlen := oldlen + len
  if realloc then do
    let newmem := Block.resize none (db.buf.getD []) (newlen + 1).toNat
    let data ← Block.load ptr 0 len.toNat
    let copied ← Block.store newmem oldlen.toNat (data.map some)
    let terminated ← Block.store copied newlen.toNat [some 0]
    return (len, { buf := some terminated, len := newlen })
  else some (0, db)

/-- The calls of `all_data_cb` for the chunks of a body. The size of an element is always 1. All reallocations
    succeed. -/
def receiveBody : List (List Byte) → DataBuffer → Option DataBuffer
  | [], db => some db
  | chunk :: chunks, db => do
      let (_, db) ← allDataCb true chunk 1 (BitVec.ofNat 64 chunk.length) db
      receiveBody chunks db

/-- `struct data_buffer all_data = { }` -/
def allData : DataBuffer := { buf := none, len := 0 }

/-- The pointer that `json_rpc_call` hands to `JSON_LOADS` after a transfer without an error. -/
def jsonLoadsInput (chunks : List (List Byte)) : Option (Option (List Cell)) :=
  (receiveBody chunks allData).map DataBuffer.buf

/-- `string_get` at a position: the character, which is `EOF` for the terminator, and the next position. Nothing when
    it reads through `NULL`, outside the block or an indeterminate byte. -/
def stringGet (data : Option (List Cell)) (pos : Nat) : Option (Option Byte × Nat) := do
  let block ← data
  let cell ← block[pos]?
  let c ← cell
  return if c = 0 then (none, pos) else (some c, pos + 1)

/-! ### One call -/

/-- The buffer begins with this text, and counts it. -/
structure DataBuffer.Begins (db : DataBuffer) (text : List Byte) : Prop where
  len : db.len.toNat = text.length
  held : text.length ≤ (db.buf.getD []).length
  text : (db.buf.getD []).take text.length = text.map some

/-- The buffer is this text and a terminator. -/
structure DataBuffer.Holds (db : DataBuffer) (text : List Byte) : Prop where
  len : db.len.toNat = text.length
  buf : db.buf = some ((text ++ [0]).map some)

theorem DataBuffer.Holds.begins {db : DataBuffer} {text : List Byte} (holds : db.Holds text) : db.Begins text where
  len := holds.len
  held := by
    rw [holds.buf, Option.getD_some, List.length_map, List.length_append]
    omega
  text := by rw [holds.buf, Option.getD_some, ← List.map_take, List.take_left]

theorem allData_begins : allData.Begins [] := ⟨rfl, Nat.zero_le _, rfl⟩

/-- A chunk that can still be counted is appended, and the terminator is behind it. -/
theorem allDataCb_eq {db : DataBuffer} {text chunk : List Byte} (begins : db.Begins text)
    (counts : (text ++ chunk).length + 1 < 0x10000000000000000) :
    ∃ db', allDataCb true chunk 1 (BitVec.ofNat 64 chunk.length) db = some (BitVec.ofNat 64 chunk.length, db') ∧
      db'.Holds (text ++ chunk) := by
  rw [List.length_append] at counts
  have len : (BitVec.ofNat 64 chunk.length).toNat = chunk.length := by
    rw [BitVec.toNat_ofNat, Nat.mod_eq_of_lt (by omega)]
  have newlen : (db.len + BitVec.ofNat 64 chunk.length).toNat = text.length + chunk.length := by
    rw [BitVec.toNat_add, begins.len, len, Nat.mod_eq_of_lt (by omega)]
  have size : (db.len + BitVec.ofNat 64 chunk.length + 1).toNat = text.length + chunk.length + 1 := by
    rw [BitVec.toNat_add, newlen]
    exact Nat.mod_eq_of_lt counts
  have product : (1 : Size) * BitVec.ofNat 64 chunk.length = BitVec.ofNat 64 chunk.length := BitVec.one_mul _
  have written : ((Block.store (Block.resize none (db.buf.getD []) (text.length + chunk.length + 1)) text.length
        (chunk.map some)).bind fun copied => Block.store copied (text.length + chunk.length) [some 0]) =
      some ((text ++ chunk ++ [0]).map some) := by
    have adjacent := Block.store_store (Block.resize none (db.buf.getD []) (text.length + chunk.length + 1))
      (chunk.map some) [some 0] text.length
    rw [List.length_map] at adjacent
    rw [adjacent, Block.store_to_end, Block.take_resize none _ begins.held (by omega), begins.text]
    · simp
    · rw [Block.length_resize, List.length_append, List.length_map]
      rfl
  refine ⟨{ buf := some ((text ++ chunk ++ [0]).map some), len := db.len + BitVec.ofNat 64 chunk.length }, ?_, ?_,
    rfl⟩
  · obtain ⟨copied, stored, terminated⟩ := Option.bind_eq_some_iff.mp written
    simp only [allDataCb, if_true, product, size, newlen, begins.len, len, Block.load_all, Option.bind_eq_bind,
      Option.bind_some, stored, terminated, Option.pure_def]
  · rw [newlen, List.length_append]

/-- A call that stays inside its memory leaves a buffer, and has counted the text and the terminator. -/
theorem allDataCb_room {ptr : List Byte} {size nmemb ret : Size} {db db' : DataBuffer}
    (returned : allDataCb true ptr size nmemb db = some (ret, db')) :
    db'.buf ≠ none ∧ db'.len.toNat + 1 < 0x10000000000000000 := by
  simp only [allDataCb, if_true, Option.bind_eq_bind, Option.pure_def, Option.bind_eq_some_iff, Option.some.injEq,
    Prod.mk.injEq] at returned
  obtain ⟨data, _, copied, stored, terminated, last, _, rfl⟩ := returned
  obtain ⟨same, _⟩ := Block.length_of_store stored
  obtain ⟨_, inside⟩ := Block.length_of_store last
  have wraps : (db.len + size * nmemb + 1).toNat = ((db.len + size * nmemb).toNat + 1) % 0x10000000000000000 :=
    BitVec.toNat_add _ _
  rw [same, Block.length_resize, wraps, List.length_singleton] at inside
  refine ⟨Option.some_ne_none _, ?_⟩
  dsimp only
  omega

/-! ### The whole body -/

/-- The body is received as far as it can be counted. -/
theorem receiveBody_holds {chunks : List (List Byte)} {db : DataBuffer} {text : List Byte} (holds : db.Holds text)
    (counts : (text ++ chunks.flatten).length + 1 < 0x10000000000000000) :
    ∃ db', receiveBody chunks db = some db' ∧ db'.Holds (text ++ chunks.flatten) := by
  induction chunks generalizing db text with
  | nil =>
      rw [List.flatten_nil, List.append_nil]
      exact ⟨db, rfl, holds⟩
  | cons chunk chunks ih =>
      rw [List.flatten_cons, ← List.append_assoc] at counts ⊢
      have first : (text ++ chunk).length + 1 < 0x10000000000000000 := by
        rw [List.length_append] at counts
        omega
      obtain ⟨db', called, holds'⟩ := allDataCb_eq holds.begins first
      obtain ⟨db'', received, holds''⟩ := ih holds' counts
      exact ⟨db'', by simp only [receiveBody, called, Option.bind_eq_bind, Option.bind_some, received], holds''⟩

/-- After the last chunk the buffer is there, and its text and the terminator are counted. -/
theorem receiveBody_room {chunks : List (List Byte)} {db db' : DataBuffer} (some_chunk : chunks ≠ [])
    (received : receiveBody chunks db = some db') : db'.buf ≠ none ∧ db'.len.toNat + 1 < 0x10000000000000000 := by
  induction chunks generalizing db with
  | nil => exact absurd rfl some_chunk
  | cons chunk chunks ih =>
      obtain ⟨⟨ret, middle⟩, called, rest⟩ := Option.bind_eq_some_iff.mp received
      cases chunks with
      | nil =>
          cases Option.some.inj rest
          exact allDataCb_room called
      | cons next later => exact ih (List.cons_ne_nil next later) rest

/-- The parser gets the whole reply: the calls stay inside their memory, and the pointer is that of the chunks in
    order with a terminator behind them, of which `len` counts the chunks. -/
def WholeReply (chunks : List (List Byte)) : Prop :=
  ∃ db, receiveBody chunks allData = some db ∧ jsonLoadsInput chunks = some db.buf ∧ db.Holds chunks.flatten

/-- The parser gets the whole reply exactly when there was a chunk and `size_t` counts the body with its terminator. -/
theorem wholeReply_iff (chunks : List (List Byte)) :
    WholeReply chunks ↔ chunks ≠ [] ∧ chunks.flatten.length + 1 < 0x10000000000000000 := by
  constructor
  · rintro ⟨db, received, _, holds⟩
    have some_chunk : chunks ≠ [] := by
      rintro rfl
      cases Option.some.inj received
      cases holds.buf
    refine ⟨some_chunk, ?_⟩
    rw [← holds.len]
    exact (receiveBody_room some_chunk received).2
  · rintro ⟨some_chunk, counts⟩
    obtain ⟨chunk, later, rfl⟩ := List.exists_cons_of_ne_nil some_chunk
    rw [List.flatten_cons] at counts
    have first : ([] ++ chunk).length + 1 < 0x10000000000000000 := by
      rw [List.length_append] at counts
      rw [List.nil_append]
      omega
    obtain ⟨db, called, holds⟩ := allDataCb_eq allData_begins first
    obtain ⟨db', rest, holds'⟩ := receiveBody_holds holds counts
    have received : receiveBody (chunk :: later) allData = some db' := by
      simp only [receiveBody, called, Option.bind_eq_bind, Option.bind_some, rest]
    refine ⟨db', received, congrArg (Option.map DataBuffer.buf) received, holds'⟩

/-- What `string_get` reads of a whole reply is the character at its position, and the terminator at the end. -/
theorem WholeReply.stringGet_eq {chunks : List (List Byte)} (whole : WholeReply chunks) {data : Option (List Cell)}
    (input : jsonLoadsInput chunks = some data) {pos : Nat} (inside : pos ≤ chunks.flatten.length) :
    stringGet data pos =
      let c := chunks.flatten.getD pos 0
      some (if c = 0 then (none, pos) else (some c, pos + 1)) := by
  obtain ⟨db, _, pointer, holds⟩ := whole
  rw [pointer] at input
  obtain rfl := Option.some.inj input
  have cell : ((chunks.flatten ++ [0]).map some)[pos]? = some (some (chunks.flatten.getD pos 0)) := by
    rw [List.getElem?_map]
    rcases Nat.lt_or_eq_of_le inside with before | rfl
    · rw [List.getElem?_append_left before, List.getD_eq_getElem?_getD, List.getElem?_eq_getElem before]
      rfl
    · simp
  simp only [stringGet, holds.buf, Option.bind_eq_bind, Option.bind_some, cell, Option.pure_def]

/-- A body without chunks: `string_get` is called with `NULL`. -/
theorem not_wholeReply_nil :
    ¬ WholeReply [] ∧ jsonLoadsInput [] = some none ∧ stringGet none 0 = none := by
  refine ⟨?_, rfl, rfl⟩
  rintro ⟨db, received, _, holds⟩
  cases Option.some.inj received
  cases holds.buf

end CpuMiner
