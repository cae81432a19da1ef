/-
Module: CpuMiner.Wire.Stream
Layer: JSON
Purpose: The stream of load.c, from which the lexer takes characters and to which it gives at most one back. The stream
  reads a whole UTF-8 sequence at a time; what it cannot decode comes out as one `EOF`, and so does the end of the
  string. `decode` is the text that comes out of a string in this way, and `Reads` says which text is still to come.
Imports: CpuMiner.Wire.Strbuffer, CpuMiner.Wire.Utf, CpuMiner.Miner.Upstream
Trusted boundary: human-reviewed spec (the transcription of the C code)
Main exports: JsonError, errorSet, Stream, streamInit, streamGet, streamUnget, decode, Reads, Delivered,
  streamGet_reads, streamUnget_reads
Open obligations: none
-/
import CpuMiner.Wire.Strbuffer
import CpuMiner.Wire.Utf
import CpuMiner.Miner.Upstream

namespace CpuMiner.Jansson

open Words
open Utf8

/-! ### Errors -/

/-- `json_error_t`: the text up to its terminator. -/
structure JsonError where
  text : List Byte
  line : Int
deriving DecidableEq

def jsonErrorTextLength : Nat := 160

/-- `error_init` -/
def errorInit : JsonError := { text := [], line := -1 }

/-- What `snprintf` writes to a text of `JSON_ERROR_TEXT_LENGTH` bytes. -/
def errorText (s : List Byte) : List Byte := s.take (jsonErrorTextLength - 1)

/-- `%x` -/
def formatX (n : Nat) : List Byte := ascii (String.ofList (Nat.toDigits 16 n))

/-- `%04X` -/
def format04X (n : Nat) : List Byte :=
  let digits := (Nat.toDigits 16 n).map Char.toUpper
  ascii (String.ofList (List.replicate (4 - digits.length) '0' ++ digits))

/-- `error_set`, for a formatted message; the lexer, if there is one, by its line and its saved text. -/
def errorSet (error : JsonError) (lex : Option (Int × Strbuffer)) (msg : List Byte) : Option JsonError :=
  if error.text ≠ [] then some error
  else
    let text := errorText msg
    match lex with
    | some (line, savedText) => do
        let saved ← cstr savedText.value
        if saved ≠ [] then
          if savedText.length ≤ 20 then
            return { line := line, text := errorText (text ++ ascii " near '" ++ saved ++ ascii "'") }
          else return { line := line, text := errorText text }
        else return { line := line, text := errorText (text ++ ascii " near end of file") }
    | none => some { line := -1, text := errorText text }

theorem errorText_ne_nil {s : List Byte} (more : s ≠ []) : errorText s ≠ [] := by
  obtain ⟨c, rest, rfl⟩ := List.exists_cons_of_ne_nil more
  exact List.cons_ne_nil _ _

/-- After `error_set` there is a text. -/
theorem errorSet_ne_nil {error error' : JsonError} {lex : Option (Int × Strbuffer)} {msg : List Byte}
    (more : msg ≠ []) (set : errorSet error lex msg = some error') : error'.text ≠ [] := by
  have plain := errorText_ne_nil (errorText_ne_nil more)
  have longer : ∀ s, errorText (errorText msg ++ s) ≠ [] := fun s =>
    errorText_ne_nil (List.append_ne_nil_of_left_ne_nil (errorText_ne_nil more) s)
  unfold errorSet at set
  split at set
  · rename_i before
    obtain rfl := Option.some.inj set
    exact before
  · cases lex with
    | none =>
        obtain rfl := Option.some.inj set
        exact plain
    | some lex =>
        obtain ⟨saved, _, rest⟩ := Option.bind_eq_some_iff.mp set
        split at rest
        · split at rest
          · obtain rfl := Option.some.inj rest
            simpa only [List.append_assoc] using longer _
          · obtain rfl := Option.some.inj rest
            exact plain
        · obtain rfl := Option.some.inj rest
          exact longer _

theorem errorSet_eq_some (error : JsonError) (lex : Option (Int × Strbuffer)) (msg : List Byte)
    (readable : ∀ line savedText, lex = some (line, savedText) → ∃ saved, cstr savedText.value = some saved) :
    ∃ error', errorSet error lex msg = some error' := by
  unfold errorSet
  split
  · exact ⟨_, rfl⟩
  · cases lex with
    | none => exact ⟨_, rfl⟩
    | some lex =>
        obtain ⟨saved, read⟩ := readable lex.1 lex.2 rfl
        simp only [read, Option.bind_eq_bind, Option.bind_some]
        split
        · split <;> exact ⟨_, rfl⟩
        · exact ⟨_, rfl⟩

/-! ### The stream -/

/-- `(char)EOF` -/
def eof : Byte := 0xFF

/-- `stream_t` over a string: what `string_get` has not read yet, and the sequence that was read last. -/
structure Stream where
  data : List Byte
  streamPos : Nat
  /-- `char buffer[5]` -/
  buffer : List Byte
  bufferPos : Nat
deriving DecidableEq

/-- `stream_init`. The rest of the array is written before it is read. -/
def streamInit (data : List Byte) : Stream :=
  { data := data, streamPos := 0, buffer := List.replicate 5 0, bufferPos := 0 }

/-- `stream->get`, which is `string_get`. -/
def stringGetChar (stream : Stream) : Byte × Stream :=
  match stream.data with
  | [] => (eof, stream)
  | c :: rest => (c, { stream with data := rest })

/-- `buffer[i] = stream->get(stream->data)`, from `i` on, for as many bytes as are left. -/
def streamFill (i : Nat) : Nat → Stream → Option Stream
  | 0, stream => some stream
  | left + 1, stream => do
      let (c, stream) := stringGetChar stream
      let buffer ← Block.store stream.buffer i [c]
      streamFill (i + 1) left { stream with buffer := buffer }

/-- The next sequence is read into the buffer. The flag is for `goto out`. -/
def streamLoad (stream : Stream) : Option (Bool × Stream) := do
  let (c, stream) := stringGetChar stream
  let buffer ← Block.store stream.buffer 0 [c]
  let stream := { stream with buffer := buffer, bufferPos := 0 }
  if c ≥ 0x80 ∧ c ≠ eof then
    let count := utf8CheckFirst c
    if count = 0 then some (true, stream)
    else if count ≥ 2 then
      let stream ← streamFill 1 (count - 1) stream
      if utf8CheckFull stream.buffer count = none then some (true, stream)
      else
        let buffer ← Block.store stream.buffer count [0]
        return (false, { stream with streamPos := stream.streamPos + count, buffer := buffer })
    else none
  else
    let buffer ← Block.store stream.buffer 1 [0]
    return (false, { stream with streamPos := stream.streamPos + 1, buffer := buffer })

/-- `stream_get` -/
def streamGet (stream : Stream) (error : JsonError) : Option (Byte × Stream × JsonError) := do
  let next ← stream.buffer[stream.bufferPos]?
  let (out, stream) ← if next = 0 then streamLoad stream else some (false, stream)
  let c ← stream.buffer[stream.bufferPos]?
  if out then
    let error ← errorSet error none (ascii "unable to decode byte 0x" ++ formatX c.toNat ++ ascii " at position " ++
      ascii (toString stream.streamPos))
    let buffer ← Block.store stream.buffer 0 [eof, 0]
    return (eof, { stream with buffer := buffer, bufferPos := 1 }, error)
  else return (c, { stream with bufferPos := stream.bufferPos + 1 }, error)

/-- `stream_unget` -/
def streamUnget (stream : Stream) (c : Byte) : Option Stream :=
  if stream.bufferPos > 0 ∧ stream.buffer[stream.bufferPos - 1]? = some c then
    some { stream with bufferPos := stream.bufferPos - 1 }
  else none

/-! ### What comes out of a string -/

/-- What `stream_get` makes of the front of a string, and the rest. -/
def decodeFront (data : List Byte) : List Byte × List Byte :=
  match data with
  | [] => ([], [])
  | c :: rest =>
      if c ≥ 0x80 ∧ c ≠ eof then
        let count := utf8CheckFirst c
        if count = 0 then ([eof], rest)
        else if utf8CheckFull data count = none then ([eof], rest.drop (count - 1))
        else (data.take count, rest.drop (count - 1))
      else ([c], rest)

theorem decodeFront_cons (c : Byte) (rest : List Byte) :
    decodeFront (c :: rest) =
      if c ≥ 0x80 ∧ c ≠ eof then
        if utf8CheckFirst c = 0 then ([eof], rest)
        else if utf8CheckFull (c :: rest) (utf8CheckFirst c) = none then ([eof], rest.drop (utf8CheckFirst c - 1))
        else ((c :: rest).take (utf8CheckFirst c), rest.drop (utf8CheckFirst c - 1))
      else ([c], rest) := rfl

theorem length_decodeFront (c : Byte) (rest : List Byte) : (decodeFront (c :: rest)).2.length ≤ rest.length := by
  rw [decodeFront_cons]
  split
  · split
    · exact Nat.le_refl _
    · split
      all_goals
        rw [List.length_drop]
        omega
  · exact Nat.le_refl _

/-- The characters that come out of a string. -/
def decode (data : List Byte) : List Byte :=
  match data with
  | [] => []
  | c :: rest => (decodeFront (c :: rest)).1 ++ decode (decodeFront (c :: rest)).2
termination_by data.length
decreasing_by exact Nat.lt_succ_of_le (length_decodeFront c rest)

theorem decode_nil : decode [] = [] := by rw [decode]

theorem decode_cons (c : Byte) (rest : List Byte) :
    decode (c :: rest) = (decodeFront (c :: rest)).1 ++ decode (decodeFront (c :: rest)).2 := by rw [decode]

/-- The string does not begin with a character. -/
def Undecodable (data : List Byte) : Prop := ∀ c more, data ≠ encode c ++ more

theorem encode_toNat_lt (c : Char) : ∀ b ∈ encode c, b.toNat < 0xF8 := by
  intro b listed
  have unicode := toNat_lt c
  rw [encode_eq] at listed
  split at listed
  · simp only [List.mem_singleton] at listed
    rw [listed, BitVec.toNat_ofNat]
    omega
  · split at listed
    · simp only [List.mem_cons, List.not_mem_nil, or_false] at listed
      rcases listed with rfl | rfl <;> rw [BitVec.toNat_ofNat] <;> omega
    · split at listed
      · simp only [List.mem_cons, List.not_mem_nil, or_false] at listed
        rcases listed with rfl | rfl | rfl <;> rw [BitVec.toNat_ofNat] <;> omega
      · simp only [List.mem_cons, List.not_mem_nil, or_false] at listed
        rcases listed with rfl | rfl | rfl | rfl <;> rw [BitVec.toNat_ofNat] <;> omega

theorem eof_not_mem_encode (c : Char) : eof ∉ encode c := by
  intro listed
  have small := encode_toNat_lt c eof listed
  exact absurd small (by decide)

/-- A character comes out as it is. -/
theorem decodeFront_encode (c : Char) (more : List Byte) : decodeFront (encode c ++ more) = (encode c, more) := by
  obtain ⟨u, tail, first⟩ := List.exists_cons_of_ne_nil (encode_ne_nil c)
  have count : utf8CheckFirst u = (encode c).length := by
    have checked := utf8CheckFirst_encode c more
    rwa [first, List.cons_append, List.headD_cons, ← first] at checked
  have lengths := length_encode c
  have taken : (encode c ++ more).take (encode c).length = encode c := List.take_left
  have dropped : (encode c ++ more).drop (encode c).length = more := List.drop_left
  rw [first, List.cons_append] at taken dropped ⊢
  rw [← first] at taken dropped
  have notEof : u ≠ eof := by
    rintro rfl
    exact eof_not_mem_encode c (first ▸ List.mem_cons_self)
  rw [decodeFront_cons]
  by_cases high : u ≥ 0x80
  · have many : 1 < utf8CheckFirst u := by
      have notOne : ¬ utf8CheckFirst u = 1 := by
        rw [utf8CheckFirst_eq_one]
        exact Nat.not_lt.mpr (BitVec.le_def.mp high)
      omega
    obtain ⟨value, checked⟩ : ∃ value, utf8CheckFull (u :: (tail ++ more)) (utf8CheckFirst u) = some value := by
      refine ⟨c.toNat, (utf8CheckFull_eq_some many).mpr ⟨c, more, rfl, count.symm, ?_⟩⟩
      rw [first]
      rfl
    obtain ⟨k, size⟩ : ∃ k, utf8CheckFirst u = k + 1 := ⟨utf8CheckFirst u - 1, by omega⟩
    rw [if_pos ⟨high, notEof⟩, if_neg (show ¬ utf8CheckFirst u = 0 by omega), checked,
      if_neg (Option.some_ne_none value), size, Nat.add_sub_cancel]
    rw [← count, size] at taken dropped
    rw [taken, first]
    exact congrArg (Prod.mk _) dropped
  · have one : (encode c).length = 1 := by
      rw [← count, utf8CheckFirst_eq_one]
      exact BitVec.not_le.mp high
    rw [first, List.length_cons] at one
    obtain rfl := List.length_eq_zero_iff.mp (Nat.succ.inj one)
    rw [if_neg fun both => high both.1]
    rfl

/-- What is not a character comes out as `EOF`, and takes with it as many bytes as its first one promises. -/
theorem decodeFront_undecodable {c : Byte} {rest : List Byte} (bad : Undecodable (c :: rest)) :
    decodeFront (c :: rest) = ([eof], rest.drop (utf8CheckFirst c - 1)) := by
  have high : c ≥ 0x80 := by
    refine BitVec.not_lt.mp fun low => ?_
    obtain ⟨d, _, encoded⟩ := exists_encode_ascii (BitVec.lt_def.mp low)
    exact bad d rest (by rw [encoded]; rfl)
  rw [decodeFront_cons]
  by_cases isEof : c = eof
  · subst isEof
    rfl
  · rw [if_pos ⟨high, isEof⟩]
    by_cases zero : utf8CheckFirst c = 0
    · rw [if_pos zero, zero]
      rfl
    · have many : 1 < utf8CheckFirst c := by
        have notOne : ¬ utf8CheckFirst c = 1 := by
          rw [utf8CheckFirst_eq_one]
          exact Nat.not_lt.mpr (BitVec.le_def.mp high)
        omega
      have refused : utf8CheckFull (c :: rest) (utf8CheckFirst c) = none := by
        refine Option.eq_none_iff_forall_ne_some.mpr fun value checked => ?_
        obtain ⟨d, more, _, _, bytes⟩ := (utf8CheckFull_eq_some many).mp checked
        exact bad d more bytes
      rw [if_neg zero, refused, if_pos rfl]

theorem utf8CheckFirst_le_of_bytes (c : Byte) : utf8CheckFirst c - 1 ≤ 3 := by
  have bound := utf8CheckFirst_le c
  omega

/-! ### The buffer -/

/-- The bytes that `stream->get` returns next. -/
def nextBytes (data : List Byte) (count : Nat) : List Byte := (data ++ List.replicate count eof).take count

theorem nextBytes_succ (data : List Byte) (count : Nat) :
    nextBytes data (count + 1) = data.headD eof :: nextBytes data.tail count := by
  cases data with
  | nil => simp [nextBytes, List.replicate_succ]
  | cons c rest => simp [nextBytes, List.replicate_succ', ← List.append_assoc, List.take_append]

theorem length_nextBytes (data : List Byte) (count : Nat) : (nextBytes data count).length = count := by
  rw [nextBytes, List.length_take, List.length_append, List.length_replicate]
  omega

theorem stringGetChar_eq (stream : Stream) :
    stringGetChar stream = (stream.data.headD eof, { stream with data := stream.data.tail }) := by
  obtain ⟨data, streamPos, buffer, bufferPos⟩ := stream
  cases data <;> rfl

theorem streamFill_eq {stream : Stream} {before old after : List Byte}
    (buffer : stream.buffer = before ++ old ++ after) :
    streamFill before.length old.length stream =
      some { stream with data := stream.data.drop old.length,
                         buffer := before ++ nextBytes stream.data old.length ++ after } := by
  induction old generalizing stream before with
  | nil =>
      obtain ⟨data, streamPos, _, bufferPos⟩ := stream
      obtain rfl := buffer
      simp [streamFill, nextBytes]
  | cons b old ih =>
      have stored : Block.store stream.buffer before.length [stream.data.headD eof] =
          some (before ++ [stream.data.headD eof] ++ old ++ after) := by
        have split : stream.buffer = before ++ [b] ++ (old ++ after) := by simp [buffer]
        rw [split, Block.store_append before [b] (old ++ after) [stream.data.headD eof] rfl]
        simp
      rw [List.length_cons, streamFill, stringGetChar_eq]
      simp only [stored, Option.bind_eq_bind, Option.bind_some]
      have rest := @ih
        { stream with data := stream.data.tail, buffer := before ++ [stream.data.headD eof] ++ old ++ after }
        (before ++ [stream.data.headD eof]) rfl
      rw [List.length_append, List.length_singleton] at rest
      rw [rest, nextBytes_succ]
      simp [List.drop_tail]

/-- What is in the buffer behind the end of the string does not make a sequence. -/
theorem utf8Continue_nextBytes (data after : List Byte) (value left : Nat) :
    utf8Continue value left (nextBytes data left ++ after) = utf8Continue value left data := by
  induction left generalizing value data with
  | zero => rfl
  | succ left ih =>
      rw [nextBytes_succ]
      cases data with
      | nil => rfl
      | cons c rest =>
          rw [List.cons_append, utf8Continue, utf8Continue, List.headD_cons, List.tail_cons, ih]

theorem utf8CheckFull_nextBytes (c : Byte) (data after : List Byte) (count : Nat) :
    utf8CheckFull (c :: (nextBytes data (count - 1) ++ after)) count = utf8CheckFull (c :: data) count := by
  simp only [utf8CheckFull, List.headD_cons, List.tail_cons, utf8Continue_nextBytes]

/-- A sequence that is accepted is in the string. -/
theorem nextBytes_eq_take {c : Byte} {data : List Byte} (many : 1 < utf8CheckFirst c) {value : Nat}
    (checked : utf8CheckFull (c :: data) (utf8CheckFirst c) = some value) :
    c :: nextBytes data (utf8CheckFirst c - 1) = (c :: data).take (utf8CheckFirst c) := by
  obtain ⟨d, more, _, length, bytes⟩ := (utf8CheckFull_eq_some many).mp checked
  have enough : utf8CheckFirst c - 1 ≤ data.length := by
    have total := congrArg List.length bytes
    rw [List.length_cons, List.length_append, length] at total
    omega
  obtain ⟨k, size⟩ : ∃ k, utf8CheckFirst c = k + 1 := ⟨utf8CheckFirst c - 1, by omega⟩
  rw [size, Nat.add_sub_cancel] at enough ⊢
  rw [nextBytes, List.take_append_of_le_length enough, List.take_succ_cons]

/-- The buffer has what was delivered of its sequence, and what is still to come. -/
structure Stream.Holds (stream : Stream) (behind ahead : List Byte) : Prop where
  size : stream.buffer.length = 5
  buffer : ∃ stale, stream.buffer = behind ++ ahead ++ 0 :: stale
  pos : stream.bufferPos = behind.length
  noNul : 0 ∉ ahead
  single : eof ∈ ahead → ahead = [eof]
  data : 0 ∉ stream.data

theorem Undecodable.of_refused {c : Byte} {rest : List Byte} (high : c ≥ 0x80)
    (refused : utf8CheckFirst c = 0 ∨ utf8CheckFull (c :: rest) (utf8CheckFirst c) = none) :
    Undecodable (c :: rest) := by
  intro d more bytes
  have count : utf8CheckFirst c = (encode d).length := by
    rw [← utf8CheckFirst_encode d more, ← bytes]
    rfl
  have lengths := length_encode d
  have many : 1 < utf8CheckFirst c := by
    have notOne : ¬ utf8CheckFirst c = 1 := by
      rw [utf8CheckFirst_eq_one]
      exact Nat.not_lt.mpr (BitVec.le_def.mp high)
    omega
  rcases refused with zero | refused
  · omega
  · rw [(utf8CheckFull_eq_some many).mpr ⟨d, more, rfl, count.symm, bytes⟩] at refused
    cases refused

theorem exists_five (buffer : List Byte) (size : buffer.length = 5) :
    ∃ b0 b1 b2 b3 b4, buffer = [b0, b1, b2, b3, b4] := by
  obtain ⟨b0, _, rfl⟩ := List.exists_of_length_succ buffer size
  obtain ⟨b1, _, rfl⟩ := List.exists_of_length_succ _ (Nat.succ.inj size)
  obtain ⟨b2, _, rfl⟩ := List.exists_of_length_succ _ (Nat.succ.inj (Nat.succ.inj size))
  obtain ⟨b3, _, rfl⟩ := List.exists_of_length_succ _ (Nat.succ.inj (Nat.succ.inj (Nat.succ.inj size)))
  obtain ⟨b4, rest, rfl⟩ :=
    List.exists_of_length_succ _ (Nat.succ.inj (Nat.succ.inj (Nat.succ.inj (Nat.succ.inj size))))
  simp only [List.length_cons] at size
  obtain rfl := List.length_eq_zero_iff.mp (by omega : rest.length = 0)
  exact ⟨b0, b1, b2, b3, b4, rfl⟩

theorem streamLoad_cons (c : Byte) (rest : List Byte) (streamPos bufferPos : Nat) (b0 b1 b2 b3 b4 : Byte) :
    streamLoad { data := c :: rest, streamPos := streamPos, buffer := [b0, b1, b2, b3, b4], bufferPos := bufferPos } =
      if c ≥ 0x80 ∧ c ≠ eof then
        if utf8CheckFirst c = 0 then
          some (true, { data := rest, streamPos := streamPos, buffer := [c, b1, b2, b3, b4], bufferPos := 0 })
        else if utf8CheckFirst c ≥ 2 then do
          let stream ← streamFill 1 (utf8CheckFirst c - 1)
            { data := rest, streamPos := streamPos, buffer := [c, b1, b2, b3, b4], bufferPos := 0 }
          if utf8CheckFull stream.buffer (utf8CheckFirst c) = none then some (true, stream)
          else
            let buffer ← Block.store stream.buffer (utf8CheckFirst c) [0]
            return (false, { stream with streamPos := stream.streamPos + utf8CheckFirst c, buffer := buffer })
        else none
      else
        some (false, { data := rest, streamPos := streamPos + 1, buffer := [c, 0, b2, b3, b4], bufferPos := 0 }) := rfl

/-- The buffer after the loop: the bytes that were read, and one more at least. -/
theorem streamFill_first (c : Byte) (rest : List Byte) (streamPos : Nat) (b1 b2 b3 b4 : Byte) {k : Nat}
    (fits : k ≤ 3) :
    ∃ x stale, stale.length = 3 - k ∧
      streamFill 1 k { data := rest, streamPos := streamPos, buffer := [c, b1, b2, b3, b4], bufferPos := 0 } =
        some { data := rest.drop k, streamPos := streamPos, buffer := c :: (nextBytes rest k ++ x :: stale),
               bufferPos := 0 } := by
  have length : ([b1, b2, b3, b4].take k).length = k := by
    rw [List.length_take, show [b1, b2, b3, b4].length = 4 from rfl]
    omega
  have left : ([b1, b2, b3, b4].drop k).length = 4 - k := List.length_drop
  obtain ⟨x, stale, after⟩ : ∃ x stale, [b1, b2, b3, b4].drop k = x :: stale := by
    refine List.exists_cons_of_ne_nil fun none => ?_
    rw [none, List.length_nil] at left
    omega
  refine ⟨x, stale, ?_, ?_⟩
  · rw [after, List.length_cons] at left
    omega
  · have filled := @streamFill_eq
      { data := rest, streamPos := streamPos, buffer := [c, b1, b2, b3, b4], bufferPos := 0 } [c]
      ([b1, b2, b3, b4].take k) ([b1, b2, b3, b4].drop k) (by rw [List.append_assoc, List.take_append_drop]; rfl)
    rw [length, after] at filled
    exact filled

/-- Either a sequence is in the buffer, or `goto out` is taken. -/
theorem streamLoad_holds {stream : Stream} (size : stream.buffer.length = 5) (noNul : 0 ∉ stream.data) :
    ∃ out stream', streamLoad stream = some (out, stream') ∧ stream'.bufferPos = 0 ∧ stream'.buffer.length = 5 ∧
      0 ∉ stream'.data ∧
      if out then decodeFront stream.data = ([eof], stream'.data) ∧ stream.data ≠ []
      else ∃ ahead, stream'.Holds [] ahead ∧ ahead ≠ [] ∧
        if stream.data = [] then ahead = [eof] ∧ stream'.data = []
        else decodeFront stream.data = (ahead, stream'.data) := by
  obtain ⟨data, streamPos, buffer, bufferPos⟩ := stream
  obtain ⟨b0, b1, b2, b3, b4, rfl⟩ := exists_five buffer size
  cases data with
  | nil =>
      refine ⟨false, _, rfl, rfl, rfl, noNul, [eof], ?_, List.cons_ne_nil _ _, rfl, rfl⟩
      exact ⟨rfl, ⟨_, rfl⟩, rfl, by decide, fun _ => rfl, noNul⟩
  | cons c rest =>
      have later : 0 ∉ rest := fun listed => noNul (List.mem_cons_of_mem c listed)
      have first : c ≠ 0 := fun zero => noNul (zero ▸ List.mem_cons_self)
      rw [streamLoad_cons]
      by_cases high : c ≥ 0x80 ∧ c ≠ eof
      · rw [if_pos high]
        by_cases zero : utf8CheckFirst c = 0
        · rw [if_pos zero]
          refine ⟨true, _, rfl, rfl, rfl, later, ?_, List.cons_ne_nil c rest⟩
          rw [decodeFront_undecodable (.of_refused high.1 (.inl zero)), zero]
          rfl
        · have many : 1 < utf8CheckFirst c := by
            have notOne : ¬ utf8CheckFirst c = 1 := by
              rw [utf8CheckFirst_eq_one]
              exact Nat.not_lt.mpr (BitVec.le_def.mp high.1)
            omega
          have atMost := utf8CheckFirst_le c
          obtain ⟨x, stale, left, filled⟩ := streamFill_first c rest streamPos b1 b2 b3 b4
            (utf8CheckFirst_le_of_bytes c)
          have tail : 0 ∉ rest.drop (utf8CheckFirst c - 1) := fun listed => later (List.mem_of_mem_drop listed)
          have whole : (c :: (nextBytes rest (utf8CheckFirst c - 1) ++ x :: stale)).length = 5 := by
            rw [List.length_cons, List.length_append, length_nextBytes, List.length_cons]
            omega
          rw [if_neg zero, if_pos (show utf8CheckFirst c ≥ 2 from many), filled]
          simp only [Option.bind_eq_bind, Option.bind_some, utf8CheckFull_nextBytes]
          cases checked : utf8CheckFull (c :: rest) (utf8CheckFirst c) with
          | none =>
              refine ⟨true, _, if_pos rfl, rfl, whole, tail, ?_, List.cons_ne_nil c rest⟩
              exact decodeFront_undecodable (.of_refused high.1 (.inr checked))
          | some value =>
              obtain ⟨d, more, _, length, bytes⟩ := (utf8CheckFull_eq_some many).mp checked
              have piece : (c :: rest).take (utf8CheckFirst c) = encode d := by
                rw [bytes, ← length, List.take_left]
              have sequence : c :: (nextBytes rest (utf8CheckFirst c - 1) ++ x :: stale) =
                encode d ++ [x] ++ stale := by
                rw [← List.cons_append, nextBytes_eq_take many checked, piece, List.append_assoc, List.singleton_append]
              have stored : Block.store (encode d ++ [x] ++ stale) (utf8CheckFirst c) [0] =
                  some (encode d ++ [0] ++ stale) := by
                rw [← length]
                exact Block.store_append (encode d) [x] stale [0] rfl
              have same : (encode d ++ [0] ++ stale).length = 5 := by
                rw [← whole, sequence]
                simp
              rw [if_neg (Option.some_ne_none value), sequence, stored]
              refine ⟨false, _, rfl, rfl, same, tail, encode d, ?_, encode_ne_nil d, ?_⟩
              · refine ⟨same, ⟨stale, List.append_assoc ..⟩, rfl, ?_, ?_, tail⟩
                · rw [← piece]
                  exact fun listed => noNul (List.mem_of_mem_take listed)
                · exact fun listed => absurd listed (eof_not_mem_encode d)
              · rw [if_neg (List.cons_ne_nil c rest), decodeFront_cons, if_pos high, if_neg zero, checked,
                  if_neg (Option.some_ne_none value), piece]
      · rw [if_neg high]
        refine ⟨false, _, rfl, rfl, rfl, later, [c], ?_, List.cons_ne_nil _ _, ?_⟩
        · refine ⟨rfl, ⟨_, rfl⟩, rfl, ?_, ?_, later⟩
          · exact fun listed => first (List.mem_singleton.mp listed).symm
          · intro listed
            rw [List.mem_singleton.mp listed]
        · rw [if_neg (List.cons_ne_nil c rest), decodeFront_cons, if_neg high]

/-! ### Getting and ungetting -/

/-- This text comes out of the stream. When `EOF` is given back at the end of the string, it comes out again. -/
def Reads (stream : Stream) (text : List Byte) : Prop :=
  ∃ behind ahead, stream.Holds behind ahead ∧
    (text = ahead ++ decode stream.data ∨ (text = [] ∧ ahead = [eof] ∧ stream.data = []))

/-- This character has come out last, and this text comes out next. -/
def Delivered (stream : Stream) (c : Byte) (text : List Byte) : Prop :=
  ∃ behind ahead, stream.Holds (behind ++ [c]) ahead ∧ text = ahead ++ decode stream.data ∧
    eof ∉ ahead ∧ (c = eof → ahead = [])

theorem streamInit_reads {data : List Byte} (noNul : 0 ∉ data) : Reads (streamInit data) (decode data) :=
  ⟨[], [], ⟨rfl, ⟨_, rfl⟩, rfl, by simp, by simp, noNul⟩, .inl rfl⟩

theorem Delivered.reads {stream : Stream} {c : Byte} {text : List Byte} (delivered : Delivered stream c text) :
    Reads stream text := by
  obtain ⟨behind, ahead, holds, rest, _, _⟩ := delivered
  exact ⟨behind ++ [c], ahead, holds, .inl rest⟩

/-- What a string begins with, and what is made of it. -/
theorem decodeFront_cases (c : Byte) (rest : List Byte) :
    (∃ d more, c :: rest = encode d ++ more ∧ decodeFront (c :: rest) = (encode d, more)) ∨
    (Undecodable (c :: rest) ∧ decodeFront (c :: rest) = ([eof], rest.drop (utf8CheckFirst c - 1))) := by
  by_cases bad : Undecodable (c :: rest)
  · exact .inr ⟨bad, decodeFront_undecodable bad⟩
  · simp only [Undecodable, not_forall, not_not] at bad
    obtain ⟨d, more, bytes⟩ := bad
    exact .inl ⟨d, more, bytes, by rw [bytes, decodeFront_encode]⟩

theorem decode_noNul {data : List Byte} (noNul : 0 ∉ data) : 0 ∉ decode data := by
  induction length : data.length using Nat.strongRecOn generalizing data with
  | ind n ih =>
      cases data with
      | nil =>
          rw [decode_nil]
          exact noNul
      | cons c rest =>
          have shorter := length_decodeFront c rest
          rw [List.length_cons] at length
          rw [decode_cons]
          rcases decodeFront_cases c rest with ⟨d, more, bytes, front⟩ | ⟨_, front⟩
          · rw [bytes, List.mem_append, not_or] at noNul
            rw [front] at shorter ⊢
            rw [List.mem_append, not_or]
            exact ⟨noNul.1, ih _ (by omega) noNul.2 rfl⟩
          · rw [front] at shorter ⊢
            rw [List.mem_append, not_or]
            have notEof : (0 : Byte) ∉ [eof] := by decide
            refine ⟨notEof, ih _ (by omega) (fun listed => ?_) rfl⟩
            exact noNul (List.mem_cons_of_mem c (List.mem_of_mem_drop listed))

theorem Reads.noNul {stream : Stream} {text : List Byte} (reads : Reads stream text) : 0 ∉ text := by
  obtain ⟨behind, ahead, holds, rfl | ⟨rfl, _, _⟩⟩ := reads
  · rw [List.mem_append, not_or]
    exact ⟨holds.noNul, decode_noNul holds.data⟩
  · exact List.not_mem_nil

/-- The next character is in the buffer. -/
theorem Stream.Holds.next {stream : Stream} {behind ahead : List Byte} (holds : stream.Holds behind ahead) :
    stream.buffer[stream.bufferPos]? = some (ahead.headD 0) := by
  obtain ⟨stale, buffer⟩ := holds.buffer
  rw [holds.pos, buffer, List.append_assoc, List.getElem?_append_right (Nat.le_refl _), Nat.sub_self]
  cases ahead <;> rfl

theorem Stream.Holds.not_mem_eof {stream : Stream} {behind ahead : List Byte} {c : Byte}
    (holds : stream.Holds behind (c :: ahead)) : eof ∉ ahead := by
  intro listed
  have only := holds.single (List.mem_cons_of_mem c listed)
  rw [(List.cons.inj only).2] at listed
  cases listed

/-- A character that is in the buffer is delivered. -/
theorem Stream.Holds.advance {stream : Stream} {behind ahead : List Byte} {c : Byte}
    (holds : stream.Holds behind (c :: ahead)) :
    Stream.Holds { stream with bufferPos := stream.bufferPos + 1 } (behind ++ [c]) ahead where
  size := holds.size
  buffer := by
    obtain ⟨stale, buffer⟩ := holds.buffer
    exact ⟨stale, by rw [buffer]; simp⟩
  pos := by
    rw [List.length_append, List.length_singleton]
    exact congrArg (· + 1) holds.pos
  noNul listed := holds.noNul (List.mem_cons_of_mem c listed)
  single listed := absurd listed holds.not_mem_eof
  data := holds.data

theorem decode_eq_nil {data : List Byte} : decode data = [] ↔ data = [] := by
  refine ⟨fun empty => ?_, fun empty => by rw [empty, decode_nil]⟩
  cases data with
  | nil => rfl
  | cons c rest =>
      rw [decode_cons, List.append_eq_nil_iff] at empty
      rcases decodeFront_cases c rest with ⟨d, more, _, front⟩ | ⟨_, front⟩
      · rw [front] at empty
        exact absurd empty.1 (encode_ne_nil d)
      · rw [front] at empty
        cases empty.1

/-- `stream_get` delivers the next character of the text, or `EOF` at its end. -/
theorem streamGet_reads {stream : Stream} {text : List Byte} (reads : Reads stream text) (error : JsonError) :
    ∃ stream' error', streamGet stream error = some (text.headD eof, stream', error') ∧
      Delivered stream' (text.headD eof) text.tail := by
  obtain ⟨behind, ahead, holds, comes⟩ := reads
  cases ahead with
  | cons c ahead =>
      have next : stream.buffer[stream.bufferPos]? = some c := holds.next
      have notNul : c ≠ 0 := fun zero => holds.noNul (zero ▸ List.mem_cons_self)
      have isNext : text.headD eof = c ∧ text.tail = ahead ++ decode stream.data := by
        rcases comes with rfl | ⟨rfl, only, noData⟩
        · exact ⟨rfl, rfl⟩
        · obtain ⟨rfl, rfl⟩ := List.cons.inj only
          rw [noData, decode_nil]
          exact ⟨rfl, rfl⟩
      rw [isNext.1, isNext.2]
      refine ⟨_, error, ?_, behind, ahead, holds.advance, rfl, holds.not_mem_eof, ?_⟩
      · simp only [streamGet, next, Option.bind_eq_bind, Option.bind_some, if_neg notNul, Bool.false_eq_true, if_false,
          Option.pure_def]
      · rintro rfl
        exact (List.cons.inj (holds.single List.mem_cons_self)).2
  | nil =>
      have next : stream.buffer[stream.bufferPos]? = some 0 := holds.next
      obtain rfl : text = decode stream.data := by
        rcases comes with rfl | ⟨_, only, _⟩
        · rfl
        · cases only
      obtain ⟨out, loaded, load, pos, size, noNul, result⟩ := streamLoad_holds holds.size holds.data
      cases out with
      | true =>
          obtain ⟨front, more⟩ := result
          obtain ⟨c, rest, data⟩ := List.exists_cons_of_ne_nil more
          have comes : decode stream.data = eof :: decode loaded.data := by
            rw [data, decode_cons, ← data, front]
            rfl
          obtain ⟨b0, b1, b2, b3, b4, buffer⟩ := exists_five loaded.buffer size
          obtain ⟨error', set⟩ := errorSet_eq_some error none (ascii "unable to decode byte 0x" ++ formatX b0.toNat ++
            ascii " at position " ++ ascii (toString loaded.streamPos)) nofun
          refine ⟨{ loaded with buffer := [eof, 0, b2, b3, b4], bufferPos := 1 }, error', ?_, [], [], ?_, ?_, by simp,
            fun _ => rfl⟩
          · have first : loaded.buffer[loaded.bufferPos]? = some b0 := by rw [pos, buffer]; rfl
            have stored : Block.store loaded.buffer 0 [eof, 0] = some [eof, 0, b2, b3, b4] := by rw [buffer]; rfl
            rw [comes]
            simp only [streamGet, next, Option.bind_eq_bind, Option.bind_some, if_true, load, first, set, stored,
              Option.pure_def, List.headD_cons]
          · rw [comes]
            exact ⟨rfl, ⟨_, rfl⟩, rfl, by simp, by simp, noNul⟩
          · rw [comes]
            rfl
      | false =>
          obtain ⟨ahead, holds', some_ahead, result⟩ := result
          obtain ⟨c, ahead, rfl⟩ := List.exists_cons_of_ne_nil some_ahead
          have isNext : (decode stream.data).headD eof = c ∧
            (decode stream.data).tail = ahead ++ decode loaded.data := by
            by_cases noData : stream.data = []
            · rw [if_pos noData] at result
              obtain ⟨only, noData'⟩ := result
              obtain ⟨rfl, rfl⟩ := List.cons.inj only
              rw [noData, noData', decode_nil]
              exact ⟨rfl, rfl⟩
            · rw [if_neg noData] at result
              obtain ⟨d, rest, data⟩ := List.exists_cons_of_ne_nil noData
              rw [data, decode_cons, ← data, result]
              exact ⟨rfl, rfl⟩
          have first : loaded.buffer[loaded.bufferPos]? = some c := holds'.next
          rw [isNext.1, isNext.2]
          refine ⟨_, error, ?_, [], ahead, holds'.advance, rfl, holds'.not_mem_eof, ?_⟩
          · simp only [streamGet, next, Option.bind_eq_bind, Option.bind_some, if_true, load, first,
              Bool.false_eq_true, if_false, Option.pure_def]
          · rintro rfl
            exact (List.cons.inj (holds'.single List.mem_cons_self)).2

/-- `stream_unget` gives the character back. -/
theorem streamUnget_reads {stream : Stream} {text : List Byte}
    (delivered : Delivered stream (text.headD eof) text.tail) (noNul : 0 ∉ text) :
    ∃ stream', streamUnget stream (text.headD eof) = some stream' ∧ Reads stream' text ∧
      stream'.data = stream.data := by
  obtain ⟨behind, ahead, holds, rest, noEof, alone⟩ := delivered
  obtain ⟨stale, buffer⟩ := holds.buffer
  have pos : stream.bufferPos = behind.length + 1 := by
    rw [holds.pos, List.length_append, List.length_singleton]
  have last : stream.buffer[stream.bufferPos - 1]? = some (text.headD eof) := by
    rw [pos, Nat.add_sub_cancel, buffer, List.append_assoc, List.append_assoc,
      List.getElem?_append_right (Nat.le_refl _), Nat.sub_self]
    rfl
  refine ⟨{ stream with bufferPos := stream.bufferPos - 1 }, ?_, ⟨behind, text.headD eof :: ahead, ?_, ?_⟩, rfl⟩
  · rw [streamUnget, if_pos ⟨by omega, last⟩]
  · refine ⟨holds.size, ⟨stale, by rw [buffer]; simp⟩, ?_, ?_, ?_, holds.data⟩
    · simp only [pos, Nat.add_sub_cancel]
    · intro listed
      rcases List.mem_cons.mp listed with zero | later
      · cases text with
        | nil => exact absurd zero (by decide)
        | cons c _ => exact noNul (zero ▸ List.mem_cons_self)
      · exact holds.noNul later
    · intro listed
      rcases List.mem_cons.mp listed with isEof | later
      · rw [alone isEof.symm, ← isEof]
      · exact absurd later noEof
  · cases text with
    | nil =>
        obtain ⟨rfl, comes⟩ := List.append_eq_nil_iff.mp rest.symm
        exact .inr ⟨rfl, rfl, decode_eq_nil.mp comes⟩
    | cons c text =>
        left
        rw [List.headD_cons, List.cons_append, ← rest]
        rfl

/-- After `EOF`, `lex_eof` says whether more comes. -/
theorem Delivered.eof_iff {stream : Stream} {text : List Byte} (delivered : Delivered stream eof text) :
    stream.data = [] ↔ text = [] := by
  obtain ⟨behind, ahead, _, rest, _, alone⟩ := delivered
  rw [alone rfl, List.nil_append] at rest
  rw [rest, decode_eq_nil]

/-- No more comes out of a stream than is in it. -/
theorem length_decode_le (data : List Byte) : (decode data).length ≤ data.length := by
  induction length : data.length using Nat.strongRecOn generalizing data with
  | ind n ih =>
      cases data with
      | nil =>
          rw [decode_nil]
          exact Nat.zero_le _
      | cons c rest =>
          have shorter := length_decodeFront c rest
          rw [List.length_cons] at length
          rw [decode_cons, List.length_append]
          rcases decodeFront_cases c rest with ⟨d, more, bytes, front⟩ | ⟨_, front⟩
          · rw [front] at shorter ⊢
            have total := congrArg List.length bytes
            rw [List.length_cons, List.length_append] at total
            have nonempty := List.length_pos_of_ne_nil (encode_ne_nil d)
            have later := ih more.length (by omega) more rfl
            have sum : (encode d).length + (decode more).length ≤ n := by omega
            exact sum
          · rw [front] at shorter ⊢
            have left : (rest.drop (utf8CheckFirst c - 1)).length ≤ rest.length := shorter
            have later := ih _ (by omega) (rest.drop (utf8CheckFirst c - 1)) rfl
            rw [List.length_singleton]
            exact Nat.le_trans (Nat.add_le_add_left later 1) (by omega)

theorem Reads.length_le {stream : Stream} {text : List Byte} (reads : Reads stream text) :
    text.length ≤ stream.data.length + 5 := by
  obtain ⟨behind, ahead, holds, rfl | ⟨rfl, _, _⟩⟩ := reads
  · obtain ⟨stale, buffer⟩ := holds.buffer
    have size := holds.size
    have shorter := length_decode_le stream.data
    rw [buffer, List.length_append, List.length_append] at size
    rw [List.length_append]
    omega
  · exact Nat.zero_le _

/-! ### Texts and what remains behind them -/

/-- Characters come out as they are. -/
theorem decode_valid {body : List Byte} (valid : Valid body) (junk : List Byte) :
    decode (body ++ junk) = body ++ decode junk := by
  obtain ⟨cs, rfl⟩ := valid
  induction cs with
  | nil => rfl
  | cons d cs ih =>
      obtain ⟨u, tail, first⟩ := List.exists_cons_of_ne_nil (encode_ne_nil d)
      have front := decodeFront_encode d (encodeAll cs ++ junk)
      rw [first, List.cons_append] at front
      rw [encodeAll_cons, List.append_assoc, first, List.cons_append, decode_cons, front, ih]
      simp only [List.cons_append, List.append_assoc]

/-- What comes out without an `EOF` is there as characters. -/
theorem exists_of_decode {data body rest : List Byte} (comes : decode data = body ++ rest) (noEof : eof ∉ body)
    (ends : ∀ c ∈ rest.head?, c = eof) : ∃ junk, data = body ++ junk ∧ Valid body ∧ decode junk = rest := by
  induction length : data.length using Nat.strongRecOn generalizing data body with
  | ind n ih =>
      cases body with
      | nil => exact ⟨data, rfl, valid_nil, comes⟩
      | cons b body =>
          cases data with
          | nil =>
              rw [decode_nil] at comes
              cases comes
          | cons c data =>
              rw [decode_cons] at comes
              rcases decodeFront_cases c data with ⟨d, more, bytes, front⟩ | ⟨_, front⟩
              · rw [front] at comes
                change encode d ++ decode more = b :: body ++ rest at comes
                obtain ⟨body', split, comes'⟩ : ∃ body', b :: body = encode d ++ body' ∧
                  decode more = body' ++ rest := by
                  rcases List.append_eq_append_iff.mp comes with split | ⟨behind, split, rest'⟩
                  · exact split
                  · cases behind with
                    | nil => exact ⟨[], by rw [split, List.append_nil, List.append_nil], by rw [rest']; rfl⟩
                    | cons e behind =>
                        have isEof : e = eof := ends e (by rw [rest']; rfl)
                        exact absurd (by rw [split, isEof]; simp) (eof_not_mem_encode d)
                rw [split] at noEof ⊢
                have shorter : more.length < n := by
                  have positive := List.length_pos_iff.mpr (encode_ne_nil d)
                  rw [← length, bytes, List.length_append]
                  omega
                obtain ⟨junk, rfl, valid, rest'⟩ := ih more.length shorter comes'
                  (fun listed => noEof (List.mem_append_right _ listed)) rfl
                exact ⟨junk, by rw [bytes, List.append_assoc], (valid_encode d).append valid, rest'⟩
              · rw [front] at comes
                obtain ⟨rfl, _⟩ := List.cons.inj comes
                exact absurd List.mem_cons_self noEof

/-- Nothing remains behind a text, or a byte that begins no character, with no more bytes than are read with it. -/
def Remains (junk : List Byte) : Prop :=
  junk = [] ∨ ∃ c rest, junk = c :: rest ∧ Undecodable (c :: rest) ∧ rest.length ≤ utf8CheckFirst c - 1

theorem decode_remains {junk : List Byte} : Remains junk ↔ decode junk = [] ∨ decode junk = [eof] := by
  refine or_congr decode_eq_nil.symm ⟨?_, fun comes => ?_⟩
  · rintro ⟨c, rest, rfl, bad, short⟩
    rw [decode_cons, decodeFront_undecodable bad, List.drop_eq_nil_of_le short, decode_nil]
    rfl
  · cases junk with
    | nil =>
        rw [decode_nil] at comes
        cases comes
    | cons c rest =>
        rw [decode_cons] at comes
        rcases decodeFront_cases c rest with ⟨d, more, _, front⟩ | ⟨bad, front⟩
        · rw [front] at comes
          have listed : eof ∈ encode d := by
            obtain ⟨u, tail, first⟩ := List.exists_cons_of_ne_nil (encode_ne_nil d)
            rw [first, List.cons_append] at comes
            rw [first, (List.cons.inj comes).1]
            exact List.mem_cons_self
          exact absurd listed (eof_not_mem_encode d)
        · rw [front] at comes
          refine ⟨c, rest, rfl, bad, ?_⟩
          exact List.drop_eq_nil_iff.mp (decode_eq_nil.mp (List.cons.inj comes).2)

end CpuMiner.Jansson
