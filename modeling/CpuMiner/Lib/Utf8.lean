/-
Module: CpuMiner.Lib.Utf8
Layer: Library
Purpose: UTF-8 as lists of bytes. A text is well formed when it is a list of characters, each in its encoding. The
  encodings of one to four bytes are given as arithmetic on the code point (`encode_eq`), which is the form that an
  encoder or a decoder is compared with. Only an ASCII character has bytes below `0x80` in its encoding, so that a text
  can be split at such a byte (`Valid.split`).
Imports: CpuMiner.Lib.Words
Trusted boundary: none
Main exports: Utf8.encode, Utf8.Valid, Utf8.encode_eq, Utf8.Valid.append, Utf8.Valid.split, Utf8.Valid.behind,
  Utf8.Valid.before, Utf8.Valid.inside
Open obligations: none
-/
import CpuMiner.Lib.Words

namespace Utf8

open Words

/-- The encoding of a character. -/
def encode (c : Char) : List Byte := (String.utf8EncodeChar c).map UInt8.toBitVec

/-- The bytes of a list of characters. -/
def encodeAll (cs : List Char) : List Byte := cs.flatMap encode

/-- The bytes are a text. -/
def Valid (bytes : List Byte) : Prop := ∃ cs, bytes = encodeAll cs

/-- The byte with this value. -/
abbrev byteOf (n : Nat) : Byte := BitVec.ofNat 8 n

theorem toNat_lt (c : Char) : c.toNat < 0x110000 := by
  rcases c.valid with low | ⟨_, high⟩
  · exact Nat.lt_trans low (by decide)
  · exact high

/-- The bytes of the code point, leading byte first. -/
theorem encode_eq (c : Char) :
    encode c =
      if c.toNat < 0x80 then [byteOf c.toNat]
      else if c.toNat < 0x800 then [byteOf (0xc0 + c.toNat / 0x40), byteOf (0x80 + c.toNat % 0x40)]
      else if c.toNat < 0x10000 then
        [byteOf (0xe0 + c.toNat / 0x1000), byteOf (0x80 + c.toNat / 0x40 % 0x40), byteOf (0x80 + c.toNat % 0x40)]
      else
        [byteOf (0xf0 + c.toNat / 0x40000), byteOf (0x80 + c.toNat / 0x1000 % 0x40),
          byteOf (0x80 + c.toNat / 0x40 % 0x40), byteOf (0x80 + c.toNat % 0x40)] := by
  have value : c.val.toNat = c.toNat := rfl
  have small := toNat_lt c
  have byte : ∀ n : Nat, (UInt8.ofNat n).toBitVec = byteOf n := fun _ => rfl
  unfold encode String.utf8EncodeChar
  simp only [value]
  by_cases one : c.toNat < 0x80
  · rw [if_pos (by omega), if_pos one]
    rfl
  · rw [if_neg (by omega), if_neg one]
    by_cases two : c.toNat < 0x800
    · have lead : c.toNat / 64 % 0x20 + 0xc0 = 0xc0 + c.toNat / 0x40 := by omega
      rw [if_pos (by omega), if_pos two, lead, Nat.add_comm _ 0x80]
      rfl
    · rw [if_neg (by omega), if_neg two]
      by_cases three : c.toNat < 0x10000
      · have lead : c.toNat / 4096 % 0x10 + 0xe0 = 0xe0 + c.toNat / 0x1000 := by omega
        rw [if_pos (by omega), if_pos three, lead, Nat.add_comm _ 0x80, Nat.add_comm _ 0x80]
        rfl
      · have lead : c.toNat / 262144 % 0x08 + 0xf0 = 0xf0 + c.toNat / 0x40000 := by omega
        rw [if_neg (by omega), if_neg three, lead, Nat.add_comm _ 0x80, Nat.add_comm _ 0x80, Nat.add_comm _ 0x80]
        rfl

theorem encodeAll_cons (c : Char) (cs : List Char) : encodeAll (c :: cs) = encode c ++ encodeAll cs := rfl

theorem encodeAll_append (cs ds : List Char) : encodeAll (cs ++ ds) = encodeAll cs ++ encodeAll ds :=
  List.flatMap_append

theorem valid_nil : Valid [] := ⟨[], rfl⟩

theorem valid_encode (c : Char) : Valid (encode c) := ⟨[c], by rw [encodeAll_cons]; exact (List.append_nil _).symm⟩

theorem Valid.append {a b : List Byte} (first : Valid a) (second : Valid b) : Valid (a ++ b) := by
  obtain ⟨cs, rfl⟩ := first
  obtain ⟨ds, rfl⟩ := second
  exact ⟨cs ++ ds, (encodeAll_append cs ds).symm⟩

/-- An ASCII character is its byte. -/
theorem encode_ascii {c : Char} (small : c.toNat < 0x80) : encode c = [byteOf c.toNat] := by
  rw [encode_eq, if_pos small]

/-- No other character has an ASCII byte in its encoding. -/
theorem le_of_mem_encode {c : Char} (large : ¬ c.toNat < 0x80) {b : Byte} (listed : b ∈ encode c) : 0x80 ≤ b.toNat := by
  have small := toNat_lt c
  rw [encode_eq, if_neg large] at listed
  split at listed
  · simp only [List.mem_cons, List.not_mem_nil, or_false] at listed
    rcases listed with rfl | rfl <;> simp only [BitVec.toNat_ofNat] <;> omega
  · split at listed
    · simp only [List.mem_cons, List.not_mem_nil, or_false] at listed
      rcases listed with rfl | rfl | rfl <;> simp only [BitVec.toNat_ofNat] <;> omega
    · simp only [List.mem_cons, List.not_mem_nil, or_false] at listed
      rcases listed with rfl | rfl | rfl | rfl <;> simp only [BitVec.toNat_ofNat] <;> omega

/-- A character is NUL only when its code point is zero. -/
theorem encode_noNul {c : Char} (nonzero : c.toNat ≠ 0) : 0 ∉ encode c := by
  intro listed
  by_cases small : c.toNat < 0x80
  · rw [encode_ascii small, List.mem_singleton] at listed
    have value : 0 = c.toNat % 256 := congrArg BitVec.toNat listed
    omega
  · exact absurd (le_of_mem_encode small listed) (by decide)

/-- A text is split at an ASCII byte. -/
theorem Valid.split {a b : List Byte} {c : Byte} (valid : Valid (a ++ c :: b)) (small : c.toNat < 0x80) :
    Valid a ∧ Valid b := by
  obtain ⟨cs, whole⟩ := valid
  induction cs generalizing a with
  | nil => simp [encodeAll] at whole
  | cons d cs ih =>
      rw [encodeAll_cons] at whole
      rcases List.append_eq_append_iff.mp whole with ⟨behind, front, rest⟩ | ⟨behind, rfl, rest⟩
      · -- the byte is in this character, which is then the byte itself
        cases behind with
        | nil =>
            rw [List.append_nil] at front
            obtain ⟨_, validB⟩ := @ih [] rest
            exact ⟨front ▸ valid_encode d, validB⟩
        | cons e behind =>
            rw [List.cons_append] at rest
            obtain ⟨rfl, rfl⟩ := List.cons.inj rest
            by_cases ascii : d.toNat < 0x80
            · rw [encode_ascii ascii] at front
              obtain ⟨rfl, rfl⟩ : a = [] ∧ behind = [] := by
                have length := congrArg List.length front
                simp only [List.length_append, List.length_cons, List.length_nil] at length
                exact ⟨List.length_eq_zero_iff.mp (by omega), List.length_eq_zero_iff.mp (by omega)⟩
              exact ⟨valid_nil, cs, rfl⟩
            · have listed : c ∈ encode d := by
                rw [front]
                simp
              exact absurd (le_of_mem_encode ascii listed) (Nat.not_le.mpr small)
      · obtain ⟨validBehind, validB⟩ := ih rest.symm
        exact ⟨(valid_encode d).append validBehind, validB⟩

/-- What is behind ASCII bytes is a text. -/
theorem Valid.behind {a b : List Byte} (valid : Valid (a ++ b)) (small : ∀ c ∈ a, c.toNat < 0x80) : Valid b := by
  induction a with
  | nil => exact valid
  | cons c a ih =>
      obtain ⟨_, rest⟩ := @Valid.split [] _ _ valid (small c List.mem_cons_self)
      exact ih rest fun d listed => small d (List.mem_cons_of_mem c listed)

theorem Valid.before {a b : List Byte} (valid : Valid (a ++ b)) (small : ∀ c ∈ b, c.toNat < 0x80) : Valid a := by
  cases b with
  | nil => rwa [List.append_nil] at valid
  | cons c b => exact (valid.split (small c List.mem_cons_self)).1

/-- A text between two ASCII bytes. -/
theorem Valid.inside {c d : Byte} {text : List Byte} (valid : Valid (c :: (text ++ [d]))) (small : c.toNat < 0x80)
    (small' : d.toNat < 0x80) : Valid text :=
  ((@Valid.split [] _ _ valid small).2.split small').1

end Utf8
