/-
Module: CpuMiner.Lib.Words
Layer: Library
Purpose: 32-bit words and their bytes. A word has four bytes, `byte 0` the least significant one; a
  little-endian machine stores them in that order, a big-endian format (SHA-256, for one) in the other.
  `swab32` turns one order into the other. A byte buffer whose length is a multiple of four is also an
  array of words, and reading and writing it through either view is the same thing (`words`, `ofWords`).
  A `Pointer` is what code that reads without a bounds check sees: the object, and then the rest of memory.
Imports: Mathlib.Logic.Function.Basic
Trusted boundary: none
Main exports: Byte, Word, leWord, beBytes, leBytes, swab32, Buf, Buf.words, Buf.ofWords, Buf.write,
  Buf.ofFn_ofWords_update, Pointer, Pointer.InBounds
Open obligations: none
-/
import Mathlib.Logic.Function.Basic

namespace Words

/-! Literals of the index types that occur everywhere: registers, words of a block, lanes. -/

instance neZeroFour : @NeZero Nat Zero.ofOfNat0 4 := ⟨by decide⟩

instance neZeroEight : @NeZero Nat Zero.ofOfNat0 8 := ⟨by decide⟩

instance neZeroNine : @NeZero Nat Zero.ofOfNat0 9 := ⟨by decide⟩

instance neZeroSixteen : @NeZero Nat Zero.ofOfNat0 16 := ⟨by decide⟩

instance neZeroThirtyTwo : @NeZero Nat Zero.ofOfNat0 32 := ⟨by decide⟩

abbrev Byte := BitVec 8

abbrev Word := BitVec 32

/-- The word whose bytes are `b0`, `b1`, `b2`, `b3`, least significant first. -/
def leWord (b0 b1 b2 b3 : Byte) : Word := b3 ++ b2 ++ b1 ++ b0

/-- Byte `k` of a word, counted from the least significant one. -/
def byte (w : Word) (k : Nat) : Byte := w.extractLsb' (8 * k) 8

/-- The four bytes of a word, least significant first. -/
def leBytes (w : Word) : List Byte := [byte w 0, byte w 1, byte w 2, byte w 3]

/-- The four bytes of a word, most significant first. -/
def beBytes (w : Word) : List Byte := [byte w 3, byte w 2, byte w 1, byte w 0]

/-- Reverse the bytes of a word. -/
def swab32 (w : Word) : Word := leWord (byte w 3) (byte w 2) (byte w 1) (byte w 0)

/-- Bit `i` of a word made of four bytes is a bit of the byte `i / 8`. -/
theorem getLsbD_leWord (b0 b1 b2 b3 : Byte) (i : Nat) :
    (leWord b0 b1 b2 b3).getLsbD i =
      if i < 8 then b0.getLsbD i
      else if i < 16 then b1.getLsbD (i - 8)
      else if i < 24 then b2.getLsbD (i - 16)
      else b3.getLsbD (i - 24) := by
  simp only [leWord, BitVec.getLsbD_append]
  by_cases h0 : i < 8
  · simp only [h0, if_true]
  · by_cases h1 : i < 16
    · rw [if_neg h0, if_neg h0, if_pos h1, if_pos (by omega)]
    · by_cases h2 : i < 24
      · have place : i - 8 - 8 = i - 16 := by omega
        rw [if_neg h0, if_neg h0, if_neg h1, if_pos h2, if_neg (by omega), if_pos (by omega), place]
      · have place : i - 8 - 8 - 8 = i - 24 := by omega
        rw [if_neg h0, if_neg h0, if_neg h1, if_neg h2, if_neg (by omega), if_neg (by omega), place]

theorem getLsbD_byte (w : Word) (k i : Nat) (hi : i < 8) :
    (byte w k).getLsbD i = w.getLsbD (8 * k + i) := by
  simp [byte, hi]

@[simp] theorem byte_leWord_zero (b0 b1 b2 b3 : Byte) : byte (leWord b0 b1 b2 b3) 0 = b0 := by
  apply BitVec.eq_of_getLsbD_eq
  intro i hi
  have place : 8 * 0 + i = i := by omega
  rw [getLsbD_byte _ _ _ hi, getLsbD_leWord, if_pos (by omega), place]

@[simp] theorem byte_leWord_one (b0 b1 b2 b3 : Byte) : byte (leWord b0 b1 b2 b3) 1 = b1 := by
  apply BitVec.eq_of_getLsbD_eq
  intro i hi
  have place : 8 * 1 + i - 8 = i := by omega
  rw [getLsbD_byte _ _ _ hi, getLsbD_leWord, if_neg (by omega), if_pos (by omega), place]

@[simp] theorem byte_leWord_two (b0 b1 b2 b3 : Byte) : byte (leWord b0 b1 b2 b3) 2 = b2 := by
  apply BitVec.eq_of_getLsbD_eq
  intro i hi
  have place : 8 * 2 + i - 16 = i := by omega
  rw [getLsbD_byte _ _ _ hi, getLsbD_leWord, if_neg (by omega), if_neg (by omega),
    if_pos (by omega), place]

@[simp] theorem byte_leWord_three (b0 b1 b2 b3 : Byte) : byte (leWord b0 b1 b2 b3) 3 = b3 := by
  apply BitVec.eq_of_getLsbD_eq
  intro i hi
  have place : 8 * 3 + i - 24 = i := by omega
  rw [getLsbD_byte _ _ _ hi, getLsbD_leWord, if_neg (by omega), if_neg (by omega),
    if_neg (by omega), place]

/-- A word is made of its own four bytes. -/
@[simp] theorem leWord_byte (w : Word) :
    leWord (byte w 0) (byte w 1) (byte w 2) (byte w 3) = w := by
  apply BitVec.eq_of_getLsbD_eq
  intro i hi
  rw [getLsbD_leWord]
  by_cases h0 : i < 8
  · have place : 8 * 0 + i = i := by omega
    rw [if_pos h0, getLsbD_byte _ _ _ h0, place]
  · by_cases h1 : i < 16
    · have place : 8 * 1 + (i - 8) = i := by omega
      rw [if_neg h0, if_pos h1, getLsbD_byte _ _ _ (by omega), place]
    · by_cases h2 : i < 24
      · have place : 8 * 2 + (i - 16) = i := by omega
        rw [if_neg h0, if_neg h1, if_pos h2, getLsbD_byte _ _ _ (by omega), place]
      · have place : 8 * 3 + (i - 24) = i := by omega
        rw [if_neg h0, if_neg h1, if_neg h2, getLsbD_byte _ _ _ (by omega), place]

/-- Swapping the bytes twice gives the word back. -/
@[simp] theorem swab32_swab32 (w : Word) : swab32 (swab32 w) = w := by
  simp [swab32]

/-- The little-endian bytes of the swapped word are the big-endian bytes of the word. -/
theorem leBytes_swab32 (w : Word) : leBytes (swab32 w) = beBytes w := by
  simp [leBytes, beBytes, swab32]

theorem leBytes_getElem (w : Word) (k : Nat) (hk : k < (leBytes w).length) : (leBytes w)[k] = byte w k := by
  match k, hk with
  | 0, _ | 1, _ | 2, _ | 3, _ => rfl

@[simp] theorem length_beBytes (w : Word) : (beBytes w).length = 4 := rfl

/-! ### Byte buffers as word arrays -/

/-- A buffer of `n` bytes. -/
abbrev Buf (n : Nat) := Fin n → Byte

namespace Buf

variable {n : Nat}

/-- The buffer read as `n` little-endian words. -/
def words (b : Buf (4 * n)) (i : Fin n) : Word :=
  leWord (b ⟨4 * i, by omega⟩) (b ⟨4 * i + 1, by omega⟩) (b ⟨4 * i + 2, by omega⟩)
    (b ⟨4 * i + 3, by omega⟩)

/-- The buffer that holds the given words, each in little-endian order. -/
def ofWords (w : Fin n → Word) : Buf (4 * n) :=
  fun k => byte (w ⟨k / 4, by omega⟩) (k % 4)

@[simp] theorem words_ofWords (w : Fin n → Word) : (ofWords w).words = w := by
  funext i
  have quotient : ∀ r, r < 4 → (4 * i.val + r) / 4 = i.val := by
    intro r hr
    omega
  have remainder : ∀ r, r < 4 → (4 * i.val + r) % 4 = r := by
    intro r hr
    omega
  have first := quotient 0 (by omega)
  have second := remainder 0 (by omega)
  simp only [Nat.add_zero] at first second
  simp [words, ofWords, quotient, remainder, first, second]

/-- Byte `k` of the buffer is byte `k % 4` of the word `k / 4`. -/
theorem byte_words (b : Buf (4 * n)) (k : Fin (4 * n)) :
    byte (b.words ⟨k / 4, by omega⟩) (k % 4) = b k := by
  have place : 4 * (k.val / 4) + k.val % 4 = k.val := Nat.div_add_mod k.val 4
  have remainder : k.val % 4 < 4 := Nat.mod_lt _ (by decide)
  match r : k.val % 4, remainder with
  | 0, _ => exact (byte_leWord_zero _ _ _ _).trans (congrArg b (Fin.ext (by rw [r] at place; exact place)))
  | 1, _ => exact (byte_leWord_one _ _ _ _).trans (congrArg b (Fin.ext (by rw [r] at place; exact place)))
  | 2, _ => exact (byte_leWord_two _ _ _ _).trans (congrArg b (Fin.ext (by rw [r] at place; exact place)))
  | 3, _ => exact (byte_leWord_three _ _ _ _).trans (congrArg b (Fin.ext (by rw [r] at place; exact place)))

/-- Storing one word of a buffer changes its four bytes and no other. -/
theorem ofFn_ofWords_update (b : Buf (4 * n)) (i : Fin n) (w : Word) :
    List.ofFn (ofWords (Function.update b.words i w)) =
      (List.ofFn b).take (4 * i) ++ leBytes w ++ (List.ofFn b).drop (4 * i + 4) := by
  have bound := i.isLt
  apply List.ext_getElem
  · simp only [List.length_append, List.length_take, List.length_drop, List.length_ofFn, leBytes,
      List.length_cons, List.length_nil]
    omega
  · intro k hk _
    have inside : k < 4 * n := by simpa using hk
    rw [List.getElem_ofFn, ofWords]
    by_cases stored : k / 4 = i.val
    · have word : (⟨k / 4, by omega⟩ : Fin n) = i := Fin.ext stored
      rw [word, Function.update_self, List.getElem_append_left (by simp [leBytes]; omega),
        List.getElem_append_right (by simp; omega)]
      have offset : k % 4 = k - ((List.ofFn b).take (4 * i)).length := by
        rw [List.length_take, List.length_ofFn]
        omega
      exact (congrArg (byte w) offset).trans (leBytes_getElem w _ _).symm
    · have other : (⟨k / 4, by omega⟩ : Fin n) ≠ i := fun same => stored (congrArg Fin.val same)
      rw [Function.update_of_ne other, byte_words b ⟨k, inside⟩]
      by_cases before : k < 4 * i.val
      · rw [List.getElem_append_left (by simp [leBytes]; omega), List.getElem_append_left (by simp; omega),
          List.getElem_take, List.getElem_ofFn]
      · have split : ((List.ofFn b).take (4 * i) ++ leBytes w).length = 4 * i + 4 := by
          simp [leBytes]
        rw [List.getElem_append_right (by omega), List.getElem_drop, List.getElem_ofFn]
        congr 2
        omega

/-- The buffer after the bytes were written from its start on. -/
def write (b : Buf n) (bytes : List Byte) : Buf n := fun i => bytes.getD i (b i)

/-- A buffer that was written in full. -/
theorem ofFn_write (b : Buf n) {bytes : List Byte} (length : bytes.length = n) :
    List.ofFn (b.write bytes) = bytes := by
  apply List.ext_getElem
  · rw [List.length_ofFn, length]
  · intro k _ hk
    simp [write, hk]

end Buf

/-! ### Reads through a pointer -/

/-- Memory as seen from a pointer: the first `size` words belong to the object it points to, and the words
    after them are whatever lies behind that object. -/
structure Pointer where
  size : Nat
  word : Nat → Word

namespace Pointer

variable {n : Nat}

/-- The pointer to an object of `n` words that has the words `behind` after it. -/
def toObject (object : Fin n → Word) (behind : Nat → Word) : Pointer where
  size := n
  word i := if h : i < n then object ⟨i, h⟩ else behind (i - n)

/-- Reading at these indexes stays inside the object. -/
def InBounds (p : Pointer) (reads : List Nat) : Prop := ∀ i ∈ reads, i < p.size

theorem toObject_word (object : Fin n → Word) (behind : Nat → Word) (i : Fin n) :
    (toObject object behind).word i = object i := by
  simp [toObject]

/-- Past the end of the object, a read sees what is behind it. -/
theorem toObject_word_behind (object : Fin n → Word) (behind : Nat → Word) (i : Nat) :
    (toObject object behind).word (n + i) = behind i := by
  have outside : ¬ n + i < n := by omega
  simp [toObject, outside]

end Pointer

end Words
