/-
Module: CpuMiner.Lib.Sha256
Layer: Library
Purpose: SHA-256 as FIPS 180-4 defines it: the six logical functions, the message schedule, the
  compression function on a hash value and a 16-word block, the padding of a byte message and the hash
  of a message. The message schedule is kept as a window of the last sixteen words, so that every
  definition here runs; `schedule_recurrence` is the recurrence of the standard. The padding of a message
  that is made of whole words is again made of whole words (`pad_wordBytes`), and the hash of such a
  message is the compression of its padded words (`hashWords_wordBytes`).
Imports: CpuMiner.Lib.Words
Trusted boundary: human-reviewed spec
Main exports: ch, maj, bigSigma0, bigSigma1, smallSigma0, smallSigma1, K, schedule, oneRound, rounds, compress,
  pad, hashWords, sha256, schedule_recurrence, hashWords_wordBytes
Open obligations: none
-/
import CpuMiner.Lib.Words

namespace Sha256

open Words

/-! ### Functions and constants (FIPS 180-4, 4.1.2, 4.2.2 and 5.3.3) -/

def ch (x y z : Word) : Word := (x &&& y) ^^^ (~~~x &&& z)

def maj (x y z : Word) : Word := (x &&& y) ^^^ (x &&& z) ^^^ (y &&& z)

/-- Rotate right by `n` positions, for `n` below 32. -/
def rotr (x : Word) (n : Nat) : Word := (x >>> n) ||| (x <<< (32 - n))

def bigSigma0 (x : Word) : Word := rotr x 2 ^^^ rotr x 13 ^^^ rotr x 22

def bigSigma1 (x : Word) : Word := rotr x 6 ^^^ rotr x 11 ^^^ rotr x 25

def smallSigma0 (x : Word) : Word := rotr x 7 ^^^ rotr x 18 ^^^ (x >>> 3)

def smallSigma1 (x : Word) : Word := rotr x 17 ^^^ rotr x 19 ^^^ (x >>> 10)

/-- The sixty-four round constants. -/
def constants : List Word :=
  [0x428a2f98, 0x71374491, 0xb5c0fbcf, 0xe9b5dba5, 0x3956c25b, 0x59f111f1, 0x923f82a4, 0xab1c5ed5,
   0xd807aa98, 0x12835b01, 0x243185be, 0x550c7dc3, 0x72be5d74, 0x80deb1fe, 0x9bdc06a7, 0xc19bf174,
   0xe49b69c1, 0xefbe4786, 0x0fc19dc6, 0x240ca1cc, 0x2de92c6f, 0x4a7484aa, 0x5cb0a9dc, 0x76f988da,
   0x983e5152, 0xa831c66d, 0xb00327c8, 0xbf597fc7, 0xc6e00bf3, 0xd5a79147, 0x06ca6351, 0x14292967,
   0x27b70a85, 0x2e1b2138, 0x4d2c6dfc, 0x53380d13, 0x650a7354, 0x766a0abb, 0x81c2c92e, 0x92722c85,
   0xa2bfe8a1, 0xa81a664b, 0xc24b8b70, 0xc76c51a3, 0xd192e819, 0xd6990624, 0xf40e3585, 0x106aa070,
   0x19a4c116, 0x1e376c08, 0x2748774c, 0x34b0bcb5, 0x391c0cb3, 0x4ed8aa4a, 0x5b9cca4f, 0x682e6ff3,
   0x748f82ee, 0x78a5636f, 0x84c87814, 0x8cc70208, 0x90befffa, 0xa4506ceb, 0xbef9a3f7, 0xc67178f2]

def K (t : Nat) : Word := constants.getD t 0

/-- A message block: sixteen words. -/
abbrev Block := Fin 16 → Word

/-- A hash value, and also the eight working variables `a` to `h`. -/
abbrev HashValue := Fin 8 → Word

/-- The initial hash value. -/
def initialHash : HashValue := fun i =>
  match i with
  | 0 => 0x6a09e667
  | 1 => 0xbb67ae85
  | 2 => 0x3c6ef372
  | 3 => 0xa54ff53a
  | 4 => 0x510e527f
  | 5 => 0x9b05688c
  | 6 => 0x1f83d9ab
  | 7 => 0x5be0cd19

/-! ### Compression (FIPS 180-4, 6.2.2) -/

/-- The schedule words `t` to `t + 15`. Moving the window on by one drops its first word and computes the
    next one from it. -/
def window (M : Block) : Nat → Block
  | 0 => M
  | t + 1 => fun i =>
      if h : i.val < 15 then window M t ⟨i.val + 1, Nat.succ_lt_succ h⟩
      else smallSigma1 (window M t 14) + window M t 9 + smallSigma0 (window M t 1) + window M t 0

/-- The message schedule `W`. -/
def schedule (M : Block) (t : Nat) : Word := window M t 0

/-- One round on the working variables, with the round constant `k` and the schedule word `w`. -/
def oneRound (k w : Word) (v : HashValue) : HashValue := fun i =>
  let t1 := v 7 + bigSigma1 (v 4) + ch (v 4) (v 5) (v 6) + k + w
  let t2 := bigSigma0 (v 0) + maj (v 0) (v 1) (v 2)
  match i with
  | 0 => t1 + t2
  | 1 => v 0
  | 2 => v 1
  | 3 => v 2
  | 4 => v 3 + t1
  | 5 => v 4
  | 6 => v 5
  | 7 => v 6

/-- The first `n` rounds, with schedule `W`, from the working variables `v`. -/
def rounds (W : Nat → Word) (v : HashValue) : Nat → HashValue
  | 0 => v
  | n + 1 => oneRound (K n) (W n) (rounds W v n)

/-- The compression function: sixty-four rounds, added to the hash value they started from. -/
def compress (H : HashValue) (M : Block) : HashValue :=
  fun i => rounds (schedule M) H 64 i + H i

/-! ### Messages (FIPS 180-4, 5.1.1, 5.2.1 and 6.2) -/

/-- The number of zero bytes between the byte `0x80` and the length. -/
def zeroBytes (length : Nat) : Nat := (119 - length % 64) % 64

/-- The bit length of a message of `length` bytes, as the two words of a 64-bit number. -/
def lengthWords (length : Nat) : List Word :=
  let bits := BitVec.ofNat 64 (8 * length)
  [bits.extractLsb' 32 32, bits.extractLsb' 0 32]

/-- The padded message. -/
def pad (m : List Byte) : List Byte :=
  m ++ 0x80 :: List.replicate (zeroBytes m.length) 0 ++ (lengthWords m.length).flatMap beBytes

/-- Read a byte string as big-endian words. -/
def beWords : List Byte → List Word
  | b3 :: b2 :: b1 :: b0 :: rest => leWord b0 b1 b2 b3 :: beWords rest
  | _ => []

/-- The first sixteen words of a list, as a block. -/
def toBlock (ws : List Word) : Block := fun i => ws.getD i 0

/-- The first `n` blocks of a list of words. -/
def blocks : Nat → List Word → List Block
  | 0, _ => []
  | n + 1, ws => toBlock ws :: blocks n (ws.drop 16)

/-- The final hash value of a list of words that is already padded. -/
def hashPadded (ws : List Word) : HashValue :=
  (blocks (ws.length / 16) ws).foldl compress initialHash

/-- The final hash value of a message, as eight words. -/
def hashWords (m : List Byte) : HashValue := hashPadded (beWords (pad m))

/-- The SHA-256 digest of a message. -/
def sha256 (m : List Byte) : List Byte := (List.ofFn (hashWords m)).flatMap beBytes

/-! ### The schedule -/

theorem window_shift (M : Block) (t k : Nat) (hk : k < 16) (hk' : 0 < k) :
    window M (t + 1) ⟨k - 1, by omega⟩ = window M t ⟨k, hk⟩ := by
  have inside : k - 1 < 15 := by omega
  have same : (⟨k - 1 + 1, by omega⟩ : Fin 16) = ⟨k, hk⟩ := Fin.ext (by simp only; omega)
  simp only [window, inside, dif_pos, same]

/-- Entry `k` of the window at `t` is schedule word `t + k`. -/
theorem window_eq_schedule (M : Block) (t : Nat) :
    ∀ (k : Nat) (hk : k < 16), window M t ⟨k, hk⟩ = schedule M (t + k) := by
  intro k
  induction k generalizing t with
  | zero =>
      intro hk
      rfl
  | succ k ih =>
      intro hk
      have shifted := window_shift M t (k + 1) hk (by omega)
      rw [← shifted, show t + (k + 1) = (t + 1) + k by omega]
      exact ih (t + 1) (by omega)

/-- The first sixteen schedule words are the block. -/
theorem schedule_block (M : Block) (t : Nat) (ht : t < 16) : schedule M t = M ⟨t, ht⟩ := by
  have first := window_eq_schedule M 0 t ht
  rw [Nat.zero_add] at first
  exact first.symm

/-- The recurrence of the standard. -/
theorem schedule_recurrence (M : Block) (t : Nat) :
    schedule M (t + 16) =
      smallSigma1 (schedule M (t + 14)) + schedule M (t + 9) + smallSigma0 (schedule M (t + 1)) +
        schedule M t := by
  have last : window M (t + 1) ⟨15, by omega⟩ = schedule M (t + 16) :=
    window_eq_schedule M (t + 1) 15 (by omega)
  rw [← last]
  have w14 : window M t 14 = schedule M (t + 14) := window_eq_schedule M t 14 (by omega)
  have w9 : window M t 9 = schedule M (t + 9) := window_eq_schedule M t 9 (by omega)
  have w1 : window M t 1 = schedule M (t + 1) := window_eq_schedule M t 1 (by omega)
  simp only [window, Nat.lt_irrefl, dif_neg, not_false_eq_true, w14, w9, w1]
  rfl

/-- The rounds depend on the schedule words they use only. -/
theorem rounds_congr {W V : Nat → Word} (v : HashValue) :
    ∀ n, (∀ t, t < n → W t = V t) → rounds W v n = rounds V v n := by
  intro n
  induction n with
  | zero =>
      intro _
      rfl
  | succ n ih =>
      intro same
      simp only [rounds]
      rw [ih (fun t ht => same t (by omega)), same n (by omega)]

/-! ### Messages made of whole words -/

/-- The bytes of a list of words, most significant byte of each word first. -/
def wordBytes (ws : List Word) : List Byte := ws.flatMap beBytes

@[simp] theorem wordBytes_nil : wordBytes [] = [] := rfl

@[simp] theorem wordBytes_cons (w : Word) (ws : List Word) :
    wordBytes (w :: ws) = beBytes w ++ wordBytes ws := rfl

theorem wordBytes_append (ws vs : List Word) :
    wordBytes (ws ++ vs) = wordBytes ws ++ wordBytes vs := by
  simp [wordBytes]

@[simp] theorem length_wordBytes (ws : List Word) : (wordBytes ws).length = 4 * ws.length := by
  induction ws with
  | nil => rfl
  | cons w ws ih =>
      rw [wordBytes_cons, List.length_append, ih, length_beBytes, List.length_cons]
      omega

theorem wordBytes_replicate_zero (n : Nat) :
    wordBytes (List.replicate n 0) = List.replicate (4 * n) 0 := by
  induction n with
  | zero => rfl
  | succ n ih =>
      have split : 4 * (n + 1) = 4 + 4 * n := by omega
      rw [List.replicate_succ, wordBytes_cons, ih, split,
        ← List.replicate_append_replicate]
      rfl

/-- Reading the bytes of a list of words gives the words back. -/
@[simp] theorem beWords_wordBytes (ws : List Word) : beWords (wordBytes ws) = ws := by
  induction ws with
  | nil => rfl
  | cons w ws ih =>
      simp only [wordBytes_cons, beBytes, List.cons_append, List.nil_append, beWords, ih,
        leWord_byte]

/-- The padding of a message of whole words, in words. -/
def padWords (ws : List Word) : List Word :=
  ws ++ 0x80000000 :: List.replicate ((29 - ws.length % 16) % 16) 0 ++ lengthWords (4 * ws.length)

/-- The zero bytes of the padding of a message of `n` words finish the word that `0x80` starts. -/
theorem zeroBytes_words (n : Nat) : zeroBytes (4 * n) = 3 + 4 * ((29 - n % 16) % 16) := by
  simp only [zeroBytes]
  omega

/-- Padding a message of whole words gives whole words. -/
theorem pad_wordBytes (ws : List Word) : pad (wordBytes ws) = wordBytes (padWords ws) := by
  have marker : beBytes 0x80000000 = 0x80 :: List.replicate 3 0 := by decide
  rw [pad, padWords, length_wordBytes, zeroBytes_words, wordBytes_append, wordBytes_append,
    wordBytes_cons, wordBytes_replicate_zero, marker,
    ← List.replicate_append_replicate]
  simp only [wordBytes, List.cons_append]

/-- The hash of a message of whole words is the hash of its padded words. -/
theorem hashWords_wordBytes (ws : List Word) :
    hashWords (wordBytes ws) = hashPadded (padWords ws) := by
  rw [hashWords, pad_wordBytes, beWords_wordBytes]

/-- The words that padding adds to a message of `n` words. -/
def padTail (n : Nat) : List Word :=
  0x80000000 :: List.replicate ((29 - n % 16) % 16) 0 ++ lengthWords (4 * n)

theorem padWords_eq (ws : List Word) : padWords ws = ws ++ padTail ws.length := by
  rw [padWords, padTail, List.append_assoc]

theorem wordBytes_injective {ws vs : List Word} (same : wordBytes ws = wordBytes vs) : ws = vs := by
  rw [← beWords_wordBytes ws, same, beWords_wordBytes]

/-- Thirty-two padded words are two blocks. -/
theorem hashPadded_two {ws : List Word} (two : ws.length = 32) :
    hashPadded ws = compress (compress initialHash (toBlock ws)) (toBlock (ws.drop 16)) := by
  rw [hashPadded, two]
  rfl

/-- Sixteen padded words are one block. -/
theorem hashPadded_one {ws : List Word} (one : ws.length = 16) :
    hashPadded ws = compress initialHash (toBlock ws) := by
  rw [hashPadded, one]
  rfl

theorem sha256_eq_wordBytes (m : List Byte) :
    sha256 m = wordBytes (List.ofFn (hashWords m)) := rfl

/-- The last four bytes of a digest are the bytes of the last word of the hash value. -/
theorem sha256_drop (m : List Byte) : (sha256 m).drop 28 = beBytes (hashWords m 7) := by
  simp [sha256, List.ofFn_succ, beBytes]

end Sha256
