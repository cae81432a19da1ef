/-
Module: CpuMiner.Miner.Work
Layer: Miner
Purpose: `struct work`, as bytes and as the words the scans read. getwork sends every 32-bit word with its bytes
  swapped; the block header is what one gets by swapping the words of the data back. A work unit is well formed
  when its parts agree with SHA-256 in this sense. `doubleHash_eq` says that for a well-formed unit the two
  compressions of the kernels compute the double hash of the header with the new nonce.
Imports: Mathlib.Data.Fintype.Basic, CpuMiner.Kernel.FourWay
Trusted boundary: human-reviewed spec
Main exports: Work, Work.block, Work.withBlock, swappedBack, Work.header, Work.WellFormed, doubleHash_eq
Open obligations: none
-/
import Mathlib.Data.Fintype.Basic
import CpuMiner.Kernel.FourWay

namespace CpuMiner

open Words
open Sha256
open FourWay

/-- `struct work`. -/
structure Work where
  data : Buf 128
  hash1 : Buf 64
  midstate : Buf 32
  target : Buf 32
  hash : Buf 32
deriving DecidableEq

namespace Work

/-- The data as words of a little-endian machine. -/
def dataWords (work : Work) : Fin 32 → Word := Buf.words (n := 32) work.data

def hash1Words (work : Work) : Block := Buf.words (n := 16) work.hash1

def midstateWords (work : Work) : HashValue := Buf.words (n := 8) work.midstate

def targetWords (work : Work) : Fin 8 → Word := Buf.words (n := 8) work.target

/-- The words of the first 64 bytes of the data. -/
def firstBlock (work : Work) : Block := fun i => work.dataWords ⟨i, by omega⟩

/-- The words at `work.data + 64`. -/
def block (work : Work) : Block := fun i => work.dataWords ⟨16 + i, by omega⟩

/-- The work after all its data words were stored. -/
def withData (work : Work) (words : Fin 32 → Word) : Work :=
  { work with data := Buf.ofWords (n := 32) words }

/-- The work after the words at `work.data + 64` were stored. -/
def withBlock (work : Work) (block : Block) : Work :=
  work.withData fun i => if h : i.val < 16 then work.firstBlock ⟨i, h⟩ else block ⟨i - 16, by omega⟩

/-- The work after the words of its hash were stored. -/
def withHash (work : Work) (hash : HashValue) : Work :=
  { work with hash := Buf.ofWords (n := 8) hash }

@[simp] theorem withData_dataWords (work : Work) (words : Fin 32 → Word) :
    (work.withData words).dataWords = words := Buf.words_ofWords (n := 32) words

end Work

/-- Each word with its bytes swapped, as it is stored on a little-endian machine. -/
def swappedBack (ws : List Word) : List Byte := ws.flatMap fun w => leBytes (swab32 w)

theorem swappedBack_eq (ws : List Word) : swappedBack ws = wordBytes ws := by
  simp only [swappedBack, wordBytes, leBytes_swab32]

namespace Work

/-- The 80-byte block header. -/
def header (work : Work) : List Byte := swappedBack ((List.ofFn work.dataWords).take 20)

/-- The data is the padded header, `midstate` is the compression of its first block, and `hash1` ends in the
    padding of a 32-byte message. -/
structure WellFormed (work : Work) : Prop where
  data : swappedBack (List.ofFn work.dataWords) = pad work.header
  midstate : work.midstateWords = compress initialHash work.firstBlock
  hash1 : ∀ digest : List Byte, digest.length = 32 →
    swappedBack ((List.ofFn work.hash1Words).drop 8) = (pad digest).drop 32

end Work

/-! ### The double hash -/

theorem toBlock_ofFn {n : Nat} (f : Fin n → Word) (k : Nat) (hn : k + 16 ≤ n) :
    toBlock ((List.ofFn f).drop k) = fun i : Fin 16 => f ⟨k + i, by omega⟩ := by
  funext i
  have inside : k + i.val < n := by omega
  simp [toBlock, inside]

/-- The data words of a well-formed unit from word 20 on are the padding. -/
private theorem drop_dataWords {work : Work} (wf : work.WellFormed) :
    (List.ofFn work.dataWords).drop 20 = padTail 20 := by
  have padded := wf.data
  rw [Work.header, swappedBack_eq, swappedBack_eq, pad_wordBytes, padWords_eq] at padded
  have words := wordBytes_injective padded
  have length : ((List.ofFn work.dataWords).take 20).length = 20 := by simp
  rw [length] at words
  have tail := congrArg (List.drop 20) words
  rwa [List.drop_left' length] at tail

/-- The words of `hash1` from word 8 on are the padding of the second message. -/
private theorem drop_hash1Words {work : Work} (wf : work.WellFormed) :
    (List.ofFn work.hash1Words).drop 8 = padTail 8 := by
  have padded := wf.hash1 (wordBytes (List.replicate 8 0)) (by simp)
  rw [swappedBack_eq, pad_wordBytes, padWords_eq, wordBytes_append,
    List.drop_left' (by simp)] at padded
  exact wordBytes_injective padded

/-- The words of the work with a new block. -/
theorem dataWords_withBlock (work : Work) (block : Block) :
    (work.withBlock block).dataWords = fun i : Fin 32 =>
      if h : i.val < 16 then work.firstBlock ⟨i, h⟩ else block ⟨i - 16, by omega⟩ :=
  Work.withData_dataWords work _

/-- A new nonce leaves the padding alone. -/
private theorem drop_withNonce {work : Work} (wf : work.WellFormed) (nonce : Word) :
    (List.ofFn (work.withBlock (withNonce work.block nonce)).dataWords).drop 20 = padTail 20 := by
  have count (f : Fin 32 → Word) : ((List.ofFn f).drop 20).length = 12 := by simp
  rw [← drop_dataWords wf, dataWords_withBlock]
  apply List.ext_getElem
  · rw [count, count]
  · intro i bound _
    rw [count] at bound
    have later : ¬ 20 + i < 16 := by omega
    have other : (⟨20 + i - 16, by omega⟩ : Fin 16) ≠ 3 := by
      intro same
      have value : 20 + i - 16 = 3 := congrArg Fin.val same
      omega
    simp only [List.getElem_drop, List.getElem_ofFn, later, dif_neg, not_false_eq_true, withNonce,
      Function.update_of_ne other, Work.block]
    congr 2
    omega

/-- The first hash: from the midstate, one compression of the second half of the data. -/
theorem headerHash_eq {work : Work} (wf : work.WellFormed) (nonce : Word) :
    hashWords (work.withBlock (withNonce work.block nonce)).header =
      compress work.midstateWords (withNonce work.block nonce) := by
  have twenty : ((List.ofFn (work.withBlock (withNonce work.block nonce)).dataWords).take 20).length =
      20 := by simp
  rw [Work.header, swappedBack_eq, hashWords_wordBytes, padWords_eq, twenty, ← drop_withNonce wf nonce,
    List.take_append_drop, hashPadded_two (by simp), wf.midstate, toBlock_ofFn _ 16 (by decide)]
  have whole := toBlock_ofFn (work.withBlock (withNonce work.block nonce)).dataWords 0 (by decide)
  rw [List.drop_zero] at whole
  rw [whole, dataWords_withBlock]
  refine congrArg₂ compress (congrArg (compress initialHash) ?_) ?_
  · funext i
    simp
  · funext i
    have second : ¬ 16 + i.val < 16 := by omega
    simp [second]

/-- The second hash: from the initial state, one compression of the digest and the words 8 to 15 of
    `hash1`. -/
theorem digestHash_eq {work : Work} (wf : work.WellFormed) (m : List Byte) :
    hashWords (sha256 m) = compress initialHash (digestBlock (hashWords m) work.hash1Words) := by
  have eight : (List.ofFn (hashWords m)).length = 8 := by simp
  rw [sha256_eq_wordBytes, hashWords_wordBytes, padWords_eq, eight, ← drop_hash1Words wf,
    hashPadded_one (by simp)]
  refine congrArg (compress initialHash) ?_
  funext i
  rw [digestBlock, toBlock, List.getD_eq_getElem?_getD]
  by_cases digest : i.val < 8
  · rw [dif_pos digest, List.getElem?_append_left (by omega), List.getElem?_ofFn, dif_pos digest]
    rfl
  · have place : 8 + (i.val - 8) = i.val := by omega
    rw [dif_neg digest, List.getElem?_append_right (by omega), eight, List.getElem?_drop, place,
      List.getElem?_ofFn, dif_pos i.isLt]
    rfl

/-- For a well-formed unit, the two compressions of the kernels are the double hash of the header that has the
    new nonce. -/
theorem doubleHash_eq {work : Work} (wf : work.WellFormed) (nonce : Word) :
    compress initialHash (digestBlock (compress work.midstateWords (withNonce work.block nonce))
        work.hash1Words) =
      hashWords (sha256 (work.withBlock (withNonce work.block nonce)).header) := by
  rw [digestHash_eq wf, headerHash_eq wf]

end CpuMiner
