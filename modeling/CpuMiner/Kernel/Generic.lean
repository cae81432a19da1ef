/-
Module: CpuMiner.Kernel.Generic
Layer: Kernels
Purpose: `sha256_transform` and `runhash` of sha256_generic.c. The input is a pointer, and the load loop writes
  down the indexes it reads, so that one can say whether they are inside the object the caller passed. The
  sixty-four unrolled rounds are a table with one row for each pair of source lines.
  `sha256Transform_state` says that the result is the compression of the sixteen words at the pointer, and
  `sha256Transform_reads` that all sixteen are read.
Imports: CpuMiner.Lib.UnrolledRounds
Trusted boundary: human-reviewed spec (the transcription of the C code)
Main exports: Transformed, sha256Transform, runhash, sha256Transform_state, sha256Transform_reads
Open obligations: none
-/
import CpuMiner.Lib.UnrolledRounds

namespace CpuMiner

open Words
open Sha256

/-- What a transform leaves: the new state, and the indexes of the input words it read, in order. -/
structure Transformed where
  state : HashValue
  reads : List Nat

/-- The sixteen words at a pointer, inside the object or not. -/
def inputBlock (input : Pointer) : Block := fun i => input.word i

@[simp] theorem inputBlock_toObject (words : Block) (behind : Nat → Word) :
    inputBlock (Pointer.toObject words behind) = words :=
  funext (Pointer.toObject_word words behind)

namespace Generic

def ror32 (word : Word) (shift : Nat) : Word := (word >>> shift) ||| (word <<< (32 - shift))

def Ch (x y z : Word) : Word := z ^^^ (x &&& (y ^^^ z))

def Maj (x y z : Word) : Word := (x &&& y) ||| (z &&& (x ||| y))

def e0 (x : Word) : Word := ror32 x 2 ^^^ ror32 x 13 ^^^ ror32 x 22

def e1 (x : Word) : Word := ror32 x 6 ^^^ ror32 x 11 ^^^ ror32 x 25

def s0 (x : Word) : Word := ror32 x 7 ^^^ ror32 x 18 ^^^ (x >>> 3)

def s1 (x : Word) : Word := ror32 x 17 ^^^ ror32 x 19 ^^^ (x >>> 10)

/-- The array `W` while the input is loaded, and the reads so far. -/
structure Loading where
  W : Nat → Word
  reads : List Nat

/-- `LOAD_OP`: the byte swap is commented out in the source. -/
def loadOp (input : Pointer) (s : Loading) (i : Nat) : Loading where
  W := Function.update s.W i (input.word i)
  reads := s.reads ++ [i]

/-- `BLEND_OP`. -/
def blendOp (W : Nat → Word) (i : Nat) : Nat → Word :=
  Function.update W i (s1 (W (i - 2)) + W (i - 7) + s0 (W (i - 15)) + W (i - 16))

/-- Two lines of the unrolled code:
    `t1 = h + e1(e) + Ch(e,f,g) + k + W[w]; t2 = e0(a) + Maj(a,b,c); d += t1; h = t1 + t2`,
    with the names of the variables as they stand there. The variables `a` to `h` are numbered 0 to 7. -/
structure Line where
  (a b c d e f g h : Fin 8)
  k : Word
  w : Nat
deriving DecidableEq

def execLine (W : Nat → Word) (v : HashValue) (l : Line) : HashValue :=
  let t1 := v l.h + e1 (v l.e) + Ch (v l.e) (v l.f) (v l.g) + l.k + W l.w
  let t2 := e0 (v l.a) + Maj (v l.a) (v l.b) (v l.c)
  Function.update (Function.update v l.d (v l.d + t1)) l.h (t1 + t2)

/-- "now iterate" -/
def iterate : List Line :=
  [⟨0, 1, 2, 3, 4, 5, 6, 7, 0x428a2f98, 0⟩, ⟨7, 0, 1, 2, 3, 4, 5, 6, 0x71374491, 1⟩,
   ⟨6, 7, 0, 1, 2, 3, 4, 5, 0xb5c0fbcf, 2⟩, ⟨5, 6, 7, 0, 1, 2, 3, 4, 0xe9b5dba5, 3⟩,
   ⟨4, 5, 6, 7, 0, 1, 2, 3, 0x3956c25b, 4⟩, ⟨3, 4, 5, 6, 7, 0, 1, 2, 0x59f111f1, 5⟩,
   ⟨2, 3, 4, 5, 6, 7, 0, 1, 0x923f82a4, 6⟩, ⟨1, 2, 3, 4, 5, 6, 7, 0, 0xab1c5ed5, 7⟩,
   ⟨0, 1, 2, 3, 4, 5, 6, 7, 0xd807aa98, 8⟩, ⟨7, 0, 1, 2, 3, 4, 5, 6, 0x12835b01, 9⟩,
   ⟨6, 7, 0, 1, 2, 3, 4, 5, 0x243185be, 10⟩, ⟨5, 6, 7, 0, 1, 2, 3, 4, 0x550c7dc3, 11⟩,
   ⟨4, 5, 6, 7, 0, 1, 2, 3, 0x72be5d74, 12⟩, ⟨3, 4, 5, 6, 7, 0, 1, 2, 0x80deb1fe, 13⟩,
   ⟨2, 3, 4, 5, 6, 7, 0, 1, 0x9bdc06a7, 14⟩, ⟨1, 2, 3, 4, 5, 6, 7, 0, 0xc19bf174, 15⟩,
   ⟨0, 1, 2, 3, 4, 5, 6, 7, 0xe49b69c1, 16⟩, ⟨7, 0, 1, 2, 3, 4, 5, 6, 0xefbe4786, 17⟩,
   ⟨6, 7, 0, 1, 2, 3, 4, 5, 0x0fc19dc6, 18⟩, ⟨5, 6, 7, 0, 1, 2, 3, 4, 0x240ca1cc, 19⟩,
   ⟨4, 5, 6, 7, 0, 1, 2, 3, 0x2de92c6f, 20⟩, ⟨3, 4, 5, 6, 7, 0, 1, 2, 0x4a7484aa, 21⟩,
   ⟨2, 3, 4, 5, 6, 7, 0, 1, 0x5cb0a9dc, 22⟩, ⟨1, 2, 3, 4, 5, 6, 7, 0, 0x76f988da, 23⟩,
   ⟨0, 1, 2, 3, 4, 5, 6, 7, 0x983e5152, 24⟩, ⟨7, 0, 1, 2, 3, 4, 5, 6, 0xa831c66d, 25⟩,
   ⟨6, 7, 0, 1, 2, 3, 4, 5, 0xb00327c8, 26⟩, ⟨5, 6, 7, 0, 1, 2, 3, 4, 0xbf597fc7, 27⟩,
   ⟨4, 5, 6, 7, 0, 1, 2, 3, 0xc6e00bf3, 28⟩, ⟨3, 4, 5, 6, 7, 0, 1, 2, 0xd5a79147, 29⟩,
   ⟨2, 3, 4, 5, 6, 7, 0, 1, 0x06ca6351, 30⟩, ⟨1, 2, 3, 4, 5, 6, 7, 0, 0x14292967, 31⟩,
   ⟨0, 1, 2, 3, 4, 5, 6, 7, 0x27b70a85, 32⟩, ⟨7, 0, 1, 2, 3, 4, 5, 6, 0x2e1b2138, 33⟩,
   ⟨6, 7, 0, 1, 2, 3, 4, 5, 0x4d2c6dfc, 34⟩, ⟨5, 6, 7, 0, 1, 2, 3, 4, 0x53380d13, 35⟩,
   ⟨4, 5, 6, 7, 0, 1, 2, 3, 0x650a7354, 36⟩, ⟨3, 4, 5, 6, 7, 0, 1, 2, 0x766a0abb, 37⟩,
   ⟨2, 3, 4, 5, 6, 7, 0, 1, 0x81c2c92e, 38⟩, ⟨1, 2, 3, 4, 5, 6, 7, 0, 0x92722c85, 39⟩,
   ⟨0, 1, 2, 3, 4, 5, 6, 7, 0xa2bfe8a1, 40⟩, ⟨7, 0, 1, 2, 3, 4, 5, 6, 0xa81a664b, 41⟩,
   ⟨6, 7, 0, 1, 2, 3, 4, 5, 0xc24b8b70, 42⟩, ⟨5, 6, 7, 0, 1, 2, 3, 4, 0xc76c51a3, 43⟩,
   ⟨4, 5, 6, 7, 0, 1, 2, 3, 0xd192e819, 44⟩, ⟨3, 4, 5, 6, 7, 0, 1, 2, 0xd6990624, 45⟩,
   ⟨2, 3, 4, 5, 6, 7, 0, 1, 0xf40e3585, 46⟩, ⟨1, 2, 3, 4, 5, 6, 7, 0, 0x106aa070, 47⟩,
   ⟨0, 1, 2, 3, 4, 5, 6, 7, 0x19a4c116, 48⟩, ⟨7, 0, 1, 2, 3, 4, 5, 6, 0x1e376c08, 49⟩,
   ⟨6, 7, 0, 1, 2, 3, 4, 5, 0x2748774c, 50⟩, ⟨5, 6, 7, 0, 1, 2, 3, 4, 0x34b0bcb5, 51⟩,
   ⟨4, 5, 6, 7, 0, 1, 2, 3, 0x391c0cb3, 52⟩, ⟨3, 4, 5, 6, 7, 0, 1, 2, 0x4ed8aa4a, 53⟩,
   ⟨2, 3, 4, 5, 6, 7, 0, 1, 0x5b9cca4f, 54⟩, ⟨1, 2, 3, 4, 5, 6, 7, 0, 0x682e6ff3, 55⟩,
   ⟨0, 1, 2, 3, 4, 5, 6, 7, 0x748f82ee, 56⟩, ⟨7, 0, 1, 2, 3, 4, 5, 6, 0x78a5636f, 57⟩,
   ⟨6, 7, 0, 1, 2, 3, 4, 5, 0x84c87814, 58⟩, ⟨5, 6, 7, 0, 1, 2, 3, 4, 0x8cc70208, 59⟩,
   ⟨4, 5, 6, 7, 0, 1, 2, 3, 0x90befffa, 60⟩, ⟨3, 4, 5, 6, 7, 0, 1, 2, 0xa4506ceb, 61⟩,
   ⟨2, 3, 4, 5, 6, 7, 0, 1, 0xbef9a3f7, 62⟩, ⟨1, 2, 3, 4, 5, 6, 7, 0, 0xc67178f2, 63⟩]

/-- `sha256_transform`. The array `W` is not initialized in the source; every entry is written before it is
    read. -/
def sha256Transform (state : HashValue) (input : Pointer) : Transformed :=
  let loaded := (List.range 16).foldl (loadOp input) { W := fun _ => 0, reads := [] }
  let W := (List.range' 16 48).foldl blendOp loaded.W
  let v := iterate.foldl (execLine W) state
  { state := fun j => state j + v j, reads := loaded.reads }

/-- `memcpy(state, init, 32)`, then the transform. -/
def runhash (input : Pointer) (init : HashValue) : Transformed := sha256Transform init input

/-- The array `sha256_init_state`. -/
def sha256InitState : HashValue := fun i =>
  [0x6a09e667, 0xbb67ae85, 0x3c6ef372, 0xa54ff53a,
   0x510e527f, 0x9b05688c, 0x1f83d9ab, 0x5be0cd19].getD i 0

theorem sha256InitState_eq : sha256InitState = initialHash := by
  funext i
  revert i
  decide

/-! ### The unrolled code is the loop -/

/-- The row of round `t`. -/
def lineAt (t : Nat) : Line where
  a := slot t 0
  b := slot t 1
  c := slot t 2
  d := slot t 3
  e := slot t 4
  f := slot t 5
  g := slot t 6
  h := slot t 7
  k := K t
  w := t

theorem iterate_eq : iterate = (List.range 64).map lineAt := by decide

/-! ### The schedule -/

/-- Loading the first `n` words reads the indexes below `n`, in order. -/
private theorem load_reads (input : Pointer) (s : Loading) (n : Nat) :
    ((List.range n).foldl (loadOp input) s).reads = s.reads ++ List.range n := by
  induction n with
  | zero => simp
  | succ n ih => simp [List.range_succ, loadOp, ih]

/-- Loading the first `n` words copies them. -/
private theorem load_word (input : Pointer) (s : Loading) (n t : Nat) (ht : t < n) :
    ((List.range n).foldl (loadOp input) s).W t = input.word t := by
  induction n with
  | zero => omega
  | succ n ih =>
      rw [List.range_succ, List.foldl_append]
      by_cases last : t = n
      · rw [last]
        exact Function.update_self ..
      · exact (Function.update_of_ne last _ _).trans (ih (by omega))

/-- Blending up to index `16 + n` gives the schedule up to there. -/
private theorem blend_word (M : Block) (W : Nat → Word) (start : ∀ t (ht : t < 16), W t = M ⟨t, ht⟩) :
    ∀ n t, t < 16 + n → ((List.range' 16 n).foldl blendOp W) t = schedule M t := by
  intro n
  induction n with
  | zero =>
      intro t ht
      rw [schedule_block M t ht]
      exact start t ht
  | succ n ih =>
      intro t ht
      rw [List.range'_1_concat, List.foldl_append]
      by_cases last : t = 16 + n
      · subst last
        refine (Function.update_self ..).trans ?_
        have back2 : n + 16 - 2 = n + 14 := by omega
        have back7 : n + 16 - 7 = n + 9 := by omega
        have back15 : n + 16 - 15 = n + 1 := by omega
        have back16 : n + 16 - 16 = n := by omega
        rw [Nat.add_comm 16 n, schedule_recurrence, back2, back7, back15, back16, ih (n + 14) (by omega),
          ih (n + 9) (by omega), ih (n + 1) (by omega), ih n (by omega)]
        rfl
      · exact (Function.update_of_ne last _ _).trans (ih t (by omega))

/-! ### The rounds -/

/-- The row of round `t` is that round. -/
private theorem execLine_lineAt {W : Nat → Word} {v u : HashValue} {t : Nat} (held : Holds t v u) :
    Holds (t + 1) (execLine W v (lineAt t)) (oneRound (K t) (W t) u) := by
  refine holds_roundAt held ?_ ?_
  · simp only [Ch, ch_eq_select]
    rw [← held 7, ← held 4, ← held 5, ← held 6]
    rfl
  · simp only [Maj, maj_eq_or]
    rw [← held 0, ← held 1, ← held 2]
    rfl

/-- The first `n` rows are the first `n` rounds. -/
private theorem holds_iterate (W : Nat → Word) (v : HashValue) (n : Nat) :
    Holds n (((List.range n).map lineAt).foldl (execLine W) v) (rounds W v n) := by
  induction n with
  | zero =>
      intro j
      have same : slot 0 j = j := Fin.ext (by simp only [slot]; omega)
      rw [same]
      rfl
  | succ n ih =>
      rw [List.range_succ, List.map_append, List.foldl_append]
      exact execLine_lineAt ih

/-! ### The transform -/

/-- The transform is the compression of the sixteen words at the pointer. -/
theorem sha256Transform_state (state : HashValue) (input : Pointer) :
    (sha256Transform state input).state = compress state (inputBlock input) := by
  funext j
  have same : slot 64 j = j := Fin.ext (by simp only [slot]; omega)
  have iterated := holds_iterate ((List.range' 16 48).foldl blendOp
    ((List.range 16).foldl (loadOp input) { W := fun _ => 0, reads := [] }).W) state 64 j
  rw [same, ← iterate_eq] at iterated
  have blended : ∀ t, t < 64 → _ = schedule (inputBlock input) t :=
    blend_word (inputBlock input) _ (fun t ht => load_word input { W := fun _ => 0, reads := [] } 16 t ht) 48
  rw [rounds_congr state 64 blended] at iterated
  exact (congrArg (state j + ·) iterated).trans (BitVec.add_comm _ _)

/-- The transform reads sixteen words, whatever the input points to. -/
theorem sha256Transform_reads (state : HashValue) (input : Pointer) :
    (sha256Transform state input).reads = List.range 16 :=
  load_reads input { W := fun _ => 0, reads := [] } 16

end Generic

end CpuMiner
