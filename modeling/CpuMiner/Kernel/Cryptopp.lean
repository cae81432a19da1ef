/-
Module: CpuMiner.Kernel.Cryptopp
Layer: Kernels
Purpose: `SHA256_Transform` and `runhash` of sha256_cryptopp.c. The working variables rotate through the array `T`
  and the schedule words through the array `W`, both indexed by a difference of macro arguments under a bit
  mask. `sha256Transform_state` says that the result is the compression of the sixteen words at the pointer, and
  `sha256Transform_reads` that all sixteen are read.
Imports: CpuMiner.Kernel.Generic
Trusted boundary: human-reviewed spec (the transcription of the C code)
Main exports: sha256Transform, runhash, sha256Transform_state, sha256Transform_reads
Open obligations: none
-/
import CpuMiner.Kernel.Generic

namespace CpuMiner.Cryptopp

open Words
open Sha256

def rotrFixed (word : Word) (shift : Nat) : Word := (word >>> shift) ||| (word <<< (32 - shift))

/-- The table `SHA256_K`. -/
def sha256KTable : List Word :=
  [0x428a2f98, 0x71374491, 0xb5c0fbcf, 0xe9b5dba5,
   0x3956c25b, 0x59f111f1, 0x923f82a4, 0xab1c5ed5,
   0xd807aa98, 0x12835b01, 0x243185be, 0x550c7dc3,
   0x72be5d74, 0x80deb1fe, 0x9bdc06a7, 0xc19bf174,
   0xe49b69c1, 0xefbe4786, 0x0fc19dc6, 0x240ca1cc,
   0x2de92c6f, 0x4a7484aa, 0x5cb0a9dc, 0x76f988da,
   0x983e5152, 0xa831c66d, 0xb00327c8, 0xbf597fc7,
   0xc6e00bf3, 0xd5a79147, 0x06ca6351, 0x14292967,
   0x27b70a85, 0x2e1b2138, 0x4d2c6dfc, 0x53380d13,
   0x650a7354, 0x766a0abb, 0x81c2c92e, 0x92722c85,
   0xa2bfe8a1, 0xa81a664b, 0xc24b8b70, 0xc76c51a3,
   0xd192e819, 0xd6990624, 0xf40e3585, 0x106aa070,
   0x19a4c116, 0x1e376c08, 0x2748774c, 0x34b0bcb5,
   0x391c0cb3, 0x4ed8aa4a, 0x5b9cca4f, 0x682e6ff3,
   0x748f82ee, 0x78a5636f, 0x84c87814, 0x8cc70208,
   0x90befffa, 0xa4506ceb, 0xbef9a3f7, 0xc67178f2]

def sha256K (i : Nat) : Word := sha256KTable.getD i 0

theorem sha256K_eq (i : Nat) : sha256K i = K i := rfl

def Ch (x y z : Word) : Word := z ^^^ (x &&& (y ^^^ z))

def Maj (x y z : Word) : Word := y ^^^ ((x ^^^ y) &&& (y ^^^ z))

def S0 (x : Word) : Word := rotrFixed x 2 ^^^ rotrFixed x 13 ^^^ rotrFixed x 22

def S1 (x : Word) : Word := rotrFixed x 6 ^^^ rotrFixed x 11 ^^^ rotrFixed x 25

def s0 (x : Word) : Word := rotrFixed x 7 ^^^ rotrFixed x 18 ^^^ (x >>> 3)

def s1 (x : Word) : Word := rotrFixed x 17 ^^^ rotrFixed x 19 ^^^ (x >>> 10)

/-- An index under the mask 7. The difference may be negative. -/
def and7 (k : Int) : Fin 8 := ⟨(k % 8).toNat, by omega⟩

/-- An index under the mask 15. -/
def and15 (k : Int) : Fin 16 := ⟨(k % 16).toNat, by omega⟩

/-- The arrays of `SHA256_Transform`, and the reads of `data` so far. -/
structure Arrays where
  T : HashValue
  W : Block
  reads : List Nat

/-- `blk0(i)`: `W[i] = data[i]`. -/
def blk0 (data : Pointer) (s : Arrays) (i : Nat) : Arrays :=
  { s with W := Function.update s.W (and15 i) (data.word i), reads := s.reads ++ [i] }

/-- `blk2(i)`: `W[i&15] += s1(W[(i-2)&15]) + W[(i-7)&15] + s0(W[(i-15)&15])`. -/
def blk2 (s : Arrays) (i : Nat) : Arrays :=
  { s with
    W := Function.update s.W (and15 i) (s.W (and15 i) +
      (s1 (s.W (and15 (i - 2))) + s.W (and15 (i - 7)) + s0 (s.W (and15 (i - 15))))) }

/-- `R(i)`, with the macros `a(i)` to `h(i)` for `T[(0-i)&7]` to `T[(7-i)&7]`. -/
def R (data : Pointer) (j : Nat) (s : Arrays) (i : Nat) : Arrays :=
  let var (k : Nat) : Fin 8 := and7 (k - i)
  let s' := if j ≠ 0 then blk2 s i else blk0 data s i
  let T := s'.T
  let h1 := T (var 7) + (S1 (T (var 4)) + Ch (T (var 4)) (T (var 5)) (T (var 6)) + sha256K (i + j) +
    s'.W (and15 i))
  let T1 := Function.update T (var 7) h1
  let T2 := Function.update T1 (var 3) (T1 (var 3) + T1 (var 7))
  { s' with
    T := Function.update T2 (var 7) (T2 (var 7) +
      (S0 (T2 (var 0)) + Maj (T2 (var 0)) (T2 (var 1)) (T2 (var 2)))) }

/-- `R( 0); R( 1); ... R(15);` -/
def sixteen (data : Pointer) (s : Arrays) (j : Nat) : Arrays := (List.range 16).foldl (R data j) s

/-- `SHA256_Transform`: four times sixteen rounds, added to the state they started from. -/
def sha256Transform (state : HashValue) (data : Pointer) : Transformed :=
  let s := [0, 16, 32, 48].foldl (sixteen data) { T := state, W := fun _ => 0, reads := [] }
  { state := fun r => state r + s.T (and7 r), reads := s.reads }

/-- `memcpy(state, init, 32)`, then the transform. -/
def runhash (input : Pointer) (init : HashValue) : Transformed := sha256Transform init input

/-! ### What the macros do -/

/-- After `n` rounds, `T` holds the working variables, `W` the schedule words of the last sixteen rounds, and
    the words of the first rounds have been read. -/
structure Runs (M : Block) (v₀ : HashValue) (n : Nat) (s : Arrays) : Prop where
  vars : Holds n s.T (rounds (schedule M) v₀ n)
  words : ∀ t, t < n → n ≤ t + 16 → s.W (and15 t) = schedule M t
  reads : s.reads = List.range (min n 16)

/-- The macro for variable `r` names the register of that variable. -/
private theorem and7_eq_slot {j i : Nat} (turn : j % 16 = 0) (r : Nat) (hr : r < 8) :
    and7 (r - i) = slot (j + i) ⟨r, hr⟩ := by
  apply Fin.ext
  simp only [and7, slot]
  omega

/-- The three assignments of a round in place, for five different registers. -/
private theorem assign_in_place (T : HashValue) {a b c d h : Fin 8} (dh : d ≠ h)
    (ad : a ≠ d) (ah : a ≠ h) (bd : b ≠ d) (bh : b ≠ h) (cd : c ≠ d) (ch : c ≠ h) (t1 : Word)
    (t2 : Word → Word → Word → Word) :
    let T1 := Function.update T h t1
    let T2 := Function.update T1 d (T1 d + T1 h)
    Function.update T2 h (T2 h + t2 (T2 a) (T2 b) (T2 c)) =
      Function.update (Function.update T d (T d + t1)) h (t1 + t2 (T a) (T b) (T c)) := by
  simp only [Function.update_self, Function.update_of_ne dh, Function.update_of_ne dh.symm,
    Function.update_of_ne ad, Function.update_of_ne ah, Function.update_of_ne bd,
    Function.update_of_ne bh, Function.update_of_ne cd, Function.update_of_ne ch]
  rw [Function.update_comm dh.symm, Function.update_idem]

/-- Neither `blk0` nor `blk2` changes the working variables. -/
private theorem blk_T (data : Pointer) (j : Nat) (s : Arrays) (i : Nat) :
    (if j ≠ 0 then blk2 s i else blk0 data s i).T = s.T := by
  by_cases first : j ≠ 0
  · rw [if_pos first]
    rfl
  · rw [if_neg first]
    rfl

/-- `R` is a round on the registers. -/
private theorem R_T {data : Pointer} {j i : Nat} {s : Arrays} {w : Word} (turn : j % 16 = 0)
    (word : (if j ≠ 0 then blk2 s i else blk0 data s i).W (and15 i) = w) :
    (R data j s i).T = roundAt (j + i)
      (s.T (slot (j + i) 7) + (S1 (s.T (slot (j + i) 4)) + Ch (s.T (slot (j + i) 4))
        (s.T (slot (j + i) 5)) (s.T (slot (j + i) 6)) + sha256K (i + j) + w))
      (S0 (s.T (slot (j + i) 0)) + Maj (s.T (slot (j + i) 0)) (s.T (slot (j + i) 1))
        (s.T (slot (j + i) 2))) s.T := by
  have apart : ∀ a b : Fin 8, a ≠ b → slot (j + i) a ≠ slot (j + i) b :=
    fun a b different same => different (slot_injective _ same)
  simp only [R]
  rw [blk_T, word, and7_eq_slot turn 0 (by decide), and7_eq_slot turn 1 (by decide),
    and7_eq_slot turn 2 (by decide), and7_eq_slot turn 3 (by decide), and7_eq_slot turn 4 (by decide),
    and7_eq_slot turn 5 (by decide), and7_eq_slot turn 6 (by decide), and7_eq_slot turn 7 (by decide)]
  exact assign_in_place s.T (apart 3 7 (by decide)) (apart 0 3 (by decide)) (apart 0 7 (by decide))
    (apart 1 3 (by decide)) (apart 1 7 (by decide)) (apart 2 3 (by decide)) (apart 2 7 (by decide)) _
    (fun a b c => S0 a + Maj a b c)

/-- `R` on registers that hold the variables of round `j + i` is that round. -/
private theorem R_vars {data : Pointer} {j i : Nat} {s : Arrays} {v : HashValue} {w : Word}
    (turn : j % 16 = 0) (held : Holds (j + i) s.T v)
    (word : (if j ≠ 0 then blk2 s i else blk0 data s i).W (and15 i) = w) :
    Holds (j + i + 1) (R data j s i).T (oneRound (K (j + i)) w v) := by
  rw [R_T turn word]
  refine holds_roundAt held ?_ ?_
  · simp only [Ch, ch_eq_select, sha256K_eq]
    rw [held 7, held 4, held 5, held 6, Nat.add_comm i j]
    simp only [BitVec.add_assoc]
    rfl
  · simp only [Maj, maj_eq_middle]
    rw [held 0, held 1, held 2]
    rfl

/-- Storing the schedule word of round `n` keeps the last sixteen of them. -/
private theorem words_update {M W : Block} {n : Nat} {p : Fin 16} {w : Word}
    (words : ∀ t : Nat, t < n → n ≤ t + 16 → W (and15 t) = schedule M t) (place : p = and15 n)
    (next : w = schedule M n) :
    ∀ t : Nat, t < n + 1 → n + 1 ≤ t + 16 → Function.update W p w (and15 t) = schedule M t := by
  intro t upper lower
  by_cases newest : t = n
  · rw [newest, place, Function.update_self, next]
  · have other : and15 t ≠ p := by
      intro same
      rw [place] at same
      have residue := congrArg Fin.val same
      simp only [and15] at residue
      omega
    rw [Function.update_of_ne other]
    exact words t (by omega) (by omega)

/-- The word that `blk0` or `blk2` stores in round `j + i` is the schedule word of that round. -/
private theorem blk_words {data : Pointer} {j i : Nat} {s : Arrays} (turn : j % 16 = 0) (hi : i < 16)
    (words : ∀ t : Nat, t < j + i → j + i ≤ t + 16 → s.W (and15 t) = schedule (inputBlock data) t) :
    ∀ t : Nat, t < j + i + 1 → j + i + 1 ≤ t + 16 →
      (if j ≠ 0 then blk2 s i else blk0 data s i).W (and15 t) = schedule (inputBlock data) t := by
  have place : and15 i = and15 (j + i : Nat) := by
    apply Fin.ext
    simp only [and15]
    omega
  by_cases first : j ≠ 0
  · rw [if_pos first]
    refine words_update words place ?_
    have old : ∀ k : Nat, 0 < k → k ≤ 16 →
        s.W (and15 (i - k)) = schedule (inputBlock data) (j + i - k) := by
      intro k positive bound
      have same : and15 (i - k) = and15 (j + i - k : Nat) := by
        apply Fin.ext
        simp only [and15]
        omega
      rw [same]
      exact words (j + i - k) (by omega) (by omega)
    have oldest : and15 i = and15 (i - 16) := by
      apply Fin.ext
      simp only [and15]
      omega
    have w16 := old 16 (by decide) (by decide)
    have w15 := old 15 (by decide) (by decide)
    have w7 := old 7 (by decide) (by decide)
    have w2 := old 2 (by decide) (by decide)
    obtain ⟨e, he⟩ : ∃ e, j + i = e + 16 := ⟨j + i - 16, by omega⟩
    rw [he] at w16 w15 w7 w2 ⊢
    rw [schedule_recurrence, oldest]
    refine (congrArg₂ (· + ·) w16 (congrArg₂ (· + ·) (congrArg₂ (· + ·) (congrArg s1 w2) w7)
      (congrArg s0 w15))).trans ?_
    exact BitVec.add_comm _ _
  · rw [if_neg first]
    refine words_update words place ?_
    have start : j = 0 := by omega
    subst start
    rw [Nat.zero_add, schedule_block _ i hi]
    rfl

/-- The reads of the lines `R` are those of the rounds below 16. -/
private theorem R_reads (data : Pointer) {j i : Nat} {s : Arrays} (turn : j % 16 = 0) (hi : i < 16)
    (reads : s.reads = List.range (min (j + i) 16)) :
    (R data j s i).reads = List.range (min (j + i + 1) 16) := by
  by_cases first : j = 0
  · subst first
    have grown : (R data 0 s i).reads = s.reads ++ [i] := rfl
    have before : min (0 + i) 16 = i := by omega
    have after : min (0 + i + 1) 16 = i + 1 := by omega
    rw [grown, reads, before, after, List.range_succ]
  · have kept : (R data j s i).reads = s.reads := by
      simp only [R, if_pos first]
      rfl
    have before : min (j + i) 16 = 16 := by omega
    have after : min (j + i + 1) 16 = 16 := by omega
    rw [kept, reads, before, after]

/-- One line `R(i)` is one round. -/
private theorem Runs.line {data : Pointer} {v₀ : HashValue} {j i : Nat} {s : Arrays} (turn : j % 16 = 0)
    (hi : i < 16) (runs : Runs (inputBlock data) v₀ (j + i) s) :
    Runs (inputBlock data) v₀ (j + i + 1) (R data j s i) := by
  have words := blk_words turn hi runs.words
  have place : and15 i = and15 (j + i : Nat) := by
    apply Fin.ext
    simp only [and15]
    omega
  refine ⟨R_vars turn runs.vars ?_, words, R_reads data turn hi runs.reads⟩
  rw [place]
  exact words (j + i) (by omega) (by omega)

/-- The sixteen lines are sixteen rounds. -/
private theorem Runs.turn {data : Pointer} {v₀ : HashValue} {j : Nat} {s : Arrays}
    (turn : j % 16 = 0) (runs : Runs (inputBlock data) v₀ j s) :
    Runs (inputBlock data) v₀ (j + 16) (sixteen data s j) := by
  suffices lines : ∀ n, n ≤ 16 → Runs (inputBlock data) v₀ (j + n) ((List.range n).foldl (R data j) s)
    from lines 16 (Nat.le_refl 16)
  intro n
  induction n with
  | zero => exact fun _ => runs
  | succ n ih =>
      intro bound
      rw [List.range_succ, List.foldl_append]
      exact Runs.line turn (by omega) (ih (by omega))

/-! ### The transform -/

private theorem runs_transform (state : HashValue) (data : Pointer) :
    Runs (inputBlock data) state 64
      ([0, 16, 32, 48].foldl (sixteen data) { T := state, W := fun _ => 0, reads := [] }) := by
  have start : Runs (inputBlock data) state 0 { T := state, W := fun _ => 0, reads := [] } := by
    exact ⟨holds_zero state, fun t ht => by omega, rfl⟩
  have to16 : Runs _ _ 16 _ := start.turn (by decide)
  have to32 : Runs _ _ 32 _ := to16.turn (by decide)
  have to48 : Runs _ _ 48 _ := to32.turn (by decide)
  have to64 : Runs _ _ 64 _ := to48.turn (by decide)
  simp only [List.foldl_cons, List.foldl_nil]
  exact to64

/-- The transform is the compression of the sixteen words at the pointer. -/
theorem sha256Transform_state (state : HashValue) (data : Pointer) :
    (sha256Transform state data).state = compress state (inputBlock data) := by
  funext r
  have same : and7 r = slot 64 r := Fin.ext (by simp only [and7, slot]; omega)
  have workVars := (runs_transform state data).vars r
  rw [← same] at workVars
  simp only [sha256Transform, compress]
  rw [workVars, BitVec.add_comm]

/-- The transform reads sixteen words, whatever the input points to. -/
theorem sha256Transform_reads (state : HashValue) (data : Pointer) :
    (sha256Transform state data).reads = List.range 16 :=
  (runs_transform state data).reads

/-- The two plain transforms are the compression function on the sixteen words they are given, which are not
    swapped. -/
theorem transforms_state (state : HashValue) (words : Block) (behind : Nat → Word) :
    (Generic.sha256Transform state (Pointer.toObject words behind)).state = compress state words ∧
      (sha256Transform state (Pointer.toObject words behind)).state = compress state words := by
  rw [Generic.sha256Transform_state, sha256Transform_state, inputBlock_toObject]
  exact ⟨rfl, rfl⟩

end CpuMiner.Cryptopp
