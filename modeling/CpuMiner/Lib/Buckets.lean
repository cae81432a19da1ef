/-
Module: CpuMiner.Lib.Buckets
Layer: Library
Purpose: A list in which the elements of one class stand together, in no order of the classes. An element is put in
  before the others of its class, or at the end when it is the first one of it. Each class is then one segment of the
  list (`Segment`), and a segment is known by its first and its last element.
Imports: Mathlib.Data.List.Infix, Mathlib.Data.List.Perm.Basic, Mathlib.Data.List.TakeWhile
Trusted boundary: none
Main exports: insert, regroup, Segment, perm_insert, perm_regroup, Segment.filter, Segment.insert_same,
  Segment.insert_other, map_insert, map_regroup
Open obligations: none
-/
import Mathlib.Data.List.Infix
import Mathlib.Data.List.Perm.Basic
import Mathlib.Data.List.TakeWhile

namespace Buckets

variable {α ι : Type} [DecidableEq ι] {cls : α → ι} {x : α} {xs : List α} {i : ι}

/-- An element is put before the others of its class. -/
def insert (cls : α → ι) (x : α) (xs : List α) : List α :=
  xs.takeWhile (fun y => cls y ≠ cls x) ++ x :: xs.dropWhile (fun y => cls y ≠ cls x)

/-- The elements are put in one after the other. -/
def regroup (cls : α → ι) (xs : List α) : List α := xs.foldl (fun ys x => insert cls x ys) []

/-- The list has these elements of the class, all in one place. -/
structure Segment (cls : α → ι) (i : ι) (xs before seg after : List α) : Prop where
  split : xs = before ++ seg ++ after
  inside : ∀ x ∈ seg, cls x = i
  before : ∀ x ∈ before, cls x ≠ i
  after : ∀ x ∈ after, cls x ≠ i

theorem perm_insert (cls : α → ι) (x : α) (xs : List α) : (insert cls x xs).Perm (x :: xs) := by
  have split := @List.takeWhile_append_dropWhile α (fun y => decide (cls y ≠ cls x)) xs
  have moved := @List.perm_middle α x (xs.takeWhile fun y => cls y ≠ cls x) (xs.dropWhile fun y => cls y ≠ cls x)
  rwa [split] at moved

theorem mem_insert {y : α} : y ∈ insert cls x xs ↔ y = x ∨ y ∈ xs := by
  rw [(perm_insert cls x xs).mem_iff, List.mem_cons]

theorem perm_foldl_insert (xs ys : List α) : (xs.foldl (fun ys x => insert cls x ys) ys).Perm (ys ++ xs) := by
  induction xs generalizing ys with
  | nil => rw [List.append_nil, List.foldl_nil]
  | cons x xs ih =>
      rw [List.foldl_cons]
      have moved : (insert cls x ys ++ xs).Perm (ys ++ x :: xs) :=
        ((perm_insert cls x ys).append_right xs).trans List.perm_middle.symm
      exact (ih (insert cls x ys)).trans moved

theorem perm_regroup (cls : α → ι) (xs : List α) : (regroup cls xs).Perm xs := perm_foldl_insert xs []

/-! ### Segments -/

namespace Segment

variable {before seg after : List α}

omit [DecidableEq ι] in
theorem nil (cls : α → ι) (i : ι) : Segment cls i [] [] [] [] where
  split := rfl
  inside _ listed := nomatch listed
  before _ listed := nomatch listed
  after _ listed := nomatch listed

omit [DecidableEq ι] in
theorem congr {cls' : α → ι} (segment : Segment cls i xs before seg after) (same : ∀ x ∈ xs, cls' x = cls x) :
    Segment cls' i xs before seg after where
  split := segment.split
  inside x listed := by
    rw [same x (segment.split ▸ List.mem_append_left _ (List.mem_append_right _ listed))]
    exact segment.inside x listed
  before x listed := by
    rw [same x (segment.split ▸ List.mem_append_left _ (List.mem_append_left _ listed))]
    exact segment.before x listed
  after x listed := by
    rw [same x (segment.split ▸ List.mem_append_right _ listed)]
    exact segment.after x listed

omit [DecidableEq ι] in
/-- The elements of a class that can be kept are still one segment. -/
theorem filter (segment : Segment cls i xs before seg after) (p : α → Bool) :
    Segment cls i (xs.filter p) (before.filter p) (seg.filter p) (after.filter p) where
  split := by rw [segment.split, List.filter_append, List.filter_append]
  inside x listed := segment.inside x (List.mem_of_mem_filter listed)
  before x listed := segment.before x (List.mem_of_mem_filter listed)
  after x listed := segment.after x (List.mem_of_mem_filter listed)

omit [DecidableEq ι] in
theorem mem_iff (segment : Segment cls i xs before seg after) {y : α} : y ∈ seg ↔ y ∈ xs ∧ cls y = i := by
  rw [segment.split, List.mem_append, List.mem_append]
  constructor
  · exact fun listed => ⟨.inl (.inr listed), segment.inside y listed⟩
  · rintro ⟨(listed | listed) | listed, same⟩
    · exact absurd same (segment.before y listed)
    · exact listed
    · exact absurd same (segment.after y listed)

/-- The first one of a class goes to the end. -/
theorem insert_first (segment : Segment cls (cls x) xs before [] after) : insert cls x xs = xs ++ [x] := by
  have other : ∀ y ∈ xs, decide (cls y ≠ cls x) = true := by
    intro y listed
    refine decide_eq_true fun same => ?_
    exact absurd (segment.mem_iff.mpr ⟨listed, same⟩) List.not_mem_nil
  rw [insert, List.takeWhile_eq_self_iff.mpr other, List.dropWhile_eq_nil_iff.mpr other]

/-- Another one goes before the segment. -/
theorem insert_before {y : α} (segment : Segment cls (cls x) xs before (y :: seg) after) :
    insert cls x xs = before ++ x :: (y :: seg ++ after) := by
  have other : ∀ z ∈ before, decide (cls z ≠ cls x) = true := fun z listed => decide_eq_true (segment.before z listed)
  have same : cls y = cls x := segment.inside y List.mem_cons_self
  rw [insert, segment.split, List.append_assoc, List.takeWhile_append_of_pos other, List.dropWhile_append_of_pos other]
  simp [same]

/-- The class of the new element has it in front. -/
theorem insert_same (segment : Segment cls (cls x) xs before seg after) :
    ∃ before' after', Segment cls (cls x) (insert cls x xs) before' (x :: seg) after' := by
  cases seg with
  | nil =>
      refine ⟨xs, [], ⟨by rw [segment.insert_first, List.append_nil], ?_, ?_, ?_⟩⟩
      · intro y listed
        rw [List.mem_singleton.mp listed]
      · intro y listed same
        exact absurd (segment.mem_iff.mpr ⟨listed, same⟩) List.not_mem_nil
      · intro y listed
        cases listed
  | cons y seg =>
      refine ⟨before, after, ⟨?_, ?_, segment.before, segment.after⟩⟩
      · rw [segment.insert_before, List.append_assoc]
        rfl
      · intro z listed
        rcases List.mem_cons.mp listed with rfl | listed
        · rfl
        · exact segment.inside z listed

omit [DecidableEq ι] in
/-- A segment stays what it is when an element of another class is put in anywhere but in its middle. -/
theorem insert_outside {front back : List α} (segment : Segment cls i (front ++ back) before seg after)
    (other : cls x ≠ i) (next : ∀ y ∈ back.head?, cls y ≠ i) :
    ∃ before' after', Segment cls i (front ++ x :: back) before' seg after' := by
  have split := segment.split
  rw [List.append_assoc] at split
  rcases List.append_eq_append_iff.mp split with ⟨c, rfl, rfl⟩ | ⟨c, rfl, rest⟩
  · refine ⟨front ++ x :: c, after, ⟨by simp, segment.inside, ?_, segment.after⟩⟩
    intro y listed
    rcases List.mem_append.mp listed with inFront | behind
    · exact segment.before y (List.mem_append_left _ inFront)
    · rcases List.mem_cons.mp behind with rfl | inC
      · exact other
      · exact segment.before y (List.mem_append_right _ inC)
  · rcases List.append_eq_append_iff.mp rest with ⟨d, rfl, rfl⟩ | ⟨d, rfl, rfl⟩
    · refine ⟨before, d ++ x :: back, ⟨by simp, segment.inside, segment.before, ?_⟩⟩
      intro y listed
      rcases List.mem_append.mp listed with inD | behind
      · exact segment.after y (List.mem_append_left _ inD)
      · rcases List.mem_cons.mp behind with rfl | inBack
        · exact other
        · exact segment.after y (List.mem_append_right _ inBack)
    · cases d with
      | nil =>
          refine ⟨before, x :: after, ⟨by simp, segment.inside, segment.before, ?_⟩⟩
          intro y listed
          rcases List.mem_cons.mp listed with rfl | listed
          · exact other
          · exact segment.after y listed
      | cons y d => exact absurd (segment.inside y (by simp)) (next y rfl)

/-- Every other class is as it was. -/
theorem insert_other (segment : Segment cls i xs before seg after) (other : cls x ≠ i) :
    ∃ before' after', Segment cls i (insert cls x xs) before' seg after' := by
  rw [← @List.takeWhile_append_dropWhile α (fun y => decide (cls y ≠ cls x)) xs] at segment
  refine segment.insert_outside other fun y isHead same => ?_
  have stopped := List.head?_dropWhile_not (fun y => decide (cls y ≠ cls x)) xs
  rw [Option.mem_def.mp isHead] at stopped
  have sameClass : cls y = cls x := by simpa using stopped
  exact other (sameClass.symm.trans same)

end Segment

/-! ### Images -/

theorem map_insert {β : Type} {cls' : β → ι} {f : α → β} (x : α) (xs : List α)
    (same : ∀ y ∈ x :: xs, cls' (f y) = cls y) : (insert cls x xs).map f = insert cls' (f x) (xs.map f) := by
  have first := same x List.mem_cons_self
  induction xs with
  | nil => rfl
  | cons y xs ih =>
      have here := same y (List.mem_cons_of_mem x List.mem_cons_self)
      have later := ih fun z listed => same z <| by
        rcases List.mem_cons.mp listed with rfl | listed
        · exact List.mem_cons_self
        · exact List.mem_cons_of_mem x (List.mem_cons_of_mem y listed)
      by_cases isClass : cls y = cls x
      · simp [insert, isClass, here, first]
      · simpa [insert, List.takeWhile_cons, List.dropWhile_cons, isClass, here, first] using later

theorem map_regroup {β : Type} {cls' : β → ι} {f : α → β} (xs : List α) (same : ∀ y ∈ xs, cls' (f y) = cls y) :
    (regroup cls xs).map f = regroup cls' (xs.map f) := by
  suffices general : ∀ ys : List α, (∀ y ∈ ys, cls' (f y) = cls y) →
      (xs.foldl (fun ys x => insert cls x ys) ys).map f =
        (xs.map f).foldl (fun ys x => insert cls' x ys) (ys.map f) from general [] fun _ listed => nomatch listed
  induction xs with
  | nil => exact fun _ _ => rfl
  | cons x xs ih =>
      intro ys sameYs
      have sameX := same x List.mem_cons_self
      have inserted : ∀ y ∈ x :: ys, cls' (f y) = cls y := by
        intro y listed
        rcases List.mem_cons.mp listed with rfl | listed
        · exact sameX
        · exact sameYs y listed
      rw [List.foldl_cons, List.map_cons, List.foldl_cons, ← map_insert x ys inserted]
      refine ih (fun y listed => same y (List.mem_cons_of_mem x listed)) _ fun y listed => ?_
      exact inserted y (List.mem_cons.mpr (mem_insert.mp listed))

end Buckets
