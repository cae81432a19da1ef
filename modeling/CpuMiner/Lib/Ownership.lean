/-
Module: CpuMiner.Lib.Ownership
Layer: Library
Purpose: Blocks of memory that several holders pass to each other. A holder has a list of blocks, and for each block
  it may rely on contents. Memory is owned when every live block has exactly one holder and the contents are what
  the holders rely on. Allocation, storing into a block of one's own, freeing and handing over keep it so; then
  nobody uses a freed block, nobody frees twice and nothing leaks.
Imports: Mathlib.Data.List.Perm.Basic, Mathlib.Logic.Function.Basic
Trusted boundary: none
Main exports: Owned, Owned.allocate, Owned.store, Owned.release, Owned.transfer, Owned.live_of_held, Owned.content,
  Owned.holder_unique, Owned.held_of_live
Open obligations: none
-/
import Mathlib.Data.List.Perm.Basic
import Mathlib.Logic.Function.Basic

namespace Ownership

open Function (update)

variable {η α ν : Type}

/-- A block at an address, with the contents that its holder relies on. -/
abbrev Block (α ν : Type) := α × Option ν

/-- Every block has this owner, who has it once, and its contents are as expected. -/
structure OwnedBy (owner : α → Option η) (held : η → List (Block α ν)) (live : α → Bool)
    (mem : α → ν) : Prop where
  once : ∀ h, ((held h).map Prod.fst).Nodup
  owner_iff : ∀ a h, owner a = some h ↔ a ∈ (held h).map Prod.fst
  live_iff : ∀ a, live a = true ↔ ∃ h, owner a = some h
  content : ∀ h a v, (a, some v) ∈ held h → mem a = v

/-- Every live block has exactly one holder. -/
def Owned (held : η → List (Block α ν)) (live : α → Bool) (mem : α → ν) : Prop :=
  ∃ owner, OwnedBy owner held live mem

namespace Owned

variable {held held' : η → List (Block α ν)} {live : α → Bool} {mem : α → ν}

/-! ### What ownership means -/

/-- A block that somebody holds is not freed. -/
theorem live_of_held (owned : Owned held live mem) {h : η} {p : Block α ν} (mine : p ∈ held h) :
    live p.1 = true := by
  obtain ⟨owner, byOwner⟩ := owned
  have mine' := (byOwner.owner_iff p.1 h).mpr (List.mem_map_of_mem mine)
  exact (byOwner.live_iff p.1).mpr ⟨h, mine'⟩

theorem content (owned : Owned held live mem) {h : η} {a : α} {v : ν}
    (mine : (a, some v) ∈ held h) : mem a = v := by
  obtain ⟨owner, byOwner⟩ := owned
  exact byOwner.content h a v mine

/-- No two holders share a block. -/
theorem holder_unique (owned : Owned held live mem) {h h' : η} {p p' : Block α ν}
    (mine : p ∈ held h) (yours : p' ∈ held h') (same : p.1 = p'.1) : h = h' := by
  obtain ⟨owner, byOwner⟩ := owned
  have one := (byOwner.owner_iff p.1 h).mpr (List.mem_map_of_mem mine)
  have two := (byOwner.owner_iff p'.1 h').mpr (List.mem_map_of_mem yours)
  rw [same, two] at one
  exact (Option.some.inj one).symm

/-- No block leaks. -/
theorem held_of_live (owned : Owned held live mem) {a : α} (used : live a = true) :
    ∃ h c, (a, c) ∈ held h := by
  obtain ⟨owner, byOwner⟩ := owned
  obtain ⟨h, mine⟩ := (byOwner.live_iff a).mp used
  obtain ⟨⟨a, c⟩, mem, rfl⟩ := List.mem_map.mp ((byOwner.owner_iff a h).mp mine)
  exact ⟨h, c, mem⟩

/-! ### What keeps it -/

/-- At first nobody holds anything. -/
theorem init (nothing : ∀ h, held h = []) (dead : ∀ a, live a = false) : Owned held live mem := by
  refine ⟨fun _ => none, ?_, ?_, ?_, ?_⟩
  · intro h
    rw [nothing]
    exact List.nodup_nil
  · intro a h
    simp [nothing]
  · intro a
    simp [dead]
  · intro h a v mine
    rw [nothing] at mine
    cases mine

/-- A step that moves no block. -/
theorem same (owned : Owned held live mem) (unmoved : ∀ h, held' h = held h) :
    Owned held' live mem := by
  rwa [show held' = held from funext unmoved]

variable [DecidableEq η] [DecidableEq α]

theorem allocate (owned : Owned held live mem) (h : η) {a : α} {v : ν} {c : Option ν}
    (fresh : live a = false) (filled : ∀ w, c = some w → v = w)
    (here : (held' h).Perm ((a, c) :: held h)) (others : ∀ k, k ≠ h → held' k = held k) :
    Owned held' (update live a true) (update mem a v) := by
  obtain ⟨owner, byOwner⟩ := owned
  have nobody : ∀ k, a ∉ (held k).map Prod.fst := by
    intro k mine
    have used := (byOwner.live_iff a).mpr ⟨k, (byOwner.owner_iff a k).mpr mine⟩
    rw [fresh] at used
    cases used
  have addresses : ((held' h).map Prod.fst).Perm (a :: (held h).map Prod.fst) := here.map Prod.fst
  refine ⟨update owner a (some h), ?_, ?_, ?_, ?_⟩
  · intro k
    by_cases me : k = h
    · subst me
      exact addresses.nodup_iff.mpr (List.nodup_cons.mpr ⟨nobody k, byOwner.once k⟩)
    · rw [others k me]
      exact byOwner.once k
  · intro b k
    by_cases new : b = a
    · subst new
      rw [Function.update_self]
      by_cases me : k = h
      · subst me
        exact ⟨fun _ => addresses.mem_iff.mpr (List.mem_cons_self ..), fun _ => rfl⟩
      · rw [others k me]
        exact ⟨fun eq => absurd (Option.some.inj eq).symm me, fun mine => absurd mine (nobody k)⟩
    · rw [Function.update_of_ne new, byOwner.owner_iff]
      by_cases me : k = h
      · subst me
        rw [addresses.mem_iff, List.mem_cons, or_iff_right new]
      · rw [others k me]
  · intro b
    by_cases new : b = a
    · subst new
      simp
    · rw [Function.update_of_ne new, Function.update_of_ne new]
      exact byOwner.live_iff b
  · intro k b w mine
    by_cases me : k = h
    · subst me
      rcases List.mem_cons.mp (here.mem_iff.mp mine) with eq | old
      · obtain ⟨rfl, rfl⟩ := Prod.mk.inj eq
        rw [Function.update_self]
        exact filled w rfl
      · have other : b ≠ a := fun eq => nobody k (eq ▸ List.mem_map_of_mem old)
        rw [Function.update_of_ne other]
        exact byOwner.content k b w old
    · rw [others k me] at mine
      have other : b ≠ a := fun eq => nobody k (eq ▸ List.mem_map_of_mem mine)
      rw [Function.update_of_ne other]
      exact byOwner.content k b w mine

omit [DecidableEq η] in
/-- A holder stores into its block, and relies on what it has stored. -/
theorem store (owned : Owned held live mem) (h : η) {a : α} {v : ν} {c : Option ν}
    {rest : List (Block α ν)} (before : (held h).Perm ((a, c) :: rest))
    (after : (held' h).Perm ((a, some v) :: rest)) (others : ∀ k, k ≠ h → held' k = held k) :
    Owned held' live (update mem a v) := by
  obtain ⟨owner, byOwner⟩ := owned
  have addresses : ((held' h).map Prod.fst).Perm ((held h).map Prod.fst) :=
    (after.map Prod.fst).trans (before.map Prod.fst).symm
  have mine : owner a = some h :=
    (byOwner.owner_iff a h).mpr ((before.map Prod.fst).mem_iff.mpr (List.mem_cons_self ..))
  have once : (a :: rest.map Prod.fst).Nodup := (before.map Prod.fst).nodup_iff.mp (byOwner.once h)
  refine ⟨owner, ?_, ?_, byOwner.live_iff, ?_⟩
  · intro k
    by_cases me : k = h
    · subst me
      exact addresses.nodup_iff.mpr (byOwner.once k)
    · rw [others k me]
      exact byOwner.once k
  · intro b k
    rw [byOwner.owner_iff]
    by_cases me : k = h
    · subst me
      exact addresses.mem_iff.symm
    · rw [others k me]
  · intro k b w has
    by_cases me : k = h
    · subst me
      rcases List.mem_cons.mp (after.mem_iff.mp has) with new | old
      · obtain ⟨rfl, value⟩ := Prod.mk.inj new
        rw [Function.update_self]
        exact (Option.some.inj value).symm
      · have other : b ≠ a := fun eq =>
          (List.nodup_cons.mp once).1 (eq ▸ List.mem_map_of_mem old)
        rw [Function.update_of_ne other]
        exact byOwner.content k b w (before.mem_iff.mpr (List.mem_cons_of_mem _ old))
    · rw [others k me] at has
      have other : b ≠ a := by
        rintro rfl
        have yours := (byOwner.owner_iff b k).mpr (List.mem_map_of_mem has)
        rw [mine] at yours
        exact me (Option.some.inj yours).symm
      rw [Function.update_of_ne other]
      exact byOwner.content k b w has

theorem release (owned : Owned held live mem) (h : η) {a : α} {c : Option ν}
    (here : (held h).Perm ((a, c) :: held' h)) (others : ∀ k, k ≠ h → held' k = held k) :
    Owned held' (update live a false) mem := by
  obtain ⟨owner, byOwner⟩ := owned
  have addresses : ((held h).map Prod.fst).Perm (a :: (held' h).map Prod.fst) := here.map Prod.fst
  have mine : owner a = some h :=
    (byOwner.owner_iff a h).mpr (addresses.mem_iff.mpr (List.mem_cons_self ..))
  have once := List.nodup_cons.mp (addresses.nodup_iff.mp (byOwner.once h))
  refine ⟨update owner a none, ?_, ?_, ?_, ?_⟩
  · intro k
    by_cases me : k = h
    · subst me
      exact once.2
    · rw [others k me]
      exact byOwner.once k
  · intro b k
    by_cases gone : b = a
    · subst gone
      rw [Function.update_self]
      refine ⟨nofun, fun has => ?_⟩
      by_cases me : k = h
      · subst me
        exact absurd has once.1
      · rw [others k me, ← byOwner.owner_iff, mine] at has
        exact absurd (Option.some.inj has).symm me
    · rw [Function.update_of_ne gone, byOwner.owner_iff]
      by_cases me : k = h
      · subst me
        rw [addresses.mem_iff, List.mem_cons, or_iff_right gone]
      · rw [others k me]
  · intro b
    by_cases gone : b = a
    · subst gone
      simp
    · rw [Function.update_of_ne gone, Function.update_of_ne gone]
      exact byOwner.live_iff b
  · intro k b w has
    by_cases me : k = h
    · subst me
      exact byOwner.content k b w (here.mem_iff.mpr (List.mem_cons_of_mem _ has))
    · rw [others k me] at has
      exact byOwner.content k b w has

/-- A holder hands a block to another one. -/
theorem transfer (owned : Owned held live mem) (h h' : η) (ne : h ≠ h') {p : Block α ν}
    (here : (held h).Perm (p :: held' h)) (there : (held' h').Perm (p :: held h'))
    (others : ∀ k, k ≠ h → k ≠ h' → held' k = held k) : Owned held' live mem := by
  obtain ⟨owner, byOwner⟩ := owned
  have left : ((held h).map Prod.fst).Perm (p.1 :: (held' h).map Prod.fst) := here.map Prod.fst
  have right : ((held' h').map Prod.fst).Perm (p.1 :: (held h').map Prod.fst) := there.map Prod.fst
  have mine : owner p.1 = some h :=
    (byOwner.owner_iff _ h).mpr (left.mem_iff.mpr (List.mem_cons_self ..))
  have once := List.nodup_cons.mp (left.nodup_iff.mp (byOwner.once h))
  have absent : ∀ k, k ≠ h → p.1 ∉ (held k).map Prod.fst := by
    intro k other has
    rw [← byOwner.owner_iff, mine] at has
    exact other (Option.some.inj has).symm
  refine ⟨update owner p.1 (some h'), ?_, ?_, ?_, ?_⟩
  · intro k
    by_cases me : k = h
    · subst me
      exact once.2
    · by_cases you : k = h'
      · subst you
        exact right.nodup_iff.mpr (List.nodup_cons.mpr ⟨absent k me, byOwner.once k⟩)
      · rw [others k me you]
        exact byOwner.once k
  · intro b k
    by_cases given : b = p.1
    · subst given
      rw [Function.update_self]
      by_cases you : k = h'
      · subst you
        exact ⟨fun _ => right.mem_iff.mpr (List.mem_cons_self ..), fun _ => rfl⟩
      · refine ⟨fun eq => absurd (Option.some.inj eq).symm you, fun has => ?_⟩
        by_cases me : k = h
        · subst me
          exact absurd has once.1
        · rw [others k me you] at has
          exact absurd has (absent k me)
    · rw [Function.update_of_ne given, byOwner.owner_iff]
      by_cases me : k = h
      · subst me
        rw [left.mem_iff, List.mem_cons, or_iff_right given]
      · by_cases you : k = h'
        · subst you
          rw [right.mem_iff, List.mem_cons, or_iff_right given]
        · rw [others k me you]
  · intro b
    by_cases given : b = p.1
    · subst given
      rw [Function.update_self, byOwner.live_iff]
      exact ⟨fun _ => ⟨h', rfl⟩, fun _ => ⟨h, mine⟩⟩
    · rw [Function.update_of_ne given]
      exact byOwner.live_iff b
  · intro k b w has
    by_cases me : k = h
    · subst me
      exact byOwner.content k b w (here.mem_iff.mpr (List.mem_cons_of_mem _ has))
    · by_cases you : k = h'
      · subst you
        rcases List.mem_cons.mp (there.mem_iff.mp has) with rfl | old
        · exact byOwner.content h b w (here.mem_iff.mpr (List.mem_cons_self ..))
        · exact byOwner.content k b w old
      · rw [others k me you] at has
        exact byOwner.content k b w has

end Owned

end Ownership
