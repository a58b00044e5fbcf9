import StaxFS.Client.Files

/-!
# Descriptor numbers

`FdManager` of `client/file_descriptor.cc`. A released number shrinks the range of numbers in use if
it is the last one, and goes to the pool otherwise. An entry of `fd_map_` is a number and an inode;
its other fields have their defaults. The counter is an `int`, which wraps.

Results:
* `fds_unique`: as long as the counter does not pass `INT_MAX`, the open numbers and the pooled ones
  are apart and make up the range from the first descriptor to the counter, and an allocation returns
  a number that is not open.
* `fds_wrap`: a client that opens files until the counter wraps has open numbers outside the range.
-/

namespace StaxFS.Client

open StaxFS.Foundation List
open Function (update update_apply)

/-- `kDfsMagicFdPrefix`. -/
def kDfsMagicFdPrefix : Int := 0x0fff0000

structure FdManager (I : Type) where
  fdPool : List Int
  minFreeFd : Int
  fdMap : Int → Option (Int × I)

namespace FdManager

variable {I : Type}

def new : FdManager I := ⟨[], kDfsMagicFdPrefix, fun _ => none⟩

def allocateFd (m : FdManager I) (inode : I) : Int × FdManager I :=
  match m.fdPool with
  | [] => (m.minFreeFd, ⟨[], toInt (m.minFreeFd + 1),
      update m.fdMap m.minFreeFd (some (m.minFreeFd, inode))⟩)
  | fd :: pool => (fd, ⟨pool, m.minFreeFd, update m.fdMap fd (some (fd, inode))⟩)

def releaseFd (m : FdManager I) (fd : Int) : Int × FdManager I :=
  if m.fdMap fd = none then (-1, m)
  else if fd = toInt (m.minFreeFd - 1) then
    (0, ⟨m.fdPool, toInt (m.minFreeFd - 1), update m.fdMap fd none⟩)
  else (0, ⟨m.fdPool ++ [fd], m.minFreeFd, update m.fdMap fd none⟩)

/-- The open numbers and the pooled ones, duplicate-free and apart, are the range from the first
descriptor to the counter. -/
structure Unique (m : FdManager I) : Prop where
  nodup : m.fdPool.Nodup
  apart : ∀ fd ∈ m.fdPool, m.fdMap fd = none
  range : ∀ fd, m.fdMap fd ≠ none ∨ fd ∈ m.fdPool ↔ kDfsMagicFdPrefix ≤ fd ∧ fd < m.minFreeFd

/-- The invariant: the counter is an `int` that has not wrapped. -/
structure Inv (m : FdManager I) : Prop extends m.Unique where
  le : kDfsMagicFdPrefix ≤ m.minFreeFd
  lt : m.minFreeFd < 2 ^ 31

end FdManager

inductive FdCall (I : Type)
  | allocateFd (inode : I)
  | releaseFd (fd : Int)

def FdManager.call {I : Type} (m : FdManager I) : FdCall I → FdManager I
  | .allocateFd inode => (m.allocateFd inode).2
  | .releaseFd fd => (m.releaseFd fd).2

/-- All sequences of calls. -/
def fdCalls (I : Type) : System (FdManager I) (FdCall I) where
  start m := m = .new
  step m c := some (m.call c)

/-- The counter does not pass `INT_MAX`. -/
def FitsFd {I : Type} (m : FdManager I) : FdCall I → Prop
  | .allocateFd _ => m.fdPool = [] → m.minFreeFd + 1 < 2 ^ 31
  | .releaseFd _ => True

section Calls

variable {I : Type} {m m' : FdManager I}

theorem toInt_eq {x : Int} (h : -2 ^ 31 ≤ x) (h' : x < 2 ^ 31) : toInt x = x := by
  rw [toInt, Int.bmod_def]
  split <;> omega

theorem FdManager.Inv.allocate (h : m.Inv) {inode : I} (hok : FitsFd m (.allocateFd inode)) :
    (m.allocateFd inode).2.Inv := by
  obtain ⟨⟨hnodup, hapart, hrange⟩, hle, hlt⟩ := h
  obtain ⟨pool, last, map⟩ := m
  cases pool with
  | nil =>
    have hnext : toInt (last + 1) = last + 1 :=
      toInt_eq (by simp only [kDfsMagicFdPrefix] at hle; omega) (hok rfl)
    simp only [allocateFd, hnext]
    refine ⟨⟨nodup_nil, forall_mem_nil _, fun fd => ?_⟩, Int.le_add_one hle, hok rfl⟩
    have hfd := hrange fd
    grind
  | cons fd pool =>
    obtain ⟨hfd, hnodup⟩ := nodup_cons.mp hnodup
    refine ⟨⟨hnodup, fun x hx => ?_, fun x => ?_⟩, hle, hlt⟩
    · have hne : x ≠ fd := fun he => hfd (he ▸ hx)
      exact (Function.update_of_ne hne ..).trans (hapart x (mem_cons_of_mem _ hx))
    · have hx := hrange x
      simp only [allocateFd, update_apply]
      grind

theorem FdManager.Inv.release (h : m.Inv) (fd : Int) : (m.releaseFd fd).2.Inv := by
  by_cases hnone : m.fdMap fd = none
  · rw [releaseFd, if_pos hnone]
    exact h
  obtain ⟨⟨hnodup, hapart, hrange⟩, hle, hlt⟩ := h
  -- an open number is in the range and not in the pool
  obtain ⟨hfirst, hlast⟩ := (hrange fd).mp (.inl hnone)
  have hnot : fd ∉ m.fdPool := fun hmem => hnone (hapart fd hmem)
  have hend : toInt (m.minFreeFd - 1) = m.minFreeFd - 1 :=
    toInt_eq (by simp only [kDfsMagicFdPrefix] at hle; omega) (by omega)
  rw [releaseFd, if_neg hnone, hend]
  split
  · refine ⟨⟨hnodup, fun x hx => ?_, fun x => ?_⟩, by simp only; omega, by simp only; omega⟩
    · have hne : x ≠ fd := fun he => hnot (he ▸ hx)
      exact (Function.update_of_ne hne ..).trans (hapart x hx)
    · have hx := hrange x
      grind
  · refine ⟨⟨?_, fun x hx => ?_, fun x => ?_⟩, hle, hlt⟩
    · exact nodup_append'.mpr ⟨hnodup, nodup_singleton fd, by simpa using hnot⟩
    · have hx' := hapart x
      grind
    · have hx := hrange x
      grind

theorem fdInv (h : (fdCalls I).Reach FitsFd m) : m.Inv := by
  refine h.invariant (fun m hm => ?_) fun m c m' _ hi hok hst => ?_
  · rw [show m = .new from hm]
    exact ⟨⟨nodup_nil, forall_mem_nil _, fun fd => by simp [FdManager.new]⟩, le_rfl,
      (by decide : kDfsMagicFdPrefix < 2 ^ 31)⟩
  · cases hst
    cases c with
    | allocateFd inode => exact hi.allocate hok
    | releaseFd fd => exact hi.release fd

/-- **Descriptor numbers are unique**, unless the counter passes `INT_MAX`. -/
theorem fds_unique (h : (fdCalls I).Reach FitsFd m) :
    m.Unique ∧ ∀ inode, m.fdMap (m.allocateFd inode).1 = none := by
  have hinv := fdInv h
  refine ⟨hinv.toUnique, fun inode => ?_⟩
  unfold FdManager.allocateFd
  split
  · by_contra hopen
    exact lt_irrefl _ ((hinv.range _).mp (.inl hopen)).2
  · rename_i fd pool hpool
    exact hinv.apart fd (hpool ▸ mem_cons_self)

end Calls

/-- Two files are opened and the first closed; the next one gets its number. -/
theorem fds_unique_reused : ∃ m : FdManager Unit, (fdCalls Unit).Reach FitsFd m ∧
    m.fdPool = [kDfsMagicFdPrefix] ∧ (m.allocateFd ()).1 = kDfsMagicFdPrefix ∧
    m.fdMap kDfsMagicFdPrefix = none := by
  have hreach : (fdCalls Unit).Reach FitsFd (((FdManager.new.call (.allocateFd ())).call
      (.allocateFd ())).call (.releaseFd kDfsMagicFdPrefix)) :=
    .step (.step (.step (.start rfl) (fun _ => by decide) rfl) (fun _ => by decide) rfl) (by trivial) rfl
  exact ⟨_, hreach, rfl, rfl, (fds_unique hreach).2 ()⟩

/-- As many files are opened as there are numbers. -/
theorem reach_allocated (n : Nat) (hn : kDfsMagicFdPrefix + n < 2 ^ 31) :
    ∃ m : FdManager Unit, (fdCalls Unit).Reach (fun _ _ => True) m ∧ m.fdPool = [] ∧
      m.minFreeFd = kDfsMagicFdPrefix + n := by
  induction n with
  | zero => exact ⟨.new, .start rfl, rfl, rfl⟩
  | succ n ih =>
    obtain ⟨⟨pool, last, map⟩, hreach, rfl, rfl⟩ := ih (by omega)
    have hlast : toInt (kDfsMagicFdPrefix + n + 1) = kDfsMagicFdPrefix + n + 1 :=
      toInt_eq (by simp only [kDfsMagicFdPrefix]; omega) (by push_cast at hn; omega)
    refine ⟨_, hreach.step (a := .allocateFd ()) trivial rfl, rfl, ?_⟩
    simp only [FdManager.call, FdManager.allocateFd, hlast]
    push_cast
    ring

/-- **The counter wraps** when all numbers up to `INT_MAX` are open: the last one is then not below
the counter. -/
theorem fds_wrap : ∃ m : FdManager Unit, (fdCalls Unit).Reach (fun _ _ => True) m ∧
    m.minFreeFd = -2 ^ 31 ∧ m.fdMap (2 ^ 31 - 1) ≠ none ∧ ¬m.Unique := by
  obtain ⟨⟨pool, last, map⟩, hreach, rfl, rfl⟩ := reach_allocated 0x7000ffff (by decide)
  have hlast : kDfsMagicFdPrefix + (0x7000ffff : Nat) = 2 ^ 31 - 1 := by decide
  have hwrap : toInt (2 ^ 31 - 1 + 1) = -2 ^ 31 := by simp [toInt, Int.bmod_def]
  rw [hlast] at hreach
  have hopen : (FdManager.call ⟨[], 2 ^ 31 - 1, map⟩ (.allocateFd ())).fdMap (2 ^ 31 - 1) ≠ none := by
    simp [FdManager.call, FdManager.allocateFd]
  refine ⟨_, hreach.step (a := .allocateFd ()) trivial rfl, hwrap, hopen, fun hu => ?_⟩
  exact absurd (((hu.range _).mp (.inl hopen)).2.trans_eq hwrap) (by decide)

end StaxFS.Client
