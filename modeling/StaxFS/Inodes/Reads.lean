import StaxFS.Inodes.Updates

/-!
# Reads and torn inodes

`find` reads the control word, then the whole slot, and compares the control word of the second read
with the first. The second read takes the first line before the second one, so the comparison says
nothing about what happens between the two lines: an `update_fn` that sets the lock and writes the
second line there is not noticed, and `find` returns the first line of one inode with the second line
of another. Reading the control word once more behind the second line would notice it.

Results:
* `find_complete`: a `find` returns an inode that was stored, if the first line in memory is still
  the one it has read whenever it reads the second line.
* `find_torn`: without the condition a `find` returns a mix of two inodes.
-/

namespace StaxFS.Inodes

open Foundation List

section Reads

variable {L H : Type}

/-- **When reads are not torn**: when a `find` reads the second line, the first line in memory is the
one it has read. -/
def FirstLineStands (s : Sys L H) : Act L H → Prop
  | .step t => ∀ before low, s.calls t = .findRest before low → s.control = before ∧ s.low = low
  | _ => True

/-- The control word a `find` has verified, and the inode it has returned. -/
def Pc.verified : Pc L H → Option Control
  | .findVerify before | .findRest before _ => some before
  | _ => none

def Pc.returned : Pc L H → Option (L × H)
  | .found inode => some inode
  | _ => none

/-- Every inode a `find` has returned was stored, and an unlocked slot holds a stored inode. -/
structure ReadInv (s : Sys L H) : Prop where
  whole : s.control.dirty = false → (s.low, s.high) ∈ s.stored
  verified : ∀ t before, (s.calls t).verified = some before → before.dirty = false
  found : ∀ t inode, (s.calls t).returned = some inode → inode ∈ s.stored

namespace ReadInv

variable {initial : L × H} {s s' : Sys L H} {t : Nat} {pc : Pc L H}

theorem start (h : (inodeArray initial).start s) : ReadInv s := by
  obtain ⟨-, -, hinit, hidle, -, hstored⟩ := h
  refine ⟨fun _ => ?_, fun t before ht => ?_, fun t inode ht => ?_⟩
  · rw [hinit, hstored]
    exact mem_singleton_self _
  all_goals
    rw [hidle t] at ht
    cases ht

/-- A call moves on; the slot may be written, and the stored inodes can only get more. -/
theorem move (h : ReadInv s) {control : Control} {low : L} {high : H}
    {locked : List (Nat × (L × H → L × H))} {stored : List (L × H)} (hstored : s.stored ⊆ stored)
    (hwhole : control.dirty = false → (low, high) ∈ stored)
    (hverified : ∀ before, pc.verified = some before → before.dirty = false)
    (hfound : ∀ inode, pc.returned = some inode → inode ∈ stored) :
    ReadInv ⟨control, low, high, Function.update s.calls t pc, locked, stored⟩ where
  whole := hwhole
  verified := forall_calls (P := fun _ pc => ∀ before, pc.verified = some before →
    before.dirty = false) hverified fun t' _ => h.verified t'
  found := forall_calls (P := fun _ pc => ∀ inode, pc.returned = some inode → inode ∈ stored)
    hfound fun t' _ inode ht => hstored (h.found t' inode ht)

/-- A call moves on and leaves the slot alone. -/
theorem setCall (h : ReadInv s)
    (hverified : ∀ before, pc.verified = some before → before.dirty = false)
    (hfound : ∀ inode, pc.returned = some inode → inode ∈ s.stored) : ReadInv (s.setCall t pc) :=
  h.move (List.Subset.refl _) h.whole hverified hfound

theorem findChecked_spec (ctrl : Control) :
    (∀ before, (findChecked ctrl : Pc L H).verified = some before → before.dirty = false) ∧
      (findChecked ctrl : Pc L H).returned = none := by
  unfold findChecked
  split
  · exact ⟨nofun, rfl⟩
  · rename_i hd
    split
    · refine ⟨fun before he => ?_, rfl⟩
      cases he
      exact eq_false_of_ne_true hd
    · exact ⟨nofun, rfl⟩

theorem updateChecked_spec (f : L × H → L × H) (ctrl : Control) :
    (updateChecked f ctrl).verified = none ∧ (updateChecked f ctrl).returned = none := by
  unfold updateChecked
  split
  · exact ⟨rfl, rfl⟩
  · split <;> exact ⟨rfl, rfl⟩

/-- **What a step keeps.** -/
theorem step (h : ReadInv s) (hu : UpdateInv initial s) {a : Act L H} (hok : FirstLineStands s a)
    (hst : (inodeArray initial).step s a = some s') : ReadInv s' := by
  have hnone : ∀ {pc : Pc L H}, pc.verified = none →
      ∀ before, pc.verified = some before → before.dirty = false := fun h1 before h2 => by
    rw [h1] at h2
    cases h2
  have hnot : ∀ {pc : Pc L H}, pc.returned = none →
      ∀ inode, pc.returned = some inode → inode ∈ s.stored := fun h1 inode h2 => by
    rw [h1] at h2
    cases h2
  cases ArrayStep.of_step hst with
  | findStart _ =>
    obtain ⟨h1, h2⟩ := findChecked_spec (L := L) (H := H) s.control
    exact h.setCall h1 (hnot h2)
  | @findVerified t ht =>
    refine h.setCall (fun before he => ?_) nofun
    cases he
    exact h.verified t _ (by rw [ht]; rfl)
  | @findRest t before low ht =>
    refine h.setCall nofun fun inode he => ?_
    cases he
    -- the first line in memory is the one read, so the slot is unlocked and whole
    obtain ⟨rfl, rfl⟩ := hok before low ht
    exact h.whole (h.verified t _ (by rw [ht]; rfl))
  | @updateStart t f _ | @updateAgain t f old _ =>
    obtain ⟨h1, h2⟩ := updateChecked_spec f s.control
    exact h.setCall (hnone h1) (hnot h2)
  | lock _ => exact h.move (List.Subset.refl _) nofun nofun nofun
  | @writeHigh t f old inode ht =>
    -- the slot is locked
    obtain ⟨hd, -⟩ := hu.holder_of_holds (t := t) (f := f) (by rw [ht]; rfl)
    exact h.move (List.Subset.refl _) (fun hd' => Bool.noConfusion (hd.symm.trans hd')) nofun nofun
  | @writeLow t f old inode ht =>
    obtain ⟨-, ⟨before, -, hm⟩, -⟩ := hu.holder_of_holds (t := t) (f := f) (by rw [ht]; rfl)
    rw [ht] at hm
    refine h.move (subset_append_left _ _) (fun _ => mem_append_right _ ?_) nofun nofun
    exact mem_singleton.mpr (Prod.ext rfl hm.1)
  | _ => exact h.setCall nofun nofun

end ReadInv

/-- **A `find` returns an inode that was stored**, in every run in which the first line is still the
one it has read whenever a `find` reads the second line. -/
theorem find_complete {initial : L × H} {s : Sys L H}
    (h : (inodeArray initial).Reach FirstLineStands s) {t : Nat} {inode : L × H}
    (ht : s.calls t = .found inode) : inode ∈ s.stored := by
  have hinv : UpdateInv initial s ∧ ReadInv s :=
    h.invariant (I := fun s => UpdateInv initial s ∧ ReadInv s) (fun s hs => ⟨.start hs, .start hs⟩)
      fun s a s' _ hi hok hst => ⟨hi.1.step hst, hi.2.step hi.1 hok hst⟩
  exact hinv.2.found t inode (by rw [ht]; rfl)

/-- A `find` meets an update: it starts again while the slot is locked. -/
def findAgain : List (Act Nat Nat) :=
  [.find 0, .step 0, .update 1 addOne, .step 1, .step 1, .step 0, .step 0, .step 1, .step 1, .step 1,
    .step 1, .step 0, .step 0, .step 0]

/-- The condition is met, and the `find` returns the new inode. -/
theorem find_complete_findAgain :
    ∃ s, (inodeArray (0, 0)).Reach FirstLineStands s ∧ s.calls 0 = .found (1, 1) ∧
      (1, 1) ∈ s.stored := by
  have hrun : ((inodeArray (0, 0)).runChecked (fun s a => match a with
      | .step t => match s.calls t with
        | .findRest before low => decide (s.control = before ∧ s.low = low)
        | _ => true
      | _ => true) findAgain zeroSlot).map (fun s => (s.calls 0).returned) =
      some (some (1, 1)) := by
    decide +kernel
  obtain ⟨s, hs, he⟩ := Option.map_eq_some_iff.mp hrun
  have hreach : (inodeArray (0, 0)).Reach FirstLineStands s := by
    refine (System.Reach.start zeroSlot_start).steps
      (System.steps_runChecked_of (I := fun _ => True) (fun x a y _ htest _ => ⟨?_, trivial⟩)
        trivial hs)
    cases a with
    | step t =>
      intro before low ht
      simp only [ht] at htest
      exact of_decide_eq_true htest
    | _ => trivial
  have hfound : s.calls 0 = .found (1, 1) := by
    cases hpc : s.calls 0 <;> rw [hpc] at he <;> cases he
    rfl
  exact ⟨s, hreach, hfound, find_complete hreach hfound⟩

/-- An update locks the slot and writes the second line after the `find` has read the first line for
the second time. -/
def updateBetweenLines : List (Act Nat Nat) :=
  [.find 0, .step 0, .step 0, .update 1 addOne, .step 1, .step 1, .step 1, .step 1, .step 1, .step 0,
    .step 1]

/-- **A `find` can return a mix of two inodes.** -/
theorem find_torn :
    ∃ s : Sys Nat Nat, (inodeArray (0, 0)).Reach (fun _ _ => True) s ∧
      ∃ inode, s.calls 0 = .found inode ∧ inode ∉ s.stored := by
  refine System.exists_reach_of_labels (l := updateBetweenLines)
    (Q := fun s => (s.calls 0).returned = some (0, 1) ∧ s.stored = [(0, 0), (1, 1)]) zeroSlot_start
    (fun _ _ _ => trivial) (by decide +kernel) fun s _ hs => ⟨(0, 1), ?_, ?_⟩
  · have h1 := hs.1
    cases hpc : s.calls 0 <;> rw [hpc] at h1 <;> cases h1
    rfl
  · rw [hs.2]
    decide

end Reads

end StaxFS.Inodes
