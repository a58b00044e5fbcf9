import StaxFS.Inodes.Array

/-!
# No update is lost

The lock bit makes the section of `update_fn` between the compare-and-swap and the write of the first
line exclusive: the compare-and-swap expects an unlocked control word, so it fails while the bit is
set, whatever the version is, and only the write that ends the section clears the bit. The inode in
memory is therefore always the initial one with the functions of all finished sections applied, in
the order in which their calls obtained the lock.

Results:
* `UpdateInv.step`: the invariant of a step: who holds the lock and what the memory holds.
* `updates_applied_once`: when all calls have returned, the inode is the initial one with every
  function applied once, in the order of the lock, and all calls returned true.
-/

namespace StaxFS.Inodes

open Foundation List Function

section Updates

variable {L H : Type}

/-- The functions of the calls applied one after the other. -/
def applyAll (v : L × H) (calls : List (Nat × (L × H → L × H))) : L × H :=
  calls.foldl (fun v x => x.2 v) v

theorem applyAll_concat (v : L × H) (calls : List (Nat × (L × H → L × H))) (t : Nat)
    (f : L × H → L × H) : applyAll v (calls ++ [(t, f)]) = f (applyAll v calls) := by
  simp [applyAll]

namespace Pc

/-- The function of a call that holds the lock. -/
def holds : Pc L H → Option (L × H → L × H)
  | .updateLow f _ | .updateHigh f _ _ | .writeHigh f _ _ | .writeLow f _ _ => some f
  | _ => none

/-- What the memory holds while the holder of the lock stands at a place; `v` is the inode it
found. -/
def Memory (v : L × H) (low : L) (high : H) : Pc L H → Prop
  | .updateLow _ _ => (low, high) = v
  | .updateHigh _ _ l => (low, high) = v ∧ l = v.1
  | .writeHigh f _ inode => (low, high) = v ∧ inode = f v
  | .writeLow f _ inode => high = inode.2 ∧ inode = f v
  | _ => True

/-- The call has not started, or has returned. -/
def rests : Pc L H → Bool
  | .idle | .found _ | .notFound | .updated _ _ => true
  | _ => false

def Rests (pc : Pc L H) : Prop := pc.rests = true

end Pc

/-- The lock is free, or call `t` holds it. -/
inductive Holder (initial : L × H) (s : Sys L H) : Option Nat → Prop
  | none : s.control.dirty = false → (s.low, s.high) = applyAll initial s.locked →
      (∀ t, (s.calls t).holds = none) → Holder initial s none
  | some {t : Nat} {f : L × H → L × H} {before : List (Nat × (L × H → L × H))} :
      s.control.dirty = true → (s.calls t).holds = some f → s.locked = before ++ [(t, f)] →
      (s.calls t).Memory (applyAll initial before) s.low s.high →
      (∀ t', t' ≠ t → (s.calls t').holds = none) → Holder initial s (some t)

/-- What is known of call `t` at `pc`: a compare-and-swap expects an unlocked, valid control word, the
calls that obtained the lock hold it or have returned true, and no call has returned false. -/
structure CallOk (locked : List (Nat × (L × H → L × H))) (t : Nat) (pc : Pc L H) : Prop where
  expects : ∀ f old, pc = .updateCas f old → old.dirty = false ∧ old.valid = true
  mem_locked : ∀ f, (t, f) ∈ locked ↔ pc.holds = some f ∨ pc = .updated f true
  result : ∀ f, pc ≠ .updated f false

/-- What holds of every call, if it holds of the one that moved and of the others as before. -/
theorem forall_calls {P : Nat → Pc L H → Prop} {calls : Nat → Pc L H} {t : Nat} {pc : Pc L H}
    (hpc : P t pc) (h : ∀ t', t' ≠ t → P t' (calls t')) : ∀ t', P t' (update calls t pc t') :=
  (forall_update_iff calls P).mpr ⟨hpc, h⟩

structure UpdateInv (initial : L × H) (s : Sys L H) : Prop where
  valid : s.control.valid = true
  holder : ∃ t, Holder initial s t
  once : (s.locked.map Prod.fst).Nodup
  calls : ∀ t, CallOk s.locked t (s.calls t)

namespace UpdateInv

variable {initial : L × H} {s s' : Sys L H} {t : Nat} {pc : Pc L H}

theorem start (h : (inodeArray initial).start s) : UpdateInv initial s := by
  obtain ⟨hdirty, hvalid, hinit, hidle, hlocked, -⟩ := h
  refine ⟨hvalid, ⟨_, .none hdirty ?_ fun t => by rw [hidle t]; rfl⟩, ?_, fun t => ?_⟩
  · rw [hlocked]
    exact hinit
  · rw [hlocked]
    exact nodup_nil
  · rw [hlocked, hidle t]
    exact ⟨nofun, fun f => ⟨nofun, fun h => h.elim nofun nofun⟩, nofun⟩

variable {f : L × H → L × H}

section

variable (h : UpdateInv initial s)

include h

/-- Only the holder can be in the section. -/
theorem holder_of_holds (ht : (s.calls t).holds = some f) :
    s.control.dirty = true ∧ (∃ before, s.locked = before ++ [(t, f)] ∧
      (s.calls t).Memory (applyAll initial before) s.low s.high) ∧
      ∀ t', t' ≠ t → (s.calls t').holds = none := by
  obtain ⟨o, ho⟩ := h.holder
  cases ho with
  | none _ _ hnone =>
    rw [hnone t] at ht
    cases ht
  | @some t₀ f₀ before hd hf hlocked hmem hother =>
    obtain rfl : t = t₀ := by
      by_contra hne
      rw [hother t hne] at ht
      cases ht
    rw [ht] at hf
    cases hf
    exact ⟨hd, ⟨before, hlocked, hmem⟩, hother⟩

/-- A call outside the section moves on outside it. -/
theorem outside (ht : (s.calls t).holds = none)
    (hret : ∀ f b, s.calls t ≠ .updated f b) (hpc : pc.holds = none)
    (hexp : ∀ f old, pc = .updateCas f old → old.dirty = false ∧ old.valid = true)
    (hres : ∀ f b, pc ≠ .updated f b) : UpdateInv initial (s.setCall t pc) := by
  have hok : CallOk s.locked t pc := by
    refine ⟨hexp, fun f => ?_, fun f => hres f false⟩
    rw [(h.calls t).mem_locked f, ht, hpc]
    exact or_congr_right ⟨fun he => absurd he (hret f true), fun he => absurd he (hres f true)⟩
  refine ⟨h.valid, ?_, h.once, forall_calls hok fun t' _ => h.calls t'⟩
  obtain ⟨o, ho⟩ := h.holder
  cases ho with
  | none hd hv hnone =>
    exact ⟨_, .none hd hv (forall_calls (P := fun _ pc => pc.holds = none) hpc fun t' _ => hnone t')⟩
  | @some t₀ f before hd hf hlocked hmem hother =>
    have hne : t₀ ≠ t := by
      rintro rfl
      rw [ht] at hf
      cases hf
    have hsame : (s.setCall t pc).calls t₀ = s.calls t₀ := update_of_ne hne ..
    refine ⟨_, .some hd (hsame.symm ▸ hf) hlocked (hsame.symm ▸ hmem) ?_⟩
    exact forall_calls (P := fun t' pc => t' ≠ t₀ → pc.holds = none) (fun _ => hpc)
      fun t' _ => hother t'

/-- A call outside the section obtains the lock. -/
theorem lock (ht : s.calls t = .updateCas f s.control) :
    UpdateInv initial { s.setCall t (.updateLow f s.control) with
      control := makeLocked s.control, locked := s.locked ++ [(t, f)] } := by
  have hclean := ((h.calls t).expects f _ ht).1
  obtain ⟨o, ho⟩ := h.holder
  cases ho with
  | some hd _ _ _ _ =>
    rw [hclean] at hd
    cases hd
  | none _ hv hnone =>
    -- the call was not in the list: it neither held the lock nor had returned
    have hnew : ∀ f', (t, f') ∉ s.locked := by
      intro f' hm
      rcases ((h.calls t).mem_locked f').mp hm with he | he
      · rw [hnone t] at he
        cases he
      · rw [ht] at he
        cases he
    have hself : update s.calls t (.updateLow f s.control) t = .updateLow f s.control :=
      update_self ..
    refine ⟨h.valid, ⟨_, .some (t := t) rfl (congrArg Pc.holds hself) rfl ?_ ?_⟩, ?_,
      forall_calls ⟨nofun, fun f' => ?_, nofun⟩ fun t' ht' =>
        ⟨(h.calls t').expects, fun f' => ?_, (h.calls t').result⟩⟩
    · show Pc.Memory _ s.low s.high (update s.calls t _ t)
      rw [hself]
      exact hv
    · exact forall_calls (P := fun t' pc => t' ≠ t → pc.holds = none) (fun hne => absurd rfl hne)
        fun t' _ _ => hnone t'
    · rw [map_append, nodup_append]
      refine ⟨h.once, nodup_singleton _, ?_⟩
      rintro a ha b hb rfl
      obtain ⟨⟨t', f'⟩, hm, rfl⟩ := List.mem_map.mp ha
      simp only [map_cons, map_nil, mem_singleton] at hb
      exact hnew f' (hb ▸ hm)
    · simp [hnew, Pc.holds, eq_comm]
    · rw [← (h.calls t').mem_locked f']
      simp [ht']

/-- The holder moves on within the section; `high` is the second line after its access. -/
theorem inside (ht : (s.calls t).holds = some f) (hpc : pc.holds = some f) (high : H)
    (hmem : ∀ v, (s.calls t).Memory v s.low s.high → pc.Memory v s.low high) :
    UpdateInv initial { s.setCall t pc with high } := by
  obtain ⟨hd, ⟨before, hlocked, hm⟩, hother⟩ := h.holder_of_holds ht
  have hself : update s.calls t pc t = pc := update_self ..
  have hret : ∀ {pc' : Pc L H} (f' : L × H → L × H) b, pc'.holds = some f → pc' ≠ .updated f' b := by
    rintro _ f' b he rfl
    cases he
  refine ⟨h.valid, ⟨_, .some hd
    ((congrArg Pc.holds hself).trans hpc) hlocked ?_ ?_⟩, h.once,
      forall_calls ⟨?_, fun f' => ?_, fun f' => hret f' false hpc⟩ fun t' _ => h.calls t'⟩
  · show Pc.Memory _ s.low high (update s.calls t pc t)
    rw [hself]
    exact hmem _ hm
  · exact forall_calls (P := fun t' pc => t' ≠ t → pc.holds = none) (fun hne => absurd rfl hne)
      fun t' _ => hother t'
  · rintro f' old rfl
    cases hpc
  · show (t, f') ∈ s.locked ↔ _
    rw [(h.calls t).mem_locked f', ht, hpc]
    exact or_congr_right
      ⟨fun he => absurd he (hret f' true ht), fun he => absurd he (hret f' true hpc)⟩

/-- The holder writes the first line and leaves the section. -/
theorem unlock {old : Control} {inode : L × H}
    (ht : s.calls t = .writeLow f old inode) (stored : List (L × H)) :
    UpdateInv initial { s.setCall t (.updated f true) with
      control := finalControl old, low := inode.1, stored } := by
  have hholds : (s.calls t).holds = some f := by rw [ht]; rfl
  obtain ⟨-, ⟨before, hlocked, hm⟩, hother⟩ := h.holder_of_holds hholds
  rw [ht] at hm
  obtain ⟨hhigh, hinode⟩ := hm
  refine ⟨rfl, ⟨_, .none rfl ?_ (forall_calls (P := fun _ pc => pc.holds = none) rfl hother)⟩,
    h.once, forall_calls ⟨nofun, fun f' => ?_, nofun⟩ fun t' _ => h.calls t'⟩
  · show (inode.1, s.high) = applyAll initial s.locked
    rw [hlocked, applyAll_concat, ← hinode, hhigh]
  · show (t, f') ∈ s.locked ↔ _
    rw [(h.calls t).mem_locked f', ht]
    simp [Pc.holds]

end

/-- The tests on a valid control word never end an update. -/
theorem updateChecked_spec {ctrl : Control} (hv : ctrl.valid = true) :
    (updateChecked f ctrl).holds = none ∧
      (∀ g old, updateChecked f ctrl = .updateCas g old → old.dirty = false ∧ old.valid = true) ∧
      ∀ g b, updateChecked f ctrl ≠ .updated g b := by
  unfold updateChecked
  rw [if_pos hv]
  split
  · exact ⟨rfl, nofun, nofun⟩
  · rename_i hd
    refine ⟨rfl, fun g old he => ?_, nofun⟩
    cases he
    exact ⟨eq_false_of_ne_true hd, hv⟩

theorem findChecked_spec (ctrl : Control) : (findChecked ctrl : Pc L H).holds = none ∧
      (∀ g old, (findChecked ctrl : Pc L H) ≠ .updateCas g old) ∧
      ∀ g b, (findChecked ctrl : Pc L H) ≠ .updated g b := by
  unfold findChecked
  split
  · exact ⟨rfl, nofun, nofun⟩
  · split <;> exact ⟨rfl, nofun, nofun⟩

/-- **What a step keeps.** -/
theorem step (h : UpdateInv initial s) {a : Act L H}
    (hst : (inodeArray initial).step s a = some s') : UpdateInv initial s' := by
  cases ArrayStep.of_step hst with
  | find ht | update ht | findVerified ht | findAgain ht | findRest ht =>
    exact h.outside (by rw [ht]; rfl) (by rw [ht]; nofun) rfl nofun nofun
  | findStart ht =>
    obtain ⟨h1, h2, h3⟩ := findChecked_spec (L := L) (H := H) s.control
    exact h.outside (by rw [ht]; rfl) (by rw [ht]; nofun) h1 (fun f old he => absurd he (h2 f old)) h3
  | updateStart ht | updateAgain ht =>
    obtain ⟨h1, h2, h3⟩ := updateChecked_spec h.valid
    exact h.outside (by rw [ht]; rfl) (by rw [ht]; nofun) h1 h2 h3
  | lock ht => exact h.lock ht
  | updateLow ht =>
    refine h.inside (f := _) (by rw [ht]; rfl) rfl s.high fun v hm => ?_
    rw [ht] at hm
    exact ⟨hm, congrArg Prod.fst hm⟩
  | updateHigh ht =>
    refine h.inside (f := _) (by rw [ht]; rfl) rfl s.high fun v hm => ?_
    rw [ht] at hm
    obtain ⟨hv, rfl⟩ := hm
    exact ⟨hv, by rw [← hv]⟩
  | writeHigh ht =>
    refine h.inside (f := _) (by rw [ht]; rfl) rfl _ fun v hm => ?_
    rw [ht] at hm
    exact ⟨rfl, hm.2⟩
  | writeLow ht => exact h.unlock ht _

end UpdateInv

/-- **No update is lost**: when all calls have returned, the inode is the initial one with the
function of every call applied once, in the order in which the calls obtained the lock, and every
call returned true. -/
theorem updates_applied_once {initial : L × H} {s : Sys L H}
    (h : (inodeArray initial).Reach (fun _ _ => True) s) (hrest : ∀ t, (s.calls t).Rests) :
    (s.low, s.high) = applyAll initial s.locked ∧ (s.locked.map Prod.fst).Nodup ∧
      (∀ t f, (t, f) ∈ s.locked ↔ ∃ b, s.calls t = .updated f b) ∧
      ∀ t f b, s.calls t = .updated f b → b = true := by
  have hinv : UpdateInv initial s :=
    h.invariant (fun s hs => .start hs) fun s a s' _ hi _ hst => hi.step hst
  have hholds : ∀ t, (s.calls t).holds = none := by
    intro t
    have hr := hrest t
    cases hpc : s.calls t <;> rw [hpc] at hr <;> first | rfl | cases hr
  have htrue : ∀ t f b, s.calls t = .updated f b → b = true := by
    intro t f b he
    cases b with
    | true => rfl
    | false => exact absurd he ((hinv.calls t).result f)
  refine ⟨?_, hinv.once, fun t f => ?_, htrue⟩
  · obtain ⟨o, ho⟩ := hinv.holder
    cases ho with
    | none _ hv _ => exact hv
    | some _ hf _ _ _ =>
      rw [hholds] at hf
      cases hf
  · rw [(hinv.calls t).mem_locked, hholds]
    constructor
    · rintro (he | he)
      · cases he
      · exact ⟨true, he⟩
    · rintro ⟨b, he⟩
      exact .inr (htrue t f b he ▸ he)

/-- A slot that holds (0, 0). -/
def zeroSlot : Sys Nat Nat := ⟨⟨false, 0, 0, true⟩, 0, 0, fun _ => .idle, [], [(0, 0)]⟩

theorem zeroSlot_start : (inodeArray (0, 0)).start zeroSlot :=
  ⟨rfl, rfl, rfl, fun _ => rfl, rfl, rfl⟩

def addOne (v : Nat × Nat) : Nat × Nat := (v.1 + 1, v.2 + 1)

def double (v : Nat × Nat) : Nat × Nat := (2 * v.1, 2 * v.2)

/-- Two updates meet: the second one's compare-and-swap fails, and it waits for the first. -/
def meetingUpdates : List (Act Nat Nat) :=
  [.update 0 addOne, .update 1 double, .step 0, .step 1, .step 0, .step 1, .step 1, .step 0, .step 0,
    .step 0, .step 0, .step 1, .step 1, .step 1, .step 1, .step 1, .step 1]

/-- Both updates are applied, in the order of the lock. -/
theorem updates_applied_once_meeting :
    ∃ s, (inodeArray (0, 0)).Reach (fun _ _ => True) s ∧ (∀ t, (s.calls t).Rests) ∧
      s.locked.map Prod.fst = [0, 1] ∧ (s.low, s.high) = (2, 2) ∧
      (s.low, s.high) = applyAll (0, 0) s.locked := by
  have hrun : ((inodeArray (0, 0)).runLabels meetingUpdates zeroSlot).map (fun s =>
      ((s.calls 0).rests, (s.calls 1).rests, s.locked.map Prod.fst, s.low, s.high)) =
      some (true, true, [0, 1], 2, 2) := by
    decide +kernel
  obtain ⟨s, hs, he⟩ := Option.map_eq_some_iff.mp hrun
  simp only [Prod.mk.injEq] at he
  obtain ⟨h0, h1, hlocked, hlow, hhigh⟩ := he
  have hreach : (inodeArray (0, 0)).Reach (fun _ _ => True) s :=
    System.reach_runLabels zeroSlot_start (fun _ _ _ => trivial) hs
  have hrest : ∀ t, (s.calls t).Rests := by
    intro t
    by_cases ht : t < 2
    · have hcases : t = 0 ∨ t = 1 := by omega
      rcases hcases with rfl | rfl
      · exact h0
      · exact h1
    · have hidle : s.calls t = .idle := by
        refine idle_of_runLabels (fun a ha => ?_) rfl hs
        simp only [meetingUpdates, mem_cons, not_mem_nil, or_false] at ha
        rcases ha with h | h | h | h | h | h | h | h | h | h | h | h | h | h | h | h | h <;>
          subst h <;> simp only [Act.call] <;> omega
      rw [hidle]
      rfl
  exact ⟨s, hreach, hrest, hlocked, by rw [hlow, hhigh],
    (updates_applied_once hreach hrest).1⟩

end Updates

end StaxFS.Inodes
