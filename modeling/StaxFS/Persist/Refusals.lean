import StaxFS.Listing.Concurrent
import StaxFS.Persist.Records
import StaxFS.Persist.RingSafety

/-!
# When a log reports that it is full

The room tests of `TryReserveSlots` (`server/compact_wal.h`) and of `TryAppendPartial`
(`server/cxl_persistence.h`). Both load `head_` once, load `checkpoint_pos_` later and subtract. A call
that is overtaken has a head behind the checkpoint: the difference wraps, and the call is told that
the log is full, whatever is in it.

Results:
* `full_is_full`: a call that is refused, and whose head (with its slots) is not behind the
  checkpoint, is refused by a log that is full at this moment.
* `overtaken_call_refused`: both logs refuse a call while there was room for it all the time.
-/

namespace StaxFS.Persist

open Foundation Wal Dent

variable {c : Config}

/-- The head an append call works with is one that was there. -/
theorem loaded_le_head {s : Sys} (h : (system c).Reach (fun _ _ => True) s) (t : Nat)
    (req : LogRequest) (cur : Nat) (ht : s.apps t = .loaded req cur) : cur ≤ s.head := by
  refine h.invariant (I := fun s => ∀ t req cur, s.apps t = .loaded req cur → cur ≤ s.head)
    ?_ ?_ t req cur ht
  · rintro s ⟨dent, -, rfl⟩ t req cur ht
    cases ht
  · intro s a s' _ hi _ hst t' req cur ht'
    change Wal.step c s a = some s' at hst
    cases Step.of_step hst with
    | @app t _ _ _ happ =>
      by_cases hne : t' = t
      · subst hne
        cases happ with
        | seqZero hpc | crash => exact hi t' req cur ht'
        | _ =>
          -- the call has a head only after `begin` and after a lost exchange
          simp only [Sys.setApp, Function.update_self] at ht'
          cases ht' <;> exact Nat.le_refl _
      · rw [(happ.other hne).1] at ht'
        exact (hi t' req cur ht').trans (head_le_step hst)
    | ckpt hck => cases hck <;> exact hi t' req cur ht'
    | list hl => cases hl <;> exact hi t' req cur ht'

/-- A difference that does not wrap below zero is at least the 64-bit one. -/
theorem subU64_le {a b : Nat} (h : b ≤ a) : subU64 a b ≤ a - b := by
  unfold subU64
  omega

/-- **A log is reported full only when it is**, as long as the call has not been overtaken by the
checkpoint: when the test of call `t` fails, the slots in use and those asked for reach the capacity
(in the remote log: those in use reach the capacity less one). -/
theorem full_is_full (c : Config) :
    (∀ (s s' : Sys) (t : Nat) (req : LogRequest), (system c).Reach (fun _ _ => True) s →
      (system c).step s (.app t .loadCheckpoint) = some s' → s'.apps t = .full req →
      ∃ cur, s.apps t = .loaded req cur ∧
        (s.cp ≤ cur + req.slots → s.cp + c.capacity ≤ s.head + req.slots)) ∧
    ∀ (x x' : RemoteSys) (t : Nat), (remoteRing c).Reach (fun _ _ => True) x →
      (remoteRing c).step x (.loadCheckpoint t) = some x' → x'.calls t = .full →
      ∃ changes cur, x.calls t = .loaded changes cur ∧
        (x.cp ≤ cur → x.cp + (c.capacity - 1) ≤ x.head) := by
  refine ⟨fun s s' t req hr hst hfull => ?_, fun x x' t hr hst hfull => ?_⟩
  · change Wal.step c s (.app t .loadCheckpoint) = some s' at hst
    cases Step.of_step hst with
    | app _ happ =>
      cases happ with
      | room => simp [Sys.setApp] at hfull
      | @noRoom req' cur hpc hroom =>
        simp only [Sys.setApp, Function.update_self, AppendPc.full.injEq] at hfull
        subst hfull
        refine ⟨cur, hpc, fun hcp => ?_⟩
        have hcur := loaded_le_head hr t req' cur hpc
        have hle := subU64_le hcp
        simp only [hasRoom, decide_eq_false_iff_not] at hroom
        omega
  · change remoteStep c x (.loadCheckpoint t) = some x' at hst
    simp only [remoteStep] at hst
    split at hst
    · rename_i changes cur hpc
      have hok := (RemoteInv.of_reach hr).ok t
      rw [hpc] at hok
      refine ⟨changes, cur, hpc, fun hcp => ?_⟩
      have hle := subU64_le hcp
      unfold takeOf at hst
      split at hst
      · cases hst
        simp [RemoteSys.setCall] at hfull
      · rename_i htake
        split at htake
        · have := hok.2
          omega
        · cases htake
    · cases hst

/-- Append call `t` up to the loads of its room test. -/
def reserveLabels (t : Nat) : List Act :=
  [.app t (.begin (.setattr 7 0o644)), .app t .loadCheckpoint]

/-- Three records in the main log with four slots, and a fourth call; three changes in the remote
log, and a second call. -/
theorem full_is_full_three :
    (∃ s, (system fourSlots).Reach (fun _ _ => True) s ∧
      s.apps 3 = .loaded (.setattr 7 0o644) 3 ∧ s.cp + 4 ≤ s.head + 1) ∧
    ∃ x, (remoteRing fourSlots).Reach (fun _ _ => True) x ∧
      x.calls 1 = .loaded [someChange] 3 ∧ x.cp + 3 ≤ x.head := by
  constructor
  · have hrun : ((system fourSlots).runLabels
        (reserveLabels 0 ++ .app 0 (.cas false) :: (reserveLabels 1 ++ .app 1 (.cas false) ::
          (reserveLabels 2 ++ [.app 2 (.cas false), .app 3 (.begin (.setattr 7 0o644))])))
        (Sys.init (.init 8))).bind (fun s =>
        ((system fourSlots).step s (.app 3 .loadCheckpoint)).map
          fun s' => (s.apps 3, s.cp, s'.apps 3)) =
        some (.loaded (.setattr 7 0o644) 3, 0, .full (.setattr 7 0o644)) := by decide +kernel
    obtain ⟨s, hs, hstep⟩ := Option.bind_eq_some_iff.mp hrun
    obtain ⟨s', hs', he⟩ := Option.map_eq_some_iff.mp hstep
    simp only [Prod.mk.injEq] at he
    have hr : (system fourSlots).Reach (fun _ _ => True) s :=
      System.reach_runLabels ⟨_, SSDDentRegion.wf_init 8, rfl⟩ (fun _ _ _ => trivial) hs
    obtain ⟨cur, -, hfull⟩ := (full_is_full fourSlots).1 s s' 3 _ hr hs' he.2.2
    exact ⟨s, hr, he.1, hfull (he.2.1 ▸ Nat.zero_le _)⟩
  · have hrun : ((remoteRing fourSlots).runLabels
        [.start 0 [someChange, someChange, someChange] 0, .loadCheckpoint 0, .cas 0 false,
          .start 1 [someChange] 3] .init).bind (fun x =>
        ((remoteRing fourSlots).step x (.loadCheckpoint 1)).map
          fun x' => (x.calls 1, x.cp, x'.calls 1)) =
        some (.loaded [someChange] 3, 0, .full) := by decide +kernel
    obtain ⟨x, hx, hstep⟩ := Option.bind_eq_some_iff.mp hrun
    obtain ⟨x', hx', he⟩ := Option.map_eq_some_iff.mp hstep
    simp only [Prod.mk.injEq] at he
    have hr : (remoteRing fourSlots).Reach (fun _ _ => True) x :=
      System.reach_runLabels rfl (fun _ _ _ => trivial) hx
    obtain ⟨changes, cur, -, hfull⟩ := (full_is_full fourSlots).2 x x' 1 hr hx' he.2.2
    exact ⟨x, hr, he.1, hfull (he.2.1 ▸ Nat.zero_le _)⟩

/-- Call 0 loads the head; two other calls append, and their records are replayed and released. -/
def overtaken : List Act :=
  .app 0 (.begin (.setattr 7 0o644)) ::
    (reserveLabels 1 ++ appendLabels 1 (.setattr 7 0o644) 5 ++
      (reserveLabels 2 ++ appendLabels 2 (.setattr 7 0o644) 6) ++
      [.ckpt (.openCycle ⟨false, 0, 0, true⟩), .ckpt .readSlot, .ckpt (.decode (fun _ => 0) false),
        .ckpt .readSlot, .ckpt (.decode (fun _ => 0) false), .ckpt .readSlot, .ckpt .settle,
        .ckpt .clearSlot, .ckpt .clearSlot, .ckpt .advanceCheckpoint])

/-- The same in the remote log, with one other call. -/
def overtakenRemote : List RemoteAct :=
  [.start 0 [someChange] 0, .start 1 [someChange] 0, .loadCheckpoint 1, .cas 1 false, .fetchAdd 1,
    .dramWrite 1, .openCycle, .readEntry, .readEntry, .settle true, .clearSlot, .advanceCheckpoint]

/-- **A call that is overtaken is refused although there is room**: in no state of these runs, which
begin with the call, is a log with four slots full. -/
theorem overtaken_call_refused :
    (∀ k ≤ overtaken.length, (((system fourSlots).runLabels (overtaken.take k)
        (Sys.init (.init 8))).any fun s => decide (s.head + 1 < s.cp + 4)) = true) ∧
      (((system fourSlots).runLabels (overtaken ++ [.app 0 .loadCheckpoint])
        (Sys.init (.init 8))).map fun s => s.apps 0) = some (.full (.setattr 7 0o644)) ∧
    (∀ k ≤ overtakenRemote.length, (((remoteRing fourSlots).runLabels (overtakenRemote.take k)
        .init).any fun x => decide (x.head < x.cp + 3)) = true) ∧
      (((remoteRing fourSlots).runLabels (overtakenRemote ++ [.loadCheckpoint 0]) .init).map
        fun x => x.calls 0) = some .full := by
  refine ⟨?_, ?_, ?_, ?_⟩ <;> decide +kernel

end StaxFS.Persist
