import StaxFS.Wal.Drain

/-!
# Every published record is replayed exactly once

`CheckpointLoop` skips the slot at the checkpoint after `kStallRounds` cycles without progress, on
the guess that the writer crashed. A writer that is only slow is passed the same way, and what it
then publishes is cleared or left behind. This module has both sides:

* `skipped_writer_lost`: a run in which a live append publishes and returns between
  `AdvanceCheckpoint` and `ClearRange` of the skip; no continuation of the run replays its record.
* `replayed_exactly_once`: in every run whose skips only pass slots of crashed calls and whose dent
  region does not run out of pages, every returned record is replayed once or still waits unharmed
  ahead of the replay; nothing else is replayed;
  the ring holds no other published record that a later turn could meet; and once the append calls
  under way have ended, the checkpoint thread can replay all that is left.
-/

namespace StaxFS.Wal

open Dent Foundation AppendPc List

/-- What replaying the record of a request at `pos` looks like. -/
def LogRequest.replay (req : LogRequest) (pos l v : Nat) : Replay :=
  ⟨pos, req.published l v, req.events v⟩

/-- The record at `pos` was replayed exactly once, as it was appended. -/
def ReplayedOnce (s : Sys) (req : LogRequest) (pos l v : Nat) : Prop :=
  s.replayed.filter (·.pos == pos) = [req.replay pos l v]

/-- The record at `pos` has not been replayed and stands complete in the ring, where the replay is
still to come. -/
structure Waiting (c : Config) (s : Sys) (req : LogRequest) (pos l v : Nat) : Prop where
  not_replayed : ∀ r ∈ s.replayed, r.pos ≠ pos
  ahead : s.frontier ≤ pos ∧ pos + req.slots ≤ s.head
  primary : s.slotAt c pos = .entry (req.published l v)
  continuation : ∀ i, i < req.contCount → s.slotAt c (pos + 1 + i) = .overflow (req.contSlot l i)

/-- Exactly-once replay, in one state. -/
structure ExactlyOnce (c : Config) (s : Sys) : Prop where
  /-- a returned record was replayed exactly once, or waits for the replay -/
  returned : ∀ t req pos l v, s.apps t = .returned req pos l v →
    ReplayedOnce s req pos l v ∨ Waiting c s req pos l v
  /-- only returned records are replayed -/
  replayed : ∀ r ∈ s.replayed, ∃ t req l v,
    s.apps t = .returned req r.pos l v ∧ ReplayedOnce s req r.pos l v
  /-- a published record in the ring is one that still waits, or one that is replayed and not yet
  cleared: none is left for a later turn of the ring -/
  not_stale : ∀ i, i < c.capacity → (s.slots i).isReady = true →
    ∃ t req pos l v, s.apps t = .returned req pos l v ∧ c.index pos = i ∧
      s.clearPos ≤ pos ∧ pos < s.head

/-- Position `n` and everything before it is behind the replay, in terms of what the checkpoint
thread holds. -/
def PassedBy (n : Nat) (s : Sys) : Prop :=
  n < s.cp ∧
    match s.ckpt with
    | .replay _ pos _ _ | .names _ pos _ _ _ _ | .flush _ pos _ => n < pos
    | .clearing _ => n < s.pendingMain
    | _ => True

variable {c : Config}

/-- In any run at all, a position the checkpoint has passed stays passed, and no record at it is
replayed from then on. -/
theorem PassedBy.step {n : Nat} {s s' : Sys} {a : Act} (h : PassedBy n s)
    (hst : step c s a = some s') :
    PassedBy n s' ∧ ∀ r ∈ s'.replayed, r.pos = n → r ∈ s.replayed := by
  have hsame : ∀ {x : Sys}, x.replayed = s.replayed → ∀ r ∈ x.replayed, r.pos = n → r ∈ s.replayed :=
    fun hx r hr _ => hx ▸ hr
  obtain ⟨hcp, hpos⟩ := h
  cases Step.of_step hst with
  | app _ hst | list hst => cases hst <;> exact ⟨⟨hcp, hpos⟩, hsame rfl⟩
  | ckpt hst =>
    cases hst with
    | idle hpc _ =>
      refine ⟨⟨hcp, ?_⟩, hsame rfl⟩
      simp only [hpc]
    | openCycle _ _ => exact ⟨⟨hcp, lt_of_lt_of_le hcp (le_max_right _ _)⟩, hsame rfl⟩
    | ready hpc _ _ _ | stop hpc _ | overflow hpc _ | appendEntries hpc _ | clearSlot hpc _ =>
      simp only [hpc] at hpos
      exact ⟨⟨hcp, hpos⟩, hsame rfl⟩
    | decodeLast hpc _ | decode hpc _ =>
      simp only [hpc] at hpos
      refine ⟨⟨hcp, by simp only; omega⟩, fun r hr hrn => ?_⟩
      rcases mem_append.mp hr with hr | hr
      · exact hr
      · rw [mem_singleton] at hr
        subst hr
        simp only at hrn
        omega
    | sync hpc _ _ | noSync hpc _ =>
      simp only [hpc] at hpos
      first
        | exact ⟨⟨hcp, hpos⟩, hsame rfl⟩
        | exact ⟨⟨hcp, trivial⟩, hsame rfl⟩
    | advance hpc _ =>
      simp only [hpc] at hpos
      exact ⟨⟨hpos, trivial⟩, hsame rfl⟩
    | skipAdvance _ => exact ⟨⟨Nat.lt_succ_of_lt hcp, trivial⟩, hsame rfl⟩
    | _ => exact ⟨⟨hcp, trivial⟩, hsame rfl⟩

theorem PassedBy.steps {n : Nat} {s s' : Sys} (h : PassedBy n s)
    (hnone : ∀ r ∈ s.replayed, r.pos ≠ n) (hs : (system c).Steps (fun _ _ => True) s s') :
    ∀ r ∈ s'.replayed, r.pos ≠ n := by
  refine (System.Steps.invariant (I := fun x => PassedBy n x ∧ ∀ r ∈ x.replayed, r.pos ≠ n)
    (fun s1 a s2 hi _ hst => ?_) hs ⟨h, hnone⟩).2
  obtain ⟨hp, hr⟩ := hi.1.step hst
  exact ⟨hp, fun r hr2 hn => hi.2 r (hr r hr2 hn) hn⟩

/-! ### A slow writer is lost -/

/-- Nothing on the remote log, no sync due. -/
def quietCycle : CycleEnv := ⟨false, 0, 0, false⟩

/-- One turn of `CheckpointLoop` that finds the slot at the checkpoint unpublished. -/
def stalledCycle : List Act :=
  [.ckpt (.openCycle quietCycle), .ckpt .readSlot, .ckpt .settle, .ckpt .afterCycle]

/-- A writer reserves slot 0 and is slow to publish; the checkpoint stalls five times, skips the
slot, and the writer publishes before the skipped slot is cleared. -/
def slowWriter : List Act :=
  [.app 0 (.begin (.setattr 7 0o644)), .app 0 .loadCheckpoint, .app 0 (.cas false),
    .app 0 .allocLocalSeq, .app 0 (.nextVersion 5)] ++
  stalledCycle ++ stalledCycle ++ stalledCycle ++ stalledCycle ++ stalledCycle ++
  [.ckpt .checkOrphan, .ckpt .skipAdvance, .app 0 .dramWrite, .ckpt .skipClear]

theorem slowWriter_run : ((system fourSlots).runLabels slowWriter (Sys.init (.init 8))).map
      (fun s => (s.apps 0, s.cp, s.replayed, s.ckpt)) =
      some (.returned (.setattr 7 0o644) 0 1 5, 1, [], .loop) := by decide +kernel

/-- **A slow writer is lost**: its append returned a nonzero value, and no continuation of the run
ever replays its record. -/
theorem skipped_writer_lost :
    ∃ s, (system fourSlots).Reach (fun _ _ => True) s ∧
      s.apps 0 = .returned (.setattr 7 0o644) 0 1 5 ∧
      ∀ s', (system fourSlots).Steps (fun _ _ => True) s s' → ∀ r ∈ s'.replayed, r.pos ≠ 0 := by
  obtain ⟨s, hs, he⟩ := Option.map_eq_some_iff.mp slowWriter_run
  simp only [Prod.mk.injEq] at he
  obtain ⟨happ, hcp, hrep, hpc⟩ := he
  refine ⟨s, System.reach_runLabels ⟨_, SSDDentRegion.wf_init 8, rfl⟩ (fun _ _ _ => trivial) hs,
    happ, fun s' hst => ?_⟩
  exact PassedBy.steps ⟨by omega, by simp [hpc]⟩ (by simp [hrep]) hst

/-! ### Runs whose skips only pass crashed calls -/

theorem Config.exists_index (c : Config) (lo : Nat) {i : Nat} (hi : i < c.capacity) :
    ∃ p, lo ≤ p ∧ p < lo + c.capacity ∧ c.index p = i := by
  have hpos := c.capacity_pos
  have hmod := Nat.mod_lt lo hpos
  have hdiv := Nat.div_add_mod lo c.capacity
  by_cases h : lo % c.capacity ≤ i
  · refine ⟨lo + (i - lo % c.capacity), by omega, by omega, ?_⟩
    rw [c.index_eq_mod, show lo + (i - lo % c.capacity) = c.capacity * (lo / c.capacity) + i by omega,
      Nat.mul_add_mod, Nat.mod_eq_of_lt hi]
  · refine ⟨lo + (c.capacity + i - lo % c.capacity), by omega, by omega, ?_⟩
    rw [c.index_eq_mod, show lo + (c.capacity + i - lo % c.capacity) =
      c.capacity * (lo / c.capacity + 1) + i by rw [Nat.mul_succ]; omega,
      Nat.mul_add_mod, Nat.mod_eq_of_lt hi]

/-- A list without repeated positions has one entry at the position of a member. -/
theorem filter_pos_eq {rs : List Replay} (h : (rs.map (·.pos)).Nodup) {r : Replay} (hr : r ∈ rs) :
    rs.filter (·.pos == r.pos) = [r] := by
  induction rs with
  | nil => exact absurd hr not_mem_nil
  | cons x xs ih =>
    rw [map_cons, nodup_cons] at h
    rcases mem_cons.mp hr with rfl | hr'
    · rw [filter_cons_of_pos (by simp), filter_eq_nil_iff.mpr]
      intro y hy
      simp only [beq_iff_eq]
      exact fun he => h.1 (List.mem_map.mpr ⟨y, hy, he⟩)
    · have hne : x.pos ≠ r.pos := fun he => h.1 (List.mem_map.mpr ⟨r, hr', he.symm⟩)
      rw [filter_cons_of_neg (by simpa using hne)]
      exact ih h.2 hr'

namespace RingInv

variable {c : Config} {s : Sys}

/-- A published record behind the frontier was replayed exactly once. -/
theorem replayedOnce (h : RingInv c s) {t pos l v : Nat} {req : LogRequest}
    (ht : s.apps t = .returned req pos l v) (hlt : pos < s.frontier) : ReplayedOnce s req pos l v :=
  filter_pos_eq h.replays.nodup
    (h.replays.mem.mpr ⟨t, req, l, v, ht, hlt, rfl, rfl⟩ : req.replay pos l v ∈ s.replayed)

/-- A published record ahead of the frontier waits. -/
theorem waiting (h : RingInv c s) {t pos l v : Nat} {req : LogRequest}
    (ht : s.apps t = .returned req pos l v) (hle : s.frontier ≤ pos) : Waiting c s req pos l v := by
  have hspan : (s.apps t).span = some (pos, req.slots) := by rw [ht]; rfl
  have hclear := h.progress.clear_le
  have hpos := req.slots_pos
  have hend := h.ledger.lt_head
    ((owns_of_span hspan).mpr (⟨by omega, by omega⟩ : pos ≤ pos + req.slots - 1 ∧ _))
  refine ⟨fun r hr he => ?_, ⟨hle, by omega⟩, h.slotAt_returned ht (by omega),
    fun i hi => h.slotAt_continuation ht (by omega) hi⟩
  obtain ⟨-, -, -, -, -, hlt, -⟩ := h.replays.mem.mp hr
  omega

theorem exactlyOnce (h : RingInv c s) : ExactlyOnce c s := by
  refine ⟨fun t req pos l v ht => ?_, fun r hr => ?_, fun i hi hready => ?_⟩
  · by_cases hlt : pos < s.frontier
    · exact .inl (h.replayedOnce ht hlt)
    · exact .inr (h.waiting ht (by omega))
  · obtain ⟨t, req, l, v, ht, hlt, -⟩ := h.replays.mem.mp hr
    exact ⟨t, req, l, v, ht, h.replayedOnce ht hlt⟩
  · obtain ⟨p, hlo, hhi, rfl⟩ := c.exists_index s.clearPos hi
    by_cases hlt : p < s.head
    · obtain ⟨t, ht⟩ := h.ledger.owned hlt
      rw [h.window.content ht hlo] at hready
      obtain ⟨req, l, v, hret⟩ := content_ready hready
      exact ⟨t, req, p, l, v, hret, rfl, hlo, hlt⟩
    · rw [h.window.free (by omega) hhi, Slot.zero_not_ready] at hready
      cases hready

end RingInv

/-- **Exactly once.** In every state of every run whose skips only pass slots of crashed calls and
whose batches find room in the dent region, each returned record is replayed once or waits unharmed,
nothing else is replayed and nothing published is left behind; and between two cycles, when every
reservation is published or its call has crashed and the dent region has pages for the rest, the
checkpoint thread alone can replay all of them. -/
theorem replayed_exactly_once {c : Config} {s : Sys} (h : (system c).Reach InOrder s) :
    ExactlyOnce c s ∧
      (s.ckpt = .loop → Settled s →
        s.dent.pages.length + 4 * (s.head - s.frontier) ≤ s.dent.numPageSlots →
        ∃ s', (system c).Steps CheckpointOnly s s' ∧ SameCalls s s' ∧
          ∀ t req pos l v, s.apps t = .returned req pos l v → ReplayedOnce s' req pos l v) := by
  have hi := RingInv.of_reach (h.weaken fun _ _ => And.left)
  refine ⟨hi.exactlyOnce, fun hpc hset hroom => ?_⟩
  obtain ⟨s', r, hsame, hend⟩ := drain (s.head - s.frontier) hi (dent_wf_of_reach h) hset hpc
    (by have := hi.progress.frontier_le; omega) hroom
  have hi' := (inv_steps r hi (dent_wf_of_reach h)).1
  refine ⟨s', r, hsame, fun t req pos l v ht => ?_⟩
  rw [← hsame.1] at ht
  have hlt := hi'.ledger.lt_head (owns_start (by rw [ht]; rfl : (s'.apps t).span = some (pos, _)))
  exact hi'.replayedOnce ht (by omega)

/-- The labels of call `t` up to the reservation of its slot, and from there to its return. -/
def reserveBy (t : Nat) (req : LogRequest) : List Act :=
  [.app t (.begin req), .app t .loadCheckpoint, .app t (.cas false)]

def publishBy (t version : Nat) : List Act :=
  [.app t .allocLocalSeq, .app t (.nextVersion version), .app t .dramWrite]

/-- Call 0 crashes with its slot reserved, calls 1 and 2 publish records behind it. The checkpoint
stalls for `kStallRounds` cycles and skips the slot; the next cycle replays the first record. -/
def skipCrashed : List Act :=
  reserveBy 0 (.setattr 7 0o644) ++ [.app 0 .crash] ++
    reserveBy 1 (.setattr 8 0o644) ++ publishBy 1 5 ++ reserveBy 2 (.setattr 9 0o644) ++ publishBy 2 6 ++
    (List.replicate kStallRounds stalledCycle).flatten ++
    [.ckpt .checkOrphan, .ckpt .skipAdvance, .ckpt .skipClear, .ckpt (.openCycle quietCycle),
      .ckpt .readSlot, .ckpt (.decode (fun _ => 0) true)]

theorem skipCrashed_run :
    ((system fourSlots).runChecked inOrder skipCrashed (Sys.init (.init 8))).map
      (fun s => (s.crashed 0, s.cp, s.apps 1, s.apps 2, s.replayed.map (·.pos))) =
      some (true, 1, .returned (.setattr 8 0o644) 1 1 5, .returned (.setattr 9 0o644) 2 2 6, [1]) := by
  decide +kernel

/-- The record of call 1 was replayed, the one of call 2 waits. -/
theorem replayed_exactly_once_skip :
    ∃ s, (system fourSlots).Reach InOrder s ∧ s.crashed 0 = true ∧ s.cp = 1 ∧
      s.apps 1 = .returned (.setattr 8 0o644) 1 1 5 ∧ s.apps 2 = .returned (.setattr 9 0o644) 2 2 6 ∧
      s.replayed.map (·.pos) = [1] ∧ ExactlyOnce fourSlots s := by
  obtain ⟨s, hs, he⟩ := Option.map_eq_some_iff.mp skipCrashed_run
  simp only [Prod.mk.injEq] at he
  have hr := reach_inOrder (SSDDentRegion.wf_init 8) hs
  exact ⟨s, hr, he.1, he.2.1, he.2.2.1, he.2.2.2.1, he.2.2.2.2, (replayed_exactly_once hr).1⟩

end StaxFS.Wal
