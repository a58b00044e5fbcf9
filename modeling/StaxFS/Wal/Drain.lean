import StaxFS.Dent.Events
import StaxFS.Wal.Invariant

/-!
# The checkpoint drains the log

Once every reservation is published or its call has crashed, the checkpoint thread, running alone,
can replay everything: each published record at the frontier is taken by one cycle, and the slots of
a crashed call are passed by the orphan skip after at most six cycles without progress. This needs
pages in the dent region for the events that are still to be stored.

Results:
* `drain`: from a state between two cycles there is a continuation, of checkpoint steps only and with
  skips past crashed calls only, that brings the frontier to the head.
-/

namespace StaxFS.Wal

open Dent Foundation AppendPc List

/-- Steps of the checkpoint thread, with skips past crashed calls only and room in the dent region. -/
def CheckpointOnly (s : Sys) (a : Act) : Prop := (∃ b, a = .ckpt b) ∧ InOrder s a

/-- Every reservation is published, or its call has crashed. -/
def Settled (s : Sys) : Prop :=
  ∀ t pos n, (s.apps t).span = some (pos, n) → (s.apps t).IsReturned ∨ s.crashed t = true

/-- The append calls and the head are the same in both states. -/
def SameCalls (s s' : Sys) : Prop :=
  s'.apps = s.apps ∧ s'.crashed = s.crashed ∧ s'.head = s.head

theorem SameCalls.trans {s1 s2 s3 : Sys} (h : SameCalls s1 s2) (h' : SameCalls s2 s3) :
    SameCalls s1 s3 :=
  ⟨h'.1.trans h.1, h'.2.1.trans h.2.1, h'.2.2.trans h.2.2⟩

theorem Settled.congr {s s' : Sys} (h : Settled s) (hs : SameCalls s s') : Settled s' := by
  intro t pos n hsp
  rw [hs.1] at hsp ⊢
  rw [hs.2.1]
  exact h t pos n hsp

section Runs

variable {c : Config} {s : Sys} {env : CycleEnv} {pos : Nat} {s' : Sys}

theorem steps_one {b : CkptAct} (h : ckptStep c s b = some s')
    (hok : InOrder s (.ckpt b)) : (system c).Steps CheckpointOnly s s' :=
  System.Steps.cons ⟨⟨b, rfl⟩, hok⟩ h (System.Steps.refl s')

/-- The invariants along a continuation. -/
theorem inv_steps (h : (system c).Steps CheckpointOnly s s') (hi : RingInv c s)
    (hd : s.dent.WF) : RingInv c s' ∧ s'.dent.WF :=
  System.Steps.invariant (I := fun x => RingInv c x ∧ x.dent.WF)
    (fun _ _ _ hi hok hst => ⟨hi.1.step hok.2.1 hst, dent_wf_step hi.2 hok.2.2 hst⟩) h ⟨hi, hd⟩

/-! ### The parts of a cycle -/

/-- `ClearRange` and `AdvanceCheckpoint`. -/
theorem clear_run : ∀ (n : Nat) {s : Sys} {k : Nat}, s.ckpt = .clearing k → s.pendingMain = k + n →
      ∃ slots, (system c).Steps CheckpointOnly s
        { s with slots := slots, cp := s.pendingMain, ckpt := .worked }
  | 0, s, k, hpc, hn => by
    refine ⟨s.slots, steps_one (b := .advanceCheckpoint) ?_ ⟨trivial, trivial⟩⟩
    simp only [ckptStep, hpc]
    rw [if_neg (by omega)]
  | n + 1, s, k, hpc, hn => by
    have hst : ckptStep c s .clearSlot =
        some { s.dramWrite c k .zero with ckpt := .clearing (k + 1) } := by
      simp only [ckptStep, hpc]
      rw [if_pos (by omega)]
    obtain ⟨slots, hrun⟩ := clear_run n
      (s := { s.dramWrite c k .zero with ckpt := .clearing (k + 1) }) rfl
      (by simp only [Sys.dramWrite]; omega)
    exact ⟨slots, (steps_one hst ⟨trivial, trivial⟩).trans hrun⟩

/-- The sync decision when a sync is due: everything replayed is synced. -/
theorem settle_run (hpc : s.ckpt = .flush env pos []) (hdue : env.due = true) (hcp : s.cp ≤ pos) :
    ∃ slots, (system c).Steps CheckpointOnly s
      { s with slots := slots, cp := pos, pendingMain := pos, ckpt := .worked } := by
  by_cases hlt : s.cp < pos
  · have hst : ckptStep c s .settle =
        some { s with pendingMain := pos, ckpt := .clearing s.cp } := by
      have hsync : syncDue env pos s.cp = true := by
        unfold syncDue
        simp only [hdue, Bool.true_or, Bool.and_true, decide_eq_true_eq]
        omega
      simp [ckptStep, hpc, hsync, hlt]
    obtain ⟨slots, hrun⟩ := clear_run (c := c) (pos - s.cp)
      (s := { s with pendingMain := pos, ckpt := .clearing s.cp }) rfl (by simp only; omega)
    exact ⟨slots, (steps_one hst ⟨trivial, trivial⟩).trans hrun⟩
  · have heq : s.cp = pos := by omega
    refine ⟨s.slots, steps_one (b := .settle) ?_ ⟨trivial, trivial⟩⟩
    simp [ckptStep, hpc, heq]

/-- The flush of the dent batches, directory by directory. -/
theorem flush_run : ∀ (n : Nat) {s : Sys} (buffer : List (Nat × DentEntry)), buffer.length ≤ n →
      s.ckpt = .flush env pos buffer → s.dent.WF →
      s.dent.pages.length + 2 * buffer.length ≤ s.dent.numPageSlots →
      ∃ d, (system c).Steps CheckpointOnly s { s with dent := d, ckpt := .flush env pos [] } ∧
        d.numPageSlots = s.dent.numPageSlots ∧
        d.pages.length ≤ s.dent.pages.length + 2 * buffer.length
  | _, s, [], _, hpc, _, _ => by
    refine ⟨s.dent, ?_, rfl, by simp⟩
    rw [← hpc]
    exact System.Steps.refl s
  | 0, s, p :: rest, hn, _, _, _ => absurd hn (by simp)
  | n + 1, s, p :: rest, hn, hpc, hwf, hroom => by
    have hb : (batch (p :: rest) p.1).length = 1 + (rest.filter (·.1 == p.1)).length := by
      simp [batch, Nat.add_comm]
    have hsplit := length_eq_length_filter_add (l := rest) (·.1 == p.1)
    have hneq : (rest.filter (fun x => !(x.1 == p.1))) = rest.filter (·.1 != p.1) := rfl
    rw [hneq] at hsplit
    rw [length_cons] at hroom hn
    have hnew := s.dent.newPages_le p.1 (batch (p :: rest) p.1)
    have hfits : s.dent.HasRoom p.1 (batch (p :: rest) p.1) := .inr (by omega)
    obtain ⟨d, hd, hlen⟩ := SSDDentRegion.appendEntries_some hwf hfits
    have hslots := SSDDentRegion.appendEntries_numPageSlots hd
    have hwf' := (SSDDentRegion.appendEntries_spec hwf hd).1
    have hst : ckptStep c s (.appendEntries p.1 s.dent) =
        some { s with dent := d, ckpt := .flush env pos (rest.filter (·.1 != p.1)) } := by
      simp only [ckptStep, hpc]
      rw [if_pos (by simp), hd]
      simp
    have hok : InOrder s (.ckpt (.appendEntries p.1 s.dent)) := by
      refine ⟨trivial, fun env' pos' buffer' hpc' => ?_⟩
      cases hpc.symm.trans hpc'
      exact hfits
    obtain ⟨d', hrun, hslots', hlen'⟩ := flush_run n
      (s := { s with dent := d, ckpt := .flush env pos (rest.filter (·.1 != p.1)) })
      (rest.filter (·.1 != p.1)) (by omega) rfl hwf' (by simp only; omega)
    refine ⟨d', (steps_one hst hok).trans hrun, hslots'.trans hslots, ?_⟩
    rw [length_cons]
    simp only at hlen'
    omega

variable {e : CompactLogEntry}

/-- The continuation slots of a record. -/
theorem names_run {head : Nat} {buffer : List (Nat × DentEntry)} :
    ∀ (n : Nat) {s : Sys} (got : List (List Byte)), e.contCount ≤ got.length + n →
      s.ckpt = .names env pos head buffer e got →
      ∃ got', (system c).Steps CheckpointOnly s
        { s with ckpt := .names env pos head buffer e got' } ∧ needsCont e got'.length = false
  | 0, s, got, hn, hpc => by
    refine ⟨got, ?_, ?_⟩
    · rw [← hpc]
      exact System.Steps.refl s
    · simp only [needsCont, Bool.and_eq_false_iff, decide_eq_false_iff_not]
      omega
  | n + 1, s, got, hn, hpc => by
    cases hneed : needsCont e got.length with
    | false =>
      refine ⟨got, ?_, hneed⟩
      rw [← hpc]
      exact System.Steps.refl s
    | true =>
      have hst : ckptStep c s .readOverflow = some { s with
          ckpt := .names env pos head buffer e
            (got ++ [(s.slotAt c (pos + 1 + got.length)).overflowData]) } := by
        simp [ckptStep, hpc, hneed]
      obtain ⟨got', hrun, hdone⟩ := names_run n
        (s := { s with
          ckpt := .names env pos head buffer e
            (got ++ [(s.slotAt c (pos + 1 + got.length)).overflowData]) })
        (got ++ [(s.slotAt c (pos + 1 + got.length)).overflowData]) (by simp; omega) rfl
      exact ⟨got', (steps_one hst ⟨trivial, trivial⟩).trans hrun, hdone⟩

/-! ### Whole cycles -/

/-- A cycle in which a sync is due and the remote log is empty. -/
def dueCycle : CycleEnv := ⟨false, 0, 0, true⟩

/-- The first step of a cycle, with unreplayed slots ahead. -/
theorem open_run (hpc : s.ckpt = .loop) (hlt : s.frontier < s.head) :
    (system c).Steps CheckpointOnly s { s with
      pendingMain := s.frontier, ckpt := .replay dueCycle s.frontier s.head [] } := by
  have hf : s.frontier = max s.pendingMain s.cp := by simp [Sys.frontier, hpc, CkptPc.frontier]
  have hwork : nothingToDo dueCycle (max s.pendingMain s.cp) s.cp s.head = false := by
    rw [hf] at hlt
    simp [nothingToDo, hlt]
  refine steps_one (b := .openCycle dueCycle) ?_ ⟨trivial, trivial⟩
  simp [ckptStep, hpc, hwork, hf]

/-- A slot at the checkpoint that is not ready belongs to a crashed call. -/
theorem RingInv.dead_of_not_ready (h : RingInv c s) (hset : Settled s)
    (hclear : s.clearPos = s.cp) (hready : (s.slotAt c s.cp).isReady = false) {t : Nat}
    (ho : (s.apps t).Owns s.cp) : s.crashed t = true := by
  by_contra hlive
  rw [Bool.not_eq_true] at hlive
  obtain ⟨pos, n, hs, hle, hlt⟩ := ho.span_eq
  rcases hset t pos n hs with ⟨req, pos', l, v, he⟩ | hc
  · rw [he] at hs
    cases hs
    have hspan : (s.apps t).span = some (pos, req.slots) := by rw [he]; rfl
    have hpos : pos = s.cp := by
      rcases h.progress.aligned hlive hspan with h1 | h1 <;> omega
    subst hpos
    rw [h.slotAt_returned he (by omega)] at hready
    simp [Slot.isReady, LogRequest.isReady_published] at hready
  · rw [hlive] at hc
    cases hc

/-- The rest of `CheckpointLoop` after a cycle, back to the next call of `DoCheckpoint`. -/
theorem worked_run (h : RingInv c s) (hset : Settled s) (hpc : s.ckpt = .worked) :
    ∃ s', (system c).Steps CheckpointOnly s s' ∧ SameCalls s s' ∧ s'.dent = s.dent ∧
      s'.ckpt = .loop ∧ s.frontier ≤ s'.frontier ∧
      (s.cp < s.head → (s.slotAt c s.cp).isReady = false → s.frontier = s.cp →
        s.frontier < s'.frontier ∨
          s'.frontier = s.frontier ∧ s'.cp = s.cp ∧ s'.lastCp = s.cp ∧
            (s.lastCp = s.cp → s'.stall = s.stall + 1 ∧ s.stall + 1 < kStallRounds)) := by
  have hf : s.frontier = max s.pendingMain s.cp := by simp [Sys.frontier, hpc, CkptPc.frontier]
  by_cases hst : s.cp = s.lastCp ∧ s.cp < s.head
  · by_cases hround : kStallRounds ≤ s.stall + 1
    · have h1 : ckptStep c s .afterCycle = some { s with stall := s.stall + 1, ckpt := .orphan } := by
        simp only [ckptStep, hpc]
        rw [if_pos hst, if_pos hround]
      have hslot : ({ s with stall := s.stall + 1, ckpt := .orphan } : Sys).slotAt c s.cp =
        s.slotAt c s.cp := rfl
      cases hready : (s.slotAt c s.cp).isReady with
      | true =>
        have h2 : ckptStep c { s with stall := s.stall + 1, ckpt := .orphan } .checkOrphan =
            some { s with stall := 0, lastCp := s.cp, ckpt := .loop } := by
          simp [ckptStep, hslot, hready]
        refine ⟨_, (steps_one h1 ⟨trivial, trivial⟩).trans (steps_one h2 ⟨trivial, trivial⟩),
          ⟨rfl, rfl, rfl⟩, rfl, rfl, ?_, fun _ hnot => by simp at hnot⟩
        simp [Sys.frontier, hpc, CkptPc.frontier]
      | false =>
        have h2 : ckptStep c { s with stall := s.stall + 1, ckpt := .orphan } .checkOrphan =
            some { s with stall := s.stall + 1, ckpt := .skipAdvance } := by
          simp [ckptStep, hslot, hready]
        have h3 : ckptStep c { s with stall := s.stall + 1, ckpt := .skipAdvance } .skipAdvance =
            some { s with stall := s.stall + 1, cp := s.cp + 1, ckpt := .skipClear s.cp } := rfl
        have hdead : SkipsOnlyDead { s with stall := s.stall + 1, ckpt := .skipAdvance }
            (.ckpt .skipAdvance) := fun t ho =>
          h.dead_of_not_ready hset (by simp [Sys.clearPos, hpc, CkptPc.clearPos]) hready ho
        have h4 : ckptStep c { s with stall := s.stall + 1, cp := s.cp + 1, ckpt := .skipClear s.cp }
            .skipClear = some { s.dramWrite c s.cp .zero with
              cp := s.cp + 1, stall := 0, lastCp := s.cp, ckpt := .loop } := rfl
        refine ⟨_, (steps_one h1 ⟨trivial, trivial⟩).trans ((steps_one h2 ⟨trivial, trivial⟩).trans
          ((steps_one h3 ⟨hdead, trivial⟩).trans (steps_one h4 ⟨trivial, trivial⟩))),
          ⟨rfl, rfl, rfl⟩, rfl, rfl, ?_, fun _ _ hfc => .inl ?_⟩
        · rw [hf]
          simp only [Sys.frontier, CkptPc.frontier, Sys.dramWrite]
          omega
        · simp only [Sys.frontier, CkptPc.frontier, Sys.dramWrite, hpc] at hfc ⊢
          omega
    · have h1 : ckptStep c s .afterCycle =
          some { s with stall := s.stall + 1, lastCp := s.cp, ckpt := .loop } := by
        simp only [ckptStep, hpc]
        rw [if_pos hst, if_neg hround]
      exact ⟨_, steps_one h1 ⟨trivial, trivial⟩, ⟨rfl, rfl, rfl⟩, rfl, rfl, hf.le,
        fun _ _ _ => .inr ⟨hf.symm, rfl, rfl, fun _ => ⟨rfl, Nat.not_le.mp hround⟩⟩⟩
  · have h1 : ckptStep c s .afterCycle =
        some { s with stall := 0, lastCp := s.cp, ckpt := .loop } := by
      simp only [ckptStep, hpc]
      rw [if_neg hst]
    refine ⟨_, steps_one h1 ⟨trivial, trivial⟩, ⟨rfl, rfl, rfl⟩, rfl, rfl, hf.le,
      fun hlt _ _ => .inr ⟨hf.symm, rfl, rfl, fun hlast => absurd ⟨hlast.symm, hlt⟩ hst⟩⟩

/-- The frontier gets past `f`: what the cycles below achieve, at the cost of at most `pages` pages
of the dent region. -/
def Passes (c : Config) (f pages : Nat) (s : Sys) : Prop :=
  ∃ s', (system c).Steps CheckpointOnly s s' ∧ SameCalls s s' ∧ s'.ckpt = .loop ∧
    f < s'.frontier ∧ s'.dent.numPageSlots = s.dent.numPageSlots ∧
    s'.dent.pages.length ≤ s.dent.pages.length + pages

/-- A cycle that finds a published record at the frontier replays it. -/
theorem ready_cycle (h : RingInv c s) (hd : s.dent.WF)
    (hset : Settled s) (hpc : s.ckpt = .loop) (hlt : s.frontier < s.head)
    (hslot : s.slotAt c s.frontier = .entry e) (he : e.isReady = true)
    (hroom : s.dent.pages.length + 4 ≤ s.dent.numPageSlots) : Passes c s.frontier 4 s := by
  have hcp := h.progress.cp_le
  let s1 : Sys := { s with
    pendingMain := s.frontier, ckpt := .replay dueCycle s.frontier s.head [] }
  let s2 : Sys := { s1 with ckpt := .names dueCycle s.frontier s.head [] e [] }
  have r1 : (system c).Steps CheckpointOnly s s1 := open_run hpc hlt
  have r2 : ckptStep c s1 .readSlot = some s2 := by
    have hs1 : s1.slotAt c s.frontier = .entry e := hslot
    have hpc1 : s1.ckpt = .replay dueCycle s.frontier s.head [] := rfl
    simp [ckptStep, hpc1, hlt, hs1, he, s2]
  obtain ⟨got, r3, hneed⟩ := names_run (c := c) e.contCount (s := s2) [] (by simp) rfl
  let s3 : Sys := { s2 with ckpt := .names dueCycle s.frontier s.head [] e got }
  let dents := replayDents (fun _ => 0) e got
  let s4 : Sys := { s3 with
    replayed := s.replayed ++ [⟨s.frontier, e, dents⟩]
    ckpt := .flush dueCycle (s.frontier + e.slotCount) dents }
  have r4 : ckptStep c s3 (.decode (fun _ => 0) true) = some s4 := by
    simp [ckptStep, hneed, s4, dents, s3, s2, s1]
  have hdents : dents.length ≤ 2 := by
    simp only [dents, replayDents]
    split <;> simp
  obtain ⟨d, r5, hslots, hpages⟩ := flush_run (c := c) dents.length (s := s4) dents le_rfl rfl hd
    (by simp only [s4, s3, s2, s1]; omega)
  obtain ⟨slots, r6⟩ := settle_run (c := c)
    (s := { s4 with dent := d, ckpt := .flush dueCycle (s.frontier + e.slotCount) [] })
    rfl rfl (by simp only [s4, s3, s2, s1]; omega)
  have r16 := r1.trans ((steps_one r2 ⟨trivial, trivial⟩).trans
    (r3.trans ((steps_one r4 ⟨trivial, trivial⟩).trans (r5.trans r6))))
  obtain ⟨s7, r7, hsame, hdent, hpc7, hfr, -⟩ :=
    worked_run (inv_steps r16 h hd).1 (hset.congr ⟨rfl, rfl, rfl⟩) rfl
  refine ⟨s7, r16.trans r7, hsame, hpc7, ?_, ?_, ?_⟩
  · simp only [Sys.frontier, CkptPc.frontier, CompactLogEntry.slotCount] at hfr ⊢
    omega
  · rw [hdent]
    exact hslots
  · rw [hdent]
    simp only [s4, s3, s2, s1] at hpages ⊢
    omega

/-- A slot of the window at which no published record starts is not ready. -/
theorem RingInv.not_ready (h : RingInv c s) {p : Nat} (hp : s.clearPos ≤ p)
    (hlt : p < s.head) (hnone : ∀ t req l v, s.apps t ≠ .returned req p l v) :
    (s.slotAt c p).isReady = false := by
  by_contra hready
  rw [Bool.not_eq_false] at hready
  cases hslot : s.slotAt c p with
  | entry e =>
    rw [hslot] at hready
    obtain ⟨t, req, l, v, ht, -⟩ := h.returned_of_ready hp hlt hslot hready
    exact hnone t req l v ht
  | overflow o =>
    rw [hslot, Slot.overflow_not_ready] at hready
    cases hready

/-- A cycle that finds no published record at the frontier either gets past it by the orphan skip,
or ends with one more stalled round. -/
theorem stalled_cycle (h : RingInv c s) (hd : s.dent.WF) (hset : Settled s)
    (hpc : s.ckpt = .loop) (hlt : s.frontier < s.head)
    (hnone : ∀ t req l v, s.apps t ≠ .returned req s.frontier l v) :
    ∃ s', (system c).Steps CheckpointOnly s s' ∧ SameCalls s s' ∧ s'.dent = s.dent ∧
      s'.ckpt = .loop ∧
      (s.frontier < s'.frontier ∨ s'.frontier = s.frontier ∧ s'.lastCp = s.frontier ∧
        (s.lastCp = s.frontier → s'.stall = s.stall + 1 ∧ s.stall + 1 < kStallRounds)) := by
  have hcp := h.progress.cp_le
  have hcl := h.progress.clear_le
  let s1 : Sys := { s with
    pendingMain := s.frontier, ckpt := .replay dueCycle s.frontier s.head [] }
  let s2 : Sys := { s1 with ckpt := .flush dueCycle s.frontier [] }
  have r1 : (system c).Steps CheckpointOnly s s1 := open_run hpc hlt
  have r2 : ckptStep c s1 .readSlot = some s2 := by
    have hpc1 : s1.ckpt = .replay dueCycle s.frontier s.head [] := rfl
    have hs1 : (s1.slotAt c s.frontier).isReady = false := h.not_ready hcl hlt hnone
    simp only [ckptStep, hpc1, if_pos hlt]
    cases hslot : s1.slotAt c s.frontier with
    | entry e =>
      rw [hslot] at hs1
      simp only [Slot.isReady] at hs1
      simp [hs1, s2]
    | overflow o => rfl
  obtain ⟨slots, r3⟩ := settle_run (c := c) (s := s2) rfl rfl hcp
  have r13 := r1.trans ((steps_one r2 ⟨trivial, trivial⟩).trans r3)
  have h3 := (inv_steps r13 h hd).1
  obtain ⟨s4, r4, hsame, hdent, hpc4, -, hnext⟩ := worked_run h3 (hset.congr ⟨rfl, rfl, rfl⟩) rfl
  have hf3 : Sys.frontier { s2 with
      slots := slots, cp := s.frontier, pendingMain := s.frontier, ckpt := .worked } =
      s.frontier := by
    simp [Sys.frontier, CkptPc.frontier]
  refine ⟨s4, r13.trans r4, hsame, hdent, hpc4, ?_⟩
  rcases hnext hlt (h3.not_ready le_rfl hlt hnone) hf3 with hgt | ⟨heq, -, hlast, hstall⟩
  · exact .inl (hf3 ▸ hgt)
  · exact .inr ⟨heq.trans hf3, hlast, hstall⟩

/-- Slots at which no published record starts are passed after at most `k` cycles. -/
theorem stalled_passes :
    ∀ (k : Nat) {s : Sys}, RingInv c s → s.dent.WF → Settled s → s.ckpt = .loop →
      s.frontier < s.head → (∀ t req l v, s.apps t ≠ .returned req s.frontier l v) →
      (s.lastCp = s.frontier ∧ kStallRounds ≤ s.stall + k ∨ k = 6) → Passes c s.frontier 0 s
  | 0, s, h, hd, hset, hpc, hlt, hnone, hk => by
    obtain ⟨s', r, hsame, hdent, hpc', hgt | ⟨heq, hlast', hstall⟩⟩ :=
      stalled_cycle h hd hset hpc hlt hnone
    · exact ⟨s', r, hsame, hpc', hgt, by rw [hdent], by rw [hdent]; omega⟩
    · rcases hk with ⟨hl, hk⟩ | hk
      · have := hstall hl
        omega
      · cases hk
  | k + 1, s, h, hd, hset, hpc, hlt, hnone, hk => by
    obtain ⟨s', r, hsame, hdent, hpc', hgt | ⟨heq, hlast', hstall⟩⟩ :=
      stalled_cycle h hd hset hpc hlt hnone
    · exact ⟨s', r, hsame, hpc', hgt, by rw [hdent], by rw [hdent]; omega⟩
    · have hk' : s'.lastCp = s'.frontier ∧ kStallRounds ≤ s'.stall + k ∨ k = 6 := by
        refine .inl ⟨by rw [hlast', heq], ?_⟩
        rcases hk with ⟨hl, hk⟩ | hk
        · have := hstall hl
          omega
        · unfold kStallRounds
          omega
      obtain ⟨hi', hd'⟩ := inv_steps r h hd
      obtain ⟨s'', r', hsame', hpc'', hgt', hslots, hpages⟩ :=
        stalled_passes k hi' hd' (hset.congr hsame) hpc' (by rw [heq, hsame.2.2]; exact hlt)
          (by rw [heq, hsame.1]; exact hnone) hk'
      exact ⟨s'', r.trans r', hsame.trans hsame', hpc'', by omega, by rw [hslots, hdent],
        by rw [hdent] at hpages; exact hpages⟩

/-- Between two cycles the frontier can always get further. -/
theorem passes_frontier (h : RingInv c s) (hd : s.dent.WF) (hset : Settled s)
    (hpc : s.ckpt = .loop) (hlt : s.frontier < s.head)
    (hroom : s.dent.pages.length + 4 ≤ s.dent.numPageSlots) : Passes c s.frontier 4 s := by
  by_cases hnone : ∀ t req l v, s.apps t ≠ .returned req s.frontier l v
  · obtain ⟨s', r, hsame, hpc', hgt, hslots, hpages⟩ :=
      stalled_passes 6 h hd hset hpc hlt hnone (.inr rfl)
    exact ⟨s', r, hsame, hpc', hgt, hslots, by omega⟩
  · push Not at hnone
    obtain ⟨t, req, l, v, ht⟩ := hnone
    exact ready_cycle h hd hset hpc hlt (h.slotAt_returned ht h.progress.clear_le)
      (LogRequest.isReady_published req l v) hroom

/-- **The checkpoint drains the log.** -/
theorem drain : ∀ (n : Nat) {s : Sys}, RingInv c s → s.dent.WF → Settled s → s.ckpt = .loop →
      s.head ≤ s.frontier + n → s.dent.pages.length + 4 * n ≤ s.dent.numPageSlots →
      ∃ s', (system c).Steps CheckpointOnly s s' ∧ SameCalls s s' ∧ s'.frontier = s'.head
  | 0, s, h, _, _, _, hn, _ =>
    ⟨s, System.Steps.refl s, ⟨rfl, rfl, rfl⟩, by have := h.progress.frontier_le; omega⟩
  | n + 1, s, h, hd, hset, hpc, hn, hroom => by
    by_cases hlt : s.frontier < s.head
    · obtain ⟨s', r, hsame, hpc', hgt, hslots, hpages⟩ :=
        passes_frontier h hd hset hpc hlt (by omega)
      obtain ⟨hi', hd'⟩ := inv_steps r h hd
      obtain ⟨s'', r', hsame', hend⟩ := drain n hi' hd' (hset.congr hsame) hpc'
        (by rw [hsame.2.2]; omega) (by omega)
      exact ⟨s'', r.trans r', hsame.trans hsame', hend⟩
    · exact ⟨s, System.Steps.refl s, ⟨rfl, rfl, rfl⟩, by
        have := h.progress.frontier_le
        omega⟩

end Runs

end StaxFS.Wal
