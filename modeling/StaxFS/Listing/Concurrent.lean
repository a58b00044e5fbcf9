import StaxFS.Listing.Collect

/-!
# The listing among appends and checkpoints

One call of `CollectPersistentDentViews` as the three reads and the slot-by-slot scan it consists
of, interleaved with append calls and with the checkpoint thread. The comment in the source argues
that reading `checkpoint_pos_` before the dent region makes the scan cover whatever was not flushed
when the region was read. It does cover those positions, but nothing keeps them readable: a cycle
that runs between the read of the dent region and the scan flushes the events and clears their
slots, and the scan ends at the first cleared slot. It also ends at a slot whose append is still
under way, whatever was published behind it.

Results:
* `cleared_under_scan`: a run of one append, one cycle and one listing that loses the event.
* `listing_complete`: if the scan reads each slot before it is cleared and after the append that
  reserved it has returned, and the dent region has room for what is replayed, the listing takes
  every event into account whose append had returned before it started.
-/

namespace StaxFS.Wal

open Dent Foundation AppendPc Option

/-- Runs of appends, listings and `DoCheckpoint` cycles: no call crashes and the orphan skip of
`CheckpointLoop` is not taken. -/
def CyclesOnly (_ : Sys) (a : Act) : Prop :=
  match a with
  | .app _ .crash | .ckpt .skipAdvance => False
  | _ => True

/-- **The condition on the scan**: the slot it reads is not cleared yet, and the append that reserved
it has returned; a continuation slot it reads is not cleared yet. -/
def ReadsIntact (s : Sys) : Act → Prop
  | .list .readSlot => ∀ q pos head views, s.list = .scan q pos head views → pos < head →
      s.clearPos ≤ pos ∧ ∀ t, (s.apps t).Owns pos → (s.apps t).IsReturned
  | .list .readOverflow => ∀ q pos head views e got, s.list = .names q pos head views e got →
      s.clearPos ≤ pos + 1 + got.length
  | _ => True

/-- Skips only pass slots of crashed calls, the dent region has room, and the scan reads what was
published. -/
def ScanSafe (s : Sys) (a : Act) : Prop := InOrder s a ∧ ReadsIntact s a

/-! ### A cycle between the read of the dent region and the scan -/

/-- The listing reads its bounds and the dent region, a cycle runs, and the scan follows. -/
def clearedUnderScan : List Act :=
  [.list (.checkpointPos ⟨2, 10⟩), .list .head, .list .dents] ++ syncedCycle ++ [.list .readSlot]

theorem clearedUnderScan_run :
    ((system fourSlots).runLabels (createFile 0 2 5 [97]) (Sys.init (.init 8))).bind (fun s =>
      ((system fourSlots).runLabels clearedUnderScan s).map fun s' => (s.apps 0, s.list, s'.list)) =
      some (.returned (.create 5 2 0o100644 0 0 8 [97]) 0 1 5, .idle, .done ⟨2, 10⟩ []) := by
  decide +kernel

/-- **A cycle can clear the log under the scan**: the append of `a` returns, the listing starts and
reads the dent region, one cycle of `DoCheckpoint` moves the record to the dent region and clears
its slot, and the listing returns nothing. -/
theorem cleared_under_scan :
    ∃ s0 s1 req pos l v e q views, (system fourSlots).Reach CyclesOnly s0 ∧ s0.list = .idle ∧
      s0.apps 0 = .returned req pos l v ∧ (q.dir, e) ∈ req.events v ∧ e.version ≤ q.cutoff ∧
      (system fourSlots).Steps CyclesOnly s0 s1 ∧ s1.list = .done q views ∧
      ∀ S : ViewSorter, newest S views = [] := by
  obtain ⟨s, hs, he⟩ := bind_eq_some_iff.mp clearedUnderScan_run
  obtain ⟨s', hs', he'⟩ := map_eq_some_iff.mp he
  simp only [Prod.mk.injEq] at he'
  have hr : (system fourSlots).Reach CyclesOnly s :=
    System.reach_runLabels ⟨_, SSDDentRegion.wf_init 8, rfl⟩ (by simp [createFile, CyclesOnly]) hs
  have hst : (system fourSlots).Steps CyclesOnly s s' :=
    System.steps_runLabels _ (by simp [clearedUnderScan, syncedCycle, cycle, syncOne, CyclesOnly]) hs'
  refine ⟨s, s', _, _, _, _, ⟨5, 5, 8, false, [97]⟩, ⟨2, 10⟩, [], hr, he'.2.1, he'.1,
    by decide, by decide, hst, he'.2.2, fun S => ?_⟩
  exact List.eq_nil_iff_forall_not_mem.mpr fun w hw =>
    absurd (mem_of_mem_newest S hw) List.not_mem_nil

/-! ### Scans that read what was published -/

/-- The listing has taken the events into account. -/
def Took (q : Query) (views : List DentView) (evs : List (Nat × DentEntry)) : Prop :=
  ∀ e, (q.dir, e) ∈ evs → e.version ≤ q.cutoff → e.view q.dir ∈ views

/-- Where the listing stands with a record at `p` with the given events that was published before it
started: the record is ahead of the scan, or its events are collected. -/
def ListInv (s : Sys) (p : Nat) (evs : List (Nat × DentEntry)) : Prop :=
  match s.list with
  | .idle => True
  | .posRead _ pos => pos ≤ s.cp ∧ Aligned s pos
  | .headRead _ pos head => pos ≤ s.cp ∧ Aligned s pos ∧ head ≤ s.head ∧ p < head
  | .scan q pos head views =>
    Aligned s pos ∧ head ≤ s.head ∧ (pos ≤ p ∧ p < head ∨ Took q views evs)
  | .names q pos head views e got =>
    Aligned s pos ∧ head ≤ s.head ∧ (pos ≤ p ∧ p < head ∨ Took q views evs) ∧
      ∃ t req l v, s.apps t = .returned req pos l v ∧ e = req.published l v ∧
        got = req.conts.take got.length
  | .done q views => Took q views evs

variable {a : Act} {c : Config} {s s' : Sys}

theorem head_le_step (hst : step c s a = some s') : s.head ≤ s'.head := by
  cases Step.of_step hst with
  | app _ hst => cases hst <;> first | exact le_rfl | exact Nat.le_add_right _ _
  | ckpt hst | list hst => cases hst <;> exact le_rfl

theorem RingInv.cp_le_step (h : RingInv c s)
    (hst : (system c).step s a = some s') : s.cp ≤ s'.cp := by
  have hp := h.pcOk
  cases Step.of_step hst with
  | app _ hst | list hst => cases hst <;> exact le_rfl
  | ckpt hst =>
    cases hst with
    | advance hpc _ =>
      simp only [Sys.PcOk, hpc] at hp
      exact hp.1.trans hp.2
    | skipAdvance _ => exact Nat.le_succ _
    | _ => exact le_rfl

/-- New reservations start at the head, so a position stays aligned. -/
theorem Aligned.step {pos : Nat} (h : Aligned s pos)
    (hst : Wal.step c s a = some s') : Aligned s' pos := by
  refine ⟨h.1.trans (head_le_step hst), fun t p n hlive hs => ?_⟩
  cases Step.of_step hst with
  | @app t' _ _ hl hst =>
    by_cases ht : t = t'
    · subst ht
      cases hst with
      | reserve hpc =>
        simp only [Sys.setApp, Function.update_self, span, Option.some.injEq, Prod.mk.injEq] at hs
        have := h.1
        omega
      | begin hpc _ | room hpc _ | noRoom hpc _ | retry hpc | seqDrawn hpc _ | stamp hpc
      | continuation hpc | publish hpc =>
        simp only [Sys.setApp, Sys.dramWrite, Function.update_self] at hs
        exact h.2 t p n hl (by rw [hpc]; exact hs)
      | seqZero _ => exact h.2 t p n hl hs
      | crash _ _ _ => exact h.2 t p n hl hs
    · obtain ⟨happs, hcrashed⟩ := hst.other ht
      rw [happs] at hs
      rw [hcrashed] at hlive
      exact h.2 t p n hlive hs
  | ckpt hst | list hst => cases hst <;> exact h.2 t p n hlive hs

namespace ListInv

variable {c : Config} {d0 : SSDDentRegion} {s s' : Sys} {t p l v : Nat} {req : LogRequest}

/-- A step of another party. -/
theorem other {evs : List (Nat × DentEntry)} (h : ListInv s p evs) (hi : RingInv c s)
    (hst : (system c).step s a = some s') (hlist : s'.list = s.list) : ListInv s' p evs := by
  have hcp := hi.cp_le_step hst
  have hhead := head_le_step hst
  unfold ListInv at h ⊢
  rw [hlist]
  cases hpc : s.list <;> simp only [hpc] at h ⊢
  case posRead q pos => exact ⟨by omega, h.2.step hst⟩
  case headRead q pos head => exact ⟨by omega, h.2.1.step hst, by omega, h.2.2.2⟩
  case scan q pos head views => exact ⟨h.1.step hst, by omega, h.2.2⟩
  case names q pos head views e got =>
    obtain ⟨hal, hh, hp, t, req, l, v, ht, he⟩ := h
    exact ⟨hal.step hst, by omega, hp, t, req, l, v, returned_stable hst ht, he⟩
  case done q views => exact h

/-- A step of the listing. -/
theorem listStep {a : ListAct} (h : ListInv s p (req.events v)) (hi : RingInv c s)
    (hd : DentInv d0 s) (ht : s.apps t = .returned req p l v) (hok : ReadsIntact s (.list a))
    (hst : ListStep c s a s') : ListInv s' p (req.events v) := by
  unfold ListInv at h
  cases hst with
  | checkpointPos hpc => exact ⟨le_rfl, hi.aligned_cp⟩
  | head hpc =>
    simp only [hpc] at h
    exact ⟨h.1, h.2, le_rfl, hi.lt_head_of_returned ht⟩
  | @dents q pos head hpc =>
    simp only [hpc] at h
    obtain ⟨hle, hal, hh, hp⟩ := h
    refine ⟨hal, hh, ?_⟩
    -- a record behind the checkpoint that was read first is stored
    by_cases hlt : p < pos
    · refine .inr fun e he hv => (SSDDentRegion.mem_readDirLatestFlat hd.wf).mpr ⟨e, ?_, hv, rfl⟩
      exact hd.settled ⟨t, req, p, l, v, ht, by omega, he⟩
    · exact .inl ⟨by omega, hp⟩
  | @ready q pos head views e hpc hlt hslot he =>
    simp only [hpc] at h
    obtain ⟨hclear, -⟩ := hok q pos head views hpc hlt
    obtain ⟨t', req', l', v', ht', hpub⟩ := hi.returned_of_ready hclear (by omega) hslot he
    exact ⟨h.1, h.2.1, h.2.2, t', req', l', v', ht', hpub, rfl⟩
  | @stop q pos head views hpc hready =>
    simp only [hpc] at h
    obtain ⟨hal, hh, hp⟩ := h
    -- before the end of the tail the scan does not stop
    have hend : head ≤ pos := by
      by_contra hlt
      obtain ⟨hclear, hret⟩ := hok q pos head views hpc (by omega)
      obtain ⟨t', req', l', v', ht'⟩ := hi.record_at hal (by omega) hret
      have hnot := hready (by omega)
      rw [hi.slotAt_returned ht' hclear] at hnot
      simp [Slot.isReady, LogRequest.isReady_published] at hnot
    rcases hp with hp | hp
    · omega
    · exact hp
  | @overflow q pos head views e got hpc hmatch hneed =>
    simp only [hpc] at h
    obtain ⟨hal, hh, hp, t', req', l', v', ht', rfl, hgot⟩ := h
    have hwf := hi.ledger.wf t'
    rw [ht'] at hwf
    rw [LogRequest.needsCont_published hwf.1 hwf.2, decide_eq_true_eq] at hneed
    have hslot := hi.slotAt_continuation ht' (hok q pos head views _ got hpc) hneed
    exact ⟨hal, hh, hp, t', req', l', v', ht', rfl,
      RingInv.take_conts_succ hgot hneed (by rw [hslot]; rfl)⟩
  | @decode q pos head views e got hpc hneed =>
    simp only [hpc] at h
    obtain ⟨hal, hh, hp, t', req', l', v', ht', rfl, hgot⟩ := h
    have hwf := hi.ledger.wf t'
    rw [ht'] at hwf
    have hviews : listedViews q.dir q.cutoff (req'.published l' v') got =
        viewsOf q.dir q.cutoff (req'.events v') := by
      rw [← listedViews_published hwf.1 q.dir q.cutoff l' v']
      cases hm : listMatches q.dir q.cutoff (req'.published l' v') with
      | false => rw [listedViews_of_not_matches hm, listedViews_of_not_matches hm]
      | true => rw [RingInv.conts_of_not_needsCont hwf.1 hwf.2 hgot (hneed hm)]
    have hnext := hi.aligned_next hal ht'
    simp only [ListInv, hviews, LogRequest.slotCount_published hwf.1 hwf.2]
    refine ⟨hnext, hh, ?_⟩
    rcases hp with ⟨hle, hlt⟩ | htook
    · rcases hi.next_record ht' (by rw [ht]; rfl) hle with rfl | h1
      · -- the record just read is the one that is followed
        rw [ht] at ht'
        cases ht'
        exact .inr fun e he hv =>
          List.mem_append.mpr (.inr (mem_viewsOf.mpr ⟨e, he, hv, rfl⟩))
      · exact .inl ⟨h1, hlt⟩
    · exact .inr fun e he hv => List.mem_append.mpr (.inl (htook e he hv))

theorem step (h : ListInv s p (req.events v)) (hi : RingInv c s) (hd : DentInv d0 s)
    (ht : s.apps t = .returned req p l v) (hok : ReadsIntact s a)
    (hst : (system c).step s a = some s') : ListInv s' p (req.events v) := by
  cases Step.of_step hst with
  | app _ hst' | ckpt hst' => exact h.other hi hst (by cases hst' <;> rfl)
  | list hst' => exact h.listStep hi hd ht hok hst'

end ListInv

/-- **The listing is complete**: in every run in which the scan reads each slot before it is cleared
and after the append that reserved it has returned, and the dent region has room, the view returned
for the name of an event is at least as new as the event, if the append of the event had returned
before the listing started. -/
theorem listing_complete (S : ViewSorter) {c : Config} {s0 s1 : Sys} {q : Query}
    {views : List DentView} (hr : (system c).Reach ScanSafe s0) (hidle : s0.list = .idle)
    (hs : (system c).Steps ScanSafe s0 s1) (hdone : s1.list = .done q views)
    {t pos l v : Nat} {req : LogRequest} {e : DentEntry} (ht : s0.apps t = .returned req pos l v)
    (he : (q.dir, e) ∈ req.events v) (hcut : e.version ≤ q.cutoff) :
    ∃ w ∈ newest S views, w.name = (e.view q.dir).name ∧ e.version ≤ w.version := by
  have hr' := hr.weaken fun _ _ h => h.1
  have hi := RingInv.of_reach (hr'.weaken fun _ _ => And.left)
  obtain ⟨d0, hd⟩ := DentInv.of_reach hr'
  have hinv : ListInv s0 pos (req.events v) := by simp only [ListInv, hidle]
  obtain ⟨-, -, -, hend⟩ := System.Steps.invariant
    (I := fun x => RingInv c x ∧ DentInv d0 x ∧ x.apps t = .returned req pos l v ∧
      ListInv x pos (req.events v))
    (fun x a y hx hok hst => ⟨hx.1.step hok.1.1 hst, hx.2.1.step hx.1 hok.1 hst,
      returned_stable hst hx.2.2.1, hx.2.2.2.step hx.1 hx.2.1 hx.2.2.1 hok.2 hst⟩)
    hs ⟨hi, hd, ht, hinv⟩
  simp only [ListInv, hdone] at hend
  exact newest_dominates S (hend e he hcut)

/-- A test of `ScanSafe` for scans of slots of call 0. -/
def scanSafe (s : Sys) (a : Act) : Bool :=
  inOrder s a &&
  match a, s.list with
  | .list .readSlot, .scan _ pos head _ =>
    decide (head ≤ pos) || decide (s.clearPos ≤ pos) && (s.apps 0 matches .returned ..) &&
      (s.apps 0).span.any fun x => decide (x.1 ≤ pos) && decide (pos < x.1 + x.2)
  | .list .readOverflow, .names _ pos _ _ _ got => decide (s.clearPos ≤ pos + 1 + got.length)
  | _, _ => true

theorem RingInv.scanSafe (hi : RingInv c s) (h : Wal.scanSafe s a = true) : ScanSafe s a := by
  unfold Wal.scanSafe at h
  rw [Bool.and_eq_true] at h
  refine ⟨hi.inOrder h.1, ?_⟩
  replace h := h.2
  cases a with
  | app | ckpt => trivial
  | list a =>
    cases a with
    | readSlot =>
      intro q pos head views hlist hlt
      simp only [hlist, Bool.or_eq_true, Bool.and_eq_true, decide_eq_true_eq, any_eq_true] at h
      obtain ⟨⟨hclear, hret⟩, x, hx, hin⟩ := h.resolve_left (by omega)
      refine ⟨hclear, fun t ho => ?_⟩
      rw [hi.ledger.unique ho ((owns_of_span hx).mpr hin)]
      split at hret
      · exact ⟨_, _, _, _, ‹_›⟩
      · cases hret
    | readOverflow =>
      intro q pos head views e got hlist
      simpa [hlist] using h
    | _ => trivial

/-- The listing has read its bounds; then another file is created and a cycle replays the first one. -/
def listBeside : List Act :=
  [.list (.checkpointPos ⟨2, 10⟩), .list .head] ++ createFile 1 2 6 [98] ++ [.list .dents] ++
    [.ckpt (.openCycle ⟨false, 0, 0, false⟩), .ckpt .readSlot, .ckpt (.decode (fun _ => 0) true),
      .ckpt (.appendEntries 2 (.init 0)), .ckpt .settle] ++
    [.list .readSlot, .list .decode, .list .readSlot]

theorem listing_complete_beside :
    ∃ s0 s1 views, (system fourSlots).Reach ScanSafe s0 ∧
      s0.apps 0 = .returned (.create 5 2 0o100644 0 0 8 [97]) 0 1 5 ∧ s0.apps 1 = .idle ∧
      (system fourSlots).Steps ScanSafe s0 s1 ∧
      s1.apps 1 = .returned (.create 6 2 0o100644 0 0 8 [98]) 1 2 6 ∧ s1.pendingMain = 1 ∧
      s1.list = .done ⟨2, 10⟩ views ∧
      ∃ w ∈ newest insertionSorter views, w.name = [97] ∧ 5 ≤ w.version := by
  have hrun : ((system fourSlots).runChecked scanSafe (createFile 0 2 5 [97]) (Sys.init (.init 8))).bind
      (fun s => ((system fourSlots).runChecked scanSafe listBeside s).map
        fun s' => ((s.apps 0, s.apps 1), s.list, s'.apps 1, s'.pendingMain, s'.list)) =
      some ((.returned (.create 5 2 0o100644 0 0 8 [97]) 0 1 5, .idle), .idle,
        .returned (.create 6 2 0o100644 0 0 8 [98]) 1 2 6, 1,
        .done ⟨2, 10⟩ [⟨5, 2, 5, 8, false, [97]⟩]) := by
    decide +kernel
  obtain ⟨s, hs, he⟩ := bind_eq_some_iff.mp hrun
  obtain ⟨s', hs', he'⟩ := map_eq_some_iff.mp he
  simp only [Prod.mk.injEq] at he'
  obtain ⟨⟨h0, h1⟩, hlist, h1', hpend, hdone⟩ := he'
  have hsteps : ∀ {as : List Act} {x y : Sys}, RingInv fourSlots x →
      (system fourSlots).runChecked scanSafe as x = some y → (system fourSlots).Steps ScanSafe x y :=
    fun hx => System.steps_runChecked_of (fun x a y hi ht hst =>
      ⟨hi.scanSafe ht, hi.step (hi.scanSafe ht).1.1 hst⟩) hx
  have hstart : (system fourSlots).Reach ScanSafe (Sys.init (.init 8)) :=
    .start ⟨_, SSDDentRegion.wf_init 8, rfl⟩
  have hr := hstart.steps (hsteps (RingInv.init _) hs)
  have hst := hsteps (RingInv.of_reach (hr.weaken fun _ _ h => h.1.1)) hs'
  exact ⟨s, s', _, hr, h0, h1, hst, h1', hpend, hdone,
    listing_complete (e := ⟨5, 5, 8, false, [97]⟩) _ hr hlist hst hdone h0 (by decide) (by decide)⟩

end StaxFS.Wal
