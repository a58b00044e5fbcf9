import StaxFS.Dent.Cache
import StaxFS.Foundation.LastWriter
import StaxFS.Listing.Stored
import StaxFS.Wal.Drain

/-!
# The listing, and why checkpoints do not show in it

`CollectPersistentDentViews` as one function of the state: the events of the directory in the dent
region, then those in the log between the checkpoint and the head, sorted by name and falling
version, the first of each name kept (tombstones included).

With no append under way, the events it collects are the initial contents of the dent region and
the events of all returned records, wherever the checkpoint stands: behind the checkpoint they are
stored, ahead of the frontier they are in the log, in between they are in both places. Since the
outcome of the sort and the deduplication only depends on which events there are, cycles of
`DoCheckpoint` do not change the listing.

Results:
* `mem_collected`: what a listing collects, with no append under way and between two cycles.
* `checkpoint_transparent`: cycles of `DoCheckpoint` do not change the listing, as long as the dent
  region has room for what they replay.
* `full_region_shows`: a cycle on a full region changes the listing of another directory.
-/

namespace StaxFS.Wal

open Dent Foundation AppendPc List Option

/-- The `std::sort` of the listing: by name, newest first. -/
abbrev ViewSorter := Sorter DentView.name DentView.version

/-- Insertion sort in that order. -/
def insertionSorter : ViewSorter := Sorter.insertion _ _

/-- The continuation slots the extraction loop reads for the record at `pos`. -/
def readConts (c : Config) (s : Sys) (pos : Nat) (e : CompactLogEntry) : List (List Byte) :=
  ((List.range e.contCount).takeWhile (needsCont e)).map fun i =>
    (s.slotAt c (pos + 1 + i)).overflowData

/-- The scan of the log tail. -/
def scanTail (c : Config) (s : Sys) (q : Query) (head : Nat) : Nat → Nat → List DentView
  | 0, _ => []
  | fuel + 1, pos =>
    if pos < head then
      match s.slotAt c pos with
      | .entry e =>
        if e.isReady then
          listedViews q.dir q.cutoff e (readConts c s pos e) ++
            scanTail c s q head fuel (pos + e.slotCount)
        else []
      | .overflow _ => []
    else []

/-- The events `CollectPersistentDentViews` collects. Every record takes a slot at least, so the
scan ends within `head - cp` rounds. -/
def collected (c : Config) (s : Sys) (q : Query) : List DentView :=
  s.dent.readDirLatestFlat q.dir q.cutoff ++ scanTail c s q s.head (s.head - s.cp) s.cp

/-- `CollectPersistentDentViews`. -/
def collectPersistentDentViews (S : ViewSorter) (c : Config) (s : Sys) (q : Query) :
    List DentView :=
  newest S (collected c s q)

/-- No append is running. -/
def NoAppender (s : Sys) : Prop :=
  ∀ t, s.apps t = .idle ∨ (s.apps t).IsReturned ∨ ∃ req, s.apps t = .full req

/-! ### The scan -/

variable {s s' : Sys} {t pos : Nat} {c : Config} {q : Query} {x : DentView}

theorem NoAppender.returned (h : NoAppender s) {n : Nat}
    (hs : (s.apps t).span = some (pos, n)) : (s.apps t).IsReturned := by
  rcases h t with hi | hr | ⟨req, hf⟩
  · rw [hi] at hs
    cases hs
  · exact hr
  · rw [hf] at hs
    cases hs

/-- The extraction loop reads the continuation slots of a published record. -/
theorem readConts_published {l : Nat} (v : Nat) {req : LogRequest} (hwf : req.WF) (hl : l < 2 ^ 29)
    (hconts : ∀ i < req.contCount, (s.slotAt c (pos + 1 + i)).overflowData = req.contData i) :
    readConts c s pos (req.published l v) = req.conts := by
  unfold readConts
  rw [LogRequest.contCount_published hwf hl, takeWhile_eq_self_iff.mpr (by
    intro i hi
    rw [LogRequest.needsCont_published hwf hl, decide_eq_true_eq]
    exact mem_range.mp hi)]
  apply ext_getElem
  · simp [req.conts_length]
  · intro i h1 h2
    simp only [length_map, length_range] at h1
    rw [getElem_map, getElem_range, hconts i h1, req.conts_getElem h2]

/-- The records of the log from `pos` on, with their versions, up to the head or to the first slot
that is not published. -/
inductive Tail (c : Config) (s : Sys) : Nat → List (LogRequest × Nat) → Prop
  | done {pos : Nat} : s.head ≤ pos → Tail c s pos []
  | hole {pos : Nat} : (s.slotAt c pos).isReady = false → Tail c s pos []
  | record {pos l v : Nat} {req : LogRequest} {rs : List (LogRequest × Nat)} :
      pos < s.head → req.WF → l < 2 ^ 29 → s.slotAt c pos = .entry (req.published l v) →
      (∀ i < req.contCount, (s.slotAt c (pos + 1 + i)).overflowData = req.contData i) →
      Tail c s (pos + req.slots) rs → Tail c s pos ((req, v) :: rs)

/-- **The scan makes the views of the records it passes.** -/
theorem scanTail_eq {rs : List (LogRequest × Nat)} (h : Tail c s pos rs) :
    ∀ fuel, s.head ≤ pos + fuel → scanTail c s q s.head fuel pos =
      rs.flatMap fun r => viewsOf q.dir q.cutoff (r.1.events r.2) := by
  induction h with
  | done hle =>
    intro fuel _
    cases fuel with
    | zero => rfl
    | succ fuel => exact if_neg (by omega)
  | @hole pos hready =>
    intro fuel _
    cases fuel with
    | zero => rfl
    | succ fuel =>
      unfold scanTail
      cases hslot : s.slotAt c pos with
      | overflow o => simp
      | entry e =>
        rw [hslot] at hready
        have hready : e.isReady = false := hready
        simp [hready]
  | @record pos l v req rs hlt hwf hl hslot hconts _ ih =>
    intro fuel hfuel
    obtain ⟨fuel, rfl⟩ : ∃ k, fuel = k + 1 := ⟨fuel - 1, by omega⟩
    have hslots := req.slots_pos
    unfold scanTail
    rw [if_pos hlt, hslot]
    simp only [LogRequest.isReady_published, if_true]
    rw [readConts_published v hwf hl hconts, listedViews_published hwf,
      LogRequest.slotCount_published hwf hl, ih fuel (by omega), flatMap_cons]

/-- The position lies between two live reservations. -/
def Aligned (s : Sys) (pos : Nat) : Prop :=
  pos ≤ s.head ∧
    ∀ t p n, s.crashed t = false → (s.apps t).span = some (p, n) → p + n ≤ pos ∨ pos ≤ p

namespace RingInv

variable {c : Config} {s : Sys}

theorem aligned_cp (h : RingInv c s) : Aligned s s.cp :=
  ⟨h.progress.cp_le.trans h.progress.frontier_le, fun _ _ _ hl hs => h.progress.aligned hl hs⟩

variable {t pos l v : Nat} {req : LogRequest}

section

variable (h : RingInv c s)

include h

theorem live_of_returned (ht : (s.apps t).IsReturned) : s.crashed t = false := by
  by_contra hc
  exact h.progress.crashed_open (Bool.eq_true_of_not_eq_false hc) ht

theorem lt_head_of_returned (ht : s.apps t = .returned req pos l v) : pos < s.head :=
  h.ledger.lt_head (owns_start (by rw [ht]; rfl : (s.apps t).span = some (pos, _)))

/-- At an aligned position whose slot belongs to a returned call, a record starts. -/
theorem record_at {pos : Nat} (hal : Aligned s pos) (hlt : pos < s.head)
    (hret : ∀ t, (s.apps t).Owns pos → (s.apps t).IsReturned) :
    ∃ t req l v, s.apps t = .returned req pos l v := by
  obtain ⟨t, ho⟩ := h.ledger.owned hlt
  have hr := hret t ho
  obtain ⟨p, n, hs, hle, hlt'⟩ := ho.span_eq
  have hp : p = pos := by
    rcases hal.2 t p n (h.live_of_returned hr) hs with h1 | h1 <;> omega
  obtain ⟨req, p', l, v, ht⟩ := hr
  rw [ht] at hs
  cases hs
  exact ⟨t, req, l, v, hp ▸ ht⟩

/-- Nothing else starts within a record. -/
theorem next_record {t' p n : Nat}
    (ht : s.apps t = .returned req pos l v) (hs : (s.apps t').span = some (p, n)) (hle : pos ≤ p) :
    t' = t ∨ pos + req.slots ≤ p := by
  by_cases hin : p < pos + req.slots
  · exact .inl (h.ledger.unique (owns_start hs) ((owns_of_span (by rw [ht]; rfl)).mpr ⟨hle, hin⟩))
  · exact .inr (by omega)

theorem aligned_next (hal : Aligned s pos)
    (ht : s.apps t = .returned req pos l v) : Aligned s (pos + req.slots) := by
  have hspan : (s.apps t).span = some (pos, req.slots) := by rw [ht]; rfl
  have hslots := req.slots_pos
  have hend := h.ledger.lt_head
    ((owns_of_span hspan).mpr (⟨by omega, by omega⟩ : pos ≤ pos + req.slots - 1 ∧ _))
  refine ⟨by omega, fun t' p n hl hs => ?_⟩
  rcases hal.2 t' p n hl hs with h1 | h1
  · exact .inl (by omega)
  · rcases h.next_record ht hs h1 with rfl | h2
    · rw [hspan] at hs
      cases hs
      exact .inl le_rfl
    · exact .inr h2

end

end RingInv

/-- With no append running, the log from an aligned position on is the returned records there. -/
theorem RingInv.tail (h : RingInv c s) (hq : NoAppender s) :
    ∀ (fuel pos : Nat), s.clearPos ≤ pos → s.head ≤ pos + fuel → Aligned s pos →
      ∃ rs, Tail c s pos rs ∧ ∀ req v, (req, v) ∈ rs ↔
        ∃ t p l, s.apps t = .returned req p l v ∧ pos ≤ p := by
  intro fuel
  induction fuel with
  | zero =>
    intro pos _ hfuel _
    refine ⟨[], .done hfuel, fun req v => ⟨fun hm => absurd hm not_mem_nil, ?_⟩⟩
    rintro ⟨t, p, l, ht, hp⟩
    have := h.lt_head_of_returned ht
    omega
  | succ fuel ih =>
    intro pos hclear hfuel hal
    by_cases hlt : pos < s.head
    · obtain ⟨t, req, l, v, ht⟩ := h.record_at hal hlt fun t ho => by
        obtain ⟨p, n, hs, -⟩ := ho.span_eq
        exact hq.returned hs
      have hwf := h.ledger.wf t
      rw [ht] at hwf
      have hslots := req.slots_pos
      obtain ⟨rs, htail, hmem⟩ := ih (pos + req.slots) (by omega) (by omega) (h.aligned_next hal ht)
      refine ⟨(req, v) :: rs, .record hlt hwf.1 hwf.2 (h.slotAt_returned ht hclear) (fun i hi => ?_)
        htail, fun req' v' => ?_⟩
      · rw [h.slotAt_continuation ht (by omega) hi]
        rfl
      · rw [mem_cons, hmem]
        constructor
        · rintro (he | ⟨t', p', l', ht', hp'⟩)
          · cases he
            exact ⟨t, pos, l, ht, le_rfl⟩
          · exact ⟨t', p', l', ht', by omega⟩
        · rintro ⟨t', p', l', ht', hp'⟩
          rcases h.next_record ht (by rw [ht']; rfl) hp' with rfl | h1
          · rw [ht] at ht'
            cases ht'
            exact .inl rfl
          · exact .inr ⟨t', p', l', ht', h1⟩
    · refine ⟨[], .done (by omega), fun req v => ⟨fun hm => absurd hm not_mem_nil, ?_⟩⟩
      rintro ⟨t, p, l, ht, hp⟩
      have := h.lt_head_of_returned ht
      omega

/-- **The scan from an aligned position finds the returned records from there on.** -/
theorem mem_scanTail (h : RingInv c s) (hq : NoAppender s)
    (fuel pos : Nat) (hclear : s.clearPos ≤ pos) (hfuel : s.head ≤ pos + fuel)
    (hal : Aligned s pos) : x ∈ scanTail c s q s.head fuel pos ↔
      ∃ t req p l v, s.apps t = .returned req p l v ∧ pos ≤ p ∧
        x ∈ viewsOf q.dir q.cutoff (req.events v) := by
  obtain ⟨rs, htail, hmem⟩ := h.tail hq fuel pos hclear hfuel hal
  rw [scanTail_eq htail fuel hfuel, mem_flatMap]
  constructor
  · rintro ⟨⟨req, v⟩, hr, hx⟩
    obtain ⟨t, p, l, ht, hp⟩ := (hmem req v).mp hr
    exact ⟨t, req, p, l, v, ht, hp, hx⟩
  · rintro ⟨t, req, p, l, v, ht, hp, hx⟩
    exact ⟨(req, v), (hmem req v).mpr ⟨t, p, l, ht, hp⟩, hx⟩

theorem mem_viewsOf {dir cutoff : Nat} {evs : List (Nat × DentEntry)} :
    x ∈ viewsOf dir cutoff evs ↔ ∃ e, (dir, e) ∈ evs ∧ e.version ≤ cutoff ∧ x = e.view dir := by
  unfold viewsOf
  simp only [List.mem_map, mem_filter, Bool.and_eq_true, beq_iff_eq, decide_eq_true_eq]
  constructor
  · rintro ⟨⟨d, e⟩, ⟨he, rfl, hv⟩, rfl⟩
    exact ⟨e, he, hv, rfl⟩
  · rintro ⟨e, he, hv, rfl⟩
    exact ⟨(dir, e), ⟨he, rfl, hv⟩, rfl⟩

/-- **What a listing collects** with no append under way and between two cycles: the initial
contents of the dent region and the events of all returned records, wherever the checkpoint stands.
-/
theorem mem_collected {d0 : SSDDentRegion} (h : RingInv c s)
    (hd : DentInv d0 s) (hq : NoAppender s) (hpc : s.ckpt = .loop) : x ∈ collected c s q ↔
      ∃ e, (d0.Stored q.dir e ∨ Logged s s.head q.dir e) ∧ e.version ≤ q.cutoff ∧
        x = e.view q.dir := by
  have hclear : s.clearPos = s.cp := by simp [Sys.clearPos, hpc, CkptPc.clearPos]
  unfold collected
  rw [mem_append, SSDDentRegion.mem_readDirLatestFlat hd.wf,
    mem_scanTail h hq _ _ hclear.le (by omega) h.aligned_cp]
  constructor
  · rintro (⟨e, hs, hv, rfl⟩ | ⟨t, req, p, l, v, ht, -, hx⟩)
    · refine ⟨e, (hd.stored hs).imp id fun hl => ?_, hv, rfl⟩
      exact hl.mono h.progress.frontier_le fun _ _ _ _ _ ht => ht
    · obtain ⟨e, he, hv, rfl⟩ := mem_viewsOf.mp hx
      exact ⟨e, .inr ⟨t, req, p, l, v, ht, h.lt_head_of_returned ht, he⟩, hv, rfl⟩
  · rintro ⟨e, hs | ⟨t, req, p, l, v, ht, -, he⟩, hv, rfl⟩
    · exact .inl ⟨e, hd.kept hs, hv, rfl⟩
    · -- behind the checkpoint the event is stored, from there on the scan meets its record
      by_cases hlt : p < s.cp
      · refine .inl ⟨e, hd.settled ⟨t, req, p, l, v, ht, ?_, he⟩, hv, rfl⟩
        exact lt_of_lt_of_le hlt (le_max_right _ _)
      · exact .inr ⟨t, req, p, l, v, ht, by omega, mem_viewsOf.mpr ⟨e, he, hv, rfl⟩⟩

/-! ### Cycles in between -/

theorem sameCalls_of_steps (h : (system c).Steps CheckpointOnly s s') : SameCalls s s' := by
  refine System.Steps.invariant (I := fun x => SameCalls s x) (fun x a y hx hok hst => ?_) h
    ⟨rfl, rfl, rfl⟩
  obtain ⟨⟨b, rfl⟩, -⟩ := hok
  refine hx.trans ?_
  cases Step.of_step (show step c x (.ckpt b) = some y from hst) with
  | ckpt hst => cases hst <;> exact ⟨rfl, rfl, rfl⟩

/-- Cycles keep both invariants, the second for the same initial contents. -/
theorem dentInv_steps {d0 : SSDDentRegion}
    (h : (system c).Steps CheckpointOnly s s') (hi : RingInv c s) (hd : DentInv d0 s) :
    RingInv c s' ∧ DentInv d0 s' :=
  System.Steps.invariant (I := fun x => RingInv c x ∧ DentInv d0 x)
    (fun _ _ _ hi hok hst => ⟨hi.1.step hok.2.1 hst, hi.2.step hi.1 hok.2 hst⟩) h ⟨hi, hd⟩

/-- **Checkpoints are transparent.** With no append running, any number of cycles of `DoCheckpoint`,
whatever they decode before their deadline and whether they sync or not, leave the listing of every
directory at every cutoff as it is, if no two different events that it collects carry one name and
one version and the dent region has room for the batches. The two listings may even sort events that
compare equal differently. -/
theorem checkpoint_transparent (S T : ViewSorter) {c : Config} {s s' : Sys} {q : Query}
    (hr : (system c).Reach InOrder s) (hq : NoAppender s) (hpc : s.ckpt = .loop)
    (hties : NoTies DentView.name DentView.version (collected c s q))
    (hs : (system c).Steps CheckpointOnly s s') (hpc' : s'.ckpt = .loop) :
    collectPersistentDentViews T c s' q = collectPersistentDentViews S c s q := by
  have hi := RingInv.of_reach (hr.weaken fun _ _ => And.left)
  obtain ⟨d0, hd⟩ := DentInv.of_reach hr
  obtain ⟨hi', hd'⟩ := dentInv_steps hs hi hd
  obtain ⟨happs, -, hhead⟩ := sameCalls_of_steps hs
  have hq' : NoAppender s' := fun t => by rw [happs]; exact hq t
  refine (newest_eq_of_mem_iff S T hties fun x => ?_).symm
  rw [mem_collected hi hd hq hpc, mem_collected hi' hd' hq' hpc']
  simp only [Logged, happs, hhead]

/-- A step leaves every other call alone. -/
theorem apps_step_of_ne {a : Act}
    (hst : step c s a = some s') (ha : ∀ b, a ≠ .app t b) : s'.apps t = s.apps t := by
  cases Step.of_step hst with
  | @app t' b _ _ hst =>
    have hne : t ≠ t' := by
      rintro rfl
      exact ha b rfl
    exact (hst.other hne).1
  | ckpt hst | list hst => cases hst <;> rfl

/-- The calls that no label is about are as they were. -/
theorem apps_runLabels_of_ne {as : List Act}
    (ha : ∀ a ∈ as, ∀ b, a ≠ .app t b) (h : (system c).runLabels as s = some s') :
    s'.apps t = s.apps t := by
  have hsteps : (system c).Steps (fun _ a => ∀ b, a ≠ .app t b) s s' :=
    System.steps_runLabels as (fun a h _ => ha a h) h
  exact hsteps.invariant (I := fun x => x.apps t = s.apps t)
    (fun _ _ _ hi hok hst => (apps_step_of_ne hst hok).trans hi) rfl

/-- A run after which the calls it has started have returned. -/
theorem noAppender_runLabels {as : List Act} {dent : SSDDentRegion}
    (h : (system c).runLabels as (Sys.init dent) = some s)
    (hend : ∀ t b, .app t b ∈ as → (s.apps t).IsReturned) : NoAppender s := by
  intro t
  by_cases ht : ∃ b, .app t b ∈ as
  · obtain ⟨b, hb⟩ := ht
    exact .inr (.inl (hend t b hb))
  · refine .inl (apps_runLabels_of_ne (fun a ha b hab => ht ⟨b, hab ▸ ha⟩) h)

/-- Call `t` creates the file `name` with inode `i` in directory `dir`, at version `i`. -/
def createFile (t dir i : Nat) (name : Name) : List Act :=
  [.app t (.begin (.create i dir 0o100644 0 0 8 name)), .app t .loadCheckpoint, .app t (.cas false),
    .app t .allocLocalSeq, .app t (.nextVersion i), .app t .dramWrite]

/-- A cycle that replays one record of directory `dir`. -/
def cycle (due : Bool) (dir : Nat) (past : SSDDentRegion) : List Act :=
  [.ckpt (.openCycle ⟨false, 0, 0, due⟩), .ckpt .readSlot, .ckpt (.decode (fun _ => 0) false),
    .ckpt .readSlot, .ckpt (.appendEntries dir past), .ckpt .settle]

/-- The sync of one slot. -/
def syncOne : List Act := [.ckpt .clearSlot, .ckpt .advanceCheckpoint, .ckpt .afterCycle]

/-- A cycle that replays one record of the root directory, syncs and clears its slot. -/
def syncedCycle : List Act := cycle true 2 (.init 0) ++ syncOne

/-- `a` is created and gets to the dent region, `b` is created. -/
def createAB : List Act := createFile 0 2 5 [97] ++ syncedCycle ++ createFile 1 2 6 [98]

/-- One cycle replays `b` and does not sync, the next one syncs it. -/
def twoCycles : List Act :=
  cycle false 2 (.init 0) ++ [.ckpt .afterCycle, .ckpt (.openCycle ⟨false, 0, 0, true⟩),
    .ckpt .readSlot, .ckpt .settle] ++ syncOne

theorem checkpoint_transparent_twoCycles :
    ∃ s s', (system fourSlots).Reach InOrder s ∧
      (system fourSlots).Steps CheckpointOnly s s' ∧ s.cp = 1 ∧ s'.cp = 2 ∧
      collected fourSlots s ⟨2, 10⟩ = [⟨5, 2, 5, 8, false, [97]⟩, ⟨6, 2, 6, 8, false, [98]⟩] ∧
      collectPersistentDentViews insertionSorter fourSlots s' ⟨2, 10⟩ =
        collectPersistentDentViews insertionSorter fourSlots s ⟨2, 10⟩ := by
  have hrun : ((system fourSlots).runChecked inOrder createAB (Sys.init (.init 8))).bind
        (fun s => ((system fourSlots).runChecked (fun s a => inOrder s a && a.isCkpt) twoCycles
          s).map fun s' => ((s.apps 0, s.apps 1, s.cp, s'.cp), s.ckpt, s'.ckpt,
            collected fourSlots s ⟨2, 10⟩)) =
        some ((.returned (.create 5 2 0o100644 0 0 8 [97]) 0 1 5,
          .returned (.create 6 2 0o100644 0 0 8 [98]) 1 2 6, 1, 2), .loop, .loop,
          [⟨5, 2, 5, 8, false, [97]⟩, ⟨6, 2, 6, 8, false, [98]⟩]) := by
    decide +kernel
  obtain ⟨s, hs, he⟩ := bind_eq_some_iff.mp hrun
  obtain ⟨s', hs', he'⟩ := map_eq_some_iff.mp he
  simp only [Prod.mk.injEq] at he'
  obtain ⟨⟨h0, h1, hcp, hcp'⟩, hpc, hpc', hcoll⟩ := he'
  have hr := reach_inOrder (SSDDentRegion.wf_init 8) hs
  have hst : (system fourSlots).Steps CheckpointOnly s s' := by
    refine System.steps_runChecked_of (I := RingInv fourSlots) (fun s a s' hi ht hst => ?_)
      (RingInv.of_reach (hr.weaken fun _ _ => And.left)) hs'
    rw [Bool.and_eq_true] at ht
    have hok := hi.inOrder ht.1
    refine ⟨⟨?_, hok⟩, hi.step hok.1 hst⟩
    cases a with
    | ckpt b => exact ⟨b, rfl⟩
    | app | list => cases ht.2
  have hq : NoAppender s := by
    refine noAppender_runLabels (System.runLabels_of_runChecked hs) fun t b hb => ?_
    have ht : t = 0 ∨ t = 1 := by
      simp only [createAB, createFile, syncedCycle, cycle, syncOne, mem_append, mem_cons,
        Act.app.injEq, reduceCtorEq, not_mem_nil, or_false] at hb
      tauto
    rcases ht with rfl | rfl
    · exact ⟨_, _, _, _, h0⟩
    · exact ⟨_, _, _, _, h1⟩
  refine ⟨s, s', hr, hst, hcp, hcp', hcoll, checkpoint_transparent _ _ hr hq hpc ?_ hst hpc'⟩
  rw [hcoll]
  unfold NoTies
  decide

/-! ### A full region -/

/-- A region of two pages, the second one with the event of `a` in the root directory, when directory
3 gets its first page. `AllocPage` returns the page behind the capacity; what lies behind the page
table is taken for the frame of that page, here the frame of the root directory's page. -/
def overwrittenRegion : SSDDentRegion :=
  (((CachedRegion.init 8192 1 (fun _ => some 0) fun _ => CachedRegion.zeroPage).appendEntries 2
    [⟨5, 5, 8, false, [97]⟩]).appendEntries 3 [⟨6, 6, 8, false, [98]⟩]).stored

/-- `a` is created in the root directory and gets to the dent region, `b` is created in directory 3. -/
def createTwoDirs : List Act := createFile 0 2 5 [97] ++ syncedCycle ++ createFile 1 3 6 [98]

/-- **A cycle on a full region changes a listing**: before it the root directory has the file `a`,
afterwards the file `b` of another directory. -/
theorem full_region_shows :
    ∃ s s', (system fourSlots).Reach SkipsOnlyDead s ∧ NoAppender s ∧ s.ckpt = .loop ∧
      collected fourSlots s ⟨2, 10⟩ = [⟨5, 2, 5, 8, false, [97]⟩] ∧
      (system fourSlots).Steps (fun s a => (∃ b, a = .ckpt b) ∧ SkipsOnlyDead s a) s s' ∧
      s'.ckpt = .loop ∧
      collectPersistentDentViews insertionSorter fourSlots s ⟨2, 10⟩ = [⟨5, 2, 5, 8, false, [97]⟩] ∧
      collectPersistentDentViews insertionSorter fourSlots s' ⟨2, 10⟩ =
        [⟨6, 2, 6, 8, false, [98]⟩] := by
  have hrun : ((system fourSlots).runLabels createTwoDirs (Sys.init (.init 2))).bind (fun s =>
      ((system fourSlots).runLabels (cycle true 3 overwrittenRegion ++ syncOne) s).map fun s' =>
        ((s.apps 0, s.apps 1), (s.ckpt, s'.ckpt), collected fourSlots s ⟨2, 10⟩,
          collectPersistentDentViews insertionSorter fourSlots s ⟨2, 10⟩,
          collectPersistentDentViews insertionSorter fourSlots s' ⟨2, 10⟩)) =
      some ((.returned (.create 5 2 0o100644 0 0 8 [97]) 0 1 5,
        .returned (.create 6 3 0o100644 0 0 8 [98]) 1 2 6), (.loop, .loop),
        [⟨5, 2, 5, 8, false, [97]⟩], [⟨5, 2, 5, 8, false, [97]⟩], [⟨6, 2, 6, 8, false, [98]⟩]) := by
    decide +kernel
  obtain ⟨s, hs, he⟩ := bind_eq_some_iff.mp hrun
  obtain ⟨s', hs', he'⟩ := map_eq_some_iff.mp he
  simp only [Prod.mk.injEq] at he'
  obtain ⟨⟨h0, h1⟩, ⟨hpc, hpc'⟩, hcoll, hlist, hlist'⟩ := he'
  refine ⟨s, s', System.reach_runLabels ⟨_, SSDDentRegion.wf_init 2, rfl⟩ ?_ hs,
    noAppender_runLabels hs fun t b hb => ?_, hpc, hcoll, System.steps_runLabels _ ?_ hs', hpc', hlist,
    hlist'⟩
  · simp [createTwoDirs, createFile, syncedCycle, cycle, syncOne, SkipsOnlyDead]
  · have ht : t = 0 ∨ t = 1 := by
      simp only [createTwoDirs, createFile, syncedCycle, cycle, syncOne, mem_append, mem_cons,
        Act.app.injEq, reduceCtorEq, not_mem_nil, or_false] at hb
      tauto
    rcases ht with rfl | rfl
    · exact ⟨_, _, _, _, h0⟩
    · exact ⟨_, _, _, _, h1⟩
  · simp [cycle, syncOne, SkipsOnlyDead]

end StaxFS.Wal
