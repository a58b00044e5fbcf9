import StaxFS.Persist.Deferred
import StaxFS.Persist.Single

/-!
# The drain loop of `StopCheckpointThread`

`StopCheckpointThread` calls `DoCheckpoint(force_sync)` until it returns false. It returns false
when both logs are drained and synced and nothing is deferred, and true otherwise, whether or not
the call got any further. Two kinds of work never go away: a slot that was reserved by an appender
that died (`CheckpointLoop` skips such a slot, the drain loop does not), and a deferred change for
an inode that never comes to flash. The root is such an inode: `Init` puts it into memory only, and
no record creates it.

Results:
* `Forced.progress`: a call that returns true takes something off the backlog.
* `exists_choice`: a call is always possible.
* `drainLoop_ends`, `shutdown_ends`: if the inodes of all waiting changes are on flash or created by
  a record of the log, the loop ends, after at most as many calls as the backlog has items.
* `shutdown_hangs`: a file made in the root by another server keeps the loop going for ever.
-/

namespace StaxFS.Persist

open Foundation Wal Metadata List Option
open Bool (and_eq_true or_eq_true)

/-! ### The loop -/

section Loop

variable (srv : Nat) (records : List Record) (stuck : Bool) (d : Disk)

/-- `has_new_work`. `records` are the records up to the first slot that is not published; `stuck`
says that one of the logs has such a slot, whose appender died. -/
def Disk.hasNewWork : Bool :=
  d.drained < records.length || d.remoteDrained < d.remoteLog.length || stuck || d.deferred ≠ []

/-- `any_pending`. -/
def Disk.anyPending : Bool := d.released < d.drained || d.remoteReleased < d.remoteDrained

/-- What `force_sync` and the loops leave open: a record is replayed before the deadline is looked
at, the remote log has no deadline, and what was drained is synced. -/
def Choice.forced (ch : Choice) : Bool :=
  (records.length ≤ d.drained || 0 < ch.mainCount) &&
    ch.remoteCount == d.remoteLog.length - d.remoteDrained &&
    ch.sync == (d.released < d.drained + ch.mainCount ||
      d.remoteReleased < d.remoteDrained + ch.remoteCount)

/-- `DoCheckpoint(true)` with its result. -/
def Disk.forcedCheckpoint (ch : Choice) : Option (Bool × Disk) :=
  if d.hasNewWork records stuck || d.anyPending then
    if ch.forced records d then (d.doCheckpoint srv records ch).map (true, ·) else none
  else some (false, d)

/-- `n` turns of the loop: calls that returned true. -/
inductive DrainLoop : Disk → Nat → Disk → Prop
  | start (d : Disk) : DrainLoop d 0 d
  | turn {d d₁ d' : Disk} {n : Nat} {ch : Choice} :
      DrainLoop d n d₁ → d₁.forcedCheckpoint srv records stuck ch = some (true, d') →
      DrainLoop d (n + 1) d'

/-- The loop ends in state `d`: the call returns false. -/
def Disk.Drained : Prop := ∀ ch, d.forcedCheckpoint srv records stuck ch = some (false, d)

end Loop

/-- The positions of a server lie in its logs. -/
structure Disk.Positions (records : List Record) (d : Disk) : Prop where
  main : d.drained ≤ records.length
  remote : d.remoteDrained ≤ d.remoteLog.length

/-- What is left to do: records, remote entries, deferred entries, and one sync. -/
def Disk.backlog (records : List Record) (d : Disk) : Nat :=
  (records.length - d.drained) + (d.remoteLog.length - d.remoteDrained) + d.deferred.length +
    if d.anyPending then 1 else 0

/-- The inode is on flash, or a record that is still to be replayed creates it. -/
def Disk.ComesToFlash (records : List Record) (d : Disk) (i : Nat) : Prop :=
  i ≠ 0 ∧ ((d.region i).id ≠ 0 ∨ ∃ r ∈ records.drop d.drained, ∃ n,
    createdInode (logEntry r) = some n ∧ n.id = i)

/-- **When the loop ends**: every change that waits is for an inode that comes to flash. -/
def Disk.Resolvable (records : List Record) (d : Disk) : Prop :=
  ∀ c ∈ d.deferred ++ d.remoteLog.drop d.remoteDrained,
    c.op = .noop ∨ d.ComesToFlash records c.inodeId

/-! ### Coalesced entries -/

theorem consume_length (acc : List RemoteInodeChange × List RemoteInodeChange)
    (e : RemoteInodeChange) :
    (consume acc e).1.length + (consume acc e).2.length ≤ acc.1.length + acc.2.length + 1 := by
  have hinto : ∀ m : List RemoteInodeChange, (coalesceInto e m).length ≤ m.length + 1 := by
    intro m
    induction m with
    | nil => simp [coalesceInto]
    | cons cur rest ih =>
      rw [coalesceInto]
      split
      · simp
      · simpa using ih
  unfold consume
  split
  · have := hinto acc.2
    simp only
    omega
  · simp only [length_append, length_cons, length_nil]
    omega

/-- Coalescing makes no entries. -/
theorem length_coalesce (es : List RemoteInodeChange) : (coalesce es).length ≤ es.length := by
  have hfold : ∀ (es : List RemoteInodeChange) acc,
      ((es.foldl consume acc).1 ++ (es.foldl consume acc).2).length ≤
        acc.1.length + acc.2.length + es.length := by
    intro es
    induction es with
    | nil => simp
    | cons e es ih =>
      intro acc
      have h1 := ih (consume acc e)
      have h2 := consume_length acc e
      rw [foldl_cons, length_cons]
      omega
  simpa [coalesce] using hfold es ([], [])

/-- Entries whose inodes are on flash are applied. -/
theorem unapplied_eq_nil {cs : List RemoteInodeChange} {r : Region}
    (h : ∀ c ∈ cs, c.op = .noop ∨ (r c.inodeId).id ≠ 0) : unapplied r cs = [] := by
  induction cs generalizing r with
  | nil => rfl
  | cons c cs ih =>
    rw [unapplied, if_pos ((applyOne_snd r c).mpr (h c mem_cons_self))]
    refine ih fun e he => ?_
    rw [applyOne_id]
    exact h e (mem_cons_of_mem _ he)

theorem length_unapplied_le (r : Region) (cs : List RemoteInodeChange) :
    (unapplied r cs).length ≤ cs.length := by
  have := (perm_applied r cs).length_eq
  rw [length_append] at this
  omega

/-! ### A call that returns true -/

section Progress

variable {srv : Nat} {records : List Record} {stuck : Bool} {d d' : Disk} {ch : Choice}

/-- What is known of a call that returns true. -/
structure Forced (srv : Nat) (records : List Record) (stuck : Bool) (d : Disk) (ch : Choice)
    (d' : Disk) : Prop where
  work : d.hasNewWork records stuck = true ∨ d.anyPending = true
  cycled : Cycled srv records d ch d'
  cut : ch.buckets = [] ∨ 0 < ch.cut
  nonempty : ∀ b ∈ ch.buckets, b ≠ []
  trimmed : trims d.hardLimit (d.nextDeferred srv records ch) ch.dropped ch.kept = true
  mainCount : records.length ≤ d.drained ∨ 0 < ch.mainCount
  remoteCount : ch.remoteCount = d.remoteLog.length - d.remoteDrained
  sync : ch.sync = true ↔ d.released < d.drained + ch.mainCount ∨
    d.remoteReleased < d.remoteDrained + ch.remoteCount

theorem Forced.of_forcedCheckpoint (h : d.forcedCheckpoint srv records stuck ch = some (true, d')) :
    Forced srv records stuck d ch d' := by
  unfold Disk.forcedCheckpoint at h
  split at h
  · rename_i hwork
    split at h
    · rename_i hforced
      obtain ⟨x, hx, he⟩ := map_eq_some_iff.mp h
      obtain rfl : x = d' := (Prod.mk.inj he).2
      simp only [Choice.forced, and_eq_true, or_eq_true, decide_eq_true_eq, beq_iff_eq]
        at hforced
      have hcyc := Cycled.of_doCheckpoint hx
      unfold Disk.doCheckpoint at hx
      split at hx
      · rename_i hadm
        simp only [Disk.admits, bucketsOf, and_eq_true, or_eq_true, decide_eq_true_eq,
          List.all_eq_true] at hadm
        obtain ⟨⟨⟨⟨⟨-, -⟩, hbuckets⟩, hcut⟩, htrim⟩, -⟩ := hadm
        refine ⟨by simpa using hwork, hcyc, hcut, fun b hb => (hbuckets.1.1.2 b hb).1, htrim,
          hforced.1.1, hforced.1.2, ?_⟩
        rw [hforced.2]
        simp
      · cases hx
    · cases h
  · cases h

namespace Forced

section

variable (h : Forced srv records stuck d ch d')

include h

/-- After the call everything that was drained is synced. -/
theorem synced : d'.anyPending = false := by
  have hcyc := h.cycled
  cases hcyc with
  | drained hadm hs =>
    have hnot := mt h.sync.mpr (by rw [hs]; simp)
    simp only [not_or, Nat.not_lt] at hnot
    simp only [Disk.anyPending, Bool.or_eq_false_iff, decide_eq_false_iff_not, Nat.not_lt]
    exact hnot
  | synced hadm hs => simp [Disk.anyPending, Disk.flush, Disk.drain]

theorem positions : d'.Positions records := by
  obtain ⟨-, hmain, hremote, hlog, -⟩ := h.cycled.eq_drain
  exact ⟨hmain ▸ h.cycled.admitted.main, hremote ▸ hlog ▸ h.cycled.admitted.remote⟩

/-- The whole remote log is drained. -/
theorem remote_done : d'.remoteLog.length - d'.remoteDrained = 0 := by
  obtain ⟨-, -, hremote, hlog, -⟩ := h.cycled.eq_drain
  have := h.remoteCount
  rw [hremote, hlog]
  omega

theorem kept_le : d'.deferred.length ≤ (d.nextDeferred srv records ch).length := by
  obtain ⟨-, -, -, -, hdef⟩ := h.cycled.eq_drain
  have := h.cycled.admitted.trimmed.length_eq
  rw [length_append] at this
  rw [hdef]
  omega

/-- The entries of the call are no more than what waited. -/
theorem entries_le : (ch.attempted ++ (ch.buckets.drop ch.cut).flatten).length ≤
      d.deferred.length + (d.remoteLog.length - d.remoteDrained) := by
  rw [attempted_append, h.cycled.admitted.buckets.length_eq, Disk.remoteEntries]
  refine (length_coalesce _).trans ?_
  rw [length_append, length_take, length_drop]
  have := h.remoteCount
  omega

theorem deferred_le :
    d'.deferred.length ≤ d.deferred.length + (d.remoteLog.length - d.remoteDrained) := by
  refine h.kept_le.trans (le_trans ?_ h.entries_le)
  have := length_unapplied_le (d.replayRegion srv records ch) ch.attempted
  rw [Disk.nextDeferred, length_append, length_append]
  omega

/-- A key of an entry is a key of what waited. -/
theorem entry_key {c : RemoteInodeChange} (hc : c ∈ ch.attempted ++ ch.kept) :
    ∃ b ∈ d.deferred ++ d.remoteLog.drop d.remoteDrained, c.op = b.op ∧ c.inodeId = b.inodeId := by
  obtain ⟨b, hb, hkey⟩ := coalesce_key (h.cycled.admitted.mem_remoteEntries hc)
  refine ⟨b, ?_, hkey⟩
  rcases mem_append.mp hb with hb | hb
  · exact mem_append_left _ hb
  · exact mem_append_right _ (mem_of_mem_take hb)

/-- With no record left, the entries of the first bucket are applied. -/
theorem deferred_lt (hres : d.Resolvable records) (hmain : records.length ≤ d.drained)
    (hwait : 0 < d.deferred.length + (d.remoteLog.length - d.remoteDrained)) :
    d'.deferred.length < d.deferred.length + (d.remoteLog.length - d.remoteDrained) := by
  have hregion : d.replayRegion srv records ch = d.region := by
    have hnone : (placed srv records).drop d.drained = [] :=
      drop_eq_nil_of_le (by rwa [length_placed])
    rw [Disk.replayRegion, Disk.replayed, hnone, take_nil]
    rfl
  have happlied : unapplied (d.replayRegion srv records ch) ch.attempted = [] := by
    refine unapplied_eq_nil fun c hc => ?_
    obtain ⟨b, hb, hop, hid⟩ := h.entry_key (mem_append_left _ hc)
    rw [hregion]
    rcases hres b hb with hnoop | ⟨-, hflash | ⟨r, hr, -⟩⟩
    · exact .inl (hop.trans hnoop)
    · exact .inr (hid ▸ hflash)
    · rw [drop_eq_nil_of_le hmain] at hr
      cases hr
  -- something is attempted
  have hsome : 0 < ch.attempted.length ∨
      (ch.attempted ++ (ch.buckets.drop ch.cut).flatten).length = 0 := by
    rcases hb : ch.buckets with _ | ⟨b, bs⟩
    · exact .inr (by simp [Choice.attempted, hb])
    · left
      have hcut : 0 < ch.cut := h.cut.resolve_left (by simp [hb])
      obtain ⟨k, hk⟩ : ∃ k, ch.cut = k + 1 := ⟨ch.cut - 1, by omega⟩
      have hbne := length_pos_iff.mpr (h.nonempty b (by simp [hb]))
      rw [Choice.attempted, hb, hk, take_succ_cons, flatten_cons, length_append]
      omega
  have hkept := h.kept_le
  have hentries := h.entries_le
  rw [Disk.nextDeferred, happlied, nil_append] at hkept
  rw [length_append] at hsome hentries
  omega

end

/-- **A call that returns true takes something off the backlog.** -/
theorem progress (h : Forced srv records false d ch d') (hres : d.Resolvable records) :
    d'.backlog records < d.backlog records := by
  have hdone := h.remote_done
  obtain ⟨-, hmain, -, -, -⟩ := h.cycled.eq_drain
  have hadm := h.cycled.admitted.main
  have hle := h.deferred_le
  simp only [Disk.backlog, h.synced, hdone, hmain, Bool.false_eq_true, if_false, Nat.add_zero]
  rcases h.mainCount with hfull | hpos
  · by_cases hwait : 0 < d.deferred.length + (d.remoteLog.length - d.remoteDrained)
    · have hlt := h.deferred_lt hres hfull hwait
      omega
    · -- nothing waits: the call was made for a sync
      have hpend : d.anyPending = true := by
        refine h.work.resolve_left ?_
        have hnil : d.deferred = [] := eq_nil_of_length_eq_zero (by omega)
        simp only [Disk.hasNewWork, hnil, Bool.or_false, or_eq_true, decide_eq_true_eq,
          not_or, ne_eq, not_true, decide_false]
        omega
      rw [if_pos hpend]
      omega
  · omega

/-- What waits after a call is resolvable as well. -/
theorem resolvable (h : Forced srv records stuck d ch d') (hres : d.Resolvable records) :
    d'.Resolvable records := by
  obtain ⟨hregion, hmain, hremote, hlog, hdef⟩ := h.cycled.eq_drain
  have hnone : d'.remoteLog.drop d'.remoteDrained = [] :=
    drop_eq_nil_of_le (by have := h.remote_done; omega)
  intro c hc
  rw [hnone, append_nil, hdef] at hc
  obtain ⟨b, hb, hop, hid⟩ := h.entry_key (mem_append_right _ hc)
  rcases hres b hb with hnoop | ⟨h0, hcomes⟩
  · exact .inl (hop.trans hnoop)
  refine .inr ⟨hid ▸ h0, ?_⟩
  rw [hid, hregion, hmain]
  rcases hcomes with hflash | ⟨r, hr, n, hn, hni⟩
  · exact .inl (runOps_id_ne h0 _ hflash)
  · -- the record is replayed by this call, or still to come
    rw [← take_append_drop ch.mainCount (records.drop d.drained), drop_drop] at hr
    rcases mem_append.mp hr with hr | hr
    · left
      have hplaced : ∃ p ∈ d.replayed srv records ch, p.2 = r := by
        rw [← map_snd_replayed srv records d ch] at hr
        exact List.mem_map.mp hr
      obtain ⟨p, hp, rfl⟩ := hplaced
      rw [← hni]
      refine runOps_of_write ?_ (hni ▸ h0) _
      refine mem_append_left _ (mem_append_left _ (mem_flatMap.mpr ⟨p, hp, ?_⟩))
      exact mem_append_left _ (List.mem_map.mpr ⟨n, by simp [hn], rfl⟩)
    · exact .inr ⟨r, hr, n, hn, hni⟩

end Forced

end Progress

/-! ### A call is possible -/

/-- Two entries of one page. -/
def samePage (c e : RemoteInodeChange) : Bool := pageOffsetFor c.inodeId == pageOffsetFor e.inodeId

/-- The entries in sorted page buckets, the page of the first entry first. -/
def pageBuckets : Nat → List RemoteInodeChange → List (List RemoteInodeChange)
  | 0, _ => []
  | _, [] => []
  | fuel + 1, c :: cs =>
    ((c :: cs).filter (samePage c)).mergeSort bucketLe ::
      pageBuckets fuel ((c :: cs).filter (!samePage c ·))

section Buckets

theorem bucketLe_trans (a b c : RemoteInodeChange) (hab : bucketLe a b = true)
    (hbc : bucketLe b c = true) : bucketLe a c = true := by
  simp only [bucketLe, or_eq_true, and_eq_true, decide_eq_true_eq, beq_iff_eq] at *
  omega

theorem bucketLe_total (a b : RemoteInodeChange) : (bucketLe a b || bucketLe b a) = true := by
  simp only [bucketLe, or_eq_true, and_eq_true, decide_eq_true_eq, beq_iff_eq]
  omega

/-- What the buckets are made of. -/
theorem pageBuckets_spec (fuel : Nat) (es : List RemoteInodeChange) (hlen : es.length ≤ fuel) :
    (pageBuckets fuel es).flatten.Perm es ∧
    (∀ b ∈ pageBuckets fuel es, b ≠ [] ∧ (∀ c ∈ b, ∀ e ∈ b, samePage c e = true) ∧
      b.Pairwise fun c e => bucketLe c e = true) ∧
    (pageBuckets fuel es).Pairwise fun b b' => ∀ c ∈ b, ∀ e ∈ b', samePage c e = false := by
  induction fuel generalizing es with
  | zero =>
    obtain rfl := eq_nil_of_length_eq_zero (Nat.le_zero.mp hlen)
    exact ⟨.refl _, forall_mem_nil _, .nil⟩
  | succ fuel ih =>
    cases es with
    | nil => exact ⟨.refl _, forall_mem_nil _, .nil⟩
    | cons c cs =>
      have hself : samePage c c = true := by simp [samePage]
      have hrest : ((c :: cs).filter (!samePage c ·)).length ≤ fuel := by
        rw [filter_cons_of_neg (by simp [hself])]
        exact (length_filter_le _ _).trans (Nat.le_of_succ_le_succ hlen)
      obtain ⟨hperm, hbuckets, hpages⟩ := ih _ hrest
      have hsort := mergeSort_perm ((c :: cs).filter (samePage c)) bucketLe
      -- of the first bucket, and of all others
      have hfirst : ∀ x ∈ ((c :: cs).filter (samePage c)).mergeSort bucketLe,
          pageOffsetFor c.inodeId = pageOffsetFor x.inodeId := by
        intro x hx
        simpa [samePage] using (mem_filter.mp (hsort.mem_iff.mp hx)).2
      rw [pageBuckets]
      refine ⟨?_, ?_, pairwise_cons.mpr ⟨?_, hpages⟩⟩
      · rw [flatten_cons]
        exact (hsort.append hperm).trans (filter_append_perm _ _)
      · intro b hb
        rcases mem_cons.mp hb with rfl | hb
        · refine ⟨?_, fun x hx e he => ?_, pairwise_mergeSort bucketLe_trans bucketLe_total _⟩
          · have hmem : c ∈ ((c :: cs).filter (samePage c)).mergeSort bucketLe :=
              hsort.mem_iff.mpr (mem_filter.mpr ⟨mem_cons_self, hself⟩)
            exact ne_nil_of_mem hmem
          · simpa [samePage] using (hfirst x hx).symm.trans (hfirst e he)
        · exact hbuckets b hb
      · intro b hb x hx e he
        have hmem : e ∈ (c :: cs).filter (!samePage c ·) :=
          hperm.mem_iff.mp (mem_flatten.mpr ⟨b, hb, he⟩)
        have hother := (mem_filter.mp hmem).2
        simp only [samePage, Bool.not_eq_true', beq_eq_false_iff_ne] at hother ⊢
        exact hfirst x hx ▸ hother

theorem bucketsOf_pageBuckets (es : List RemoteInodeChange) :
    bucketsOf es (pageBuckets es.length es) = true := by
  obtain ⟨hperm, hbuckets, hpages⟩ := pageBuckets_spec es.length es (Nat.le_refl _)
  simp only [bucketsOf, and_eq_true, isPerm_iff, List.all_eq_true, decide_eq_true_eq]
  refine ⟨⟨⟨hperm, fun b hb => ⟨(hbuckets b hb).1, fun c hc e he => ?_⟩⟩, ?_⟩,
    fun b hb => (hbuckets b hb).2.2⟩
  · simpa [samePage] using (hbuckets b hb).2.1 c hc e he
  · refine hpages.imp fun h c hc e he => ?_
    simpa [samePage] using h c hc e he

/-- A way to enforce the hard limit. -/
theorem exists_trim (limit : Nat) (es : List RemoteInodeChange) :
    ∃ dropped kept, trims limit es dropped kept = true := by
  by_cases hle : es.length ≤ limit
  · exact ⟨[], es, by simp [trims, hle]⟩
  · let sorted := es.mergeSort fun a b => a.version ≤ b.version
    have hperm : sorted.Perm es := mergeSort_perm _ _
    have hsorted : sorted.Pairwise fun a b => decide (a.version ≤ b.version) = true := by
      refine pairwise_mergeSort (fun a b c hab hbc => ?_) (fun a b => ?_) es
      · simp only [decide_eq_true_eq] at *
        omega
      · simp only [or_eq_true, decide_eq_true_eq]
        omega
    refine ⟨sorted.take (es.length - limit), sorted.drop (es.length - limit), ?_⟩
    rw [trims, if_neg hle]
    simp only [and_eq_true, decide_eq_true_eq, isPerm_iff, List.all_eq_true,
      take_append_drop]
    refine ⟨⟨?_, hperm⟩, fun a ha b hb => ?_⟩
    · rw [length_drop, hperm.length_eq]
      omega
    · rw [← take_append_drop (es.length - limit) sorted, pairwise_append] at hsorted
      simpa using hsorted.2.2 a ha b hb

end Buckets

/-- **A call is always possible**: it replays and drains everything, and no deadline strikes. -/
theorem exists_choice {srv : Nat} {records : List Record} {stuck : Bool} {d : Disk}
    (hpos : d.Positions records) :
    ∃ ch r d', d.forcedCheckpoint srv records stuck ch = some (r, d') := by
  by_cases hwork : (d.hasNewWork records stuck || d.anyPending) = true
  · have hmain := hpos.main
    have hremote := hpos.remote
    -- everything but the trimmed list
    let all (dropped kept : List RemoteInodeChange) : Choice :=
      { mainCount := records.length - d.drained
        remoteCount := d.remoteLog.length - d.remoteDrained
        buckets := pageBuckets (d.remoteEntries ⟨0, d.remoteLog.length - d.remoteDrained, [], 0, [],
          [], true⟩).length (d.remoteEntries ⟨0, d.remoteLog.length - d.remoteDrained, [], 0, [],
            [],
          true⟩)
        cut := 1
        dropped := dropped
        kept := kept
        sync := d.released < records.length || d.remoteReleased < d.remoteLog.length }
    obtain ⟨dropped, kept, htrim⟩ :=
      exists_trim d.hardLimit (d.nextDeferred srv records (all [] []))
    have hforced : (all dropped kept).forced records d = true := by
      simp only [Choice.forced, all, and_eq_true, or_eq_true, decide_eq_true_eq,
        beq_iff_eq, and_true]
      refine ⟨by omega, ?_⟩
      rw [Nat.add_sub_cancel' hmain, Nat.add_sub_cancel' hremote]
    have hadm : d.admits srv records (all dropped kept) = true := by
      simp only [Disk.admits, and_eq_true, decide_eq_true_eq]
      refine ⟨⟨⟨⟨⟨?_, ?_⟩, bucketsOf_pageBuckets _⟩, ?_⟩, htrim⟩, ?_⟩
      · exact (Nat.add_sub_cancel' hmain).le
      · exact (Nat.add_sub_cancel' hremote).le
      · simp [all]
      · simp only [all, Nat.add_sub_cancel' hmain, Nat.add_sub_cancel' hremote]
        cases (decide (d.released < records.length) ||
          decide (d.remoteReleased < d.remoteLog.length))
          <;> rfl
    obtain ⟨d', hd'⟩ : ∃ d', d.doCheckpoint srv records (all dropped kept) = some d' := by
      rw [Disk.doCheckpoint, if_pos hadm]
      split <;> exact ⟨_, rfl⟩
    exact ⟨all dropped kept, true, d', by
      rw [Disk.forcedCheckpoint, if_pos hwork, if_pos hforced, hd']; rfl⟩
  · refine ⟨⟨0, 0, [], 0, [], [], false⟩, false, d, ?_⟩
    rw [Disk.forcedCheckpoint, if_neg hwork]

/-! ### The loop ends -/

section Ends

variable {srv : Nat} {records : List Record} {d d' : Disk} {n : Nat}

theorem DrainLoop.positions {stuck : Bool} (h : DrainLoop srv records stuck d n d')
    (hpos : d.Positions records) : d'.Positions records := by
  cases h with
  | start => exact hpos
  | turn _ hcall => exact (Forced.of_forcedCheckpoint hcall).positions

/-- Every turn of the loop takes something off the backlog. -/
theorem DrainLoop.backlog (h : DrainLoop srv records false d n d') (hres : d.Resolvable records) :
    d'.Resolvable records ∧ n + d'.backlog records ≤ d.backlog records := by
  induction h with
  | start => exact ⟨hres, by omega⟩
  | turn _ hcall ih =>
    obtain ⟨hres₁, hle⟩ := ih
    have hf := Forced.of_forcedCheckpoint hcall
    have hlt := hf.progress hres₁
    exact ⟨hf.resolvable hres₁, by omega⟩

end Ends

/-- The loop makes at most as many turns as the backlog has items, whatever its calls do, and a call
that returns false is reached. -/
theorem drainLoop_ends {srv : Nat} {records : List Record} {d : Disk} (hpos : d.Positions records)
    (hres : d.Resolvable records) :
    (∀ n d', DrainLoop srv records false d n d' → n ≤ d.backlog records) ∧
      ∃ n d', DrainLoop srv records false d n d' ∧ d'.Drained srv records false := by
  refine ⟨fun n d' h => (Nat.le_add_right _ _).trans (h.backlog hres).2, ?_⟩
  by_contra hnever
  push Not at hnever
  -- otherwise the loop could be continued beyond the backlog
  have hlong : ∀ n, ∃ d', DrainLoop srv records false d n d' := by
    intro n
    induction n with
    | zero => exact ⟨d, .start d⟩
    | succ n ih =>
      obtain ⟨d₁, h₁⟩ := ih
      obtain ⟨ch, r, d₂, hcall⟩ := @exists_choice srv records false d₁ (h₁.positions hpos)
      cases r with
      | true => exact ⟨d₂, h₁.turn hcall⟩
      | false =>
        refine absurd (fun ch' => ?_) (hnever n d₁ h₁)
        have hidle : (d₁.hasNewWork records false || d₁.anyPending) = false := by
          by_contra hwork
          rw [Disk.forcedCheckpoint, if_pos (eq_true_of_ne_false hwork)] at hcall
          split at hcall
          · obtain ⟨x, -, he⟩ := map_eq_some_iff.mp hcall
            cases (Prod.mk.inj he).1
          · cases hcall
        rw [Disk.forcedCheckpoint, if_neg (by rw [hidle]; simp)]
  obtain ⟨d', h'⟩ := hlong (d.backlog records + 1)
  have := (h'.backlog hres).2
  omega

/-- **The positions of all servers lie in their logs** in every state of the machine. -/
theorem positions_reached {env : Env} {m : Machine}
    (h : (machine env).Reach (fun _ _ => True) m) (k : Nat) :
    (m.disks k).Positions (m.cluster.records k) := by
  refine h.invariant (I := fun m => ∀ k, (m.disks k).Positions (m.cluster.records k)) ?_ ?_ k
  · rintro m ⟨config, unset, limit, rfl⟩ k
    exact ⟨Nat.zero_le _, Nat.zero_le _⟩
  · intro m a m' _ hi _ hst j
    cases MachineStep.of_step hst with
    | call hd =>
      obtain ⟨rs, hrep⟩ := hd.replays
      refine ⟨?_, (hi j).remote⟩
      dsimp only
      rw [hrep.records j, length_append]
      exact Nat.le_add_right_of_le (hi j).main
    | @cycle srv ch d hc =>
      rw [checkpoint_disks, checkpoint_records]
      by_cases hj : j = srv
      · subst hj
        obtain ⟨-, hmain, hremote, hlog, -⟩ := hc.eq_drain
        rw [Function.update_self]
        exact ⟨hmain ▸ hc.admitted.main, hremote ▸ hlog ▸ hc.admitted.remote⟩
      · rw [Function.update_of_ne hj]
        exact hi j
    | @deliver srv t n hne =>
      rw [deliver_disks hne, deliver_cluster]
      refine ⟨(hi j).main, ?_⟩
      dsimp only
      split
      · rename_i ht
        rw [ht, length_append]
        exact Nat.le_add_right_of_le (hi t).remote
      · exact (hi j).remote

instance (records : List Record) (d : Disk) (i : Nat) : Decidable (d.ComesToFlash records i) :=
  decidable_of_iff (i ≠ 0 ∧ ((d.region i).id ≠ 0 ∨ ∃ r ∈ records.drop d.drained,
      ∃ n ∈ createdInode (logEntry r), n.id = i))
    (by simp only [Disk.ComesToFlash, Option.mem_def])

instance (records : List Record) (d : Disk) : Decidable (d.Resolvable records) :=
  inferInstanceAs (Decidable (∀ c ∈ _, _))

/-- **Shutdown terminates** in every state of the machine where each waiting change is for an inode
that comes to flash, if no appender died with a slot. -/
theorem shutdown_ends {env : Env} {m : Machine} (h : (machine env).Reach (fun _ _ => True) m)
    (srv : Nat) (hres : (m.disks srv).Resolvable (m.cluster.records srv)) :
    (∀ n d', DrainLoop srv (m.cluster.records srv) false (m.disks srv) n d' →
      n ≤ (m.disks srv).backlog (m.cluster.records srv)) ∧
    ∃ n d', DrainLoop srv (m.cluster.records srv) false (m.disks srv) n d' ∧
      d'.Drained srv (m.cluster.records srv) false :=
  drainLoop_ends (positions_reached h srv) hres

/-- Server 1 makes a file in `/a`, a directory on the flash of server 0: the conditions are met. -/
theorem shutdown_ends_subdirectory :
    ∃ m, (machine steadyEnv).Reach (fun _ _ => True) m ∧
      (m.disks 0).backlog (m.cluster.records 0) = 1 ∧
      ∃ n d', DrainLoop 0 (m.cluster.records 0) false (m.disks 0) n d' ∧
        d'.Drained 0 (m.cluster.records 0) false := by
  exact System.exists_reach_of_labels
    (l := [.call 0 0 (.mkdir pathA 0o755 1 2), replayAll 1, .call 1 0 (.create pathAX 0o644 1 2),
      .cycle 1 ⟨1, 0, [], 0, [], [], true⟩, .deliver 1 0 1])
    (Q := fun m => (m.disks 0).backlog (m.cluster.records 0) = 1 ∧
      (m.disks 0).Resolvable (m.cluster.records 0))
    (freshMachine_start _) (fun _ _ _ => trivial) (by decide +kernel)
    fun m hreach h => ⟨h.1, (shutdown_ends hreach 0 h.2).2⟩

/-- The change of the root's child count that server 1 sends when it makes a file in the root. -/
def rootChange : RemoteInodeChange := ⟨.blocksDelta, kRootId, 1, 4194304001, [(1, 0)]⟩

/-- Only a change of the root waits, and the root is not on flash. -/
structure RootWaits (d : Disk) : Prop where
  region : (d.region kRootId).id = 0
  main : d.drained = 0
  remote : d.remoteDrained = d.remoteLog.length
  deferred : d.deferred = [rootChange]
  limit : 1 ≤ d.hardLimit

/-- A call leaves it so. -/
theorem RootWaits.forced {d d' : Disk} {ch : Choice} (h : RootWaits d)
    (hf : Forced 0 [] false d ch d') : RootWaits d' := by
  obtain ⟨hregion, hmain, hremote, hlog, hdef⟩ := hf.cycled.eq_drain
  have hadm := hf.cycled.admitted
  have hcount : ch.remoteCount = 0 := by
    have := hf.remoteCount
    have := h.remote
    omega
  have hmainCount : ch.mainCount = 0 := by
    have := hadm.main
    simp only [length_nil] at this
    omega
  have hentries : d.remoteEntries ch = [rootChange] := by
    rw [Disk.remoteEntries, h.deferred, hcount, take_zero]
    rfl
  -- the entry is attempted and fails, or is behind the deadline
  have hflat : ch.attempted ++ (ch.buckets.drop ch.cut).flatten = [rootChange] := by
    rw [attempted_append]
    exact perm_singleton.mp (hentries ▸ hadm.buckets)
  have hnone : d.replayed 0 [] ch = [] := by
    rw [Disk.replayed]
    exact (congrArg _ drop_nil).trans take_nil
  have hreplay : d.replayRegion 0 [] ch = d.region := by
    rw [Disk.replayRegion, hnone]
    rfl
  have hunapplied : unapplied d.region ch.attempted = ch.attempted := by
    have hatt : ch.attempted = [] ∨ ch.attempted = [rootChange] := by
      rcases append_eq_singleton_iff.mp hflat with ⟨ha, -⟩ | ⟨ha, -⟩
      · exact .inl ha
      · exact .inr ha
    rcases hatt with ha | ha
    · rw [ha]
      rfl
    · have hfail : (applyOne d.region rootChange).2 = false := by
        rw [← Bool.not_eq_true, applyOne_snd]
        simp [rootChange, h.region]
      rw [ha, unapplied, hfail]
      rfl
  have hnext : d.nextDeferred 0 [] ch = [rootChange] := by
    rw [Disk.nextDeferred, hreplay, hunapplied, hflat]
  have hkept : ch.kept = [rootChange] := by
    have htrim := hf.trimmed
    rw [hnext, trims, if_pos (show [rootChange].length ≤ d.hardLimit from h.limit)] at htrim
    exact of_decide_eq_true ((Bool.and_eq_true_iff.mp htrim).2)
  have hops : d.cycleOps 0 [] ch = ch.attempted.map .apply := by
    rw [Disk.cycleOps, Disk.blocksDelta, hnone]
    exact append_nil _
  refine ⟨?_, by rw [hmain, hmainCount, h.main], by rw [hremote, hcount, hlog, h.remote]; rfl,
    hdef.trans hkept, ?_⟩
  · rw [hregion, hops]
    have hsame : ∀ (cs : List RemoteInodeChange) (r : Region) (i : Nat),
        (runOps r (cs.map .apply) i).id = (r i).id := by
      intro cs
      induction cs with
      | nil => exact fun _ _ => rfl
      | cons c cs ih =>
        intro r i
        rw [map_cons, runOps_cons, ih]
        exact applyOne_id r c i
    rw [hsame]
    exact h.region
  · have : d'.hardLimit = d.hardLimit := by
      cases hf.cycled <;> rfl
    rw [this]
    exact h.limit

/-- **The drain loop need not end**: server 1 makes a file in the root and the change of the root's
child count reaches server 0. Every call defers it again and returns true. -/
theorem shutdown_hangs :
    ∃ m, (machine steadyEnv).Reach (fun _ _ => True) m ∧
      (∀ n, ∃ d', DrainLoop 0 (m.cluster.records 0) false (m.disks 0) n d') ∧
      ∀ n d', DrainLoop 0 (m.cluster.records 0) false (m.disks 0) n d' →
        ¬d'.Drained 0 (m.cluster.records 0) false := by
  refine System.exists_reach_of_labels
    (l := [.call 1 0 (.create pathA 0o644 1 2), .cycle 1 ⟨1, 0, [], 0, [], [], true⟩,
      .deliver 1 0 1, .cycle 0 ⟨0, 1, [[rootChange]], 1, [], [rootChange], true⟩])
    (Q := fun m => (m.cluster.records 0).length = 0 ∧ ((m.disks 0).region kRootId).id = 0 ∧
      (m.disks 0).drained = 0 ∧ (m.disks 0).remoteDrained = (m.disks 0).remoteLog.length ∧
      (m.disks 0).deferred = [rootChange] ∧ 1 ≤ (m.disks 0).hardLimit)
    (freshMachine_start _) (fun _ _ _ => trivial) (by decide +kernel) fun m hreach hm => ?_
  obtain ⟨hlen, hregion, hmain, hremote, hdef, hlimit⟩ := hm
  have hpos := positions_reached hreach 0
  rw [eq_nil_of_length_eq_zero hlen] at hpos ⊢
  have hwaits : ∀ n d', DrainLoop 0 [] false (m.disks 0) n d' → RootWaits d' := by
    intro n d' hloop
    induction hloop with
    | start => exact ⟨hregion, hmain, hremote, hdef, hlimit⟩
    | turn _ hcall ih => exact ih.forced (.of_forcedCheckpoint hcall)
  have hwork : ∀ {d : Disk}, RootWaits d → (d.hasNewWork [] false || d.anyPending) = true := by
    intro d hw
    simp [Disk.hasNewWork, hw.deferred]
  refine ⟨fun n => ?_, fun n d' hloop hdrained => ?_⟩
  · induction n with
    | zero => exact ⟨_, .start _⟩
    | succ n ih =>
      obtain ⟨d₁, h₁⟩ := ih
      obtain ⟨ch, r, d₂, hcall⟩ := @exists_choice 0 [] false d₁ (h₁.positions hpos)
      cases r with
      | true => exact ⟨d₂, h₁.turn hcall⟩
      | false =>
        rw [Disk.forcedCheckpoint, if_pos (hwork (hwaits n d₁ h₁))] at hcall
        split at hcall
        · obtain ⟨x, -, he⟩ := map_eq_some_iff.mp hcall
          cases (Prod.mk.inj he).1
        · cases hcall
  · have hcall := hdrained ⟨0, 0, [], 0, [], [], false⟩
    rw [Disk.forcedCheckpoint, if_pos (hwork (hwaits n d' hloop))] at hcall
    split at hcall
    · obtain ⟨x, -, he⟩ := map_eq_some_iff.mp hcall
      cases (Prod.mk.inj he).1
    · cases hcall

end StaxFS.Persist
