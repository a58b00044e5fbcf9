import StaxFS.Persist.Cycle

/-!
# The changes of one inode at its owner

The server that owns an inode, as a transition system: it appends records to its own log, receives
changes of other servers in its remote log, in any order, and runs checkpoint cycles. Two things are
asked of the stored inode once every change has been applied: that its child count has moved by the
sum of the changes, and that its mode is the one of the latest `Setattr`.

Both depend on the order in which changes arrive. The child count is not allowed to fall below zero
in between: `ApplyPersistedBlocksDelta` cuts it off there, and what was cut off is missing later. And
the stored inode has no version: versions are compared when changes meet in one cycle, and a
`Setattr` of a later cycle overwrites whatever there is.

Results:
* `child_counts_converge`: the child count is right if no cycle brings it below zero on the way;
  `child_count_floor` is a run in which one does.
* `last_setattr_wins`: the mode is the latest one if the cycles apply the changes in the order of
  their versions; `late_setattr_wins` is a run in which they do not.
-/

namespace StaxFS.Persist

open Foundation Wal Metadata List Option

/-! ### The system -/

/-- A server with its own log. -/
structure Owner where
  records : List Record
  disk : Disk
  /-- the calls made on the region so far -/
  history : List FlashOp

inductive OwnerAct
  /-- a record is appended to the main log -/
  | append (r : Record)
  /-- a change is appended to the remote log -/
  | receive (c : RemoteInodeChange)
  | cycle (ch : Choice)

def ownerStep (srv : Nat) (s : Owner) : OwnerAct → Option Owner
  | .append r => some { s with records := s.records ++ [r] }
  | .receive c => some { s with disk := { s.disk with remoteLog := s.disk.remoteLog ++ [c] } }
  | .cycle ch => (s.disk.doCheckpoint srv s.records ch).map fun d =>
      { s with disk := d, history := s.history ++ s.disk.cycleOps srv s.records ch }

/-- A server whose logs are empty. -/
def Owner.init (region : Region) (hardLimit : Nat) : Owner := ⟨[], .init region hardLimit, []⟩

/-- Server `srv` from a given region on. -/
def owner (srv : Nat) (region : Region) (hardLimit : Nat) : System Owner OwnerAct where
  start s := s = .init region hardLimit
  step := ownerStep srv

/-- The rules. -/
inductive OwnerStep (srv : Nat) (s : Owner) : OwnerAct → Owner → Prop
  | append (r : Record) : OwnerStep srv s (.append r) { s with records := s.records ++ [r] }
  | receive (c : RemoteInodeChange) : OwnerStep srv s (.receive c)
      { s with disk := { s.disk with remoteLog := s.disk.remoteLog ++ [c] } }
  | cycle {ch : Choice} {d : Disk} : Cycled srv s.records s.disk ch d →
      OwnerStep srv s (.cycle ch)
        { s with disk := d, history := s.history ++ s.disk.cycleOps srv s.records ch }

variable {srv i : Nat} {c : RemoteInodeChange} {d : Disk} {n : StoredInode} {dir : Nat}

variable {region : Region} {a : OwnerAct}

theorem OwnerStep.of_step {limit : Nat} {s s' : Owner}
    (h : (owner srv region limit).step s a = some s') : OwnerStep srv s a s' := by
  cases a with
  | append r =>
    cases h
    exact .append r
  | receive c =>
    cases h
    exact .receive c
  | cycle ch =>
    obtain ⟨d, hd, rfl⟩ := map_eq_some_iff.mp h
    exact .cycle (.of_doCheckpoint hd)

/-- The records appended do not create inode `i`: it is there already. -/
def Keeps (i : Nat) (r : Record) : Prop :=
  ∀ n, createdInode (logEntry r) = some n → n.id ≠ i

instance (i : Nat) (r : Record) : Decidable (Keeps i r) :=
  match h : createdInode (logEntry r) with
  | none => .isTrue fun n hn => by rw [h] at hn; cases hn
  | some n => decidable_of_iff (n.id ≠ i)
      ⟨fun hne m hm => by rw [h] at hm; cases hm; exact hne, fun hk => hk n h⟩

def OwnerAct.Keeps (i : Nat) : OwnerAct → Prop
  | .append r => Persist.Keeps i r
  | _ => True

instance (i : Nat) : (a : OwnerAct) → Decidable (a.Keeps i)
  | .append r => inferInstanceAs (Decidable (Persist.Keeps i r))
  | .receive _ | .cycle _ => inferInstanceAs (Decidable True)

/-- The changes of the main log, and those received, up to where the checkpoint is. -/
def Owner.ownApplied (srv : Nat) (s : Owner) : List RemoteInodeChange :=
  ((placed srv s.records).take s.disk.drained).flatMap Placed.changes

def Owner.remoteApplied (s : Owner) : List RemoteInodeChange :=
  s.disk.remoteLog.take s.disk.remoteDrained

/-- All changes that reached the server, in its own log or its remote log. -/
def Owner.issued (srv : Nat) (s : Owner) : List RemoteInodeChange :=
  (placed srv s.records).flatMap Placed.changes ++ s.disk.remoteLog

/-- Everything about inode `i` has been applied: both logs are drained, and nothing is deferred. -/
structure Owner.Drained (i : Nat) (s : Owner) : Prop where
  main : s.disk.drained = s.records.length
  remote : s.disk.remoteDrained = s.disk.remoteLog.length
  deferred : ∀ c ∈ s.disk.deferred, c.inodeId ≠ i

instance (i : Nat) (s : Owner) : Decidable (s.Drained i) :=
  decidable_of_iff (s.disk.drained = s.records.length ∧
      s.disk.remoteDrained = s.disk.remoteLog.length ∧ ∀ c ∈ s.disk.deferred, c.inodeId ≠ i)
    ⟨fun h => ⟨h.1, h.2.1, h.2.2⟩, fun h => ⟨h.main, h.remote, h.deferred⟩⟩

theorem Owner.Drained.issued {s : Owner} (h : s.Drained i) :
    s.ownApplied srv ++ s.remoteApplied = s.issued srv := by
  rw [Owner.ownApplied, Owner.remoteApplied, Owner.issued, h.main, h.remote,
    ← length_placed srv s.records, take_length, take_length]

/-- What both results rest on: inode `i` of server `srv` is on flash, and no record creates it. -/
structure OwnerInv (srv i : Nat) (region : Region) (s : Owner) : Prop where
  main : s.disk.drained ≤ s.records.length
  remote : s.disk.remoteDrained ≤ s.disk.remoteLog.length
  keeps : ∀ r ∈ s.records, Keeps i r
  onFlash : (s.disk.region i).id ≠ 0
  slot : s.disk.region i = runSlot (region i) (opsOn i s.history)
  calls : ∀ op ∈ opsOn i s.history, ∃ c, op = FlashOp.apply c

variable {ops : List FlashOp}

section Steps

variable {srv i : Nat} {region : Region} {s : Owner}

theorem opsOn_mem {op : FlashOp} (h : op ∈ opsOn i ops) : op ∈ ops ∧ op.target = i := by
  simpa [opsOn] using h

variable {ch : Choice}

/-- The calls of a cycle for the inode write no new inode. -/
theorem OwnerInv.apply_of_mem (h : OwnerInv srv i region s) {op : FlashOp}
    (hop : op ∈ opsOn i (s.disk.cycleOps srv s.records ch)) : ∃ c, op = .apply c := by
  obtain ⟨hop, ht⟩ := opsOn_mem hop
  rw [Disk.cycleOps, append_assoc, ← map_append, mem_append] at hop
  rcases hop with hop | hop
  · rcases mem_replayOps hop with ⟨r, hr, n, hn, rfl⟩ | ⟨r, -, c, -, -, rfl⟩
    · exact absurd ht (h.keeps _ (mem_of_mem_replayed hr) n hn)
    · exact ⟨c, rfl⟩
  · obtain ⟨c, -, rfl⟩ := List.mem_map.mp hop
    exact ⟨c, rfl⟩

theorem runSlot_id (hops : ∀ op ∈ ops, ∃ c, op = FlashOp.apply c)
    (n : StoredInode) : (runSlot n ops).id = n.id := by
  induction ops generalizing n with
  | nil => rfl
  | cons op ops ih =>
    obtain ⟨c, rfl⟩ := hops op mem_cons_self
    rw [runSlot_cons, ih fun op hop => hops op (mem_cons_of_mem _ hop), FlashOp.onSlot]
    split
    · rfl
    · exact c.mutate_id n

/-- Before the remote entries are applied, the inode is in its slot. -/
theorem OwnerInv.replayRegion (h : OwnerInv srv i region s) (ch : Choice) :
    (s.disk.replayRegion srv s.records ch i).id ≠ 0 := by
  rw [Disk.replayRegion, runOps_slot, runSlot_id]
  · exact h.onFlash
  · intro op hop
    refine @OwnerInv.apply_of_mem _ _ _ _ ch h _ ?_
    rw [Disk.cycleOps, opsOn_append, opsOn_append]
    exact mem_append_left _ (mem_append_left _ hop)

theorem OwnerInv.start {limit : Nat} (hi : (region i).id ≠ 0) :
    OwnerInv srv i region (.init region limit) :=
  ⟨Nat.le_refl _, Nat.le_refl _, forall_mem_nil _, hi, rfl,
    forall_mem_nil _⟩

theorem OwnerInv.step {s' : Owner} (h : OwnerInv srv i region s) (hk : a.Keeps i)
    (hst : OwnerStep srv s a s') : OwnerInv srv i region s' := by
  cases hst with
  | append r =>
    refine ⟨?_, h.remote, forall_mem_append.mpr ⟨h.keeps, forall_mem_singleton.mpr hk⟩,
      h.onFlash, h.slot, h.calls⟩
    simp only [length_append]
    exact Nat.le_add_right_of_le h.main
  | receive c =>
    refine ⟨h.main, ?_, h.keeps, h.onFlash, h.slot, h.calls⟩
    simp only [length_append]
    exact Nat.le_add_right_of_le h.remote
  | @cycle ch d hc =>
    obtain ⟨hregion, hmain, hremote, hlog, -⟩ := hc.eq_drain
    have hslot : d.region i =
        runSlot (s.disk.region i) (opsOn i (s.disk.cycleOps srv s.records ch)) := by
      rw [hregion, runOps_slot]
    refine ⟨?_, ?_, h.keeps, ?_, ?_, fun op hop => ?_⟩
    · exact hmain ▸ hc.admitted.main
    · rw [hremote, hlog]
      exact hc.admitted.remote
    · rw [hslot, runSlot_id fun op hop => h.apply_of_mem hop]
      exact h.onFlash
    · rw [hslot, opsOn_append, runSlot_append, ← h.slot]
    · rw [opsOn_append] at hop
      exact (mem_append.mp hop).elim (h.calls op) h.apply_of_mem

/-- A cycle applies the next records and the next remote entries. -/
theorem Cycled.ownApplied (h : Cycled srv s.records s.disk ch d)
    (ops : List FlashOp) : Owner.ownApplied srv { s with disk := d, history := ops } =
      s.ownApplied srv ++ (s.disk.replayed srv s.records ch).flatMap Placed.changes := by
  simp only [Owner.ownApplied, h.eq_drain.2.1, take_placed_replayed, flatMap_append]

theorem Cycled.remoteApplied (h : Cycled srv s.records s.disk ch d)
    (ops : List FlashOp) : Owner.remoteApplied { s with disk := d, history := ops } =
      s.remoteApplied ++ (s.disk.remoteLog.drop s.disk.remoteDrained).take ch.remoteCount := by
  simp only [Owner.remoteApplied, h.eq_drain.2.2.1, h.eq_drain.2.2.2.1]
  exact take_add

end Steps

/-! ### Child counts -/

/-- What a change adds to the child count of `dir`. -/
def childDelta (dir : Nat) (c : RemoteInodeChange) : Int :=
  if c.op = .blocksDelta ∧ c.inodeId = dir then c.value else 0

/-- What a call adds to it. -/
def FlashOp.childDelta (dir : Nat) : FlashOp → Int
  | .write _ => 0
  | .apply c => Persist.childDelta dir c

/-- A call does not bring the child count below zero, or out of its 32 bits. -/
def FlashOp.countFits (n : StoredInode) : FlashOp → Bool
  | .write _ => true
  | .apply c => c.op ≠ .blocksDelta ||
      (0 ≤ (n.extra : Int) + c.value && (n.extra : Int) + c.value < 2 ^ 32)

/-- The same for the calls of a list, one after the other. -/
def countFits : StoredInode → List FlashOp → Bool
  | _, [] => true
  | n, op :: ops => op.countFits n && countFits (op.onSlot n) ops

theorem childDelta_additive (dir : Nat) : Additive (childDelta dir) := by
  intro cur e hkey _
  obtain ⟨hi, ho⟩ := RemoteInodeChange.sameKey_iff.mp hkey
  unfold childDelta mergeChange
  by_cases hc : e.op = .blocksDelta ∧ e.inodeId = dir
  · simp [hc, hi, ho]
  · have hc' : ¬(cur.op = .blocksDelta ∧ cur.inodeId = dir) := by rwa [hi, ho]
    rw [if_neg hc, if_neg hc', if_neg hc', add_zero]

theorem addBlocksDelta_extra {delta : Int}
    (h : 0 ≤ (n.extra : Int) + delta ∧ (n.extra : Int) + delta < 2 ^ 32) :
    ((addBlocksDelta delta n).extra : Int) = n.extra + delta := by
  unfold addBlocksDelta
  rw [if_neg (by omega)]
  dsimp only
  rw [Int.toNat_of_nonneg (Int.emod_nonneg _ (by decide)), Int.emod_eq_of_lt h.1 h.2]

theorem mutate_extra (c : RemoteInodeChange) (n : StoredInode) (h : c.op ≠ .blocksDelta) :
    (c.mutate n).extra = n.extra := by
  unfold RemoteInodeChange.mutate
  split <;> first | rfl | contradiction

/-- Calls that stay within bounds add up. -/
theorem extra_runSlot {dir : Nat} {ops : List FlashOp}
    (hops : ∀ op ∈ ops, op.target = dir ∧ ∃ c, op = FlashOp.apply c) {n : StoredInode}
    (hn : n.id ≠ 0) (hfit : countFits n ops = true) :
    ((runSlot n ops).extra : Int) = n.extra + (ops.map (FlashOp.childDelta dir)).sum := by
  induction ops generalizing n with
  | nil => simp
  | cons op ops ih =>
    obtain ⟨ht, c, rfl⟩ := hops op mem_cons_self
    simp only [countFits, Bool.and_eq_true] at hfit
    have hslot : (FlashOp.apply c).onSlot n = c.mutate n := if_neg hn
    have hstep : ((c.mutate n).extra : Int) = n.extra + Persist.childDelta dir c := by
      by_cases hop : c.op = .blocksDelta
      · have hbound : 0 ≤ (n.extra : Int) + c.value ∧ (n.extra : Int) + c.value < 2 ^ 32 := by
          simpa [FlashOp.countFits, hop] using hfit.1
        rw [Persist.childDelta, if_pos ⟨hop, ht⟩]
        simp only [RemoteInodeChange.mutate, hop]
        exact addBlocksDelta_extra hbound
      · rw [mutate_extra c n hop, Persist.childDelta, if_neg fun h => hop h.1, add_zero]
    rw [hslot] at hfit
    rw [runSlot_cons, hslot, ih (fun op hop => hops op (mem_cons_of_mem _ hop))
      (by rwa [c.mutate_id]) hfit.2, hstep, map_cons, sum_cons, FlashOp.childDelta]
    omega

theorem sum_opsOn (dir : Nat) (ops : List FlashOp) :
    ((opsOn dir ops).map (FlashOp.childDelta dir)).sum =
      (ops.map (FlashOp.childDelta dir)).sum := by
  refine sum_map_filter _ fun op _ ht => ?_
  cases op with
  | write n => rfl
  | apply c => exact if_neg fun h => of_decide_eq_false ht h.2

theorem sum_apply (dir : Nat) (cs : List RemoteInodeChange) :
    ((cs.map FlashOp.apply).map (FlashOp.childDelta dir)).sum = total (childDelta dir) cs := by
  rw [List.map_map]
  rfl

theorem sum_replayOps (srv dir : Nat) (rs : List Placed) :
    ((replayOps srv rs).map (FlashOp.childDelta dir)).sum = 0 := by
  refine sum_eq_zero fun x hx => ?_
  obtain ⟨op, hop, rfl⟩ := List.mem_map.mp hx
  rcases mem_replayOps hop with ⟨-, -, n, -, rfl⟩ | ⟨-, -, c, -, hnow, rfl⟩
  · rfl
  · refine if_neg fun h => ?_
    simp [appliesNow, h.1] at hnow

/-- The changes summed in a cycle are those of the records replayed. -/
theorem total_ownDeltas (howner : ownerMetaForInode dir = srv) (rs : List Placed) :
    total (childDelta dir) (ownDeltas srv rs) =
      total (childDelta dir) (rs.flatMap Placed.changes) := by
  rw [ownDeltas, ← filter_flatMap, total_filter]
  intro c _ hc
  refine if_neg fun h => ?_
  simp [h.1, h.2, howner] at hc

theorem op_of_mem_ownDeltas {rs : List Placed}
    (h : c ∈ ownDeltas srv rs) : c.op = .blocksDelta := by
  obtain ⟨r, -, hc⟩ := mem_flatMap.mp h
  have := (mem_filter.mp hc).2
  simp only [Bool.and_eq_true, decide_eq_true_eq] at this
  exact this.2

/-- What the calls of a cycle add to a child count. -/
theorem sum_cycleOps (howner : ownerMetaForInode dir = srv)
    (records : List Record) (d : Disk) (ch : Choice) :
    ((opsOn dir (d.cycleOps srv records ch)).map (FlashOp.childDelta dir)).sum =
      total (childDelta dir) ch.attempted +
        total (childDelta dir) ((d.replayed srv records ch).flatMap Placed.changes) := by
  have hflush : total (childDelta dir) ((d.blocksDelta srv records ch).filter (·.value ≠ 0)) =
      total (childDelta dir) ((d.replayed srv records ch).flatMap Placed.changes) := by
    rw [total_filter, Disk.blocksDelta, total_blocksDelta (childDelta_additive dir),
      total_ownDeltas howner]
    · exact fun c hc => op_of_mem_ownDeltas hc
    · intro c _ hc
      unfold childDelta
      split
      · simpa using hc
      · rfl
  rw [sum_opsOn, Disk.cycleOps, map_append, map_append, List.sum_append, List.sum_append,
    sum_replayOps, sum_apply, sum_apply, hflush, zero_add]

/-- **When child counts are kept**: no call of the cycle for the directory brings its count out of
bounds, and the hard limit drops no change of it. -/
def CountKept (srv dir : Nat) (s : Owner) : OwnerAct → Prop
  | .cycle ch =>
    countFits (s.disk.region dir) (opsOn dir (s.disk.cycleOps srv s.records ch)) = true ∧
      ∀ c ∈ ch.dropped, c.inodeId ≠ dir
  | _ => True

instance (srv dir : Nat) (s : Owner) : (a : OwnerAct) → Decidable (CountKept srv dir s a)
  | .cycle _ => inferInstanceAs (Decidable (_ ∧ _))
  | .append _ | .receive _ => inferInstanceAs (Decidable True)

/-- The count and what is deferred make up the changes applied so far. -/
structure ChildInv (srv dir : Nat) (region : Region) (s : Owner) : Prop extends
    OwnerInv srv dir region s where
  counted : ((s.disk.region dir).extra : Int) + total (childDelta dir) s.disk.deferred =
    (region dir).extra + total (childDelta dir) (s.ownApplied srv) +
      total (childDelta dir) s.remoteApplied

theorem ChildInv.step {srv dir : Nat} {s s' : Owner}
    (howner : ownerMetaForInode dir = srv) (h : ChildInv srv dir region s) (hk : a.Keeps dir)
    (hkept : CountKept srv dir s a) (hst : OwnerStep srv s a s') : ChildInv srv dir region s' := by
  refine ⟨h.toOwnerInv.step hk hst, ?_⟩
  cases hst with
  | append r =>
    rw [Owner.ownApplied, take_placed_concat h.main]
    exact h.counted
  | receive c =>
    rw [Owner.remoteApplied, take_append_of_le_length h.remote]
    exact h.counted
  | @cycle ch d hc =>
    obtain ⟨hregion, -, -, -, hdef⟩ := hc.eq_drain
    obtain ⟨hfit, hdrop⟩ := hkept
    have hslot : ((d.region dir).extra : Int) = (s.disk.region dir).extra +
        (total (childDelta dir) ch.attempted +
          total (childDelta dir) ((s.disk.replayed srv s.records ch).flatMap Placed.changes)) := by
      rw [hregion, runOps_slot, @extra_runSlot dir _ _ _ h.onFlash hfit,
        sum_cycleOps howner]
      exact fun op hop => ⟨(opsOn_mem hop).2, h.apply_of_mem hop⟩
    have hbal := hc.admitted.balance (childDelta_additive dir) fun c hc' => by
      have hdir : c.inodeId = dir := by
        by_contra hne
        exact hc' (if_neg fun hh => hne hh.2)
      rw [hdir]
      exact h.replayRegion ch
    have hdropped : total (childDelta dir) ch.dropped = 0 :=
      total_eq_zero fun c hc => if_neg fun hh => hdrop c hc hh.2
    have hcount := h.counted
    rw [hc.ownApplied, hc.remoteApplied, total_append, total_append]
    dsimp only
    rw [hdef, hslot]
    omega

/-- **Stored child counts converge** in every run whose cycles stay within bounds: once all changes
have been applied, the stored count has moved by their sum. -/
theorem child_counts_converge {srv dir limit : Nat} {region : Region}
    (howner : ownerMetaForInode dir = srv) (hdir : (region dir).id ≠ 0) {s : Owner}
    (h : (owner srv region limit).Reach
      (fun s a => a.Keeps dir ∧ CountKept srv dir s a) s)
    (hdone : s.Drained dir) :
    ((s.disk.region dir).extra : Int) =
      (region dir).extra + total (childDelta dir) (s.issued srv) := by
  have hinv : ChildInv srv dir region s := h.invariant ?_ ?_
  · have hzero : total (childDelta dir) s.disk.deferred = 0 :=
      total_eq_zero fun c hc => if_neg fun hh => hdone.deferred c hc hh.2
    have hcount := hinv.counted
    rw [← hdone.issued, total_append]
    omega
  · rintro s rfl
    exact ⟨.start hdir, by simp [Owner.init, Disk.init, Owner.ownApplied, Owner.remoteApplied]⟩
  · intro s a s' _ hi hok hst
    exact hi.step howner hok.1 hok.2 (.of_step hst)

/-- A region with one inode, an empty directory. -/
def oneDirectory : Region :=
  Function.update Region.blank 5 ⟨5, 1, 0o755 ||| S_IFDIR, 0, 0, 0, 0⟩

/-- A cycle that drains `n` changes of the remote log, which all fit in one page, and syncs. -/
def drainRemote (n : Nat) (bucket : List RemoteInodeChange) : OwnerAct :=
  .cycle ⟨0, n, [bucket], 1, [], [], true⟩

/-- A change of the child count of the directory. -/
def childChange (value : Int) (version : Nat) : RemoteInodeChange :=
  ⟨.blocksDelta, 5, value, version, []⟩

theorem child_counts_converge_twice :
    ∃ s, (owner 0 oneDirectory 8).Reach (fun s a => a.Keeps 5 ∧ CountKept 0 5 s a) s ∧
      s.Drained 5 ∧ s.disk.remoteLog.length = 3 ∧
      ((s.disk.region 5).extra : Int) =
        (oneDirectory 5).extra + total (childDelta 5) (s.issued 0) := by
  refine System.exists_reach
    (l := [.receive (childChange 1 10), .receive (childChange 1 30), drainRemote 2 [childChange 2 30],
      .receive (childChange (-1) 20), drainRemote 1 [childChange (-1) 20]])
    (Q := fun s => s.Drained 5 ∧ s.disk.remoteLog.length = 3) rfl (by decide +kernel)
    fun s hreach hs => ?_
  exact ⟨hs.1, hs.2, child_counts_converge (by decide) (by decide) hreach hs.1⟩

/-- **A child count that falls below zero on the way ends too high**: the removal of an entry reaches
the owner a cycle before its creation. -/
theorem child_count_floor :
    ∃ s, (owner 0 oneDirectory 8).Reach (fun _ a => a.Keeps 5) s ∧ s.Drained 5 ∧
      s.issued 0 = [childChange (-1) 20, childChange 1 10] ∧
      ((s.disk.region 5).extra : Int) ≠
        (oneDirectory 5).extra + total (childDelta 5) (s.issued 0) := by
  refine System.exists_reach_of_labels
    (l := [.receive (childChange (-1) 20), drainRemote 1 [childChange (-1) 20],
      .receive (childChange 1 10), drainRemote 1 [childChange 1 10]])
    rfl (fun a ha _ => ?_) (by decide +kernel) fun _ _ h => h
  revert a
  decide

/-! ### Modes -/

/-- A `Setattr` of inode `i`. -/
def RemoteInodeChange.setsMode (i : Nat) (c : RemoteInodeChange) : Bool :=
  c.op = .setattr && c.inodeId = i

/-- The mode it carries. -/
def RemoteInodeChange.mode (c : RemoteInodeChange) : Nat := (c.value % 2 ^ 32).toNat

/-- The `Setattr` of inode `i` a call applies. -/
def FlashOp.setattr (i : Nat) : FlashOp → Option RemoteInodeChange
  | .write _ => none
  | .apply c => if c.setsMode i then some c else none

/-- The `Setattr`s of inode `i` applied by a list of calls. -/
def modeCalls (i : Nat) (ops : List FlashOp) : List RemoteInodeChange :=
  ops.filterMap (FlashOp.setattr i)

theorem setsMode_iff : c.setsMode i = true ↔ c.op = .setattr ∧ c.inodeId = i := by
  simp [RemoteInodeChange.setsMode]

variable {e : RemoteInodeChange}

theorem RemoteInodeChange.Same.setsMode (h : c.Same e) : c.setsMode i = e.setsMode i := by
  simp [RemoteInodeChange.setsMode, h.op, h.inodeId]

theorem RemoteInodeChange.Over.setsMode (h : c.Over e) : e.setsMode i = c.setsMode i := by
  simp [RemoteInodeChange.setsMode, h.op, h.inodeId]

theorem modeCalls_append (i : Nat) (ops ops' : List FlashOp) :
    modeCalls i (ops ++ ops') = modeCalls i ops ++ modeCalls i ops' := filterMap_append

theorem mem_modeCalls : c ∈ modeCalls i ops ↔ .apply c ∈ ops ∧ c.setsMode i = true := by
  rw [modeCalls, mem_filterMap]
  constructor
  · rintro ⟨op, hop, h⟩
    cases op with
    | write n => cases h
    | apply e =>
      rw [FlashOp.setattr] at h
      split at h
      · cases h
        exact ⟨hop, ‹_›⟩
      · cases h
  · rintro ⟨hop, hc⟩
    exact ⟨_, hop, if_pos hc⟩

theorem modeCalls_opsOn (i : Nat) (ops : List FlashOp) :
    modeCalls i (opsOn i ops) = modeCalls i ops := by
  rw [modeCalls, opsOn, filterMap_filter]
  refine filterMap_congr fun op _ => ?_
  split
  · rfl
  · rename_i ht
    cases op with
    | write n => rfl
    | apply c => exact (if_neg fun h => ht (decide_eq_true (setsMode_iff.mp h).2)).symm

/-- The mode is the one of the last `Setattr` applied. -/
theorem mode_runSlot (hops : ∀ op ∈ ops, op.target = i ∧ ∃ c, op = FlashOp.apply c)
    (hn : n.id ≠ 0) : (runSlot n ops).mode =
      ((modeCalls i ops).getLast?.map RemoteInodeChange.mode).getD n.mode := by
  induction ops generalizing n with
  | nil => rfl
  | cons op ops ih =>
    obtain ⟨ht, c, rfl⟩ := hops op mem_cons_self
    have hslot : (FlashOp.apply c).onSlot n = c.mutate n := if_neg hn
    rw [runSlot_cons, hslot, ih (fun op hop => hops op (mem_cons_of_mem _ hop))
      (by rwa [c.mutate_id])]
    by_cases hset : c.setsMode i = true
    · have hcall : modeCalls i (.apply c :: ops) = c :: modeCalls i ops :=
        filterMap_cons_some (if_pos hset)
      have hmode : (c.mutate n).mode = c.mode := by
        simp [RemoteInodeChange.mutate, RemoteInodeChange.mode, (setsMode_iff.mp hset).1]
      rw [hcall, getLast?_cons, hmode]
      cases (modeCalls i ops).getLast? <;> rfl
    · have hcall : modeCalls i (.apply c :: ops) = modeCalls i ops :=
        filterMap_cons_none (if_neg hset)
      have hmode : (c.mutate n).mode = n.mode := by
        have hop : c.op ≠ .setattr := fun h => hset (setsMode_iff.mpr ⟨h, ht⟩)
        unfold RemoteInodeChange.mutate
        split
        · rfl
        · rfl
        · rfl
        · contradiction
        · rfl
        · unfold addBlocksDelta
          split <;> rfl
      rw [hcall, hmode]

/-- **When the last writer wins**: the `Setattr`s of the inode that cycles have applied, this one
included, are in the order of their versions, and the hard limit drops no change of the inode. -/
def InVersionOrder (srv i : Nat) (s : Owner) : OwnerAct → Prop
  | .cycle ch =>
    (modeCalls i (s.history ++ s.disk.cycleOps srv s.records ch)).Pairwise
        (fun c e => c.version < e.version) ∧
      ∀ c ∈ ch.dropped, c.inodeId ≠ i
  | _ => True

instance (srv i : Nat) (s : Owner) : (a : OwnerAct) → Decidable (InVersionOrder srv i s a)
  | .cycle _ => inferInstanceAs (Decidable (_ ∧ _))
  | .append _ | .receive _ => inferInstanceAs (Decidable True)

/-- The `Setattr`s applied or deferred are among those that reached the server, and of those that
were taken from the logs each is represented by one of no lower version. -/
structure ModeInv (srv i : Nat) (region : Region) (s : Owner) : Prop extends
    OwnerInv srv i region s where
  ordered : (modeCalls i s.history).Pairwise fun c e => c.version < e.version
  source : ∀ c ∈ modeCalls i s.history ++ s.disk.deferred, c.setsMode i = true →
    ∃ b ∈ s.issued srv, b.Same c
  covered : ∀ c ∈ s.ownApplied srv ++ s.remoteApplied, c.setsMode i = true →
    ∃ b ∈ modeCalls i s.history ++ s.disk.deferred, c.Over b

section Modes

variable {srv i : Nat} {region : Region} {s : Owner} {ch : Choice} {c : RemoteInodeChange}

variable {records : List Record}

theorem mem_cycleOps_setattr (h : c ∈ modeCalls i (d.cycleOps srv records ch)) :
    (∃ r ∈ d.replayed srv records ch, c ∈ r.changes) ∨ c ∈ ch.attempted := by
  obtain ⟨hop, hset⟩ := mem_modeCalls.mp h
  rw [Disk.cycleOps, mem_append, mem_append] at hop
  rcases hop with (hop | hop) | hop
  · rcases mem_replayOps hop with ⟨-, -, n, -, h⟩ | ⟨r, hr, e, he, -, h⟩
    · cases h
    · cases h
      exact .inl ⟨r, hr, he⟩
  · obtain ⟨e, he, h⟩ := List.mem_map.mp hop
    cases h
    exact .inr he
  · obtain ⟨e, he, h⟩ := List.mem_map.mp hop
    cases h
    obtain ⟨b, hb, hop, -⟩ := blocksDelta_key (mem_filter.mp he).1
    rw [op_of_mem_ownDeltas hb, (setsMode_iff.mp hset).1] at hop
    cases hop

theorem replayed_subset {r : Placed} (h : r ∈ d.replayed srv records ch) : r ∈ placed srv records :=
  mem_of_mem_drop (mem_of_mem_take h)

/-- What a cycle applies or defers comes from the changes that reached the server. -/
theorem ModeInv.cycle_source (h : ModeInv srv i region s) (hadm : s.disk.Admitted srv s.records ch)
    (hc : c ∈ ch.attempted ++ ch.kept) (hset : c.setsMode i = true) :
    ∃ b ∈ s.issued srv, b.Same c := by
  have hop : c.op ≠ .blocksDelta := by
    rw [(setsMode_iff.mp hset).1]
    decide
  obtain ⟨b, hb, hs⟩ := coalesce_source (hadm.mem_remoteEntries hc) hop
  rcases mem_append.mp hb with hb | hb
  · obtain ⟨b', hb', hs'⟩ := h.source b (mem_append_right _ hb) (hs.setsMode.trans hset)
    exact ⟨b', hb', hs'.trans hs⟩
  · exact ⟨b, mem_append_right _ (mem_of_mem_drop (mem_of_mem_take hb)), hs⟩

/-- What a cycle takes from the deferred list or the remote log is represented afterwards. -/
theorem Disk.Admitted.covered {d : Disk}
    (hadm : d.Admitted srv records ch) (hdrop : ∀ c ∈ ch.dropped, c.inodeId ≠ i)
    {c : RemoteInodeChange}
    (hc : c ∈ d.deferred ++ (d.remoteLog.drop d.remoteDrained).take ch.remoteCount)
    (hset : c.setsMode i = true) :
    ∃ b ∈ modeCalls i (d.cycleOps srv records ch) ++ ch.kept, c.Over b := by
  obtain ⟨b, hb, ho⟩ := coalesce_over hc
  have hbset : b.setsMode i = true := ho.setsMode.trans hset
  refine ⟨b, mem_append.mpr ?_, ho⟩
  rcases hadm.of_mem_remoteEntries hb with hb | hb
  · refine .inl (mem_modeCalls.mpr ⟨?_, hbset⟩)
    exact mem_append_left _ (mem_append_right _ (List.mem_map_of_mem hb))
  · rcases mem_append.mp hb with hb | hb
    · exact absurd (setsMode_iff.mp hbset).2 (hdrop b hb)
    · exact .inr hb

theorem ModeInv.step {s' : Owner} (howner : ownerMetaForInode i = srv)
    (h : ModeInv srv i region s) (hk : a.Keeps i) (hord : InVersionOrder srv i s a)
    (hst : OwnerStep srv s a s') : ModeInv srv i region s' := by
  have hbase := h.toOwnerInv.step hk hst
  cases hst with
  | append r =>
    refine ⟨hbase, h.ordered, fun c hc hset => ?_, fun c hc hset => ?_⟩
    · obtain ⟨b, hb, hs⟩ := h.source c hc hset
      refine ⟨b, ?_, hs⟩
      simp only [Owner.issued, placed, mapIdx_append, flatMap_append,
        mem_append] at hb ⊢
      tauto
    · rw [Owner.ownApplied, take_placed_concat h.main] at hc
      exact h.covered c hc hset
  | receive e =>
    refine ⟨hbase, h.ordered, fun c hc hset => ?_, fun c hc hset => ?_⟩
    · obtain ⟨b, hb, hs⟩ := h.source c hc hset
      refine ⟨b, ?_, hs⟩
      simp only [Owner.issued, mem_append] at hb ⊢
      tauto
    · rw [Owner.remoteApplied, take_append_of_le_length h.remote] at hc
      exact h.covered c hc hset
  | @cycle ch d hc =>
    obtain ⟨hord, hdrop⟩ := hord
    obtain ⟨-, -, -, hlog, hdef⟩ := hc.eq_drain
    refine ⟨hbase, hord, fun c hmem hset => ?_, fun c hmem hset => ?_⟩
    · have hissued : Owner.issued srv { s with
          disk := d, history := s.history ++ s.disk.cycleOps srv s.records ch } = s.issued srv := by
        simp only [Owner.issued, hlog]
      rw [hissued]
      dsimp only at hmem
      rw [modeCalls_append, hdef, append_assoc] at hmem
      rcases mem_append.mp hmem with hmem | hmem
      · exact h.source c (mem_append_left _ hmem) hset
      · rcases mem_append.mp hmem with hmem | hmem
        · rcases mem_cycleOps_setattr hmem with ⟨r, hr, hcr⟩ | hatt
          · exact ⟨c, mem_append_left _ (mem_flatMap.mpr ⟨r, replayed_subset hr, hcr⟩),
              .refl c⟩
          · exact h.cycle_source hc.admitted (mem_append_left _ hatt) hset
        · exact h.cycle_source hc.admitted (mem_append_right _ hmem) hset
    · dsimp only
      rw [modeCalls_append, hdef, append_assoc]
      rw [hc.ownApplied, hc.remoteApplied] at hmem
      -- taken earlier, replayed now, or drained now
      have htaken : ∀ e, e.setsMode i = true →
          e ∈ s.disk.deferred ++ (s.disk.remoteLog.drop s.disk.remoteDrained).take ch.remoteCount →
          ∃ b ∈ modeCalls i s.history ++
            (modeCalls i (s.disk.cycleOps srv s.records ch) ++ ch.kept), e.Over b := by
        intro e heset he
        obtain ⟨b, hb, ho⟩ := hc.admitted.covered hdrop he heset
        exact ⟨b, mem_append_right _ hb, ho⟩
      have hold : ∀ e ∈ s.ownApplied srv ++ s.remoteApplied, e.setsMode i = true →
          ∃ b ∈ modeCalls i s.history ++
            (modeCalls i (s.disk.cycleOps srv s.records ch) ++ ch.kept), e.Over b := by
        intro e he heset
        obtain ⟨b, hb, ho⟩ := h.covered e he heset
        rcases mem_append.mp hb with hb | hb
        · exact ⟨b, mem_append_left _ hb, ho⟩
        · obtain ⟨b', hb', ho'⟩ := htaken b (ho.setsMode.trans heset) (mem_append_left _ hb)
          exact ⟨b', hb', ho.trans ho'⟩
      simp only [mem_append] at hmem
      rcases hmem with (hmem | hmem) | hmem | hmem
      · exact hold c (mem_append_left _ hmem) hset
      · obtain ⟨r, hr, hcr⟩ := mem_flatMap.mp hmem
        refine ⟨c, ?_, .refl c⟩
        have hnow : appliesNow srv c = true := by
          obtain ⟨hop, hid⟩ := setsMode_iff.mp hset
          simp [appliesNow, hid, howner, hop]
        have hcall : FlashOp.apply c ∈ s.disk.cycleOps srv s.records ch := by
          refine mem_append_left _ (mem_append_left _ (mem_flatMap.mpr ⟨r, hr, ?_⟩))
          exact mem_append_right _
            (List.mem_map_of_mem (mem_filter.mpr ⟨hcr, hnow⟩))
        exact mem_append_right _ (mem_append_left _ (mem_modeCalls.mpr ⟨hcall, hset⟩))
      · exact hold c (mem_append_right _ hmem) hset
      · exact htaken c hset (mem_append_right _ hmem)

/-- In a list in the order of the versions, no version is above the last one. -/
theorem version_le_getLast {cs : List RemoteInodeChange}
    (h : cs.Pairwise fun c e => c.version < e.version) {l : RemoteInodeChange} (hc : c ∈ cs)
    (hl : cs.getLast? = some l) : c.version ≤ l.version := by
  obtain ⟨init, rfl⟩ := getLast?_eq_some_iff.mp hl
  rcases mem_append.mp hc with hc | hc
  · exact Nat.le_of_lt ((pairwise_append.mp h).2.2 c hc l (by simp))
  · rw [mem_singleton.mp hc]

end Modes

/-- **The last writer wins** in every run whose cycles apply the `Setattr`s of the inode in the order
of their versions: once all have been applied, the stored mode is the one of the highest version. -/
theorem last_setattr_wins {srv i limit : Nat} {region : Region}
    (howner : ownerMetaForInode i = srv) (hi : (region i).id ≠ 0) {s : Owner}
    (h : (owner srv region limit).Reach (fun s a => a.Keeps i ∧ InVersionOrder srv i s a) s)
    (hdone : s.Drained i)
    (hdistinct : (((s.issued srv).filter (·.setsMode i)).map (·.version)).Nodup)
    {c : RemoteInodeChange} (hc : c ∈ s.issued srv) (hset : c.setsMode i = true)
    (hmax : ∀ e ∈ s.issued srv, e.setsMode i = true → e.version ≤ c.version) :
    (s.disk.region i).mode = c.mode := by
  have hinv : ModeInv srv i region s := h.invariant ?_ ?_
  · -- the change, or one that took its place, has been applied
    obtain ⟨b, hb, ho⟩ := hinv.covered c (by rwa [hdone.issued]) hset
    have hb : b ∈ modeCalls i s.history := by
      rcases mem_append.mp hb with hb | hb
      · exact hb
      · exact absurd (ho.inodeId.trans (setsMode_iff.mp hset).2) (hdone.deferred b hb)
    obtain ⟨l, hl⟩ : ∃ l, (modeCalls i s.history).getLast? = some l := by
      rw [← isSome_iff_exists, getLast?_isSome]
      exact ne_nil_of_mem hb
    have hlmem : l ∈ modeCalls i s.history := mem_of_getLast? hl
    -- the last one applied has the highest version, so it is the change
    obtain ⟨e, he, hs⟩ := hinv.source l (mem_append_left _ hlmem) (mem_modeCalls.mp hlmem).2
    have heset : e.setsMode i = true := hs.setsMode.trans (mem_modeCalls.mp hlmem).2
    have hversion : e.version = c.version := by
      have h1 := hmax e he heset
      have h2 := version_le_getLast hinv.ordered hb hl
      have h3 := ho.version
      have h4 := hs.version
      omega
    obtain rfl : e = c := inj_on_of_nodup_map hdistinct
      (mem_filter.mpr ⟨he, heset⟩) (mem_filter.mpr ⟨hc, hset⟩) hversion
    rw [hinv.slot, mode_runSlot (i := i) _ hi, modeCalls_opsOn, hl]
    · simp only [map_some, getD_some, RemoteInodeChange.mode, hs.value]
    · exact fun op hop => ⟨(opsOn_mem hop).2, hinv.calls op hop⟩
  · rintro s rfl
    exact ⟨.start hi, List.Pairwise.nil, forall_mem_nil _,
      forall_mem_nil _⟩
  · intro s a s' _ hi hok hst
    exact hi.step howner hok.1 hok.2 (.of_step hst)

/-- A `Setattr` of the directory by another server. -/
def modeChange (mode : Int) (version : Nat) : RemoteInodeChange := ⟨.setattr, 5, mode, version, []⟩

/-- A `Setattr` of the directory by its owner. -/
def modeRecord (mode version : Nat) : Record := ⟨.setattr 5 mode, version⟩

/-- A cycle that replays one record of the main log and syncs. -/
def replayOne : OwnerAct := .cycle ⟨1, 0, [], 0, [], [], true⟩

theorem last_setattr_wins_remote :
    ∃ s c, (owner 0 oneDirectory 8).Reach (fun s a => a.Keeps 5 ∧ InVersionOrder 0 5 s a) s ∧
      s.Drained 5 ∧ c ∈ s.issued 0 ∧ c = modeChange 0o750 20 ∧ (s.disk.region 5).mode = c.mode := by
  have hrun : ((owner 0 oneDirectory 8).runChecked
      (fun s a => decide (a.Keeps 5 ∧ InVersionOrder 0 5 s a))
      [.append (modeRecord 0o700 10), replayOne, .receive (modeChange 0o750 20),
        drainRemote 1 [modeChange 0o750 20]]
      (.init oneDirectory 8)).map (fun s => decide (s.Drained 5 ∧
        (((s.issued 0).filter (·.setsMode 5)).map (·.version)).Nodup ∧
        modeChange 0o750 20 ∈ s.issued 0 ∧
        ∀ e ∈ s.issued 0, e.setsMode 5 = true → e.version ≤ 20)) = some true := by
    decide +kernel
  obtain ⟨s, hreach, hdone, hdistinct, hmem, hmax⟩ :=
    System.exists_reach (S := owner 0 oneDirectory 8) rfl hrun fun _ _ h => h
  exact ⟨s, _, hreach, hdone, hmem, rfl,
    last_setattr_wins (by decide) (by decide) hreach hdone hdistinct hmem (by decide) hmax⟩

/-- **A `Setattr` that arrives late wins over a later one**: the owner's own, of version 20, has been
replayed when one of version 10 arrives from another server. -/
theorem late_setattr_wins :
    ∃ s c, (owner 0 oneDirectory 8).Reach (fun _ a => a.Keeps 5) s ∧ s.Drained 5 ∧
      (((s.issued 0).filter (·.setsMode 5)).map (·.version)).Nodup ∧
      c ∈ s.issued 0 ∧ c.setsMode 5 = true ∧
      (∀ e ∈ s.issued 0, e.setsMode 5 = true → e.version ≤ c.version) ∧
      (s.disk.region 5).mode ≠ c.mode := by
  have hrun : ((owner 0 oneDirectory 8).runLabels
      [.append (modeRecord 0o700 20), replayOne, .receive (modeChange 0o750 10),
        drainRemote 1 [modeChange 0o750 10]]
      (.init oneDirectory 8)).map (fun s => decide (s.Drained 5 ∧
        (((s.issued 0).filter (·.setsMode 5)).map (·.version)).Nodup ∧
        ⟨.setattr, 5, 0o700, 20, [(0, 0)]⟩ ∈ s.issued 0 ∧
        (∀ e ∈ s.issued 0, e.setsMode 5 = true → e.version ≤ 20) ∧
        (s.disk.region 5).mode ≠ 0o700)) = some true := by
    decide +kernel
  obtain ⟨s, hs, hd⟩ := map_eq_some_iff.mp hrun
  obtain ⟨hdone, hdistinct, hmem, hmax, hmode⟩ := of_decide_eq_true hd
  refine ⟨s, _, System.reach_runLabels rfl (fun a ha _ => ?_) hs, hdone, hdistinct, hmem,
    by decide, hmax, hmode⟩
  revert a
  decide

end StaxFS.Persist
