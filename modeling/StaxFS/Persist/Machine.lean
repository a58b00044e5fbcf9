import StaxFS.Metadata.Replay
import StaxFS.Persist.Cycle

/-!
# The metadata servers with their persistent side

The shared tables, and for every server its log, its checkpoint and its remote log, as one system:
successful calls, one at a time, on any server; checkpoint cycles; and the delivery of changes from
the forward queue of one server to the remote log of another. The queue with the batch in flight is
one list here, from whose front changes move to the target (`Forward` shows that this is what
`ServicePendingRemoteInodeChanges` amounts to).

The calls write to the main log of their server, and a sync gives its slots back, as
`AdvanceCheckpoint` does.

Results:
* `storedAll_eq_runSlot`: what a replay of records does to the slot of an inode.
-/

namespace StaxFS.Persist

open Foundation Wal Metadata List

/-! ### The system -/

structure Machine where
  cluster : Cluster
  disks : Nat → Disk

inductive MachineAct
  /-- a call that returns 0 -/
  | call (srv th : Nat) (c : Call)
  | cycle (srv : Nat) (ch : Choice)
  /-- the first `k` changes that wait at `srv` for `t` are appended to the remote log of `t` -/
  | deliver (srv t k : Nat)

/-- The slots of the first `k` records of a log. -/
def slotsOf (records : List Record) (k : Nat) : Nat :=
  ((records.take k).map (·.request.slots)).sum

def Machine.setDisk (m : Machine) (srv : Nat) (d : Disk) : Machine :=
  { m with disks := Function.update m.disks srv d }

/-- `DoCheckpoint` on server `srv`. -/
def Machine.checkpoint (m : Machine) (srv : Nat) (ch : Choice) (d : Disk) : Machine :=
  { m.setDisk srv d with
    cluster := if ch.sync then
      m.cluster.setCheckpoint srv (slotsOf (m.cluster.records srv) d.released)
    else m.cluster }

/-- The delivery of `k` changes. -/
def Machine.deliver (m : Machine) (srv t k : Nat) : Machine :=
  let sent := (m.disks srv).forward t
  let m := m.setDisk srv { m.disks srv with
    forward := Function.update (m.disks srv).forward t (sent.drop k) }
  m.setDisk t { m.disks t with remoteLog := (m.disks t).remoteLog ++ sent.take k }

def machineStep (env : Env) (m : Machine) : MachineAct → Option Machine
  | .call srv th c =>
    match m.cluster.run env srv th c with
    | some (0, σ) => some { m with cluster := σ }
    | _ => none
  | .cycle srv ch =>
    ((m.disks srv).doCheckpoint srv (m.cluster.records srv) ch).map (m.checkpoint srv ch)
  | .deliver srv t k => if srv = t then none else some (m.deliver srv t k)

/-- All servers from `Init` on. -/
def Machine.init (config : Config) (unset : Unset) (hardLimit : Nat) : Machine where
  cluster := .init config unset
  disks _ := .init .blank hardLimit

def machine (env : Env) : System Machine MachineAct where
  start m := ∃ config unset hardLimit, m = .init config unset hardLimit
  step := machineStep env

/-- The rules. -/
inductive MachineStep (env : Env) (m : Machine) : MachineAct → Machine → Prop
  | call {srv th : Nat} {c : Call} {σ : Cluster} : Done env srv th m.cluster c 0 σ →
      MachineStep env m (.call srv th c) { m with cluster := σ }
  | cycle {srv : Nat} {ch : Choice} {d : Disk} :
      Cycled srv (m.cluster.records srv) (m.disks srv) ch d →
      MachineStep env m (.cycle srv ch) (m.checkpoint srv ch d)
  | deliver {srv t k : Nat} : srv ≠ t → MachineStep env m (.deliver srv t k) (m.deliver srv t k)

theorem MachineStep.of_step {env : Env} {m m' : Machine} {a : MachineAct}
    (h : (machine env).step m a = some m') : MachineStep env m a m' := by
  cases a with
  | call srv th c =>
    simp only [machine, machineStep] at h
    split at h
    · rename_i σ hrun
      cases h
      exact .call (run_call.mp hrun)
    · cases h
  | cycle srv ch =>
    obtain ⟨d, hd, rfl⟩ := Option.map_eq_some_iff.mp h
    exact .cycle (.of_doCheckpoint hd)
  | deliver srv t k =>
    simp only [machine, machineStep] at h
    split at h
    · cases h
    · cases h
      exact .deliver ‹_›

section Checkpoint

variable {m : Machine} {srv : Nat} {ch : Choice} {d : Disk}

@[simp] theorem checkpoint_inodes : (m.checkpoint srv ch d).cluster.inodes = m.cluster.inodes := by
  unfold Machine.checkpoint
  dsimp only
  split <;> rfl

@[simp] theorem checkpoint_records (k : Nat) :
    (m.checkpoint srv ch d).cluster.records k = m.cluster.records k := by
  unfold Machine.checkpoint Cluster.records
  dsimp only
  split
  · by_cases hk : k = srv <;> simp [Cluster.setCheckpoint, Cluster.setServer, hk]
  · rfl

@[simp] theorem checkpoint_ids (k : Nat) :
    ((m.checkpoint srv ch d).cluster.servers k).ids = (m.cluster.servers k).ids := by
  unfold Machine.checkpoint
  dsimp only
  split
  · by_cases hk : k = srv <;> simp [Cluster.setCheckpoint, Cluster.setServer, hk]
  · rfl

@[simp] theorem checkpoint_disks :
    (m.checkpoint srv ch d).disks = Function.update m.disks srv d := rfl

end Checkpoint

theorem deliver_cluster (m : Machine) (srv t k : Nat) :
    (m.deliver srv t k).cluster = m.cluster := rfl

/-- The server that receives gets the changes, the one that sends gives them up. -/
theorem deliver_disks {m : Machine} {srv t k : Nat} (hne : srv ≠ t) (j : Nat) :
    (m.deliver srv t k).disks j = { m.disks j with
      forward := if j = srv then
        Function.update (m.disks srv).forward t (((m.disks srv).forward t).drop k)
        else (m.disks j).forward
      remoteLog := if j = t then (m.disks t).remoteLog ++ ((m.disks srv).forward t).take k
        else (m.disks j).remoteLog } := by
  unfold Machine.deliver Machine.setDisk
  dsimp only
  by_cases ht : j = t
  · subst ht
    simp [hne.symm]
  · by_cases hs : j = srv
    · subst hs
      simp [ht]
    · simp [ht, hs]

/-! ### What a replay of records does to a slot -/

/-- What the replay of a record does to the slot of inode `i`, if its server owns the inode: child
counts apart, which are summed and applied at the end of the cycle. -/
def storedStep (i : Nat) (x : StoredInode) (r : Record) : StoredInode :=
  match r.request with
  | .create inodeId .. => if i = inodeId then replayCreateInode (logEntry r) else x
  | .unlink inodeId .. =>
    if i = inodeId ∧ x.id ≠ 0 then dropStoredLink (versionSeconds r.version) x else x
  | .rename .. => x
  | .setattr inodeId mode =>
    if i = inodeId ∧ x.id ≠ 0 then
      { x with mode := mode % 2 ^ 32, ctime := versionSeconds r.version }
    else x
  | .link inodeId .. =>
    if i = inodeId ∧ x.id ≠ 0 then addStoredLink (versionSeconds r.version) x else x

def storedAll (i : Nat) (rs : List Record) (x : StoredInode) : StoredInode :=
  rs.foldl (storedStep i) x

theorem storedAll_append (i : Nat) (rs rs' : List Record) (x : StoredInode) :
    storedAll i (rs ++ rs') x = storedAll i rs' (storedAll i rs x) := foldl_append ..

theorem opsOn_singleton (i : Nat) (op : FlashOp) :
    opsOn i [op] = if op.target = i then [op] else [] := by
  by_cases h : op.target = i <;> simp [opsOn, h]

variable {srv i : Nat}

/-- The call for a change of inode `j` made at once by its owner. -/
theorem runSlot_appliesNow (howner : ownerMetaForInode i = srv)
    (c : RemoteInodeChange) (hop : c.op ≠ .blocksDelta) (x : StoredInode) :
    runSlot x (opsOn i (([c].filter (appliesNow srv)).map .apply)) =
      if i = c.inodeId ∧ x.id ≠ 0 then c.mutate x else x := by
  by_cases hi : i = c.inodeId
  · have hnow : appliesNow srv c = true := by simp [appliesNow, ← hi, howner, hop]
    rw [filter_singleton, hnow, cond_true, map_singleton, opsOn_singleton,
      if_pos (by simp [FlashOp.target, hi]), runSlot_cons, runSlot_nil, FlashOp.onSlot]
    by_cases h0 : x.id = 0 <;> simp [hi, h0]
  · rw [if_neg fun h => hi h.1, filter_singleton]
    cases appliesNow srv c
    · rfl
    · rw [cond_true, map_singleton, opsOn_singleton,
        if_neg (by simpa [FlashOp.target] using Ne.symm hi), runSlot_nil]

theorem filter_appliesNow_blocksDelta (srv inodeId version : Nat) (value : Int)
    (origins : List (Nat × Nat)) (cs : List RemoteInodeChange) :
    (⟨.blocksDelta, inodeId, value, version, origins⟩ :: cs).filter (appliesNow srv) =
      cs.filter (appliesNow srv) := filter_cons_of_neg (by simp [appliesNow])

/-- The calls for one record. -/
theorem runSlot_ops (howner : ownerMetaForInode i = srv) (r : Placed)
    (x : StoredInode) : runSlot x (opsOn i (r.ops srv)) = storedStep i x r.2 := by
  obtain ⟨origin, req, version⟩ := r
  -- a record that changes a child count as well
  have hchanges : ∀ (c : RemoteInodeChange) id value version origins,
      ([c, ⟨.blocksDelta, id, value, version, origins⟩].filter (appliesNow srv)).map FlashOp.apply =
        ([c].filter (appliesNow srv)).map .apply := by
    intros
    rw [filter_cons, filter_appliesNow_blocksDelta, ← filter_cons]
  cases req with
  | create inodeId parentId mode uid gid type name =>
    have hops : Placed.ops srv (origin, ⟨.create inodeId parentId mode uid gid type name, version⟩) =
        [.write (replayCreateInode
          (logEntry ⟨.create inodeId parentId mode uid gid type name, version⟩))] := by
      rw [Placed.ops, Placed.changes]
      show [_] ++ ([_].filter (appliesNow srv)).map _ = _
      rw [filter_appliesNow_blocksDelta]
      rfl
    rw [hops, opsOn_singleton]
    show runSlot x (if inodeId = i then _ else _) = if i = inodeId then _ else _
    by_cases hi : i = inodeId
    · rw [if_pos hi, if_pos hi.symm]
      rfl
    · rw [if_neg hi, if_neg (Ne.symm hi)]
      rfl
  | unlink inodeId parentId name =>
    have hops : Placed.ops srv (origin, ⟨.unlink inodeId parentId name, version⟩) =
        ([⟨.unlink, inodeId, 0, version, [origin]⟩].filter (appliesNow srv)).map .apply :=
      hchanges ..
    rw [hops, runSlot_appliesNow howner _ (by simp)]
    rfl
  | rename inodeId oldParent newParent oldName newName type =>
    have hops : Placed.ops srv
        (origin, ⟨.rename inodeId oldParent newParent oldName newName type, version⟩) = [] := by
      rw [Placed.ops, Placed.changes]
      show [] ++ ((if oldParent = newParent then [] else [_, _]).filter (appliesNow srv)).map _ = _
      split
      · rfl
      · rw [filter_appliesNow_blocksDelta, filter_appliesNow_blocksDelta]
        rfl
    rw [hops]
    rfl
  | setattr inodeId mode =>
    have hops : Placed.ops srv (origin, ⟨.setattr inodeId mode, version⟩) =
        ([⟨.setattr, inodeId, mode, version, [origin]⟩].filter (appliesNow srv)).map .apply := rfl
    rw [hops, runSlot_appliesNow howner _ (by simp)]
    show (if i = inodeId ∧ x.id ≠ 0 then { x with mode := ((mode : Int) % 2 ^ 32).toNat, ctime := _ }
      else x) = if i = inodeId ∧ x.id ≠ 0 then { x with mode := mode % 2 ^ 32, ctime := _ } else x
    have hmode : ((mode : Int) % 2 ^ 32).toNat = mode % 2 ^ 32 := by omega
    rw [hmode]
  | link inodeId newParent newName type =>
    have hops : Placed.ops srv (origin, ⟨.link inodeId newParent newName type, version⟩) =
        ([⟨.link, inodeId, 0, version, [origin]⟩].filter (appliesNow srv)).map .apply :=
      hchanges ..
    rw [hops, runSlot_appliesNow howner _ (by simp)]
    rfl

/-- **The slot of an inode after the replay of records**, child counts apart. -/
theorem storedAll_eq_runSlot (howner : ownerMetaForInode i = srv)
    (ps : List Placed) (x : StoredInode) :
    runSlot x (opsOn i (replayOps srv ps)) = storedAll i (ps.map Prod.snd) x := by
  induction ps generalizing x with
  | nil => rfl
  | cons p ps ih =>
    rw [replayOps, flatMap_cons, opsOn_append, runSlot_append, runSlot_ops howner]
    exact ih _

theorem map_snd_placed (srv : Nat) (records : List Record) :
    (placed srv records).map Prod.snd = records := by
  refine ext_getElem (by simp [placed]) fun k _ _ => ?_
  simp [placed]

theorem map_snd_replayed (srv : Nat) (records : List Record) (d : Disk) (ch : Choice) :
    (d.replayed srv records ch).map Prod.snd = (records.drop d.drained).take ch.mainCount := by
  rw [Disk.replayed, map_take, map_drop, map_snd_placed]

/-- The slot of an own inode after the replay. -/
theorem replayRegion_slot (howner : ownerMetaForInode i = srv) (records : List Record)
    (d : Disk) (ch : Choice) : d.replayRegion srv records ch i =
      storedAll i ((records.drop d.drained).take ch.mainCount) (d.region i) := by
  rw [Disk.replayRegion, runOps_slot, storedAll_eq_runSlot howner, map_snd_replayed]

/-- What is left after a cycle. -/
theorem drop_drained {α : Type} (as : List α) (k n : Nat) :
    as.drop k = (as.drop k).take n ++ as.drop (k + n) := by
  rw [← drop_drop, take_append_drop]

end StaxFS.Persist
