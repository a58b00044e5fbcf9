import StaxFS.Metadata.State

/-!
# The inode region and the changes made to it

`SSDInodeRegion` of `server/cxl_persistence.h` and the functions of `server/cxl_persistence.cc` that
write to it: `ReplayCreateInode` and the `ApplyPersisted*` family. The region is an array with one
slot per inode id; a slot whose `id_` is 0 is empty. The source takes the id modulo `max_inodes_`;
here no two ids in use share a slot. Reads go through the page cache; what the file behind it holds,
by eviction and by the sync, is modelled in `Durable`.

Of a stored inode the fields are kept that a later change can read or that a reader compares; sizes
and the other times are written once, by `ReplayCreateInode`.

Every change is a call for one inode. The region after a list of calls is, slot by slot, the result
of the calls for that slot:

* `runOps_slot`: the slot of an inode after a list of calls.
-/

namespace StaxFS.Persist

open Wal Metadata List

/-- `Inode`, as it is stored. -/
structure StoredInode where
  id : Nat
  nlink : Nat
  mode : Nat
  /-- the number of entries of a directory, 32 bits -/
  extra : Nat
  uid : Nat
  gid : Nat
  ctime : Nat
deriving DecidableEq, Repr

/-- A slot that was never written. -/
def StoredInode.empty : StoredInode := ⟨0, 0, 0, 0, 0, 0, 0⟩

/-- `SSDInodeRegion`, by inode id. -/
abbrev Region := Nat → StoredInode

/-- A region nothing was written to. -/
def Region.blank : Region := fun _ => .empty

/-- `WriteInode`. -/
def writeInode (r : Region) (inodeId : Nat) (n : StoredInode) : Region :=
  Function.update r inodeId n

/-- `MutateInode`: nothing happens, and the answer is false, if the slot is empty. -/
def mutateInode (r : Region) (inodeId : Nat) (f : StoredInode → StoredInode) : Region × Bool :=
  if (r inodeId).id = 0 then (r, false) else (writeInode r inodeId (f (r inodeId)), true)

/-- `PageOffsetFor`, as the number of the page: 32 slots of 128 bytes. -/
def pageOffsetFor (inodeId : Nat) : Nat := inodeId / 32

/-! ### Changes -/

/-- `RemoteInodeChangeOp`. -/
inductive RemoteInodeChangeOp
  | noop
  | unlink
  | link
  | setattr
  | touchCtime
  | blocksDelta
deriving DecidableEq, Repr

/-- `RemoteInodeChange`, and `RemoteInodeWalEntry` without its sequence number. -/
structure RemoteInodeChange where
  op : RemoteInodeChangeOp
  inodeId : Nat
  value : Int
  version : Nat
  /-- The records the change stands for, by server and place in its log. Bookkeeping: nothing reads
  it. -/
  origins : List (Nat × Nat)
deriving DecidableEq, Repr

/-- `OwnerMetaForInode`. -/
def ownerMetaForInode (inodeId : Nat) : Nat := inodeId >>> kInodeIdRange

/-- `VersionSeconds`. -/
def versionSeconds (version : Nat) : Nat := version >>> kVersionPhysicalShift / 1000

/-- The function `ApplyPersistedUnlink` passes to `MutateInode`. -/
def dropStoredLink (ts : Nat) (n : StoredInode) : StoredInode :=
  { n with nlink := n.nlink - 1, ctime := ts }

/-- The function `ApplyPersistedLink` passes to `MutateInode`. -/
def addStoredLink (ts : Nat) (n : StoredInode) : StoredInode :=
  { n with nlink := (n.nlink + 1) % 2 ^ 64, ctime := ts }

/-- The function `ApplyPersistedBlocksDelta` passes to `MutateInode`: a floor at zero, and 32
bits. -/
def addBlocksDelta (delta : Int) (n : StoredInode) : StoredInode :=
  if delta < 0 ∧ (n.extra : Int) < -delta then { n with extra := 0 }
  else { n with extra := (((n.extra : Int) + delta) % 2 ^ 32).toNat }

namespace RemoteInodeChange

/-- The function passed to `MutateInode` for a change. -/
def mutate (c : RemoteInodeChange) (n : StoredInode) : StoredInode :=
  match c.op with
  | .noop => n
  | .unlink => dropStoredLink (versionSeconds c.version) n
  | .link => addStoredLink (versionSeconds c.version) n
  | .setattr => { n with mode := (c.value % 2 ^ 32).toNat, ctime := versionSeconds c.version }
  | .touchCtime => { n with ctime := versionSeconds c.version }
  | .blocksDelta => addBlocksDelta c.value n

end RemoteInodeChange

/-- `apply_one`: false if the inode is not in its slot. -/
def applyOne (r : Region) (c : RemoteInodeChange) : Region × Bool :=
  if c.op = .noop then (r, true) else mutateInode r c.inodeId c.mutate

/-! ### Calls on the region -/

/-- A call on the region: `WriteInode` of a new inode, or `MutateInode` for a change. -/
inductive FlashOp
  | write (n : StoredInode)
  | apply (c : RemoteInodeChange)
deriving DecidableEq, Repr

namespace FlashOp

/-- The inode a call is for. -/
def target : FlashOp → Nat
  | write n => n.id
  | apply c => c.inodeId

/-- What a call does to the slot of its inode. -/
def onSlot : FlashOp → StoredInode → StoredInode
  | write n, _ => n
  | apply c, n => if n.id = 0 then n else c.mutate n

def run (r : Region) : FlashOp → Region
  | write n => writeInode r n.id n
  | apply c => (applyOne r c).1

end FlashOp

/-- Calls one after the other. -/
def runOps (r : Region) (ops : List FlashOp) : Region := ops.foldl FlashOp.run r

/-- The calls for one inode on its slot. -/
def runSlot (n : StoredInode) (ops : List FlashOp) : StoredInode :=
  ops.foldl (fun n op => op.onSlot n) n

theorem RemoteInodeChange.mutate_id (c : RemoteInodeChange) (n : StoredInode) :
    (c.mutate n).id = n.id := by
  unfold RemoteInodeChange.mutate
  split
  · rfl
  · rfl
  · rfl
  · rfl
  · rfl
  · unfold addBlocksDelta
    split <;> rfl

theorem applyOne_fst (r : Region) (c : RemoteInodeChange) (i : Nat) :
    (applyOne r c).1 i = if i = c.inodeId then (FlashOp.apply c).onSlot (r i) else r i := by
  unfold applyOne mutateInode
  by_cases hop : c.op = .noop
  · have hid : ∀ n, c.mutate n = n := fun n => by simp [RemoteInodeChange.mutate, hop]
    simp [hop, FlashOp.onSlot, hid]
  · by_cases hi : i = c.inodeId
    · subst hi
      by_cases h0 : (r c.inodeId).id = 0
      · simp [hop, h0, FlashOp.onSlot]
      · simp [hop, h0, FlashOp.onSlot, writeInode]
    · by_cases h0 : (r c.inodeId).id = 0
      · simp [hop, h0, hi]
      · simp [hop, h0, hi, writeInode]

/-- A call changes the slot of its inode only. -/
theorem FlashOp.run_slot (r : Region) (op : FlashOp) (i : Nat) :
    op.run r i = if i = op.target then op.onSlot (r i) else r i := by
  cases op with
  | write n =>
    by_cases hi : i = n.id
    · simp [FlashOp.run, FlashOp.target, FlashOp.onSlot, writeInode, hi]
    · simp [FlashOp.run, FlashOp.target, writeInode, hi]
  | apply c => exact applyOne_fst r c i

@[simp] theorem runOps_nil (r : Region) : runOps r [] = r := rfl

@[simp] theorem runOps_cons (r : Region) (op : FlashOp) (ops : List FlashOp) :
    runOps r (op :: ops) = runOps (op.run r) ops := rfl

theorem runOps_append (r : Region) (ops ops' : List FlashOp) :
    runOps r (ops ++ ops') = runOps (runOps r ops) ops' := foldl_append ..

@[simp] theorem runSlot_nil (n : StoredInode) : runSlot n [] = n := rfl

@[simp] theorem runSlot_cons (n : StoredInode) (op : FlashOp) (ops : List FlashOp) :
    runSlot n (op :: ops) = runSlot (op.onSlot n) ops := rfl

theorem runSlot_append (n : StoredInode) (ops ops' : List FlashOp) :
    runSlot n (ops ++ ops') = runSlot (runSlot n ops) ops' := foldl_append ..

/-- The calls of a list for one inode. -/
def opsOn (i : Nat) (ops : List FlashOp) : List FlashOp := ops.filter (·.target = i)

@[simp] theorem opsOn_append (i : Nat) (ops ops' : List FlashOp) :
    opsOn i (ops ++ ops') = opsOn i ops ++ opsOn i ops' := filter_append ..

/-- **The slot of an inode after a list of calls** depends on the calls for it only. -/
theorem runOps_slot (ops : List FlashOp) (r : Region) (i : Nat) :
    runOps r ops i = runSlot (r i) (opsOn i ops) := by
  induction ops generalizing r with
  | nil => rfl
  | cons op ops ih =>
    rw [runOps_cons, ih, FlashOp.run_slot]
    by_cases hi : i = op.target
    · simp [opsOn, hi]
    · rw [if_neg hi, opsOn, opsOn, filter_cons_of_neg (by simpa using Ne.symm hi)]

/-- A slot that holds an inode goes on holding one. -/
theorem FlashOp.onSlot_id_ne (op : FlashOp) {n : StoredInode} (h : n.id ≠ 0)
    (hw : ∀ m, op = .write m → m.id ≠ 0) : (op.onSlot n).id ≠ 0 := by
  cases op with
  | write m => exact hw m rfl
  | apply c => rwa [FlashOp.onSlot, if_neg h, c.mutate_id]

section Holding

variable {r : Region} {ops : List FlashOp} {n : StoredInode}

/-- The same for a list of calls. -/
theorem runOps_id_ne {i : Nat} (hi : i ≠ 0) (ops : List FlashOp) (h : (r i).id ≠ 0) :
    (runOps r ops i).id ≠ 0 := by
  induction ops generalizing r with
  | nil => exact h
  | cons op ops ih =>
    refine ih ?_
    rw [FlashOp.run_slot]
    split
    · rename_i ht
      refine op.onSlot_id_ne h fun m hm => ?_
      rw [hm, FlashOp.target] at ht
      rwa [← ht]
    · exact h

/-- A write puts its inode into its slot. -/
theorem runOps_of_write (h : .write n ∈ ops) (hn : n.id ≠ 0)
    (r : Region) : (runOps r ops n.id).id ≠ 0 := by
  obtain ⟨before, after, rfl⟩ := append_of_mem h
  rw [runOps_append, runOps_cons]
  refine runOps_id_ne hn after ?_
  rw [FlashOp.run_slot, FlashOp.target, if_pos rfl]
  exact hn

end Holding

end StaxFS.Persist
