import StaxFS.Foundation.Prog
import StaxFS.Metadata.Clock
import StaxFS.Wal.System

/-!
# The shared metadata and its atomic operations

The metadata servers share a dirent table and an inode table; each server has its own pool of inode
ids, its own log and its own clock. The procedures of `Metadata` touch this state through the
operations of `Op`, each of which is atomic: the hash table and inode array operations, the pool
operations, and a `Log*` helper as a whole.

The dirent table is the list of its entries: an entry is found by its `pid_` and `name_`
(`KeyTraits::match`), and `insert` accepts duplicates. Where an entry stands in the list, which is
the probe order of the buckets, only matters between entries of one key. The log is kept as its
published records with the two positions that decide whether there is room.

An inode is found by its id, so `id_` is not a field of its own; times, sizes and block counts are
left out, since no modelled procedure reads them.
-/

namespace StaxFS.Metadata

open Foundation Wal List

/-- `Dirent`. -/
structure Dirent where
  id : Nat
  pid : Nat
  type : Nat
  name : Name
deriving DecidableEq, Repr

/-- `KeyTraits<DKeyPair, Dirent>::match`. -/
def Dirent.hasKey (pid : Nat) (name : Name) (d : Dirent) : Bool := d.pid == pid && d.name == name

/-- `Inode`. -/
structure Inode where
  nlink : Nat
  mode : Nat
  /-- the number of entries of a directory, 32 bits -/
  extra : Nat
  uid : Nat
  gid : Nat
deriving DecidableEq, Repr

/-- The test of the `S_IFDIR` bit. -/
def Inode.isDir (n : Inode) : Bool := n.mode &&& S_IFDIR != 0

/-! ### Inode ids -/

/-- `INODE_ID_RANGE`. -/
def kInodeIdRange : Nat := 50

/-- What is assumed of `moodycamel::ConcurrentQueue`: `try_dequeue` takes an id that is in the queue,
whichever it is, or reports none. -/
structure IdQueue where
  tryDequeue : List Nat → Option Nat
  mem : ∀ {ids : List Nat} {id : Nat}, tryDequeue ids = some id → id ∈ ids

/-- A queue that takes the oldest id. -/
def IdQueue.fifo : IdQueue := ⟨List.head?, List.mem_of_mem_head?⟩

/-- What `Init` leaves open: `min_avail_id_` is not set there. -/
structure Unset where
  minAvail : Nat
  queue : IdQueue

/-- The ids of one server: `base_id_`, `max_id_`, `min_unused_id_`, `min_avail_id_` and
`recycled_ids_`. -/
structure IdPool where
  queue : IdQueue
  base : Nat
  max : Nat
  minUnused : Nat
  minAvail : Nat
  recycled : List Nat
  base_le : base ≤ minUnused
  recycled_mem : ∀ id ∈ recycled, base ≤ id ∧ id < max

namespace IdPool

/-- The pool after `Init`. -/
def init (metaNum : Nat) (unset : Unset) : IdPool where
  queue := unset.queue
  base := metaNum <<< kInodeIdRange
  max := (metaNum + 1) <<< kInodeIdRange
  minUnused := metaNum <<< kInodeIdRange + kRootId + 1
  minAvail := unset.minAvail
  recycled := []
  base_le := by omega
  recycled_mem := by simp

/-- The id past all ids used so far. -/
def takeUnused (p : IdPool) : Nat × IdPool :=
  (p.minUnused, { p with
    minUnused := p.minUnused + 1
    minAvail := p.minUnused + 1
    base_le := Nat.le_succ_of_le p.base_le })

/-- `AllocateInodeId`. -/
def allocate (p : IdPool) : Nat × IdPool :=
  if p.minAvail = p.minUnused then p.takeUnused
  else
    match p.queue.tryDequeue p.recycled with
    | none => p.takeUnused
    | some id =>
      (id, { p with
        recycled := p.recycled.erase id
        recycled_mem := fun i hi => p.recycled_mem i (List.mem_of_mem_erase hi) })

/-- The first half of `FreeInodeId`: the id returns to the unused ones or to the recycled ones. -/
def giveBack (p : IdPool) (id : Nat) : IdPool :=
  if h : p.base ≤ id ∧ id < p.max then
    if p.minUnused = id + 1 then { p with minUnused := id, base_le := h.1 }
    else { p with
      recycled := p.recycled ++ [id]
      recycled_mem := fun i hi => by
        rcases List.mem_append.mp hi with hi | hi
        · exact p.recycled_mem i hi
        · rwa [List.mem_singleton.mp hi] }
  else p

/-- The second half of `FreeInodeId`. -/
def lowerAvail (p : IdPool) (id : Nat) : IdPool :=
  if id < p.minAvail then { p with minAvail := id } else p

/-- `FreeInodeId`. -/
def free (p : IdPool) (id : Nat) : IdPool := (p.giveBack id).lowerAvail id

/-- The ids that can still be given out. -/
def Free (p : IdPool) (id : Nat) : Prop := id ∈ p.recycled ∨ p.minUnused ≤ id ∧ id < p.max

section

variable (p : IdPool)

include p

/-- An allocation takes the first unused id or a recycled one. -/
theorem allocate_cases : (p.allocate.1 = p.minUnused ∧ p.allocate.2.minUnused = p.minUnused + 1 ∧
      p.allocate.2.recycled = p.recycled) ∨
    ((p.allocate.1 :: p.allocate.2.recycled).Perm p.recycled ∧
      p.allocate.2.minUnused = p.minUnused) := by
  unfold allocate
  split
  · exact .inl ⟨rfl, rfl, rfl⟩
  · split
    · exact .inl ⟨rfl, rfl, rfl⟩
    · exact .inr ⟨(perm_cons_erase (p.queue.mem ‹_›)).symm, rfl⟩

theorem allocate_range : p.allocate.2.base = p.base ∧ p.allocate.2.max = p.max := by
  unfold allocate
  split
  · exact ⟨rfl, rfl⟩
  · split <;> exact ⟨rfl, rfl⟩

theorem base_le_allocate : p.base ≤ p.allocate.1 := by
  rcases p.allocate_cases with ⟨h, -⟩ | ⟨h, -⟩
  · rw [h]
    exact p.base_le
  · exact (p.recycled_mem _ (h.subset mem_cons_self)).1

theorem lowerAvail_eq (id : Nat) : (p.lowerAvail id).base = p.base ∧ (p.lowerAvail id).max = p.max ∧
      (p.lowerAvail id).minUnused = p.minUnused ∧ (p.lowerAvail id).recycled = p.recycled := by
  unfold lowerAvail
  split <;> exact ⟨rfl, rfl, rfl, rfl⟩

theorem giveBack_range (id : Nat) :
    (p.giveBack id).base = p.base ∧ (p.giveBack id).max = p.max := by
  unfold giveBack
  split
  · split <;> exact ⟨rfl, rfl⟩
  · exact ⟨rfl, rfl⟩

theorem free_range (id : Nat) : (p.free id).base = p.base ∧ (p.free id).max = p.max := by
  obtain ⟨h1, h2, -⟩ := (p.giveBack id).lowerAvail_eq id
  obtain ⟨h3, h4⟩ := p.giveBack_range id
  exact ⟨h1.trans h3, h2.trans h4⟩

/-- Giving an id back: it becomes the first unused one, or it is recycled. -/
theorem free_cases {id : Nat} (h : p.base ≤ id ∧ id < p.max) :
    (p.minUnused = id + 1 ∧ (p.free id).minUnused = id ∧ (p.free id).recycled = p.recycled) ∨
    ((p.free id).minUnused = p.minUnused ∧ (p.free id).recycled = p.recycled ++ [id]) := by
  obtain ⟨-, -, h1, h2⟩ := (p.giveBack id).lowerAvail_eq id
  rw [free, h1, h2, giveBack, dif_pos h]
  by_cases hu : p.minUnused = id + 1
  · exact .inl (by simp [hu])
  · exact .inr (by simp [hu])

/-- An id of another server's range is not taken back. -/
theorem free_of_foreign (id : Nat) (h : ¬(p.base ≤ id ∧ id < p.max)) :
    (p.free id).minUnused = p.minUnused ∧ (p.free id).recycled = p.recycled := by
  obtain ⟨-, -, h1, h2⟩ := (p.giveBack id).lowerAvail_eq id
  rw [free, h1, h2, giveBack, dif_neg h]
  exact ⟨rfl, rfl⟩

/-- Giving an id back makes it free and changes nothing else. -/
theorem free_iff {id : Nat} (h : p.base ≤ id ∧ id < p.max) (i : Nat) :
    (p.free id).Free i ↔ p.Free i ∨ i = id := by
  unfold Free
  rw [(p.free_range id).2]
  rcases p.free_cases h with ⟨hu, h1, h2⟩ | ⟨h1, h2⟩
  · rw [h1, h2, hu]
    constructor
    · rintro (hi | hi)
      · exact .inl (.inl hi)
      · by_cases he : i = id
        · exact .inr he
        · exact .inl (.inr (by omega))
    · rintro ((hi | hi) | rfl)
      · exact .inl hi
      · exact .inr (by omega)
      · exact .inr (by omega)
  · rw [h1, h2, mem_append, mem_singleton]
    exact or_right_comm

/-- An id that was taken and given back is free as before, and so are all others. -/
theorem free_allocate (i : Nat) : (p.allocate.2.free p.allocate.1).Free i ↔ p.Free i := by
  obtain ⟨hb, hm⟩ := p.allocate_range
  have hlow := p.base_le_allocate
  by_cases hr : p.allocate.1 < p.max
  · rw [free_iff _ (by omega)]
    unfold Free
    rw [hm]
    rcases p.allocate_cases with ⟨h1, h2, h3⟩ | ⟨h1, h2⟩
    · rw [h1] at hr
      rw [h1, h2, h3, or_assoc]
      refine or_congr_right ?_
      omega
    · rw [← h1.mem_iff, h2, mem_cons, or_right_comm, or_comm (a := i = _)]
  · -- past the server's range nothing is given back, and nothing was left to give out
    obtain ⟨h4, h5⟩ := free_of_foreign p.allocate.2 p.allocate.1 (by omega)
    unfold Free
    rw [h4, h5, (free_range _ _).2, hm]
    rcases p.allocate_cases with ⟨h1, h2, h3⟩ | ⟨h1, -⟩
    · rw [h2, h3]
      refine or_congr_right ?_
      omega
    · exact absurd (p.recycled_mem _ (h1.subset mem_cons_self)).2 hr

end

end IdPool

/-! ### Servers -/

/-- A published record. -/
structure Record where
  request : LogRequest
  version : Nat
deriving DecidableEq, Repr

/-- A server's log: the positions of the ring and the records published so far. -/
structure Log where
  config : Config
  head : Nat
  cp : Nat
  records : List Record

/-- The room test of `TryReserveSlots` for a request. -/
def Log.hasRoom (l : Log) (req : LogRequest) : Bool := Wal.hasRoom l.config l.head req.slots l.cp

/-- `Append` and `AppendWithOverflow` once there is room. -/
def Log.append (l : Log) (req : LogRequest) (version : Nat) : Log :=
  { l with head := l.head + req.slots, records := l.records ++ [⟨req, version⟩] }

/-- A metadata server. -/
structure Server where
  metaNum : Nat
  ids : IdPool
  log : Log
  /-- `hlc_state_` -/
  hlc : Nat

/-- The state all calls work on. -/
structure Cluster where
  dirents : List Dirent
  inodes : Nat → Option Inode
  servers : Nat → Server
  /-- `tls_pending_version_` of every thread, 0 if none is pending -/
  pending : Nat → Nat
  /-- counts the operations that depend on the environment -/
  tick : Nat

/-- A server after `Init`, with an empty log. -/
def Server.init (config : Config) (metaNum : Nat) (unset : Unset) : Server :=
  ⟨metaNum, .init metaNum unset, ⟨config, 0, 0, []⟩, 0⟩

/-- The state after `Init` on all servers: server 0 has made the root directory. -/
def Cluster.init (config : Config) (unset : Unset) : Cluster where
  dirents := []
  inodes := Function.update (fun _ => none) kRootId (some ⟨1, 0o755 ||| S_IFDIR, 0, 1, 2⟩)
  servers k := .init config k unset
  pending _ := 0
  tick := 0

/-- What the environment decides, by the tick at which it is asked. -/
structure Env where
  /-- `CurrentPhysicalMs` -/
  clock : Nat → Nat
  /-- the dirent table finds no place for an insert -/
  refuses : Nat → Bool
  /-- an uninitialised byte -/
  garbage : Nat → Nat

/-! ### Operations -/

/-- The functions `update_fn` is called with. -/
inductive InodeFn
  /-- `AddDirectoryEntry` -/
  | extraInc
  /-- `DeleteDirectoryEntry` -/
  | extraDec
  /-- `Unlink` -/
  | unlink (isDir : Bool)
  /-- `Rename` for a link -/
  | nlinkInc
  /-- `Chmod` -/
  | setMode (mode : Nat)
deriving DecidableEq, Repr

/-- `error` in the function `Unlink` passes to `update_fn`. -/
def unlinkError (isDir : Bool) (n : Inode) : Bool :=
  if isDir then !n.isDir || decide (0 < n.extra) else n.isDir

/-- The inode with one link less. -/
def Inode.dropLink (n : Inode) : Inode := { n with nlink := (2 ^ 64 - 1 + n.nlink) % 2 ^ 64 }

def InodeFn.apply : InodeFn → Inode → Inode
  | .extraInc, n => { n with extra := (n.extra + 1) % 2 ^ 32 }
  | .extraDec, n => { n with extra := (2 ^ 32 - 1 + n.extra) % 2 ^ 32 }
  | .unlink isDir, n => if unlinkError isDir n then n else n.dropLink
  | .nlinkInc, n => { n with nlink := (n.nlink + 1) % 2 ^ 64 }
  | .setMode mode, n => { n with mode }

/-- The atomic operations. -/
inductive Op
  /-- `dhashtable_->find` -/
  | findDirent (pid : Nat) (name : Name)
  /-- `dhashtable_->insert`, under the key of the entry -/
  | insertDirent (d : Dirent)
  /-- `dhashtable_->erase` -/
  | eraseDirent (pid : Nat) (name : Name)
  | getInode (id : Nat)
  | putInode (id : Nat) (n : Inode)
  /-- `ihashtable_->update_fn` -/
  | updateFn (id : Nat) (f : InodeFn)
  | deleteInode (id : Nat)
  | allocateInodeId
  | freeInodeId (id : Nat)
  /-- a `Log*` helper -/
  | log (req : LogRequest)
  /-- the value of an uninitialised byte -/
  | garbage
  /-- undefined behaviour -/
  | undefined
deriving DecidableEq, Repr

/-- The answers: for `updateFn` the inode the function was applied to, for `log` whether the record
was appended. -/
@[reducible] def Res : Op → Type
  | .findDirent _ _ => Option Dirent
  | .insertDirent _ | .eraseDirent _ _ | .log _ => Bool
  | .getInode _ | .updateFn _ _ => Option Inode
  | .putInode _ _ | .deleteInode _ | .freeInodeId _ | .undefined => Unit
  | .allocateInodeId | .garbage => Nat

namespace Cluster

/-- `dhashtable_->find`. -/
def find (σ : Cluster) (pid : Nat) (name : Name) : Option Dirent :=
  σ.dirents.find? (Dirent.hasKey pid name)

def erase (σ : Cluster) (pid : Nat) (name : Name) : Cluster :=
  { σ with dirents := σ.dirents.eraseP (Dirent.hasKey pid name) }

def setInode (σ : Cluster) (id : Nat) (n : Option Inode) : Cluster :=
  { σ with inodes := Function.update σ.inodes id n }

def setServer (σ : Cluster) (srv : Nat) (s : Server) : Cluster :=
  { σ with servers := Function.update σ.servers srv s }

def setIds (σ : Cluster) (srv : Nat) (p : IdPool) : Cluster :=
  σ.setServer srv { σ.servers srv with ids := p }

/-- `update_fn`: nothing happens if there is no such inode. -/
def updateFn (σ : Cluster) (id : Nat) (f : InodeFn) : Cluster :=
  match σ.inodes id with
  | none => σ
  | some n => σ.setInode id (some (f.apply n))

/-- `NextVersion` on server `srv` in thread `th`, with the record appended. -/
def append (env : Env) (srv th : Nat) (σ : Cluster) (req : LogRequest) : Cluster :=
  let s := σ.servers srv
  if σ.pending th ≠ 0 then
    { σ.setServer srv { s with log := s.log.append req (σ.pending th) } with
      pending := Function.update σ.pending th 0 }
  else
    let next := mergeAndTick (env.clock σ.tick) s.hlc 0 s.metaNum
    { σ.setServer srv { s with log := s.log.append req next.2, hlc := next.1 } with
      tick := σ.tick + 1 }

/-- The room test on server `srv`. -/
def hasRoom (σ : Cluster) (srv : Nat) (req : LogRequest) : Bool := (σ.servers srv).log.hasRoom req

/-- `insert`: refused or not, as the environment decides. -/
def insert (env : Env) (σ : Cluster) (d : Dirent) : Cluster :=
  if env.refuses σ.tick then { σ with tick := σ.tick + 1 }
  else { σ with dirents := d :: σ.dirents, tick := σ.tick + 1 }

end Cluster

/-- One operation, on server `srv` in thread `th`. -/
def exec (env : Env) (srv th : Nat) : (op : Op) → Cluster → Option (Res op × Cluster)
  | .findDirent pid name, σ => some (σ.find pid name, σ)
  | .insertDirent d, σ => some (!env.refuses σ.tick, σ.insert env d)
  | .eraseDirent pid name, σ => some ((σ.find pid name).isSome, σ.erase pid name)
  | .getInode id, σ => some (if id = 0 then none else σ.inodes id, σ)
  | .putInode id n, σ => some ((), σ.setInode id (some n))
  | .updateFn id f, σ => some (σ.inodes id, σ.updateFn id f)
  | .deleteInode id, σ => some ((), σ.setInode id none)
  | .allocateInodeId, σ =>
    some ((σ.servers srv).ids.allocate.1, σ.setIds srv (σ.servers srv).ids.allocate.2)
  | .freeInodeId id, σ => some ((), σ.setIds srv ((σ.servers srv).ids.free id))
  | .log req, σ => some (σ.hasRoom srv req, if σ.hasRoom srv req then σ.append env srv th req else σ)
  | .garbage, σ => some (env.garbage σ.tick, { σ with tick := σ.tick + 1 })
  | .undefined, _ => none

end StaxFS.Metadata
