import StaxFS.Metadata.Operations

/-!
# What a call does when nothing else runs

One rule for each way a procedure of `Metadata` can end, with its result and the state it leaves.
The rules are the programs run alone (`run_unlink`, `run_chmod`, `run_create`, `run_rename`); what
follows about sequential calls is proved from the rules.
-/

namespace StaxFS.Metadata

open Foundation Wal Option Cluster
open Prog (run_bind)

/-! ### Resolution -/

/-- The loop of `LocateInode` on a dirent table that does not change. -/
def locateIn (ds : List Dirent) : List Name → Nat → Nat → Option Dirent → Located
  | [], id, parent, ent => .atEnd id parent ent
  | name :: rest, id, _, _ =>
    match ds.find? (Dirent.hasKey id name) with
    | some d => locateIn ds rest d.id id (some d)
    | none => .missing id name rest.isEmpty

namespace Cluster

/-- `LocateInode` with nothing else running. -/
def locate (σ : Cluster) (path : Name) (start : Nat) : Located :=
  locateIn σ.dirents (components path) (if start = 0 then kRootId else start) 0 none

theorem locate_congr {σ σ' : Cluster} (h : σ'.dirents = σ.dirents) (path : Name) (start : Nat) :
    σ'.locate path start = σ.locate path start := by
  rw [locate, locate, h]

/-- `AddDirectoryEntry`. -/
def addEntry (env : Env) (σ : Cluster) (entry : Dirent) (parentId : Nat) (updateParent : Bool) :
    Cluster :=
  (if updateParent then σ.updateFn parentId .extraInc else σ).insert env entry

/-- `DeleteDirectoryEntry`. -/
def deleteEntry (σ : Cluster) (name : Name) (parentId : Nat) (updateParent : Bool) : Cluster :=
  (if updateParent then σ.updateFn parentId .extraDec else σ).erase parentId name

/-- `FreeInodeId` and `DeleteInode`. -/
def freeInode (srv : Nat) (σ : Cluster) (id : Nat) : Cluster :=
  (σ.setIds srv ((σ.servers srv).ids.free id)).setInode id none

/-- The entry `LocateInode` was given, as `entryOf` finds it. -/
def entryOf (env : Env) (σ : Cluster) (l : Located) : Dirent × Cluster :=
  match l.ent with
  | some d => (d, σ)
  | none => (⟨0, 0, env.garbage σ.tick, []⟩, { σ with tick := σ.tick + 1 })

/-- Step 3 of `Rename`: the old path from the last common directory. -/
def oldRes (σ : Cluster) (oldpath : Name) (lcd : Nat) : Located :=
  σ.locate (oldpath.drop lcd) (σ.locate (oldpath.take lcd) 0).id

/-- Step 4 of `Rename`: the new path from the last common directory. -/
def newRes (σ : Cluster) (oldpath newpath : Name) (lcd : Nat) : Located :=
  σ.locate (newpath.drop lcd) (σ.locate (oldpath.take lcd) 0).id

end Cluster

/-- The request `Unlink` logs. -/
def Located.unlinkRequest (l : Located) : LogRequest := .unlink l.id l.parent l.entName

/-- The request `Rename` logs. -/
def renameRequest (link : Bool) (oldRes : Located) (entry : Dirent) (newParent : Nat)
    (newName : Name) : LogRequest :=
  if link then .link oldRes.id newParent newName entry.type
  else .rename oldRes.id oldRes.parent newParent entry.name newName entry.type

/-! ### The rules -/

section Rules

variable (env : Env) (srv th : Nat) (σ : Cluster)

/-- The state in which `Unlink` has removed the entry and one link of `n`. -/
def Cluster.unlinked (res : Located) (n : Inode) : Cluster :=
  ((σ.append env srv th res.unlinkRequest).setInode res.id (some n.dropLink)).deleteEntry
    res.entName res.parent true

inductive Unlinked (path : Name) (isDir : Bool) : Int → Cluster → Prop
  | notFound : (σ.locate path 0).found = false → Unlinked path isDir (-1) σ
  | full : (σ.locate path 0).found = true →
      σ.hasRoom srv (σ.locate path 0).unlinkRequest = false → Unlinked path isDir (-EAGAIN) σ
  | invalid : (σ.locate path 0).found = true →
      σ.hasRoom srv (σ.locate path 0).unlinkRequest = true →
      (∀ n, σ.inodes (σ.locate path 0).id = some n → unlinkError isDir n = true) →
      Unlinked path isDir (-1) (σ.append env srv th (σ.locate path 0).unlinkRequest)
  | dropped {n : Inode} : (σ.locate path 0).found = true →
      σ.hasRoom srv (σ.locate path 0).unlinkRequest = true →
      σ.inodes (σ.locate path 0).id = some n → unlinkError isDir n = false →
      n.dropLink.nlink ≠ 0 → Unlinked path isDir 0 (σ.unlinked env srv th (σ.locate path 0) n)
  | removed {n : Inode} : (σ.locate path 0).found = true →
      σ.hasRoom srv (σ.locate path 0).unlinkRequest = true →
      σ.inodes (σ.locate path 0).id = some n → unlinkError isDir n = false →
      n.dropLink.nlink = 0 → Unlinked path isDir 0
        ((σ.unlinked env srv th (σ.locate path 0) n).freeInode srv (σ.locate path 0).id)

inductive Chmodded (path : Name) (mode : Nat) : Int → Cluster → Prop
  | notFound : (σ.locate path 0).found = false ∨ (σ.locate path 0).id = 0 →
      Chmodded path mode (-1) σ
  | full : (σ.locate path 0).found = true → (σ.locate path 0).id ≠ 0 →
      σ.hasRoom srv (.setattr (σ.locate path 0).id mode) = false →
      Chmodded path mode (-EAGAIN) σ
  | noInode : (σ.locate path 0).found = true → (σ.locate path 0).id ≠ 0 →
      σ.hasRoom srv (.setattr (σ.locate path 0).id mode) = true →
      σ.inodes (σ.locate path 0).id = none →
      Chmodded path mode (-1) (σ.append env srv th (.setattr (σ.locate path 0).id mode))
  | changed {n : Inode} : (σ.locate path 0).found = true → (σ.locate path 0).id ≠ 0 →
      σ.hasRoom srv (.setattr (σ.locate path 0).id mode) = true →
      σ.inodes (σ.locate path 0).id = some n →
      Chmodded path mode 0 ((σ.append env srv th (.setattr (σ.locate path 0).id mode)).setInode
        (σ.locate path 0).id (some { n with mode }))

/-- The mode, the entry and the request of a new inode. -/
def newMode (mode : Nat) (isDir : Bool) : Nat := mode ||| (if isDir then S_IFDIR else S_IFREG)

def newEntry (id : Nat) (isDir : Bool) (res : Located) : Dirent :=
  ⟨id, res.parent, if isDir then DT_DIR else DT_REG, res.newPath⟩

def createRequest (id mode uid gid : Nat) (isDir : Bool) (res : Located) : LogRequest :=
  .create id res.parent (newMode mode isDir) uid gid (if isDir then DT_DIR else DT_REG) res.newPath

inductive Created (path : Name) (mode uid gid : Nat) (isDir : Bool) : Int → Cluster → Prop
  | noParent : (σ.locate path 0).parent = 0 → Created path mode uid gid isDir (-1) σ
  | existing : (σ.locate path 0).parent ≠ 0 → (σ.locate path 0).found = true →
      (σ.locate path 0).id ≠ 0 → (σ.inodes (σ.locate path 0).id).isSome = true →
      Created path mode uid gid isDir 0 σ
  | noInode : (σ.locate path 0).parent ≠ 0 → (σ.locate path 0).found = true →
      ((σ.locate path 0).id = 0 ∨ σ.inodes (σ.locate path 0).id = none) →
      Created path mode uid gid isDir (-1) σ
  | full {id : Nat} {ids : IdPool} : (σ.locate path 0).parent ≠ 0 →
      (σ.locate path 0).found = false → (σ.servers srv).ids.allocate = (id, ids) →
      (σ.locate path 0).newPath.length ≤ kMaxFilenameLen →
      σ.hasRoom srv (createRequest id mode uid gid isDir (σ.locate path 0)) = false →
      Created path mode uid gid isDir (-EAGAIN) (σ.setIds srv (ids.free id))
  | created {id : Nat} {ids : IdPool} : (σ.locate path 0).parent ≠ 0 →
      (σ.locate path 0).found = false → (σ.servers srv).ids.allocate = (id, ids) →
      (σ.locate path 0).newPath.length ≤ kMaxFilenameLen →
      σ.hasRoom srv (createRequest id mode uid gid isDir (σ.locate path 0)) = true →
      Created path mode uid gid isDir 0
        ((((σ.setIds srv ids).append env srv th
            (createRequest id mode uid gid isDir (σ.locate path 0))).setInode id
            (some ⟨1, newMode mode isDir, 0, uid, gid⟩)).addEntry env
          (newEntry id isDir (σ.locate path 0)) (σ.locate path 0).parent true)

/-- The entry `Rename` puts in the new place. -/
def Dirent.moved (entry : Dirent) (newParent : Nat) (newName : Name) : Dirent :=
  { entry with pid := newParent, name := newName }

/-- The end of `Rename`, behind the resolution of both paths. -/
inductive Moved (link : Bool) (oldRes : Located) (entry : Dirent) (newParent : Nat)
    (newName : Name) : Int → Cluster → Prop
  | noParent : newParent = 0 → Moved link oldRes entry newParent newName (-1) σ
  | full : newParent ≠ 0 →
      σ.hasRoom srv (renameRequest link oldRes entry newParent newName) = false →
      Moved link oldRes entry newParent newName (-EAGAIN) σ
  | renamed : newParent ≠ 0 → newName.length ≤ kMaxFilenameLen → link = false →
      σ.hasRoom srv (renameRequest link oldRes entry newParent newName) = true →
      Moved link oldRes entry newParent newName 0
        (((σ.append env srv th (renameRequest link oldRes entry newParent newName)).deleteEntry
            entry.name oldRes.parent (!(oldRes.parent == newParent))).addEntry env
          (entry.moved newParent newName) newParent (!(oldRes.parent == newParent)))
  | noInode : newParent ≠ 0 → link = true →
      σ.hasRoom srv (renameRequest link oldRes entry newParent newName) = true →
      σ.inodes oldRes.id = none →
      Moved link oldRes entry newParent newName (-1)
        (σ.append env srv th (renameRequest link oldRes entry newParent newName))
  | linked {n : Inode} : newParent ≠ 0 → newName.length ≤ kMaxFilenameLen → link = true →
      σ.hasRoom srv (renameRequest link oldRes entry newParent newName) = true →
      σ.inodes oldRes.id = some n →
      Moved link oldRes entry newParent newName 0
        (((σ.append env srv th (renameRequest link oldRes entry newParent newName)).setInode
            oldRes.id (some { n with nlink := (n.nlink + 1) % 2 ^ 64 })).addEntry env
          (entry.moved newParent newName) newParent true)

/-- Both paths of `Rename` have a common directory and the old path resolves. -/
structure OldFound (oldpath newpath : Name) (lcd : Nat) : Prop where
  lcd_eq : lastCommonDir oldpath newpath = some lcd
  common : (σ.locate (oldpath.take lcd) 0).found = true
  old : (σ.oldRes oldpath lcd).found = true

/-- The new path of a rename resolves too, to an entry of the same kind. -/
structure Covers (oldpath newpath : Name) (lcd : Nat) : Prop extends
    OldFound σ oldpath newpath lcd where
  new : (σ.newRes oldpath newpath lcd).found = true
  kind : ((σ.entryOf env (σ.oldRes oldpath lcd)).1.type == DT_DIR) =
    (((σ.entryOf env (σ.oldRes oldpath lcd)).2.entryOf env
      (σ.newRes oldpath newpath lcd)).1.type == DT_DIR)

/-- The state in which `Rename` unlinks the target it covers. -/
def Cluster.beforeCover (oldpath newpath : Name) (lcd : Nat) : Cluster :=
  ((σ.entryOf env (σ.oldRes oldpath lcd)).2.entryOf env (σ.newRes oldpath newpath lcd)).2

/-- `new_is_dir` of `Rename`. -/
def Cluster.coversDir (oldpath newpath : Name) (lcd : Nat) : Bool :=
  ((σ.entryOf env (σ.oldRes oldpath lcd)).2.entryOf env
    (σ.newRes oldpath newpath lcd)).1.type == DT_DIR

inductive Renamed (oldpath newpath : Name) (link : Bool) : Int → Cluster → Prop
  | noCommonDir {lcd : Nat} : lastCommonDir oldpath newpath = some lcd →
      (σ.locate (oldpath.take lcd) 0).found = false → Renamed oldpath newpath link (-1) σ
  | noOldPath {lcd : Nat} : lastCommonDir oldpath newpath = some lcd →
      (σ.locate (oldpath.take lcd) 0).found = true → (σ.oldRes oldpath lcd).found = false →
      Renamed oldpath newpath link (-1) σ
  | linkExists {lcd : Nat} : OldFound σ oldpath newpath lcd → link = true →
      (σ.newRes oldpath newpath lcd).found = true →
      Renamed oldpath newpath link (-1) (σ.entryOf env (σ.oldRes oldpath lcd)).2
  | mismatch {lcd : Nat} : OldFound σ oldpath newpath lcd → link = false →
      (σ.newRes oldpath newpath lcd).found = true → ¬Covers env σ oldpath newpath lcd →
      Renamed oldpath newpath link (-1) (σ.beforeCover env oldpath newpath lcd)
  | coverFull {lcd : Nat} {σ₁ : Cluster} : Covers env σ oldpath newpath lcd → link = false →
      Unlinked env srv th (σ.beforeCover env oldpath newpath lcd) newpath
        (σ.coversDir env oldpath newpath lcd) (-EAGAIN) σ₁ →
      Renamed oldpath newpath link (-EAGAIN) σ₁
  | coverFailed {lcd : Nat} {σ₁ : Cluster} : Covers env σ oldpath newpath lcd → link = false →
      Unlinked env srv th (σ.beforeCover env oldpath newpath lcd) newpath
        (σ.coversDir env oldpath newpath lcd) (-1) σ₁ →
      Renamed oldpath newpath link (-1) σ₁
  | stillPresent {lcd : Nat} {σ₁ : Cluster} : Covers env σ oldpath newpath lcd → link = false →
      Unlinked env srv th (σ.beforeCover env oldpath newpath lcd) newpath
        (σ.coversDir env oldpath newpath lcd) 0 σ₁ →
      (σ₁.locate (newpath.drop lcd) (σ.newRes oldpath newpath lcd).parent).found = true →
      Renamed oldpath newpath link (-1) σ₁
  | covered {lcd : Nat} {σ₁ : Cluster} {r : Int} {σ' : Cluster} :
      Covers env σ oldpath newpath lcd → link = false →
      Unlinked env srv th (σ.beforeCover env oldpath newpath lcd) newpath
        (σ.coversDir env oldpath newpath lcd) 0 σ₁ →
      (σ₁.locate (newpath.drop lcd) (σ.newRes oldpath newpath lcd).parent).found = false →
      Moved env srv th σ₁ link (σ.oldRes oldpath lcd) (σ.entryOf env (σ.oldRes oldpath lcd)).1
        (σ₁.locate (newpath.drop lcd) (σ.newRes oldpath newpath lcd).parent).parent
        (σ₁.locate (newpath.drop lcd) (σ.newRes oldpath newpath lcd).parent).newPath r σ' →
      Renamed oldpath newpath link r σ'
  | moved {lcd : Nat} {r : Int} {σ' : Cluster} : OldFound σ oldpath newpath lcd →
      (σ.newRes oldpath newpath lcd).found = false →
      Moved env srv th (σ.entryOf env (σ.oldRes oldpath lcd)).2 link (σ.oldRes oldpath lcd)
        (σ.entryOf env (σ.oldRes oldpath lcd)).1 (σ.newRes oldpath newpath lcd).parent
        (σ.newRes oldpath newpath lcd).newPath r σ' →
      Renamed oldpath newpath link r σ'

end Rules

/-! ### Running the operations -/

section Run

variable {env : Env} {srv th : Nat} {σ σ' : Cluster} {r : Int}

@[simp] theorem run_findDirent (pid : Nat) (name : Name) :
    (findDirent pid name).run (exec env srv th) σ = some (σ.find pid name, σ) := rfl

@[simp] theorem run_insertDirent (d : Dirent) :
    (insertDirent d).run (exec env srv th) σ = some (!env.refuses σ.tick, σ.insert env d) := rfl

@[simp] theorem run_eraseDirent (pid : Nat) (name : Name) :
    (eraseDirent pid name).run (exec env srv th) σ =
      some ((σ.find pid name).isSome, σ.erase pid name) := rfl

@[simp] theorem run_getInode (id : Nat) :
    (getInode id).run (exec env srv th) σ = some (if id = 0 then none else σ.inodes id, σ) := rfl

@[simp] theorem run_putInode (id : Nat) (n : Inode) :
    (putInode id n).run (exec env srv th) σ = some ((), σ.setInode id (some n)) := rfl

@[simp] theorem run_updateFn (id : Nat) (f : InodeFn) :
    (updateFn id f).run (exec env srv th) σ = some (σ.inodes id, σ.updateFn id f) := rfl

@[simp] theorem run_deleteInode (id : Nat) :
    (deleteInode id).run (exec env srv th) σ = some ((), σ.setInode id none) := rfl

@[simp] theorem run_allocateInodeId : allocateInodeId.run (exec env srv th) σ =
      some ((σ.servers srv).ids.allocate.1, σ.setIds srv (σ.servers srv).ids.allocate.2) := rfl

@[simp] theorem run_freeInodeId (id : Nat) : (freeInodeId id).run (exec env srv th) σ =
      some ((), σ.setIds srv ((σ.servers srv).ids.free id)) := rfl

@[simp] theorem run_log (req : LogRequest) : (log req).run (exec env srv th) σ =
      some (σ.hasRoom srv req, if σ.hasRoom srv req then σ.append env srv th req else σ) := rfl

@[simp] theorem run_garbage : garbage.run (exec env srv th) σ =
      some (env.garbage σ.tick, { σ with tick := σ.tick + 1 }) := rfl

@[simp] theorem run_undefined : undefined.run (exec env srv th) σ = none := rfl

theorem run_locateLoop (names : List Name) (id parent : Nat) (ent : Option Dirent) :
    (locateLoop names id parent ent).run (exec env srv th) σ =
      some (locateIn σ.dirents names id parent ent, σ) := by
  induction names generalizing id parent ent with
  | nil => rfl
  | cons name rest ih =>
    simp only [locateLoop, run_bind, run_findDirent, bind_some, locateIn, Cluster.find]
    cases σ.dirents.find? (Dirent.hasKey id name) with
    | none => rfl
    | some d => exact ih d.id id (some d)

@[simp] theorem run_locateInode (path : Name) (start : Nat) :
    (locateInode path start).run (exec env srv th) σ = some (σ.locate path start, σ) :=
  run_locateLoop _ _ _ _

@[simp] theorem run_addDirectoryEntry (entry : Dirent) (parentId : Nat) (updateParent : Bool) :
    (addDirectoryEntry entry parentId updateParent).run (exec env srv th) σ =
      some ((), σ.addEntry env entry parentId updateParent) := by
  cases updateParent <;> rfl

@[simp] theorem run_deleteDirectoryEntry (name : Name) (parentId : Nat) (updateParent : Bool) :
    (deleteDirectoryEntry name parentId updateParent).run (exec env srv th) σ =
      some ((), σ.deleteEntry name parentId updateParent) := by
  cases updateParent <;> rfl

@[simp] theorem run_entryOf (l : Located) :
    (entryOf l).run (exec env srv th) σ = some (σ.entryOf env l) := by
  unfold entryOf Cluster.entryOf
  cases l.ent <;> rfl

end Run

/-! ### The programs follow the rules

Every rule is what the program computes (`Unlinked.run` and its like), and one rule always applies,
unless the behaviour is undefined (`unlinked_total` and its like). -/

namespace Cluster

variable {env : Env} {srv th : Nat} {σ : Cluster}

@[simp] theorem append_dirents (req : LogRequest) :
    (σ.append env srv th req).dirents = σ.dirents := by
  unfold append
  split <;> rfl

@[simp] theorem append_inodes (req : LogRequest) : (σ.append env srv th req).inodes = σ.inodes := by
  unfold append
  split <;> rfl

variable {id : Nat}

theorem setInode_self {n : Option Inode} (h : σ.inodes id = n) : σ.setInode id n = σ := by
  rw [setInode, ← h, Function.update_eq_self]

theorem updateFn_of_none (f : InodeFn) (h : σ.inodes id = none) : σ.updateFn id f = σ := by
  simp only [updateFn, h]

theorem updateFn_of_some {n : Inode} (f : InodeFn) (h : σ.inodes id = some n) :
    σ.updateFn id f = σ.setInode id (some (f.apply n)) := by
  simp only [updateFn, h]

/-- The function of `Unlink` leaves an inode it rejects as it is. -/
theorem updateFn_unlink_of_error {isDir : Bool}
    (h : ∀ n, σ.inodes id = some n → unlinkError isDir n = true) :
    σ.updateFn id (.unlink isDir) = σ := by
  cases hn : σ.inodes id with
  | none => exact updateFn_of_none _ hn
  | some n => rw [updateFn_of_some _ hn, InodeFn.apply, if_pos (h n hn), setInode_self hn]

theorem updateFn_unlink_of_ok {isDir : Bool} {n : Inode} (hn : σ.inodes id = some n)
    (h : unlinkError isDir n = false) :
    σ.updateFn id (.unlink isDir) = σ.setInode id (some n.dropLink) := by
  rw [updateFn_of_some _ hn, InodeFn.apply, if_neg (by simp [h])]

@[simp] theorem entryOf_dirents (l : Located) : (σ.entryOf env l).2.dirents = σ.dirents := by
  unfold entryOf
  split <;> rfl

@[simp] theorem entryOf_inodes (l : Located) : (σ.entryOf env l).2.inodes = σ.inodes := by
  unfold entryOf
  split <;> rfl

@[simp] theorem entryOf_servers (l : Located) : (σ.entryOf env l).2.servers = σ.servers := by
  unfold entryOf
  split <;> rfl

end Cluster

section Rules

variable {env : Env} {srv th : Nat} {σ σ' : Cluster} {r : Int}

/-- A program whose outcomes are given by rules, one of which applies. -/
theorem run_iff_of_total {p : M Int} {rule : Int → Cluster → Prop}
    (hrun : ∀ r σ', rule r σ' → p.run (exec env srv th) σ = some (r, σ'))
    (htotal : p.run (exec env srv th) σ = none ∨ ∃ r σ', rule r σ') :
    p.run (exec env srv th) σ = some (r, σ') ↔ rule r σ' := by
  refine ⟨fun h => ?_, hrun r σ'⟩
  rcases htotal with hnone | ⟨r0, σ0, h0⟩
  · rw [hnone] at h
    cases h
  · have he := (hrun r0 σ0 h0).symm.trans h
    cases he
    exact h0

variable {path oldpath newpath : Name} {isDir link : Bool} {mode lcd : Nat} {ids : IdPool}

theorem Unlinked.run (h : Unlinked env srv th σ path isDir r σ') :
    (unlink path isDir).run (exec env srv th) σ = some (r, σ') := by
  unfold unlink
  cases h with
  | notFound hf => simp [hf]
  | full hf hroom =>
    rw [Located.unlinkRequest] at hroom
    simp [hf, hroom]
  | invalid hf hroom hn =>
    rw [Located.unlinkRequest] at hroom ⊢
    simp only [run_bind, run_locateInode, bind_some, hf, Bool.not_true,
      Bool.false_eq_true, if_false, run_log, hroom, if_true, run_updateFn]
    rw [updateFn_unlink_of_error (by simpa using hn), append_inodes]
    cases hi : σ.inodes (σ.locate path 0).id with
    | none => rfl
    | some n => simp [hn n hi]
  | dropped hf hroom hn hok hl | removed hf hroom hn hok hl =>
    try rw [Cluster.freeInode]
    rw [Cluster.unlinked, Located.unlinkRequest] at *
    simp only [run_bind, run_locateInode, bind_some, hf, Bool.not_true,
      Bool.false_eq_true, if_false, run_log, hroom, if_true, run_updateFn]
    rw [updateFn_unlink_of_ok (by simpa using hn) hok, append_inodes, hn]
    simp [hok, hl]

theorem unlinked_total (env : Env) (srv th : Nat) (σ : Cluster) (path : Name) (isDir : Bool) :
    ∃ r σ', Unlinked env srv th σ path isDir r σ' := by
  cases hf : (σ.locate path 0).found with
  | false => exact ⟨_, _, .notFound hf⟩
  | true =>
    cases hroom : σ.hasRoom srv (σ.locate path 0).unlinkRequest with
    | false => exact ⟨_, _, .full hf hroom⟩
    | true =>
      by_cases hn : ∀ n, σ.inodes (σ.locate path 0).id = some n → unlinkError isDir n = true
      · exact ⟨_, _, .invalid hf hroom hn⟩
      · push Not at hn
        obtain ⟨n, hn, hok⟩ := hn
        have hok := Bool.eq_false_of_not_eq_true hok
        by_cases hl : n.dropLink.nlink = 0
        · exact ⟨_, _, .removed hf hroom hn hok hl⟩
        · exact ⟨_, _, .dropped hf hroom hn hok hl⟩

/-- `Unlink` run alone. -/
theorem run_unlink : (unlink path isDir).run (exec env srv th) σ = some (r, σ') ↔
      Unlinked env srv th σ path isDir r σ' :=
  run_iff_of_total (fun _ _ h => h.run) (.inr (unlinked_total env srv th σ path isDir))

theorem Chmodded.run (h : Chmodded env srv th σ path mode r σ') :
    (chmod path mode).run (exec env srv th) σ = some (r, σ') := by
  unfold chmod
  cases h with
  | notFound hf => rcases hf with hf | hf <;> simp [hf]
  | full hf hid hroom => simp [hf, hid, hroom]
  | noInode hf hid hroom hn =>
    simp only [run_bind, run_locateInode, bind_some, hf, hid, Bool.not_true,
      Bool.false_or, decide_false, Bool.false_eq_true, if_false, run_log, hroom, if_true,
      run_updateFn]
    rw [updateFn_of_none _ (by simpa using hn), append_inodes, hn]
    rfl
  | changed hf hid hroom hn =>
    simp only [run_bind, run_locateInode, bind_some, hf, hid, Bool.not_true,
      Bool.false_or, decide_false, Bool.false_eq_true, if_false, run_log, hroom, if_true,
      run_updateFn]
    rw [updateFn_of_some _ (by simpa using hn), append_inodes, hn]
    rfl

/-- `Chmod` run alone. -/
theorem run_chmod : (chmod path mode).run (exec env srv th) σ = some (r, σ') ↔
      Chmodded env srv th σ path mode r σ' := by
  refine run_iff_of_total (fun _ _ h => h.run) (.inr ?_)
  by_cases hf : (σ.locate path 0).found = false ∨ (σ.locate path 0).id = 0
  · exact ⟨_, _, .notFound hf⟩
  · rw [not_or, Bool.not_eq_false] at hf
    cases hroom : σ.hasRoom srv (.setattr (σ.locate path 0).id mode) with
    | false => exact ⟨_, _, .full hf.1 hf.2 hroom⟩
    | true =>
      cases hn : σ.inodes (σ.locate path 0).id with
      | none => exact ⟨_, _, .noInode hf.1 hf.2 hroom hn⟩
      | some n => exact ⟨_, _, .changed hf.1 hf.2 hroom hn⟩

@[simp] theorem hasRoom_setIds {req : LogRequest} :
    (σ.setIds srv ids).hasRoom srv req = σ.hasRoom srv req := by
  simp [Cluster.hasRoom, Cluster.setIds, Cluster.setServer]

@[simp] theorem setIds_ids : ((σ.setIds srv ids).servers srv).ids = ids := by
  simp [Cluster.setIds, Cluster.setServer]

theorem setIds_setIds {ids' : IdPool} : (σ.setIds srv ids).setIds srv ids' = σ.setIds srv ids' := by
  simp [Cluster.setIds, Cluster.setServer, Function.update_idem]

theorem Created.run {uid gid : Nat} (h : Created env srv th σ path mode uid gid isDir r σ') :
    (create path mode uid gid isDir).run (exec env srv th) σ = some (r, σ') := by
  unfold create
  cases h with
  | noParent hp => simp [hp]
  | existing hp hf hid hn =>
    obtain ⟨n, hn⟩ := isSome_iff_exists.mp hn
    simp [hp, hf, hid, hn]
  | noInode hp hf hn =>
    rcases hn with hn | hn
    · simp [hp, hf, hn]
    · simp [hp, hf, hn]
  | @full id ids hp hf halloc hlen hroom =>
    rw [createRequest, newMode] at hroom
    simp [hp, hf, halloc, Nat.not_lt.mpr hlen, hroom, setIds_setIds]
  | @created id ids hp hf halloc hlen hroom =>
    rw [createRequest, newMode] at *
    simp [hp, hf, halloc, Nat.not_lt.mpr hlen, hroom, newEntry]

/-- `Create` run alone. -/
theorem run_create {uid gid : Nat} :
    (create path mode uid gid isDir).run (exec env srv th) σ = some (r, σ') ↔
      Created env srv th σ path mode uid gid isDir r σ' := by
  refine run_iff_of_total (fun _ _ h => h.run) ?_
  by_cases hp : (σ.locate path 0).parent = 0
  · exact .inr ⟨_, _, .noParent hp⟩
  · cases hf : (σ.locate path 0).found with
    | true =>
      right
      by_cases hn : (σ.locate path 0).id = 0 ∨ σ.inodes (σ.locate path 0).id = none
      · exact ⟨_, _, .noInode hp hf hn⟩
      · rw [not_or] at hn
        exact ⟨_, _, .existing hp hf hn.1 (isSome_iff_ne_none.mpr hn.2)⟩
    | false =>
      by_cases hlen : (σ.locate path 0).newPath.length ≤ kMaxFilenameLen
      · right
        obtain ⟨⟨id, ids⟩, halloc⟩ : ∃ x, (σ.servers srv).ids.allocate = x := ⟨_, rfl⟩
        cases hroom : σ.hasRoom srv (createRequest id mode uid gid isDir (σ.locate path 0)) with
        | false => exact ⟨_, _, .full hp hf halloc hlen hroom⟩
        | true => exact ⟨_, _, .created hp hf halloc hlen hroom⟩
      · left
        unfold create
        simp [hp, hf, Nat.lt_of_not_le hlen]

theorem Moved.run {oldRes : Located} {entry : Dirent} {newParent : Nat}
    {newName : Name} (h : Moved env srv th σ link oldRes entry newParent newName r σ') :
    (renameEntry link oldRes entry newParent newName).run (exec env srv th) σ = some (r, σ') := by
  unfold renameEntry
  cases h with
  | noParent hp => simp [hp]
  | full hp hroom => cases link <;> simp_all [renameRequest]
  | renamed hp hlen hl hroom =>
    subst hl
    simp only [renameRequest, Bool.false_eq_true, if_false] at hroom ⊢
    simp [hp, Nat.not_lt.mpr hlen, hroom, Dirent.moved]
  | noInode hp hl hroom hn =>
    subst hl
    simp only [renameRequest, if_true] at hroom ⊢
    simp [hp, hroom, hn, updateFn_of_none]
  | @linked n hp hlen hl hroom hn =>
    subst hl
    simp only [renameRequest, if_true] at hroom ⊢
    have hn' : (σ.append env srv th (.link oldRes.id newParent newName entry.type)).inodes
        oldRes.id = some n := by rw [append_inodes, hn]
    simp [hp, Nat.not_lt.mpr hlen, hroom, hn, updateFn_of_some _ hn', Dirent.moved,
      InodeFn.apply]

theorem moved_total (env : Env) (srv th : Nat) (σ : Cluster) (link : Bool) (oldRes : Located)
    (entry : Dirent) (newParent : Nat) (newName : Name) :
    (renameEntry link oldRes entry newParent newName).run (exec env srv th) σ = none ∨
      ∃ r σ', Moved env srv th σ link oldRes entry newParent newName r σ' := by
  by_cases hp : newParent = 0
  · exact .inr ⟨_, _, .noParent hp⟩
  · cases hroom : σ.hasRoom srv (renameRequest link oldRes entry newParent newName) with
    | false => exact .inr ⟨_, _, .full hp hroom⟩
    | true =>
      cases link with
      | false =>
        by_cases hlen : newName.length ≤ kMaxFilenameLen
        · exact .inr ⟨_, _, .renamed hp hlen rfl hroom⟩
        · left
          simp only [renameRequest, Bool.false_eq_true, if_false] at hroom
          simp [renameEntry, hp, hroom, Nat.lt_of_not_le hlen]
      | true =>
        cases hn : σ.inodes oldRes.id with
        | none => exact .inr ⟨_, _, .noInode hp rfl hroom hn⟩
        | some n =>
          by_cases hlen : newName.length ≤ kMaxFilenameLen
          · exact .inr ⟨_, _, .linked hp hlen rfl hroom hn⟩
          · left
            simp only [renameRequest, if_true] at hroom
            have hn' : (σ.append env srv th (.link oldRes.id newParent newName entry.type)).inodes
                oldRes.id = some n := by rw [append_inodes, hn]
            simp [renameEntry, hp, hroom, hn, updateFn_of_some _ hn', Nat.lt_of_not_le hlen]

theorem locate_entryOf (l : Located) (path : Name) (start : Nat) :
    (σ.entryOf env l).2.locate path start = σ.locate path start :=
  locate_congr (entryOf_dirents l) path start

/-- `Rename` up to the resolution of the new path. -/
theorem OldFound.run_rename (h : OldFound σ oldpath newpath lcd) :
    (rename oldpath newpath link).run (exec env srv th) σ =
      (if (σ.newRes oldpath newpath lcd).found then do
          if link then return -1
          let newEntry ← entryOf (σ.newRes oldpath newpath lcd)
          let newIsDir := newEntry.type == DT_DIR
          if ((σ.entryOf env (σ.oldRes oldpath lcd)).1.type == DT_DIR) != newIsDir then return -1
          let cover ← unlink newpath newIsDir
          if cover = -EAGAIN then return -EAGAIN
          if cover ≠ 0 then return -1
          let newRes ← locateInode (newpath.drop lcd) (σ.newRes oldpath newpath lcd).parent
          if newRes.found then return -1
          renameEntry link (σ.oldRes oldpath lcd) (σ.entryOf env (σ.oldRes oldpath lcd)).1
            newRes.parent newRes.newPath
        else
          renameEntry link (σ.oldRes oldpath lcd) (σ.entryOf env (σ.oldRes oldpath lcd)).1
            (σ.newRes oldpath newpath lcd).parent (σ.newRes oldpath newpath lcd).newPath : M Int).run
        (exec env srv th) (σ.entryOf env (σ.oldRes oldpath lcd)).2 := by
  have hold := h.old
  unfold rename Cluster.newRes Cluster.oldRes at *
  simp only [h.lcd_eq, run_bind, run_locateInode, bind_some, h.common, hold,
    Bool.not_true, Bool.false_eq_true, if_false, run_entryOf, locate_entryOf]

/-- `Rename` once the target is known to be covered. -/
theorem Covers.run_rename (h : Covers env σ oldpath newpath lcd) :
    (rename oldpath newpath false).run (exec env srv th) σ =
      ((unlink newpath (σ.coversDir env oldpath newpath lcd)).run (exec env srv th)
        (σ.beforeCover env oldpath newpath lcd)).bind fun x =>
          (if x.1 = -EAGAIN then pure (-EAGAIN)
            else if x.1 ≠ 0 then pure (-1)
            else do
              let newRes ← locateInode (newpath.drop lcd) (σ.newRes oldpath newpath lcd).parent
              if newRes.found then return -1
              renameEntry false (σ.oldRes oldpath lcd) (σ.entryOf env (σ.oldRes oldpath lcd)).1
                newRes.parent newRes.newPath : M Int).run (exec env srv th) x.2 := by
  have hkind := h.kind
  rw [h.toOldFound.run_rename, if_pos h.new]
  simp only [Bool.false_eq_true, if_false, run_bind, run_entryOf, bind_some, hkind,
    bne_self_eq_false]
  rfl

theorem Renamed.run (h : Renamed env srv th σ oldpath newpath link r σ') :
    (rename oldpath newpath link).run (exec env srv th) σ = some (r, σ') := by
  cases h with
  | noCommonDir hlcd hc =>
    unfold rename
    simp [hlcd, hc]
  | noOldPath hlcd hc hold =>
    unfold rename
    unfold Cluster.oldRes at hold
    simp [hlcd, hc, hold]
  | linkExists hold hl hnew =>
    subst hl
    rw [hold.run_rename, if_pos hnew]
    rfl
  | @mismatch lcd hold hl hnew hnot =>
    subst hl
    have hkind : ((σ.entryOf env (σ.oldRes oldpath lcd)).1.type == DT_DIR) ≠
        (((σ.entryOf env (σ.oldRes oldpath lcd)).2.entryOf env
          (σ.newRes oldpath newpath lcd)).1.type == DT_DIR) := fun hk => hnot ⟨hold, hnew, hk⟩
    rw [hold.run_rename, if_pos hnew]
    simp only [Bool.false_eq_true, if_false, run_bind, run_entryOf, bind_some,
      bne_iff_ne.mpr hkind, if_true, Prog.run_pure]
    rfl
  | coverFull hc hl hu =>
    subst hl
    rw [hc.run_rename, hu.run]
    simp
  | coverFailed hc hl hu =>
    subst hl
    rw [hc.run_rename, hu.run]
    simp [EAGAIN]
  | stillPresent hc hl hu hn =>
    subst hl
    rw [hc.run_rename, hu.run]
    simp [EAGAIN, hn]
  | covered hc hl hu hn hm =>
    subst hl
    rw [hc.run_rename, hu.run]
    simp [EAGAIN, hn, hm.run]
  | moved hold hn hm =>
    rw [hold.run_rename, if_neg (by simp [hn]), hm.run]

/-- A run of `Unlink` ends in one of three ways. -/
theorem Unlinked.result
    (h : Unlinked env srv th σ path isDir r σ') : r = 0 ∨ r = -1 ∨ r = -EAGAIN := by
  cases h <;> simp

theorem OldFound.total
    (h : OldFound σ oldpath newpath lcd) (hn : (σ.newRes oldpath newpath lcd).found = false) :
    (rename oldpath newpath link).run (exec env srv th) σ = none ∨
      ∃ r σ', Renamed env srv th σ oldpath newpath link r σ' := by
  rw [h.run_rename, if_neg (by simp [hn])]
  exact (moved_total ..).imp id fun ⟨r, σ', hm⟩ => ⟨r, σ', .moved h hn hm⟩

theorem Covers.total (h : Covers env σ oldpath newpath lcd) :
    (rename oldpath newpath false).run (exec env srv th) σ = none ∨
      ∃ r σ', Renamed env srv th σ oldpath newpath false r σ' := by
  obtain ⟨r, σ₁, hu⟩ := unlinked_total env srv th (σ.beforeCover env oldpath newpath lcd) newpath
    (σ.coversDir env oldpath newpath lcd)
  rcases hu.result with rfl | rfl | rfl
  · cases hn : (σ₁.locate (newpath.drop lcd) (σ.newRes oldpath newpath lcd).parent).found with
    | true => exact .inr ⟨_, _, .stillPresent h rfl hu hn⟩
    | false =>
      rw [h.run_rename, hu.run]
      simp only [bind_some, EAGAIN, Int.reduceNeg, reduceCtorEq, if_false, ne_eq,
        not_true_eq_false, run_bind, run_locateInode, hn, Bool.false_eq_true]
      exact (moved_total ..).imp id fun ⟨r, σ', hm⟩ => ⟨r, σ', .covered h rfl hu hn hm⟩
  · exact .inr ⟨_, _, .coverFailed h rfl hu⟩
  · exact .inr ⟨_, _, .coverFull h rfl hu⟩

/-- `Rename` run alone. -/
theorem run_rename : (rename oldpath newpath link).run (exec env srv th) σ = some (r, σ') ↔
      Renamed env srv th σ oldpath newpath link r σ' := by
  refine run_iff_of_total (fun _ _ h => h.run) ?_
  cases hlcd : lastCommonDir oldpath newpath with
  | none =>
    left
    unfold rename
    simp [hlcd]
  | some lcd =>
    cases hc : (σ.locate (oldpath.take lcd) 0).found with
    | false => exact .inr ⟨_, _, .noCommonDir hlcd hc⟩
    | true =>
      cases ho : (σ.oldRes oldpath lcd).found with
      | false => exact .inr ⟨_, _, .noOldPath hlcd hc ho⟩
      | true =>
        have hold : OldFound σ oldpath newpath lcd := ⟨hlcd, hc, ho⟩
        cases hn : (σ.newRes oldpath newpath lcd).found with
        | false => exact hold.total hn
        | true =>
          cases hl : link with
          | true => exact .inr ⟨_, _, .linkExists hold rfl hn⟩
          | false =>
            by_cases hcov : Covers env σ oldpath newpath lcd
            · exact hcov.total
            · exact .inr ⟨_, _, .mismatch hold rfl hn hcov⟩

/-- A call on its own, by the rules. -/
inductive Done (env : Env) (srv th : Nat) (σ : Cluster) : Call → Int → Cluster → Prop
  | create {path : Name} {mode uid gid : Nat} {r : Int} {σ' : Cluster} :
      Created env srv th σ path mode uid gid false r σ' →
      Done env srv th σ (.create path mode uid gid) r σ'
  | mkdir {path : Name} {mode uid gid : Nat} {r : Int} {σ' : Cluster} :
      Created env srv th σ path mode uid gid true r σ' →
      Done env srv th σ (.mkdir path mode uid gid) r σ'
  | unlink {path : Name} {r : Int} {σ' : Cluster} :
      Unlinked env srv th σ path false r σ' → Done env srv th σ (.unlink path) r σ'
  | rmdir {path : Name} {r : Int} {σ' : Cluster} :
      Unlinked env srv th σ path true r σ' → Done env srv th σ (.rmdir path) r σ'
  | chmod {path : Name} {mode : Nat} {r : Int} {σ' : Cluster} :
      Chmodded env srv th σ path mode r σ' → Done env srv th σ (.chmod path mode) r σ'
  | rename {oldpath newpath : Name} {r : Int} {σ' : Cluster} :
      Renamed env srv th σ oldpath newpath false r σ' →
      Done env srv th σ (.rename oldpath newpath) r σ'
  | link {oldpath newpath : Name} {r : Int} {σ' : Cluster} :
      Renamed env srv th σ oldpath newpath true r σ' →
      Done env srv th σ (.link oldpath newpath) r σ'

/-- **Calls run alone follow the rules**, and do what a rule says. -/
theorem run_call {c : Call} : σ.run env srv th c = some (r, σ') ↔ Done env srv th σ c r σ' := by
  unfold Cluster.run
  constructor
  · intro h
    cases c with
    | create path mode uid gid => exact .create (run_create.mp h)
    | mkdir path mode uid gid => exact .mkdir (run_create.mp h)
    | unlink path => exact .unlink (run_unlink.mp h)
    | rmdir path => exact .rmdir (run_unlink.mp h)
    | chmod path mode => exact .chmod (run_chmod.mp h)
    | rename oldpath newpath => exact .rename (run_rename.mp h)
    | link oldpath newpath => exact .link (run_rename.mp h)
  · rintro (h | h | h | h | h | h | h) <;> exact h.run

end Rules

/-! ### What the parts of a call leave alone -/

namespace Cluster

variable {env : Env} {srv th : Nat} {σ : Cluster}

/-- The records server `k` has published. -/
def records (σ : Cluster) (k : Nat) : List Record := (σ.servers k).log.records

@[simp] theorem updateFn_dirents (id : Nat) (f : InodeFn) :
    (σ.updateFn id f).dirents = σ.dirents := by
  unfold updateFn
  split <;> rfl

@[simp] theorem updateFn_servers (id : Nat) (f : InodeFn) :
    (σ.updateFn id f).servers = σ.servers := by
  unfold updateFn
  split <;> rfl

@[simp] theorem setInode_dirents (id : Nat) (n : Option Inode) :
    (σ.setInode id n).dirents = σ.dirents := rfl

@[simp] theorem setInode_servers (id : Nat) (n : Option Inode) :
    (σ.setInode id n).servers = σ.servers := rfl

@[simp] theorem setIds_dirents (ids : IdPool) : (σ.setIds srv ids).dirents = σ.dirents := rfl

@[simp] theorem setIds_inodes (ids : IdPool) : (σ.setIds srv ids).inodes = σ.inodes := rfl

@[simp] theorem setIds_log (ids : IdPool) (k : Nat) :
    ((σ.setIds srv ids).servers k).log = (σ.servers k).log := by
  by_cases h : k = srv
  · subst h
    simp [setIds, setServer]
  · simp [setIds, setServer, h]

@[simp] theorem append_ids (req : LogRequest) (k : Nat) :
    ((σ.append env srv th req).servers k).ids = (σ.servers k).ids := by
  by_cases h : k = srv
  · subst h
    unfold append
    split <;> simp [setServer]
  · unfold append
    split <;> simp [setServer, h]

@[simp] theorem insert_inodes (d : Dirent) : (σ.insert env d).inodes = σ.inodes := by
  unfold insert
  split <;> rfl

@[simp] theorem insert_servers (d : Dirent) : (σ.insert env d).servers = σ.servers := by
  unfold insert
  split <;> rfl

@[simp] theorem deleteEntry_dirents (name : Name) (parentId : Nat) (u : Bool) :
    (σ.deleteEntry name parentId u).dirents =
      σ.dirents.eraseP (Dirent.hasKey parentId name) := by
  cases u <;> simp [deleteEntry, erase]

@[simp] theorem deleteEntry_servers (name : Name) (parentId : Nat) (u : Bool) :
    (σ.deleteEntry name parentId u).servers = σ.servers := by
  cases u <;> simp [deleteEntry, erase]

@[simp] theorem addEntry_servers (d : Dirent) (parentId : Nat) (u : Bool) :
    (σ.addEntry env d parentId u).servers = σ.servers := by
  cases u <;> simp [addEntry]

@[simp] theorem unlinked_dirents (res : Located) (n : Inode) :
    (σ.unlinked env srv th res n).dirents =
      σ.dirents.eraseP (Dirent.hasKey res.parent res.entName) := by
  simp [unlinked]

@[simp] theorem unlinked_servers (res : Located) (n : Inode) :
    (σ.unlinked env srv th res n).servers =
      (σ.append env srv th res.unlinkRequest).servers := by
  simp [unlinked]

@[simp] theorem freeInode_dirents (id : Nat) : (σ.freeInode srv id).dirents = σ.dirents := rfl

@[simp] theorem freeInode_log (id k : Nat) :
    ((σ.freeInode srv id).servers k).log = (σ.servers k).log := by
  simp [freeInode]

theorem updateFn_inodes (p id : Nat) (f : InodeFn) :
    (σ.updateFn p f).inodes id = if id = p then (σ.inodes p).map f.apply else σ.inodes id := by
  cases hn : σ.inodes p with
  | none =>
    rw [updateFn_of_none f hn]
    split
    · rename_i he
      rw [he, hn, map_none]
    · rfl
  | some n =>
    rw [updateFn_of_some f hn]
    simp only [setInode, Function.update_apply, map_some]

/-- The link count of an inode, if it exists. -/
def nlink (σ : Cluster) (id : Nat) : Option Nat := (σ.inodes id).map Inode.nlink

theorem nlink_updateFn (p : Nat) (f : InodeFn) (hf : ∀ n, (f.apply n).nlink = n.nlink) (id : Nat) :
    (σ.updateFn p f).nlink id = σ.nlink id := by
  rw [nlink, updateFn_inodes]
  split
  · rename_i he
    rw [he, Option.map_map, nlink]
    congr 1
    funext n
    exact hf n
  · rfl

@[simp] theorem nlink_deleteEntry (name : Name) (parentId : Nat) (u : Bool) (id : Nat) :
    (σ.deleteEntry name parentId u).nlink id = σ.nlink id := by
  cases u
  · simp [deleteEntry, erase, nlink]
  · simpa [deleteEntry, erase, nlink] using
      nlink_updateFn (σ := σ) parentId .extraDec (fun _ => by simp only [InodeFn.apply]) id

theorem nlink_setInode (id : Nat) (n : Option Inode) (i : Nat) :
    (σ.setInode id n).nlink i = if i = id then n.map Inode.nlink else σ.nlink i := by
  simp only [nlink, setInode, Function.update_apply]
  split <;> rfl

theorem append_log (req : LogRequest) :
    ∃ v, ((σ.append env srv th req).servers srv).log = (σ.servers srv).log.append req v := by
  unfold append
  split
  · exact ⟨σ.pending th, by simp [setServer]⟩
  · exact ⟨(mergeAndTick (env.clock σ.tick) (σ.servers srv).hlc 0 (σ.servers srv).metaNum).2,
      by simp [setServer]⟩

end Cluster

/-! ### Successful calls

What is left of the rules of `Outcome` when a call returns 0. -/

section Succeeded

variable {env : Env} {srv th : Nat} {σ σ' : Cluster} {path : Name} {isDir link : Bool} {mode : Nat}

theorem Unlinked.succeeded (h : Unlinked env srv th σ path isDir 0 σ') :
    ∃ n, σ.inodes (σ.locate path 0).id = some n ∧ (σ.locate path 0).found = true ∧
      σ.hasRoom srv (σ.locate path 0).unlinkRequest = true ∧ unlinkError isDir n = false ∧
      (n.dropLink.nlink ≠ 0 ∧ σ' = σ.unlinked env srv th (σ.locate path 0) n ∨
        n.dropLink.nlink = 0 ∧ σ' =
          (σ.unlinked env srv th (σ.locate path 0) n).freeInode srv (σ.locate path 0).id) := by
  generalize h0 : (0 : Int) = r at h
  cases h with
  | dropped hf hroom hn he hl => exact ⟨_, hn, hf, hroom, he, .inl ⟨hl, rfl⟩⟩
  | removed hf hroom hn he hl => exact ⟨_, hn, hf, hroom, he, .inr ⟨hl, rfl⟩⟩
  | _ => exact absurd h0 (by decide)

theorem Chmodded.succeeded (h : Chmodded env srv th σ path mode 0 σ') :
    ∃ n, σ.inodes (σ.locate path 0).id = some n ∧ (σ.locate path 0).found = true ∧
      (σ.locate path 0).id ≠ 0 ∧ σ.hasRoom srv (.setattr (σ.locate path 0).id mode) = true ∧
      σ' = (σ.append env srv th (.setattr (σ.locate path 0).id mode)).setInode
        (σ.locate path 0).id (some { n with mode }) := by
  generalize h0 : (0 : Int) = r at h
  cases h with
  | changed hf hid hroom hn => exact ⟨_, hn, hf, hid, hroom, rfl⟩
  | _ => exact absurd h0 (by decide)

theorem Created.succeeded {uid gid : Nat} (h : Created env srv th σ path mode uid gid isDir 0 σ') :
    (σ.locate path 0).parent ≠ 0 ∧
      ((σ.locate path 0).found = true ∧ σ' = σ ∨
        ∃ id ids, (σ.locate path 0).found = false ∧ (σ.servers srv).ids.allocate = (id, ids) ∧
          (σ.locate path 0).newPath.length ≤ kMaxFilenameLen ∧
          σ.hasRoom srv (createRequest id mode uid gid isDir (σ.locate path 0)) = true ∧
          σ' = (((σ.setIds srv ids).append env srv th
              (createRequest id mode uid gid isDir (σ.locate path 0))).setInode id
              (some ⟨1, newMode mode isDir, 0, uid, gid⟩)).addEntry env
            (newEntry id isDir (σ.locate path 0)) (σ.locate path 0).parent true) := by
  generalize h0 : (0 : Int) = r at h
  cases h with
  | existing hp hf _ _ => exact ⟨hp, .inl ⟨hf, rfl⟩⟩
  | created hp hf halloc hlen hroom => exact ⟨hp, .inr ⟨_, _, hf, halloc, hlen, hroom, rfl⟩⟩
  | _ => exact absurd h0 (by decide)

theorem Moved.succeeded {oldRes : Located} {entry : Dirent} {newParent : Nat}
    {newName : Name} (h : Moved env srv th σ link oldRes entry newParent newName 0 σ') :
    newParent ≠ 0 ∧ newName.length ≤ kMaxFilenameLen ∧
      σ.hasRoom srv (renameRequest link oldRes entry newParent newName) = true ∧
      (link = false ∧ σ' =
          ((σ.append env srv th (renameRequest link oldRes entry newParent newName)).deleteEntry
              entry.name oldRes.parent (!(oldRes.parent == newParent))).addEntry env
            (entry.moved newParent newName) newParent (!(oldRes.parent == newParent)) ∨
        link = true ∧ ∃ n, σ.inodes oldRes.id = some n ∧ σ' =
          ((σ.append env srv th (renameRequest link oldRes entry newParent newName)).setInode
              oldRes.id (some { n with nlink := (n.nlink + 1) % 2 ^ 64 })).addEntry env
            (entry.moved newParent newName) newParent true) := by
  generalize h0 : (0 : Int) = r at h
  cases h with
  | renamed hp hlen hl hroom => exact ⟨hp, hlen, hroom, .inl ⟨hl, rfl⟩⟩
  | linked hp hlen hl hroom hn => exact ⟨hp, hlen, hroom, .inr ⟨hl, _, hn, rfl⟩⟩
  | _ => exact absurd h0 (by decide)

theorem Renamed.succeeded {oldpath newpath : Name}
    (h : Renamed env srv th σ oldpath newpath link 0 σ') :
    (∃ lcd σ₁, Covers env σ oldpath newpath lcd ∧ link = false ∧
      Unlinked env srv th (σ.beforeCover env oldpath newpath lcd) newpath
        (σ.coversDir env oldpath newpath lcd) 0 σ₁ ∧
      (σ₁.locate (newpath.drop lcd) (σ.newRes oldpath newpath lcd).parent).found = false ∧
      Moved env srv th σ₁ link (σ.oldRes oldpath lcd) (σ.entryOf env (σ.oldRes oldpath lcd)).1
        (σ₁.locate (newpath.drop lcd) (σ.newRes oldpath newpath lcd).parent).parent
        (σ₁.locate (newpath.drop lcd) (σ.newRes oldpath newpath lcd).parent).newPath 0 σ') ∨
    ∃ lcd, OldFound σ oldpath newpath lcd ∧ (σ.newRes oldpath newpath lcd).found = false ∧
      Moved env srv th (σ.entryOf env (σ.oldRes oldpath lcd)).2 link (σ.oldRes oldpath lcd)
        (σ.entryOf env (σ.oldRes oldpath lcd)).1 (σ.newRes oldpath newpath lcd).parent
        (σ.newRes oldpath newpath lcd).newPath 0 σ' := by
  generalize h0 : (0 : Int) = r at h
  cases h with
  | covered hcov hl hu hf hm =>
    subst h0
    exact .inl ⟨_, _, hcov, hl, hu, hf, hm⟩
  | moved hold hf hm =>
    subst h0
    exact .inr ⟨_, hold, hf, hm⟩
  | _ => exact absurd h0 (by decide)

end Succeeded

end StaxFS.Metadata
