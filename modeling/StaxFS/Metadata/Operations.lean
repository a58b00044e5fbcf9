import StaxFS.Metadata.State

/-!
# The procedures of `Metadata`

`LocateInode`, `AddDirectoryEntry`, `DeleteDirectoryEntry`, `Unlink`, `Chmod`, `Create` and `Rename`
as programs over the atomic operations, in the order of the source. A path is a C string, given as
the bytes before its NUL; results are the `mark_` of the source's `Result` or the returned `int`.

Two things have no behaviour in the model: `Rename` of a path to itself, whose comparison loop runs
past the end of both strings, and a new name of more than `kMaxFilenameLen` bytes, which overruns
`name_[64]`. An entry that `LocateInode` does not fill in keeps `id_ = 0`, an empty name and an
uninitialised `type_`.
-/

namespace StaxFS.Metadata

open Foundation Wal

abbrev M := Prog Op Res

/-! ### The operations as programs -/

def findDirent (pid : Nat) (name : Name) : M (Option Dirent) := Prog.perform (Op.findDirent pid name)

def insertDirent (d : Dirent) : M Bool := Prog.perform (Op.insertDirent d)

def eraseDirent (pid : Nat) (name : Name) : M Bool := Prog.perform (Op.eraseDirent pid name)

def getInode (id : Nat) : M (Option Inode) := Prog.perform (Op.getInode id)

def putInode (id : Nat) (n : Inode) : M Unit := Prog.perform (Op.putInode id n)

def updateFn (id : Nat) (f : InodeFn) : M (Option Inode) := Prog.perform (Op.updateFn id f)

def deleteInode (id : Nat) : M Unit := Prog.perform (Op.deleteInode id)

def allocateInodeId : M Nat := Prog.perform Op.allocateInodeId

def freeInodeId (id : Nat) : M Unit := Prog.perform (Op.freeInodeId id)

def log (req : LogRequest) : M Bool := Prog.perform (Op.log req)

def garbage : M Nat := Prog.perform Op.garbage

def undefined : M Unit := Prog.perform Op.undefined

/-! ### Constants -/

/-- `'/'`. -/
def slash : Byte := 47

/-- `EAGAIN`. -/
def EAGAIN : Int := 11

/-! ### Paths -/

/-- The loop of `LocateInode` over `rest`, the path from `offset` on: a name up to the next slash,
which is passed along with it. A slash at the end of the path adds no name. -/
def componentsLoop : Nat → List Byte → List Name
  | 0, _ => []
  | _, [] => []
  | fuel + 1, b :: rest =>
    let name := (b :: rest).takeWhile (· ≠ slash)
    name :: componentsLoop fuel ((b :: rest).drop (name.length + 1))

/-- The names `LocateInode` looks up one after the other: the loop starts behind a leading slash. -/
def components (path : Name) : List Name :=
  match path with
  | b :: rest => if b = slash then componentsLoop rest.length rest
      else componentsLoop path.length path
  | [] => []

/-- A path other than the root with a leading slash, nonempty names and no trailing slash. -/
def Canonical (path : Name) : Prop :=
  components path ≠ [] ∧ (∀ name ∈ components path, name ≠ []) ∧
    path = (components path).flatMap (slash :: ·)

instance (path : Name) : Decidable (Canonical path) := inferInstanceAs (Decidable (_ ∧ _ ∧ _))

/-- The comparison loop of `Rename` from index `i` on, `last` being the last common slash so far.
It stops at the first difference; for equal strings it does not stop. -/
def lastCommonDirLoop (i last : Nat) : List Byte → List Byte → Option Nat
  | a :: as, b :: bs =>
    if a = b then lastCommonDirLoop (i + 1) (if a = slash then i else last) as bs else some last
  | [], [] => none
  | [], _ :: _ | _ :: _, [] => some last

/-- `last_common_dir` of `Rename`. -/
def lastCommonDir (oldpath newpath : Name) : Option Nat := lastCommonDirLoop 0 0 oldpath newpath

/-! ### `LocateInode` -/

/-- The outcome of `LocateInode`: the `Result`, and what `parent_buf` and `ent_ptr` hold after it. -/
structure Located where
  /-- `mark_` is 0 -/
  found : Bool
  id : Nat
  /-- `new_path_` -/
  newPath : Name
  /-- `*parent_buf` -/
  parent : Nat
  /-- the entry written to `*ent_ptr`, if any -/
  ent : Option Dirent
deriving DecidableEq, Repr

/-- The outcome of the loop when it ends at inode `id` with entry `ent`. -/
def Located.atEnd (id parent : Nat) (ent : Option Dirent) : Located :=
  ⟨true, id, [], parent, if parent = 0 then none else ent⟩

/-- The outcome when `name` is missing in directory `dir`; the directory is reported at the last
level only. -/
def Located.missing (dir : Nat) (name : Name) (last : Bool) : Located :=
  ⟨false, 0, name, if last then dir else 0, none⟩

/-- The loop of `LocateInode`: `id` is `inode_id`, `parent` is `parent_id`, `ent` is `*dptr`. -/
def locateLoop : List Name → Nat → Nat → Option Dirent → M Located
  | [], id, parent, ent => pure (.atEnd id parent ent)
  | name :: rest, id, _, _ => do
    match ← findDirent id name with
    | some d => locateLoop rest d.id id (some d)
    | none => pure (.missing id name rest.isEmpty)

/-- `LocateInode`; `start` is `*parent_buf` at the call, 0 if there is none. -/
def locateInode (path : Name) (start : Nat) : M Located :=
  locateLoop (components path) (if start = 0 then kRootId else start) 0 none

/-! ### Directory entries -/

/-- `AddDirectoryEntry`. -/
def addDirectoryEntry (entry : Dirent) (parentId : Nat) (updateParent : Bool) : M Unit := do
  if updateParent then
    let _ ← updateFn parentId .extraInc
  let _ ← insertDirent entry

/-- `DeleteDirectoryEntry`. -/
def deleteDirectoryEntry (name : Name) (parentId : Nat) (updateParent : Bool) : M Unit := do
  if updateParent then
    let _ ← updateFn parentId .extraDec
  let _ ← eraseDirent parentId name

/-! ### `Unlink`, `Chmod`, `Create` -/

/-- The name in the entry `LocateInode` was given. -/
def Located.entName (l : Located) : Name := (l.ent.map Dirent.name).getD []

/-- `Unlink`, for `unlink` and `rmdir`. -/
def unlink (path : Name) (isDir : Bool) : M Int := do
  let res ← locateInode path 0
  if !res.found then return -1
  if !(← log (.unlink res.id res.parent res.entName)) then return -EAGAIN
  match ← updateFn res.id (.unlink isDir) with
  | none => return -1
  | some n =>
    if unlinkError isDir n then return -1
    deleteDirectoryEntry res.entName res.parent true
    if n.dropLink.nlink = 0 then
      freeInodeId res.id
      deleteInode res.id
    return 0

/-- `Chmod`. -/
def chmod (path : Name) (mode : Nat) : M Int := do
  let res ← locateInode path 0
  if !res.found || res.id = 0 then return -1
  if !(← log (.setattr res.id mode)) then return -EAGAIN
  match ← updateFn res.id (.setMode mode) with
  | some _ => return 0
  | none => return -1

/-- `Create`, for `create` and, with `isDir`, for `mkdir`. -/
def create (path : Name) (mode uid gid : Nat) (isDir : Bool) : M Int := do
  let res ← locateInode path 0
  if res.parent = 0 then return -1
  if res.found then
    match ← getInode res.id with
    | some _ => return 0
    | none => return -1
  let id ← allocateInodeId
  let mode := mode ||| (if isDir then S_IFDIR else S_IFREG)
  let type := if isDir then DT_DIR else DT_REG
  if kMaxFilenameLen < res.newPath.length then
    undefined
  if !(← log (.create id res.parent mode uid gid type res.newPath)) then
    freeInodeId id
    return -EAGAIN
  putInode id ⟨1, mode, 0, uid, gid⟩
  addDirectoryEntry ⟨id, res.parent, type, res.newPath⟩ res.parent true
  return 0

/-! ### `Rename` -/

/-- The entry `LocateInode` was given: written by it, or as default construction left it. -/
def entryOf (l : Located) : M Dirent :=
  match l.ent with
  | some d => pure d
  | none => do
    let type ← garbage
    return ⟨0, 0, type, []⟩

/-- The part of `Rename` behind the resolution of both paths. -/
def renameEntry (link : Bool) (oldRes : Located) (entry : Dirent) (newParent : Nat)
    (newName : Name) : M Int := do
  if newParent = 0 then return -1
  let sameParent := oldRes.parent == newParent
  if !link then
    let logged ← log (.rename oldRes.id oldRes.parent newParent entry.name newName entry.type)
    if !logged then return -EAGAIN
    deleteDirectoryEntry entry.name oldRes.parent (!sameParent)
  else
    let logged ← log (.link oldRes.id newParent newName entry.type)
    if !logged then return -EAGAIN
    match ← updateFn oldRes.id .nlinkInc with
    | none => return -1
    | some _ => pure ()
  -- the `strcpy` into `name_`
  if kMaxFilenameLen < newName.length then
    undefined
  addDirectoryEntry { entry with pid := newParent, name := newName } newParent (!sameParent || link)
  return 0

/-- `Rename`, for `rename` and `link`. -/
def rename (oldpath newpath : Name) (link : Bool) : M Int := do
  let some lcd := lastCommonDir oldpath newpath
    | do
      undefined
      return 0
  let common ← locateInode (oldpath.take lcd) 0
  if !common.found then return -1
  let oldRes ← locateInode (oldpath.drop lcd) common.id
  if !oldRes.found then return -1
  let entry ← entryOf oldRes
  let newRes ← locateInode (newpath.drop lcd) common.id
  if newRes.found then
    if link then return -1
    let newEntry ← entryOf newRes
    let newIsDir := newEntry.type == DT_DIR
    if (entry.type == DT_DIR) != newIsDir then return -1
    let cover ← unlink newpath newIsDir
    if cover = -EAGAIN then return -EAGAIN
    if cover ≠ 0 then return -1
    let newRes ← locateInode (newpath.drop lcd) newRes.parent
    if newRes.found then return -1
    renameEntry link oldRes entry newRes.parent newRes.newPath
  else
    renameEntry link oldRes entry newRes.parent newRes.newPath

/-! ### Calls -/

/-- The calls of the namespace interface. -/
inductive Call
  | create (path : Name) (mode uid gid : Nat)
  | mkdir (path : Name) (mode uid gid : Nat)
  | unlink (path : Name)
  | rmdir (path : Name)
  | chmod (path : Name) (mode : Nat)
  | rename (oldpath newpath : Name)
  | link (oldpath newpath : Name)
deriving DecidableEq, Repr

/-- What a call executes. -/
def Call.body : Call → M Int
  | .create path mode uid gid => Metadata.create path mode uid gid false
  | .mkdir path mode uid gid => Metadata.create path mode uid gid true
  | .unlink path => Metadata.unlink path false
  | .rmdir path => Metadata.unlink path true
  | .chmod path mode => Metadata.chmod path mode
  | .rename oldpath newpath => Metadata.rename oldpath newpath false
  | .link oldpath newpath => Metadata.rename oldpath newpath true

/-- A call made on server `srv` in thread `th`, with nothing else running. -/
def Cluster.run (env : Env) (srv th : Nat) (σ : Cluster) (c : Call) : Option (Int × Cluster) :=
  c.body.run (exec env srv th) σ

end StaxFS.Metadata
