import StaxFS.Table.Operations

/-!
# The two-level hash table: progressive resize and the public operations

Model of the resize protocol of `TwoLevelHashtable` (`server/level_hashtable.h`): a server whose
insertion finds no room allocates a top level of twice the size, publishes the new layout in the
shared `ResizeMeta` line and notifies the others; the old top level becomes the bottom level and the
old bottom level is emptied bucket by bucket, each server working on its own range after every
operation. When all ranges are done the initiator returns the shared state to normal.

`Request` lists the public operations; `body` is the program of each. `insert`, `find`, `update_fn`
and `erase` run `preOp`, the operation, and `postOp`. Resize may be off (`enable_resize` not called).

Loops that wait for another thread or server take `fuel` turns.
-/

namespace StaxFS.Table

variable {K L : Type}

/-! ### Shared and local bookkeeping -/

def refreshCache : M L Unit := do
  let m ← perform .readMeta
  perform (.storeCache m)

def checkVersionChanged : M L Bool := do
  let version ← perform .pollLocalVersion
  let c ← perform .loadCache
  return version != c.version

/-- Notify the other servers, then the own one. -/
def notifyAllMds (nMds srv version : Nat) : M L Unit := do
  ((List.range nMds).filter (· ≠ srv)).forM fun i => perform (.notify i version)
  perform (.notify srv version)

/-- Wait until another thread has switched the layout. -/
def waitLayoutReady : Nat → M L Unit
  | 0 => perform .spin
  | fuel + 1 => do
    if ← perform .loadBegun then
      if ← perform .loadActive then return () else waitLayoutReady fuel
    else return ()

def incrementDoneCount : Nat → M L Unit
  | 0 => perform .spin
  | fuel + 1 => do
    let ctrl := (← perform .readMeta).ctrl
    let newCtrl : Ctrl := { ctrl with doneCount := (ctrl.doneCount + 1) % 256 }
    if ← perform (.casCtrl ctrl newCtrl) then return () else incrementDoneCount fuel

/-- Store a member of the cache in a layout member. -/
def copyMember (m : Member) (f : Cache → Nat) : M L Unit := do
  perform (.storeMember m (f (← perform .loadCache)))

/-- The stores to the members of the two levels. -/
def copyLevels : M L Unit := do
  copyMember .tlOffset Cache.tlOffset
  copyMember .tlN Cache.tlSize
  copyMember .blOffset Cache.blOffset
  copyMember .blN Cache.blSize

def beginMigration : M L Unit := do
  copyMember .oldBlOffset Cache.oldBlOffset
  copyMember .oldBlN Cache.oldBlSize
  copyLevels
  perform (.storeActive true)

def endMigration : M L Unit := perform (.storeActive false)

/-- Wait until another thread has adopted the layout. -/
def waitAdopted : Nat → M L Unit
  | 0 => perform .spin
  | fuel + 1 => do
    if ← perform .loadAdopting then waitAdopted fuel else return ()

def adoptLayout (fuel : Nat) : M L Unit := do
  if ← perform .casAdopting then
    copyLevels
    perform .clearAdopting
  else waitAdopted fuel

/-- Refresh until the full `ResizeMeta` is there. -/
def refreshUntilReady : Nat → M L Unit
  | 0 => perform .spin
  | fuel + 1 => do
    refreshCache
    if 0 < (← perform .loadCache).tlSize then return () else refreshUntilReady fuel

/-- Refresh while the full `ResizeMeta` is missing. -/
def refreshWhileEmpty : Nat → M L Unit
  | 0 => perform .spin
  | fuel + 1 => do
    if (← perform .loadCache).tlSize = 0 then
      refreshCache
      refreshWhileEmpty fuel
    else return ()

/-! ### Joining and starting a resize -/

def checkResize (fuel : Nat) : M L Unit := do
  if ← perform .loadBegun then
    if !(← perform .loadActive) then waitLayoutReady fuel
    -- already migrating: check if finalize happened
    if ← checkVersionChanged then
      if (← perform .readMeta).ctrl.state = .normal then
        if ← perform (.casBegun true false) then
          refreshCache
          endMigration
  else if ← checkVersionChanged then
    match (← perform .readMeta).ctrl.state with
    | .migrating =>
      if ← perform (.casBegun false true) then
        refreshUntilReady fuel
        beginMigration
      else waitLayoutReady fuel
    | .normal =>
      -- a resize was completed in the meantime: catch up to its layout
      refreshCache
      adoptLayout fuel

/-- Wait for the version of the initiator, or for a local thread that has joined it. -/
def waitVersion (version : Nat) : Nat → M L Unit
  | 0 => perform .spin
  | fuel + 1 => do
    if (← perform .readMeta).version = version then
      if ← perform .loadActive then return () else waitVersion version fuel
    else return ()

/-- What the winner of the control word does: allocate the new top level and publish the layout. -/
def publishLayout (nMds srv : Nat) : M L Unit := do
  let prev ← perform .readMeta
  if 0 < prev.tlSize then
    perform (.storeMember .tlOffset prev.tlOffset)
    perform (.storeMember .tlN prev.tlSize)
    perform (.storeMember .blOffset prev.blOffset)
    perform (.storeMember .blN prev.blSize)
  let ctrl := Ctrl.pack .migrating srv nMds 0
  let version := prev.version + 1
  perform (.writeMeta ⟨ctrl, version, 0, 0, 0, 0, 0, 0⟩)
  notifyAllMds nMds srv version
  let tlN ← perform (.loadMember .tlN)
  let newTl ← perform .malloc
  let blOffset ← perform (.loadMember .tlOffset)
  let blN ← perform (.loadMember .tlN)
  let oldBlOffset ← perform (.loadMember .blOffset)
  let oldBlN ← perform (.loadMember .blN)
  perform (.writeMeta ⟨ctrl, version, newTl, tlN * 2, blOffset, blN, oldBlOffset, oldBlN⟩)
  notifyAllMds nMds srv version
  refreshCache

def tryInitiateResize (fuel nMds srv : Nat) : M L Unit := do
  let ctrl := (← perform .readMeta).ctrl
  let won ← if ctrl.state = .normal then perform (.casCtrl ctrl { ctrl with state := .migrating })
    else pure false
  if won then publishLayout nMds srv
  else waitVersion (← perform .loadCache).version fuel

def joinMigration (fuel : Nat) : M L Unit := do
  refreshWhileEmpty fuel
  if ← perform (.casBegun false true) then beginMigration else waitLayoutReady fuel

def doResize (fuel nMds srv : Nat) : M L Unit := do
  if ← checkVersionChanged then
    refreshCache
    if (← perform .loadCache).state = .normal then adoptLayout fuel else joinMigration fuel
  else
    tryInitiateResize fuel nMds srv
    if ← perform (.casBegun false true) then
      refreshCache
      if (← perform .loadCache).state = .migrating then
        refreshWhileEmpty fuel
        beginMigration
      else
        perform (.storeBegun false)
        adoptLayout fuel
    else waitLayoutReady fuel

/-! ### Migration -/

def insertToNewLayout (H : Hashing K L) (fuel fp : Nat) (v : L × L) : M L Bool := do
  let cands ← getCandidates H fuel (H.extract v)
  if ← insertPasses fp v cands.list then return true
  else if ← tryMigrateAndInsert H fp v cands then
    -- the movement has counted the entry as a new one
    perform (.sizeAdd (-1))
    return true
  else return false

/-- Move the occupied slots of a locked old bucket; what stays, by slot. -/
def migrateSlots (H : Hashing K L) (fuel : Nat) (a : Addr) (keys : Header) :
    List Slot → (Slot → Nat) → M L (Slot → Nat)
  | [], left => return left
  | j :: js, left => do
    if keys.fp j = 0 then migrateSlots H fuel a keys js left
    else
      let v ← readValue a j
      if ← insertToNewLayout H fuel (keys.fp j) v then
        migrateSlots H fuel a keys js (Function.update left j 0)
      else migrateSlots H fuel a keys js left

/-- Move the entries of one bucket of the old bottom level. -/
def migrateBucket (H : Hashing K L) (fuel : Nat) (a : Addr) (i : Nat) : M L Unit := do
  let metas ← readHeader a
  if metas.dirty then return ()
  else if slots.all fun j => metas.fp j = 0 then perform (.advanceCursor i)
  else if ← lockBucket a metas then
    let left ← migrateSlots H fuel a metas slots metas.fp
    perform (.writeHeader a (metas.unlocked left))
    if slots.all fun j => left j = 0 then perform (.advanceCursor i)

def migrateStep (H : Hashing K L) (fuel : Nat) : M L Unit := do
  let c ← perform .loadCache
  if c.state ≠ .migrating ∨ c.rangeDone then return ()
  else if c.rangeEnd ≤ c.localCursor then
    if !(← perform .exchangeDoneReported) then incrementDoneCount fuel
    perform .storeRangeDone
  else migrateBucket H fuel ⟨c.oldBlOffset, c.localCursor⟩ c.localCursor

def checkFinalize (nMds srv : Nat) : M L Unit := do
  if !(← perform .loadBegun) then return ()
  else if !(← perform .loadCache).rangeDone then return ()
  else
    let ctrl := (← perform .readMeta).ctrl
    if srv ≠ ctrl.initiator then return ()
    else if ctrl.doneCount < ctrl.nMds then return ()
    else
      let newCtrl : Ctrl := { ctrl with state := .normal }
      if ← perform (.casCtrl ctrl newCtrl) then
        let m ← perform .readMeta
        perform (.writeMeta { m with ctrl := newCtrl, version := m.version + 1 })
        notifyAllMds nMds srv (m.version + 1)
        refreshCache
        endMigration
        perform (.storeBegun false)

/-! ### Public operations -/

/-- The table object of a server: hash and traits, the server's number, the number of servers,
whether resize is enabled, and the turns given to unbounded loops. -/
structure Config (K L : Type) where
  hashing : Hashing K L
  nMds : Nat
  srv : Nat
  resizeEnabled : Bool
  fuel : Nat

/-- The public operations of the table. -/
inductive Request (K L : Type)
  | insert (key : K) (v : L × L)
  | find (key : K)
  | update (key : K) (writeFn : L × L → L × L)
  | erase (key : K)

def preOp (C : Config K L) : M L Unit := do
  if C.resizeEnabled then checkResize C.fuel

def postOp (C : Config K L) : M L Unit := do
  if C.resizeEnabled then
    if ← perform .loadBegun then
      migrateStep C.hashing C.fuel
      checkFinalize C.nMds C.srv

/-- `insert_impl`, and once more after a resize if there was no room. -/
def insertOrResize (C : Config K L) (key : K) (v : L × L) : M L Bool := do
  if ← insertImpl C.hashing C.fuel key v then return true
  else if C.resizeEnabled then
    if ← perform .loadActive then return false
    else
      doResize C.fuel C.nMds C.srv
      insertImpl C.hashing C.fuel key v
  else return false

/-- The operation proper; the result is the value it is about, `none` for 0 and `false`. -/
def operation (C : Config K L) : Request K L → M L (Option (L × L))
  | .insert key v => do
    if ← insertOrResize C key v then return some v else return none
  | .find key => findImpl C.hashing C.fuel key
  | .update key writeFn => updateImpl C.hashing C.fuel key writeFn
  | .erase key => eraseImpl C.hashing C.fuel key

/-- The program of a public operation. -/
def body (C : Config K L) (q : Request K L) : M L (Option (L × L)) := do
  preOp C
  let r ← operation C q
  postOp C
  return r

/-! ### Start -/

/-- A cache before the first refresh. -/
def Cache.init : Cache where
  state := .normal
  tlOffset := 0
  tlSize := 0
  blOffset := 0
  blSize := 0
  oldBlOffset := 0
  oldBlSize := 0
  version := 0
  rangeEnd := 0
  localCursor := 0
  rangeDone := true
  doneReported := false

/-- A table object over the levels at offsets 0 and 1. -/
def Server.init (tlNumBuckets : Nat) : Server where
  layout :=
    { active := false, tlOffset := 0, tlN := tlNumBuckets, blOffset := 1, blN := tlNumBuckets / 2
      oldBlOffset := 0, oldBlN := 0 }
  migrationBegun := false
  adopting := false
  cache := .init
  size := 0

/-- Zeroed memory with one table of `tlNumBuckets` top-level buckets, opened by every server. -/
def State.init (tlNumBuckets : Nat) : State L where
  memory := []
  resize := ⟨⟨.normal, 0, 0, 0⟩, 0, 0, 0, 0, 0, 0, 0⟩
  notified _ := 0
  next := 2
  servers _ := .init tlNumBuckets
  asked := 0

end StaxFS.Table
