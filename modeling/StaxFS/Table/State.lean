import StaxFS.Foundation.Prog

/-!
# The two-level hash table: buckets, shared memory and the view of a server

Model of the data of `TwoLevelHashtable` (`server/level_hashtable.h`). A bucket is nine cache lines
or more: one line with eight header words (`Header`: lock bit, seven bits of version and eight
fingerprints, 0 for an empty slot) and two lines per slot (a value of 128 bytes is a pair of lines).
A bucket is found by the offset its level was allocated at and its index there (`Addr`).

Every access to a line is one operation (`Op`): the header line is read or written as a whole, the
compare-and-swap acts on its first word, a value is read from its first line on and written from its
last line on. The shared `ResizeMeta` line, the notification words and the members of the server's own
table object (`Server`) are reached by operations of their own; the members that make up the layout
are loaded and stored one by one. `exec` performs an operation for a server.

The tag hint (`server/tag_hint.h`) is a table in the memory of a server that only decides which
candidates are probed first; here an oracle of the environment answers `hintTest`, so what holds
does so for every content of the hint, and without it. Counters of `hashtable_stats.h`, log lines
and the load factor are left out. `layout_epoch_` is left out as well: `kEpochRetryMax` is 1, so no
result depends on it. Levels are never freed, so an allocated level is a fresh region of zeros.
-/

namespace StaxFS.Table

/-- `kSlots` slots of a bucket. -/
abbrev Slot := Fin 8

/-- The slots in the order of the loops. -/
def slots : List Slot := List.finRange 8

/-- A bucket: the offset of its level and its index. -/
structure Addr where
  base : Nat
  idx : Nat
deriving DecidableEq

/-- The first header word: lock bit `kDirtyBit`, version, fingerprint of slot 0. -/
structure Word where
  dirty : Bool
  version : Nat
  fp : Nat
deriving DecidableEq

/-- The header line of a bucket. -/
structure Header where
  dirty : Bool
  version : Nat
  fp : Slot → Nat

def kVersionBits : Nat := 7

/-- The next version, in `kVersionBits` bits. -/
def nextVersion (version : Nat) : Nat := (version + 1) % 2 ^ kVersionBits

def Header.word (h : Header) : Word := ⟨h.dirty, h.version, h.fp 0⟩

def makeLocked (w : Word) : Word := ⟨true, nextVersion w.version, w.fp⟩

/-- The header an operation that read `keys` writes to unlock: `make_unlocked` for the first word, the
fingerprints `fp`. -/
def Header.unlocked (keys : Header) (fp : Slot → Nat) : Header :=
  ⟨false, nextVersion keys.version, fp⟩

/-- Replace the first word of a header. -/
def Header.setWord (h : Header) (w : Word) : Header :=
  ⟨w.dirty, w.version, Function.update h.fp 0 w.fp⟩

def Header.hasEmptySlot (keys : Header) : Bool := slots.any fun s => keys.fp s == 0

def Header.findEmptySlot (keys : Header) : Option Slot := slots.find? fun s => keys.fp s == 0

def Header.findFpSlot (keys : Header) (fp : Nat) : Option Slot :=
  slots.find? fun s => keys.fp s != 0 && keys.fp s == fp

/-- A bucket over lines of type `L`: slot `s` holds the lines `lines s false` and `lines s true`. -/
structure Bucket (L : Type) where
  header : Header
  lines : Slot → Bool → L

/-! ### Memory -/

section Memory

variable {L : Type} [Inhabited L]

/-- Zeroed memory. -/
def Bucket.zero : Bucket L := ⟨⟨false, 0, fun _ => 0⟩, fun _ _ => default⟩

/-- The buckets that were written to; the others are zero. -/
abbrev Memory (L : Type) : Type := List (Addr × Bucket L)

def Memory.get : Memory L → Addr → Bucket L
  | [], _ => .zero
  | x :: m, a => if x.1 = a then x.2 else Memory.get m a

omit [Inhabited L] in
def Memory.set : Memory L → Addr → Bucket L → Memory L
  | [], a, b => [(a, b)]
  | x :: m, a, b => if x.1 = a then (a, b) :: m else x :: Memory.set m a b

@[simp] theorem Memory.get_set (m : Memory L) (a a' : Addr) (b : Bucket L) :
    (m.set a b).get a' = if a = a' then b else m.get a' := by
  induction m with
  | nil => rfl
  | cons x m ih =>
    by_cases hx : x.1 = a
    · by_cases ha : a = a' <;> simp [Memory.set, Memory.get, hx, ha]
    · by_cases ha : x.1 = a'
      · have hne : a ≠ a' := fun h => hx (ha.trans h.symm)
        simp only [Memory.set, if_neg hx, Memory.get, if_pos ha, if_neg hne]
      · simp [Memory.set, Memory.get, hx, ha, ih]

omit [Inhabited L] in
@[simp] theorem Memory.set_set (m : Memory L) (a : Addr) (b b' : Bucket L) :
    (m.set a b).set a b' = m.set a b' := by
  induction m with
  | nil => simp [Memory.set]
  | cons x m ih => by_cases hx : x.1 = a <;> simp [Memory.set, hx, ih]

end Memory

/-! ### The resize protocol's data -/

inductive ResizeState
  | normal
  | migrating
deriving DecidableEq

/-- The control word of `ResizeMeta`. -/
structure Ctrl where
  state : ResizeState
  initiator : Nat
  nMds : Nat
  doneCount : Nat
deriving DecidableEq

/-- A server number as it is packed in the control word. -/
def Ctrl.pack (state : ResizeState) (initiator nMds doneCount : Nat) : Ctrl :=
  ⟨state, initiator % 256, nMds % 256, doneCount % 256⟩

/-- The shared `ResizeMeta` line. -/
structure ResizeMeta where
  ctrl : Ctrl
  version : Nat
  tlOffset : Nat
  tlSize : Nat
  blOffset : Nat
  blSize : Nat
  oldBlOffset : Nat
  oldBlSize : Nat
deriving DecidableEq

/-- `LocalResizeCache`. -/
structure Cache where
  state : ResizeState
  tlOffset : Nat
  tlSize : Nat
  blOffset : Nat
  blSize : Nat
  oldBlOffset : Nat
  oldBlSize : Nat
  version : Nat
  rangeEnd : Nat
  localCursor : Nat
  rangeDone : Bool
  doneReported : Bool

/-- `tl_offset_`, `tl_n_`, `bl_offset_`, `bl_n_` and `migration_`. -/
structure Layout where
  active : Bool
  tlOffset : Nat
  tlN : Nat
  blOffset : Nat
  blN : Nat
  oldBlOffset : Nat
  oldBlN : Nat
deriving DecidableEq

/-- The offsets and sizes of a layout. -/
inductive Member
  | tlOffset
  | tlN
  | blOffset
  | blN
  | oldBlOffset
  | oldBlN
deriving DecidableEq

def Layout.get (l : Layout) : Member → Nat
  | .tlOffset => l.tlOffset
  | .tlN => l.tlN
  | .blOffset => l.blOffset
  | .blN => l.blN
  | .oldBlOffset => l.oldBlOffset
  | .oldBlN => l.oldBlN

def Layout.set (l : Layout) (x : Nat) : Member → Layout
  | .tlOffset => { l with tlOffset := x }
  | .tlN => { l with tlN := x }
  | .blOffset => { l with blOffset := x }
  | .blN => { l with blN := x }
  | .oldBlOffset => { l with oldBlOffset := x }
  | .oldBlN => { l with oldBlN := x }

/-- The members of the table object of one server. -/
structure Server where
  layout : Layout
  migrationBegun : Bool
  adopting : Bool
  cache : Cache
  size : Int

/-- The whole state: the shared memory, the `ResizeMeta` line, the notification word of every server,
the next free offset, the servers, and how often a hint was asked. -/
structure State (L : Type) where
  memory : Memory L
  resize : ResizeMeta
  notified : Nat → Nat
  next : Nat
  servers : Nat → Server
  asked : Nat

/-- What is outside the table: the answers of the tag hint. -/
structure Env where
  hint : Nat → Addr → Nat → Bool

/-! ### Operations -/

/-- The atomic operations of the table's functions. -/
inductive Op (L : Type)
  | readHeader (a : Addr)
  | casHeader (a : Addr) (expected desired : Word)
  | writeHeader (a : Addr) (keys : Header)
  | readLine (a : Addr) (s : Slot) (second : Bool)
  | writeLine (a : Addr) (s : Slot) (second : Bool) (x : L)
  /-- `size_.fetch_add` -/
  | sizeAdd (d : Int)
  | loadActive
  | storeActive (b : Bool)
  | loadMember (m : Member)
  | storeMember (m : Member) (x : Nat)
  | hintTest (a : Addr) (fp : Nat)
  | readMeta
  | casCtrl (expected desired : Ctrl)
  | writeMeta (m : ResizeMeta)
  /-- Write the notification word of a server. -/
  | notify (i version : Nat)
  | pollLocalVersion
  /-- Allocate a level. -/
  | malloc
  | loadCache
  /-- The stores of `refresh_cache`. -/
  | storeCache (m : ResizeMeta)
  /-- `local_cursor.compare_exchange_strong(i, i + 1)` -/
  | advanceCursor (i : Nat)
  | exchangeDoneReported
  | storeRangeDone
  | loadBegun
  | casBegun (expected desired : Bool)
  | storeBegun (b : Bool)
  /-- `adopting_.compare_exchange_strong(false, true)` -/
  | casAdopting
  | loadAdopting
  | clearAdopting
  /-- One more turn of an unbounded loop than is looked at. -/
  | spin

abbrev Res {L : Type} : Op L → Type
  | .readHeader _ => Header
  | .casHeader .. => Bool
  | .readLine .. => L
  | .loadActive => Bool
  | .loadMember _ => Nat
  | .hintTest .. => Bool
  | .readMeta => ResizeMeta
  | .casCtrl .. => Bool
  | .pollLocalVersion => Nat
  | .malloc => Nat
  | .loadCache => Cache
  | .exchangeDoneReported => Bool
  | .loadBegun => Bool
  | .casBegun .. => Bool
  | .casAdopting => Bool
  | .loadAdopting => Bool
  | _ => Unit

/-- `refresh_cache` on server `srv`, with the line it read. -/
def Cache.refresh (c : Cache) (srv : Nat) (m : ResizeMeta) : Cache :=
  let c' : Cache :=
    { c with
      state := m.ctrl.state, version := m.version, tlOffset := m.tlOffset, tlSize := m.tlSize
      blOffset := m.blOffset, blSize := m.blSize, oldBlOffset := m.oldBlOffset
      oldBlSize := m.oldBlSize }
  if m.ctrl.state = .migrating ∧ 0 < m.oldBlSize ∧ 0 < m.ctrl.nMds then
    let chunk := m.oldBlSize / m.ctrl.nMds
    { c' with
      rangeEnd := if srv + 1 = m.ctrl.nMds then m.oldBlSize else (srv + 1) * chunk
      localCursor := srv * chunk, rangeDone := false, doneReported := false }
  else { c' with rangeDone := true }

namespace State

variable {L : Type}

def setServer (σ : State L) (srv : Nat) (s : Server) : State L :=
  { σ with servers := Function.update σ.servers srv s }

def setCache (σ : State L) (srv : Nat) (c : Cache) : State L :=
  σ.setServer srv { σ.servers srv with cache := c }

def setBegun (σ : State L) (srv : Nat) (b : Bool) : State L :=
  σ.setServer srv { σ.servers srv with migrationBegun := b }

def setLayout (σ : State L) (srv : Nat) (l : Layout) : State L :=
  σ.setServer srv { σ.servers srv with layout := l }

def setAdopting (σ : State L) (srv : Nat) (b : Bool) : State L :=
  σ.setServer srv { σ.servers srv with adopting := b }

@[simp] theorem servers_setServer (σ : State L) (srv : Nat) (s : Server) :
    (σ.setServer srv s).servers srv = s := Function.update_self _ _ _

theorem servers_setServer_of_ne {σ : State L} {srv i : Nat} {s : Server} (h : i ≠ srv) :
    (σ.setServer srv s).servers i = σ.servers i := Function.update_of_ne h _ _

@[simp] theorem setServer_setServer (σ : State L) (srv : Nat) (s s' : Server) :
    (σ.setServer srv s).setServer srv s' = σ.setServer srv s' := by
  simp [setServer]

@[simp] theorem resize_setServer (σ : State L) (srv : Nat) (s : Server) :
    (σ.setServer srv s).resize = σ.resize := rfl

variable [Inhabited L]

def bucket (σ : State L) (a : Addr) : Bucket L := σ.memory.get a

omit [Inhabited L] in
def setBucket (σ : State L) (a : Addr) (b : Bucket L) : State L :=
  { σ with memory := σ.memory.set a b }

end State

/-- Perform an operation for server `srv`. -/
def exec {L : Type} [Inhabited L] (E : Env) (srv : Nat) :
    (op : Op L) → State L → Option (Res op × State L)
  | .readHeader a, σ => some ((σ.bucket a).header, σ)
  | .casHeader a expected desired, σ =>
    let b := σ.bucket a
    if b.header.word = expected then
      some (true, σ.setBucket a { b with header := b.header.setWord desired })
    else some (false, σ)
  | .writeHeader a keys, σ => some ((), σ.setBucket a { σ.bucket a with header := keys })
  | .readLine a s second, σ => some ((σ.bucket a).lines s second, σ)
  | .writeLine a s second x, σ =>
    let b := σ.bucket a
    some ((), σ.setBucket a
      { b with lines := Function.update b.lines s (Function.update (b.lines s) second x) })
  | .sizeAdd d, σ =>
    some ((), σ.setServer srv { σ.servers srv with size := (σ.servers srv).size + d })
  | .loadActive, σ => some ((σ.servers srv).layout.active, σ)
  | .storeActive b, σ => some ((), σ.setLayout srv { (σ.servers srv).layout with active := b })
  | .loadMember m, σ => some ((σ.servers srv).layout.get m, σ)
  | .storeMember m x, σ => some ((), σ.setLayout srv ((σ.servers srv).layout.set x m))
  | .hintTest a fp, σ => some (E.hint σ.asked a fp, { σ with asked := σ.asked + 1 })
  | .readMeta, σ => some (σ.resize, σ)
  | .casCtrl expected desired, σ =>
    if σ.resize.ctrl = expected then
      some (true, { σ with resize := { σ.resize with ctrl := desired } })
    else some (false, σ)
  | .writeMeta m, σ => some ((), { σ with resize := m })
  | .notify i version, σ => some ((), { σ with notified := Function.update σ.notified i version })
  | .pollLocalVersion, σ => some (σ.notified srv, σ)
  | .malloc, σ => some (σ.next, { σ with next := σ.next + 1 })
  | .loadCache, σ => some ((σ.servers srv).cache, σ)
  | .storeCache m, σ => some ((), σ.setCache srv ((σ.servers srv).cache.refresh srv m))
  | .advanceCursor i, σ =>
    let c := (σ.servers srv).cache
    some ((), if c.localCursor = i then σ.setCache srv { c with localCursor := i + 1 } else σ)
  | .exchangeDoneReported, σ =>
    let c := (σ.servers srv).cache
    some (c.doneReported, σ.setCache srv { c with doneReported := true })
  | .storeRangeDone, σ =>
    some ((), σ.setCache srv { (σ.servers srv).cache with rangeDone := true })
  | .loadBegun, σ => some ((σ.servers srv).migrationBegun, σ)
  | .casBegun expected desired, σ =>
    if (σ.servers srv).migrationBegun = expected then some (true, σ.setBegun srv desired)
    else some (false, σ)
  | .storeBegun b, σ => some ((), σ.setBegun srv b)
  | .casAdopting, σ =>
    some (!(σ.servers srv).adopting, σ.setAdopting srv true)
  | .loadAdopting, σ => some ((σ.servers srv).adopting, σ)
  | .clearAdopting, σ => some ((), σ.setAdopting srv false)
  | .spin, _ => none

/-- The functions of the table, over lines of type `L`. -/
abbrev M (L α : Type) : Type := Foundation.Prog (Op L) Res α

/-- Perform one operation. -/
abbrev perform {L : Type} (op : Op L) : M L (Res op) := Foundation.Prog.perform op

end StaxFS.Table
