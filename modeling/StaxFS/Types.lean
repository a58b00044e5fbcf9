import Mathlib

/-!
# Common data of the metadata server

The records of `common/metadata_types.h` and the POSIX constants the server tests. Bytes are
`Fin 256`, so that names are compared as `strcmp` compares them (as unsigned characters); machine
words are natural numbers, reduced where the code can wrap. `reclen_` fields are functions of the
name (`SetRecLen`) and are left out, as are the fields of an inode that no modelled function reads
after writing them.
-/

namespace StaxFS

/-- A byte of a name or of a log slot. -/
abbrev Byte := Fin 256

/-- The instance behind the numerals of `Byte`. -/
instance neZero_byte : NeZero 256 := ⟨by decide⟩

/-- The bytes of a name or path, without the terminating NUL. -/
abbrev Name := List Byte

/-- The C string at the start of a buffer: the bytes before the first NUL. -/
def cString (bytes : List Byte) : Name := bytes.takeWhile (· ≠ 0)

theorem cString_eq_self {n : Name} (h : (0 : Byte) ∉ n) : cString n = n := by
  unfold cString
  rw [List.takeWhile_eq_self_iff]
  intro b hb
  simp only [decide_eq_true_eq]
  exact fun h0 => h (h0 ▸ hb)

/-- Subtraction of `uint64_t`. -/
def subU64 (a b : Nat) : Nat := (a + (2 ^ 64 - b % 2 ^ 64)) % 2 ^ 64

theorem subU64_of_le {a b : Nat} (h : b ≤ a) (ha : a - b < 2 ^ 64) : subU64 a b = a - b := by
  unfold subU64
  omega

/-- `kMaxFilenameLen`: the bytes a `name_[64]` buffer holds besides its NUL. -/
def kMaxFilenameLen : Nat := 63

/-- `kRootId`. -/
def kRootId : Nat := 2

/-- `S_IFDIR`. -/
def S_IFDIR : Nat := 0o040000

/-- `S_IFREG`. -/
def S_IFREG : Nat := 0o100000

/-- `DT_UNKNOWN`, `DT_DIR`, `DT_REG` of `dirent.h`. -/
def DT_UNKNOWN : Nat := 0
def DT_DIR : Nat := 4
def DT_REG : Nat := 8

/-- `DentView`: one directory event as a listing returns it. The name is the C string of
`name_`. -/
structure DentView where
  id : Nat
  pid : Nat
  version : Nat
  type : Nat
  tombstone : Bool
  name : Name
deriving DecidableEq, Repr

/-- `DentEntry`: one directory event as the checkpoint stores it, without its directory. -/
structure DentEntry where
  inodeId : Nat
  version : Nat
  type : Nat
  tombstone : Bool
  name : List Byte
deriving DecidableEq, Repr

/-- `DentEntry::Make`. -/
def DentEntry.make (inodeId type : Nat) (name : List Byte) (version : Nat)
    (tombstone : Bool) : DentEntry :=
  ⟨inodeId, version, type, tombstone, name.take kMaxFilenameLen⟩

/-- The view of a stored event of directory `dir`: what `ReadDirLatestFlat` and `push_view` fill
in, the name cut to the 63 bytes that `name_[64]` holds. -/
def DentEntry.view (dir : Nat) (d : DentEntry) : DentView :=
  ⟨d.inodeId, dir, d.version, d.type, d.tombstone, cString (d.name.take kMaxFilenameLen)⟩

end StaxFS
