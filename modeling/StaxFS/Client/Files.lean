import StaxFS.Client.WriteBack

/-!
# Reading and writing through a descriptor

`dfs_lseek`, `dfs_read`, `dfs_write`, `dfs_pread` and `dfs_pwrite` on one descriptor, with
`ObjectStore::Read` and `ObjectStore::Write` of the data server behind them. The size of the file is
kept three times: in the descriptor, as the length of the block in the object store, and in the
inode of the metadata server, which these calls do not touch.

A POSIX file is a byte for every offset, a size and an offset to seek. The object store follows it,
but the descriptor does not: its size grows by the number of bytes written, wherever they are
written, so it is right only for appends. And a read behind the end asks the object store, which
answers -1.

Results:
* `write_block`: what a block has at every offset after a write, and its length.
* `file_like_posix`: in every run in which bytes are written at the end of the file only, and
  nothing is read or written behind the end, the calls return what a POSIX file returns.
* `overwrite_grows`: writing the same bytes twice doubles the size.
-/

namespace StaxFS.Client

open Foundation Wal List Option

/-! ### The object store -/

/-- What is assumed of the type of `backend_store_`, a `libcuckoo::cuckoohash_map`: `find_fn` reads
the value of a key, and `upsert` with a function that accepts new keys applies it to the value, an
empty one if the key is new. -/
class BackendStore (B : Type) where
  find : B → Nat → Option (List Byte)
  upsert : B → Nat → (List Byte → List Byte) → B
  find_upsert : ∀ store key f,
    find (upsert store key f) key = some (f ((find store key).getD []))

instance : BackendStore (Nat → Option (List Byte)) where
  find store := store
  upsert store key f := Function.update store key (some (f ((store key).getD [])))
  find_upsert _ _ _ := Function.update_self ..

variable {B : Type} [BackendStore B]

/-- What a call returns, and what it leaves in its buffer. -/
structure IoResult where
  ret : Int
  bytes : List Byte
deriving DecidableEq, Repr

/-- `ObjectStore::Read`. -/
def BackendStore.read (store : B) (blkid offset size : Nat) : IoResult :=
  match find store blkid with
  | none => ⟨-1, []⟩
  | some blkData =>
    if blkData.length < offset then ⟨-1, []⟩
    else
      let ret := min size (blkData.length - offset)
      ⟨ret, (blkData.drop offset).take ret⟩

/-- The function that `ObjectStore::Write` gives to `upsert`: resize, then copy. -/
def writeBlock (blkData : List Byte) (offset : Nat) (buffer : List Byte) : List Byte :=
  let resized :=
    if blkData.length < offset + buffer.length then
      blkData ++ List.replicate (offset + buffer.length - blkData.length) 0
    else blkData
  resized.take offset ++ (buffer ++ resized.drop (offset + buffer.length))

/-- `ObjectStore::Write`; the number of bytes written is the size of the buffer. -/
def BackendStore.write (store : B) (blkid offset : Nat) (buffer : List Byte) : B :=
  upsert store blkid fun blkData => writeBlock blkData offset buffer

/-! ### The calls -/

/-- The file behind a descriptor. -/
structure OpenFile (B : Type) where
  fd : FileDescriptor
  store : B

inductive Whence
  | seekSet
  | seekCur
  | seekEnd
  | seekData
  | seekHole
deriving DecidableEq, Repr

inductive FileCall
  | lseek (offset : Nat) (whence : Whence)
  | read (count : Nat)
  | write (buf : List Byte)
  | pread (count offset : Nat)
  | pwrite (buf : List Byte) (offset : Nat)
deriving DecidableEq, Repr

/-- The conversion of a `ssize_t` to an `int`. -/
def toInt (n : Int) : Int := n.bmod (2 ^ 32)

namespace OpenFile

/-- Set `seek_offset_` and return it. -/
def seekTo (f : OpenFile B) (seek : Nat) : IoResult × OpenFile B :=
  (⟨seek, []⟩, { f with fd.seekOffset := seek })

/-- `dfs_lseek`. -/
def lseek (f : OpenFile B) (offset : Nat) : Whence → IoResult × OpenFile B
  | .seekSet => f.seekTo offset
  | .seekCur => f.seekTo (f.fd.seekOffset + offset)
  | .seekEnd => f.seekTo (f.fd.size + offset)
  | .seekData | .seekHole => (⟨-1, []⟩, f)

/-- `RpcPread`. -/
def rpcPread (f : OpenFile B) (offset size : Nat) : IoResult :=
  let r := BackendStore.read f.store f.fd.id offset size
  ⟨toInt r.ret, r.bytes⟩

/-- `dfs_read`. -/
def read (f : OpenFile B) (count : Nat) : IoResult × OpenFile B :=
  let offset := f.fd.seekOffset
  let r :=
    if f.fd.size = offset then ⟨0, []⟩ else f.rpcPread offset (min count (subU64 f.fd.size offset))
  if r.ret ≤ 0 then (r, f) else (r, { f with fd.seekOffset := offset + r.ret.toNat })

/-- `dfs_write`. -/
def write (f : OpenFile B) (buf : List Byte) : IoResult × OpenFile B :=
  let ret := toInt buf.length
  let store := BackendStore.write f.store f.fd.id f.fd.seekOffset buf
  if ret < 0 then (⟨ret, []⟩, { f with store })
  else (⟨ret, []⟩, ⟨f.fd.write ret.toNat, store⟩)

/-- `dfs_pread`. -/
def pread (f : OpenFile B) (count offset : Nat) : IoResult × OpenFile B :=
  (if f.fd.size = offset then ⟨0, []⟩ else f.rpcPread offset count, f)

/-- `dfs_pwrite`. -/
def pwrite (f : OpenFile B) (buf : List Byte) (offset : Nat) : IoResult × OpenFile B :=
  let ret := toInt buf.length
  let store := BackendStore.write f.store f.fd.id offset buf
  if ret ≤ 0 then (⟨ret, []⟩, { f with store })
  else (⟨ret, []⟩, ⟨{ f.fd with size := f.fd.size + ret.toNat, modify := true }, store⟩)

def call (f : OpenFile B) : FileCall → IoResult × OpenFile B
  | .lseek offset whence => f.lseek offset whence
  | .read count => f.read count
  | .write buf => f.write buf
  | .pread count offset => f.pread count offset
  | .pwrite buf offset => f.pwrite buf offset

end OpenFile

/-! ### A POSIX file -/

/-- A file as POSIX describes it: what has not been written is zero. -/
structure PosixFile where
  bytes : Nat → Byte
  size : Nat
  /-- the file offset -/
  seek : Nat

namespace PosixFile

/-- A newly created file. -/
def empty : PosixFile := ⟨fun _ => 0, 0, 0⟩

/-- The bytes from `offset` on, up to the end of the file: none at the end and behind it. -/
def slice (p : PosixFile) (count offset : Nat) : List Byte :=
  (List.range (min count (p.size - offset))).map fun i => p.bytes (offset + i)

/-- The file with `buf` at `offset`; its size is the largest end ever written. -/
def put (p : PosixFile) (buf : List Byte) (offset : Nat) : PosixFile :=
  if buf = [] then p
  else
    { p with
      bytes := fun i =>
        if offset ≤ i ∧ i < offset + buf.length then buf.getD (i - offset) 0 else p.bytes i
      size := max p.size (offset + buf.length) }

/-- The calls. A file without support for holes rejects `SEEK_DATA` and `SEEK_HOLE`. -/
def call (p : PosixFile) : FileCall → IoResult × PosixFile
  | .lseek offset .seekSet => (⟨offset, []⟩, { p with seek := offset })
  | .lseek offset .seekCur => (⟨(p.seek + offset : Nat), []⟩, { p with seek := p.seek + offset })
  | .lseek offset .seekEnd => (⟨(p.size + offset : Nat), []⟩, { p with seek := p.size + offset })
  | .lseek _ _ => (⟨-1, []⟩, p)
  | .read count =>
    (⟨(p.slice count p.seek).length, p.slice count p.seek⟩,
      { p with seek := p.seek + (p.slice count p.seek).length })
  | .write buf => (⟨buf.length, []⟩, { p.put buf p.seek with seek := p.seek + buf.length })
  | .pread count offset => (⟨(p.slice count offset).length, p.slice count offset⟩, p)
  | .pwrite buf offset => (⟨buf.length, []⟩, p.put buf offset)

end PosixFile

/-! ### Runs -/

/-- The same calls on the file and on a POSIX file, with what they returned, the last first. -/
structure IoRun (B : Type) where
  file : OpenFile B
  posix : PosixFile
  results : List IoResult
  expected : List IoResult

/-- Runs from a newly created file, for which the object store has no block. -/
def fileCalls (B : Type) [BackendStore B] : System (IoRun B) FileCall where
  start s := s.file.fd.size = 0 ∧ s.file.fd.seekOffset = 0 ∧
    BackendStore.find s.file.store s.file.fd.id = none ∧
    s.posix = .empty ∧ s.results = [] ∧ s.expected = []
  step s c := some
    { file := (s.file.call c).2
      posix := (s.posix.call c).2
      results := (s.file.call c).1 :: s.results
      expected := (s.posix.call c).1 :: s.expected }

/-- The ends of a call fit in 31 bits. -/
def FitsInt (s : IoRun B) : FileCall → Prop
  | .lseek offset .seekSet => offset < 2 ^ 31
  | .lseek offset .seekCur => s.file.fd.seekOffset + offset < 2 ^ 31
  | .lseek offset .seekEnd => s.file.fd.size + offset < 2 ^ 31
  | .lseek _ _ => True
  | .read count => s.file.fd.seekOffset + count < 2 ^ 31
  | .write buf => s.file.fd.seekOffset + buf.length < 2 ^ 31
  | .pread count offset => offset + count < 2 ^ 31
  | .pwrite buf offset => offset + buf.length < 2 ^ 31

/-- Bytes are put at the end of a file of size `size`; if there are none, not behind it. -/
def AtEnd (size : Nat) (buf : List Byte) (offset : Nat) : Prop :=
  offset ≤ size ∧ (buf ≠ [] → offset = size)

/-- **When the file is one**: bytes are written at its end only, and nothing is read or written
behind its end. -/
def Appending (s : IoRun B) : FileCall → Prop
  | .lseek _ _ => True
  | .read _ => s.file.fd.seekOffset ≤ s.file.fd.size
  | .write buf => AtEnd s.file.fd.size buf s.file.fd.seekOffset
  | .pread _ offset => offset ≤ s.file.fd.size
  | .pwrite buf offset => AtEnd s.file.fd.size buf offset

instance (size : Nat) (buf : List Byte) (offset : Nat) : Decidable (AtEnd size buf offset) :=
  inferInstanceAs (Decidable (_ ∧ _))

instance (s : IoRun B) : DecidablePred (FitsInt s)
  | .lseek _ .seekSet => inferInstanceAs (Decidable (_ < _))
  | .lseek _ .seekCur => inferInstanceAs (Decidable (_ < _))
  | .lseek _ .seekEnd => inferInstanceAs (Decidable (_ < _))
  | .lseek _ .seekData | .lseek _ .seekHole => inferInstanceAs (Decidable True)
  | .read _ => inferInstanceAs (Decidable (_ < _))
  | .write _ => inferInstanceAs (Decidable (_ < _))
  | .pread _ _ => inferInstanceAs (Decidable (_ < _))
  | .pwrite _ _ => inferInstanceAs (Decidable (_ < _))

instance (s : IoRun B) : DecidablePred (Appending s)
  | .lseek _ _ => inferInstanceAs (Decidable True)
  | .read _ => inferInstanceAs (Decidable (_ ≤ _))
  | .write _ => inferInstanceAs (Decidable (AtEnd _ _ _))
  | .pread _ _ => inferInstanceAs (Decidable (_ ≤ _))
  | .pwrite _ _ => inferInstanceAs (Decidable (AtEnd _ _ _))

/-! ### Blocks -/

/-- A block holds the bytes of a POSIX file. -/
structure HoldsFile (blkData : List Byte) (p : PosixFile) : Prop where
  length : blkData.length = p.size
  bytes : ∀ i, blkData.getD i 0 = p.bytes i

/-- The resized block, at every offset. -/
theorem getD_append_zeros (l : List Byte) (n i : Nat) :
    (l ++ List.replicate n 0).getD i 0 = l.getD i 0 := by
  rcases Nat.lt_or_ge i l.length with h | h
  · rw [getD_append _ _ _ _ h]
  · rw [getD_append_right _ _ _ _ h, getD_eq_default _ _ h]
    rcases Nat.lt_or_ge (i - l.length) n with hn | hn
    · rw [getD_eq_getElem _ _ (by rwa [length_replicate]), getElem_replicate]
    · exact getD_eq_default _ _ (by rwa [length_replicate])

/-- **What a block has after a write**: the buffer at its place, everything else as before, and
zeros in a gap. -/
theorem write_block (blkData : List Byte) (offset : Nat) (buffer : List Byte) :
    (writeBlock blkData offset buffer).length = max blkData.length (offset + buffer.length) ∧
      ∀ i, (writeBlock blkData offset buffer).getD i 0 =
        if offset ≤ i ∧ i < offset + buffer.length then buffer.getD (i - offset) 0
        else blkData.getD i 0 := by
  obtain ⟨resized, hres, hlen, hget⟩ : ∃ resized : List Byte,
      writeBlock blkData offset buffer =
        resized.take offset ++ (buffer ++ resized.drop (offset + buffer.length)) ∧
      resized.length = max blkData.length (offset + buffer.length) ∧
      ∀ i, resized.getD i 0 = blkData.getD i 0 := by
    rcases Nat.lt_or_ge blkData.length (offset + buffer.length) with h | h
    · refine ⟨_, by rw [writeBlock, if_pos h], ?_, getD_append_zeros _ _⟩
      rw [length_append, length_replicate]
      omega
    · exact ⟨_, by rw [writeBlock, if_neg (Nat.not_lt.mpr h)], (Nat.max_eq_left h).symm,
        fun _ => rfl⟩
  rw [hres]
  have hoff : (resized.take offset).length = offset := by
    rw [length_take]
    omega
  refine ⟨?_, fun i => ?_⟩
  · rw [length_append, hoff, length_append, length_drop]
    omega
  · rw [← hget]
    rcases Nat.lt_or_ge i offset with hi | hi
    · rw [if_neg (by omega), getD_append _ _ _ _ (by omega)]
      simp only [getD_eq_getElem?_getD, getElem?_take_of_lt hi]
    · rw [getD_append_right _ _ _ _ (by omega), hoff]
      rcases Nat.lt_or_ge i (offset + buffer.length) with hb | hb
      · rw [if_pos ⟨hi, hb⟩, getD_append _ _ _ _ (by omega)]
      · rw [if_neg (by omega), getD_append_right _ _ _ _ (by omega)]
        simp only [getD_eq_getElem?_getD, getElem?_drop]
        rw [show offset + buffer.length + (i - offset - buffer.length) = i by omega]

variable {blkData : List Byte}

/-- A write keeps block and file together, unless it is an empty one behind the end. -/
theorem HoldsFile.write {p : PosixFile} (h : HoldsFile blkData p)
    (buf : List Byte) (offset : Nat) (hempty : buf = [] → offset ≤ p.size) :
    HoldsFile (writeBlock blkData offset buf) (p.put buf offset) := by
  obtain ⟨hlen, hget⟩ := write_block blkData offset buf
  unfold PosixFile.put
  split
  · rename_i hnil
    have hoff := hempty hnil
    subst hnil
    refine ⟨?_, fun i => ?_⟩
    · rw [hlen, h.length, length_nil]
      omega
    · rw [hget, if_neg (by rw [length_nil]; omega), h.bytes]
  · refine ⟨by rw [hlen, h.length], fun i => ?_⟩
    rw [hget, h.bytes]

theorem PosixFile.length_slice (p : PosixFile) (count offset : Nat) :
    (p.slice count offset).length = min count (p.size - offset) := by
  rw [slice, length_map, length_range]

/-- The bytes of a block from `offset` on are those of the file. -/
theorem HoldsFile.slice {p : PosixFile} (h : HoldsFile blkData p) (count offset : Nat) :
    (blkData.drop offset).take (min count (blkData.length - offset)) = p.slice count offset := by
  apply ext_getElem
  · rw [PosixFile.length_slice, length_take, length_drop, h.length]
    omega
  · intro i hi _
    rw [length_take, length_drop] at hi
    simp only [PosixFile.slice, getElem_take, getElem_drop, getElem_map,
      getElem_range, ← h.bytes]
    exact (getD_eq_getElem _ _ (by omega)).symm

/-- Nothing is read at the end of a file. -/
theorem PosixFile.slice_end (p : PosixFile) (count : Nat) : p.slice count p.size = [] := by
  rw [← length_eq_zero_iff, length_slice, Nat.sub_self, Nat.min_zero]

/-! ### One call -/

/-- The file and the POSIX file are the same. -/
structure Agrees (f : OpenFile B) (p : PosixFile) : Prop where
  block : HoldsFile ((BackendStore.find f.store f.fd.id).getD []) p
  size : f.fd.size = p.size
  seek : f.fd.seekOffset = p.seek
  bound : p.size < 2 ^ 31

theorem toInt_of_lt {n : Nat} (h : n < 2 ^ 31) : toInt n = n := by
  unfold toInt
  exact Int.bmod_eq_of_le (by omega) (by omega)

section Call

variable {f : OpenFile B} {p : PosixFile}

/-- Seeking keeps the bytes and the size. -/
theorem Agrees.seekTo (h : Agrees f p) {m n : Nat} (hmn : m = n) :
    Agrees { f with fd.seekOffset := m } { p with seek := n } :=
  ⟨⟨h.block.length, h.block.bytes⟩, h.size, hmn, h.bound⟩

variable {offset : Nat} {buf : List Byte}

/-- A read before the end of the file. -/
theorem Agrees.rpcPread (h : Agrees f p) {count : Nat} (hoff : offset < p.size)
    (hfits : offset + count < 2 ^ 31) :
    f.rpcPread offset count = ⟨(p.slice count offset).length, p.slice count offset⟩ := by
  obtain ⟨blkData, hblk⟩ : ∃ b, BackendStore.find f.store f.fd.id = some b := by
    cases hb : BackendStore.find f.store f.fd.id with
    | some b => exact ⟨b, rfl⟩
    | none =>
      have hlen := h.block.length
      rw [hb, getD_none, length_nil] at hlen
      omega
  have hold := h.block
  rw [hblk, getD_some] at hold
  have hread : BackendStore.read f.store f.fd.id offset count =
      ⟨(min count (p.size - offset) : Nat), p.slice count offset⟩ := by
    rw [BackendStore.read, hblk]
    dsimp only
    rw [if_neg (by rw [hold.length]; omega), hold.slice, hold.length]
  unfold OpenFile.rpcPread
  rw [hread, PosixFile.length_slice]
  dsimp only
  rw [toInt_of_lt (by omega)]

/-- A read up to the end of the file. -/
theorem Agrees.pread (h : Agrees f p) {count offset : Nat} (hoff : offset ≤ p.size)
    (hfits : offset + count < 2 ^ 31) :
    (if f.fd.size = offset then (⟨0, []⟩ : IoResult) else f.rpcPread offset count) =
      ⟨(p.slice count offset).length, p.slice count offset⟩ := by
  split
  · rename_i hend
    rw [← hend, h.size, PosixFile.slice_end]
    rfl
  · rename_i hne
    exact h.rpcPread (lt_of_le_of_ne hoff fun he => hne (by rw [h.size, he])) hfits

/-- `dfs_read` asks for no more than the file has; it gets the same bytes. -/
theorem PosixFile.slice_min (p : PosixFile) (count offset : Nat) :
    p.slice (min count (p.size - offset)) offset = p.slice count offset := by
  rw [slice, slice, min_assoc, min_self]

/-- `dfs_read`. -/
theorem Agrees.read (h : Agrees f p) {count : Nat} (hoff : p.seek ≤ p.size)
    (hfits : p.seek + count < 2 ^ 31) :
    f.read count = (⟨(p.slice count p.seek).length, p.slice count p.seek⟩,
      { f with fd.seekOffset := p.seek + (p.slice count p.seek).length }) := by
  have hbound := h.bound
  have hleft : subU64 f.fd.size p.seek = p.size - p.seek := by
    rw [h.size]
    exact subU64_of_le hoff (by omega)
  have hread := @Agrees.pread B _ f p h (min count (p.size - p.seek)) p.seek hoff (by omega)
  rw [PosixFile.slice_min] at hread
  unfold OpenFile.read
  dsimp only
  rw [h.seek, hleft, hread]
  split
  · rename_i hnone
    dsimp only at hnone
    have hzero : (p.slice count p.seek).length = 0 := by omega
    rw [hzero, Nat.add_zero, ← h.seek]
  · rw [Int.toNat_natCast]

theorem PosixFile.put_seek (p : PosixFile) (buf : List Byte) (offset : Nat) :
    (p.put buf offset).seek = p.seek := by
  unfold put
  split <;> rfl

/-- Bytes put at the end of a file make it longer by their number. -/
theorem PosixFile.put_size
    (hat : AtEnd p.size buf offset) : (p.put buf offset).size = p.size + buf.length := by
  unfold put
  split
  · rename_i hnil
    rw [hnil, length_nil, Nat.add_zero]
  · rename_i hne
    dsimp only
    rw [hat.2 hne, Nat.max_eq_right (Nat.le_add_right _ _)]

/-- A write, for the descriptor `fd` and the file `q` it leaves. -/
theorem Agrees.written (h : Agrees f p) {fd : FileDescriptor}
    {q : PosixFile} (hat : AtEnd p.size buf offset) (hfits : offset + buf.length < 2 ^ 31)
    (hbytes : q.bytes = (p.put buf offset).bytes) (hq : q.size = (p.put buf offset).size)
    (hid : fd.id = f.fd.id) (hsize : fd.size = f.fd.size + buf.length)
    (hseek : fd.seekOffset = q.seek) :
    Agrees ⟨fd, BackendStore.write f.store f.fd.id offset buf⟩ q := by
  have hput := PosixFile.put_size hat
  have hblock := h.block.write buf offset fun _ => hat.1
  refine ⟨?_, by rw [hsize, hq, hput, h.size], hseek, ?_⟩
  · dsimp only
    rw [hid, BackendStore.write, BackendStore.find_upsert, getD_some]
    exact ⟨hq ▸ hblock.length, hbytes ▸ hblock.bytes⟩
  · have hbound := h.bound
    rw [hq, hput]
    by_cases hne : buf = []
    · rwa [hne, length_nil, Nat.add_zero]
    · rwa [← hat.2 hne]

/-- The descriptor after a `dfs_write`. -/
theorem FileDescriptor.write_fields (fd : FileDescriptor) (n : Nat) :
    (fd.write n).id = fd.id ∧ (fd.write n).size = fd.size + n ∧
      (fd.write n).seekOffset = fd.seekOffset + n := by
  unfold FileDescriptor.write
  split
  · exact ⟨rfl, rfl, rfl⟩
  · rename_i hz
    rw [not_not.mp hz]
    exact ⟨rfl, rfl, rfl⟩

/-- `dfs_write`. -/
theorem OpenFile.write_eq (h : buf.length < 2 ^ 31) : f.write buf = (⟨buf.length, []⟩,
      ⟨f.fd.write buf.length, BackendStore.write f.store f.fd.id f.fd.seekOffset buf⟩) := by
  unfold OpenFile.write
  rw [toInt_of_lt h]
  dsimp only
  rw [if_neg (by omega), Int.toNat_natCast]

/-- `dfs_pwrite`: the descriptor differs from the old one in size and `modify_`. -/
theorem OpenFile.pwrite_eq {f : OpenFile B} {buf : List Byte} {offset : Nat}
    (h : buf.length < 2 ^ 31) : ∃ fd : FileDescriptor, f.pwrite buf offset =
        (⟨buf.length, []⟩, ⟨fd, BackendStore.write f.store f.fd.id offset buf⟩) ∧
      fd.id = f.fd.id ∧ fd.size = f.fd.size + buf.length ∧ fd.seekOffset = f.fd.seekOffset := by
  unfold OpenFile.pwrite
  rw [toInt_of_lt h]
  dsimp only
  split
  · rename_i hnone
    have hzero : buf.length = 0 := by omega
    exact ⟨f.fd, rfl, rfl, by rw [hzero, Nat.add_zero], rfl⟩
  · rw [Int.toNat_natCast]
    exact ⟨_, rfl, rfl, rfl, rfl⟩

end Call

/-! ### Whole runs -/

/-- **One call**: it returns what a POSIX file returns, and leaves what a POSIX file is. -/
theorem call_agrees {s : IoRun B} (h : Agrees s.file s.posix) {c : FileCall} (hfits : FitsInt s c)
    (happ : Appending s c) :
    (s.file.call c).1 = (s.posix.call c).1 ∧ Agrees (s.file.call c).2 (s.posix.call c).2 := by
  obtain ⟨f, p, results, expected⟩ := s
  dsimp only at h ⊢
  cases c with
  | lseek offset whence =>
    cases whence with
    | seekSet => exact ⟨rfl, h.seekTo rfl⟩
    | seekCur =>
      have hto : f.fd.seekOffset + offset = p.seek + offset := by rw [h.seek]
      exact ⟨congrArg (fun n : Nat => (⟨n, []⟩ : IoResult)) hto, h.seekTo hto⟩
    | seekEnd =>
      have hto : f.fd.size + offset = p.size + offset := by rw [h.size]
      exact ⟨congrArg (fun n : Nat => (⟨n, []⟩ : IoResult)) hto, h.seekTo hto⟩
    | seekData | seekHole => exact ⟨rfl, h⟩
  | read count =>
    have hoff : p.seek ≤ p.size := h.seek ▸ h.size ▸ happ
    have hend : p.seek + count < 2 ^ 31 := h.seek ▸ hfits
    rw [OpenFile.call, h.read hoff hend]
    exact ⟨rfl, h.seekTo rfl⟩
  | write buf =>
    have hat : AtEnd p.size buf p.seek := h.seek ▸ h.size ▸ happ
    have hend : p.seek + buf.length < 2 ^ 31 := h.seek ▸ hfits
    obtain ⟨hid, hsize, hseek⟩ := f.fd.write_fields buf.length
    rw [OpenFile.call, OpenFile.write_eq (by omega), h.seek]
    exact ⟨rfl, h.written hat hend rfl rfl hid hsize (by rw [hseek, h.seek]; rfl)⟩
  | pread count offset => exact ⟨h.pread (h.size ▸ happ) hfits, h⟩
  | pwrite buf offset =>
    have hend : offset + buf.length < 2 ^ 31 := hfits
    obtain ⟨fd, heq, hid, hsize, hseek⟩ := @OpenFile.pwrite_eq B _ f buf offset (by omega)
    rw [OpenFile.call, heq]
    refine ⟨rfl, h.written (h.size ▸ happ) hend rfl rfl hid hsize ?_⟩
    rw [hseek, h.seek]
    exact (p.put_seek buf offset).symm

/-- **File I/O on a descriptor is that of a POSIX file** as long as bytes are written at the end of
the file only and nothing is read or written behind its end: every call has returned the same number
and the same bytes, and the file offset and the size are the same. -/
theorem file_like_posix {s : IoRun B}
    (h : (fileCalls B).Reach (fun s c => FitsInt s c ∧ Appending s c) s) :
    s.results = s.expected ∧ s.file.fd.seekOffset = s.posix.seek ∧
      s.file.fd.size = s.posix.size := by
  have hinv : s.results = s.expected ∧ Agrees s.file s.posix := by
    refine System.Reach.invariant (I := fun s => s.results = s.expected ∧ Agrees s.file s.posix)
      ?_ ?_ h
    · rintro s ⟨hsize, hseek, hblk, hposix, hres, hexp⟩
      refine ⟨hres.trans hexp.symm, ?_, ?_, ?_, ?_⟩
      · rw [hblk, hposix]
        exact ⟨rfl, fun i => getD_nil⟩
      · rw [hsize, hposix]
        rfl
      · rw [hseek, hposix]
        rfl
      · rw [hposix]
        decide
    · intro s c s' _ hI hok hst
      cases hst
      obtain ⟨hret, hagrees⟩ := call_agrees hI.2 hok.1 hok.2
      exact ⟨by rw [hret, hI.1], hagrees⟩
  exact ⟨hinv.1, hinv.2.seek, hinv.2.size⟩

/-- A newly created file with inode 7. -/
def newFile : IoRun (Nat → Option (List Byte)) :=
  ⟨⟨⟨7, ⟨1, 0o100644, 0, 0, 0⟩, 0, 0, false⟩, fun _ => none⟩, .empty, [], []⟩

theorem newFile_start : (fileCalls _).start newFile := ⟨rfl, rfl, rfl, rfl, rfl, rfl⟩

/-- What a run is looked at for: the size of the descriptor and of the file, and what was returned.
-/
def IoRun.seen (s : IoRun B) : Nat × Nat × List IoResult :=
  (s.file.fd.size, s.posix.size, s.results)

/-- "hi" is appended twice, by `write` and by `pwrite`; then 3 bytes are read from offset 1 on. -/
theorem file_like_posix_append :
    ∃ s, (fileCalls (Nat → Option (List Byte))).Reach (fun s c => FitsInt s c ∧ Appending s c) s ∧
      s.seen = (4, 4, [⟨3, [105, 104, 105]⟩, ⟨1, []⟩, ⟨2, []⟩, ⟨2, []⟩]) ∧
      s.results = s.expected ∧ s.file.fd.seekOffset = s.posix.seek ∧
      s.file.fd.size = s.posix.size := by
  exact System.exists_reach
    (l := [.write [104, 105], .pwrite [104, 105] 2, .lseek 1 .seekSet, .read 5])
    (Q := fun s => s.seen = (4, 4, [⟨3, [105, 104, 105]⟩, ⟨1, []⟩, ⟨2, []⟩, ⟨2, []⟩]))
    newFile_start (by decide +kernel) fun s hreach hseen => ⟨hseen, file_like_posix hreach⟩

/-- **Overwriting makes the file longer**: two bytes written twice at offset 0 give the descriptor a
size of 4. A read at offset 3 then returns -1, and `SEEK_END` goes to 4. -/
theorem overwrite_grows :
    ∃ s, (fileCalls (Nat → Option (List Byte))).Reach FitsInt s ∧
      s.results = [⟨4, []⟩, ⟨-1, []⟩, ⟨2, []⟩, ⟨2, []⟩] ∧
      s.expected = [⟨2, []⟩, ⟨0, []⟩, ⟨2, []⟩, ⟨2, []⟩] ∧
      s.file.fd.size = 4 ∧ s.posix.size = 2 := by
  exact System.exists_reach
    (l := [.pwrite [104, 105] 0, .pwrite [104, 105] 0, .pread 1 3, .lseek 0 .seekEnd])
    newFile_start (by decide +kernel) fun _ _ h => h

end StaxFS.Client
