import StaxFS.Types

/-!
# Log records and their slots

`CompactLogEntry` and `CompactLogOverflow` of `server/compact_wal.h`, the `Log*` helpers of
`CXLPersistence` that build a record, and the two decoders that take a record apart again: the
checkpoint's (`ExtractName`, `ExtractRenameNames` and the `switch` of `DoCheckpoint`) and the
listing's (`ExtractWalName`, `ExtractWalRenameNames` and the `switch` of
`CollectPersistentDentViews`).

A record is one primary slot, holding the first `kInlineMax` name bytes, followed by up to three
continuation slots with the rest. What a record means for directories is `LogRequest.events`.

Results:
* `seqContCount_encodeSeq`, `isReady_published`: the fields of `seq_` are read back as they were
  packed; `overflow_not_ready`: a continuation slot never looks like a published record.
* `replayDents_published`, `listedViews_published`: both decoders, run on the slots a well-formed
  request writes, give the request's events. The checkpoint's decoder works in an uninitialised
  buffer, and the result does not depend on what that buffer held.
-/

namespace StaxFS.Wal

open List

/-- `WALOp`. -/
inductive WALOp
  | noop
  | create
  | unlink
  | rename
  | setattr
  | link
deriving DecidableEq, Repr

/-- `CompactLogEntry::kInlineMax`. -/
def kInlineMax : Nat := 20

/-- `kCompactWalContinuationDataMax`, which is also `CompactLogOverflow::kDataMax`. -/
def kDataMax : Nat := 56

/-- `CompactLogEntry`: the 64 bytes of a primary slot. `name_` holds the inline bytes of the name;
the bytes after them are zero and are not listed. -/
structure CompactLogEntry where
  /-- ready bit, continuation count and local sequence number -/
  seq : Nat
  op : WALOp
  nameLen : Nat
  /-- `RENAME`: length of the new name; `CREATE`: the dirent type -/
  auxLen : Nat
  version : Nat
  inodeId : Nat
  parentId : Nat
  aux : Nat
  mode : Nat
  name : List Byte
deriving DecidableEq, Repr

/-- A zeroed entry, as `CompactLogEntry e{}` and `ClearRange` write it. -/
def CompactLogEntry.zero : CompactLogEntry := ⟨0, .noop, 0, 0, 0, 0, 0, 0, 0, []⟩

/-- `CompactLogOverflow`: a continuation slot. -/
structure CompactLogOverflow where
  parentSeq : Nat
  data : List Byte
deriving DecidableEq, Repr

/-- `CompactLogOverflow::kOverflowMagic`, which lies where an entry has its `seq_`. -/
def kOverflowMagic : Nat := 0x4F564652

/-- A 64-byte slot of the ring, by what was last written to it. -/
inductive Slot
  | entry (e : CompactLogEntry)
  | overflow (o : CompactLogOverflow)
deriving DecidableEq, Repr

/-- A cleared slot. -/
def Slot.zero : Slot := .entry .zero

/-! ### The `seq_` word -/

def kSeqReadyMask : Nat := 1 <<< 31
def kSeqContShift : Nat := 29
def kSeqContMask : Nat := 0x3 <<< kSeqContShift
def kSeqLocalMask : Nat := (1 <<< kSeqContShift) - 1

/-- `CompactLogEntry::EncodeSeq`. -/
def encodeSeq (localSeq contCount : Nat) : Nat :=
  kSeqReadyMask ||| (contCount <<< kSeqContShift) ||| localSeq

/-- `IsReady` on a `seq_` word. -/
def seqReady (seq : Nat) : Bool := seq &&& kSeqReadyMask != 0

/-- `ContCount` on a `seq_` word. -/
def seqContCount (seq : Nat) : Nat := (seq &&& kSeqContMask) >>> kSeqContShift

namespace CompactLogEntry

/-- `CompactLogEntry::IsReady`. -/
def isReady (e : CompactLogEntry) : Bool := seqReady e.seq

/-- `CompactLogEntry::ContCount`. -/
def contCount (e : CompactLogEntry) : Nat := seqContCount e.seq

/-- `CompactLogEntry::SlotCount`. -/
def slotCount (e : CompactLogEntry) : Nat := 1 + e.contCount

/-- `CompactLogEntry::GetNewParent`. -/
def getNewParent (e : CompactLogEntry) : Nat := if e.op = .link then e.parentId else e.aux

/-- `CompactLogEntry::GetDirentType`. -/
def getDirentType (e : CompactLogEntry) : Nat :=
  if e.op = .create then e.auxLen
  else if e.op = .rename ∨ e.op = .link then e.mode &&& 0xff
  else DT_UNKNOWN

end CompactLogEntry

theorem seqReady_encodeSeq (l c : Nat) : seqReady (encodeSeq l c) = true := by
  have h : (encodeSeq l c &&& kSeqReadyMask).testBit 31 = true := by
    rw [Nat.testBit_and, encodeSeq, Nat.testBit_or, Nat.testBit_or]
    have h31 : kSeqReadyMask.testBit 31 = true := by decide
    simp [h31]
  unfold seqReady
  rw [bne_iff_ne]
  intro h0
  rw [h0] at h
  simp at h

/-- **The continuation count is read back as packed.** -/
theorem seqContCount_encodeSeq {l c : Nat} (hl : l < 2 ^ 29) (hc : c < 4) :
    seqContCount (encodeSeq l c) = c := by
  apply Nat.eq_of_testBit_eq
  intro i
  have hli : l.testBit (29 + i) = false :=
    Nat.testBit_lt_two_pow (lt_of_lt_of_le hl (Nat.pow_le_pow_right (by omega) (by omega)))
  unfold seqContCount encodeSeq kSeqReadyMask kSeqContMask kSeqContShift
  rw [Nat.testBit_shiftRight, Nat.testBit_and, Nat.testBit_or, Nat.testBit_or,
    Nat.testBit_shiftLeft, Nat.testBit_shiftLeft, Nat.testBit_shiftLeft, hli]
  by_cases hi : i < 2
  · have hcase : i = 0 ∨ i = 1 := by omega
    have h30 : (3 : Nat).testBit 1 = true := by decide
    rcases hcase with rfl | rfl <;> simp [h30]
  · have h3 : (3 : Nat).testBit i = false :=
      Nat.testBit_lt_two_pow (lt_of_lt_of_le (by omega : 3 < 2 ^ 2)
        (Nat.pow_le_pow_right (by omega) (by omega)))
    have hci : c.testBit i = false :=
      Nat.testBit_lt_two_pow (lt_of_lt_of_le (by omega : c < 2 ^ 2)
        (Nat.pow_le_pow_right (by omega) (by omega)))
    simp [h3, hci]

namespace Slot

/-- `At(pos)->IsReady()`: the first word of a continuation slot is its magic number. -/
def isReady : Slot → Bool
  | .entry e => e.isReady
  | .overflow _ => seqReady kOverflowMagic

theorem zero_not_ready : Slot.zero.isReady = false := by decide

/-- A continuation slot never looks like a published record. -/
theorem overflow_not_ready (o : CompactLogOverflow) : (Slot.overflow o).isReady = false := by
  simp only [isReady]
  decide

/-- The low `k` bytes of a word, little endian. -/
def leBytes : Nat → Nat → List Byte
  | 0, _ => []
  | k + 1, n => Fin.ofNat 256 n :: leBytes k (n / 256)

/-- `OverflowAt(pos)->data_`: the last 56 bytes of the slot. On a primary slot they are the fields
from `version_` to `name_`. -/
def overflowData : Slot → List Byte
  | .entry e => leBytes 8 e.version ++ leBytes 8 e.inodeId ++ leBytes 8 e.parentId ++
      leBytes 8 e.aux ++ leBytes 4 e.mode ++ e.name
  | .overflow o => o.data

end Slot

/-! ### Building a record -/

/-- A call of one of the `Log*` helpers of `CXLPersistence`. -/
inductive LogRequest
  | create (inodeId parentId mode uid gid type : Nat) (name : Name)
  | unlink (inodeId parentId : Nat) (name : Name)
  | rename (inodeId oldParent newParent : Nat) (oldName newName : Name) (type : Nat)
  | setattr (inodeId mode : Nat)
  | link (inodeId newParent : Nat) (newName : Name) (type : Nat)
deriving DecidableEq, Repr

namespace CompactLogEntry

/-- `PackCreateAux`. -/
def packCreateAux (uid gid : Nat) : Nat := (uid <<< 32) ||| gid

/-- `MakeCreate`. -/
def makeCreate (inodeId parentId mode uid gid type : Nat) (name : Name) : CompactLogEntry :=
  { zero with
    op := .create, inodeId, parentId, mode, aux := packCreateAux uid gid, auxLen := type,
    nameLen := name.length, name := name.take kInlineMax }

/-- `MakeUnlink`. -/
def makeUnlink (inodeId parentId : Nat) (name : Name) : CompactLogEntry :=
  { zero with
    op := .unlink, inodeId, parentId, nameLen := name.length, name := name.take kInlineMax }

/-- `MakeSetattr`. -/
def makeSetattr (inodeId mode : Nat) : CompactLogEntry :=
  { zero with op := .setattr, inodeId, mode }

/-- `MakeRename`: the old name first, then as much of the new one as still fits. -/
def makeRename (inodeId oldParent newParent : Nat) (oldName newName : Name) (type : Nat) :
    CompactLogEntry :=
  { zero with
    op := .rename, inodeId, parentId := oldParent, aux := newParent, mode := type,
    nameLen := oldName.length, auxLen := newName.length,
    name := oldName.take kInlineMax ++ newName.take (kInlineMax - min oldName.length kInlineMax) }

/-- `MakeLink`. -/
def makeLink (inodeId newParent : Nat) (newName : Name) (type : Nat) : CompactLogEntry :=
  { zero with
    op := .link, inodeId, parentId := newParent, mode := type, nameLen := newName.length,
    name := newName.take kInlineMax }

end CompactLogEntry

/-- `BuildOverflow`: the name bytes that do not fit inline. -/
def buildOverflow (name : Name) : List Byte := name.drop kInlineMax

/-- `BuildRenameOverflow`: the same on the two names one after the other. -/
def buildRenameOverflow (oldName newName : Name) : List Byte :=
  (oldName ++ newName).drop kInlineMax

namespace LogRequest

/-- The entry a `Log*` helper builds, before `Append` sets `seq_` and `version_`. -/
def entry : LogRequest → CompactLogEntry
  | create inodeId parentId mode uid gid type name =>
    .makeCreate inodeId parentId mode uid gid type name
  | unlink inodeId parentId name => .makeUnlink inodeId parentId name
  | rename inodeId oldParent newParent oldName newName type =>
    .makeRename inodeId oldParent newParent oldName newName type
  | setattr inodeId mode => .makeSetattr inodeId mode
  | link inodeId newParent newName type => .makeLink inodeId newParent newName type

/-- The overflow bytes a `Log*` helper hands to `AppendWithOverflow`; none means `Append`. -/
def overflow : LogRequest → List Byte
  | create _ _ _ _ _ _ name => buildOverflow name
  | unlink _ _ name => buildOverflow name
  | rename _ _ _ oldName newName _ => buildRenameOverflow oldName newName
  | setattr _ _ => []
  | link _ _ newName _ => buildOverflow newName

/-- `cont_count` of `AppendWithOverflow`. -/
def contCount (r : LogRequest) : Nat := (r.overflow.length + kDataMax - 1) / kDataMax

/-- The slots the record takes. -/
def slots (r : LogRequest) : Nat := 1 + r.contCount

theorem slots_pos (r : LogRequest) : 0 < r.slots := Nat.add_pos_left Nat.one_pos _

/-- The primary slot as `Append` and `AppendWithOverflow` write it. -/
def published (r : LogRequest) (localSeq version : Nat) : CompactLogEntry :=
  { r.entry with seq := encodeSeq localSeq r.contCount, version }

/-- The bytes of continuation slot `i`. -/
def contData (r : LogRequest) (i : Nat) : List Byte :=
  (r.overflow.drop (i * kDataMax)).take kDataMax

/-- Continuation slot `i` as `AppendWithOverflow` writes it. -/
def contSlot (r : LogRequest) (localSeq i : Nat) : CompactLogOverflow :=
  ⟨localSeq, r.contData i⟩

/-- A name as the server passes it: a C string of at most 63 bytes. -/
def NameOk (n : Name) : Prop := n.length ≤ kMaxFilenameLen ∧ (0 : Byte) ∉ n

/-- The requests the server makes: the names are C strings that fit `name_[64]`, the types are
bytes. -/
def WF : LogRequest → Prop
  | create _ _ _ _ _ type name => NameOk name ∧ type < 256
  | unlink _ _ name => NameOk name
  | rename _ _ _ oldName newName type => NameOk oldName ∧ NameOk newName ∧ type < 256
  | setattr _ _ => True
  | link _ _ newName type => NameOk newName ∧ type < 256

instance (n : Name) : Decidable (NameOk n) := inferInstanceAs (Decidable (_ ∧ _))

instance : DecidablePred WF
  | create .. => inferInstanceAs (Decidable (_ ∧ _))
  | unlink .. => inferInstanceAs (Decidable (NameOk _))
  | rename .. => inferInstanceAs (Decidable (_ ∧ _ ∧ _))
  | setattr .. => inferInstanceAs (Decidable True)
  | link .. => inferInstanceAs (Decidable (_ ∧ _))

/-- What a record says about directories: the directory and the event, in the order in which the
checkpoint buffers them. -/
def events (version : Nat) : LogRequest → List (Nat × DentEntry)
  | create inodeId parentId _ _ _ type name => [(parentId, ⟨inodeId, version, type, false, name⟩)]
  | unlink inodeId parentId name => [(parentId, ⟨inodeId, version, DT_UNKNOWN, true, name⟩)]
  | rename inodeId oldParent newParent oldName newName type =>
    [(oldParent, ⟨inodeId, version, DT_UNKNOWN, true, oldName⟩),
     (newParent, ⟨inodeId, version, type, false, newName⟩)]
  | setattr _ _ => []
  | link inodeId newParent newName type => [(newParent, ⟨inodeId, version, type, false, newName⟩)]

end LogRequest

/-! ### Taking a record apart -/

/-- A character buffer, as a function of the index. -/
abbrev Buf := Nat → Byte

/-- `memcpy(dst + off, src, len)`, where `src` is a zero-padded array. -/
def memcpy (dst : Buf) (off : Nat) (src : List Byte) (len : Nat) : Buf :=
  fun i => if off ≤ i ∧ i < off + len then src.getD (i - off) 0 else dst i

/-- The first `len` bytes from `off` on. -/
def Buf.bytes (buf : Buf) (off len : Nat) : List Byte := (List.range len).map fun i => buf (off + i)

/-- The continuation loop of the extraction functions, over the data of the slots it reads. -/
def copyConts (inlineLen : Nat) : List (List Byte) → Nat → Nat → Buf → Buf
  | [], _, _, buf => buf
  | d :: ds, i, remaining, buf =>
    if 0 < remaining then
      let copyLen := min remaining kDataMax
      copyConts inlineLen ds (i + 1) (remaining - copyLen)
        (memcpy buf (inlineLen + i * kDataMax) d copyLen)
    else buf

/-- The body of the extraction functions: `total` name bytes, the inline ones first. -/
def extractBytes (buf : Buf) (e : CompactLogEntry) (total : Nat) (conts : List (List Byte)) : Buf :=
  let inlineLen := min total kInlineMax
  copyConts inlineLen conts 0 (total - inlineLen) (memcpy buf 0 e.name inlineLen)

/-- `CXLPersistence::ExtractName`, into the caller's buffer. -/
def extractName (buf : Buf) (e : CompactLogEntry) (conts : List (List Byte)) : List Byte :=
  (extractBytes buf e e.nameLen conts).bytes 0 e.nameLen

/-- `ExtractRenameNames` of `cxl_persistence.cc`, through the uninitialised `full[128]`. -/
def extractRenameNames (full : Buf) (e : CompactLogEntry) (conts : List (List Byte)) :
    List Byte × List Byte :=
  let full := extractBytes full e (e.nameLen + e.auxLen) conts
  (full.bytes 0 e.nameLen, full.bytes e.nameLen e.auxLen)

/-- `ExtractWalName` of `metadata.cc`, into a zeroed string. -/
def extractWalName (e : CompactLogEntry) (conts : List (List Byte)) : List Byte :=
  (extractBytes (fun _ => 0) e e.nameLen conts).bytes 0 e.nameLen

/-- `ExtractWalRenameNames` of `metadata.cc`. -/
def extractWalRenameNames (e : CompactLogEntry) (conts : List (List Byte)) :
    List Byte × List Byte :=
  let full := extractBytes (fun _ => 0) e (e.nameLen + e.auxLen) conts
  (full.bytes 0 e.nameLen, full.bytes e.nameLen e.auxLen)

/-- The name bytes the `switch` of `DoCheckpoint` extracts. -/
def nameTotal (e : CompactLogEntry) : Nat :=
  match e.op with
  | .create | .unlink | .link => e.nameLen
  | .rename => e.nameLen + e.auxLen
  | .setattr | .noop => 0

/-- Whether the extraction loop reads another continuation slot after `got` of them. -/
def needsCont (e : CompactLogEntry) (got : Nat) : Bool :=
  got < e.contCount && kInlineMax + got * kDataMax < nameTotal e

/-- The dent side of the `switch` of `DoCheckpoint`: what it hands to `buffer_dent`. -/
def replayDents (buf : Buf) (e : CompactLogEntry) (conts : List (List Byte)) :
    List (Nat × DentEntry) :=
  match e.op with
  | .create =>
    [(e.parentId, .make e.inodeId e.auxLen (extractName buf e conts) e.version false)]
  | .unlink =>
    [(e.parentId, .make e.inodeId DT_UNKNOWN (extractName buf e conts) e.version true)]
  | .rename =>
    let names := extractRenameNames buf e conts
    [(e.parentId, .make e.inodeId DT_UNKNOWN names.1 e.version true),
     (e.getNewParent, .make e.inodeId e.getDirentType names.2 e.version false)]
  | .link =>
    [(e.getNewParent, .make e.inodeId e.getDirentType (extractName buf e conts) e.version false)]
  | .setattr | .noop => []

/-- `push_view` of `CollectPersistentDentViews`. -/
def pushView (dir id type : Nat) (deleted : Bool) (version : Nat) (name : List Byte) : DentView :=
  ⟨id, dir, version, type, deleted, cString (name.take kMaxFilenameLen)⟩

/-- Whether the listing of `dir` takes the record into account, and so reads its names. -/
def listMatches (dir cutoff : Nat) (e : CompactLogEntry) : Bool :=
  match e.op with
  | .create | .unlink => e.version ≤ cutoff && e.parentId == dir
  | .rename => (e.version ≤ cutoff && e.parentId == dir) ||
      (e.version ≤ cutoff && e.getNewParent == dir)
  | .link => e.version ≤ cutoff && e.getNewParent == dir
  | .setattr | .noop => false

/-- The `switch` of `CollectPersistentDentViews`. -/
def listedViews (dir cutoff : Nat) (e : CompactLogEntry) (conts : List (List Byte)) :
    List DentView :=
  match e.op with
  | .create =>
    if e.version ≤ cutoff ∧ e.parentId = dir then
      [pushView dir e.inodeId e.auxLen false e.version (extractWalName e conts)]
    else []
  | .unlink =>
    if e.version ≤ cutoff ∧ e.parentId = dir then
      [pushView dir e.inodeId DT_UNKNOWN true e.version (extractWalName e conts)]
    else []
  | .rename =>
    let names := extractWalRenameNames e conts
    (if e.version ≤ cutoff ∧ e.parentId = dir then
      [pushView dir e.inodeId DT_UNKNOWN true e.version names.1]
    else []) ++
    (if e.version ≤ cutoff ∧ e.getNewParent = dir then
      [pushView dir e.inodeId e.getDirentType false e.version names.2]
    else [])
  | .link =>
    if e.version ≤ cutoff ∧ e.getNewParent = dir then
      [pushView dir e.inodeId e.getDirentType false e.version (extractWalName e conts)]
    else []
  | .setattr | .noop => []

/-! ### The decoders undo the builders -/

/-- The data of the continuation slots of overflow bytes `ov`, from slot `i` on. -/
def contsFrom (ov : List Byte) (i n : Nat) : List (List Byte) :=
  (List.range' i n).map fun j => (ov.drop (j * kDataMax)).take kDataMax

/-- The continuation loop leaves the bytes before slot `i` alone and copies the rest of the
overflow bytes behind them. -/
theorem copyConts_contsFrom (inlineLen : Nat) (ov : List Byte) :
    ∀ (n i : Nat) (buf : Buf), ov.length ≤ (i + n) * kDataMax →
      (∀ m, m < inlineLen + i * kDataMax →
        copyConts inlineLen (contsFrom ov i n) i (ov.length - i * kDataMax) buf m = buf m) ∧
      (∀ m, i * kDataMax ≤ m → m < ov.length →
        copyConts inlineLen (contsFrom ov i n) i (ov.length - i * kDataMax) buf (inlineLen + m) =
          ov.getD m 0) := by
  intro n
  induction n with
  | zero =>
    intro i buf hlen
    refine ⟨fun m _ => rfl, fun m h1 h2 => ?_⟩
    rw [Nat.add_zero] at hlen
    omega
  | succ n ih =>
    intro i buf hlen
    have hcons : contsFrom ov i (n + 1) =
        (ov.drop (i * kDataMax)).take kDataMax :: contsFrom ov (i + 1) n := by
      simp [contsFrom, range'_succ]
    rw [hcons]
    unfold copyConts
    by_cases hrem : 0 < ov.length - i * kDataMax
    · have hsucc : (i + 1) * kDataMax = i * kDataMax + kDataMax := Nat.succ_mul i kDataMax
      have hnext : ov.length - i * kDataMax - min (ov.length - i * kDataMax) kDataMax =
          ov.length - (i + 1) * kDataMax := by omega
      simp only [hrem, if_true, hnext]
      obtain ⟨ih1, ih2⟩ := ih (i + 1)
        (memcpy buf (inlineLen + i * kDataMax) ((ov.drop (i * kDataMax)).take kDataMax)
          (min (ov.length - i * kDataMax) kDataMax)) (by rwa [Nat.add_assoc, Nat.add_comm 1 n])
      refine ⟨fun m hm => ?_, fun m h1 h2 => ?_⟩
      · rw [ih1 m (by omega), memcpy, if_neg (by omega)]
      · by_cases hm : (i + 1) * kDataMax ≤ m
        · exact ih2 m hm h2
        · -- the byte lies in slot `i`, which this iteration copies
          rw [ih1 (inlineLen + m) (by omega), memcpy, if_pos (by omega)]
          have hoff : inlineLen + m - (inlineLen + i * kDataMax) = m - i * kDataMax := by omega
          rw [hoff, getD_eq_getElem?_getD, getD_eq_getElem?_getD,
            getElem?_take_of_lt (by omega), getElem?_drop]
          congr 2
          omega
    · rw [if_neg hrem]
      exact ⟨fun m _ => rfl, fun m h1 h2 => by omega⟩

/-- **Extraction**: from the inline bytes and the continuation slots of `full`, the first
`full.length` bytes of the buffer are `full`, whatever the buffer held before. -/
theorem extractBytes_eq (buf : Buf) (e : CompactLogEntry) (full : List Byte) (n : Nat)
    (hname : e.name = full.take kInlineMax) (hn : full.length ≤ kInlineMax + n * kDataMax)
    {m : Nat} (hm : m < full.length) :
    extractBytes buf e full.length (contsFrom (full.drop kInlineMax) 0 n) m = full.getD m 0 := by
  have hspec := copyConts_contsFrom (min full.length kInlineMax) (full.drop kInlineMax) n 0
    (memcpy buf 0 e.name (min full.length kInlineMax)) (by simp; omega)
  have hlen : full.length - min full.length kInlineMax =
      (full.drop kInlineMax).length - 0 * kDataMax := by simp; omega
  unfold extractBytes
  rw [hlen]
  by_cases hin : m < min full.length kInlineMax
  · rw [hspec.1 m (by omega), memcpy, if_pos (by omega), hname, Nat.sub_zero,
      getD_eq_getElem?_getD, getD_eq_getElem?_getD, getElem?_take_of_lt (by omega)]
  · have hk : min full.length kInlineMax = kInlineMax := by omega
    have hm' : m = min full.length kInlineMax + (m - kInlineMax) := by omega
    rw [hm', hspec.2 (m - kInlineMax) (by omega) (by simp; omega),
      getD_eq_getElem?_getD, getD_eq_getElem?_getD, getElem?_drop, hk]

/-- A stretch of the extracted bytes. -/
theorem bytes_extractBytes (buf : Buf) (e : CompactLogEntry) (full : List Byte) (n off len : Nat)
    (hname : e.name = full.take kInlineMax) (hn : full.length ≤ kInlineMax + n * kDataMax)
    (hlen : off + len ≤ full.length) :
    (extractBytes buf e full.length (contsFrom (full.drop kInlineMax) 0 n)).bytes off len =
      (full.drop off).take len := by
  apply ext_getElem
  · simp [Buf.bytes]
    omega
  · intro i h1 h2
    simp only [Buf.bytes, length_map, length_range] at h1
    have hlt : off + i < full.length := by omega
    simp only [Buf.bytes, getElem_map, getElem_range, getElem_take,
      getElem_drop]
    rw [extractBytes_eq buf e full n hname hn hlt, getD_eq_getElem _ _ hlt]

namespace LogRequest

/-- The name bytes of a record, inline and overflow together. -/
def nameBytes : LogRequest → List Byte
  | create _ _ _ _ _ _ name => name
  | unlink _ _ name => name
  | rename _ _ _ oldName newName _ => oldName ++ newName
  | setattr _ _ => []
  | link _ _ newName _ => newName

/-- The data of the record's continuation slots, in slot order. -/
def conts (r : LogRequest) : List (List Byte) := contsFrom r.overflow 0 r.contCount

section

variable (r : LogRequest)

include r

theorem overflow_eq : r.overflow = r.nameBytes.drop kInlineMax := by
  cases r <;> simp [overflow, nameBytes, buildOverflow, buildRenameOverflow]

theorem entry_name : r.entry.name = r.nameBytes.take kInlineMax := by
  cases r with
  | rename i op np o n t =>
    simp only [entry, CompactLogEntry.makeRename, nameBytes, take_append]
    congr 2
    omega
  | _ => simp [entry, nameBytes, CompactLogEntry.makeCreate, CompactLogEntry.makeUnlink,
      CompactLogEntry.makeSetattr, CompactLogEntry.makeLink, CompactLogEntry.zero]

theorem nameTotal_published (l v : Nat) : nameTotal (r.published l v) = r.nameBytes.length := by
  cases r <;> simp [published, entry, nameBytes, nameTotal, CompactLogEntry.makeCreate,
    CompactLogEntry.makeUnlink, CompactLogEntry.makeSetattr, CompactLogEntry.makeLink,
    CompactLogEntry.makeRename]

theorem conts_length : r.conts.length = r.contCount := by
  simp [conts, contsFrom]

theorem conts_getElem {i : Nat} (h : i < r.conts.length) : r.conts[i] = r.contData i := by
  simp [conts, contsFrom, contData]

theorem nameBytes_length_le : r.nameBytes.length ≤ kInlineMax + r.contCount * kDataMax := by
  have h : r.overflow.length = r.nameBytes.length - kInlineMax := by simp [overflow_eq]
  unfold contCount
  unfold kDataMax at *
  omega

end

variable {r : LogRequest} {l : Nat}

theorem WF.nameBytes_length_le (h : r.WF) : r.nameBytes.length ≤ 2 * kMaxFilenameLen := by
  cases r with
  | create | link => exact le_trans h.1.1 (by omega)
  | unlink => exact le_trans h.1 (by omega)
  | rename =>
    have h1 := h.1.1
    have h2 := h.2.1.1
    simp only [nameBytes, length_append]
    omega
  | setattr => simp [nameBytes]

/-- `kCompactWalMaxContinuationSlots` is never exceeded. -/
theorem WF.contCount_lt (h : r.WF) : r.contCount < 4 := by
  have h1 := h.nameBytes_length_le
  have h2 : r.overflow.length = r.nameBytes.length - kInlineMax := by simp [overflow_eq]
  unfold contCount
  unfold kDataMax kMaxFilenameLen at *
  omega

theorem isReady_published (r : LogRequest) (l v : Nat) : (r.published l v).isReady = true :=
  seqReady_encodeSeq l r.contCount

theorem contCount_published (hr : r.WF) (hl : l < 2 ^ 29) (v : Nat) :
    (r.published l v).contCount = r.contCount :=
  seqContCount_encodeSeq hl hr.contCount_lt

theorem slotCount_published (hr : r.WF) (hl : l < 2 ^ 29) (v : Nat) :
    (r.published l v).slotCount = r.slots := by
  simp [CompactLogEntry.slotCount, slots, contCount_published hr hl]

/-- The extraction loop reads exactly the record's continuation slots. -/
theorem needsCont_published (hr : r.WF) (hl : l < 2 ^ 29) (v got : Nat) :
    needsCont (r.published l v) got = decide (got < r.contCount) := by
  have hlen : r.overflow.length = r.nameBytes.length - kInlineMax := by simp [overflow_eq]
  unfold needsCont
  rw [contCount_published hr hl, nameTotal_published]
  by_cases h : got < r.contCount
  · have hlt : kInlineMax + got * kDataMax < r.nameBytes.length := by
      unfold contCount at h
      unfold kDataMax at *
      omega
    simp [h, hlt]
  · simp [h]

/-- The names come back from a published record. -/
theorem bytes_published (r : LogRequest) (buf : Buf) (l v off len : Nat)
    (h : off + len ≤ r.nameBytes.length) :
    (extractBytes buf (r.published l v) r.nameBytes.length r.conts).bytes off len =
      (r.nameBytes.drop off).take len := by
  unfold conts
  rw [overflow_eq]
  exact bytes_extractBytes buf _ _ _ off len r.entry_name r.nameBytes_length_le h

end LogRequest

theorem take_of_nameOk {n : Name} (h : LogRequest.NameOk n) : n.take kMaxFilenameLen = n :=
  take_of_length_le h.1

/-- A type byte survives the mask of `GetDirentType`. -/
theorem and_ff_of_lt {t : Nat} (h : t < 256) : t &&& 0xff = t := by
  rw [show (0xff : Nat) = 2 ^ 8 - 1 by decide, Nat.and_two_pow_sub_one_eq_mod, Nat.mod_eq_of_lt h]

theorem extractName_published (r : LogRequest) (buf : Buf) (l v : Nat)
    (h : r.entry.nameLen = r.nameBytes.length) :
    extractName buf (r.published l v) r.conts = r.nameBytes := by
  have hlen : (r.published l v).nameLen = r.nameBytes.length := h
  unfold extractName
  rw [hlen, r.bytes_published buf l v 0 _ (by omega), drop_zero, take_length]

theorem extractRenameNames_published (buf : Buf) (l v i op np t : Nat) (o n : Name) :
    extractRenameNames buf ((LogRequest.rename i op np o n t).published l v)
      (LogRequest.rename i op np o n t).conts = (o, n) := by
  have h := fun off len => (LogRequest.rename i op np o n t).bytes_published buf l v off len
  simp only [LogRequest.nameBytes, length_append] at h
  have ho := h 0 o.length (by omega)
  have hn := h o.length n.length (by omega)
  rw [drop_zero, take_left] at ho
  rw [drop_left, take_length] at hn
  simp only [extractRenameNames, LogRequest.published, LogRequest.entry,
    CompactLogEntry.makeRename] at ho hn ⊢
  rw [ho, hn]

/-- **The checkpoint's decoder gives a published record's events**, whatever its stack buffer
held. -/
theorem replayDents_published {r : LogRequest} (hr : r.WF) (buf : Buf) (l v : Nat) :
    replayDents buf (r.published l v) r.conts = r.events v := by
  cases r with
  | create i p m u g t n =>
    have hn := extractName_published (.create i p m u g t n) buf l v rfl
    simp only [replayDents, DentEntry.make, LogRequest.events, hn]
    simp only [LogRequest.nameBytes, take_of_nameOk hr.1, LogRequest.published, LogRequest.entry,
      CompactLogEntry.makeCreate]
  | unlink i p n =>
    have hn := extractName_published (.unlink i p n) buf l v rfl
    simp only [replayDents, DentEntry.make, LogRequest.events, hn]
    simp only [LogRequest.nameBytes, take_of_nameOk hr, LogRequest.published, LogRequest.entry,
      CompactLogEntry.makeUnlink]
  | rename i op np o n t =>
    have hn := extractRenameNames_published buf l v i op np t o n
    simp only [replayDents, DentEntry.make, LogRequest.events, hn]
    simp [take_of_nameOk hr.1, take_of_nameOk hr.2.1, LogRequest.published, LogRequest.entry,
      CompactLogEntry.makeRename, CompactLogEntry.getNewParent, CompactLogEntry.getDirentType,
      and_ff_of_lt hr.2.2]
  | setattr => rfl
  | link i np n t =>
    have hn := extractName_published (.link i np n t) buf l v rfl
    simp only [replayDents, DentEntry.make, LogRequest.events, hn]
    simp [LogRequest.nameBytes, take_of_nameOk hr.1, LogRequest.published, LogRequest.entry,
      CompactLogEntry.makeLink, CompactLogEntry.getNewParent, CompactLogEntry.getDirentType,
      and_ff_of_lt hr.2]

/-- The views a listing of `dir` with the given cutoff makes of a list of events. -/
def viewsOf (dir cutoff : Nat) (evs : List (Nat × DentEntry)) : List DentView :=
  (evs.filter fun p => p.1 == dir && decide (p.2.version ≤ cutoff)).map fun p => p.2.view dir

@[simp] theorem viewsOf_nil (dir cutoff : Nat) : viewsOf dir cutoff [] = [] := rfl

theorem viewsOf_cons (dir cutoff : Nat) (p : Nat × DentEntry) (evs : List (Nat × DentEntry)) :
    viewsOf dir cutoff (p :: evs) =
      (if p.2.version ≤ cutoff ∧ p.1 = dir then [p.2.view dir] else []) ++
        viewsOf dir cutoff evs := by
  unfold viewsOf
  by_cases h : p.2.version ≤ cutoff ∧ p.1 = dir
  · simp [h]
  · rw [if_neg h, filter_cons_of_neg (by simpa [and_comm] using h)]
    rfl

/-- **The listing's decoder gives the views of a published record's events.** -/
theorem listedViews_published {r : LogRequest} (hr : r.WF) (dir cutoff l v : Nat) :
    listedViews dir cutoff (r.published l v) r.conts = viewsOf dir cutoff (r.events v) := by
  cases r with
  | create i p m u g t n =>
    have hn : extractWalName _ _ = _ :=
      extractName_published (.create i p m u g t n) (fun _ => 0) l v rfl
    simp only [listedViews, LogRequest.events, viewsOf_cons, viewsOf_nil, append_nil, hn]
    rfl
  | unlink i p n =>
    have hn : extractWalName _ _ = _ :=
      extractName_published (.unlink i p n) (fun _ => 0) l v rfl
    simp only [listedViews, LogRequest.events, viewsOf_cons, viewsOf_nil, append_nil, hn]
    rfl
  | rename i op np o n t =>
    have hn : extractWalRenameNames _ _ = _ :=
      extractRenameNames_published (fun _ => 0) l v i op np t o n
    have ht : ((LogRequest.rename i op np o n t).published l v).getDirentType = t :=
      and_ff_of_lt hr.2.2
    simp only [listedViews, LogRequest.events, viewsOf_cons, viewsOf_nil, append_nil, hn, ht]
    rfl
  | setattr => rfl
  | link i np n t =>
    have hn : extractWalName _ _ = _ :=
      extractName_published (.link i np n t) (fun _ => 0) l v rfl
    have ht : ((LogRequest.link i np n t).published l v).getDirentType = t :=
      and_ff_of_lt hr.2
    simp only [listedViews, LogRequest.events, viewsOf_cons, viewsOf_nil, append_nil, hn, ht]
    rfl

/-- A record the listing passes over has no views, so its names need not be read. -/
theorem listedViews_of_not_matches {dir cutoff : Nat} {e : CompactLogEntry}
    (h : listMatches dir cutoff e = false) (conts : List (List Byte)) :
    listedViews dir cutoff e conts = [] := by
  unfold listMatches at h
  unfold listedViews
  cases hop : e.op <;> simp_all

end StaxFS.Wal
