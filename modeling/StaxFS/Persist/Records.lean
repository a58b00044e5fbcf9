import StaxFS.Persist.Cycle
import StaxFS.Wal.Invariant

/-!
# A log record, from the call that builds it to the two decoders

The `Log*` helpers of `server/cxl_persistence.cc` build a record, `Append` and `AppendWithOverflow`
of `server/compact_wal.h` write it to the ring, and two decoders take it apart again: the `switch` of
`DoCheckpoint`, with `ExtractName` and `ExtractRenameNames`, and the scan of
`CollectPersistentDentViews` in `server/metadata.cc`, with `ExtractWalName` and
`ExtractWalRenameNames`. What a decoder learns about an entry is put together here as the request it
came from.

Results:
* `record_round_trip`: after an append that was given its slots, both decoders find the request at
  the position it was written to, wrapped around the end of the ring or not, and `SlotCount` is what
  was added to `head_`.
-/

namespace StaxFS.Persist

open Wal Metadata List Option LogRequest

/-! ### Writing a record -/

/-- The rest of an append call once the room test has passed, with version `v`. -/
def appendLabels (t : Nat) (r : LogRequest) (v : Nat) : List Act :=
  .app t (.cas false) :: .app t .allocLocalSeq :: .app t (.nextVersion v) ::
    List.replicate (r.contCount + 1) (.app t .dramWrite)

/-- The loop of `AppendWithOverflow` over the continuation slots, the last slot first. -/
def writeConts (c : Config) (r : LogRequest) (pos localSeq : Nat) : Nat → Sys → Sys
  | 0, s => s
  | left + 1, s =>
    writeConts c r pos localSeq left
      (s.dramWrite c (pos + 1 + left) (.overflow (r.contSlot localSeq left)))

section Write

variable {c : Config} {r : LogRequest} {pos localSeq : Nat}

theorem writeConts_setApp (t : Nat) (pc : AppendPc) :
    ∀ (left : Nat) (s : Sys), writeConts c r pos localSeq left (s.setApp t pc) =
      (writeConts c r pos localSeq left s).setApp t pc
  | 0, _ => rfl
  | left + 1, s =>
    writeConts_setApp t pc left
      (s.dramWrite c (pos + 1 + left) (.overflow (r.contSlot localSeq left)))

theorem writeConts_head :
    ∀ (left : Nat) (s : Sys), (writeConts c r pos localSeq left s).head = s.head
  | 0, _ => rfl
  | left + 1, s =>
    writeConts_head left
      (s.dramWrite c (pos + 1 + left) (.overflow (r.contSlot localSeq left)))

theorem setApp_setApp (s : Sys) (t : Nat) (pc pc' : AppendPc) :
    (s.setApp t pc).setApp t pc' = s.setApp t pc' := by
  unfold Sys.setApp
  rw [Function.update_idem]

/-- The slots a record does not touch keep what they hold. -/
theorem writeConts_frame :
    ∀ (left : Nat) (s : Sys) {i : Nat}, (∀ j, j < left → c.index (pos + 1 + j) ≠ i) →
      (writeConts c r pos localSeq left s).slots i = s.slots i
  | 0, _, _, _ => rfl
  | left + 1, s, i, h => by
    show (writeConts c r pos localSeq left _).slots i = _
    rw [writeConts_frame left _ fun j hj => h j (by omega)]
    exact Function.update_of_ne (h left (by omega)).symm _ _

/-- Every continuation slot holds its part of the overflow bytes. -/
theorem writeConts_slotAt (hfit : r.slots ≤ c.capacity) :
    ∀ (left : Nat) (s : Sys) {j : Nat}, left ≤ r.contCount → j < left →
      (writeConts c r pos localSeq left s).slotAt c (pos + 1 + j) =
        .overflow (r.contSlot localSeq j)
  | 0, _, _, _, hj => by omega
  | left + 1, s, j, hle, hj => by
    by_cases hlast : j = left
    · subst hlast
      -- the slots written after this one lie before it, less than a turn away
      show (writeConts c r pos localSeq j _).slots _ = _
      rw [writeConts_frame j]
      · exact Function.update_self _ _ _
      · intro k hk he
        unfold slots at hfit
        have hkj := @Config.index_inj c pos _ _ (by omega) (by omega) (by omega) (by omega) he
        omega
    · exact writeConts_slotAt hfit left _ (by omega) (by omega)

end Write

/-- **The writes of an append call**: the continuation slots, then the primary. -/
theorem runLabels_dramWrite (c : Config) (t : Nat) (r : LogRequest) (pos l v : Nat) :
    ∀ (left : Nat) (s : Sys), s.crashed t = false → s.apps t = .writing r pos l v left →
      (system c).runLabels (List.replicate (left + 1) (.app t .dramWrite)) s =
        some (((writeConts c r pos l left s).dramWrite c pos (.entry (r.published l v))).setApp t
          (.returned r pos l v))
  | 0, s, hc, ha => by
    simp [Foundation.System.runLabels, system, step, hc, appStep, ha, writeConts]
  | left + 1, s, hc, ha => by
    have hstep : (system c).step s (.app t .dramWrite) =
        some ((s.dramWrite c (pos + 1 + left) (.overflow (r.contSlot l left))).setApp t
          (.writing r pos l v left)) := by
      simp [system, step, hc, appStep, ha]
    have hrest := runLabels_dramWrite c t r pos l v left
      ((s.dramWrite c (pos + 1 + left) (.overflow (r.contSlot l left))).setApp t
        (.writing r pos l v left)) hc (by simp [Sys.setApp])
    rw [replicate_succ, Foundation.System.runLabels, hstep, bind_some, hrest,
      writeConts_setApp]
    exact congrArg some (setApp_setApp ((writeConts c r pos l (left + 1) s).dramWrite c pos
      (.entry (r.published l v))) t (.writing r pos l v left) (.returned r pos l v))

/-! ### Reading it back -/

/-- The data of the continuation slots of an entry at `pos`: `OverflowAt(pos + 1 + i)->data_` for
each `i` below `ContCount`. -/
def contsAt (c : Config) (s : Sys) (pos : Nat) (e : CompactLogEntry) : List (List Byte) :=
  (List.range e.contCount).map fun i => (s.slotAt c (pos + 1 + i)).overflowData

/-- The request an entry stands for, by its accessors and the names taken from it. -/
def requestOf (e : CompactLogEntry) (name : Name) (names : Name × Name) : Option LogRequest :=
  match e.op with
  | .create =>
    some (.create e.inodeId e.parentId e.mode (getUid e) (getGid e) e.getDirentType name)
  | .unlink => some (.unlink e.inodeId e.parentId name)
  | .rename =>
    some (.rename e.inodeId e.parentId e.getNewParent names.1 names.2 e.getDirentType)
  | .setattr => some (.setattr e.inodeId e.mode)
  | .link => some (.link e.inodeId e.getNewParent name e.getDirentType)
  | .noop => none

/-- What the checkpoint reads at `pos`; `buf` is what its stack buffer held. -/
def checkpointDecode (buf : Buf) (e : CompactLogEntry) (conts : List (List Byte)) :
    Option LogRequest :=
  requestOf e (extractName buf e conts) (extractRenameNames buf e conts)

/-- What a listing reads at `pos`. -/
def listingDecode (e : CompactLogEntry) (conts : List (List Byte)) : Option LogRequest :=
  requestOf e (extractWalName e conts) (extractWalRenameNames e conts)

/-- The arguments of a `Log*` helper fit its parameters, and the names are at most
`kMaxFilenameLen` bytes long, whatever bytes. -/
def FitsRecord : LogRequest → Prop
  | .create _ _ _ uid gid type name =>
    uid < 2 ^ 32 ∧ gid < 2 ^ 32 ∧ type < 256 ∧ name.length ≤ kMaxFilenameLen
  | .unlink _ _ name => name.length ≤ kMaxFilenameLen
  | .rename _ _ _ oldName newName type =>
    oldName.length ≤ kMaxFilenameLen ∧ newName.length ≤ kMaxFilenameLen ∧ type < 256
  | .setattr _ _ => True
  | .link _ _ newName type => newName.length ≤ kMaxFilenameLen ∧ type < 256

instance : DecidablePred FitsRecord
  | .create .. => inferInstanceAs (Decidable (_ ∧ _ ∧ _ ∧ _))
  | .unlink .. => inferInstanceAs (Decidable (_ ≤ _))
  | .rename .. => inferInstanceAs (Decidable (_ ∧ _ ∧ _))
  | .setattr .. => inferInstanceAs (Decidable True)
  | .link .. => inferInstanceAs (Decidable (_ ∧ _))

/-- Two continuation slots are enough for the names of every record. -/
theorem FitsRecord.contCount_le {r : LogRequest} (h : FitsRecord r) : r.contCount ≤ 2 := by
  have hlen : r.nameBytes.length ≤ 2 * kMaxFilenameLen := by
    cases r with
    | create => exact le_trans h.2.2.2 (by omega)
    | unlink => exact le_trans h (by omega)
    | rename =>
      have h1 := h.1
      have h2 := h.2.1
      simp only [nameBytes, length_append]
      omega
    | setattr => simp [nameBytes]
    | link => exact le_trans h.1 (by omega)
  have hov : r.overflow.length = r.nameBytes.length - kInlineMax := by
    simp [overflow_eq]
  unfold contCount kDataMax
  unfold kMaxFilenameLen kInlineMax at *
  omega

/-- `PackCreateAux` keeps owner and group apart. -/
theorem getUid_makeCreate {inodeId parentId mode uid gid type : Nat} {name : Name}
    (hu : uid < 2 ^ 32) (hg : gid < 2 ^ 32) :
    getUid (.makeCreate inodeId parentId mode uid gid type name) = uid ∧
    getGid (.makeCreate inodeId parentId mode uid gid type name) = gid := by
  simp only [getUid, getGid, CompactLogEntry.makeCreate, CompactLogEntry.packCreateAux]
  rw [← Nat.shiftLeft_add_eq_or_of_lt hg, Nat.shiftLeft_eq, Nat.shiftRight_eq_div_pow]
  omega

/-- **The fields of a published record give its request**, with the names as they are taken from
it. -/
theorem requestOf_published {r : LogRequest} (hr : FitsRecord r) (l v : Nat) {name : Name}
    {names : Name × Name} (hname : (r.published l v).op ≠ .rename → name = r.nameBytes)
    (hnames : ∀ i op np o n t, r = .rename i op np o n t → names = (o, n)) :
    requestOf (r.published l v) name names = some r := by
  cases r with
  | create i p m u g t n =>
    obtain ⟨hu, hg⟩ := @getUid_makeCreate i p m u g t n hr.1 hr.2.1
    rw [hname (by simp [published, entry, CompactLogEntry.makeCreate])]
    have hu' : getUid ((create i p m u g t n).published l v) = u := hu
    have hg' : getGid ((create i p m u g t n).published l v) = g := hg
    unfold requestOf
    rw [hu', hg']
    rfl
  | unlink i p n =>
    rw [hname (by simp [published, entry, CompactLogEntry.makeUnlink])]
    rfl
  | rename i op np o n t =>
    have ht : ((rename i op np o n t).published l v).getDirentType = t :=
      and_ff_of_lt hr.2.2
    rw [hnames i op np o n t rfl]
    unfold requestOf
    rw [ht]
    rfl
  | setattr => rfl
  | link i np n t =>
    have ht : ((link i np n t).published l v).getDirentType = t := and_ff_of_lt hr.2
    rw [hname (by simp [published, entry, CompactLogEntry.makeLink])]
    unfold requestOf
    rw [ht]
    rfl

/-- Every record but that of a rename has all its name bytes in one name. -/
theorem entry_nameLen (r : LogRequest) (l v : Nat) (h : (r.published l v).op ≠ .rename) :
    r.entry.nameLen = r.nameBytes.length := by
  cases r with
  | rename => exact absurd rfl h
  | _ => rfl

theorem checkpointDecode_published {r : LogRequest} (hr : FitsRecord r) (buf : Buf) (l v : Nat) :
    checkpointDecode buf (r.published l v) r.conts = some r := by
  refine requestOf_published hr l v (fun hop => ?_) ?_
  · exact extractName_published r buf l v (entry_nameLen r l v hop)
  · rintro i op np o n t rfl
    exact extractRenameNames_published buf l v i op np t o n

theorem listingDecode_published {r : LogRequest} (hr : FitsRecord r) (l v : Nat) :
    listingDecode (r.published l v) r.conts = some r :=
  -- the listing extracts into a zeroed string, the checkpoint into any buffer
  checkpointDecode_published hr (fun _ => 0) l v

/-- The slots of a record that has just been written. -/
theorem contsAt_writeRecord {c : Config} {r : LogRequest} (hr : FitsRecord r)
    (hfit : r.slots ≤ c.capacity) {pos l : Nat} (hl : l < 2 ^ 29) (v : Nat) (s : Sys) :
    contsAt c ((writeConts c r pos l r.contCount s).dramWrite c pos (.entry (r.published l v))) pos
      (r.published l v) = r.conts := by
  have hcount : (r.published l v).contCount = r.contCount :=
    seqContCount_encodeSeq hl (by have := hr.contCount_le; omega)
  unfold contsAt
  rw [hcount]
  apply ext_getElem
  · simp [conts_length]
  · intro i h1 h2
    rw [conts_length] at h2
    have hne : c.index (pos + 1 + i) ≠ c.index pos := by
      intro he
      unfold slots at hfit
      have := @Config.index_inj c pos _ _ (by omega) (by omega) (by omega) (by omega) he
      omega
    have hslot := @writeConts_slotAt c r pos l hfit r.contCount s i le_rfl h2
    rw [getElem_map, getElem_range, conts_getElem]
    have hkeep : ((writeConts c r pos l r.contCount s).dramWrite c pos
        (.entry (r.published l v))).slotAt c (pos + 1 + i) = .overflow (r.contSlot l i) :=
      (Function.update_of_ne hne _ _).trans hslot
    rw [hkeep]
    rfl

/-- **Log records round-trip.** Whatever the ring holds and wherever the call's slots begin, once an
append that passed the room test has run to its end, both decoders find its request there, and the
entry's `SlotCount` is the number of slots by which the call moved `head_`. -/
theorem record_round_trip (c : Config) (s : Sys) (t : Nat) (r : LogRequest) (v : Nat)
    (hr : FitsRecord r) (hfit : r.slots ≤ c.capacity) (hpc : s.apps t = .checked r s.head)
    (hrun : s.crashed t = false) (hseq : s.localSeq &&& kSeqLocalMask ≠ 0) :
    ∃ (s' : Sys) (e : CompactLogEntry),
      (system c).runLabels (appendLabels t r v) s = some s' ∧
      s'.slotAt c s.head = .entry e ∧ e.isReady = true ∧ e.version = v ∧
      s'.head = s.head + e.slotCount ∧
      (∀ buf, checkpointDecode buf e (contsAt c s' s.head e) = some r) ∧
      listingDecode e (contsAt c s' s.head e) = some r := by
  set l := s.localSeq &&& kSeqLocalMask with hldef
  have hl : l < 2 ^ 29 := by
    have h : l ≤ kSeqLocalMask := Nat.and_le_right
    have hmask : kSeqLocalMask < 2 ^ 29 := by decide
    omega
  -- the state in which the first slot is written
  set s₁ : Sys := ({ s with
    head := s.head + r.slots
    localSeq := (s.localSeq + 1) % 2 ^ 32 }).setApp t (.writing r s.head l v r.contCount) with hs₁
  have hreach : (system c).runLabels (appendLabels t r v) s =
      (system c).runLabels (List.replicate (r.contCount + 1) (.app t .dramWrite)) s₁ := by
    have hcas : (system c).step s (.app t (.cas false)) =
        some ({ s with head := s.head + r.slots }.setApp t (.reserved r s.head)) := by
      simp [system, step, hrun, appStep, hpc]
    have halloc : (system c).step ({ s with head := s.head + r.slots }.setApp t
        (.reserved r s.head)) (.app t .allocLocalSeq) =
        some ({ s with
          head := s.head + r.slots
          localSeq := (s.localSeq + 1) % 2 ^ 32 }.setApp t (.sequenced r s.head l)) := by
      simp [system, step, hrun, appStep, Sys.setApp, ← hldef, hseq]
    have hnext : (system c).step ({ s with
          head := s.head + r.slots
          localSeq := (s.localSeq + 1) % 2 ^ 32 }.setApp t (.sequenced r s.head l))
        (.app t (.nextVersion v)) = some s₁ := by
      simp [system, step, hrun, appStep, Sys.setApp, hs₁]
    rw [appendLabels, Foundation.System.runLabels, hcas, bind_some,
      Foundation.System.runLabels, halloc, bind_some, Foundation.System.runLabels, hnext,
      bind_some]
  have hconts := @contsAt_writeRecord c r hr hfit s.head l hl v s₁
  have hcount : (r.published l v).slotCount = r.slots := by
    have h : (r.published l v).contCount = r.contCount :=
      seqContCount_encodeSeq hl (by have := hr.contCount_le; omega)
    rw [CompactLogEntry.slotCount, h, slots]
  refine ⟨_, r.published l v, hreach.trans (runLabels_dramWrite c t r s.head l v r.contCount s₁ hrun
    (by simp [hs₁, Sys.setApp])), ?_, r.isReady_published l v, rfl, ?_, fun buf => ?_, ?_⟩
  · exact Function.update_self _ _ _
  · rw [hcount]
    exact writeConts_head r.contCount s₁
  · exact (congrArg (checkpointDecode buf (r.published l v)) hconts).trans
      (checkpointDecode_published hr buf l v)
  · exact (congrArg (listingDecode (r.published l v)) hconts).trans
      (listingDecode_published hr l v)

/-- Two names of 63 bytes take three slots; from position 3 of a ring of four they wrap. -/
def longRename : LogRequest :=
  .rename 7 1 2 (List.replicate 63 65) (List.replicate 63 66) DT_REG

/-- An append call of `longRename` that has passed the room test at position 3. -/
def atTheEnd : Sys :=
  { Sys.init (.init 8) with
    head := 3, cp := 3, apps := fun _ => .checked longRename 3 }

theorem record_round_trip_wrapped :
    ∃ (s' : Sys) (e : CompactLogEntry),
      (system fourSlots).runLabels (appendLabels 0 longRename 9) atTheEnd = some s' ∧
      s'.slotAt fourSlots 3 = .entry e ∧ e.isReady = true ∧ e.version = 9 ∧
      s'.head = 3 + e.slotCount ∧
      (∀ buf, checkpointDecode buf e (contsAt fourSlots s' 3 e) = some longRename) ∧
      listingDecode e (contsAt fourSlots s' 3 e) = some longRename :=
  record_round_trip fourSlots atTheEnd 0 longRename 9 (by decide) (by decide) rfl rfl (by decide)

end StaxFS.Persist
