import StaxFS.Client.Files

/-!
# One object of the store, with its 64-bit sizes

`ObjectStore::Write` of `server/data.cc` on one object. The offset is whatever a client sends;
`dfs_lseek` passes negative ones on. Whether the block has to grow is decided with `offset + size`,
which wraps at `2 ^ 64`, and the copy goes to `offset` in any case. What the allocator can give is a
parameter; it gives less than `2 ^ 63` bytes, the `max_size` of a vector.

Results:
* `object_is_byte_map`: after any writes, a write goes outside the block exactly if its end wraps
  and `resize` does not throw; every other one that returns has put the buffer at its place, keeps
  the rest and fills gaps with zeros, and a read returns the bytes there are.
* `wrapped_write_outside`: a write at offset -1.
-/

namespace StaxFS.Client

open Wal List

/-- How `ObjectStore::Write` ends. -/
inductive WriteEnd
  /-- it returns `ret` and leaves `blkData` -/
  | returned (ret : Nat) (blkData : List Byte)
  /-- `resize` throws -/
  | thrown
  /-- it writes to memory that is not the block's -/
  | outside
deriving DecidableEq, Repr

/-- `std::copy` to `blk_data.begin() + offset`. -/
def copyIn (blkData : List Byte) (offset : Nat) (buffer : List Byte) : WriteEnd :=
  if offset + buffer.length ≤ blkData.length then
    .returned buffer.length
      (blkData.take offset ++ (buffer ++ blkData.drop (offset + buffer.length)))
  else .outside

/-- `ObjectStore::Write` on the block; `fits` are the sizes the allocator can give. -/
def writeObject (fits : Nat → Bool) (blkData : List Byte) (offset : Nat) (buffer : List Byte) :
    WriteEnd :=
  let size := (offset + buffer.length) % 2 ^ 64
  if blkData.length < size then
    if fits size then
      copyIn (blkData ++ List.replicate (size - blkData.length) 0) offset buffer
    else .thrown
  else copyIn blkData offset buffer

/-- The block after a sequence of writes, none of which went outside. -/
def writeAll (fits : Nat → Bool) : List (Nat × List Byte) → List Byte → Option (List Byte)
  | [], blkData => some blkData
  | (offset, buffer) :: writes, blkData =>
    match writeObject fits blkData offset buffer with
    | .returned _ blkData' => writeAll fits writes blkData'
    | .thrown => writeAll fits writes blkData
    | .outside => none

/-- What a write of `buffer` makes of the block. -/
structure Stored (blkData : List Byte) (offset : Nat) (buffer blkData' : List Byte) : Prop where
  length : blkData'.length = max blkData.length (offset + buffer.length)
  bytes : ∀ i, blkData'.getD i 0 =
    if offset ≤ i ∧ i < offset + buffer.length then buffer.getD (i - offset) 0
    else blkData.getD i 0

section Writes

variable {fits : Nat → Bool} {blkData blkData' buffer : List Byte} {offset ret : Nat}

/-- A write whose end does not wrap is that of `writeBlock`, or throws. -/
theorem writeObject_of_lt (h : offset + buffer.length < 2 ^ 64) :
    writeObject fits blkData offset buffer = .thrown ∨
      writeObject fits blkData offset buffer =
        .returned buffer.length (writeBlock blkData offset buffer) := by
  unfold writeObject writeBlock
  rw [Nat.mod_eq_of_lt h]
  by_cases hgrow : blkData.length < offset + buffer.length
  · simp only [if_pos hgrow]
    split
    · refine .inr (if_pos ?_)
      rw [length_append, length_replicate]
      omega
    · exact .inl rfl
  · simp only [if_neg hgrow]
    exact .inr (if_pos (Nat.not_lt.mp hgrow))

/-- One whose end wraps is outside, or throws. -/
theorem writeObject_of_le (hlen : blkData.length < 2 ^ 63)
    (hfits : ∀ n, fits n = true → n < 2 ^ 63) (h : 2 ^ 64 ≤ offset + buffer.length) :
    writeObject fits blkData offset buffer = .thrown ∨
      writeObject fits blkData offset buffer = .outside := by
  unfold writeObject
  dsimp only
  split
  · split
    · rename_i hfit
      have hsize := hfits _ hfit
      refine .inr (if_neg ?_)
      rw [length_append, length_replicate]
      omega
    · exact .inl rfl
  · exact .inr (if_neg (by omega))

theorem copyIn_length (h : copyIn blkData offset buffer = .returned ret blkData') :
    blkData'.length = blkData.length := by
  unfold copyIn at h
  split at h
  · cases h
    simp only [length_append, length_take, length_drop]
    omega
  · cases h

/-- Blocks stay below the `max_size` of a vector. -/
theorem writeAll_length (hfits : ∀ n, fits n = true → n < 2 ^ 63) {writes : List (Nat × List Byte)}
    (hlen : blkData.length < 2 ^ 63) (h : writeAll fits writes blkData = some blkData') :
    blkData'.length < 2 ^ 63 := by
  induction writes generalizing blkData with
  | nil =>
    cases h
    exact hlen
  | cons w writes ih =>
    obtain ⟨offset, buffer⟩ := w
    simp only [writeAll] at h
    split at h
    · rename_i ret next hw
      refine ih ?_ h
      unfold writeObject at hw
      dsimp only at hw
      split at hw
      · split at hw
        · rename_i hfit
          have hsize := hfits _ hfit
          rw [copyIn_length hw, length_append, length_replicate]
          omega
        · cases hw
      · rw [copyIn_length hw]
        exact hlen
    · exact ih hlen h
    · cases h

end Writes

/-- **An object is a byte map that is extended by zeros**, as long as the end of a write does not
wrap: a write goes outside the block if it does, and only then. -/
theorem object_is_byte_map {B : Type} [BackendStore B] {fits : Nat → Bool}
    (hfits : ∀ n, fits n = true → n < 2 ^ 63)
    {writes : List (Nat × List Byte)} {blkData : List Byte}
    (h : writeAll fits writes [] = some blkData) (offset : Nat) (buffer : List Byte) :
    (writeObject fits blkData offset buffer = .outside ↔
      2 ^ 64 ≤ offset + buffer.length ∧ writeObject fits blkData offset buffer ≠ .thrown) ∧
    ∀ ret blkData', writeObject fits blkData offset buffer = .returned ret blkData' →
      ret = buffer.length ∧ Stored blkData offset buffer blkData' ∧
      ∀ (store : B) (blkid : Nat), BackendStore.find store blkid = some blkData' →
        ∀ pos ≤ blkData'.length, ∀ size, BackendStore.read store blkid pos size =
          ⟨(min size (blkData'.length - pos) : Nat), (blkData'.drop pos).take size⟩ := by
  have hlen := writeAll_length hfits (by simp) h
  rcases Nat.lt_or_ge (offset + buffer.length) (2 ^ 64) with hlt | hge
  · have hin := @writeObject_of_lt fits blkData buffer offset hlt
    refine ⟨⟨fun hout => ?_, fun hw => absurd hlt (Nat.not_lt.mpr hw.1)⟩,
      fun ret blkData' hret => ?_⟩
    · rw [hout] at hin
      rcases hin with hin | hin <;> cases hin
    · rw [hret] at hin
      rcases hin with hin | hin
      · cases hin
      · cases hin
        obtain ⟨hl, hb⟩ := write_block blkData offset buffer
        refine ⟨rfl, ⟨hl, hb⟩, fun store blkid hs pos hpos size => ?_⟩
        simp only [BackendStore.read, hs]
        rw [if_neg (Nat.not_lt.mpr hpos), ← length_drop, ← take_eq_take_min]
  · rcases writeObject_of_le hlen hfits hge with hin | hin
    · rw [hin]
      exact ⟨⟨fun h => (by cases h), fun h => absurd rfl h.2⟩, fun _ _ h => by cases h⟩
    · rw [hin]
      exact ⟨⟨fun _ => ⟨hge, by simp⟩, fun _ => rfl⟩, fun _ _ h => by cases h⟩

/-- An allocator that gives a megabyte. -/
def megabyte (n : Nat) : Bool := n ≤ 2 ^ 20

theorem object_is_byte_map_gap :
    writeObject megabyte [7] 3 [8] = .returned 1 [7, 0, 0, 8] ∧ Stored [7] 3 [8] [7, 0, 0, 8] := by
  have hfits : ∀ n, megabyte n = true → n < 2 ^ 63 := fun n hn => by
    simp only [megabyte, decide_eq_true_eq] at hn
    omega
  have hret : writeObject megabyte [7] 3 [8] = .returned 1 [7, 0, 0, 8] := by decide
  have hrun : writeAll megabyte [(0, [7])] [] = some [7] := by decide
  have hmap := object_is_byte_map (B := Nat → Option (List Byte)) hfits hrun 3 [8]
  exact ⟨hret, (hmap.2 _ _ hret).2.1⟩

/-- A byte written at offset -1 goes in front of the block. -/
theorem wrapped_write_outside :
    ∃ writes blkData, writeAll megabyte writes [] = some blkData ∧
      writeObject megabyte blkData (2 ^ 64 - 1) [8] = .outside :=
  ⟨[(0, [7])], [7], by decide, by decide⟩

end StaxFS.Client
