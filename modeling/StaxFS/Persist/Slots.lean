import StaxFS.Persist.Region

/-!
# The places of the inodes in the flash region

`PageOffset` and `InPageOffset` of `SSDInodeRegion` (`server/cxl_persistence.h`). The region is used
by inode id elsewhere in this development; here are the places themselves. An id has the slot
`inode_id % max_inodes_`, whatever the number of inodes the inode array of the server can hold, and
the id in the record is only compared with 0.

Results:
* `private_iff`: the calls for two ids leave each other's record alone exactly if the ids differ
  modulo `max_inodes_`.
* `slot_shared`: two ids of one server, both within the inode array, that do not.
-/

namespace StaxFS.Persist.SSDInodeRegion

open Metadata Function

def kSlotSize : Nat := 128

def kPageSize : Nat := 4096

def kSlotsPerPage : Nat := kPageSize / kSlotSize

/-- `max_inodes_`. -/
def maxInodes (capacity : Nat) : Nat := capacity / kSlotSize

def pageOffset (capacity inodeId : Nat) : Nat :=
  inodeId % maxInodes capacity / kSlotsPerPage * kPageSize

def inPageOffset (capacity inodeId : Nat) : Nat :=
  inodeId % maxInodes capacity % kSlotsPerPage * kSlotSize

/-- The first byte of the record of an inode. -/
def place (capacity inodeId : Nat) : Nat :=
  pageOffset capacity inodeId + inPageOffset capacity inodeId

/-- `capacity_bytes`: `CXLSSD_INODE_REGION_GB` is 16. -/
def regionBytes : Nat := 16 * 2 ^ 30

/-- The inodes that an inode array can hold: `kMaxSegments` segments of `kSlotsPerSegment`. -/
def arraySlots : Nat := 1024 * 2 ^ 20

variable {capacity i j : Nat}

theorem place_eq : place capacity i = i % maxInodes capacity * kSlotSize := by
  simp only [place, pageOffset, inPageOffset, kSlotsPerPage, kPageSize, kSlotSize]
  omega

/-- The calls for inode `i` and the record of inode `j`, in a region given by the places of its
records. -/
structure Private (capacity i j : Nat) : Prop where
  /-- the records have no byte in common -/
  apart : place capacity i + kSlotSize ≤ place capacity j ∨
    place capacity j + kSlotSize ≤ place capacity i
  write : ∀ r n, writeInode r (place capacity i) n (place capacity j) = r (place capacity j)
  mutate : ∀ r f, (mutateInode r (place capacity i) f).1 (place capacity j) = r (place capacity j)
  /-- what `MutateInode` returns and writes does not depend on the other record -/
  reads : ∀ r n f,
    (mutateInode (writeInode r (place capacity j) n) (place capacity i) f).2 =
        (mutateInode r (place capacity i) f).2 ∧
      (mutateInode (writeInode r (place capacity j) n) (place capacity i) f).1 (place capacity i) =
        (mutateInode r (place capacity i) f).1 (place capacity i)

/-- **Slots are private exactly if the ids differ modulo the number of slots.** -/
theorem private_iff : Private capacity i j ↔ i % maxInodes capacity ≠ j % maxInodes capacity := by
  refine ⟨fun h heq => ?_, fun hne => ?_⟩
  · have := h.apart
    rw [place_eq, place_eq, heq] at this
    simp only [kSlotSize] at this
    omega
  · have hapart : place capacity i + kSlotSize ≤ place capacity j ∨
        place capacity j + kSlotSize ≤ place capacity i := by
      rw [place_eq, place_eq]
      simp only [kSlotSize]
      omega
    have hplace : place capacity j ≠ place capacity i := by
      simp only [kSlotSize] at hapart
      omega
    refine ⟨hapart, fun r n => ?_, fun r f => ?_, fun r n f => ?_⟩
    · rw [writeInode, update_of_ne hplace]
    · unfold mutateInode writeInode
      split
      · rfl
      · simp only [update_of_ne hplace]
    · simp only [mutateInode, writeInode, update_of_ne hplace.symm]
      split
      · simp only [update_of_ne hplace.symm, and_self]
      · simp only [update_self, and_self]

/-- **Two inodes of server 0 with one slot**: the first id that `AllocateInodeId` gives out, and one
that the array still holds with it. What is written for one is the record of the other. -/
theorem slot_shared :
    ∃ i j, kRootId < i ∧ i < j ∧ j < arraySlots ∧ ¬Private regionBytes i j ∧
      ∀ r n, writeInode r (place regionBytes i) n (place regionBytes j) = n := by
  have hmod : 3 % maxInodes regionBytes = (3 + 2 ^ 27) % maxInodes regionBytes := by decide
  refine ⟨3, 3 + 2 ^ 27, by decide, by decide, by decide, fun h => private_iff.mp h hmod, ?_⟩
  intro r n
  rw [place_eq, place_eq, hmod]
  rw [writeInode, update_self]

end StaxFS.Persist.SSDInodeRegion
