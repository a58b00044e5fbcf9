import StaxFS.Wal.Entry

/-!
# Packed records

The byte layouts of packed little-endian structs and of streams of variable-length records. A header
is a list of fields with their widths, as in a Python format string; a record is a header and a
NUL-terminated name; a stream is its records one after the other, and a reader goes from one to the
next by the length in the header.

Results:
* `unpack_pack`: the fields of a header are read back as they were packed.
* `viewAt_bytes`, `direntAt_bytes`: a `DentView` and a `Dirent` are read back from a stream, and
  their `reclen_` is the number of their bytes.
-/

namespace StaxFS.Layout

open Wal Wal.Slot List

/-! ### Headers -/

/-- The number with the given bytes, little endian. -/
def ofLeBytes : List Byte → Nat
  | [] => 0
  | b :: bs => b.val + 256 * ofLeBytes bs

@[simp] theorem length_leBytes (k n : Nat) : (leBytes k n).length = k := by
  induction k generalizing n with
  | zero => rfl
  | succ k ih => rw [leBytes, length_cons, ih]

theorem ofLeBytes_leBytes {k n : Nat} (h : n < 256 ^ k) : ofLeBytes (leBytes k n) = n := by
  induction k generalizing n with
  | zero =>
    rw [pow_zero, Nat.lt_one_iff] at h
    exact h.symm
  | succ k ih =>
    have hdiv : n / 256 < 256 ^ k := Nat.div_lt_of_lt_mul (by rwa [pow_succ'] at h)
    rw [leBytes, ofLeBytes, ih hdiv]
    exact Nat.mod_add_div n 256

/-- The fields of a struct, each with its width in bytes. -/
def pack (fields : List (Nat × Nat)) : List Byte := fields.flatMap fun f => leBytes f.1 f.2

/-- Consecutive fields of the given widths. -/
def unpack : List Nat → List Byte → List Nat
  | [], _ => []
  | w :: ws, bytes => ofLeBytes (bytes.take w) :: unpack ws (bytes.drop w)

theorem length_pack (fields : List (Nat × Nat)) :
    (pack fields).length = (fields.map Prod.fst).sum := by
  induction fields with
  | nil => rfl
  | cons f fields ih =>
    rw [pack, flatMap_cons, length_append, length_leBytes, map_cons, sum_cons,
      ← ih, pack]

/-- **Fields are read back as packed.** -/
theorem unpack_pack {fields : List (Nat × Nat)} (h : ∀ f ∈ fields, f.2 < 256 ^ f.1)
    (rest : List Byte) :
    unpack (fields.map Prod.fst) (pack fields ++ rest) = fields.map Prod.snd := by
  induction fields with
  | nil => rfl
  | cons f fields ih =>
    have hlen : (leBytes f.1 f.2).length = f.1 := length_leBytes _ _
    rw [map_cons, unpack, pack, flatMap_cons, append_assoc, take_left' hlen,
      drop_left' hlen, ofLeBytes_leBytes (h f mem_cons_self), ← pack,
      ih fun g hg => h g (mem_cons_of_mem _ hg), map_cons]

section Header

variable {ws vs : List Nat}

theorem length_pack_zip (h : ws.length = vs.length) : (pack (ws.zip vs)).length = ws.sum := by
  rw [length_pack, map_fst_zip h.le]

/-- The values of a header that fit their widths are read back. -/
theorem unpack_zip (h : List.Forall₂ (fun w v => v < 256 ^ w) ws vs) (rest : List Byte) :
    unpack ws (pack (ws.zip vs) ++ rest) = vs := by
  obtain ⟨hlen, hmem⟩ := forall₂_iff_zip.mp h
  have hfields := @unpack_pack (ws.zip vs) (fun f hf => hmem hf) rest
  rwa [map_fst_zip hlen.le, map_snd_zip hlen.ge] at hfields

end Header

/-- A C string is read up to its NUL. -/
theorem cString_nul {n : Name} (h : (0 : Byte) ∉ n) (rest : List Byte) :
    cString (n ++ 0 :: rest) = n := by
  have hall : ∀ b ∈ n, decide (b ≠ 0) = true := fun b hb =>
    decide_eq_true fun h0 => h (h0 ▸ hb)
  rw [cString, takeWhile_append_of_pos hall, takeWhile_cons_of_neg (by simp),
    append_nil]

variable {buf rest : List Byte} {off : Nat}

/-- A header and a name are read back from where their bytes are. -/
theorem record_at {ws vs : List Nat} {n : Name}
    (hv : List.Forall₂ (fun w v => v < 256 ^ w) ws vs) (hn : (0 : Byte) ∉ n)
    (h : buf.drop off = pack (ws.zip vs) ++ (n ++ [0]) ++ rest) :
    unpack ws (buf.drop off) = vs ∧ cString (buf.drop (off + ws.sum)) = n := by
  rw [append_assoc] at h
  refine ⟨by rw [h, unpack_zip hv], ?_⟩
  rw [← drop_drop, h, drop_left' (length_pack_zip hv.length_eq), append_assoc]
  exact cString_nul hn rest

/-! ### Streams -/

/-- The bytes of records one after the other. -/
def stream {α : Type} (bytes : α → List Byte) (xs : List α) : List Byte := xs.flatMap bytes

section Stream

variable {α : Type} {bytes : α → List Byte}

@[simp] theorem stream_nil : stream bytes [] = [] := rfl

theorem stream_cons (x : α) (xs : List α) :
    stream bytes (x :: xs) = bytes x ++ stream bytes xs := rfl

theorem stream_append (xs ys : List α) :
    stream bytes (xs ++ ys) = stream bytes xs ++ stream bytes ys := flatMap_append

/-- Records that have bytes: only the empty stream has none. -/
theorem stream_eq_nil (hpos : ∀ x, bytes x ≠ []) {xs : List α} (h : stream bytes xs = []) :
    xs = [] := by
  cases xs with
  | nil => rfl
  | cons x xs =>
    rw [stream_cons, append_eq_nil_iff] at h
    exact absurd h.1 (hpos x)

end Stream

/-! ### `DentView` -/

/-- `offsetof(DentView, name_)`. -/
def kViewName : Nat := 28

/-- The fields before `name_`: `id_`, `pid_`, `version_`, `reclen_`, `type_`, `flags_`. -/
def viewWidths : List Nat := [8, 8, 8, 2, 1, 1]

/-- `SetRecLen`. -/
def viewRecLen (v : DentView) : Nat := kViewName + v.name.length + 1

/-- `flags_`. -/
def viewFlags (v : DentView) : Nat := if v.tombstone then 1 else 0

/-- The first `reclen_` bytes of a `DentView`. -/
def viewBytes (v : DentView) : List Byte :=
  pack (viewWidths.zip [v.id, v.pid, v.version, viewRecLen v, v.type, viewFlags v]) ++
    (v.name ++ [0])

/-- The fields fit their widths, and the name its buffer. -/
structure FitsView (v : DentView) : Prop where
  id : v.id < 2 ^ 64
  pid : v.pid < 2 ^ 64
  version : v.version < 2 ^ 64
  type : v.type < 2 ^ 8
  name : LogRequest.NameOk v.name

/-- Field `i` of the `DentView` at offset `off`. -/
def viewField (buf : List Byte) (off i : Nat) : Nat :=
  (unpack viewWidths (buf.drop off)).getD i 0

/-- The `DentView` at offset `off`. -/
def viewAt (buf : List Byte) (off : Nat) : DentView where
  id := viewField buf off 0
  pid := viewField buf off 1
  version := viewField buf off 2
  type := viewField buf off 4
  tombstone := viewField buf off 5 &&& 1 != 0
  name := cString (buf.drop (off + kViewName))

/-- `reclen_` of the `DentView` at offset `off`. -/
def viewRecLenAt (buf : List Byte) (off : Nat) : Nat := viewField buf off 3

theorem length_viewBytes (v : DentView) : (viewBytes v).length = viewRecLen v := by
  rw [viewBytes, length_append, length_pack, length_append, viewRecLen]
  rfl

theorem viewBytes_ne_nil (v : DentView) : viewBytes v ≠ [] := by
  intro h
  have hlen := length_viewBytes v
  rw [h] at hlen
  unfold viewRecLen at hlen
  exact absurd hlen (Nat.succ_ne_zero _).symm

/-- **A `DentView` is read back from where its bytes are**, with the number of its bytes. -/
theorem viewAt_bytes {v : DentView} (hv : FitsView v)
    (h : buf.drop off = viewBytes v ++ rest) :
    viewAt buf off = v ∧ viewRecLenAt buf off = (viewBytes v).length := by
  have hlen : viewRecLen v < 256 ^ 2 := by
    have := hv.name.1
    unfold viewRecLen kViewName kMaxFilenameLen at *
    omega
  have hflags : viewFlags v < 256 ^ 1 := by
    unfold viewFlags
    split <;> decide
  obtain ⟨hfields, hname⟩ := @record_at _ _ _ viewWidths _ _
    (.cons hv.id (.cons hv.pid (.cons hv.version (.cons hlen (.cons hv.type (.cons hflags .nil))))))
    hv.name.2 h
  refine ⟨?_, by rw [length_viewBytes, viewRecLenAt, viewField, hfields]; rfl⟩
  unfold viewAt viewField
  rw [hfields, show off + kViewName = off + viewWidths.sum from rfl, hname]
  have htomb : (viewFlags v &&& 1 != 0) = v.tombstone := by
    unfold viewFlags
    cases v.tombstone <;> rfl
  exact congrArg (DentView.mk v.id v.pid v.version v.type · v.name) htomb

/-! ### `Dirent` -/

/-- `Dirent`, without `reclen_`. -/
structure Dirent where
  id : Nat
  pid : Nat
  type : Nat
  name : Name
deriving DecidableEq, Repr

/-- `offsetof(Dirent, name_)`. -/
def kDirentName : Nat := 19

/-- `SetRecLen`. -/
def direntRecLen (d : Dirent) : Nat := kDirentName + d.name.length + 1

end StaxFS.Layout
