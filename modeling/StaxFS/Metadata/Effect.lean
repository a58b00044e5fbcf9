import StaxFS.Metadata.Resolve
import StaxFS.Metadata.Failure

/-!
# What a call does to the tables

The dirents, the inodes and the free ids of one server, and five changes of them: an entry is
unlinked, created, moved or linked, or a mode is set. A call that runs alone makes no change, or one
of these; a covering rename unlinks its target first. The invariants of the namespace are proved
from the changes, not from the calls.

Results, for paths of at least one name and a table that refuses no insert:
* `Unlinked.effect`, `Created.effect`, `Chmodded.effect`, `Renamed.effect`, `Linked.effect`: the
  tables after a call, with what the path resolved to.
-/

namespace StaxFS.Metadata

open Foundation Wal Cluster

/-- What the calls on one server work on, besides its log. -/
structure Tables where
  dirents : List Dirent
  inodes : Nat → Option Inode
  ids : IdPool

/-- The tables as server `srv` sees them. -/
def Cluster.tables (σ : Cluster) (srv : Nat) : Tables :=
  ⟨σ.dirents, σ.inodes, (σ.servers srv).ids⟩

/-- `update_fn` on the inode table. -/
def adjust (inodes : Nat → Option Inode) (id : Nat) (f : InodeFn) : Nat → Option Inode :=
  Function.update inodes id ((inodes id).map f.apply)

namespace Tables

variable (T : Tables)

/-- The entry `d` and one link of its inode `n` go, and the inode with its last link. -/
def unlink (d : Dirent) (n : Inode) : Tables :=
  let inodes := adjust (Function.update T.inodes d.id (some n.dropLink)) d.pid .extraDec
  { dirents := T.dirents.eraseP (Dirent.hasKey d.pid d.name)
    inodes := if n.dropLink.nlink = 0 then Function.update inodes d.id none else inodes
    ids := if n.dropLink.nlink = 0 then T.ids.free d.id else T.ids }

/-- A new inode under `name` in directory `pid`. -/
def create (mode uid gid : Nat) (isDir : Bool) (pid : Nat) (name : Name) : Tables where
  dirents := ⟨T.ids.allocate.1, pid, if isDir then DT_DIR else DT_REG, name⟩ :: T.dirents
  inodes := adjust (Function.update T.inodes T.ids.allocate.1
    (some ⟨1, newMode mode isDir, 0, uid, gid⟩)) pid .extraInc
  ids := T.ids.allocate.2

/-- An id is taken and given back. -/
def reallocate : Tables := { T with ids := T.ids.allocate.2.free T.ids.allocate.1 }

def setMode (id : Nat) (n : Inode) (mode : Nat) : Tables :=
  { T with inodes := Function.update T.inodes id (some { n with mode }) }

/-- The entry `d` moves to `name` in directory `pid`. -/
def move (d : Dirent) (pid : Nat) (name : Name) : Tables :=
  { T with
    dirents := d.moved pid name :: T.dirents.eraseP (Dirent.hasKey d.pid d.name)
    inodes := if d.pid = pid then T.inodes
      else adjust (adjust T.inodes d.pid .extraDec) pid .extraInc }

/-- The inode `n` of the entry `d` gets a second entry, `name` in directory `pid`. -/
def link (d : Dirent) (n : Inode) (pid : Nat) (name : Name) : Tables :=
  { T with
    dirents := d.moved pid name :: T.dirents
    inodes := adjust (Function.update T.inodes d.id
      (some { n with nlink := (n.nlink + 1) % 2 ^ 64 })) pid .extraInc }

end Tables

/-! ### The effect of a call -/

section Effects

variable (srv : Nat) (σ : Cluster)

/-- The dirent table finds a place for every insert. -/
def Env.Accepts (env : Env) : Prop := ∀ t, env.refuses t = false

/-- No entry names inode 0, as one that `LocateInode` did not fill in would. -/
def Cluster.IdsSet : Prop := ∀ d ∈ σ.dirents, d.id ≠ 0

/-- What `LocateInode` reports about the entry it ends in. -/
@[mk_iff] structure Located.EndsIn (l : Located) (d : Dirent) : Prop where
  ent : l.ent = some d
  id : l.id = d.id
  parent : l.parent = d.pid
  name : l.entName = d.name

inductive UnlinkEffect (path : Name) (isDir : Bool) : Tables → Prop
  | same : UnlinkEffect path isDir (σ.tables srv)
  | unlinked {d : Dirent} {n : Inode} : (σ.locate path 0).EndsIn d →
      lookup σ.dirents d.key = some d → σ.inodes d.id = some n → unlinkError isDir n = false →
      UnlinkEffect path isDir ((σ.tables srv).unlink d n)

inductive CreateEffect (path : Name) (mode uid gid : Nat) (isDir : Bool) : Tables → Prop
  | same : CreateEffect path mode uid gid isDir (σ.tables srv)
  | full : CreateEffect path mode uid gid isDir (σ.tables srv).reallocate
  | created : (σ.locate path 0).found = false → (σ.locate path 0).parent ≠ 0 →
      lookup σ.dirents ((σ.locate path 0).parent, (σ.locate path 0).newPath) = none →
      CreateEffect path mode uid gid isDir ((σ.tables srv).create mode uid gid isDir
        (σ.locate path 0).parent (σ.locate path 0).newPath)

inductive ChmodEffect (path : Name) (mode : Nat) : Tables → Prop
  | same : ChmodEffect path mode (σ.tables srv)
  | changed {n : Inode} : (σ.locate path 0).found = true → σ.inodes (σ.locate path 0).id = some n →
      ChmodEffect path mode ((σ.tables srv).setMode (σ.locate path 0).id n mode)

inductive LinkEffect (oldpath newpath : Name) : Tables → Prop
  | same : LinkEffect oldpath newpath (σ.tables srv)
  | linked {lcd : Nat} {d : Dirent} {n : Inode} : OldFound σ oldpath newpath lcd →
      (σ.oldRes oldpath lcd).EndsIn d → lookup σ.dirents d.key = some d →
      σ.inodes d.id = some n → (σ.newRes oldpath newpath lcd).found = false →
      (σ.newRes oldpath newpath lcd).parent ≠ 0 →
      lookup σ.dirents ((σ.newRes oldpath newpath lcd).parent,
        (σ.newRes oldpath newpath lcd).newPath) = none →
      LinkEffect oldpath newpath ((σ.tables srv).link d n (σ.newRes oldpath newpath lcd).parent
        (σ.newRes oldpath newpath lcd).newPath)

/-- What is known when a rename has unlinked the target it covers: `d` is the entry to move, `e` the
entry of the target, `n` the inode of the target. -/
structure Covered (env : Env) (oldpath newpath : Name) (lcd : Nat) (d e : Dirent) (n : Inode) :
    Prop where
  covers : Covers env σ oldpath newpath lcd
  old : (σ.oldRes oldpath lcd).EndsIn d
  old_mem : lookup σ.dirents d.key = some d
  target : (σ.locate newpath 0).EndsIn e
  target_mem : lookup σ.dirents e.key = some e
  inode : σ.inodes e.id = some n
  valid : unlinkError (σ.coversDir env oldpath newpath lcd) n = false

inductive RenameEffect (env : Env) (oldpath newpath : Name) : Tables → Prop
  | same : RenameEffect env oldpath newpath (σ.tables srv)
  | moved {lcd : Nat} {d : Dirent} : OldFound σ oldpath newpath lcd →
      (σ.oldRes oldpath lcd).EndsIn d → lookup σ.dirents d.key = some d →
      (σ.newRes oldpath newpath lcd).found = false →
      (σ.newRes oldpath newpath lcd).parent ≠ 0 →
      lookup σ.dirents ((σ.newRes oldpath newpath lcd).parent,
        (σ.newRes oldpath newpath lcd).newPath) = none →
      RenameEffect env oldpath newpath ((σ.tables srv).move d (σ.newRes oldpath newpath lcd).parent
        (σ.newRes oldpath newpath lcd).newPath)
  /-- the target is unlinked, and the rename fails -/
  | targetGone {lcd : Nat} {d e : Dirent} {n : Inode} : Covered σ env oldpath newpath lcd d e n →
      RenameEffect env oldpath newpath ((σ.tables srv).unlink e n)
  | covered {lcd : Nat} {d e : Dirent} {n : Inode} : Covered σ env oldpath newpath lcd d e n →
      (σ.resolveAgain oldpath newpath lcd).found = false →
      (σ.resolveAgain oldpath newpath lcd).parent ≠ 0 →
      lookup ((σ.tables srv).unlink e n).dirents ((σ.resolveAgain oldpath newpath lcd).parent,
        (σ.resolveAgain oldpath newpath lcd).newPath) = none →
      RenameEffect env oldpath newpath (((σ.tables srv).unlink e n).move d
        (σ.resolveAgain oldpath newpath lcd).parent (σ.resolveAgain oldpath newpath lcd).newPath)

end Effects

/-! ### The programs have these effects -/

namespace Cluster

variable {env : Env} {srv th : Nat} {σ : Cluster}

theorem updateFn_eq_adjust (id : Nat) (f : InodeFn) :
    (σ.updateFn id f).inodes = adjust σ.inodes id f := by
  funext i
  rw [updateFn_inodes, adjust, Function.update_apply]

@[simp] theorem append_tables (req : LogRequest) :
    (σ.append env srv th req).tables srv = σ.tables srv := by
  simp [tables]

@[simp] theorem entryOf_tables (l : Located) : (σ.entryOf env l).2.tables srv = σ.tables srv := by
  simp [tables]

@[simp] theorem beforeCover_tables (oldpath newpath : Name) (lcd : Nat) :
    (σ.beforeCover env oldpath newpath lcd).tables srv = σ.tables srv := by
  simp [tables]

theorem deleteEntry_inodes (name : Name) (pid : Nat) (u : Bool) :
    (σ.deleteEntry name pid u).inodes =
      if u then adjust σ.inodes pid .extraDec else σ.inodes := by
  cases u <;> simp [deleteEntry, erase, updateFn_eq_adjust]

theorem addEntry_inodes (d : Dirent) (pid : Nat) (u : Bool) : (σ.addEntry env d pid u).inodes =
      if u then adjust σ.inodes pid .extraInc else σ.inodes := by
  cases u <;> simp [addEntry, updateFn_eq_adjust]

theorem addEntry_dirents (h : env.Accepts) (d : Dirent) (pid : Nat) (u : Bool) :
    (σ.addEntry env d pid u).dirents = d :: σ.dirents := by
  cases u <;> simp [addEntry, insert, h _]

end Cluster

section Programs

variable {env : Env} {srv th : Nat} {σ σ' : Cluster} {r : Int} {path oldpath newpath : Name}
  {d : Dirent} {isDir : Bool} {oldRes res : Located} {name : Name} {n : Inode} {np mode : Nat}

theorem locate_endsIn {start : Nat} (hz : σ.IdsSet) (hc : components path ≠ [])
    (hf : (σ.locate path start).found = true) :
    ∃ d, (σ.locate path start).EndsIn d ∧ lookup σ.dirents d.key = some d := by
  obtain ⟨d, hent, hmem, hid, hpid, -⟩ := locate_found hz hc hf
  exact ⟨d, ⟨hent, hid, hpid, by rw [Located.entName, hent]; rfl⟩, hmem⟩

theorem Located.EndsIn.unlinked (h : res.EndsIn d) (hl : n.dropLink.nlink ≠ 0) :
    (σ.unlinked env srv th res n).tables srv = (σ.tables srv).unlink d n := by
  simp only [Cluster.tables, Tables.unlink, if_neg hl, Tables.mk.injEq]
  refine ⟨?_, ?_, ?_⟩
  · rw [unlinked_dirents, h.parent, h.name]
  · rw [Cluster.unlinked, deleteEntry_inodes, if_pos rfl, h.id, h.parent]
    simp [Cluster.setInode]
  · rw [unlinked_servers, append_ids]

theorem Located.EndsIn.removed {d : Dirent} (h : res.EndsIn d) (hl : n.dropLink.nlink = 0) :
    ((σ.unlinked env srv th res n).freeInode srv res.id).tables srv =
      (σ.tables srv).unlink d n := by
  simp only [Cluster.tables, Tables.unlink, if_pos hl, Tables.mk.injEq]
  refine ⟨?_, ?_, ?_⟩
  · rw [freeInode_dirents, unlinked_dirents, h.parent, h.name]
  · rw [Cluster.freeInode, Cluster.setInode, setIds_inodes, Cluster.unlinked,
      deleteEntry_inodes, if_pos rfl, h.id, h.parent]
    simp [Cluster.setInode]
  · rw [Cluster.freeInode, setInode_servers, setIds_ids, unlinked_servers,
      append_ids, h.id]

/-- A successful `Unlink` removes the entry. -/
theorem Unlinked.effect_of_zero
    (h : Unlinked env srv th σ path isDir 0 σ') (hz : σ.IdsSet) (hc : components path ≠ []) :
    ∃ d n, (σ.locate path 0).EndsIn d ∧ lookup σ.dirents d.key = some d ∧
      σ.inodes d.id = some n ∧ unlinkError isDir n = false ∧
      σ'.tables srv = (σ.tables srv).unlink d n := by
  generalize hr : (0 : Int) = r at h
  cases h with
  | dropped hf _ hn hok hl =>
    obtain ⟨d, hd, hmem⟩ := locate_endsIn hz hc hf
    exact ⟨d, _, hd, hmem, hd.id ▸ hn, hok, hd.unlinked hl⟩
  | removed hf _ hn hok hl =>
    obtain ⟨d, hd, hmem⟩ := locate_endsIn hz hc hf
    exact ⟨d, _, hd, hmem, hd.id ▸ hn, hok, hd.removed hl⟩
  | _ => exact absurd hr (by decide)

theorem Unlinked.tables_of_ne (h : Unlinked env srv th σ path isDir r σ') (hr : r ≠ 0) :
    σ'.tables srv = σ.tables srv := by
  cases h with
  | notFound _ => rfl
  | full _ _ => rfl
  | invalid _ _ _ => exact append_tables _
  | dropped _ _ _ _ _ | removed _ _ _ _ _ => exact absurd rfl hr

/-- **`Unlink` removes the entry its path ends in, or nothing.** -/
theorem Unlinked.effect (h : Unlinked env srv th σ path isDir r σ')
    (hz : σ.IdsSet) (hc : components path ≠ []) :
    UnlinkEffect srv σ path isDir (σ'.tables srv) := by
  by_cases hr : r = 0
  · subst hr
    obtain ⟨d, n, hd, hmem, hn, hok, ht⟩ := h.effect_of_zero hz hc
    rw [ht]
    exact .unlinked hd hmem hn hok
  · rw [h.tables_of_ne hr]
    exact .same

/-- **`Create` adds an entry and an inode, or nothing.** -/
theorem Created.effect {uid gid : Nat}
    (h : Created env srv th σ path mode uid gid isDir r σ') (hins : env.Accepts) :
    CreateEffect srv σ path mode uid gid isDir (σ'.tables srv) := by
  cases h with
  | @full id ids _ _ halloc _ _ =>
    have : (σ.setIds srv (ids.free id)).tables srv = (σ.tables srv).reallocate := by
      simp [Cluster.tables, Tables.reallocate, halloc]
    rw [this]
    exact .full
  | @created id ids hp hf halloc _ _ =>
    have : Cluster.tables ((((σ.setIds srv ids).append env srv th
        (createRequest id mode uid gid isDir (σ.locate path 0))).setInode id
        (some ⟨1, newMode mode isDir, 0, uid, gid⟩)).addEntry env
          (newEntry id isDir (σ.locate path 0)) (σ.locate path 0).parent true) srv =
        (σ.tables srv).create mode uid gid isDir (σ.locate path 0).parent
          (σ.locate path 0).newPath := by
      simp [Cluster.tables, Tables.create, halloc, addEntry_dirents hins,
        addEntry_inodes, Cluster.setInode, newEntry]
    rw [this]
    exact .created hf hp (locate_missing hf hp)
  | _ => exact .same

/-- **`Chmod` sets the mode of the inode its path ends in, or changes nothing.** -/
theorem Chmodded.effect (h : Chmodded env srv th σ path mode r σ') :
    ChmodEffect srv σ path mode (σ'.tables srv) := by
  cases h with
  | notFound _ | full _ _ _ => exact .same
  | noInode _ _ _ _ =>
    rw [append_tables]
    exact .same
  | @changed n hf _ _ hn =>
    have : ((σ.append env srv th (.setattr (σ.locate path 0).id mode)).setInode
        (σ.locate path 0).id (some { n with mode })).tables srv =
        (σ.tables srv).setMode (σ.locate path 0).id n mode := by
      simp [Cluster.tables, Tables.setMode, Cluster.setInode]
    rw [this]
    exact .changed hf hn

/-- The end of a rename moves the entry, or nothing. -/
theorem Moved.effect_rename
    (h : Moved env srv th σ false oldRes d np name r σ') (hins : env.Accepts)
    (hd : oldRes.EndsIn d) :
    σ'.tables srv = σ.tables srv ∨ np ≠ 0 ∧ σ'.tables srv = (σ.tables srv).move d np name := by
  cases h with
  | noParent _ | full _ _ => exact .inl rfl
  | renamed hp _ _ _ =>
    refine .inr ⟨hp, ?_⟩
    rw [hd.parent]
    by_cases hsame : d.pid = np <;>
    simp [Cluster.tables, Tables.move, addEntry_dirents hins, addEntry_inodes,
      deleteEntry_inodes, hsame]
  | noInode _ hl _ _ | linked _ _ hl _ _ => cases hl

/-- The end of a link adds an entry, or nothing. -/
theorem Moved.effect_link (h : Moved env srv th σ true oldRes d np name r σ') (hins : env.Accepts)
    (hd : oldRes.EndsIn d) : σ'.tables srv = σ.tables srv ∨ np ≠ 0 ∧ ∃ n, σ.inodes d.id = some n ∧
      σ'.tables srv = (σ.tables srv).link d n np name := by
  cases h with
  | noParent _ | full _ _ => exact .inl rfl
  | renamed _ _ hl _ => cases hl
  | noInode _ _ _ _ => exact .inl (append_tables _)
  | @linked n hp _ _ _ hn =>
    rw [hd.id] at hn
    refine .inr ⟨hp, n, hn, ?_⟩
    rw [hd.id]
    simp [Cluster.tables, Tables.link, addEntry_dirents hins, addEntry_inodes,
      Cluster.setInode]

theorem entryOf_endsIn {l : Located} (h : l.EndsIn d) : σ.entryOf env l = (d, σ) := by
  simp [Cluster.entryOf, h.ent]

/-- The old path of a rename names something below the last common slash. -/
def OldNamed (oldpath newpath : Name) : Prop :=
  ∀ lcd, lastCommonDir oldpath newpath = some lcd → components (oldpath.drop lcd) ≠ []

theorem OldFound.endsIn {lcd : Nat} (h : OldFound σ oldpath newpath lcd)
    (hz : σ.IdsSet) (hp : OldNamed oldpath newpath) :
    ∃ d, (σ.oldRes oldpath lcd).EndsIn d ∧ lookup σ.dirents d.key = some d :=
  locate_endsIn hz (hp lcd h.lcd_eq) h.old

/-- **`Rename` moves an entry, after the one it covers is unlinked, or does nothing.** It can also
fail with the covered entry gone. -/
theorem Renamed.effect
    (h : Renamed env srv th σ oldpath newpath false r σ') (hins : env.Accepts) (hz : σ.IdsSet)
    (hp : OldNamed oldpath newpath) (hnew : components newpath ≠ []) :
    RenameEffect srv σ env oldpath newpath (σ'.tables srv) := by
  have hsame : ∀ {σ' : Cluster}, σ'.tables srv = σ.tables srv →
      RenameEffect srv σ env oldpath newpath (σ'.tables srv) := fun he => he ▸ .same
  -- what is known when the target has been unlinked
  have hcover : ∀ {lcd : Nat} {σ₁ : Cluster}, Covers env σ oldpath newpath lcd →
      Unlinked env srv th (σ.beforeCover env oldpath newpath lcd) newpath
        (σ.coversDir env oldpath newpath lcd) 0 σ₁ →
      ∃ d e n, Covered σ env oldpath newpath lcd d e n ∧
        σ₁.tables srv = (σ.tables srv).unlink e n := by
    intro lcd σ₁ hc hu
    obtain ⟨d, hd, hmem⟩ := hc.toOldFound.endsIn hz hp
    have hz' : (σ.beforeCover env oldpath newpath lcd).IdsSet := by
      rwa [Cluster.IdsSet, beforeCover_dirents]
    obtain ⟨e, n, he, hemem, hn, hok, ht⟩ := hu.effect_of_zero hz' hnew
    rw [locate_beforeCover] at he
    rw [beforeCover_dirents] at hemem
    rw [beforeCover_inodes] at hn
    rw [beforeCover_tables] at ht
    exact ⟨d, e, n, ⟨hc, hd, hmem, he, hemem, hn, hok⟩, ht⟩
  cases h with
  | noCommonDir _ _ | noOldPath _ _ _ => exact .same
  | linkExists _ hl _ => cases hl
  | mismatch _ _ _ _ => exact hsame (beforeCover_tables ..)
  | coverFull _ _ hu | coverFailed _ _ hu =>
    exact hsame ((hu.tables_of_ne (by decide)).trans (beforeCover_tables ..))
  | stillPresent hc _ hu _ =>
    obtain ⟨d, e, n, hcov, ht⟩ := hcover hc hu
    rw [ht]
    exact .targetGone hcov
  | @covered lcd σ₁ _ _ hc _ hu hf hm =>
    obtain ⟨d, e, n, hcov, ht⟩ := hcover hc hu
    rw [entryOf_endsIn hcov.old] at hm
    have hagain := (hu.done rfl).resolveAgain
    rcases hm.effect_rename hins hcov.old with hm | ⟨hnp, hm⟩
    · rw [hm, ht]
      exact .targetGone hcov
    · have hmiss := locate_missing hf hnp
      rw [hagain] at hf hnp hmiss hm
      rw [hm, ht]
      exact .covered hcov hf hnp ((congrArg Tables.dirents ht) ▸ hmiss)
  | @moved lcd _ _ hold hf hm =>
    obtain ⟨d, hd, hmem⟩ := hold.endsIn hz hp
    rw [entryOf_endsIn hd] at hm
    rcases hm.effect_rename hins hd with hm | ⟨hnp, hm⟩
    · exact hsame hm
    · rw [hm]
      exact .moved hold hd hmem hf hnp (locate_missing hf hnp)

/-- **`Link` adds an entry for the inode the old path ends in, or nothing.** -/
theorem Linked.effect
    (h : Renamed env srv th σ oldpath newpath true r σ') (hins : env.Accepts) (hz : σ.IdsSet)
    (hp : OldNamed oldpath newpath) : LinkEffect srv σ oldpath newpath (σ'.tables srv) := by
  cases h with
  | noCommonDir _ _ => exact .same
  | noOldPath _ _ _ => exact .same
  | linkExists _ _ _ =>
    rw [entryOf_tables]
    exact .same
  | mismatch _ hl _ _ | coverFull _ hl _ | coverFailed _ hl _ | stillPresent _ hl _ _
  | covered _ hl _ _ _ => cases hl
  | @moved lcd _ _ hold hf hm =>
    obtain ⟨d, hd, hmem⟩ := hold.endsIn hz hp
    rw [entryOf_endsIn hd] at hm
    rcases hm.effect_link hins hd with hm | ⟨hnp, n, hn, hm⟩
    · rw [hm]
      exact .same
    · rw [hm]
      exact .linked hold hd hmem hn hf hnp (locate_missing hf hnp)

end Programs

end StaxFS.Metadata
