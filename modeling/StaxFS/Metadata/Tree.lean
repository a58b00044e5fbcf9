import StaxFS.Foundation.Walk
import StaxFS.Metadata.Links

/-!
# The shape of the namespace

The namespace should be rooted: the root is there, entries have a name and stand in live
directories, every live inode is reached from the root, and `extra_` of a directory counts its
entries. `Metadata` checks little of this. `LocateInode` goes through any inode, so a new entry can
stand below a file; a second slash makes an empty name; `Rmdir` takes the root; `Chmod` writes the
type bits; `Rename` moves a directory into its own subtree.

Results:
* `TreeInv.drop`, `TreeInv.remove`, `TreeInv.create`, `TreeInv.add`, `TreeInv.rekey`: what the
  changes of an entry keep, and under which conditions.
* `namespace_rooted`: the shape holds in every state of a run whose calls respect it (`TreeSafe`).
-/

namespace StaxFS.Metadata

open Foundation Wal List Option
open Function (update_eq_self update_of_ne update_self)

/-! ### The invariant -/

/-- The number of entries of directory `id`. -/
def children (ds : List Dirent) (id : Nat) : Nat := ds.countP (·.pid == id)

/-- An inode is reached from another one by entries. -/
abbrev Reaches (ds : List Dirent) : Nat → Nat → Prop := Walk Dirent.pid Dirent.id ds

/-- Of every live inode, whether it is a directory, and its `extra_`. -/
abbrev Shape := Nat → Option (Bool × Nat)

/-- `id` is a live directory. -/
def Shape.Dir (sh : Shape) (id : Nat) : Prop := ∃ e, sh id = some (true, e)

/-- `extra_` of live inodes is `c`. -/
def Shape.Counts (sh : Shape) (c : Nat → Nat) : Prop :=
  ∀ id b e, sh id = some (b, e) → e = c id ∧ e < 2 ^ 32

/-- `extra_` of one inode changes. -/
def Shape.bump (sh : Shape) (p : Nat) (f : Nat → Nat) : Shape :=
  Function.update sh p ((sh p).map fun x => (x.1, f x.2))

/-- The additions and subtractions on the 32 bits of `extra_`. -/
def extraUp (e : Nat) : Nat := (e + 1) % 2 ^ 32
def extraDown (e : Nat) : Nat := (2 ^ 32 - 1 + e) % 2 ^ 32

/-- The invariant of entries `ds` and inodes `sh`. -/
structure TreeInv (ds : List Dirent) (sh : Shape) : Prop where
  root : sh.Dir kRootId
  parents : ∀ d ∈ ds, sh.Dir d.pid
  names : ∀ d ∈ ds, d.name ≠ []
  reached : ∀ id, (sh id).isSome = true → Reaches ds kRootId id
  counted : sh.Counts (children ds)

theorem children_cons (d : Dirent) (ds : List Dirent) (id : Nat) :
    children (d :: ds) id = children ds id + if id = d.pid then 1 else 0 := by
  simp only [children, countP_cons, beq_iff_eq, eq_comm (a := id)]

theorem children_sublist {ds ds' : List Dirent} (h : ds'.Sublist ds) (id : Nat) :
    children ds' id ≤ children ds id := h.countP_le

variable {id : Nat} {m : Nat → Option Inode} {isDir : Bool}

theorem children_eq_zero {ds : List Dirent} (h : ∀ d ∈ ds, d.pid ≠ id) : children ds id = 0 :=
  countP_eq_zero.mpr fun d hd => by simpa using h d hd

namespace Shape

variable {sh : Shape} {p id : Nat} {f : Nat → Nat} {c c' : Nat → Nat}

@[simp] theorem bump_isSome : (sh.bump p f id).isSome = (sh id).isSome := by
  unfold bump
  by_cases he : id = p
  · rw [he, update_self, isSome_map]
  · rw [update_of_ne he]

theorem Dir.bump (h : sh.Dir id) : (sh.bump p f).Dir id := by
  obtain ⟨e, he⟩ := h
  by_cases hp : id = p
  · exact ⟨f e, by rw [Shape.bump, hp, update_self, ← hp, he]; rfl⟩
  · exact ⟨e, by rw [Shape.bump, update_of_ne hp, he]⟩

theorem Dir.isSome (h : sh.Dir id) : (sh id).isSome = true := by
  obtain ⟨e, he⟩ := h
  rw [he]
  rfl

theorem Dir.update {x : Option (Bool × Nat)} (h : sh.Dir id) (hne : id ≠ p) :
    Shape.Dir (Function.update sh p x) id := by
  obtain ⟨e, he⟩ := h
  exact ⟨e, by rw [update_of_ne hne, he]⟩

/-- A count changes along with `extra_`. -/
theorem Counts.bump (h : sh.Counts c) (hother : ∀ i, i ≠ p → c' i = c i)
    (hp : c p < 2 ^ 32 → f (c p) = c' p ∧ f (c p) < 2 ^ 32) : (sh.bump p f).Counts c' := by
  intro i b e he
  unfold Shape.bump at he
  by_cases hi : i = p
  · rw [hi, update_self, map_eq_some_iff] at he
    obtain ⟨⟨b', e'⟩, hsh, heq⟩ := he
    obtain ⟨rfl, hlt⟩ := h p b' e' hsh
    cases heq
    rw [hi]
    exact hp hlt
  · rw [update_of_ne hi] at he
    rw [hother i hi]
    exact h i b e he

theorem Counts.update {b : Bool} {e : Nat} (h : sh.Counts c) (he : e = c p) (hlt : e < 2 ^ 32) :
    Shape.Counts (Function.update sh p (some (b, e))) c := by
  intro i b' e' hi
  by_cases hp : i = p
  · rw [hp, update_self] at hi
    cases hi
    rw [hp]
    exact ⟨he, hlt⟩
  · rw [update_of_ne hp] at hi
    exact h i b' e' hi

theorem Counts.update_none (h : sh.Counts c) : Shape.Counts (Function.update sh p none) c := by
  intro i b e hi
  by_cases hp : i = p
  · rw [hp, update_self] at hi
    cases hi
  · rw [update_of_ne hp] at hi
    exact h i b e hi

end Shape

/-! ### Changes of an entry -/

namespace TreeInv

variable {ds ds' : List Dirent} {sh : Shape} {d e : Dirent} {b : Bool}

theorem perm (h : TreeInv ds sh) (hp : ds.Perm ds') : TreeInv ds' sh where
  root := h.root
  parents d hd := h.parents d (hp.mem_iff.mpr hd)
  names d hd := h.names d (hp.mem_iff.mpr hd)
  reached id hid := (h.reached id hid).perm hp
  counted id b e he := by
    rw [children, ← hp.countP_eq]
    exact h.counted id b e he

/-- One entry less, and one child less. -/
theorem counts_down (h : TreeInv (d :: ds) sh) :
    (sh.bump d.pid extraDown).Counts (children ds) := by
  refine h.counted.bump (fun i hi => by rw [children_cons, if_neg hi]; rfl) fun hlt => ?_
  rw [children_cons, if_pos rfl] at hlt ⊢
  unfold extraDown
  omega

/-- One entry more, and one child more. -/
theorem counts_up (h : sh.Counts (children ds)) (hroom : children ds d.pid + 1 < 2 ^ 32) :
    (sh.bump d.pid extraUp).Counts (children (d :: ds)) := by
  refine h.bump (fun i hi => by rw [children_cons, if_neg hi]; rfl) fun _ => ?_
  rw [children_cons, if_pos rfl, extraUp, Nat.mod_eq_of_lt hroom]
  exact ⟨rfl, hroom⟩

/-- An entry of a leaf goes, and the leaf has another one. -/
theorem drop (h : TreeInv (d :: ds) sh) (hleaf : ∀ c ∈ d :: ds, c.pid ≠ d.id)
    (hother : ∃ c ∈ ds, c.id = d.id) : TreeInv ds (sh.bump d.pid extraDown) where
  root := h.root.bump
  parents c hc := (h.parents c (mem_cons_of_mem _ hc)).bump
  names c hc := h.names c (mem_cons_of_mem _ hc)
  counted := h.counts_down
  reached id hid := by
    rw [Shape.bump_isSome] at hid
    by_cases hne : id = d.id
    · obtain ⟨c, hc, hcid⟩ := hother
      have hc' := mem_cons_of_mem d hc
      have hparent : Reaches ds kRootId c.pid :=
        (h.reached c.pid (h.parents c hc').isSome).drop_leaf hleaf (hleaf c hc')
      rw [hne, ← hcid]
      exact hparent.snoc hc
    · exact (h.reached id hid).drop_leaf hleaf hne

/-- The last entry of a leaf goes, and the leaf with it. -/
theorem remove (h : TreeInv (d :: ds) sh) (hleaf : ∀ c ∈ d :: ds, c.pid ≠ d.id)
    (hroot : d.id ≠ kRootId) :
    TreeInv ds (Function.update (sh.bump d.pid extraDown) d.id none) where
  root := h.root.bump.update (Ne.symm hroot)
  parents c hc := (h.parents c (mem_cons_of_mem _ hc)).bump.update
    (hleaf c (mem_cons_of_mem _ hc))
  names c hc := h.names c (mem_cons_of_mem _ hc)
  counted := h.counts_down.update_none
  reached id hid := by
    have hne : id ≠ d.id := by
      rintro rfl
      rw [update_self] at hid
      cases hid
    rw [update_of_ne hne, Shape.bump_isSome] at hid
    exact (h.reached id hid).drop_leaf hleaf hne

/-- A new inode without children, with one entry. -/
theorem create (h : TreeInv ds sh) (hfresh : sh d.id = none) (hdir : sh.Dir d.pid)
    (hname : d.name ≠ []) (hroom : children ds d.pid + 1 < 2 ^ 32) :
    TreeInv (d :: ds) (Shape.bump (Function.update sh d.id (some (b, 0))) d.pid extraUp) := by
  have hne : ∀ {id}, sh.Dir id → id ≠ d.id := by
    rintro id hid rfl
    rw [Shape.Dir, hfresh] at hid
    obtain ⟨e, he⟩ := hid
    cases he
  have hnew : Reaches (d :: ds) kRootId d.id :=
    ((h.reached d.pid hdir.isSome).mono fun _ hc => mem_cons_of_mem d hc).snoc
      mem_cons_self
  refine ⟨(h.root.update (hne h.root)).bump, forall_mem_cons.mpr ⟨?_, fun c hc => ?_⟩,
    forall_mem_cons.mpr ⟨hname, h.names⟩, fun id hid => ?_, ?_⟩
  · exact (hdir.update (hne hdir)).bump
  · exact ((h.parents c hc).update (hne (h.parents c hc))).bump
  · rw [Shape.bump_isSome] at hid
    by_cases hid' : id = d.id
    · exact hid' ▸ hnew
    · rw [update_of_ne hid'] at hid
      exact (h.reached id hid).mono fun _ hc => mem_cons_of_mem d hc
  · have hzero : children ds d.id = 0 := children_eq_zero fun c hc => hne (h.parents c hc)
    exact counts_up (h.counted.update hzero.symm (by decide)) hroom

/-- One more entry for a live inode. -/
theorem add (h : TreeInv ds sh) (hdir : sh.Dir d.pid) (hname : d.name ≠ [])
    (hroom : children ds d.pid + 1 < 2 ^ 32) : TreeInv (d :: ds) (sh.bump d.pid extraUp) where
  root := h.root.bump
  parents := forall_mem_cons.mpr ⟨hdir.bump, fun c hc => (h.parents c hc).bump⟩
  names := forall_mem_cons.mpr ⟨hname, h.names⟩
  reached id hid := by
    rw [Shape.bump_isSome] at hid
    exact (h.reached id hid).mono fun _ hc => mem_cons_of_mem d hc
  counted := counts_up h.counted hroom

/-- An entry moves to a directory that is not below its inode. -/
theorem rekey (h : TreeInv (d :: ds) sh) (hid : e.id = d.id) (hdir : sh.Dir e.pid)
    (hname : e.name ≠ []) (hnot : ¬Reaches (d :: ds) d.id e.pid)
    (hroom : children (d :: ds) e.pid + 1 < 2 ^ 32) : TreeInv (e :: ds) (if d.pid = e.pid then sh
      else (sh.bump d.pid extraDown).bump e.pid extraUp) := by
  have hreach : ∀ id, (sh id).isSome = true → Reaches (e :: ds) kRootId id := fun id hlive =>
    (h.reached id hlive).redirect hid (h.reached e.pid hdir.isSome) hnot
  have hnames : ∀ c ∈ e :: ds, c.name ≠ [] :=
    forall_mem_cons.mpr ⟨hname, (forall_mem_cons.mp h.names).2⟩
  have hparents : ∀ c ∈ e :: ds, sh.Dir c.pid :=
    forall_mem_cons.mpr ⟨hdir, (forall_mem_cons.mp h.parents).2⟩
  split
  · rename_i hsame
    refine ⟨h.root, hparents, hnames, hreach, fun id b x hx => ?_⟩
    rw [children_cons, ← hsame, ← children_cons]
    exact h.counted id b x hx
  · rename_i hother
    refine ⟨h.root.bump.bump, fun c hc => (hparents c hc).bump.bump, hnames, fun id hlive => ?_,
      counts_up h.counts_down ?_⟩
    · simp only [Shape.bump_isSome] at hlive
      exact hreach id hlive
    · rwa [children_cons, if_neg (Ne.symm hother)] at hroom

/-- A file may become a directory, not the other way round. -/
theorem retype {x : Nat} {b' : Bool} (h : TreeInv ds sh) (hid : sh id = some (b, x))
    (hkeep : b = true → b' = true) : TreeInv ds (Function.update sh id (some (b', x))) := by
  have hdir : ∀ {i}, sh.Dir i → Shape.Dir (Function.update sh id (some (b', x))) i := by
    intro i hi
    by_cases he : i = id
    · obtain ⟨y, hy⟩ := hi
      rw [he, hid] at hy
      cases hy
      exact ⟨x, by rw [he, update_self, hkeep rfl]⟩
    · exact hi.update he
  refine ⟨hdir h.root, fun d hd => hdir (h.parents d hd), h.names, fun i hi => h.reached i ?_,
    h.counted.update (h.counted id b x hid).1 (h.counted id b x hid).2⟩
  by_cases he : i = id
  · rw [he, hid]
    rfl
  · rwa [update_of_ne he] at hi

end TreeInv

/-! ### The changes keep the invariant -/

/-- The shape of an inode table. -/
def shapeOf (m : Nat → Option Inode) : Shape := fun id => (m id).map fun n => (n.isDir, n.extra)

theorem shapeOf_eq {n : Inode} (h : m id = some n) : shapeOf m id = some (n.isDir, n.extra) := by
  rw [shapeOf, h, map_some]

theorem shapeOf_dir : (shapeOf m).Dir id ↔ ∃ n, m id = some n ∧ n.isDir = true := by
  constructor
  · rintro ⟨e, he⟩
    obtain ⟨n, hn, heq⟩ := map_eq_some_iff.mp he
    exact ⟨n, hn, congrArg Prod.fst heq⟩
  · rintro ⟨n, hn, hdir⟩
    exact ⟨n.extra, by rw [shapeOf_eq hn, hdir]⟩

theorem shapeOf_update (m : Nat → Option Inode) (p : Nat) (x : Option Inode) :
    shapeOf (Function.update m p x) =
      Function.update (shapeOf m) p (x.map fun n => (n.isDir, n.extra)) := by
  funext id
  unfold shapeOf
  by_cases he : id = p
  · rw [he, update_self, update_self]
  · rw [update_of_ne he, update_of_ne he]

/-- A change that neither the type nor `extra_` sees. -/
theorem shapeOf_update_same {p : Nat} {n n' : Inode} (h : m p = some n)
    (hsame : (n'.isDir, n'.extra) = (n.isDir, n.extra)) :
    shapeOf (Function.update m p (some n')) = shapeOf m := by
  rw [shapeOf_update, map_some, hsame, ← shapeOf_eq h, update_eq_self]

theorem shapeOf_adjust (m : Nat → Option Inode) (p : Nat) (fn : InodeFn) {f : Nat → Nat}
    (hf : ∀ n, ((fn.apply n).isDir, (fn.apply n).extra) = (n.isDir, f n.extra)) :
    shapeOf (adjust m p fn) = (shapeOf m).bump p f := by
  rw [adjust, shapeOf_update, Shape.bump]
  congr 1
  rw [shapeOf, Option.map_map, Option.map_map]
  exact congrArg (fun g => (m p).map g) (funext hf)

theorem shapeOf_adjust_inc (m : Nat → Option Inode) (p : Nat) :
    shapeOf (adjust m p .extraInc) = (shapeOf m).bump p extraUp :=
  shapeOf_adjust m p .extraInc fun _ => by simp only [InodeFn.apply, Inode.isDir, extraUp]

theorem shapeOf_adjust_dec (m : Nat → Option Inode) (p : Nat) :
    shapeOf (adjust m p .extraDec) = (shapeOf m).bump p extraDown :=
  shapeOf_adjust m p .extraDec fun _ => by simp only [InodeFn.apply, Inode.isDir, extraDown]

/-- Link counts and shape together. -/
structure Tables.Rooted (T : Tables) : Prop where
  linked : T.Linked
  tree : TreeInv T.dirents (shapeOf T.inodes)

namespace Tables.Rooted

variable {T : Tables} {d e : Dirent} {n : Inode} {pid : Nat} {name : Name}

section

variable (h : T.Rooted)

include h

/-- An inode that can be unlinked has no entries. -/
theorem leaf (hn : T.inodes d.id = some n)
    (hok : unlinkError isDir n = false) : ∀ c ∈ T.dirents, c.pid ≠ d.id := by
  intro c hc hpid
  obtain ⟨x, hx⟩ := h.tree.parents c hc
  rw [hpid, shapeOf_eq hn, Option.some.injEq, Prod.mk.injEq] at hx
  have hpos : 0 < children T.dirents d.id := countP_pos_iff.mpr ⟨c, hc, by simpa using hpid⟩
  have hcount := (h.tree.counted d.id n.isDir n.extra (shapeOf_eq hn)).1
  cases isDir with
  | false => simp [unlinkError, hx.1] at hok
  | true =>
    simp only [unlinkError, if_true, Bool.or_eq_false_iff, decide_eq_false_iff_not] at hok
    omega

theorem cons_eraseP (hd : lookup T.dirents d.key = some d) :
    TreeInv (d :: T.dirents.eraseP (Dirent.hasKey d.pid d.name)) (shapeOf T.inodes) :=
  h.tree.perm (perm_of_lookup hd)

/-- **An unlink keeps the shape.** -/
theorem unlink (hd : lookup T.dirents d.key = some d)
    (hn : T.inodes d.id = some n) (hok : unlinkError isDir n = false) : (T.unlink d n).Rooted := by
  refine ⟨h.linked.unlink hd hn, ?_⟩
  have hperm := perm_of_lookup hd
  have hleaf : ∀ c ∈ d :: T.dirents.eraseP (Dirent.hasKey d.pid d.name), c.pid ≠ d.id :=
    fun c hc => h.leaf hn hok c (hperm.mem_iff.mpr hc)
  have hroot := h.linked.nonroot d (mem_of_lookup hd)
  have hsame : shapeOf (Function.update T.inodes d.id (some n.dropLink)) = shapeOf T.inodes :=
    shapeOf_update_same hn rfl
  unfold Tables.unlink
  by_cases hl : n.dropLink.nlink = 0
  · simp only [if_pos hl, shapeOf_update, shapeOf_adjust_dec, hsame, map_none]
    exact (h.cons_eraseP hd).remove hleaf hroot
  · simp only [if_neg hl, shapeOf_adjust_dec, hsame]
    refine (h.cons_eraseP hd).drop hleaf ?_
    -- the link count says that there is another entry
    obtain ⟨hpos, hdrop⟩ := h.linked.dropLink_eq hd hn
    obtain ⟨hcount, -, -⟩ := (h.linked.cons_eraseP hd).counted d.id n.nlink hroot (nlink_eq hn)
    rw [links_cons, if_pos rfl] at hcount
    obtain ⟨c, hc, hcid⟩ := countP_pos_iff.mp
      (show 0 < links (T.dirents.eraseP (Dirent.hasKey d.pid d.name)) d.id by omega)
    exact ⟨c, hc, by simpa using hcid⟩

variable {mode uid gid : Nat}

/-- **A new entry keeps the shape** if it stands in a directory and has a name. -/
theorem create (hkey : lookup T.dirents (pid, name) = none) (hdir : (shapeOf T.inodes).Dir pid)
    (hname : name ≠ []) (hroom : children T.dirents pid + 1 < 2 ^ 32) :
    (T.create mode uid gid isDir pid name).Rooted := by
  refine ⟨h.linked.create hkey, ?_⟩
  have hfresh : shapeOf T.inodes T.ids.allocate.1 = none := by
    have := h.linked.ids.allocate_dead.1
    rw [Tables.nlink, isSome_map, Bool.not_eq_true, isSome_eq_false_iff,
      isNone_iff_eq_none] at this
    rw [shapeOf, this, map_none]
  simp only [Tables.create, shapeOf_adjust_inc, shapeOf_update, map_some]
  exact TreeInv.create (d := ⟨T.ids.allocate.1, pid, if isDir then DT_DIR else DT_REG, name⟩)
    h.tree hfresh hdir hname hroom

theorem reallocate : T.reallocate.Rooted := ⟨h.linked.reallocate, h.tree⟩

/-- **A change of mode keeps the shape** if a directory stays one. -/
theorem setMode {mode : Nat} (hn : T.inodes id = some n)
    (hkeep : n.isDir = true → Inode.isDir { n with mode } = true) :
    (T.setMode id n mode).Rooted := by
  refine ⟨h.linked.setMode hn, ?_⟩
  simp only [Tables.setMode, shapeOf_update, map_some]
  exact h.tree.retype (shapeOf_eq hn) hkeep

/-- **A move keeps the shape** if it does not lead below the inode itself. -/
theorem move (hd : lookup T.dirents d.key = some d)
    (hkey : lookup T.dirents (pid, name) = none) (hdir : (shapeOf T.inodes).Dir pid)
    (hname : name ≠ []) (hroom : children T.dirents pid + 1 < 2 ^ 32)
    (hnot : ¬Reaches T.dirents d.id pid) : (T.move d pid name).Rooted := by
  refine ⟨h.linked.move hd hkey, ?_⟩
  have hperm := perm_of_lookup hd
  have hmoved := (h.cons_eraseP hd).rekey (e := d.moved pid name) rfl hdir hname
    (fun hw => hnot (hw.perm hperm.symm)) (by rwa [children, ← hperm.countP_eq])
  simp only [Tables.move, apply_ite shapeOf, shapeOf_adjust_inc, shapeOf_adjust_dec]
  exact hmoved

/-- **A hard link keeps the shape** if it stands in a directory and has a name. -/
theorem link (hd : lookup T.dirents d.key = some d) (hn : T.inodes d.id = some n)
    (hkey : lookup T.dirents (pid, name) = none) (hlen : T.dirents.length + 1 < 2 ^ 64)
    (hdir : (shapeOf T.inodes).Dir pid) (hname : name ≠ [])
    (hroom : children T.dirents pid + 1 < 2 ^ 32) : (T.link d n pid name).Rooted := by
  refine ⟨h.linked.link hd hn hkey hlen, ?_⟩
  have hsame : shapeOf (Function.update T.inodes d.id
      (some { n with nlink := (n.nlink + 1) % 2 ^ 64 })) = shapeOf T.inodes :=
    shapeOf_update_same hn (by simp only [Inode.isDir])
  simp only [Tables.link, shapeOf_adjust_inc, hsame]
  exact TreeInv.add (d := d.moved pid name) h.tree hdir hname hroom

end

/-- Unlinking an entry leaves the directories other than its inode. -/
theorem dir_unlink (hn : T.inodes e.id = some n) (hdir : (shapeOf T.inodes).Dir pid)
    (hne : pid ≠ e.id) : (shapeOf (T.unlink e n).inodes).Dir pid := by
  have hsame : shapeOf (Function.update T.inodes e.id (some n.dropLink)) = shapeOf T.inodes :=
    shapeOf_update_same hn rfl
  unfold Tables.unlink
  by_cases hl : n.dropLink.nlink = 0
  · simp only [if_pos hl, shapeOf_update, shapeOf_adjust_dec, hsame]
    exact hdir.bump.update hne
  · simp only [if_neg hl, shapeOf_adjust_dec, hsame]
    exact hdir.bump

end Tables.Rooted

/-! ### Runs -/

/-- **What the shape of the namespace should be**: the root exists, entries have a name and stand in
live directories, live directories are reached from the root, and their `extra_` counts their
entries. -/
structure TreeOk (σ : Cluster) : Prop where
  root : (σ.inodes kRootId).isSome = true
  parents : ∀ d ∈ σ.dirents, ∃ n, σ.inodes d.pid = some n ∧ n.isDir = true
  names : ∀ d ∈ σ.dirents, d.name ≠ []
  reached : ∀ id n, σ.inodes id = some n → n.isDir = true → Reaches σ.dirents kRootId id
  counted : ∀ id n, σ.inodes id = some n → n.isDir = true → n.extra = children σ.dirents id

theorem Tables.Rooted.treeOk {σ : Cluster} {srv : Nat} (h : (σ.tables srv).Rooted) : TreeOk σ where
  root := by
    obtain ⟨n, hn, -⟩ := shapeOf_dir.mp h.tree.root
    exact isSome_iff_exists.mpr ⟨n, hn⟩
  parents d hd := shapeOf_dir.mp (h.tree.parents d hd)
  names := h.tree.names
  reached id n hn _ := h.tree.reached id (shapeOf_eq hn ▸ rfl)
  counted id n hn _ := (h.tree.counted id n.isDir n.extra (shapeOf_eq hn)).1

/-- A new entry `name` may stand in `pid`: a live directory with room in its `extra_`. -/
structure Cluster.Place (σ : Cluster) (pid : Nat) (name : Name) : Prop where
  dir : ∃ n, σ.inodes pid = some n ∧ n.isDir = true
  name : name ≠ []
  room : children σ.dirents pid + 1 < 2 ^ 32

/-- **When the shape survives**: new entries get a name and a directory, the root is not removed,
directories keep their type, and no directory moves below itself. -/
def TreeSafe (env : Env) (σ : Cluster) : SeqAct → Prop
  | .call (.create path _ _ _) | .call (.mkdir path _ _ _) =>
    (σ.locate path 0).found = false → (σ.locate path 0).parent ≠ 0 →
      σ.Place (σ.locate path 0).parent (σ.locate path 0).newPath
  | .call (.rmdir path) => components path ≠ []
  | .call (.chmod path mode) => (σ.locate path 0).found = true →
    ∀ n, σ.inodes (σ.locate path 0).id = some n → n.isDir = true →
      Inode.isDir { n with mode } = true
  | .call (.rename oldpath newpath) =>
    OldNamed oldpath newpath ∧ components newpath ≠ [] ∧ CoversOther env σ oldpath newpath ∧
    (∀ lcd, OldFound σ oldpath newpath lcd → (σ.newRes oldpath newpath lcd).found = false →
      (σ.newRes oldpath newpath lcd).parent ≠ 0 →
      σ.Place (σ.newRes oldpath newpath lcd).parent (σ.newRes oldpath newpath lcd).newPath ∧
      ¬Reaches σ.dirents (σ.oldRes oldpath lcd).id (σ.newRes oldpath newpath lcd).parent) ∧
    (∀ lcd, Covers env σ oldpath newpath lcd → (σ.resolveAgain oldpath newpath lcd).found = false →
      (σ.resolveAgain oldpath newpath lcd).parent ≠ 0 →
      σ.Place (σ.resolveAgain oldpath newpath lcd).parent
        (σ.resolveAgain oldpath newpath lcd).newPath ∧
      (σ.resolveAgain oldpath newpath lcd).parent ≠ (σ.locate newpath 0).id ∧
      ¬Reaches σ.dirents (σ.oldRes oldpath lcd).id (σ.resolveAgain oldpath newpath lcd).parent)
  | .call (.link oldpath newpath) =>
    OldNamed oldpath newpath ∧ σ.dirents.length + 1 < 2 ^ 64 ∧
    ∀ lcd, OldFound σ oldpath newpath lcd → (σ.newRes oldpath newpath lcd).found = false →
      (σ.newRes oldpath newpath lcd).parent ≠ 0 →
      σ.Place (σ.newRes oldpath newpath lcd).parent (σ.newRes oldpath newpath lcd).newPath
  | .call (.unlink _) | .checkpoint _ => True

section Runs

variable {env : Env} {σ σ' : Cluster} {srv th : Nat} {r : Int} {path : Name} {T : Tables}

section

variable (h : (σ.tables srv).Rooted)

include h

theorem Tables.Rooted.unlinkEffect (he : UnlinkEffect srv σ path isDir T) : T.Rooted := by
  cases he with
  | same => exact h
  | unlinked _ hmem hn hok => exact h.unlink hmem hn hok

theorem Tables.Rooted.createEffect (he : CreateEffect srv σ path mode uid gid isDir T)
    (hsafe : (σ.locate path 0).found = false → (σ.locate path 0).parent ≠ 0 →
      σ.Place (σ.locate path 0).parent (σ.locate path 0).newPath) : T.Rooted := by
  cases he with
  | same => exact h
  | full => exact h.reallocate
  | created hf hp hkey =>
    have hplace := hsafe hf hp
    exact h.create hkey (shapeOf_dir.mpr hplace.dir) hplace.name hplace.room

variable {oldpath newpath : Name}

theorem Tables.Rooted.linkEffect {T : Tables} (he : LinkEffect srv σ oldpath newpath T)
    (hsafe : TreeSafe env σ (.call (.link oldpath newpath))) : T.Rooted := by
  cases he with
  | same => exact h
  | @linked lcd _ _ hold _ hmem hn hf hp hkey =>
    obtain ⟨-, hlen, hsafe⟩ := hsafe
    have hplace := hsafe lcd hold hf hp
    exact h.link hmem hn hkey hlen (shapeOf_dir.mpr hplace.dir) hplace.name hplace.room

theorem Tables.Rooted.renameEffect (he : RenameEffect srv σ env oldpath newpath T)
    (hsafe : TreeSafe env σ (.call (.rename oldpath newpath))) : T.Rooted := by
  obtain ⟨-, -, hother, hmove, hagain⟩ := hsafe
  cases he with
  | same => exact h
  | @moved lcd d hold hd hmem hf hp hkey =>
    obtain ⟨hplace, hnot⟩ := hmove lcd hold hf hp
    exact h.move hmem hkey (shapeOf_dir.mpr hplace.dir) hplace.name hplace.room (hd.id ▸ hnot)
  | targetGone hc => exact h.unlink hc.target_mem hc.inode hc.valid
  | @covered lcd d e n hc hf hp hkey =>
    obtain ⟨hplace, htarget, hnot⟩ := hagain lcd hc.covers hf hp
    have hne : d ≠ e := by
      rintro rfl
      exact hother lcd hc.covers (hc.old.ent.trans hc.target.ent.symm)
    -- what was there before the target went is still there
    have hsub : List.Sublist ((σ.tables srv).unlink e n).dirents σ.dirents := eraseP_sublist
    refine (h.unlink hc.target_mem hc.inode hc.valid).move
      (h.linked.lookup_unlink hc.old_mem hc.target_mem hne) hkey
      (Tables.Rooted.dir_unlink hc.inode (shapeOf_dir.mpr hplace.dir) (hc.target.id ▸ htarget))
      hplace.name ?_ ?_
    · exact Nat.lt_of_le_of_lt (Nat.succ_le_succ (children_sublist hsub _)) hplace.room
    · intro hw
      exact hnot (hc.old.id ▸ hw.mono fun c hc => hsub.subset hc)

end

/-- `Unlink` of the root fails. -/
theorem Unlinked.tables_of_nil (h : Unlinked env srv th σ path false r σ')
    (hroot : ∃ n, σ.inodes kRootId = some n ∧ n.isDir = true) (hc : components path = []) :
    σ'.tables srv = σ.tables srv := by
  obtain ⟨n, hn, hdir⟩ := hroot
  have hid : (σ.locate path 0).id = kRootId := by
    simp [Cluster.locate, hc, locateIn, Located.atEnd]
  refine h.tables_of_ne fun hr => ?_
  obtain ⟨m, hm, hok⟩ := (h.done hr).valid
  rw [hid, hn, Option.some.injEq] at hm
  subst hm
  simp [unlinkError, hdir] at hok

theorem Tables.Rooted.init (config : Config) (unset : Unset) :
    ((Cluster.init config unset).tables 0).Rooted := by
  refine ⟨linked_init config unset, ?_⟩
  have hsh : shapeOf ((Cluster.init config unset).tables 0).inodes =
      Function.update (fun _ => none) kRootId (some (true, 0)) := by
    simp only [Cluster.tables, Cluster.init, shapeOf_update, map_some]
    rfl
  rw [hsh]
  refine ⟨⟨0, update_self ..⟩, forall_mem_nil _,
    forall_mem_nil _, fun id hid => ?_, fun id b e he => ?_⟩
  · by_cases hr : id = kRootId
    · exact hr ▸ Walk.refl _ _
    · rw [update_of_ne hr] at hid
      cases hid
  · by_cases hr : id = kRootId
    · rw [hr, update_self] at he
      cases he
      exact ⟨rfl, by decide⟩
    · rw [update_of_ne hr] at he
      cases he

/-- A safe step keeps the shape. -/
theorem Tables.Rooted.step {a : SeqAct} (h : (σ.tables 0).Rooted) (hins : env.Accepts)
    (hsafe : TreeSafe env σ a) (hst : (sequential env).step σ a = some σ') :
    (σ'.tables 0).Rooted := by
  have hz := h.linked.idsSet
  cases SeqStep.of_step hst with
  | checkpoint =>
    rw [setCheckpoint_tables]
    exact h
  | call hd =>
    cases hd with
    | create hd | mkdir hd => exact h.createEffect (hd.effect hins) hsafe
    | @unlink path _ _ hd =>
      by_cases hc : components path = []
      · rw [hd.tables_of_nil (shapeOf_dir.mp h.tree.root) hc]
        exact h
      · exact h.unlinkEffect (hd.effect hz hc)
    | rmdir hd => exact h.unlinkEffect (hd.effect hz hsafe)
    | chmod hd =>
      generalize hT : σ'.tables 0 = T
      cases hT ▸ hd.effect with
      | same => exact h
      | changed hf hn => exact h.setMode hn (hsafe hf _ hn)
    | rename hd => exact h.renameEffect (hd.effect hins hz hsafe.1 hsafe.2.1) hsafe
    | link hd => exact @Tables.Rooted.linkEffect env _ _ h _ _ _ (Linked.effect hd hins hz hsafe.1) hsafe

end Runs

/-- **The namespace keeps its shape** in every state of a run whose calls respect it. -/
theorem namespace_rooted {env : Env} (hins : env.Accepts) {σ : Cluster}
    (h : (sequential env).Reach (TreeSafe env) σ) : TreeOk σ := by
  have hrooted : (σ.tables 0).Rooted := h.invariant (I := fun σ => (σ.tables 0).Rooted) ?_ ?_
  · exact hrooted.treeOk
  · rintro σ ⟨config, unset, rfl⟩
    exact .init config unset
  · intro σ a σ' _ hi hok hst
    exact hi.step hins hok hst

/-- A directory that is made and renamed: the condition is met. -/
theorem namespace_rooted_renamed :
    ∃ σ, (sequential steadyEnv).Reach (TreeSafe steadyEnv) σ ∧
      σ.dirents.map Dirent.key = [(kRootId, [98])] ∧ TreeOk σ := by
  have hmade : ((sequential steadyEnv).step freshCluster (.call (.mkdir pathA 0o755 0 0))).map
      (fun σ => (σ.dirents, σ.inodes kRootId)) =
      some ([⟨3, kRootId, DT_DIR, [97]⟩], some ⟨1, 0o755 ||| S_IFDIR, 1, 1, 2⟩) := by
    decide +kernel
  have hresolved : ((sequential steadyEnv).step freshCluster (.call (.mkdir pathA 0o755 0 0))).map
      (fun σ => (σ.newRes pathA pathB 0, (σ.oldRes pathA 0).id)) =
      some (⟨false, 0, [98], kRootId, none⟩, 3) := by
    decide +kernel
  have hrenamed : (((sequential steadyEnv).step freshCluster
      (.call (.mkdir pathA 0o755 0 0))).bind
      fun σ => (sequential steadyEnv).step σ (.call (.rename pathA pathB))).map
        (fun σ' => σ'.dirents.map Dirent.key) = some [(kRootId, [98])] := by
    decide +kernel
  obtain ⟨σ, hσ, he⟩ := map_eq_some_iff.mp hmade
  obtain ⟨hds, hroot⟩ := Prod.mk.injEq .. ▸ he
  rw [hσ, map_some, Option.some.injEq, Prod.mk.injEq] at hresolved
  obtain ⟨hnew, hold⟩ := hresolved
  rw [hσ, bind_some] at hrenamed
  obtain ⟨σ', hσ', hkeys⟩ := map_eq_some_iff.mp hrenamed
  have hmkdir : TreeSafe steadyEnv freshCluster (.call (.mkdir pathA 0o755 0 0)) := by
    intro _ _
    exact ⟨⟨⟨1, 0o755 ||| S_IFDIR, 0, 1, 2⟩, by decide, by decide⟩, by decide, by decide⟩
  have hlcd : ∀ lcd, lastCommonDir pathA pathB = some lcd → lcd = 0 := by
    intro lcd h
    exact (Option.some.inj (h.symm.trans (by decide : lastCommonDir pathA pathB = some 0)))
  -- no entry leads out of the new directory
  have hnot : ¬Reaches σ.dirents 3 kRootId := by
    intro hw
    rcases Relation.ReflTransGen.cases_head hw with he | ⟨x, ⟨e, hmem, hpid, -⟩, -⟩
    · exact absurd he (by decide)
    · rw [hds, mem_singleton] at hmem
      rw [hmem] at hpid
      exact absurd hpid (by decide)
  have hcovers : ∀ lcd, ¬Covers steadyEnv σ pathA pathB lcd := by
    intro lcd hc
    have hn := hc.new
    rw [hlcd lcd hc.lcd_eq, hnew] at hn
    cases hn
  have hrename : TreeSafe steadyEnv σ (.call (.rename pathA pathB)) := by
    refine ⟨Canonical.oldNamed (by decide) _, by decide, fun lcd hc => absurd hc (hcovers lcd),
      fun lcd ho _ _ => ?_, fun lcd hc => absurd hc (hcovers lcd)⟩
    rw [hlcd lcd ho.lcd_eq, hnew, hold]
    refine ⟨⟨⟨_, hroot, by decide⟩, by decide, ?_⟩, hnot⟩
    rw [hds]
    decide
  have hreach : (sequential steadyEnv).Reach (TreeSafe steadyEnv) σ' :=
    .step (.step (.start ⟨_, _, rfl⟩) hmkdir hσ) hrename hσ'
  exact ⟨σ', hreach, hkeys, namespace_rooted steadyEnv_accepts hreach⟩

/-- **`Rmdir` can remove the root.** -/
theorem rmdir_root_removes :
    ∃ σ, (sequential steadyEnv).Reach (fun _ _ => True) σ ∧ ¬TreeOk σ := by
  refine System.exists_reach_of_labels (l := [.call (.rmdir [slash])]) (s := freshCluster)
    (Q := fun σ => (σ.inodes kRootId).isSome = false) ⟨_, _, rfl⟩ (fun _ _ _ => trivial)
    (by decide +kernel) fun σ _ h hok => ?_
  rw [hok.root] at h
  cases h

end StaxFS.Metadata
