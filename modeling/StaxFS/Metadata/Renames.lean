import StaxFS.Metadata.Paths
import StaxFS.Metadata.Kinds

/-!
# What `Rename` does to a tree

`Rename` resolves both paths from their last common directory. If the new path exists, it unlinks it
and resolves the new path again, but now from `new_parent`, which the first resolution has set to
the directory of the target. For a target directly in the common directory these are the same; for a
deeper one the names in between are looked up a second time from the wrong place, the rename fails,
and the target is gone.

Results:
* `IsTree.walk_unique`: in a tree, a directory is reached by one list of names.
* `rename_moves`: a rename that the rules of `rename(2)` allow returns 0, the new path leads where
  the old one led, the old path leads nowhere and no other entry changes, exactly if the new name
  fits and an existing target lies directly in the last common directory.
* `deep_cover_fails`: a target one directory deeper is removed, and the rename returns -1.
* `isTree_reached`: runs that link no directory and respect shape and kinds end in a tree.
* `directory_path_unique`: there, every directory has exactly one path.
-/

namespace StaxFS.Metadata

open Foundation Wal List Option Cluster

/-! ### Trees -/

/-- **The namespace is a tree**: shape, link counts and kinds are in order, and a directory has one
entry. -/
structure IsTree (σ : Cluster) : Prop where
  shape : TreeOk σ
  links : LinksOk σ
  kinds : KindsOk σ
  ids : ∀ d ∈ σ.dirents, kRootId < d.id
  single : ∀ d ∈ σ.dirents, ∀ e ∈ σ.dirents, d.id = e.id →
    (∃ n, σ.inodes d.id = some n ∧ n.isDir = true) → d = e

/-- `id` is a directory. -/
def Cluster.IsDirectory (σ : Cluster) (id : Nat) : Prop := ∃ n, σ.inodes id = some n ∧ n.isDir = true

namespace IsTree

variable {σ : Cluster}

theorem idsSet (h : IsTree σ) : σ.IdsSet := fun d hd h0 => by
  have := h.ids d hd
  omega

variable {name : Name}

/-- The last entry of a walk that leads to `id`. -/
theorem last_entry {a : List Name} {id : Nat}
    (ha : resolve σ.dirents (a ++ [name]) kRootId = some id) :
    ∃ d ∈ σ.dirents, d.id = id ∧ d.name = name ∧ resolve σ.dirents a kRootId = some d.pid := by
  rw [resolve_concat, bind_eq_some_iff] at ha
  obtain ⟨i, hi, hd⟩ := ha
  obtain ⟨d, hd, hid⟩ := map_eq_some_iff.mp hd
  obtain ⟨hpid, hname⟩ := Prod.mk.inj (key_of_lookup hd)
  exact ⟨d, mem_of_lookup hd, hid, hname, hpid ▸ hi⟩

variable {a b : List Name}

/-- **In a tree a directory is reached by one list of names.** -/
theorem walk_unique (h : IsTree σ) {id : Nat} (hid : σ.IsDirectory id)
    (ha : resolve σ.dirents a kRootId = some id) (hb : resolve σ.dirents b kRootId = some id) :
    a = b := by
  -- no entry leads back to the root
  have hroot : ∀ {a : List Name} {name : Name},
      resolve σ.dirents (a ++ [name]) kRootId ≠ some kRootId := by
    intro a name hr
    obtain ⟨d, hd, he, -⟩ := last_entry hr
    exact absurd he (Nat.ne_of_gt (h.ids d hd))
  induction a using List.reverseRecOn generalizing b id with
  | nil =>
    cases ha
    rcases eq_nil_or_concat b with rfl | ⟨b, name, rfl⟩
    · rfl
    · rw [concat_eq_append] at hb
      exact absurd hb hroot
  | append_singleton a name ih =>
    obtain ⟨d, hd, he, hname, hpa⟩ := last_entry ha
    rcases eq_nil_or_concat b with rfl | ⟨b, name', rfl⟩
    · cases hb
      exact absurd ha hroot
    · rw [concat_eq_append] at hb ⊢
      obtain ⟨d', hd', he', hname', hpb⟩ := last_entry hb
      obtain rfl : d = d' := h.single d hd d' hd' (he.trans he'.symm) (he ▸ hid)
      rw [ih (h.shape.parents d hd) hpa hpb, ← hname, ← hname']

end IsTree

/-! ### Runs that keep the tree -/

/-- A directory has one entry. -/
def Tables.Single (T : Tables) : Prop :=
  ∀ d ∈ T.dirents, ∀ e ∈ T.dirents, d.id = e.id → d.type = DT_DIR → d = e

section Single

variable {T : Tables} {d : Dirent} {n : Inode} {pid : Nat} {name : Name}

theorem Tables.Single.unlink (h : T.Single) : (T.unlink d n).Single :=
  fun a ha b hb => h a (eraseP_sublist.subset ha) b (eraseP_sublist.subset hb)

theorem Tables.Single.create (h : T.Single) (hl : T.Linked) {mode uid gid : Nat} {isDir : Bool} :
    (T.create mode uid gid isDir pid name).Single := by
  -- the new id is not the id of an entry
  have hfresh : ∀ e ∈ T.dirents, e.id ≠ T.ids.allocate.1 := by
    intro e he heq
    refine (LinkInv.ids hl).allocate_dead.1 ?_
    rw [← heq]
    exact hl.live e he
  intro a ha b hb hid htype
  rcases mem_cons.mp ha with rfl | ha
  · rcases mem_cons.mp hb with rfl | hb
    · rfl
    · exact absurd hid.symm (hfresh b hb)
  · rcases mem_cons.mp hb with rfl | hb
    · exact absurd hid (hfresh a ha)
    · exact h a ha b hb hid htype

theorem Tables.Single.move (h : T.Single) (hl : T.Linked) (hd : lookup T.dirents d.key = some d) :
    (T.move d pid name).Single := by
  have hperm := perm_of_lookup hd
  -- no entry that stays names a directory that moves
  have hnot : ∀ e ∈ T.dirents.eraseP (Dirent.hasKey d.pid d.name), e.id = d.id →
      d.type = DT_DIR → False := by
    intro e he hid htype
    have hmem := mem_of_lookup hd
    obtain rfl : d = e := h d hmem e (eraseP_sublist.subset he) hid.symm htype
    have hnd := (hperm.map Dirent.key).nodup hl.unique
    exact (nodup_cons.mp hnd).1 (List.mem_map_of_mem he)
  have htypes : ∀ e ∈ T.dirents.eraseP (Dirent.hasKey d.pid d.name), e.id = d.id →
      e.type = DT_DIR → False := by
    intro e he hid htype
    have heq : e = d := h e (eraseP_sublist.subset he) d (mem_of_lookup hd) hid htype
    exact hnot e he hid (heq ▸ htype)
  intro a ha b hb hid htype
  rcases mem_cons.mp ha with rfl | ha
  · rcases mem_cons.mp hb with rfl | hb
    · rfl
    · exact (hnot b hb hid.symm htype).elim
  · rcases mem_cons.mp hb with rfl | hb
    · exact (htypes a ha hid htype).elim
    · exact h a (eraseP_sublist.subset ha) b (eraseP_sublist.subset hb) hid htype

theorem Tables.Single.link (h : T.Single) (hk : T.Kinded) (hd : lookup T.dirents d.key = some d)
    (hfile : d.type ≠ DT_DIR) : (T.link d n pid name).Single := by
  -- all entries of an inode have its type
  have hnot : ∀ e ∈ T.dirents, e.id = d.id → e.type ≠ DT_DIR := by
    intro e he hid htype
    obtain ⟨n₁, hn₁, ht₁⟩ := hk e he
    obtain ⟨n₂, hn₂, ht₂⟩ := hk d (mem_of_lookup hd)
    rw [hid, hn₂, Option.some.injEq] at hn₁
    exact hfile (ht₂.trans (hn₁ ▸ ht₁.symm.trans htype))
  intro a ha b hb hid htype
  rcases mem_cons.mp ha with rfl | ha
  · exact absurd htype hfile
  · rcases mem_cons.mp hb with rfl | hb
    · exact absurd htype (hnot a ha hid)
    · exact h a ha b hb hid htype

end Single

/-- The call links no directory. -/
def LinksFile (σ : Cluster) : SeqAct → Prop
  | .call (.link oldpath newpath) => ∀ lcd, OldFound σ oldpath newpath lcd →
      ∀ d, (σ.oldRes oldpath lcd).ent = some d → d.type ≠ DT_DIR
  | _ => True

/-- **When the namespace stays a tree.** -/
structure KeepsTree (env : Env) (σ : Cluster) (a : SeqAct) : Prop where
  paths : a.OnCanonical
  links : LinkSafe env σ a
  shape : TreeSafe env σ a
  kinds : KindSafe σ a
  single : LinksFile σ a

/-- The parts of a tree in the tables. -/
structure Tables.Tree (T : Tables) : Prop where
  rooted : T.Rooted
  kinded : T.Kinded
  single : T.Single

section Runs

variable {env : Env} {σ σ' : Cluster} {a : SeqAct}

theorem Tables.Tree.isTree (h : (σ.tables 0).Tree) : IsTree σ where
  shape := h.rooted.treeOk
  links := h.rooted.linked.linksOk
  kinds := h.kinded.kindsOk h.rooted.linked.idsSet
  ids d hd := by
    have hused := (h.rooted.linked.ids.used d.id (h.rooted.linked.live d hd)).1
    exact Nat.lt_of_le_of_ne hused (h.rooted.linked.nonroot d hd).symm
  single d hd e he hid hdir := by
    obtain ⟨n, hn, hb⟩ := hdir
    obtain ⟨n', hn', ht⟩ := h.kinded d hd
    refine h.single d hd e he hid ?_
    rw [ht, Inode.type_eq_dir, ← hb, Option.some.inj (hn'.symm.trans hn)]

/-- A step that keeps the parts of a tree keeps it single. -/
theorem Tables.Tree.step (h : (σ.tables 0).Tree) (hins : env.Accepts)
    (hok : KeepsTree env σ a) (hst : (sequential env).step σ a = some σ') : (σ'.tables 0).Tree := by
  have hl := h.rooted.linked
  have hz := hl.idsSet
  refine ⟨h.rooted.step hins hok.shape hst,
    h.kinded.step hl hins hok.paths hok.links hok.kinds hst, ?_⟩
  have hpath := hok.paths
  cases SeqStep.of_step hst with
  | checkpoint =>
    rw [setCheckpoint_tables]
    exact h.single
  | call hd =>
    generalize hT : σ'.tables 0 = T
    cases hd with
    | create hd | mkdir hd =>
      cases hT ▸ hd.effect hins with
      | same | full => exact h.single
      | created _ _ _ => exact h.single.create hl
    | unlink hd | rmdir hd =>
      cases hT ▸ hd.effect hz hpath.1 with
      | same => exact h.single
      | unlinked _ _ _ _ => exact h.single.unlink
    | chmod hd =>
      cases hT ▸ hd.effect with
      | same | changed _ _ => exact h.single
    | rename hd =>
      cases hT ▸ hd.effect hins hz (hpath.1.oldNamed _) hpath.2.1.1 with
      | same => exact h.single
      | moved _ _ hmem _ _ _ => exact h.single.move hl hmem
      | targetGone _ => exact h.single.unlink
      | @covered lcd d e n hc _ _ _ =>
        have hne : d ≠ e := by
          rintro rfl
          exact hok.links lcd hc.covers (hc.old.ent.trans hc.target.ent.symm)
        exact (h.single.unlink (d := e) (n := n)).move (hl.unlink hc.target_mem hc.inode)
          (hl.lookup_unlink hc.old_mem hc.target_mem hne)
    | link hd =>
      cases hT ▸ Linked.effect hd hins hz (hpath.1.oldNamed _) with
      | same => exact h.single
      | linked hold hd hmem _ _ _ _ =>
        exact h.single.link h.kinded hmem (hok.single _ hold _ hd.ent)

/-- **Runs that keep the tree end in a tree.** -/
theorem isTree_reached (hins : env.Accepts) (h : (sequential env).Reach (KeepsTree env) σ) :
    IsTree σ := by
  have htree : (σ.tables 0).Tree := h.invariant (I := fun σ => (σ.tables 0).Tree) ?_ ?_
  · exact htree.isTree
  · rintro σ ⟨config, unset, rfl⟩
    exact ⟨.init config unset, forall_mem_nil _,
      forall_mem_nil _⟩
  · intro σ a σ' _ hi hok hst
    exact hi.step hins hok hst

/-- A file or directory is made in a directory with room, or an entry is moved into the root. -/
def makesEntry (σ : Cluster) (a : SeqAct) : Bool :=
  decide a.OnCanonical && match a with
    | .call (.create path mode _ _) => mode &&& S_IFDIR == 0 && place (σ.locate path 0)
    | .call (.mkdir path _ _ _) => place (σ.locate path 0)
    | .call (.rename oldpath newpath) => components newpath != [] &&
      (lastCommonDir oldpath newpath).all fun lcd =>
        let res := σ.newRes oldpath newpath lcd
        !res.found && res.parent == kRootId && (σ.oldRes oldpath lcd).id != kRootId &&
          σ.dirents.all (·.id != kRootId) && place res
    | _ => false
where
  /-- An entry may stand where a path ends. -/
  place (res : Located) : Bool :=
    (σ.inodes res.parent).any Inode.isDir && res.newPath != [] &&
      decide (children σ.dirents res.parent + 1 < 2 ^ 32)

/-- No entry leads to the root. -/
theorem not_reaches_root {ds : List Dirent} {id : Nat} (hroot : ∀ d ∈ ds, d.id ≠ kRootId)
    (hid : id ≠ kRootId) : ¬Reaches ds id kRootId := by
  intro h
  rcases Relation.ReflTransGen.cases_tail h with he | ⟨_, _, d, hd, -, hlast⟩
  · exact hid he.symm
  · exact hroot d hd hlast

theorem keepsTree_of_makesEntry (h : makesEntry σ a = true) : KeepsTree env σ a := by
  have hplace : ∀ {res : Located}, makesEntry.place σ res = true → σ.Place res.parent res.newPath := by
    intro res hp
    simp only [makesEntry.place, Bool.and_eq_true, decide_eq_true_eq, bne_iff_ne,
      Option.any_eq_true] at hp
    obtain ⟨⟨⟨n, hn, hdir⟩, hname⟩, hroom⟩ := hp
    exact ⟨⟨n, hn, hdir⟩, hname, hroom⟩
  obtain ⟨hcan, h⟩ := Bool.and_eq_true_iff.mp h
  have hcan := of_decide_eq_true hcan
  cases a with
  | checkpoint cp => cases h
  | call c =>
    cases c with
    | create path mode uid gid =>
      simp only [Bool.and_eq_true, beq_iff_eq] at h
      exact ⟨hcan, trivial, fun _ _ => hplace h.2, h.1, trivial⟩
    | mkdir path mode uid gid => exact ⟨hcan, trivial, fun _ _ => hplace h, trivial, trivial⟩
    | rename oldpath newpath =>
      obtain ⟨hne, hmove⟩ := Bool.and_eq_true_iff.mp h
      have hmove := fun lcd hlcd => (Option.all_eq_true ..).mp hmove lcd hlcd
      simp only [Bool.and_eq_true, Bool.not_eq_true', beq_iff_eq, bne_iff_ne,
        List.all_eq_true] at hmove
      -- nothing is covered
      have hnot : ∀ lcd, ¬Covers env σ oldpath newpath lcd := fun lcd hc =>
        Bool.false_ne_true ((hmove lcd hc.lcd_eq).1.1.1.1.symm.trans hc.new)
      refine ⟨hcan, fun lcd hc => (hnot lcd hc).elim, ⟨hcan.1.oldNamed _, bne_iff_ne.mp hne,
        fun lcd hc => (hnot lcd hc).elim, fun lcd hold _ _ => ?_, fun lcd hc => (hnot lcd hc).elim⟩,
        trivial, trivial⟩
      obtain ⟨⟨⟨⟨-, hparent⟩, hid⟩, hroot⟩, hp⟩ := hmove lcd hold.lcd_eq
      refine ⟨hplace hp, ?_⟩
      rw [hparent]
      exact not_reaches_root hroot hid
    | _ => cases h

theorem reach_of_makesEntry {as : List SeqAct}
    (h : (sequential steadyEnv).runChecked makesEntry as freshCluster = some σ) :
    (sequential steadyEnv).Reach (KeepsTree steadyEnv) σ := by
  have hstart : (sequential steadyEnv).start freshCluster := ⟨_, _, rfl⟩
  exact (System.Reach.start hstart).steps
    (System.steps_runChecked (fun _ _ ha => keepsTree_of_makesEntry ha) h)

/-- Where entries lead, their names lead. -/
theorem exists_resolve {ds : List Dirent} {start id : Nat} (hnd : (ds.map Dirent.key).Nodup)
    (h : Reaches ds start id) : ∃ names, resolve ds names start = some id := by
  induction h using Relation.ReflTransGen.head_induction_on with
  | refl => exact ⟨[], rfl⟩
  | head hd _ ih =>
    obtain ⟨d, hd, rfl, rfl⟩ := hd
    obtain ⟨names, hnames⟩ := ih
    refine ⟨d.name :: names, ?_⟩
    rw [resolve, ← Dirent.key, lookup_of_mem hnd hd]
    exact hnames

/-- **A directory has one path**: in every run that keeps the tree, exactly one list of names leads
from the root to it. -/
theorem directory_path_unique {env : Env} (hins : env.Accepts) {σ : Cluster}
    (h : (sequential env).Reach (KeepsTree env) σ) {id : Nat} (hid : σ.IsDirectory id) :
    ∃! names, resolve σ.dirents names kRootId = some id := by
  have htree := isTree_reached hins h
  obtain ⟨n, hn, hdir⟩ := hid
  obtain ⟨names, hnames⟩ :=
    exists_resolve htree.links.unique (htree.shape.reached id n hn hdir)
  exact ⟨names, hnames, fun _ hother => htree.walk_unique ⟨n, hn, hdir⟩ hother hnames⟩

/-- `/d`, `/d/x` and `/d/x/x` are made, and `/d/x` is moved to `/a`. -/
theorem directory_path_unique_moved : ∃ σ, (sequential steadyEnv).Reach (KeepsTree steadyEnv) σ ∧
      resolve σ.dirents [[97], [120]] kRootId = some 5 ∧
      ∃! names, resolve σ.dirents names kRootId = some 5 := by
  have hrun : ((sequential steadyEnv).runChecked makesEntry
      [.call (.mkdir pathD 0o755 0 0), .call (.mkdir pathDX 0o755 0 0),
        .call (.mkdir (pathDX ++ [47, 120]) 0o755 0 0), .call (.rename pathDX pathA)]
      freshCluster).map (fun σ => ((σ.inodes 5).any Inode.isDir,
        resolve σ.dirents [[97], [120]] kRootId)) = some (true, some 5) := by
    decide +kernel
  obtain ⟨σ, hσ, hout⟩ := map_eq_some_iff.mp hrun
  obtain ⟨hdir, hpath⟩ := Prod.mk.injEq .. ▸ hout
  have hreach := reach_of_makesEntry hσ
  have hid := (Option.any_eq_true ..).mp hdir
  exact ⟨σ, hreach, hpath, directory_path_unique steadyEnv_accepts hreach hid⟩

end Runs

/-! ### What is asked of a rename -/

/-- The path of the directory a path ends in. -/
def parentPath (path : Name) : Name := pathOf (components path).dropLast

/-- The last name of a path. -/
def lastName (path : Name) : Name := (components path).getLast?.getD []

/-- The key of the entry a path ends in, there or not. -/
def Cluster.keyOf (σ : Cluster) (path : Name) : Nat × Name :=
  ((σ.locate (parentPath path) 0).id, lastName path)

/-- **What `rename(2)` asks for**: the old path exists, the new one has a directory to stand in and
is not below the old one, and what it covers is another inode of the same kind, without entries. -/
structure Renameable (σ : Cluster) (oldpath newpath : Name) : Prop where
  old : (σ.locate oldpath 0).found = true
  parent : (σ.locate (parentPath newpath) 0).found = true
  directory : σ.IsDirectory (σ.locate (parentPath newpath) 0).id
  below : ¬components oldpath <+: components newpath
  target : (σ.locate newpath 0).found = true →
    (σ.locate newpath 0).id ≠ (σ.locate oldpath 0).id ∧
    ∃ n m, σ.inodes (σ.locate oldpath 0).id = some n ∧ σ.inodes (σ.locate newpath 0).id = some m ∧
      m.isDir = n.isDir ∧ (m.isDir = true → ∀ d ∈ σ.dirents, d.pid ≠ (σ.locate newpath 0).id)

/-- The log has room for the records, one after the other. -/
def Log.takes (l : Log) : List LogRequest → Bool
  | [] => true
  | r :: rs => l.hasRoom r && Log.takes (l.append r 0) rs

/-- What a rename logs: the unlink of a target, and the move. -/
def Cluster.renameRecords (σ : Cluster) (oldpath newpath : Name) : List LogRequest :=
  let old := σ.locate oldpath 0
  (if (σ.locate newpath 0).found then [(σ.locate newpath 0).unlinkRequest] else []) ++
    [.rename old.id old.parent (σ.keyOf newpath).1 old.entName (σ.keyOf newpath).2
      ((old.ent.map Dirent.type).getD 0)]

/-- The new path lies directly in the last common directory of both paths. -/
def InCommonDir (oldpath newpath : Name) : Prop :=
  ∀ lcd, lastCommonDir oldpath newpath = some lcd → slash ∉ newpath.drop (lcd + 1)

/-- **What a rename should have done.** -/
structure RenameDone (σ σ' : Cluster) (oldpath newpath : Name) : Prop where
  new_found : (σ'.locate newpath 0).found = true
  new_id : (σ'.locate newpath 0).id = (σ.locate oldpath 0).id
  old_gone : (σ'.locate oldpath 0).found = false
  others : ∀ d : Dirent, d.key ≠ σ.keyOf oldpath → d.key ≠ σ.keyOf newpath →
    (d ∈ σ'.dirents ↔ d ∈ σ.dirents)

/-! ### Where both paths lead -/

variable {ds : List Dirent}

section Places

variable {σ σ' : Cluster} {path oldpath newpath : Name} {i : Nat}

theorem Cluster.locate_root (path : Name) :
    σ.locate path 0 = locateIn σ.dirents (components path) kRootId 0 none := rfl

theorem resolve_of_found (hf : (σ.locate path 0).found = true) :
    resolve σ.dirents (components path) kRootId = some (σ.locate path 0).id := by
  obtain ⟨hfound, hid⟩ := @locateIn_eq σ.dirents (components path) kRootId 0 none
  rw [← locate_root] at hfound hid
  rw [hf] at hfound
  obtain ⟨i, hi⟩ := isSome_iff_exists.mp hfound.symm
  rw [hi, hid i hi]

theorem Canonical.parentPath_names (h : Canonical path) :
    components (parentPath path) = (components path).dropLast :=
  components_flatMap fun n hn => h.plain n (dropLast_subset _ hn)

/-- The names of a path: those of its directory, and the last one. -/
theorem Canonical.names_eq (h : Canonical path) :
    components path = components (parentPath path) ++ [lastName path] := by
  rw [h.parentPath_names, lastName, getLast?_eq_some_getLast h.1, getD_some,
    dropLast_append_getLast h.1]

/-- What is known of a path that resolves: the entry it ends in, and its directory. -/
structure EntryAt (σ : Cluster) (path : Name) (d : Dirent) : Prop where
  ends : (σ.locate path 0).EndsIn d
  mem : lookup σ.dirents d.key = some d
  key : d.key = σ.keyOf path
  walk : resolve σ.dirents (components (parentPath path)) kRootId = some d.pid
  pid_ne : d.pid ≠ 0

theorem IsTree.entryAt (h : IsTree σ) (hc : Canonical path)
    (hf : (σ.locate path 0).found = true) : ∃ d, EntryAt σ path d := by
  obtain ⟨d, hent, hmem, hid, hpid, hne⟩ := locate_found h.idsSet hc.1 hf
  have hwalk := resolve_of_found hf
  rw [hc.names_eq, resolve_concat, bind_eq_some_iff] at hwalk
  obtain ⟨i, hi, hlast⟩ := hwalk
  obtain ⟨e, he, -⟩ := map_eq_some_iff.mp hlast
  -- the last name of the walk is looked up in the directory `i`
  have hloc : σ.locate path 0 = .atEnd e.id i (some e) := by
    rw [locate_root, hc.names_eq, locateIn_concat hi, he]
  have hdir : d.pid = i := by rw [← hpid, hloc]; rfl
  have hde : d = e := by
    rw [hloc, Located.atEnd, if_neg (hdir ▸ hne)] at hent
    exact (Option.some.inj hent).symm
  have hparent : (σ.locate (parentPath path) 0).id = i := (locateIn_eq _ _ 0 none).2 i hi
  refine ⟨d, ⟨⟨hent, hid, hpid, by rw [Located.entName, hent]; rfl⟩, hmem, ?_, hdir ▸ hi, hne⟩⟩
  rw [Cluster.keyOf, hparent, hde]
  exact key_of_lookup he

/-- A path whose directory is there ends in the entry under its key. -/
theorem locate_eq_lookup (hc : Canonical path) (hp : (σ.locate (parentPath path) 0).found = true) :
    σ.locate path 0 =
      match lookup σ.dirents (σ.keyOf path) with
      | some d => .atEnd d.id (σ.keyOf path).1 (some d)
      | none => .missing (σ.keyOf path).1 (σ.keyOf path).2 true := by
  rw [locate_root, hc.names_eq, locateIn_concat (resolve_of_found hp)]
  rfl

theorem locate_missing_eq (hc : Canonical path) (hp : (σ.locate (parentPath path) 0).found = true)
    (hf : (σ.locate path 0).found = false) :
    σ.locate path 0 = .missing (σ.keyOf path).1 (σ.keyOf path).2 true ∧
      lookup σ.dirents (σ.keyOf path) = none := by
  have hloc := locate_eq_lookup hc hp
  cases hl : lookup σ.dirents (σ.keyOf path) with
  | some d =>
    rw [hl] at hloc
    rw [hloc] at hf
    cases hf
  | none =>
    rw [hl] at hloc
    exact ⟨hloc, rfl⟩

/-- The walk of names in two parts. -/
theorem walk_passes {id j : Nat}
    (h : resolve ds (a ++ name :: b) id = some j) (hi : resolve ds a id = some i) :
    ∃ e, lookup ds (i, name) = some e ∧ resolve ds b e.id = some j := by
  rw [resolve_append, hi, bind_some, resolve, bind_eq_some_iff] at h
  exact h

/-- The key of a path is not passed on the way to its directory. -/
theorem IsTree.key_not_passed (h : IsTree σ) (hdir : σ.IsDirectory (σ.keyOf path).1)
    (hwalk : resolve σ.dirents (components (parentPath path)) kRootId = some (σ.keyOf path).1)
    (hab : components (parentPath path) = a ++ name :: b)
    (hi : resolve σ.dirents a kRootId = some i) : (i, name) ≠ σ.keyOf path := by
  intro hkey
  have hpre : a = components (parentPath path) := by
    refine h.walk_unique hdir ?_ hwalk
    rw [← hkey]
    exact hi
  have hlen := congrArg List.length (hpre.trans hab)
  simp only [length_append, length_cons] at hlen
  omega

/-- **A table that differs from a tree in the two entries of a rename**: the new path leads where
the old one led, and the old one nowhere. -/
theorem Renameable.done (hr : Renameable σ oldpath newpath) (h : IsTree σ)
    (hold : Canonical oldpath) (hnew : Canonical newpath) {d e : Dirent}
    (hd : EntryAt σ oldpath d) (hid : e.id = d.id)
    (hat : lookup σ'.dirents (σ.keyOf newpath) = some e)
    (hgone : lookup σ'.dirents (σ.keyOf oldpath) = none)
    (hothers : ∀ k, k ≠ σ.keyOf oldpath → k ≠ σ.keyOf newpath →
      lookup σ'.dirents k = lookup σ.dirents k)
    (hmem : ∀ c : Dirent, c.key ≠ σ.keyOf oldpath → c.key ≠ σ.keyOf newpath →
      (c ∈ σ'.dirents ↔ c ∈ σ.dirents)) : RenameDone σ σ' oldpath newpath := by
  have hnewWalk : resolve σ.dirents (components (parentPath newpath)) kRootId =
      some (σ.keyOf newpath).1 := resolve_of_found hr.parent
  have hpid : d.pid = (σ.keyOf oldpath).1 := congrArg Prod.fst hd.key
  have holdDir : σ.IsDirectory (σ.keyOf oldpath).1 :=
    hpid ▸ h.shape.parents d (mem_of_lookup hd.mem)
  have holdWalk : resolve σ.dirents (components (parentPath oldpath)) kRootId =
      some (σ.keyOf oldpath).1 := hpid ▸ hd.walk
  -- the old entry is not on the way to the new directory: the new path would be below it
  have hnotOld : ∀ {a b : List Name} {name : Name} {i : Nat},
      components (parentPath newpath) = a ++ name :: b → resolve σ.dirents a kRootId = some i →
      (i, name) ≠ σ.keyOf oldpath := by
    intro a b name i hab hi hkey
    have hpre : a = components (parentPath oldpath) := by
      refine h.walk_unique holdDir ?_ holdWalk
      rw [← hkey]
      exact hi
    refine hr.below ⟨b ++ [lastName newpath], ?_⟩
    rw [hold.names_eq, ← hpre, hnew.names_eq, hab, show lastName oldpath = name from
      (congrArg Prod.snd hkey).symm]
    simp
  -- the target is not on the way to the old entry: it has no entries
  have hnotNew : ∀ {a b : List Name} {name : Name} {i : Nat},
      components (parentPath oldpath) = a ++ name :: b → resolve σ.dirents a kRootId = some i →
      (i, name) ≠ σ.keyOf newpath := by
    intro a b name i hab hi hkey
    have hfull : resolve σ.dirents (a ++ name :: (b ++ [lastName oldpath])) kRootId =
        some (σ.locate oldpath 0).id := by
      have := resolve_of_found hr.old
      rw [hold.names_eq, hab] at this
      simpa using this
    obtain ⟨c, hc, hrest⟩ := walk_passes hfull hi
    have hfound : σ.locate newpath 0 = .atEnd c.id (σ.keyOf newpath).1 (some c) := by
      rw [locate_eq_lookup hnew hr.parent, ← hkey, hc]
    obtain ⟨-, n, m, -, hm, -, hempty⟩ := hr.target (by rw [hfound]; rfl)
    -- the next name is looked up in the target
    obtain ⟨next, more, hcons⟩ : ∃ next more, b ++ [lastName oldpath] = next :: more :=
      exists_cons_of_ne_nil (by simp)
    rw [hcons, resolve, bind_eq_some_iff] at hrest
    obtain ⟨x, hx, -⟩ := hrest
    have hxpid : x.pid = c.id := congrArg Prod.fst (key_of_lookup hx)
    have hcid : (σ.locate newpath 0).id = c.id := by rw [hfound]; rfl
    obtain ⟨m', hm', hdir⟩ := h.shape.parents x (mem_of_lookup hx)
    rw [hcid] at hm hempty
    rw [hxpid, hm, Option.some.injEq] at hm'
    exact hempty (hm' ▸ hdir) x (mem_of_lookup hx) hxpid
  have hnewWalk' : resolve σ'.dirents (components (parentPath newpath)) kRootId =
      some (σ.keyOf newpath).1 := by
    rw [resolve_congr fun a name b i hab hi => hothers _ (hnotOld hab hi)
      (h.key_not_passed hr.directory hnewWalk hab hi), hnewWalk]
  have holdWalk' : resolve σ'.dirents (components (parentPath oldpath)) kRootId =
      some (σ.keyOf oldpath).1 := by
    rw [resolve_congr fun a name b i hab hi => hothers _
      (h.key_not_passed holdDir holdWalk hab hi) (hnotNew hab hi), holdWalk]
  have hnewAt : σ'.locate newpath 0 = .atEnd e.id (σ.keyOf newpath).1 (some e) := by
    rw [locate_root, hnew.names_eq, locateIn_concat hnewWalk',
      show ((σ.keyOf newpath).1, lastName newpath) = σ.keyOf newpath from rfl, hat]
  have holdAt : σ'.locate oldpath 0 = .missing (σ.keyOf oldpath).1 (lastName oldpath) true := by
    rw [locate_root, hold.names_eq, locateIn_concat holdWalk',
      show ((σ.keyOf oldpath).1, lastName oldpath) = σ.keyOf oldpath from rfl, hgone]
  refine ⟨by rw [hnewAt]; rfl, ?_, by rw [holdAt]; rfl, hmem⟩
  rw [hnewAt, hd.ends.id]
  exact hid

/-- Both keys of a rename differ. -/
theorem Renameable.keys_ne (hr : Renameable σ oldpath newpath) (h : IsTree σ)
    (hold : Canonical oldpath) (hnew : Canonical newpath) {d : Dirent}
    (hd : EntryAt σ oldpath d) : σ.keyOf oldpath ≠ σ.keyOf newpath := by
  intro hkey
  have hpid : d.pid = (σ.keyOf newpath).1 := (congrArg Prod.fst hd.key).trans (congrArg _ hkey)
  have hsame := h.walk_unique hr.directory (hpid ▸ hd.walk) (resolve_of_found hr.parent)
  refine hr.below ⟨[], ?_⟩
  rw [append_nil, hold.names_eq, hnew.names_eq, hsame]
  exact congrArg (fun n => _ ++ [n]) (congrArg Prod.snd hkey)

/-- **Both paths of a rename, resolved from their last common directory**, end where they end from
the root; a new path directly in that directory leaves its last name to be resolved. -/
theorem IsTree.resolutions (h : IsTree σ) (hold : Canonical oldpath) (hnew : Canonical newpath)
    (hne : oldpath ≠ newpath) (hf : (σ.locate oldpath 0).found = true) :
    ∃ lcd, OldFound σ oldpath newpath lcd ∧ σ.oldRes oldpath lcd = σ.locate oldpath 0 ∧
      σ.newRes oldpath newpath lcd = σ.locate newpath 0 ∧
      components (oldpath.take lcd) ++ components (newpath.drop lcd) = components newpath ∧
      (InCommonDir oldpath newpath ↔ components (newpath.drop lcd) = [lastName newpath]) := by
  obtain ⟨lcd, hlcd, htake, hos, hns⟩ := lastCommonDir_cut hold hnew hne
  obtain ⟨holdNames, holdRest, -⟩ := hold.cut hos
  obtain ⟨hnewNames, hnewRest, hdrop⟩ := hnew.cut hns
  have hwalk := resolve_of_found hf
  rw [holdNames, resolve_append, bind_eq_some_iff] at hwalk
  obtain ⟨i, hi, -⟩ := hwalk
  have hi0 : i ≠ 0 := resolve_ne_zero h.idsSet (by decide) hi
  obtain ⟨hcommon, hid⟩ := @locateIn_eq σ.dirents (components (oldpath.take lcd)) kRootId 0 none
  have hstart : (σ.locate (oldpath.take lcd) 0).id = i := hid i hi
  -- the rest of a path from the common directory
  have hrest : ∀ {rest : Name}, components rest ≠ [] → σ.locate rest i =
      locateIn σ.dirents (components (oldpath.take lcd) ++ components rest) kRootId 0 none := by
    intro rest hne
    rw [locateIn_append hne _ _ _ hi, Cluster.locate, if_neg hi0]
  have holdRes : σ.oldRes oldpath lcd = σ.locate oldpath 0 := by
    rw [Cluster.oldRes, hstart, hrest holdRest, ← holdNames]
    rfl
  have hnewRes : σ.newRes oldpath newpath lcd = σ.locate newpath 0 := by
    rw [Cluster.newRes, hstart, hrest hnewRest, htake, ← hnewNames]
    rfl
  refine ⟨lcd, ⟨hlcd, hcommon.trans (by rw [hi]; rfl), holdRes ▸ hf⟩, holdRes, hnewRes,
    by rw [hnewNames, htake], fun hdirect => ?_, fun hone lcd' hlcd' => ?_⟩
  all_goals
    obtain ⟨name, more, hcons⟩ := exists_cons_of_ne_nil hnewRest
    obtain ⟨hlt, hget⟩ := List.getElem?_eq_some_iff.mp hns
    have hbytes : newpath.drop (lcd + 1) = name ++ pathOf more := by
      rw [hcons, drop_eq_getElem_cons hlt, hget] at hdrop
      simpa [pathOf] using hdrop
  · have hmore : more = [] := by
      cases more with
      | nil => rfl
      | cons n ns =>
        refine absurd ?_ (hdirect lcd hlcd)
        rw [hbytes]
        simp [pathOf]
    rw [hcons, hmore, lastName, hnewNames, hcons, hmore, getLast?_concat, getD_some]
  · obtain rfl : lcd = lcd' := Option.some.inj (hlcd.symm.trans hlcd')
    obtain ⟨rfl, rfl⟩ := List.cons.inj (hcons.symm.trans hone)
    rw [hbytes, pathOf, flatMap_nil, append_nil]
    exact (hnew.plain _ (hnewNames ▸ mem_append_right _ (hone ▸ mem_singleton_self _))).2

end Places

/-! ### The rename -/

section Rename

variable {env : Env} {srv th : Nat} {σ σ' : Cluster} {oldpath newpath : Name} {d : Dirent}

/-- The dirents of a tree from which the target, if any, is gone. -/
structure TargetGone (σ : Cluster) (newpath : Name) (ds : List Dirent) : Prop where
  sub : ds.Sublist σ.dirents
  gone : lookup ds (σ.keyOf newpath) = none
  kept : ∀ k, k ≠ σ.keyOf newpath → lookup ds k = lookup σ.dirents k
  mem : ∀ c : Dirent, c.key ≠ σ.keyOf newpath → (c ∈ ds ↔ c ∈ σ.dirents)

/-- **The move**: with the target gone, moving the old entry to the new key renames. -/
theorem TargetGone.done (hgone : TargetGone σ newpath ds)
    (hr : Renameable σ oldpath newpath) (h : IsTree σ) (hold : Canonical oldpath)
    (hnew : Canonical newpath) (hd : EntryAt σ oldpath d)
    (hds : σ'.dirents = d.moved (σ.keyOf newpath).1 (σ.keyOf newpath).2 ::
      ds.eraseP (Dirent.hasKey d.pid d.name)) : RenameDone σ σ' oldpath newpath := by
  have hkeys := hr.keys_ne h hold hnew hd
  have hnd : (ds.map Dirent.key).Nodup := (hgone.sub.map _).nodup h.links.unique
  have hdmem : lookup ds d.key = some d := by
    rw [hgone.kept _ (hd.key ▸ hkeys), hd.mem]
  have hmoved : (d.moved (σ.keyOf newpath).1 (σ.keyOf newpath).2).key = σ.keyOf newpath := rfl
  -- a key other than the new one is looked up behind the moved entry
  have htail : ∀ k, k ≠ σ.keyOf newpath →
      lookup σ'.dirents k = lookup (ds.eraseP (Dirent.hasKey d.pid d.name)) k := by
    intro k hk
    rw [hds, lookup, find?_cons_of_neg (by rw [hasKey_iff, hmoved]; exact hk.symm)]
    rfl
  refine hr.done h hold hnew hd (e := d.moved (σ.keyOf newpath).1 (σ.keyOf newpath).2) rfl ?_ ?_ ?_ ?_
  · have hhas : (d.moved (σ.keyOf newpath).1 (σ.keyOf newpath).2).hasKey (σ.keyOf newpath).1
        (σ.keyOf newpath).2 = true := hasKey_iff.mpr hmoved
    rw [hds, lookup, find?_cons_of_pos hhas]
  · rw [htail _ hkeys, ← hd.key]
    exact lookup_eraseP_self hnd hdmem
  · intro k hk hk'
    rw [htail k hk', ← hgone.kept k hk']
    exact lookup_eraseP_of_ne (k := d.key) (hd.key ▸ hk)
  · intro c hc hc'
    have hnot : ¬c.hasKey d.pid d.name = true := by
      rw [hasKey_iff]
      exact fun he => hc (he.trans hd.key)
    rw [hds, mem_cons, mem_eraseP_of_neg hnot, hgone.mem c hc']
    constructor
    · rintro (rfl | hm)
      · exact absurd hmoved hc'
      · exact hm
    · exact .inr

/-- A target without entries, of the kind its inode has, can be unlinked. -/
theorem IsTree.unlinkable (h : IsTree σ) {m : Inode}
    (hm : σ.inodes (σ.locate newpath 0).id = some m)
    (hempty : m.isDir = true → ∀ d ∈ σ.dirents, d.pid ≠ (σ.locate newpath 0).id) :
    unlinkError m.isDir m = false := by
  cases hdir : m.isDir with
  | false =>
    rw [Inode.isDir, bne_eq_false_iff_eq] at hdir
    simp [unlinkError, Inode.isDir, hdir]
  | true =>
    have hextra : m.extra = 0 := by
      rw [h.shape.counted _ m hm hdir, children, countP_eq_zero]
      intro d hd
      simpa using hempty hdir d hd
    simp [unlinkError, hdir, hextra]

/-- What `Unlink` leaves of the dirents. -/
theorem IsTree.targetGone (h : IsTree σ) {e : Dirent} (he : EntryAt σ newpath e)
    (hds : ds = σ.dirents.eraseP
      (Dirent.hasKey (σ.locate newpath 0).parent (σ.locate newpath 0).entName)) :
    TargetGone σ newpath ds := by
  rw [he.ends.parent, he.ends.name] at hds
  subst hds
  refine ⟨eraseP_sublist, ?_, fun k hk => ?_, fun c hc => ?_⟩
  · rw [← he.key]
    exact lookup_eraseP_self h.links.unique he.mem
  · exact lookup_eraseP_of_ne (k := e.key) (he.key ▸ hk)
  · refine mem_eraseP_of_neg ?_
    rw [hasKey_iff]
    exact fun hkey => hc (hkey.trans he.key)

theorem Log.takes_cons {l : Log} {r : LogRequest} {rs : List LogRequest} :
    l.takes (r :: rs) = true ↔ l.hasRoom r = true ∧ (l.append r 0).takes rs = true := by
  rw [Log.takes, Bool.and_eq_true]

/-- The record of the move, in terms of the old entry. -/
theorem EntryAt.renameRecords (hd : EntryAt σ oldpath d) : σ.renameRecords oldpath newpath =
      (if (σ.locate newpath 0).found then [(σ.locate newpath 0).unlinkRequest] else []) ++
        [renameRequest false (σ.locate oldpath 0) d (σ.keyOf newpath).1 (σ.keyOf newpath).2] := by
  simp [Cluster.renameRecords, renameRequest, hd.ends.ent, hd.ends.name]

/-- A walk that misses its last name only has passed the others. -/
theorem locateIn_missing_concat {a : List Name} {name : Name} {id parent : Nat}
    {ent : Option Dirent} (hf : (locateIn ds (a ++ [name]) id parent ent).found = false)
    (hp : (locateIn ds (a ++ [name]) id parent ent).parent ≠ 0) :
    resolve ds a id = some (locateIn ds (a ++ [name]) id parent ent).parent ∧
      (locateIn ds (a ++ [name]) id parent ent).newPath = name := by
  induction a generalizing id parent ent with
  | nil =>
    simp only [nil_append, locateIn] at *
    cases hd : ds.find? (Dirent.hasKey id name) with
    | some d =>
      rw [hd] at hf
      cases hf
    | none => exact ⟨rfl, rfl⟩
  | cons n a ih =>
    simp only [cons_append, locateIn, resolve, lookup] at *
    cases hd : ds.find? (Dirent.hasKey id n) with
    | some d =>
      rw [hd] at hf hp
      exact ih hf hp
    | none =>
      rw [hd] at hp
      simp [Located.missing] at hp

theorem TargetGone.resolve (h : TargetGone σ newpath ds) {names : List Name} {i j : Nat}
    (hw : Metadata.resolve ds names i = some j) : Metadata.resolve σ.dirents names i = some j := by
  induction names generalizing i with
  | nil => exact hw
  | cons n names ih =>
    rw [Metadata.resolve, bind_eq_some_iff] at hw ⊢
    obtain ⟨d, hd, hw⟩ := hw
    refine ⟨d, ?_, ih hw⟩
    rwa [← h.kept]
    rintro hk
    rw [hk, h.gone] at hd
    cases hd

/-- **A target further down is not replaced**: the second resolution starts in the directory of the
target, so that the entry would move below it. -/
theorem TargetGone.direct (hgone : TargetGone σ newpath ds) (hr : Renameable σ oldpath newpath)
    (h : IsTree σ) (hnew : Canonical newpath) (hd : EntryAt σ oldpath d)
    (hdone : RenameDone σ σ' oldpath newpath) {c rest : List Name}
    (hnames : c ++ rest = components newpath) (hrest : rest ≠ []) {l : Located}
    (hl : l = locateIn ds rest (σ.keyOf newpath).1 0 none) (hf : l.found = false)
    (hp : l.parent ≠ 0) (hmem : d.moved l.parent l.newPath ∈ σ'.dirents) :
    l.newPath = lastName newpath ∧ rest = [lastName newpath] := by
  obtain ⟨a, last, rfl⟩ : ∃ a last, rest = a ++ [last] :=
    ⟨_, _, (dropLast_concat_getLast hrest).symm⟩
  rw [hnew.names_eq, ← append_assoc] at hnames
  obtain ⟨hdir, hlast⟩ := append_inj' hnames rfl
  obtain rfl := List.cons.inj hlast |>.1
  subst hl
  obtain ⟨hwalk, hpath⟩ := locateIn_missing_concat hf hp
  have hnone := locateIn_missing _ _ _ _ hf hp
  refine ⟨hpath, ?_⟩
  set l := locateIn ds (a ++ [lastName newpath]) (σ.keyOf newpath).1 0 none
  rw [hpath] at hmem hnone
  by_cases hk : (l.parent, lastName newpath) = σ.keyOf newpath
  · -- the way from the directory back to itself has no name
    have htwice : Metadata.resolve σ.dirents ((c ++ a) ++ a) kRootId =
        some (σ.keyOf newpath).1 := by
      rw [resolve_append, hdir, resolve_of_found hr.parent]
      exact (hgone.resolve hwalk).trans (congrArg some (congrArg Prod.fst hk))
    have := h.walk_unique hr.directory htwice (hdir ▸ resolve_of_found hr.parent)
    rw [List.append_right_eq_self.mp this]
    rfl
  · rw [hgone.kept _ hk] at hnone
    have hkold : (l.parent, lastName newpath) ≠ σ.keyOf oldpath := by
      intro hko
      rw [hko, ← hd.key, hd.mem] at hnone
      cases hnone
    have hin := (hdone.others (d.moved l.parent (lastName newpath)) hkold hk).mp hmem
    exact absurd (hasKey_iff.mpr rfl) (find?_eq_none.mp hnone _ hin)

end Rename

/-- **`Rename` does what it says** on a tree, for two canonical paths that `rename(2)` accepts, if
and only if the new name fits and an existing target lies directly in the last common directory. -/
theorem rename_moves {env : Env} (hins : env.Accepts) {srv th : Nat} {σ : Cluster}
    {oldpath newpath : Name} (h : IsTree σ) (hold : Canonical oldpath) (hnew : Canonical newpath)
    (hr : Renameable σ oldpath newpath)
    (hroom : (σ.servers srv).log.takes (σ.renameRecords oldpath newpath) = true) :
    (∃ σ', σ.run env srv th (.rename oldpath newpath) = some (0, σ') ∧
      RenameDone σ σ' oldpath newpath) ↔
    (lastName newpath).length ≤ kMaxFilenameLen ∧
      ((σ.locate newpath 0).found = true → InCommonDir oldpath newpath) := by
  have hne : oldpath ≠ newpath := by
    rintro rfl
    exact hr.below (prefix_refl _)
  obtain ⟨lcd, hof, hor, hnr, hnames, hlast⟩ := h.resolutions hold hnew hne hr.old
  obtain ⟨d, hd⟩ := h.entryAt hold hr.old
  have hentry : σ.entryOf env (σ.oldRes oldpath lcd) = (d, σ) := by
    rw [hor]
    exact entryOf_endsIn hd.ends
  have hdir0 : (σ.keyOf newpath).1 ≠ 0 :=
    resolve_ne_zero h.idsSet (by decide) (resolve_of_found hr.parent)
  rw [hd.renameRecords] at hroom
  have hsucceeded : ∀ {σ'}, σ.run env srv th (.rename oldpath newpath) = some (0, σ') →
      Renamed env srv th σ oldpath newpath false 0 σ' := by
    intro σ' hrun
    cases run_call.mp hrun with
    | rename hren => exact hren
  cases hf : (σ.locate newpath 0).found with
  | false =>
    obtain ⟨hmiss, hnone⟩ := locate_missing_eq hnew hr.parent hf
    rw [hf, if_neg (by simp), nil_append, Log.takes_cons] at hroom
    constructor
    · rintro ⟨σ', hrun, -⟩
      refine ⟨?_, nofun⟩
      rcases (hsucceeded hrun).succeeded with ⟨lcd', -, hc, -⟩ | ⟨lcd', hof', -, hm⟩
      · obtain rfl : lcd = lcd' := Option.some.inj (hof.lcd_eq.symm.trans hc.lcd_eq)
        have := hc.new
        rw [hnr, hf] at this
        cases this
      · obtain rfl : lcd = lcd' := Option.some.inj (hof.lcd_eq.symm.trans hof'.lcd_eq)
        have := hm.succeeded.2.1
        rwa [hnr, hmiss] at this
    · rintro ⟨hname, -⟩
      have hren : Renamed env srv th σ oldpath newpath false 0 _ :=
        .moved hof (hnr ▸ hf) (.renamed (by rw [hnr, hmiss]; exact hdir0)
          (by rw [hnr, hmiss]; exact hname) rfl (by rw [hentry, hnr, hmiss, hor]; exact hroom.1))
      refine ⟨_, run_call.mpr (.rename hren), ?_⟩
      have hgone : TargetGone σ newpath σ.dirents :=
        ⟨.refl _, hnone, fun _ _ => rfl, fun _ _ => .rfl⟩
      refine hgone.done hr h hold hnew hd ?_
      rw [addEntry_dirents hins, deleteEntry_dirents, append_dirents, hentry,
        hnr, hmiss, hor, hd.ends.parent]
      rfl
  | true =>
    obtain ⟨e, he⟩ := h.entryAt hnew hf
    have hentry' : σ.entryOf env (σ.newRes oldpath newpath lcd) = (e, σ) := by
      rw [hnr]
      exact entryOf_endsIn he.ends
    have hbefore : σ.beforeCover env oldpath newpath lcd = σ := by
      rw [Cluster.beforeCover, hentry, hentry']
    -- where the second resolution starts
    have hstart : (σ.newRes oldpath newpath lcd).parent = (σ.keyOf newpath).1 := by
      rw [hnr, he.ends.parent, ← he.key]
      rfl
    constructor
    · rintro ⟨σ', hrun, hdone⟩
      rcases (hsucceeded hrun).succeeded with ⟨lcd', σ₁, hc, -, hu, hf₁, hm⟩ | ⟨lcd', hof', hf', -⟩
      · obtain rfl : lcd = lcd' := Option.some.inj (hof.lcd_eq.symm.trans hc.lcd_eq)
        rw [hbefore] at hu
        have hgone : TargetGone σ newpath σ₁.dirents := h.targetGone he (hu.done rfl).dirents
        obtain ⟨hp, hlen, -, hσ'⟩ := hm.succeeded
        obtain ⟨-, rfl⟩ | ⟨hl, -⟩ := hσ'
        · have hrest : components (newpath.drop lcd) ≠ [] := by
            intro hnil
            rw [Cluster.locate, hnil] at hf₁
            cases hf₁
          obtain ⟨hpath, hone⟩ := hgone.direct hr h hnew hd hdone hnames hrest
            (by rw [hstart, Cluster.locate, if_neg hdir0]) hf₁ hp (by
              rw [addEntry_dirents hins, hentry]
              exact mem_cons_self)
          exact ⟨hpath ▸ hlen, fun _ => hlast.mpr hone⟩
        · cases hl
      · obtain rfl : lcd = lcd' := Option.some.inj (hof.lcd_eq.symm.trans hof'.lcd_eq)
        rw [hnr, hf] at hf'
        cases hf'
    · rintro ⟨hname, hdirect⟩
      obtain ⟨-, n, m, hn, hm, hkind, hempty⟩ := hr.target hf
      rw [hf, if_pos rfl, singleton_append, Log.takes_cons, Log.takes_cons] at hroom
      have hcoversDir : σ.coversDir env oldpath newpath lcd = m.isDir := by
        rw [Cluster.coversDir, hentry, hentry']
        exact h.kinds.agree newpath 0 e m hnew.1 he.ends.ent hm
      have hcovers : Covers env σ oldpath newpath lcd := by
        refine ⟨hof, hnr ▸ hf, ?_⟩
        rw [hentry, hentry']
        exact (h.kinds.agree oldpath 0 d n hold.1 hd.ends.ent hn).trans
          (hkind.symm.trans (h.kinds.agree newpath 0 e m hnew.1 he.ends.ent hm).symm)
      -- the target has no entries, so `Unlink` takes it
      have hvalid : Unlinkable σ (σ.locate newpath 0).id m.isDir :=
        ⟨m, hm, h.unlinkable hm hempty⟩
      obtain ⟨σ₁, hu⟩ : ∃ σ₁, Unlinked env srv th σ newpath m.isDir 0 σ₁ :=
        unlinked_of_unlinkable hf hroom.1 hvalid
      have hdone := hu.done rfl
      have hgone : TargetGone σ newpath σ₁.dirents := h.targetGone he hdone.dirents
      have hagain : σ₁.locate (newpath.drop lcd) (σ.newRes oldpath newpath lcd).parent =
          .missing (σ.keyOf newpath).1 (σ.keyOf newpath).2 true := by
        rw [hstart, Cluster.locate, if_neg hdir0, hlast.mp (hdirect rfl)]
        have := hgone.gone
        rw [lookup] at this
        simp only [locateIn]
        rw [show Dirent.hasKey (σ.keyOf newpath).1 (lastName newpath) =
          Dirent.hasKey (σ.keyOf newpath).1 (σ.keyOf newpath).2 from rfl, this]
        rfl
      have hroom₁ : σ₁.hasRoom srv (renameRequest false (σ.locate oldpath 0) d (σ.keyOf newpath).1
          (σ.keyOf newpath).2) = true := by
        obtain ⟨v, hv⟩ : ∃ v, ((σ.append env srv th (σ.locate newpath 0).unlinkRequest).servers
          srv).log = (σ.servers srv).log.append (σ.locate newpath 0).unlinkRequest v :=
            append_log _
        rw [Cluster.hasRoom, hdone.log, hv]
        exact hroom.2.1
      have hren : Renamed env srv th σ oldpath newpath false 0 _ :=
        .covered hcovers rfl (by rw [hbefore, hcoversDir]; exact hu) (by rw [hagain]; rfl)
          (.renamed (by rw [hagain]; exact hdir0) (by rw [hagain]; exact hname) rfl
            (by rw [hagain, hentry, hor]; exact hroom₁))
      refine ⟨_, run_call.mpr (.rename hren), hgone.done hr h hold hnew hd ?_⟩
      rw [addEntry_dirents hins, deleteEntry_dirents, append_dirents, hentry,
        hagain, hor, hd.ends.parent]
      rfl

/-- `/a` is renamed to `/b`, another file of the root: the conditions are met. -/
theorem rename_moves_sibling :
    ∃ σ σ', IsTree σ ∧ Renameable σ pathA pathB ∧ (σ.locate pathB 0).found = true ∧
      σ.run steadyEnv 0 0 (.rename pathA pathB) = some (0, σ') ∧ RenameDone σ σ' pathA pathB := by
  have hrun : ((sequential steadyEnv).runChecked makesEntry
      [.call (.create pathA 0o644 0 0), .call (.create pathB 0o644 0 0)] freshCluster).map
      (fun σ => ((σ.locate pathA 0, σ.locate pathB 0, σ.locate (parentPath pathB) 0),
        (σ.inodes kRootId, σ.inodes 3, σ.inodes 4),
        (σ.servers 0).log.takes (σ.renameRecords pathA pathB))) =
      some ((.atEnd 3 kRootId (some ⟨3, kRootId, DT_REG, [97]⟩),
          .atEnd 4 kRootId (some ⟨4, kRootId, DT_REG, [98]⟩), .atEnd kRootId 0 none),
        (some ⟨1, 0o755 ||| S_IFDIR, 2, 1, 2⟩, some ⟨1, 0o644 ||| S_IFREG, 0, 0, 0⟩,
          some ⟨1, 0o644 ||| S_IFREG, 0, 0, 0⟩), true) := by
    decide +kernel
  obtain ⟨σ, hσ, he⟩ := map_eq_some_iff.mp hrun
  simp only [Prod.mk.injEq] at he
  obtain ⟨⟨hold, hnew, hparent⟩, ⟨hroot, hinode, htarget⟩, hroom⟩ := he
  have hreach := reach_of_makesEntry hσ
  have hr : Renameable σ pathA pathB := by
    refine ⟨by rw [hold]; rfl, by rw [hparent]; rfl, ?_, by decide, fun _ => ?_⟩
    · rw [hparent]
      exact ⟨_, hroot, by decide⟩
    · rw [hold, hnew]
      exact ⟨by decide, _, _, hinode, htarget, rfl, fun hdir => absurd hdir (by decide)⟩
  have hdirect : InCommonDir pathA pathB := by
    intro lcd hlcd
    obtain rfl : 0 = lcd := Option.some.inj
      ((by decide : lastCommonDir pathA pathB = some 0).symm.trans hlcd)
    decide
  obtain ⟨σ', hmoved, hdone⟩ : ∃ σ', σ.run steadyEnv 0 0 (.rename pathA pathB) = some (0, σ') ∧ _ :=
    (rename_moves steadyEnv_accepts (isTree_reached steadyEnv_accepts hreach) (by decide)
      (by decide) hr hroom).mpr ⟨by decide, fun _ => hdirect⟩
  exact ⟨σ, σ', isTree_reached steadyEnv_accepts hreach, hr, by rw [hnew]; rfl, hmoved, hdone⟩

/-- **A target below the last common directory is lost**: `/a` is renamed to the existing file
`/d/x`; the second resolution looks for `d` in `/d`, and the rename returns -1. -/
theorem deep_cover_fails :
    ∃ σ, IsTree σ ∧ Renameable σ pathA pathDX ∧
      (σ.servers 0).log.takes (σ.renameRecords pathA pathDX) = true ∧
      ∃ σ', σ.run steadyEnv 0 0 (.rename pathA pathDX) = some (-1, σ') ∧
        (σ'.locate pathDX 0).found = false := by
  have hrun : ((sequential steadyEnv).runChecked makesEntry
      [.call (.mkdir pathD 0o755 0 0), .call (.create pathDX 0o644 0 0),
        .call (.create pathA 0o644 0 0)] freshCluster).map
      (fun σ => ((σ.locate pathA 0, σ.locate pathDX 0, σ.locate (parentPath pathDX) 0),
        (σ.inodes 3, σ.inodes 4, σ.inodes 5),
        (σ.servers 0).log.takes (σ.renameRecords pathA pathDX))) =
      some ((.atEnd 5 kRootId (some ⟨5, kRootId, DT_REG, [97]⟩),
          .atEnd 4 3 (some ⟨4, 3, DT_REG, [120]⟩),
          .atEnd 3 kRootId (some ⟨3, kRootId, DT_DIR, [100]⟩)),
        (some ⟨1, 0o755 ||| S_IFDIR, 1, 0, 0⟩, some ⟨1, 0o644 ||| S_IFREG, 0, 0, 0⟩,
          some ⟨1, 0o644 ||| S_IFREG, 0, 0, 0⟩), true) := by
    decide +kernel
  have hresult : ((sequential steadyEnv).runChecked makesEntry
      [.call (.mkdir pathD 0o755 0 0), .call (.create pathDX 0o644 0 0),
        .call (.create pathA 0o644 0 0)] freshCluster).bind
      (fun σ => (σ.run steadyEnv 0 0 (.rename pathA pathDX)).map
        fun x => (x.1, (x.2.locate pathDX 0).found)) = some (-1, false) := by
    decide +kernel
  obtain ⟨σ, hσ, he⟩ := map_eq_some_iff.mp hrun
  simp only [Prod.mk.injEq] at he
  obtain ⟨⟨hold, hnew, hparent⟩, ⟨hdir, htarget, hinode⟩, hroom⟩ := he
  rw [hσ, bind_some] at hresult
  have hreach := reach_of_makesEntry hσ
  refine ⟨σ, isTree_reached steadyEnv_accepts hreach, ?_, hroom, ?_⟩
  · refine ⟨by rw [hold]; rfl, by rw [hparent]; rfl, ?_, by decide, fun _ => ?_⟩
    · rw [hparent]
      exact ⟨_, hdir, by decide⟩
    · rw [hold, hnew]
      exact ⟨by decide, _, _, hinode, htarget, rfl, fun hdir => absurd hdir (by decide)⟩
  · obtain ⟨⟨r, σ'⟩, hσ', he⟩ := map_eq_some_iff.mp hresult
    obtain ⟨rfl, hfound⟩ := Prod.mk.inj he
    exact ⟨σ', hσ', hfound⟩

end StaxFS.Metadata
