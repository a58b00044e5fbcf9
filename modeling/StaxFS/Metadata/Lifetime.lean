import StaxFS.Foundation.History
import StaxFS.Metadata.Unique

/-!
# How long a created inode stays

`Create` takes an id, and `Unlink` gives the id of an inode without links back before it deletes the
inode. A `Create` that takes the id in between puts a new inode in the table, and the `Unlink` then
deletes that one. The same happens to an inode whose id was taken over from an entry that an
`Unlink` had looked up before.

`Owned` is the discipline of the ids: an id is free, or reserved by one `Create`, or names a table
inode, which at most one `Unlink` has brought to zero and will free and delete.

Results:
* `Owned.allocate`, `Owned.put`, `Owned.giveBack`, `Owned.release`, `Owned.delete`,
  `Owned.condemn`, `Owned.change`: what the operations do to the ids.
* `along_life`: `Create` and `Unlink` use their ids in this order.
* `created_stays`: a created inode stays until an `Unlink` looked it up and took its last link, if
  an inode is put in the table only when no `Unlink` in flight has looked its id up.
-/

namespace StaxFS.Metadata

open Foundation Wal List Option
open Function (update update_apply update_eq_self update_of_ne update_self)

/-! ### Ids -/

namespace IdPool

/-- The ids that allocations can still give out, those past the range of the server included. -/
def Avail (p : IdPool) (i : Nat) : Prop := i ∈ p.recycled ∨ p.minUnused ≤ i

/-- No id can be given out twice. -/
structure Ordered (p : IdPool) : Prop where
  nodup : p.recycled.Nodup
  lt : ∀ i ∈ p.recycled, i < p.minUnused

variable {p : IdPool} {i : Nat}

theorem avail_allocate (p : IdPool) : p.Avail p.allocate.1 := by
  rcases p.allocate_cases with ⟨h1, -, -⟩ | ⟨h1, -⟩
  · exact .inr h1.ge
  · exact .inl (h1.subset mem_cons_self)

theorem Avail.of_allocate (h : p.allocate.2.Avail i) : p.Avail i := by
  rcases p.allocate_cases with ⟨-, h2, h3⟩ | ⟨h1, h2⟩
  · rcases h with h | h
    · exact .inl (h3 ▸ h)
    · exact .inr (by omega)
  · rcases h with h | h
    · exact .inl (h1.subset (mem_cons_of_mem _ h))
    · exact .inr (h2 ▸ h)

theorem Ordered.not_avail_allocate (h : p.Ordered) : ¬p.allocate.2.Avail p.allocate.1 := by
  rcases p.allocate_cases with ⟨h1, h2, h3⟩ | ⟨h1, h2⟩
  · rintro (hi | hi)
    · have := h.lt _ (h3 ▸ hi)
      omega
    · omega
  · rintro (hi | hi)
    · exact (nodup_cons.mp (h1.nodup_iff.mpr h.nodup)).1 hi
    · have := h.lt _ (h1.subset mem_cons_self)
      omega

theorem Ordered.allocate (h : p.Ordered) : p.allocate.2.Ordered := by
  rcases p.allocate_cases with ⟨-, h2, h3⟩ | ⟨h1, h2⟩
  · exact ⟨h3 ▸ h.nodup, fun i hi => by
      have := h.lt i (h3 ▸ hi)
      omega⟩
  · exact ⟨(nodup_cons.mp (h1.nodup_iff.mpr h.nodup)).2,
      fun i hi => h2 ▸ h.lt i (h1.subset (mem_cons_of_mem _ hi))⟩

theorem Ordered.free (h : p.Ordered) (hi : ¬p.Avail i) :
    (p.free i).Ordered ∧ ∀ j, (p.free i).Avail j → p.Avail j ∨ j = i := by
  have hmem : i ∉ p.recycled := fun hm => hi (.inl hm)
  have hlt : i < p.minUnused := by
    by_contra hge
    exact hi (.inr (by omega))
  by_cases hr : p.base ≤ i ∧ i < p.max
  · rcases p.free_cases hr with ⟨hu, h1, h2⟩ | ⟨h1, h2⟩
    · refine ⟨⟨h2 ▸ h.nodup, fun j hj => ?_⟩, fun j hj => ?_⟩
      · rw [h2] at hj
        have hne : j ≠ i := fun he => hmem (he ▸ hj)
        have := h.lt j hj
        omega
      · rcases hj with hj | hj
        · exact .inl (.inl (h2 ▸ hj))
        · by_cases he : j = i
          · exact .inr he
          · exact .inl (.inr (by omega))
    · refine ⟨⟨?_, fun j hj => ?_⟩, fun j hj => ?_⟩
      · rw [h2]
        exact h.nodup.append (nodup_singleton i)
          (disjoint_singleton.mpr hmem)
      · rw [h2, mem_append, mem_singleton] at hj
        rcases hj with hj | rfl
        · exact h1 ▸ h.lt j hj
        · omega
      · rcases hj with hj | hj
        · rw [h2, mem_append, mem_singleton] at hj
          exact hj.imp_left .inl
        · exact .inl (.inr (h1 ▸ hj))
  · obtain ⟨h1, h2⟩ := free_of_foreign p i hr
    refine ⟨⟨h2 ▸ h.nodup, fun j hj => h1 ▸ h.lt j (h2 ▸ hj)⟩, fun j hj => .inl ?_⟩
    exact hj.imp (h2 ▸ ·) (h1 ▸ ·)

end IdPool

/-- What a call is about to do with an id. -/
inductive Stage
  | none
  /-- `Create` has taken it -/
  | reserved (id : Nat)
  /-- `Unlink` has taken the last link of its inode -/
  | condemned (id : Nat)
  /-- `Unlink` has given it back and will delete its inode -/
  | deleting (id : Nat)
deriving DecidableEq, Repr

/-- The discipline of the ids. -/
structure Owned (p : IdPool) (inodes : Nat → Option Inode) (stage : Nat → Stage) : Prop where
  ordered : p.Ordered
  free : ∀ i t, p.Avail i → stage t ≠ .reserved i ∧ stage t ≠ .condemned i
  reserved : ∀ i t, stage t = .reserved i →
    ∀ t', t' ≠ t → stage t' ≠ .reserved i ∧ stage t' ≠ .condemned i
  /-- the inode of an id that can be put is gone, or about to be deleted -/
  gone : ∀ i, (p.Avail i ∨ ∃ t, stage t = .reserved i) →
    inodes i = none ∨ ∃ u, stage u = .deleting i
  doomed : ∀ i u, stage u = .condemned i ∨ stage u = .deleting i →
    (∃ n, inodes i = some n ∧ n.nlink = 0) ∧
      ∀ u', u' ≠ u → stage u' ≠ .condemned i ∧ stage u' ≠ .deleting i

namespace Owned

variable {p : IdPool} {inodes : Nat → Option Inode} {stage : Nat → Stage} {i t : Nat}

/-- An inode with links is owned by nobody. -/
theorem settled (h : Owned p inodes stage) {n : Inode} (hn : inodes i = some n) (hl : n.nlink ≠ 0) :
    ¬p.Avail i ∧ ∀ t, stage t ≠ .reserved i ∧ stage t ≠ .condemned i ∧ stage t ≠ .deleting i := by
  have hdoomed : ∀ u, ¬(stage u = .condemned i ∨ stage u = .deleting i) := by
    intro u hu
    obtain ⟨⟨m, hm, hz⟩, -⟩ := h.doomed i u hu
    rw [hn] at hm
    cases hm
    exact hl hz
  have hgone : ¬(p.Avail i ∨ ∃ t, stage t = .reserved i) := by
    intro hg
    rcases h.gone i hg with hnone | ⟨u, hu⟩
    · rw [hn] at hnone
      cases hnone
    · exact hdoomed u (.inr hu)
  exact ⟨fun ha => hgone (.inl ha), fun t => ⟨fun hr => hgone (.inr ⟨t, hr⟩),
    fun hc => hdoomed t (.inl hc), fun hd => hdoomed t (.inr hd)⟩⟩

theorem allocate (h : Owned p inodes stage) (ht : stage t = .none) :
    Owned p.allocate.2 inodes (update stage t (.reserved p.allocate.1)) := by
  have hfree := fun t' => h.free p.allocate.1 t' p.avail_allocate
  have hother : ∀ u s, s ≠ .reserved p.allocate.1 → s ≠ .none →
      (update stage t (.reserved p.allocate.1) u = s ↔ stage u = s) := by
    intro u s hs hs'
    by_cases hu : u = t
    · subst hu
      rw [update_self, ht]
      exact ⟨fun he => absurd he.symm hs, fun he => absurd he.symm hs'⟩
    · rw [update_of_ne hu]
  have hres : ∀ i, i ≠ p.allocate.1 → ∀ u,
      (update stage t (.reserved p.allocate.1) u = .reserved i ↔ stage u = .reserved i) :=
    fun i hi u => hother u _ (fun he => hi (Stage.reserved.inj he)) nofun
  refine ⟨h.ordered.allocate, fun i u ha => ?_, fun i u hu u' hne => ?_, fun i hg => ?_,
    fun i u hu => ?_⟩
  · have hi : i ≠ p.allocate.1 := fun he => h.ordered.not_avail_allocate (he ▸ ha)
    rw [Ne, hres i hi, Ne, hother u (.condemned i) nofun nofun]
    exact h.free i u ha.of_allocate
  · by_cases hi : i = p.allocate.1
    · subst hi
      have hut : u = t := by
        by_contra hne'
        rw [update_of_ne hne'] at hu
        exact (hfree u).1 hu
      rw [update_of_ne (hut ▸ hne)]
      exact hfree u'
    · rw [Ne, hres i hi, Ne, hother u' (.condemned i) nofun nofun]
      exact h.reserved i u ((hres i hi u).mp hu) u' hne
  · simp only [hother _ (.deleting i) nofun nofun]
    refine h.gone i ?_
    rcases hg with ha | ⟨u, hu⟩
    · exact .inl ha.of_allocate
    · by_cases hi : i = p.allocate.1
      · exact .inl (hi ▸ p.avail_allocate)
      · exact .inr ⟨u, (hres i hi u).mp hu⟩
  · simp only [hother _ (.condemned i) nofun nofun, hother _ (.deleting i) nofun nofun, Ne] at hu ⊢
    exact h.doomed i u hu

/-- The stages of the other calls stay. -/
theorem exists_update {s x : Stage} (h : ∃ u, stage u = x) (ht : stage t ≠ x) :
    ∃ u, update stage t s u = x := by
  obtain ⟨u, hu⟩ := h
  refine ⟨u, (update_of_ne ?_ _ _).trans hu⟩
  rintro rfl
  exact ht hu

theorem exists_of_update {s x : Stage} (h : ∃ u, update stage t s u = x) (hs : s ≠ x) :
    ∃ u, u ≠ t ∧ stage u = x := by
  obtain ⟨u, hu⟩ := h
  by_cases hut : u = t
  · subst hut
    rw [update_self] at hu
    exact absurd hu hs
  · rw [update_of_ne hut] at hu
    exact ⟨u, hut, hu⟩

section

variable (h : Owned p inodes stage)

include h

/-- `gone` when a call enters a stage in which it does not delete. -/
theorem gone_update {q : IdPool} {s : Stage} {j : Nat}
    (hq : ∀ j, q.Avail j → p.Avail j ∨ stage t = .reserved j) (hs : ∀ j, s ≠ .reserved j)
    (ht : ∀ j, stage t ≠ .deleting j) (hg : q.Avail j ∨ ∃ u, update stage t s u = .reserved j) :
    inodes j = none ∨ ∃ u, update stage t s u = .deleting j := by
  refine (h.gone j ?_).imp_right (exists_update · (ht j))
  rcases hg with ha | hr
  · exact (hq j ha).imp_right fun hr => ⟨t, hr⟩
  · obtain ⟨u, -, hu⟩ := exists_of_update hr (hs j)
    exact .inr ⟨u, hu⟩

theorem put (ht : stage t = .reserved i)
    (hd : ∀ u, stage u ≠ .condemned i ∧ stage u ≠ .deleting i) (n : Inode) :
    Owned p (update inodes i (some n)) (update stage t .none) := by
  have hna : ¬p.Avail i := fun ha => (h.free i t ha).1 ht
  have hgone := fun j => h.gone_update (t := t) (s := .none) (j := j) (fun _ => .inl) nofun
    (fun j => ht ▸ nofun)
  have hother := h.reserved i t ht
  obtain ⟨h1, h2, h3, h4, h5⟩ := h
  refine ⟨h1, ?_, ?_, fun j hg => ?_, ?_⟩
  · simp only [update_apply]
    grind
  · simp only [update_apply]
    grind
  · by_cases hj : j = i
    · subst hj
      rcases hg with ha | hr
      · exact absurd ha hna
      · obtain ⟨u, hut, hu⟩ := exists_of_update hr nofun
        exact absurd hu (hother u hut).1
    · rw [update_of_ne hj]
      exact hgone j hg
  · simp only [update_apply]
    grind

theorem giveBack (ht : stage t = .reserved i) : Owned (p.free i) inodes (update stage t .none) := by
  have hna : ¬p.Avail i := fun ha => (h.free i t ha).1 ht
  obtain ⟨hord, hav⟩ := h.ordered.free hna
  have hgone := fun j => h.gone_update (t := t) (s := .none) (j := j)
    (fun j hj => (hav j hj).imp_right fun he : j = i => he ▸ ht) nofun (fun j => ht ▸ nofun)
  obtain ⟨h1, h2, h3, h4, h5⟩ := h
  refine ⟨hord, ?_, ?_, hgone, ?_⟩ <;> simp only [update_apply] <;> grind

theorem release (ht : stage t = .condemned i) :
    Owned (p.free i) inodes (update stage t (.deleting i)) := by
  have hna : ¬p.Avail i := fun ha => (h.free i t ha).2 ht
  obtain ⟨hord, hav⟩ := h.ordered.free hna
  refine ⟨hord, ?_, ?_, fun j hg => ?_, ?_⟩
  · have := h.free
    have := h.reserved
    have := h.doomed i t (.inl ht)
    simp only [update_apply]
    grind
  · have := h.reserved
    simp only [update_apply]
    grind
  · by_cases hj : j = i
    · exact .inr ⟨t, hj ▸ update_self ..⟩
    · refine (h.gone j ?_).imp_right (exists_update · (ht ▸ nofun))
      rcases hg with ha | hr
      · exact .inl ((hav j ha).resolve_right hj)
      · obtain ⟨u, -, hu⟩ := exists_of_update hr nofun
        exact .inr ⟨u, hu⟩
  · have := h.doomed
    simp only [update_apply]
    grind

theorem delete (ht : stage t = .deleting i) :
    Owned p (update inodes i none) (update stage t .none) := by
  obtain ⟨h1, h2, h3, h4, h5⟩ := h
  refine ⟨h1, ?_, ?_, fun j hg => ?_, ?_⟩
  · simp only [update_apply]
    grind
  · simp only [update_apply]
    grind
  · by_cases hj : j = i
    · exact .inl (hj ▸ update_self ..)
    · rw [update_of_ne hj]
      refine (h4 j ?_).imp_right (exists_update · ?_)
      · refine hg.imp_right fun hr => ?_
        obtain ⟨u, -, hu⟩ := exists_of_update hr nofun
        exact ⟨u, hu⟩
      · rw [ht]
        exact fun he => hj (Stage.deleting.inj he).symm
  · simp only [update_apply]
    grind

theorem condemn (ht : stage t = .none) {n n' : Inode}
    (hn : inodes i = some n) (hl : n.nlink ≠ 0) (hl' : n'.nlink = 0) :
    Owned p (update inodes i (some n')) (update stage t (.condemned i)) := by
  obtain ⟨hna, hst⟩ := h.settled hn hl
  have hgone := fun j => h.gone_update (t := t) (s := .condemned i) (j := j) (fun _ => .inl) nofun
    (fun j => ht ▸ nofun)
  obtain ⟨h1, h2, h3, h4, h5⟩ := h
  refine ⟨h1, ?_, ?_, fun j hg => ?_, ?_⟩
  · simp only [update_apply]
    grind
  · simp only [update_apply]
    grind
  · by_cases hj : j = i
    · subst hj
      rcases hg with ha | hr
      · exact absurd ha hna
      · obtain ⟨u, -, hu⟩ := exists_of_update hr nofun
        exact absurd hu (hst u).1
    · rw [update_of_ne hj]
      exact hgone j hg
  · simp only [update_apply]
    grind

theorem change {n n' : Inode} (hn : inodes i = some n)
    (hl : n.nlink = 0 → n'.nlink = 0) : Owned p (update inodes i (some n')) stage := by
  obtain ⟨h1, h2, h3, h4, h5⟩ := h
  refine ⟨h1, h2, h3, fun j hg => ?_, ?_⟩
  · refine (h4 j hg).imp_left fun hnone => ?_
    rw [update_of_ne, hnone]
    rintro rfl
    rw [hn] at hnone
    cases hnone
  · simp only [update_apply]
    grind

end

end Owned

/-! ### What the calls do with ids -/

/-- The event finds an entry of inode `i`. `Rmdir` of the root looks nothing up; there the record
names the inode. -/
def looksUp (i : Nat) : Prog.Event Op Res → Bool
  | ⟨.findDirent _ _, some d⟩ => d.id == i
  | ⟨.log (.unlink id _ _), _⟩ => i == kRootId && id == i
  | _ => false

/-- The event takes the last link of inode `i`. -/
def zeroes (i : Nat) : Prog.Event Op Res → Bool
  | ⟨.updateFn id (.unlink isDir), some n⟩ =>
    id == i && !unlinkError isDir n && n.dropLink.nlink == 0
  | _ => false

/-- The event puts inode `i` in the table. -/
def puts (i : Nat) : Prog.Event Op Res → Bool
  | ⟨.putInode id _, _⟩ => id == i
  | _ => false

/-- The stage of a call, from its trace. -/
def stageOf : Trace → Stage
  | [] => .none
  | ⟨.allocateInodeId, id⟩ :: _ => .reserved id
  | ⟨.putInode _ _, _⟩ :: _ => .none
  | ⟨.freeInodeId _, _⟩ :: tr =>
    match stageOf tr with
    | .condemned id => .deleting id
    | _ => .none
  | ⟨.deleteInode _, _⟩ :: _ => .none
  | ⟨.updateFn id (.unlink isDir), some n⟩ :: tr =>
    if !unlinkError isDir n && n.dropLink.nlink == 0 then .condemned id else stageOf tr
  | _ :: tr => stageOf tr

/-- The order in which a call uses its ids; only `Unlink` takes links. -/
def LifeOps (unlinks : Bool) (tr : Trace) : Op → Prop
  | .allocateInodeId => stageOf tr = .none
  | .putInode id _ => unlinks = false ∧ stageOf tr = .reserved id
  | .freeInodeId id => stageOf tr = .reserved id ∨ stageOf tr = .condemned id
  | .deleteInode id => stageOf tr = .deleting id
  | .updateFn id (.unlink _) =>
    unlinks = true ∧ stageOf tr = .none ∧ tr.any (looksUp id) = true
  | .updateFn _ .nlinkInc => False
  | _ => True

section Along

variable {tr : Trace} {u : Bool}

theorem life_locateLoop (names : List Name) (id parent : Nat) (ent : Option Dirent) :
    Prog.Along (LifeOps u) (fun tr' l => stageOf tr' = stageOf tr ∧
      (l.found = true → l.id = id ∨ tr'.any (looksUp l.id) = true))
      tr (locateLoop names id parent ent) := by
  induction names generalizing tr id parent ent with
  | nil => exact ⟨rfl, fun _ => .inl rfl⟩
  | cons name rest ih =>
    refine ⟨trivial, fun r => ?_⟩
    cases r with
    | none => exact ⟨rfl, nofun⟩
    | some d =>
      refine (ih d.id id (some d)).suffix.mono fun tr' l ⟨⟨hst, hl⟩, hsuf⟩ => ⟨hst, fun hf => ?_⟩
      refine .inr ((hl hf).elim (fun he => ?_) fun ha => ha)
      exact List.any_eq_true.mpr ⟨_, hsuf.subset mem_cons_self, by simp [looksUp, he]⟩

theorem life_addDirectoryEntry (entry : Dirent) (parentId : Nat) :
    Prog.Along (LifeOps u) (fun tr' _ => stageOf tr' = stageOf tr) tr
      (addDirectoryEntry entry parentId true) :=
  ⟨trivial, fun r => by cases r <;> exact ⟨trivial, fun _ => rfl⟩⟩

theorem life_deleteDirectoryEntry (name : Name) (parentId : Nat) :
    Prog.Along (LifeOps u) (fun tr' _ => stageOf tr' = stageOf tr) tr
      (deleteDirectoryEntry name parentId true) :=
  ⟨trivial, fun r => by cases r <;> exact ⟨trivial, fun _ => rfl⟩⟩

theorem life_unlink (path : Name) (isDir : Bool) (h : stageOf tr = .none) :
    Prog.Along (LifeOps true) (fun tr' _ => stageOf tr' = .none) tr (unlink path isDir) := by
  unfold unlink
  rw [Prog.along_bind]
  refine (life_locateLoop _ _ _ _).mono fun tr₁ res ⟨h₁, hl⟩ => ?_
  rw [h] at h₁
  split
  · exact h₁
  rename_i hf
  refine ⟨trivial, fun logged => ?_⟩
  simp only [Prog.bind]
  split
  · exact h₁
  -- the lookup found the inode, or the path is the root and the record names it
  have hlook : List.any (⟨.log (.unlink res.id res.parent res.entName), logged⟩ :: tr₁)
      (looksUp res.id) = true := by
    rw [any_cons]
    rcases hl (by simpa using hf) with he | ha
    · simp [looksUp, he]
    · simp [ha]
  refine ⟨⟨rfl, h₁, hlook⟩, fun r => ?_⟩
  cases r with
  | none => exact h₁
  | some n =>
    simp only [Prog.bind]
    by_cases hok : unlinkError isDir n = true
    · rw [if_pos hok]
      have : stageOf (⟨.updateFn res.id (.unlink isDir), some n⟩ ::
          ⟨.log (.unlink res.id res.parent res.entName), logged⟩ :: tr₁) = .none := by
        simp only [stageOf, hok]
        exact h₁
      exact this
    rw [if_neg hok]
    have hst : stageOf (⟨.updateFn res.id (.unlink isDir), some n⟩ ::
        ⟨.log (.unlink res.id res.parent res.entName), logged⟩ :: tr₁) =
        if n.dropLink.nlink = 0 then .condemned res.id else .none := by
      simp only [stageOf, Bool.not_eq_true] at hok ⊢
      simp [hok, h₁]
    refine (life_deleteDirectoryEntry _ _).bind fun tr₃ _ h₃ => ?_
    rw [hst] at h₃
    by_cases hz : n.dropLink.nlink = 0
    · rw [if_pos hz] at h₃ ⊢
      have h₄ : stageOf (⟨.freeInodeId res.id, ()⟩ :: tr₃) = .deleting res.id := by
        simp only [stageOf, h₃]
      exact ⟨.inr h₃, fun _ => ⟨h₄, fun _ => rfl⟩⟩
    · rw [if_neg hz] at h₃ ⊢
      exact h₃

theorem life_create (path : Name) (mode uid gid : Nat) (isDir : Bool) (h : stageOf tr = .none) :
    Prog.Along (LifeOps false) (fun tr' _ => stageOf tr' = .none) tr (create path mode uid gid isDir) := by
  unfold create
  rw [Prog.along_bind]
  refine (life_locateLoop _ _ _ _).mono fun tr₁ res ⟨h₁, _⟩ => ?_
  rw [h] at h₁
  split
  · exact h₁
  split
  · refine ⟨trivial, fun r => ?_⟩
    cases r <;> exact h₁
  refine ⟨h₁, fun id => ?_⟩
  simp only [Prog.bind]
  split
  on_goal 1 => refine ⟨trivial, fun _ => ?_⟩
  -- from the allocation to the end
  all_goals
    refine ⟨trivial, fun logged => ?_⟩
    simp only [Prog.bind]
    by_cases hl : (!logged) = true
    · rw [if_pos hl]
      refine ⟨.inl rfl, fun _ => ?_⟩
      change stageOf (⟨.freeInodeId id, ()⟩ :: _) = .none
      simp [stageOf]
    · rw [if_neg hl]
      exact ⟨⟨rfl, rfl⟩, fun _ => Prog.along_bind.mpr (life_addDirectoryEntry _ _)⟩

end Along

/-- `Create` and `Mkdir`. -/
def Call.creates : Call → Bool
  | .create .. | .mkdir .. => true
  | _ => false

/-- `Unlink` and `Rmdir`. -/
def Call.unlinks : Call → Bool
  | .unlink _ | .rmdir _ => true
  | _ => false

/-- **`Create` and `Unlink` use their ids in order** and have none left in the end. -/
theorem along_life (c : Call) (h : c.creates = true ∨ c.unlinks = true) :
    Prog.Along (LifeOps c.unlinks) (fun tr _ => stageOf tr = .none) [] c.body := by
  cases c with
  | create | mkdir => exact life_create _ _ _ _ _ rfl
  | unlink | rmdir => exact life_unlink _ _ rfl
  | _ => exact h.elim nofun nofun

variable {tr : Trace} {env : Env} {op : Op} {σ σ' : Cluster} {r : Res op}

/-- A step with an id is a step of the discipline. -/
theorem Owned.exec {srv t : Nat} {stage : Nat → Stage}
    (h : Owned (σ.servers srv).ids σ.inodes stage) (ht : stage t = stageOf tr)
    {unlinks : Bool} (hops : LifeOps unlinks tr op) (hx : exec env srv t op σ = some (r, σ'))
    (hput : ∀ id n, op = .putInode id n → ∀ u, stage u ≠ .condemned id ∧ stage u ≠ .deleting id)
    (hlink : ∀ id isDir n, op = .updateFn id (.unlink isDir) → σ.inodes id = some n →
      unlinkError isDir n = false → n.nlink ≠ 0) :
    Owned (σ'.servers srv).ids σ'.inodes (update stage t (stageOf (⟨op, r⟩ :: tr))) := by
  have hsame : ∀ {σ' : Cluster}, (σ'.servers srv).ids = (σ.servers srv).ids →
      σ'.inodes = σ.inodes →
      Owned (σ'.servers srv).ids σ'.inodes (update stage t (stageOf tr)) := by
    intro σ' h1 h2
    rw [h1, h2, ← ht, update_eq_self]
    exact h
  cases op with
  | undefined => cases hx
  | allocateInodeId =>
    cases hx
    rw [setIds_ids]
    exact h.allocate (ht.trans hops)
  | putInode id n =>
    cases hx
    exact h.put (ht.trans hops.2) (hput id n rfl) n
  | deleteInode id =>
    cases hx
    exact h.delete (ht.trans hops)
  | freeInodeId id =>
    cases hx
    rw [setIds_ids]
    rcases hops with hr | hc
    · simp only [stageOf, hr]
      exact h.giveBack (ht.trans hr)
    · simp only [stageOf, hc]
      exact h.release (ht.trans hc)
  | updateFn id f =>
    cases hx
    rw [Cluster.updateFn_servers]
    cases hn : σ.inodes id with
    | none =>
      rw [Cluster.updateFn_of_none f hn]
      cases f <;> exact hsame rfl rfl
    | some n =>
      have hch : (n.nlink = 0 → (f.apply n).nlink = 0) →
          Owned (σ.servers srv).ids (σ.updateFn id f).inodes
            (update stage t (stageOf tr)) := by
        intro hz
        rw [Cluster.updateFn_of_some f hn, ← ht, update_eq_self]
        exact h.change hn hz
      cases f with
      | unlink isDir =>
        simp only [stageOf]
        cases he : unlinkError isDir n with
        | true =>
          rw [if_neg (by simp)]
          refine hch fun hz => ?_
          simp [InodeFn.apply, he, hz]
        | false =>
          have hl := hlink id isDir n rfl hn he
          by_cases hd : n.dropLink.nlink = 0
          · rw [if_pos (by simpa using hd), Cluster.updateFn_of_some _ hn]
            refine h.condemn (ht.trans hops.2.1) hn hl ?_
            simpa [InodeFn.apply, he] using hd
          · rw [if_neg (by simpa using hd)]
            exact hch fun hz => absurd hz hl
      | nlinkInc => exact hops.elim
      | _ => exact hch fun hz => by simpa [InodeFn.apply] using hz
  | log req =>
    cases hx
    split
    · exact hsame (by simp) (by simp)
    · exact hsame rfl rfl
  | insertDirent d =>
    cases hx
    exact hsame (by simp) (by simp)
  | _ =>
    cases hx
    exact hsame rfl rfl

/-! ### The runs -/

/-- Calls and the state they share, with the history of all operations. -/
abbrev RecordedCalls := Pool Request Op Res Int (Cluster × History Op Res)

/-- Interleaved runs from `σ₀`, recorded. -/
def recordedCalls (env : Env) (σ₀ : Cluster) : System RecordedCalls (PoolAct Request (Nat × Nat)) :=
  recorded (fun q => q.call.body) (fun t q => exec env q.srv t) checkpointStep (· = σ₀)

/-- Only `Create` and `Unlink` calls are made, all on server `srv`. -/
def CreatesAndUnlinks (srv : Nat) : PoolAct Request (Nat × Nat) → Prop
  | .start _ q => q.srv = srv ∧ (q.call.creates = true ∨ q.call.unlinks = true)
  | _ => True

/-- **When a created inode stays**: an inode is put in the table only when no `Unlink` in flight has
looked its id up, and no `Unlink` takes a link from an inode that has none left. -/
def Undisturbed (P : RecordedCalls) : PoolAct Request (Nat × Nat) → Prop
  | .step t => ∀ q tr op k, P.threads t = .active q tr (.call op k) →
      (∀ id n, op = .putInode id n → ∀ u q' tr' op' k', u ≠ t →
        P.threads u = .active q' tr' (.call op' k') → q'.call.unlinks = true →
        tr'.any (looksUp id) = false) ∧
      (∀ id isDir n, op = .updateFn id (.unlink isDir) → P.shared.1.inodes id = some n →
        unlinkError isDir n = false → n.nlink ≠ 0)
  | _ => True

/-- The event finds inode `i` in the table. -/
def gets (i : Nat) : Prog.Event Op Res → Bool
  | ⟨.getInode id, some _⟩ => id == i
  | _ => false

/-- The id a successful `Create` returns: of the inode it put in the table or found there. -/
def createdId : Trace → Option Nat
  | [] => none
  | ⟨.putInode id _, _⟩ :: _ => some id
  | ⟨.getInode id, some _⟩ :: _ => some id
  | _ :: tr => createdId tr

/-- What happened since inode `i`, which call `t` returned, was created. -/
def lifetime (t i : Nat) : History Op Res → History Op Res
  | [] => []
  | x :: h =>
    if x.1 = t ∧ puts i x.2 = true then []
    else if x.1 = t ∧ gets i x.2 = true then x :: h.takeWhile fun y => !puts i y.2
    else x :: lifetime t i h

/-- An `Unlink` looked inode `i` up and took its last link. -/
def unlinkedIn (i : Nat) (h : History Op Res) : Bool :=
  h.any fun x => looksUp i x.2 && h.any fun y => y.1 == x.1 && zeroes i y.2

/-- The inode that call `t` returned is still in the table, not replaced by another, or an `Unlink`
has removed it. -/
def Stays (s : Cluster × History Op Res) (t i : Nat) : Prop :=
  unlinkedIn i (lifetime t i s.2) = true ∨
    (s.1.inodes i).isSome = true ∧ ∀ x ∈ lifetime t i s.2, puts i x.2 = false

instance (s : Cluster × History Op Res) (t i : Nat) : Decidable (Stays s t i) :=
  inferInstanceAs (Decidable (_ ∨ _ ∧ _))

variable {i : Nat}

theorem unlinkedIn_iff {h : History Op Res} : unlinkedIn i h = true ↔
    ∃ u, (∃ e, (u, e) ∈ h ∧ looksUp i e = true) ∧ ∃ e, (u, e) ∈ h ∧ zeroes i e = true := by
  simp only [unlinkedIn, List.any_eq_true, Bool.and_eq_true, beq_iff_eq]
  constructor
  · rintro ⟨⟨u, e⟩, hx, hl, ⟨u', e'⟩, hy, rfl, hz⟩
    exact ⟨u', ⟨e, hx, hl⟩, e', hy, hz⟩
  · rintro ⟨u, ⟨e, hx, hl⟩, e', hy, hz⟩
    exact ⟨(u, e), hx, hl, (u, e'), hy, rfl, hz⟩

theorem unlinkedIn_cons {x : Nat × Prog.Event Op Res} {h : History Op Res}
    (hu : unlinkedIn i h = true) : unlinkedIn i (x :: h) = true := by
  obtain ⟨u, ⟨e, hx, hl⟩, e', hy, hz⟩ := unlinkedIn_iff.mp hu
  exact unlinkedIn_iff.mpr
    ⟨u, ⟨e, mem_cons_of_mem x hx, hl⟩, e', mem_cons_of_mem x hy, hz⟩

/-- `h'` is what happened since one of the times at which inode `i` was created: it was put in the
table, or was there from the start. -/
def Cut (σ₀ : Cluster) (i : Nat) (h h' : History Op Res) : Prop :=
  (∃ x h₁, h = h' ++ x :: h₁ ∧ puts i x.2 = true) ∨ h' = h ∧ (σ₀.inodes i).isSome = true

section Cut

variable {σ₀ : Cluster} {i t : Nat} {h h' : History Op Res} {x : Nat × Prog.Event Op Res}

theorem cut_cons : Cut σ₀ i (x :: h) h' ↔
    h' = [] ∧ puts i x.2 = true ∨ ∃ h₂, h' = x :: h₂ ∧ Cut σ₀ i h h₂ := by
  constructor
  · rintro (⟨y, h₁, he, hp⟩ | ⟨rfl, hs⟩)
    · rcases cons_eq_append_iff.mp he with ⟨rfl, hy⟩ | ⟨h₂, rfl, he'⟩
      · cases hy
        exact .inl ⟨rfl, hp⟩
      · exact .inr ⟨h₂, rfl, .inl ⟨y, h₁, he', hp⟩⟩
    · exact .inr ⟨h, rfl, .inr ⟨rfl, hs⟩⟩
  · rintro (⟨rfl, hp⟩ | ⟨h₂, rfl, ⟨y, h₁, rfl, hp⟩ | ⟨rfl, hs⟩⟩)
    · exact .inl ⟨x, h, rfl, hp⟩
    · exact .inl ⟨y, h₁, rfl, hp⟩
    · exact .inr ⟨rfl, hs⟩

/-- A lifetime starts at a creation. -/
theorem cut_lifetime (hev : ∃ e, (t, e) ∈ h ∧ (puts i e = true ∨ gets i e = true))
    (hseen : ∀ h₂ x h₁, h = h₂ ++ x :: h₁ → gets i x.2 = true → (∀ y ∈ h₁, puts i y.2 = false) →
      (σ₀.inodes i).isSome = true) : Cut σ₀ i h (lifetime t i h) := by
  induction h with
  | nil =>
    obtain ⟨e, hmem, -⟩ := hev
    cases hmem
  | cons x h ih =>
    simp only [lifetime]
    split
    · rename_i hp
      exact .inl ⟨x, h, rfl, hp.2⟩
    rename_i hnp
    split
    · rename_i hg
      have hsplit := takeWhile_append_dropWhile (p := fun y => !puts i y.2) (l := h)
      cases hd : h.dropWhile fun y => !puts i y.2 with
      | nil =>
        rw [hd, append_nil] at hsplit
        rw [hsplit]
        refine .inr ⟨rfl, hseen [] x h rfl hg.2 fun y hy => ?_⟩
        rw [← hsplit] at hy
        simpa using mem_takeWhile_imp hy
      | cons y ys =>
        have hy : puts i y.2 = true := by
          have := head?_dropWhile_not (fun y => !puts i y.2) h
          simpa [hd] using this
        exact .inl ⟨y, ys, by rw [cons_append, ← hd, hsplit], hy⟩
    · rename_i hng
      refine cut_cons.mpr (.inr ⟨_, rfl, ih ?_ fun h₂ y h₁ he => hseen (x :: h₂) y h₁ (by rw [he]; rfl)⟩)
      obtain ⟨e, hmem, he⟩ := hev
      rcases mem_cons.mp hmem with rfl | hmem
      · exact (he.elim (fun hp => hnp ⟨rfl, hp⟩) fun hg => hng ⟨rfl, hg⟩).elim
      · exact ⟨e, hmem, he⟩

end Cut

/-! ### The invariant -/

/-- The stage of a call. -/
def stage : Thread Request Op Res Int → Stage
  | .active _ tr _ => stageOf tr
  | .idle => .none

theorem zeroes_of_stageOf
    (h : stageOf tr = .condemned i ∨ stageOf tr = .deleting i) : tr.any (zeroes i) = true := by
  induction tr with
  | nil => exact h.elim nofun nofun
  | cons e tr ih =>
    obtain ⟨op, r⟩ := e
    have hskip : (stageOf tr = .condemned i ∨ stageOf tr = .deleting i) →
        List.any (⟨op, r⟩ :: tr) (zeroes i) = true := by
      intro h
      rw [any_cons, ih h, Bool.or_true]
    cases op with
    | allocateInodeId | putInode | deleteInode => exact h.elim nofun nofun
    | freeInodeId id =>
      simp only [stageOf] at h
      split at h
      · rename_i j hj
        obtain rfl : j = i := h.elim nofun fun he => Stage.deleting.inj he
        exact hskip (.inl hj)
      · exact h.elim nofun nofun
    | updateFn id f =>
      cases f with
      | unlink isDir =>
        cases r with
        | none => exact hskip h
        | some n =>
          simp only [stageOf] at h
          split at h
          · rename_i hz
            obtain rfl : id = i := h.elim (fun he => Stage.condemned.inj he) nofun
            rw [any_cons]
            simp only [Bool.and_eq_true] at hz
            simp [zeroes, hz.1, hz.2]
          · exact hskip h
      | _ => exact hskip h
    | _ => exact hskip h

/-- What holds in every state of an undisturbed run. -/
structure LifeInv (srv : Nat) (σ₀ : Cluster) (P : RecordedCalls) : Prop where
  calls : ∀ t q tr p, P.threads t = .active q tr p → q.srv = srv ∧
    Prog.Along (LifeOps q.call.unlinks) (fun tr _ => stageOf tr = .none) tr p
  recorded : Recorded P
  owned : Owned (P.shared.1.servers srv).ids P.shared.1.inodes fun t => stage (P.threads t)
  /-- a call that takes links has looked the inode up -/
  looked : ∀ t q tr p i, P.threads t = .active q tr p → tr.any (zeroes i) = true →
    q.call.unlinks = true ∧ tr.any (looksUp i) = true
  /-- an `Unlink` in flight met the present inodes only -/
  fresh : ∀ u q tr op k, P.threads u = .active q tr (.call op k) → q.call.unlinks = true →
    ∀ i e, e ∈ tr → looksUp i e = true ∨ zeroes i e = true → ∀ h', Cut σ₀ i P.shared.2 h' → (u, e) ∈ h'
  lives : ∀ i h', Cut σ₀ i P.shared.2 h' → unlinkedIn i h' = true ∨
    (P.shared.1.inodes i).isSome = true ∧ ∀ x ∈ h', puts i x.2 = false
  /-- an inode that was never put was there from the start -/
  origin : ∀ i, (∀ x ∈ P.shared.2, puts i x.2 = false) → (P.shared.1.inodes i).isSome = true →
    (σ₀.inodes i).isSome = true
  seen : ∀ i h₂ x h₁, P.shared.2 = h₂ ++ x :: h₁ → gets i x.2 = true →
    (∀ y ∈ h₁, puts i y.2 = false) → (σ₀.inodes i).isSome = true

/-- What an operation does to the presence of inode `i`. -/
theorem exec_isSome {srv t : Nat} (hx : exec env srv t op σ = some (r, σ')) :
    (op ≠ .deleteInode i → (σ.inodes i).isSome = true → (σ'.inodes i).isSome = true) ∧
      (puts i ⟨op, r⟩ = false → (σ'.inodes i).isSome = true → (σ.inodes i).isSome = true) ∧
      (puts i ⟨op, r⟩ = true → (σ'.inodes i).isSome = true) ∧
      (gets i ⟨op, r⟩ = true → (σ.inodes i).isSome = true) := by
  cases op with
  | undefined => cases hx
  | putInode id n =>
    cases hx
    by_cases hi : i = id
    · subst hi
      simp [Cluster.setInode, puts, gets]
    · simp [Cluster.setInode, update_of_ne hi, puts, gets, Ne.symm hi]
  | deleteInode id =>
    cases hx
    by_cases hi : i = id
    · subst hi
      simp [Cluster.setInode, puts, gets]
    · simp [Cluster.setInode, update_of_ne hi, puts, gets]
  | getInode id =>
    cases hx
    refine ⟨fun _ h => h, fun _ h => h, by simp [puts], fun hg => ?_⟩
    split at hg
    · cases hg
    · cases hn : σ.inodes id with
      | none =>
        rw [hn] at hg
        cases hg
      | some n =>
        rw [hn] at hg
        obtain rfl : id = i := by simpa [gets] using hg
        rw [hn]
        rfl
  | updateFn id f =>
    cases hx
    rw [Cluster.updateFn_inodes]
    by_cases hi : i = id
    · subst hi
      cases σ.inodes i <;> simp [puts, gets]
    · simp [hi, puts, gets]
  | log req =>
    cases hx
    split <;> simp [puts, gets]
  | insertDirent d =>
    cases hx
    simp [puts, gets]
  | _ =>
    cases hx
    exact ⟨fun _ h => h, fun _ h => h, by simp [puts], by simp [gets]⟩

namespace LifeInv

variable {env : Env} {srv : Nat} {σ₀ : Cluster} {P P' : RecordedCalls}
  {a : PoolAct Request (Nat × Nat)}

section

variable (h : LifeInv srv σ₀ P)

include h

/-- A call that has taken a last link and not deleted the inode is an `Unlink` in flight. -/
theorem inFlight {u i : Nat}
    (hu : stage (P.threads u) = .condemned i ∨ stage (P.threads u) = .deleting i) :
    ∃ q tr op k, P.threads u = .active q tr (.call op k) ∧ q.call.unlinks = true ∧
      tr.any (looksUp i) = true ∧ tr.any (zeroes i) = true := by
  cases hth : P.threads u with
  | idle =>
    rw [hth] at hu
    exact hu.elim nofun nofun
  | active q tr p =>
    rw [hth] at hu
    have hz := zeroes_of_stageOf hu
    obtain ⟨hq, hl⟩ := h.looked u q tr p i hth hz
    cases p with
    | call op k => exact ⟨q, tr, op, k, rfl, hq, hl, hz⟩
    | pure r =>
      have hend : stageOf tr = .none := (h.calls u q tr _ hth).2
      rw [stage, hend] at hu
      exact hu.elim nofun nofun

/-- It has looked up, and taken the link of, the inode that is in the table now. -/
theorem unlinked_of_doomed {u i : Nat}
    (hu : stage (P.threads u) = .condemned i ∨ stage (P.threads u) = .deleting i)
    {h' : History Op Res} (hcut : Cut σ₀ i P.shared.2 h') : unlinkedIn i h' = true := by
  obtain ⟨q, tr, op, k, hth, hq, hl, hz⟩ := h.inFlight hu
  obtain ⟨e, he, hle⟩ := List.any_eq_true.mp hl
  obtain ⟨e', he', hze⟩ := List.any_eq_true.mp hz
  exact unlinkedIn_iff.mpr ⟨u, ⟨e, h.fresh u q tr op k hth hq i e he (.inl hle) h' hcut, hle⟩,
    e', h.fresh u q tr op k hth hq i e' he' (.inr hze) h' hcut, hze⟩

theorem opStep {t : Nat} {q : Request}
    {k : Res op → M Int} {σ : Cluster} (hth : P.threads t = .active q tr (.call op k))
    (hx : exec env q.srv t op P.shared.1 = some (r, σ)) (hok : Undisturbed P (.step t))
    (hrec : Recorded (⟨(σ, (t, ⟨op, r⟩) :: P.shared.2),
      update P.threads t (.active q (⟨op, r⟩ :: tr) (k r))⟩ :
        Pool Request Op Res Int (Cluster × History Op Res))) :
    LifeInv srv σ₀ ⟨(σ, (t, ⟨op, r⟩) :: P.shared.2),
      update P.threads t (.active q (⟨op, r⟩ :: tr) (k r))⟩ := by
  obtain ⟨rfl, hops, hrest⟩ := h.calls t q tr _ hth
  obtain ⟨hok1, hok2⟩ := hok q tr op k hth
  have hstage : stage (P.threads t) = stageOf tr := by
    rw [hth]
    rfl
  have hput : ∀ id n, op = .putInode id n →
      ∀ u, stage (P.threads u) ≠ .condemned id ∧ stage (P.threads u) ≠ .deleting id := by
    rintro id n rfl u
    rw [← not_or]
    intro hu
    by_cases hut : u = t
    · subst hut
      rw [hstage, hops.2] at hu
      exact hu.elim nofun nofun
    · obtain ⟨q', tr', op', k', hth', hq', hl, -⟩ := h.inFlight hu
      rw [hok1 id n rfl u q' tr' op' k' hut hth' hq'] at hl
      cases hl
  -- an inode that is put replaces none that an `Unlink` has not removed
  have hreplace : ∀ i, puts i ⟨op, r⟩ = true → ∀ h', Cut σ₀ i P.shared.2 h' →
      unlinkedIn i h' = true := by
    intro i hp h' hcut
    cases op with
    | putInode id n =>
      obtain rfl : id = i := by simpa [puts] using hp
      rcases h.owned.gone id (.inr ⟨t, hstage.trans hops.2⟩) with hnone | ⟨u, hu⟩
      · refine (h.lives id h' hcut).resolve_right fun hl => ?_
        rw [hnone] at hl
        exact absurd hl.1 nofun
      · exact h.unlinked_of_doomed (.inr hu) hcut
    | _ => cases hp
  refine ⟨fun t' q' tr' p' ht' => ?_, hrec, ?_, fun t' q' tr' p' i ht' hz => ?_,
    fun u q' tr' op' k' hu hq' i e he hn h' hcut => ?_, fun i h' hcut => ?_,
    fun i hno hs => ?_, fun i h₂ x h₁ he hg hno => ?_⟩
  · rcases active_of_update ht' with ⟨rfl, rfl, rfl, rfl⟩ | ⟨-, ht'⟩
    · exact ⟨rfl, hrest r⟩
    · exact h.calls t' q' tr' p' ht'
  · have := h.owned.exec hstage hops hx hput hok2
    convert this using 2
    rename_i t'
    by_cases ht : t' = t
    · subst ht
      simp [stage]
    · simp [update_of_ne ht]
  · rcases active_of_update ht' with ⟨rfl, rfl, rfl, rfl⟩ | ⟨-, ht'⟩
    · rw [any_cons, Bool.or_eq_true] at hz ⊢
      rcases hz with hz | hz
      · cases op with
        | updateFn id f =>
          cases f with
          | unlink isDir =>
            cases r with
            | none => cases hz
            | some n =>
              simp only [zeroes, Bool.and_eq_true, beq_iff_eq] at hz
              exact ⟨hops.1, .inr (hz.1.1 ▸ hops.2.2)⟩
          | _ => cases hz
        | _ => cases hz
      · exact (h.looked t' _ tr _ i hth hz).imp_right .inr
    · exact h.looked t' q' tr' p' i ht' hz
  · rcases cut_cons.mp hcut with ⟨rfl, hp⟩ | ⟨h₂, rfl, hcut'⟩
    · -- no `Unlink` in flight has met an inode that is put now
      cases op with
      | putInode id n =>
        obtain rfl : id = i := by simpa [puts] using hp
        rcases active_of_update hu with ⟨-, rfl, -, -⟩ | ⟨ht, hu⟩
        · rw [hops.1] at hq'
          cases hq'
        · have hl := hok1 id n rfl u q' tr' op' k' ht hu hq'
          rcases hn with hn | hn
          · rw [List.any_eq_false] at hl
            exact absurd hn (hl e he)
          · have := (h.looked u q' tr' _ id hu (List.any_eq_true.mpr ⟨e, he, hn⟩)).2
            rw [hl] at this
            cases this
      | _ => cases hp
    · rcases active_of_update hu with ⟨rfl, rfl, rfl, -⟩ | ⟨-, hu⟩
      · rcases mem_cons.mp he with rfl | he
        · exact mem_cons_self
        · exact mem_cons_of_mem _ (h.fresh u _ tr op k hth hq' i e he hn h₂ hcut')
      · exact mem_cons_of_mem _ (h.fresh u q' tr' op' k' hu hq' i e he hn h₂ hcut')
  · obtain ⟨hkeep, -, hnew, -⟩ := exec_isSome (i := i) hx
    rcases cut_cons.mp hcut with ⟨rfl, hp⟩ | ⟨h₂, rfl, hcut'⟩
    · exact .inr ⟨hnew hp, nofun⟩
    · by_cases hp : puts i ⟨op, r⟩ = true
      · exact .inl (unlinkedIn_cons (hreplace i hp h₂ hcut'))
      · by_cases hdel : op = .deleteInode i
        · subst hdel
          exact .inl (unlinkedIn_cons (h.unlinked_of_doomed (.inr (hstage.trans hops)) hcut'))
        · exact (h.lives i h₂ hcut').imp unlinkedIn_cons fun ⟨hs, hno⟩ =>
            ⟨hkeep hdel hs, forall_mem_cons.mpr ⟨by simpa using hp, hno⟩⟩
  · obtain ⟨-, hback, -, -⟩ := exec_isSome (i := i) hx
    exact h.origin i (fun x hxm => hno x (mem_cons_of_mem _ hxm))
      (hback (hno _ mem_cons_self) hs)
  · obtain ⟨-, -, -, hget⟩ := exec_isSome (i := i) hx
    rcases cons_eq_append_iff.mp he with ⟨rfl, hc⟩ | ⟨h₃, rfl, he'⟩
    · cases hc
      exact h.origin i hno (hget hg)
    · exact h.seen i h₃ x h₁ he' hg hno

/-- **A step keeps the invariant** if it disturbs no inode. -/
theorem step (hsrv : CreatesAndUnlinks srv a) (hok : Undisturbed P a)
    (hst : (recordedCalls env σ₀).step P a = some P') : LifeInv srv σ₀ P' := by
  have hrule := recorded_rule hst
  have hrec := h.recorded.step hrule
  cases hrule with
  | @start t q hidle =>
    have hstage : ∀ t', stage (update P.threads t (.active q [] q.call.body) t') =
        stage (P.threads t') := by
      intro t'
      by_cases ht : t' = t
      · rw [ht, update_self, hidle]
        rfl
      · rw [update_of_ne ht]
    refine ⟨fun t' q' tr' p' ht' => ?_, hrec, ?_, fun t' q' tr' p' i ht' hz => ?_,
      fun u q' tr' op' k' hu hq' i e he hn h' hcut => ?_, h.lives, h.origin, h.seen⟩
    · rcases active_of_update ht' with ⟨rfl, rfl, rfl, rfl⟩ | ⟨-, ht'⟩
      · exact ⟨hsrv.1, along_life _ hsrv.2⟩
      · exact h.calls t' q' tr' p' ht'
    · simp only [hstage]
      exact h.owned
    · rcases active_of_update ht' with ⟨-, -, rfl, -⟩ | ⟨-, ht'⟩
      · cases hz
      · exact h.looked t' q' tr' p' i ht' hz
    · rcases active_of_update hu with ⟨-, -, rfl, -⟩ | ⟨-, hu⟩
      · cases he
      · exact h.fresh u q' tr' op' k' hu hq' i e he hn h' hcut
  | @step t q tr op k r σ hth hx => exact h.opStep hth hx hok hrec
  | @env e σ he =>
    have heq : (σ.servers srv).ids = (P.shared.1.servers srv).ids ∧ σ.inodes = P.shared.1.inodes := by
      unfold checkpointStep at he
      split at he
      · cases he
        refine ⟨?_, rfl⟩
        simp only [Cluster.setCheckpoint, Cluster.setServer]
        by_cases hs : srv = e.1
        · subst hs
          simp
        · rw [update_of_ne hs]
      · cases he
    refine ⟨h.calls, hrec, ?_, h.looked, h.fresh, ?_, ?_, h.seen⟩
    · rw [heq.1, heq.2]
      exact h.owned
    · rw [heq.2]
      exact h.lives
    · rw [heq.2]
      exact h.origin

end

theorem of_start (hids : Owned (σ₀.servers srv).ids σ₀.inodes fun _ => .none)
    (hs : (recordedCalls env σ₀).start P) : LifeInv srv σ₀ P := by
  have hrec := recorded_of_start hs
  obtain ⟨⟨hσ, hnil⟩, hidle⟩ := hs
  have hthreads : P.threads = fun _ => .idle := funext hidle
  obtain ⟨⟨σ, h⟩, threads⟩ := P
  dsimp only at hσ hnil hthreads
  subst hσ hnil hthreads
  refine ⟨nofun, hrec, hids, nofun, nofun, ?_, fun _ _ hs => hs, ?_⟩
  · rintro i h' (⟨x, h₁, he, -⟩ | ⟨rfl, hs⟩)
    · cases h' <;> cases he
    · exact .inr ⟨hs, nofun⟩
  · intro i h₂ x h₁ he
    cases h₂ <;> cases he

end LifeInv

theorem createdId_mem (h : createdId tr = some i) :
    ∃ e ∈ tr, puts i e = true ∨ gets i e = true := by
  induction tr with
  | nil => cases h
  | cons e tr ih =>
    have hskip : createdId tr = some i → ∃ e' ∈ e :: tr, puts i e' = true ∨ gets i e' = true := by
      intro h
      obtain ⟨e', hmem, he⟩ := ih h
      exact ⟨e', mem_cons_of_mem e hmem, he⟩
    obtain ⟨op, r⟩ := e
    cases op with
    | putInode id n =>
      cases h
      exact ⟨_, mem_cons_self, .inl (by simp [puts])⟩
    | getInode id =>
      cases r with
      | none => exact hskip h
      | some n =>
        cases h
        exact ⟨_, mem_cons_self, .inr (by simp [gets])⟩
    | _ => exact hskip h

/-- **A created inode stays until it is unlinked**, in every state of a run of `Create` and `Unlink`
calls on one server in which no inode is put in the table under an id that an `Unlink` in flight
has looked up. -/
theorem created_stays {env : Env} {srv : Nat} {σ₀ : Cluster}
    (hids : Owned (σ₀.servers srv).ids σ₀.inodes fun _ => .none) {P : RecordedCalls}
    (h : (recordedCalls env σ₀).Reach (fun P a => CreatesAndUnlinks srv a ∧ Undisturbed P a) P)
    {t : Nat} {q : Request} {tr : Trace} (hth : P.threads t = .active q tr (.pure 0))
    {i : Nat} (hi : createdId tr = some i) : Stays P.shared t i := by
  have hinv : LifeInv srv σ₀ P := h.invariant (I := LifeInv srv σ₀)
    (fun P hs => .of_start hids hs) (fun P a P' _ hi hok hst => hi.step hok.1 hok.2 hst)
  obtain ⟨e, hmem, he⟩ := createdId_mem hi
  have hev : (t, e) ∈ P.shared.2 := (hinv.recorded t e).mpr ⟨_, _, _, hth, hmem⟩
  exact hinv.lives i _ (cut_lifetime ⟨e, hev, he⟩ (hinv.seen i))

/-- No call, on a fresh cluster. -/
def freshRecorded : RecordedCalls := ⟨(freshCluster, []), fun _ => .idle⟩

theorem freshRecorded_start : (recordedCalls steadyEnv freshCluster).start freshRecorded :=
  ⟨⟨rfl, rfl⟩, fun _ => rfl⟩

theorem owned_fresh : Owned (freshCluster.servers 0).ids freshCluster.inodes fun _ => .none := by
  refine ⟨⟨nodup_nil, nofun⟩, fun _ _ _ => ⟨nofun, nofun⟩, nofun, fun i hi => .inl ?_,
    fun _ _ hu => hu.elim nofun nofun⟩
  rcases hi with (hi | hi) | ⟨t, ht⟩
  · cases hi
  · have hne : i ≠ kRootId := by
      rintro rfl
      exact absurd hi (by decide)
    simp [freshCluster, Cluster.init, update_of_ne hne]
  · cases ht

/-- What a call that has returned returned, and the id of the inode it created. -/
def returnedId : Thread Request Op Res Int → Option (Int × Option Nat)
  | .active _ tr (.pure r) => some (r, createdId tr)
  | _ => none

theorem of_returnedId {th : Thread Request Op Res Int} {r : Int} {i : Option Nat}
    (h : returnedId th = some (r, i)) : ∃ q tr, th = .active q tr (.pure r) ∧ createdId tr = i := by
  unfold returnedId at h
  split at h
  · simp only [Option.some.injEq, Prod.mk.injEq] at h
    obtain ⟨rfl, hid⟩ := h
    exact ⟨_, _, rfl, hid⟩
  · cases h

/-- A test for the condition among the calls below `n`. -/
def undisturbed (n : Nat) (P : RecordedCalls) : PoolAct Request (Nat × Nat) → Bool
  | .start _ q => q.srv == 0 && (q.call.creates || q.call.unlinks)
  | .step t =>
    match P.threads t with
    | .active _ _ (.call (.putInode id _) _) => (List.range n).all fun u =>
        u == t || match P.threads u with
          | .active q tr (.call _ _) => !(q.call.unlinks && tr.any (looksUp id))
          | _ => true
    | .active _ _ (.call (.updateFn id (.unlink isDir)) _) =>
      (P.shared.1.inodes id).all fun n => unlinkError isDir n || n.nlink != 0
    | _ => true
  | .env _ => true

theorem undisturbed_of_test {n : Nat} (P : RecordedCalls) (a : PoolAct Request (Nat × Nat))
    (hP : P.Below n) (h : undisturbed n P a = true) : CreatesAndUnlinks 0 a ∧ Undisturbed P a := by
  cases a with
  | start t q => exact ⟨by simpa [undisturbed, CreatesAndUnlinks] using h, trivial⟩
  | step t =>
    refine ⟨trivial, fun q tr op k hth => ⟨?_, ?_⟩⟩
    · rintro id m rfl u q' tr' op' k' hne hu hun
      simp only [undisturbed, hth, List.all_eq_true, List.mem_range] at h
      simpa [hu, hne, hun] using h u (hP.lt hu)
    · rintro id isDir m rfl hm herr
      simpa [undisturbed, hth, hm, herr] using h
  | env e => exact ⟨trivial, trivial⟩

/-- `/a` is created; it is unlinked while `/b` is created; and it is created again, under the id it
had, while an `Unlink` has found `/b`. -/
def createdAgain : List (PoolAct Request (Nat × Nat)) :=
  .start 0 ⟨0, .create pathA 0o644 0 0⟩ :: List.replicate 6 (.step 0) ++
    [.start 1 ⟨0, .unlink pathA⟩, .start 2 ⟨0, .create pathB 0o644 0 0⟩, .step 1] ++
    List.replicate 4 (.step 2) ++ List.replicate 6 (.step 1) ++ List.replicate 2 (.step 2) ++
    [.start 3 ⟨0, .create pathA 0o644 0 0⟩, .start 4 ⟨0, .unlink pathB⟩, .step 4] ++
    List.replicate 6 (.step 3)

/-- Calls that overlap and free ids that are used again: the condition is met. -/
theorem created_stays_createdAgain :
    ∃ P t q tr, (recordedCalls steadyEnv freshCluster).Reach
        (fun P a => CreatesAndUnlinks 0 a ∧ Undisturbed P a) P ∧
      P.threads t = .active q tr (.pure 0) ∧ createdId tr = some 3 ∧ Stays P.shared t 3 := by
  have hrun : ((recordedCalls steadyEnv freshCluster).runChecked
      (fun P a => a.below 5 && undisturbed 5 P a) createdAgain freshRecorded).map
      (fun P => returnedId (P.threads 3)) = some (some (0, some 3)) := by
    decide +kernel
  unfold recordedCalls recorded at hrun
  obtain ⟨P, hreach, -, hret⟩ := exists_reach_below hrun ⟨rfl, rfl⟩ undisturbed_of_test
  obtain ⟨q, tr, hth, hid⟩ := of_returnedId hret
  exact ⟨P, 3, q, tr, hreach, hth, hid, created_stays owned_fresh hreach hth hid⟩

/-- `/a` is created and unlinked up to the point where its id is free; `/b` is created; then the
`Unlink` goes on. -/
def reusedId : List (PoolAct Request (Nat × Nat)) :=
  .start 0 ⟨0, .create pathA 0o644 0 0⟩ :: List.replicate 6 (.step 0) ++
    .start 1 ⟨0, .unlink pathA⟩ :: List.replicate 6 (.step 1) ++
    .start 2 ⟨0, .create pathB 0o644 0 0⟩ :: List.replicate 6 (.step 2) ++ [.step 1]

/-- **A created inode can be deleted by the `Unlink` of another.** -/
theorem reused_id_deleted :
    ∃ P t q tr i, (recordedCalls steadyEnv freshCluster).Reach
        (fun _ a => CreatesAndUnlinks 0 a) P ∧ P.threads t = .active q tr (.pure 0) ∧
      createdId tr = some i ∧ P.shared.1.inodes i = none ∧ ¬Stays P.shared t i := by
  have hrun : ((recordedCalls steadyEnv freshCluster).runLabels reusedId freshRecorded).map
      (fun P => (returnedId (P.threads 2), (P.shared.1.inodes 3).isNone,
        decide (Stays P.shared 2 3))) = some (some (0, some 3), true, false) := by
    decide +kernel
  obtain ⟨P, hP, hout⟩ := map_eq_some_iff.mp hrun
  simp only [Prod.mk.injEq, isNone_iff_eq_none, decide_eq_false_iff_not] at hout
  obtain ⟨hret, hnone, hstays⟩ := hout
  obtain ⟨q, tr, hth, hid⟩ := of_returnedId hret
  refine ⟨P, 2, q, tr, 3, System.reach_runLabels freshRecorded_start (fun a ha _ => ?_) hP, hth,
    hid, hnone, hstays⟩
  simp only [reusedId, mem_append, mem_cons, mem_replicate, not_mem_nil,
    or_false] at ha
  rcases ha with (((rfl | ⟨-, rfl⟩) | rfl | ⟨-, rfl⟩) | rfl | ⟨-, rfl⟩) | rfl
  all_goals first | exact trivial | exact ⟨rfl, .inl rfl⟩ | exact ⟨rfl, .inr rfl⟩

end StaxFS.Metadata
