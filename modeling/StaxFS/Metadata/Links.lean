import StaxFS.Metadata.Effect

/-!
# Link counts

Every inode but the root has as many links as there are dirents that name it. Names and counts live
in two tables, so the invariant ties both together, and the id pool to them: an id that is given out
again must not be in use.

`Rename` breaks it when both paths lead to the same dirent, which hard links to directories make
possible for two different paths: the covering `Unlink` then removes the entry to be moved, and the
move inserts it again.

Results:
* `IdsInv.allocate`, `IdsInv.free`: the pool gives out dead ids only.
* `LinkInv.unlink`, `LinkInv.create`, `LinkInv.move`, `LinkInv.link`: what every change keeps.
* `links_counted`: link counts are right in every state of a run that renames no entry onto itself.
-/

namespace StaxFS.Metadata

open Foundation Wal List Option
open Function (update update_of_ne update_self)

/-! ### The id pool -/

/-- Live inodes have ids below the unused ones; recycled ids are dead and listed once. -/
structure IdsInv (live : Nat → Prop) (p : IdPool) : Prop where
  root : live kRootId
  used : ∀ id, live id → kRootId ≤ id ∧ id < p.minUnused
  recycled : ∀ id ∈ p.recycled, ¬live id ∧ kRootId < id ∧ id < p.minUnused
  nodup : p.recycled.Nodup

namespace IdsInv

variable {live live' : Nat → Prop} {p : IdPool} {id : Nat}

section

variable (h : IdsInv live p)

include h

theorem congr (he : ∀ id, live' id ↔ live id) : IdsInv live' p := by
  obtain rfl : live' = live := funext fun id => propext (he id)
  exact h

/-- An id that is given out is dead and not the root's. -/
theorem allocate_dead : ¬live p.allocate.1 ∧ kRootId < p.allocate.1 := by
  rcases p.allocate_cases with ⟨h1, -⟩ | ⟨h1, -⟩
  · rw [h1]
    exact ⟨fun hl => absurd (h.used _ hl).2 (Nat.lt_irrefl _), (h.used _ h.root).2⟩
  · obtain ⟨hd, hr, -⟩ := h.recycled _ (h1.subset mem_cons_self)
    exact ⟨hd, hr⟩

theorem allocate : IdsInv (fun id => id = p.allocate.1 ∨ live id) p.allocate.2 := by
  have hroot := h.allocate_dead.2
  refine ⟨.inr h.root, ?_, ?_, ?_⟩
  · rintro id (rfl | hl)
    · refine ⟨Nat.le_of_lt hroot, ?_⟩
      rcases p.allocate_cases with ⟨h1, h2, -⟩ | ⟨h1, h2⟩
      · omega
      · rw [h2]
        exact (h.recycled _ (h1.subset mem_cons_self)).2.2
    · have := h.used id hl
      rcases p.allocate_cases with ⟨-, h2, -⟩ | ⟨-, h2⟩ <;> omega
  · intro id hid
    rcases p.allocate_cases with ⟨h1, h2, h3⟩ | ⟨h1, h2⟩
    · rw [h3] at hid
      obtain ⟨hd, hr, hlt⟩ := h.recycled id hid
      refine ⟨?_, hr, by omega⟩
      rintro (rfl | hl)
      · omega
      · exact hd hl
    · obtain ⟨hd, hr, hlt⟩ := h.recycled id (h1.subset (mem_cons_of_mem _ hid))
      have hnd := h.nodup
      rw [← h1.nodup_iff, nodup_cons] at hnd
      refine ⟨?_, hr, by omega⟩
      rintro (rfl | hl)
      · exact hnd.1 hid
      · exact hd hl
  · rcases p.allocate_cases with ⟨-, -, h3⟩ | ⟨h1, -⟩
    · exact h3 ▸ h.nodup
    · have hnd := h.nodup
      rw [← h1.nodup_iff, nodup_cons] at hnd
      exact hnd.2

theorem free (hid : live id) (hr : id ≠ kRootId) :
    IdsInv (fun i => live i ∧ i ≠ id) (p.free id) := by
  have hused := h.used id hid
  have hdead : ∀ i ∈ p.recycled, i ≠ id := fun i hi he => (h.recycled i hi).1 (he ▸ hid)
  by_cases hrange : p.base ≤ id ∧ id < p.max
  · rcases p.free_cases hrange with ⟨hu, h1, h2⟩ | ⟨h1, h2⟩
    · refine ⟨⟨h.root, Ne.symm hr⟩, ?_, ?_, h2 ▸ h.nodup⟩
      · rintro i ⟨hl, hne⟩
        have := h.used i hl
        omega
      · intro i hi
        rw [h2] at hi
        have := h.recycled i hi
        have := hdead i hi
        exact ⟨fun hl => (h.recycled i hi).1 hl.1, by omega, by omega⟩
    · refine ⟨⟨h.root, Ne.symm hr⟩, fun i hl => h1 ▸ h.used i hl.1, ?_, ?_⟩
      · intro i hi
        rw [h2, mem_append, mem_singleton] at hi
        rcases hi with hi | rfl
        · obtain ⟨hd, hlt⟩ := h.recycled i hi
          exact ⟨fun hl => hd hl.1, h1 ▸ hlt⟩
        · exact ⟨fun hl => hl.2 rfl, by omega, by omega⟩
      · rw [h2, nodup_append]
        refine ⟨h.nodup, nodup_singleton id, fun a ha b hb => ?_⟩
        rw [mem_singleton.mp hb]
        exact hdead a ha
  · -- an id past the range of the server is lost
    obtain ⟨h1, h2⟩ := p.free_of_foreign id hrange
    refine ⟨⟨h.root, Ne.symm hr⟩, fun i hl => h1 ▸ h.used i hl.1, ?_, h2 ▸ h.nodup⟩
    intro i hi
    rw [h2] at hi
    obtain ⟨hd, hlt⟩ := h.recycled i hi
    exact ⟨fun hl => hd hl.1, h1 ▸ hlt⟩

/-- An id that is taken and given back at once. -/
theorem reallocate : IdsInv live (p.allocate.2.free p.allocate.1) := by
  obtain ⟨hdead, hroot⟩ := h.allocate_dead
  refine (h.allocate.free (.inl rfl) (Nat.ne_of_gt hroot)).congr fun id => ?_
  constructor
  · exact fun hl => ⟨.inr hl, fun he => hdead (he ▸ hl)⟩
  · rintro ⟨he | hl, hne⟩
    · exact absurd he hne
    · exact hl

end

end IdsInv

/-! ### The invariant -/

/-- The number of entries that name inode `id`. -/
def links (ds : List Dirent) (id : Nat) : Nat := ds.countP (·.id == id)

/-- The invariant of entries `ds`, link counts `nl` and pool `p`. -/
structure LinkInv (ds : List Dirent) (nl : Nat → Option Nat) (p : IdPool) : Prop where
  ids : IdsInv (fun id => (nl id).isSome = true) p
  live : ∀ d ∈ ds, (nl d.id).isSome = true
  nonroot : ∀ d ∈ ds, d.id ≠ kRootId
  unique : (ds.map Dirent.key).Nodup
  counted : ∀ id n, id ≠ kRootId → nl id = some n → n = links ds id ∧ 1 ≤ n ∧ n < 2 ^ 64

theorem links_cons (d : Dirent) (ds : List Dirent) (id : Nat) :
    links (d :: ds) id = links ds id + if id = d.id then 1 else 0 := by
  simp only [links, countP_cons, beq_iff_eq, eq_comm (a := id)]

theorem links_pos {ds : List Dirent} {d : Dirent} (h : d ∈ ds) : 1 ≤ links ds d.id :=
  countP_pos_iff.mpr ⟨d, h, by simp⟩

theorem links_le_length (ds : List Dirent) (id : Nat) : links ds id ≤ ds.length :=
  countP_le_length

namespace LinkInv

variable {ds ds' : List Dirent} {nl : Nat → Option Nat} {p : IdPool} {d e : Dirent} {n : Nat}

theorem perm (h : LinkInv ds nl p) (hp : ds.Perm ds') : LinkInv ds' nl p where
  ids := h.ids
  live d hd := h.live d (hp.mem_iff.mpr hd)
  nonroot d hd := h.nonroot d (hp.mem_iff.mpr hd)
  unique := (hp.map _).nodup_iff.mp h.unique
  counted id n hr hn := by
    rw [links, ← hp.countP_eq]
    exact h.counted id n hr hn

theorem idsSet (h : LinkInv ds nl p) : ∀ d ∈ ds, d.id ≠ 0 := by
  intro d hd h0
  have := (h.ids.used d.id (h.live d hd)).1
  rw [h0] at this
  cases this

/-- An entry goes and its inode keeps other links. -/
theorem drop (h : LinkInv (d :: ds) nl p) (hn : nl d.id = some n) (h1 : n ≠ 1) :
    LinkInv ds (update nl d.id (some (n - 1))) p := by
  obtain ⟨hcount, hpos, hlt⟩ := h.counted d.id n (h.nonroot d mem_cons_self) hn
  have hsome : ∀ id, ((update nl d.id (some (n - 1))) id).isSome = true ↔
      (nl id).isSome = true := by
    intro id
    by_cases he : id = d.id
    · rw [he, update_self, hn, isSome_some, isSome_some]
    · rw [update_of_ne he]
  refine ⟨h.ids.congr hsome, fun e he => (hsome e.id).mpr (h.live e (mem_cons_of_mem _ he)),
    fun e he => h.nonroot e (mem_cons_of_mem _ he), (nodup_cons.mp h.unique).2, ?_⟩
  intro id m hr hm
  by_cases he : id = d.id
  · rw [he, update_self, Option.some.injEq] at hm
    rw [links_cons, if_pos rfl] at hcount
    rw [he]
    omega
  · rw [update_of_ne he] at hm
    have := h.counted id m hr hm
    rwa [links_cons, if_neg he] at this

/-- An entry goes and its inode with it. -/
theorem remove (h : LinkInv (d :: ds) nl p) (hn : nl d.id = some 1) :
    LinkInv ds (update nl d.id none) (p.free d.id) := by
  have hroot := h.nonroot d mem_cons_self
  obtain ⟨hcount, -, -⟩ := h.counted d.id 1 hroot hn
  rw [links_cons, if_pos rfl] at hcount
  -- no other entry names the inode
  have hother : ∀ e ∈ ds, e.id ≠ d.id := by
    intro e he heq
    have := links_pos he
    rw [heq] at this
    omega
  refine ⟨?_, ?_, fun e he => h.nonroot e (mem_cons_of_mem _ he),
    (nodup_cons.mp h.unique).2, ?_⟩
  · refine (h.ids.free (by rw [hn]; rfl) hroot).congr fun id => ?_
    by_cases he : id = d.id
    · simp [he]
    · simp [he]
  · intro e he
    rw [update_of_ne (hother e he)]
    exact h.live e (mem_cons_of_mem _ he)
  · intro id m hr hm
    by_cases he : id = d.id
    · rw [he, update_self] at hm
      cases hm
    · rw [update_of_ne he] at hm
      have := h.counted id m hr hm
      rwa [links_cons, if_neg he] at this

/-- A new inode with one entry. -/
theorem create (h : LinkInv ds nl p) (hid : d.id = p.allocate.1)
    (hkey : d.key ∉ ds.map Dirent.key) :
    LinkInv (d :: ds) (update nl d.id (some 1)) p.allocate.2 := by
  obtain ⟨hdead, hroot⟩ := h.ids.allocate_dead
  have hother : ∀ e ∈ ds, e.id ≠ d.id := fun e he heq => hdead (hid ▸ heq ▸ h.live e he)
  refine ⟨?_, ?_, ?_, nodup_cons.mpr ⟨hkey, h.unique⟩, ?_⟩
  · refine h.ids.allocate.congr fun id => ?_
    by_cases he : id = d.id
    · simp [he, hid]
    · simp [update_of_ne he, hid ▸ he]
  · intro e he
    rcases mem_cons.mp he with rfl | he
    · simp
    · rw [update_of_ne (hother e he)]
      exact h.live e he
  · exact forall_mem_cons.mpr ⟨by omega, h.nonroot⟩
  · intro id m hr hm
    rw [links_cons]
    by_cases he : id = d.id
    · rw [he, update_self, Option.some.injEq] at hm
      have hzero : links ds d.id = 0 :=
        countP_eq_zero.mpr fun e he' => by simpa using hother e he'
      rw [if_pos he, he, hzero]
      omega
    · rw [update_of_ne he] at hm
      rw [if_neg he]
      exact h.counted id m hr hm

/-- One more entry for a live inode. -/
theorem add (h : LinkInv ds nl p) (hn : nl d.id = some n) (hr : d.id ≠ kRootId)
    (hlt : n + 1 < 2 ^ 64) (hkey : d.key ∉ ds.map Dirent.key) :
    LinkInv (d :: ds) (update nl d.id (some (n + 1))) p := by
  have hsome : ∀ id, ((update nl d.id (some (n + 1))) id).isSome = true ↔
      (nl id).isSome = true := by
    intro id
    by_cases he : id = d.id
    · rw [he, update_self, hn, isSome_some, isSome_some]
    · rw [update_of_ne he]
  have hlive : ∀ e ∈ d :: ds, (nl e.id).isSome = true :=
    forall_mem_cons.mpr ⟨by rw [hn]; rfl, h.live⟩
  refine ⟨h.ids.congr hsome, fun e he => (hsome e.id).mpr (hlive e he),
    forall_mem_cons.mpr ⟨hr, h.nonroot⟩, nodup_cons.mpr ⟨hkey, h.unique⟩, ?_⟩
  · intro id m hr' hm
    rw [links_cons]
    by_cases he : id = d.id
    · rw [he, update_self, Option.some.injEq] at hm
      have := h.counted d.id n hr hn
      rw [if_pos he, he]
      omega
    · rw [update_of_ne he] at hm
      rw [if_neg he]
      exact h.counted id m hr' hm

/-- An entry gets another key. -/
theorem rekey (h : LinkInv (d :: ds) nl p) (hid : e.id = d.id) (hkey : e.key ∉ ds.map Dirent.key) :
    LinkInv (e :: ds) nl p where
  ids := h.ids
  live := forall_mem_cons.mpr (hid ▸ forall_mem_cons.mp h.live)
  nonroot := forall_mem_cons.mpr (hid ▸ forall_mem_cons.mp h.nonroot)
  unique := nodup_cons.mpr ⟨hkey, (nodup_cons.mp h.unique).2⟩
  counted id n hr hn := by
    rw [links_cons, hid, ← links_cons]
    exact h.counted id n hr hn

end LinkInv

/-! ### The changes keep the invariant -/

variable {isDir : Bool} {mode : Nat} {oldpath : Name}

namespace Tables

variable {T : Tables} {d : Dirent} {n : Inode} {pid : Nat} {name : Name}

def nlink (T : Tables) (id : Nat) : Option Nat := (T.inodes id).map Inode.nlink

/-- The invariant of the tables. -/
def Linked (T : Tables) : Prop := LinkInv T.dirents T.nlink T.ids

theorem map_nlink_adjust (m : Nat → Option Inode) (p : Nat) {f : InodeFn}
    (hf : ∀ n, (f.apply n).nlink = n.nlink) (id : Nat) :
    (adjust m p f id).map Inode.nlink = (m id).map Inode.nlink := by
  unfold adjust
  by_cases he : id = p
  · rw [he, update_self, Option.map_map]
    exact congrArg (fun g => (m p).map g) (funext hf)
  · rw [update_of_ne he]

theorem extraInc_nlink (n : Inode) : (InodeFn.extraInc.apply n).nlink = n.nlink := by
  simp only [InodeFn.apply]

theorem extraDec_nlink (n : Inode) : (InodeFn.extraDec.apply n).nlink = n.nlink := by
  simp only [InodeFn.apply]

theorem map_nlink_update (m : Nat → Option Inode) (p : Nat) (x : Option Inode) (id : Nat) :
    (update m p x id).map Inode.nlink =
      update (fun id => (m id).map Inode.nlink) p (x.map Inode.nlink) id := by
  by_cases he : id = p
  · rw [he, update_self, update_self]
  · rw [update_of_ne he, update_of_ne he]

theorem nlink_unlink (T : Tables) (d : Dirent) (n : Inode) :
    (T.unlink d n).nlink = update T.nlink d.id
      (if n.dropLink.nlink = 0 then none else some n.dropLink.nlink) := by
  funext id
  unfold nlink unlink
  split
  · simp only [map_nlink_update, map_nlink_adjust _ _ extraDec_nlink, map_none]
    by_cases he : id = d.id
    · rw [he, update_self, update_self]
    · rw [update_of_ne he, update_of_ne he, update_of_ne he]
  · simp only [map_nlink_update, map_nlink_adjust _ _ extraDec_nlink, map_some]

theorem nlink_create (T : Tables) (mode uid gid : Nat) (isDir : Bool) (pid : Nat) (name : Name) :
    (T.create mode uid gid isDir pid name).nlink =
      update T.nlink T.ids.allocate.1 (some 1) := by
  funext id
  simp only [nlink, create, map_nlink_update, map_nlink_adjust _ _ extraInc_nlink, map_some]
  rfl

theorem nlink_move (T : Tables) (d : Dirent) (pid : Nat) (name : Name) :
    (T.move d pid name).nlink = T.nlink := by
  funext id
  unfold nlink move
  split
  · rfl
  · simp only [map_nlink_adjust _ _ extraInc_nlink, map_nlink_adjust _ _ extraDec_nlink]

theorem nlink_link (T : Tables) (d : Dirent) (n : Inode) (pid : Nat) (name : Name) :
    (T.link d n pid name).nlink =
      update T.nlink d.id (some ((n.nlink + 1) % 2 ^ 64)) := by
  funext id
  simp only [nlink, link, map_nlink_update, map_nlink_adjust _ _ extraInc_nlink, map_some]
  rfl

variable {id : Nat}

theorem nlink_setMode (hn : T.inodes id = some n) : (T.setMode id n mode).nlink = T.nlink := by
  funext i
  simp only [nlink, setMode, map_nlink_update, map_some]
  by_cases he : i = id
  · rw [he, update_self, hn, map_some]
  · rw [update_of_ne he]

theorem nlink_eq (hn : T.inodes id = some n) : T.nlink id = some n.nlink := by
  rw [nlink, hn, map_some]

namespace Linked

section

variable (h : T.Linked)

include h

/-- The entry that is found comes first. -/
theorem cons_eraseP (hd : lookup T.dirents d.key = some d) :
    LinkInv (d :: T.dirents.eraseP (Dirent.hasKey d.pid d.name)) T.nlink T.ids :=
  h.perm (perm_of_lookup hd)

/-- The link count of a live inode drops by one. -/
theorem dropLink_eq (hd : lookup T.dirents d.key = some d)
    (hn : T.inodes d.id = some n) : 1 ≤ n.nlink ∧ n.dropLink.nlink = n.nlink - 1 := by
  obtain ⟨-, hpos, hlt⟩ := h.counted d.id n.nlink (h.nonroot d (mem_of_lookup hd)) (nlink_eq hn)
  refine ⟨hpos, ?_⟩
  simp only [Inode.dropLink]
  omega

/-- **An unlink keeps the link counts right.** -/
theorem unlink (hd : lookup T.dirents d.key = some d)
    (hn : T.inodes d.id = some n) : (T.unlink d n).Linked := by
  obtain ⟨hpos, hdrop⟩ := h.dropLink_eq hd hn
  have hcons := h.cons_eraseP hd
  rw [Linked, nlink_unlink]
  by_cases hl : n.dropLink.nlink = 0
  · have hone : n.nlink = 1 := by omega
    simp only [Tables.unlink, if_pos hl]
    exact hcons.remove (hone ▸ nlink_eq hn)
  · simp only [Tables.unlink, if_neg hl]
    rw [hdrop]
    exact hcons.drop (nlink_eq hn) (by omega)

/-- **A new entry keeps the link counts right.** -/
theorem create {uid gid : Nat} (hkey : lookup T.dirents (pid, name) = none) :
    (T.create mode uid gid isDir pid name).Linked := by
  rw [Linked, nlink_create]
  exact LinkInv.create (d := ⟨T.ids.allocate.1, pid, if isDir then DT_DIR else DT_REG, name⟩) h rfl
    (lookup_eq_none_iff.mp hkey)

theorem reallocate : T.reallocate.Linked :=
  { h with ids := h.ids.reallocate }

theorem setMode (hn : T.inodes id = some n) : (T.setMode id n mode).Linked := by
  rw [Linked, nlink_setMode hn]
  exact h

end

theorem notMem_keys_eraseP {ds : List Dirent} (hkey : lookup ds (pid, name) = none)
    (p : Dirent → Bool) : (d.moved pid name).key ∉ (ds.eraseP p).map Dirent.key := by
  intro hmem
  exact lookup_eq_none_iff.mp hkey ((eraseP_sublist.map _).subset hmem)

/-- **A move keeps the link counts right.** -/
theorem move (h : T.Linked) (hd : lookup T.dirents d.key = some d)
    (hkey : lookup T.dirents (pid, name) = none) : (T.move d pid name).Linked := by
  rw [Linked, nlink_move]
  exact (h.cons_eraseP hd).rekey (e := d.moved pid name) rfl (notMem_keys_eraseP hkey _)

/-- **A hard link keeps the link counts right**, as long as they do not wrap. -/
theorem link (h : T.Linked) (hd : lookup T.dirents d.key = some d) (hn : T.inodes d.id = some n)
    (hkey : lookup T.dirents (pid, name) = none) (hlen : T.dirents.length + 1 < 2 ^ 64) :
    (T.link d n pid name).Linked := by
  have hroot := h.nonroot d (mem_of_lookup hd)
  obtain ⟨hcount, -, -⟩ := h.counted d.id n.nlink hroot (nlink_eq hn)
  have hle := links_le_length T.dirents d.id
  rw [Linked, nlink_link, Nat.mod_eq_of_lt (by omega)]
  exact LinkInv.add (d := d.moved pid name) h (nlink_eq hn) hroot (by omega)
    (lookup_eq_none_iff.mp hkey)

/-- Unlinking one entry leaves the others. -/
theorem lookup_unlink (h : T.Linked) {e : Dirent} (hd : lookup T.dirents d.key = some d)
    (he : lookup T.dirents e.key = some e) (hne : d ≠ e) :
    lookup (T.unlink e n).dirents d.key = some d := by
  have hds : (T.unlink e n).dirents = T.dirents.eraseP (Dirent.hasKey e.pid e.name) := rfl
  have hperm := perm_of_lookup he
  have hmem : d ∈ T.dirents.eraseP (Dirent.hasKey e.pid e.name) := by
    rcases mem_cons.mp (hperm.mem_iff.mp (mem_of_lookup hd)) with rfl | hm
    · exact absurd rfl hne
    · exact hm
  rw [hds]
  exact lookup_of_mem ((eraseP_sublist.map _).nodup h.unique) hmem

end Linked

end Tables

/-! ### Runs -/

/-- **What link counts should say**: every entry names a live inode, no two entries share their key,
and every live inode but the root has as many links as entries, at least one. -/
structure LinksOk (σ : Cluster) : Prop where
  live : ∀ d ∈ σ.dirents, (σ.inodes d.id).isSome = true
  unique : (σ.dirents.map Dirent.key).Nodup
  counted : ∀ id n, id ≠ kRootId → σ.inodes id = some n →
    n.nlink = links σ.dirents id ∧ 1 ≤ n.nlink

theorem Tables.Linked.linksOk {σ : Cluster} {srv : Nat} (h : (σ.tables srv).Linked) :
    LinksOk σ where
  live d hd := by
    have := h.live d hd
    rwa [Tables.nlink, isSome_map] at this
  unique := h.unique
  counted id n hr hn := by
    obtain ⟨hc, hpos, -⟩ := h.counted id n.nlink hr (Tables.nlink_eq hn)
    exact ⟨hc, hpos⟩

/-- All paths are canonical, and those of a rename or a link differ. -/
def SeqAct.OnCanonical : SeqAct → Prop
  | .call (.create path _ _ _) | .call (.mkdir path _ _ _) | .call (.unlink path)
  | .call (.rmdir path) | .call (.chmod path _) => Canonical path
  | .call (.rename oldpath newpath) | .call (.link oldpath newpath) =>
    Canonical oldpath ∧ Canonical newpath ∧ oldpath ≠ newpath
  | .checkpoint _ => True

instance : (a : SeqAct) → Decidable a.OnCanonical
  | .call (.create ..) | .call (.mkdir ..) | .call (.unlink _) | .call (.rmdir _)
  | .call (.chmod ..) => inferInstanceAs (Decidable (Canonical _))
  | .call (.rename ..) | .call (.link ..) => inferInstanceAs (Decidable (_ ∧ _))
  | .checkpoint _ => inferInstanceAs (Decidable True)

/-- The entry a rename moves is not the entry it covers. -/
def CoversOther (env : Env) (σ : Cluster) (oldpath newpath : Name) : Prop :=
  ∀ lcd, Covers env σ oldpath newpath lcd → (σ.oldRes oldpath lcd).ent ≠ (σ.locate newpath 0).ent

/-- **When link counts stay right**: a rename does not cover the entry it moves, and there are less
than 2^64 entries to be counted. -/
def LinkSafe (env : Env) (σ : Cluster) : SeqAct → Prop
  | .call (.rename oldpath newpath) => CoversOther env σ oldpath newpath
  | .call (.link _ _) => σ.dirents.length + 1 < 2 ^ 64
  | _ => True

theorem Canonical.oldNamed (h : Canonical oldpath) (newpath : Name) :
    OldNamed oldpath newpath := fun _ hlcd => h.components_drop_lcd hlcd

section Runs

variable {env : Env} {σ σ' : Cluster} {srv th : Nat} {path : Name}

section

variable (h : (σ.tables srv).Linked)

include h

theorem Tables.Linked.idsSet : σ.IdsSet := LinkInv.idsSet h

variable {T : Tables}

theorem Tables.Linked.unlinkEffect (he : UnlinkEffect srv σ path isDir T) : T.Linked := by
  cases he with
  | same => exact h
  | unlinked _ hmem hn _ => exact h.unlink hmem hn

theorem Tables.Linked.createEffect {uid gid : Nat}
    (he : CreateEffect srv σ path mode uid gid isDir T) : T.Linked := by
  cases he with
  | same => exact h
  | full => exact h.reallocate
  | created _ _ hkey => exact h.create hkey

theorem Tables.Linked.chmodEffect (he : ChmodEffect srv σ path mode T) : T.Linked := by
  cases he with
  | same => exact h
  | changed _ hn => exact h.setMode hn

theorem Tables.Linked.renameEffect {newpath : Name} (he : RenameEffect srv σ env oldpath newpath T)
    (hsafe : CoversOther env σ oldpath newpath) : T.Linked := by
  cases he with
  | same => exact h
  | moved _ _ hmem _ _ hkey => exact h.move hmem hkey
  | targetGone hc => exact h.unlink hc.target_mem hc.inode
  | @covered lcd d e n hc _ _ hkey =>
    have hne : d ≠ e := by
      rintro rfl
      exact hsafe lcd hc.covers (hc.old.ent.trans hc.target.ent.symm)
    exact (h.unlink hc.target_mem hc.inode).move (h.lookup_unlink hc.old_mem hc.target_mem hne) hkey

theorem Tables.Linked.linkEffect {newpath : Name} (he : LinkEffect srv σ oldpath newpath T)
    (hsafe : σ.dirents.length + 1 < 2 ^ 64) : T.Linked := by
  cases he with
  | same => exact h
  | linked _ _ hmem hn _ _ hkey => exact h.link hmem hn hkey hsafe

end

theorem linked_init (config : Config) (unset : Unset) :
    ((Cluster.init config unset).tables 0).Linked := by
  have hlive : ∀ id, (((Cluster.init config unset).tables 0).nlink id).isSome = true ↔
      id = kRootId := by
    intro id
    by_cases he : id = kRootId <;> simp [Cluster.tables, Cluster.init, Tables.nlink, he]
  have hids : ∀ p : IdPool, IdsInv (· = kRootId) p →
      IdsInv (fun id => (((Cluster.init config unset).tables 0).nlink id).isSome = true) p :=
    fun p hp => hp.congr hlive
  refine ⟨hids _ ⟨rfl, ?_, ?_, nodup_nil⟩, ?_, ?_, nodup_nil, ?_⟩
  · rintro id rfl
    exact ⟨Nat.le_refl _, by simp [Cluster.tables, Cluster.init, Server.init, IdPool.init]⟩
  · intro id hid
    cases hid
  · intro d hd
    cases hd
  · intro d hd
    cases hd
  · intro id n hr hn
    have := (hlive id).mp (by rw [hn]; rfl)
    exact absurd this hr

theorem setCheckpoint_tables (cp : Nat) : (σ.setCheckpoint srv cp).tables srv = σ.tables srv := by
  simp [Cluster.setCheckpoint, Cluster.setServer, Cluster.tables]

/-- A safe step keeps the link counts right. -/
theorem Tables.Linked.step {a : SeqAct} (h : (σ.tables 0).Linked) (hins : env.Accepts)
    (hpath : a.OnCanonical) (hsafe : LinkSafe env σ a)
    (hst : (sequential env).step σ a = some σ') : (σ'.tables 0).Linked := by
  cases SeqStep.of_step hst with
  | checkpoint =>
    rw [setCheckpoint_tables]
    exact h
  | call hd =>
    cases hd with
    | create hd | mkdir hd => exact h.createEffect (hd.effect hins)
    | unlink hd | rmdir hd => exact h.unlinkEffect (hd.effect h.idsSet hpath.1)
    | chmod hd => exact h.chmodEffect hd.effect
    | rename hd =>
      exact h.renameEffect (hd.effect hins h.idsSet (hpath.1.oldNamed _) hpath.2.1.1) hsafe
    | link hd =>
      exact h.linkEffect (Linked.effect hd hins h.idsSet (hpath.1.oldNamed _)) hsafe

end Runs

/-- **Link counts are right** in every state of a run on canonical paths in which no rename covers
the entry it moves. -/
theorem links_counted {env : Env} (hins : env.Accepts) {σ : Cluster}
    (h : (sequential env).Reach (fun σ a => a.OnCanonical ∧ LinkSafe env σ a) σ) : LinksOk σ := by
  have hlinked : (σ.tables 0).Linked := h.invariant (I := fun σ => (σ.tables 0).Linked) ?_ ?_
  · exact hlinked.linksOk
  · rintro σ ⟨config, unset, rfl⟩
    exact linked_init config unset
  · intro σ a σ' _ hi hok hst
    exact hi.step hins hok.1 hok.2 hst

/-- The bytes of `"/d"`, `"/d/e"`, `"/d/x"` and `"/d/e/x"`. -/
def pathD : Name := [47, 100]
def pathDE : Name := [47, 100, 47, 101]
def pathDX : Name := [47, 100, 47, 120]
def pathDEX : Name := [47, 100, 47, 101, 47, 120]

theorem steadyEnv_accepts : steadyEnv.Accepts := fun _ => rfl

/-- A file with two names: the condition is met, and both names are counted. -/
theorem links_counted_twice :
    ∃ σ, (sequential steadyEnv).Reach (fun σ a => a.OnCanonical ∧ LinkSafe steadyEnv σ a) σ ∧
      σ.dirents.length = 3 ∧ LinksOk σ := by
  have hrun : ((sequential steadyEnv).runLabels
      [.call (.mkdir pathA 0o755 0 0), .call (.create pathAX 0o644 0 0)] freshCluster).bind
      (fun σ => ((sequential steadyEnv).step σ (.call (.link pathAX pathB))).map
        fun σ' => (σ.dirents.length, σ'.dirents.length)) = some (2, 3) := by
    decide +kernel
  obtain ⟨σ, hσ, h⟩ := bind_eq_some_iff.mp hrun
  obtain ⟨σ', hst, he⟩ := map_eq_some_iff.mp h
  obtain ⟨hl, hl'⟩ := Prod.mk.injEq .. ▸ he
  have hreach : (sequential steadyEnv).Reach
      (fun σ a => a.OnCanonical ∧ LinkSafe steadyEnv σ a) σ' := by
    refine .step (System.reach_runLabels ⟨_, _, rfl⟩ ?_ hσ) ⟨by decide, ?_⟩ hst
    · intro a ha σ
      simp only [mem_cons, not_mem_nil, or_false] at ha
      rcases ha with rfl | rfl <;> exact ⟨by decide, trivial⟩
    · rw [LinkSafe, hl]
      decide
  exact ⟨σ', hreach, hl', links_counted steadyEnv_accepts hreach⟩

/-- `/d/e` is a second name of the directory `/d`, and `/d/x` is renamed to `/d/e/x`. -/
def renameOntoSelf : List SeqAct :=
  [.call (.mkdir pathD 0o755 0 0), .call (.link pathD pathDE), .call (.create pathDX 0o644 0 0),
    .call (.rename pathDX pathDEX)]

/-- **A rename can leave an entry without an inode**: both paths lead to the same entry. -/
theorem rename_onto_self_dangles :
    ∃ σ, (sequential steadyEnv).Reach (fun _ a => a.OnCanonical) σ ∧ ¬LinksOk σ := by
  refine System.exists_reach_of_labels (l := renameOntoSelf) (s := freshCluster)
    (Q := fun σ => ∃ d ∈ σ.dirents, ¬(σ.inodes d.id).isSome = true) ⟨_, _, rfl⟩
    (fun a ha _ => (by decide : ∀ a ∈ renameOntoSelf, a.OnCanonical) a ha) (by decide +kernel)
    fun σ _ hσ hok => ?_
  obtain ⟨d, hd, hdead⟩ := hσ
  exact hdead (hok.live d hd)

end StaxFS.Metadata
