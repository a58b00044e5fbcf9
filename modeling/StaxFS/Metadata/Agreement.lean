import StaxFS.Foundation.Store
import StaxFS.Metadata.Service

/-!
# Listings and the dirent table

A directory listing is put together from the logs and dent regions of all servers: of the events of
a name the one with the highest version counts, and a tombstone hides the name. Operations change
the dirent table in the order in which they execute, but their versions are drawn before, when their
requests begin. If the order of execution and the order of versions differ on a name, the listing
shows what the table does not hold, or hides what it holds.

The dirent table and the logged events are a map and its log of versioned writes (`Store`): every
successful operation makes the writes that its records say (`Done.wrote`), so the two agree as long
as the writes of a name come with growing versions. The second record of a covering rename draws its
version from the server's clock, which is past the first.

Results:
* `Done.wrote`: a successful operation changes the table as its records say.
* `listing_agrees`: listing and table agree in every state of a run in which every operation
  executes with a version above those of all events logged for its names.
* `overtaken_version_hides`: without the condition a name that exists is hidden.
-/

namespace StaxFS.Metadata

open Foundation Wal List Option Cluster
open Function (update update_of_ne update_self)

/-! ### Events and names -/

/-- A server has logged event `e` of directory `dir`; whether it is still in the log or already in
the dent region makes no difference to a listing. -/
def Cluster.Event (σ : Cluster) (dir : Nat) (e : DentEntry) : Prop :=
  ∃ k, ∃ r ∈ σ.records k, (dir, e) ∈ r.request.events r.version

/-- The event has the highest version of all events of its name. -/
def Cluster.Wins (σ : Cluster) (dir : Nat) (e : DentEntry) : Prop :=
  σ.Event dir e ∧ ∀ e', σ.Event dir e' → e'.name = e.name → e'.version ≤ e.version

/-- **Listings agree with the namespace**: in every directory the winning events that are no
tombstones list exactly the names of the dirent table, with their inode ids; no name has both a
tombstone and another event winning, and the table holds no name twice. -/
structure ListingAgrees (σ : Cluster) : Prop where
  listed : ∀ dir name id, (∃ e, σ.Wins dir e ∧ e.tombstone = false ∧ e.name = name ∧
    e.inodeId = id) ↔ ∃ d ∈ σ.dirents, d.pid = dir ∧ d.name = name ∧ d.id = id
  decided : ∀ dir e e', σ.Wins dir e → σ.Wins dir e' → e.name = e'.name → e.tombstone = e'.tombstone
  unique : NamesUnique σ

/-- What an event writes: the inode id of its name, or nothing. -/
def toWrite (e : Nat × DentEntry) : Write (Nat × Name) Nat :=
  ⟨(e.1, e.2.name), e.2.version, if e.2.tombstone then none else some e.2.inodeId⟩

def Record.writes (r : Record) : List (Write (Nat × Name) Nat) :=
  (r.request.events r.version).map toWrite

/-- The logged writes. -/
def Cluster.logged (σ : Cluster) (w : Write (Nat × Name) Nat) : Prop :=
  ∃ k, ∃ r ∈ σ.records k, w ∈ r.writes

/-- The dirent table as a map. -/
def Cluster.names (σ : Cluster) (k : Nat × Name) : Option Nat := (lookup σ.dirents k).map Dirent.id

variable {σ : Cluster} {w : Write (Nat × Name) Nat} {dir : Nat} {r : Record} {name : Name}
  {ds : List Dirent} {isDir : Bool} {np : Nat} {e : DentEntry} {id : Nat}

theorem logged_iff : σ.logged w ↔ ∃ dir e, σ.Event dir e ∧ w = toWrite (dir, e) := by
  constructor
  · rintro ⟨k, r, hr, hw⟩
    obtain ⟨⟨dir, e⟩, he, rfl⟩ := List.mem_map.mp hw
    exact ⟨dir, e, ⟨k, r, hr, he⟩, rfl⟩
  · rintro ⟨dir, e, ⟨k, r, hr, he⟩, rfl⟩
    exact ⟨k, r, hr, List.mem_map_of_mem he⟩

theorem logged_toWrite (h : σ.Event dir e) : σ.logged (toWrite (dir, e)) :=
  logged_iff.mpr ⟨dir, e, h, rfl⟩

/-- A winning event is a newest write. -/
theorem Cluster.Wins.le (h : σ.Wins dir e) (hw : σ.logged w) (hk : w.key = (dir, e.name)) :
    w.version ≤ e.version := by
  obtain ⟨dir', e', he', rfl⟩ := logged_iff.mp hw
  obtain ⟨rfl, hname⟩ := Prod.mk.injEq .. ▸ hk
  exact h.2 e' he' hname

theorem shown_iff : Shown σ.logged (dir, name) id ↔
      ∃ e, σ.Wins dir e ∧ e.tombstone = false ∧ e.name = name ∧ e.inodeId = id := by
  constructor
  · rintro ⟨w, hw, hk, hmax, hv⟩
    obtain ⟨dir', e, he, rfl⟩ := logged_iff.mp hw
    obtain ⟨rfl, rfl⟩ := Prod.mk.injEq .. ▸ hk
    simp only [toWrite] at hv
    split at hv
    · cases hv
    · rename_i ht
      exact ⟨e, ⟨he, fun e' he' hn => hmax _ (logged_toWrite he') (by rw [toWrite, hn])⟩,
        Bool.eq_false_of_not_eq_true ht, rfl, Option.some.inj hv⟩
  · rintro ⟨e, hwin, ht, rfl, rfl⟩
    exact ⟨_, logged_toWrite hwin.1, rfl, fun w' hw' hk' => hwin.le hw' hk', by simp [toWrite, ht]⟩

theorem names_eq_some (hu : NamesUnique σ) :
    σ.names (dir, name) = some id ↔ ∃ d ∈ σ.dirents, d.pid = dir ∧ d.name = name ∧ d.id = id := by
  rw [Cluster.names, map_eq_some_iff]
  constructor
  · rintro ⟨d, hd, hid⟩
    obtain ⟨h1, h2⟩ := Prod.mk.injEq .. ▸ key_of_lookup hd
    exact ⟨d, mem_of_lookup hd, h1, h2, hid⟩
  · rintro ⟨d, hd, rfl, rfl, rfl⟩
    exact ⟨d, lookup_of_mem hu hd, rfl⟩

/-- A table that agrees with its log agrees with the listings. -/
theorem listingAgrees_of_agrees (h : Agrees σ.logged σ.names) (hu : NamesUnique σ) :
    ListingAgrees σ where
  listed dir name id := by rw [← shown_iff, h.shown_iff, names_eq_some hu]
  decided dir e e' hw hw' hname := by
    -- both events are the newest write of the name
    have hnewest : ∀ {e}, σ.Wins dir e → ∀ w, Newest σ.logged w → w.key = (dir, e.name) →
        toWrite (dir, e) = w := by
      intro e hwin w hnew hk
      by_contra hne
      have hlt := hnew.2 _ (logged_toWrite hwin.1) hk.symm hne
      exact absurd (hwin.le hnew.1 hk) (Nat.not_le_of_lt hlt)
    rcases h (dir, e.name) with ⟨w, hnew, hk, -⟩ | ⟨hno, -⟩
    · have heq := congrArg Write.value
        ((hnewest hw w hnew hk).trans (hnewest hw' w hnew (hname ▸ hk)).symm)
      simp only [toWrite] at heq
      cases ht : e.tombstone <;> cases ht' : e'.tombstone <;> simp_all
    · exact absurd rfl (hno _ (logged_toWrite hw.1))
  unique := hu

/-! ### What an operation writes -/

/-- **The operation of thread `th` on server `srv` writes what its records `rs` say.** -/
structure Wrote (srv th : Nat) (σ σ' : Cluster) (rs : List Record) : Prop where
  records : ∀ k, σ'.records k = σ.records k ++ if k = srv then rs else []
  names : σ'.names = putAll σ.names (rs.flatMap Record.writes)
  unique : NamesUnique σ'
  advances : Advances th σ σ'

namespace Wrote

variable {srv th : Nat} {σ σ₁ σ' : Cluster} {rs rs' : List Record}

theorem refl (srv th : Nat) (hu : NamesUnique σ) : Wrote srv th σ σ [] :=
  ⟨fun k => by simp, rfl, hu, .refl th σ⟩

theorem trans (h : Wrote srv th σ σ₁ rs) (h' : Wrote srv th σ₁ σ' rs') :
    Wrote srv th σ σ' (rs ++ rs') where
  records k := by
    rw [h'.records, h.records]
    split <;> simp
  names := by rw [h'.names, h.names, flatMap_append, putAll_append]
  unique := h'.unique
  advances := h.advances.trans h'.advances

theorem logged (h : Wrote srv th σ σ' rs) :
    σ'.logged = Extended σ.logged (rs.flatMap Record.writes) := by
  funext w
  refine propext ⟨?_, ?_⟩
  · rintro ⟨k, r, hr, hw⟩
    rw [h.records, mem_append] at hr
    rcases hr with hr | hr
    · exact .inl ⟨k, r, hr, hw⟩
    · split at hr
      · exact .inr (mem_flatMap.mpr ⟨r, hr, hw⟩)
      · cases hr
  · rintro (⟨k, r, hr, hw⟩ | hw)
    · exact ⟨k, r, by rw [h.records]; exact mem_append_left _ hr, hw⟩
    · obtain ⟨r, hr, hw⟩ := mem_flatMap.mp hw
      exact ⟨srv, r, by rw [h.records, if_pos rfl]; exact mem_append_right _ hr, hw⟩

end Wrote

section Table

variable {σ σ' : Cluster}

/-- A key is erased. -/
theorem names_erase (hu : NamesUnique σ) {k : Nat × Name}
    (h : σ'.dirents = σ.dirents.eraseP (Dirent.hasKey k.1 k.2)) :
    σ'.names = update σ.names k none ∧ NamesUnique σ' := by
  constructor
  · funext k'
    by_cases hk : k' = k
    · subst hk
      rw [update_self, Cluster.names, h]
      cases hd : lookup σ.dirents k' with
      | none => rw [eraseP_of_find_none hd, hd, map_none]
      | some d =>
        have hkey := key_of_lookup hd
        rw [← hkey] at hd ⊢
        have hgone := lookup_eraseP_self hu hd
        rw [show lookup (σ.dirents.eraseP (Dirent.hasKey d.key.1 d.key.2)) d.key = none from hgone,
          map_none]
    · rw [update_of_ne hk, Cluster.names, h, lookup_eraseP_of_ne hk, Cluster.names]
  · rw [NamesUnique, h]
    exact (eraseP_sublist.map _).nodup hu

variable {d : Dirent}

/-- An entry is added under a key that has none. -/
theorem names_cons (hu : NamesUnique σ) (hd : lookup σ.dirents d.key = none)
    (h : σ'.dirents = d :: σ.dirents) :
    σ'.names = update σ.names d.key (some d.id) ∧ NamesUnique σ' := by
  constructor
  · funext k
    rw [Cluster.names, h, lookup]
    by_cases hk : k = d.key
    · subst hk
      rw [update_self, find?_cons_of_pos (by simp), map_some]
    · have hno : ¬d.hasKey k.1 k.2 = true := by
        rw [hasKey_iff]
        exact Ne.symm hk
      rw [update_of_ne hk, find?_cons_of_neg hno, Cluster.names, lookup]
  · rw [NamesUnique, h, map_cons]
    exact nodup_cons.mpr ⟨lookup_eq_none_iff.mp hd, hu⟩

end Table

/-! ### What paths resolve to -/

/-- Where a path that resolves ends: nowhere below a directory, or in an entry of the table. -/
def EndsInEntry (ds : List Dirent) (l : Located) : Prop :=
  l.ent = none ∧ l.parent = 0 ∨ ∃ d, l.EndsIn d ∧ lookup ds d.key = some d ∧ d.pid ≠ 0

theorem locateIn_ends : ∀ (names : List Name) (id parent : Nat) (ent : Option Dirent),
      (ent = none ∧ parent = 0 ∨
        ∃ d, ent = some d ∧ d.id = id ∧ d.pid = parent ∧ lookup ds d.key = some d) →
      (locateIn ds names id parent ent).found = true →
      EndsInEntry ds (locateIn ds names id parent ent)
  | [], id, parent, ent, hent, _ => by
    rw [locateIn, EndsInEntry, Located.atEnd]
    by_cases hp : parent = 0
    · exact .inl ⟨if_pos hp, hp⟩
    · rcases hent with ⟨-, h0⟩ | ⟨d, rfl, rfl, rfl, hd⟩
      · exact absurd h0 hp
      · exact .inr ⟨d, ⟨if_neg hp, rfl, rfl, by simp [Located.entName, hp]⟩, hd, hp⟩
  | name :: rest, id, parent, ent, _, hf => by
    unfold locateIn at hf ⊢
    cases hd : ds.find? (Dirent.hasKey id name) with
    | none =>
      rw [hd] at hf
      cases hf
    | some d =>
      rw [hd] at hf
      have hl : lookup ds (id, name) = some d := hd
      have hkey := key_of_lookup hl
      exact locateIn_ends rest d.id id (some d)
        (.inr ⟨d, rfl, rfl, congrArg Prod.fst hkey, hkey ▸ hl⟩) hf

variable {path : Name}

theorem locate_ends {start : Nat}
    (hf : (σ.locate path start).found = true) : EndsInEntry σ.dirents (σ.locate path start) :=
  locateIn_ends _ _ _ _ (.inl ⟨rfl, rfl⟩) hf

/-- Two paths that end in different entries end under different keys. -/
theorem key_ne_of_ent_ne {l : Located}
    (hl : EndsInEntry ds l) (hd : lookup ds d.key = some d) (hpid : d.pid ≠ 0)
    (hne : l.ent ≠ some d) : d.key ≠ (l.parent, l.entName) := by
  intro hk
  rcases hl with ⟨-, hp⟩ | ⟨e, he, hmem, -⟩
  · exact hpid ((congrArg Prod.fst hk).trans hp)
  · rw [he.parent, he.name] at hk
    rw [show d.key = e.key from hk, hmem, Option.some.injEq] at hd
    exact hne (hd ▸ he.ent)

/-! ### The operations -/

/-- What the operation is asked to move is an entry, and not the entry it covers. -/
def MovesOther (env : Env) (σ : Cluster) : Call → Prop
  | .rename oldpath newpath =>
    (∀ lcd, OldFound σ oldpath newpath lcd → (σ.oldRes oldpath lcd).ent ≠ none) ∧
      CoversOther env σ oldpath newpath
  | .link oldpath newpath =>
    ∀ lcd, OldFound σ oldpath newpath lcd → (σ.oldRes oldpath lcd).ent ≠ none
  | _ => True

section Operations

variable {env : Env} {srv th : Nat} {σ σ' : Cluster}

/-- What is known of the versions in use when an operation executes. -/
structure Ready (env : Env) (srv th : Nat) (σ : Cluster) : Prop where
  clock : ∀ i, env.clock i < 2 ^ 42
  fits : ClockFits (σ.servers srv).hlc 0
  unique : NamesUnique σ

/-- A record is appended, and the table changes as it says. -/
theorem Ready.wrote (h : Ready env srv th σ) {req : LogRequest}
    (hrec : ∀ k, σ'.records k = (σ.append env srv th req).records k)
    (hnames : σ'.names = putAll σ.names (Record.writes ⟨req, σ.nextVersion env srv th⟩) ∧
      NamesUnique σ') (hp : σ'.pending = (σ.append env srv th req).pending)
    (hh : ∀ k, (σ'.servers k).hlc = ((σ.append env srv th req).servers k).hlc) :
    Wrote srv th σ σ' [⟨req, σ.nextVersion env srv th⟩] where
  records k := by rw [hrec, append_records]
  names := by rw [hnames.1, flatMap_singleton]
  unique := hnames.2
  advances := (append_advances h.clock h.fits req).congr hp hh

variable {path : Name} {mode : Nat}

theorem Unlinked.wrote (h : Unlinked env srv th σ path isDir 0 σ') (hr : Ready env srv th σ) :
    Wrote srv th σ σ' [⟨(σ.locate path 0).unlinkRequest, σ.nextVersion env srv th⟩] := by
  have herase : ∀ {σ' : Cluster}, σ'.dirents = σ.dirents.eraseP
      (Dirent.hasKey (σ.locate path 0).parent (σ.locate path 0).entName) →
      σ'.names = putAll σ.names (Record.writes
        ⟨(σ.locate path 0).unlinkRequest, σ.nextVersion env srv th⟩) ∧ NamesUnique σ' :=
    fun hd => names_erase hr.unique (k := (_, _)) hd
  obtain ⟨n, -, -, -, -, ⟨-, rfl⟩ | ⟨-, rfl⟩⟩ := h.succeeded
  · exact hr.wrote (fun k => by simp [Cluster.records]) (herase (by simp)) (by simp) (by simp)
  · refine hr.wrote (fun k => by simp [Cluster.records]) (herase (by simp)) ?_ (by simp)
    simp [Cluster.freeInode, Cluster.setInode, Cluster.setIds, Cluster.setServer]

/-- Changes of neither the log, the names, the versions nor the clocks. -/
theorem Wrote.silent (hu : NamesUnique σ) (hlog : ∀ k, (σ'.servers k).log = (σ.servers k).log)
    (hd : σ'.dirents = σ.dirents) (hp : σ'.pending = σ.pending)
    (hh : ∀ k, (σ'.servers k).hlc = (σ.servers k).hlc) : Wrote srv th σ σ' [] where
  records k := by rw [Cluster.records, hlog, Cluster.records, ite_self, append_nil]
  names := by
    funext k
    rw [Cluster.names, hd]
    rfl
  unique := by rwa [NamesUnique, hd]
  advances := (Advances.refl th σ).congr hp hh

theorem nextVersion_setIds (ids : IdPool) :
    (σ.setIds srv ids).nextVersion env srv th = σ.nextVersion env srv th := by
  simp [Cluster.nextVersion, Cluster.setIds, Cluster.setServer]

theorem Created.wrote {uid gid : Nat}
    (h : Created env srv th σ path mode uid gid isDir 0 σ') (hr : Ready env srv th σ)
    (hins : env.Accepts) : Wrote srv th σ σ' [] ∨ ∃ id, Wrote srv th σ σ'
      [⟨createRequest id mode uid gid isDir (σ.locate path 0), σ.nextVersion env srv th⟩] := by
  obtain ⟨hp, ⟨-, rfl⟩ | ⟨id, ids, hf, -, -, -, rfl⟩⟩ := h.succeeded
  · exact .inl (.refl srv th hr.unique)
  · have hsilent : Wrote srv th σ (σ.setIds srv ids) [] :=
      .silent hr.unique (by simp) rfl rfl (by simp)
    have hr' : Ready env srv th (σ.setIds srv ids) :=
      ⟨hr.clock, by rw [setIds_hlc]; exact hr.fits, hr.unique⟩
    have hmiss : lookup σ.dirents (newEntry id isDir (σ.locate path 0)).key = none :=
      locate_missing hf hp
    refine .inr ⟨id, ?_⟩
    rw [← nextVersion_setIds ids]
    refine hsilent.trans (hr'.wrote (fun k => by simp [Cluster.records]) ?_ (by simp; rfl)
      (by simp))
    exact names_cons (σ := σ.setIds srv ids) hr.unique hmiss
      (by rw [addEntry_dirents hins]; simp)

theorem Chmodded.wrote (h : Chmodded env srv th σ path mode 0 σ') (hr : Ready env srv th σ) :
    Wrote srv th σ σ' [⟨.setattr (σ.locate path 0).id mode, σ.nextVersion env srv th⟩] := by
  obtain ⟨n, -, -, -, -, rfl⟩ := h.succeeded
  refine hr.wrote (fun k => rfl) ⟨?_, ?_⟩ rfl (fun k => rfl)
  · funext k
    simp [Cluster.names, Record.writes, LogRequest.events, putAll]
  · rw [NamesUnique, setInode_dirents, append_dirents]
    exact hr.unique

/-- The end of a rename or a link: the entry `d` that is found moves to a key that has none. -/
theorem Moved.wrote {link : Bool} {oldRes : Located}
    (h : Moved env srv th σ link oldRes d np name 0 σ') (hr : Ready env srv th σ)
    (hins : env.Accepts) (hd : oldRes.EndsIn d)
    (hmiss : np ≠ 0 → lookup σ.dirents (np, name) = none) :
    Wrote srv th σ σ' [⟨renameRequest link oldRes d np name, σ.nextVersion env srv th⟩] ∧
      np ≠ 0 := by
  have hid : (d.moved np name).id = oldRes.id := hd.id.symm
  obtain ⟨hp, -, -, ⟨rfl, rfl⟩ | ⟨rfl, n, -, rfl⟩⟩ := h.succeeded
  · -- the old key is erased, the new one is added
    obtain ⟨hn1, hu1⟩ := @names_erase _ (σ.erase oldRes.parent d.name) hr.unique
      (oldRes.parent, d.name) rfl
    have hgone : lookup (σ.erase oldRes.parent d.name).dirents (d.moved np name).key = none :=
      lookup_eq_none_iff.mpr fun hm => lookup_eq_none_iff.mp (hmiss hp)
        ((eraseP_sublist.map Dirent.key).subset hm)
    have hnames : ∀ {σ' : Cluster},
        σ'.dirents = d.moved np name :: (σ.erase oldRes.parent d.name).dirents →
        σ'.names = putAll σ.names (Record.writes
          ⟨renameRequest false oldRes d np name, σ.nextVersion env srv th⟩) ∧ NamesUnique σ' := by
      intro σ' hds
      obtain ⟨hn2, hu2⟩ := names_cons hu1 hgone hds
      refine ⟨?_, hu2⟩
      rw [hn2, hn1, hid]
      rfl
    refine ⟨hr.wrote (fun k => by simp [Cluster.records]) (hnames ?_) (by simp) (by simp), hp⟩
    rw [addEntry_dirents hins, deleteEntry_dirents, append_dirents]
    rfl
  · have hnames : ∀ {σ' : Cluster}, σ'.dirents = d.moved np name :: σ.dirents →
        σ'.names = putAll σ.names (Record.writes
          ⟨renameRequest true oldRes d np name, σ.nextVersion env srv th⟩) ∧ NamesUnique σ' := by
      intro σ' hds
      obtain ⟨hn, hu⟩ := names_cons (d := d.moved np name) hr.unique (hmiss hp) hds
      refine ⟨?_, hu⟩
      rw [hn, hid]
      rfl
    refine ⟨hr.wrote (fun k => by simp [Cluster.records]) (hnames ?_) (by simp; rfl) (by simp), hp⟩
    rw [addEntry_dirents hins, setInode_dirents, append_dirents]

end Operations

/-! ### The versions of the writes -/

theorem version_of_mem_writes (hw : w ∈ r.writes) : w.version = r.version := by
  obtain ⟨⟨dir, e⟩, he, rfl⟩ := List.mem_map.mp hw
  cases hreq : r.request with
  | rename _ _ _ _ _ _ =>
    rw [hreq, LogRequest.events, mem_cons, mem_singleton] at he
    rcases he with he | he <;> cases he <;> rfl
  | setattr _ _ =>
    rw [hreq] at he
    cases he
  | _ =>
    rw [hreq, LogRequest.events, mem_singleton] at he
    cases he
    rfl

/-- The writes have versions from `v` on, which grow where their keys meet. -/
structure Numbered (v : Nat) (rs : List Record) : Prop where
  above : ∀ w ∈ rs.flatMap Record.writes, v ≤ w.version
  grow : (rs.flatMap Record.writes).Pairwise fun w w' => w.key = w'.key → w.version < w'.version

/-- A record that writes no key twice. -/
theorem Numbered.single {v : Nat} (hv : v ≤ r.version)
    (hkeys : r.writes.Pairwise fun w w' => w.key ≠ w'.key) : Numbered v [r] where
  above w hw := by
    rw [flatMap_singleton] at hw
    exact (version_of_mem_writes hw).symm ▸ hv
  grow := by
    rw [flatMap_singleton]
    exact hkeys.imp fun hne he => absurd he hne

/-- A record, and a second one with a higher version. -/
theorem Numbered.pair {v : Nat} {r' : Record} (hv : v ≤ r.version) (hlt : r.version < r'.version)
    (hkeys : r.writes.Pairwise fun w w' => w.key ≠ w'.key)
    (hkeys' : r'.writes.Pairwise fun w w' => w.key ≠ w'.key) : Numbered v ([r] ++ [r']) := by
  obtain ⟨ha, hg⟩ := Numbered.single hv hkeys
  obtain ⟨ha', hg'⟩ := Numbered.single (Nat.le_trans hv (Nat.le_of_lt hlt)) hkeys'
  refine ⟨fun w hw => ?_, ?_⟩
  · rw [flatMap_append, mem_append] at hw
    exact hw.elim (ha w) (ha' w)
  · rw [flatMap_append, pairwise_append]
    refine ⟨hg, hg', fun w hw w' hw' _ => ?_⟩
    rw [flatMap_singleton] at hw hw'
    rwa [version_of_mem_writes hw, version_of_mem_writes hw']

section Done

variable {env : Env} {srv th : Nat} {σ σ' : Cluster}

/-- What an operation has to find: its version drawn from the server's clock, and a table without
duplicates. -/
structure Drawn (env : Env) (srv th : Nat) (σ : Cluster) : Prop extends Ready env srv th σ where
  pending : σ.pending th ≠ 0
  reached : σ.pending th / 2 ^ 8 ≤ (σ.servers srv).hlc

theorem Drawn.nextVersion (h : Drawn env srv th σ) : σ.nextVersion env srv th = σ.pending th :=
  if_pos h.pending

variable {v : Nat} {link : Bool} {oldRes : Located} {d : Dirent} {oldpath newpath : Name}
  {lcd : Nat}

/-- A version drawn from a clock is above those drawn from it before. -/
theorem lt_nextVersion (hclock : ∀ i, env.clock i < 2 ^ 42)
    (hfits : ClockFits (σ.servers srv).hlc 0) (hp : σ.pending th = 0)
    (hv : v / 2 ^ 8 ≤ (σ.servers srv).hlc) : v < σ.nextVersion env srv th := by
  have hlt := @lt_mergeAndTick _ _ _ (σ.servers srv).metaNum hfits (hclock σ.tick)
  have hver := @version_mergeAndTick _ _ _ (σ.servers srv).metaNum hfits (hclock σ.tick)
  rw [Cluster.nextVersion, if_neg (not_not.mpr hp), hver]
  omega

theorem Unlinked.pending_zero (h : Unlinked env srv th σ path isDir 0 σ') (hp : σ.pending th ≠ 0) :
    σ'.pending th = 0 ∧ ∀ k, (σ'.servers k).hlc = (σ.servers k).hlc := by
  obtain ⟨h1, h2⟩ := @append_of_pending env srv _ _ hp
    (σ.locate path 0).unlinkRequest
  obtain ⟨n, -, -, -, -, ⟨-, rfl⟩ | ⟨-, rfl⟩⟩ := h.succeeded
  · exact ⟨by simp [h1], fun k => by simp [h2]⟩
  · refine ⟨?_, fun k => by simp [h2]⟩
    rw [show ((σ.unlinked env srv th (σ.locate path 0) _).freeInode srv _).pending =
      (σ.unlinked env srv th (σ.locate path 0) _).pending from rfl, unlinked_pending, h1,
      update_self]

theorem renameRequest_keys (h : (oldRes.parent, d.name) ≠ (np, name)) :
    (Record.writes ⟨renameRequest link oldRes d np name, v⟩).Pairwise
      fun w w' => w.key ≠ w'.key := by
  cases link with
  | true => exact pairwise_singleton _ _
  | false => exact pairwise_pair.mpr h

/-- The entry to be moved is found under another key than the one it moves to. -/
theorem Located.EndsIn.key_ne (hd : oldRes.EndsIn d) (hmem : lookup ds d.key = some d)
    (hmiss : lookup ds (np, name) = none) : (oldRes.parent, d.name) ≠ (np, name) := by
  intro he
  have hkey : d.key = (np, name) := by rw [← he, hd.parent]; rfl
  rw [hkey, hmiss] at hmem
  cases hmem

/-- A rename or link to a name that is free. -/
theorem Moved.wrote_numbered {start : Nat}
    (h : Moved env srv th σ link oldRes d (σ.locate path start).parent
      (σ.locate path start).newPath 0 σ')
    (hr : Ready env srv th σ) (hins : env.Accepts) (hd : oldRes.EndsIn d)
    (hmem : lookup σ.dirents d.key = some d) (hf : (σ.locate path start).found = false) :
    Wrote srv th σ σ' [⟨renameRequest link oldRes d (σ.locate path start).parent
        (σ.locate path start).newPath, σ.nextVersion env srv th⟩] ∧
      (Record.writes ⟨renameRequest link oldRes d (σ.locate path start).parent
        (σ.locate path start).newPath, v⟩).Pairwise fun w w' => w.key ≠ w'.key := by
  obtain ⟨hw, hp⟩ := h.wrote hr hins hd fun hp => locate_missing hf hp
  exact ⟨hw, renameRequest_keys (hd.key_ne hmem (locate_missing hf hp))⟩

theorem beforeCover_pending (oldpath newpath : Name) (lcd : Nat) :
    (σ.beforeCover env oldpath newpath lcd).pending = σ.pending := by
  unfold Cluster.beforeCover Cluster.entryOf
  split <;> split <;> rfl

/-- A rename that covers another entry: the target is unlinked first. -/
theorem Covers.wrote {σ₁ : Cluster}
    (hcov : Covers env σ oldpath newpath lcd) (h : Drawn env srv th σ) (hins : env.Accepts)
    (hd : (σ.oldRes oldpath lcd).EndsIn d) (hmem : lookup σ.dirents d.key = some d)
    (hpid : d.pid ≠ 0) (hother : CoversOther env σ oldpath newpath)
    (hu : Unlinked env srv th (σ.beforeCover env oldpath newpath lcd) newpath
      (σ.coversDir env oldpath newpath lcd) 0 σ₁)
    (hf : (σ₁.locate (newpath.drop lcd) (σ.newRes oldpath newpath lcd).parent).found = false)
    (hm : Moved env srv th σ₁ false (σ.oldRes oldpath lcd) d
      (σ₁.locate (newpath.drop lcd) (σ.newRes oldpath newpath lcd).parent).parent
      (σ₁.locate (newpath.drop lcd) (σ.newRes oldpath newpath lcd).parent).newPath 0 σ') :
    ∃ rs, Wrote srv th σ σ' rs ∧ Numbered (σ.pending th) rs := by
  have hpend := @beforeCover_pending env σ oldpath newpath lcd
  have hready : Ready env srv th (σ.beforeCover env oldpath newpath lcd) :=
    ⟨h.clock, by rw [beforeCover_servers]; exact h.fits, by
      rw [NamesUnique, beforeCover_dirents]; exact h.unique⟩
  have hsilent : Wrote srv th σ (σ.beforeCover env oldpath newpath lcd) [] :=
    .silent h.unique (by simp) (by simp) hpend (by simp)
  have hwrote := hu.wrote hready
  obtain ⟨hzero, hhlc⟩ := hu.pending_zero (by rw [hpend]; exact h.pending)
  have hfits : ClockFits (σ₁.servers srv).hlc 0 := by
    rw [hhlc, beforeCover_servers]
    exact h.fits
  -- the entry to be moved is still there
  have hdone := hu.done rfl
  have hend : EndsInEntry σ.dirents (σ.locate newpath 0) :=
    locate_ends (by simpa using hdone.found)
  have hent : (σ.locate newpath 0).ent ≠ some d := by
    rw [← hd.ent]
    exact Ne.symm (hother lcd hcov)
  have hmem₁ : lookup σ₁.dirents d.key = some d := by
    rw [hdone.dirents, locate_beforeCover, beforeCover_dirents,
      lookup_eraseP_of_ne (k := (_, _)) (key_ne_of_ent_ne hend hmem hpid hent)]
    exact hmem
  obtain ⟨hw, hkeys⟩ := hm.wrote_numbered ⟨h.clock, hfits, hwrote.unique⟩ hins hd hmem₁ hf
  refine ⟨_, hsilent.trans (hwrote.trans hw), ?_⟩
  have hver : (σ.beforeCover env oldpath newpath lcd).nextVersion env srv th = σ.pending th := by
    rw [Cluster.nextVersion, hpend, if_pos h.pending]
  refine .pair (Nat.le_of_eq hver.symm) ?_ (pairwise_singleton _ _) hkeys
  -- the second version comes from the clock
  show (σ.beforeCover env oldpath newpath lcd).nextVersion env srv th < σ₁.nextVersion env srv th
  rw [hver]
  exact lt_nextVersion h.clock hfits hzero (by rw [hhlc, beforeCover_servers]; exact h.reached)

theorem OldFound.endsIn_ent
    (h : OldFound σ oldpath newpath lcd) (hent : (σ.oldRes oldpath lcd).ent ≠ none) :
    ∃ d, (σ.oldRes oldpath lcd).EndsIn d ∧ lookup σ.dirents d.key = some d ∧ d.pid ≠ 0 := by
  rcases locate_ends h.old with ⟨hnone, -⟩ | hd
  · exact absurd hnone hent
  · exact hd

theorem Renamed.wrote
    (h : Renamed env srv th σ oldpath newpath link 0 σ') (hdrawn : Drawn env srv th σ)
    (hins : env.Accepts)
    (hent : ∀ lcd, OldFound σ oldpath newpath lcd → (σ.oldRes oldpath lcd).ent ≠ none)
    (hother : link = false → CoversOther env σ oldpath newpath) :
    ∃ rs, Wrote srv th σ σ' rs ∧ Numbered (σ.pending th) rs := by
  obtain ⟨lcd, σ₁, hcov, rfl, hu, hf, hm⟩ | ⟨lcd, hold, hf, hm⟩ := h.succeeded
  · obtain ⟨d, hd, hmem, hpid⟩ := hcov.toOldFound.endsIn_ent (hent lcd hcov.toOldFound)
    rw [entryOf_endsIn hd] at hm
    exact hcov.wrote hdrawn hins hd hmem hpid (hother rfl) hu hf hm
  · obtain ⟨d, hd, hmem, -⟩ := hold.endsIn_ent (hent lcd hold)
    rw [entryOf_endsIn hd] at hm
    obtain ⟨hw, hkeys⟩ := hm.wrote_numbered hdrawn.toReady hins hd hmem hf
    exact ⟨_, hw, .single (Nat.le_of_eq hdrawn.nextVersion.symm) hkeys⟩

/-- **A successful operation changes the table as its records say**, with versions that grow. -/
theorem Done.wrote {c : Call} (h : Done env srv th σ c 0 σ') (hdrawn : Drawn env srv th σ)
    (hins : env.Accepts) (hmoves : MovesOther env σ c) :
    ∃ rs, Wrote srv th σ σ' rs ∧ Numbered (σ.pending th) rs := by
  have hver := Nat.le_of_eq hdrawn.nextVersion.symm
  have hnone : Numbered (σ.pending th) [] := ⟨nofun, List.Pairwise.nil⟩
  cases h with
  | create h | mkdir h =>
    rcases h.wrote hdrawn.toReady hins with hw | ⟨id, hw⟩
    · exact ⟨_, hw, hnone⟩
    · exact ⟨_, hw, .single hver (pairwise_singleton _ _)⟩
  | unlink h | rmdir h =>
    exact ⟨_, h.wrote hdrawn.toReady, .single hver (pairwise_singleton _ _)⟩
  | chmod h => exact ⟨_, h.wrote hdrawn.toReady, .single hver List.Pairwise.nil⟩
  | rename h => exact h.wrote hdrawn hins hmoves.1 fun _ => hmoves.2
  | link h => exact h.wrote hdrawn hins hmoves nofun

end Done

/-! ### Runs -/

/-- The records server `srv` publishes between two states. -/
def Cluster.newRecords (σ σ' : Cluster) (srv : Nat) : List Record :=
  (σ'.records srv).drop (σ.records srv).length

/-- **When listings agree with the namespace**: clocks stay within their 42 bits, an operation that
moves something moves an entry other than the one it covers, and, when an operation executes, the
version drawn for it is above the versions of all events that any server has logged for the names it
logs. -/
def VersionsLead (env : Env) (s : Service) : ServiceAct → Prop
  | .beginOperation _ client q => ClockFits (s.cluster.servers q.srv).hlc (s.lastSeen client)
  | .execute th => ∀ client q, s.inFlight th = some (client, q) →
      ClockFits (s.cluster.servers q.srv).hlc 0 ∧ MovesOther env s.cluster q.call ∧
      ∀ σ', s.cluster.run env q.srv th q.call = some (0, σ') →
        ∀ r ∈ s.cluster.newRecords σ' q.srv, ∀ w ∈ r.writes, ∀ w', s.cluster.logged w' →
          w'.key = w.key → w'.version < s.cluster.pending th
  | .checkpoint _ _ => True

structure AgreementInv (s : Service) : Prop where
  drawn : DrawnInv s
  unique : NamesUnique s.cluster
  agrees : Agrees s.cluster.logged s.cluster.names

namespace AgreementInv

variable {env : Env} {s s' : Service} {a : ServiceAct}

theorem start (h : (service env).start s) : AgreementInv s := by
  refine ⟨.start h, ?_, ?_⟩
  · obtain ⟨⟨config, unset, hσ⟩, -⟩ := h
    rw [hσ]
    exact nodup_nil
  · obtain ⟨⟨config, unset, hσ⟩, -⟩ := h
    rw [hσ]
    refine fun k => .inr ⟨?_, rfl⟩
    rintro w ⟨srv, r, hr, -⟩
    cases hr

/-- Steps that change neither the names nor the records. -/
theorem congr (h : AgreementInv s) (hdrawn : DrawnInv s')
    (hd : s'.cluster.dirents = s.cluster.dirents)
    (hrec : ∀ k, s'.cluster.records k = s.cluster.records k) : AgreementInv s' := by
  refine ⟨hdrawn, by rw [NamesUnique, hd]; exact h.unique, ?_⟩
  have hlogged : s'.cluster.logged = s.cluster.logged := by
    funext w
    simp only [Cluster.logged, hrec]
  have hnames : s'.cluster.names = s.cluster.names := by
    funext k
    rw [Cluster.names, hd, Cluster.names]
  rw [hlogged, hnames]
  exact h.agrees

/-- **An operation that executes keeps the agreement.** -/
theorem execute (h : AgreementInv s) (hclock : ∀ i, env.clock i < 2 ^ 42) (hins : env.Accepts)
    {th client : Nat} {q : Request} {σ' : Cluster} (hq : s.inFlight th = some (client, q))
    (hdone : Done env q.srv th s.cluster q.call 0 σ') (hok : VersionsLead env s (.execute th)) :
    AgreementInv (s.answer th client q.srv σ') := by
  obtain ⟨hfits, hmoves, hlead⟩ := hok client q hq
  obtain ⟨hpend, hreached⟩ := h.drawn th client q hq
  obtain ⟨rs, hw, hnum⟩ := hdone.wrote ⟨⟨hclock, hfits, h.unique⟩, hpend, hreached⟩ hins hmoves
  have hrs : s.cluster.newRecords σ' q.srv = rs := by
    rw [Cluster.newRecords, hw.records, if_pos rfl, drop_left]
  have horder : InOrder s.cluster.logged (rs.flatMap Record.writes) := by
    refine .of_above (v := s.cluster.pending th) (fun w hw' w' hl hk => ?_) hnum.above hnum.grow
    obtain ⟨r, hr, hwr⟩ := mem_flatMap.mp hw'
    exact hlead σ' (run_call.mpr hdone) r (hrs.symm ▸ hr) w hwr w' hl hk
  refine ⟨h.drawn.answer hw.advances, hw.unique, ?_⟩
  show Agrees σ'.logged σ'.names
  rw [hw.logged, hw.names]
  exact h.agrees.putAll horder

theorem step (h : AgreementInv s) (hclock : ∀ i, env.clock i < 2 ^ 42) (hins : env.Accepts)
    (hok : VersionsLead env s a) (hst : (service env).step s a = some s') : AgreementInv s' := by
  cases ServiceStep.of_step hst with
  | @beginOperation th client q hidle =>
    refine h.congr (h.drawn.beginOperation hclock hok) rfl fun k => ?_
    by_cases hk : k = q.srv
    · subst hk
      simp [Cluster.records, Cluster.beginOperation, Cluster.setServer]
    · simp [Cluster.records, Cluster.beginOperation, Cluster.setServer, hk]
  | execute hq hdone => exact h.execute hclock hins hq hdone hok
  | @checkpoint srv cp =>
    refine h.congr (h.drawn.checkpoint srv cp) rfl fun k => ?_
    by_cases hk : k = srv
    · subst hk
      simp [Cluster.records, Cluster.setCheckpoint, Cluster.setServer]
    · simp [Cluster.records, Cluster.setCheckpoint, Cluster.setServer, hk]

end AgreementInv

/-- **Listings agree with the namespace** in every state of a run of successful operations in which
every operation executes with a version above those of all events logged for its names. -/
theorem listing_agrees {env : Env} (hins : env.Accepts) (hclock : ∀ i, env.clock i < 2 ^ 42)
    {s : Service} (h : (service env).Reach (VersionsLead env) s) : ListingAgrees s.cluster := by
  have hinv : AgreementInv s :=
    h.invariant (fun s hs => .start hs) fun s a s' _ hi hok hst => hi.step hclock hins hok hst
  exact listingAgrees_of_agrees hinv.agrees hinv.unique

/-- A clock that stands still. -/
def stillEnv : Env := ⟨fun _ => 1000, fun _ => false, fun _ => 0⟩

/-- No request, on a fresh cluster. -/
def freshService : Service := ⟨freshCluster, fun _ => none, fun _ => 0⟩

theorem freshService_start (env : Env) : (service env).start freshService :=
  ⟨⟨_, _, rfl⟩, fun _ => rfl, fun _ => rfl⟩

/-- A step of three threads on server 0. -/
def ServiceAct.onServerZero : ServiceAct → Bool
  | .beginOperation th _ q => q.srv = 0 && th < 3
  | .execute _ => true
  | .checkpoint _ _ => false

/-- What such steps keep. -/
structure OnServerZero (s : Service) : Prop where
  records : ∀ k, k ≠ 0 → s.cluster.records k = []
  inFlight : ∀ th client q, s.inFlight th = some (client, q) → q.srv = 0 ∧ th < 3

theorem OnServerZero.step {env : Env} {s s' : Service} {a : ServiceAct}
    (ha : a.onServerZero = true) (h : OnServerZero s) (hst : (service env).step s a = some s') :
    OnServerZero s' := by
  cases ServiceStep.of_step hst with
  | @beginOperation th client q _ =>
    have hq : q.srv = 0 ∧ th < 3 := by simpa [ServiceAct.onServerZero] using ha
    refine ⟨fun k hk => ?_, fun t c q' he => ?_⟩
    · rw [← h.records k hk]
      simp [Cluster.records, Cluster.beginOperation, Cluster.setServer, hq.1, hk]
    · dsimp only at he
      by_cases ht : t = th
      · rw [ht, update_self] at he
        cases he
        exact ht ▸ hq
      · rw [update_of_ne ht] at he
        exact h.inFlight t c q' he
  | @execute th client q σ' hq hdone =>
    obtain ⟨hsrv, -⟩ := h.inFlight th client q hq
    refine ⟨fun k hk => ?_, fun t c q' he => ?_⟩
    · rw [← h.records k hk]
      show ((σ'.servers k).log).records = _
      rw [run_servers (run_call.mpr hdone) (hsrv ▸ hk), Cluster.records]
    · dsimp only [Service.answer] at he
      by_cases ht : t = th
      · rw [ht, update_self] at he
        cases he
      · rw [update_of_ne ht] at he
        exact h.inFlight t c q' he
  | @checkpoint srv cp => cases ha

instance (hlc observed : Nat) : Decidable (ClockFits hlc observed) :=
  inferInstanceAs (Decidable (_ ∧ _))

/-- A test of `VersionsLead` for calls that create and unlink, when all records are on server 0. -/
def leads (env : Env) (s : Service) (a : ServiceAct) : Bool :=
  a.onServerZero && match a with
  | .beginOperation _ client q => ClockFits (s.cluster.servers q.srv).hlc (s.lastSeen client)
  | .execute th => (s.inFlight th).all fun x =>
    ClockFits (s.cluster.servers x.2.srv).hlc 0 &&
      (match x.2.call with | .create .. | .unlink _ => true | _ => false) &&
      (s.cluster.run env x.2.srv th x.2.call).all fun y =>
        (s.cluster.newRecords y.2 x.2.srv).all fun r => r.writes.all fun w =>
          (s.cluster.records 0).all fun r' => r'.writes.all fun w' =>
            w'.key ≠ w.key || w'.version < s.cluster.pending th
  | .checkpoint _ _ => true

theorem OnServerZero.leads {env : Env} {s : Service} {a : ServiceAct} (h : OnServerZero s)
    (ht : leads env s a = true) : VersionsLead env s a := by
  have ht := Bool.and_eq_true_iff.mp ht
  cases a with
  | beginOperation th client q =>
    exact of_decide_eq_true (p := ClockFits _ _) ht.2
  | checkpoint srv cp => trivial
  | execute th =>
    intro client q hq
    obtain ⟨-, ht⟩ := ht
    simp only [hq, Option.all_some, Bool.and_eq_true, decide_eq_true_eq] at ht
    obtain ⟨⟨hfits, hcall⟩, hrun⟩ := ht
    refine ⟨hfits, ?_, fun σ' hσ' r hr w hw w' hl hk => ?_⟩
    · revert hcall
      cases q.call <;> intro hcall <;> trivial
    · obtain ⟨k, r', hr', hw'⟩ := hl
      have hk0 : k = 0 := by
        by_contra hne
        rw [h.records k hne] at hr'
        cases hr'
      subst hk0
      rw [hσ', Option.all_some] at hrun
      simp only [List.all_eq_true] at hrun
      simpa [hk] using hrun r hr w hw r' hr' w' hw'

/-- `/a` is created, unlinked and created again; the last two requests are in flight together, and
execute in the order of their versions. -/
theorem listing_agrees_remade :
    ∃ s, (service stillEnv).Reach (VersionsLead stillEnv) s ∧ (s.cluster.records 0).length = 3 ∧
      s.cluster.dirents.map Dirent.key = [(kRootId, [97])] ∧ ListingAgrees s.cluster := by
  have hrun : ((service stillEnv).runChecked (leads stillEnv)
      [.beginOperation 0 0 ⟨0, .create pathA 0o644 0 0⟩, .execute 0,
        .beginOperation 1 1 ⟨0, .unlink pathA⟩, .beginOperation 2 2 ⟨0, .create pathA 0o644 0 0⟩,
        .execute 1, .execute 2] freshService).map
      (fun s => ((s.cluster.records 0).length, s.cluster.dirents.map Dirent.key)) =
        some (3, [(kRootId, [97])]) := by
    decide +kernel
  obtain ⟨s, hs, he⟩ := map_eq_some_iff.mp hrun
  obtain ⟨hlen, hkeys⟩ := Prod.mk.inj he
  have hstart : (service stillEnv).Reach (VersionsLead stillEnv) freshService :=
    .start (freshService_start _)
  have hreach := hstart.steps (System.steps_runChecked_of (I := OnServerZero)
    (fun s a s' h ht hst => ⟨h.leads ht, h.step (Bool.and_eq_true_iff.mp ht).1 hst⟩)
    ⟨fun _ _ => rfl, nofun⟩ hs)
  exact ⟨s, hreach, hlen, hkeys, listing_agrees (fun _ => rfl)
    (fun _ => (by decide : 1000 < 2 ^ 42)) hreach⟩

/-- While `/a` exists, a request to create it draws a version; then one to unlink it draws a higher
version and executes first. -/
def overtaken : List ServiceAct :=
  [.beginOperation 0 0 ⟨0, .create pathA 0o644 0 0⟩, .execute 0,
    .beginOperation 1 1 ⟨0, .create pathA 0o644 0 0⟩, .beginOperation 2 2 ⟨0, .unlink pathA⟩,
    .execute 2, .execute 1]

/-- **A name that exists can be hidden from listings**: of two requests the one that executes last
has drawn its version first. -/
theorem overtaken_version_hides :
    ∃ s, (service stillEnv).Reach (fun _ _ => True) s ∧ (∀ th, s.inFlight th = none) ∧
      ¬ListingAgrees s.cluster := by
  have hrun : ((service stillEnv).runLabels overtaken freshService).map (fun s => decide (
      (s.inFlight 0 = none ∧ s.inFlight 1 = none ∧ s.inFlight 2 = none) ∧
      (kRootId, [97]) ∈ s.cluster.dirents.map Dirent.key ∧
      ∀ r ∈ s.cluster.records 0, ∀ e ∈ r.request.events r.version, e.2.tombstone = false →
        ∃ r' ∈ s.cluster.records 0, ∃ e' ∈ r'.request.events r'.version,
          e'.1 = kRootId ∧ e'.2.name = [97] ∧ e.2.version < e'.2.version)) = some true := by
    decide +kernel
  obtain ⟨s, hs, hdec⟩ := map_eq_some_iff.mp hrun
  obtain ⟨⟨h0, h1, h2⟩, hkey, hnewer⟩ := of_decide_eq_true hdec
  have hinv : OnServerZero s := by
    refine System.Steps.invariant (S := service stillEnv) (I := OnServerZero)
      (fun x a y hx (ha : a.onServerZero = true) hst => hx.step ha hst)
      (System.steps_runLabels overtaken (fun a ha _ =>
        (by decide : ∀ a ∈ overtaken, a.onServerZero = true) a ha) hs)
      ⟨fun k _ => rfl, nofun⟩
  refine ⟨s, System.reach_runLabels (freshService_start _) (fun _ _ _ => trivial) hs, ?_, ?_⟩
  · intro th
    cases hth : s.inFlight th with
    | none => rfl
    | some x =>
      have hlt := (hinv.inFlight th x.1 x.2 hth).2
      have hcases : th = 0 ∨ th = 1 ∨ th = 2 := by omega
      rcases hcases with rfl | rfl | rfl
      · exact hth.symm.trans h0
      · exact hth.symm.trans h1
      · exact hth.symm.trans h2
  · intro hagrees
    obtain ⟨d, hd, hdkey⟩ := List.mem_map.mp hkey
    obtain ⟨hpid, hname⟩ := Prod.mk.injEq .. ▸ hdkey
    obtain ⟨e, ⟨⟨k, r, hr, he⟩, hmax⟩, htomb, hen, -⟩ :=
      (hagrees.listed kRootId [97] d.id).mpr ⟨d, hd, hpid, hname, rfl⟩
    -- the event is one of server 0, and the tombstone is newer
    by_cases hk : k = 0
    · subst hk
      obtain ⟨r', hr', ⟨dir', e'⟩, he', hdir, hname', hlt⟩ := hnewer r hr _ he htomb
      dsimp only at hdir
      subst hdir
      exact absurd (hmax e' ⟨0, r', hr', he'⟩ (hname'.trans hen.symm)) (Nat.not_le_of_lt hlt)
    · rw [hinv.records k hk] at hr
      cases hr

end StaxFS.Metadata
