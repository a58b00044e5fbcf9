import StaxFS.Metadata.Tree

/-!
# The two records of a file's kind

An entry has a `type_`, its inode has the `S_IFDIR` bit of `mode_`. `Rename` compares the former,
`Unlink` the latter, and each call writes one or both: `Create` sets the bit it wants but keeps the
bits it was given, `Chmod` replaces `mode_` as a whole, and neither `Rename` nor `Link` looks at it.

Results:
* `Kinded.of_kept`, `Kinded.create`: what the changes of the tables do to the kinds.
* `kinds_agree`: type and mode agree in every state of a run whose calls leave the bit as the type
  has it (`KindSafe`).
* `chmod_changes_kind`: a `Chmod` with permission bits only takes the bit from a directory.
-/

namespace StaxFS.Metadata

open Foundation Wal List Option

/-- The `type_` that goes with an inode. -/
def Inode.type (n : Inode) : Nat := if n.isDir then DT_DIR else DT_REG

theorem Inode.type_eq_dir {n : Inode} : n.type = DT_DIR ↔ n.isDir = true := by
  cases h : n.isDir <;> simp [Inode.type, h, DT_DIR, DT_REG]

theorem Inode.type_beq_dir (n : Inode) : (n.type == DT_DIR) = n.isDir := by
  cases h : n.isDir <;> simp [Inode.type, h, DT_DIR, DT_REG]

theorem Inode.type_eq_reg {n : Inode} : n.type = DT_REG ↔ n.isDir = false := by
  cases h : n.isDir <;> simp [Inode.type, h, DT_DIR, DT_REG]

theorem Inode.type_congr {n n' : Inode} (h : n'.isDir = n.isDir) : n'.type = n.type := by
  rw [Inode.type, Inode.type, h]

/-! ### The changes of the tables -/

/-- What was an inode before `m'` has its kind in `m'`, and nothing else is one. -/
def KindKept (m m' : Nat → Option Inode) : Prop :=
  ∀ id n', m' id = some n' → ∃ n, m id = some n ∧ n'.isDir = n.isDir

namespace KindKept

variable {m m₁ m₂ : Nat → Option Inode} {id : Nat}

theorem refl (m : Nat → Option Inode) : KindKept m m := fun _ n hn => ⟨n, hn, rfl⟩

theorem trans (h₁ : KindKept m m₁) (h₂ : KindKept m₁ m₂) : KindKept m m₂ := by
  intro id n₂ hn₂
  obtain ⟨n₁, hn₁, he₁⟩ := h₂ id n₂ hn₂
  obtain ⟨n, hn, he⟩ := h₁ id n₁ hn₁
  exact ⟨n, hn, he₁.trans he⟩

theorem update {n n' : Inode} (hn : m id = some n) (hk : n'.isDir = n.isDir) :
    KindKept m (Function.update m id (some n')) := by
  intro i x hx
  by_cases hi : i = id
  · rw [hi, Function.update_self, Option.some.injEq] at hx
    exact ⟨n, hi ▸ hn, hx ▸ hk⟩
  · rw [Function.update_of_ne hi] at hx
    exact ⟨x, hx, rfl⟩

theorem delete : KindKept m (Function.update m id none) := by
  intro i x hx
  by_cases hi : i = id
  · rw [hi, Function.update_self] at hx
    cases hx
  · rw [Function.update_of_ne hi] at hx
    exact ⟨x, hx, rfl⟩

theorem adjust {f : InodeFn} (hf : ∀ n, (f.apply n).isDir = n.isDir) :
    KindKept m (Metadata.adjust m id f) := by
  unfold Metadata.adjust
  cases hn : m id with
  | none => exact delete
  | some n => exact update hn (hf n)

theorem extraInc : KindKept m (Metadata.adjust m id .extraInc) :=
  adjust fun _ => by simp only [InodeFn.apply, Inode.isDir]

theorem extraDec : KindKept m (Metadata.adjust m id .extraDec) :=
  adjust fun _ => by simp only [InodeFn.apply, Inode.isDir]

end KindKept

namespace Tables

variable {T T' : Tables} {d : Dirent} {n : Inode} {pid : Nat} {name : Name}

/-- Every entry has the type of its inode. -/
def Kinded (T : Tables) : Prop :=
  ∀ d ∈ T.dirents, ∃ n, T.inodes d.id = some n ∧ d.type = n.type

/-- **Entries that keep inode and type have the right type as long as their inodes live.** -/
theorem Kinded.of_kept (h : T.Kinded) (hkept : KindKept T.inodes T'.inodes) (hlive : T'.Linked)
    (hds : ∀ e ∈ T'.dirents, ∃ d ∈ T.dirents, d.id = e.id ∧ d.type = e.type) : T'.Kinded := by
  intro e he
  obtain ⟨d, hd, hid, htype⟩ := hds e he
  have halive := hlive.live e he
  rw [nlink, isSome_map] at halive
  obtain ⟨n', hn'⟩ := isSome_iff_exists.mp halive
  obtain ⟨n, hn, hdir⟩ := hkept e.id n' hn'
  obtain ⟨n₀, hn₀, hd₀⟩ := h d hd
  rw [hid, hn, Option.some.injEq] at hn₀
  subst hn₀
  exact ⟨n', hn', htype ▸ hd₀.trans (Inode.type_congr hdir).symm⟩

theorem kindKept_unlink (hn : T.inodes d.id = some n) :
    KindKept T.inodes (T.unlink d n).inodes := by
  have hfirst : KindKept T.inodes (Function.update T.inodes d.id (some n.dropLink)) :=
    .update hn rfl
  have hdrop : KindKept T.inodes
      (adjust (Function.update T.inodes d.id (some n.dropLink)) d.pid .extraDec) :=
    hfirst.trans .extraDec
  simp only [unlink]
  split
  · exact hdrop.trans .delete
  · exact hdrop

theorem kindKept_move : KindKept T.inodes (T.move d pid name).inodes := by
  simp only [move]
  split
  · exact .refl _
  · exact KindKept.extraDec.trans .extraInc

theorem kindKept_link (hn : T.inodes d.id = some n) :
    KindKept T.inodes (T.link d n pid name).inodes := by
  have hfirst : KindKept T.inodes
      (Function.update T.inodes d.id (some { n with nlink := (n.nlink + 1) % 2 ^ 64 })) :=
    .update hn rfl
  exact hfirst.trans .extraInc

/-- An entry of the table that stays, or the moved one. -/
theorem kept_of_moved {ds : List Dirent} (hd : d ∈ T.dirents) (hsub : ∀ e ∈ ds, e ∈ T.dirents) :
    ∀ e ∈ d.moved pid name :: ds, ∃ c ∈ T.dirents, c.id = e.id ∧ c.type = e.type := by
  exact forall_mem_cons.mpr ⟨⟨d, hd, rfl, rfl⟩, fun e he => ⟨e, hsub e he, rfl, rfl⟩⟩

theorem Kinded.unlink (h : T.Kinded) (hl : T.Linked) (hd : lookup T.dirents d.key = some d)
    (hn : T.inodes d.id = some n) : (T.unlink d n).Kinded :=
  h.of_kept (kindKept_unlink hn) (hl.unlink hd hn)
    fun e he => ⟨e, eraseP_sublist.subset he, rfl, rfl⟩

theorem Kinded.move (h : T.Kinded) (hl : T.Linked) (hd : lookup T.dirents d.key = some d)
    (hkey : lookup T.dirents (pid, name) = none) : (T.move d pid name).Kinded :=
  h.of_kept kindKept_move (hl.move hd hkey)
    (kept_of_moved (mem_of_lookup hd) fun _ he => eraseP_sublist.subset he)

theorem Kinded.link (h : T.Kinded) (hl : T.Linked) (hd : lookup T.dirents d.key = some d)
    (hn : T.inodes d.id = some n) (hkey : lookup T.dirents (pid, name) = none)
    (hlen : T.dirents.length + 1 < 2 ^ 64) : (T.link d n pid name).Kinded :=
  h.of_kept (kindKept_link hn) (hl.link hd hn hkey hlen)
    (kept_of_moved (mem_of_lookup hd) fun _ he => he)

theorem Kinded.setMode (h : T.Kinded) (hl : T.Linked) {id mode : Nat} (hn : T.inodes id = some n)
    (hk : Inode.isDir { n with mode } = n.isDir) : (T.setMode id n mode).Kinded :=
  h.of_kept (KindKept.update hn hk) (hl.setMode hn) fun e he => ⟨e, he, rfl, rfl⟩

variable {mode uid gid : Nat}

/-- The bit `Create` sets: that of a directory, or the one it was given. -/
theorem newMode_isDir {isDir : Bool} (hreg : isDir = false → mode &&& S_IFDIR = 0) :
    (⟨1, newMode mode isDir, 0, uid, gid⟩ : Inode).isDir = isDir := by
  cases isDir with
  | false =>
    have hbit : (mode ||| S_IFREG) &&& S_IFDIR = 0 := by
      rw [Nat.and_or_distrib_right, hreg rfl]
      decide
    simp [Inode.isDir, newMode, hbit]
  | true =>
    have hbit : (mode ||| S_IFDIR) &&& S_IFDIR = S_IFDIR := by
      refine Nat.eq_of_testBit_eq fun i => ?_
      simp only [Nat.testBit_and, Nat.testBit_or]
      cases S_IFDIR.testBit i <;> simp
    rw [Inode.isDir, newMode, if_pos rfl, hbit]
    decide

/-- **A new file has its type**, if the mode it was given does not make it a directory. -/
theorem Kinded.create (h : T.Kinded) (hl : T.Linked) {isDir : Bool}
    (hreg : isDir = false → mode &&& S_IFDIR = 0) :
    (T.create mode uid gid isDir pid name).Kinded := by
  intro e he
  have hkept : KindKept (Function.update T.inodes T.ids.allocate.1
      (some ⟨1, newMode mode isDir, 0, uid, gid⟩)) (T.create mode uid gid isDir pid name).inodes :=
    .extraInc
  -- the inodes live on, with the kind they had in the table behind the insert
  have hsome : ∀ {id : Nat} {n : Inode}, Function.update T.inodes T.ids.allocate.1
      (some ⟨1, newMode mode isDir, 0, uid, gid⟩) id = some n →
      ∃ n', (T.create mode uid gid isDir pid name).inodes id = some n' ∧ n.type = n'.type := by
    intro id n hn
    have hlive : ((T.create mode uid gid isDir pid name).inodes id).isSome = true := by
      simp only [Tables.create, adjust, Function.update_apply]
      split
      · next heq => simp [← heq, ← Function.update_apply, hn]
      · rw [← Function.update_apply, hn]
        rfl
    obtain ⟨n', hn'⟩ := isSome_iff_exists.mp hlive
    obtain ⟨n₀, hn₀, hdir⟩ := hkept id n' hn'
    rw [hn, Option.some.injEq] at hn₀
    subst hn₀
    exact ⟨n', hn', (Inode.type_congr hdir).symm⟩
  rcases mem_cons.mp he with rfl | he
  · obtain ⟨n', hn', htype⟩ := hsome (Function.update_self ..)
    refine ⟨n', hn', htype ▸ ?_⟩
    rw [Inode.type, newMode_isDir hreg]
  · obtain ⟨n, hn, htype⟩ := h e he
    have hne : e.id ≠ T.ids.allocate.1 := by
      intro heq
      refine (LinkInv.ids hl).allocate_dead.1 ?_
      rw [← heq]
      exact hl.live e he
    obtain ⟨n', hn', htype'⟩ := hsome ((Function.update_of_ne hne ..).trans hn)
    exact ⟨n', hn', htype.trans htype'⟩

end Tables

/-! ### Runs -/

/-- **The two records agree**: an entry of type directory names an inode with the bit, one of type
regular file an inode without it, and of the entry a path ends in, `Rename` and `Unlink` see the
same kind. -/
structure KindsOk (σ : Cluster) : Prop where
  directory : ∀ d ∈ σ.dirents, d.type = DT_DIR → ∃ n, σ.inodes d.id = some n ∧ n.isDir = true
  regular : ∀ d ∈ σ.dirents, d.type = DT_REG → ∃ n, σ.inodes d.id = some n ∧ n.isDir = false
  agree : ∀ path start d n, components path ≠ [] → (σ.locate path start).ent = some d →
    σ.inodes (σ.locate path start).id = some n → (d.type == DT_DIR) = n.isDir

/-- **When the records stay equal**: no regular file is created with the directory bit in its mode,
and no `Chmod` sets or clears the bit. -/
def KindSafe (σ : Cluster) : SeqAct → Prop
  | .call (.create _ mode _ _) => mode &&& S_IFDIR = 0
  | .call (.chmod path mode) => (σ.locate path 0).found = true →
    ∀ n, σ.inodes (σ.locate path 0).id = some n → Inode.isDir { n with mode } = n.isDir
  | _ => True

section Runs

variable {env : Env} {σ σ' : Cluster} {srv : Nat}

theorem locateIn_ent_of_missing (ds : List Dirent) :
    ∀ (names : List Name) (id parent : Nat) (ent : Option Dirent),
      (locateIn ds names id parent ent).found = false → (locateIn ds names id parent ent).ent = none
  | [], _, _, _, hf => by cases hf
  | name :: rest, id, parent, ent, hf => by
    unfold locateIn at hf ⊢
    cases hd : ds.find? (Dirent.hasKey id name) with
    | none => rfl
    | some d =>
      rw [hd] at hf
      exact locateIn_ent_of_missing ds rest d.id id (some d) hf

/-- The entry reported with a path of at least one name is the one the path ends in. -/
theorem locate_ent {path : Name} {start : Nat} {d : Dirent} (hz : σ.IdsSet)
    (hc : components path ≠ []) (hent : (σ.locate path start).ent = some d) :
    d ∈ σ.dirents ∧ (σ.locate path start).id = d.id := by
  cases hf : (σ.locate path start).found with
  | true =>
    obtain ⟨e, he, hmem⟩ := locate_endsIn hz hc hf
    rw [he.ent, Option.some.injEq] at hent
    subst hent
    exact ⟨mem_of_lookup hmem, he.id⟩
  | false =>
    have hnone : (σ.locate path start).ent = none := locateIn_ent_of_missing _ _ _ _ _ hf
    rw [hnone] at hent
    cases hent

theorem Tables.Kinded.kindsOk (h : (σ.tables srv).Kinded) (hz : σ.IdsSet) : KindsOk σ where
  directory d hd ht := by
    obtain ⟨n, hn, htype⟩ := h d hd
    exact ⟨n, hn, Inode.type_eq_dir.mp (htype.symm.trans ht)⟩
  regular d hd ht := by
    obtain ⟨n, hn, htype⟩ := h d hd
    exact ⟨n, hn, Inode.type_eq_reg.mp (htype.symm.trans ht)⟩
  agree path start d n hc hent hn := by
    obtain ⟨hd, hid⟩ := locate_ent hz hc hent
    obtain ⟨n₀, hn₀, htype⟩ := h d hd
    have heq : n₀ = n := Option.some.inj (hn₀.symm.trans (hid ▸ hn))
    rw [htype, heq, Inode.type_beq_dir]

/-- A safe step keeps types and modes in agreement. -/
theorem Tables.Kinded.step {a : SeqAct} (h : (σ.tables 0).Kinded) (hl : (σ.tables 0).Linked)
    (hins : env.Accepts) (hpath : a.OnCanonical) (hlinks : LinkSafe env σ a) (hsafe : KindSafe σ a)
    (hst : (sequential env).step σ a = some σ') : (σ'.tables 0).Kinded := by
  have hz := hl.idsSet
  cases SeqStep.of_step hst with
  | checkpoint =>
    rw [setCheckpoint_tables]
    exact h
  | call hd =>
    generalize hT : σ'.tables 0 = T
    cases hd with
    | create hd =>
      cases hT ▸ hd.effect hins with
      | same | full => exact h
      | created _ _ _ => exact h.create hl fun _ => hsafe
    | mkdir hd =>
      cases hT ▸ hd.effect hins with
      | same | full => exact h
      | created _ _ _ => exact h.create hl fun hreg => by cases hreg
    | unlink hd | rmdir hd =>
      cases hT ▸ hd.effect hz hpath.1 with
      | same => exact h
      | unlinked _ hmem hn _ => exact h.unlink hl hmem hn
    | chmod hd =>
      cases hT ▸ hd.effect with
      | same => exact h
      | changed hf hn => exact h.setMode hl hn (hsafe hf _ hn)
    | rename hd =>
      cases hT ▸ hd.effect hins hz (hpath.1.oldNamed _) hpath.2.1.1 with
      | same => exact h
      | moved _ _ hmem _ _ hkey => exact h.move hl hmem hkey
      | targetGone hc => exact h.unlink hl hc.target_mem hc.inode
      | @covered lcd d e n hc _ _ hkey =>
        have hne : d ≠ e := by
          rintro rfl
          exact hlinks lcd hc.covers (hc.old.ent.trans hc.target.ent.symm)
        exact (h.unlink hl hc.target_mem hc.inode).move (hl.unlink hc.target_mem hc.inode)
          (hl.lookup_unlink hc.old_mem hc.target_mem hne) hkey
    | link hd =>
      cases hT ▸ Linked.effect hd hins hz (hpath.1.oldNamed _) with
      | same => exact h
      | linked _ _ hmem hn _ _ hkey => exact h.link hl hmem hn hkey hlinks

end Runs

/-- **Entry type and inode mode agree** in every state of a run on canonical paths in which no mode
that is passed changes a file's kind and no rename covers the entry it moves. -/
theorem kinds_agree {env : Env} (hins : env.Accepts) {σ : Cluster}
    (h : (sequential env).Reach (fun σ a => a.OnCanonical ∧ LinkSafe env σ a ∧ KindSafe σ a) σ) :
    KindsOk σ := by
  have hinv : (σ.tables 0).Linked ∧ (σ.tables 0).Kinded :=
    h.invariant (I := fun σ => (σ.tables 0).Linked ∧ (σ.tables 0).Kinded) ?_ ?_
  · exact hinv.2.kindsOk hinv.1.idsSet
  · rintro σ ⟨config, unset, rfl⟩
    exact ⟨linked_init config unset, forall_mem_nil _⟩
  · intro σ a σ' _ hi hok hst
    exact ⟨hi.1.step hins hok.1 hok.2.1 hst, hi.2.step hi.1 hins hok.1 hok.2.1 hok.2.2 hst⟩

/-- A directory and a file in it, with modes of permission bits: the condition is met. -/
theorem kinds_agree_file_in_directory :
    ∃ σ, (sequential steadyEnv).Reach
        (fun σ a => a.OnCanonical ∧ LinkSafe steadyEnv σ a ∧ KindSafe σ a) σ ∧
      σ.dirents.map Dirent.type = [DT_REG, DT_DIR] ∧ KindsOk σ := by
  refine System.exists_reach_of_labels (s := freshCluster)
    (l := [.call (.mkdir pathA 0o755 0 0), .call (.create pathAX 0o644 0 0)])
    (Q := fun σ => σ.dirents.map Dirent.type = [DT_REG, DT_DIR]) ⟨_, _, rfl⟩ (fun a ha σ => ?_)
    (by decide +kernel) fun σ hreach htypes => ⟨htypes, kinds_agree steadyEnv_accepts hreach⟩
  simp only [mem_cons, not_mem_nil, or_false] at ha
  rcases ha with rfl | rfl
  · exact ⟨by decide, trivial, trivial⟩
  · exact ⟨by decide, trivial, (by decide : 0o644 &&& S_IFDIR = 0)⟩

/-- **`Chmod` can change the kind of a file**: a directory given the mode `0755` loses its bit. -/
theorem chmod_changes_kind :
    ∃ σ, (sequential steadyEnv).Reach
        (fun σ a => a.OnCanonical ∧ LinkSafe steadyEnv σ a) σ ∧ ¬KindsOk σ := by
  refine System.exists_reach_of_labels (s := freshCluster)
    (l := [.call (.mkdir pathA 0o755 0 0), .call (.chmod pathA 0o755)])
    (Q := fun σ => σ.dirents = [⟨3, kRootId, DT_DIR, [97]⟩] ∧
      (σ.inodes 3).map Inode.isDir = some false)
    ⟨_, _, rfl⟩ (fun a ha σ => ?_) (by decide +kernel) fun σ _ hσ hok => ?_
  · simp only [mem_cons, not_mem_nil, or_false] at ha
    rcases ha with rfl | rfl <;> exact ⟨by decide, trivial⟩
  · obtain ⟨hds, hdir⟩ := hσ
    obtain ⟨n, hn, hd⟩ := hok.directory ⟨3, kRootId, DT_DIR, [97]⟩ (by simp [hds]) rfl
    rw [hn, map_some, hd] at hdir
    cases hdir

end StaxFS.Metadata
