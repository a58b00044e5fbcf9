import StaxFS.Metadata.Sequential

/-!
# What a failed call leaves behind

A call that returns -1 or `-EAGAIN` should leave no trace. It does in two ways.

`Unlink`, `Chmod` and `Link` append their record before they look at the inode, so a call that the
inode then rejects has already been logged: the next checkpoint applies it and the listing shows it.
`Rename` over an existing target removes the target first. What follows can still fail: the new path
is resolved again, from the target's own directory instead of the last common one, and there may be
no room for the second record.

Results:
* `failed_unlogged_iff`: a call that returns -1 leaves the published records alone iff the inode
  accepts what is logged and, for a covering rename, the second resolution ends where it should.
* `failed_unchanged_iff`: a call that returns -1 or `-EAGAIN` leaves the dirents, the inodes and the
  free ids alone iff a covering rename that removes its target also completes.
-/

namespace StaxFS.Metadata

open Foundation Wal Option Cluster

/-! ### The records -/

/-- Every server has published the same records. -/
def SameRecords (σ σ' : Cluster) : Prop := ∀ k, σ'.records k = σ.records k

theorem not_sameRecords_of_log {env : Env} {srv th : Nat} {σ σ₀ σ' : Cluster} {req : LogRequest}
    (h0 : σ₀.servers = σ.servers)
    (h : ∀ k, (σ'.servers k).log = ((σ₀.append env srv th req).servers k).log) :
    ¬SameRecords σ σ' := by
  intro hs
  obtain ⟨v, hv⟩ : ∃ v, ((σ₀.append env srv th req).servers srv).log =
    (σ₀.servers srv).log.append req v := append_log req
  have hlen := congrArg List.length (hs srv)
  rw [Cluster.records, Cluster.records, h, hv, h0] at hlen
  simp [Log.append] at hlen

/-- The inode `id` exists and `Unlink` accepts it. -/
def Unlinkable (σ : Cluster) (id : Nat) (isDir : Bool) : Prop :=
  ∃ n, σ.inodes id = some n ∧ unlinkError isDir n = false

/-- Where a covering rename resolves the new path the second time: from the directory of the target,
whose entry is gone. -/
def Cluster.resolveAgain (σ : Cluster) (oldpath newpath : Name) (lcd : Nat) : Located :=
  (σ.erase (σ.locate newpath 0).parent (σ.locate newpath 0).entName).locate (newpath.drop lcd)
    (σ.newRes oldpath newpath lcd).parent

/-- The second resolution finds the target gone and its directory there. -/
def Cluster.ResolvesAgain (σ : Cluster) (oldpath newpath : Name) (lcd : Nat) : Prop :=
  (σ.resolveAgain oldpath newpath lcd).found = false ∧
    (σ.resolveAgain oldpath newpath lcd).parent ≠ 0

/-- **When a failed call is not logged**: whatever the call logs before it looks at the inode, the
inode accepts. -/
def LogsOnlyValid (env : Env) (srv : Nat) (σ : Cluster) : Call → Prop
  | .unlink path => (σ.locate path 0).found = true →
      σ.hasRoom srv (σ.locate path 0).unlinkRequest = true → Unlinkable σ (σ.locate path 0).id false
  | .rmdir path => (σ.locate path 0).found = true →
      σ.hasRoom srv (σ.locate path 0).unlinkRequest = true → Unlinkable σ (σ.locate path 0).id true
  | .chmod path mode => (σ.locate path 0).found = true → (σ.locate path 0).id ≠ 0 →
      σ.hasRoom srv (.setattr (σ.locate path 0).id mode) = true →
      (σ.inodes (σ.locate path 0).id).isSome = true
  | .rename oldpath newpath => ∀ lcd, Covers env σ oldpath newpath lcd →
      (σ.locate newpath 0).found = true →
      σ.hasRoom srv (σ.locate newpath 0).unlinkRequest = true →
      Unlinkable σ (σ.locate newpath 0).id (σ.coversDir env oldpath newpath lcd) ∧
        σ.ResolvesAgain oldpath newpath lcd
  | .link oldpath newpath => ∀ lcd, OldFound σ oldpath newpath lcd →
      (σ.newRes oldpath newpath lcd).found = false → (σ.newRes oldpath newpath lcd).parent ≠ 0 →
      σ.hasRoom srv (renameRequest true (σ.oldRes oldpath lcd)
        (σ.entryOf env (σ.oldRes oldpath lcd)).1 (σ.newRes oldpath newpath lcd).parent
        (σ.newRes oldpath newpath lcd).newPath) = true →
      (σ.inodes (σ.oldRes oldpath lcd).id).isSome = true
  | .create .. | .mkdir .. => True

variable {mode lcd : Nat} {σ₁ : Cluster}

section Records

variable {env : Env} {srv th : Nat} {σ σ' : Cluster} {r : Int} {isDir : Bool}
  {path oldpath newpath : Name}

theorem not_unlinkable {id : Nat} :
    ¬Unlinkable σ id isDir ↔ ∀ n, σ.inodes id = some n → unlinkError isDir n = true := by
  unfold Unlinkable
  push Not
  simp only [Bool.ne_false_iff]

theorem Unlinked.sameRecords (h : Unlinked env srv th σ path isDir r σ') (hr : r = -1)
    (hvalid : (σ.locate path 0).found = true →
      σ.hasRoom srv (σ.locate path 0).unlinkRequest = true →
      Unlinkable σ (σ.locate path 0).id isDir) : SameRecords σ σ' := by
  cases h with
  | notFound _ => exact fun k => rfl
  | invalid hf hroom hn => exact absurd (hvalid hf hroom) (not_unlinkable.mpr hn)
  | _ => exact absurd hr (by decide)

/-- What is known when `Unlink` succeeds. -/
structure UnlinkDone (env : Env) (srv th : Nat) (σ : Cluster) (path : Name) (isDir : Bool)
    (σ' : Cluster) : Prop where
  found : (σ.locate path 0).found = true
  room : σ.hasRoom srv (σ.locate path 0).unlinkRequest = true
  valid : Unlinkable σ (σ.locate path 0).id isDir
  dirents : σ'.dirents = σ.dirents.eraseP
    (Dirent.hasKey (σ.locate path 0).parent (σ.locate path 0).entName)
  log : ∀ k, (σ'.servers k).log =
    ((σ.append env srv th (σ.locate path 0).unlinkRequest).servers k).log

theorem Unlinked.done (h : Unlinked env srv th σ path isDir r σ')
    (hr : r = 0) : UnlinkDone env srv th σ path isDir σ' := by
  cases h with
  | dropped hf hroom hn hok _ | removed hf hroom hn hok _ =>
    exact ⟨hf, hroom, ⟨_, hn, hok⟩, by simp, by simp⟩
  | _ => exact absurd hr (by decide)

@[simp] theorem beforeCover_dirents (oldpath newpath : Name) (lcd : Nat) :
    (σ.beforeCover env oldpath newpath lcd).dirents = σ.dirents := by
  simp [Cluster.beforeCover]

@[simp] theorem beforeCover_inodes (oldpath newpath : Name) (lcd : Nat) :
    (σ.beforeCover env oldpath newpath lcd).inodes = σ.inodes := by
  simp [Cluster.beforeCover]

@[simp] theorem beforeCover_servers (oldpath newpath : Name) (lcd : Nat) :
    (σ.beforeCover env oldpath newpath lcd).servers = σ.servers := by
  simp [Cluster.beforeCover]

@[simp] theorem locate_beforeCover (oldpath newpath : Name) (lcd : Nat) (path : Name)
    (start : Nat) :
    (σ.beforeCover env oldpath newpath lcd).locate path start = σ.locate path start :=
  locate_congr (beforeCover_dirents ..) path start

theorem hasRoom_congr {σ₀ : Cluster} (h : σ₀.servers = σ.servers) (req : LogRequest) :
    σ₀.hasRoom srv req = σ.hasRoom srv req := by
  rw [Cluster.hasRoom, Cluster.hasRoom, h]

/-- After the target is unlinked, the new path resolves as `resolveAgain` says. -/
theorem UnlinkDone.resolveAgain
    (h : UnlinkDone env srv th (σ.beforeCover env oldpath newpath lcd) newpath isDir σ₁) :
    σ₁.locate (newpath.drop lcd) (σ.newRes oldpath newpath lcd).parent =
      σ.resolveAgain oldpath newpath lcd := by
  refine locate_congr ?_ _ _
  simpa [Cluster.erase] using h.dirents

theorem unlink_unlogged_iff : (∀ σ', Unlinked env srv th σ path isDir (-1) σ' → SameRecords σ σ') ↔
      ((σ.locate path 0).found = true → σ.hasRoom srv (σ.locate path 0).unlinkRequest = true →
        Unlinkable σ (σ.locate path 0).id isDir) := by
  refine ⟨fun h hf hroom => ?_, fun h σ' hu => hu.sameRecords rfl h⟩
  by_contra hnot
  exact not_sameRecords_of_log rfl (fun _ => rfl)
    (h _ (.invalid hf hroom (not_unlinkable.mp hnot)))

theorem chmod_unlogged_iff : (∀ σ', Chmodded env srv th σ path mode (-1) σ' → SameRecords σ σ') ↔
      ((σ.locate path 0).found = true → (σ.locate path 0).id ≠ 0 →
        σ.hasRoom srv (.setattr (σ.locate path 0).id mode) = true →
        (σ.inodes (σ.locate path 0).id).isSome = true) := by
  constructor
  · intro h hf hid hroom
    by_contra hn
    rw [Bool.not_eq_true, isSome_eq_false_iff, isNone_iff_eq_none] at hn
    exact not_sameRecords_of_log rfl (fun _ => rfl) (h _ (.noInode hf hid hroom hn))
  · intro h σ' hc
    generalize hr : (-1 : Int) = r at hc
    cases hc with
    | notFound _ => exact fun k => rfl
    | full _ _ _ | changed _ _ _ _ => exact absurd hr (by decide)
    | noInode hf hid hroom hn =>
      have := h hf hid hroom
      rw [hn] at this
      cases this

theorem sameRecords_of_servers (h : σ'.servers = σ.servers) : SameRecords σ σ' := fun k => by
  rw [Cluster.records, Cluster.records, h]

theorem unlinked_of_unlinkable (hf : (σ.locate path 0).found = true)
    (hroom : σ.hasRoom srv (σ.locate path 0).unlinkRequest = true)
    (hn : Unlinkable σ (σ.locate path 0).id isDir) :
    ∃ σ', Unlinked env srv th σ path isDir 0 σ' := by
  obtain ⟨n, hn, hok⟩ := hn
  by_cases hl : n.dropLink.nlink = 0
  · exact ⟨_, .removed hf hroom hn hok hl⟩
  · exact ⟨_, .dropped hf hroom hn hok hl⟩

variable {oldpath newpath : Name}

/-- The conditions of the covering `Unlink`, read before the rename. -/
theorem beforeCover_iff {lcd : Nat} {isDir : Bool} :
    (((σ.beforeCover env oldpath newpath lcd).locate newpath 0).found = true ↔
      (σ.locate newpath 0).found = true) ∧ ((σ.beforeCover env oldpath newpath lcd).hasRoom srv
        ((σ.beforeCover env oldpath newpath lcd).locate newpath 0).unlinkRequest = true ↔
      σ.hasRoom srv (σ.locate newpath 0).unlinkRequest = true) ∧
    (Unlinkable (σ.beforeCover env oldpath newpath lcd)
        ((σ.beforeCover env oldpath newpath lcd).locate newpath 0).id isDir ↔
      Unlinkable σ (σ.locate newpath 0).id isDir) := by
  simp only [locate_beforeCover, Unlinkable, beforeCover_inodes,
    hasRoom_congr (beforeCover_servers ..), and_self]

theorem rename_unlogged_iff :
    (∀ σ', Renamed env srv th σ oldpath newpath false (-1) σ' → SameRecords σ σ') ↔
      LogsOnlyValid env srv σ (.rename oldpath newpath) := by
  constructor
  · intro h lcd hc hf hroom
    obtain ⟨hf', hroom', hn'⟩ := @beforeCover_iff env srv σ oldpath newpath lcd
      (σ.coversDir env oldpath newpath lcd)
    have hvalid : Unlinkable σ (σ.locate newpath 0).id (σ.coversDir env oldpath newpath lcd) := by
      by_contra hnot
      rw [← hn', not_unlinkable] at hnot
      exact not_sameRecords_of_log (beforeCover_servers oldpath newpath lcd) (fun _ => rfl)
        (h _ (.coverFailed hc rfl (.invalid (hf'.mpr hf) (hroom'.mpr hroom) hnot)))
    obtain ⟨σ₁, hu⟩ : ∃ σ₁, Unlinked env srv th _ _ _ 0 σ₁ :=
      unlinked_of_unlinkable (hf'.mpr hf) (hroom'.mpr hroom) (hn'.mpr hvalid)
    have hdone := hu.done rfl
    have hbad : ¬SameRecords σ σ₁ :=
      not_sameRecords_of_log (beforeCover_servers oldpath newpath lcd) hdone.log
    refine ⟨hvalid, ?_, fun hp => hbad ?_⟩
    · rw [← hdone.resolveAgain, ← Bool.not_eq_true]
      exact fun hfound => hbad (h _ (.stillPresent hc rfl hu hfound))
    · cases hfound : (σ.resolveAgain oldpath newpath lcd).found with
      | true =>
        rw [← hdone.resolveAgain] at hfound
        exact h _ (.stillPresent hc rfl hu hfound)
      | false =>
        rw [← hdone.resolveAgain] at hfound hp
        exact h _ (.covered hc rfl hu hfound (.noParent hp))
  · intro h σ' hren
    have hmoved : ∀ {σ₀ σ' : Cluster} {oldRes entry np name},
        Moved env srv th σ₀ false oldRes entry np name (-1) σ' → np = 0 ∧ σ' = σ₀ := by
      intro σ₀ σ' oldRes entry np name hm
      generalize hr : (-1 : Int) = r at hm
      cases hm with
      | noParent hp => exact ⟨hp, rfl⟩
      | full _ _ | renamed _ _ _ _ => exact absurd hr (by decide)
      | noInode _ hl _ _ | linked _ _ hl _ _ => cases hl
    generalize hr : (-1 : Int) = r at hren
    cases hren with
    | noCommonDir _ _ | noOldPath _ _ _ => exact sameRecords_of_servers rfl
    | linkExists _ hl _ => cases hl
    | mismatch _ _ _ _ => exact sameRecords_of_servers (beforeCover_servers ..)
    | coverFull _ _ _ => exact absurd hr (by decide)
    | @coverFailed lcd σ₁ hc _ hu =>
      obtain ⟨hf', hroom', hn'⟩ := @beforeCover_iff env srv σ oldpath newpath lcd
        (σ.coversDir env oldpath newpath lcd)
      have hsame := hu.sameRecords rfl fun hf hroom =>
        hn'.mpr (h lcd hc (hf'.mp hf) (hroom'.mp hroom)).1
      exact fun k => (hsame k).trans (sameRecords_of_servers (beforeCover_servers ..) k)
    | @stillPresent lcd σ₁ hc _ hu hfound =>
      have hdone := hu.done rfl
      obtain ⟨hf', hroom', -⟩ := @beforeCover_iff env srv σ oldpath newpath lcd
        (σ.coversDir env oldpath newpath lcd)
      have hagain := (h lcd hc (hf'.mp hdone.found) (hroom'.mp hdone.room)).2.1
      rw [← hdone.resolveAgain, hfound] at hagain
      cases hagain
    | @covered lcd σ₁ _ _ hc _ hu hfound hm =>
      subst hr
      have hdone := hu.done rfl
      obtain ⟨hf', hroom', -⟩ := @beforeCover_iff env srv σ oldpath newpath lcd
        (σ.coversDir env oldpath newpath lcd)
      have hagain := (h lcd hc (hf'.mp hdone.found) (hroom'.mp hdone.room)).2.2
      rw [← hdone.resolveAgain] at hagain
      exact absurd (hmoved hm).1 hagain
    | moved _ _ hm =>
      subst hr
      rw [(hmoved hm).2]
      exact sameRecords_of_servers (entryOf_servers _)

theorem link_unlogged_iff :
    (∀ σ', Renamed env srv th σ oldpath newpath true (-1) σ' → SameRecords σ σ') ↔
      LogsOnlyValid env srv σ (.link oldpath newpath) := by
  constructor
  · intro h lcd hold hn hp hroom
    by_contra hi
    rw [Bool.not_eq_true, isSome_eq_false_iff, isNone_iff_eq_none] at hi
    refine not_sameRecords_of_log (entryOf_servers _) (fun _ => rfl)
      (h _ (.moved hold hn (.noInode hp rfl ?_ ?_)))
    · rwa [hasRoom_congr (entryOf_servers _)]
    · rwa [entryOf_inodes]
  · intro h σ' hren
    generalize hr : (-1 : Int) = r at hren
    cases hren with
    | noCommonDir _ _ => exact sameRecords_of_servers rfl
    | noOldPath _ _ _ => exact sameRecords_of_servers rfl
    | linkExists _ _ _ => exact sameRecords_of_servers (entryOf_servers _)
    | mismatch _ hl _ _ | coverFull _ hl _ | coverFailed _ hl _ | stillPresent _ hl _ _
    | covered _ hl _ _ _ => cases hl
    | @moved lcd _ _ hold hn hm =>
      cases hm with
      | noParent _ => exact sameRecords_of_servers (entryOf_servers _)
      | full _ _ | linked _ _ _ _ _ => exact absurd hr (by decide)
      | renamed _ _ hl _ => cases hl
      | noInode hp _ hroom hi =>
        rw [hasRoom_congr (entryOf_servers _)] at hroom
        rw [entryOf_inodes] at hi
        have := h lcd hold hn hp hroom
        rw [hi] at this
        cases this

theorem Created.sameRecords {uid gid : Nat}
    (h : Created env srv th σ path mode uid gid isDir r σ') (hr : r = -1) : SameRecords σ σ' := by
  cases h with
  | noParent _ | noInode _ _ _ => exact sameRecords_of_servers rfl
  | _ => exact absurd hr (by decide)

end Records

/-- **A failed call is not logged exactly if it logs only what the inode accepts.** -/
theorem failed_unlogged_iff (env : Env) (srv th : Nat) (σ : Cluster) (c : Call) :
    (∀ σ', σ.run env srv th c = some (-1, σ') → SameRecords σ σ') ↔
      LogsOnlyValid env srv σ c := by
  simp only [run_call]
  have hdone : ∀ {rule : Int → Cluster → Prop}, (∀ r σ', Done env srv th σ c r σ' ↔ rule r σ') →
      ((∀ σ', Done env srv th σ c (-1) σ' → SameRecords σ σ') ↔
        ∀ σ', rule (-1) σ' → SameRecords σ σ') := fun h => by simp only [h]
  cases c with
  | create path mode uid gid =>
    refine iff_of_true (fun σ' h => ?_) trivial
    cases h with | create h => exact h.sameRecords rfl
  | mkdir path mode uid gid =>
    refine iff_of_true (fun σ' h => ?_) trivial
    cases h with | mkdir h => exact h.sameRecords rfl
  | unlink path =>
    exact (hdone fun r σ' => ⟨fun (.unlink h) => h, .unlink⟩).trans unlink_unlogged_iff
  | rmdir path =>
    exact (hdone fun r σ' => ⟨fun (.rmdir h) => h, .rmdir⟩).trans unlink_unlogged_iff
  | chmod path mode =>
    exact (hdone fun r σ' => ⟨fun (.chmod h) => h, .chmod⟩).trans chmod_unlogged_iff
  | rename oldpath newpath =>
    exact (hdone fun r σ' => ⟨fun (.rename h) => h, .rename⟩).trans rename_unlogged_iff
  | link oldpath newpath =>
    exact (hdone fun r σ' => ⟨fun (.link h) => h, .link⟩).trans link_unlogged_iff

/-- The bytes of `"/a"`, `"/b"` and so on. -/
def pathA : Name := [47, 97]
def pathB : Name := [47, 98]
def pathAX : Name := [47, 97, 47, 120]
def pathBY : Name := [47, 98, 47, 121]

/-- **A failed call can be logged**: `Unlink` of a directory returns -1, and the log has a new
record. -/
theorem failed_unlink_logged :
    ∃ σ σ', (sequential steadyEnv).Reach (fun _ _ => True) σ ∧
      σ.run steadyEnv 0 0 (.unlink pathA) = some (-1, σ') ∧ ¬SameRecords σ σ' := by
  have hrun : ((sequential steadyEnv).runLabels [.call (.mkdir pathA 0o755 0 0)] freshCluster).bind
      (fun σ => (σ.run steadyEnv 0 0 (.unlink pathA)).map
        fun x => (x.1, (σ.records 0).length, (x.2.records 0).length)) = some (-1, 1, 2) := by
    decide +kernel
  obtain ⟨σ, hσ, h⟩ := bind_eq_some_iff.mp hrun
  obtain ⟨⟨r, σ'⟩, hr, he⟩ := map_eq_some_iff.mp h
  simp only [Prod.mk.injEq] at he
  obtain ⟨rfl, hl, hl'⟩ := he
  refine ⟨σ, σ', System.reach_runLabels ⟨_, _, rfl⟩ (fun _ _ _ => trivial) hσ, hr, fun hs => ?_⟩
  rw [hs 0, hl] at hl'
  cases hl'

/-! ### The namespace -/

/-- The dirents, the inodes and the free ids are the same. -/
structure SameNamespace (σ σ' : Cluster) : Prop where
  dirents : σ'.dirents = σ.dirents
  inodes : σ'.inodes = σ.inodes
  free : ∀ k id, (σ'.servers k).ids.Free id ↔ (σ.servers k).ids.Free id

theorem SameNamespace.trans {σ₂ σ₃ : Cluster} (h : SameNamespace σ₁ σ₂)
    (h' : SameNamespace σ₂ σ₃) : SameNamespace σ₁ σ₃ :=
  ⟨h'.dirents.trans h.dirents, h'.inodes.trans h.inodes,
    fun k id => (h'.free k id).trans (h.free k id)⟩

theorem SameNamespace.of_servers {σ σ' : Cluster} (hd : σ'.dirents = σ.dirents)
    (hi : σ'.inodes = σ.inodes) (hs : σ'.servers = σ.servers) : SameNamespace σ σ' :=
  ⟨hd, hi, fun k id => by rw [hs]⟩

theorem sameNamespace_append (env : Env) (srv th : Nat) (σ : Cluster) (req : LogRequest) :
    SameNamespace σ (σ.append env srv th req) :=
  ⟨by simp, by simp, fun k id => by simp⟩

/-- Whether the ring has room for `second` once `first` is in it. -/
def Log.hasRoomAfter (l : Log) (first second : LogRequest) : Bool :=
  Wal.hasRoom l.config (l.head + first.slots) second.slots l.cp

/-- The second request of a covering rename. -/
def Cluster.coverRequest (env : Env) (σ : Cluster) (oldpath newpath : Name) (lcd : Nat) :
    LogRequest :=
  renameRequest false (σ.oldRes oldpath lcd) (σ.entryOf env (σ.oldRes oldpath lcd)).1
    (σ.resolveAgain oldpath newpath lcd).parent (σ.resolveAgain oldpath newpath lcd).newPath

/-- **When a failed call changes nothing**: a rename that removes the target it covers then finds
the target's directory again and has room for its own record. -/
def CoverCompletes (env : Env) (srv : Nat) (σ : Cluster) : Call → Prop
  | .rename oldpath newpath => ∀ lcd, Covers env σ oldpath newpath lcd →
      (σ.locate newpath 0).found = true →
      σ.hasRoom srv (σ.locate newpath 0).unlinkRequest = true →
      Unlinkable σ (σ.locate newpath 0).id (σ.coversDir env oldpath newpath lcd) →
      σ.ResolvesAgain oldpath newpath lcd ∧
        (σ.servers srv).log.hasRoomAfter (σ.locate newpath 0).unlinkRequest
          (σ.coverRequest env oldpath newpath lcd) = true
  | _ => True

section Namespace

variable {env : Env} {srv th : Nat} {σ σ' : Cluster} {r : Int} {path : Name} {isDir : Bool}

theorem Unlinked.unchanged
    (h : Unlinked env srv th σ path isDir r σ') (hr : r ≠ 0) : SameNamespace σ σ' := by
  cases h with
  | notFound _ | full _ _ => exact .of_servers rfl rfl rfl
  | invalid _ _ _ => exact sameNamespace_append ..
  | dropped _ _ _ _ _ | removed _ _ _ _ _ => exact absurd rfl hr

theorem Chmodded.unchanged (h : Chmodded env srv th σ path mode r σ')
    (hr : r ≠ 0) : SameNamespace σ σ' := by
  cases h with
  | notFound _ | full _ _ _ => exact .of_servers rfl rfl rfl
  | noInode _ _ _ _ => exact sameNamespace_append ..
  | changed _ _ _ _ => exact absurd rfl hr

theorem Created.unchanged {uid gid : Nat}
    (h : Created env srv th σ path mode uid gid isDir r σ') (hr : r ≠ 0) : SameNamespace σ σ' := by
  cases h with
  | noParent _ | noInode _ _ _ => exact .of_servers rfl rfl rfl
  | existing _ _ _ _ | created _ _ _ _ _ => exact absurd rfl hr
  | @full id ids _ _ halloc _ _ =>
    refine ⟨rfl, rfl, fun k i => ?_⟩
    by_cases hk : k = srv
    · subst hk
      have := (σ.servers k).ids.free_allocate i
      rw [halloc] at this
      rw [setIds_ids]
      exact this
    · simp [Cluster.setIds, Cluster.setServer, hk]

theorem Moved.unchanged {link : Bool} {oldRes : Located} {entry : Dirent} {np : Nat} {name : Name}
    (h : Moved env srv th σ link oldRes entry np name r σ') (hr : r ≠ 0) : SameNamespace σ σ' := by
  cases h with
  | noParent _ | full _ _ => exact .of_servers rfl rfl rfl
  | renamed _ _ _ _ | linked _ _ _ _ _ => exact absurd rfl hr
  | noInode _ _ _ _ => exact sameNamespace_append ..

theorem sameNamespace_entryOf (l : Located) : SameNamespace σ (σ.entryOf env l).2 :=
  .of_servers (by simp) (by simp) (by simp)

theorem sameNamespace_beforeCover (oldpath newpath : Name) (lcd : Nat) :
    SameNamespace σ (σ.beforeCover env oldpath newpath lcd) :=
  .of_servers (by simp) (by simp) (by simp)

theorem dropLink_nlink_ne (n : Inode) : n.dropLink.nlink ≠ n.nlink := by
  simp only [Inode.dropLink]
  omega

/-- A successful `Unlink` changes the link count of its inode. -/
theorem Unlinked.changed {path : Name} {isDir : Bool} (h : Unlinked env srv th σ path isDir r σ')
    (hr : r = 0) : ¬SameNamespace σ σ' := by
  intro hs
  have hl : ∀ id, σ'.nlink id = σ.nlink id := fun id => by
    rw [Cluster.nlink, hs.inodes, Cluster.nlink]
  cases h with
  | @dropped n _ _ hn _ _ =>
    have := hl (σ.locate path 0).id
    rw [Cluster.unlinked, nlink_deleteEntry, nlink_setInode, if_pos rfl,
      Cluster.nlink, hn] at this
    exact dropLink_nlink_ne n (Option.some.inj this)
  | @removed n _ _ hn _ _ =>
    have := hl (σ.locate path 0).id
    rw [Cluster.freeInode, nlink_setInode, if_pos rfl, Cluster.nlink, hn] at this
    cases this
  | _ => exact absurd hr (by decide)

/-- The room for the second request of a covering rename. -/
theorem UnlinkDone.hasRoom
    (h : UnlinkDone env srv th (σ.beforeCover env oldpath newpath lcd) newpath isDir σ₁)
    (req : LogRequest) : σ₁.hasRoom srv req =
      (σ.servers srv).log.hasRoomAfter (σ.locate newpath 0).unlinkRequest req := by
  obtain ⟨v, hv⟩ : ∃ v, (((σ.beforeCover env oldpath newpath lcd).append env srv th
    ((σ.beforeCover env oldpath newpath lcd).locate newpath 0).unlinkRequest).servers srv).log =
      _ := append_log _
  rw [Cluster.hasRoom, h.log srv, hv, beforeCover_servers, locate_beforeCover]
  rfl

theorem rename_unchanged_iff :
    (∀ r σ', Renamed env srv th σ oldpath newpath false r σ' → r ≠ 0 → SameNamespace σ σ') ↔
      CoverCompletes env srv σ (.rename oldpath newpath) := by
  constructor
  · intro h lcd hc hf hroom hvalid
    obtain ⟨hf', hroom', hn'⟩ := @beforeCover_iff env srv σ oldpath newpath lcd
      (σ.coversDir env oldpath newpath lcd)
    obtain ⟨σ₁, hu⟩ : ∃ σ₁, Unlinked env srv th _ _ _ 0 σ₁ :=
      unlinked_of_unlinkable (hf'.mpr hf) (hroom'.mpr hroom) (hn'.mpr hvalid)
    have hdone := hu.done rfl
    have hbad : ¬SameNamespace σ σ₁ := fun hs =>
      hu.changed rfl ⟨by rw [hs.dirents, beforeCover_dirents], by rw [hs.inodes, beforeCover_inodes],
        fun k id => by rw [hs.free, beforeCover_servers]⟩
    have hgone : (σ.resolveAgain oldpath newpath lcd).found = false := by
      rw [← hdone.resolveAgain, ← Bool.not_eq_true]
      exact fun hfound => hbad (h _ _ (.stillPresent hc rfl hu hfound) (by decide))
    -- every way to fail behind the unlink leaves its state
    have hmove : ∀ r, r ≠ 0 → ¬Moved env srv th σ₁ false (σ.oldRes oldpath lcd)
        (σ.entryOf env (σ.oldRes oldpath lcd)).1 (σ.resolveAgain oldpath newpath lcd).parent
        (σ.resolveAgain oldpath newpath lcd).newPath r σ₁ := by
      intro r hr hm
      rw [← hdone.resolveAgain] at hgone hm
      exact hbad (h r _ (.covered hc rfl hu hgone hm) hr)
    have hp : (σ.resolveAgain oldpath newpath lcd).parent ≠ 0 := fun hp =>
      hmove (-1) (by decide) (.noParent hp)
    refine ⟨⟨hgone, hp⟩, ?_⟩
    rw [← hdone.hasRoom, ← Bool.not_eq_false]
    exact fun hfull => hmove (-EAGAIN) (by decide) (.full hp hfull)
  · intro h r σ' hren hr
    have hafter : ∀ {lcd : Nat} {σ₁ : Cluster}, Covers env σ oldpath newpath lcd →
        Unlinked env srv th (σ.beforeCover env oldpath newpath lcd) newpath
          (σ.coversDir env oldpath newpath lcd) 0 σ₁ →
        σ.ResolvesAgain oldpath newpath lcd ∧
          σ₁.hasRoom srv (σ.coverRequest env oldpath newpath lcd) = true := by
      intro lcd σ₁ hc hu
      have hdone := hu.done rfl
      obtain ⟨hf', hroom', hn'⟩ := @beforeCover_iff env srv σ oldpath newpath lcd
        (σ.coversDir env oldpath newpath lcd)
      obtain ⟨hagain, hroom⟩ := h lcd hc (hf'.mp hdone.found) (hroom'.mp hdone.room)
        (hn'.mp hdone.valid)
      exact ⟨hagain, (hdone.hasRoom _).trans hroom⟩
    cases hren with
    | noCommonDir _ _ | noOldPath _ _ _ => exact .of_servers rfl rfl rfl
    | linkExists _ hl _ => cases hl
    | mismatch _ _ _ _ => exact sameNamespace_beforeCover ..
    | coverFull _ _ hu | coverFailed _ _ hu =>
      exact (sameNamespace_beforeCover ..).trans (hu.unchanged hr)
    | stillPresent hc _ hu hfound =>
      rw [(hu.done rfl).resolveAgain, (hafter hc hu).1.1] at hfound
      cases hfound
    | covered hc _ hu _ hm =>
      obtain ⟨hagain, hroom⟩ := hafter hc hu
      rw [(hu.done rfl).resolveAgain] at hm
      cases hm with
      | noParent hp => exact absurd hp hagain.2
      | full _ hfull =>
        rw [← Cluster.coverRequest, hroom] at hfull
        cases hfull
      | renamed _ _ _ _ => exact absurd rfl hr
      | noInode _ hl _ _ | linked _ _ hl _ _ => cases hl
    | moved _ _ hm => exact (sameNamespace_entryOf _).trans (hm.unchanged hr)

theorem link_unchanged
    (h : Renamed env srv th σ oldpath newpath true r σ') (hr : r ≠ 0) : SameNamespace σ σ' := by
  cases h with
  | noCommonDir _ _ => exact .of_servers rfl rfl rfl
  | noOldPath _ _ _ => exact .of_servers rfl rfl rfl
  | linkExists _ _ _ => exact sameNamespace_entryOf _
  | mismatch _ hl _ _ | coverFull _ hl _ | coverFailed _ hl _ | stillPresent _ hl _ _
  | covered _ hl _ _ _ => cases hl
  | moved _ _ hm => exact (sameNamespace_entryOf _).trans (hm.unchanged hr)

/-- A call returns 0, -1 or `-EAGAIN`. -/
theorem Done.result {c : Call} (h : Done env srv th σ c r σ') : r = 0 ∨ r = -1 ∨ r = -EAGAIN := by
  have hmoved : ∀ {σ₀ σ' : Cluster} {link oldRes entry np name} {r : Int},
      Moved env srv th σ₀ link oldRes entry np name r σ' → r = 0 ∨ r = -1 ∨ r = -EAGAIN := by
    intro σ₀ σ' link oldRes entry np name r hm
    cases hm <;> simp
  have hrenamed : ∀ {σ' : Cluster} {oldpath newpath link} {r : Int},
      Renamed env srv th σ oldpath newpath link r σ' → r = 0 ∨ r = -1 ∨ r = -EAGAIN := by
    intro σ' oldpath newpath link r hm
    cases hm with
    | covered _ _ _ _ hm | moved _ _ hm => exact hmoved hm
    | _ => simp
  cases h with
  | create h | mkdir h | chmod h => cases h <;> simp
  | unlink h | rmdir h => exact h.result
  | rename h | link h => exact hrenamed h

end Namespace

/-- **A failed call changes nothing exactly if a covering rename completes.** -/
theorem failed_unchanged_iff (env : Env) (srv th : Nat) (σ : Cluster) (c : Call) :
    (∀ r σ', σ.run env srv th c = some (r, σ') → r = -1 ∨ r = -EAGAIN → SameNamespace σ σ') ↔
      CoverCompletes env srv σ c := by
  have hne : ∀ {r : Int}, r = -1 ∨ r = -EAGAIN → r ≠ 0 := by
    rintro r (rfl | rfl) <;> decide
  simp only [run_call]
  cases c with
  | create path mode uid gid =>
    refine iff_of_true (fun r σ' h hr => ?_) trivial
    cases h with | create h => exact h.unchanged (hne hr)
  | mkdir path mode uid gid =>
    refine iff_of_true (fun r σ' h hr => ?_) trivial
    cases h with | mkdir h => exact h.unchanged (hne hr)
  | unlink path =>
    refine iff_of_true (fun r σ' h hr => ?_) trivial
    cases h with | unlink h => exact h.unchanged (hne hr)
  | rmdir path =>
    refine iff_of_true (fun r σ' h hr => ?_) trivial
    cases h with | rmdir h => exact h.unchanged (hne hr)
  | chmod path mode =>
    refine iff_of_true (fun r σ' h hr => ?_) trivial
    cases h with | chmod h => exact h.unchanged (hne hr)
  | link oldpath newpath =>
    refine iff_of_true (fun r σ' h hr => ?_) trivial
    cases h with | link h => exact link_unchanged h (hne hr)
  | rename oldpath newpath =>
    rw [← @rename_unchanged_iff env srv th]
    constructor
    · exact fun h r σ' hren hr => h r σ' (.rename hren)
        (((Done.rename hren).result).resolve_left hr)
    · rintro h r σ' (hren) hr
      cases hren with | rename hren => exact h r σ' hren (hne hr)

/-- `"/a"`, `"/b"`, `"/a/x"` and `"/b/y"` exist. -/
def twoDirs : List SeqAct :=
  [.call (.mkdir pathA 0o755 0 0), .call (.mkdir pathB 0o755 0 0), .call (.create pathAX 0o644 0 0),
    .call (.create pathBY 0o644 0 0)]

/-- **A failed rename can destroy its target**: renaming `/a/x` to the existing `/b/y` returns -1,
and `/b/y` is gone. -/
theorem failed_rename_destroys :
    Canonical pathAX ∧ Canonical pathBY ∧
    ∃ σ σ', (sequential steadyEnv).Reach (fun _ _ => True) σ ∧
      σ.run steadyEnv 0 0 (.rename pathAX pathBY) = some (-1, σ') ∧ ¬SameNamespace σ σ' := by
  have hrun : ((sequential steadyEnv).runLabels twoDirs freshCluster).bind
      (fun σ => (σ.run steadyEnv 0 0 (.rename pathAX pathBY)).map
        fun x => (x.1, σ.dirents.length, x.2.dirents.length)) = some (-1, 4, 3) := by
    decide +kernel
  obtain ⟨σ, hσ, h⟩ := bind_eq_some_iff.mp hrun
  obtain ⟨⟨r, σ'⟩, hr, he⟩ := map_eq_some_iff.mp h
  simp only [Prod.mk.injEq] at he
  obtain ⟨rfl, hl, hl'⟩ := he
  refine ⟨by decide, by decide, σ, σ', System.reach_runLabels ⟨_, _, rfl⟩ (fun _ _ _ => trivial) hσ, hr,
    fun hs => ?_⟩
  rw [hs.dirents, hl] at hl'
  cases hl'

end StaxFS.Metadata
