import StaxFS.Metadata.Service

/-!
# The inode table as the log tells it

A successful call appends records to the log of its server, and it changes the inode table as these
records say: each inode by the part of each record that is about it, one record after the other. This
is what a replay of the log can be compared with. Nothing is assumed about the paths or about the
state before the call.

Results:
* `Done.replays`: the inode table, the records and the id pool after a successful call.
-/

namespace StaxFS.Metadata

open Foundation Wal List Option Cluster Function

/-! ### What a record says about an inode -/

/-- `update_fn` on an inode that may be missing, or nothing. -/
def bumpIf (b : Prop) [Decidable b] (f : InodeFn) (o : Option Inode) : Option Inode :=
  if b then o.map f.apply else o

/-- What a record says about inode `i`. -/
def onInode (i : Nat) : LogRequest → Option Inode → Option Inode
  | .create inodeId parentId mode uid gid _ _, o =>
    bumpIf (i = parentId) .extraInc (if i = inodeId then some ⟨1, mode, 0, uid, gid⟩ else o)
  | .unlink inodeId parentId _, o =>
    let o' := bumpIf (i = parentId) .extraDec (if i = inodeId then o.map Inode.dropLink else o)
    if i = inodeId then o'.filter (·.nlink ≠ 0) else o'
  | .rename _ oldParent newParent _ _ _, o =>
    if oldParent = newParent then o
    else bumpIf (i = newParent) .extraInc (bumpIf (i = oldParent) .extraDec o)
  | .setattr inodeId mode, o => bumpIf (i = inodeId) (.setMode mode) o
  | .link inodeId newParent _ _, o =>
    bumpIf (i = newParent) .extraInc (bumpIf (i = inodeId) .nlinkInc o)

/-- What records say about inode `i`, one after the other. -/
def onInodeAll (i : Nat) (rs : List Record) (o : Option Inode) : Option Inode :=
  rs.foldl (fun o r => onInode i r.request o) o

@[simp] theorem onInodeAll_nil (i : Nat) (o : Option Inode) : onInodeAll i [] o = o := rfl

theorem onInodeAll_append (i : Nat) (rs rs' : List Record) (o : Option Inode) :
    onInodeAll i (rs ++ rs') o = onInodeAll i rs' (onInodeAll i rs o) := foldl_append ..

theorem adjust_apply (m : Nat → Option Inode) (id : Nat) (f : InodeFn) (i : Nat) :
    adjust m id f i = bumpIf (i = id) f (m i) := by
  unfold adjust bumpIf
  rw [update_apply]
  split
  · rename_i h
    rw [h]
  · rfl

/-- What a call does to the pool of its server; `m` are the inodes before. -/
inductive PoolStep (m : Nat → Option Inode) (p : IdPool) : IdPool → Prop
  | same : PoolStep m p p
  | allocate : PoolStep m p p.allocate.2
  | free {id : Nat} : (m id).isSome = true → PoolStep m p (p.free id)

def isLink : LogRequest → Bool
  | .link .. => true
  | _ => false

/-- The record changes the link count of inode `i`. -/
def linksTo (i : Nat) : LogRequest → Bool
  | .unlink inodeId .. | .link inodeId .. => inodeId = i
  | _ => false

/-- The record creates inode `i`. -/
def createsId (i : Nat) : LogRequest → Bool
  | .create inodeId .. => inodeId = i
  | _ => false

/-- The records of a call come from its arguments; a new inode has the id the pool gives out. -/
def FromCall (p : IdPool) (c : Call) : LogRequest → Prop
  | .create inodeId _ mode uid gid _ _ => inodeId = p.allocate.1 ∧ ∃ path m isDir,
      mode = newMode m isDir ∧ (c = .create path m uid gid ∨ c = .mkdir path m uid gid)
  | .setattr _ mode => ∃ path, c = .chmod path mode
  | .link _ _ _ _ => ∃ oldpath newpath, c = .link oldpath newpath
  | _ => True

theorem FromCall.of_isLink {p : IdPool} {c : Call} {req : LogRequest} (h : FromCall p c req)
    (hl : isLink req = true) : ∃ oldpath newpath, c = .link oldpath newpath := by
  cases req with
  | link inodeId q name type => exact h
  | _ => cases hl

/-- **The call on server `srv` changes the inode table as its records `rs` say.** -/
structure Replays (srv : Nat) (c : Call) (σ σ' : Cluster) (rs : List Record) : Prop where
  records : ∀ k, σ'.records k = σ.records k ++ if k = srv then rs else []
  inodes : ∀ i, σ'.inodes i = onInodeAll i rs (σ.inodes i)
  pool : PoolStep σ.inodes (σ.servers srv).ids (σ'.servers srv).ids
  pools : ∀ k ≠ srv, (σ'.servers k).ids = (σ.servers k).ids
  requests : ∀ r ∈ rs, FromCall (σ.servers srv).ids c r.request
  /-- a link is the only record of its call -/
  linkAlone : ∀ r ∈ rs, isLink r.request = true → rs = [r]
  /-- a link is added to or taken from a live inode, as it was before the call -/
  counted : ∀ r ∈ rs, ∀ i, linksTo i r.request = true → (σ.inodes i).isSome = true
  /-- a record that is about the links of an inode is the first of its call -/
  countedFirst : ∀ r ∈ rs.tail, ∀ i, linksTo i r.request = false ∧ createsId i r.request = false

section Calls

variable {env : Env} {srv th : Nat} {σ σ' : Cluster}

theorem freeInode_ids (id k : Nat) : ((σ.freeInode srv id).servers k).ids =
      if k = srv then (σ.servers srv).ids.free id else (σ.servers k).ids := by
  by_cases hk : k = srv
  · subst hk
    simp [Cluster.freeInode, Cluster.setInode, Cluster.setIds, Cluster.setServer]
  · simp [Cluster.freeInode, Cluster.setInode, Cluster.setIds, Cluster.setServer, hk]

theorem bumpIf_extraDec_filter (b : Prop) [Decidable b] (n : Inode) (h : n.nlink ≠ 0) :
    (bumpIf b .extraDec (some n)).filter (·.nlink ≠ 0) = bumpIf b .extraDec (some n) := by
  unfold bumpIf
  split <;> simp [InodeFn.apply, h]

theorem bumpIf_extraDec_filter_zero (b : Prop) [Decidable b] (n : Inode) (h : n.nlink = 0) :
    (bumpIf b .extraDec (some n)).filter (·.nlink ≠ 0) = none := by
  unfold bumpIf
  split <;> simp [InodeFn.apply, h]

/-- The inodes of `Unlink` before an inode without links is removed. -/
theorem unlinked_inodes (res : Located) {n : Inode} (hn : σ.inodes res.id = some n) (i : Nat) :
    (σ.unlinked env srv th res n).inodes i =
      bumpIf (i = res.parent) .extraDec
        (if i = res.id then (σ.inodes i).map Inode.dropLink else σ.inodes i) := by
  rw [Cluster.unlinked, deleteEntry_inodes, if_pos rfl, adjust_apply]
  congr 1
  simp only [Cluster.setInode, update_apply, append_inodes]
  split
  · rename_i h
    rw [h, hn, map_some]
  · rfl

variable {path : Name} {c : Call} {isDir link : Bool} {σ₁ : Cluster} {mode : Nat}

theorem Unlinked.replays (h : Unlinked env srv th σ path isDir 0 σ') :
    Replays srv c σ σ' [⟨(σ.locate path 0).unlinkRequest, σ.nextVersion env srv th⟩] := by
  obtain ⟨n, hn, -, -, -, ⟨hl, rfl⟩ | ⟨hl, rfl⟩⟩ := h.succeeded
  · refine ⟨fun k => ?_, fun i => ?_, ?_, fun k _ => ?_, by simp [Located.unlinkRequest,
      FromCall], by simp, by simp [Located.unlinkRequest, linksTo, hn], nofun⟩
    · rw [Cluster.records, unlinked_servers]
      exact append_records _ k
    · rw [unlinked_inodes _ hn]
      simp only [onInodeAll, foldl_cons, foldl_nil, Located.unlinkRequest, onInode]
      split
      · rename_i hi
        rw [hi, hn, map_some, bumpIf_extraDec_filter _ _ hl]
      · rfl
    · rw [unlinked_servers, append_ids]
      exact .same
    · rw [unlinked_servers, append_ids]
  · refine ⟨fun k => ?_, fun i => ?_, ?_, fun k hk => ?_, by simp [Located.unlinkRequest,
      FromCall], by simp, by simp [Located.unlinkRequest, linksTo, hn], nofun⟩
    · rw [Cluster.records, freeInode_log, unlinked_servers]
      exact append_records _ k
    · simp only [onInodeAll, foldl_cons, foldl_nil, Located.unlinkRequest, onInode]
      rw [Cluster.freeInode, Cluster.setInode]
      dsimp only
      rw [update_apply, setIds_inodes, unlinked_inodes _ hn]
      split
      · rename_i hi
        rw [hi, hn, map_some, bumpIf_extraDec_filter_zero _ _ hl]
      · rfl
    · rw [freeInode_ids, if_pos rfl, unlinked_servers, append_ids]
      exact .free (by rw [hn]; rfl)
    · rw [freeInode_ids, if_neg hk, unlinked_servers, append_ids]

theorem Replays.silent (hlog : ∀ k, (σ'.servers k).log = (σ.servers k).log)
    (hin : σ'.inodes = σ.inodes) (hids : ∀ k, (σ'.servers k).ids = (σ.servers k).ids) :
    Replays srv c σ σ' [] where
  records k := by rw [Cluster.records, hlog, Cluster.records, ite_self, append_nil]
  inodes i := by rw [hin, onInodeAll_nil]
  pool := by
    rw [hids]
    exact .same
  pools k _ := hids k
  requests := nofun
  linkAlone := nofun
  counted := nofun
  countedFirst := nofun

/-- A call that starts from a state with the same records, inodes and pools. -/
theorem Replays.of_eq {rs : List Record} (h : Replays srv c σ₁ σ' rs)
    (hservers : σ₁.servers = σ.servers) (hin : σ₁.inodes = σ.inodes) : Replays srv c σ σ' rs where
  records k := by rw [h.records, Cluster.records, hservers, ← Cluster.records]
  inodes i := by rw [h.inodes, hin]
  pool := by simpa only [hservers, hin] using h.pool
  pools k hk := by rw [h.pools k hk, hservers]
  requests r hr := by simpa only [hservers] using h.requests r hr
  linkAlone := h.linkAlone
  counted r hr i hi := by simpa only [hin] using h.counted r hr i hi
  countedFirst := h.countedFirst

/-- Two parts of a call, of which the second leaves the pool alone. -/
theorem Replays.trans {rs rs' : List Record}
    (h : Replays srv c σ σ₁ rs) (h' : Replays srv c σ₁ σ' rs')
    (hids : (σ'.servers srv).ids = (σ₁.servers srv).ids)
    (hreq : ∀ r ∈ rs', FromCall (σ.servers srv).ids c r.request)
    (hlink : ∀ r ∈ rs ++ rs', isLink r.request = false)
    (hfirst : ∀ r ∈ rs', ∀ i, linksTo i r.request = false ∧ createsId i r.request = false)
    (hne : rs ≠ []) : Replays srv c σ σ' (rs ++ rs') where
  records k := by
    rw [h'.records, h.records]
    split <;> simp
  inodes i := by rw [h'.inodes, h.inodes, onInodeAll_append]
  pool := hids ▸ h.pool
  pools k hk := by rw [h'.pools k hk, h.pools k hk]
  requests r hr := (mem_append.mp hr).elim (h.requests r) (hreq r)
  linkAlone r hr hl := by
    rw [hlink r hr] at hl
    cases hl
  counted r hr i hi := by
    rcases mem_append.mp hr with hr | hr
    · exact h.counted r hr i hi
    · rw [(hfirst r hr i).1] at hi
      cases hi
  countedFirst r hr i := by
    rw [tail_append_of_ne_nil hne] at hr
    exact (mem_append.mp hr).elim (fun hr => h.countedFirst r hr i) fun hr => hfirst r hr i

theorem Created.replays {uid gid : Nat} (h : Created env srv th σ path mode uid gid isDir 0 σ')
    (hc : c = .create path mode uid gid ∨ c = .mkdir path mode uid gid) :
    ∃ rs, Replays srv c σ σ' rs := by
  obtain ⟨-, ⟨-, rfl⟩ | ⟨id, ids, -, halloc, -, -, rfl⟩⟩ := h.succeeded
  · exact ⟨[], .silent (fun _ => rfl) rfl fun _ => rfl⟩
  · have hid : id = (σ.servers srv).ids.allocate.1 := by rw [halloc]
    have hids : ids = (σ.servers srv).ids.allocate.2 := by rw [halloc]
    refine ⟨[⟨createRequest id mode uid gid isDir (σ.locate path 0),
      (σ.setIds srv ids).nextVersion env srv th⟩], fun k => ?_, fun i => ?_, ?_, fun k hk => ?_, ?_,
      by simp, by simp [createRequest, linksTo], nofun⟩
    · rw [Cluster.records, addEntry_servers, setInode_servers]
      have := @append_records env srv th (σ.setIds srv ids)
        (createRequest id mode uid gid isDir (σ.locate path 0)) k
      rw [Cluster.records, Cluster.records, setIds_log] at this
      exact this
    · rw [addEntry_inodes, if_pos rfl, adjust_apply]
      simp only [onInodeAll, foldl_cons, foldl_nil, createRequest, onInode,
        Cluster.setInode, update_apply, append_inodes, setIds_inodes]
    · rw [addEntry_servers, setInode_servers, append_ids]
      simp only [Cluster.setIds, Cluster.setServer, update_self]
      rw [hids]
      exact .allocate
    · rw [addEntry_servers, setInode_servers, append_ids]
      simp [Cluster.setIds, Cluster.setServer, hk]
    · intro r hr
      rw [mem_singleton.mp hr]
      exact ⟨hid, path, mode, isDir, rfl, hc⟩

theorem Chmodded.replays (h : Chmodded env srv th σ path mode 0 σ') :
    Replays srv (.chmod path mode) σ σ'
      [⟨.setattr (σ.locate path 0).id mode, σ.nextVersion env srv th⟩] := by
  obtain ⟨n, hn, -, -, -, rfl⟩ := h.succeeded
  refine ⟨append_records _, fun i => ?_, ?_, fun k _ => ?_, fun r hr => ?_, by simp,
    by simp [linksTo], nofun⟩
  · simp only [onInodeAll, foldl_cons, foldl_nil, onInode, Cluster.setInode,
      update_apply, append_inodes, bumpIf]
    split
    · rename_i hi
      rw [hi, hn]
      rfl
    · rfl
  · rw [setInode_servers, append_ids]
    exact .same
  · rw [setInode_servers, append_ids]
  · rw [mem_singleton.mp hr]
    exact ⟨path, rfl⟩

/-- The end of a rename or a link. -/
theorem Moved.replays {oldRes : Located} {d : Dirent} {np : Nat} {name : Name}
    (h : Moved env srv th σ link oldRes d np name 0 σ')
    (hc : link = true → ∃ oldpath newpath, c = .link oldpath newpath) :
    Replays srv c σ σ' [⟨renameRequest link oldRes d np name, σ.nextVersion env srv th⟩] := by
  obtain ⟨-, -, -, ⟨rfl, rfl⟩ | ⟨rfl, n, hn, rfl⟩⟩ := h.succeeded
  · refine ⟨fun k => ?_, fun i => ?_, ?_, fun k _ => ?_, by simp [renameRequest, FromCall],
      by simp, by simp [renameRequest, linksTo], by simp [renameRequest]⟩
    · rw [Cluster.records, addEntry_servers, deleteEntry_servers]
      exact append_records _ k
    · rw [addEntry_inodes, deleteEntry_inodes]
      simp only [onInodeAll, foldl_cons, foldl_nil, onInode, renameRequest,
        Bool.false_eq_true, if_false, append_inodes, Bool.not_eq_true']
      by_cases hp : oldRes.parent = np
      · simp [hp]
      · simp [hp, adjust_apply]
    · rw [addEntry_servers, deleteEntry_servers, append_ids]
      exact .same
    · rw [addEntry_servers, deleteEntry_servers, append_ids]
  · refine ⟨fun k => ?_, fun i => ?_, ?_, fun k _ => ?_, fun r hr => ?_, by simp,
      by simp [renameRequest, linksTo, hn], by simp [renameRequest]⟩
    · rw [Cluster.records, addEntry_servers, setInode_servers]
      exact append_records _ k
    · rw [addEntry_inodes, if_pos rfl, adjust_apply]
      simp only [onInodeAll, foldl_cons, foldl_nil, onInode, renameRequest, if_true,
        Cluster.setInode, update_apply, append_inodes]
      congr 1
      unfold bumpIf
      split
      · rename_i hi
        rw [hi, hn]
        rfl
      · rfl
    · rw [addEntry_servers, setInode_servers, append_ids]
      exact .same
    · rw [addEntry_servers, setInode_servers, append_ids]
    · rw [mem_singleton.mp hr]
      exact hc rfl

theorem Renamed.replays {oldpath newpath : Name}
    (h : Renamed env srv th σ oldpath newpath link 0 σ')
    (hc : link = true → ∃ oldpath newpath, c = .link oldpath newpath) :
    ∃ rs, Replays srv c σ σ' rs := by
  obtain ⟨lcd, σ₁, -, rfl, hu, -, hm⟩ | ⟨lcd, -, -, hm⟩ := h.succeeded
  · -- the target first, then the entry itself; only the first touches the pool
    have h1 : Replays srv c σ σ₁ _ :=
      (hu.replays (c := c)).of_eq (beforeCover_servers ..) (beforeCover_inodes ..)
    have hids : (σ'.servers srv).ids = (σ₁.servers srv).ids := by
      obtain ⟨-, -, -, ⟨-, rfl⟩ | ⟨hl, -⟩⟩ := hm.succeeded
      · rw [addEntry_servers, deleteEntry_servers, append_ids]
      · cases hl
    refine ⟨_, h1.trans (hm.replays nofun) hids (fun r hr => ?_) (fun r hr => ?_)
      (fun r hr i => ?_) (by simp)⟩
    · rw [mem_singleton.mp hr]
      exact trivial
    · rcases mem_append.mp hr with hr | hr <;>
        rw [mem_singleton.mp hr] <;> rfl
    · rw [mem_singleton.mp hr]
      exact ⟨rfl, rfl⟩
  · exact ⟨_, (hm.replays hc).of_eq (by simp) (by simp)⟩

/-- **A successful call changes the inode table as its records say.** -/
theorem Done.replays (h : Done env srv th σ c 0 σ') : ∃ rs, Replays srv c σ σ' rs := by
  cases h with
  | create h => exact h.replays (.inl rfl)
  | mkdir h => exact h.replays (.inr rfl)
  | unlink h | rmdir h | chmod h => exact ⟨_, h.replays⟩
  | rename h => exact h.replays nofun
  | link h => exact h.replays fun _ => ⟨_, _, rfl⟩

end Calls

end StaxFS.Metadata
