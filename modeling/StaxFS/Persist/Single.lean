import StaxFS.Foundation.Restart
import StaxFS.Persist.Machine
import StaxFS.Persist.Owner
import StaxFS.Persist.Records

/-!
# The inode region of a single server

One server, successful calls one at a time, and checkpoint cycles in between. Every inode but the
root has a record that creates it, and all its later changes come after that record in the same log;
so the region, with the records that are still to be replayed, tells the same about an inode as the
inode table. For the child count this is true as long as no cycle mixes the changes of two inodes
that had the same id: it sums the changes of the whole cycle and applies them to the last of them.
The root has no record at all and never gets into its slot.

The calls keep to the machine types: modes, owners and groups have 32 bits, a link count does not
reach 2^64, and the ids of a server stay in its range.

Results:
* `stored_inodes_match`: once the log is drained, id, link count, mode, owner and group of every live
  inode but the root are as in memory, whatever the cycles were.
* `stored_counts_match`: the child count too, if no cycle mixes two inodes; `root_count_missing` is
  a run for the root.
-/

namespace StaxFS.Persist

open Foundation Wal Metadata List Option System
open Function (update_self)

/-! ### Records and stored inodes -/

/-- An inode is stored as it is in memory, child count apart. -/
structure StoredAs (i : Nat) (n : Inode) (x : StoredInode) : Prop where
  id : x.id = i
  nlink : x.nlink = n.nlink
  mode : x.mode = n.mode
  uid : x.uid = n.uid
  gid : x.gid = n.gid

/-- If the inode is live, it is stored as it is, and its link count is not zero. -/
def Agrees (i : Nat) (o : Option Inode) (x : StoredInode) : Prop :=
  ∀ n, o = some n → StoredAs i n x ∧ 1 ≤ n.nlink ∧ n.nlink < 2 ^ 64

/-- The data of a record fit their types; `o` is the inode it is about. -/
def RequestFits (o : Option Inode) : LogRequest → Prop
  | .create _ _ _ uid gid _ _ => uid < 2 ^ 32 ∧ gid < 2 ^ 32
  | .setattr _ mode => mode < 2 ^ 32
  | .link .. => ∀ n, o = some n → n.nlink + 1 < 2 ^ 64
  | _ => True

variable {ops : List FlashOp} {r : Record}

section Step

variable {i : Nat} {o : Option Inode} {x y : StoredInode}

theorem Agrees.bump (h : Agrees i o x) (b : Prop) [Decidable b] {f : InodeFn}
    (hf : f = .extraInc ∨ f = .extraDec) : Agrees i (bumpIf b f o) x := by
  unfold bumpIf
  split
  · intro n hn
    obtain ⟨n', hn', rfl⟩ := map_eq_some_iff.mp hn
    obtain ⟨hs, hl⟩ := h n' hn'
    rcases hf with rfl | rfl <;> exact ⟨⟨hs.id, hs.nlink, hs.mode, hs.uid, hs.gid⟩, hl⟩
  · exact h

/-- **A record does the same to the inode and to its slot.** -/
theorem Agrees.step (hi : i ≠ 0) (h : Agrees i o x) (hfits : RequestFits o r.request) :
    Agrees i (onInode i r.request o) (storedStep i x r) := by
  obtain ⟨req, version⟩ := r
  cases req with
  | create inodeId parentId mode uid gid type name =>
    refine Agrees.bump ?_ _ (.inl rfl)
    show Agrees i _ (if i = inodeId then _ else x)
    split
    · rename_i he
      rintro n ⟨rfl⟩
      obtain ⟨hu, hg⟩ := @getUid_makeCreate inodeId parentId mode uid gid type name hfits.1
        hfits.2
      exact ⟨⟨he.symm, rfl, rfl, hu, hg⟩, Nat.le_refl 1, Nat.one_lt_two_pow (by decide)⟩
    · exact h
  | unlink inodeId parentId name =>
    by_cases he : i = inodeId
    · subst he
      -- the child count has no part in the test of the link count
      have hmem : onInode i (.unlink i parentId name) o = bumpIf (i = parentId) .extraDec
          ((o.map Inode.dropLink).filter fun n => decide (n.nlink ≠ 0)) := by
        simp only [onInode, if_true]
        cases o with
        | none =>
          unfold bumpIf
          split <;> rfl
        | some n =>
          rw [map_some]
          by_cases hl : n.dropLink.nlink = 0
          · rw [bumpIf_extraDec_filter_zero _ _ hl]
            simp [Option.filter, hl, bumpIf]
          · rw [bumpIf_extraDec_filter _ _ hl]
            simp [Option.filter, hl]
      have hst : storedStep i x ⟨.unlink i parentId name, version⟩ =
          if x.id ≠ 0 then dropStoredLink (versionSeconds version) x else x := by
        simp [storedStep]
      rw [hmem, hst]
      refine Agrees.bump (fun n hn => ?_) _ (.inr rfl)
      obtain ⟨hn, hlink⟩ := filter_eq_some_iff.mp hn
      obtain ⟨n', hn', rfl⟩ := map_eq_some_iff.mp hn
      obtain ⟨hs, hl⟩ := h n' hn'
      have hcount : n'.dropLink.nlink = n'.nlink - 1 := by
        simp only [Inode.dropLink]
        omega
      have hpos : n'.dropLink.nlink ≠ 0 := by simpa using hlink
      rw [if_pos (by rw [hs.id]; exact hi)]
      refine ⟨⟨hs.id, ?_, hs.mode, hs.uid, hs.gid⟩, ?_⟩
      · rw [hcount, ← hs.nlink]
        rfl
      · omega
    · have hmem : onInode i (.unlink inodeId parentId name) o =
          bumpIf (i = parentId) .extraDec o := by
        simp [onInode, he]
      have hst : storedStep i x ⟨.unlink inodeId parentId name, version⟩ = x := by
        simp [storedStep, he]
      rw [hmem, hst]
      exact h.bump _ (.inr rfl)
  | rename inodeId oldParent newParent oldName newName type =>
    show Agrees i (if oldParent = newParent then o else _) x
    split
    · exact h
    · exact (h.bump _ (.inr rfl)).bump _ (.inl rfl)
  | setattr inodeId mode =>
    show Agrees i (bumpIf (i = inodeId) (.setMode mode) o)
      (if i = inodeId ∧ x.id ≠ 0 then
        { x with mode := mode % 2 ^ 32, ctime := versionSeconds version } else x)
    unfold bumpIf
    split
    · rename_i he
      intro n hn
      obtain ⟨n', hn', rfl⟩ := map_eq_some_iff.mp hn
      obtain ⟨hs, hl⟩ := h n' hn'
      rw [if_pos ⟨he, by rw [hs.id]; exact hi⟩]
      exact ⟨⟨hs.id, hs.nlink, Nat.mod_eq_of_lt hfits, hs.uid, hs.gid⟩, hl⟩
    · rename_i hne
      rw [if_neg fun hh => hne hh.1]
      exact h
  | link inodeId newParent newName type =>
    refine Agrees.bump ?_ _ (.inl rfl)
    show Agrees i (bumpIf (i = inodeId) .nlinkInc o)
      (if i = inodeId ∧ x.id ≠ 0 then addStoredLink (versionSeconds version) x else x)
    unfold bumpIf
    split
    · rename_i he
      intro n hn
      obtain ⟨n', hn', rfl⟩ := map_eq_some_iff.mp hn
      obtain ⟨hs, hl⟩ := h n' hn'
      have hlt : n'.nlink + 1 < 2 ^ 64 := hfits n' hn'
      have hcount : (InodeFn.nlinkInc.apply n').nlink = n'.nlink + 1 :=
        Nat.mod_eq_of_lt hlt
      rw [if_pos ⟨he, by rw [hs.id]; exact hi⟩]
      refine ⟨⟨hs.id, ?_, hs.mode, hs.uid, hs.gid⟩, ?_⟩
      · show (x.nlink + 1) % 2 ^ 64 = (n'.nlink + 1) % 2 ^ 64
        rw [hs.nlink]
      · omega
    · rename_i hne
      rw [if_neg fun hh => hne hh.1]
      exact h

theorem Agrees.all (hi : i ≠ 0) {rs : List Record} (h : Agrees i o x)
    (hfits : ∀ r ∈ rs, ∀ o, RequestFits o r.request) :
    Agrees i (onInodeAll i rs o) (storedAll i rs x) := by
  induction rs generalizing o x with
  | nil => exact h
  | cons r rs ih =>
    exact ih (h.step hi (hfits r mem_cons_self o)) fun r' hr' =>
      hfits r' (mem_cons_of_mem _ hr')

/-- Two stored inodes agree but for the child count. -/
structure SameAttrs (x y : StoredInode) : Prop where
  id : x.id = y.id
  nlink : x.nlink = y.nlink
  mode : x.mode = y.mode
  uid : x.uid = y.uid
  gid : x.gid = y.gid
  ctime : x.ctime = y.ctime

theorem SameAttrs.refl (x : StoredInode) : SameAttrs x x := ⟨rfl, rfl, rfl, rfl, rfl, rfl⟩

theorem SameAttrs.trans {z : StoredInode} (h : SameAttrs x y) (h' : SameAttrs y z) :
    SameAttrs x z :=
  ⟨h.id.trans h'.id, h.nlink.trans h'.nlink, h.mode.trans h'.mode, h.uid.trans h'.uid,
    h.gid.trans h'.gid, h.ctime.trans h'.ctime⟩

theorem SameAttrs.step (h : SameAttrs x y) (r : Record) :
    SameAttrs (storedStep i x r) (storedStep i y r) := by
  unfold storedStep
  rw [h.id]
  split
  · split
    · exact .refl _
    · exact h
  · split
    · exact ⟨h.id, by simp [dropStoredLink, h.nlink], h.mode, h.uid, h.gid, rfl⟩
    · exact h
  · exact h
  · split
    · exact ⟨rfl, h.nlink, rfl, h.uid, h.gid, rfl⟩
    · exact h
  · split
    · exact ⟨h.id, by simp [addStoredLink, h.nlink], h.mode, h.uid, h.gid, rfl⟩
    · exact h

theorem SameAttrs.all (h : SameAttrs x y) (rs : List Record) :
    SameAttrs (storedAll i rs x) (storedAll i rs y) := by
  induction rs generalizing x y with
  | nil => exact h
  | cons r rs ih => exact ih (h.step r)

theorem Agrees.congr (h : Agrees i o x) (hs : SameAttrs y x) : Agrees i o y := fun n hn =>
  ⟨⟨hs.id.trans (h n hn).1.id, hs.nlink.trans (h n hn).1.nlink, hs.mode.trans (h n hn).1.mode,
    hs.uid.trans (h n hn).1.uid, hs.gid.trans (h n hn).1.gid⟩, (h n hn).2⟩

/-- Child counts have no part in the other attributes. -/
theorem sameAttrs_blocksDelta
    (hops : ∀ op ∈ ops, ∃ c, op = FlashOp.apply c ∧ c.op = .blocksDelta) (x : StoredInode) :
    SameAttrs (runSlot x ops) x := by
  induction ops generalizing x with
  | nil => exact .refl x
  | cons op ops ih =>
    obtain ⟨c, rfl, hop⟩ := hops op mem_cons_self
    have hone : SameAttrs ((FlashOp.apply c).onSlot x) x := by
      rw [FlashOp.onSlot]
      split
      · exact .refl x
      · simp only [RemoteInodeChange.mutate, hop, addBlocksDelta]
        split <;> exact ⟨rfl, rfl, rfl, rfl, rfl, rfl⟩
    exact (ih (fun op hop => hops op (mem_cons_of_mem _ hop)) _).trans hone

end Step

/-! ### Runs of one server -/

/-- Only server 0 does anything. -/
def MachineAct.OnServerZero : MachineAct → Prop
  | .call srv _ _ | .cycle srv _ => srv = 0
  | .deliver .. => False

/-- The arguments are values of their types, the id a new inode gets is in the range of the server,
and no link count reaches 2^64. -/
def CallFits (σ : Cluster) (srv : Nat) : Call → Prop
  | .create _ mode uid gid | .mkdir _ mode uid gid =>
    mode < 2 ^ 32 ∧ uid < 2 ^ 32 ∧ gid < 2 ^ 32 ∧
      ownerMetaForInode (σ.servers srv).ids.allocate.1 = srv
  | .chmod _ mode => mode < 2 ^ 32
  | .link _ _ => ∀ i n, σ.inodes i = some n → n.nlink + 1 < 2 ^ 64
  | _ => True

def MachineAct.Fits (m : Machine) : MachineAct → Prop
  | .call srv _ c => CallFits m.cluster srv c
  | _ => True

/-- No id of a pool is 0. -/
structure PoolOk (p : IdPool) : Prop where
  unused : 0 < p.minUnused
  recycled : ∀ id ∈ p.recycled, id ≠ 0

theorem PoolOk.allocate_ne {p : IdPool} (h : PoolOk p) : p.allocate.1 ≠ 0 := by
  rcases p.allocate_cases with ⟨he, -⟩ | ⟨he, -⟩
  · rw [he]
    exact Nat.ne_of_gt h.unused
  · exact h.recycled _ (he.subset mem_cons_self)

theorem PoolOk.step {m : Nat → Option Inode} {p p' : IdPool} (h : PoolOk p)
    (hm : m 0 = none) (hst : PoolStep m p p') : PoolOk p' := by
  cases hst with
  | same => exact h
  | allocate =>
    rcases p.allocate_cases with ⟨-, hu, hr⟩ | ⟨hr, hu⟩
    · exact ⟨by rw [hu]; omega, by rw [hr]; exact h.recycled⟩
    · refine ⟨by rw [hu]; exact h.unused, fun id hid => h.recycled id ?_⟩
      exact hr.subset (mem_cons_of_mem _ hid)
  | @free id hid =>
    have hne : id ≠ 0 := by
      rintro rfl
      rw [hm] at hid
      cases hid
    by_cases hrange : p.base ≤ id ∧ id < p.max
    · rcases p.free_cases hrange with ⟨-, hu, hr⟩ | ⟨hu, hr⟩
      · exact ⟨by rw [hu]; omega, by rw [hr]; exact h.recycled⟩
      · rw [← forall_mem_singleton (p := (· ≠ 0))] at hne
        exact ⟨by rw [hu]; exact h.unused, hr ▸ forall_mem_append.mpr ⟨h.recycled, hne⟩⟩
    · obtain ⟨hu, hr⟩ := p.free_of_foreign id hrange
      exact ⟨by rw [hu]; exact h.unused, by rw [hr]; exact h.recycled⟩

variable {i srv : Nat} {o : Option Inode} {n : Inode} {rs records : List Record} {σ : Cluster}
  {c : Call} {x : StoredInode} {d : Disk} {ch : Choice} {a : MachineAct} {e : Int}
  {req : LogRequest} {σ' : Cluster}

/-- An inode comes to life by a record that creates it. -/
theorem onInode_live (h : onInode i req o = some n) :
    o.isSome = true ∨ ∃ p mode uid gid type name, req = .create i p mode uid gid type name := by
  cases o with
  | some n' => exact .inl rfl
  | none =>
    have hbump : ∀ (b : Prop) [Decidable b] (f : InodeFn), bumpIf b f none = none := by
      intro b _ f
      unfold bumpIf
      split <;> rfl
    cases req with
    | create inodeId p mode uid gid type name =>
      by_cases he : i = inodeId
      · subst he
        exact .inr ⟨p, mode, uid, gid, type, name, rfl⟩
      · simp [onInode, he, hbump] at h
    | _ => simp [onInode, hbump] at h

theorem onInodeAll_live (h : onInodeAll i rs o = some n) : o.isSome = true ∨
      ∃ r ∈ rs, ∃ p mode uid gid type name, r.request = .create i p mode uid gid type name := by
  induction rs generalizing o with
  | nil =>
    rw [onInodeAll_nil] at h
    exact .inl (by rw [h]; rfl)
  | cons r rs ih =>
    rcases ih h with h' | ⟨r', hr', hc⟩
    · obtain ⟨n', hn'⟩ := isSome_iff_exists.mp h'
      rcases onInode_live hn' with h'' | hc
      · exact .inl h''
      · exact .inr ⟨r, mem_cons_self, hc⟩
    · exact .inr ⟨r', mem_cons_of_mem _ hr', hc⟩

/-- The state of a run of server 0 alone. -/
structure SingleInv (m : Machine) : Prop where
  main : (m.disks 0).drained ≤ (m.cluster.records 0).length
  quiet : (m.disks 0).remoteLog = [] ∧ (m.disks 0).deferred = []
  pool : PoolOk (m.cluster.servers 0).ids
  live : ∀ i n, m.cluster.inodes i = some n → i ≠ 0 ∧ ownerMetaForInode i = 0
  agrees : ∀ i, i ≠ kRootId → Agrees i (m.cluster.inodes i)
    (storedAll i ((m.cluster.records 0).drop (m.disks 0).drained) ((m.disks 0).region i))

theorem fits_of_request (hfits : (∀ oldpath newpath, c ≠ .link oldpath newpath) → CallFits σ srv c)
    (hreq : FromCall (σ.servers srv).ids c r.request)
    (hlink : isLink r.request = false) : RequestFits o r.request := by
  obtain ⟨req, version⟩ := r
  cases req with
  | create inodeId p mode uid gid type name =>
    obtain ⟨-, path, md, isDir, -, rfl | rfl⟩ := hreq <;>
      exact ⟨(hfits nofun).2.1, (hfits nofun).2.2.1⟩
  | setattr inodeId mode =>
    obtain ⟨path, rfl⟩ := hreq
    exact hfits nofun
  | link inodeId q name type => cases hlink
  | unlink inodeId p name | rename inodeId p q name name' type => trivial

theorem requestFits_of_isLink (hl : isLink req = true)
    (h : ∀ n, o = some n → n.nlink + 1 < 2 ^ 64) : RequestFits o req := by
  cases req with
  | link inodeId q name type => exact h
  | _ => cases hl

/-- The records of a call keep inode and slot in agreement. -/
theorem agrees_of_replays (hrep : Replays srv c σ σ' rs) (hfits : CallFits σ srv c) (hi : i ≠ 0)
    (h : Agrees i (σ.inodes i) x) : Agrees i (σ'.inodes i) (storedAll i rs x) := by
  rw [hrep.inodes]
  by_cases hlink : ∃ r ∈ rs, isLink r.request = true
  · obtain ⟨r, hr, hl⟩ := hlink
    rw [hrep.linkAlone r hr hl]
    refine h.step hi ?_
    obtain ⟨oldpath, newpath, rfl⟩ := (hrep.requests r hr).of_isLink hl
    exact requestFits_of_isLink hl (hfits i)
  · refine h.all hi fun r hr o => fits_of_request (fun _ => hfits) (hrep.requests r hr) ?_
    exact eq_false_of_ne_true fun hl => hlink ⟨r, hr, hl⟩

theorem live_of_replays (hrep : Replays srv c σ σ' rs) (hn : σ'.inodes i = some n) :
    (σ.inodes i).isSome = true ∨ i = (σ.servers srv).ids.allocate.1 ∧
      ((∃ path mode uid gid, c = .create path mode uid gid) ∨
        ∃ path mode uid gid, c = .mkdir path mode uid gid) := by
  rw [hrep.inodes] at hn
  rcases onInodeAll_live hn with h | ⟨r, hr, p, mode, uid, gid, type, name, hreq⟩
  · exact .inl h
  · have := hrep.requests r hr
    rw [hreq] at this
    obtain ⟨hid, path, md, isDir, -, rfl | rfl⟩ := this
    · exact .inr ⟨hid, .inl ⟨_, _, _, _, rfl⟩⟩
    · exact .inr ⟨hid, .inr ⟨_, _, _, _, rfl⟩⟩

/-- What a server does in a cycle when it has no remote changes. -/
theorem Disk.Admitted.quiet
    (h : d.Admitted srv records ch) (hlog : d.remoteLog = []) (hdef : d.deferred = []) :
    ch.attempted = [] ∧ ch.kept = [] := by
  have hnone : d.remoteEntries ch = [] := by
    simp [Disk.remoteEntries, hlog, hdef, coalesce]
  have hmem : ∀ c, c ∉ ch.attempted ++ ch.kept := by
    intro c hc
    have := h.mem_remoteEntries hc
    rw [hnone] at this
    cases this
  refine ⟨eq_nil_iff_forall_not_mem.mpr fun c hc => hmem c (mem_append_left _ hc),
    eq_nil_iff_forall_not_mem.mpr fun c hc => hmem c (mem_append_right _ hc)⟩

/-- The calls that apply the summed child counts. -/
def Disk.flushOps (srv : Nat) (records : List Record) (d : Disk) (ch : Choice) : List FlashOp :=
  ((d.blocksDelta srv records ch).filter (·.value ≠ 0)).map .apply

theorem mem_flushOps {op : FlashOp}
    (h : op ∈ d.flushOps srv records ch) : ∃ c, op = FlashOp.apply c ∧ c.op = .blocksDelta := by
  obtain ⟨c, hc, rfl⟩ := List.mem_map.mp h
  obtain ⟨b, hb, hop, -⟩ := blocksDelta_key (mem_filter.mp hc).1
  exact ⟨c, rfl, hop.trans (op_of_mem_ownDeltas hb)⟩

/-- The slot of an own inode after a cycle without remote changes. -/
theorem Cycled.quiet_slot {d' : Disk}
    (h : Cycled srv records d ch d') (hquiet : d.remoteLog = [] ∧ d.deferred = [])
    (howner : ownerMetaForInode i = srv) :
    d'.region i = runSlot (storedAll i ((records.drop d.drained).take ch.mainCount) (d.region i))
      (opsOn i (d.flushOps srv records ch)) := by
  rw [h.eq_drain.1, runOps_slot, Disk.cycleOps, (h.admitted.quiet hquiet.1 hquiet.2).1,
    map_nil, append_nil, opsOn_append, runSlot_append, storedAll_eq_runSlot howner,
    map_snd_replayed]
  rfl

section Single

variable {env : Env} {m m' : Machine}

theorem SingleInv.start (h : (machine env).start m) : SingleInv m := by
  obtain ⟨config, unset, limit, rfl⟩ := h
  have hnone : ∀ i, i ≠ kRootId → (Cluster.init config unset).inodes i = none := by
    intro i hi
    simp [Cluster.init, hi]
  refine ⟨Nat.le_refl _, ⟨rfl, rfl⟩, ⟨by simp [Machine.init, Cluster.init, Server.init, IdPool.init],
    forall_mem_nil _⟩, fun i n hn => ?_, fun i hi n hn => ?_⟩
  · by_cases hi : i = kRootId
    · rw [hi]
      decide
    · rw [Machine.init, hnone i hi] at hn
      cases hn
  · rw [Machine.init, hnone i hi] at hn
    cases hn

theorem SingleInv.call (h : SingleInv m) {c : Call} {σ : Cluster} {rs : List Record}
    (hrep : Replays 0 c m.cluster σ rs) (hfits : CallFits m.cluster 0 c) :
    SingleInv { m with cluster := σ } := by
  have hrec : σ.records 0 = m.cluster.records 0 ++ rs := by
    rw [hrep.records, if_pos rfl]
  have hzero : m.cluster.inodes 0 = none := by
    rw [eq_none_iff_forall_ne_some]
    exact fun n hn => (h.live 0 n hn).1 rfl
  have hlive : ∀ i n, σ.inodes i = some n → i ≠ 0 ∧ ownerMetaForInode i = 0 := by
    intro i n hn
    rcases live_of_replays hrep hn with hi | ⟨rfl, ⟨_, _, _, _, rfl⟩ | ⟨_, _, _, _, rfl⟩⟩
    · obtain ⟨n', hn'⟩ := isSome_iff_exists.mp hi
      exact h.live i n' hn'
    · exact ⟨h.pool.allocate_ne, hfits.2.2.2⟩
    · exact ⟨h.pool.allocate_ne, hfits.2.2.2⟩
  refine ⟨?_, h.quiet, h.pool.step hzero hrep.pool, hlive, fun i hi => ?_⟩
  · rw [hrec, length_append]
    exact Nat.le_add_right_of_le h.main
  · dsimp only
    rw [hrec, drop_append_of_le_length h.main, storedAll_append]
    by_cases h0 : i = 0
    · intro n hn
      exact absurd h0 (hlive i n hn).1
    · exact agrees_of_replays hrep hfits h0 (h.agrees i hi)

theorem SingleInv.cycle (h : SingleInv m) {ch : Choice} {d : Disk}
    (hc : Cycled 0 (m.cluster.records 0) (m.disks 0) ch d) : SingleInv (m.checkpoint 0 ch d) := by
  obtain ⟨-, hmain, -, hlog, hdef⟩ := hc.eq_drain
  have hkept := (hc.admitted.quiet h.quiet.1 h.quiet.2).2
  refine ⟨?_, ⟨?_, ?_⟩, ?_, ?_, fun i hi => ?_⟩
  · simp only [checkpoint_disks, checkpoint_records, update_self]
    rw [hmain]
    exact hc.admitted.main
  · simp only [checkpoint_disks, update_self]
    rw [hlog, h.quiet.1]
  · simp only [checkpoint_disks, update_self]
    rw [hdef, hkept]
  · rw [checkpoint_ids]
    exact h.pool
  · rw [checkpoint_inodes]
    exact h.live
  · simp only [checkpoint_disks, checkpoint_records, checkpoint_inodes, update_self]
    intro n hn
    have howner := (h.live i n hn).2
    have hag := h.agrees i hi
    rw [drop_drained _ _ ch.mainCount, storedAll_append] at hag
    rw [hmain, hc.quiet_slot h.quiet howner]
    refine hag.congr (SameAttrs.all (sameAttrs_blocksDelta (fun op hop => ?_) _) _) n hn
    exact mem_flushOps (opsOn_mem hop).1

theorem SingleInv.step (h : SingleInv m) (hzero : a.OnServerZero)
    (hfits : a.Fits m) (hst : MachineStep env m a m') : SingleInv m' := by
  cases hst with
  | call hd =>
    cases hzero
    obtain ⟨rs, hrep⟩ := hd.replays
    exact h.call hrep hfits
  | cycle hc =>
    cases hzero
    exact h.cycle hc
  | deliver _ => exact hzero.elim

end Single

/-- **The inodes on the flash of a single server are those in memory**, once its log is drained: for
every live inode but the root, recycled ids included, and whatever the cycles were. -/
theorem stored_inodes_match {env : Env} {m : Machine}
    (h : (machine env).Reach (fun m a => a.OnServerZero ∧ a.Fits m) m)
    (hdone : (m.disks 0).drained = (m.cluster.records 0).length) {i : Nat} (hi : i ≠ kRootId)
    {n : Inode} (hn : m.cluster.inodes i = some n) :
    StoredAs i n ((m.disks 0).region i) := by
  have hinv : SingleInv m := h.invariant (fun m => .start) fun m a m' _ hi hok hst =>
    hi.step hok.1 hok.2 (.of_step hst)
  have := (hinv.agrees i hi n hn).1
  rwa [hdone, drop_length] at this

/-- A test of calls of server 0 other than `Link`, and of its cycles. -/
def plainAct (m : Machine) : MachineAct → Bool
  | .call srv _ (.create _ mode uid gid) | .call srv _ (.mkdir _ mode uid gid) =>
    srv = 0 && (mode < 2 ^ 32 && uid < 2 ^ 32 && gid < 2 ^ 32 &&
      ownerMetaForInode (m.cluster.servers srv).ids.allocate.1 = srv)
  | .call srv _ (.chmod _ mode) => srv = 0 && mode < 2 ^ 32
  | .call _ _ (.link _ _) => false
  | .call srv _ _ => srv = 0
  | .cycle srv _ => srv = 0
  | .deliver .. => false

variable {m : Machine}

theorem fits_of_plainAct (h : plainAct m a = true) : a.OnServerZero ∧ a.Fits m := by
  cases a with
  | cycle srv ch =>
    simp only [plainAct, decide_eq_true_eq] at h
    exact ⟨h, trivial⟩
  | deliver srv t k => cases h
  | call srv th c =>
    cases c with
    | create | mkdir =>
      simp only [plainAct, Bool.and_eq_true, decide_eq_true_eq] at h
      exact ⟨h.1, h.2.1.1.1, h.2.1.1.2, h.2.1.2, h.2.2⟩
    | chmod path mode =>
      simp only [plainAct, Bool.and_eq_true, decide_eq_true_eq] at h
      exact ⟨h.1, h.2⟩
    | link oldpath newpath => cases h
    | _ =>
      simp only [plainAct, decide_eq_true_eq] at h
      exact ⟨h, trivial⟩

/-- All servers from `Init` on, with rings of sixteen slots. -/
def freshMachine : Machine := .init sixteenSlots ⟨0, .fifo⟩ 8

theorem freshMachine_start (env : Env) : (machine env).start freshMachine := ⟨_, _, _, rfl⟩

theorem reach_of_plainAct {l : List MachineAct}
    (h : (machine steadyEnv).runChecked plainAct l freshMachine = some m) :
    (machine steadyEnv).Reach (fun m a => a.OnServerZero ∧ a.Fits m) m :=
  (System.Reach.start (freshMachine_start steadyEnv)).steps
    (steps_runChecked (fun _ _ h => fits_of_plainAct h) h)

/-- A cycle of server 0 that replays `n` records and syncs. -/
def replayAll (n : Nat) : MachineAct := .cycle 0 ⟨n, 0, [], 0, [], [], true⟩

/-- A file is made, removed and made again under another name, and gets a mode: both files have the
same id. -/
theorem stored_inodes_match_recycled :
    ∃ m n, (machine steadyEnv).Reach (fun m a => a.OnServerZero ∧ a.Fits m) m ∧
      (m.disks 0).drained = (m.cluster.records 0).length ∧ m.cluster.inodes 3 = some n ∧
      n.uid = 7 ∧ StoredAs 3 n ((m.disks 0).region 3) := by
  have hrun : ((machine steadyEnv).runChecked plainAct
      [.call 0 0 (.create pathA 0o644 1 2), replayAll 1, .call 0 0 (.unlink pathA),
        .call 0 0 (.create pathB 0o600 7 8), .call 0 0 (.chmod pathB 0o100640), replayAll 3]
      freshMachine).map (fun m =>
        decide ((m.disks 0).drained = (m.cluster.records 0).length ∧
          ∃ n ∈ m.cluster.inodes 3, n.uid = 7)) = some true := by
    decide +kernel
  obtain ⟨m, hm, hd⟩ := map_eq_some_iff.mp hrun
  obtain ⟨hdone, n, hn, huid⟩ := of_decide_eq_true hd
  have hreach := reach_of_plainAct hm
  exact ⟨m, n, hreach, hdone, hn, huid, stored_inodes_match hreach hdone (by decide) hn⟩

/-! ### Child counts -/

/-- The record creates inode `i`. -/
def creates (i : Nat) (r : Record) : Bool := createsId i r.request

/-- What a record adds to the child count of `i`. -/
def recordDelta (i : Nat) (r : Record) : Int :=
  match r.request with
  | .create _ parentId .. => if i = parentId then 1 else 0
  | .unlink _ parentId _ => if i = parentId then -1 else 0
  | .rename _ oldParent newParent _ _ _ =>
    if oldParent = newParent then 0
    else (if i = oldParent then -1 else 0) + if i = newParent then 1 else 0
  | .setattr .. => 0
  | .link _ newParent _ _ => if i = newParent then 1 else 0

def deltaSum (i : Nat) (rs : List Record) : Int := (rs.map (recordDelta i)).sum

/-- The child count after records, one after the other. -/
def countAll (i : Nat) : List Record → Int → Int := restart (creates i) 0 (recordDelta i)

/-- The changes of `i` that come before a record that creates it anew sum to zero; `sum` is the sum
so far. -/
def cleanCreates (i : Nat) (sum : Int) : List Record → Bool
  | [] => true
  | r :: rs => (!creates i r || sum = 0) && cleanCreates i (sum + recordDelta i r) rs

theorem total_changes (i : Nat) (p : Placed) :
    total (childDelta i) p.changes = recordDelta i p.2 := by
  obtain ⟨origin, req, version⟩ := p
  have hdelta : ∀ (j : Nat) (v : Int), childDelta i ⟨.blocksDelta, j, v, version, [origin]⟩ =
      if i = j then v else 0 := by
    intro j v
    simp [childDelta, eq_comm]
  have hother : ∀ (op : RemoteInodeChangeOp) (j : Nat) (v : Int), op ≠ .blocksDelta →
      childDelta i ⟨op, j, v, version, [origin]⟩ = 0 := fun op j v hop => if_neg fun h => hop h.1
  cases req with
  | create inodeId parentId mode uid gid type name =>
    rw [changes_create, total_cons, total_nil, hdelta, add_zero]
    rfl
  | unlink inodeId parentId name =>
    rw [changes_unlink, total_cons, total_cons, total_nil, hdelta, hother .unlink _ _ (by decide),
      add_zero, zero_add]
    rfl
  | rename inodeId oldParent newParent oldName newName type =>
    rw [changes_rename]
    simp only [recordDelta]
    split
    · rfl
    · rw [total_cons, total_cons, total_nil, hdelta, hdelta, add_zero]
  | setattr inodeId mode =>
    rw [changes_setattr, total_cons, total_nil, hother .setattr _ _ (by decide), add_zero]
    rfl
  | link inodeId newParent newName type =>
    rw [changes_link, total_cons, total_cons, total_nil, hdelta, hother .link _ _ (by decide),
      add_zero, zero_add]
    rfl

theorem total_flatMap_changes (i : Nat) (ps : List Placed) :
    total (childDelta i) (ps.flatMap Placed.changes) = deltaSum i (ps.map Prod.snd) :=
  total_flatMap_placed (total_changes i) ps

/-- If the changes before it sum to zero, the sum over all changes can be applied to the new
inode. -/
theorem countAll_of_clean {sum : Int}
    (hclean : cleanCreates i sum rs = true) (h : ∃ r ∈ rs, creates i r = true) (e : Int) :
    countAll i rs e = sum + deltaSum i rs := by
  induction rs generalizing sum e with
  | nil =>
    obtain ⟨r, hr, -⟩ := h
    cases hr
  | cons r rs ih =>
    simp only [cleanCreates, Bool.and_eq_true, Bool.or_eq_true, Bool.not_eq_true',
      decide_eq_true_eq] at hclean
    have hsum : deltaSum i (r :: rs) = recordDelta i r + deltaSum i rs := by
      simp [deltaSum]
    by_cases hrest : ∃ r' ∈ rs, creates i r' = true
    · have hstep := ih hclean.2 hrest (restartStep (creates i) 0 (recordDelta i) e r)
      rw [countAll, restart_cons]
      rw [countAll] at hstep
      rw [hstep, hsum]
      omega
    · obtain ⟨r', hr', hc'⟩ := h
      have hcr : creates i r = true := by
        rcases mem_cons.mp hr' with rfl | hmem
        · exact hc'
        · exact absurd ⟨r', hmem, hc'⟩ hrest
      have hzero : sum = 0 := hclean.1.resolve_left (by simp [hcr])
      have hnone : ∀ r' ∈ rs, creates i r' = false := fun r' hr' =>
        eq_false_of_ne_true fun hc => hrest ⟨r', hr', hc⟩
      show countAll i rs ((if creates i r then 0 else e) + recordDelta i r) = _
      rw [countAll, restart_of_none hnone, hsum, hcr, hzero]
      simp [deltaSum]

/-- The replay leaves the child count alone, or makes it zero. -/
theorem storedAll_extra (i : Nat) (rs : List Record) (x : StoredInode) :
    (storedAll i rs x).extra = if rs.any (creates i) then 0 else x.extra := by
  induction rs generalizing x with
  | nil => rfl
  | cons r rs ih =>
    have hstep : (storedStep i x r).extra = if creates i r then 0 else x.extra := by
      obtain ⟨req, version⟩ := r
      cases req with
      | create inodeId parentId mode uid gid type name =>
        simp only [storedStep, creates, createsId, decide_eq_true_eq, eq_comm (a := inodeId)]
        split <;> rfl
      | rename => rfl
      | _ =>
        simp only [storedStep, creates, createsId]
        split <;> rfl
    have : storedAll i (r :: rs) x = storedAll i rs (storedStep i x r) := rfl
    rw [this, ih, hstep, any_cons]
    cases creates i r <;> cases rs.any (creates i) <;> simp

/-- Records that do not create the inode leave an empty slot empty. -/
theorem storedAll_id (h : ∀ r ∈ rs, creates i r = false)
    (x : StoredInode) : (storedAll i rs x).id = x.id := by
  induction rs generalizing x with
  | nil => rfl
  | cons r rs ih =>
    have hstep : (storedStep i x r).id = x.id := by
      have hr := h r mem_cons_self
      obtain ⟨req, version⟩ := r
      cases req with
      | create inodeId parentId mode uid gid type name =>
        simp only [creates, createsId, decide_eq_false_iff_not] at hr
        simp [storedStep, Ne.symm hr]
      | rename => rfl
      | _ =>
        simp only [storedStep]
        split <;> rfl
    exact (ih (fun r' hr' => h r' (mem_cons_of_mem _ hr')) _).trans hstep

/-- `e` is the child count of the inode, if it is live, up to the 32 bits of the count. -/
def CountsTo (o : Option Inode) (e : Int) : Prop :=
  ∀ n, o = some n → (e - n.extra) % 2 ^ 32 = 0 ∧ n.extra < 2 ^ 32

/-- A change of other fields. -/
theorem CountsTo.map (h : CountsTo o e) {f : Inode → Inode}
    (hf : ∀ n, (f n).extra = n.extra) : CountsTo (o.map f) e := by
  intro n hn
  obtain ⟨n', hn', rfl⟩ := map_eq_some_iff.mp hn
  rw [hf]
  exact h n' hn'

theorem CountsTo.bump (h : CountsTo o e) (b : Prop) [Decidable b] :
    CountsTo (bumpIf b .extraInc o) (e + if b then 1 else 0) ∧
    CountsTo (bumpIf b .extraDec o) (e + if b then -1 else 0) := by
  unfold bumpIf
  by_cases hb : b
  · simp only [hb, if_true]
    constructor <;>
    · intro n hn
      obtain ⟨n', hn', rfl⟩ := map_eq_some_iff.mp hn
      obtain ⟨hc, hlt⟩ := h n' hn'
      simp only [InodeFn.apply]
      omega
  · simp only [hb, if_false, add_zero]
    exact ⟨h, h⟩

variable {i : Nat}

/-- A record moves the child count in memory by what it adds. -/
theorem CountsTo.step {o : Option Inode} (h : CountsTo o e) (r : Record) :
    CountsTo (onInode i r.request o) ((if creates i r then 0 else e) + recordDelta i r) := by
  obtain ⟨req, version⟩ := r
  cases req with
  | create inodeId parentId mode uid gid type name =>
    refine (CountsTo.bump ?_ _).1
    simp only [creates, createsId, decide_eq_true_eq, eq_comm (a := inodeId)]
    split
    · rintro n ⟨rfl⟩
      exact ⟨by simp, by simp⟩
    · exact h
  | unlink inodeId parentId name =>
    have hdrop : CountsTo (if i = inodeId then o.map Inode.dropLink else o) e := by
      split
      · exact h.map fun _ => rfl
      · exact h
    have hbump := (hdrop.bump (i = parentId)).2
    simp only [onInode, creates, createsId, recordDelta, Bool.false_eq_true, if_false]
    by_cases he : i = inodeId
    · rw [if_pos he] at hbump ⊢
      intro n hn
      exact hbump n (by simpa [he] using (filter_eq_some_iff.mp hn).1)
    · rw [if_neg he] at hbump ⊢
      simpa [he] using hbump
  | rename inodeId oldParent newParent oldName newName type =>
    simp only [onInode, creates, createsId, recordDelta, Bool.false_eq_true, if_false]
    split
    · simpa using h
    · rw [← add_assoc]
      exact ((h.bump _).2.bump _).1
  | setattr inodeId mode =>
    simp only [onInode, creates, createsId, recordDelta, Bool.false_eq_true, if_false, add_zero, bumpIf]
    split
    · exact h.map fun _ => rfl
    · exact h
  | link inodeId newParent newName type =>
    simp only [onInode, creates, createsId, recordDelta, Bool.false_eq_true, if_false]
    refine (CountsTo.bump ?_ _).1
    unfold bumpIf
    split
    · exact h.map fun _ => rfl
    · exact h

theorem CountsTo.all (h : CountsTo o e) (rs : List Record) :
    CountsTo (onInodeAll i rs o) (countAll i rs e) := by
  induction rs generalizing o e with
  | nil => exact h
  | cons r rs ih => exact ih (h.step r)

/-- **When the child count of `i` is kept**: a cycle that replays a record that creates the inode
replays before it only changes of its predecessor that sum to zero, and the sum of the changes does
not bring the stored count out of bounds. -/
def CycleKeepsCount (i : Nat) (m : Machine) : MachineAct → Prop
  | .cycle srv ch =>
    cleanCreates i 0 (((m.cluster.records srv).drop (m.disks srv).drained).take ch.mainCount) =
        true ∧
      countFits (storedAll i
          (((m.cluster.records srv).drop (m.disks srv).drained).take ch.mainCount)
          ((m.disks srv).region i))
        (opsOn i ((m.disks srv).flushOps srv (m.cluster.records srv) ch)) = true
  | _ => True

instance (i : Nat) (m : Machine) : (a : MachineAct) → Decidable (CycleKeepsCount i m a)
  | .cycle .. => inferInstanceAs (Decidable (_ ∧ _))
  | .call .. | .deliver .. => inferInstanceAs (Decidable True)

/-- The stored count, with the changes still to be replayed, is the count in memory. -/
structure CountInv (i : Nat) (m : Machine) : Prop extends SingleInv m where
  counts : CountsTo (m.cluster.inodes i) (countAll i
    ((m.cluster.records 0).drop (m.disks 0).drained) ((m.disks 0).region i).extra)
  bound : ownerMetaForInode i = 0 → ((m.disks 0).region i).extra < 2 ^ 32

theorem runSlot_extra_lt (hops : ∀ op ∈ ops, ∃ c, op = FlashOp.apply c ∧ c.op = .blocksDelta)
    (h : x.extra < 2 ^ 32) : (runSlot x ops).extra < 2 ^ 32 := by
  induction ops generalizing x with
  | nil => exact h
  | cons op ops ih =>
    obtain ⟨c, rfl, hop⟩ := hops op mem_cons_self
    refine ih (fun op hop => hops op (mem_cons_of_mem _ hop)) ?_
    show ((FlashOp.apply c).onSlot x).extra < 2 ^ 32
    rw [FlashOp.onSlot]
    split
    · exact h
    · simp only [RemoteInodeChange.mutate, hop, addBlocksDelta]
      split
      · exact Nat.two_pow_pos 32
      · dsimp only
        omega

/-- What the summed changes do to the stored count. -/
theorem sum_flushOps (howner : ownerMetaForInode i = srv) :
    ((opsOn i (d.flushOps srv records ch)).map (FlashOp.childDelta i)).sum =
      deltaSum i ((records.drop d.drained).take ch.mainCount) := by
  rw [sum_opsOn, Disk.flushOps, sum_apply, total_filter, Disk.blocksDelta,
    total_blocksDelta (childDelta_additive i), total_ownDeltas howner, total_flatMap_changes,
    map_snd_replayed]
  · exact fun c hc => op_of_mem_ownDeltas hc
  · intro c _ hc
    unfold childDelta
    split
    · simpa using hc
    · rfl

theorem flush_extra (howner : ownerMetaForInode i = srv) (hx : x.id ≠ 0)
    (hfit : countFits x (opsOn i (d.flushOps srv records ch)) = true) :
    ((runSlot x (opsOn i (d.flushOps srv records ch))).extra : Int) =
      x.extra + deltaSum i ((records.drop d.drained).take ch.mainCount) := by
  rw [@extra_runSlot i _ _ _ hx hfit, sum_flushOps howner]
  intro op hop
  obtain ⟨hmem, ht⟩ := opsOn_mem hop
  obtain ⟨c, rfl, -⟩ := mem_flushOps hmem
  exact ⟨ht, c, rfl⟩

theorem CountInv.cycle (h : CountInv i m) (hi : i ≠ kRootId) {ch : Choice}
    {d : Disk} (hc : Cycled 0 (m.cluster.records 0) (m.disks 0) ch d)
    (hkeep : CycleKeepsCount i m (.cycle 0 ch)) : CountInv i (m.checkpoint 0 ch d) := by
  obtain ⟨hclean, hfit⟩ := hkeep
  have hnext := h.toSingleInv.cycle hc
  have hflush : ∀ op ∈ opsOn i ((m.disks 0).flushOps 0 (m.cluster.records 0) ch),
      ∃ c, op = FlashOp.apply c ∧ c.op = .blocksDelta := fun op hop => mem_flushOps (opsOn_mem hop).1
  refine ⟨hnext, ?_, ?_⟩
  · simp only [checkpoint_disks, checkpoint_records, checkpoint_inodes, update_self]
    intro n hn
    have howner := (h.live i n hn).2
    have hag := hnext.agrees i hi n (by rw [checkpoint_inodes]; exact hn)
    simp only [checkpoint_disks, checkpoint_records, update_self] at hag
    have hslot := hc.quiet_slot h.quiet howner
    have hmain := hc.eq_drain.2.1
    have hold := h.counts n hn
    rw [drop_drained _ _ ch.mainCount, countAll, restart_append] at hold
    rw [hmain] at hag ⊢
    generalize hrs : ((m.cluster.records 0).drop (m.disks 0).drained).take ch.mainCount = rs at *
    generalize hrest : (m.cluster.records 0).drop ((m.disks 0).drained + ch.mainCount) = rest at *
    by_cases hcreate : ∃ r ∈ rest, creates i r = true
    · rw [countAll, restart_of_some hcreate _ (countAll i rs ((m.disks 0).region i).extra)]
      exact hold
    · -- the inode is in its slot, and the sum is applied to it
      have hnone : ∀ r ∈ rest, creates i r = false := fun r hr =>
        eq_false_of_ne_true fun hc => hcreate ⟨r, hr, hc⟩
      have hid : (storedAll i rs ((m.disks 0).region i)).id ≠ 0 := by
        have h1 := hag.1.id
        rw [storedAll_id hnone, hslot, (sameAttrs_blocksDelta hflush _).id] at h1
        rw [h1]
        exact (h.live i n hn).1
      have hextra : ((d.region i).extra : Int) = countAll i rs ((m.disks 0).region i).extra := by
        have hsum := flush_extra howner hid hfit
        rw [hrs] at hsum
        rw [hslot, hsum, storedAll_extra]
        by_cases hin : ∃ r ∈ rs, creates i r = true
        · rw [if_pos (List.any_eq_true.mpr hin), countAll_of_clean hclean hin]
          rfl
        · have hnone' : ∀ r ∈ rs, creates i r = false := fun r hr =>
            eq_false_of_ne_true fun hc => hin ⟨r, hr, hc⟩
          rw [if_neg fun hany => hin (List.any_eq_true.mp hany), countAll, restart_of_none hnone']
          rfl
      rw [hextra]
      exact hold
  · intro howner
    simp only [checkpoint_disks, update_self]
    rw [hc.quiet_slot h.quiet howner]
    refine runSlot_extra_lt hflush ?_
    rw [storedAll_extra]
    split
    · exact Nat.two_pow_pos 32
    · exact h.bound howner

theorem CountInv.step {env : Env} {m m' : Machine} (h : CountInv i m)
    (hi : i ≠ kRootId) (hzero : a.OnServerZero) (hfits : a.Fits m) (hkeep : CycleKeepsCount i m a)
    (hst : MachineStep env m a m') : CountInv i m' := by
  have hnext := h.toSingleInv.step hzero hfits hst
  cases hst with
  | call hd =>
    cases hzero
    obtain ⟨rs, hrep⟩ := hd.replays
    refine ⟨hnext, ?_, h.bound⟩
    dsimp only
    rw [hrep.inodes, hrep.records, if_pos rfl, drop_append_of_le_length h.main, countAll,
      restart_append]
    exact h.counts.all rs
  | cycle hc =>
    cases hzero
    exact h.cycle hi hc hkeep
  | deliver _ => exact hzero.elim

/-- **The child counts on the flash of a single server are those in memory**, once its log is
drained: for a live directory other than the root, in every run in which no cycle mixes the changes
of two inodes with its id. -/
theorem stored_counts_match {env : Env} {m : Machine} {i : Nat} (hi : i ≠ kRootId)
    (h : (machine env).Reach
      (fun m a => a.OnServerZero ∧ a.Fits m ∧ CycleKeepsCount i m a) m)
    (hdone : (m.disks 0).drained = (m.cluster.records 0).length)
    {n : Inode} (hn : m.cluster.inodes i = some n) :
    ((m.disks 0).region i).extra = n.extra := by
  have hinv : CountInv i m := by
    refine h.invariant (I := CountInv i) (fun m hm => ?_) fun m a m' _ hinv hok hst =>
      hinv.step hi hok.1 hok.2.1 hok.2.2 (.of_step hst)
    refine ⟨.start hm, ?_, ?_⟩
    · obtain ⟨config, unset, limit, rfl⟩ := hm
      intro n hn
      simp [Machine.init, Cluster.init, hi] at hn
    · obtain ⟨config, unset, limit, rfl⟩ := hm
      exact fun _ => Nat.two_pow_pos 32
  have hcount := hinv.counts n hn
  have hbound := hinv.bound (hinv.live i n hn).2
  rw [hdone, drop_length] at hcount
  simp only [countAll, restart_nil] at hcount
  omega

/-- A directory with an entry, replayed in two cycles. -/
theorem stored_counts_match_twice :
    ∃ m n, (machine steadyEnv).Reach
        (fun m a => a.OnServerZero ∧ a.Fits m ∧ CycleKeepsCount 3 m a) m ∧
      (m.disks 0).drained = (m.cluster.records 0).length ∧ m.cluster.inodes 3 = some n ∧
      n.extra = 1 ∧ ((m.disks 0).region 3).extra = n.extra := by
  have hrun : ((machine steadyEnv).runChecked
      (fun m a => plainAct m a && decide (CycleKeepsCount 3 m a))
      [.call 0 0 (.mkdir pathA 0o755 1 2), replayAll 1, .call 0 0 (.create pathAX 0o644 1 2),
        replayAll 1] freshMachine).map (fun m =>
        decide ((m.disks 0).drained = (m.cluster.records 0).length ∧
          ∃ n ∈ m.cluster.inodes 3, n.extra = 1)) = some true := by
    decide +kernel
  obtain ⟨m, hm, hd⟩ := map_eq_some_iff.mp hrun
  obtain ⟨hdone, n, hn, hextra⟩ := of_decide_eq_true hd
  have hreach : (machine steadyEnv).Reach
      (fun m a => a.OnServerZero ∧ a.Fits m ∧ CycleKeepsCount 3 m a) m := by
    refine (System.Reach.start (freshMachine_start steadyEnv)).steps
      (steps_runChecked (fun _ _ h => ?_) hm)
    obtain ⟨hplain, hkeep⟩ := Bool.and_eq_true_iff.mp h
    exact ⟨(fits_of_plainAct hplain).1, (fits_of_plainAct hplain).2, of_decide_eq_true hkeep⟩
  exact ⟨m, n, hreach, hdone, hn, hextra, stored_counts_match (by decide) hreach hdone hn⟩

/-- **The child count of the root is not stored**: there is no record that puts the root into its
slot, so the change finds it empty. -/
theorem root_count_missing :
    ∃ m n, (machine steadyEnv).Reach (fun m a => a.OnServerZero ∧ a.Fits m) m ∧
      (m.disks 0).drained = (m.cluster.records 0).length ∧ m.cluster.inodes kRootId = some n ∧
      ((m.disks 0).region kRootId).extra ≠ n.extra := by
  have hrun : ((machine steadyEnv).runChecked plainAct
      [.call 0 0 (.create pathA 0o644 1 2), replayAll 1] freshMachine).map (fun m =>
        decide ((m.disks 0).drained = (m.cluster.records 0).length ∧
          ∃ n ∈ m.cluster.inodes kRootId, ((m.disks 0).region kRootId).extra ≠ n.extra)) =
        some true := by
    decide +kernel
  obtain ⟨m, hm, hd⟩ := map_eq_some_iff.mp hrun
  obtain ⟨hdone, n, hn, hextra⟩ := of_decide_eq_true hd
  have hreach := reach_of_plainAct hm
  exact ⟨m, n, hreach, hdone, hn, hextra⟩

end StaxFS.Persist
