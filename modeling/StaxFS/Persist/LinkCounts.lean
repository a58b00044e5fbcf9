import StaxFS.Persist.Single

/-!
# Link counts of any number of servers

Calls on any server, one at a time; the changes of link counts reach the server that owns the inode
through its own log, or through the log, the batches and the forward queue of another server and the
remote log of the owner. Each change is somewhere on this way exactly once, or it has been applied;
so the stored link count, with the owner's own records still to be replayed and the changes still on
the way, is the link count in memory.

This needs that a change is applied to the inode it was made for. The decrement stops at zero, so an
`Unlink` must not overtake the `Link` it undoes; and the record that creates an inode anew overwrites
the slot, whatever was applied to it.

Results:
* `link_counts_converge`: once everything has arrived, the stored link count is the one in memory, if
  no change meets a stored count of zero or an inode of another life; `unlink_overtakes_link` is a
  run in which two do.
-/

namespace StaxFS.Persist

open Foundation Wal Metadata List Option

/-! ### Links in changes, records and calls -/

/-- What a change adds to the link count of `i`. -/
def linkDelta (i : Nat) (c : RemoteInodeChange) : Int :=
  if c.inodeId = i then
    match c.op with
    | .link => 1
    | .unlink => -1
    | _ => 0
  else 0

/-- What a record adds to it. -/
def recordLink (i : Nat) (r : Record) : Int :=
  match r.request with
  | .unlink inodeId .. => if i = inodeId then -1 else 0
  | .link inodeId .. => if i = inodeId then 1 else 0
  | _ => 0

/-- The link count after records, one after the other. -/
def linkAll (i : Nat) : List Record → Int → Int := restart (creates i) 1 (recordLink i)

/-- The link count in memory, zero for an inode that is not there. -/
def memLinks (o : Option Inode) : Int := o.elim 0 fun n => n.nlink

/-- A live inode has a link count between 1 and 2^64. -/
def LinksFit (o : Option Inode) : Prop := ∀ n, o = some n → 1 ≤ n.nlink ∧ n.nlink < 2 ^ 64

theorem linkDelta_additive (i : Nat) : Additive (linkDelta i) := by
  intro cur e hkey hco
  obtain ⟨hi, ho⟩ := RemoteInodeChange.sameKey_iff.mp hkey
  have hzero : ∀ c : RemoteInodeChange, c.op.canCoalesce = true → linkDelta i c = 0 := by
    intro c hc
    unfold linkDelta
    split
    · cases hop : c.op <;> simp_all [RemoteInodeChangeOp.canCoalesce]
    · rfl
  have hmerge : (mergeChange cur e).op = cur.op := rfl
  rw [hzero _ hco, hzero cur (by rwa [ho]), hzero _ (by rwa [hmerge, ho]), add_zero]

theorem total_links (i : Nat) (p : Placed) : total (linkDelta i) p.changes = recordLink i p.2 := by
  obtain ⟨origin, req, version⟩ := p
  have hdelta : ∀ (j : Nat) (v : Int), linkDelta i ⟨.blocksDelta, j, v, version, [origin]⟩ = 0 := by
    intro j v
    simp [linkDelta]
  cases req with
  | create inodeId parentId mode uid gid type name =>
    rw [changes_create, total_cons, total_nil, hdelta]
    rfl
  | unlink inodeId parentId name =>
    rw [changes_unlink, total_cons, total_cons, total_nil, hdelta]
    simp [linkDelta, recordLink, eq_comm]
  | rename inodeId oldParent newParent oldName newName type =>
    rw [changes_rename]
    split
    · rfl
    · rw [total_cons, total_cons, total_nil, hdelta, hdelta]
      rfl
  | setattr inodeId mode =>
    rw [changes_setattr, total_cons, total_nil]
    simp [linkDelta, recordLink]
  | link inodeId newParent newName type =>
    rw [changes_link, total_cons, total_cons, total_nil, hdelta]
    simp [linkDelta, recordLink, eq_comm]

theorem bumpIf_links (b : Prop) [Decidable b] {f : InodeFn}
    (hf : ∀ n, (f.apply n).nlink = n.nlink) (o : Option Inode) :
    memLinks (bumpIf b f o) = memLinks o ∧ (LinksFit o → LinksFit (bumpIf b f o)) := by
  unfold bumpIf
  split
  · cases o with
    | none => exact ⟨rfl, id⟩
    | some n =>
      refine ⟨by simp [memLinks, hf], fun h n' hn' => ?_⟩
      cases hn'
      rw [hf]
      exact h n rfl
  · exact ⟨rfl, id⟩

variable {i : Nat} {x : StoredInode} {rs : List Record} {c : Call} {σ : Cluster}

/-- What a record does to the link count in memory. -/
theorem memLinks_onInode {o : Option Inode} {r : Record} (hfit : LinksFit o)
    (hlive : linksTo i r.request = true → o.isSome = true) (hreq : RequestFits o r.request) :
    memLinks (onInode i r.request o) = restartStep (creates i) 1 (recordLink i) (memLinks o) r ∧
      LinksFit (onInode i r.request o) := by
  obtain ⟨req, version⟩ := r
  have hinc := fun b [Decidable b] o => bumpIf_links b (f := .extraInc) (fun _ => rfl) o
  have hdec := fun b [Decidable b] o => bumpIf_links b (f := .extraDec) (fun _ => rfl) o
  cases req with
  | create inodeId parentId mode uid gid type name =>
    obtain ⟨h1, h2⟩ := hinc (i = parentId)
      (if i = inodeId then some ⟨1, mode, 0, uid, gid⟩ else o)
    simp only [onInode, restartStep, creates, createsId, recordLink, add_zero, decide_eq_true_eq,
      eq_comm (a := inodeId)]
    rw [h1]
    split
    · refine ⟨rfl, ?_⟩
      rw [if_pos ‹_›] at h2
      refine h2 fun n hn => ?_
      cases hn
      exact ⟨Nat.le_refl 1, Nat.one_lt_two_pow (by decide)⟩
    · rw [if_neg ‹_›] at h2
      exact ⟨rfl, h2 hfit⟩
  | unlink inodeId parentId name =>
    simp only [onInode, restartStep, creates, createsId, recordLink, Bool.false_eq_true, if_false]
    by_cases he : i = inodeId
    · obtain ⟨n, rfl⟩ := isSome_iff_exists.mp (hlive (by simp [linksTo, he]))
      obtain ⟨hpos, hlt⟩ := hfit n rfl
      have hcount : n.dropLink.nlink = n.nlink - 1 := by
        simp only [Inode.dropLink]
        omega
      simp only [if_pos he, map_some]
      by_cases hz : n.dropLink.nlink = 0
      · rw [bumpIf_extraDec_filter_zero _ _ hz]
        refine ⟨?_, fun _ he => by cases he⟩
        show (0 : Int) = (n.nlink : Int) + -1
        omega
      · rw [bumpIf_extraDec_filter _ _ hz, (hdec _ _).1]
        refine ⟨?_, (hdec _ _).2 fun n' hn' => ?_⟩
        · show (n.dropLink.nlink : Int) = (n.nlink : Int) + -1
          omega
        · cases hn'
          omega
    · simp only [if_neg he, add_zero]
      exact ⟨(hdec _ o).1, (hdec _ o).2 hfit⟩
  | rename inodeId oldParent newParent oldName newName type =>
    simp only [onInode, restartStep, creates, createsId, recordLink, Bool.false_eq_true, if_false,
      add_zero]
    split
    · exact ⟨rfl, hfit⟩
    · rw [(hinc _ _).1, (hdec _ _).1]
      exact ⟨rfl, (hinc _ _).2 ((hdec _ _).2 hfit)⟩
  | setattr inodeId mode =>
    have hset := bumpIf_links (i = inodeId) (f := .setMode mode) (fun _ => rfl) o
    simp only [onInode, restartStep, creates, createsId, recordLink, Bool.false_eq_true, if_false,
      add_zero]
    exact ⟨hset.1, hset.2 hfit⟩
  | link inodeId newParent newName type =>
    simp only [onInode, restartStep, creates, createsId, recordLink, Bool.false_eq_true, if_false]
    rw [(hinc _ _).1]
    by_cases he : i = inodeId
    · obtain ⟨n, rfl⟩ := isSome_iff_exists.mp (hlive (by simp [linksTo, he]))
      have hlt : n.nlink + 1 < 2 ^ 64 := hreq n rfl
      have hcount : (InodeFn.nlinkInc.apply n).nlink = n.nlink + 1 := Nat.mod_eq_of_lt hlt
      simp only [bumpIf, if_pos he, map_some]
      refine ⟨?_, (hinc _ _).2 fun n' hn' => ?_⟩
      · show ((InodeFn.nlinkInc.apply n).nlink : Int) = (n.nlink : Int) + 1
        omega
      · cases hn'
        omega
    · have hsame : bumpIf (i = inodeId) .nlinkInc o = o := if_neg he
      rw [hsame, if_neg he, add_zero]
      exact ⟨rfl, (hinc _ _).2 hfit⟩

/-- The arguments of a call fit their types, and the link count of inode `i` does not reach 2^64. -/
def CallFitsAt (i : Nat) (σ : Cluster) (srv : Nat) : Call → Prop
  | .link _ _ => ∀ n ∈ σ.inodes i, n.nlink + 1 < 2 ^ 64
  | c => CallFits σ srv c

theorem CallFitsAt.callFits {srv : Nat} (h : CallFitsAt i σ srv c)
    (hlink : ∀ oldpath newpath, c ≠ .link oldpath newpath) : CallFits σ srv c := by
  cases c with
  | link oldpath newpath => exact absurd rfl (hlink oldpath newpath)
  | unlink path | rmdir path | rename oldpath newpath => trivial
  | _ => exact h

/-- The records of a call move the link count in memory as they say. -/
theorem memLinks_of_replays {srv : Nat} {σ' : Cluster}
    (hrep : Replays srv c σ σ' rs) (hfits : CallFitsAt i σ srv c) (h : LinksFit (σ.inodes i)) :
    memLinks (σ'.inodes i) = linkAll i rs (memLinks (σ.inodes i)) ∧ LinksFit (σ'.inodes i) := by
  -- records that are about neither the links nor the creation of the inode
  have hrest : ∀ (rs : List Record) (o : Option Inode), LinksFit o →
      (∀ r ∈ rs, linksTo i r.request = false ∧ createsId i r.request = false) →
      (∀ r ∈ rs, ∀ o, RequestFits o r.request) →
      memLinks (onInodeAll i rs o) = linkAll i rs (memLinks o) ∧ LinksFit (onInodeAll i rs o) := by
    intro rs
    induction rs with
    | nil => exact fun o ho _ _ => ⟨rfl, ho⟩
    | cons r rs ih =>
      intro o ho hnone hreq
      obtain ⟨h1, h2⟩ := memLinks_onInode (i := i) ho
        (fun hl => absurd hl (by simp [(hnone r mem_cons_self).1]))
        (hreq r mem_cons_self o)
      obtain ⟨h3, h4⟩ := ih _ h2 (fun r' hr' => hnone r' (mem_cons_of_mem _ hr'))
        fun r' hr' => hreq r' (mem_cons_of_mem _ hr')
      refine ⟨?_, h4⟩
      show memLinks (onInodeAll i rs (onInode i r.request o)) = _
      rw [h3, h1]
      rfl
  rw [hrep.inodes]
  cases rs with
  | nil => exact ⟨rfl, h⟩
  | cons r rs =>
    have hfirst : RequestFits (σ.inodes i) r.request := by
      by_cases hl : isLink r.request = true
      · obtain ⟨oldpath, newpath, rfl⟩ := (hrep.requests r mem_cons_self).of_isLink hl
        exact requestFits_of_isLink hl hfits
      · exact fits_of_request hfits.callFits (hrep.requests r mem_cons_self) (eq_false_of_ne_true hl)
    obtain ⟨h1, h2⟩ := memLinks_onInode h (hrep.counted r mem_cons_self i) hfirst
    have htail : ∀ r' ∈ rs, ∀ o, RequestFits o r'.request := by
      intro r' hr' o
      refine fits_of_request hfits.callFits (hrep.requests r' (mem_cons_of_mem _ hr')) ?_
      refine eq_false_of_ne_true fun hl => ?_
      have halone := hrep.linkAlone r' (mem_cons_of_mem _ hr') hl
      simp only [List.cons.injEq] at halone
      rw [halone.2] at hr'
      cases hr'
    obtain ⟨h3, h4⟩ := hrest rs _ h2 (fun r' hr' => hrep.countedFirst r' hr' i) htail
    refine ⟨?_, h4⟩
    show memLinks (onInodeAll i rs (onInode i r.request (σ.inodes i))) = _
    rw [h3, h1]
    rfl

/-! ### Links on flash -/

/-- An `Unlink` or `Link` of the inode that the replay of the own log applies finds the inode in its
slot, with a count that can go down or up. -/
def recordKeepsLinks (i : Nat) (x : StoredInode) (r : Record) : Bool :=
  match r.request with
  | .unlink inodeId .. => i ≠ inodeId || (x.id ≠ 0 && 0 < x.nlink)
  | .link inodeId .. => i ≠ inodeId || (x.id ≠ 0 && x.nlink + 1 < 2 ^ 64)
  | _ => true

def recordsKeepLinks (i : Nat) : StoredInode → List Record → Bool
  | _, [] => true
  | x, r :: rs => recordKeepsLinks i x r && recordsKeepLinks i (storedStep i x r) rs

/-- The same for the remote changes; those of an inode that is not in its slot are not applied. -/
def FlashOp.keepsLinks (x : StoredInode) : FlashOp → Bool
  | .write _ => true
  | .apply c =>
    match c.op with
    | .unlink => x.id = 0 || 0 < x.nlink
    | .link => x.id = 0 || x.nlink + 1 < 2 ^ 64
    | _ => true

def opsKeepLinks : StoredInode → List FlashOp → Bool
  | _, [] => true
  | x, op :: ops => op.keepsLinks x && opsKeepLinks (op.onSlot x) ops

theorem nlink_storedAll (h : recordsKeepLinks i x rs = true) :
    ((storedAll i rs x).nlink : Int) = linkAll i rs x.nlink := by
  induction rs generalizing x with
  | nil => rfl
  | cons r rs ih =>
    simp only [recordsKeepLinks, Bool.and_eq_true] at h
    have hstep : ((storedStep i x r).nlink : Int) =
        restartStep (creates i) 1 (recordLink i) x.nlink r := by
      have hr := h.1
      obtain ⟨req, version⟩ := r
      cases req with
      | create inodeId parentId mode uid gid type name =>
        simp only [storedStep, restartStep, creates, createsId, recordLink, add_zero,
          decide_eq_true_eq, eq_comm (a := inodeId)]
        split <;> rfl
      | rename inodeId oldParent newParent oldName newName type =>
        simp [storedStep, restartStep, creates, createsId, recordLink]
      | setattr inodeId mode =>
        simp only [storedStep, restartStep, creates, createsId, recordLink, Bool.false_eq_true,
          if_false, add_zero]
        split <;> rfl
      | unlink inodeId parentId name | link inodeId newParent newName type =>
        simp only [storedStep, restartStep, creates, createsId, recordLink, Bool.false_eq_true,
          if_false]
        by_cases he : i = inodeId
        · simp only [recordKeepsLinks, he, ne_eq, not_true, decide_false, Bool.false_or,
            Bool.and_eq_true, decide_eq_true_eq] at hr
          rw [if_pos ⟨he, hr.1⟩, if_pos he]
          dsimp only [dropStoredLink, addStoredLink]
          omega
        · rw [if_neg fun hh => he hh.1, if_neg he, add_zero]
    show ((storedAll i rs (storedStep i x r)).nlink : Int) = _
    rw [ih h.2, hstep]
    rfl

/-- The remote changes of an inode that is in its slot add up. -/
theorem nlink_runSlot {cs : List RemoteInodeChange} (hx : x.id ≠ 0)
    (h : opsKeepLinks x (opsOn i (cs.map .apply)) = true) :
    ((runSlot x (opsOn i (cs.map .apply))).nlink : Int) = x.nlink + total (linkDelta i) cs ∧
      (runSlot x (opsOn i (cs.map .apply))).id ≠ 0 := by
  induction cs generalizing x with
  | nil => exact ⟨by simp [opsOn], hx⟩
  | cons c cs ih =>
    by_cases hi : c.inodeId = i
    · have hops : opsOn i ((c :: cs).map .apply) = .apply c :: opsOn i (cs.map .apply) := by
        rw [map_cons, opsOn, filter_cons_of_pos (by simp [FlashOp.target, hi])]
        rfl
      rw [hops] at h ⊢
      simp only [opsKeepLinks, Bool.and_eq_true] at h
      have hslot : (FlashOp.apply c).onSlot x = c.mutate x := if_neg hx
      have hone : ((c.mutate x).nlink : Int) = x.nlink + linkDelta i c := by
        have hfit := h.1
        unfold linkDelta
        rw [if_pos hi]
        cases hop : c.op with
        | unlink =>
          simp only [FlashOp.keepsLinks, hop, hx, decide_false, Bool.false_or,
            decide_eq_true_eq] at hfit
          simp only [RemoteInodeChange.mutate, hop, dropStoredLink]
          omega
        | link =>
          simp only [FlashOp.keepsLinks, hop, hx, decide_false, Bool.false_or,
            decide_eq_true_eq] at hfit
          simp only [RemoteInodeChange.mutate, hop, addStoredLink]
          omega
        | blocksDelta =>
          simp only [RemoteInodeChange.mutate, hop, addBlocksDelta, add_zero]
          split <;> rfl
        | _ => simp [RemoteInodeChange.mutate, hop]
      rw [hslot] at h
      rw [runSlot_cons, hslot]
      obtain ⟨h1, h2⟩ := ih (by rwa [c.mutate_id]) h.2
      refine ⟨?_, h2⟩
      rw [h1, hone, total_cons]
      omega
    · have hops : opsOn i ((c :: cs).map .apply) = opsOn i (cs.map .apply) := by
        rw [map_cons, opsOn, filter_cons_of_neg (by simp [FlashOp.target, hi])]
        rfl
      rw [hops] at h ⊢
      obtain ⟨h1, h2⟩ := ih hx h
      refine ⟨?_, h2⟩
      rw [h1, total_cons, linkDelta, if_neg hi, zero_add]

/-- An empty slot stays empty. -/
theorem runSlot_empty (cs : List RemoteInodeChange) (hx : x.id = 0) :
    runSlot x (opsOn i (cs.map .apply)) = x := by
  induction cs with
  | nil => rfl
  | cons c cs ih =>
    rw [map_cons, opsOn, filter_cons]
    split
    · rw [runSlot_cons, FlashOp.onSlot, if_pos hx]
      exact ih
    · exact ih

/-- The changes of an inode are applied all, or none is. -/
theorem total_unapplied (i : Nat) (cs : List RemoteInodeChange) (r : Region) :
    total (linkDelta i) (unapplied r cs) =
      if (r i).id = 0 then total (linkDelta i) cs else 0 := by
  induction cs generalizing r with
  | nil => simp [unapplied]
  | cons c cs ih =>
    rw [unapplied]
    by_cases hi : c.inodeId = i
    · by_cases hok : (applyOne r c).2 = true
      · rw [if_pos hok, ih, applyOne_id]
        rcases (applyOne_snd r c).mp hok with hnoop | hne
        · simp [linkDelta, hnoop]
        · rw [hi] at hne
          rw [if_neg hne, if_neg hne]
      · have h0 : (r i).id = 0 := by
          by_contra hne
          exact hok ((applyOne_snd r c).mpr (.inr (by rwa [hi])))
        rw [if_neg hok, total_cons, ih, applyOne_id, if_pos h0, if_pos h0, total_cons]
    · have hzero : linkDelta i c = 0 := if_neg hi
      split
      · rw [ih, applyOne_id, total_cons, hzero, zero_add]
      · rw [total_cons, ih, applyOne_id, total_cons, hzero, zero_add, zero_add]

/-! ### Where the changes are -/

section Places

variable (N i : Nat) (m : Machine)

/-- The links in the records of server `k` that are still to be replayed. -/
def unreplayed (k : Nat) : Int :=
  (((m.cluster.records k).drop (m.disks k).drained).map (recordLink i)).sum

/-- The links that wait at server `k` for the owner of the inode. -/
def waiting (k : Nat) : Int :=
  unreplayed i m k + total (linkDelta i) ((m.disks k).pendingBatches (ownerMetaForInode i)) +
    total (linkDelta i) ((m.disks k).forward (ownerMetaForInode i))

/-- The links that have arrived at the owner and are still to be applied. -/
def arriving : Int :=
  total (linkDelta i) ((m.disks (ownerMetaForInode i)).remoteLog.drop
      (m.disks (ownerMetaForInode i)).remoteDrained) +
    total (linkDelta i) (m.disks (ownerMetaForInode i)).deferred

/-- The links on their way from the other servers. -/
def elsewhere : Int :=
  ∑ k ∈ (Finset.range N).erase (ownerMetaForInode i), waiting i m k + arriving i m

/-- The link count on flash, once the owner has replayed its own log. -/
def storedLinks : Int :=
  linkAll i ((m.cluster.records (ownerMetaForInode i)).drop
      (m.disks (ownerMetaForInode i)).drained)
    ((m.disks (ownerMetaForInode i)).region i).nlink

/-- No link of the inode is on its way from another server. -/
structure NoneElsewhere : Prop where
  records : ∀ k < N, k ≠ ownerMetaForInode i →
    ∀ r ∈ (m.cluster.records k).drop (m.disks k).drained, linksTo i r.request = false
  batches : ∀ k < N, k ≠ ownerMetaForInode i →
    ∀ c ∈ (m.disks k).pendingBatches (ownerMetaForInode i) ++
      (m.disks k).forward (ownerMetaForInode i), linkDelta i c = 0
  arriving : ∀ c ∈ (m.disks (ownerMetaForInode i)).remoteLog.drop
      (m.disks (ownerMetaForInode i)).remoteDrained ++ (m.disks (ownerMetaForInode i)).deferred,
    linkDelta i c = 0

end Places

section Sums

variable {N i : Nat} {m : Machine}

theorem recordLink_of_linksTo {r : Record} (h : linksTo i r.request = false) :
    recordLink i r = 0 := by
  obtain ⟨req, version⟩ := r
  cases req with
  | unlink inodeId p name | link inodeId q name type => simpa [recordLink, linksTo, eq_comm] using h
  | _ => rfl

theorem NoneElsewhere.sum (h : NoneElsewhere N i m) : elsewhere N i m = 0 := by
  have hwait : ∀ k ∈ (Finset.range N).erase (ownerMetaForInode i), waiting i m k = 0 := by
    intro k hk
    obtain ⟨hne, hlt⟩ := Finset.mem_erase.mp hk
    have hlt := Finset.mem_range.mp hlt
    have hbatch := total_eq_zero (h.batches k hlt hne)
    have hrec : unreplayed i m k = 0 := by
      refine sum_eq_zero fun x hx => ?_
      obtain ⟨r, hr, rfl⟩ := List.mem_map.mp hx
      exact recordLink_of_linksTo (h.records k hlt hne r hr)
    rw [total_append] at hbatch
    rw [waiting, hrec]
    omega
  have harr := total_eq_zero h.arriving
  rw [total_append] at harr
  rw [elsewhere, Finset.sum_eq_zero hwait, zero_add]
  exact harr

/-- A sum in which one term changes. -/
theorem sum_change {s : Finset Nat} {f g : Nat → Int} {a : Nat} (ha : a ∈ s)
    (h : ∀ k ∈ s, k ≠ a → g k = f k) : ∑ k ∈ s, g k = ∑ k ∈ s, f k + (g a - f a) := by
  rw [← Finset.add_sum_erase s g ha, ← Finset.add_sum_erase s f ha,
    Finset.sum_congr rfl fun k hk => h k (Finset.mem_of_mem_erase hk) (Finset.ne_of_mem_erase hk)]
  generalize (s.erase a).sum f = rest
  omega

end Sums

/-! ### Runs -/

/-- The servers are those below `N`. -/
def MachineAct.Among (N : Nat) : MachineAct → Prop
  | .call srv _ _ | .cycle srv _ => srv < N
  | .deliver srv t _ => srv < N ∧ t < N

/-- An id is given to a new inode only when no link of the old one is on its way from another
server. -/
def ReuseSettled (N i : Nat) (m : Machine) : MachineAct → Prop
  | .call srv _ (.create ..) | .call srv _ (.mkdir ..) =>
    (m.cluster.servers srv).ids.allocate.1 = i → NoneElsewhere N i m
  | _ => True

/-- The cycles of the owner apply each `Unlink` and `Link` to the inode it was made for, with a
stored count that can go down or up, and the hard limit drops none. -/
def CycleKeepsLinks (i : Nat) (m : Machine) : MachineAct → Prop
  | .cycle srv ch => srv = ownerMetaForInode i →
    recordsKeepLinks i ((m.disks srv).region i)
        (((m.cluster.records srv).drop (m.disks srv).drained).take ch.mainCount) = true ∧
      opsKeepLinks ((m.disks srv).replayRegion srv (m.cluster.records srv) ch i)
        (opsOn i (ch.attempted.map .apply)) = true ∧
      (((m.disks srv).replayRegion srv (m.cluster.records srv) ch i).id ≠ 0 →
        ((m.cluster.records srv).drop ((m.disks srv).drained + ch.mainCount)).any (creates i) =
          true → ∀ c ∈ ch.attempted, linkDelta i c = 0) ∧
      ∀ c ∈ ch.dropped, linkDelta i c = 0
  | _ => True

def MachineAct.FitsAt (i : Nat) (m : Machine) : MachineAct → Prop
  | .call srv _ c => CallFitsAt i m.cluster srv c
  | _ => True

/-- **When link counts converge.** -/
structure LinksKept (N i : Nat) (m : Machine) (a : MachineAct) : Prop where
  among : a.Among N
  fits : a.FitsAt i m
  reuse : ReuseSettled N i m a
  cycle : CycleKeepsLinks i m a

instance (N i : Nat) (m : Machine) : Decidable (NoneElsewhere N i m) :=
  decidable_of_iff (_ ∧ _ ∧ _)
    ⟨fun h => ⟨h.1, h.2.1, h.2.2⟩, fun h => ⟨h.records, h.batches, h.arriving⟩⟩

instance (N : Nat) : (a : MachineAct) → Decidable (a.Among N)
  | .call srv _ _ | .cycle srv _ => inferInstanceAs (Decidable (srv < N))
  | .deliver srv t _ => inferInstanceAs (Decidable (srv < N ∧ t < N))

instance (i : Nat) (m : Machine) : (a : MachineAct) → Decidable (a.FitsAt i m)
  | .call srv _ (.create _ mode uid gid) | .call srv _ (.mkdir _ mode uid gid) =>
    inferInstanceAs (Decidable (mode < 2 ^ 32 ∧ uid < 2 ^ 32 ∧ gid < 2 ^ 32 ∧
      ownerMetaForInode (m.cluster.servers srv).ids.allocate.1 = srv))
  | .call _ _ (.chmod _ mode) => inferInstanceAs (Decidable (mode < 2 ^ 32))
  | .call _ _ (.link _ _) =>
    inferInstanceAs (Decidable (∀ n ∈ m.cluster.inodes i, n.nlink + 1 < 2 ^ 64))
  | .call _ _ (.unlink _) | .call _ _ (.rmdir _) | .call _ _ (.rename _ _) | .cycle _ _
  | .deliver _ _ _ => .isTrue trivial

instance (N i : Nat) (m : Machine) : (a : MachineAct) → Decidable (ReuseSettled N i m a)
  | .call srv _ (.create ..) | .call srv _ (.mkdir ..) =>
    inferInstanceAs (Decidable
      ((m.cluster.servers srv).ids.allocate.1 = i → NoneElsewhere N i m))
  | .call _ _ (.chmod _ _) | .call _ _ (.link _ _) | .call _ _ (.unlink _) | .call _ _ (.rmdir _)
  | .call _ _ (.rename _ _) | .cycle _ _ | .deliver _ _ _ => .isTrue trivial

instance (i : Nat) (m : Machine) : (a : MachineAct) → Decidable (CycleKeepsLinks i m a)
  | .cycle srv ch => by
    unfold CycleKeepsLinks
    infer_instance
  | .call _ _ _ | .deliver _ _ _ => .isTrue trivial

instance (N i : Nat) (m : Machine) (a : MachineAct) : Decidable (LinksKept N i m a) :=
  decidable_of_iff (_ ∧ _ ∧ _ ∧ _)
    ⟨fun h => ⟨h.1, h.2.1, h.2.2.1, h.2.2.2⟩, fun h => ⟨h.among, h.fits, h.reuse, h.cycle⟩⟩

/-- The links on flash and on their way are those in memory. -/
structure LinksInv (N i : Nat) (m : Machine) : Prop where
  main : ∀ k, (m.disks k).drained ≤ (m.cluster.records k).length
  remote : ∀ k, (m.disks k).remoteDrained ≤ (m.disks k).remoteLog.length
  owner : (m.cluster.inodes i).isSome = true → ownerMetaForInode i < N
  fits : LinksFit (m.cluster.inodes i)
  counted : storedLinks i m + elsewhere N i m = memLinks (m.cluster.inodes i)

section Steps

variable {env : Env} {N i : Nat} {m m' : Machine}

theorem LinksInv.start (hi : i ≠ kRootId) (h : (machine env).start m) : LinksInv N i m := by
  obtain ⟨config, unset, limit, rfl⟩ := h
  have hnone : (Cluster.init config unset).inodes i = none := by
    simp [Cluster.init, hi]
  refine ⟨fun _ => Nat.le_refl _, fun _ => Nat.le_refl _, fun hl => ?_, fun n hn => ?_, ?_⟩
  · rw [Machine.init, hnone] at hl
    cases hl
  · rw [Machine.init, hnone] at hn
    cases hn
  · have helse : elsewhere N i (.init config unset limit) = 0 :=
      NoneElsewhere.sum ⟨fun _ _ _ _ h => (not_mem_nil h).elim, fun _ _ _ _ h => (not_mem_nil h).elim,
        forall_mem_nil _⟩
    rw [helse, Machine.init, hnone]
    rfl

theorem linkAll_append (rs rs' : List Record) (v : Int) :
    linkAll i (rs ++ rs') v = linkAll i rs' (linkAll i rs v) := restart_append ..

/-- Records without a new inode move the stored count and the count in memory alike. -/
theorem linkAll_add (h : ∀ r ∈ rs, creates i r = false) (v w : Int) :
    linkAll i rs (v + w) = linkAll i rs v + w := by
  rw [linkAll, restart_of_none h, restart_of_none h]
  omega

theorem LinksInv.call (h : LinksInv N i m) {srv th : Nat} (hrep : Replays srv c m.cluster σ rs)
    (hk : LinksKept N i m (.call srv th c)) : LinksInv N i { m with cluster := σ } := by
  have hfits : CallFitsAt i m.cluster srv c := hk.fits
  have hsrv : srv < N := hk.among
  obtain ⟨hmem, hbound⟩ := memLinks_of_replays hrep hfits h.fits
  have hrec : ∀ k, σ.records k = m.cluster.records k ++ if k = srv then rs else [] := hrep.records
  have hown : σ.records srv = m.cluster.records srv ++ rs := by
    rw [hrec, if_pos rfl]
  have hother : ∀ k, k ≠ srv → σ.records k = m.cluster.records k := fun k hk => by
    rw [hrec, if_neg hk, append_nil]
  -- a record that creates the inode comes from its owner, and then nothing is on its way
  have hcreate : (∃ r ∈ rs, creates i r = true) →
      srv = ownerMetaForInode i ∧ elsewhere N i m = 0 := by
    rintro ⟨r, hr, hc⟩
    have hreq := hrep.requests r hr
    have hreuse := hk.reuse
    obtain ⟨req, version⟩ := r
    cases req with
    | create inodeId p mode uid gid type name =>
      obtain ⟨hid, path, md, isDir, -, hcall⟩ := hreq
      have he : inodeId = i := by simpa [creates, createsId] using hc
      rw [he] at hid
      rcases hcall with rfl | rfl <;>
        exact ⟨by rw [hid]; exact hfits.2.2.2.symm, (hreuse hid.symm).sum⟩
    | _ => cases hc
  refine ⟨fun k => ?_, h.remote, fun hl => ?_, hbound, ?_⟩
  · rw [hrec, length_append]
    exact Nat.le_add_right_of_le (h.main k)
  · obtain ⟨n, hn⟩ := isSome_iff_exists.mp hl
    rcases live_of_replays hrep hn with hold | ⟨rfl, ⟨_, _, _, _, rfl⟩ | ⟨_, _, _, _, rfl⟩⟩
    · exact h.owner hold
    · rw [hfits.2.2.2]
      exact hsrv
    · rw [hfits.2.2.2]
      exact hsrv
  · dsimp only
    rw [hmem, ← h.counted]
    by_cases ht : srv = ownerMetaForInode i
    · -- the owner's own log
      have hstored : storedLinks i { m with cluster := σ } = linkAll i rs (storedLinks i m) := by
        unfold storedLinks
        dsimp only
        rw [← ht, hown, drop_append_of_le_length (h.main srv), linkAll_append]
      have helse : elsewhere N i { m with cluster := σ } = elsewhere N i m := by
        unfold elsewhere
        congr 1
        refine Finset.sum_congr rfl fun k hk => ?_
        unfold waiting unreplayed
        dsimp only
        rw [hother k fun he => Finset.ne_of_mem_erase hk (he.trans ht)]
      rw [hstored, helse]
      by_cases hc : ∃ r ∈ rs, creates i r = true
      · rw [(hcreate hc).2, add_zero, add_zero]
      · rw [linkAll_add fun r hr => eq_false_of_ne_true fun hcr => hc ⟨r, hr, hcr⟩]
    · have hnone : ∀ r ∈ rs, creates i r = false := fun r hr =>
        eq_false_of_ne_true fun hc => ht (hcreate ⟨r, hr, hc⟩).1
      have hstored : storedLinks i { m with cluster := σ } = storedLinks i m := by
        unfold storedLinks
        dsimp only
        rw [hother _ (Ne.symm ht)]
      have helse : elsewhere N i { m with cluster := σ } =
          elsewhere N i m + (rs.map (recordLink i)).sum := by
        unfold elsewhere
        rw [sum_change (f := waiting i m) (a := srv)
          (Finset.mem_erase.mpr ⟨ht, Finset.mem_range.mpr hsrv⟩)]
        · have hwait : waiting i { m with cluster := σ } srv =
              waiting i m srv + (rs.map (recordLink i)).sum := by
            unfold waiting unreplayed
            dsimp only
            rw [hown, drop_append_of_le_length (h.main srv), map_append, List.sum_append]
            omega
          have harr : arriving i { m with cluster := σ } = arriving i m := rfl
          rw [hwait, harr]
          omega
        · intro k _ hne
          unfold waiting unreplayed
          dsimp only
          rw [hother k hne]
      rw [hstored, helse, linkAll, restart_of_none hnone]
      omega

variable {srv : Nat} {ch : Choice} {d : Disk}

/-- A cycle of another server moves the links it replays into its batches, and from there into its
queues. -/
theorem cycle_elsewhere (hsrv : srv < N) (hne : srv ≠ ownerMetaForInode i)
    (hc : Cycled srv (m.cluster.records srv) (m.disks srv) ch d) :
    elsewhere N i (m.checkpoint srv ch d) = elsewhere N i m ∧
      storedLinks i (m.checkpoint srv ch d) = storedLinks i m := by
  have hdisk : ∀ k, k ≠ srv → (m.checkpoint srv ch d).disks k = m.disks k := fun k hk => by
    simp [hk]
  have hbatch : total (linkDelta i) (remoteBatch srv (ownerMetaForInode i)
      ((m.disks srv).replayed srv (m.cluster.records srv) ch)) =
      ((((m.cluster.records srv).drop (m.disks srv).drained).take ch.mainCount).map
        (recordLink i)).sum := by
    rw [remoteBatch, ← filter_flatMap, total_filter, total_flatMap_placed (total_links i), map_snd_replayed]
    intro c _ hf
    unfold linkDelta
    split
    · rename_i he
      simp [he, Ne.symm hne] at hf
    · rfl
  refine ⟨?_, ?_⟩
  · unfold elsewhere
    have hsum : ∑ k ∈ (Finset.range N).erase (ownerMetaForInode i),
        waiting i (m.checkpoint srv ch d) k =
        ∑ k ∈ (Finset.range N).erase (ownerMetaForInode i), waiting i m k := by
      rw [sum_change (f := waiting i m) (a := srv)
        (Finset.mem_erase.mpr ⟨hne, Finset.mem_range.mpr hsrv⟩)]
      · have hwait : waiting i (m.checkpoint srv ch d) srv = waiting i m srv := by
          unfold waiting unreplayed
          simp only [checkpoint_disks, checkpoint_records, Function.update_self]
          have hsplit := congrArg (fun rs => (rs.map (recordLink i)).sum)
            (drop_drained (m.cluster.records srv) (m.disks srv).drained ch.mainCount)
          simp only [map_append, List.sum_append] at hsplit
          cases hc with
          | drained _ _ =>
            simp only [Disk.drain, total_append, hbatch]
            omega
          | synced _ _ =>
            simp only [Disk.flush, Disk.drain, if_neg (Ne.symm hne), total_append, total_nil, hbatch]
            omega
        rw [hwait]
        omega
      · intro k _ hk
        unfold waiting unreplayed
        rw [hdisk k hk, checkpoint_records]
    have harr : arriving i (m.checkpoint srv ch d) = arriving i m := by
      unfold arriving
      rw [hdisk _ (Ne.symm hne)]
    rw [hsum, harr]
  · unfold storedLinks
    rw [hdisk _ (Ne.symm hne), checkpoint_records]

/-- The summed child counts leave link counts alone. -/
theorem Cycled.nlink_slot {records : List Record} {d' : Disk}
    (h : Cycled srv records d ch d') (i : Nat) : (d'.region i).nlink =
      (runSlot (d.replayRegion srv records ch i) (opsOn i (ch.attempted.map .apply))).nlink := by
  have hflush := @sameAttrs_blocksDelta (opsOn i (d.flushOps srv records ch))
    (fun op hop => mem_flushOps (opsOn_mem hop).1)
    (runSlot (d.replayRegion srv records ch i) (opsOn i (ch.attempted.map .apply)))
  rw [h.eq_drain.1, Disk.cycleOps, runOps_append, runOps_append, runOps_slot, runOps_slot]
  exact hflush.nlink

/-- A cycle of the owner applies what has arrived, and keeps what it cannot apply. -/
theorem cycle_owner_elsewhere
    (hc : Cycled (ownerMetaForInode i) (m.cluster.records (ownerMetaForInode i))
      (m.disks (ownerMetaForInode i)) ch d)
    (hk : CycleKeepsLinks i m (.cycle (ownerMetaForInode i) ch)) :
    storedLinks i (m.checkpoint (ownerMetaForInode i) ch d) +
      elsewhere N i (m.checkpoint (ownerMetaForInode i) ch d) = storedLinks i m + elsewhere N i m := by
  obtain ⟨hrecords, hops, hlate, hdropped⟩ := hk rfl
  unfold storedLinks elsewhere arriving
  have hsum : ∑ k ∈ (Finset.range N).erase (ownerMetaForInode i),
      waiting i (m.checkpoint (ownerMetaForInode i) ch d) k =
      ∑ k ∈ (Finset.range N).erase (ownerMetaForInode i), waiting i m k := by
    refine Finset.sum_congr rfl fun k hk => ?_
    have hne := Finset.ne_of_mem_erase hk
    unfold waiting unreplayed
    rw [checkpoint_records]
    simp [hne]
  rw [hsum]
  clear hsum
  generalize ∑ k ∈ (Finset.range N).erase (ownerMetaForInode i), waiting i m k = others
  generalize howner : ownerMetaForInode i = srv at *
  simp only [checkpoint_disks, checkpoint_records, Function.update_self]
  obtain ⟨-, hmain, hremote, hlog, hdef⟩ := hc.eq_drain
  rw [hmain, hremote, hlog, hdef]
  have hreplayed := nlink_storedAll hrecords
  rw [← replayRegion_slot howner] at hreplayed
  have hafter := hc.nlink_slot i
  -- what has arrived is applied, or it is kept
  have hadm := hc.admitted
  have hfail := total_unapplied i ch.attempted
    ((m.disks srv).replayRegion srv (m.cluster.records srv) ch)
  have hintake := hadm.intake (linkDelta_additive i)
  rw [total_eq_zero hdropped] at hintake
  have hsplit := congrArg (total (linkDelta i))
    (drop_drained (m.disks srv).remoteLog (m.disks srv).remoteDrained ch.remoteCount)
  rw [total_append] at hsplit
  have hrest := drop_drained (m.cluster.records srv) (m.disks srv).drained ch.mainCount
  rw [hafter, hrest, linkAll_append, ← hreplayed]
  generalize (m.disks srv).replayRegion srv (m.cluster.records srv) ch = region at *
  by_cases hid : (region i).id = 0
  · -- no change is applied
    rw [if_pos hid] at hfail
    rw [runSlot_empty ch.attempted hid]
    omega
  · rw [if_neg hid] at hfail
    rw [(nlink_runSlot hid hops).1]
    by_cases hcreate : ∃ r ∈ (m.cluster.records srv).drop ((m.disks srv).drained + ch.mainCount),
        creates i r = true
    · have hzero := total_eq_zero (hlate hid (List.any_eq_true.mpr hcreate))
      rw [hzero, add_zero]
      omega
    · rw [linkAll_add fun r hr => eq_false_of_ne_true fun hcr => hcreate ⟨r, hr, hcr⟩]
      omega

/-- A delivery moves changes from a queue to the remote log. -/
theorem deliver_elsewhere {t k : Nat} (hsrv : srv < N) (hne : srv ≠ t)
    (hremote : ∀ j, (m.disks j).remoteDrained ≤ (m.disks j).remoteLog.length) :
    elsewhere N i (m.deliver srv t k) = elsewhere N i m ∧
      storedLinks i (m.deliver srv t k) = storedLinks i m := by
  have hdisk := fun j => deliver_disks (m := m) (k := k) hne j
  refine ⟨?_, ?_⟩
  · by_cases ht : t = ownerMetaForInode i
    · subst ht
      have harr : arriving i (m.deliver srv (ownerMetaForInode i) k) = arriving i m +
          total (linkDelta i) (((m.disks srv).forward (ownerMetaForInode i)).take k) := by
        unfold arriving
        rw [hdisk]
        dsimp only
        rw [if_pos rfl, drop_append_of_le_length (hremote _), total_append]
        omega
      have hwait : waiting i (m.deliver srv (ownerMetaForInode i) k) srv = waiting i m srv -
          total (linkDelta i) (((m.disks srv).forward (ownerMetaForInode i)).take k) := by
        have hsplit := congrArg (total (linkDelta i))
          (take_append_drop k ((m.disks srv).forward (ownerMetaForInode i)))
        rw [total_append] at hsplit
        unfold waiting unreplayed
        rw [hdisk]
        dsimp only
        rw [deliver_cluster, if_pos rfl, Function.update_self]
        omega
      unfold elsewhere
      rw [sum_change (f := waiting i m) (a := srv)
        (Finset.mem_erase.mpr ⟨hne, Finset.mem_range.mpr hsrv⟩), hwait, harr]
      · omega
      · intro j _ hj
        unfold waiting unreplayed
        rw [hdisk, if_neg hj]
        rfl
    · -- changes of other inodes
      have harr : arriving i (m.deliver srv t k) = arriving i m := by
        unfold arriving
        rw [hdisk, if_neg (Ne.symm ht)]
      have hwait : ∀ j, waiting i (m.deliver srv t k) j = waiting i m j := by
        intro j
        unfold waiting unreplayed
        rw [hdisk]
        dsimp only
        by_cases hj : j = srv
        · rw [if_pos hj, Function.update_of_ne (Ne.symm ht), hj]
          rfl
        · rw [if_neg hj]
          rfl
      unfold elsewhere
      rw [harr, Finset.sum_congr rfl fun j _ => hwait j]
  · unfold storedLinks
    rw [hdisk]
    rfl

theorem LinksInv.step {a : MachineAct} (h : LinksInv N i m) (hk : LinksKept N i m a)
    (hst : MachineStep env m a m') : LinksInv N i m' := by
  cases hst with
  | call hd =>
    obtain ⟨rs, hrep⟩ := hd.replays
    exact h.call hrep hk
  | @cycle srv ch d hc =>
    have hd := hc.eq_drain
    refine ⟨fun k => ?_, fun k => ?_, ?_, ?_, ?_⟩
    · by_cases hsrv : k = srv
      · subst hsrv
        simpa [hd.2.1] using hc.admitted.main
      · simpa [hsrv] using h.main k
    · by_cases hsrv : k = srv
      · subst hsrv
        simpa [hd.2.2.1, hd.2.2.2.1] using hc.admitted.remote
      · simpa [hsrv] using h.remote k
    · rw [checkpoint_inodes]
      exact h.owner
    · rw [checkpoint_inodes]
      exact h.fits
    · rw [checkpoint_inodes, ← h.counted]
      by_cases ht : srv = ownerMetaForInode i
      · subst ht
        exact cycle_owner_elsewhere hc hk.cycle
      · obtain ⟨h1, h2⟩ := cycle_elsewhere hk.among ht hc
        rw [h1, h2]
  | @deliver srv t k hne =>
    obtain ⟨h1, h2⟩ := deliver_elsewhere (i := i) (k := k) hk.among.1 hne h.remote
    refine ⟨fun j => ?_, fun j => ?_, h.owner, h.fits, ?_⟩
    · rw [deliver_disks hne]
      exact h.main j
    · rw [deliver_disks hne]
      dsimp only
      split
      · rename_i ht
        rw [ht, length_append]
        exact Nat.le_add_right_of_le (h.remote t)
      · exact h.remote j
    · rw [h1, h2]
      exact h.counted

end Steps

/-- Everything the servers below `N` have logged or sent has been applied. -/
structure Machine.Settled (N : Nat) (m : Machine) : Prop where
  main : ∀ k < N, (m.disks k).drained = (m.cluster.records k).length
  sent : ∀ k < N, ∀ t < N, (m.disks k).pendingBatches t = [] ∧ (m.disks k).forward t = []
  remote : ∀ k < N, (m.disks k).remoteDrained = (m.disks k).remoteLog.length
  deferred : ∀ k < N, (m.disks k).deferred = []

instance (N : Nat) (m : Machine) : Decidable (m.Settled N) :=
  decidable_of_iff (_ ∧ _ ∧ _ ∧ _)
    ⟨fun h => ⟨h.1, h.2.1, h.2.2.1, h.2.2.2⟩, fun h => ⟨h.main, h.sent, h.remote, h.deferred⟩⟩

theorem Machine.Settled.noneElsewhere {N : Nat} {m : Machine} (h : m.Settled N)
    (howner : ownerMetaForInode i < N) : NoneElsewhere N i m := by
  refine ⟨fun k hk _ r hr => ?_, fun k hk _ c hc => ?_, fun c hc => ?_⟩
  · rw [h.main k hk, drop_length] at hr
    cases hr
  · rw [(h.sent k hk _ howner).1, (h.sent k hk _ howner).2] at hc
    cases hc
  · rw [h.remote _ howner, drop_length, h.deferred _ howner] at hc
    cases hc

/-- **Link counts converge**: after calls on any number of servers, one at a time, and whatever the
delays of the changes were, once everything has been applied, the stored link count of a live inode is
the one in memory, if the changes met the inodes they were made for. -/
theorem link_counts_converge {env : Env} {N i : Nat} {m : Machine} (hi : i ≠ kRootId)
    (h : (machine env).Reach (LinksKept N i) m) (hdone : m.Settled N) {n : Inode}
    (hn : m.cluster.inodes i = some n) :
    ((m.disks (ownerMetaForInode i)).region i).nlink = n.nlink := by
  have hinv : LinksInv N i m := h.invariant (fun m => .start hi) fun m a m' _ hinv hok hst =>
    hinv.step hok (.of_step hst)
  have howner := hinv.owner (by rw [hn]; rfl)
  have hcount := hinv.counted
  rw [(hdone.noneElsewhere howner).sum, storedLinks, hdone.main _ howner, drop_length, hn]
    at hcount
  have hcount : (((m.disks (ownerMetaForInode i)).region i).nlink : Int) + 0 = n.nlink := hcount
  omega

def pathAY : Name := [47, 97, 47, 121]
def pathAZ : Name := [47, 97, 47, 122]

/-- The versions of the first records of server 1 under a steady clock. -/
def firstLink : Nat := 4211081217
def secondLink : Nat := 4219469825

/-- A file of server 0 gets a second name on server 1. -/
theorem link_counts_converge_remote :
    ∃ m n, (machine steadyEnv).Reach (LinksKept 2 4) m ∧ m.Settled 2 ∧
      m.cluster.inodes 4 = some n ∧ n.nlink = 2 ∧
      ((m.disks (ownerMetaForInode 4)).region 4).nlink = n.nlink := by
  have hrun : ((machine steadyEnv).runChecked (fun m a => decide (LinksKept 2 4 m a))
      [.call 0 0 (.mkdir pathA 0o755 1 2), .call 0 0 (.create pathAX 0o644 1 2), replayAll 2,
        .call 1 0 (.link pathAX pathAY), .cycle 1 ⟨1, 0, [], 0, [], [], true⟩, .deliver 1 0 2,
        .cycle 0 ⟨0, 2, [[⟨.blocksDelta, 3, 1, firstLink, [(1, 0)]⟩,
          ⟨.link, 4, 0, firstLink, [(1, 0)]⟩]], 1, [], [], true⟩]
      freshMachine).map (fun m =>
        decide (m.Settled 2 ∧ ∃ n ∈ m.cluster.inodes 4, n.nlink = 2)) = some true := by
    decide +kernel
  obtain ⟨m, hreach, hdone, n, hn, hlinks⟩ :=
    System.exists_reach (freshMachine_start steadyEnv) hrun fun _ _ h => h
  exact ⟨m, n, hreach, hdone, hn, hlinks, link_counts_converge (by decide) hreach hdone hn⟩

/-- **An `Unlink` that overtakes its `Link` is lost**: server 1 adds two names and server 0 removes
them, but the cycle of server 0 comes before the links arrive. The stored count goes from one to zero
and stays there, and the links then make it two. -/
theorem unlink_overtakes_link :
    ∃ m n, (machine steadyEnv).Reach (fun m a => a.Among 2 ∧ a.FitsAt 4 m) m ∧ m.Settled 2 ∧
      m.cluster.inodes 4 = some n ∧ n.nlink = 1 ∧
      ((m.disks (ownerMetaForInode 4)).region 4).id = 4 ∧
      ((m.disks (ownerMetaForInode 4)).region 4).nlink = 2 := by
  have hrun : ((machine steadyEnv).runChecked (fun m a => decide (a.Among 2 ∧ a.FitsAt 4 m))
      [.call 0 0 (.mkdir pathA 0o755 1 2), .call 0 0 (.create pathAX 0o644 1 2),
        .call 1 0 (.link pathAX pathAY), .call 1 0 (.link pathAX pathAZ),
        .call 0 0 (.unlink pathAY), .call 0 0 (.unlink pathAZ), replayAll 4,
        .cycle 1 ⟨2, 0, [], 0, [], [], true⟩, .deliver 1 0 4,
        .cycle 0 ⟨0, 4, [[⟨.blocksDelta, 3, 2, secondLink, [(1, 0), (1, 1)]⟩,
          ⟨.link, 4, 0, firstLink, [(1, 0)]⟩, ⟨.link, 4, 0, secondLink, [(1, 1)]⟩]],
          1, [], [], true⟩]
      freshMachine).map (fun m =>
        decide (m.Settled 2 ∧ (∃ n ∈ m.cluster.inodes 4, n.nlink = 1) ∧
          ((m.disks (ownerMetaForInode 4)).region 4).id = 4 ∧
          ((m.disks (ownerMetaForInode 4)).region 4).nlink = 2)) = some true := by
    decide +kernel
  obtain ⟨m, hreach, hdone, ⟨n, hn, hlinks⟩, hstored⟩ :=
    System.exists_reach (freshMachine_start steadyEnv) hrun fun _ _ h => h
  exact ⟨m, n, hreach, hdone, hn, hlinks, hstored⟩

end StaxFS.Persist
