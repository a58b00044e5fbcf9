import StaxFS.Persist.Region

/-!
# One checkpoint cycle on the inode region

`DoCheckpoint` of `server/cxl_persistence.cc` for one server: the replay switch on the records of the
main log, the drain of the remote log with the coalescer, the page buckets with their deadline, the
deferred list with its hard limit, the flush of the summed child counts, and the sync with the hand
over of the remote batches. The rings are kept as the lists of what was appended to them, with the
two positions of the checkpoint in each: up to where it has been drained and up to where it has been
released; how the rings themselves work is modelled in `Wal`.

The replay loop writes to three places that it does not read: the region, the map `blocks_delta` and
the remote batches. Each is given by a function of the records replayed.

A `Choice` holds what a cycle does not decide: how far it gets in both logs (deadline, records
not yet published), the iteration order of the bucket map, the order `std::sort` and
`std::nth_element` leave between equals, the bucket at which the deadline strikes, and whether a sync
is due. `kDeferredHardLimit` is a field of the state, so that statements hold for every limit.

Results:
* `total_coalesce`: the coalescer keeps every total over the changes that adds up when two changes
  are merged.
* `Disk.Admitted.balance`: what a cycle takes in from the remote log and the deferred list is applied,
  deferred or dropped.
-/

namespace StaxFS.Persist

open List

open Wal Metadata

/-! ### The replay switch -/

/-- `GetUid`. -/
def getUid (e : CompactLogEntry) : Nat := e.aux >>> 32 % 2 ^ 32

/-- `GetGid`. -/
def getGid (e : CompactLogEntry) : Nat := e.aux % 2 ^ 32

/-- The inode `ReplayCreateInode` writes. -/
def replayCreateInode (e : CompactLogEntry) : StoredInode :=
  ⟨e.inodeId, 1, e.mode, 0, getUid e, getGid e, versionSeconds e.version⟩

/-- The changes the switch makes or queues for an entry, in its order. `origin` is the place of the
entry in the logs. -/
def inodeChanges (origin : Nat × Nat) (e : CompactLogEntry) : List RemoteInodeChange :=
  match e.op with
  | .noop => []
  | .create => [⟨.blocksDelta, e.parentId, 1, e.version, [origin]⟩]
  | .unlink =>
    [⟨.unlink, e.inodeId, 0, e.version, [origin]⟩,
     ⟨.blocksDelta, e.parentId, -1, e.version, [origin]⟩]
  | .rename =>
    if e.parentId = e.getNewParent then []
    else [⟨.blocksDelta, e.parentId, -1, e.version, [origin]⟩,
      ⟨.blocksDelta, e.getNewParent, 1, e.version, [origin]⟩]
  | .setattr => [⟨.setattr, e.inodeId, e.mode, e.version, [origin]⟩]
  | .link =>
    [⟨.link, e.inodeId, 0, e.version, [origin]⟩,
     ⟨.blocksDelta, e.getNewParent, 1, e.version, [origin]⟩]

/-- The inode a record creates. -/
def createdInode (e : CompactLogEntry) : Option StoredInode :=
  if e.op = .create then some (replayCreateInode e) else none

/-- The log entry of a record. -/
def logEntry (r : Record) : CompactLogEntry := { r.request.entry with version := r.version }

/-- A record with its place in the logs. -/
abbrev Placed := (Nat × Nat) × Record

/-- The changes of a record. -/
def Placed.changes (r : Placed) : List RemoteInodeChange := inodeChanges r.1 (logEntry r.2)

section Changes

variable (origin : Nat × Nat) (version inodeId : Nat)

theorem changes_create (parentId mode uid gid type : Nat) (name : Name) :
    Placed.changes (origin, ⟨.create inodeId parentId mode uid gid type name, version⟩) =
      [⟨.blocksDelta, parentId, 1, version, [origin]⟩] := rfl

theorem changes_unlink (parentId : Nat) (name : Name) :
    Placed.changes (origin, ⟨.unlink inodeId parentId name, version⟩) =
      [⟨.unlink, inodeId, 0, version, [origin]⟩,
        ⟨.blocksDelta, parentId, -1, version, [origin]⟩] := rfl

theorem changes_rename (oldParent newParent type : Nat) (oldName newName : Name) :
    Placed.changes (origin, ⟨.rename inodeId oldParent newParent oldName newName type, version⟩) =
      if oldParent = newParent then [] else [⟨.blocksDelta, oldParent, -1, version, [origin]⟩,
        ⟨.blocksDelta, newParent, 1, version, [origin]⟩] := rfl

theorem changes_setattr (mode : Nat) : Placed.changes (origin, ⟨.setattr inodeId mode, version⟩) =
      [⟨.setattr, inodeId, mode, version, [origin]⟩] := rfl

theorem changes_link (newParent type : Nat) (newName : Name) :
    Placed.changes (origin, ⟨.link inodeId newParent newName type, version⟩) =
      [⟨.link, inodeId, 0, version, [origin]⟩,
        ⟨.blocksDelta, newParent, 1, version, [origin]⟩] := rfl

end Changes

section Switch

variable (srv : Nat)

/-- The changes the switch applies to the region at once. -/
def appliesNow (c : RemoteInodeChange) : Bool :=
  ownerMetaForInode c.inodeId = srv && c.op ≠ .blocksDelta

/-- The calls on the region for one record. -/
def Placed.ops (r : Placed) : List FlashOp :=
  (createdInode (logEntry r.2)).toList.map .write ++
    (r.changes.filter (appliesNow srv)).map .apply

/-- The calls on the region for the records replayed. -/
def replayOps (rs : List Placed) : List FlashOp := rs.flatMap (Placed.ops srv)

/-- The changes handed to `accumulate_blocks`. -/
def ownDeltas (rs : List Placed) : List RemoteInodeChange :=
  rs.flatMap fun r => r.changes.filter fun c =>
    ownerMetaForInode c.inodeId = srv && c.op = .blocksDelta

/-- The changes handed to `queue_remote_change` for server `t`. -/
def remoteBatch (t : Nat) (rs : List Placed) : List RemoteInodeChange :=
  rs.flatMap fun r => r.changes.filter fun c =>
    ownerMetaForInode c.inodeId = t && ownerMetaForInode c.inodeId ≠ srv

end Switch

/-! ### Coalescing -/

/-- `can_coalesce`. -/
def RemoteInodeChangeOp.canCoalesce : RemoteInodeChangeOp → Bool
  | .blocksDelta | .setattr | .touchCtime => true
  | _ => false

/-- What `consume` makes of the entry in the map and one more with its key. -/
def mergeChange (cur e : RemoteInodeChange) : RemoteInodeChange :=
  { cur with
    value := if e.op = .blocksDelta then cur.value + e.value
      else if cur.version < e.version then e.value else cur.value
    version := if cur.version < e.version then e.version else cur.version
    origins := cur.origins ++ e.origins }

/-- The key of the map: an inode and an operation. -/
def RemoteInodeChange.sameKey (c e : RemoteInodeChange) : Bool :=
  c.inodeId == e.inodeId && c.op == e.op

/-- `consume` on the map. -/
def coalesceInto (e : RemoteInodeChange) : List RemoteInodeChange → List RemoteInodeChange
  | [] => [e]
  | cur :: rest => if cur.sameKey e then mergeChange cur e :: rest else cur :: coalesceInto e rest

/-- `consume`: the vector and the map. -/
def consume (acc : List RemoteInodeChange × List RemoteInodeChange) (e : RemoteInodeChange) :
    List RemoteInodeChange × List RemoteInodeChange :=
  if e.op.canCoalesce then (acc.1, coalesceInto e acc.2) else (acc.1 ++ [e], acc.2)

/-- `remote_entries`: what `consume` collects. -/
def coalesce (es : List RemoteInodeChange) : List RemoteInodeChange :=
  let acc := es.foldl consume ([], [])
  acc.1 ++ acc.2

/-- `blocks_delta`: the changes of the cycle summed by inode. -/
def blocksDelta (cs : List RemoteInodeChange) : List RemoteInodeChange :=
  cs.foldl (fun m c => coalesceInto c m) []

/-- The total of a weight over changes. -/
def total (w : RemoteInodeChange → Int) (cs : List RemoteInodeChange) : Int := (cs.map w).sum

/-- A weight that adds up when two changes are merged. -/
def Additive (w : RemoteInodeChange → Int) : Prop :=
  ∀ cur e, cur.sameKey e = true → e.op.canCoalesce = true →
    w (mergeChange cur e) = w cur + w e

section Totals

variable {w : RemoteInodeChange → Int}

@[simp] theorem total_nil : total w [] = 0 := rfl

@[simp] theorem total_cons (c : RemoteInodeChange) (cs : List RemoteInodeChange) :
    total w (c :: cs) = w c + total w cs := by
  simp [total]

@[simp] theorem total_append (cs cs' : List RemoteInodeChange) :
    total w (cs ++ cs') = total w cs + total w cs' := by
  simp [total]

variable {cs : List RemoteInodeChange}

theorem total_perm {cs' : List RemoteInodeChange} (h : cs.Perm cs') :
    total w cs = total w cs' := (h.map w).sum_eq

theorem total_eq_zero (h : ∀ c ∈ cs, w c = 0) : total w cs = 0 := by
  induction cs with
  | nil => rfl
  | cons c cs ih =>
    rw [total_cons, h c mem_cons_self, ih fun e he => h e (mem_cons_of_mem _ he), add_zero]

/-- What weighs nothing can be left out. -/
theorem sum_map_filter {α : Type} {w : α → Int} {cs : List α} (p : α → Bool)
    (h : ∀ c ∈ cs, p c = false → w c = 0) : ((cs.filter p).map w).sum = (cs.map w).sum := by
  induction cs with
  | nil => rfl
  | cons c cs ih =>
    have ih := ih fun e he => h e (mem_cons_of_mem _ he)
    rw [map_cons, sum_cons]
    by_cases hp : p c = true
    · rw [filter_cons_of_pos hp, map_cons, sum_cons, ih]
    · rw [filter_cons_of_neg hp, ih, h c mem_cons_self (eq_false_of_ne_true hp), zero_add]

theorem total_filter (p : RemoteInodeChange → Bool)
    (h : ∀ c ∈ cs, p c = false → w c = 0) : total w (cs.filter p) = total w cs :=
  sum_map_filter p h

/-- A total over the changes of records, record by record. -/
theorem total_flatMap_placed {f : Record → Int} (h : ∀ p : Placed, total w p.changes = f p.2)
    (ps : List Placed) : total w (ps.flatMap Placed.changes) = ((ps.map Prod.snd).map f).sum := by
  induction ps with
  | nil => rfl
  | cons p ps ih =>
    rw [flatMap_cons, total_append, h, ih, map_cons, map_cons, sum_cons]

theorem total_coalesceInto (hw : Additive w) (e : RemoteInodeChange)
    (he : e.op.canCoalesce = true) (m : List RemoteInodeChange) :
    total w (coalesceInto e m) = total w m + w e := by
  induction m with
  | nil => simp [coalesceInto]
  | cons cur rest ih =>
    rw [coalesceInto]
    split
    · rename_i hkey
      rw [total_cons, total_cons, hw cur e hkey he]
      omega
    · rw [total_cons, total_cons, ih]
      omega

/-- **The coalescer keeps a total.** -/
theorem total_coalesce (hw : Additive w) (es : List RemoteInodeChange) :
    total w (coalesce es) = total w es := by
  -- over the vector and the map collected so far
  have hfold : ∀ (es : List RemoteInodeChange) acc,
      total w ((es.foldl consume acc).1 ++ (es.foldl consume acc).2) =
        total w (acc.1 ++ acc.2) + total w es := by
    intro es
    induction es with
    | nil => simp
    | cons e es ih =>
      intro acc
      rw [foldl_cons, ih, total_cons]
      unfold consume
      split
      · rename_i he
        simp only [total_append, total_coalesceInto hw e he]
        omega
      · simp only [total_append, total_cons, total_nil]
        omega
  simpa [coalesce] using hfold es ([], [])

theorem total_blocksDelta (hw : Additive w)
    (h : ∀ c ∈ cs, c.op = .blocksDelta) : total w (blocksDelta cs) = total w cs := by
  have hfold : ∀ (cs m : List RemoteInodeChange), (∀ c ∈ cs, c.op = .blocksDelta) →
      total w (cs.foldl (fun m c => coalesceInto c m) m) = total w m + total w cs := by
    intro cs
    induction cs with
    | nil => simp
    | cons c cs ih =>
      intro m h
      rw [foldl_cons, ih _ fun e he => h e (mem_cons_of_mem _ he),
        total_coalesceInto hw c (by rw [h c mem_cons_self]; rfl), total_cons]
      omega
  simpa [blocksDelta] using hfold cs [] h

end Totals

/-! What the coalescer makes of single changes. -/

/-- Two changes agree but for the records they stand for. -/
structure RemoteInodeChange.Same (c e : RemoteInodeChange) : Prop where
  op : c.op = e.op
  inodeId : c.inodeId = e.inodeId
  value : c.value = e.value
  version : c.version = e.version

theorem RemoteInodeChange.Same.refl (c : RemoteInodeChange) : c.Same c := ⟨rfl, rfl, rfl, rfl⟩

variable {c e : RemoteInodeChange} {m : List RemoteInodeChange} {a b : RemoteInodeChange}

theorem RemoteInodeChange.Same.trans (h : a.Same b) (h' : b.Same c) : a.Same c :=
  ⟨h.op.trans h'.op, h.inodeId.trans h'.inodeId, h.value.trans h'.value,
    h.version.trans h'.version⟩

/-- A change of the same inode and operation with no lower version. -/
structure RemoteInodeChange.Over (c e : RemoteInodeChange) : Prop where
  op : e.op = c.op
  inodeId : e.inodeId = c.inodeId
  version : c.version ≤ e.version

theorem RemoteInodeChange.Over.refl (c : RemoteInodeChange) : c.Over c :=
  ⟨rfl, rfl, Nat.le_refl _⟩

theorem RemoteInodeChange.Over.trans (h : a.Over b) (h' : b.Over c) : a.Over c :=
  ⟨h'.op.trans h.op, h'.inodeId.trans h.inodeId, h.version.trans h'.version⟩

theorem RemoteInodeChange.sameKey_iff :
    c.sameKey e = true ↔ c.inodeId = e.inodeId ∧ c.op = e.op := by
  simp [RemoteInodeChange.sameKey]

/-- Of two changes that are not sums the later one is kept. -/
theorem mergeChange_same {cur : RemoteInodeChange} (hkey : cur.sameKey e = true)
    (hop : e.op ≠ .blocksDelta) : cur.Same (mergeChange cur e) ∨ e.Same (mergeChange cur e) := by
  obtain ⟨hi, ho⟩ := RemoteInodeChange.sameKey_iff.mp hkey
  by_cases hv : cur.version < e.version
  · exact .inr ⟨by simp [mergeChange, ho], by simp [mergeChange, hi],
      by simp [mergeChange, hop, hv], by simp [mergeChange, hv]⟩
  · exact .inl ⟨by simp [mergeChange], by simp [mergeChange],
      by simp [mergeChange, hop, hv], by simp [mergeChange, hv]⟩

section Coalesced

variable {P : RemoteInodeChange → Prop} {R : RemoteInodeChange → RemoteInodeChange → Prop}
  {es : List RemoteInodeChange}

theorem coalesceInto_forall (hmerge : ∀ cur, cur.sameKey e = true → P cur → P (mergeChange cur e))
    (he : P e) (hm : ∀ c ∈ m, P c) : ∀ c ∈ coalesceInto e m, P c := by
  induction m with
  | nil => simpa [coalesceInto] using he
  | cons cur rest ih =>
    obtain ⟨hcur, hrest⟩ := forall_mem_cons.mp hm
    rw [coalesceInto]
    split
    · exact forall_mem_cons.mpr ⟨hmerge cur ‹_› hcur, hrest⟩
    · exact forall_mem_cons.mpr ⟨hcur, ih hrest⟩

/-- **What merging keeps, the coalescer keeps.** -/
theorem coalesce_forall (hmerge : ∀ cur e, cur.sameKey e = true → e.op.canCoalesce = true →
      P cur → P e → P (mergeChange cur e)) (h : ∀ c ∈ es, P c) : ∀ c ∈ coalesce es, P c := by
  -- over the vector and the map collected so far
  have hfold : ∀ (es : List RemoteInodeChange) acc, (∀ c ∈ es, P c) →
      (∀ c ∈ acc.1, P c) ∧ (∀ c ∈ acc.2, P c) →
      (∀ c ∈ (es.foldl consume acc).1, P c) ∧ ∀ c ∈ (es.foldl consume acc).2, P c := by
    intro es
    induction es with
    | nil => exact fun _ _ h => h
    | cons e es ih =>
      intro acc hes hacc
      obtain ⟨he, hes⟩ := forall_mem_cons.mp hes
      refine ih (consume acc e) hes ?_
      unfold consume
      split
      · rename_i hop
        exact ⟨hacc.1, coalesceInto_forall (fun cur hkey hcur => hmerge cur e hkey hop hcur he) he
          hacc.2⟩
      · exact ⟨forall_mem_append.mpr ⟨hacc.1, by simpa using he⟩, hacc.2⟩
  exact forall_mem_append.mpr (hfold es ([], []) h (by simp))

/-- The same for the sums. -/
theorem blocksDelta_forall
    (hmerge : ∀ cur e, cur.sameKey e = true → P cur → P e → P (mergeChange cur e))
    (h : ∀ c ∈ es, P c) : ∀ c ∈ blocksDelta es, P c := by
  have hfold : ∀ (es m : List RemoteInodeChange), (∀ c ∈ es, P c) → (∀ c ∈ m, P c) →
      ∀ c ∈ es.foldl (fun m c => coalesceInto c m) m, P c := by
    intro es
    induction es with
    | nil => exact fun _ _ h => h
    | cons e es ih =>
      intro m hes hm
      obtain ⟨he, hes⟩ := forall_mem_cons.mp hes
      exact ih _ hes (coalesceInto_forall (fun cur hkey hcur => hmerge cur e hkey hcur he) he hm)
  exact hfold es [] h (by simp)

/-- A relation of changes to what they are merged into. -/
theorem coalesceInto_exists (hrefl : ∀ c, R c c)
    (hmerge : ∀ cur e, cur.sameKey e = true → R cur (mergeChange cur e) ∧ R e (mergeChange cur e))
    (h : c ∈ e :: m) : ∃ b ∈ coalesceInto e m, R c b := by
  induction m with
  | nil => exact ⟨c, by simpa [coalesceInto] using h, hrefl c⟩
  | cons cur rest ih =>
    rw [coalesceInto]
    split
    · obtain ⟨hcur, hnew⟩ := hmerge cur e ‹_›
      rcases mem_cons.mp h with rfl | h
      · exact ⟨_, mem_cons_self, hnew⟩
      · rcases mem_cons.mp h with rfl | h
        · exact ⟨_, mem_cons_self, hcur⟩
        · exact ⟨c, mem_cons_of_mem _ h, hrefl c⟩
    · rcases mem_cons.mp h with rfl | h
      · obtain ⟨b, hb, hr⟩ := ih mem_cons_self
        exact ⟨b, mem_cons_of_mem _ hb, hr⟩
      · rcases mem_cons.mp h with rfl | h
        · exact ⟨c, mem_cons_self, hrefl c⟩
        · obtain ⟨b, hb, hr⟩ := ih (mem_cons_of_mem _ h)
          exact ⟨b, mem_cons_of_mem _ hb, hr⟩

/-- **Every change is in one that the coalescer returns.** -/
theorem coalesce_exists (hrefl : ∀ c, R c c) (htrans : ∀ a b c, R a b → R b c → R a c)
    (hmerge : ∀ cur e, cur.sameKey e = true → R cur (mergeChange cur e) ∧ R e (mergeChange cur e))
    (h : c ∈ es) : ∃ b ∈ coalesce es, R c b := by
  have hfold : ∀ (es : List RemoteInodeChange) acc c, c ∈ acc.1 ++ acc.2 ++ es →
      ∃ b ∈ (es.foldl consume acc).1 ++ (es.foldl consume acc).2, R c b := by
    intro es
    induction es with
    | nil => exact fun acc c hc => ⟨c, by simpa using hc, hrefl c⟩
    | cons e es ih =>
      intro acc c hc
      simp only [mem_append, mem_cons] at hc
      -- one call of `consume`
      obtain ⟨b, hb, hcb⟩ : ∃ b ∈ (consume acc e).1 ++ (consume acc e).2 ++ es, R c b := by
        unfold consume
        split
        · have hinto : ∀ c ∈ e :: acc.2, ∃ b ∈ acc.1 ++ coalesceInto e acc.2 ++ es, R c b := by
            intro c hc
            obtain ⟨b, hb, hr⟩ := coalesceInto_exists hrefl hmerge hc
            exact ⟨b, by simp [hb], hr⟩
          rcases hc with (hc | hc) | rfl | hc
          · exact ⟨c, by simp [hc], hrefl c⟩
          · exact hinto c (mem_cons_of_mem _ hc)
          · exact hinto c mem_cons_self
          · exact ⟨c, by simp [hc], hrefl c⟩
        · refine ⟨c, ?_, hrefl c⟩
          simp only [mem_append, mem_singleton]
          tauto
      obtain ⟨b', hb', hr⟩ := ih _ b hb
      exact ⟨b', hb', htrans _ _ _ hcb hr⟩
  exact hfold es ([], []) c (by simpa using h)

/-- A coalesced entry has the key of a change. -/
theorem coalesce_key (h : c ∈ coalesce es) : ∃ b ∈ es, c.op = b.op ∧ c.inodeId = b.inodeId :=
  coalesce_forall (P := fun c => ∃ b ∈ es, c.op = b.op ∧ c.inodeId = b.inodeId)
    (fun _ _ _ _ hcur _ => hcur) (fun c hc => ⟨c, hc, rfl, rfl⟩) c h

/-- The summed changes are for the inodes of the changes. -/
theorem blocksDelta_key (h : c ∈ blocksDelta es) : ∃ b ∈ es, c.op = b.op ∧ c.inodeId = b.inodeId :=
  blocksDelta_forall (P := fun c => ∃ b ∈ es, c.op = b.op ∧ c.inodeId = b.inodeId)
    (fun _ _ _ hcur _ => hcur) (fun c hc => ⟨c, hc, rfl, rfl⟩) c h

/-- Every change is represented by one of no lower version. -/
theorem coalesce_over (h : c ∈ es) : ∃ b ∈ coalesce es, c.Over b := by
  refine coalesce_exists .refl (fun _ _ _ => .trans) (fun cur e hkey => ?_) h
  obtain ⟨hi, ho⟩ := RemoteInodeChange.sameKey_iff.mp hkey
  have hver : cur.version ≤ (mergeChange cur e).version ∧
      e.version ≤ (mergeChange cur e).version := by
    simp only [mergeChange]
    split <;> omega
  exact ⟨⟨rfl, rfl, hver.1⟩, ho, hi, hver.2⟩

/-- What is not a sum is one of the changes. -/
theorem coalesce_source (h : c ∈ coalesce es) (hop : c.op ≠ .blocksDelta) : ∃ b ∈ es, b.Same c := by
  refine coalesce_forall (P := fun c => c.op ≠ .blocksDelta → ∃ b ∈ es, b.Same c)
    (fun cur e hkey _ hcur he hop => ?_) (fun c hc _ => ⟨c, hc, .refl c⟩) c h hop
  have hop' : e.op ≠ .blocksDelta := (RemoteInodeChange.sameKey_iff.mp hkey).2 ▸ hop
  rcases mergeChange_same hkey hop' with hs | hs
  · obtain ⟨b, hb, hb'⟩ := hcur hop
    exact ⟨b, hb, hb'.trans hs⟩
  · obtain ⟨b, hb, hb'⟩ := he hop'
    exact ⟨b, hb, hb'.trans hs⟩

end Coalesced

/-! ### Applying the remote entries -/

/-- The order in which a bucket is sorted. -/
def bucketLe (a b : RemoteInodeChange) : Bool :=
  a.inodeId < b.inodeId || (a.inodeId == b.inodeId && a.version ≤ b.version)

/-- The entries in page buckets: every bucket is one page, sorted; no page has two. -/
def bucketsOf (entries : List RemoteInodeChange) (buckets : List (List RemoteInodeChange)) : Bool :=
  buckets.flatten.isPerm entries &&
    buckets.all (fun b => b ≠ [] && b.all (fun c => b.all fun e =>
      pageOffsetFor c.inodeId = pageOffsetFor e.inodeId)) &&
    decide (buckets.Pairwise fun b b' => ∀ c ∈ b, ∀ e ∈ b',
      pageOffsetFor c.inodeId ≠ pageOffsetFor e.inodeId) &&
    buckets.all fun b => decide (b.Pairwise fun c e => bucketLe c e = true)

/-- The entries that `apply_one` cannot apply. -/
def unapplied : Region → List RemoteInodeChange → List RemoteInodeChange
  | _, [] => []
  | r, c :: cs =>
    if (applyOne r c).2 then unapplied (applyOne r c).1 cs else c :: unapplied (applyOne r c).1 cs

/-- The hard limit on the deferred list: `std::nth_element` puts the entries of the lowest versions
in front, and they are dropped. -/
def trims (limit : Nat) (deferred dropped kept : List RemoteInodeChange) : Bool :=
  if deferred.length ≤ limit then dropped = [] && kept = deferred
  else kept.length = limit && (dropped ++ kept).isPerm deferred &&
    dropped.all fun d => kept.all fun k => d.version ≤ k.version

/-! ### The state of a server and a cycle -/

/-- The persistent side of a server. -/
structure Disk where
  /-- the inode region, as reads through the page cache see it -/
  region : Region
  /-- the records of the main log behind `pending_main_pos_` and behind `checkpoint_pos_` -/
  drained : Nat
  released : Nat
  /-- everything appended to the remote log -/
  remoteLog : List RemoteInodeChange
  /-- its entries behind `pending_remote_pos_` and behind `checkpoint_pos_` -/
  remoteDrained : Nat
  remoteReleased : Nat
  /-- `deferred_remote_ops_` -/
  deferred : List RemoteInodeChange
  /-- `kDeferredHardLimit` -/
  hardLimit : Nat
  /-- `pending_remote_batches_`, by target -/
  pendingBatches : Nat → List RemoteInodeChange
  /-- `pending_forward_`, by target -/
  forward : Nat → List RemoteInodeChange

/-- A server whose logs are empty. -/
def Disk.init (region : Region) (hardLimit : Nat) : Disk where
  region := region
  drained := 0
  released := 0
  remoteLog := []
  remoteDrained := 0
  remoteReleased := 0
  deferred := []
  hardLimit := hardLimit
  pendingBatches _ := []
  forward _ := []

/-- What a cycle does not decide. -/
structure Choice where
  /-- records replayed and remote entries drained -/
  mainCount : Nat
  remoteCount : Nat
  buckets : List (List RemoteInodeChange)
  /-- the buckets processed before the deadline -/
  cut : Nat
  dropped : List RemoteInodeChange
  kept : List RemoteInodeChange
  sync : Bool

/-- The records of a log with their places. -/
def placed (srv : Nat) (records : List Record) : List Placed :=
  records.mapIdx fun k r => ((srv, k), r)

section Cycle

variable (srv : Nat) (records : List Record) (d : Disk) (ch : Choice)

/-- The records a cycle replays. -/
def Disk.replayed : List Placed := ((placed srv records).drop d.drained).take ch.mainCount

/-- `remote_entries`: the deferred entries first, then those of the remote log. -/
def Disk.remoteEntries : List RemoteInodeChange :=
  coalesce (d.deferred ++ (d.remoteLog.drop d.remoteDrained).take ch.remoteCount)

/-- The entries `apply_one` is called for. -/
def Choice.attempted : List RemoteInodeChange := (ch.buckets.take ch.cut).flatten

/-- The region after the replay of the main log. -/
def Disk.replayRegion : Region := runOps d.region (replayOps srv (d.replayed srv records ch))

/-- The deferred list before the hard limit. -/
def Disk.nextDeferred : List RemoteInodeChange :=
  unapplied (d.replayRegion srv records ch) ch.attempted ++ (ch.buckets.drop ch.cut).flatten

/-- The summed child counts. -/
def Disk.blocksDelta : List RemoteInodeChange :=
  Persist.blocksDelta (ownDeltas srv (d.replayed srv records ch))

/-- All calls of a cycle on the region: replay, remote entries, summed child counts. A sum of zero
makes no call. -/
def Disk.cycleOps : List FlashOp :=
  replayOps srv (d.replayed srv records ch) ++ ch.attempted.map .apply ++
    ((d.blocksDelta srv records ch).filter (·.value ≠ 0)).map .apply

/-- The choices that are possible. `drained_unflushed` must be positive for a sync; a bucket is
finished before the deadline is looked at. -/
def Disk.admits : Bool :=
  d.drained + ch.mainCount ≤ records.length &&
    d.remoteDrained + ch.remoteCount ≤ d.remoteLog.length &&
    bucketsOf (d.remoteEntries ch) ch.buckets &&
    (ch.buckets = [] || 0 < ch.cut) &&
    trims d.hardLimit (d.nextDeferred srv records ch) ch.dropped ch.kept &&
    (!ch.sync || (d.released < d.drained + ch.mainCount ||
      d.remoteReleased < d.remoteDrained + ch.remoteCount))

/-- The state after replay, drain and flush. -/
def Disk.drain : Disk :=
  { d with
    region := runOps d.region (d.cycleOps srv records ch)
    drained := d.drained + ch.mainCount
    remoteDrained := d.remoteDrained + ch.remoteCount
    deferred := ch.kept
    pendingBatches := fun t =>
      d.pendingBatches t ++ remoteBatch srv t (d.replayed srv records ch) }

/-- The sync: the batches are handed over, both logs are released. -/
def Disk.flush : Disk :=
  { d with
    forward := fun t => if t = srv then d.forward t else d.forward t ++ d.pendingBatches t
    released := d.drained
    remoteReleased := d.remoteDrained
    pendingBatches := fun _ => [] }

/-- `DoCheckpoint`, when there is work to do. -/
def Disk.doCheckpoint : Option Disk :=
  if d.admits srv records ch then
    if ch.sync then some ((d.drain srv records ch).flush srv) else some (d.drain srv records ch)
  else none

end Cycle

/-! ### What a cycle does -/

/-- What is known of a possible choice. -/
structure Disk.Admitted (srv : Nat) (records : List Record) (d : Disk) (ch : Choice) : Prop where
  main : d.drained + ch.mainCount ≤ records.length
  remote : d.remoteDrained + ch.remoteCount ≤ d.remoteLog.length
  buckets : ch.buckets.flatten.Perm (d.remoteEntries ch)
  trimmed : (ch.dropped ++ ch.kept).Perm (d.nextDeferred srv records ch)

/-- The rules of a cycle. -/
inductive Cycled (srv : Nat) (records : List Record) (d : Disk) (ch : Choice) : Disk → Prop
  | drained : d.Admitted srv records ch → ch.sync = false →
      Cycled srv records d ch (d.drain srv records ch)
  | synced : d.Admitted srv records ch → ch.sync = true →
      Cycled srv records d ch ((d.drain srv records ch).flush srv)

theorem trims_perm {limit : Nat} {deferred dropped kept : List RemoteInodeChange}
    (h : trims limit deferred dropped kept = true) : (dropped ++ kept).Perm deferred := by
  unfold trims at h
  split at h
  · simp only [Bool.and_eq_true, decide_eq_true_eq] at h
    rw [h.1, h.2, nil_append]
  · simp only [Bool.and_eq_true] at h
    exact isPerm_iff.mp h.1.2

theorem Cycled.of_doCheckpoint {srv : Nat} {records : List Record} {d d' : Disk} {ch : Choice}
    (h : d.doCheckpoint srv records ch = some d') : Cycled srv records d ch d' := by
  unfold Disk.doCheckpoint at h
  split at h
  · rename_i hadm
    simp only [Disk.admits, bucketsOf, Bool.and_eq_true, decide_eq_true_eq] at hadm
    obtain ⟨⟨⟨⟨⟨hmain, hremote⟩, hbuckets⟩, -⟩, htrim⟩, -⟩ := hadm
    have hadm : d.Admitted srv records ch :=
      ⟨hmain, hremote, isPerm_iff.mp hbuckets.1.1.1, trims_perm htrim⟩
    split at h
    · cases h
      exact .synced hadm ‹_›
    · cases h
      exact .drained hadm (eq_false_of_ne_true ‹_›)
  · cases h

section Facts

variable {srv : Nat} {records : List Record} {d d' : Disk} {ch : Choice}

theorem Cycled.admitted (h : Cycled srv records d ch d') : d.Admitted srv records ch := by
  cases h with
  | drained h _ | synced h _ => exact h

/-- What a sync leaves as it is. -/
theorem Cycled.eq_drain (h : Cycled srv records d ch d') :
    d'.region = runOps d.region (d.cycleOps srv records ch) ∧
    d'.drained = d.drained + ch.mainCount ∧ d'.remoteDrained = d.remoteDrained + ch.remoteCount ∧
    d'.remoteLog = d.remoteLog ∧ d'.deferred = ch.kept := by
  cases h <;> exact ⟨rfl, rfl, rfl, rfl, rfl⟩

theorem attempted_append (ch : Choice) :
    ch.attempted ++ (ch.buckets.drop ch.cut).flatten = ch.buckets.flatten := by
  rw [Choice.attempted, ← flatten_append, take_append_drop]

theorem applyOne_snd (r : Region) (c : RemoteInodeChange) :
    (applyOne r c).2 = true ↔ c.op = .noop ∨ (r c.inodeId).id ≠ 0 := by
  unfold applyOne mutateInode
  split
  · simp [*]
  · split <;> simp [*]

theorem applyOne_id (r : Region) (c : RemoteInodeChange) (i : Nat) :
    ((applyOne r c).1 i).id = (r i).id := by
  rw [applyOne_fst]
  split
  · rw [FlashOp.onSlot]
    split
    · rfl
    · exact c.mutate_id _
  · rfl

variable {c : RemoteInodeChange}

/-- Deferred are the changes of inodes that are not in their slots. -/
theorem unapplied_mem {cs : List RemoteInodeChange} {r : Region}
    (h : c ∈ unapplied r cs) : c ∈ cs ∧ (r c.inodeId).id = 0 := by
  induction cs generalizing r with
  | nil => cases h
  | cons e cs ih =>
    have hrest : c ∈ unapplied (applyOne r e).1 cs → c ∈ e :: cs ∧ (r c.inodeId).id = 0 := by
      intro h
      obtain ⟨hm, h0⟩ := ih h
      exact ⟨mem_cons_of_mem _ hm, by rwa [applyOne_id] at h0⟩
    rw [unapplied] at h
    split at h
    · exact hrest h
    · rename_i hfail
      rcases mem_cons.mp h with rfl | h
      · refine ⟨mem_cons_self, ?_⟩
        by_contra hne
        exact hfail ((applyOne_snd r c).mpr (.inr hne))
      · exact hrest h

theorem mem_replayOps {rs : List Placed} {op : FlashOp} (h : op ∈ replayOps srv rs) :
    (∃ r ∈ rs, ∃ n, createdInode (logEntry r.2) = some n ∧ op = .write n) ∨
    ∃ r ∈ rs, ∃ c ∈ r.changes, appliesNow srv c = true ∧ op = .apply c := by
  obtain ⟨r, hr, hop⟩ := mem_flatMap.mp h
  rcases mem_append.mp hop with hop | hop
  · obtain ⟨n, hn, rfl⟩ := List.mem_map.mp hop
    exact .inl ⟨r, hr, n, Option.mem_toList.mp hn, rfl⟩
  · obtain ⟨c, hc, rfl⟩ := List.mem_map.mp hop
    obtain ⟨hc, hnow⟩ := mem_filter.mp hc
    exact .inr ⟨r, hr, c, hc, hnow, rfl⟩

theorem snd_mem_of_mem_placed {r : Placed} (h : r ∈ placed srv records) : r.2 ∈ records := by
  obtain ⟨k, hk, rfl⟩ := mem_mapIdx.mp h
  exact getElem_mem hk

theorem mem_of_mem_replayed {r : Placed} (h : r ∈ d.replayed srv records ch) : r.2 ∈ records :=
  snd_mem_of_mem_placed (mem_of_mem_drop (mem_of_mem_take h))

theorem length_placed (srv : Nat) (records : List Record) :
    (placed srv records).length = records.length := length_mapIdx

/-- The records replayed are the next ones. -/
theorem take_placed_replayed : (placed srv records).take (d.drained + ch.mainCount) =
      (placed srv records).take d.drained ++ d.replayed srv records ch := take_add

/-- A record at the end of the log changes nothing before it. -/
theorem take_placed_concat {k : Nat} (hk : k ≤ records.length) (r : Record) :
    (placed srv (records ++ [r])).take k = (placed srv records).take k := by
  rw [placed, mapIdx_append, take_append_of_le_length]
  · rfl
  · rwa [length_mapIdx]

section

variable (h : d.Admitted srv records ch)

include h

/-- What a cycle attempts or defers are the remote entries. -/
theorem Disk.Admitted.mem_remoteEntries
    (hc : c ∈ ch.attempted ++ ch.kept) : c ∈ d.remoteEntries ch := by
  refine h.buckets.mem_iff.mp ?_
  rw [← attempted_append ch, mem_append]
  rcases mem_append.mp hc with hc | hc
  · exact .inl hc
  · have hnext := h.trimmed.mem_iff.mp (mem_append_right _ hc)
    rcases mem_append.mp hnext with hc | hc
    · exact .inl (unapplied_mem hc).1
    · exact .inr hc

/-- A remote entry is attempted, or deferred, or dropped. -/
theorem Disk.Admitted.of_mem_remoteEntries
    (hc : c ∈ d.remoteEntries ch) : c ∈ ch.attempted ∨ c ∈ ch.dropped ++ ch.kept := by
  rw [← h.buckets.mem_iff, ← attempted_append ch, mem_append] at hc
  exact hc.imp_right fun hc => h.trimmed.mem_iff.mpr (mem_append_right _ hc)

variable {w : RemoteInodeChange → Int}

/-- What a cycle takes from the deferred list and the remote log is attempted, kept or dropped; what
it attempts and cannot apply is kept or dropped as well. -/
theorem Disk.Admitted.intake (hw : Additive w) :
    total w ch.attempted + total w ch.kept + total w ch.dropped =
      total w d.deferred + total w ((d.remoteLog.drop d.remoteDrained).take ch.remoteCount) +
        total w (unapplied (d.replayRegion srv records ch) ch.attempted) := by
  have hentries : total w ch.attempted + total w (ch.buckets.drop ch.cut).flatten =
      total w d.deferred + total w ((d.remoteLog.drop d.remoteDrained).take ch.remoteCount) := by
    rw [← total_append, attempted_append, total_perm h.buckets, Disk.remoteEntries,
      total_coalesce hw, total_append]
  have htrim := total_perm (w := w) h.trimmed
  rw [total_append, Disk.nextDeferred, total_append] at htrim
  omega

/-- **Nothing is lost in a cycle**: what it takes from the deferred list and the remote log is
applied, deferred or dropped. -/
theorem Disk.Admitted.balance (hw : Additive w)
    (hhit : ∀ c, w c ≠ 0 → (d.replayRegion srv records ch c.inodeId).id ≠ 0) :
    total w ch.attempted + total w ch.kept + total w ch.dropped =
      total w d.deferred + total w ((d.remoteLog.drop d.remoteDrained).take ch.remoteCount) := by
  have hfail : total w (unapplied (d.replayRegion srv records ch) ch.attempted) = 0 := by
    refine total_eq_zero fun c hc => ?_
    by_contra hne
    exact hhit c hne (unapplied_mem hc).2
  rw [h.intake hw, hfail, add_zero]

end

end Facts

end StaxFS.Persist
