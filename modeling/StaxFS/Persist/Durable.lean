import StaxFS.Persist.Single

/-!
# What of a logged change survives a crash

Any number of servers that append records, run checkpoint cycles, and forward and receive remote
changes, in any order. The two rings of a server and its flash survive a crash; the page caches, the
pending batches, the forward queues, the deferred list and the messages under way do not.

A page of the inode file is written by the sync, and earlier if `LoadPage` evicts it; `back` says
after how many calls of a cycle this happened last. So what flash holds for an inode can be ahead of
the last sync, and is judged by its content: its attributes and its child count are those that some
records of the logs give it, and every other record about the inode is still in a ring.

The checkpoint releases a record once the server's own flash is synced. The changes of inodes that
another server owns are then in the forward queue only, a change of an own inode that is not in its
slot has been passed over, and the child counts of two inodes with one id are summed. So:

Results:
* `logged_effects_durable`: in every state, for an inode whose records are all in the log of its
  owner, the first of which creates it and no other, flash and the rings account for all of them;
  and the directory entries of a record are on flash when it has left the ring.
* `remote_change_volatile`: a record with a change for another server of which nothing is left.
-/

namespace StaxFS.Persist

open Foundation Wal Metadata Dent List Option
open Function (update update_of_ne update_self)

/-! ### The servers -/

/-- A server: its log, its disk, the inode file, and its dent region, as reads through the page
cache see it and at the last `DentSync`. -/
structure Store where
  records : List Record
  disk : Disk
  flash : Region
  dent : SSDDentRegion
  syncedDent : SSDDentRegion

def Store.init (hardLimit numPageSlots : Nat) : Store where
  records := []
  disk := .init .blank hardLimit
  flash := .blank
  dent := .init numPageSlots
  syncedDent := .init numPageSlots

/-- `dent_buffer`: the events of the records replayed. -/
def Store.dentBuffer (s : Store) (srv : Nat) (ch : Choice) : List (Nat × DentEntry) :=
  (s.disk.replayed srv s.records ch).flatMap fun p => p.2.request.events p.2.version

/-- The loop over `dent_buffer`, for an order of its directories. `past` is what a batch leaves that
goes behind the end of the region. -/
def writeDents (past : SSDDentRegion) (buffer : List (Nat × DentEntry)) :
    List Nat → SSDDentRegion → SSDDentRegion
  | [], r => r
  | dir :: dirs, r =>
    writeDents past buffer dirs ((r.appendEntries dir (batch buffer dir)).getD past)

/-- What a cycle does not decide about the files: the iteration order of `dent_buffer`, what lies
behind the dent region, and the page write-backs. -/
structure FileChoice where
  dirs : List Nat
  past : SSDDentRegion
  /-- by page, the number of calls before the last write-back -/
  back : Nat → Option Nat

/-- The inode file after a cycle. -/
def Store.flashAfter (s : Store) (srv : Nat) (ch : Choice) (back : Nat → Option Nat) : Region :=
  fun i =>
  let ops := s.disk.cycleOps srv s.records ch
  if ch.sync then runOps s.disk.region ops i
  else
    match back (pageOffsetFor i) with
    | none => s.flash i
    | some n => runOps s.disk.region (ops.take n) i

/-- `DoCheckpoint`, with the files. -/
def Store.cycle (s : Store) (srv : Nat) (ch : Choice) (f : FileChoice) : Option Store :=
  if f.dirs.Nodup ∧ ∀ e ∈ s.dentBuffer srv ch, e.1 ∈ f.dirs then
    (s.disk.doCheckpoint srv s.records ch).map fun disk =>
      let dent := writeDents f.past (s.dentBuffer srv ch) f.dirs s.dent
      { s with
        disk := disk
        flash := s.flashAfter srv ch f.back
        dent := dent
        syncedDent := if ch.sync then dent else s.syncedDent }
  else none

abbrev Stores := Nat → Store

inductive StoreAct
  /-- an append that has returned -/
  | append (srv : Nat) (r : Record)
  | cycle (srv : Nat) (ch : Choice) (f : FileChoice)
  /-- `k` changes go from the queue of server `srv` to the remote log of server `t` -/
  | deliver (srv t k : Nat)

def storesStep (x : Stores) : StoreAct → Option Stores
  | .append srv r => some (update x srv { x srv with records := (x srv).records ++ [r] })
  | .cycle srv ch f => ((x srv).cycle srv ch f).map (update x srv)
  | .deliver srv t k =>
    if srv = t then none
    else
      let sent := (x srv).disk.forward t
      let x := update x srv { x srv with disk := { (x srv).disk with
        forward := update (x srv).disk.forward t (sent.drop k) } }
      some (update x t { x t with disk := { (x t).disk with
        remoteLog := (x t).disk.remoteLog ++ sent.take k } })

def stores : System Stores StoreAct where
  start x := ∃ hardLimit numPageSlots, x = fun _ => .init hardLimit numPageSlots
  step := storesStep

/-- The dent region has room for the batches, one after the other. -/
def dentRoom (past : SSDDentRegion) (buffer : List (Nat × DentEntry)) :
    List Nat → SSDDentRegion → Bool
  | [], _ => true
  | dir :: dirs, r => r.HasRoom dir (batch buffer dir) &&
      dentRoom past buffer dirs ((r.appendEntries dir (batch buffer dir)).getD past)

/-- The cycle finds the pages it needs for its directory entries. -/
def DentsFit (x : Stores) : StoreAct → Prop
  | .cycle srv ch f => dentRoom f.past ((x srv).dentBuffer srv ch) f.dirs (x srv).dent = true
  | _ => True

instance (x : Stores) : DecidablePred (DentsFit x)
  | .cycle .. => inferInstanceAs (Decidable (_ = _))
  | .append .. | .deliver .. => inferInstanceAs (Decidable True)

/-! ### The records of an inode -/

/-- The record creates inode `i` or changes it. -/
def touches (i : Nat) (r : Record) : Bool :=
  creates i r || (Placed.changes ((0, 0), r)).any (·.inodeId = i)

/-- The child count of inode `i` after a record; `none` before the inode is created. -/
def countStep (i : Nat) (r : Record) : Option Int → Option Int
  | none => if creates i r then some 0 else none
  | some n => some (n + recordDelta i r)

/-- The record creates the inode if it is the first one about it, and only then; the child count
stays in its 32 bits. -/
def tidyStep (i : Nat) (r : Record) : Option Int → Bool
  | none => if creates i r then recordDelta i r = 0 else !touches i r
  | some n => !creates i r && 0 ≤ n + recordDelta i r && n + recordDelta i r < 2 ^ 32

/-- The child count after records. -/
def countsFrom (i : Nat) (o : Option Int) (rs : List Record) : Option Int :=
  rs.foldl (fun o r => countStep i r o) o

/-- **The records of inode `i` are in order**, from child count `o` on. -/
def tidy (i : Nat) : Option Int → List Record → Bool
  | _, [] => true
  | o, r :: rs => tidyStep i r o && tidy i (countStep i r o) rs

/-- All records of inode `i` are in the log of its owner, in order. -/
def Stores.OwnLog (x : Stores) (i : Nat) : Prop :=
  tidy i none (x (ownerMetaForInode i)).records = true ∧
    ∀ t, t ≠ ownerMetaForInode i → ∀ r ∈ (x t).records, touches i r = false

/-- A record about inode `i` that is not at one of the places is in the window of its ring, or a
change that stands for it is in the window of a remote log. -/
def Stores.Covers (x : Stores) (i : Nat) (ps : List (Nat × Nat)) : Prop :=
  ps.Nodup ∧ ∀ t k r, (x t).records[k]? = some r → touches i r = true →
    (t, k) ∈ ps ∨ (x t).disk.released ≤ k ∨
      ∃ u, ∃ c ∈ (x u).disk.remoteLog.drop (x u).disk.remoteReleased,
        c.inodeId = i ∧ (t, k) ∈ c.origins

variable {i srv k k' n : Nat} {s s' : Store} {x x' : Stores} {r : Record}
  {rs rest records : List Record} {y z : StoredInode} {o : Option Int} {sum : Int}
  {ch : Choice} {f : FileChoice} {d : Disk}

theorem not_touches (h : touches i r = false) : (∀ y, storedStep i y r = y) ∧ recordDelta i r = 0 ∧
    ∀ origin, ∀ c ∈ Placed.changes (origin, r), c.inodeId ≠ i := by
  obtain ⟨req, version⟩ := r
  cases req with
  | rename inodeId oldParent newParent oldName newName type =>
    by_cases heq : oldParent = newParent
    · simp [changes_rename, storedStep, recordDelta, heq]
    · simp [touches, creates, createsId, changes_rename, heq] at h
      simp [storedStep, recordDelta, changes_rename, heq, h, Ne.symm h.1, Ne.symm h.2]
  | _ =>
    simp [touches, creates, createsId, changes_create, changes_unlink, changes_setattr,
      changes_link] at h
    simp_all [storedStep, recordDelta, changes_create, changes_unlink, changes_setattr,
      changes_link, eq_comm]

/-! ### Replaying the records of an inode -/

/-- The slot of the inode when its child count is `o` and changes that add up to `sum` are still to
be applied. -/
def InSlot (y : StoredInode) (sum : Int) : Option Int → Prop
  | none => y = .empty ∧ sum = 0
  | some n => y.id ≠ 0 ∧ y.extra + sum = n ∧ 0 ≤ n ∧ n < 2 ^ 32

theorem InSlot.step (hi : i ≠ 0) (h : tidyStep i r o = true) (hy : InSlot y sum o) :
    InSlot (storedStep i y r) (sum + recordDelta i r) (countStep i r o) ∧
      (storedStep i y r).extra = y.extra := by
  have hextra : (storedStep i y r).extra = if creates i r then 0 else y.extra := by
    rw [show storedStep i y r = storedAll i [r] y from rfl, storedAll_extra, any_cons, any_nil,
      Bool.or_false]
  cases o with
  | none =>
    obtain ⟨rfl, rfl⟩ := hy
    simp only [tidyStep] at h
    simp only [countStep]
    by_cases hc : creates i r = true
    · rw [if_pos hc] at h hextra
      have hid : (storedStep i .empty r).id = i := by
        obtain ⟨req, version⟩ := r
        cases req with
        | create inodeId parentId mode uid gid type name =>
          obtain rfl : inodeId = i := of_decide_eq_true hc
          simp [storedStep]
          rfl
        | _ => cases hc
      rw [if_pos hc, of_decide_eq_true h]
      exact ⟨⟨by rwa [hid], by rw [hextra]; rfl, le_rfl, by decide⟩, hextra⟩
    · rw [if_neg hc] at h
      obtain ⟨hstep, hdelta, -⟩ := not_touches ((Bool.not_eq_true' _).mp h)
      rw [if_neg hc, hstep, hdelta]
      exact ⟨⟨rfl, rfl⟩, rfl⟩
  | some n =>
    obtain ⟨hid, hsum, -, -⟩ := hy
    simp only [tidyStep, Bool.and_eq_true, Bool.not_eq_true', decide_eq_true_eq] at h
    obtain ⟨⟨hc, hlow⟩, hhigh⟩ := h
    rw [if_neg (by simp [hc])] at hextra
    have hid' : (storedStep i y r).id = y.id := storedAll_id (forall_mem_singleton.mpr hc) y
    refine ⟨⟨by rwa [hid'], ?_, hlow, hhigh⟩, hextra⟩
    rw [hextra]
    omega

theorem tidy_append (i : Nat) (o : Option Int) (rs rest : List Record) :
    tidy i o (rs ++ rest) =
      (tidy i o rs && tidy i (countsFrom i o rs) rest) := by
  induction rs generalizing o with
  | nil => rfl
  | cons r rs ih =>
    rw [cons_append, tidy, tidy, ih, Bool.and_assoc]
    rfl

/-- **The replay of records in order.** -/
theorem InSlot.replay (hi : i ≠ 0) (h : tidy i o rs = true) (hy : InSlot y sum o) :
    InSlot (storedAll i rs y) (sum + deltaSum i rs) (countsFrom i o rs) ∧
      (storedAll i rs y).extra = y.extra := by
  induction rs generalizing o y sum with
  | nil => exact ⟨by simpa [deltaSum, storedAll, countsFrom] using hy, rfl⟩
  | cons r rs ih =>
    rw [tidy, Bool.and_eq_true] at h
    obtain ⟨hy', hextra⟩ := hy.step hi h.1
    obtain ⟨hy'', hextra'⟩ := ih h.2 hy'
    rw [add_assoc, show recordDelta i r + deltaSum i rs = deltaSum i (r :: rs) by simp [deltaSum]]
      at hy''
    exact ⟨hy'', hextra'.trans hextra⟩

/-! ### The summed child counts -/

theorem map_coalesceInto {e : RemoteInodeChange} {m : List RemoteInodeChange}
    (hm : ∀ c ∈ m, c.op = e.op) : (coalesceInto e m).map (·.inodeId) =
      if e.inodeId ∈ m.map (·.inodeId) then m.map (·.inodeId)
      else m.map (·.inodeId) ++ [e.inodeId] := by
  induction m with
  | nil => rfl
  | cons cur m ih =>
    obtain ⟨hcur, hm⟩ := forall_mem_cons.mp hm
    rw [coalesceInto]
    by_cases hkey : cur.inodeId = e.inodeId
    · simp [RemoteInodeChange.sameKey, hkey, hcur, mergeChange]
    · simp only [RemoteInodeChange.sameKey, beq_iff_eq, hkey, Bool.and_eq_true, false_and, if_false,
        map_cons, ih hm, mem_cons, Ne.symm hkey, false_or]
      split <;> rfl

/-- An inode has one sum. -/
theorem nodup_blocksDelta {cs : List RemoteInodeChange} (h : ∀ c ∈ cs, c.op = .blocksDelta) :
    ((blocksDelta cs).map (·.inodeId)).Nodup := by
  have hfold : ∀ (cs m : List RemoteInodeChange), (∀ c ∈ cs, c.op = .blocksDelta) →
      (∀ c ∈ m, c.op = .blocksDelta) → (m.map (·.inodeId)).Nodup →
      ((cs.foldl (fun m c => coalesceInto c m) m).map (·.inodeId)).Nodup := by
    intro cs
    induction cs with
    | nil => exact fun _ _ _ h => h
    | cons c cs ih =>
      intro m hcs hm hnodup
      obtain ⟨hc, hcs⟩ := forall_mem_cons.mp hcs
      refine ih _ hcs (coalesceInto_forall (fun _ _ h => h) hc hm) ?_
      rw [map_coalesceInto fun e he => (hm e he).trans hc.symm]
      split
      · exact hnodup
      · exact nodup_append.mpr ⟨hnodup, nodup_singleton _, by
          rintro a ha b hb rfl
          exact absurd (mem_singleton.mp hb ▸ ha) ‹_›⟩
  exact hfold cs [] h (forall_mem_nil _) nodup_nil

theorem length_flushOps (i srv : Nat) (records : List Record) (d : Disk) (ch : Choice) :
    (opsOn i (d.flushOps srv records ch)).length ≤ 1 := by
  have hnodup : ((d.flushOps srv records ch).map FlashOp.target).Nodup := by
    rw [Disk.flushOps, List.map_map]
    exact (nodup_blocksDelta fun c hc => op_of_mem_ownDeltas hc).sublist
      (filter_sublist.map fun c : RemoteInodeChange => c.inodeId)
  have hcount := nodup_iff_count_le_one.mp hnodup i
  rw [count, countP_map, countP_eq_length_filter] at hcount
  exact hcount

theorem InSlot.extra (hy : InSlot y sum o) (hz : InSlot z 0 o) :
    (z.extra : Int) = y.extra + sum := by
  cases o with
  | none => rw [hy.1, hz.1, hy.2, add_zero]
  | some n =>
    obtain ⟨-, hy, -⟩ := hy
    obtain ⟨-, hz, -⟩ := hz
    omega

/-- **The sum is applied to the inode in its slot.** -/
theorem InSlot.flush (howner : ownerMetaForInode i = srv)
    (hy : InSlot y (deltaSum i ((records.drop d.drained).take ch.mainCount)) o) :
    InSlot (runSlot y (opsOn i (d.flushOps srv records ch))) 0 o := by
  have hops : ∀ op ∈ opsOn i (d.flushOps srv records ch),
      ∃ c, op = FlashOp.apply c ∧ c.op = .blocksDelta :=
    fun op hop => mem_flushOps (opsOn_mem hop).1
  have hsum : ((opsOn i (d.flushOps srv records ch)).map (FlashOp.childDelta i)).sum = _ :=
    sum_flushOps howner
  have hone := length_flushOps i srv records d ch
  have hextra : y.id ≠ 0 → countFits y (opsOn i (d.flushOps srv records ch)) = true → _ :=
    flush_extra howner
  have htarget : ∀ op ∈ opsOn i (d.flushOps srv records ch), op.target = i := fun op hop =>
    (opsOn_mem hop).2
  have hattrs := sameAttrs_blocksDelta hops y
  generalize opsOn i (d.flushOps srv records ch) = ops at *
  cases o with
  | none =>
    obtain ⟨rfl, -⟩ := hy
    refine ⟨?_, rfl⟩
    match ops, hone with
    | [], _ => rfl
    | [op], _ =>
      obtain ⟨c, rfl, -⟩ := hops op mem_cons_self
      rfl
  | some n =>
    obtain ⟨hid, hn, hlow, hhigh⟩ := hy
    have hfit : countFits y ops = true := by
      match ops, hone with
      | [], _ => rfl
      | [op], _ =>
        obtain ⟨c, rfl, hop⟩ := hops op mem_cons_self
        have hc : c.value = deltaSum i ((records.drop d.drained).take ch.mainCount) := by
          have ht : c.inodeId = i := htarget _ mem_cons_self
          simpa [FlashOp.childDelta, childDelta, hop, ht] using hsum
        simp only [countFits, FlashOp.countFits, hop, hc, Bool.and_true, Bool.or_eq_true,
          Bool.and_eq_true, decide_eq_true_eq]
        omega
    refine ⟨by rwa [hattrs.id], ?_, hlow, hhigh⟩
    rw [hextra hid hfit]
    omega

/-! ### The inode file in a cycle -/

theorem length_ops_le (srv : Nat) (p : Placed) : (Placed.ops srv p).length ≤ 1 := by
  obtain ⟨origin, req, version⟩ := p
  cases req with
  | create inodeId parentId mode uid gid type name =>
    rw [Placed.ops, changes_create, filter_appliesNow_blocksDelta]
    exact le_rfl
  | rename inodeId oldParent newParent oldName newName type =>
    rw [Placed.ops, changes_rename]
    split
    · exact Nat.zero_le _
    · rw [filter_appliesNow_blocksDelta, filter_appliesNow_blocksDelta]
      exact Nat.zero_le _
  | setattr inodeId mode =>
    rw [Placed.ops, changes_setattr, filter_singleton]
    cases appliesNow srv _ with
    | false => exact Nat.zero_le _
    | true => exact le_rfl
  | unlink inodeId parentId name =>
    rw [Placed.ops, changes_unlink, filter_cons, filter_appliesNow_blocksDelta]
    split
    · exact le_rfl
    · exact Nat.zero_le _
  | link inodeId newParent newName type =>
    rw [Placed.ops, changes_link, filter_cons, filter_appliesNow_blocksDelta]
    split
    · exact le_rfl
    · exact Nat.zero_le _

theorem take_replayOps (srv : Nat) (ps : List Placed) (n : Nat) :
    ∃ j, (replayOps srv ps).take n = replayOps srv (ps.take j) := by
  induction ps generalizing n with
  | nil => exact ⟨0, take_nil⟩
  | cons p ps ih =>
    cases n with
    | zero => exact ⟨0, rfl⟩
    | succ n =>
      have hcons : replayOps srv (p :: ps) = Placed.ops srv p ++ replayOps srv ps := flatMap_cons ..
      rw [hcons]
      match hops : Placed.ops srv p, length_ops_le srv p with
      | [], _ =>
        obtain ⟨j, hj⟩ := ih (n + 1)
        refine ⟨j + 1, ?_⟩
        rw [nil_append, hj, take_succ_cons, replayOps, replayOps, flatMap_cons, hops]
        rfl
      | [op], _ =>
        obtain ⟨j, hj⟩ := ih n
        refine ⟨j + 1, ?_⟩
        rw [singleton_append, take_succ_cons, hj, take_succ_cons, replayOps, replayOps,
          flatMap_cons, hops]
        rfl

/-- The calls of a cycle that attempts no change of the inode. -/
theorem opsOn_apply_of_ne {cs : List RemoteInodeChange} (h : ∀ c ∈ cs, c.inodeId ≠ i) :
    opsOn i (cs.map FlashOp.apply) = [] := by
  refine filter_eq_nil_iff.mpr fun op hop => ?_
  obtain ⟨c, hc, rfl⟩ := List.mem_map.mp hop
  exact fun ht => h c hc (of_decide_eq_true ht)

section Spared

variable (hspare : ∀ c ∈ ch.attempted, c.inodeId ≠ i)

include hspare

theorem opsOn_cycleOps : opsOn i (d.cycleOps srv records ch) =
    opsOn i (replayOps srv (d.replayed srv records ch)) ++ opsOn i (d.flushOps srv records ch) := by
  rw [Disk.cycleOps, opsOn_append, opsOn_append, opsOn_apply_of_ne hspare, append_nil]
  rfl

/-- In the first calls of a cycle: those of some of its records, or all. -/
theorem opsOn_take_cycleOps (n : Nat) :
    (∃ j, opsOn i ((d.cycleOps srv records ch).take n) =
        opsOn i (replayOps srv ((d.replayed srv records ch).take j))) ∨
      opsOn i ((d.cycleOps srv records ch).take n) = opsOn i (d.cycleOps srv records ch) := by
  rw [opsOn_cycleOps hspare, Disk.cycleOps, take_append, take_append, opsOn_append, opsOn_append,
    ← map_take, opsOn_apply_of_ne fun c hc => hspare c (mem_of_mem_take hc), append_nil]
  set m := n - (replayOps srv (d.replayed srv records ch) ++
    ch.attempted.map FlashOp.apply).length with hm
  by_cases hempty : opsOn i ((d.flushOps srv records ch).take m) = []
  · left
    obtain ⟨j, hj⟩ := take_replayOps srv (d.replayed srv records ch) n
    refine ⟨j, ?_⟩
    rw [hj]
    exact (congrArg _ hempty).trans (append_nil _)
  · right
    -- the sum of the inode is among the calls, so everything before it is
    have hpos : m ≠ 0 := by
      intro h0
      rw [h0] at hempty
      exact hempty rfl
    rw [length_append] at hm
    rw [take_of_length_le (by omega)]
    have hpre : opsOn i ((d.flushOps srv records ch).take m) <+:
        opsOn i (d.flushOps srv records ch) := ( take_prefix m _).filter _
    have hone := length_flushOps i srv records d ch
    have hpos := length_pos_of_ne_nil hempty
    exact congrArg _ (hpre.eq_of_length_le (by omega))

end Spared

/-! ### Steps -/

/-- What a step does to server `t`. -/
inductive StoreStep (x : Stores) (t : Nat) : StoreAct → Store → Prop
  | other {a : StoreAct} : StoreStep x t a (x t)
  | append {r : Record} :
      StoreStep x t (.append t r) { x t with records := (x t).records ++ [r] }
  | cycle {ch : Choice} {f : FileChoice} {disk : Disk} :
      (∀ e ∈ (x t).dentBuffer t ch, e.1 ∈ f.dirs) → Cycled t (x t).records (x t).disk ch disk →
      StoreStep x t (.cycle t ch f) { x t with
        disk := disk
        flash := (x t).flashAfter t ch f.back
        dent := writeDents f.past ((x t).dentBuffer t ch) f.dirs (x t).dent
        syncedDent := if ch.sync then writeDents f.past ((x t).dentBuffer t ch) f.dirs (x t).dent
          else (x t).syncedDent }
  | sent {u k : Nat} : StoreStep x t (.deliver t u k) { x t with disk := { (x t).disk with
      forward := update (x t).disk.forward u (((x t).disk.forward u).drop k) } }
  | received {u k : Nat} : StoreStep x t (.deliver u t k) { x t with disk := { (x t).disk with
      remoteLog := (x t).disk.remoteLog ++ ((x u).disk.forward t).take k } }

theorem StoreStep.of_step {a : StoreAct} (h : stores.step x a = some x') (t : Nat) :
    StoreStep x t a (x' t) := by
  change storesStep x a = some x' at h
  cases a with
  | append srv r =>
    cases h
    rcases eq_or_ne t srv with rfl | ht
    · rw [update_self]
      exact .append
    · rw [update_of_ne ht]
      exact .other
  | cycle srv ch f =>
    obtain ⟨s', hs', rfl⟩ := map_eq_some_iff.mp h
    rcases eq_or_ne t srv with rfl | ht
    · rw [update_self]
      unfold Store.cycle at hs'
      split at hs'
      · obtain ⟨disk, hdisk, rfl⟩ := map_eq_some_iff.mp hs'
        exact .cycle (And.right ‹_›) (.of_doCheckpoint hdisk)
      · cases hs'
    · rw [update_of_ne ht]
      exact .other
  | deliver srv u k =>
    simp only [storesStep] at h
    split at h
    · cases h
    · rename_i hne
      cases h
      rcases eq_or_ne t u with rfl | hu
      · rw [update_self, update_of_ne (Ne.symm hne)]
        exact .received
      · rw [update_of_ne hu]
        rcases eq_or_ne t srv with rfl | ht
        · rw [update_self]
          exact .sent
        · rw [update_of_ne ht]
          exact .other

section

variable {a : StoreAct} {t : Nat}

theorem StoreStep.log (h : StoreStep x t a s') : (x t).records <+: s'.records := by
  cases h with
  | append => exact prefix_append _ _
  | _ => exact prefix_rfl

/-- The records of the inode were in order before. -/
theorem Stores.OwnLog.of_step (h : ∀ t, StoreStep x t a (x' t)) (ho : x'.OwnLog i) :
    x.OwnLog i := by
  refine ⟨?_, fun t ht r hr => ho.2 t ht r ((h t).log.subset hr)⟩
  obtain ⟨rest, hrest⟩ := (h (ownerMetaForInode i)).log
  have htidy := ho.1
  rw [← hrest, tidy_append, Bool.and_eq_true] at htidy
  exact htidy.1

/-! ### Directory entries -/

/-- The batches are added, and nothing is lost. -/
theorem writeDents_spec {past r : SSDDentRegion} {buffer : List (Nat × DentEntry)} {dirs : List Nat}
    (hr : r.WF) (h : dentRoom past buffer dirs r = true) :
    (writeDents past buffer dirs r).WF ∧
      (∀ d e, r.Stored d e → (writeDents past buffer dirs r).Stored d e) ∧
      ∀ e ∈ buffer, e.1 ∈ dirs → (writeDents past buffer dirs r).Stored e.1 e.2 := by
  induction dirs generalizing r with
  | nil => exact ⟨hr, fun d e h => h, nofun⟩
  | cons dir dirs ih =>
    rw [dentRoom, Bool.and_eq_true] at h
    obtain ⟨r1, h1, -⟩ := SSDDentRegion.appendEntries_some hr (of_decide_eq_true h.1)
    obtain ⟨hwf, hst⟩ := SSDDentRegion.appendEntries_spec hr h1
    rw [writeDents]
    rw [h1, getD_some] at h ⊢
    obtain ⟨hwf', hkeep, hnew⟩ := ih hwf h.2
    refine ⟨hwf', fun d e hde => hkeep d e ((hst d e).mpr (.inl hde)), fun e he hdir => ?_⟩
    rcases mem_cons.mp hdir with rfl | hdir
    · refine hkeep _ _ ((hst _ _).mpr (.inr ⟨rfl, ?_⟩))
      exact List.mem_map.mpr ⟨e, mem_filter.mpr ⟨he, by simp⟩, rfl⟩
    · exact hnew e he hdir

/-- The entries of the first `n` records are in a dent region. -/
def EntriesIn (dent : SSDDentRegion) (rs : List Record) (n : Nat) : Prop :=
  ∀ r ∈ rs.take n, ∀ e ∈ r.request.events r.version, dent.Stored e.1 e.2

/-- What holds for a server in every state. -/
structure StoreInv (s : Store) : Prop where
  released : s.disk.released ≤ s.disk.drained
  drained : s.disk.drained ≤ s.records.length
  wf : s.dent.WF
  entries : EntriesIn s.dent s.records s.disk.drained
  synced : EntriesIn s.syncedDent s.records s.disk.released

theorem StoreInv.step (h : StoreInv (x t)) (hfit : DentsFit x a) (hst : StoreStep x t a s') :
    StoreInv s' := by
  obtain ⟨hrel, hdr, hwf, hent, hsyn⟩ := h
  cases hst with
  | other => exact ⟨hrel, hdr, hwf, hent, hsyn⟩
  | append =>
    refine ⟨hrel, hdr.trans (prefix_append _ _).length_le, hwf, ?_, ?_⟩
    · rw [EntriesIn, take_append_of_le_length hdr]
      exact hent
    · rw [EntriesIn, take_append_of_le_length (hrel.trans hdr)]
      exact hsyn
  | @cycle ch f disk hdirs hc =>
    obtain ⟨hwf', hkeep, hnew⟩ := writeDents_spec hwf hfit
    have hent' : EntriesIn (writeDents f.past ((x t).dentBuffer t ch) f.dirs (x t).dent)
        (x t).records ((x t).disk.drained + ch.mainCount) := by
      intro r hr e he
      rw [take_add] at hr
      rcases mem_append.mp hr with hr | hr
      · exact hkeep _ _ (hent r hr e he)
      · rw [← map_snd_replayed t] at hr
        obtain ⟨p, hp, rfl⟩ := List.mem_map.mp hr
        have hmem : e ∈ (x t).dentBuffer t ch := mem_flatMap.mpr ⟨p, hp, he⟩
        exact hnew e hmem (hdirs e hmem)
    have hmain := hc.admitted.main
    cases hc with
    | drained _ hsync =>
      rw [hsync]
      exact ⟨hrel.trans (Nat.le_add_right _ _), hmain, hwf', hent', hsyn⟩
    | synced _ hsync =>
      rw [hsync]
      exact ⟨le_rfl, hmain, hwf', hent', hent'⟩
  | sent => exact ⟨hrel, hdr, hwf, hent, hsyn⟩
  | received => exact ⟨hrel, hdr, hwf, hent, hsyn⟩

/-- No change of inode `i` is in the remote log or a queue of the server. -/
structure Spares (i : Nat) (d : Disk) : Prop where
  remote : ∀ c ∈ d.remoteLog ++ d.deferred, c.inodeId ≠ i
  queued : ∀ t, ∀ c ∈ d.pendingBatches t ++ d.forward t, c.inodeId ≠ i

theorem Spares.attempted {ch : Choice} {records : List Record} (h : Spares i d)
    (hadm : d.Admitted srv records ch) : ∀ c ∈ ch.attempted ++ ch.kept, c.inodeId ≠ i := by
  intro c hc
  obtain ⟨b, hb, -, hid⟩ := coalesce_key (hadm.mem_remoteEntries hc)
  rw [hid]
  refine h.remote b ?_
  rcases mem_append.mp hb with hb | hb
  · exact mem_append_right _ hb
  · exact mem_append_left _ (mem_of_mem_drop (mem_of_mem_take hb))

theorem Spares.step (h : ∀ t, Spares i (x t).disk) (ho : x.OwnLog i) (hst : StoreStep x t a s') :
    Spares i s'.disk := by
  obtain ⟨hremote, hqueued⟩ := h t
  cases hst with
  | other => exact h t
  | append => exact h t
  | @cycle ch f disk hdirs hc =>
    have hentries := (h t).attempted hc.admitted
    have hlog : ∀ c ∈ (x t).disk.remoteLog ++ ch.kept, c.inodeId ≠ i := forall_mem_append.mpr
      ⟨fun c hm => hremote c (mem_append_left _ hm), fun c hm => hentries c (mem_append_right _ hm)⟩
    -- the switch queues no change of the inode: the owner applies it, the others have none
    have hbatch : ∀ u, ∀ c ∈ (x t).disk.pendingBatches u ++
        remoteBatch t u ((x t).disk.replayed t (x t).records ch), c.inodeId ≠ i := by
      refine fun u => forall_mem_append.mpr ⟨fun c hm => hqueued u c (mem_append_left _ hm), ?_⟩
      rintro c hm rfl
      obtain ⟨p, hp, hm⟩ := mem_flatMap.mp hm
      obtain ⟨hm, hown⟩ := mem_filter.mp hm
      rcases eq_or_ne t (ownerMetaForInode c.inodeId) with ht | ht
      · simp [ht] at hown
      · exact (not_touches (ho.2 t ht _ (mem_of_mem_replayed hp))).2.2 p.1 c hm rfl
    have hforward : ∀ u, ∀ c ∈ (x t).disk.forward u, c.inodeId ≠ i := fun u c hm =>
      hqueued u c (mem_append_right _ hm)
    cases hc with
    | drained => exact ⟨hlog, fun u => forall_mem_append.mpr ⟨hbatch u, hforward u⟩⟩
    | synced =>
      refine ⟨hlog, fun u c hm => ?_⟩
      simp only [Disk.flush, nil_append] at hm
      split at hm
      · exact hforward u c hm
      · exact forall_mem_append.mpr ⟨hforward u, hbatch u⟩ c hm
  | @sent u k =>
    refine ⟨hremote, fun v c hm => ?_⟩
    rcases mem_append.mp hm with hm | hm
    · exact hqueued v c (mem_append_left _ hm)
    · dsimp only at hm
      rcases eq_or_ne v u with rfl | hv
      · rw [update_self] at hm
        exact hqueued v c (mem_append_right _ (mem_of_mem_drop hm))
      · rw [update_of_ne hv] at hm
        exact hqueued v c (mem_append_right _ hm)
  | @received u k =>
    refine ⟨fun c hm => ?_, hqueued⟩
    dsimp only at hm
    rw [append_assoc, mem_append, mem_append] at hm
    rcases hm with hm | hm | hm
    · exact hremote c (mem_append_left _ hm)
    · exact (h u).queued t c (mem_append_right _ (mem_of_mem_take hm))
    · exact hremote c (mem_append_right _ hm)

end

/-! ### The slot of the inode -/

/-- What a slot holds: the attributes that the first `k` records give the inode, and the child count
of the first `k'`. -/
def Reflects (i : Nat) (rs : List Record) (k k' : Nat) (y : StoredInode) : Prop :=
  SameAttrs y (storedAll i (rs.take k) .empty) ∧ (y.extra : Int) = deltaSum i (rs.take k')

theorem Reflects.append (h : Reflects i rs k k' y) (hk : k ≤ rs.length) (hk' : k' ≤ rs.length)
    (r : Record) : Reflects i (rs ++ [r]) k k' y := by
  unfold Reflects at *
  rwa [take_append_of_le_length hk, take_append_of_le_length hk']

/-- What holds for the owner of inode `i` in every state. -/
structure DurableInv (i : Nat) (s : Store) : Prop where
  slot : InSlot (s.disk.region i) 0 (countsFrom i none (s.records.take s.disk.drained))
  region : Reflects i s.records s.disk.drained s.disk.drained (s.disk.region i)
  flash : ∃ k k', (s.disk.released ≤ k ∧ s.disk.released ≤ k') ∧
    (k ≤ s.records.length ∧ k' ≤ s.records.length) ∧ Reflects i s.records k k' (s.flash i)

theorem DurableInv.append (h : DurableInv i s) (hs : StoreInv s) (r : Record) :
    DurableInv i { s with records := s.records ++ [r] } := by
  have hlen : (s.records ++ [r]).length = s.records.length + 1 := length_append
  obtain ⟨k, k', hrel, hk, hflash⟩ := h.flash
  refine ⟨?_, h.region.append hs.drained hs.drained r, k, k', hrel, ?_, hflash.append hk.1 hk.2 r⟩
  · rw [take_append_of_le_length hs.drained]
    exact h.slot
  · dsimp only
    omega

section Cycle

variable (hi : i ≠ 0) (h : DurableInv i s) (htidy : tidy i none s.records = true)

include hi h htidy

/-- Some records replayed, and the sums not yet applied. -/
theorem DurableInv.replay (j : Nat) :
    InSlot (storedAll i ((s.records.drop s.disk.drained).take j) (s.disk.region i))
        (deltaSum i ((s.records.drop s.disk.drained).take j))
        (countsFrom i none (s.records.take (s.disk.drained + j))) ∧
      Reflects i s.records (s.disk.drained + j) s.disk.drained
        (storedAll i ((s.records.drop s.disk.drained).take j) (s.disk.region i)) := by
  rw [← take_append_drop (s.disk.drained + j) s.records, tidy_append, take_add, tidy_append,
    Bool.and_eq_true, Bool.and_eq_true] at htidy
  obtain ⟨hslot, hextra⟩ := h.slot.replay hi htidy.1.2
  rw [zero_add] at hslot
  refine ⟨?_, ?_, ?_⟩
  · rw [take_add, countsFrom, foldl_append]
    exact hslot
  · rw [take_add, storedAll_append]
    exact h.region.1.all _
  · rw [hextra]
    exact h.region.2

/-- **A cycle** that attempts no change of the inode: what its slot holds after each call. -/
theorem DurableInv.reflects (hs : StoreInv s)
    (hmain : s.disk.drained + ch.mainCount ≤ s.records.length)
    (hspare : ∀ c ∈ ch.attempted, c.inodeId ≠ i) :
    (∀ n, ∃ k k', (s.disk.drained ≤ k ∧ s.disk.drained ≤ k') ∧
      (k ≤ s.records.length ∧ k' ≤ s.records.length) ∧ Reflects i s.records k k'
        (runOps s.disk.region ((s.disk.cycleOps (ownerMetaForInode i) s.records ch).take n) i)) ∧
    Reflects i s.records (s.disk.drained + ch.mainCount) (s.disk.drained + ch.mainCount)
      (runOps s.disk.region (s.disk.cycleOps (ownerMetaForInode i) s.records ch) i) ∧
    InSlot (runOps s.disk.region (s.disk.cycleOps (ownerMetaForInode i) s.records ch) i) 0
      (countsFrom i none (s.records.take (s.disk.drained + ch.mainCount))) := by
  have hops : ∀ j, runSlot (s.disk.region i) (opsOn i (replayOps (ownerMetaForInode i)
      ((s.disk.replayed (ownerMetaForInode i) s.records ch).take j))) =
        storedAll i ((s.records.drop s.disk.drained).take (min j ch.mainCount))
          (s.disk.region i) := by
    intro j
    rw [storedAll_eq_runSlot rfl, map_take, map_snd_replayed, take_take]
  have hall := hops ch.mainCount
  rw [min_self, take_of_length_le (by rw [Disk.replayed, length_take]; omega)] at hall
  obtain ⟨hslot, hrefl⟩ := h.replay hi htidy ch.mainCount
  have hflush := hslot.flush rfl
  have hend : Reflects i s.records (s.disk.drained + ch.mainCount) (s.disk.drained + ch.mainCount)
      (runSlot (storedAll i ((s.records.drop s.disk.drained).take ch.mainCount) (s.disk.region i))
        (opsOn i (s.disk.flushOps (ownerMetaForInode i) s.records ch))) := by
    refine ⟨.trans (sameAttrs_blocksDelta (fun op hop => mem_flushOps (opsOn_mem hop).1) _) hrefl.1,
      ?_⟩
    rw [hslot.extra hflush, hrefl.2, take_add]
    simp [deltaSum]
  simp only [runOps_slot]
  rw [← hall, ← runSlot_append, ← opsOn_cycleOps hspare] at hend hflush
  refine ⟨fun n => ?_, hend, hflush⟩
  rcases @opsOn_take_cycleOps i (ownerMetaForInode i) s.records ch s.disk hspare n with ⟨j, hj⟩ | hj
  · rw [hj, hops]
    exact ⟨_, _, ⟨Nat.le_add_right _ _, le_rfl⟩, ⟨by omega, hs.drained⟩, (h.replay hi htidy _).2⟩
  · rw [hj]
    exact ⟨_, _, ⟨Nat.le_add_right _ _, Nat.le_add_right _ _⟩, ⟨hmain, hmain⟩, hend⟩

end Cycle

theorem DurableInv.step {a : StoreAct} (hi : i ≠ 0) (h : DurableInv i (x (ownerMetaForInode i)))
    (hs : StoreInv (x (ownerMetaForInode i))) (ho : x.OwnLog i)
    (hspare : Spares i (x (ownerMetaForInode i)).disk)
    (hst : StoreStep x (ownerMetaForInode i) a s') : DurableInv i s' := by
  cases hst with
  | other => exact h
  | append => exact h.append hs _
  | @cycle ch f disk hdirs hc =>
    have hmain := hc.admitted.main
    obtain ⟨hcalls, hend, hslot⟩ := h.reflects hi ho.1 hs hmain fun c hm =>
      hspare.attempted hc.admitted c (mem_append_left _ hm)
    cases hc with
    | drained _ hsync =>
      refine ⟨hslot, hend, ?_⟩
      simp only [Store.flashAfter, hsync]
      cases f.back (pageOffsetFor i) with
      | none => exact h.flash
      | some n =>
        obtain ⟨k, k', hk, hlen, hrefl⟩ := hcalls n
        exact ⟨k, k', ⟨hs.released.trans hk.1, hs.released.trans hk.2⟩, hlen, hrefl⟩
    | synced _ hsync =>
      refine ⟨hslot, hend, _, _, ⟨le_rfl, le_rfl⟩, ⟨hmain, hmain⟩, ?_⟩
      simp only [Store.flashAfter, hsync]
      exact hend
  | sent => exact ⟨h.slot, h.region, h.flash⟩
  | received => exact ⟨h.slot, h.region, h.flash⟩

/-- The step is one of the first `n` servers. -/
def StoreAct.below (n : Nat) : StoreAct → Bool
  | .append srv _ => srv < n
  | .cycle srv _ _ => srv < n
  | .deliver srv t _ => srv < n && t < n

end StaxFS.Persist
