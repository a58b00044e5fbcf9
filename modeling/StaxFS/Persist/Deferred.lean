import StaxFS.Persist.Cycle

/-!
# Every drained change is accounted for

The remote side of `DoCheckpoint` over many cycles: batches arrive in the remote log, the set of
inodes on flash changes in any way, and cycles drain, coalesce, apply and defer. A change that
arrives is marked with its place in the remote log, so that one can say of a coalesced entry which
changes it stands for; nothing reads the mark.

Results:
* `Represents.merge`: the coalescer keeps what an entry says of the changes it stands for.
* `Disk.Admitted.once`: a cycle neither loses nor repeats a change, unless the hard limit strikes.
* `drained_accounted`: in every run in which the deferred list stays within `kDeferredHardLimit`,
  every drained change is applied or deferred exactly once, as it arrived, or summed up with others
  of its inode, or replaced by one of a higher version.
* `hard_limit_drops`: a deferred list of one change more than the limit loses a change.
-/

namespace StaxFS.Persist

open Foundation Wal Metadata List Option

/-! ### The system -/

/-- `kDeferredHardLimit`, which is `CXLSSD_REMOTE_INODE_WAL_ENTRIES`. -/
def kDeferredHardLimit : Nat := 2 ^ 21

/-- The entries `apply_one` applies. -/
def appliedIn : Region → List RemoteInodeChange → List RemoteInodeChange
  | _, [] => []
  | r, c :: cs =>
    if (applyOne r c).2 then c :: appliedIn (applyOne r c).1 cs else appliedIn (applyOne r c).1 cs

/-- A server, and all entries it has applied from its remote log. -/
structure Drain where
  disk : Disk
  applied : List RemoteInodeChange

inductive DrainAct
  /-- a batch is appended to the remote log -/
  | arrive (batch : List RemoteInodeChange)
  /-- inodes come to flash or leave it -/
  | flash (region : Region)
  | cycle (records : List Record) (ch : Choice)

/-- A batch with the places it gets in the remote log. -/
def marked (start : Nat) (batch : List RemoteInodeChange) : List RemoteInodeChange :=
  batch.mapIdx fun k c => { c with origins := [(0, start + k)] }

def drainStep (srv : Nat) (s : Drain) : DrainAct → Option Drain
  | .arrive batch =>
    some { s with disk := { s.disk with
      remoteLog := s.disk.remoteLog ++ marked s.disk.remoteLog.length batch } }
  | .flash region => some { s with disk := { s.disk with region } }
  | .cycle records ch => (s.disk.doCheckpoint srv records ch).map fun d =>
      ⟨d, s.applied ++ appliedIn (s.disk.replayRegion srv records ch) ch.attempted⟩

/-- The remote side of server `srv`, from empty logs and any flash on. -/
def drains (srv : Nat) : System Drain DrainAct where
  start s := ∃ region, s = ⟨.init region kDeferredHardLimit, []⟩
  step := drainStep srv

/-! ### What an entry stands for -/

/-- The value of the change at a place of the remote log. -/
def valueAt (log : List RemoteInodeChange) (p : Nat × Nat) : Int :=
  ((log[p.2]?).map RemoteInodeChange.value).getD 0

/-- **An entry says what its changes say**: it is for their inode, with their operation; a child
count is their sum, a mode or a time is that of the highest version among them, and everything else
is a single change. -/
structure Represents (log : List RemoteInodeChange) (c : RemoteInodeChange) : Prop where
  origins : ∀ p ∈ c.origins, ∃ e, log[p.2]? = some e ∧ e.op = c.op ∧ e.inodeId = c.inodeId
  sum : c.op = .blocksDelta → c.value = (c.origins.map (valueAt log)).sum
  newest : c.op = .setattr ∨ c.op = .touchCtime →
    (∃ p ∈ c.origins, ∃ e, log[p.2]? = some e ∧ e.Same c) ∧
    ∀ p ∈ c.origins, ∀ e, log[p.2]? = some e → e.version ≤ c.version
  alone : c.op.canCoalesce = false → ∃ p e, c.origins = [p] ∧ log[p.2]? = some e ∧ e.Same c

section Represents

variable {log : List RemoteInodeChange} {c cur e : RemoteInodeChange}

/-- A change at its place stands for itself. -/
theorem Represents.single {p : Nat × Nat} (hp : log[p.2]? = some c) (ho : c.origins = [p]) :
    Represents log c := by
  refine ⟨fun q hq => ?_, fun _ => ?_, fun _ => ⟨⟨p, ?_, c, hp, .refl c⟩, fun q hq e he => ?_⟩,
    fun _ => ⟨p, c, ho, hp, .refl c⟩⟩
  · rw [ho, mem_singleton] at hq
    exact ⟨c, hq ▸ hp, rfl, rfl⟩
  · simp [ho, valueAt, hp]
  · simp [ho]
  · rw [ho, mem_singleton] at hq
    rw [hq, hp, Option.some.injEq] at he
    rw [he]

/-- What comes behind in the log does not matter. -/
theorem Represents.append (h : Represents log c) (more : List RemoteInodeChange) :
    Represents (log ++ more) c := by
  have hget : ∀ {k : Nat} {e : RemoteInodeChange},
      log[k]? = some e → (log ++ more)[k]? = some e := by
    intro k e he
    rw [getElem?_append_left (List.getElem?_eq_some_iff.mp he).1, he]
  have hval : ∀ p ∈ c.origins, valueAt (log ++ more) p = valueAt log p := by
    intro p hp
    obtain ⟨e, he, -⟩ := h.origins p hp
    rw [valueAt, valueAt, hget he, he]
  refine ⟨fun p hp => ?_, fun hop => ?_, fun hop => ?_, fun hop => ?_⟩
  · obtain ⟨e, he, hkey⟩ := h.origins p hp
    exact ⟨e, hget he, hkey⟩
  · rw [h.sum hop, map_congr_left hval]
  · obtain ⟨⟨p, hp, e, he, hs⟩, hle⟩ := h.newest hop
    refine ⟨⟨p, hp, e, hget he, hs⟩, fun q hq x hx => ?_⟩
    obtain ⟨y, hy, -⟩ := h.origins q hq
    rw [hget hy, Option.some.injEq] at hx
    exact hle q hq x (hx ▸ hy)
  · obtain ⟨p, e, ho, he, hs⟩ := h.alone hop
    exact ⟨p, e, ho, hget he, hs⟩

/-- **Merging two entries of one key.** -/
theorem Represents.merge (hcur : Represents log cur) (he : Represents log e)
    (hkey : cur.sameKey e = true) (hop : e.op.canCoalesce = true) :
    Represents log (mergeChange cur e) := by
  obtain ⟨hid, heq⟩ := RemoteInodeChange.sameKey_iff.mp hkey
  refine ⟨fun p hp => ?_, fun hsum => ?_, fun hnew => ?_, fun halone => ?_⟩
  · rcases mem_append.mp hp with hp | hp
    · exact hcur.origins p hp
    · obtain ⟨x, hx, hxop, hxid⟩ := he.origins p hp
      exact ⟨x, hx, hxop.trans heq.symm, hxid.trans hid.symm⟩
  · have hcop : cur.op = .blocksDelta := hsum
    have heop : e.op = .blocksDelta := heq ▸ hcop
    have hval : (mergeChange cur e).value = cur.value + e.value := by
      simp [mergeChange, heop]
    rw [hval, hcur.sum hcop, he.sum heop]
    simp [mergeChange]
  · have hcop : cur.op = .setattr ∨ cur.op = .touchCtime := hnew
    have heop : e.op = .setattr ∨ e.op = .touchCtime := heq ▸ hcop
    have hne : e.op ≠ .blocksDelta := by
      rcases heop with h | h <;> rw [h] <;> decide
    obtain ⟨⟨p, hp, x, hx, hxs⟩, hcle⟩ := hcur.newest hcop
    obtain ⟨⟨q, hq, y, hy, hys⟩, hele⟩ := he.newest heop
    have hver : cur.version ≤ (mergeChange cur e).version ∧
        e.version ≤ (mergeChange cur e).version := by
      simp only [mergeChange]
      split <;> omega
    refine ⟨?_, fun r hr z hz => ?_⟩
    · rcases mergeChange_same hkey hne with hs | hs
      · exact ⟨p, mem_append_left _ hp, x, hx, hxs.trans hs⟩
      · exact ⟨q, mem_append_right _ hq, y, hy, hys.trans hs⟩
    · rcases mem_append.mp hr with hr | hr
      · exact (hcle r hr z hz).trans hver.1
      · exact (hele r hr z hz).trans hver.2
  · have : cur.op.canCoalesce = false := halone
    rw [heq, hop] at this
    cases this

/-- **Entries that say what their changes say still do so when coalesced.** -/
theorem Represents.coalesce {es : List RemoteInodeChange} (h : ∀ e ∈ es, Represents log e) :
    ∀ c ∈ Persist.coalesce es, Represents log c :=
  coalesce_forall (fun _ _ hkey hop hcur he => hcur.merge he hkey hop) h

end Represents

/-! ### One cycle -/

/-- How often an entry stands for the change at place `k`. -/
def standsFor (k : Nat) (c : RemoteInodeChange) : Int := c.origins.count (0, k)

theorem additive_standsFor (k : Nat) : Additive (standsFor k) := by
  intro cur e _ _
  simp [standsFor, mergeChange, count_append]

theorem total_standsFor (k : Nat) (cs : List RemoteInodeChange) :
    total (standsFor k) cs = ((cs.flatMap RemoteInodeChange.origins).count (0, k) : Nat) := by
  induction cs with
  | nil => rfl
  | cons c cs ih =>
    rw [total_cons, ih, flatMap_cons, count_append, standsFor]
    push_cast
    rfl

/-- What is attempted is applied or not. -/
theorem perm_applied (r : Region) (cs : List RemoteInodeChange) :
    (appliedIn r cs ++ unapplied r cs).Perm cs := by
  induction cs generalizing r with
  | nil => exact .refl _
  | cons c cs ih =>
    rw [appliedIn, unapplied]
    split
    · exact (ih _).cons c
    · exact perm_middle.trans ((ih _).cons c)

/-- **What is not applied leaves flash alone**: the region is what the applied entries make of it.
-/
theorem runOps_appliedIn (r : Region) (cs : List RemoteInodeChange) :
    runOps r (cs.map .apply) = runOps r ((appliedIn r cs).map .apply) := by
  induction cs generalizing r with
  | nil => rfl
  | cons c cs ih =>
    rw [map_cons, runOps_cons, FlashOp.run, ih, appliedIn]
    split
    · rw [map_cons, runOps_cons, FlashOp.run]
    · rename_i hfail
      have hsame : (applyOne r c).1 = r := by
        unfold applyOne mutateInode at hfail ⊢
        split at hfail
        · exact absurd rfl hfail
        · split at hfail
          · rename_i hop h0
            rw [if_neg hop, if_pos h0]
          · exact absurd rfl hfail
      rw [hsame]

theorem dropped_nil {limit : Nat} {deferred dropped kept : List RemoteInodeChange}
    (h : trims limit deferred dropped kept = true) (hle : deferred.length ≤ limit) :
    dropped = [] := by
  rw [trims, if_pos hle] at h
  simp only [Bool.and_eq_true, decide_eq_true_eq] at h
  exact h.1

section Cycle

variable {srv : Nat} {records : List Record} {d : Disk} {ch : Choice}

/-- **A cycle that drops nothing loses and repeats nothing**: what it applies and what it defers
adds up to what was deferred and what it drains. -/
theorem Disk.Admitted.once (h : d.Admitted srv records ch) (hdrop : ch.dropped = [])
    {w : RemoteInodeChange → Int} (hw : Additive w) :
    total w (appliedIn (d.replayRegion srv records ch) ch.attempted) + total w ch.kept =
      total w d.deferred +
        total w ((d.remoteLog.drop d.remoteDrained).take ch.remoteCount) := by
  have hin := h.intake hw
  have hsplit := total_perm (w := w) (perm_applied (d.replayRegion srv records ch) ch.attempted)
  rw [total_append] at hsplit
  rw [hdrop, total_nil] at hin
  omega

end Cycle

/-! ### Runs -/

/-- Two mode changes, or two changes of a time, of one inode and one version. -/
def RemoteInodeChange.Clash (a b : RemoteInodeChange) : Prop :=
  (a.op = .setattr ∨ a.op = .touchCtime) ∧ a.op = b.op ∧ a.inodeId = b.inodeId ∧
    a.version = b.version

instance (a b : RemoteInodeChange) : Decidable (a.Clash b) :=
  inferInstanceAs (Decidable (_ ∧ _ ∧ _ ∧ _))

/-- No two mode changes, and no two changes of a time, have one inode and one version. -/
def DistinctVersions (log : List RemoteInodeChange) : Prop := log.Pairwise fun a b => ¬a.Clash b

instance (log : List RemoteInodeChange) : Decidable (DistinctVersions log) :=
  inferInstanceAs (Decidable (log.Pairwise _))

theorem DistinctVersions.eq {log : List RemoteInodeChange} (h : DistinctVersions log) {j k : Nat}
    {a b : RemoteInodeChange} (ha : log[j]? = some a) (hb : log[k]? = some b) (hab : a.Clash b) :
    j = k := by
  obtain ⟨hj, rfl⟩ := List.getElem?_eq_some_iff.mp ha
  obtain ⟨hk, rfl⟩ := List.getElem?_eq_some_iff.mp hb
  rcases Nat.lt_trichotomy j k with hlt | heq | hlt
  · exact absurd hab (pairwise_iff_getElem.mp h j k hj hk hlt)
  · exact heq
  · have hsymm : log[k].Clash log[j] :=
      ⟨hab.2.1 ▸ hab.1, hab.2.1.symm, hab.2.2.1.symm, hab.2.2.2.symm⟩
    exact absurd hsymm (pairwise_iff_getElem.mp h k j hk hj hlt)

/-- **When nothing is dropped**: the deferred list of a cycle stays within the hard limit. The
versions of mode changes that arrive are unique. -/
def DrainSafe (srv : Nat) (s : Drain) : DrainAct → Prop
  | .arrive batch =>
    DistinctVersions (s.disk.remoteLog ++ marked s.disk.remoteLog.length batch)
  | .flash _ => True
  | .cycle records ch => (s.disk.nextDeferred srv records ch).length ≤ kDeferredHardLimit

instance (srv : Nat) (s : Drain) : (a : DrainAct) → Decidable (DrainSafe srv s a)
  | .arrive _ => inferInstanceAs (Decidable (DistinctVersions _))
  | .flash _ => inferInstanceAs (Decidable True)
  | .cycle _ _ => inferInstanceAs (Decidable (_ ≤ _))

/-- **What should hold of every drained change** `e` at place `k`: it occurs once among all changes
that applied and deferred entries stand for, and the entry that stands for it is the change itself,
or a sum, or has a higher version. -/
structure Accounted (s : Drain) (k : Nat) (e : RemoteInodeChange) : Prop where
  once : ((s.applied ++ s.disk.deferred).flatMap RemoteInodeChange.origins).count (0, k) = 1
  entry : ∃ c ∈ s.applied ++ s.disk.deferred, (0, k) ∈ c.origins ∧ c.op = e.op ∧
    c.inodeId = e.inodeId ∧
    (e.Same c ∨
      e.op = .blocksDelta ∧ c.value = (c.origins.map (valueAt s.disk.remoteLog)).sum ∨
      (e.op = .setattr ∨ e.op = .touchCtime) ∧ e.version < c.version)

/-- The invariant of a run that drops nothing. -/
structure DrainInv (s : Drain) : Prop where
  limit : s.disk.hardLimit = kDeferredHardLimit
  marks : ∀ (k : Nat) (e : RemoteInodeChange), s.disk.remoteLog[k]? = some e → e.origins = [(0, k)]
  distinct : DistinctVersions s.disk.remoteLog
  bound : s.disk.remoteDrained ≤ s.disk.remoteLog.length
  once : ∀ k, total (standsFor k) (s.applied ++ s.disk.deferred) =
    total (standsFor k) (s.disk.remoteLog.take s.disk.remoteDrained)
  entries : ∀ c ∈ s.applied ++ s.disk.deferred, Represents s.disk.remoteLog c

section Runs

variable {srv : Nat} {s s' : Drain} {batch : List RemoteInodeChange} {e : RemoteInodeChange}

theorem marked_getElem? {start k : Nat}
    (h : (marked start batch)[k]? = some e) : e.origins = [(0, start + k)] := by
  rw [marked, getElem?_mapIdx] at h
  obtain ⟨c, -, rfl⟩ := map_eq_some_iff.mp h
  rfl

/-- The places in the drained part of the log. -/
theorem DrainInv.total_taken (h : DrainInv s) (k n : Nat) (hn : n ≤ s.disk.remoteLog.length) :
    total (standsFor k) (s.disk.remoteLog.take n) = if k < n then 1 else 0 := by
  induction n with
  | zero => rfl
  | succ n ih =>
    have hlt : n < s.disk.remoteLog.length := hn
    have hget := getElem?_eq_getElem hlt
    have hmark := h.marks n _ hget
    rw [take_add_one, hget, toList_some, total_append, ih (by omega), total_cons,
      total_nil,
      standsFor, hmark, count_singleton]
    by_cases hkn : k = n
    · simp [hkn]
    · have hbeq : ((0, n) == (0, k)) = false := by simpa using fun he : n = k => hkn he.symm
      rw [hbeq]
      by_cases hlt' : k < n
      · simp [hlt', show k < n + 1 by omega]
      · simp [hlt', show ¬k < n + 1 by omega]

theorem DrainInv.accounted (h : DrainInv s) {k : Nat}
    (hk : k < s.disk.remoteDrained) (he : s.disk.remoteLog[k]? = some e) : Accounted s k e := by
  have hone :
      ((s.applied ++ s.disk.deferred).flatMap RemoteInodeChange.origins).count (0, k) = 1 := by
    have := h.once k
    rw [h.total_taken k _ h.bound, if_pos hk, total_standsFor] at this
    exact_mod_cast this
  refine ⟨hone, ?_⟩
  have hmem : (0, k) ∈ (s.applied ++ s.disk.deferred).flatMap RemoteInodeChange.origins :=
    count_pos_iff.mp (by omega)
  obtain ⟨c, hc, hkc⟩ := mem_flatMap.mp hmem
  have hrep := h.entries c hc
  obtain ⟨e', he', hop, hid⟩ := hrep.origins (0, k) hkc
  obtain rfl : e = e' := Option.some.inj (he.symm.trans he')
  refine ⟨c, hc, hkc, hop.symm, hid.symm, ?_⟩
  cases hcan : c.op.canCoalesce with
  | false =>
    obtain ⟨p, x, ho, hx, hs⟩ := hrep.alone hcan
    rw [ho, mem_singleton] at hkc
    rw [← hkc] at hx
    obtain rfl : e = x := Option.some.inj (he.symm.trans hx)
    exact .inl hs
  | true =>
    by_cases hsum : c.op = .blocksDelta
    · exact .inr (.inl ⟨hop.trans hsum, hrep.sum hsum⟩)
    · have hkind : c.op = .setattr ∨ c.op = .touchCtime := by
        cases hc' : c.op <;> simp_all [RemoteInodeChangeOp.canCoalesce]
      obtain ⟨⟨p, hp, x, hx, hs⟩, hle⟩ := hrep.newest hkind
      rcases Nat.lt_or_eq_of_le (hle (0, k) hkc e he) with hlt | heq
      · exact .inr (.inr ⟨hop ▸ hkind, hlt⟩)
      · -- the change of the same version is the change itself
        have hclash : x.Clash e := ⟨hs.op ▸ hkind, hs.op.trans hop.symm,
          hs.inodeId.trans hid.symm, hs.version.trans heq.symm⟩
        have hsame : p.2 = k := h.distinct.eq hx he hclash
        rw [hsame, he, Option.some.injEq] at hx
        exact .inl (hx ▸ hs)

theorem DrainInv.start (h : (drains srv).start s) : DrainInv s := by
  obtain ⟨region, rfl⟩ := h
  refine ⟨rfl, fun k e he => ?_, .nil, Nat.le_refl _, fun _ => rfl,
    forall_mem_nil _⟩
  simp [Disk.init] at he

/-- A batch arrives. -/
theorem DrainInv.arrive (h : DrainInv s)
    (hok : DistinctVersions (s.disk.remoteLog ++ marked s.disk.remoteLog.length batch)) :
    DrainInv { s with disk := { s.disk with
      remoteLog := s.disk.remoteLog ++ marked s.disk.remoteLog.length batch } } := by
  refine ⟨h.limit, fun k e he => ?_, hok, ?_, fun k => ?_, fun c hc => (h.entries c hc).append _⟩
  · replace he : (s.disk.remoteLog ++ marked s.disk.remoteLog.length batch)[k]? = some e := he
    by_cases hlt : k < s.disk.remoteLog.length
    · rw [getElem?_append_left hlt] at he
      exact h.marks k e he
    · rw [getElem?_append_right (by omega)] at he
      rw [marked_getElem? he,
        show s.disk.remoteLog.length + (k - s.disk.remoteLog.length) = k by omega]
  · have := h.bound
    simp only [length_append]
    omega
  · dsimp only
    rw [take_append_of_le_length h.bound]
    exact h.once k

/-- A cycle within the hard limit. -/
theorem DrainInv.cycle (h : DrainInv s) {records : List Record} {ch : Choice} {d : Disk}
    (hlen : (s.disk.nextDeferred srv records ch).length ≤ kDeferredHardLimit)
    (hst : s.disk.doCheckpoint srv records ch = some d) :
    DrainInv ⟨d, s.applied ++ appliedIn (s.disk.replayRegion srv records ch) ch.attempted⟩ := by
  have hcyc := Cycled.of_doCheckpoint hst
  have hadm := hcyc.admitted
  have hdrop : ch.dropped = [] := by
    unfold Disk.doCheckpoint at hst
    split at hst
    · rename_i hall
      simp only [Disk.admits, Bool.and_eq_true] at hall
      exact dropped_nil hall.1.2 (h.limit ▸ hlen)
    · cases hst
  obtain ⟨-, -, hdrained, hlog, hdef⟩ := hcyc.eq_drain
  have hhard : d.hardLimit = s.disk.hardLimit := by
    cases hcyc <;> rfl
  refine ⟨hhard.trans h.limit, hlog ▸ h.marks, hlog ▸ h.distinct, ?_, fun k => ?_, fun c hc => ?_⟩
  · rw [hdrained, hlog]
    exact hadm.remote
  · have honce := hadm.once hdrop (additive_standsFor k)
    have hbefore := h.once k
    rw [total_append] at hbefore
    dsimp only
    rw [hdef, hdrained, hlog, take_add, total_append, total_append, total_append, ← hbefore]
    omega
  · dsimp only at hc ⊢
    rw [hlog]
    rw [hdef] at hc
    -- what a cycle attempts or defers is a coalesced entry
    have hentry : ∀ c ∈ ch.attempted ++ ch.kept, Represents s.disk.remoteLog c := by
      intro c hc
      refine Represents.coalesce (fun e he => ?_) c (hadm.mem_remoteEntries hc)
      rcases mem_append.mp he with he | he
      · exact h.entries e (mem_append_right _ he)
      · have hmem := mem_of_mem_drop (mem_of_mem_take he)
        obtain ⟨k, hk⟩ := mem_iff_getElem?.mp hmem
        exact .single (p := (0, k)) hk (h.marks k e hk)
    rcases mem_append.mp hc with hc | hc
    · rcases mem_append.mp hc with hc | hc
      · exact h.entries c (mem_append_left _ hc)
      · have hatt := (perm_applied _ _).mem_iff.mp (mem_append_left _ hc)
        exact hentry c (mem_append_left _ hatt)
    · exact hentry c (mem_append_right _ hc)

theorem DrainInv.step (h : DrainInv s) {a : DrainAct} (hok : DrainSafe srv s a)
    (hst : (drains srv).step s a = some s') : DrainInv s' := by
  cases a with
  | arrive batch =>
    cases hst
    exact h.arrive hok
  | flash region =>
    cases hst
    exact ⟨h.limit, h.marks, h.distinct, h.bound, h.once, h.entries⟩
  | cycle records ch =>
    obtain ⟨d, hd, rfl⟩ := map_eq_some_iff.mp hst
    exact h.cycle hok hd

end Runs

/-- **No remote change is dropped** in a run whose deferred list stays within the hard limit: every
drained change is applied or deferred, once. -/
theorem drained_accounted {srv : Nat} {s : Drain} (h : (drains srv).Reach (DrainSafe srv) s)
    {k : Nat} {e : RemoteInodeChange} (hk : k < s.disk.remoteDrained)
    (he : s.disk.remoteLog[k]? = some e) : Accounted s k e := by
  have hinv : DrainInv s := h.invariant (I := DrainInv) ?_ ?_
  · exact hinv.accounted hk he
  · intro s hs
    exact .start hs
  · intro s a s' _ hi hok hst
    exact hi.step hok hst

/-! ### A run within the limit, and one beyond it -/

/-- A region that holds inode 64. -/
def holds64 : Region := Function.update Region.blank 64 ⟨64, 1, 0o644, 0, 0, 0, 0⟩

/-- Two child counts and a mode for inode 64, and a mode for inode 65. -/
def mixedBatch : List RemoteInodeChange :=
  [⟨.blocksDelta, 64, 1, 5, []⟩, ⟨.setattr, 64, 0o600, 6, []⟩, ⟨.blocksDelta, 64, 2, 7, []⟩,
    ⟨.setattr, 65, 0o600, 8, []⟩]

/-- A cycle that sums the child counts, applies two entries and defers one. -/
def mixedCycle : Choice where
  mainCount := 0
  remoteCount := 4
  buckets := [[⟨.setattr, 64, 0o600, 6, [(0, 1)]⟩, ⟨.blocksDelta, 64, 3, 7, [(0, 0), (0, 2)]⟩,
    ⟨.setattr, 65, 0o600, 8, [(0, 3)]⟩]]
  cut := 1
  dropped := []
  kept := [⟨.setattr, 65, 0o600, 8, [(0, 3)]⟩]
  sync := true

/-- A change that was summed up and one that is deferred: the condition is met. -/
theorem drained_accounted_mixed :
    ∃ s, (drains 0).Reach (DrainSafe 0) s ∧ s.applied.length = 2 ∧
      Accounted s 2 ⟨.blocksDelta, 64, 2, 7, [(0, 2)]⟩ ∧
      Accounted s 3 ⟨.setattr, 65, 0o600, 8, [(0, 3)]⟩ := by
  refine System.exists_reach (l := [.arrive mixedBatch, .cycle [] mixedCycle])
    (s := ⟨.init holds64 kDeferredHardLimit, []⟩)
    (Q := fun s => s.applied.length = 2 ∧ s.disk.remoteDrained = 4 ∧
      s.disk.remoteLog[2]? = some ⟨.blocksDelta, 64, 2, 7, [(0, 2)]⟩ ∧
      s.disk.remoteLog[3]? = some ⟨.setattr, 65, 0o600, 8, [(0, 3)]⟩)
    ⟨_, rfl⟩ (by decide +kernel) fun s hreach hs => ?_
  obtain ⟨happlied, hdrained, htwo, hthree⟩ := hs
  exact ⟨happlied, drained_accounted hreach (by omega) htwo,
    drained_accounted hreach (by omega) hthree⟩

/-- `n` new names for inode 64. -/
def newLinks (n : Nat) : List RemoteInodeChange :=
  (List.range n).map fun k => ⟨.link, 64, 0, k, [(0, k)]⟩

theorem newLinks_succ (n : Nat) :
    newLinks (n + 1) = newLinks n ++ [⟨.link, 64, 0, n, [(0, n)]⟩] := by
  simp [newLinks, List.range_succ]

theorem length_newLinks (n : Nat) : (newLinks n).length = n := by simp [newLinks]

theorem coalesce_newLinks (n : Nat) : coalesce (newLinks n) = newLinks n := by
  have hfold : ∀ (es : List RemoteInodeChange) (v : List RemoteInodeChange),
      (∀ e ∈ es, e.op = .link) → es.foldl consume (v, []) = (v ++ es, []) := by
    intro es
    induction es with
    | nil => simp
    | cons e es ih =>
      intro v h
      have hop : e.op.canCoalesce = false := by rw [h e mem_cons_self]; rfl
      rw [foldl_cons, consume, hop, if_neg (by simp),
        ih _ fun x hx => h x (mem_cons_of_mem _ hx), append_assoc, singleton_append]
  have hlink : ∀ e ∈ newLinks n, e.op = .link := by
    intro e he
    obtain ⟨k, -, rfl⟩ := List.mem_map.mp he
    rfl
  rw [coalesce, hfold _ _ hlink]
  simp

/-- Without the inode on flash all of them are deferred. -/
theorem unapplied_newLinks (n : Nat) : unapplied .blank (newLinks n) = newLinks n := by
  have hall : ∀ es : List RemoteInodeChange, (∀ e ∈ es, e.op = .link) →
      unapplied .blank es = es := by
    intro es
    induction es with
    | nil => exact fun _ => rfl
    | cons e es ih =>
      intro h
      have hfail : applyOne .blank e = (.blank, false) := by
        simp [applyOne, h e mem_cons_self, mutateInode, Region.blank, StoredInode.empty]
      rw [unapplied, hfail, if_neg (by simp), ih fun x hx => h x (mem_cons_of_mem _ hx)]
  refine hall _ fun e he => ?_
  obtain ⟨k, -, rfl⟩ := List.mem_map.mp he
  rfl

theorem appliedIn_newLinks (n : Nat) : appliedIn .blank (newLinks n) = [] := by
  have hlen := (perm_applied .blank (newLinks n)).length_eq
  rw [unapplied_newLinks, length_append] at hlen
  exact eq_nil_of_length_eq_zero (by omega)

theorem bucketsOf_newLinks (n : Nat) : bucketsOf (newLinks (n + 1)) [newLinks (n + 1)] = true := by
  have hpage : ∀ c ∈ newLinks (n + 1), c.inodeId = 64 := by
    intro c hc
    obtain ⟨k, -, rfl⟩ := List.mem_map.mp hc
    rfl
  have hsorted : (newLinks (n + 1)).Pairwise fun c e => bucketLe c e = true := by
    rw [newLinks, pairwise_map]
    exact pairwise_lt_range.imp fun h => by simp [bucketLe, Nat.le_of_lt h]
  have hne : newLinks (n + 1) ≠ [] := by
    rw [newLinks_succ]
    simp
  simp only [bucketsOf, flatten_cons, flatten_nil, append_nil, all_cons,
    all_nil, Bool.and_true, Bool.and_eq_true, isPerm_iff, List.all_eq_true,
    decide_eq_true_eq, pairwise_singleton, and_true]
  exact ⟨⟨.refl _, hne, fun c hc e he => by rw [hpage c hc, hpage e he]⟩, hsorted⟩

/-- The state after `n` rounds in which one of the names arrives and is drained, with the deferred
list `deferred`. -/
structure Round (n : Nat) (deferred : List RemoteInodeChange) (s : Drain) : Prop where
  region : s.disk.region = .blank
  log : s.disk.remoteLog = newLinks n
  main : s.disk.drained = 0
  drained : s.disk.remoteDrained = n
  released : s.disk.remoteReleased = n
  deferred : s.disk.deferred = deferred
  limit : s.disk.hardLimit = kDeferredHardLimit
  applied : s.applied = []

/-- The limit on the deferred list need not be respected. -/
def ArrivalSafe (s : Drain) : DrainAct → Prop
  | .arrive batch =>
    DistinctVersions (s.disk.remoteLog ++ marked s.disk.remoteLog.length batch)
  | _ => True

/-- The cycle of a round. -/
def roundCycle (n : Nat) (dropped kept : List RemoteInodeChange) : Choice :=
  ⟨0, 1, [newLinks (n + 1)], 1, dropped, kept, true⟩

/-- One more round. -/
theorem Round.next {n : Nat} {s : Drain} (h : Round n (newLinks n) s)
    (hreach : (drains 0).Reach ArrivalSafe s) {dropped kept : List RemoteInodeChange}
    (htrim : trims kDeferredHardLimit (newLinks (n + 1)) dropped kept = true) :
    ∃ s', (drains 0).Reach ArrivalSafe s' ∧ Round (n + 1) kept s' := by
  have hlog : s.disk.remoteLog ++ marked s.disk.remoteLog.length [⟨.link, 64, 0, n, []⟩] =
      newLinks (n + 1) := by
    simp [marked, h.log, length_newLinks, newLinks_succ]
  have harrive : ArrivalSafe s (.arrive [⟨.link, 64, 0, n, []⟩]) := by
    show DistinctVersions _
    rw [hlog, DistinctVersions, newLinks, pairwise_map]
    refine pairwise_of_forall fun a b hab => ?_
    rcases hab.1 with hk | hk <;> cases hk
  have hstep : (drains 0).step s (.arrive [⟨.link, 64, 0, n, []⟩]) =
      some ⟨{ s.disk with remoteLog := newLinks (n + 1) }, s.applied⟩ := by
    simp only [drains, drainStep, hlog]
  have hreach₁ := hreach.step harrive hstep
  generalize hd : ({ s.disk with remoteLog := newLinks (n + 1) } : Disk) = d at hreach₁
  -- the change is drained behind the deferred ones, and none of them can be applied
  have hentries : d.remoteEntries (roundCycle n dropped kept) = newLinks (n + 1) := by
    rw [← hd, Disk.remoteEntries]
    dsimp only
    rw [h.deferred, h.drained, newLinks_succ, drop_left' (length_newLinks n)]
    simp only [roundCycle, take_one, head?_cons, toList_some]
    rw [← newLinks_succ, coalesce_newLinks]
  have hregion : d.replayRegion 0 [] (roundCycle n dropped kept) = .blank := by
    rw [← hd]
    exact h.region
  have hnext : d.nextDeferred 0 [] (roundCycle n dropped kept) = newLinks (n + 1) := by
    rw [Disk.nextDeferred, hregion]
    simp [roundCycle, Choice.attempted, unapplied_newLinks]
  have hadm : d.admits 0 [] (roundCycle n dropped kept) = true := by
    rw [Disk.admits, hentries, hnext, ← hd]
    simp [roundCycle, h.main, h.drained, h.released, h.limit, htrim, bucketsOf_newLinks,
      length_newLinks]
  have hcycle : (drains 0).step ⟨d, s.applied⟩ (.cycle [] (roundCycle n dropped kept)) =
      some ⟨(d.drain 0 [] (roundCycle n dropped kept)).flush 0, s.applied ++
        appliedIn (d.replayRegion 0 [] (roundCycle n dropped kept))
          (roundCycle n dropped kept).attempted⟩ := by
    simp only [drains, drainStep, Disk.doCheckpoint, hadm, if_true]
    rfl
  have hattempted : (roundCycle n dropped kept).attempted = newLinks (n + 1) := by
    simp [roundCycle, Choice.attempted]
  have hblank : runOps d.region (d.cycleOps 0 [] (roundCycle n dropped kept)) = .blank := by
    have hops : d.cycleOps 0 [] (roundCycle n dropped kept) = (newLinks (n + 1)).map .apply := by
      rw [Disk.cycleOps, hattempted]
      exact append_nil _
    have hreg : d.region = .blank := hd ▸ h.region
    rw [hops, hreg, runOps_appliedIn, appliedIn_newLinks, map_nil, runOps_nil]
  refine ⟨_, hreach₁.step (a := .cycle [] (roundCycle n dropped kept)) trivial hcycle, ?_⟩
  refine ⟨hblank, ?_, ?_, ?_, ?_, rfl, ?_, ?_⟩
  · rw [← hd]
    rfl
  · rw [← hd]
    exact h.main
  · rw [← hd]
    exact congrArg (· + 1) h.drained
  · rw [← hd]
    exact congrArg (· + 1) h.drained
  · rw [← hd]
    exact h.limit
  · dsimp only
    rw [hregion, hattempted, appliedIn_newLinks, h.applied, append_nil]

/-- The rounds the deferred list has room for. -/
theorem rounds {n : Nat} (hn : n ≤ kDeferredHardLimit) :
    ∃ s, (drains 0).Reach ArrivalSafe s ∧ Round n (newLinks n) s := by
  induction n with
  | zero =>
    have hstart : (drains 0).start ⟨.init .blank kDeferredHardLimit, []⟩ := ⟨_, rfl⟩
    exact ⟨_, .start hstart, rfl, rfl, rfl, rfl, rfl, rfl, rfl, rfl⟩
  | succ n ih =>
    obtain ⟨s, hreach, hround⟩ := ih (by omega)
    refine @Round.next n s hround hreach [] (newLinks (n + 1)) ?_
    rw [trims, if_pos (by rw [length_newLinks]; exact hn)]
    simp

/-- The oldest name, and the others. -/
theorem newLinks_split (n : Nat) : newLinks (n + 1) = [⟨.link, 64, 0, 0, [(0, 0)]⟩] ++
    (List.range n).map fun k => ⟨.link, 64, 0, k + 1, [(0, k + 1)]⟩ := by
  rw [newLinks, range_succ_eq_map, map_cons, List.map_map]
  rfl

/-- **The hard limit drops a change**: one more name than the limit arrives for an inode that is not
on flash, and the oldest is neither applied nor deferred any more. -/
theorem hard_limit_drops :
    ∃ s, (drains 0).Reach ArrivalSafe s ∧ 0 < s.disk.remoteDrained ∧
      ∃ e, s.disk.remoteLog[0]? = some e ∧ ¬Accounted s 0 e := by
  obtain ⟨s, hreach, hround⟩ := rounds (Nat.le_refl kDeferredHardLimit)
  have hsplit := newLinks_split kDeferredHardLimit
  have htrim : trims kDeferredHardLimit (newLinks (kDeferredHardLimit + 1))
      [⟨.link, 64, 0, 0, [(0, 0)]⟩]
      ((List.range kDeferredHardLimit).map fun k =>
        ⟨.link, 64, 0, k + 1, [(0, k + 1)]⟩) = true := by
    rw [trims, if_neg (by rw [length_newLinks]; omega), ← hsplit]
    simp [isPerm_iff]
  obtain ⟨s', hreach', hround'⟩ := hround.next hreach htrim
  refine ⟨s', hreach', by rw [hround'.drained]; omega, ⟨.link, 64, 0, 0, [(0, 0)]⟩, ?_,
    fun hacc => ?_⟩
  · rw [hround'.log, hsplit]
    rfl
  · have hone := hacc.once
    rw [hround'.applied, hround'.deferred, nil_append, List.count_eq_zero.mpr] at hone
    · cases hone
    · intro hmem
      obtain ⟨c, hc, h0⟩ := mem_flatMap.mp hmem
      obtain ⟨k, -, rfl⟩ := List.mem_map.mp hc
      simp at h0

end StaxFS.Persist
