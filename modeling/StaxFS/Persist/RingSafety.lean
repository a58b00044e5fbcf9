import StaxFS.Listing.Stored
import StaxFS.Persist.RemoteRing

/-!
# Both rings are safe

What the two logs of a server have in common, in runs without the orphan skip: the checkpoint does not
pass the head and the head stays within one turn of it, calls that still write do so in different
slots, nothing outside the window looks published, and the walk of the checkpoint over the ring takes
every published record once, in the order of the reservations, up to the first that is not published.

In the main log a record is published as a whole, so a call that has not returned holds all its slots.
A call on the remote log publishes slot by slot, and loses the slots that were drained and cleared
while it goes on writing: its reserved slots are its own only from the checkpoint on.

Results:
* `ring_safety`: the above, for both logs, any capacity and any number of calls.
* `reserved_slot_shared`: two unfinished calls on the remote log whose reservations have a physical
  slot in common.
-/

namespace StaxFS.Persist

open Foundation Wal Dent List Option

/-! ### The main log -/

/-- The orphan skip is left out. -/
def NoSkip (_ : Sys) (a : Act) : Prop := a ≠ .ckpt .skipAdvance

/-- The main log in one state. -/
structure CompactSafe (c : Config) (s : Sys) : Prop where
  cp_le : s.cp ≤ s.head
  room : s.head < s.cp + c.capacity
  /-- unfinished calls have different slots -/
  distinct : ∀ t t' p p', t ≠ t' → ¬(s.apps t).IsReturned → ¬(s.apps t').IsReturned →
    (s.apps t).Owns p → (s.apps t').Owns p' → c.index p ≠ c.index p'
  outside : ∀ p, s.head ≤ p → p < s.cp + c.capacity → (s.slotAt c p).isReady = false
  /-- a continuation slot in the window does not look like a record -/
  continuation : ∀ t pos n p, (s.apps t).span = some (pos, n) → pos < p → p < pos + n → s.cp ≤ p →
    (s.slotAt c p).isReady = false
  /-- the walk takes the records in the order of the reservations -/
  order : s.replayed.Pairwise fun r r' => r.pos < r'.pos
  visited : ∀ r : Replay, r ∈ s.replayed ↔ ∃ t req l v, s.apps t = .returned req r.pos l v ∧
    r.pos < s.frontier ∧ r.entry = req.published l v ∧ r.dents = req.events v
  /-- and it has passed none that was not published -/
  behind : ∀ t p, (s.apps t).Owns p → p < s.frontier → (s.apps t).IsReturned
  stops : s.frontier < s.head → ((s.slotAt c s.frontier).isReady = true ↔
    ∃ t req l v, s.apps t = .returned req s.frontier l v)

/-- What runs without the skip keep, besides the ring's invariant. -/
structure SkipFree (s : Sys) : Prop where
  notClearing : ∀ pos, s.ckpt ≠ .skipClear pos
  order : s.replayed.Pairwise fun r r' => r.pos < r'.pos
  released : ∀ t p, (s.apps t).Owns p → p < s.cp → (s.apps t).IsReturned

section Main

variable {c : Config} {s s' : Sys} {a : Act}

/-- What a step other than the skip does to the checkpoint and to the walk. -/
theorem noSkip_rule (ha : a ≠ .ckpt .skipAdvance) (hst : step c s a = some s') :
    (s'.cp = s.cp ∨ (∃ next, s.ckpt = .clearing next) ∧ s'.cp = s.pendingMain) ∧
      (s'.replayed = s.replayed ∨ ∃ r : Replay, s'.replayed = s.replayed ++ [r] ∧
        r.pos = s.frontier) ∧
      ((∀ pos, s.ckpt ≠ .skipClear pos) → ∀ pos, s'.ckpt ≠ .skipClear pos) := by
  cases Step.of_step hst with
  | app _ hst | list hst => cases hst <;> exact ⟨.inl rfl, .inl rfl, id⟩
  | ckpt hst =>
    cases hst with
    | idle hpc _ => exact ⟨.inl rfl, .inl rfl, id⟩
    | decodeLast hpc _ | decode hpc _ =>
      refine ⟨.inl rfl, .inr ⟨_, rfl, ?_⟩, fun _ _ he => by cases he⟩
      rw [Sys.frontier, hpc]
      rfl
    | advance hpc _ => exact ⟨.inr ⟨⟨_, hpc⟩, rfl⟩, .inl rfl, fun _ _ he => by cases he⟩
    | skipAdvance _ => exact absurd rfl ha
    | _ => exact ⟨.inl rfl, .inl rfl, fun _ _ he => by cases he⟩

theorem SkipFree.step (h : SkipFree s) (hi : RingInv c s) (hi' : RingInv c s')
    (ha : a ≠ .ckpt .skipAdvance) (hst : step c s a = some s') : SkipFree s' := by
  obtain ⟨hcp, hrep, hclear⟩ := noSkip_rule ha hst
  refine ⟨hclear h.notClearing, ?_, fun t p ho hp => ?_⟩
  · rcases hrep with he | ⟨r, he, hr⟩
    · rw [he]
      exact h.order
    · rw [he, pairwise_append]
      refine ⟨h.order, pairwise_singleton _ _, fun x hx y hy => ?_⟩
      rw [mem_singleton.mp hy, hr]
      obtain ⟨_, _, _, _, -, hlt, -⟩ := hi.replays.mem.mp hx
      exact hlt
  · -- the owner of the position has returned before the step, so it is the same call
    have hold : ∃ t', (s.apps t').Owns p ∧ (s.apps t').IsReturned := by
      have hfront := hi.progress.frontier_le
      have hlow : p < s.frontier := by
        rcases hcp with he | ⟨⟨next, hpc⟩, he⟩
        · rw [he] at hp
          exact hp.trans_le hi.progress.cp_le
        · rw [he] at hp
          rw [Sys.frontier, hpc]
          exact hp.trans_le (le_max_left _ _)
      obtain ⟨t', ho'⟩ := hi.ledger.owned (hlow.trans_le hfront)
      refine ⟨t', ho', ?_⟩
      by_cases hlt : p < s.cp
      · exact h.released t' p ho' hlt
      · exact hi.progress.drained (Nat.le_of_not_lt hlt) hlow ho'
    obtain ⟨t', ho', req, pos, l, v, he⟩ := hold
    have he' := returned_stable hst he
    have howns : (s'.apps t').Owns p := by
      rw [he']
      rwa [he] at ho'
    rw [hi'.ledger.unique ho howns, he']
    exact ⟨req, pos, l, v, rfl⟩

theorem NoSkip.skipsOnlyDead (s : Sys) (a : Act) (h : NoSkip s a) : SkipsOnlyDead s a := by
  unfold SkipsOnlyDead
  split
  · exact absurd rfl h
  · trivial

theorem skipFree_of_reach (h : (system c).Reach NoSkip s) : SkipFree s := by
  refine h.invariant (I := SkipFree) ?_ fun s a s' hr hs ha hst => ?_
  · rintro s ⟨dent, -, rfl⟩
    exact ⟨fun _ => nofun, List.Pairwise.nil, fun _ _ _ hp => absurd hp (Nat.not_lt_zero _)⟩
  · have hr' := hr.weaken NoSkip.skipsOnlyDead
    exact hs.step (.of_reach hr')
      (.of_reach (.step hr' (NoSkip.skipsOnlyDead s a ha) hst)) ha hst

theorem compactSafe_of_reach (h : (system c).Reach NoSkip s) : CompactSafe c s := by
  have hi := RingInv.of_reach (h.weaken NoSkip.skipsOnlyDead)
  have hs := skipFree_of_reach h
  have hclear : s.cp ≤ s.clearPos := by
    have hpc := hi.pcOk
    cases hck : s.ckpt with
    | clearing next =>
      simp only [Sys.PcOk, hck] at hpc
      rw [Sys.clearPos, hck]
      exact hpc.1
    | skipClear pos => exact absurd hck (hs.notClearing pos)
    | _ => rw [Sys.clearPos, hck]; exact le_rfl
  have hroom := hi.window.room
  have hbehind : ∀ t p, (s.apps t).Owns p → p < s.frontier → (s.apps t).IsReturned := by
    intro t p ho hp
    by_cases hlt : p < s.cp
    · exact hs.released t p ho hlt
    · exact hi.progress.drained (Nat.le_of_not_lt hlt) hp ho
  -- in the window, only the first slot of a returned record looks published
  have hwindow : ∀ p, s.cp ≤ p → p < s.head → (∀ t req l v, s.apps t ≠ .returned req p l v) →
      (s.slotAt c p).isReady = false := by
    intro p hp hlt hnone
    by_cases hge : s.clearPos ≤ p
    · exact hi.not_ready hge hlt hnone
    · -- cleared already
      have hzero := hi.window.free (p := p + c.capacity) (by omega) (by omega)
      rw [c.index_add_capacity] at hzero
      rw [Sys.slotAt, hzero, Slot.zero_not_ready]
  refine ⟨hi.progress.cp_le.trans hi.progress.frontier_le, hroom, ?_, fun p hge hlt => ?_, ?_,
    hs.order, fun r => hi.replays.mem, hbehind, fun hlt => ⟨fun hready => ?_, ?_⟩⟩
  · intro t t' p p' hne hopen hopen' ho ho' he
    have hfront := hi.progress.cp_le
    have hp : s.cp ≤ p := hfront.trans (Nat.le_of_not_lt fun hlt => hopen (hbehind t p ho hlt))
    have hp' : s.cp ≤ p' := hfront.trans (Nat.le_of_not_lt fun hlt => hopen' (hbehind t' p' ho' hlt))
    have hpp := c.index_inj hp ((hi.ledger.lt_head ho).trans hroom) hp'
      ((hi.ledger.lt_head ho').trans hroom) he
    subst hpp
    exact hne (hi.ledger.unique ho ho')
  · rw [Sys.slotAt, hi.window.free hge (by omega), Slot.zero_not_ready]
  · intro t pos n p hspan hgt hlt hp
    have ho : (s.apps t).Owns p := (AppendPc.owns_of_span hspan).mpr ⟨hgt.le, hlt⟩
    refine hwindow p hp (hi.ledger.lt_head ho) fun t' req l v he => ?_
    have hspan' : (s.apps t').span = some (p, req.slots) := by rw [he]; rfl
    have ho' := AppendPc.owns_start hspan'
    rw [hi.ledger.unique ho' ho, hspan] at hspan'
    cases hspan'
    exact absurd hgt (Nat.lt_irrefl _)
  · by_contra hnone
    push Not at hnone
    rw [hwindow _ hi.progress.cp_le hlt hnone] at hready
    cases hready
  · rintro ⟨t, req, l, v, he⟩
    rw [hi.slotAt_returned he hi.progress.clear_le]
    exact req.isReady_published l v

end Main

/-! ### The remote log -/

/-- The remote log in one state. -/
structure RemoteSafe (c : Config) (s : RemoteSys) : Prop where
  cp_le : s.cp ≤ s.head
  room : s.head < s.cp + c.capacity
  /-- unfinished calls have different slots, from the checkpoint on -/
  distinct : ∀ t t' p p', t ≠ t' → (s.calls t).Unfinished → (s.calls t').Unfinished →
    (s.calls t).Owns p → (s.calls t').Owns p' → s.cp ≤ p → s.cp ≤ p' → c.index p ≠ c.index p'
  /-- and what a call has still to write is there -/
  toWrite : ∀ t p, (s.calls t).Owns p → (s.calls t).content p = none → s.cp ≤ p
  outside : ∀ p, s.head ≤ p → p < s.cp + c.capacity → s.readyAt c p = false
  order : s.drained.Pairwise fun x y => x.1 < y.1
  visited : ∀ x, x ∈ s.drained ↔ x.1 < s.frontier ∧
    ∃ t, (s.calls t).Owns x.1 ∧ (s.calls t).content x.1 = some x.2
  behind : ∀ t p, (s.calls t).Owns p → p < s.frontier →
    ∃ e, (s.calls t).content p = some e ∧ e.isReady = true
  stops : s.frontier < s.head → (s.readyAt c s.frontier = true ↔
    ∃ t e, (s.calls t).Owns s.frontier ∧ (s.calls t).content s.frontier = some e ∧
      e.isReady = true)

theorem RemoteInv.safe {c : Config} {s : RemoteSys} (h : RemoteInv c s) : RemoteSafe c s := by
  have hcp := h.cp_le
  have hclear := h.clear_le
  have hroom := h.room
  have hbehind : ∀ t p, (s.calls t).Owns p → p < s.frontier →
      ∃ e, (s.calls t).content p = some e ∧ e.isReady = true ∧ (p, e) ∈ s.drained := by
    intro t p ho hp
    obtain ⟨t', e, ho', hc, hr, hmem⟩ := h.published hp
    rw [h.unique t t' p ho ho']
    exact ⟨e, hc, hr, hmem⟩
  refine ⟨(hcp.trans hclear).trans h.frontier_le, hroom, ?_, ?_, ?_, ?_, ?_, ?_, fun hlt => ?_⟩
  · intro t t' p p' hne _ _ ho ho' hp hp' he
    have hpp := c.index_inj hp ((h.lt_head t p ho).trans hroom) hp'
      ((h.lt_head t' p' ho').trans hroom) he
    subst hpp
    exact hne (h.unique t t' p ho ho')
  · exact fun t p ho hc => (hcp.trans hclear).trans (h.unwritten ho hc)
  · intro p hge hlt
    rw [RemoteSys.readyAt, h.free p hge (by omega)]
    rfl
  · have hsorted : (s.drained.map Prod.fst).Pairwise (· < ·) := by
      rw [h.positions]
      exact pairwise_lt_range
    exact pairwise_map.mp hsorted
  · intro x
    constructor
    · intro hx
      obtain ⟨t, ho, hc, -⟩ := h.entries x hx
      refine ⟨?_, t, ho, hc⟩
      have hmem := List.mem_map_of_mem (f := Prod.fst) hx
      rw [h.positions] at hmem
      exact mem_range.mp hmem
    · rintro ⟨hlt, t, ho, hc⟩
      obtain ⟨e, hc', -, hmem⟩ := hbehind t x.1 ho hlt
      rw [hc] at hc'
      cases hc'
      exact hmem
  · intro t p ho hp
    obtain ⟨e, hc, hr, -⟩ := hbehind t p ho hp
    exact ⟨e, hc, hr⟩
  · obtain ⟨t, ho⟩ := h.owned s.frontier hlt
    have hslot := h.held t s.frontier ho hclear
    rw [RemoteSys.readyAt, hslot]
    constructor
    · intro hready
      cases hc : (s.calls t).content s.frontier with
      | none =>
        rw [hc] at hready
        cases hready
      | some e =>
        rw [hc] at hready
        exact ⟨t, e, ho, hc, hready⟩
    · rintro ⟨t', e, ho', hc, hr⟩
      rw [h.unique t' t _ ho' ho] at hc
      rw [hc]
      exact hr

/-- **Both rings are safe**, for any capacity, any number of calls and any order of their steps and
those of the checkpoint thread, the orphan skip apart. -/
theorem ring_safety {c : Config} {s : Sys} {x : RemoteSys} (hs : (system c).Reach NoSkip s)
    (hx : (remoteRing c).Reach (fun _ _ => True) x) : CompactSafe c s ∧ RemoteSafe c x :=
  ⟨compactSafe_of_reach hs, (RemoteInv.of_reach hx).safe⟩

/-- A change of an inode, for the runs below. -/
def someChange : RemoteInodeChange := ⟨.touchCtime, 7, 0, 5, []⟩

/-- A call reserves three of four slots and publishes two; they are drained, cleared and released, and
a second call reserves the two that are free. -/
def partlyDrained : List RemoteAct :=
  [.start 0 [someChange, someChange, someChange] 0, .loadCheckpoint 0, .cas 0 false,
    .fetchAdd 0, .dramWrite 0, .fetchAdd 0, .dramWrite 0,
    .openCycle, .readEntry, .readEntry, .readEntry, .settle true, .clearSlot, .clearSlot,
    .advanceCheckpoint,
    .start 1 [someChange, someChange] 3, .loadCheckpoint 1, .cas 1 false]

theorem partlyDrained_run : ((remoteRing fourSlots).runLabels partlyDrained .init).map (fun x =>
      (x.calls 0, x.calls 1, x.drained.map Prod.fst, x.cp)) =
      some (.reserved [someChange, someChange, someChange] 0 3
          [⟨1, someChange⟩, ⟨2, someChange⟩] .fetch,
        .reserved [someChange, someChange] 3 2 [] .fetch, [0, 1], 2) := by decide +kernel

/-- The main log after a record is published and replayed, and the remote log after that run. -/
theorem ring_safety_partlyDrained :
    ∃ s x, (system fourSlots).Reach NoSkip s ∧ s.replayed.length = 1 ∧
      (remoteRing fourSlots).Reach (fun _ _ => True) x ∧ x.cp = 2 ∧
      CompactSafe fourSlots s ∧ RemoteSafe fourSlots x := by
  have hrun : ((system fourSlots).runLabels
      [.app 0 (.begin (.setattr 7 0o644)), .app 0 .loadCheckpoint, .app 0 (.cas false),
        .app 0 .allocLocalSeq, .app 0 (.nextVersion 5), .app 0 .dramWrite,
        .ckpt (.openCycle ⟨false, 0, 0, false⟩), .ckpt .readSlot,
        .ckpt (.decode (fun _ => 0) false)] (Sys.init (.init 8))).map
      (fun s => s.replayed.length) = some 1 := by decide +kernel
  obtain ⟨s, hs, hlen⟩ := map_eq_some_iff.mp hrun
  obtain ⟨x, hx, he⟩ := map_eq_some_iff.mp partlyDrained_run
  simp only [Prod.mk.injEq] at he
  have hs : (system fourSlots).Reach NoSkip s :=
    System.reach_runLabels ⟨_, SSDDentRegion.wf_init 8, rfl⟩ (by simp [NoSkip]) hs
  have hx : (remoteRing fourSlots).Reach (fun _ _ => True) x :=
    System.reach_runLabels rfl (fun _ _ _ => trivial) hx
  exact ⟨s, x, hs, hlen, hx, he.2.2.2, ring_safety hs hx⟩

/-- **Two unfinished calls with a slot in common**: position 0 of the first call and position 4 of
the second are the same physical slot. The first call has written it long before. -/
theorem reserved_slot_shared :
    ∃ x p p', (remoteRing fourSlots).Reach (fun _ _ => True) x ∧
      (x.calls 0).Unfinished ∧ (x.calls 1).Unfinished ∧ (x.calls 0).Owns p ∧ (x.calls 1).Owns p' ∧
      fourSlots.index p = fourSlots.index p' := by
  obtain ⟨x, hx, he⟩ := map_eq_some_iff.mp partlyDrained_run
  simp only [Prod.mk.injEq] at he
  refine ⟨x, 0, 4, System.reach_runLabels rfl (fun _ _ _ => trivial) hx, ?_⟩
  rw [he.1, he.2.1]
  simp only [RemotePc.Unfinished, RemotePc.Owns]
  decide

end StaxFS.Persist
