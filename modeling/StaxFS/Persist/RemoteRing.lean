import StaxFS.Persist.Region
import StaxFS.Wal.Drain

/-!
# The ring of the remote log

`RemoteInodeWAL` of `server/cxl_persistence.h`, slot by slot: any number of calls of
`TryAppendPartial` against the checkpoint thread, which drains the ready entries, and after a sync
clears what it has drained and moves the checkpoint. A call reserves as many slots as are free, up to
the number of its changes, and publishes them one by one; unlike a record of the main log, its first
slots can be drained, cleared and given away again while it still writes the last ones.

The head a call works with can be stale, and the subtraction of the checkpoint can wrap. A sequence
number of zero would leave a published entry unreadable; `WriteEntry` draws a second one then.

The invariant is that of the main log's ring: the reservations tile the positions up to the head; from
the slot that is cleared next up to the head a slot holds what the call that reserved it has written
there; from the head on, for a full turn, the slots are zero.

Results:
* `RemoteInv.of_reach`: the invariant holds in every state of every run.
-/

namespace StaxFS.Persist

open Foundation Wal List
open Function (update update_of_ne update_self)

/-! ### State and steps -/

/-- `RemoteInodeWalEntry`. -/
structure RemoteInodeWalEntry where
  seq : Nat
  change : RemoteInodeChange
deriving DecidableEq

/-- `IsReady`. -/
def RemoteInodeWalEntry.isReady (e : RemoteInodeWalEntry) : Bool := e.seq ≠ 0

/-- The sequence number of the entry that is written next. -/
inductive SeqPc
  | fetch
  /-- the first number was 0 -/
  | fetchAgain
  | fetched (seq : Nat)
deriving DecidableEq

/-- Where a call of `TryAppendPartial` stands. -/
inductive RemotePc
  | idle
  /-- `cur_head = cur`; `checkpoint_pos_` is loaded next -/
  | loaded (changes : List RemoteInodeChange) (cur : Nat)
  /-- the compare-and-swap is next -/
  | checked (changes : List RemoteInodeChange) (cur take : Nat)
  /-- `take` slots from `pos` on are reserved, and `written` is in the first of them; the call has
  returned when it is in all of them -/
  | reserved (changes : List RemoteInodeChange) (pos take : Nat)
      (written : List RemoteInodeWalEntry) (seq : SeqPc)
  /-- the call returned 0 -/
  | full
deriving DecidableEq

/-- Where the checkpoint thread stands in the remote log. -/
inductive RemoteCkpt
  | idle
  /-- the drain loop, before reading the slot at `pos`; `head` is the cycle's copy of `head_` -/
  | draining (pos head : Nat)
  /-- the loop ended at `pos` -/
  | drainedTo (pos : Nat)
  /-- `ClearRange`, `next` is cleared next -/
  | clearing (next : Nat)
deriving DecidableEq

structure RemoteSys where
  /-- `ring_`; an entry of zeros is none -/
  slots : Nat → Option RemoteInodeWalEntry
  head : Nat
  cp : Nat
  localSeq : Nat
  calls : Nat → RemotePc
  ckpt : RemoteCkpt
  /-- `pending_remote_pos_` -/
  pendingRemote : Nat
  /-- the entries drained so far, with their positions, oldest first -/
  drained : List (Nat × RemoteInodeWalEntry)

def RemoteSys.init : RemoteSys where
  slots _ := none
  head := 0
  cp := 0
  localSeq := 1
  calls _ := .idle
  ckpt := .idle
  pendingRemote := 0
  drained := []

/-- `At(pos)->IsReady()`. -/
def RemoteSys.readyAt (c : Config) (s : RemoteSys) (pos : Nat) : Bool :=
  (s.slots (c.index pos)).any (·.isReady)

def RemoteSys.setCall (s : RemoteSys) (t : Nat) (pc : RemotePc) : RemoteSys :=
  { s with calls := update s.calls t pc }

inductive RemoteAct
  /-- a call with changes to append loads `head_`, perhaps an old value of it -/
  | start (t : Nat) (changes : List RemoteInodeChange) (cur : Nat)
  | loadCheckpoint (t : Nat)
  | cas (t : Nat) (spurious : Bool)
  | fetchAdd (t : Nat)
  | dramWrite (t : Nat)
  | openCycle
  | readEntry
  /-- the end of the cycle, with or without a sync -/
  | settle (sync : Bool)
  | clearSlot
  | advanceCheckpoint

/-- The number of slots a call can take at `cur` when the checkpoint is at `cp`. -/
def takeOf (c : Config) (want cur cp : Nat) : Option Nat :=
  if c.capacity - 1 ≤ subU64 cur cp then none
  else some (min want (c.capacity - 1 - subU64 cur cp))

def remoteStep (c : Config) (s : RemoteSys) : RemoteAct → Option RemoteSys
  | .start t changes cur =>
    if s.calls t = .idle ∧ changes ≠ [] ∧ cur ≤ s.head then some (s.setCall t (.loaded changes cur))
    else none
  | .loadCheckpoint t =>
    match s.calls t with
    | .loaded changes cur =>
      match takeOf c changes.length cur s.cp with
      | some take => some (s.setCall t (.checked changes cur take))
      | none => some (s.setCall t .full)
    | _ => none
  | .cas t spurious =>
    match s.calls t with
    | .checked changes cur take =>
      if s.head = cur ∧ spurious = false then
        some ({ s with head := cur + take }.setCall t (.reserved changes cur take [] .fetch))
      else some (s.setCall t (.loaded changes s.head))
    | _ => none
  | .fetchAdd t =>
    match s.calls t with
    | .reserved changes pos take written seq =>
      let s' := { s with localSeq := (s.localSeq + 1) % 2 ^ 32 }
      if written.length < take then
        match seq with
        | .fetch =>
          some (s'.setCall t (.reserved changes pos take written
            (if s.localSeq = 0 then .fetchAgain else .fetched s.localSeq)))
        | .fetchAgain =>
          some (s'.setCall t (.reserved changes pos take written (.fetched s.localSeq)))
        | .fetched _ => none
      else none
    | _ => none
  | .dramWrite t =>
    match s.calls t with
    | .reserved changes pos take written (.fetched seq) =>
      match changes[written.length]? with
      | some change =>
        let entry : RemoteInodeWalEntry := ⟨seq, change⟩
        let slots := update s.slots (c.index (pos + written.length)) (some entry)
        if written.length < take then
          some ({ s with slots }.setCall t (.reserved changes pos take (written ++ [entry]) .fetch))
        else none
      | none => none
    | _ => none
  | .openCycle =>
    match s.ckpt with
    | .idle =>
      some { s with
        pendingRemote := max s.pendingRemote s.cp
        ckpt := .draining (max s.pendingRemote s.cp) s.head }
    | _ => none
  | .readEntry =>
    match s.ckpt with
    | .draining pos head =>
      if pos < head then
        match s.slots (c.index pos) with
        | some e =>
          if e.isReady then
            some { s with drained := s.drained ++ [(pos, e)], ckpt := .draining (pos + 1) head }
          else some { s with ckpt := .drainedTo pos }
        | none => some { s with ckpt := .drainedTo pos }
      else some { s with ckpt := .drainedTo pos }
    | _ => none
  | .settle sync =>
    match s.ckpt with
    | .drainedTo pos =>
      some { s with
        pendingRemote := pos
        ckpt := if sync ∧ s.cp < pos then .clearing s.cp else .idle }
    | _ => none
  | .clearSlot =>
    match s.ckpt with
    | .clearing next =>
      if next < s.pendingRemote then
        some { s with
          slots := update s.slots (c.index next) none
          ckpt := .clearing (next + 1) }
      else none
    | _ => none
  | .advanceCheckpoint =>
    match s.ckpt with
    | .clearing next =>
      if next < s.pendingRemote then none
      else some { s with cp := s.pendingRemote, ckpt := .idle }
    | _ => none

def remoteRing (c : Config) : System RemoteSys RemoteAct where
  start s := s = .init
  step := remoteStep c

/-! ### The invariant -/

namespace RemotePc

/-- The call has reserved position `p`. -/
def Owns (p : Nat) : RemotePc → Prop
  | .reserved _ pos take _ _ => pos ≤ p ∧ p < pos + take
  | _ => False

/-- What the call has written to its slot at `p`. -/
def content (p : Nat) : RemotePc → Option RemoteInodeWalEntry
  | .reserved _ pos _ written _ => written[p - pos]?
  | _ => none

/-- The call has reserved slots and has not written all of them. -/
def Unfinished : RemotePc → Prop
  | .reserved _ _ take written _ => written.length < take
  | _ => False

/-- What is known of a call when the ring is from `cp` to `head`. -/
def Ok (c : Config) (head cp : Nat) : RemotePc → Prop
  | .loaded changes cur => changes ≠ [] ∧ cur ≤ head
  | .checked changes cur take => 0 < take ∧ take ≤ changes.length ∧ cur + take < cp + c.capacity
  | .reserved changes _ take written _ => take ≤ changes.length ∧ written.length ≤ take
  | _ => True

theorem Ok.mono {c : Config} {head head' cp cp' : Nat} {pc : RemotePc} (h : pc.Ok c head cp)
    (hh : head ≤ head') (hcp : cp ≤ cp') : pc.Ok c head' cp' := by
  cases pc with
  | idle | full => trivial
  | loaded changes cur => exact ⟨h.1, h.2.trans hh⟩
  | checked changes cur take => exact ⟨h.1, h.2.1, by have := h.2.2; omega⟩
  | reserved changes pos take written seq => exact h

end RemotePc

/-- The next position the drain reads. -/
def RemoteSys.frontier (s : RemoteSys) : Nat :=
  match s.ckpt with
  | .draining pos _ | .drainedTo pos => pos
  | .idle | .clearing _ => s.pendingRemote

/-- The oldest slot that is not cleared yet. -/
def RemoteSys.clearPos (s : RemoteSys) : Nat :=
  match s.ckpt with
  | .clearing next => next
  | .draining .. | .drainedTo _ | .idle => s.cp

/-- **The invariant of the ring.** -/
structure RemoteInv (c : Config) (s : RemoteSys) : Prop where
  cp_le : s.cp ≤ s.clearPos
  clear_le : s.clearPos ≤ s.frontier
  pending : s.cp ≤ s.pendingRemote ∧ s.pendingRemote ≤ s.frontier
  frontier_le : s.frontier ≤ s.head
  copy : ∀ pos head, s.ckpt = .draining pos head → head ≤ s.head
  room : s.head < s.cp + c.capacity
  ok : ∀ t, (s.calls t).Ok c s.head s.cp
  unique : ∀ t t' p, (s.calls t).Owns p → (s.calls t').Owns p → t = t'
  lt_head : ∀ t p, (s.calls t).Owns p → p < s.head
  owned : ∀ p < s.head, ∃ t, (s.calls t).Owns p
  held : ∀ t p, (s.calls t).Owns p → s.clearPos ≤ p →
    s.slots (c.index p) = (s.calls t).content p
  free : ∀ p, s.head ≤ p → p < s.clearPos + c.capacity → s.slots (c.index p) = none
  positions : s.drained.map Prod.fst = List.range s.frontier
  entries : ∀ x ∈ s.drained, ∃ t, (s.calls t).Owns x.1 ∧ (s.calls t).content x.1 = some x.2 ∧
    x.2.isReady = true

namespace RemoteInv

variable {c : Config} {s s' : RemoteSys} {t : Nat} {pc : RemotePc}
  {changes : List RemoteInodeChange} {take p : Nat} {written : List RemoteInodeWalEntry}
  {e : RemoteInodeWalEntry} {next pos : Nat}

theorem init : RemoteInv c .init :=
  ⟨Nat.le_refl _, Nat.le_refl _, ⟨Nat.le_refl _, Nat.le_refl _⟩, Nat.le_refl _, nofun,
    by simpa [RemoteSys.init] using c.capacity_pos, fun _ => trivial, fun _ _ _ h => h.elim,
    fun _ _ h => h.elim, fun _ h => absurd h (Nat.not_lt_zero _), fun _ _ h => h.elim,
    fun _ _ _ => rfl, rfl, fun _ h => by cases h⟩

section

variable (h : RemoteInv c s)

include h

/-- What the drain has passed was published. -/
theorem published (hp : p < s.frontier) :
    ∃ t e, (s.calls t).Owns p ∧ (s.calls t).content p = some e ∧ e.isReady = true ∧
      (p, e) ∈ s.drained := by
  have hmem : p ∈ s.drained.map Prod.fst := by
    rw [h.positions]
    exact mem_range.mpr hp
  obtain ⟨x, hx, rfl⟩ := List.mem_map.mp hmem
  obtain ⟨t, ho, hc, hr⟩ := h.entries x hx
  exact ⟨t, x.2, ho, hc, hr, hx⟩

/-- A step of a call that neither reserves nor writes. -/
theorem quiet {old : RemotePc} (pc : RemotePc) (ht : s.calls t = old)
    (howns : ∀ p, pc.Owns p ↔ old.Owns p) (hcontent : ∀ p, pc.content p = old.content p)
    (hok : pc.Ok c s.head s.cp) (localSeq : Nat) :
    RemoteInv c { s.setCall t pc with localSeq } := by
  subst ht
  have howns' : ∀ t' p, (update s.calls t pc t').Owns p ↔ (s.calls t').Owns p :=
    (Function.forall_update_iff s.calls fun t' pc => ∀ p, pc.Owns p ↔ (s.calls t').Owns p).mpr
      ⟨howns, fun _ _ _ => Iff.rfl⟩
  have hcontent' : ∀ t' p, (update s.calls t pc t').content p = (s.calls t').content p :=
    (Function.forall_update_iff s.calls fun t' pc => ∀ p, pc.content p = (s.calls t').content p).mpr
      ⟨hcontent, fun _ _ _ => rfl⟩
  refine ⟨h.cp_le, h.clear_le, h.pending, h.frontier_le, h.copy, h.room,
    (Function.forall_update_iff s.calls fun _ pc => pc.Ok c s.head s.cp).mpr
      ⟨hok, fun t' _ => h.ok t'⟩,
    fun t' t'' p h1 h2 => h.unique t' t'' p ((howns' t' p).mp h1) ((howns' t'' p).mp h2),
    fun t' p ho => h.lt_head t' p ((howns' t' p).mp ho), fun p hp => ?_, fun t' p ho hp => ?_,
    h.free, h.positions, fun x hx => ?_⟩
  · obtain ⟨t', ho⟩ := h.owned p hp
    exact ⟨t', (howns' t' p).mpr ho⟩
  · exact (h.held t' p ((howns' t' p).mp ho) hp).trans (hcontent' t' p).symm
  · obtain ⟨t', ho, hc, hr⟩ := h.entries x hx
    exact ⟨t', (howns' t' _).mpr ho, (hcontent' t' _).trans hc, hr⟩

/-- A room test that passes leaves room. -/
theorem takeOf_spec {want cur : Nat} (hw : 0 < want)
    (hcur : cur ≤ s.head) (ht : takeOf c want cur s.cp = some take) :
    0 < take ∧ take ≤ want ∧ cur + take < s.cp + c.capacity := by
  unfold takeOf at ht
  split at ht
  · cases ht
  · rename_i hlt
    cases ht
    have hroom := h.room
    have hcap := c.capacity_le
    refine ⟨by omega, by omega, ?_⟩
    by_cases hle : s.cp ≤ cur
    · -- no wrap: the number of slots in use
      obtain ⟨d, rfl⟩ := Nat.exists_eq_add_of_le hle
      have hsub : subU64 (s.cp + d) s.cp = d := by
        unfold subU64
        omega
      rw [hsub] at hlt ⊢
      omega
    · omega

theorem reserve (ht : s.calls t = .checked changes s.head take) :
    RemoteInv c ({ s with head := s.head + take }.setCall t
      (.reserved changes s.head take [] .fetch)) := by
  have hok := h.ok t
  rw [ht] at hok
  obtain ⟨hpos, hlen, hroom⟩ := hok
  have hnone : ∀ p, ¬ (s.calls t).Owns p := fun p ho => by
    rw [ht] at ho
    exact ho
  have hother : ∀ t' p, (s.calls t').Owns p → t' ≠ t := by
    rintro t' p ho rfl
    exact hnone p ho
  -- the new slots belong to the call, the others to whom they belonged
  have howns : ∀ t' p, (update s.calls t (.reserved changes s.head take [] .fetch) t').Owns p ↔
      (s.calls t').Owns p ∨ t' = t ∧ s.head ≤ p ∧ p < s.head + take := by
    intro t' p
    by_cases htt : t' = t
    · subst htt
      rw [update_self]
      exact ⟨fun ho => .inr ⟨rfl, ho⟩, fun ho => ho.elim (fun ho => absurd ho (hnone p)) And.right⟩
    · rw [update_of_ne htt]
      exact ⟨.inl, fun ho => ho.elim id fun ho => absurd ho.1 htt⟩
  refine ⟨h.cp_le, h.clear_le, h.pending, h.frontier_le.trans (Nat.le_add_right _ _),
    fun pos head hc => (h.copy pos head hc).trans (Nat.le_add_right _ _), hroom, fun t' => ?_,
    fun t' t'' p h1 h2 => ?_, fun t' p ho => ?_, fun p hp => ?_, fun t' p ho hp => ?_,
    fun p hp hlt => h.free p ((Nat.le_add_right _ _).trans hp) hlt, h.positions, fun x hx => ?_⟩
  · show (update s.calls t _ t').Ok c (s.head + take) s.cp
    by_cases htt : t' = t
    · rw [htt, update_self]
      exact ⟨hlen, Nat.zero_le _⟩
    · rw [update_of_ne htt]
      exact (h.ok t').mono (Nat.le_add_right _ _) le_rfl
  · rcases (howns t' p).mp h1 with ho | ⟨he, hge, -⟩
    · rcases (howns t'' p).mp h2 with ho' | ⟨-, hge, -⟩
      · exact h.unique t' t'' p ho ho'
      · exact absurd (h.lt_head _ p ho) (by omega)
    · rcases (howns t'' p).mp h2 with ho' | ⟨he', -, -⟩
      · exact absurd (h.lt_head _ p ho') (by omega)
      · rw [he, he']
  · rcases (howns t' p).mp ho with ho | ⟨-, -, ho⟩
    · exact (h.lt_head t' p ho).trans_le (Nat.le_add_right _ _)
    · exact ho
  · by_cases hlt : p < s.head
    · obtain ⟨t', ho⟩ := h.owned p hlt
      exact ⟨t', (howns t' p).mpr (.inl ho)⟩
    · exact ⟨t, (howns t p).mpr (.inr ⟨rfl, by omega, hp⟩)⟩
  · show s.slots (c.index p) = (update s.calls t _ t').content p
    rcases (howns t' p).mp ho with hold | ⟨he, hge, hlt⟩
    · rw [update_of_ne (hother t' p hold)]
      exact h.held t' p hold hp
    · rw [he, update_self, h.free p hge ?_]
      · simp [RemotePc.content]
      · have := h.cp_le
        omega
  · obtain ⟨t', ho, hc, hr⟩ := h.entries x hx
    refine ⟨t', (howns t' _).mpr (.inl ho), ?_, hr⟩
    show (update s.calls t _ t').content x.1 = some x.2
    rwa [update_of_ne (hother t' _ ho)]

/-- A slot that the call has still to write is ahead of the drain. -/
theorem unwritten (ho : (s.calls t).Owns p)
    (hc : (s.calls t).content p = none) : s.frontier ≤ p := by
  by_contra hlt
  obtain ⟨t', e, ho', hc', -⟩ := h.published (Nat.lt_of_not_le hlt)
  rw [h.unique t' t p ho' ho, hc] at hc'
  cases hc'

theorem index_ne {q : Nat} (hp : s.cp ≤ p) (hp' : p < s.head)
    (hq : s.cp ≤ q) (hq' : q < s.cp + c.capacity) (hne : p ≠ q) : c.index p ≠ c.index q :=
  fun he => hne (c.index_inj hp (hp'.trans h.room) hq hq' he)

theorem write {seq : Nat} (ht : s.calls t = .reserved changes pos take written (.fetched seq))
    (hlt : written.length < take) : RemoteInv c ({ s with
      slots := update s.slots (c.index (pos + written.length)) (some e) }.setCall t
        (.reserved changes pos take (written ++ [e]) .fetch)) := by
  have hown : ∀ p, (s.calls t).Owns p ↔ pos ≤ p ∧ p < pos + take := fun p => by
    rw [ht]
    rfl
  have hcont : ∀ p, (s.calls t).content p = written[p - pos]? := fun p => by
    rw [ht]
    rfl
  have hself : (s.calls t).Owns (pos + written.length) := (hown _).mpr ⟨by omega, by omega⟩
  have hfront : s.frontier ≤ pos + written.length :=
    h.unwritten hself (by rw [hcont]; simp)
  have hhead := h.lt_head t _ hself
  have hclear := h.clear_le
  have hcp := h.cp_le
  have hroom := h.room
  have howns : ∀ t' p, (update s.calls t
      (.reserved changes pos take (written ++ [e]) .fetch) t').Owns p ↔ (s.calls t').Owns p := by
    intro t' p
    by_cases htt : t' = t
    · rw [htt, update_self]
      exact (hown p).symm
    · rw [update_of_ne htt]
  -- what was written before stays
  have hkeep : ∀ t' p x, (s.calls t').Owns p → (s.calls t').content p = some x →
      (update s.calls t (.reserved changes pos take (written ++ [e]) .fetch) t').content p =
        some x := by
    intro t' p x ho hc
    by_cases htt : t' = t
    · subst htt
      rw [update_self]
      rw [hcont] at hc
      show (written ++ [e])[p - pos]? = some x
      rw [getElem?_append_left (List.getElem?_eq_some_iff.mp hc).1]
      exact hc
    · rwa [update_of_ne htt]
  refine ⟨h.cp_le, h.clear_le, h.pending, h.frontier_le, h.copy, h.room, fun t' => ?_,
    fun t' t'' p h1 h2 => h.unique t' t'' p ((howns t' p).mp h1) ((howns t'' p).mp h2),
    fun t' p ho => h.lt_head t' p ((howns t' p).mp ho), fun p hp => ?_, fun t' p ho hp => ?_,
    fun p hp hpl => ?_, h.positions, fun x hx => ?_⟩
  · show (update s.calls t _ t').Ok c s.head s.cp
    by_cases htt : t' = t
    · have hok := h.ok t
      rw [ht] at hok
      rw [htt, update_self]
      exact ⟨hok.1, by rw [length_append]; exact hlt⟩
    · rw [update_of_ne htt]
      exact h.ok t'
  · obtain ⟨t', ho⟩ := h.owned p hp
    exact ⟨t', (howns t' p).mpr ho⟩
  · replace ho := (howns t' p).mp ho
    replace hp : s.clearPos ≤ p := hp
    show update s.slots (c.index (pos + written.length)) (some e) (c.index p) =
      (update s.calls t _ t').content p
    by_cases hpp : p = pos + written.length
    · subst hpp
      rw [update_self, h.unique t' t _ ho hself, update_self]
      simp [RemotePc.content]
    · rw [update_of_ne (h.index_ne (by omega) (h.lt_head t' p ho) (by omega) (by omega) hpp),
        h.held t' p ho hp]
      by_cases htt : t' = t
      · subst htt
        rw [update_self, hcont]
        have hge := ((hown p).mp ho).1
        show _ = (written ++ [e])[p - pos]?
        rcases Nat.lt_or_ge (p - pos) written.length with hlt' | hge'
        · rw [getElem?_append_left hlt']
        · rw [getElem?_eq_none hge', getElem?_eq_none]
          rw [length_append, length_singleton]
          omega
      · rw [update_of_ne htt]
  · have hpl : p < s.clearPos + c.capacity := hpl
    have hp : s.head ≤ p := hp
    show update s.slots (c.index (pos + written.length)) (some e) (c.index p) = none
    rw [update_of_ne, h.free p hp hpl]
    intro he
    have := @Config.index_inj c s.clearPos _ _ (by omega) hpl (by omega) (by omega) he
    omega
  · obtain ⟨t', ho, hc, hr⟩ := h.entries x hx
    exact ⟨t', (howns t' _).mpr ho, hkeep t' _ _ ho hc, hr⟩

/-- A step of the checkpoint thread that moves neither the drain nor the clearing. -/
theorem recheckpoint {ckpt : RemoteCkpt} {pendingRemote : Nat}
    (hclear : RemoteSys.clearPos { s with ckpt, pendingRemote } = s.clearPos)
    (hfront : RemoteSys.frontier { s with ckpt, pendingRemote } = s.frontier)
    (hpending : s.cp ≤ pendingRemote ∧ pendingRemote ≤ s.frontier)
    (hcopy : ∀ pos head, ckpt = .draining pos head → head ≤ s.head) :
    RemoteInv c { s with ckpt, pendingRemote } := by
  refine ⟨?_, ?_, ?_, ?_, hcopy, h.room, h.ok, h.unique, h.lt_head, h.owned, ?_, ?_, ?_, h.entries⟩
  · rw [hclear]
    exact h.cp_le
  · rw [hclear, hfront]
    exact h.clear_le
  · rw [hfront]
    exact hpending
  · rw [hfront]
    exact h.frontier_le
  · rw [hclear]
    exact h.held
  · rw [hclear]
    exact h.free
  · rw [hfront]
    exact h.positions

/-- The drain takes the entry at its position. -/
theorem drain {head : Nat} (hck : s.ckpt = .draining pos head) (hlt : pos < head)
    (hslot : s.slots (c.index pos) = some e) (hready : e.isReady = true) :
    RemoteInv c { s with drained := s.drained ++ [(pos, e)], ckpt := .draining (pos + 1) head } := by
  have hfront : s.frontier = pos := by rw [RemoteSys.frontier, hck]
  have hclear : s.clearPos = s.cp := by rw [RemoteSys.clearPos, hck]
  have hhead := h.copy pos head hck
  have hc := h.clear_le
  have hp := h.pending
  rw [hfront] at hp
  rw [hclear, hfront] at hc
  refine ⟨le_rfl, hc.trans (Nat.le_succ _), ⟨hp.1, hp.2.trans (Nat.le_succ _)⟩, ?_, ?_, h.room, h.ok,
    h.unique, h.lt_head, h.owned, ?_, ?_, ?_, fun x hx => ?_⟩
  · exact Nat.lt_of_lt_of_le hlt hhead
  · intro pos' head' he
    cases he
    exact hhead
  · intro t p ho hge
    exact h.held t p ho (by rwa [hclear])
  · intro p hge hlt'
    exact h.free p hge (by rwa [hclear])
  · show (s.drained ++ [(pos, e)]).map Prod.fst = List.range (pos + 1)
    rw [map_append, h.positions, hfront, List.range_succ]
    rfl
  · rcases mem_append.mp hx with hx | hx
    · exact h.entries x hx
    · obtain ⟨t, ho⟩ := h.owned pos (Nat.lt_of_lt_of_le hlt hhead)
      rw [mem_singleton.mp hx]
      refine ⟨t, ho, ?_, hready⟩
      rw [← h.held t pos ho (by rwa [hclear]), hslot]

theorem clearOne (hck : s.ckpt = .clearing next) (hlt : next < s.pendingRemote) :
    RemoteInv c { s with
      slots := update s.slots (c.index next) none, ckpt := .clearing (next + 1) } := by
  have hfront : s.frontier = s.pendingRemote := by rw [RemoteSys.frontier, hck]
  have hclear : s.clearPos = next := by rw [RemoteSys.clearPos, hck]
  have hcp := h.cp_le
  have hhead := h.frontier_le
  have hroom := h.room
  rw [hclear] at hcp
  rw [hfront] at hhead
  refine ⟨hcp.trans (Nat.le_succ _), hlt, ⟨h.pending.1, le_rfl⟩, hhead, nofun, h.room, h.ok, h.unique,
    h.lt_head, h.owned, fun t p ho hge => ?_, fun p hge hlt' => ?_, ?_, h.entries⟩
  · replace hge : next + 1 ≤ p := hge
    have hp := h.lt_head t p ho
    show update s.slots (c.index next) none (c.index p) = _
    rw [update_of_ne (h.index_ne (by omega) hp hcp (by omega) (by omega))]
    exact h.held t p ho (by omega)
  · replace hlt' : p < next + 1 + c.capacity := hlt'
    show update s.slots (c.index next) none (c.index p) = none
    by_cases he : c.index p = c.index next
    · rw [he, update_self]
    · rw [update_of_ne he]
      refine h.free p hge ?_
      have hne : p ≠ next + c.capacity := by
        rintro rfl
        exact he (c.index_add_capacity next)
      omega
  · have hpos := h.positions
    rw [hfront] at hpos
    exact hpos

theorem advance (hck : s.ckpt = .clearing next)
    (hge : s.pendingRemote ≤ next) : RemoteInv c { s with cp := s.pendingRemote, ckpt := .idle } := by
  have hfront : s.frontier = s.pendingRemote := by rw [RemoteSys.frontier, hck]
  have hclear : s.clearPos = s.pendingRemote := by
    have := h.clear_le
    rw [hfront, RemoteSys.clearPos, hck] at this
    rw [RemoteSys.clearPos, hck]
    exact Nat.le_antisymm this hge
  have hcp := h.pending.1
  have hroom := h.room
  refine ⟨le_rfl, le_rfl, ⟨le_rfl, le_rfl⟩, ?_, nofun, ?_, ?_, h.unique, h.lt_head, h.owned, ?_, ?_,
    ?_, h.entries⟩
  · rw [← hfront]
    exact h.frontier_le
  · show s.head < s.pendingRemote + c.capacity
    omega
  · exact fun t => (h.ok t).mono le_rfl hcp
  · intro t p ho hge'
    exact h.held t p ho (by rwa [hclear])
  · intro p hge' hlt'
    exact h.free p hge' (by rwa [hclear])
  · have hpos := h.positions
    rw [hfront] at hpos
    exact hpos

/-- A call that stands at `pc` is in order. -/
theorem ok_at (ht : s.calls t = pc) : pc.Ok c s.head s.cp := ht ▸ h.ok t

/-- A call draws a sequence number. -/
theorem fetch {seq : SeqPc}
    (ht : s.calls t = .reserved changes pos take written seq) (seq' : SeqPc) (localSeq : Nat) :
    RemoteInv c { s.setCall t (.reserved changes pos take written seq') with localSeq } := by
  have hok := h.ok_at ht
  exact h.quiet (.reserved changes pos take written seq') ht (fun _ => Iff.rfl) (fun _ => rfl) hok
    localSeq

/-- The drain ends at its position. -/
theorem stop {head : Nat} (hck : s.ckpt = .draining pos head) :
    RemoteInv c { s with ckpt := .drainedTo pos } := by
  refine h.recheckpoint ?_ ?_ h.pending nofun
  · simp only [RemoteSys.clearPos, hck]
  · simp only [RemoteSys.frontier, hck]

theorem step {a : RemoteAct} (hst : remoteStep c s a = some s') : RemoteInv c s' := by
  revert hst
  -- the branches that refuse the step are gone with `cases`
  fun_cases remoteStep c s a <;> intro hst <;> cases hst
  · rename_i hcond
    exact h.quiet (.loaded _ _) hcond.1 (fun _ => Iff.rfl) (fun _ => rfl) hcond.2 s.localSeq
  · -- the room test
    rename_i ht take htake
    have hok := h.ok_at ht
    exact h.quiet (.checked _ _ _) ht (fun _ => Iff.rfl) (fun _ => rfl)
      (h.takeOf_spec (length_pos_iff.mpr hok.1) hok.2 htake) s.localSeq
  · rename_i ht _
    exact h.quiet .full ht (fun _ => Iff.rfl) (fun _ => rfl) trivial s.localSeq
  · rename_i ht hcond
    obtain ⟨rfl, -⟩ := hcond
    exact h.reserve ht
  · -- the exchange was lost
    rename_i changes _ take ht _
    have hok := h.ok_at ht
    have hne : changes ≠ [] := length_pos_iff.mp (hok.1.trans_le hok.2.1)
    exact h.quiet (.loaded _ _) ht (fun _ => Iff.rfl) (fun _ => rfl) ⟨hne, le_rfl⟩ s.localSeq
  · exact h.fetch ‹_› _ _
  · exact h.fetch ‹_› _ _
  · exact h.write ‹_› ‹_›
  · -- the cycle begins where the last one ended
    rename_i hck
    have hmax : max s.pendingRemote s.cp = s.pendingRemote := max_eq_left h.pending.1
    refine h.recheckpoint ?_ ?_ ?_ ?_
    · simp only [RemoteSys.clearPos, hck]
    · simp only [RemoteSys.frontier, hck, hmax]
    · rw [hmax]
      exact h.pending
    · intro pos head he
      cases he
      exact le_rfl
  · exact h.drain ‹_› ‹_› ‹_› ‹_›
  · exact h.stop ‹_›
  · exact h.stop ‹_›
  · exact h.stop ‹_›
  · rename_i sync pos hck
    have hfront : s.frontier = pos := by rw [RemoteSys.frontier, hck]
    have hclear : s.clearPos = s.cp := by rw [RemoteSys.clearPos, hck]
    have hcp : s.cp ≤ pos := by
      rw [← hfront]
      exact h.pending.1.trans h.pending.2
    by_cases hsync : sync = true ∧ s.cp < pos
    · rw [if_pos hsync]
      exact h.recheckpoint hclear.symm hfront.symm ⟨hcp, hfront.ge⟩ nofun
    · rw [if_neg hsync]
      exact h.recheckpoint hclear.symm hfront.symm ⟨hcp, hfront.ge⟩ nofun
  · exact h.clearOne ‹_› ‹_›
  · exact h.advance ‹_› (Nat.le_of_not_lt ‹_›)

end

theorem of_reach (h : (remoteRing c).Reach (fun _ _ => True) s) : RemoteInv c s := by
  refine h.invariant ?_ fun s a s' _ hi _ hst => hi.step hst
  rintro s rfl
  exact init

end RemoteInv

end StaxFS.Persist
