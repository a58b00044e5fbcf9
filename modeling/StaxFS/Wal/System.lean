import StaxFS.Dent.Region
import StaxFS.Foundation.Runs
import StaxFS.Wal.Entry

/-!
# The log, its appenders, the checkpoint thread and one listing, step by step

`CompactWAL` of `server/compact_wal.h`, `CheckpointLoop` and `DoCheckpoint` of
`server/cxl_persistence.cc`, and `CollectPersistentDentViews` of `server/metadata.cc`, as one
transition system. Every slot read, slot write and atomic counter access is a step of its own.

* Any number of append calls (`AppendPc`): `Append` and `AppendWithOverflow`, with the
  compare-and-swap loop of `TryReserveSlots`. A call may crash while it is under way.
* The checkpoint thread (`CkptPc`): the replay loop, the flush of the dent batches, the sync
  decision, `ClearRange` slot by slot, `AdvanceCheckpoint`, and the orphan skip of
  `CheckpointLoop`.
* One listing (`ListPc`): checkpoint position, head, dent region, log tail.

What a label chooses: the request and the version of an append (`NextVersion` is modelled
elsewhere; any version may be handed out), spurious failures of the weak compare-and-swap, what the
checkpoint finds on the remote log and on the clock (`CycleEnv`), the deadline, the order in which
the `unordered_map` of dent batches is flushed, what is left of the dent region when it runs out of
pages (`AllocPage` goes on behind the page table), and the stale bytes of a stack buffer.

Ring positions are unbounded: `head_` counts slots and does not come near `2 ^ 64`. The subtraction
in the room test of `TryReserveSlots` does wrap, since its operands are read at different times.

Results:
* `Step.of_step`: every step of the executable `step` is an instance of one of the rules `AppStep`,
  `CkptStep`, `ListStep`; proofs about the system go by cases on the rules.
-/

namespace StaxFS.Wal

open Dent

/-! ### Configuration and state -/

/-- The ring: a power of two slots, as `Init` asserts; `size_t` bounds the exponent. -/
structure Config where
  logCapacity : Nat
  logCapacity_lt : logCapacity < 64

/-- `Capacity`. -/
def Config.capacity (c : Config) : Nat := 2 ^ c.logCapacity

/-- `pos & capacity_mask_`. -/
def Config.index (c : Config) (pos : Nat) : Nat := pos &&& (c.capacity - 1)

/-- A ring of four slots. -/
def fourSlots : Config := ⟨2, by decide⟩

/-- A ring of sixteen slots. -/
def sixteenSlots : Config := ⟨4, by decide⟩

/-- Where an append call stands. -/
inductive AppendPc
  | idle
  /-- `TryReserveSlots` holds `cur_head = cur` and loads `checkpoint_pos_` next -/
  | loaded (req : LogRequest) (cur : Nat)
  /-- the room test passed; the compare-and-swap is next -/
  | checked (req : LogRequest) (cur : Nat)
  /-- slots `pos, …` are reserved; `AllocLocalSeq` is next -/
  | reserved (req : LogRequest) (pos : Nat)
  | sequenced (req : LogRequest) (pos localSeq : Nat)
  /-- the version is set; `left` continuation slots are still to be written, then the primary -/
  | writing (req : LogRequest) (pos localSeq version left : Nat)
  /-- the call returned the nonzero `seq_` -/
  | returned (req : LogRequest) (pos localSeq version : Nat)
  /-- the call returned 0 -/
  | full (req : LogRequest)
deriving DecidableEq, Repr

/-- What one cycle of `DoCheckpoint` finds outside the main log. -/
structure CycleEnv where
  /-- the remote log has entries to drain, or deferred operations wait -/
  remoteWork : Bool
  /-- drained but unsynced entries of the remote log at the start of the cycle -/
  remotePending : Nat
  /-- the same after the remote drain -/
  remoteDrained : Nat
  /-- `force_sync || timer_due` -/
  due : Bool
deriving DecidableEq, Repr

/-- Where the checkpoint thread stands. -/
inductive CkptPc
  /-- `CheckpointLoop`, before a call of `DoCheckpoint` -/
  | loop
  /-- the replay loop, before reading the slot at `pos`; `head` is the cycle's copy of `head_` -/
  | replay (env : CycleEnv) (pos head : Nat) (buffer : List (Nat × DentEntry))
  /-- a ready primary `e` was read at `pos`, and `got` of its continuation slots -/
  | names (env : CycleEnv) (pos head : Nat) (buffer : List (Nat × DentEntry))
      (e : CompactLogEntry) (got : List (List Byte))
  /-- the replay loop ended at `pos`; `buffer` holds the batches still to be flushed -/
  | flush (env : CycleEnv) (pos : Nat) (buffer : List (Nat × DentEntry))
  /-- `ClearRange` of the synced slots, `next` is cleared next -/
  | clearing (next : Nat)
  /-- `DoCheckpoint` returned true -/
  | worked
  /-- stalled for `kStallRounds`; the slot at the checkpoint is read next -/
  | orphan
  /-- that slot was not ready; `AdvanceCheckpoint` is next -/
  | skipAdvance
  /-- the checkpoint has passed `pos`, which is cleared next -/
  | skipClear (pos : Nat)
deriving DecidableEq

/-- The directory and cutoff of a listing. -/
structure Query where
  dir : Nat
  cutoff : Nat
deriving DecidableEq, Repr

/-- Where the listing stands. -/
inductive ListPc
  | idle
  | posRead (q : Query) (pos : Nat)
  | headRead (q : Query) (pos head : Nat)
  | scan (q : Query) (pos head : Nat) (collected : List DentView)
  | names (q : Query) (pos head : Nat) (collected : List DentView) (e : CompactLogEntry)
      (got : List (List Byte))
  /-- the scan is over; sorting and deduplication of `collected` touch no shared state -/
  | done (q : Query) (collected : List DentView)
deriving DecidableEq

/-- One replayed record: where it was read, and what the checkpoint made of it. -/
structure Replay where
  pos : Nat
  entry : CompactLogEntry
  dents : List (Nat × DentEntry)
deriving DecidableEq, Repr

/-- The shared memory, the position of every party, and the records replayed so far. -/
structure Sys where
  /-- `ring_` -/
  slots : Nat → Slot
  /-- `head_` -/
  head : Nat
  /-- `checkpoint_pos_` -/
  cp : Nat
  /-- `local_seq_` -/
  localSeq : Nat
  apps : Nat → AppendPc
  crashed : Nat → Bool
  dent : SSDDentRegion
  ckpt : CkptPc
  /-- `pending_main_pos_` -/
  pendingMain : Nat
  /-- `last_cp` of `CheckpointLoop` -/
  lastCp : Nat
  /-- `stall` of `CheckpointLoop` -/
  stall : Nat
  /-- the records replayed so far, oldest first -/
  replayed : List Replay
  list : ListPc

/-- `CompactWAL::Init`, with whatever the dent region holds. -/
def Sys.init (dent : SSDDentRegion) : Sys where
  slots := fun _ => .zero
  head := 0
  cp := 0
  localSeq := 1
  apps := fun _ => .idle
  crashed := fun _ => false
  dent := dent
  ckpt := .loop
  pendingMain := 0
  lastCp := 0
  stall := 0
  replayed := []
  list := .idle

namespace Sys

/-- `At(pos)`. -/
def slotAt (c : Config) (s : Sys) (pos : Nat) : Slot := s.slots (c.index pos)

/-- `DramWrite(pos, …)`. -/
def dramWrite (c : Config) (s : Sys) (pos : Nat) (x : Slot) : Sys :=
  { s with slots := Function.update s.slots (c.index pos) x }

def setApp (s : Sys) (t : Nat) (pc : AppendPc) : Sys :=
  { s with apps := Function.update s.apps t pc }

end Sys

/-! ### The tests of the code -/

/-- The room test of `TryReserveSlots`. -/
def hasRoom (c : Config) (cur n cp : Nat) : Bool := subU64 (cur + n) cp < c.capacity

/-- `kSyncBatchThreshold`. -/
def kSyncBatchThreshold : Nat := 32 * 1024

/-- `kStallRounds`. -/
def kStallRounds : Nat := 5

/-- The early returns of `DoCheckpoint`: whether a cycle that starts with `pending` drained and
`cp` synced has nothing to do. -/
def nothingToDo (env : CycleEnv) (pending cp head : Nat) : Bool :=
  let hasNewWork := decide (pending < head) || env.remoteWork
  let anyPending := decide (cp < pending) || decide (0 < env.remotePending)
  (!hasNewWork && !anyPending) ||
    (!hasNewWork && !env.due && decide (pending - cp + env.remotePending < kSyncBatchThreshold))

/-- `sync_due`. -/
def syncDue (env : CycleEnv) (pending cp : Nat) : Bool :=
  let drained := pending - cp + env.remoteDrained
  decide (0 < drained) && (env.due || decide (kSyncBatchThreshold ≤ drained))

/-- The batch of directory `dir` in the dent buffer, in arrival order. -/
def batch (buffer : List (Nat × DentEntry)) (dir : Nat) : List DentEntry :=
  (buffer.filter (·.1 == dir)).map (·.2)

/-! ### Steps -/

/-- Steps of an append call. -/
inductive AppAct
  /-- a `Log*` helper calls `Append` or `AppendWithOverflow`, which loads `head_` -/
  | begin (req : LogRequest)
  | loadCheckpoint
  | cas (spurious : Bool)
  | allocLocalSeq
  | nextVersion (version : Nat)
  | dramWrite
  | crash

/-- Steps of the checkpoint thread. -/
inductive CkptAct
  /-- `DoCheckpoint` is called and loads `head_` -/
  | openCycle (env : CycleEnv)
  | readSlot
  | readOverflow
  /-- the `switch`, on a buffer with stale bytes; `deadline`: the phase budget is used up after it -/
  | decode (stale : Buf) (deadline : Bool)
  /-- `past`: what is left of the region if it has no room for the batch -/
  | appendEntries (dir : Nat) (past : SSDDentRegion)
  /-- the sync decision, with everything up to it that touches no modelled state -/
  | settle
  | clearSlot
  | advanceCheckpoint
  /-- `CheckpointLoop` after a call of `DoCheckpoint` that returned true; loads `head_` -/
  | afterCycle
  | checkOrphan
  | skipAdvance
  | skipClear

/-- Steps of the listing. -/
inductive ListAct
  | checkpointPos (q : Query)
  | head
  | dents
  | readSlot
  | readOverflow
  | decode

/-- The step labels. -/
inductive Act
  | app (t : Nat) (a : AppAct)
  | ckpt (a : CkptAct)
  | list (a : ListAct)

/-- The label is of the checkpoint thread. -/
def Act.isCkpt : Act → Bool
  | .ckpt _ => true
  | .app .. | .list _ => false

/-- `TryReserveSlots`, `AllocLocalSeq`, `Append` and `AppendWithOverflow`, for call `t`. -/
def appStep (c : Config) (s : Sys) (t : Nat) : AppAct → Option Sys
  | .begin req =>
    match s.apps t with
    | .idle => if req.WF then some (s.setApp t (.loaded req s.head)) else none
    | _ => none
  | .loadCheckpoint =>
    match s.apps t with
    | .loaded req cur =>
      some (s.setApp t (if hasRoom c cur req.slots s.cp then .checked req cur else .full req))
    | _ => none
  | .cas spurious =>
    match s.apps t with
    | .checked req cur =>
      if s.head = cur ∧ spurious = false then
        some ({ s with head := cur + req.slots }.setApp t (.reserved req cur))
      else some (s.setApp t (.loaded req s.head))
    | _ => none
  | .allocLocalSeq =>
    match s.apps t with
    | .reserved req pos =>
      let seq := s.localSeq &&& kSeqLocalMask
      let s' := { s with localSeq := (s.localSeq + 1) % 2 ^ 32 }
      some (if seq = 0 then s' else s'.setApp t (.sequenced req pos seq))
    | _ => none
  | .nextVersion version =>
    match s.apps t with
    | .sequenced req pos localSeq =>
      some (s.setApp t (.writing req pos localSeq version req.contCount))
    | _ => none
  | .dramWrite =>
    match s.apps t with
    | .writing req pos localSeq version (left + 1) =>
      some ((s.dramWrite c (pos + 1 + left) (.overflow (req.contSlot localSeq left))).setApp t
        (.writing req pos localSeq version left))
    | .writing req pos localSeq version 0 =>
      some ((s.dramWrite c pos (.entry (req.published localSeq version))).setApp t
        (.returned req pos localSeq version))
    | _ => none
  | .crash =>
    match s.apps t with
    | .idle | .returned .. | .full _ => none
    | _ => some { s with crashed := Function.update s.crashed t true }

/-- `DoCheckpoint` and `CheckpointLoop`. -/
def ckptStep (c : Config) (s : Sys) : CkptAct → Option Sys
  | .openCycle env =>
    match s.ckpt with
    | .loop =>
      let pending := max s.pendingMain s.cp
      let s' := { s with pendingMain := pending }
      if nothingToDo env pending s.cp s.head then some { s' with stall := 0, lastCp := s.cp }
      else some { s' with ckpt := .replay env pending s.head [] }
    | _ => none
  | .readSlot =>
    match s.ckpt with
    | .replay env pos head buffer =>
      if pos < head then
        match s.slotAt c pos with
        | .entry e =>
          if e.isReady then some { s with ckpt := .names env pos head buffer e [] }
          else some { s with ckpt := .flush env pos buffer }
        | .overflow _ => some { s with ckpt := .flush env pos buffer }
      else some { s with ckpt := .flush env pos buffer }
    | _ => none
  | .readOverflow =>
    match s.ckpt with
    | .names env pos head buffer e got =>
      if needsCont e got.length then
        some { s with
          ckpt := .names env pos head buffer e
            (got ++ [(s.slotAt c (pos + 1 + got.length)).overflowData]) }
      else none
    | _ => none
  | .decode stale deadline =>
    match s.ckpt with
    | .names env pos head buffer e got =>
      if needsCont e got.length then none
      else
        let dents := replayDents stale e got
        let pos' := pos + e.slotCount
        let s' := { s with replayed := s.replayed ++ [Replay.mk pos e dents] }
        if deadline then some { s' with ckpt := .flush env pos' (buffer ++ dents) }
        else some { s' with ckpt := .replay env pos' head (buffer ++ dents) }
    | _ => none
  | .appendEntries dir past =>
    match s.ckpt with
    | .flush env pos buffer =>
      if dir ∈ buffer.map (·.1) then
        some { s with
          dent := (s.dent.appendEntries dir (batch buffer dir)).getD past
          ckpt := .flush env pos (buffer.filter (·.1 != dir)) }
      else none
    | _ => none
  | .settle =>
    match s.ckpt with
    | .flush env pos [] =>
      let s' := { s with pendingMain := pos }
      if syncDue env pos s.cp ∧ s.cp < pos then some { s' with ckpt := .clearing s.cp }
      else some { s' with ckpt := .worked }
    | _ => none
  | .clearSlot =>
    match s.ckpt with
    | .clearing next =>
      if next < s.pendingMain then
        some { s.dramWrite c next .zero with ckpt := .clearing (next + 1) }
      else none
    | _ => none
  | .advanceCheckpoint =>
    match s.ckpt with
    | .clearing next =>
      if next < s.pendingMain then none
      else some { s with cp := s.pendingMain, ckpt := .worked }
    | _ => none
  | .afterCycle =>
    match s.ckpt with
    | .worked =>
      if s.cp = s.lastCp ∧ s.cp < s.head then
        if kStallRounds ≤ s.stall + 1 then some { s with stall := s.stall + 1, ckpt := .orphan }
        else some { s with stall := s.stall + 1, lastCp := s.cp, ckpt := .loop }
      else some { s with stall := 0, lastCp := s.cp, ckpt := .loop }
    | _ => none
  | .checkOrphan =>
    match s.ckpt with
    | .orphan =>
      if (s.slotAt c s.cp).isReady then
        some { s with stall := 0, lastCp := s.cp, ckpt := .loop }
      else some { s with ckpt := .skipAdvance }
    | _ => none
  | .skipAdvance =>
    match s.ckpt with
    | .skipAdvance => some { s with cp := s.cp + 1, ckpt := .skipClear s.cp }
    | _ => none
  | .skipClear =>
    match s.ckpt with
    | .skipClear pos =>
      some { s.dramWrite c pos .zero with stall := 0, lastCp := pos, ckpt := .loop }
    | _ => none

/-- `CollectPersistentDentViews` up to the sort. -/
def listStep (c : Config) (s : Sys) : ListAct → Option Sys
  | .checkpointPos q =>
    match s.list with
    | .idle => some { s with list := .posRead q s.cp }
    | _ => none
  | .head =>
    match s.list with
    | .posRead q pos => some { s with list := .headRead q pos s.head }
    | _ => none
  | .dents =>
    match s.list with
    | .headRead q pos head =>
      some { s with list := .scan q pos head (s.dent.readDirLatestFlat q.dir q.cutoff) }
    | _ => none
  | .readSlot =>
    match s.list with
    | .scan q pos head collected =>
      if pos < head then
        match s.slotAt c pos with
        | .entry e =>
          if e.isReady then some { s with list := .names q pos head collected e [] }
          else some { s with list := .done q collected }
        | .overflow _ => some { s with list := .done q collected }
      else some { s with list := .done q collected }
    | _ => none
  | .readOverflow =>
    match s.list with
    | .names q pos head collected e got =>
      if listMatches q.dir q.cutoff e && needsCont e got.length then
        some { s with
          list := .names q pos head collected e
            (got ++ [(s.slotAt c (pos + 1 + got.length)).overflowData]) }
      else none
    | _ => none
  | .decode =>
    match s.list with
    | .names q pos head collected e got =>
      if listMatches q.dir q.cutoff e && needsCont e got.length then none
      else
        some { s with
          list := .scan q (pos + e.slotCount) head
            (collected ++ listedViews q.dir q.cutoff e got) }
    | _ => none

/-- One step of the system. A crashed append takes no step. -/
def step (c : Config) (s : Sys) : Act → Option Sys
  | .app t a => if s.crashed t then none else appStep c s t a
  | .ckpt a => ckptStep c s a
  | .list a => listStep c s a

/-- The system, started with an empty ring and any well-formed dent region. -/
def system (c : Config) : Foundation.System Sys Act where
  start s := ∃ dent : SSDDentRegion, dent.WF ∧ s = Sys.init dent
  step := step c

/-! ### The rules -/

/-- The rules of an append call. -/
inductive AppStep (c : Config) (s : Sys) (t : Nat) : AppAct → Sys → Prop
  | begin {req : LogRequest} : s.apps t = .idle → req.WF →
      AppStep c s t (.begin req) (s.setApp t (.loaded req s.head))
  | room {req : LogRequest} {cur : Nat} : s.apps t = .loaded req cur →
      hasRoom c cur req.slots s.cp = true →
      AppStep c s t .loadCheckpoint (s.setApp t (.checked req cur))
  | noRoom {req : LogRequest} {cur : Nat} : s.apps t = .loaded req cur →
      hasRoom c cur req.slots s.cp = false →
      AppStep c s t .loadCheckpoint (s.setApp t (.full req))
  | reserve {req : LogRequest} : s.apps t = .checked req s.head →
      AppStep c s t (.cas false)
        ({ s with head := s.head + req.slots }.setApp t (.reserved req s.head))
  | retry {req : LogRequest} {cur : Nat} {spurious : Bool} : s.apps t = .checked req cur →
      AppStep c s t (.cas spurious) (s.setApp t (.loaded req s.head))
  | seqZero {req : LogRequest} {pos : Nat} : s.apps t = .reserved req pos →
      AppStep c s t .allocLocalSeq { s with localSeq := (s.localSeq + 1) % 2 ^ 32 }
  | seqDrawn {req : LogRequest} {pos : Nat} : s.apps t = .reserved req pos →
      s.localSeq &&& kSeqLocalMask ≠ 0 →
      AppStep c s t .allocLocalSeq ({ s with localSeq := (s.localSeq + 1) % 2 ^ 32 }.setApp t
        (.sequenced req pos (s.localSeq &&& kSeqLocalMask)))
  | stamp {req : LogRequest} {pos l v : Nat} : s.apps t = .sequenced req pos l →
      AppStep c s t (.nextVersion v) (s.setApp t (.writing req pos l v req.contCount))
  | continuation {req : LogRequest} {pos l v left : Nat} :
      s.apps t = .writing req pos l v (left + 1) →
      AppStep c s t .dramWrite
        ((s.dramWrite c (pos + 1 + left) (.overflow (req.contSlot l left))).setApp t
          (.writing req pos l v left))
  | publish {req : LogRequest} {pos l v : Nat} : s.apps t = .writing req pos l v 0 →
      AppStep c s t .dramWrite ((s.dramWrite c pos (.entry (req.published l v))).setApp t
        (.returned req pos l v))
  | crash : s.apps t ≠ .idle → (∀ req pos l v, s.apps t ≠ .returned req pos l v) →
      (∀ req, s.apps t ≠ .full req) →
      AppStep c s t .crash { s with crashed := Function.update s.crashed t true }

variable {c : Config} {s s' : Sys}

/-- A step of one call leaves the others alone. -/
theorem AppStep.other {t t' : Nat} {a : AppAct} (h : AppStep c s t a s')
    (hne : t' ≠ t) : s'.apps t' = s.apps t' ∧ s'.crashed t' = s.crashed t' := by
  cases h with
  | seqZero _ => exact ⟨rfl, rfl⟩
  | crash _ _ _ => exact ⟨rfl, Function.update_of_ne hne _ _⟩
  | _ => exact ⟨Function.update_of_ne hne _ _, rfl⟩

theorem AppStep.of_appStep {t : Nat} {a : AppAct}
    (h : appStep c s t a = some s') : AppStep c s t a s' := by
  revert h
  -- the branches that refuse the step are gone with `cases`
  fun_cases appStep c s t a <;> intro h <;> cases h
  · exact .begin ‹_› ‹_›
  · split
    · exact .room ‹_› ‹_›
    · rename_i hroom
      exact .noRoom ‹_› (by simpa using hroom)
  · rename_i hcas
    obtain ⟨rfl, rfl⟩ := hcas
    exact .reserve ‹_›
  · exact .retry ‹_›
  · split
    · exact .seqZero ‹_›
    · exact .seqDrawn ‹_› ‹_›
  · exact .stamp ‹_›
  · exact .continuation ‹_›
  · exact .publish ‹_›
  · exact .crash ‹_› ‹_› ‹_›

/-- The rules of the checkpoint thread. -/
inductive CkptStep (c : Config) (s : Sys) : CkptAct → Sys → Prop
  | idle {env : CycleEnv} : s.ckpt = .loop →
      nothingToDo env (max s.pendingMain s.cp) s.cp s.head = true →
      CkptStep c s (.openCycle env)
        { s with pendingMain := max s.pendingMain s.cp, stall := 0, lastCp := s.cp }
  | openCycle {env : CycleEnv} : s.ckpt = .loop →
      nothingToDo env (max s.pendingMain s.cp) s.cp s.head = false →
      CkptStep c s (.openCycle env)
        { s with
          pendingMain := max s.pendingMain s.cp
          ckpt := .replay env (max s.pendingMain s.cp) s.head [] }
  | ready {env : CycleEnv} {pos head : Nat} {buffer : List (Nat × DentEntry)}
      {e : CompactLogEntry} : s.ckpt = .replay env pos head buffer → pos < head →
      s.slotAt c pos = .entry e → e.isReady = true →
      CkptStep c s .readSlot { s with ckpt := .names env pos head buffer e [] }
  | stop {env : CycleEnv} {pos head : Nat} {buffer : List (Nat × DentEntry)} :
      s.ckpt = .replay env pos head buffer →
      (pos < head → (s.slotAt c pos).isReady = false) →
      CkptStep c s .readSlot { s with ckpt := .flush env pos buffer }
  | overflow {env : CycleEnv} {pos head : Nat} {buffer : List (Nat × DentEntry)}
      {e : CompactLogEntry} {got : List (List Byte)} :
      s.ckpt = .names env pos head buffer e got → needsCont e got.length = true →
      CkptStep c s .readOverflow { s with
        ckpt := .names env pos head buffer e
          (got ++ [(s.slotAt c (pos + 1 + got.length)).overflowData]) }
  | decodeLast {env : CycleEnv} {pos head : Nat} {buffer : List (Nat × DentEntry)}
      {e : CompactLogEntry} {got : List (List Byte)} {stale : Buf} :
      s.ckpt = .names env pos head buffer e got → needsCont e got.length = false →
      CkptStep c s (.decode stale true) { s with
        replayed := s.replayed ++ [⟨pos, e, replayDents stale e got⟩]
        ckpt := .flush env (pos + e.slotCount) (buffer ++ replayDents stale e got) }
  | decode {env : CycleEnv} {pos head : Nat} {buffer : List (Nat × DentEntry)}
      {e : CompactLogEntry} {got : List (List Byte)} {stale : Buf} :
      s.ckpt = .names env pos head buffer e got → needsCont e got.length = false →
      CkptStep c s (.decode stale false) { s with
        replayed := s.replayed ++ [⟨pos, e, replayDents stale e got⟩]
        ckpt := .replay env (pos + e.slotCount) head (buffer ++ replayDents stale e got) }
  | appendEntries {env : CycleEnv} {pos dir : Nat} {buffer : List (Nat × DentEntry)}
      {past : SSDDentRegion} : s.ckpt = .flush env pos buffer → dir ∈ buffer.map (·.1) →
      CkptStep c s (.appendEntries dir past) { s with
        dent := (s.dent.appendEntries dir (batch buffer dir)).getD past
        ckpt := .flush env pos (buffer.filter (·.1 != dir)) }
  | sync {env : CycleEnv} {pos : Nat} : s.ckpt = .flush env pos [] →
      syncDue env pos s.cp = true → s.cp < pos →
      CkptStep c s .settle { s with pendingMain := pos, ckpt := .clearing s.cp }
  | noSync {env : CycleEnv} {pos : Nat} : s.ckpt = .flush env pos [] →
      ¬(syncDue env pos s.cp = true ∧ s.cp < pos) →
      CkptStep c s .settle { s with pendingMain := pos, ckpt := .worked }
  | clearSlot {next : Nat} : s.ckpt = .clearing next → next < s.pendingMain →
      CkptStep c s .clearSlot { s.dramWrite c next .zero with ckpt := .clearing (next + 1) }
  | advance {next : Nat} : s.ckpt = .clearing next → ¬next < s.pendingMain →
      CkptStep c s .advanceCheckpoint { s with cp := s.pendingMain, ckpt := .worked }
  | stalled : s.ckpt = .worked → s.cp = s.lastCp → s.cp < s.head →
      kStallRounds ≤ s.stall + 1 →
      CkptStep c s .afterCycle { s with stall := s.stall + 1, ckpt := .orphan }
  | stalling : s.ckpt = .worked → s.cp = s.lastCp → s.cp < s.head → s.stall + 1 < kStallRounds →
      CkptStep c s .afterCycle { s with stall := s.stall + 1, lastCp := s.cp, ckpt := .loop }
  | moved : s.ckpt = .worked → ¬(s.cp = s.lastCp ∧ s.cp < s.head) →
      CkptStep c s .afterCycle { s with stall := 0, lastCp := s.cp, ckpt := .loop }
  | notOrphan : s.ckpt = .orphan → (s.slotAt c s.cp).isReady = true →
      CkptStep c s .checkOrphan { s with stall := 0, lastCp := s.cp, ckpt := .loop }
  | orphan : s.ckpt = .orphan → (s.slotAt c s.cp).isReady = false →
      CkptStep c s .checkOrphan { s with ckpt := .skipAdvance }
  | skipAdvance : s.ckpt = .skipAdvance →
      CkptStep c s .skipAdvance { s with cp := s.cp + 1, ckpt := .skipClear s.cp }
  | skipClear {pos : Nat} : s.ckpt = .skipClear pos →
      CkptStep c s .skipClear
        { s.dramWrite c pos .zero with stall := 0, lastCp := pos, ckpt := .loop }

theorem CkptStep.of_ckptStep {a : CkptAct} (h : ckptStep c s a = some s') : CkptStep c s a s' := by
  revert h
  fun_cases ckptStep c s a <;> intro h <;> cases h
  · exact .idle ‹_› ‹_›
  · rename_i hwork
    exact .openCycle ‹_› (by simpa using hwork)
  · exact .ready ‹_› ‹_› ‹_› ‹_›
  · rename_i hslot hready
    exact .stop ‹_› fun _ => by simpa [hslot, Slot.isReady] using hready
  · rename_i hslot
    exact .stop ‹_› fun _ => by rw [hslot]; exact Slot.overflow_not_ready _
  · exact .stop ‹_› fun hlt => absurd hlt ‹_›
  · exact .overflow ‹_› ‹_›
  · exact .decodeLast ‹_› (by simpa using ‹¬needsCont _ _ = true›)
  · rename_i hd
    rw [Bool.not_eq_true] at hd
    subst hd
    exact .decode ‹_› (by simpa using ‹¬needsCont _ _ = true›)
  · exact .appendEntries ‹_› ‹_›
  · rename_i hsync
    exact .sync ‹_› hsync.1 hsync.2
  · exact .noSync ‹_› ‹_›
  · exact .clearSlot ‹_› ‹_›
  · exact .advance ‹_› ‹_›
  · rename_i hst hlim
    exact .stalled ‹_› hst.1 hst.2 ‹_›
  · rename_i hst hlim
    exact .stalling ‹_› hst.1 hst.2 (by omega)
  · exact .moved ‹_› ‹_›
  · exact .notOrphan ‹_› ‹_›
  · rename_i hready
    exact .orphan ‹_› (by simpa using hready)
  · exact .skipAdvance ‹_›
  · exact .skipClear ‹_›

/-- The rules of the listing. -/
inductive ListStep (c : Config) (s : Sys) : ListAct → Sys → Prop
  | checkpointPos {q : Query} : s.list = .idle →
      ListStep c s (.checkpointPos q) { s with list := .posRead q s.cp }
  | head {q : Query} {pos : Nat} : s.list = .posRead q pos →
      ListStep c s .head { s with list := .headRead q pos s.head }
  | dents {q : Query} {pos head : Nat} : s.list = .headRead q pos head →
      ListStep c s .dents
        { s with list := .scan q pos head (s.dent.readDirLatestFlat q.dir q.cutoff) }
  | ready {q : Query} {pos head : Nat} {collected : List DentView} {e : CompactLogEntry} :
      s.list = .scan q pos head collected → pos < head → s.slotAt c pos = .entry e →
      e.isReady = true →
      ListStep c s .readSlot { s with list := .names q pos head collected e [] }
  | stop {q : Query} {pos head : Nat} {collected : List DentView} :
      s.list = .scan q pos head collected → (pos < head → (s.slotAt c pos).isReady = false) →
      ListStep c s .readSlot { s with list := .done q collected }
  | overflow {q : Query} {pos head : Nat} {collected : List DentView} {e : CompactLogEntry}
      {got : List (List Byte)} : s.list = .names q pos head collected e got →
      listMatches q.dir q.cutoff e = true → needsCont e got.length = true →
      ListStep c s .readOverflow { s with
        list := .names q pos head collected e
          (got ++ [(s.slotAt c (pos + 1 + got.length)).overflowData]) }
  | decode {q : Query} {pos head : Nat} {collected : List DentView} {e : CompactLogEntry}
      {got : List (List Byte)} : s.list = .names q pos head collected e got →
      (listMatches q.dir q.cutoff e = true → needsCont e got.length = false) →
      ListStep c s .decode { s with
        list := .scan q (pos + e.slotCount) head
          (collected ++ listedViews q.dir q.cutoff e got) }

theorem ListStep.of_listStep {a : ListAct} (h : listStep c s a = some s') : ListStep c s a s' := by
  revert h
  fun_cases listStep c s a <;> intro h <;> cases h
  · exact .checkpointPos ‹_›
  · exact .head ‹_›
  · exact .dents ‹_›
  · exact .ready ‹_› ‹_› ‹_› ‹_›
  · rename_i hslot hready
    exact .stop ‹_› fun _ => by simpa [hslot, Slot.isReady] using hready
  · rename_i hslot
    exact .stop ‹_› fun _ => by rw [hslot]; exact Slot.overflow_not_ready _
  · exact .stop ‹_› fun hlt => absurd hlt ‹_›
  · rename_i hneed
    rw [Bool.and_eq_true] at hneed
    exact .overflow ‹_› hneed.1 hneed.2
  · rename_i hneed
    exact .decode ‹_› fun hm => by simpa [hm] using hneed

/-- The rules of the system. -/
inductive Step (c : Config) (s : Sys) : Act → Sys → Prop
  | app {t : Nat} {a : AppAct} {s' : Sys} : s.crashed t = false → AppStep c s t a s' →
      Step c s (.app t a) s'
  | ckpt {a : CkptAct} {s' : Sys} : CkptStep c s a s' → Step c s (.ckpt a) s'
  | list {a : ListAct} {s' : Sys} : ListStep c s a s' → Step c s (.list a) s'

/-- **Every step is one of the rules.** -/
theorem Step.of_step {a : Act} (h : step c s a = some s') : Step c s a s' := by
  cases a with
  | app t a =>
    simp only [step] at h
    split at h
    · cases h
    · rename_i hcr
      exact .app (by simpa using hcr) (.of_appStep h)
  | ckpt a => exact .ckpt (.of_ckptStep h)
  | list a => exact .list (.of_listStep h)

end StaxFS.Wal
