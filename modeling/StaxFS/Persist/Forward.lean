import StaxFS.Persist.Region

/-!
# Forwarding changes to other servers

`ServicePendingRemoteInodeChanges` and `SendRemoteInodeChangesOnce` of `server/rpc_server.cc`, the
hand-over of batches at the end of `DoCheckpoint`, and `RemoteInodeWAL::TryAppendPartial` at the
target, for any number of servers. The guardian thread of a server takes a snapshot of the front of
all its queues under the lock, then sends one target's batch after the other, each as one request,
and puts back what the target did not accept; the checkpoint thread appends to the queues meanwhile.

A request that is split is one request here: it is delivered once and answered. The remote log of a
server is the list of what was appended to it, with the position of its checkpoint. A call of
`TryAppendPartial` takes effect when its compare-and-swap succeeds, at the head of the log; the
checkpoint position it worked with may be older. It can also find no room, with a head and a
checkpoint position read at different times, whatever room there is.

Results:
* `QueueStep.of_step`: between two servers every step leaves everything as it is, lengthens the queue
  at its end, or moves a part from its front to the log of the target.
* `forwarded_in_order`: log, batch in flight and queue are what was promoted, in this order.
-/

namespace StaxFS.Persist

open Foundation List
open Function (update update_apply update_self)

def kForwardBatchFloor : Nat := 512
def kForwardBatchCeil : Nat := 65536
def kForwardBatchInitial : Nat := 4096

/-- Where the guardian thread stands in `ServicePendingRemoteInodeChanges`. -/
inductive SendPc
  | idle
  /-- the loop is at target `t`; `snapshots` are those of `t` and the targets after it -/
  | sending (t : Nat) (snapshots : List (List RemoteInodeChange))
  /-- the request with `batch` is under way to `t` -/
  | waiting (t : Nat) (batch : List RemoteInodeChange) (rest : List (List RemoteInodeChange))
  /-- the target has answered with the number of changes it took -/
  | answered (t : Nat) (batch : List RemoteInodeChange) (rest : List (List RemoteInodeChange))
      (inserted : Nat)
deriving DecidableEq

/-- The sending side of a server. -/
structure Sender where
  /-- `pending_forward_`, by target, and its size -/
  pending : Nat → List RemoteInodeChange
  size : Nat
  /-- `forward_batch_cap_` -/
  caps : Nat → Nat
  pc : SendPc

/-- The remote log of a server: what was appended, with the sender, and `checkpoint_pos_`. -/
structure RemoteLog where
  entries : List (Nat × RemoteInodeChange)
  cp : Nat

structure Forwarding where
  senders : Nat → Sender
  logs : Nat → RemoteLog
  /-- the changes promoted so far by a server for another: bookkeeping -/
  promoted : Nat → Nat → List RemoteInodeChange

def Forwarding.setSender (s : Forwarding) (srv : Nat) (x : Sender) : Forwarding :=
  { s with senders := update s.senders srv x }

/-- The part of `DoCheckpoint` that hands the batches over, under the lock. -/
def Sender.promote (srv : Nat) (x : Sender) (batches : Nat → List RemoteInodeChange) (size : Nat) :
    Sender :=
  { x with
    pending := fun t => if t = srv ∨ size ≤ t then x.pending t else x.pending t ++ batches t
    size := max x.size size }

/-- The snapshot `ServicePendingRemoteInodeChanges` takes under the lock. -/
def Sender.snapshot (x : Sender) : Sender :=
  { x with
    pending := fun t => if t < x.size then (x.pending t).drop (x.caps t) else x.pending t
    pc := .sending 0 ((List.range x.size).map fun t => (x.pending t).take (x.caps t)) }

/-- What `SendRemoteInodeChangesOnce` makes of the 32-bit answer. -/
def acceptedCount (sent inserted : Nat) : Nat :=
  let inserted := inserted % 2 ^ 32
  if inserted = 0xFFFFFFFF ∨ sent < inserted then 0 else inserted

/-- The end of the loop body, under the lock: adapt the batch size, put back the rest. -/
def Sender.settle (x : Sender) (t : Nat) (batch : List RemoteInodeChange)
    (rest : List (List RemoteInodeChange)) (inserted : Nat) : Sender :=
  if batch.length ≤ inserted then
    { x with
      caps := update x.caps t (min (x.caps t * 2) kForwardBatchCeil)
      pc := .sending (t + 1) rest }
  else
    { x with
      caps := update x.caps t (max inserted kForwardBatchFloor)
      pending := update x.pending t (batch.drop inserted ++ x.pending t)
      size := max x.size (t + 1)
      pc := .sending (t + 1) rest }

/-- `TryAppendPartial` with the checkpoint position it read: the number of changes it takes. -/
def tryAppendPartial (capacity head cp want : Nat) : Nat :=
  if capacity - 1 ≤ head - cp then 0 else min want (capacity - 1 - (head - cp))

inductive ForwardAct
  /-- `DoCheckpoint` of server `srv` hands over its batches, a vector of `size` -/
  | promote (srv : Nat) (batches : Nat → List RemoteInodeChange) (size : Nat)
  /-- the guardian thread enters `ServicePendingRemoteInodeChanges` -/
  | snapshot (srv : Nat)
  /-- it goes on to the next target, or sends its batch, or leaves -/
  | next (srv : Nat)
  /-- the request is handled; `cp` is the checkpoint position the append worked with, if it found
  room -/
  | deliver (srv : Nat) (cp : Option Nat)
  /-- the answer arrives -/
  | answer (srv : Nat)
  /-- the checkpoint of server `t` releases its remote log up to `pos` -/
  | advance (t pos : Nat)

def forwardStep (capacity : Nat) (s : Forwarding) : ForwardAct → Option Forwarding
  | .promote srv batches size =>
    some { s.setSender srv ((s.senders srv).promote srv batches size) with
      promoted := update s.promoted srv fun t =>
        if t = srv ∨ size ≤ t then s.promoted srv t else s.promoted srv t ++ batches t }
  | .snapshot srv =>
    match (s.senders srv).pc with
    | .idle => some (s.setSender srv (s.senders srv).snapshot)
    | _ => none
  | .next srv =>
    let x := s.senders srv
    match x.pc with
    | .sending _ [] => some (s.setSender srv { x with pc := .idle })
    | .sending t (batch :: rest) =>
      if batch = [] ∨ t = srv then some (s.setSender srv { x with pc := .sending (t + 1) rest })
      else some (s.setSender srv { x with pc := .waiting t batch rest })
    | _ => none
  | .deliver srv cp =>
    let x := s.senders srv
    match x.pc with
    | .waiting t batch rest =>
      match cp with
      | none => some (s.setSender srv { x with pc := .answered t batch rest 0 })
      | some cp =>
        let log := s.logs t
        if cp ≤ log.cp then
          let take := tryAppendPartial capacity log.entries.length cp batch.length
          some { s.setSender srv { x with pc := .answered t batch rest take } with
            logs := update s.logs t
              { log with entries := log.entries ++ (batch.take take).map (srv, ·) } }
        else none
    | _ => none
  | .answer srv =>
    let x := s.senders srv
    match x.pc with
    | .answered t batch rest inserted =>
      some (s.setSender srv (x.settle t batch rest (acceptedCount batch.length inserted)))
    | _ => none
  | .advance t pos =>
    if (s.logs t).cp ≤ pos ∧ pos ≤ (s.logs t).entries.length then
      some { s with logs := update s.logs t { s.logs t with cp := pos } }
    else none

/-- Nothing promoted, nothing sent. -/
def Forwarding.init : Forwarding where
  senders _ := ⟨fun _ => [], 0, fun _ => kForwardBatchInitial, .idle⟩
  logs _ := ⟨[], 0⟩
  promoted _ _ := []

/-- Servers whose remote logs have `capacity` slots. -/
def forwarding (capacity : Nat) : System Forwarding ForwardAct where
  start s := s = .init
  step := forwardStep capacity

/-! ### Queues -/

/-- The snapshot for `target`, when the first of `snapshots` is for `t`. -/
def snapshotFor (t : Nat) (snapshots : List (List RemoteInodeChange)) (target : Nat) :
    List RemoteInodeChange :=
  if target < t then [] else snapshots.getD (target - t) []

/-- The part of the snapshots for `target` that has not been accepted. -/
def SendPc.inFlight (target : Nat) : SendPc → List RemoteInodeChange
  | .idle => []
  | .sending t snapshots => snapshotFor t snapshots target
  | .waiting t batch rest => if target = t then batch else snapshotFor (t + 1) rest target
  | .answered t batch rest inserted =>
    if target = t then batch.drop inserted else snapshotFor (t + 1) rest target

/-- The changes of server `srv` in the log of a server. -/
def RemoteLog.ofServer (srv : Nat) (log : RemoteLog) : List RemoteInodeChange :=
  (log.entries.filter (·.1 = srv)).map Prod.snd

/-- What waits at `srv` for `t`: the batch in flight, then the queue. -/
def Forwarding.queue (s : Forwarding) (srv t : Nat) : List RemoteInodeChange :=
  (s.senders srv).pc.inFlight t ++ (s.senders srv).pending t

theorem snapshotFor_cons (t : Nat) (batch : List RemoteInodeChange)
    (rest : List (List RemoteInodeChange)) (target : Nat) : snapshotFor t (batch :: rest) target =
      if target = t then batch else snapshotFor (t + 1) rest target := by
  unfold snapshotFor
  by_cases h1 : target = t
  · simp [h1]
  · by_cases h2 : target < t
    · rw [if_pos h2, if_neg h1, if_pos (by omega)]
    · rw [if_neg h2, if_neg h1, if_neg (by omega),
        show target - t = (target - (t + 1)) + 1 from by omega, getD_cons_succ]

theorem snapshotFor_range (f : Nat → List RemoteInodeChange) (n target : Nat) :
    snapshotFor 0 ((List.range n).map f) target = if target < n then f target else [] := by
  unfold snapshotFor
  by_cases h : target < n <;> simp [h, getD_eq_getElem?_getD]

/-- What holds of a sender: the batch sizes stay below the ceiling, nothing waits for the server
itself, and an answer is for a batch that can have been sent. -/
structure Sender.Ok (srv : Nat) (x : Sender) : Prop where
  caps : ∀ t, x.caps t ≤ kForwardBatchCeil
  self : x.pc.inFlight srv = [] ∧ x.pending srv = []
  batch : ∀ t, (x.pc.inFlight t).length ≤ kForwardBatchCeil
  answered : ∀ t batch rest inserted, x.pc = .answered t batch rest inserted →
    inserted ≤ batch.length ∧ batch.length ≤ kForwardBatchCeil

/-- The answer comes back as it was given. -/
theorem acceptedCount_eq {sent inserted : Nat} (h : inserted ≤ sent)
    (hsent : sent ≤ kForwardBatchCeil) : acceptedCount sent inserted = inserted := by
  have hlt : inserted % 2 ^ 32 = inserted := by
    rw [Nat.mod_eq_of_lt]
    simp only [kForwardBatchCeil] at hsent
    omega
  unfold acceptedCount
  simp only [hlt]
  rw [if_neg]
  simp only [kForwardBatchCeil] at hsent
  omega

theorem tryAppendPartial_le (capacity head cp want : Nat) :
    tryAppendPartial capacity head cp want ≤ want := by
  unfold tryAppendPartial
  split
  · exact Nat.zero_le _
  · exact Nat.min_le_left _ _

/-- Between `srv` and `t`, a step does nothing, lengthens the queue, or moves a part from its front
to the log. -/
inductive QueueStep (s s' : Forwarding) (srv t : Nat) : Prop
  | same : s'.queue srv t = s.queue srv t → (s'.logs t).ofServer srv = (s.logs t).ofServer srv →
      s'.promoted srv t = s.promoted srv t → QueueStep s s' srv t
  | promoted (cs : List RemoteInodeChange) : s'.queue srv t = s.queue srv t ++ cs →
      (s'.logs t).ofServer srv = (s.logs t).ofServer srv →
      s'.promoted srv t = s.promoted srv t ++ cs → QueueStep s s' srv t
  | accepted (k : Nat) : s'.queue srv t = (s.queue srv t).drop k →
      (s'.logs t).ofServer srv = (s.logs t).ofServer srv ++ (s.queue srv t).take k →
      s'.promoted srv t = s.promoted srv t → QueueStep s s' srv t

section Steps

variable {s : Forwarding} {s' : Forwarding} {capacity srv : Nat} {a : ForwardAct} {x : Sender}

theorem queue_setSender (srv : Nat) (x : Sender) (k t : Nat) : (s.setSender srv x).queue k t =
      if k = srv then x.pc.inFlight t ++ x.pending t else s.queue k t := by
  unfold Forwarding.queue Forwarding.setSender
  by_cases hk : k = srv
  · subst hk
    simp
  · simp [hk]

/-- A step of the sender alone that keeps what waits. -/
theorem QueueStep.of_setSender
    (h : ∀ t, x.pc.inFlight t ++ x.pending t = s.queue srv t) (k t : Nat) :
    QueueStep s (s.setSender srv x) k t := by
  refine .same ?_ rfl rfl
  rw [queue_setSender]
  split
  · rename_i hk
    rw [h t, hk]
  · rfl

theorem ofServer_append (log : RemoteLog) (srv k : Nat) (cs : List RemoteInodeChange) :
    RemoteLog.ofServer k { log with entries := log.entries ++ cs.map (srv, ·) } =
      log.ofServer k ++ if k = srv then cs else [] := by
  unfold RemoteLog.ofServer
  rw [filter_append, map_append]
  congr 1
  by_cases hk : k = srv
  · subst hk
    rw [if_pos rfl, filter_eq_self.mpr, List.map_map]
    · exact List.map_id _
    · intro e he
      obtain ⟨c, -, rfl⟩ := List.mem_map.mp he
      simp
  · rw [if_neg hk, filter_eq_nil_iff.mpr, map_nil]
    intro e he
    obtain ⟨c, -, rfl⟩ := List.mem_map.mp he
    simpa using Ne.symm hk

/-- **What a step can do between two servers.** -/
theorem QueueStep.of_step
    (hok : ∀ k, (s.senders k).Ok k) (hst : forwardStep capacity s a = some s') (k t : Nat) :
    QueueStep s s' k t := by
  cases a with
  | promote srv batches size =>
    cases hst
    by_cases hk : k = srv
    · subst hk
      by_cases ht : t = k ∨ size ≤ t
      · exact .same (by simp [Forwarding.queue, Forwarding.setSender, Sender.promote, ht]) rfl
          (by simp [ht])
      · refine .promoted (batches t) ?_ rfl (by simp [ht])
        simp [Forwarding.queue, Forwarding.setSender, Sender.promote, ht]
    · exact .same (by simp [Forwarding.queue, Forwarding.setSender, hk]) rfl (by simp [hk])
  | snapshot srv =>
    simp only [forwardStep] at hst
    split at hst
    · rename_i hpc
      cases hst
      refine .of_setSender (fun t => ?_) k t
      simp only [Sender.snapshot, SendPc.inFlight, snapshotFor_range, Forwarding.queue, hpc]
      split
      · simp
      · simp
    · cases hst
  | next srv =>
    simp only [forwardStep] at hst
    split at hst
    · rename_i t' hpc
      cases hst
      refine .of_setSender (fun t => ?_) k t
      simp [SendPc.inFlight, snapshotFor, Forwarding.queue, hpc]
    · rename_i t' batch rest hpc
      split at hst
      · rename_i hskip
        cases hst
        refine .of_setSender (fun t => ?_) k t
        -- what is skipped is empty
        have hempty : batch = [] := by
          rcases hskip with h | rfl
          · exact h
          · have := (hok t').self.1
            rwa [hpc, SendPc.inFlight, snapshotFor_cons, if_pos rfl] at this
        simp only [SendPc.inFlight, Forwarding.queue, hpc, snapshotFor_cons]
        split
        · rename_i ht
          subst ht
          simp [hempty, snapshotFor]
        · rfl
      · cases hst
        refine .of_setSender (fun t => ?_) k t
        simp only [SendPc.inFlight, Forwarding.queue, hpc, snapshotFor_cons]
    · cases hst
  | deliver srv cp =>
    simp only [forwardStep] at hst
    split at hst
    · rename_i t' batch rest hpc
      split at hst
      · cases hst
        refine .of_setSender (fun t => ?_) k t
        simp [SendPc.inFlight, Forwarding.queue, hpc]
      · split at hst
        · cases hst
          generalize htake : tryAppendPartial capacity (s.logs t').entries.length _ batch.length =
            take
          have hle : take ≤ batch.length := htake ▸ tryAppendPartial_le ..
          by_cases hk : k = srv
          · subst hk
            by_cases ht : t = t'
            · subst ht
              have hq : s.queue k t = batch ++ (s.senders k).pending t := by
                simp [Forwarding.queue, hpc, SendPc.inFlight]
              refine .accepted take ?_ ?_ rfl
              · rw [hq, drop_append_of_le_length hle]
                simp [Forwarding.queue, Forwarding.setSender, SendPc.inFlight]
              · rw [hq, take_append_of_le_length hle]
                simp only [update_self]
                rw [ofServer_append, if_pos rfl]
            · refine .same ?_ ?_ rfl
              · simp [Forwarding.queue, Forwarding.setSender, SendPc.inFlight, hpc, ht]
              · simp [ht]
          · refine .same ?_ ?_ rfl
            · simp [Forwarding.queue, Forwarding.setSender, hk]
            · by_cases ht : t = t'
              · subst ht
                simp only [update_self]
                rw [ofServer_append, if_neg hk, append_nil]
              · simp [ht]
        · cases hst
    · cases hst
  | answer srv =>
    simp only [forwardStep] at hst
    split at hst
    · rename_i t' batch rest inserted hpc
      cases hst
      obtain ⟨hins, hlen⟩ := (hok srv).answered t' batch rest inserted hpc
      refine .of_setSender (fun t => ?_) k t
      rw [acceptedCount_eq hins hlen]
      by_cases hall : batch.length ≤ inserted
      · simp only [Sender.settle, if_pos hall, Forwarding.queue, hpc, SendPc.inFlight]
        split
        · rename_i ht
          subst ht
          simp [snapshotFor, drop_eq_nil_of_le hall]
        · rfl
      · simp only [Sender.settle, if_neg hall, Forwarding.queue, hpc, SendPc.inFlight]
        split
        · rename_i ht
          subst ht
          simp [snapshotFor]
        · rename_i ht
          simp [ht]
    · cases hst
  | advance t' pos =>
    simp only [forwardStep] at hst
    split at hst
    · cases hst
      refine .same rfl ?_ rfl
      by_cases ht : t = t'
      · subst ht
        simp [RemoteLog.ofServer]
      · simp [ht]
    · cases hst

/-! ### The senders -/

/-- Nothing waits in a sender's queue for the server itself when it is settled. -/
theorem Sender.Ok.settle (h : x.Ok srv) {t : Nat}
    {batch : List RemoteInodeChange} {rest : List (List RemoteInodeChange)} {inserted : Nat}
    (hpc : x.pc = .answered t batch rest inserted) : (x.settle t batch rest inserted).Ok srv := by
  obtain ⟨hins, hlen⟩ := h.answered t batch rest inserted hpc
  have hself := h.self
  have hbatch := h.batch
  simp only [hpc, SendPc.inFlight] at hself hbatch
  have hflight : ∀ t', (snapshotFor (t + 1) rest t').length ≤ kForwardBatchCeil := by
    intro t'
    have := hbatch t'
    split at this
    · simp [snapshotFor, *]
    · exact this
  have hflightSelf : snapshotFor (t + 1) rest srv = [] := by
    have := hself.1
    split at this
    · simp [snapshotFor, *]
    · exact this
  unfold Sender.settle
  split
  · refine ⟨fun t' => ?_, ⟨hflightSelf, hself.2⟩, hflight, fun _ _ _ _ he => by cases he⟩
    dsimp only
    rw [update_apply]
    split
    · exact Nat.min_le_right _ _
    · exact h.caps t'
  · refine ⟨fun t' => ?_, ⟨hflightSelf, ?_⟩, hflight, fun _ _ _ _ he => by cases he⟩
    · dsimp only
      rw [update_apply]
      split
      · exact Nat.max_le.mpr ⟨hins.trans hlen, by decide⟩
      · exact h.caps t'
    · dsimp only
      rw [update_apply]
      split
      · rename_i ht
        subst ht
        simpa [hself.2] using hself.1
      · exact hself.2

/-- A step keeps the senders as they should be. -/
theorem Sender.Ok.step
    (hok : ∀ k, (s.senders k).Ok k) (hst : forwardStep capacity s a = some s') (k : Nat) :
    (s'.senders k).Ok k := by
  -- only one sender moves
  have hset : ∀ (srv : Nat) (x : Sender), x.Ok srv → ((s.setSender srv x).senders k).Ok k := by
    intro srv x hx
    unfold Forwarding.setSender
    dsimp only
    rw [update_apply]
    split
    · rename_i hk
      rw [hk]
      exact hx
    · exact hok k
  cases a with
  | promote srv batches size =>
    cases hst
    refine hset srv _ ⟨(hok srv).caps, ⟨(hok srv).self.1, ?_⟩, (hok srv).batch, (hok srv).answered⟩
    simp [Sender.promote, (hok srv).self.2]
  | snapshot srv =>
    simp only [forwardStep] at hst
    split at hst
    · cases hst
      refine hset srv _ ⟨(hok srv).caps, ⟨?_, ?_⟩, fun t => ?_, fun _ _ _ _ he => by cases he⟩
      · simp [Sender.snapshot, SendPc.inFlight, snapshotFor_range, (hok srv).self.2]
      · simp [Sender.snapshot, (hok srv).self.2]
      · simp only [Sender.snapshot, SendPc.inFlight, snapshotFor_range]
        split
        · rw [length_take]
          exact (Nat.min_le_left _ _).trans ((hok srv).caps t)
        · exact Nat.zero_le _
    · cases hst
  | next srv =>
    have h := hok srv
    simp only [forwardStep] at hst
    split at hst
    · cases hst
      exact hset srv _ ⟨h.caps, ⟨rfl, h.self.2⟩, fun _ => Nat.zero_le _,
        fun _ _ _ _ he => by cases he⟩
    · rename_i t' batch rest hpc
      have hself := h.self.1
      have hbatch := h.batch
      simp only [hpc, SendPc.inFlight, snapshotFor_cons] at hself hbatch
      split at hst
      · cases hst
        refine hset srv _ ⟨h.caps, ⟨?_, h.self.2⟩, fun t => ?_, fun _ _ _ _ he => by cases he⟩
        · simp only [SendPc.inFlight]
          split at hself
          · simp [snapshotFor, *]
          · exact hself
        · have := hbatch t
          simp only [SendPc.inFlight]
          split at this
          · simp [snapshotFor, *]
          · exact this
      · cases hst
        exact hset srv _ ⟨h.caps, ⟨hself, h.self.2⟩, hbatch, fun _ _ _ _ he => by cases he⟩
    · cases hst
  | deliver srv cp =>
    have h := hok srv
    simp only [forwardStep] at hst
    split at hst
    · rename_i t' batch rest hpc
      have hself := h.self.1
      have hbatch := h.batch
      simp only [hpc, SendPc.inFlight] at hself hbatch
      have hsent : ∀ n ≤ batch.length,
          Sender.Ok srv { s.senders srv with pc := .answered t' batch rest n } := by
        intro n hn
        refine ⟨h.caps, ⟨?_, h.self.2⟩, fun t => ?_, ?_⟩
        · simp only [SendPc.inFlight]
          split at hself
          · simp [*]
          · simp [*]
        · have := hbatch t
          simp only [SendPc.inFlight]
          split at this
          · simp only [*, if_true, length_drop]
            omega
          · simp [*]
        · rintro _ _ _ _ he
          cases he
          refine ⟨hn, ?_⟩
          simpa using hbatch t'
      split at hst
      · cases hst
        exact hset srv _ (hsent 0 (Nat.zero_le _))
      · split at hst
        · cases hst
          exact hset srv _ (hsent _ (tryAppendPartial_le ..))
        · cases hst
    · cases hst
  | answer srv =>
    simp only [forwardStep] at hst
    split at hst
    · rename_i t' batch rest inserted hpc
      cases hst
      obtain ⟨hins, hlen⟩ := (hok srv).answered t' batch rest inserted hpc
      rw [acceptedCount_eq hins hlen]
      exact hset srv _ ((hok srv).settle hpc)
    · cases hst
  | advance t' pos =>
    simp only [forwardStep] at hst
    split at hst
    · cases hst
      exact hok k
    · cases hst

end Steps

/-- **Changes are delivered exactly once and in order**: what server `srv` has appended to the log of
`t`, then the part of the batch in flight that was not accepted, then what waits in the queue, is
what `srv` has promoted for `t`. -/
theorem forwarded_in_order {capacity : Nat} {s : Forwarding}
    (h : (forwarding capacity).Reach (fun _ _ => True) s) (srv t : Nat) :
    (s.logs t).ofServer srv ++ (s.senders srv).pc.inFlight t ++ (s.senders srv).pending t =
      s.promoted srv t := by
  have hinv : (∀ k, (s.senders k).Ok k) ∧
      ∀ srv t, (s.logs t).ofServer srv ++ s.queue srv t = s.promoted srv t := by
    refine h.invariant (I := fun s => (∀ k, (s.senders k).Ok k) ∧
      ∀ srv t, (s.logs t).ofServer srv ++ s.queue srv t = s.promoted srv t) ?_ ?_
    · rintro s rfl
      have hcaps : kForwardBatchInitial ≤ kForwardBatchCeil := by decide
      exact ⟨fun k => ⟨fun _ => hcaps, ⟨rfl, rfl⟩, fun _ => Nat.zero_le _,
        fun _ _ _ _ he => by cases he⟩, fun _ _ => rfl⟩
    · rintro s a s' - ⟨hok, hqueue⟩ - hst
      refine ⟨Sender.Ok.step hok hst, fun srv t => ?_⟩
      cases QueueStep.of_step hok hst srv t with
      | same hq hl hp => rw [hq, hl, hp, hqueue]
      | promoted cs hq hl hp => rw [hq, hl, hp, ← hqueue, append_assoc]
      | accepted k hq hl hp =>
        rw [hq, hl, hp, append_assoc, take_append_drop, hqueue]
  rw [append_assoc]
  exact hinv.2 srv t

/-- Changes of server 1 for server 0. -/
def threeChanges : List RemoteInodeChange :=
  [⟨.link, 5, 0, 10, []⟩, ⟨.unlink, 5, 0, 20, []⟩, ⟨.setattr, 5, 0o700, 30, []⟩]

/-- Server 1 sends three changes to a log with room for one, and the rest is put back. -/
def partlyAccepted : List ForwardAct :=
  [.promote 1 (fun t => if t = 0 then threeChanges else []) 1, .snapshot 1, .next 1,
    .deliver 1 (some 0), .answer 1]

theorem forwarded_in_order_partly :
    ∃ s, (forwarding 2).Reach (fun _ _ => True) s ∧
      ((s.logs 0).entries.length = 1 ∧ ((s.senders 1).pending 0).length = 2) ∧
      (s.logs 0).ofServer 1 ++ (s.senders 1).pc.inFlight 0 ++ (s.senders 1).pending 0 =
        s.promoted 1 0 := by
  exact System.exists_reach_of_labels (l := partlyAccepted)
    (Q := fun s => (s.logs 0).entries.length = 1 ∧ ((s.senders 1).pending 0).length = 2) rfl
    (fun _ _ _ => trivial) (by decide +kernel)
    fun s hreach hlens => ⟨hlens, forwarded_in_order hreach 1 0⟩

end StaxFS.Persist
