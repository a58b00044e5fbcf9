import StaxFS.Foundation.Runs
import StaxFS.Metadata.Clock

/-!
# Versions and causality

The hybrid clock over a whole cluster, down to the retry loop of `MergeAndTick`. A client sends the
highest version it has seen (`last_seen_hlc_`) with a request. The server thread that takes the
request merges it into the server's clock and parks the version it gets (`BeginOperation`); the
first record of the operation gets that version, every further record a new one (`NextVersion`); the
answer carries `CurrentVersion` back, and the client raises `last_seen_hlc_` to it
(`ObserveServerHLC`). The answer to an `OpenDir` hands out the same value as the cutoff of the
listing.

A client works on one call at a time. A call of `PathCommonRequest` sends one request and, while the
answer is `-EAGAIN`, sends it again as it was built, with the `last_seen_hlc_` of the first attempt;
`BatchGetDentViews` sends one request each to several servers; the other calls are batches of one.
What an operation does besides appending records is left out: it appends any number of them.

Results, as long as the milliseconds of the clocks stay below `2 ^ 42 - 1`:
* `hybrid_causality`: the versions on records are pairwise distinct over all servers; those that
  `BeginOperation` returns on a server are strictly increasing; every version that a request puts on
  a record, and every cutoff, is above all versions put on records by operations whose answers the
  client had when it sent the request.
-/

namespace StaxFS.Causality

open Foundation Metadata List Option
open Function (update update_apply update_of_ne update_self)

/-! ### The system -/

/-- What a server thread is doing: nothing, `MergeAndTick` for a request (in `BeginOperation` if
`begins`, else in `NextVersion`), or the operation of a request. -/
inductive ThreadPc
  | idle
  | load (rpc : Nat) (begins : Bool)
  | cas (rpc : Nat) (begins : Bool) (old : Nat)
  | body (rpc : Nat)
deriving DecidableEq, Repr

structure Thread where
  pc : ThreadPc
  /-- `tls_pending_version_` -/
  pending : Nat
  /-- the versions the current operation has put on records. Bookkeeping: nothing reads it. -/
  logged : List Nat
deriving DecidableEq, Repr

/-- Where a request is. The answer has a version and whether it is `-EAGAIN`. -/
inductive RpcStage
  | sent
  | handled (th : Nat)
  | answered (hlc : Nat) (again : Bool) (logged : List Nat)
deriving DecidableEq, Repr

structure Rpc where
  client : Nat
  srv : Nat
  /-- `last_seen_hlc` -/
  observed : Nat
  /-- sent again after `-EAGAIN` -/
  retries : Bool
  /-- the versions on records of operations whose answers the client had when it sent the request.
  Bookkeeping. -/
  before : List Nat
  stage : RpcStage
deriving DecidableEq, Repr

structure Client where
  /-- `last_seen_hlc_` -/
  lastSeen : Nat
  /-- the requests of the call that the client works on -/
  waiting : List Nat
  /-- the versions on records of operations whose answers it has. Bookkeeping. -/
  received : List Nat
deriving DecidableEq, Repr

/-- Servers, clients and the requests between them. -/
structure Net where
  /-- `hlc_state_` of every server -/
  hlc : Nat → Nat
  threads : Nat → Nat → Thread
  rpcs : Nat → Option Rpc
  clients : Nat → Client
  /-- all versions put on records, with the server -/
  log : List (Nat × Nat)
  /-- what `BeginOperation` returned, in the order of the clock updates -/
  begun : Nat → List Nat

/-- The next reading in `MergeAndTick`. -/
def nextReading (nowMs hlc observed : Nat) : Reading :=
  ((Reading.ofState hlc).merge (Reading.ofState (observed >>> kVersionMetaBits))).tick nowMs

namespace Net

def init : Net where
  hlc := fun _ => 0
  threads := fun _ _ => ⟨.idle, 0, []⟩
  rpcs := fun _ => none
  clients := fun _ => ⟨0, [], []⟩
  log := []
  begun := fun _ => []

def setThread (m : Net) (srv th : Nat) (t : Thread) : Net :=
  { m with threads := update m.threads srv (update (m.threads srv) th t) }

def setRpc (m : Net) (id : Nat) (r : Option Rpc) : Net :=
  { m with rpcs := update m.rpcs id r }

/-- The argument of `MergeAndTick`: the version the request carries, or 0 in `NextVersion`. -/
def observedVersion (m : Net) (rpc : Nat) (begins : Bool) : Nat :=
  if begins then ((m.rpcs rpc).map Rpc.observed).getD 0 else 0

/-- `CurrentVersion`. -/
def currentVersion (m : Net) (srv th : Nat) : Nat :=
  if (m.threads srv th).pending ≠ 0 then (m.threads srv th).pending
  else if m.hlc srv = 0 then 0
  else packVersion (Reading.ofState (m.hlc srv)).physical (Reading.ofState (m.hlc srv)).logical
    (srv % 2 ^ kVersionMetaBits)

/-- A record gets version `v`, and the operation goes on. -/
def putVersion (m : Net) (srv th rpc v : Nat) : Net :=
  { m.setThread srv th ⟨.body rpc, 0, (m.threads srv th).logged ++ [v]⟩ with
    log := m.log ++ [(srv, v)] }

/-- The successful exchange in `MergeAndTick`. -/
def exchange (m : Net) (srv th nowMs rpc : Nat) (begins : Bool) : Net :=
  let next := mergeAndTick nowMs (m.hlc srv) (m.observedVersion rpc begins) srv
  let m := { m with hlc := update m.hlc srv next.1 }
  if begins then
    { m.setThread srv th ⟨.body rpc, next.2, []⟩ with
      begun := update m.begun srv (m.begun srv ++ [next.2]) }
  else m.putVersion srv th rpc next.2

/-- A client starts a call: the requests go out with what it has seen. -/
def send (m : Net) (client : Nat) (retries : Bool) (reqs : List (Nat × Nat)) : Net :=
  let c := m.clients client
  { m with
    rpcs := fun id => match reqs.lookup id with
      | some srv => some ⟨client, srv, c.lastSeen, retries, c.received, .sent⟩
      | none => m.rpcs id
    clients := update m.clients client { c with waiting := reqs.map Prod.fst } }

/-- The client takes an answer: `ObserveServerHLC`, then the request once more or the end of it. -/
def receive (m : Net) (id : Nat) (r : Rpc) (hlc : Nat) (again : Bool) (logged : List Nat) : Net :=
  let c := m.clients r.client
  let c' : Client := ⟨max c.lastSeen hlc,
    if again && r.retries then c.waiting else c.waiting.erase id, c.received ++ logged⟩
  { m with
    rpcs := update m.rpcs id
      (if again && r.retries then some { r with before := c'.received, stage := .sent } else none)
    clients := update m.clients r.client c' }

end Net

inductive NetAct
  /-- a client starts a call with the requests `reqs`, given by number and server -/
  | call (client : Nat) (retries : Bool) (reqs : List (Nat × Nat))
  /-- a thread of the server takes request `rpc` -/
  | take (rpc th : Nat)
  /-- the load at the top of the loop of `MergeAndTick` -/
  | load (srv th : Nat)
  /-- `compare_exchange_weak` at physical time `nowMs` -/
  | cas (srv th nowMs : Nat)
  /-- the same, failing spuriously -/
  | casFails (srv th : Nat)
  /-- `Append` up to `NextVersion` -/
  | append (srv th : Nat)
  /-- the answer and `EndOperation` -/
  | reply (srv th : Nat) (again : Bool)
  /-- the client takes the answer to request `rpc` -/
  | receive (rpc : Nat)
deriving DecidableEq, Repr

def netStep (m : Net) : NetAct → Option Net
  | .call client retries reqs =>
    if (m.clients client).waiting = [] ∧ reqs ≠ [] ∧ (reqs.map Prod.fst).Nodup ∧
        (∀ q ∈ reqs, m.rpcs q.1 = none) ∧ (retries = true → reqs.length = 1) then
      some (m.send client retries reqs)
    else none
  | .take rpc th =>
    match m.rpcs rpc with
    | some r =>
      if r.stage = .sent ∧ (m.threads r.srv th).pc = .idle then
        some ((m.setRpc rpc (some { r with stage := .handled th })).setThread r.srv th
          ⟨.load rpc true, (m.threads r.srv th).pending, []⟩)
      else none
    | none => none
  | .load srv th =>
    match (m.threads srv th).pc with
    | .load rpc begins =>
      some (m.setThread srv th { m.threads srv th with pc := .cas rpc begins (m.hlc srv) })
    | _ => none
  | .cas srv th nowMs =>
    match (m.threads srv th).pc with
    | .cas rpc begins old =>
      if m.hlc srv = old then some (m.exchange srv th nowMs rpc begins)
      else some (m.setThread srv th { m.threads srv th with pc := .load rpc begins })
    | _ => none
  | .casFails srv th =>
    match (m.threads srv th).pc with
    | .cas rpc begins _ =>
      some (m.setThread srv th { m.threads srv th with pc := .load rpc begins })
    | _ => none
  | .append srv th =>
    match (m.threads srv th).pc with
    | .body rpc =>
      if (m.threads srv th).pending ≠ 0 then
        some (m.putVersion srv th rpc (m.threads srv th).pending)
      else some (m.setThread srv th { m.threads srv th with pc := .load rpc false })
    | _ => none
  | .reply srv th again =>
    match (m.threads srv th).pc with
    | .body rpc =>
      some ((m.setRpc rpc ((m.rpcs rpc).map fun r =>
          { r with
            stage := .answered (m.currentVersion srv th) again
              (m.threads srv th).logged })).setThread
        srv th ⟨.idle, 0, []⟩)
    | _ => none
  | .receive rpc =>
    match m.rpcs rpc with
    | some r =>
      match r.stage with
      | .answered hlc again logged => some (m.receive rpc r hlc again logged)
      | _ => none
    | none => none

/-- Runs from a cluster without requests, whose clocks were never read. -/
def netSystem : System Net NetAct where
  start m := m = .init
  step := netStep

/-- The milliseconds of the clock stay below `2 ^ 42 - 1` in an exchange at time `nowMs`. -/
def Net.TickInBounds (m : Net) (srv nowMs : Nat) : ThreadPc → Prop
  | .cas rpc begins old => old = m.hlc srv →
    (nextReading nowMs (m.hlc srv) (m.observedVersion rpc begins)).physical + 1 < 2 ^ 42
  | _ => True

/-- The ids of the servers are bytes, and the milliseconds of the clocks stay in bounds. -/
def Net.InBounds (m : Net) : NetAct → Prop
  | .call _ _ reqs => ∀ q ∈ reqs, q.2 < 2 ^ 8
  | .cas srv th nowMs => m.TickInBounds srv nowMs (m.threads srv th).pc
  | _ => True

instance (m : Net) (srv nowMs : Nat) : DecidablePred (m.TickInBounds srv nowMs)
  | .cas _ _ _ => inferInstanceAs (Decidable (_ → _))
  | .idle | .load _ _ | .body _ => inferInstanceAs (Decidable True)

instance (m : Net) : DecidablePred m.InBounds
  | .call _ _ reqs => inferInstanceAs (Decidable (∀ q ∈ reqs, q.2 < 2 ^ 8))
  | .cas srv _ nowMs => inferInstanceAs (Decidable (m.TickInBounds srv nowMs _))
  | .take _ _ | .load _ _ | .casFails _ _ | .append _ _ | .reply _ _ _ | .receive _ =>
    inferInstanceAs (Decidable True)

/-- The rules of such runs. -/
inductive NetStep (m : Net) : NetAct → Net → Prop
  | call {client : Nat} {retries : Bool} {reqs : List (Nat × Nat)} :
      (m.clients client).waiting = [] → (reqs.map Prod.fst).Nodup →
      (∀ q ∈ reqs, m.rpcs q.1 = none) → (retries = true → reqs.length = 1) →
      NetStep m (.call client retries reqs) (m.send client retries reqs)
  | take {rpc th : Nat} {r : Rpc} : m.rpcs rpc = some r → r.stage = .sent →
      (m.threads r.srv th).pc = .idle →
      NetStep m (.take rpc th)
        ((m.setRpc rpc (some { r with stage := .handled th })).setThread r.srv th
          ⟨.load rpc true, (m.threads r.srv th).pending, []⟩)
  | load {srv th rpc : Nat} {begins : Bool} : (m.threads srv th).pc = .load rpc begins →
      NetStep m (.load srv th)
        (m.setThread srv th { m.threads srv th with pc := .cas rpc begins (m.hlc srv) })
  | cas {srv th nowMs rpc : Nat} {begins : Bool} :
      (m.threads srv th).pc = .cas rpc begins (m.hlc srv) →
      NetStep m (.cas srv th nowMs) (m.exchange srv th nowMs rpc begins)
  | casLost {srv th nowMs rpc old : Nat} {begins : Bool} :
      (m.threads srv th).pc = .cas rpc begins old →
      NetStep m (.cas srv th nowMs)
        (m.setThread srv th { m.threads srv th with pc := .load rpc begins })
  | casFails {srv th rpc old : Nat} {begins : Bool} : (m.threads srv th).pc = .cas rpc begins old →
      NetStep m (.casFails srv th)
        (m.setThread srv th { m.threads srv th with pc := .load rpc begins })
  | appendPending {srv th rpc : Nat} : (m.threads srv th).pc = .body rpc →
      (m.threads srv th).pending ≠ 0 →
      NetStep m (.append srv th) (m.putVersion srv th rpc (m.threads srv th).pending)
  | append {srv th rpc : Nat} : (m.threads srv th).pc = .body rpc →
      (m.threads srv th).pending = 0 →
      NetStep m (.append srv th)
        (m.setThread srv th { m.threads srv th with pc := .load rpc false })
  | reply {srv th rpc : Nat} {again : Bool} : (m.threads srv th).pc = .body rpc →
      NetStep m (.reply srv th again)
        ((m.setRpc rpc ((m.rpcs rpc).map fun r =>
            { r with
              stage := .answered (m.currentVersion srv th) again
                (m.threads srv th).logged })).setThread srv th ⟨.idle, 0, []⟩)
  | receive {rpc hlc : Nat} {r : Rpc} {again : Bool} {logged : List Nat} :
      m.rpcs rpc = some r → r.stage = .answered hlc again logged →
      NetStep m (.receive rpc) (m.receive rpc r hlc again logged)

variable {m' : Net} {srv id nowMs : Nat} {a : NetAct}

theorem NetStep.of_step {m : Net} (h : netSystem.step m a = some m') : NetStep m a m' := by
  change netStep m a = some m' at h
  revert h
  -- what is refused is gone with `cases`
  fun_cases netStep m a <;> intro h <;> cases h
  · rename_i hg
    exact .call hg.1 hg.2.2.1 hg.2.2.2.1 hg.2.2.2.2
  · rename_i hg
    exact .take ‹_› hg.1 hg.2
  · exact .load ‹_›
  · exact .cas ‹_›
  · exact .casLost ‹_›
  · exact .casFails ‹_›
  · exact .appendPending ‹_› ‹_›
  · exact .append ‹_› (not_not.mp ‹_›)
  · exact .reply ‹_›
  · exact .receive ‹_› ‹_›

/-! ### One tick -/

/-- What `MergeAndTick` gives: a clock state above the old one and above the observed version, and
the version that shows it. -/
theorem mergeAndTick_spec {hlc observed : Nat}
    (h : (nextReading nowMs hlc observed).physical + 1 < 2 ^ 42) (hsrv : srv < 2 ^ 8) :
    hlc < (mergeAndTick nowMs hlc observed srv).1 ∧
      observed / 2 ^ 8 < (mergeAndTick nowMs hlc observed srv).1 ∧
      (mergeAndTick nowMs hlc observed srv).1 < 2 ^ 56 ∧
      (mergeAndTick nowMs hlc observed srv).2 =
        (mergeAndTick nowMs hlc observed srv).1 * 2 ^ 8 + srv := by
  unfold nextReading at h
  obtain ⟨hbase, hnow⟩ := Reading.le_tick nowMs
    ((Reading.ofState hlc).merge (Reading.ofState (observed >>> kVersionMetaBits)))
  have hlast : NotLast hlc observed := .of_physical (by omega)
  have hnext := mergeAndTick_forward hlast (by omega : nowMs < 2 ^ 42) srv
  rwa [Nat.mod_eq_of_lt hsrv] at hnext

/-- A clock state read back as a version. -/
theorem packVersion_ofState {state : Nat} (h : state < 2 ^ 56) (hsrv : srv < 2 ^ 8) :
    packVersion (Reading.ofState state).physical (Reading.ofState state).logical
      (srv % 2 ^ kVersionMetaBits) = state * 2 ^ 8 + srv := by
  have hp : (Reading.ofState state).physical < 2 ^ 42 := by
    simp only [Reading.ofState, kVersionLogicalBits, Nat.shiftRight_eq_div_pow]
    omega
  have hval := Reading.value_ofState state
  unfold Reading.value at hval
  rw [kVersionMetaBits, Nat.mod_eq_of_lt hsrv,
    packVersion_eq hp (Reading.logical_ofState state) hsrv,
    hval]

/-! ### Requests and threads -/

/-- The request a thread works on. -/
def ThreadPc.rpc : ThreadPc → Option Nat
  | .idle => none
  | .load rpc _ => some rpc
  | .cas rpc _ _ => some rpc
  | .body rpc => some rpc

/-- The request whose operation has begun. -/
def ThreadPc.working : ThreadPc → Option Nat
  | .idle => none
  | .load rpc begins => if begins then none else some rpc
  | .cas rpc begins _ => if begins then none else some rpc
  | .body rpc => some rpc

theorem ThreadPc.rpc_of_working {pc : ThreadPc} (h : pc.working = some id) : pc.rpc = some id := by
  cases pc with
  | idle => cases h
  | load rpc begins | cas rpc begins old =>
    cases begins with
    | true => cases h
    | false => exact h
  | body rpc => exact h

namespace Net

variable {m : Net} {r : Rpc} {begins : Bool} {rpc th : Nat} {t : Thread} {reqs : List (Nat × Nat)}
  {v client : Nat} {stage : RpcStage} {retries : Bool}

theorem setThread_threads (srv th : Nat) (t : Thread) (s h : Nat) :
    (m.setThread srv th t).threads s h = if s = srv ∧ h = th then t else m.threads s h := by
  unfold setThread
  by_cases hs : s = srv
  · subst hs
    by_cases hh : h = th
    · simp [hh]
    · simp [hh]
  · simp [hs]

@[simp] theorem setThread_same (srv th : Nat) (t : Thread) :
    (m.setThread srv th t).threads srv th = t := by simp [setThread]

theorem setThread_other {s h : Nat} (t : Thread) (hne : ¬(s = srv ∧ h = th)) :
    (m.setThread srv th t).threads s h = m.threads s h := by
  rw [setThread_threads, if_neg hne]

/-- Requests are with their server's thread and with the client that waits for them. -/
structure Routed (m : Net) : Prop where
  srv : ∀ id r, m.rpcs id = some r → r.srv < 2 ^ 8
  handled : ∀ srv th id, (m.threads srv th).pc.rpc = some id →
    ∃ r, m.rpcs id = some r ∧ r.srv = srv ∧ r.stage = .handled th
  waiting : ∀ id r, m.rpcs id = some r → id ∈ (m.clients r.client).waiting ∧
    (r.retries = true → (m.clients r.client).waiting = [id])

/-- The requests after a call: new ones, or as before. -/
theorem rpc_of_send (h : (m.send client retries reqs).rpcs id = some r) :
    (∃ srv, (id, srv) ∈ reqs ∧ r = ⟨client, srv, (m.clients client).lastSeen, retries,
      (m.clients client).received, .sent⟩) ∨ m.rpcs id = some r := by
  simp only [send] at h
  split at h
  · rename_i srv hlook
    cases h
    obtain ⟨l₁, l₂, rfl, -⟩ := lookup_eq_some_iff.mp hlook
    exact .inl ⟨srv, by simp, rfl⟩
  · exact .inr h

/-- Requests under way are not touched by a call. -/
theorem send_rpcs (hnew : ∀ q ∈ reqs, m.rpcs q.1 = none) (hr : m.rpcs id = some r) :
    (m.send client retries reqs).rpcs id = some r := by
  simp only [send]
  split
  · rename_i srv hlook
    obtain ⟨l₁, l₂, rfl, -⟩ := lookup_eq_some_iff.mp hlook
    rw [hnew (id, srv) (by simp)] at hr
    cases hr
  · exact hr

/-- The requests when one of them is replaced. -/
theorem rpc_of_update {rpcs : Nat → Option Rpc} {o : Option Rpc}
    (h : update rpcs rpc o id = some r) : id = rpc ∧ o = some r ∨ id ≠ rpc ∧ rpcs id = some r := by
  by_cases hid : id = rpc
  · subst hid
    exact .inl ⟨rfl, (update_self id o rpcs).symm.trans h⟩
  · exact .inr ⟨hid, (update_of_ne hid ..).symm.trans h⟩

namespace Routed

section

variable (h : Routed m)

include h

theorem srv_lt (hpc : (m.threads srv th).pc.rpc = some id) : srv < 2 ^ 8 := by
  obtain ⟨r, hr, rfl, -⟩ := h.handled srv th id hpc
  exact h.srv id r hr

/-- A request is with one thread. -/
theorem thread_unique {srv' th' : Nat}
    (hpc : (m.threads srv th).pc.rpc = some id) (hpc' : (m.threads srv' th').pc.rpc = some id) :
    srv' = srv ∧ th' = th := by
  obtain ⟨r, hr, hsrv, hstage⟩ := h.handled srv th id hpc
  obtain ⟨r', hr', hsrv', hstage'⟩ := h.handled srv' th' id hpc'
  rw [hr] at hr'
  cases hr'
  rw [hstage] at hstage'
  cases hstage'
  exact ⟨hsrv'.symm.trans hsrv, rfl⟩

/-- No thread has a request that is on its way. -/
theorem not_handled (hr : m.rpcs rpc = some r)
    (hst : ∀ th, r.stage ≠ .handled th) (s k : Nat) : (m.threads s k).pc.rpc ≠ some rpc := by
  intro hid
  obtain ⟨r', hr', -, hst'⟩ := h.handled s k rpc hid
  rw [hr] at hr'
  cases hr'
  exact hst k hst'

/-- A thread takes a request on or gives it away. -/
theorem setStage (hr : m.rpcs rpc = some r)
    (hothers : ∀ s k, (m.threads s k).pc.rpc = some rpc → s = srv ∧ k = th)
    (hown : ∀ id, t.pc.rpc = some id → id = rpc ∧ r.srv = srv ∧ stage = .handled th) :
    Routed ((m.setRpc rpc (some { r with stage := stage })).setThread srv th t) := by
  refine ⟨fun id r' hr' => ?_, fun s k id hid => ?_, fun id r' hr' => ?_⟩
  · rcases rpc_of_update hr' with ⟨-, ho⟩ | ⟨-, hr'⟩
    · cases ho
      exact h.srv rpc r hr
    · exact h.srv id r' hr'
  · rw [setThread_threads] at hid
    split at hid
    · rename_i heq
      obtain ⟨rfl, rfl⟩ := heq
      obtain ⟨rfl, hsrv, rfl⟩ := hown id hid
      exact ⟨_, update_self .., hsrv, rfl⟩
    · rename_i hne
      obtain ⟨r', hr', hrest⟩ := h.handled s k id hid
      have hid' : id ≠ rpc := fun heq => hne (hothers s k (heq ▸ hid))
      exact ⟨r', (update_of_ne hid' ..).trans hr', hrest⟩
  · rcases rpc_of_update hr' with ⟨rfl, ho⟩ | ⟨-, hr'⟩
    · cases ho
      exact h.waiting id r hr
    · exact h.waiting id r' hr'

/-- A thread goes on with its request. -/
theorem setThread (hpc : t.pc.rpc = (m.threads srv th).pc.rpc) : Routed (m.setThread srv th t) := by
  refine ⟨h.srv, fun s k id hid => ?_, h.waiting⟩
  rw [setThread_threads] at hid
  split at hid
  · rename_i heq
    obtain ⟨rfl, rfl⟩ := heq
    exact h.handled s k id (hpc ▸ hid)
  · exact h.handled s k id hid

/-- Clocks, log and history are not part of it. -/
theorem congr (hrpcs : m'.rpcs = m.rpcs)
    (hthreads : m'.threads = m.threads) (hclients : m'.clients = m.clients) : Routed m' := by
  refine ⟨?_, ?_, ?_⟩
  · rw [hrpcs]
    exact h.srv
  · rw [hrpcs, hthreads]
    exact h.handled
  · rw [hrpcs, hclients]
    exact h.waiting

theorem exchange (hpc : (m.threads srv th).pc.rpc = some rpc) :
    Routed (m.exchange srv th nowMs rpc begins) := by
  have hset : ∀ t : Thread, t.pc = .body rpc → Routed (m.setThread srv th t) := fun t ht =>
    h.setThread (by rw [ht, hpc]; rfl)
  unfold Net.exchange
  dsimp only
  split
  · exact (hset ⟨.body rpc, _, []⟩ rfl).congr rfl rfl rfl
  · exact (hset ⟨.body rpc, 0, _⟩ rfl).congr rfl rfl rfl

theorem step (hok : m.InBounds a) (hst : NetStep m a m') : Routed m' := by
  cases hst with
  | @call client retries reqs hwait hnodup hnew hone =>
    -- none of the client's requests is under way
    have hnone : ∀ id r, m.rpcs id = some r → r.client ≠ client := by
      rintro id r hr rfl
      have := (h.waiting id r hr).1
      rw [hwait] at this
      exact not_mem_nil this
    refine ⟨fun id r hr => ?_, fun s k id hid => ?_, fun id r hr => ?_⟩
    · rcases rpc_of_send hr with ⟨srv, hmem, rfl⟩ | hr
      · exact hok (id, srv) hmem
      · exact h.srv id r hr
    · obtain ⟨r, hr, hrest⟩ := h.handled s k id hid
      exact ⟨r, send_rpcs hnew hr, hrest⟩
    · rcases rpc_of_send hr with ⟨srv, hmem, rfl⟩ | hr
      · simp only [send, update_self]
        refine ⟨List.mem_map_of_mem hmem, fun hret => ?_⟩
        obtain ⟨q, rfl⟩ := length_eq_one_iff.mp (hone hret)
        rw [← mem_singleton.mp hmem]
        rfl
      · simp only [send, update_of_ne (hnone id r hr)]
        exact h.waiting id r hr
  | @take rpc th r hr hsent hidle =>
    refine h.setStage hr (fun s k hid => ?_) fun id hid => ?_
    · exact absurd hid (h.not_handled hr (by simp [hsent]) s k)
    · cases hid
      exact ⟨rfl, rfl, rfl⟩
  | load hpc | casLost hpc | casFails hpc | append hpc => exact h.setThread (by rw [hpc]; rfl)
  | cas hpc => exact h.exchange (by rw [hpc]; rfl)
  | @appendPending srv th rpc hpc hp =>
    exact (h.setThread (show ThreadPc.rpc (.body rpc) = _ by rw [hpc])).congr rfl rfl rfl
  | @reply srv th rpc again hpc =>
    obtain ⟨r, hr, -⟩ := h.handled srv th rpc (by rw [hpc]; rfl)
    rw [hr, map_some]
    refine h.setStage hr (fun s k hid => ?_) fun id hid => ?_
    · exact h.thread_unique (by rw [hpc]; rfl) hid
    · cases hid
  | @receive rpc hlc r again logged hr hstage =>
    obtain ⟨hwait, hretry⟩ := h.waiting rpc r hr
    refine ⟨fun id r' hr' => ?_, fun s k id hid => ?_, fun id r' hr' => ?_⟩
    · simp only [Net.receive, update_apply] at hr'
      split at hr'
      · split at hr'
        · cases hr'
          exact h.srv rpc r hr
        · cases hr'
      · exact h.srv id r' hr'
    · obtain ⟨r', hr', hrest⟩ := h.handled s k id hid
      have hne : id ≠ rpc := fun heq => h.not_handled hr (by simp [hstage]) s k (heq ▸ hid)
      exact ⟨r', (update_of_ne hne ..).trans hr', hrest⟩
    · simp only [Net.receive, update_apply] at hr'
      split at hr'
      · rename_i heq
        split at hr'
        · rename_i hagain
          cases hr'
          simp only [Net.receive, update_self, if_pos hagain]
          exact heq ▸ h.waiting rpc r hr
        · cases hr'
      · rename_i hne
        obtain ⟨hw, hr1⟩ := h.waiting id r' hr'
        by_cases hc : r'.client = r.client
        · -- a request that is sent again is the only one of its client
          rw [hc] at hw hr1
          simp only [Net.receive, hc, update_self]
          refine ⟨?_, fun hret => ?_⟩
          · split
            · exact hw
            · exact (mem_erase_of_ne hne).mpr hw
          · rw [hr1 hret] at hwait
            exact absurd (mem_singleton.mp hwait).symm hne
        · simp only [Net.receive, update_of_ne hc]
          exact ⟨hw, hr1⟩

end

theorem init : Routed Net.init := by
  refine ⟨fun _ _ hr => ?_, fun _ _ _ hid => ?_, fun _ _ hr => ?_⟩
  · cases hr
  · cases hid
  · cases hr

end Routed

/-! ### Versions -/

/-- The version shows a clock state that the server has reached. -/
structure Shown (m : Net) (srv v : Nat) : Prop where
  id : v % 2 ^ 8 = srv
  le : v / 2 ^ 8 ≤ m.hlc srv

/-- Every version drawn is in one place: on a record, or pending in a thread. -/
structure Distinct (m : Net) : Prop where
  fits : ∀ srv, m.hlc srv < 2 ^ 56
  log : ∀ e ∈ m.log, Shown m e.1 e.2
  nodup : (m.log.map Prod.snd).Nodup
  pending : ∀ srv th, (m.threads srv th).pending ≠ 0 →
    Shown m srv (m.threads srv th).pending ∧ (m.threads srv th).pending ∉ m.log.map Prod.snd
  threads : ∀ srv th th', (m.threads srv th).pending ≠ 0 →
    (m.threads srv th').pending = (m.threads srv th).pending → th' = th
  begun : ∀ srv, (m.begun srv).Pairwise (· < ·) ∧ ∀ b ∈ m.begun srv, b / 2 ^ 8 ≤ m.hlc srv

theorem Shown.mono (h : Shown m srv v) (hle : m.hlc srv ≤ m'.hlc srv) :
    Shown m' srv v := ⟨h.id, h.le.trans hle⟩

theorem Shown.version_le (h : Shown m srv v) : v ≤ m.hlc srv * 2 ^ 8 + srv := by
  have h1 := h.id
  have h2 := h.le
  omega

theorem tick_inBounds (h : m.InBounds (.cas srv th nowMs))
    (hpc : (m.threads srv th).pc = .cas rpc begins (m.hlc srv)) :
    (nextReading nowMs (m.hlc srv) (m.observedVersion rpc begins)).physical + 1 < 2 ^ 42 := by
  have h : m.TickInBounds srv nowMs (m.threads srv th).pc := h
  rw [hpc] at h
  exact h rfl

namespace Distinct

theorem init : Distinct Net.init where
  fits _ := Nat.two_pow_pos 56
  log _ h := (not_mem_nil h).elim
  nodup := nodup_nil
  pending _ _ h := absurd rfl h
  threads _ _ _ h := absurd rfl h
  begun _ := ⟨.nil, forall_mem_nil _⟩

section

variable (h : Distinct m)

include h

/-- Steps that draw no version and put none on a record. -/
theorem congr (hhlc : m'.hlc = m.hlc) (hlog : m'.log = m.log) (hbegun : m'.begun = m.begun)
    (hpending : ∀ srv th, (m'.threads srv th).pending = (m.threads srv th).pending ∨
      (m'.threads srv th).pending = 0) : Distinct m' := by
  have hkept : ∀ srv th, (m'.threads srv th).pending ≠ 0 →
      (m'.threads srv th).pending = (m.threads srv th).pending := fun srv th hne =>
    (hpending srv th).resolve_right hne
  have hshown : ∀ {srv v}, Shown m srv v → Shown m' srv v := fun hs =>
    hs.mono (by rw [hhlc])
  refine ⟨fun srv => hhlc ▸ h.fits srv, fun e he => hshown (h.log e (hlog ▸ he)), hlog ▸ h.nodup,
    fun srv th hne => ?_, fun srv th th' hne heq => ?_, fun srv => ?_⟩
  · have hk := hkept srv th hne
    rw [hk] at hne ⊢
    rw [hlog]
    exact ⟨hshown (h.pending srv th hne).1, (h.pending srv th hne).2⟩
  · have hne' : (m'.threads srv th').pending ≠ 0 := by rwa [heq]
    have hk := hkept srv th hne
    rw [hkept srv th' hne', hk] at heq
    rw [hk] at hne
    exact h.threads srv th th' hne heq
  · rw [hbegun, hhlc]
    exact h.begun srv

/-- Setting a thread without a new version. -/
theorem setThread (ht : t.pending = (m.threads srv th).pending ∨ t.pending = 0) :
    Distinct (m.setThread srv th t) := by
  refine h.congr rfl rfl rfl fun s k => ?_
  rw [setThread_threads]
  split
  · rename_i heq
    obtain ⟨rfl, rfl⟩ := heq
    exact ht
  · exact .inl rfl

/-- A version that no other thread holds goes on a record. -/
theorem putVersion (hshown : Shown m srv v) (hnew : v ∉ m.log.map Prod.snd)
    (hother : ∀ k, k ≠ th → (m.threads srv k).pending ≠ v) :
    Distinct (m.putVersion srv th rpc v) := by
  have hset : Distinct (m.setThread srv th ⟨.body rpc, 0, (m.threads srv th).logged ++ [v]⟩) :=
    h.setThread (.inr rfl)
  refine ⟨h.fits, fun e he => ?_, ?_, fun s k hne => ?_, hset.threads, h.begun⟩
  · rcases mem_append.mp he with he | he
    · exact ⟨(h.log e he).id, (h.log e he).le⟩
    · rw [mem_singleton.mp he]
      exact ⟨hshown.id, hshown.le⟩
  · show ((m.log ++ [(srv, v)]).map Prod.snd).Nodup
    rw [map_append, nodup_append]
    refine ⟨h.nodup, nodup_singleton _, fun a ha b hb hab => hnew ?_⟩
    have hb : b = v := mem_singleton.mp hb
    rw [← hb, ← hab]
    exact ha
  · obtain ⟨hs, hfresh⟩ := hset.pending s k hne
    refine ⟨⟨hs.id, hs.le⟩, fun hmem => ?_⟩
    rw [show (m.putVersion srv th rpc v).log = m.log ++ [(srv, v)] from rfl, map_append,
      mem_append] at hmem
    rcases hmem with hmem | hmem
    · exact hfresh hmem
    · -- the version of another thread: of another server, or by the hypothesis
      have hv := mem_singleton.mp hmem
      have hid : s = srv := by
        rw [← hs.id]
        exact (congrArg (· % 2 ^ 8) hv).trans hshown.id
      subst hid
      have hk : k ≠ th := by
        rintro rfl
        exact hne (congrArg Thread.pending (setThread_same ..))
      have hsame : ((m.putVersion s th rpc v).threads s k).pending = (m.threads s k).pending :=
        congrArg Thread.pending (setThread_other _ fun hc => hk hc.2)
      exact hother k hk (hsame.symm.trans hv)

/-- The clock moves on, and its new state is shown by no version yet. -/
theorem tick {next : Nat} (hlt : m.hlc srv < next) (hfits : next < 2 ^ 56) (hsrv : srv < 2 ^ 8) :
    Distinct { m with hlc := update m.hlc srv next } ∧
      next * 2 ^ 8 + srv ∉ m.log.map Prod.snd ∧
      ∀ k, (m.threads srv k).pending ≠ next * 2 ^ 8 + srv := by
  have hle : ∀ s, m.hlc s ≤ update m.hlc srv next s := by
    intro s
    rw [update_apply]
    split
    · rename_i hs
      exact (hs ▸ hlt).le
    · exact le_rfl
  have hfar : ∀ v, Shown m srv v → v ≠ next * 2 ^ 8 + srv := by
    intro v hs
    have := hs.le
    omega
  refine ⟨⟨fun s => ?_, fun e he => (h.log e he).mono (hle e.1), h.nodup,
    fun s k hne => ⟨(h.pending s k hne).1.mono (hle s), (h.pending s k hne).2⟩, h.threads,
    fun s => ⟨(h.begun s).1, fun b hb => ((h.begun s).2 b hb).trans (hle s)⟩⟩, fun hmem => ?_,
    fun k hk => ?_⟩
  · show update m.hlc srv next s < 2 ^ 56
    rw [update_apply]
    split
    · exact hfits
    · exact h.fits s
  · obtain ⟨e, he, hv⟩ := List.mem_map.mp hmem
    have hs := h.log e he
    have hid : e.1 = srv := by
      have := hs.id
      omega
    exact hfar e.2 (hid ▸ hs) hv
  · have hne : (m.threads srv k).pending ≠ 0 := by omega
    exact hfar _ (h.pending srv k hne).1 hk

theorem exchange (hsrv : srv < 2 ^ 8)
    (hb : (nextReading nowMs (m.hlc srv) (m.observedVersion rpc begins)).physical + 1 < 2 ^ 42) :
    Distinct (m.exchange srv th nowMs rpc begins) := by
  obtain ⟨hlt, -, hfits, hver⟩ := mergeAndTick_spec hb hsrv
  obtain ⟨htick, hnew, hother⟩ := h.tick hlt hfits hsrv
  unfold Net.exchange
  dsimp only
  rw [hver]
  generalize (mergeAndTick nowMs (m.hlc srv) (m.observedVersion rpc begins) srv).1 = next at *
  have hshown : Shown { m with hlc := update m.hlc srv next } srv
      (next * 2 ^ 8 + srv) := by
    refine ⟨by omega, ?_⟩
    simp only [update_self]
    omega
  split
  · -- the version becomes pending, and is the last one that began
    refine ⟨htick.fits, fun e he => ⟨(htick.log e he).id, (htick.log e he).le⟩, htick.nodup,
      fun s k hne => ?_, fun s k k' hne heq => ?_, fun s => ?_⟩
    · by_cases hs : s = srv ∧ k = th
      · obtain ⟨rfl, rfl⟩ := hs
        simp only [setThread_same]
        exact ⟨⟨hshown.id, hshown.le⟩, hnew⟩
      · simp only [setThread_other _ hs] at hne ⊢
        obtain ⟨hsh, hfresh⟩ := htick.pending s k hne
        exact ⟨⟨hsh.id, hsh.le⟩, hfresh⟩
    · simp only [setThread_threads] at hne heq
      split at hne
      · rename_i hk
        obtain ⟨rfl, rfl⟩ := hk
        by_contra hk'
        rw [if_neg fun hc => hk' hc.2, if_pos ⟨rfl, rfl⟩] at heq
        exact hother k' heq
      · rename_i hk
        rw [if_neg hk] at heq
        split at heq
        · rename_i hk'
          obtain ⟨rfl, rfl⟩ := hk'
          exact absurd heq.symm (hother k)
        · exact htick.threads s k k' hne heq
    · by_cases hs : s = srv
      · subst hs
        obtain ⟨hpair, hle⟩ := h.begun s
        simp only [update_self, Net.setThread]
        refine ⟨pairwise_append.mpr ⟨hpair, pairwise_singleton .., fun a ha b hb => ?_⟩,
          forall_mem_append.mpr ⟨fun b hb => (hle b hb).trans hlt.le,
            forall_mem_singleton.mpr (by omega)⟩⟩
        rw [mem_singleton.mp hb]
        have := hle a ha
        omega
      · simp only [update_of_ne hs, Net.setThread]
        exact h.begun s
  · exact htick.putVersion hshown hnew fun k _ => hother k

theorem step (hr : Routed m) (hok : m.InBounds a) (hst : NetStep m a m') : Distinct m' := by
  cases hst with
  | call | receive => exact h.congr rfl rfl rfl fun _ _ => .inl rfl
  | @take rpc th r hrpc hsent hidle =>
    have hset : Distinct (m.setRpc rpc (some { r with stage := .handled th })) :=
      h.congr rfl rfl rfl fun _ _ => .inl rfl
    exact hset.setThread (.inl rfl)
  | @cas srv th nowMs rpc begins hpc =>
    refine h.exchange (hr.srv_lt (by rw [hpc]; rfl)) ?_
    exact tick_inBounds hok hpc
  | @appendPending srv th rpc hpc hp =>
    obtain ⟨hshown, hnew⟩ := h.pending srv th hp
    exact h.putVersion hshown hnew fun k hk heq => hk (h.threads srv th k hp heq)
  | @reply srv th rpc again hpc =>
    refine h.congr rfl rfl rfl fun s k => ?_
    rw [setThread_threads]
    split
    · exact .inr rfl
    · exact .inl rfl
  | _ => exact h.setThread (.inl rfl)

end

end Distinct

/-! ### Causality -/

/-- The state of an operation for a request whose client knew the versions `before`. -/
structure Working (m : Net) (srv : Nat) (t : Thread) (before : List Nat) : Prop where
  ticked : 0 < m.hlc srv
  shown : ∀ v ∈ t.logged, Shown m srv v
  /-- the pending version is used up by the first record -/
  first : t.pending ≠ 0 ∧ t.logged = [] ∨ t.pending = 0 ∧ t.logged ≠ []
  below : ∀ w ∈ before, w / 2 ^ 8 ≤ m.hlc srv ∧ (t.pending ≠ 0 → w < t.pending) ∧
    ∀ v ∈ t.logged, w < v

theorem Working.mono {t' : Thread} {before : List Nat}
    (h : Working m srv t before) (hle : m.hlc srv ≤ m'.hlc srv) (hp : t'.pending = t.pending)
    (hl : t'.logged = t.logged) : Working m' srv t' before := by
  refine ⟨h.ticked.trans_le hle, ?_, ?_, fun w hw => ?_⟩
  · rw [hl]
    exact fun v hv => (h.shown v hv).mono hle
  · rw [hp, hl]
    exact h.first
  · rw [hp, hl]
    exact ⟨(h.below w hw).1.trans hle, (h.below w hw).2⟩

/-- Everything the client knew is at most the version the request carries, or was drawn on the
server that it goes to. The second case is that of a request sent again. -/
structure Causal (m : Net) : Prop where
  client : ∀ c, ∀ v ∈ (m.clients c).received, v ≤ (m.clients c).lastSeen
  retry : ∀ id r, m.rpcs id = some r → r.retries = true →
    ∀ v ∈ (m.clients r.client).received, v ≤ r.observed ∨ Shown m r.srv v
  before : ∀ id r, m.rpcs id = some r → ∀ v ∈ r.before, v ≤ r.observed ∨ Shown m r.srv v
  fresh : ∀ srv th, (m.threads srv th).pc.working = none → (m.threads srv th).logged = []
  working : ∀ srv th id r, (m.threads srv th).pc.working = some id → m.rpcs id = some r →
    Working m srv (m.threads srv th) r.before
  answered : ∀ id r hlc again logged, m.rpcs id = some r → r.stage = .answered hlc again logged →
    (∀ v ∈ logged, Shown m r.srv v ∧ v ≤ hlc) ∧
      ∀ w ∈ r.before, w < hlc ∧ ∀ v ∈ logged, w < v

/-- What is known of one request. -/
structure RpcOk (m : Net) (r : Rpc) : Prop where
  retry : r.retries = true →
    ∀ v ∈ (m.clients r.client).received, v ≤ r.observed ∨ Shown m r.srv v
  before : ∀ v ∈ r.before, v ≤ r.observed ∨ Shown m r.srv v
  answered : ∀ hlc again logged, r.stage = .answered hlc again logged →
    (∀ v ∈ logged, Shown m r.srv v ∧ v ≤ hlc) ∧
      ∀ w ∈ r.before, w < hlc ∧ ∀ v ∈ logged, w < v

theorem RpcOk.mono (h : RpcOk m r) (hhlc : ∀ s, m.hlc s ≤ m'.hlc s) (hrec : r.retries = true →
      (m'.clients r.client).received = (m.clients r.client).received) : RpcOk m' r := by
  refine ⟨fun hret v hv => ?_, fun v hv => ?_, fun hlc again logged hst => ?_⟩
  · rw [hrec hret] at hv
    exact (h.retry hret v hv).imp_right fun hs => hs.mono (hhlc _)
  · exact (h.before v hv).imp_right fun hs => hs.mono (hhlc _)
  · obtain ⟨h1, h2⟩ := h.answered hlc again logged hst
    exact ⟨fun v hv => ⟨(h1 v hv).1.mono (hhlc _), (h1 v hv).2⟩, h2⟩

namespace Causal

theorem init : Causal Net.init where
  client _ _ h := (not_mem_nil h).elim
  retry _ _ h := by cases h
  before _ _ h := by cases h
  fresh _ _ _ := rfl
  working _ _ _ _ h := by cases h
  answered _ _ _ _ _ h := by cases h

section

variable (h : Causal m)

include h

theorem rpcOk (hr : m.rpcs id = some r) : RpcOk m r :=
  ⟨h.retry id r hr, h.before id r hr, fun hlc again logged => h.answered id r hlc again logged hr⟩

/-- A step, given what it makes of clients, of requests, and of the threads that it does not leave
alone with their requests. -/
theorem change (hhlc : ∀ s, m.hlc s ≤ m'.hlc s)
    (hclient : ∀ c, ∀ v ∈ (m'.clients c).received, v ≤ (m'.clients c).lastSeen)
    (hrpcs : ∀ id r, m'.rpcs id = some r → RpcOk m' r)
    (hthreads : ∀ s k, (m'.threads s k = m.threads s k ∧
        ∀ id, (m.threads s k).pc.working = some id → m'.rpcs id = m.rpcs id) ∨
      ((m'.threads s k).pc.working = none → (m'.threads s k).logged = []) ∧
        ∀ id r, (m'.threads s k).pc.working = some id → m'.rpcs id = some r →
          Working m' s (m'.threads s k) r.before) : Causal m' := by
  refine ⟨hclient, fun id r hr => (hrpcs id r hr).retry, fun id r hr => (hrpcs id r hr).before,
    fun s k hw => ?_, fun s k id r hw hr => ?_,
    fun id r hlc again logged hr => (hrpcs id r hr).answered hlc again logged⟩
  · rcases hthreads s k with ⟨ht, -⟩ | ⟨hfresh, -⟩
    · rw [ht] at hw ⊢
      exact h.fresh s k hw
    · exact hfresh hw
  · rcases hthreads s k with ⟨ht, hkept⟩ | ⟨-, hown⟩
    · rw [ht] at hw ⊢
      rw [hkept id hw] at hr
      exact (h.working s k id r hw hr).mono (hhlc s) rfl rfl
    · exact hown id r hw hr

/-- A step of one thread. -/
theorem thread (srv th : Nat) (hhlc : ∀ s, m.hlc s ≤ m'.hlc s)
    (hrpcs : m'.rpcs = m.rpcs) (hclients : m'.clients = m.clients)
    (hothers : ∀ s k, ¬(s = srv ∧ k = th) → m'.threads s k = m.threads s k)
    (hfresh : (m'.threads srv th).pc.working = none → (m'.threads srv th).logged = [])
    (hown : ∀ id r, (m'.threads srv th).pc.working = some id → m.rpcs id = some r →
      Working m' srv (m'.threads srv th) r.before) : Causal m' := by
  refine h.change hhlc (by rw [hclients]; exact h.client) (fun id r hr => ?_) fun s k => ?_
  · rw [hrpcs] at hr
    exact (h.rpcOk hr).mono hhlc fun _ => by rw [hclients]
  · by_cases hs : s = srv ∧ k = th
    · obtain ⟨rfl, rfl⟩ := hs
      exact .inr ⟨hfresh, fun id r hw hr => hown id r hw (hrpcs ▸ hr)⟩
    · exact .inl ⟨hothers s k hs, fun id _ => by rw [hrpcs]⟩

/-- A thread takes a request on or gives it away. -/
theorem setStage (hrid : m.rpcs rpc = some r)
    (hothers : ∀ s k, (m.threads s k).pc.rpc = some rpc → s = srv ∧ k = th)
    (hpc : t.pc.working = none) (hl : t.logged = [])
    (hanswer : ∀ hlc again logged, stage = .answered hlc again logged →
      (∀ v ∈ logged, Shown m r.srv v ∧ v ≤ hlc) ∧
        ∀ w ∈ r.before, w < hlc ∧ ∀ v ∈ logged, w < v) :
    Causal ((m.setRpc rpc (some { r with stage := stage })).setThread srv th t) := by
  refine h.change (fun _ => le_rfl) h.client (fun id r' hr' => ?_) fun s k => ?_
  · rcases rpc_of_update hr' with ⟨-, ho⟩ | ⟨-, hr'⟩
    · have hok : RpcOk m { r with stage := stage } :=
        ⟨(h.rpcOk hrid).retry, (h.rpcOk hrid).before, hanswer⟩
      cases ho
      exact hok.mono (fun _ => le_rfl) fun _ => rfl
    · exact (h.rpcOk hr').mono (fun _ => le_rfl) fun _ => rfl
  · by_cases hs : s = srv ∧ k = th
    · obtain ⟨rfl, rfl⟩ := hs
      rw [setThread_same]
      refine .inr ⟨fun _ => hl, fun id r' hw => ?_⟩
      rw [hpc] at hw
      cases hw
    · refine .inl ⟨setThread_other _ hs, fun id hid => update_of_ne ?_ ..⟩
      rintro rfl
      exact hs (hothers s k (ThreadPc.rpc_of_working hid))

/-- A thread moves on within `MergeAndTick` or into it. -/
theorem move {pc : ThreadPc} (hpc : pc.working = (m.threads srv th).pc.working) :
    Causal (m.setThread srv th { m.threads srv th with pc := pc }) := by
  refine h.thread srv th (fun _ => le_rfl) rfl rfl (fun s k hs => setThread_other _ hs)
    (fun hw => ?_)
    fun id r hw hr => ?_
  · rw [setThread_same] at hw ⊢
    exact h.fresh srv th (hpc ▸ hw)
  · rw [setThread_same] at hw ⊢
    exact (h.working srv th id r (hpc ▸ hw) hr).mono le_rfl rfl rfl

/-- A version above everything the client knew goes on a record. -/
theorem putVersion
    (hhlc : ∀ s, m.hlc s ≤ m'.hlc s) (hrpcs : m'.rpcs = m.rpcs) (hclients : m'.clients = m.clients)
    (hthreads : m'.threads = m.threads) (hpc : (m.threads srv th).pc.working = some rpc)
    (hshown : Shown m' srv v) (habove : ∀ r, m.rpcs rpc = some r → ∀ w ∈ r.before, w < v) :
    Causal (m'.putVersion srv th rpc v) := by
  refine h.thread srv th hhlc hrpcs hclients (fun s k hs => ?_) (fun hw => ?_)
    fun id r hw hr => ?_
  · rw [← hthreads]
    exact setThread_other _ hs
  · rw [show (m'.putVersion srv th rpc v).threads srv th = _ from setThread_same ..] at hw
    cases hw
  · rw [show (m'.putVersion srv th rpc v).threads srv th = _ from setThread_same ..] at hw ⊢
    cases hw
    have hold := h.working srv th rpc r hpc hr
    rw [hthreads]
    refine ⟨hold.ticked.trans_le (hhlc srv), fun x hx => ?_, .inr ⟨rfl, by simp⟩, fun w hw => ?_⟩
    · rcases mem_append.mp hx with hx | hx
      · exact ⟨(hold.shown x hx).id, (hold.shown x hx).le.trans (hhlc srv)⟩
      · rw [mem_singleton.mp hx]
        exact ⟨hshown.id, hshown.le⟩
    · exact ⟨(hold.below w hw).1.trans (hhlc srv), fun h0 => absurd rfl h0,
        forall_mem_append.mpr
          ⟨(hold.below w hw).2.2, forall_mem_singleton.mpr (habove r hr w hw)⟩⟩

theorem exchange (hr : Routed m) (hpc : (m.threads srv th).pc = .cas rpc begins (m.hlc srv))
    (hb : (nextReading nowMs (m.hlc srv) (m.observedVersion rpc begins)).physical + 1 < 2 ^ 42) :
    Causal (m.exchange srv th nowMs rpc begins) := by
  have hrpc : (m.threads srv th).pc.rpc = some rpc := by rw [hpc]; rfl
  have hsrv := hr.srv_lt hrpc
  obtain ⟨hlt, hobs, -, hver⟩ := mergeAndTick_spec hb hsrv
  unfold Net.exchange
  dsimp only
  rw [hver]
  generalize (mergeAndTick nowMs (m.hlc srv) (m.observedVersion rpc begins) srv).1 = next at *
  have hhlc : ∀ s, m.hlc s ≤ update m.hlc srv next s := by
    intro s
    rw [update_apply]
    split
    · rename_i hs
      exact (hs ▸ hlt).le
    · exact le_rfl
  cases begins with
  | true =>
    rw [if_pos rfl]
    refine h.thread srv th hhlc rfl rfl (fun s k hs => setThread_other _ hs)
      (fun hw => ?_) fun id r hw hrid => ?_
    · simp only [setThread_same] at hw
      cases hw
    · simp only [setThread_same] at hw ⊢
      cases hw
      obtain ⟨r', hr', hrsrv, -⟩ := hr.handled srv th rpc hrpc
      rw [hrid] at hr'
      cases hr'
      have hobserved : m.observedVersion rpc true = r.observed := by
        simp [observedVersion, hrid]
      rw [hobserved] at hobs
      refine ⟨?_, forall_mem_nil _, .inl ⟨?_, rfl⟩, fun w hw => ?_⟩
      · simp only [Net.setThread, update_self]
        omega
      · show next * 2 ^ 8 + srv ≠ 0
        omega
      · have hw' : w / 2 ^ 8 < next := by
          rcases h.before rpc r hrid w hw with hle | hs
          · exact lt_of_le_of_lt (Nat.div_le_div_right hle) hobs
          · exact lt_of_le_of_lt (hrsrv ▸ hs.le) hlt
        refine ⟨?_, fun _ => show w < next * 2 ^ 8 + srv by omega,
          forall_mem_nil _⟩
        simp only [Net.setThread, update_self]
        exact hw'.le
  | false =>
    rw [if_neg (by decide)]
    have hwork : (m.threads srv th).pc.working = some rpc := by rw [hpc]; rfl
    refine h.putVersion hhlc rfl rfl rfl hwork ⟨by omega, ?_⟩ fun r hrid w hw => ?_
    · simp only [update_self]
      omega
    · have := ((h.working srv th rpc r hwork hrid).below w hw).1
      omega

/-- The answer is above everything the client knew and not below the records of the operation. -/
theorem reply (hr : Routed m) (hd : Distinct m) {again : Bool}
    (hpc : (m.threads srv th).pc = .body rpc) : Causal ((m.setRpc rpc ((m.rpcs rpc).map fun r =>
      { r with
        stage := .answered (m.currentVersion srv th) again (m.threads srv th).logged })).setThread
      srv th ⟨.idle, 0, []⟩) := by
  obtain ⟨r, hrid, hrsrv, -⟩ := hr.handled srv th rpc (by rw [hpc]; rfl)
  have hwork := h.working srv th rpc r (by rw [hpc]; rfl) hrid
  have hsrv : srv < 2 ^ 8 := hr.srv_lt (by rw [hpc]; rfl : _ = some rpc)
  have hanswer : (∀ v ∈ (m.threads srv th).logged, v ≤ m.currentVersion srv th) ∧
      ∀ w ∈ r.before, w < m.currentVersion srv th := by
    unfold currentVersion
    rcases hwork.first with ⟨hp, hl⟩ | ⟨hp, hl⟩
    · rw [if_pos hp, hl]
      exact ⟨forall_mem_nil _, fun w hw => (hwork.below w hw).2.1 hp⟩
    · rw [if_neg (not_not.mpr hp), if_neg hwork.ticked.ne', packVersion_ofState (hd.fits srv) hsrv]
      have hle : ∀ v ∈ (m.threads srv th).logged, v ≤ m.hlc srv * 2 ^ 8 + srv := fun v hv =>
        (hwork.shown v hv).version_le
      refine ⟨hle, fun w hw => ?_⟩
      obtain ⟨v, hv⟩ := exists_mem_of_ne_nil _ hl
      exact lt_of_lt_of_le ((hwork.below w hw).2.2 v hv) (hle v hv)
  rw [hrid, map_some]
  refine h.setStage hrid (fun s k hid => ?_) rfl rfl fun hlc again' logged hst => ?_
  · exact hr.thread_unique (by rw [hpc]; rfl) hid
  · cases hst
    refine ⟨fun v hv => ⟨?_, hanswer.1 v hv⟩, fun w hw => ⟨hanswer.2 w hw, ?_⟩⟩
    · rw [hrsrv]
      exact hwork.shown v hv
    · exact (hwork.below w hw).2.2

/-- The client takes an answer. -/
theorem receive (hr : Routed m) {hlc : Nat} {again : Bool}
    {logged : List Nat} (hrid : m.rpcs rpc = some r)
    (hstage : r.stage = .answered hlc again logged) :
    Causal (m.receive rpc r hlc again logged) := by
  obtain ⟨hlogged, hbefore⟩ := h.answered rpc r hlc again logged hrid hstage
  have hclient : ∀ c, ((m.receive rpc r hlc again logged).clients c).received =
      (m.clients c).received ++ if c = r.client then logged else [] := by
    intro c
    simp only [Net.receive, update_apply]
    split
    · rename_i hc
      rw [hc]
    · rw [append_nil]
  refine h.change (fun _ => le_rfl) (fun c v hv => ?_) (fun id r' hr' => ?_) fun s k =>
    .inl ⟨rfl, fun id hid => update_of_ne ?_ ..⟩
  · rw [hclient] at hv
    simp only [Net.receive, update_apply]
    by_cases hc : c = r.client
    · rw [if_pos hc] at hv
      rw [if_pos hc]
      rcases mem_append.mp hv with hv | hv
      · exact (hc ▸ h.client c v hv).trans (le_max_left _ _)
      · exact (hlogged v hv).2.trans (le_max_right _ _)
    · rw [if_neg hc, append_nil] at hv
      rw [if_neg hc]
      exact h.client c v hv
  · rcases rpc_of_update hr' with ⟨-, ho⟩ | ⟨hid, hr'⟩
    · split at ho
      · rename_i hagain
        cases ho
        -- a request that is sent again: what is new was drawn on its server
        have hknown : ∀ v ∈ (m.clients r.client).received ++ logged,
            v ≤ r.observed ∨ Shown (m.receive rpc r hlc again logged) r.srv v := by
          intro v hv
          rcases mem_append.mp hv with hv | hv
          · exact (h.retry rpc r hrid (Bool.and_eq_true_iff.mp hagain).2 v hv).imp_right
              fun hs => ⟨hs.id, hs.le⟩
          · exact .inr ⟨(hlogged v hv).1.id, (hlogged v hv).1.le⟩
        refine ⟨fun _ v hv => hknown v ?_, hknown, fun _ _ _ hst => by cases hst⟩
        rwa [hclient, if_pos rfl] at hv
      · cases ho
    · refine (h.rpcOk hr').mono (fun _ => le_rfl) fun hret => ?_
      have hc : r'.client ≠ r.client := by
        intro hc
        have hone := (hr.waiting id r' hr').2 hret
        rw [hc] at hone
        have hmem := (hr.waiting rpc r hrid).1
        rw [hone] at hmem
        exact hid (mem_singleton.mp hmem).symm
      rw [hclient, if_neg hc, append_nil]
  · rintro rfl
    exact hr.not_handled hrid (by simp [hstage]) s k (ThreadPc.rpc_of_working hid)

theorem step (hr : Routed m) (hd : Distinct m)
    (hok : m.InBounds a) (hst : NetStep m a m') : Causal m' := by
  cases hst with
  | @call client retries reqs hwait hnodup hnew hone =>
    have hclient : ∀ c, ((m.send client retries reqs).clients c).received =
        (m.clients c).received ∧
        ((m.send client retries reqs).clients c).lastSeen = (m.clients c).lastSeen := by
      intro c
      simp only [send, update_apply]
      split
      · rename_i hc
        rw [hc]
        exact ⟨rfl, rfl⟩
      · exact ⟨rfl, rfl⟩
    refine h.change (fun _ => le_rfl) (fun c => ?_) (fun id r hrid => ?_) fun s k =>
      .inl ⟨rfl, fun id hid => ?_⟩
    · rw [(hclient c).1, (hclient c).2]
      exact h.client c
    · rcases rpc_of_send hrid with ⟨srv, -, rfl⟩ | hrid
      · refine ⟨fun _ v hv => .inl (h.client client v ?_), fun v hv => .inl (h.client client v hv),
          fun _ _ _ hst => by cases hst⟩
        rwa [(hclient client).1] at hv
      · exact (h.rpcOk hrid).mono (fun _ => le_rfl) fun _ => (hclient r.client).1
    · obtain ⟨r, hrid, -⟩ := hr.handled s k id (ThreadPc.rpc_of_working hid)
      rw [send_rpcs hnew hrid, hrid]
  | @take rpc th r hrid hsent hidle =>
    refine h.setStage hrid (fun s k hid => ?_) rfl rfl fun _ _ _ hst => by cases hst
    exact absurd hid (hr.not_handled hrid (by simp [hsent]) s k)
  | load hpc | casLost hpc | casFails hpc | append hpc => exact h.move (by rw [hpc]; rfl)
  | cas hpc => exact h.exchange hr hpc (tick_inBounds hok hpc)
  | @appendPending srv th rpc hpc hp =>
    have hwork : (m.threads srv th).pc.working = some rpc := by rw [hpc]; rfl
    exact h.putVersion (fun _ => le_rfl) rfl rfl rfl hwork (hd.pending srv th hp).1
      fun r hrid w hw => ((h.working srv th rpc r hwork hrid).below w hw).2.1 hp
  | reply hpc => exact h.reply hr hd hpc
  | receive hrid hstage => exact h.receive hr hrid hstage

end

end Causal

end Net

/-- **Versions respect causality.** In every run whose clocks stay in bounds: the versions on
records are pairwise distinct over all servers; those `BeginOperation` returned on a server are
strictly increasing; what a thread working on a request has put on records, and the version in the
answer to a request (for an `OpenDir`, the cutoff), are above every version on a record of an
operation whose answer the client had when it sent the request. -/
theorem hybrid_causality {m : Net} (h : netSystem.Reach Net.InBounds m) :
    (m.log.map Prod.snd).Nodup ∧ (∀ srv, (m.begun srv).Pairwise (· < ·)) ∧
    (∀ srv th id r, (m.threads srv th).pc.rpc = some id → m.rpcs id = some r →
      ∀ w ∈ r.before, ∀ v ∈ (m.threads srv th).logged, w < v) ∧
    (∀ id r hlc again logged, m.rpcs id = some r → r.stage = .answered hlc again logged →
      ∀ w ∈ r.before, w < hlc ∧ ∀ v ∈ logged, w < v) := by
  obtain ⟨hr, hd, hc⟩ := h.invariant (I := fun m => m.Routed ∧ m.Distinct ∧ m.Causal)
    (fun m h0 => by
      cases h0
      exact ⟨.init, .init, .init⟩)
    (fun m a m' _ hi hok hst => by
      have hst := NetStep.of_step hst
      exact ⟨hi.1.step hok hst, hi.2.1.step hi.1 hok hst, hi.2.2.step hi.1 hi.2.1 hok hst⟩)
  refine ⟨hd.nodup, fun srv => (hd.begun srv).1, fun srv th id r hpc hrid w hw v hv => ?_,
    fun id r hlc again logged hrid hstage => (hc.answered id r hlc again logged hrid hstage).2⟩
  cases hwork : (m.threads srv th).pc.working with
  | none =>
    rw [hc.fresh srv th hwork] at hv
    exact (not_mem_nil hv).elim
  | some id' =>
    have hid : id' = id := by
      have := ThreadPc.rpc_of_working hwork
      rw [hpc] at this
      exact (Option.some.inj this).symm
    subst hid
    exact ((hc.working srv th id' r hwork hrid).below w hw).2.2 v hv

/-- Client 0 makes something on server 1, whose clock is far ahead, then opens a directory on server
0 and makes two records there. -/
theorem hybrid_causality_two_servers :
    ∃ m r v w, netSystem.Reach Net.InBounds m ∧ m.rpcs 2 = some r ∧ w ∈ r.before ∧
      v ∈ (m.threads 0 0).logged ∧ m.log.length = 3 ∧ w < v := by
  have hrun : (netSystem.runChecked (fun m a => decide (m.InBounds a))
      [.call 0 true [(1, 1)], .take 1 0, .load 1 0, .cas 1 0 5000, .append 1 0, .reply 1 0 false,
        .receive 1, .call 0 true [(2, 0)], .take 2 0, .load 0 0, .casFails 0 0, .load 0 0,
        .cas 0 0 10, .append 0 0, .append 0 0, .load 0 0, .cas 0 0 11] .init).map (fun m =>
      decide (((m.rpcs 2).map Rpc.before) = some [5000 * 2 ^ 22 + 1] ∧
        (m.threads 0 0).pc.rpc = some 2 ∧
        (m.threads 0 0).logged = [5000 * 2 ^ 22 + 2 ^ 8, 5000 * 2 ^ 22 + 2 ^ 9] ∧
        m.log.length = 3)) = some true := by
    decide +kernel
  obtain ⟨m, hreach, hbefore, hpc, hlogged, hlen⟩ :=
    System.exists_reach (show netSystem.start Net.init from rfl) hrun fun _ _ h => h
  obtain ⟨r, hr, hb⟩ := map_eq_some_iff.mp hbefore
  have hw : 5000 * 2 ^ 22 + 1 ∈ r.before := by
    rw [hb]
    exact mem_singleton_self _
  have hv : 5000 * 2 ^ 22 + 2 ^ 8 ∈ (m.threads 0 0).logged := by
    rw [hlogged]
    exact mem_cons_self
  exact ⟨m, r, _, _, hreach, hr, hw, hv, hlen,
    (hybrid_causality hreach).2.2.1 0 0 2 r hpc hr _ hw _ hv⟩

end StaxFS.Causality
