import StaxFS.Metadata.Unique

/-!
# Requests: a version first, the operation later

A client sends a request with the highest version it has seen (`last_seen_hlc_`). The server thread
that takes it merges this version into the server's clock and draws a version for the operation
(`BeginOperation`, in the constructor of `MetadataOperationClockGuard`); then it executes the
operation, whose first log record gets the drawn version; the answer carries the server's version
back to the client.

Drawing the version and executing the operation are two steps here, and the operation is atomic.
Only runs in which every operation succeeds are looked at.

Results, as long as the milliseconds of the clocks fit their 42 bits:
* `append_advances`: an append leaves other threads' versions alone and turns no clock back.
* `DrawnInv.beginOperation`, `DrawnInv.answer`, `DrawnInv.checkpoint`: while a request waits, the
  version drawn for it is not above its server's clock.
-/

namespace StaxFS.Metadata

open Foundation Wal
open Function (update update_of_ne update_self)

namespace Cluster

/-- `BeginOperation` on server `srv` in thread `th`. -/
def beginOperation (env : Env) (srv th observed : Nat) (σ : Cluster) : Cluster :=
  let s := σ.servers srv
  let next := mergeAndTick (env.clock σ.tick) s.hlc observed s.metaNum
  { σ.setServer srv { s with hlc := next.1 } with
    pending := update σ.pending th next.2, tick := σ.tick + 1 }

/-- `EndOperation`. -/
def endOperation (th : Nat) (σ : Cluster) : Cluster :=
  { σ with pending := update σ.pending th 0 }

/-- `CurrentVersion`. -/
def currentVersion (srv th : Nat) (σ : Cluster) : Nat :=
  let s := σ.servers srv
  if σ.pending th ≠ 0 then σ.pending th
  else if s.hlc = 0 then 0
  else packVersion (Reading.ofState s.hlc).physical (Reading.ofState s.hlc).logical
    (s.metaNum % 2 ^ kVersionMetaBits)

/-- `NextVersion`. -/
def nextVersion (env : Env) (srv th : Nat) (σ : Cluster) : Nat :=
  if σ.pending th ≠ 0 then σ.pending th
  else (mergeAndTick (env.clock σ.tick) (σ.servers srv).hlc 0 (σ.servers srv).metaNum).2

end Cluster

/-- Clients and servers. -/
structure Service where
  cluster : Cluster
  /-- what every server thread is working on, and the client that waits for it -/
  inFlight : Nat → Option (Nat × Request)
  /-- `last_seen_hlc_` of every client -/
  lastSeen : Nat → Nat

inductive ServiceAct
  /-- thread `th` takes a request of a client and draws its version -/
  | beginOperation (th client : Nat) (q : Request)
  /-- thread `th` executes its request and answers -/
  | execute (th : Nat)
  /-- the checkpoint of server `srv` moves to `cp` -/
  | checkpoint (srv cp : Nat)
deriving DecidableEq, Repr

/-- The answer of thread `th` to its client; `σ` is the state the operation leaves. -/
def Service.answer (s : Service) (th client srv : Nat) (σ : Cluster) : Service where
  cluster := σ.endOperation th
  inFlight := update s.inFlight th none
  lastSeen := update s.lastSeen client
    (max (s.lastSeen client) (σ.currentVersion srv th))

def serviceStep (env : Env) (s : Service) : ServiceAct → Option Service
  | .beginOperation th client q =>
    if s.inFlight th = none then
      some { s with
        cluster := s.cluster.beginOperation env q.srv th (s.lastSeen client)
        inFlight := update s.inFlight th (some (client, q)) }
    else none
  | .execute th =>
    match s.inFlight th with
    | some (client, q) =>
      match s.cluster.run env q.srv th q.call with
      -- a run with a failed operation is not followed any further
      | some (r, σ') => if r = 0 then some (s.answer th client q.srv σ') else none
      | none => none
    | none => none
  | .checkpoint srv cp =>
    (checkpointStep (srv, cp) s.cluster).map fun σ => { s with cluster := σ }

/-- Runs from `Init`, with no request and clients that have seen nothing. -/
def service (env : Env) : System Service ServiceAct where
  start s := s.cluster.Initial ∧ (∀ th, s.inFlight th = none) ∧ ∀ c, s.lastSeen c = 0
  step := serviceStep env

/-- The rules of such runs. -/
inductive ServiceStep (env : Env) (s : Service) : ServiceAct → Service → Prop
  | beginOperation {th client : Nat} {q : Request} : s.inFlight th = none →
      ServiceStep env s (.beginOperation th client q)
        { s with
          cluster := s.cluster.beginOperation env q.srv th (s.lastSeen client)
          inFlight := update s.inFlight th (some (client, q)) }
  | execute {th client : Nat} {q : Request} {σ' : Cluster} : s.inFlight th = some (client, q) →
      Done env q.srv th s.cluster q.call 0 σ' →
      ServiceStep env s (.execute th) (s.answer th client q.srv σ')
  | checkpoint {srv cp : Nat} :
      ServiceStep env s (.checkpoint srv cp)
        { s with cluster := s.cluster.setCheckpoint srv cp }

theorem ServiceStep.of_step {env : Env} {s s' : Service} {a : ServiceAct}
    (h : (service env).step s a = some s') : ServiceStep env s a s' := by
  change serviceStep env s a = some s' at h
  revert h
  fun_cases serviceStep env s a <;> intro h <;> try cases h
  · exact .beginOperation ‹_›
  · exact .execute ‹_› (run_call.mp ‹_›)
  · obtain ⟨σ, hσ, rfl⟩ := Option.map_eq_some_iff.mp h
    simp only [checkpointStep] at hσ
    split at hσ
    · cases hσ
      exact .checkpoint
    · cases hσ

/-! ### Clocks -/

/-- What the work of thread `th` does to versions and clocks: other threads keep their versions, and
no clock goes back. -/
structure Advances (th : Nat) (σ σ' : Cluster) : Prop where
  pending : ∀ t, t ≠ th → σ'.pending t = σ.pending t
  hlc : ∀ k, (σ.servers k).hlc ≤ (σ'.servers k).hlc

namespace Cluster

variable {env : Env} {srv th : Nat} {σ : Cluster} {k : Nat}

@[simp] theorem updateFn_pending (id : Nat) (f : InodeFn) :
    (σ.updateFn id f).pending = σ.pending := by
  unfold updateFn
  split <;> rfl

@[simp] theorem insert_pending (d : Dirent) : (σ.insert env d).pending = σ.pending := by
  unfold insert
  split <;> rfl

@[simp] theorem addEntry_pending (d : Dirent) (pid : Nat) (u : Bool) :
    (σ.addEntry env d pid u).pending = σ.pending := by
  cases u <;> simp [addEntry]

@[simp] theorem deleteEntry_pending (name : Name) (pid : Nat) (u : Bool) :
    (σ.deleteEntry name pid u).pending = σ.pending := by
  cases u <;> simp [deleteEntry, erase]

@[simp] theorem unlinked_pending (res : Located) (n : Inode) :
    (σ.unlinked env srv th res n).pending = (σ.append env srv th res.unlinkRequest).pending := by
  simp [unlinked, setInode]

@[simp] theorem setIds_hlc (ids : IdPool) (k : Nat) :
    ((σ.setIds srv ids).servers k).hlc = (σ.servers k).hlc := by
  by_cases h : k = srv
  · subst h
    simp [setIds, setServer]
  · simp [setIds, setServer, h]

@[simp] theorem freeInode_hlc (id k : Nat) :
    ((σ.freeInode srv id).servers k).hlc = (σ.servers k).hlc := by
  simp [freeInode]

/-- A pending version is used up, and the clocks stand still. -/
theorem append_of_pending (h : σ.pending th ≠ 0) (req : LogRequest) :
    (σ.append env srv th req).pending = update σ.pending th 0 ∧
      ∀ k, ((σ.append env srv th req).servers k).hlc = (σ.servers k).hlc := by
  unfold append
  rw [if_pos h]
  refine ⟨rfl, fun k => ?_⟩
  by_cases hk : k = srv
  · subst hk
    simp [setServer]
  · simp [setServer, hk]

/-- An append advances the clock, if it does anything to it. -/
theorem append_advances (hclock : ∀ i, env.clock i < 2 ^ 42)
    (hfits : ClockFits (σ.servers srv).hlc 0) (req : LogRequest) :
    Advances th σ (σ.append env srv th req) := by
  by_cases hp : σ.pending th = 0
  · unfold append
    rw [if_neg (not_not.mpr hp)]
    refine ⟨fun t _ => rfl, fun k => ?_⟩
    by_cases hk : k = srv
    · subst hk
      simp only [setServer, update_self]
      exact Nat.le_of_lt (lt_mergeAndTick hfits (hclock _))
    · simp [setServer, hk]
  · obtain ⟨h1, h2⟩ := @append_of_pending env srv _ _ hp req
    exact ⟨fun t ht => by rw [h1, update_of_ne ht], fun k => Nat.le_of_eq (h2 k).symm⟩

/-- The record that an append publishes. -/
theorem append_records (req : LogRequest) (k : Nat) : (σ.append env srv th req).records k =
      σ.records k ++ if k = srv then [⟨req, σ.nextVersion env srv th⟩] else [] := by
  unfold append nextVersion records
  by_cases hk : k = srv
  · subst hk
    split <;> simp [setServer, Log.append]
  · split <;> simp [setServer, hk]

variable {σ' : Cluster}

/-- An operation on one server leaves the others alone. -/
theorem exec_servers {op : Op} {r : Res op} (h : exec env srv th op σ = some
    (r, σ')) (hk : k ≠ srv) : σ'.servers k = σ.servers k := by
  cases op with
  | allocateInodeId | freeInodeId id =>
    cases h
    simp [setIds, setServer, hk]
  | log req =>
    cases h
    split
    · unfold append
      split <;> simp [setServer, hk]
    · rfl
  | undefined => cases h
  | insertDirent d =>
    cases h
    rw [insert_servers]
  | updateFn id f =>
    cases h
    rw [updateFn_servers]
  | _ =>
    cases h
    rfl

theorem run_servers {c : Call} {r : Int} (h : σ.run env srv th c = some (r, σ'))
    (hk : k ≠ srv) : σ'.servers k = σ.servers k := by
  refine Prog.run_invariant (I := fun τ => τ.servers k = σ.servers k) ?_
    c.body h rfl
  intro op τ r τ' hτ hx
  exact (exec_servers hx hk).trans hτ

end Cluster

namespace Advances

variable {th : Nat} {σ σ₁ σ' : Cluster}

theorem refl (th : Nat) (σ : Cluster) : Advances th σ σ := ⟨fun _ _ => rfl, fun _ => Nat.le_refl _⟩

theorem trans (h : Advances th σ σ₁) (h' : Advances th σ₁ σ') : Advances th σ σ' :=
  ⟨fun t ht => (h'.pending t ht).trans (h.pending t ht), fun k => (h.hlc k).trans (h'.hlc k)⟩

/-- Further changes, none of versions and clocks. -/
theorem congr (h : Advances th σ σ₁) (hp : σ'.pending = σ₁.pending)
    (hh : ∀ k, (σ'.servers k).hlc = (σ₁.servers k).hlc) : Advances th σ σ' :=
  ⟨fun t ht => by rw [hp, h.pending t ht], fun k => by rw [hh k]; exact h.hlc k⟩

end Advances

/-- The versions drawn for the waiting requests show clock states that their servers have reached.
-/
def DrawnInv (s : Service) : Prop :=
  ∀ th client q, s.inFlight th = some (client, q) →
    s.cluster.pending th ≠ 0 ∧ s.cluster.pending th / 2 ^ 8 ≤ (s.cluster.servers q.srv).hlc

namespace DrawnInv

variable {env : Env} {s : Service} {th client : Nat} {q : Request}

theorem start (h : (service env).start s) : DrawnInv s := by
  intro th client q hq
  rw [h.2.1 th] at hq
  cases hq

theorem beginOperation (h : DrawnInv s) (hclock : ∀ i, env.clock i < 2 ^ 42)
    (hfits : ClockFits (s.cluster.servers q.srv).hlc (s.lastSeen client)) : DrawnInv { s with
      cluster := s.cluster.beginOperation env q.srv th (s.lastSeen client)
      inFlight := update s.inFlight th (some (client, q)) } := by
  have hlt := @lt_mergeAndTick _ _ _ (s.cluster.servers q.srv).metaNum hfits
    (hclock s.cluster.tick)
  have hver := @version_mergeAndTick _ _ _ (s.cluster.servers q.srv).metaNum hfits
    (hclock s.cluster.tick)
  intro t c q' hq
  simp only [Cluster.beginOperation] at hq ⊢
  by_cases ht : t = th
  · subst ht
    rw [update_self] at hq
    cases hq
    simp only [update_self, Cluster.setServer]
    omega
  · rw [update_of_ne ht] at hq
    obtain ⟨hne, hle⟩ := h t c q' hq
    rw [update_of_ne ht]
    refine ⟨hne, hle.trans ?_⟩
    -- no clock goes back
    by_cases hk : q'.srv = q.srv
    · rw [hk]
      simp only [Cluster.setServer, update_self]
      exact Nat.le_of_lt hlt
    · simp [Cluster.setServer, hk]

theorem answer (h : DrawnInv s) {srv : Nat} (hadv : Advances th s.cluster σ') :
    DrawnInv (s.answer th client srv σ') := by
  intro t c q' hq
  simp only [Service.answer, Cluster.endOperation] at hq ⊢
  by_cases ht : t = th
  · rw [ht, update_self] at hq
    cases hq
  · rw [update_of_ne ht] at hq ⊢
    obtain ⟨hne, hle⟩ := h t c q' hq
    rw [hadv.pending t ht]
    exact ⟨hne, hle.trans (hadv.hlc q'.srv)⟩

theorem checkpoint (h : DrawnInv s) (srv cp : Nat) :
    DrawnInv { s with cluster := s.cluster.setCheckpoint srv cp } := by
  intro t c q' hq
  refine ⟨(h t c q' hq).1, ?_⟩
  by_cases hk : q'.srv = srv
  · subst hk
    simpa [Cluster.setCheckpoint, Cluster.setServer] using (h t c q' hq).2
  · simpa [Cluster.setCheckpoint, Cluster.setServer, hk] using (h t c q' hq).2

end DrawnInv

end StaxFS.Metadata
