import StaxFS.Metadata.Outcome

/-!
# Calls one at a time

The namespace calls on server 0, one after the other from `Init` on, with moves of the checkpoint in
between. What a single call does is given by the rules of `Outcome`; the result of a call is not
part of the state.
-/

namespace StaxFS.Metadata

open Foundation Wal

/-- A step of a sequential run. -/
inductive SeqAct
  | call (c : Call)
  /-- the checkpoint moves to `cp` -/
  | checkpoint (cp : Nat)

def Cluster.setCheckpoint (σ : Cluster) (srv cp : Nat) : Cluster :=
  σ.setServer srv { σ.servers srv with log := { (σ.servers srv).log with cp } }

def seqStep (env : Env) (σ : Cluster) : SeqAct → Option Cluster
  | .call c => (σ.run env 0 0 c).map Prod.snd
  | .checkpoint cp =>
    if (σ.servers 0).log.cp ≤ cp ∧ cp ≤ (σ.servers 0).log.head then some (σ.setCheckpoint 0 cp)
    else none

/-- Sequential runs from `Init`. -/
def sequential (env : Env) : System Cluster SeqAct where
  start σ := ∃ config unset, σ = .init config unset
  step := seqStep env

/-- The rules of a sequential run. -/
inductive SeqStep (env : Env) (σ : Cluster) : SeqAct → Cluster → Prop
  | call {c : Call} {r : Int} {σ' : Cluster} : Done env 0 0 σ c r σ' → SeqStep env σ (.call c) σ'
  | checkpoint {cp : Nat} : SeqStep env σ (.checkpoint cp) (σ.setCheckpoint 0 cp)

theorem SeqStep.of_step {env : Env} {σ σ' : Cluster} {a : SeqAct}
    (h : (sequential env).step σ a = some σ') : SeqStep env σ a σ' := by
  cases a with
  | call c =>
    obtain ⟨⟨r, σ₁⟩, hrun, rfl⟩ := Option.map_eq_some_iff.mp h
    exact .call (run_call.mp hrun)
  | checkpoint cp =>
    simp only [sequential, seqStep] at h
    split at h
    · cases h
      exact .checkpoint
    · cases h

/-- An environment that refuses nothing. -/
def steadyEnv : Env := ⟨fun t => 1000 + t, fun _ => false, fun _ => 0⟩

/-- A ring of sixteen slots, empty. -/
def freshCluster : Cluster := .init sixteenSlots ⟨0, .fifo⟩

end StaxFS.Metadata
