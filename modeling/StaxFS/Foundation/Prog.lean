import StaxFS.Foundation.Runs

/-!
# Programs over atomic operations

A program is a tree: it returns, or performs an atomic operation and continues with the answer. One
definition of a procedure then has two meanings. `run` executes it alone, and `pool` interleaves any
number of calls, one operation at a time, over one shared state.

Operations are performed by a handler `exec`; it has no answer where the behaviour is undefined.
For the pool every call keeps the trace of its operations and answers, newest first, and `Along`
says what holds at every operation and at the end, whatever the answers are.

Results:
* `run_bind`: running a sequence runs its parts one after the other.
* `ends_bind`, `Ends.mono`, `Ends.bind`: the rules of `Ends`, total correctness of a program run
  alone.
* `along_bind`, `Along.mono`, `Along.suffix`: the rules of `Along`.
* `pool_along`: in every reachable state of the pool, what is left of a call meets what its
  procedure meets from the start.
* `exists_reach_below`: a list of labels of a few calls that executes gives a reached state.
-/

namespace StaxFS.Foundation

open List Option

open Function (update update_of_ne update_self)

/-- Programs with operations `Op` and answers `Res`. -/
inductive Prog (Op : Type) (Res : Op → Type) (α : Type)
  | pure (a : α)
  | call (op : Op) (k : Res op → Prog Op Res α)

namespace Prog

variable {Op : Type} {Res : Op → Type} {α β γ σ : Type} {op : Op}

def bind : Prog Op Res α → (α → Prog Op Res β) → Prog Op Res β
  | .pure a, f => f a
  | .call op k, f => .call op fun r => (k r).bind f

instance : Monad (Prog Op Res) where
  pure := .pure
  bind := bind

/-- Sequencing is associative. -/
theorem bind_bind (p : Prog Op Res α) (f : α → Prog Op Res β) (g : β → Prog Op Res γ) :
    (p >>= f) >>= g = p >>= fun a => f a >>= g := by
  change (p.bind f).bind g = p.bind fun a => (f a).bind g
  induction p with
  | pure a => rfl
  | call op k ih => exact congrArg (Prog.call op) (funext ih)

/-- A single operation. -/
def perform (op : Op) : Prog Op Res (Res op) := .call op .pure

/-- Execute a program alone. -/
def run (exec : (op : Op) → σ → Option (Res op × σ)) : Prog Op Res α → σ → Option (α × σ)
  | .pure a, s => some (a, s)
  | .call op k, s => (exec op s).bind fun x => (k x.1).run exec x.2

section Run

variable {exec : (op : Op) → σ → Option (Res op × σ)}

@[simp] theorem run_pure (a : α) (s : σ) :
    (Pure.pure a : Prog Op Res α).run exec s = some (a, s) := rfl

@[simp] theorem run_perform (op : Op) (s : σ) :
    (perform op : Prog Op Res (Res op)).run exec s = exec op s := by
  change ((exec op s).bind fun x => some (x.1, x.2)) = exec op s
  cases exec op s <;> rfl

@[simp] theorem run_bind (p : Prog Op Res α) (f : α → Prog Op Res β) (s : σ) :
    (p >>= f).run exec s = (p.run exec s).bind fun x => (f x.1).run exec x.2 := by
  change (p.bind f).run exec s = _
  induction p generalizing s with
  | pure a => rfl
  | call op k ih =>
    simp only [bind, run, bind_assoc]
    congr 1
    funext x
    exact ih x.1 x.2

variable {s s' : σ} {a : α} {Q : α → σ → Prop} {p : Prog Op Res α} {f : α → Prog Op Res β}

/-- What every operation keeps, a run keeps. -/
theorem run_invariant {I : σ → Prop}
    (hstep : ∀ op s r s', I s → exec op s = some (r, s') → I s') (p : Prog Op Res α)
    (h : run exec p s = some (a, s')) (h0 : I s) : I s' := by
  induction p generalizing s with
  | pure b =>
    cases h
    exact h0
  | call op k ih =>
    obtain ⟨⟨r, s₁⟩, hx, hrun⟩ := bind_eq_some_iff.mp h
    exact ih r hrun (hstep op s r s₁ h0 hx)

/-- Run alone from `s`, the program ends, in a state and with a result that meet `Q`. -/
def Ends (exec : (op : Op) → σ → Option (Res op × σ)) (p : Prog Op Res α) (s : σ)
    (Q : α → σ → Prop) : Prop :=
  ∃ a s', p.run exec s = some (a, s') ∧ Q a s'

theorem ends_pure : Ends exec (Pure.pure a : Prog Op Res α) s Q ↔ Q a s := by
  constructor
  · rintro ⟨_, _, h, hQ⟩
    cases h
    exact hQ
  · exact fun hQ => ⟨a, s, rfl, hQ⟩

theorem Ends.pure (h : Q a s) : Ends exec (Pure.pure a : Prog Op Res α) s Q := ends_pure.mpr h

theorem ends_bind {Q : β → σ → Prop} :
    Ends exec (p >>= f) s Q ↔ Ends exec p s fun a s' => Ends exec (f a) s' Q := by
  simp only [Ends, run_bind, bind_eq_some_iff]
  constructor
  · rintro ⟨b, s2, ⟨⟨a, s1⟩, h1, h2⟩, hQ⟩
    exact ⟨a, s1, h1, b, s2, h2, hQ⟩
  · rintro ⟨a, s1, h1, b, s2, h2, hQ⟩
    exact ⟨b, s2, ⟨(a, s1), h1, h2⟩, hQ⟩

theorem Ends.seq {Q : β → σ → Prop} (h : Ends exec p s fun a s' => Ends exec (f a) s' Q) :
    Ends exec (p >>= f) s Q := ends_bind.mpr h

theorem ends_perform {Q : Res op → σ → Prop} {r : Res op} (h : exec op s = some (r, s')) :
    Ends exec (perform op : Prog Op Res (Res op)) s Q ↔ Q r s' := by
  simp only [Ends, run_perform, h]
  constructor
  · rintro ⟨_, _, he, hQ⟩
    cases he
    exact hQ
  · exact fun hQ => ⟨r, s', rfl, hQ⟩

theorem Ends.mono {Q' : α → σ → Prop} (h : Ends exec p s Q)
    (hQ : ∀ a s', Q a s' → Q' a s') : Ends exec p s Q' := by
  obtain ⟨a, s', hrun, hq⟩ := h
  exact ⟨a, s', hrun, hQ a s' hq⟩

variable {R : α → σ → Prop}

/-- Sequencing: the rest is run from what the first part guarantees. -/
theorem Ends.bind
    {Q : β → σ → Prop} (h : Ends exec p s R) (hf : ∀ a s', R a s' → Ends exec (f a) s' Q) :
    Ends exec (p >>= f) s Q :=
  .seq (h.mono hf)

/-- Performing one operation, then the rest. -/
theorem Ends.step {f : Res op → Prog Op Res β} {s s' : σ} {r : Res op} {Q : β → σ → Prop}
    (h : exec op s = some (r, s')) (hf : Ends exec (f r) s' Q) : Ends exec (perform op >>= f) s Q :=
  .seq ((ends_perform h).mpr hf)

end Run

/-! ### Along every trace -/

/-- An operation with its answer. -/
abbrev Event (Op : Type) (Res : Op → Type) : Type := (op : Op) × Res op

/-- Whatever the answers are: every operation is `ok` after the trace so far, and the end meets
`post`. -/
def Along (ok : List (Event Op Res) → Op → Prop) (post : List (Event Op Res) → α → Prop) :
    List (Event Op Res) → Prog Op Res α → Prop
  | tr, .pure a => post tr a
  | tr, .call op k => ok tr op ∧ ∀ r, (k r).Along ok post (⟨op, r⟩ :: tr)

section Along

variable {ok : List (Event Op Res) → Op → Prop} {tr : List (Event Op Res)}
  {post : List (Event Op Res) → α → Prop} {p : Prog Op Res α}

theorem along_pure {a : α} : Along ok post tr (Pure.pure a) ↔ post tr a := Iff.rfl

theorem along_bind {f : α → Prog Op Res β} {post : List (Event Op Res) → β → Prop} :
    Along ok post tr (p >>= f) ↔ Along ok (fun tr' a => Along ok post tr' (f a)) tr p := by
  change Along ok post tr (p.bind f) ↔ _
  induction p generalizing tr with
  | pure a => exact Iff.rfl
  | call op k ih =>
    simp only [bind, Along]
    exact and_congr_right fun _ => forall_congr' fun r => ih r

theorem along_step {f : Res op → Prog Op Res β} {post : List (Event Op Res) → β → Prop} :
    Along ok post tr (perform op >>= f) ↔
      ok tr op ∧ ∀ r, Along ok post (⟨op, r⟩ :: tr) (f r) := Iff.rfl

theorem Along.mono {post' : List (Event Op Res) → α → Prop}
    (h : Along ok post tr p) (hpost : ∀ tr' a, post tr' a → post' tr' a) : Along ok post' tr p := by
  induction p generalizing tr with
  | pure a => exact hpost _ _ h
  | call op k ih => exact ⟨h.1, fun r => ih r (h.2 r)⟩

theorem Along.bind {f : α → Prog Op Res β} {post' : List (Event Op Res) → β → Prop}
    (h : Along ok post tr p) (hf : ∀ tr' a, post tr' a → Along ok post' tr' (f a)) :
    Along ok post' tr (p >>= f) :=
  along_bind.mpr (h.mono hf)

/-- A trace only grows. -/
theorem Along.suffix
    (h : Along ok post tr p) : Along ok (fun tr' a => post tr' a ∧ tr <:+ tr') tr p := by
  induction p generalizing tr with
  | pure a => exact ⟨h, suffix_refl tr⟩
  | call op k ih =>
    refine ⟨h.1, fun r => (ih r (h.2 r)).mono fun tr' a hp => ⟨hp.1, ?_⟩⟩
    exact (suffix_cons _ tr).trans hp.2

end Along

end Prog

/-! ### Pools of calls -/

/-- A call: not started, or started with the trace of its operations and what is left to do. -/
inductive Thread (Call Op : Type) (Res : Op → Type) (α : Type)
  | idle
  | active (c : Call) (tr : List (Prog.Event Op Res)) (p : Prog Op Res α)

/-- A shared state and calls that work on it. -/
structure Pool (Call Op : Type) (Res : Op → Type) (α σ : Type) where
  shared : σ
  threads : Nat → Thread Call Op Res α

/-- The labels of a pool: a call starts, a call performs its next operation, or the environment
changes the shared state. -/
inductive PoolAct (Call Env : Type)
  | start (t : Nat) (c : Call)
  | step (t : Nat)
  | env (e : Env)

section Pool

variable {Call Op α σ Env : Type} {Res : Op → Type}

/-- The step function of a pool: `body` gives the program of a call, `exec` performs an operation
for it, `envStep` is what the environment can do. -/
def poolStep (body : Call → Prog Op Res α)
    (exec : Nat → Call → (op : Op) → σ → Option (Res op × σ)) (envStep : Env → σ → Option σ)
    (P : Pool Call Op Res α σ) : PoolAct Call Env → Option (Pool Call Op Res α σ)
  | .start t c =>
    match P.threads t with
    | .idle => some { P with threads := update P.threads t (.active c [] (body c)) }
    | .active .. => none
  | .step t =>
    match P.threads t with
    | .active c tr (.call op k) =>
      (exec t c op P.shared).map fun x =>
        { shared := x.2, threads := update P.threads t (.active c (⟨op, x.1⟩ :: tr) (k x.1)) }
    | .active _ _ (.pure _) | .idle => none
  | .env e => (envStep e P.shared).map fun s => { P with shared := s }

/-- The pool as a system: it starts with no call. -/
def pool (body : Call → Prog Op Res α)
    (exec : Nat → Call → (op : Op) → σ → Option (Res op × σ)) (envStep : Env → σ → Option σ)
    (start : σ → Prop) : System (Pool Call Op Res α σ) (PoolAct Call Env) where
  start P := start P.shared ∧ ∀ t, P.threads t = .idle
  step := poolStep body exec envStep

/-- The rules of a pool. -/
inductive PoolStep (body : Call → Prog Op Res α)
    (exec : Nat → Call → (op : Op) → σ → Option (Res op × σ)) (envStep : Env → σ → Option σ)
    (P : Pool Call Op Res α σ) : PoolAct Call Env → Pool Call Op Res α σ → Prop
  | start {t : Nat} {c : Call} : P.threads t = .idle →
      PoolStep body exec envStep P (.start t c)
        { P with threads := update P.threads t (.active c [] (body c)) }
  | step {t : Nat} {c : Call} {tr : List (Prog.Event Op Res)} {op : Op}
      {k : Res op → Prog Op Res α} {r : Res op} {s : σ} :
      P.threads t = .active c tr (.call op k) → exec t c op P.shared = some (r, s) →
      PoolStep body exec envStep P (.step t)
        { shared := s, threads := update P.threads t (.active c (⟨op, r⟩ :: tr) (k r)) }
  | env {e : Env} {s : σ} : envStep e P.shared = some s →
      PoolStep body exec envStep P (.env e) { P with shared := s }

variable {body : Call → Prog Op Res α} {exec : Nat → Call → (op : Op) → σ → Option (Res op × σ)}
  {envStep : Env → σ → Option σ} {P P' : Pool Call Op Res α σ} {a : PoolAct Call Env}

theorem PoolStep.of_poolStep (h : poolStep body exec envStep P a = some P') :
    PoolStep body exec envStep P a P' := by
  revert h
  fun_cases poolStep body exec envStep P a <;> intro h
  · cases h
    exact .start ‹_›
  · cases h
  · obtain ⟨⟨r, s⟩, hx, rfl⟩ := map_eq_some_iff.mp h
    exact .step ‹_› hx
  · cases h
  · cases h
  · obtain ⟨s, hs, rfl⟩ := map_eq_some_iff.mp h
    exact .env hs

/-- The active calls after call `t` was set: it, and the others as before. -/
theorem active_of_update {threads : Nat → Thread Call Op Res α} {t t' : Nat} {c c' : Call}
    {tr tr' : List (Prog.Event Op Res)} {p p' : Prog Op Res α}
    (h : update threads t (.active c tr p) t' = .active c' tr' p') :
    t' = t ∧ c' = c ∧ tr' = tr ∧ p' = p ∨ t' ≠ t ∧ threads t' = .active c' tr' p' := by
  by_cases ht : t' = t
  · rw [ht, update_self] at h
    cases h
    exact .inl ⟨ht, rfl, rfl, rfl⟩
  · rw [update_of_ne ht] at h
    exact .inr ⟨ht, h⟩

/-- What is left of every call meets `ok`, and the `post` of the call at the end. -/
def Pool.Meets (ok : List (Prog.Event Op Res) → Op → Prop)
    (post : Call → List (Prog.Event Op Res) → α → Prop) (P : Pool Call Op Res α σ) : Prop :=
  ∀ t c tr p, P.threads t = .active c tr p → Prog.Along ok (post c) tr p

variable {post : Call → List (Prog.Event Op Res) → α → Prop}

variable {ok : List (Prog.Event Op Res) → Op → Prop}

/-- **Calls follow their procedures**: if every procedure meets `ok` and `post` from its start, so
does what is left of every call after a step. -/
theorem Pool.Meets.step (hbody : ∀ c, Prog.Along ok (post c) [] (body c))
    (h : P.Meets ok post) (hst : poolStep body exec envStep P a = some P') : P'.Meets ok post := by
  intro t' c' tr' p' hp
  cases PoolStep.of_poolStep hst with
  | @start t c hidle =>
    rcases active_of_update hp with ⟨rfl, rfl, rfl, rfl⟩ | ⟨-, hp⟩
    · exact hbody c'
    · exact h t' c' tr' p' hp
  | @step t c tr op k r s hth hex =>
    rcases active_of_update hp with ⟨rfl, rfl, rfl, rfl⟩ | ⟨-, hp⟩
    · exact (h t' c' tr _ hth).2 r
    · exact h t' c' tr' p' hp
  | env _ => exact h t' c' tr' p' hp

theorem pool_along {start : σ → Prop} {guard : Pool Call Op Res α σ → PoolAct Call Env → Prop}
    (hbody : ∀ c, Prog.Along ok (post c) [] (body c))
    (h : (pool body exec envStep start).Reach guard P) : P.Meets ok post := by
  refine h.invariant (I := Pool.Meets ok post) (fun P hs t c tr p ht => ?_)
    (fun P a P' _ hi _ hst => hi.step hbody hst)
  rw [hs.2 t] at ht
  cases ht

/-- A label list that starts only `c` as call `t` runs only `c` as call `t`. -/
theorem call_of_runLabels {start : σ → Prop} {t : Nat} {c : Call} :
    ∀ {as : List (PoolAct Call Env)} {P P' : Pool Call Op Res α σ},
      (pool body exec envStep start).runLabels as P = some P' → (∀ c', .start t c' ∈ as → c' = c) →
      (∀ c' tr p, P.threads t = .active c' tr p → c' = c) →
      ∀ c' tr p, P'.threads t = .active c' tr p → c' = c
  | [], _, _, h, _, h0 => by
    cases h
    exact h0
  | a :: as, P, _, h, hstart, h0 => by
    obtain ⟨P1, h1, h2⟩ := bind_eq_some_iff.mp h
    refine call_of_runLabels h2 (fun c' hc => hstart c' (mem_cons_of_mem _ hc))
      fun c' tr p hth => ?_
    cases PoolStep.of_poolStep h1 with
    | @start u c1 hidle =>
      rcases active_of_update hth with ⟨rfl, rfl, -, -⟩ | ⟨-, hth⟩
      · exact hstart c' mem_cons_self
      · exact h0 c' tr p hth
    | @step u c1 tr1 op k r s hu hx =>
      rcases active_of_update hth with ⟨rfl, rfl, -, -⟩ | ⟨-, hth⟩
      · exact h0 c' tr1 _ hu
      · exact h0 c' tr p hth
    | env _ => exact h0 c' tr p hth

/-! ### Runs of a few calls -/

/-- Only calls below `n` have started. -/
def Pool.Below (n : Nat) (P : Pool Call Op Res α σ) : Prop := ∀ t, n ≤ t → P.threads t = .idle

/-- The label starts no call from `n` on. -/
def PoolAct.below (n : Nat) : PoolAct Call Env → Bool
  | .start t _ => t < n
  | _ => true

section Below

variable {n : Nat}

theorem Pool.Below.lt (h : P.Below n) {t : Nat} {c : Call} {tr : List (Prog.Event Op Res)}
    {p : Prog Op Res α} (hth : P.threads t = .active c tr p) : t < n := by
  by_contra hge
  rw [h t (by omega)] at hth
  cases hth

/-- What holds of a call that has not started and of the calls below `n` holds of all. -/
theorem Pool.Below.all (h : P.Below n) {p : Thread Call Op Res α → Prop} (hidle : p .idle)
    (hlt : ∀ t < n, p (P.threads t)) (t : Nat) : p (P.threads t) := by
  by_cases ht : t < n
  · exact hlt t ht
  · rw [h t (by omega)]
    exact hidle

theorem Pool.Below.step (h : P.Below n) (ha : a.below n = true)
    (hst : poolStep body exec envStep P a = some P') : P'.Below n := by
  cases PoolStep.of_poolStep hst with
  | start _ =>
    have hlt := of_decide_eq_true ha
    exact fun t ht => (update_of_ne (by omega) _ _).trans (h t ht)
  | step hth _ =>
    have hlt := h.lt hth
    exact fun t ht => (update_of_ne (by omega) _ _).trans (h t ht)
  | env _ => exact h

/-- A list of labels of the calls below `n`, tested on these calls, exhibits a reached state. -/
theorem exists_reach_below {start : σ → Prop}
    {guard : Pool Call Op Res α σ → PoolAct Call Env → Prop}
    {test : Pool Call Op Res α σ → PoolAct Call Env → Bool} {β : Type}
    {f : Pool Call Op Res α σ → β} {as : List (PoolAct Call Env)} {s : σ} {y : β}
    (h : ((pool body exec envStep start).runChecked (fun P a => a.below n && test P a) as
      ⟨s, fun _ => .idle⟩).map f = some y)
    (h0 : start s) (htest : ∀ P a, P.Below n → test P a = true → guard P a) :
    ∃ P, (pool body exec envStep start).Reach guard P ∧ P.Below n ∧ f P = y := by
  obtain ⟨P, hP, hy⟩ := map_eq_some_iff.mp h
  have hstart : (pool body exec envStep start).start ⟨s, fun _ => .idle⟩ := ⟨h0, fun _ => rfl⟩
  have hsteps : (pool body exec envStep start).Steps (fun P a => guard P a ∧ a.below n = true)
      ⟨s, fun _ => .idle⟩ P := by
    refine System.steps_runChecked_of (I := Pool.Below n) (fun P a P' hb ht hst => ?_)
      (fun _ _ => rfl) hP
    obtain ⟨ha, ht⟩ := Bool.and_eq_true_iff.mp ht
    exact ⟨⟨htest P a hb ht, ha⟩, hb.step ha hst⟩
  refine ⟨P, ((System.Reach.start hstart).steps hsteps).weaken fun _ _ hok => hok.1, ?_, hy⟩
  exact hsteps.invariant (fun _ _ _ hb hok hst => hb.step hok.2 hst) fun _ _ => rfl

end Below

end Pool

end StaxFS.Foundation
