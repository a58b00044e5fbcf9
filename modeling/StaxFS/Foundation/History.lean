import StaxFS.Foundation.Prog

/-!
# Pools with a history

A pool keeps the trace of every call, but not which of two calls acted first. `recorded` adds the
order: the shared state also holds every operation with the call that performed it, newest first.
Nothing reads the history, so the calls behave as before.

Results:
* `Recorded.step`: the history holds exactly the events of the traces.
* `Ordered.step`: the events of a call are in the history in the order of its trace.
-/

namespace StaxFS.Foundation

open List Option Function

variable {Call Op α σ Env : Type} {Res : Op → Type}

/-- The operations of all calls, newest first. -/
abbrev History (Op : Type) (Res : Op → Type) : Type := List (Nat × Prog.Event Op Res)

/-- A handler that records what it performs. -/
def recordedExec (exec : Nat → Call → (op : Op) → σ → Option (Res op × σ)) (t : Nat) (c : Call)
    (op : Op) (s : σ × History Op Res) : Option (Res op × (σ × History Op Res)) :=
  (exec t c op s.1).map fun x => (x.1, x.2, (t, ⟨op, x.1⟩) :: s.2)

/-- The environment leaves no record. -/
def recordedEnv (envStep : Env → σ → Option σ) (e : Env) (s : σ × History Op Res) :
    Option (σ × History Op Res) :=
  (envStep e s.1).map fun s' => (s', s.2)

/-- The pool of `body`, with a history that starts empty. -/
def recorded (body : Call → Prog Op Res α)
    (exec : Nat → Call → (op : Op) → σ → Option (Res op × σ)) (envStep : Env → σ → Option σ)
    (start : σ → Prop) : System (Pool Call Op Res α (σ × History Op Res)) (PoolAct Call Env) :=
  pool body (recordedExec exec) (recordedEnv envStep) fun s => start s.1 ∧ s.2 = []

/-- The history holds exactly the events of the traces. -/
def Recorded (P : Pool Call Op Res α (σ × History Op Res)) : Prop :=
  ∀ t e, (t, e) ∈ P.shared.2 ↔ ∃ c tr p, P.threads t = .active c tr p ∧ e ∈ tr

variable {body : Call → Prog Op Res α} {exec : Nat → Call → (op : Op) → σ → Option (Res op × σ)}
  {envStep : Env → σ → Option σ} {start : σ → Prop}
  {P P' : Pool Call Op Res α (σ × History Op Res)} {a : PoolAct Call Env}

/-- The rules of a recorded pool. -/
inductive RecordedStep (body : Call → Prog Op Res α)
    (exec : Nat → Call → (op : Op) → σ → Option (Res op × σ)) (envStep : Env → σ → Option σ)
    (P : Pool Call Op Res α (σ × History Op Res)) :
    PoolAct Call Env → Pool Call Op Res α (σ × History Op Res) → Prop
  | start {t : Nat} {c : Call} : P.threads t = .idle →
      RecordedStep body exec envStep P (.start t c)
        { P with threads := Function.update P.threads t (.active c [] (body c)) }
  | step {t : Nat} {c : Call} {tr : List (Prog.Event Op Res)} {op : Op}
      {k : Res op → Prog Op Res α} {r : Res op} {s : σ} :
      P.threads t = .active c tr (.call op k) → exec t c op P.shared.1 = some (r, s) →
      RecordedStep body exec envStep P (.step t)
        { shared := (s, (t, ⟨op, r⟩) :: P.shared.2)
          threads := Function.update P.threads t (.active c (⟨op, r⟩ :: tr) (k r)) }
  | env {e : Env} {s : σ} : envStep e P.shared.1 = some s →
      RecordedStep body exec envStep P (.env e) { P with shared := (s, P.shared.2) }

theorem recorded_rule (h : (recorded body exec envStep start).step P a = some P') :
    RecordedStep body exec envStep P a P' := by
  cases PoolStep.of_poolStep h with
  | start hidle => exact .start hidle
  | step hth hx =>
    obtain ⟨x, hex, he⟩ := map_eq_some_iff.mp hx
    cases he
    exact .step hth hex
  | env he =>
    obtain ⟨s, hs, rfl⟩ := map_eq_some_iff.mp he
    exact .env hs

theorem Recorded.step (h : Recorded P) (hst : RecordedStep body exec envStep P a P') :
    Recorded P' := by
  intro t' e
  cases hst with
  | @start t c hidle =>
    by_cases ht : t' = t
    · subst ht
      simp only [update_self]
      refine (h t' e).trans ⟨?_, ?_⟩
      · rintro ⟨c', tr, p, hp, -⟩
        rw [hidle] at hp
        cases hp
      · rintro ⟨c', tr, p, hp, hmem⟩
        cases hp
        cases hmem
    · simp only [update_of_ne ht]
      exact h t' e
  | @step t c tr op k r s hth hx =>
    by_cases ht : t' = t
    · subst ht
      have hold : (t', e) ∈ P.shared.2 ↔ e ∈ tr := by
        rw [h t' e]
        constructor
        · rintro ⟨c', tr', p, hp, hmem⟩
          rw [hth] at hp
          cases hp
          exact hmem
        · exact fun hmem => ⟨_, _, _, hth, hmem⟩
      simp only [update_self, mem_cons, Prod.mk.injEq, true_and, hold]
      constructor
      · exact fun hmem => ⟨_, _, _, rfl, mem_cons.mpr hmem⟩
      · rintro ⟨c', tr', p, hp, hmem⟩
        cases hp
        exact mem_cons.mp hmem
    · simp only [update_of_ne ht, mem_cons, Prod.mk.injEq, ht, false_and, false_or]
      exact h t' e
  | env _ => exact h t' e

theorem recorded_of_start (h : (recorded body exec envStep start).start P) : Recorded P := by
  intro t e
  obtain ⟨⟨-, hnil⟩, hidle⟩ := h
  rw [hnil, hidle t]
  constructor
  · exact nofun
  · rintro ⟨c, tr, p, hp, -⟩
    cases hp

/-! ### The events of one call -/

/-- The events of call `t`, newest first. -/
def eventsOf (t : Nat) (hist : History Op Res) : List (Prog.Event Op Res) :=
  hist.filterMap fun x => if x.1 = t then some x.2 else none

@[simp] theorem eventsOf_cons_self (t : Nat) (e : Prog.Event Op Res) (hist : History Op Res) :
    eventsOf t ((t, e) :: hist) = e :: eventsOf t hist := by
  simp [eventsOf]

theorem eventsOf_cons_of_ne {t u : Nat} (h : u ≠ t) (e : Prog.Event Op Res)
    (hist : History Op Res) : eventsOf t ((u, e) :: hist) = eventsOf t hist := by
  simp [eventsOf, h]

variable {e : Prog.Event Op Res}

theorem mem_eventsOf {t : Nat} {hist : History Op Res} : e ∈ eventsOf t hist ↔ (t, e) ∈ hist := by
  simp only [eventsOf, mem_filterMap, ite_none_right_eq_some, Option.some.injEq]
  constructor
  · rintro ⟨x, hx, rfl, rfl⟩
    exact hx
  · exact fun h => ⟨_, h, rfl, rfl⟩

/-- An event of a call divides the history. -/
theorem eventsOf_split {t : Nat} {older : List (Prog.Event Op Res)} :
    ∀ {hist : History Op Res} {newer : List (Prog.Event Op Res)},
      eventsOf t hist = newer ++ e :: older →
      ∃ n o, hist = n ++ (t, e) :: o ∧ eventsOf t n = newer ∧ eventsOf t o = older
  | [], newer, h => by simp [eventsOf] at h
  | (u, e') :: hist, newer, h => by
    by_cases hu : u = t
    · subst hu
      rw [eventsOf_cons_self] at h
      cases newer with
      | nil =>
        obtain ⟨rfl, rfl⟩ := List.cons.inj h
        exact ⟨[], hist, rfl, rfl, rfl⟩
      | cons x newer =>
        obtain ⟨rfl, hrest⟩ := List.cons.inj h
        obtain ⟨n, o, rfl, hn, ho⟩ := eventsOf_split hrest
        exact ⟨(u, e') :: n, o, rfl, by rw [eventsOf_cons_self, hn], ho⟩
    · rw [eventsOf_cons_of_ne hu] at h
      obtain ⟨n, o, rfl, hn, ho⟩ := eventsOf_split h
      exact ⟨(u, e') :: n, o, rfl, by rw [eventsOf_cons_of_ne hu, hn], ho⟩

/-- The trace of a call, empty before it starts. -/
def Pool.trace {σ : Type} (P : Pool Call Op Res α σ) (t : Nat) : List (Prog.Event Op Res) :=
  match P.threads t with
  | .idle => []
  | .active _ tr _ => tr

theorem Pool.trace_of_active {P : Pool Call Op Res α σ} {t : Nat} {c : Call}
    {tr : List (Prog.Event Op Res)} {p : Prog Op Res α} (h : P.threads t = .active c tr p) :
    P.trace t = tr := by
  simp only [Pool.trace, h]

theorem Pool.trace_update (s : σ) (threads : Nat → Thread Call Op Res α) (t u : Nat)
    (c : Call) (tr : List (Prog.Event Op Res)) (p : Prog Op Res α) :
    Pool.trace ⟨s, update threads t (.active c tr p)⟩ u =
      if u = t then tr else Pool.trace ⟨s, threads⟩ u := by
  by_cases h : u = t
  · subst h
    simp [Pool.trace]
  · simp [Pool.trace, h]

/-- A call starts with an empty trace. -/
theorem Pool.trace_start {P : Pool Call Op Res α σ} {t : Nat}
    (h : P.threads t = .idle) (c : Call) (p : Prog Op Res α) (u : Nat) :
    Pool.trace { P with threads := update P.threads t (.active c [] p) } u = P.trace u := by
  rw [Pool.trace_update]
  split
  · next hu =>
    subst hu
    simp [Pool.trace, h]
  · rfl

/-- The history restricted to a call is its trace. -/
def Ordered (P : Pool Call Op Res α (σ × History Op Res)) : Prop :=
  ∀ t, eventsOf t P.shared.2 = P.trace t

theorem Ordered.step (h : Ordered P) (hst : RecordedStep body exec envStep P a P') : Ordered P' := by
  intro t'
  cases hst with
  | @start t c hidle =>
    rw [Pool.trace_start hidle]
    exact h t'
  | @step t c tr op k r s hth hx =>
    rw [Pool.trace_update]
    split
    · next ht =>
      subst ht
      rw [eventsOf_cons_self, h t', Pool.trace_of_active hth]
    · next ht =>
      rw [eventsOf_cons_of_ne (Ne.symm ht)]
      exact h t'
  | env _ => exact h t'

theorem ordered_of_start (h : (recorded body exec envStep start).start P) : Ordered P := by
  intro t
  obtain ⟨⟨-, hnil⟩, hidle⟩ := h
  simp [hnil, Pool.trace, hidle t, eventsOf]

end StaxFS.Foundation
