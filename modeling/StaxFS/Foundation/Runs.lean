import Mathlib

/-!
# Runs of a labelled transition system under a step condition

A `System` has start states and a partial step function; what a step chooses (which thread moves,
how a race is decided) is in its label. `Reach ok` collects the states of the runs whose every step
meets the condition `ok`, a predicate on the state before the step and the label. With
`ok = fun _ _ => True` these are all reachable states.

Results:
* `Reach.invariant`: a predicate that holds at the start and is kept by every step meeting `ok`
  holds in every state reached; the step may use that its source is itself reached.
* `Reach.weaken`: a run under a stronger condition is a run under a weaker one.
* `reach_runLabels`, `steps_runChecked`, `exists_reach`: a list of labels that executes gives a
  reached state or a continuation, which is how concrete runs are exhibited.
-/

namespace StaxFS.Foundation

open Option

/-- A labelled transition system: start states and a partial step function. -/
structure System (σ α : Type) where
  start : σ → Prop
  step : σ → α → Option σ

namespace System

variable {σ α : Type} (S : System σ α)

/-- The states of the runs whose every step meets `ok`. -/
inductive Reach (ok : σ → α → Prop) : σ → Prop
  | start {s : σ} : S.start s → Reach ok s
  | step {s s' : σ} {a : α} : Reach ok s → ok s a → S.step s a = some s' → Reach ok s'

/-- Continuations of a run: the states reached from `s` by further steps meeting `ok`. -/
def Steps (ok : σ → α → Prop) : σ → σ → Prop :=
  Relation.ReflTransGen fun s s' => ∃ a, ok s a ∧ S.step s a = some s'

/-- Execute a list of labels. -/
def runLabels : List α → σ → Option σ
  | [], s => some s
  | a :: as, s => (S.step s a).bind (runLabels as)

/-- Execute a list of labels, as long as they pass a test. -/
def runChecked (test : σ → α → Bool) : List α → σ → Option σ
  | [], s => some s
  | a :: as, s => if test s a then (S.step s a).bind (runChecked test as) else none

variable {S} {ok : σ → α → Prop} {I : σ → Prop} {s s' : σ} {test : σ → α → Bool}

/-- **The invariant rule.** -/
theorem Reach.invariant (h0 : ∀ s, S.start s → I s)
    (hs : ∀ s a s', S.Reach ok s → I s → ok s a → S.step s a = some s' → I s')
    (h : S.Reach ok s) : I s := by
  induction h with
  | start h => exact h0 _ h
  | step hr hok hst ih => exact hs _ _ _ hr ih hok hst

/-- A run under a stronger condition is a run under a weaker one. -/
theorem Reach.weaken {ok' : σ → α → Prop} (himp : ∀ s a, ok s a → ok' s a)
    (h : S.Reach ok s) : S.Reach ok' s := by
  induction h with
  | start h => exact .start h
  | step _ hok hst ih => exact .step ih (himp _ _ hok) hst

/-- A continuation of a run is a run. -/
theorem Reach.steps (h : S.Reach ok s) (hs : S.Steps ok s s') : S.Reach ok s' := by
  induction hs with
  | refl => exact h
  | tail _ hst ih =>
    obtain ⟨a, hok, he⟩ := hst
    exact .step ih hok he

theorem Steps.refl (s : σ) : S.Steps ok s s := Relation.ReflTransGen.refl

theorem Steps.trans {a b c : σ} (h : S.Steps ok a b) (h' : S.Steps ok b c) : S.Steps ok a c :=
  Relation.ReflTransGen.trans h h'

/-- One step, then more. -/
theorem Steps.cons {s s' s'' : σ} {a : α} (hok : ok s a) (hst : S.step s a = some s')
    (h : S.Steps ok s' s'') : S.Steps ok s s'' :=
  Relation.ReflTransGen.head ⟨a, hok, hst⟩ h

/-- An invariant of single steps is kept along a continuation. -/
theorem Steps.invariant (hs : ∀ s a s', I s → ok s a → S.step s a = some s' → I s')
    (h : S.Steps ok s s') (h0 : I s) : I s' := by
  induction h with
  | refl => exact h0
  | tail _ hst ih =>
    obtain ⟨a, hok, he⟩ := hst
    exact hs _ _ _ ih hok he

/-- A label list that executes exhibits a continuation, if its labels meet the condition wherever they
are taken. -/
theorem steps_runLabels : ∀ (as : List α) {s s' : σ}, (∀ a ∈ as, ∀ x, ok x a) →
      S.runLabels as s = some s' → S.Steps ok s s'
  | [], s, s', _, he => by
    simp only [runLabels, Option.some.injEq] at he
    exact he ▸ Steps.refl s
  | a :: as, s, s', hok, he => by
    simp only [runLabels, bind_eq_some_iff] at he
    obtain ⟨s1, h1, h2⟩ := he
    exact Steps.cons (hok a List.mem_cons_self s) h1
      (steps_runLabels as (fun b hb => hok b (List.mem_cons_of_mem _ hb)) h2)

/-- The same from a start state, as a reached state. -/
theorem reach_runLabels {as : List α} (h0 : S.start s) (hok : ∀ a ∈ as, ∀ x, ok x a)
    (he : S.runLabels as s = some s') : S.Reach ok s' :=
  (Reach.start h0).steps (steps_runLabels as hok he)

theorem runLabels_of_runChecked :
    ∀ {as : List α} {s s' : σ}, S.runChecked test as s = some s' → S.runLabels as s = some s'
  | [], _, _, h => h
  | _ :: _, _, _, h => by
    simp only [runChecked] at h
    split at h
    · obtain ⟨s1, h1, h2⟩ := bind_eq_some_iff.mp h
      exact bind_eq_some_iff.mpr ⟨s1, h1, runLabels_of_runChecked h2⟩
    · cases h

/-- Labels that pass a test exhibit a continuation, if the test and an invariant of the steps make
them meet the condition. -/
theorem steps_runChecked_of
    (htest : ∀ s a s', I s → test s a = true → S.step s a = some s' → ok s a ∧ I s') :
    ∀ {as : List α} {s s' : σ}, I s → S.runChecked test as s = some s' → S.Steps ok s s'
  | [], s, _, _, h => by
    cases h
    exact Steps.refl s
  | a :: as, s, _, h0, h => by
    simp only [runChecked] at h
    split at h
    · obtain ⟨s1, h1, h2⟩ := bind_eq_some_iff.mp h
      obtain ⟨hok, hI⟩ := htest s a s1 h0 ‹_› h1
      exact Steps.cons hok h1 (steps_runChecked_of htest hI h2)
    · cases h

/-- The same for a test of the condition. -/
theorem steps_runChecked (htest : ∀ s a, test s a = true → ok s a)
    {as : List α} (h : S.runChecked test as s = some s') : S.Steps ok s s' :=
  steps_runChecked_of (I := fun _ => True) (fun s a _ _ ht _ => ⟨htest s a ht, trivial⟩) trivial h

section Exhibit

variable {C : σ → α → Prop} {Q R : σ → Prop} [DecidablePred Q] {l : List α} {s : σ}

/-- A list of labels that executes and ends well exhibits a reached state, and what follows for it. -/
theorem exists_reach_of_labels (h0 : S.start s) (hok : ∀ a ∈ l, ∀ x, C x a)
    (h : (S.runLabels l s).map (fun s => decide (Q s)) = some true)
    (hR : ∀ s', S.Reach C s' → Q s' → R s') : ∃ s', S.Reach C s' ∧ R s' := by
  obtain ⟨s', hs, hq⟩ := map_eq_some_iff.mp h
  have hreach := reach_runLabels h0 hok hs
  exact ⟨s', hreach, hR s' hreach (of_decide_eq_true hq)⟩

/-- The same for labels that are tested for the condition. -/
theorem exists_reach [∀ s a, Decidable (C s a)] (h0 : S.start s)
    (h : (S.runChecked (fun s a => decide (C s a)) l s).map (fun s => decide (Q s)) = some true)
    (hR : ∀ s', S.Reach C s' → Q s' → R s') : ∃ s', S.Reach C s' ∧ R s' := by
  obtain ⟨s', hs, hq⟩ := map_eq_some_iff.mp h
  have hreach := (Reach.start h0).steps (steps_runChecked (fun _ _ ht => of_decide_eq_true ht) hs)
  exact ⟨s', hreach, hR s' hreach (of_decide_eq_true hq)⟩

end Exhibit

end System

end StaxFS.Foundation
