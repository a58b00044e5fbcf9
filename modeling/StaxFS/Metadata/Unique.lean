import StaxFS.Metadata.Concurrent
import StaxFS.Metadata.Links

/-!
# Unique names under concurrency

`Create`, `Mkdir`, `Rename` and `Link` look a name up and insert it some operations later, and the
dirent table accepts a second entry under the same key. Two calls that both miss a name therefore
both insert it. Names stay unique if no call misses a name that another call in flight has missed
and may still insert.

Results:
* `UniqueInv.step`: what a step keeps: unique names, and for every call in flight that the name it
  is about to insert is absent and its own.
* `names_unique`: names are unique in every state of a run in which no two calls race for a name.
-/

namespace StaxFS.Metadata

open Foundation Wal List Option
open Function (update update_of_ne update_self)

/-- No two entries share parent and name. -/
def NamesUnique (σ : Cluster) : Prop := (σ.dirents.map Dirent.key).Nodup

instance (σ : Cluster) : Decidable (NamesUnique σ) := inferInstanceAs (Decidable (List.Nodup _))

/-- The name a call has missed and may still insert. -/
def claimed : Thread Request Op Res Int → Option (Nat × Name)
  | .active _ tr (.call _ _) => missed tr
  | _ => none

/-- **When names stay unique**: a lookup does not miss a name that another call in flight has missed
and may still insert. -/
def LooksAlone (P : Calls) : PoolAct Request (Nat × Nat) → Prop
  | .step t => ∀ q tr pid name k, P.threads t = .active q tr (.call (.findDirent pid name) k) →
      P.shared.find pid name = none → ∀ t', t' ≠ t → claimed (P.threads t') ≠ some (pid, name)
  | _ => True

/-! ### The effect of an operation -/

/-- The entry an operation puts in the table. -/
def Op.inserted : Op → List Dirent
  | .insertDirent d => [d]
  | _ => []

variable {op : Op} {q : Request} {env : Env} {r : Res op}

theorem exec_dirents {srv th : Nat} {σ σ' : Cluster}
    (h : exec env srv th op σ = some (r, σ')) : σ'.dirents.Sublist (op.inserted ++ σ.dirents) := by
  cases op with
  | insertDirent d =>
    cases h
    rw [Cluster.insert]
    split
    · exact sublist_append_right _ _
    · exact List.Sublist.refl _
  | eraseDirent pid name =>
    cases h
    exact eraseP_sublist
  | log req =>
    cases h
    split <;> simp [Op.inserted]
  | undefined => cases h
  | _ =>
    cases h
    simp [Op.inserted]

variable {tr : Trace} {key : Nat × Name}

/-- A name becomes claimed by a lookup that misses it, and is claimed until something is inserted. -/
theorem missed_exec {srv th : Nat} {σ σ' : Cluster}
    (h : exec env srv th op σ = some (r, σ')) (hm : missed (⟨op, r⟩ :: tr) = some key) :
    op.inserted = [] ∧ ((op = .findDirent key.1 key.2 ∧ σ.find key.1 key.2 = none) ∨
      missed tr = some key) := by
  cases op with
  | findDirent pid name =>
    cases h
    simp only [missed] at hm
    split at hm
    · rename_i hnone
      cases hm
      exact ⟨rfl, .inl ⟨rfl, isNone_iff_eq_none.mp hnone⟩⟩
    · cases hm
  | insertDirent d => cases hm
  | _ => exact ⟨rfl, .inr hm⟩

/-! ### The invariant -/

structure UniqueInv (P : Calls) : Prop where
  unique : NamesUnique P.shared
  /-- a claimed name is not in the table -/
  absent : ∀ t key, claimed (P.threads t) = some key → key ∉ P.shared.dirents.map Dirent.key
  /-- a name is claimed once -/
  alone : ∀ t t' key, claimed (P.threads t) = some key → claimed (P.threads t') = some key → t = t'

theorem missed_of_claimed {p : M Int}
    (h : claimed (.active q tr p) = some key) : missed tr = some key := by
  cases p with
  | pure _ => cases h
  | call _ _ => exact h

namespace UniqueInv

variable {env : Env} {P P' : Calls} {a : PoolAct Request (Nat × Nat)}

/-- A call performs an operation. -/
theorem opStep (h : UniqueInv P) {t : Nat} {k : Res op → M Int} {σ : Cluster}
    (hth : P.threads t = .active q tr (.call op k))
    (hx : exec env q.srv t op P.shared = some (r, σ)) (hins : InsertsMissed tr op)
    (hok : LooksAlone P (.step t)) :
    UniqueInv ⟨σ, update P.threads t (.active q (⟨op, r⟩ :: tr) (k r))⟩ := by
  have hsub := (exec_dirents hx).map Dirent.key
  have hold : ∀ {key}, missed tr = some key → claimed (P.threads t) = some key := fun hm => by
    rw [hth]
    exact hm
  -- an inserted name was claimed by this call
  have hkey : ∀ d ∈ op.inserted, claimed (P.threads t) = some d.key := by
    intro d hd
    cases op with
    | insertDirent d' =>
      rw [mem_singleton.mp hd]
      exact hold hins
    | _ => cases hd
  -- what this call claims after the operation
  have hnew : ∀ {key}, claimed (.active q (⟨op, r⟩ :: tr) (k r)) = some key →
      op.inserted = [] ∧ key ∉ P.shared.dirents.map Dirent.key ∧
        ∀ t', t' ≠ t → claimed (P.threads t') ≠ some key := by
    intro key hc
    obtain ⟨hnil, ⟨rfl, hnone⟩ | hm⟩ := missed_exec hx (missed_of_claimed hc)
    · exact ⟨hnil, lookup_eq_none_iff.mp hnone, hok q tr key.1 key.2 k hth hnone⟩
    · exact ⟨hnil, h.absent t key (hold hm), fun t' hne hc' => hne (h.alone t' t key hc' (hold hm))⟩
  have habsent : ∀ t' key, t' ≠ t → claimed (P.threads t') = some key →
      key ∉ (op.inserted ++ P.shared.dirents).map Dirent.key := by
    intro t' key hne hc hmem
    rw [map_append, mem_append] at hmem
    rcases hmem with hmem | hmem
    · obtain ⟨d, hd, rfl⟩ := List.mem_map.mp hmem
      exact hne (h.alone t' t d.key hc (hkey d hd))
    · exact h.absent t' key hc hmem
  refine ⟨?_, fun t' key hc => ?_, fun t₁ t₂ key h₁ h₂ => ?_⟩
  · refine hsub.nodup ?_
    cases op with
    | insertDirent d => exact nodup_cons.mpr ⟨h.absent t d.key (hold hins), h.unique⟩
    | _ => exact h.unique
  · by_cases ht : t' = t
    · subst ht
      simp only [update_self] at hc
      obtain ⟨hnil, hnot, -⟩ := hnew hc
      rw [hnil, nil_append] at hsub
      exact fun hmem => hnot (hsub.subset hmem)
    · simp only [update_of_ne ht] at hc
      exact fun hmem => habsent t' key ht hc (hsub.subset hmem)
  · by_cases ht₁ : t₁ = t
    · by_cases ht₂ : t₂ = t
      · rw [ht₁, ht₂]
      · subst ht₁
        simp only [update_self, update_of_ne ht₂] at h₁ h₂
        exact absurd h₂ ((hnew h₁).2.2 t₂ ht₂)
    · by_cases ht₂ : t₂ = t
      · subst ht₂
        simp only [update_self, update_of_ne ht₁] at h₁ h₂
        exact absurd h₁ ((hnew h₂).2.2 t₁ ht₁)
      · simp only [update_of_ne ht₁, update_of_ne ht₂] at h₁ h₂
        exact h.alone t₁ t₂ key h₁ h₂

/-- **A step keeps names unique** if it races for no name. -/
theorem step {start : Cluster → Prop} (h : UniqueInv P) (hmeets : P.Meets InsertsMissed CallDone)
    (hok : LooksAlone P a) (hst : (concurrent env start).step P a = some P') : UniqueInv P' := by
  cases concurrent_rule hst with
  | @start t q hidle =>
    -- a call claims nothing at its start
    have hc : ∀ t', claimed (update P.threads t (.active q [] q.call.body) t') =
        claimed (P.threads t') := by
      intro t'
      by_cases ht : t' = t
      · rw [ht, update_self, hidle, claimed.eq_def]
        cases q.call.body <;> rfl
      · rw [update_of_ne ht]
    refine ⟨h.unique, fun t' key hk => ?_, fun t₁ t₂ key h₁ h₂ => ?_⟩
    · exact h.absent t' key ((hc t').symm.trans hk)
    · exact h.alone t₁ t₂ key ((hc t₁).symm.trans h₁) ((hc t₂).symm.trans h₂)
  | @step t q tr op k r σ hth hx => exact h.opStep hth hx (hmeets t q tr _ hth).1 hok
  | @env e σ he =>
    have hds : σ.dirents = P.shared.dirents := by
      unfold checkpointStep at he
      split at he
      · cases he
        rfl
      · cases he
    refine ⟨?_, fun t key hk => ?_, h.alone⟩
    · rw [NamesUnique, hds]
      exact h.unique
    · rw [hds]
      exact h.absent t key hk

end UniqueInv

/-- **Names are unique** in every state of a run in which no two calls race for a name. -/
theorem names_unique {env : Env} {start : Cluster → Prop} (hstart : ∀ σ, start σ → NamesUnique σ)
    {P : Calls} (h : (concurrent env start).Reach LooksAlone P) : NamesUnique P.shared := by
  refine (h.invariant (I := UniqueInv) ?_ fun P a P' hr hi hok hst => ?_).unique
  · rintro P ⟨hs, hidle⟩
    have hnone : ∀ t, claimed (P.threads t) = none := fun t => by
      rw [hidle t]
      rfl
    refine ⟨hstart _ hs, fun t key hk => ?_, fun t t' key hk => ?_⟩ <;>
      exact absurd ((hnone t).symm.trans hk) nofun
  · exact hi.step (concurrent_meets hr) hok hst

/-- No call, on a fresh cluster. -/
def freshCalls : Calls := ⟨freshCluster, fun _ => .idle⟩

theorem freshCalls_start (env : Env) : (concurrent env Cluster.Initial).start freshCalls :=
  ⟨⟨_, _, rfl⟩, fun _ => rfl⟩

theorem initial_unique (σ : Cluster) (h : σ.Initial) : NamesUnique σ := by
  obtain ⟨config, unset, rfl⟩ := h
  exact nodup_nil

/-- A test for `LooksAlone` among the calls below `n`. -/
def looksAlone (n : Nat) (P : Calls) : PoolAct Request (Nat × Nat) → Bool
  | .step t =>
    match P.threads t with
    | .active _ _ (.call (.findDirent pid name) _) => (P.shared.find pid name).isSome ||
        (List.range n).all fun t' => t' == t || claimed (P.threads t') != some (pid, name)
    | _ => true
  | _ => true

theorem looksAlone_of_test {n : Nat} (P : Calls) (a : PoolAct Request (Nat × Nat)) (hP : P.Below n)
    (h : looksAlone n P a = true) : LooksAlone P a := by
  cases a with
  | step t =>
    intro q tr pid name k hth hnone t' hne hc
    simp only [looksAlone, hth, hnone, isSome_none, Bool.false_or, List.all_eq_true,
      List.mem_range, Bool.or_eq_true, beq_iff_eq, bne_iff_ne] at h
    cases ht' : P.threads t' with
    | idle =>
      rw [ht'] at hc
      cases hc
    | active _ _ _ => exact (h t' (hP.lt ht')).elim hne fun hnot => hnot hc
  | _ => trivial

/-- Three calls in flight together: a `Create` of `/a`, a `Create` of `/b` that looks its name up
while `/a` is claimed, and another `Create` of `/a` that looks it up when it is there. -/
def threeCreates : List (PoolAct Request (Nat × Nat)) :=
  [.start 0 ⟨0, .create pathA 0o644 0 0⟩, .start 1 ⟨1, .create pathB 0o644 0 0⟩,
    .start 2 ⟨1, .create pathA 0o644 0 0⟩, .step 0, .step 1] ++ List.replicate 5 (.step 0) ++
    [.step 2] ++ List.replicate 5 (.step 1) ++ [.step 2]

/-- Calls that race for no name: the condition is met. -/
theorem names_unique_threeCreates :
    ∃ P, (concurrent steadyEnv Cluster.Initial).Reach LooksAlone P ∧
      P.shared.dirents.map Dirent.key = [(kRootId, [98]), (kRootId, [97])] ∧
      NamesUnique P.shared := by
  have hrun : ((concurrent steadyEnv Cluster.Initial).runChecked
      (fun P a => a.below 3 && looksAlone 3 P a) threeCreates freshCalls).map
      (fun P => P.shared.dirents.map Dirent.key) = some [(kRootId, [98]), (kRootId, [97])] := by
    decide +kernel
  obtain ⟨P, hreach, -, hkeys⟩ := exists_reach_below hrun ⟨_, _, rfl⟩ looksAlone_of_test
  exact ⟨P, hreach, hkeys, names_unique initial_unique hreach⟩

/-- Two servers both look `/a` up, and then both create it. -/
def racingCreates : List (PoolAct Request (Nat × Nat)) :=
  [.start 0 ⟨0, .create pathA 0o644 0 0⟩, .start 1 ⟨1, .create pathA 0o644 0 0⟩, .step 0, .step 1] ++
    List.replicate 5 (.step 0) ++ List.replicate 5 (.step 1)

/-- **Two calls can create the same name.** -/
theorem racing_creates_duplicate :
    ∃ P, (concurrent steadyEnv Cluster.Initial).Reach (fun _ _ => True) P ∧
      ¬NamesUnique P.shared := by
  exact System.exists_reach_of_labels (l := racingCreates) (freshCalls_start _)
    (fun _ _ _ => trivial) (by decide +kernel) fun _ _ h => h

end StaxFS.Metadata
