import StaxFS.Metadata.Sequential

/-!
# Calls interleaved

Any number of calls on any number of servers, interleaved at their atomic operations, with moves of
the checkpoints in between. What a call may still do is known from the trace of what it has done:
`along_body` says, of every procedure and whatever the answers are,

* that a dirent is only inserted under the key that the call has just looked up and missed, and
* that in the end every directory's `extra_` was changed by as much as entries were inserted and
  erased in it.
-/

namespace StaxFS.Metadata

open Foundation Wal List

/-- A call, and the server it is made on. -/
structure Request where
  srv : Nat
  call : Call
deriving DecidableEq, Repr

/-- The calls and the state they share. -/
abbrev Calls := Pool Request Op Res Int Cluster

/-- The operations of a call and their answers, newest first. -/
abbrev Trace := List (Prog.Event Op Res)

/-- The checkpoint of a server moves. -/
def checkpointStep (e : Nat × Nat) (σ : Cluster) : Option Cluster :=
  if (σ.servers e.1).log.cp ≤ e.2 ∧ e.2 ≤ (σ.servers e.1).log.head then
    some (σ.setCheckpoint e.1 e.2)
  else none

/-- Interleaved runs from the states of `start`. -/
def concurrent (env : Env) (start : Cluster → Prop) :
    System Calls (PoolAct Request (Nat × Nat)) :=
  pool (fun q => q.call.body) (fun t q => exec env q.srv t) checkpointStep start

variable {env : Env} {start : Cluster → Prop} {a : PoolAct Request (Nat × Nat)} {t : Nat}

/-- The rules of an interleaved run. -/
theorem concurrent_rule {P P' : Calls} (h : (concurrent env start).step P a = some P') :
    PoolStep (fun q => q.call.body) (fun t q => exec env q.srv t) checkpointStep P a P' :=
  PoolStep.of_poolStep h

/-- The states after `Init`. -/
def Cluster.Initial (σ : Cluster) : Prop := ∃ config unset, σ = .init config unset

/-! ### What a trace says -/

/-- The key that the last lookup of the call missed, if nothing was inserted since. -/
def missed : Trace → Option (Nat × Name)
  | [] => none
  | ⟨.findDirent pid name, r⟩ :: _ => if r.isNone then some (pid, name) else none
  | ⟨.insertDirent _, _⟩ :: _ => none
  | _ :: tr => missed tr

/-- Only the key that was missed last is inserted. -/
def InsertsMissed (tr : Trace) : Op → Prop
  | .insertDirent d => missed tr = some (d.pid, d.name)
  | _ => True

/-- What an operation adds to `extra_` of directory `dir`. -/
def Op.counts (dir : Nat) : Op → Int
  | .updateFn id .extraInc => if id = dir then 1 else 0
  | .updateFn id .extraDec => if id = dir then -1 else 0
  | _ => 0

/-- What an operation adds to the entries of directory `dir`. -/
def Op.entries (dir : Nat) : Op → Int
  | .insertDirent d => if d.pid = dir then 1 else 0
  | .eraseDirent pid _ => if pid = dir then -1 else 0
  | _ => 0

def Op.weight (dir : Nat) (op : Op) : Int := op.counts dir - op.entries dir

/-- The weights of a trace. -/
def balance (dir : Nat) : Trace → Int
  | [] => 0
  | e :: tr => balance dir tr + e.1.weight dir

/-- Two traces that are balanced alike. -/
def SameBalance (tr tr' : Trace) : Prop := ∀ dir, balance dir tr' = balance dir tr

/-- The operation drops a link of directory `dir` as `Rmdir` does it. -/
def dropsLink (dir : Nat) : Prog.Event Op Res → Bool
  | ⟨.updateFn id (.unlink true), some n⟩ => id == dir && !unlinkError true n
  | _ => false

/-- A link of directory `dir` was dropped. -/
def Drops (dir : Nat) (tr : Trace) : Prop := tr.any (dropsLink dir) = true

section Along

variable {tr : Trace} {entry : Dirent} {parentId : Nat} {name : Name} {u : Bool}

theorem along_locateLoop (names : List Name) (id parent : Nat) (ent : Option Dirent) :
    Prog.Along InsertsMissed (fun tr' l => SameBalance tr tr' ∧
      (l.found = false → l.parent ≠ 0 → missed tr' = some (l.parent, l.newPath)))
      tr (locateLoop names id parent ent) := by
  induction names generalizing tr id parent ent with
  | nil => exact ⟨fun _ => rfl, nofun⟩
  | cons name rest ih =>
    refine ⟨trivial, fun r => ?_⟩
    have hsame : SameBalance tr (⟨.findDirent id name, r⟩ :: tr) := fun dir => by
      simp [balance, Op.weight, Op.counts, Op.entries]
    cases r with
    | none =>
      refine ⟨hsame, fun _ hp => ?_⟩
      cases hr : rest.isEmpty with
      | true => simp [Located.missing, missed]
      | false => simp [Located.missing, hr] at hp
    | some d =>
      exact (ih d.id id (some d)).mono fun tr' l h => ⟨fun dir => (h.1 dir).trans (hsame dir), h.2⟩

theorem along_locateInode (path : Name) (start : Nat) :
    Prog.Along InsertsMissed (fun tr' l => SameBalance tr tr' ∧
      (l.found = false → l.parent ≠ 0 → missed tr' = some (l.parent, l.newPath)))
      tr (locateInode path start) :=
  along_locateLoop _ _ _ _

theorem along_addDirectoryEntry
    (hkey : missed tr = some (entry.pid, entry.name)) (hpid : entry.pid = parentId) :
    Prog.Along InsertsMissed (fun tr' _ => ∀ dir, balance dir tr' =
      balance dir tr - if u = false ∧ parentId = dir then 1 else 0)
      tr (addDirectoryEntry entry parentId u) := by
  cases u with
  | false =>
    refine ⟨hkey, fun r dir => ?_⟩
    simp only [balance, Op.weight, Op.counts, Op.entries, hpid, true_and]
    split <;> omega
  | true =>
    refine ⟨trivial, fun r => ⟨hkey, fun r' dir => ?_⟩⟩
    simp only [balance, Op.weight, Op.counts, Op.entries, hpid]
    split <;> simp

theorem along_deleteDirectoryEntry :
    Prog.Along InsertsMissed (fun tr' _ => missed tr' = missed tr ∧ ∀ dir, balance dir tr' =
      balance dir tr + if u = false ∧ parentId = dir then 1 else 0)
      tr (deleteDirectoryEntry name parentId u) := by
  cases u with
  | false =>
    refine ⟨trivial, fun r => ⟨rfl, fun dir => ?_⟩⟩
    simp only [balance, Op.weight, Op.counts, Op.entries, true_and]
    split <;> omega
  | true =>
    refine ⟨trivial, fun r => ⟨trivial, fun r' => ⟨rfl, fun dir => ?_⟩⟩⟩
    simp only [balance, Op.weight, Op.counts, Op.entries]
    split <;> simp

theorem SameBalance.refl (tr : Trace) : SameBalance tr tr := fun _ => rfl

theorem SameBalance.trans {tr₁ tr₂ tr₃ : Trace} (h : SameBalance tr₁ tr₂)
    (h' : SameBalance tr₂ tr₃) : SameBalance tr₁ tr₃ := fun dir => (h' dir).trans (h dir)

/-- An operation without weight. -/
theorem SameBalance.cons {tr' : Trace} {op : Op} {r : Res op} (h : SameBalance tr tr')
    (hw : ∀ dir, op.weight dir = 0) : SameBalance tr (⟨op, r⟩ :: tr') := fun dir => by
  rw [balance, hw dir, Int.add_zero, h dir]

theorem along_unlink (path : Name) (isDir : Bool) :
    Prog.Along InsertsMissed (fun tr' a => SameBalance tr tr' ∧
      (a = 0 → isDir = true → ∃ dir, Drops dir tr')) tr (unlink path isDir) := by
  have hfail : ∀ {tr' : Trace} {a : Int}, SameBalance tr tr' → a ≠ 0 →
      SameBalance tr tr' ∧ (a = 0 → isDir = true → ∃ dir, Drops dir tr') :=
    fun h ha => ⟨h, fun h0 => absurd h0 ha⟩
  unfold unlink
  rw [Prog.along_bind]
  refine (along_locateInode path 0).mono fun tr₁ res ⟨h₁, _⟩ => ?_
  split
  · exact hfail h₁ (by decide)
  refine ⟨trivial, fun logged => ?_⟩
  simp only [Prog.bind]
  split
  · exact hfail (h₁.cons fun _ => rfl) (by decide)
  refine ⟨trivial, fun r => ?_⟩
  have h₂ : SameBalance tr (⟨.updateFn res.id (.unlink isDir), r⟩ ::
      ⟨.log (.unlink res.id res.parent res.entName), logged⟩ :: tr₁) :=
    (h₁.cons fun _ => rfl).cons fun _ => rfl
  cases r with
  | none => exact hfail h₂ (by decide)
  | some n =>
    simp only [Prog.bind]
    split
    · exact hfail h₂ (by decide)
    rename_i hok
    refine along_deleteDirectoryEntry.suffix.bind ?_
    rintro tr₃ - ⟨⟨-, hbal⟩, hsuf⟩
    have h₃ : SameBalance tr tr₃ := fun dir => by
      rw [hbal dir, h₂ dir]
      simp
    have hdrop : ∀ {tr' : Trace}, tr₃ <:+ tr' → isDir = true → ∃ dir, Drops dir tr' := by
      rintro tr' hs rfl
      exact ⟨res.id, List.any_eq_true.mpr
        ⟨_, (hsuf.trans hs).subset mem_cons_self, by simpa [dropsLink] using hok⟩⟩
    split
    · exact ⟨trivial, fun _ => ⟨trivial, fun _ =>
        ⟨(h₃.cons fun _ => rfl).cons fun _ => rfl, fun _ => hdrop ⟨[_, _], rfl⟩⟩⟩⟩
    · exact ⟨h₃, fun _ => hdrop (suffix_refl tr₃)⟩

/-- What follows a test for undefined behaviour. -/
theorem along_orUndefined {c : Prop} [Decidable c] {α : Type} {p : M α} {post : Trace → α → Prop}
    (h : ∀ tr', SameBalance tr tr' → missed tr' = missed tr → Prog.Along InsertsMissed post tr' p) :
    Prog.Along InsertsMissed post tr (if c then (do undefined; p) else p) := by
  split
  · exact ⟨trivial, fun _ => h _ ((SameBalance.refl tr).cons fun _ => rfl) rfl⟩
  · exact h tr (.refl tr) rfl

theorem along_chmod (path : Name) (mode : Nat) :
    Prog.Along InsertsMissed (fun tr' _ => SameBalance tr tr') tr (chmod path mode) := by
  unfold chmod
  rw [Prog.along_bind]
  refine (along_locateInode path 0).mono fun tr₁ res ⟨h₁, _⟩ => ?_
  split
  · exact h₁
  refine ⟨trivial, fun logged => ?_⟩
  simp only [Prog.bind]
  split
  · exact h₁.cons fun _ => rfl
  refine ⟨trivial, fun r => ?_⟩
  cases r <;> exact (h₁.cons fun _ => rfl).cons fun _ => rfl

theorem along_create (path : Name) (mode uid gid : Nat) (isDir : Bool) :
    Prog.Along InsertsMissed (fun tr' _ => SameBalance tr tr') tr
      (create path mode uid gid isDir) := by
  unfold create
  rw [Prog.along_bind]
  refine (along_locateInode path 0).mono fun tr₁ res ⟨h₁, hmiss⟩ => ?_
  split
  · exact h₁
  rename_i hp
  split
  · refine ⟨trivial, fun r => ?_⟩
    cases r <;> exact h₁.cons fun _ => rfl
  rename_i hf
  have hkey := hmiss (by simpa using hf) hp
  refine ⟨trivial, fun id => along_orUndefined fun tr₂ h₂ hm₂ => ⟨trivial, fun logged => ?_⟩⟩
  have h₃ : SameBalance tr tr₂ := (h₁.cons fun _ => rfl).trans h₂
  simp only [Prog.bind]
  by_cases hl : (!logged) = true
  · rw [if_pos hl]
    exact ⟨trivial, fun _ => (h₃.cons fun _ => rfl).cons fun _ => rfl⟩
  · rw [if_neg hl]
    refine ⟨trivial, fun _ => ?_⟩
    simp only [Prog.bind]
    refine Prog.Along.bind (along_addDirectoryEntry ?_ rfl) fun tr₄ _ hbal dir => ?_
    · exact hm₂.trans hkey
    · rw [hbal dir, (h₃.cons fun _ => rfl).cons (fun _ => rfl) dir]
      simp

theorem along_entryOf (l : Located) :
    Prog.Along InsertsMissed (fun tr' _ => SameBalance tr tr') tr (entryOf l) := by
  unfold entryOf
  split
  · exact .refl tr
  · exact ⟨trivial, fun _ => (SameBalance.refl tr).cons fun _ => rfl⟩

theorem along_renameEntry {link : Bool} {oldRes : Located} {np : Nat}
    (hkey : np ≠ 0 → missed tr = some (np, name)) :
    Prog.Along InsertsMissed (fun tr' _ => SameBalance tr tr') tr
      (renameEntry link oldRes entry np name) := by
  unfold renameEntry
  split
  · exact .refl tr
  rename_i hp
  have hkey := hkey hp
  cases link with
  | false =>
    refine ⟨trivial, fun logged => ?_⟩
    simp only [Prog.bind]
    split
    · exact (SameBalance.refl tr).cons fun _ => rfl
    -- the entry leaves one directory and enters the other, or stays in the same
    refine along_deleteDirectoryEntry.bind ?_
    rintro tr₂ - ⟨hm₂, hbal₂⟩
    refine along_orUndefined fun tr₃ h₃ hm₃ => ?_
    refine Prog.Along.bind (along_addDirectoryEntry ?_ rfl) fun tr₄ _ hbal₄ dir => ?_
    · exact hm₃.trans (hm₂.trans hkey)
    · rw [hbal₄ dir, h₃ dir, hbal₂ dir, (SameBalance.refl tr).cons (fun _ => rfl) dir]
      by_cases hsame : oldRes.parent = np
      · simp [hsame]
      · simp [hsame]
  | true =>
    refine ⟨trivial, fun logged => ?_⟩
    simp only [Prog.bind]
    split
    · exact (SameBalance.refl tr).cons fun _ => rfl
    refine ⟨trivial, fun r => ?_⟩
    cases r with
    | none => exact ((SameBalance.refl tr).cons fun _ => rfl).cons fun _ => rfl
    | some n =>
      simp only [Prog.bind]
      refine along_orUndefined fun tr₂ h₂ hm₂ => ?_
      refine Prog.Along.bind (along_addDirectoryEntry ?_ rfl) fun tr₃ _ hbal dir => ?_
      · exact hm₂.trans hkey
      · rw [hbal dir, h₂ dir, ((SameBalance.refl tr).cons fun _ => rfl).cons (fun _ => rfl) dir]
        simp

theorem along_rename (oldpath newpath : Name) (link : Bool) :
    Prog.Along InsertsMissed (fun tr' _ => SameBalance tr tr') tr
      (rename oldpath newpath link) := by
  unfold rename
  split
  · rw [Prog.along_bind]
    refine (along_locateInode _ _).mono fun tr₁ common ⟨h₁, _⟩ => ?_
    split
    · exact h₁
    rw [Prog.along_bind]
    refine (along_locateInode _ _).mono fun tr₂ oldRes ⟨h₂, _⟩ => ?_
    split
    · exact h₁.trans h₂
    rw [Prog.along_bind]
    refine (along_entryOf oldRes).mono fun tr₃ entry h₃ => ?_
    rw [Prog.along_bind]
    refine (along_locateInode _ _).mono fun tr₄ newRes ⟨h₄, hmiss₄⟩ => ?_
    have h : SameBalance tr tr₄ := ((h₁.trans h₂).trans h₃).trans h₄
    split
    · split
      · exact h
      rw [Prog.along_bind]
      refine (along_entryOf newRes).mono fun tr₅ newEntry h₅ => ?_
      dsimp only
      split
      · exact h.trans h₅
      rw [Prog.along_bind]
      refine (along_unlink _ _).mono fun tr₆ cover ⟨h₆, _⟩ => ?_
      split
      · exact (h.trans h₅).trans h₆
      split
      · exact (h.trans h₅).trans h₆
      rw [Prog.along_bind]
      refine (along_locateInode _ _).mono fun tr₇ newRes' ⟨h₇, hmiss₇⟩ => ?_
      have h' : SameBalance tr tr₇ := ((h.trans h₅).trans h₆).trans h₇
      split
      · exact h'
      rename_i hf
      exact (along_renameEntry (hmiss₇ (by simpa using hf))).mono fun tr₈ _ h₈ => h'.trans h₈
    · rename_i hf
      exact (along_renameEntry (hmiss₄ (by simpa using hf))).mono fun tr₅ _ h₅ => h.trans h₅
  · exact ⟨trivial, fun _ => (SameBalance.refl tr).cons fun _ => rfl⟩

end Along

/-- What holds at the end of a call: its trace is balanced, and a successful `Rmdir` has dropped a
link of some directory. -/
def CallDone (q : Request) (tr : Trace) (r : Int) : Prop :=
  SameBalance [] tr ∧ (∀ path, q.call = .rmdir path → r = 0 → ∃ dir, Drops dir tr)

/-- **Every procedure inserts only what it missed, and is balanced in the end.** -/
theorem along_body (q : Request) : Prog.Along InsertsMissed (CallDone q) [] q.call.body := by
  obtain ⟨srv, c⟩ := q
  cases c with
  | create | mkdir => exact (along_create ..).mono fun _ _ h => ⟨h, nofun⟩
  | unlink => exact (along_unlink ..).mono fun _ _ h => ⟨h.1, nofun⟩
  | rmdir => exact (along_unlink ..).mono fun _ _ h => ⟨h.1, fun _ _ h0 => h.2 h0 rfl⟩
  | chmod => exact (along_chmod ..).mono fun _ _ h => ⟨h, nofun⟩
  | rename | link => exact (along_rename ..).mono fun _ _ h => ⟨h, nofun⟩

/-- In every state of an interleaved run, calls do what `along_body` says. -/
theorem concurrent_meets {ok : Calls → PoolAct Request (Nat × Nat) → Prop} {P : Calls}
    (h : (concurrent env start).Reach ok P) : P.Meets InsertsMissed CallDone :=
  pool_along along_body h

end StaxFS.Metadata
