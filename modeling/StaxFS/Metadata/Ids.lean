import StaxFS.Metadata.State

/-!
# Inode ids under concurrent calls

`AllocateInodeId` and `FreeInodeId` (`server/metadata.cc`) of one server, any number of calls at a
time: each access to `min_unused_id_` and `min_avail_id_` and each call of the queue is a step. The
queue is a bag: `try_dequeue` takes any element, or fails. `min_avail_id_` is a hint that decides only
where an allocation looks first. Ids are unbounded.

Results:
* `ids_never_live_twice`: the recycled ids, the unused ids and the ids handed out are apart in every
  reachable state, and an allocation returns an id that is not handed out.
-/

namespace StaxFS.Metadata

open Foundation List Function
open Function (update)

/-- Where a call is: what it does next. -/
inductive IdPc
  | idle
  /-- the two loads of `min_avail_id_ == min_unused_id_`, in any order -/
  | compare (avail unused : Option Nat)
  | tryDequeue
  | fetchAdd
  | storeNext (id : Nat)
  | returns (id : Nat)
  | compareExchange (id : Nat)
  | enqueue (id : Nat)
  | loadAvail (id : Nat)
  | storeAvail (id : Nat)
deriving DecidableEq

inductive IdAct
  | allocateInodeId
  | freeInodeId (id : Nat)
  | loadAvail
  | loadUnused
  /-- the element at `k` is dequeued, or none -/
  | tryDequeue (k : Nat)
  /-- any other step of the call -/
  | next

structure IdState where
  minUnused : Nat
  minAvail : Nat
  recycled : List Nat
  /-- the ids that were returned and not freed since -/
  handedOut : List Nat
  calls : Nat → IdPc

def IdState.goto (s : IdState) (t : Nat) (pc : IdPc) : IdState :=
  { s with calls := update s.calls t pc }

/-- What follows the loads of the comparison. -/
def compared : Option Nat → Option Nat → IdPc
  | some avail, some unused => if avail = unused then .fetchAdd else .tryDequeue
  | avail, unused => .compare avail unused

/-- `id >= base_id_ && id < max_id_`. -/
def ownId (metaNum id : Nat) : Bool :=
  metaNum <<< kInodeIdRange ≤ id ∧ id < (metaNum + 1) <<< kInodeIdRange

def idStep (metaNum : Nat) (s : IdState) : Nat × IdAct → Option IdState
  | (t, a) =>
    match s.calls t, a with
    | .idle, .allocateInodeId => some (s.goto t (.compare none none))
    | .compare none unused, .loadAvail => some (s.goto t (compared (some s.minAvail) unused))
    | .compare avail none, .loadUnused => some (s.goto t (compared avail (some s.minUnused)))
    | .tryDequeue, .tryDequeue k =>
      match s.recycled[k]? with
      | some id => some (IdState.goto { s with recycled := s.recycled.eraseIdx k } t (.returns id))
      | none => some (s.goto t .fetchAdd)
    | .fetchAdd, .next =>
      some (IdState.goto { s with minUnused := s.minUnused + 1 } t (.storeNext s.minUnused))
    | .storeNext id, .next => some (IdState.goto { s with minAvail := id + 1 } t (.returns id))
    | .returns id, .next => some (IdState.goto { s with handedOut := id :: s.handedOut } t .idle)
    | .idle, .freeInodeId id =>
      some (IdState.goto { s with handedOut := s.handedOut.erase id } t
        (if ownId metaNum id then .compareExchange id else .loadAvail id))
    | .compareExchange id, .next =>
      if s.minUnused = id + 1 then some (IdState.goto { s with minUnused := id } t (.loadAvail id))
      else some (s.goto t (.enqueue id))
    | .enqueue id, .next =>
      some (IdState.goto { s with recycled := s.recycled ++ [id] } t (.loadAvail id))
    | .loadAvail id, .next =>
      some (s.goto t (if id < s.minAvail then .storeAvail id else .idle))
    | .storeAvail id, .next => some (IdState.goto { s with minAvail := id } t .idle)
    | _, _ => none

/-- All interleavings from the state after `Init`, where `min_avail_id_` has any value. -/
def idCalls (metaNum : Nat) : System IdState (Nat × IdAct) where
  start s := ∃ avail, s = ⟨metaNum <<< kInodeIdRange + kRootId + 1, avail, [], [], fun _ => .idle⟩
  step := idStep metaNum

/-- Only ids that are handed out are freed, and ids of other servers. -/
def FreesHandedOut (metaNum : Nat) (s : IdState) : Nat × IdAct → Prop
  | (_, .freeInodeId id) => id ∈ s.handedOut ∨ ownId metaNum id = false
  | _ => True

instance (metaNum : Nat) (s : IdState) (a : Nat × IdAct) : Decidable (FreesHandedOut metaNum s a) := by
  obtain ⟨t, a⟩ := a
  cases a <;> unfold FreesHandedOut <;> infer_instance

/-! ### Who has an id -/

/-- No id is twice in `l` or held by a call, and all of them are below `bound`. -/
structure Apart (l : List Nat) (bound : Nat) (holds : Nat → Option Nat) : Prop where
  nodup : l.Nodup
  below : ∀ i ∈ l, i < bound
  held : ∀ t i, holds t = some i → i ∉ l ∧ i < bound
  alone : ∀ t t' i, holds t = some i → holds t' = some i → t = t'

namespace Apart

variable {l l' : List Nat} {b i t : Nat} {f : Nat → Option Nat}

section

variable (h : Apart l b f)

include h

theorem drop (hl : l.Perm (i :: l')) : Apart l' b f := by
  have hmem : ∀ x ∈ l', x ∈ l := fun x hx => hl.mem_iff.mpr (mem_cons_of_mem i hx)
  exact ⟨(nodup_cons.mp (hl.nodup_iff.mp h.nodup)).2, fun x hx => h.below x (hmem x hx),
    fun t x hx => ⟨mt (hmem x) (h.held t x hx).1, (h.held t x hx).2⟩, h.alone⟩

/-- A call takes an id nobody has. -/
theorem hold (hi : i ∉ l) (hb : i < b) (hf : ∀ t', f t' ≠ some i) :
    Apart l b (update f t (some i)) := by
  obtain ⟨h1, h2, h3, h4⟩ := h
  refine ⟨h1, h2, ?_, ?_⟩ <;> grind [update_apply]

theorem take (hl : l.Perm (i :: l')) : Apart l' b (update f t (some i)) := by
  have hi : i ∈ l := hl.mem_iff.mpr mem_cons_self
  exact (h.drop hl).hold (nodup_cons.mp (hl.nodup_iff.mp h.nodup)).1 (h.below i hi)
    fun t' ht' => (h.held t' i ht').1 hi

theorem put (ht : f t = some i) (hl : l'.Perm (i :: l)) : Apart l' b (update f t none) := by
  have hmem : ∀ x, x ∈ l' ↔ x = i ∨ x ∈ l := fun x => hl.mem_iff.trans mem_cons
  obtain ⟨hi, hb⟩ := h.held t i ht
  have hnd : l'.Nodup := hl.nodup_iff.mpr (nodup_cons.mpr ⟨hi, h.nodup⟩)
  obtain ⟨h1, h2, h3, h4⟩ := h
  refine ⟨hnd, ?_, ?_, ?_⟩ <;> grind [update_apply]

/-- The counter moves up, and the call holds the id. -/
theorem fresh : Apart l (b + 1) (update f t (some b)) := by
  have hup : Apart l (b + 1) f := ⟨h.nodup, fun i hi => Nat.lt_succ_of_lt (h.below i hi),
    fun t i hi => ⟨(h.held t i hi).1, Nat.lt_succ_of_lt (h.held t i hi).2⟩, h.alone⟩
  exact hup.hold (fun hb => (h.below b hb).false) (Nat.lt_succ_self b)
    fun t' ht' => (h.held t' b ht').2.false

end

/-- The counter moves down over the id that the call holds. -/
theorem giveBack (h : Apart l (i + 1) f) (ht : f t = some i) : Apart l i (update f t none) := by
  obtain ⟨h1, h2, h3, h4⟩ := h
  refine ⟨h1, ?_, ?_, ?_⟩ <;> grind [update_apply]

end Apart

/-- The id that a call has and that is neither handed out nor available. -/
def IdPc.holds : IdPc → Option Nat
  | .storeNext id | .returns id | .compareExchange id | .enqueue id => some id
  | _ => none

def IdsKept (s : IdState) : Prop :=
  Apart (s.recycled ++ s.handedOut) s.minUnused (IdPc.holds ∘ s.calls)

section Step

variable {metaNum t id : Nat} {s s' : IdState} {pc pc₀ : IdPc}

theorem idsKept_goto : IdsKept (s.goto t pc) ↔
    Apart (s.recycled ++ s.handedOut) s.minUnused (update (IdPc.holds ∘ s.calls) t pc.holds) := by
  rw [IdsKept, IdState.goto, comp_update]

/-- A step that hands no id on. -/
theorem IdsKept.goto (h : IdsKept s) (hpc : s.calls t = pc₀) (he : pc.holds = pc₀.holds) :
    IdsKept (s.goto t pc) := by
  rw [idsKept_goto, he, ← hpc, ← comp_apply (f := IdPc.holds), update_eq_self]
  exact h

theorem holds_compared (avail unused : Option Nat) : (compared avail unused).holds = none := by
  unfold compared
  split
  · split <;> rfl
  · rfl

/-- `FreeInodeId` starts: the id is in the hands of the call, or nothing happens to it. -/
theorem IdsKept.free (h : IdsKept s) (hpc : s.calls t = .idle)
    (hok : id ∈ s.handedOut ∨ ownId metaNum id = false) :
    IdsKept (IdState.goto { s with handedOut := s.handedOut.erase id } t
      (if ownId metaNum id then .compareExchange id else .loadAvail id)) := by
  by_cases hmem : id ∈ s.handedOut
  · have hperm : (s.recycled ++ s.handedOut).Perm (id :: (s.recycled ++ s.handedOut.erase id)) :=
      ((perm_cons_erase hmem).append_left _).trans perm_middle
    split
    · exact idsKept_goto.mpr (Apart.take h hperm)
    · exact IdsKept.goto (Apart.drop h hperm) hpc rfl
  · rw [erase_of_not_mem hmem, hok.resolve_left hmem]
    exact h.goto hpc rfl

/-- **One step.** -/
theorem IdsKept.step (h : IdsKept s) {a : Nat × IdAct} (hok : FreesHandedOut metaNum s a)
    (hst : idStep metaNum s a = some s') : IdsKept s' := by
  obtain ⟨t, a⟩ := a
  simp only [idStep] at hst
  split at hst <;> try cases hst
  · rename_i hpc
    exact h.goto hpc rfl
  · rename_i hpc
    exact h.goto hpc (holds_compared ..)
  · rename_i hpc
    exact h.goto hpc (holds_compared ..)
  · rename_i k hpc
    split at hst
    · rename_i id hk
      cases hst
      obtain ⟨hlt, rfl⟩ := List.getElem?_eq_some_iff.mp hk
      exact idsKept_goto.mpr
        (Apart.take h ((getElem_cons_eraseIdx_perm hlt).symm.append_right _))
    · cases hst
      exact h.goto hpc rfl
  · exact idsKept_goto.mpr (Apart.fresh h)
  · rename_i id hpc
    exact IdsKept.goto (s := { s with minAvail := id + 1 }) h hpc rfl
  · rename_i id hpc
    exact idsKept_goto.mpr (Apart.put h (congrArg IdPc.holds hpc) perm_middle)
  · rename_i id hpc
    exact h.free hpc hok
  · rename_i id hpc
    split at hst
    · rename_i heq
      cases hst
      rw [IdsKept, heq] at h
      exact idsKept_goto.mpr (h.giveBack (congrArg IdPc.holds hpc))
    · cases hst
      exact h.goto hpc rfl
  · rename_i id hpc
    refine idsKept_goto.mpr (Apart.put h (congrArg IdPc.holds hpc) ?_)
    rw [append_assoc]
    exact perm_middle
  · rename_i id hpc
    refine h.goto hpc ?_
    split <;> rfl
  · rename_i id hpc
    exact IdsKept.goto (s := { s with minAvail := id }) h hpc rfl

end Step

/-- The ids in the queue, from `min_unused_id_` upward and handed out are apart, and what an allocation
returns is not handed out. -/
structure IdsApart (s : IdState) : Prop where
  recycled_handedOut : s.recycled.Disjoint s.handedOut
  recycled_unused : ∀ id, s.minUnused ≤ id → id ∉ s.recycled
  handedOut_unused : ∀ id, s.minUnused ≤ id → id ∉ s.handedOut
  returned : ∀ t id, s.calls t = .returns id → id ∉ s.handedOut

/-- **Inode ids are never live twice**, whatever calls of one server run at a time. -/
theorem ids_never_live_twice {metaNum : Nat} {s : IdState}
    (h : (idCalls metaNum).Reach (FreesHandedOut metaNum) s) : IdsApart s := by
  have hinv : IdsKept s := by
    refine h.invariant (fun s hs => ?_) fun s a s' _ hi hok hst => hi.step hok hst
    obtain ⟨avail, rfl⟩ := hs
    exact ⟨nodup_nil, forall_mem_nil _, fun _ _ hi => (by cases hi),
      fun _ _ _ hi => (by cases hi)⟩
  refine ⟨(nodup_append'.mp hinv.nodup).2.2, fun id hle hmem => ?_, fun id hle hmem => ?_,
    fun t id hpc hmem => ?_⟩
  · exact (hinv.below id (mem_append_left _ hmem)).not_ge hle
  · exact (hinv.below id (mem_append_right _ hmem)).not_ge hle
  · exact (hinv.held t id (congrArg IdPc.holds hpc)).1 (mem_append_right _ hmem)

/-- An allocation from the counter. -/
def allocateUnused (t : Nat) : List (Nat × IdAct) :=
  [(t, .allocateInodeId), (t, .loadAvail), (t, .loadUnused), (t, .next), (t, .next), (t, .next)]

/-- Two ids are handed out; the first is freed, and while it is recycled another call frees an id of
another server. A third allocation gets the recycled id. -/
theorem ids_never_live_twice_recycled :
    ∃ s, (idCalls 0).Reach (FreesHandedOut 0) s ∧ s.handedOut = [4] ∧ s.calls 2 = .returns 3 ∧
      3 ∉ s.handedOut := by
  exact System.exists_reach
    (l := allocateUnused 0 ++ allocateUnused 1 ++ [(0, .freeInodeId 3), (1, .freeInodeId (7 <<< 50)),
      (0, .next), (0, .next), (0, .next), (0, .next), (1, .next), (2, .allocateInodeId),
      (2, .loadAvail), (2, .loadUnused), (2, .tryDequeue 0)])
    (Q := fun s => s.handedOut = [4] ∧ s.calls 2 = .returns 3) ⟨3, rfl⟩ (by decide +kernel)
    fun s hreach h => ⟨h.1, h.2, (ids_never_live_twice hreach).returned 2 3 h.2⟩

end StaxFS.Metadata
