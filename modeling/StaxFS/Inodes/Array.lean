import StaxFS.Foundation.Runs

/-!
# The inode array: one slot, any number of readers and writers

`InodeArray` (`server/inode_array.h`) keeps every inode in a slot of two cache lines. The first line
holds the control word (lock bit, seven bits of version, valid bit) and the first 56 bytes of the
inode, the second line the rest. `find` checks the control word twice, `update_fn` sets the lock bit
by compare-and-swap, reads the slot, applies its function and writes both lines back, the first line
last.

The slot of one id is modelled, with `find` and `update_fn` calls on it by any number of threads of
any servers. Every access of a line is one step: `CXLMem::Read` goes from the low to the high line,
`CXLMem::Write` from the high to the low one, `CXLMem::Cas` acts on the control word. The two parts
of an inode are values of types `L` and `H`. `ResolveSlot` is taken to have found the slot.

The state also records who obtained the lock, in order, and which inodes were stored completely.
-/

namespace StaxFS.Inodes

open Foundation

/-- `InodeSlot::control_`. -/
structure Control where
  /-- `kDirtyBit`, the lock -/
  dirty : Bool
  version : Nat
  reserved : Nat
  /-- `kValidBit` -/
  valid : Bool
deriving DecidableEq, Repr

/-- `MakeLocked`. -/
def makeLocked (ctrl : Control) : Control := { ctrl with dirty := true }

/-- `MakeUnlockedWithVersionBump`; the version has seven bits. -/
def makeUnlockedWithVersionBump (ctrl : Control) : Control :=
  { ctrl with dirty := false, version := (ctrl.version + 1) % 2 ^ 7 }

/-- Where a call stands. `L` and `H` are the parts of an inode in the first and the second line. -/
inductive Pc (L H : Type)
  | idle
  /-- `find`: the first line is read next -/
  | findStart
  /-- `find`: the control word was `before`, unlocked and valid; the slot is read next -/
  | findVerify (before : Control)
  /-- `find`: the first line had the control word `before` again, and `low`; the second is next -/
  | findRest (before : Control) (low : L)
  | found (inode : L × H)
  | notFound
  /-- `update_fn`: the first line is read next -/
  | updateStart (f : L × H → L × H)
  /-- `update_fn`: `old` is unlocked and valid, the compare-and-swap is next -/
  | updateCas (f : L × H → L × H) (old : Control)
  /-- `update_fn`: the lock is obtained, the first line is read next -/
  | updateLow (f : L × H → L × H) (old : Control)
  /-- `update_fn`: the second line is read next -/
  | updateHigh (f : L × H → L × H) (old : Control) (low : L)
  /-- `update_fn`: the second line is written next -/
  | writeHigh (f : L × H → L × H) (old : Control) (inode : L × H)
  /-- `update_fn`: the first line is written next -/
  | writeLow (f : L × H → L × H) (old : Control) (inode : L × H)
  | updated (f : L × H → L × H) (result : Bool)

/-- The slot, the calls, and what happened. -/
structure Sys (L H : Type) where
  control : Control
  low : L
  high : H
  calls : Nat → Pc L H
  /-- the calls that obtained the lock, oldest first -/
  locked : List (Nat × (L × H → L × H))
  /-- the inodes that were stored, oldest first -/
  stored : List (L × H)

inductive Act (L H : Type)
  | find (t : Nat)
  | update (t : Nat) (f : L × H → L × H)
  /-- the next access of call `t` -/
  | step (t : Nat)

section Steps

variable {L H : Type} {initial : L × H} {t : Nat}

def Sys.setCall (s : Sys L H) (t : Nat) (pc : Pc L H) : Sys L H :=
  { s with calls := Function.update s.calls t pc }

/-- The tests of `find` on the control word it read first. -/
def findChecked (ctrl : Control) : Pc L H :=
  if ctrl.dirty then .findStart else if ctrl.valid then .findVerify ctrl else .notFound

/-- The tests of `update_fn` on a control word it read, or got from a failed compare-and-swap. -/
def updateChecked (f : L × H → L × H) (ctrl : Control) : Pc L H :=
  if ctrl.dirty then .updateStart f else if ctrl.valid then .updateCas f ctrl else .updated f false

/-- `final_ctrl`. -/
def finalControl (old : Control) : Control := { makeUnlockedWithVersionBump old with valid := true }

/-- The next access of a call that stands at `pc`. -/
def access (s : Sys L H) (t : Nat) : Pc L H → Option (Sys L H)
  | .idle | .found _ | .notFound | .updated _ _ => none
  | .findStart => some (s.setCall t (findChecked s.control))
  | .findVerify before =>
    if s.control = before then some (s.setCall t (.findRest before s.low))
    else some (s.setCall t .findStart)
  | .findRest _ low => some (s.setCall t (.found (low, s.high)))
  | .updateStart f => some (s.setCall t (updateChecked f s.control))
  | .updateCas f old =>
    if s.control = old then
      some { s.setCall t (.updateLow f old) with
        control := makeLocked old, locked := s.locked ++ [(t, f)] }
    else some (s.setCall t (updateChecked f s.control))
  | .updateLow f old => some (s.setCall t (.updateHigh f old s.low))
  | .updateHigh f old low => some (s.setCall t (.writeHigh f old (f (low, s.high))))
  | .writeHigh f old inode => some { s.setCall t (.writeLow f old inode) with high := inode.2 }
  | .writeLow f old inode =>
    some { s.setCall t (.updated f true) with
      control := finalControl old, low := inode.1, stored := s.stored ++ [inode] }

def arrayStep (s : Sys L H) : Act L H → Option (Sys L H)
  | .find t =>
    match s.calls t with
    | .idle => some (s.setCall t .findStart)
    | _ => none
  | .update t f =>
    match s.calls t with
    | .idle => some (s.setCall t (.updateStart f))
    | _ => none
  | .step t => access s t (s.calls t)

/-- Runs on an existing inode, with the value `initial`, that nobody has locked. -/
def inodeArray (initial : L × H) : System (Sys L H) (Act L H) where
  start s := s.control.dirty = false ∧ s.control.valid = true ∧ (s.low, s.high) = initial ∧
    (∀ t, s.calls t = .idle) ∧ s.locked = [] ∧ s.stored = [initial]
  step := arrayStep

/-- The rules of a step: what an access finds and what it leaves. -/
inductive ArrayStep (s : Sys L H) : Act L H → Sys L H → Prop
  | find {t : Nat} : s.calls t = .idle → ArrayStep s (.find t) (s.setCall t .findStart)
  | update {t : Nat} {f : L × H → L × H} : s.calls t = .idle →
      ArrayStep s (.update t f) (s.setCall t (.updateStart f))
  | findStart {t : Nat} : s.calls t = .findStart →
      ArrayStep s (.step t) (s.setCall t (findChecked s.control))
  | findVerified {t : Nat} : s.calls t = .findVerify s.control →
      ArrayStep s (.step t) (s.setCall t (.findRest s.control s.low))
  | findAgain {t : Nat} {before : Control} : s.calls t = .findVerify before →
      ArrayStep s (.step t) (s.setCall t .findStart)
  | findRest {t : Nat} {before : Control} {low : L} : s.calls t = .findRest before low →
      ArrayStep s (.step t) (s.setCall t (.found (low, s.high)))
  | updateStart {t : Nat} {f : L × H → L × H} : s.calls t = .updateStart f →
      ArrayStep s (.step t) (s.setCall t (updateChecked f s.control))
  | lock {t : Nat} {f : L × H → L × H} : s.calls t = .updateCas f s.control →
      ArrayStep s (.step t) { s.setCall t (.updateLow f s.control) with
        control := makeLocked s.control, locked := s.locked ++ [(t, f)] }
  | updateAgain {t : Nat} {f : L × H → L × H} {old : Control} : s.calls t = .updateCas f old →
      ArrayStep s (.step t) (s.setCall t (updateChecked f s.control))
  | updateLow {t : Nat} {f : L × H → L × H} {old : Control} : s.calls t = .updateLow f old →
      ArrayStep s (.step t) (s.setCall t (.updateHigh f old s.low))
  | updateHigh {t : Nat} {f : L × H → L × H} {old : Control} {low : L} :
      s.calls t = .updateHigh f old low →
      ArrayStep s (.step t) (s.setCall t (.writeHigh f old (f (low, s.high))))
  | writeHigh {t : Nat} {f : L × H → L × H} {old : Control} {inode : L × H} :
      s.calls t = .writeHigh f old inode →
      ArrayStep s (.step t) { s.setCall t (.writeLow f old inode) with high := inode.2 }
  | writeLow {t : Nat} {f : L × H → L × H} {old : Control} {inode : L × H} :
      s.calls t = .writeLow f old inode →
      ArrayStep s (.step t) { s.setCall t (.updated f true) with
        control := finalControl old, low := inode.1, stored := s.stored ++ [inode] }

theorem ArrayStep.of_step {s s' : Sys L H} {a : Act L H}
    (h : (inodeArray initial).step s a = some s') : ArrayStep s a s' := by
  change arrayStep s a = some s' at h
  revert h
  fun_cases arrayStep s a <;> intro h
  · cases h
    exact .find ‹_›
  · cases h
  · cases h
    exact .update ‹_›
  · cases h
  · rename_i t
    generalize hpc : s.calls t = pc at h
    revert h
    fun_cases access s t pc <;> intro h <;> cases h
    · exact .findStart hpc
    · exact .findVerified hpc
    · exact .findAgain hpc
    · exact .findRest hpc
    · exact .updateStart hpc
    · exact .lock hpc
    · exact .updateAgain hpc
    · exact .updateLow hpc
    · exact .updateHigh hpc
    · exact .writeHigh hpc
    · exact .writeLow hpc

/-- The call a step is about. -/
def Act.call : Act L H → Nat
  | .find t | .update t _ | .step t => t

theorem ArrayStep.calls_other {s s' : Sys L H} {a : Act L H} (h : ArrayStep s a s')
    (ht : t ≠ a.call) : s'.calls t = s.calls t := by
  cases h <;> exact Function.update_of_ne ht ..

/-- Calls that a run does not mention have not started. -/
theorem idle_of_runLabels :
    ∀ {as : List (Act L H)} {s s' : Sys L H}, (∀ a ∈ as, t ≠ a.call) → s.calls t = .idle →
      (inodeArray initial).runLabels as s = some s' → s'.calls t = .idle
  | [], _, _, _, h0, h => by
    cases h
    exact h0
  | a :: as, s, _, hne, h0, h => by
    obtain ⟨s₁, h₁, h₂⟩ := Option.bind_eq_some_iff.mp h
    refine idle_of_runLabels (fun b hb => hne b (List.mem_cons_of_mem _ hb)) ?_ h₂
    rw [(ArrayStep.of_step h₁).calls_other (hne a List.mem_cons_self)]
    exact h0

end Steps

end StaxFS.Inodes
