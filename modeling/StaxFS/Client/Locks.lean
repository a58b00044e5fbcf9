import Mathlib.Data.List.Basic

/-!
# Advisory locks

`F_SETLK` of `dfs_fcntl` in `client/posix_wrapper.cc`, for one file: `locks` is the list the table of
the process has for its inode. `LocksConflict` is symmetric, and it also chooses the lock that an
unlock releases, with the unlock request as one of its arguments; so an unlock finds write locks
only.

Results:
* `locks_exclusive`: after any calls of a process there are only read locks or one write lock; a
  lock that is asked for when there is none is granted; and an unlock with a lock held releases
  everything exactly if the lock held is a write lock.
* `read_lock_stays`: an unlock of a read lock fails.
-/

namespace StaxFS.Client

open List

/-- `l_type`. -/
inductive LockType
  | rdlck
  | wrlck
  | unlck
  /-- a value that is none of these -/
  | invalid
deriving DecidableEq, Repr

/-- `LockEntry`, of whose `flock` only `l_type` is read. -/
structure LockEntry where
  pid : Int
  lock : LockType
deriving DecidableEq, Repr

/-- What `dfs_fcntl` returns: 0, or -1 with an error number. -/
inductive FcntlResult
  | success
  | eacces
  | einval
deriving DecidableEq, Repr

def locksConflict (a b : LockType) : Bool := a = .wrlck || b = .wrlck

/-- `F_SETLK` by process `pid` for a lock. -/
def takeLock (pid : Int) (locks : List LockEntry) (lock : LockType) :
    FcntlResult × List LockEntry :=
  if locks.any fun e => locksConflict lock e.lock then (.eacces, locks)
  else (.success, locks ++ [⟨pid, lock⟩])

/-- `F_SETLK`. -/
def setLk (pid : Int) (locks : List LockEntry) : LockType → FcntlResult × List LockEntry
  | .invalid => (.einval, locks)
  | .unlck =>
    if locks.any fun e => e.pid = pid && locksConflict .unlck e.lock then
      (.success, locks.eraseP fun e => e.pid = pid && locksConflict .unlck e.lock)
    else (.eacces, locks)
  | .rdlck => takeLock pid locks .rdlck
  | .wrlck => takeLock pid locks .wrlck

/-- The locks of a process after its calls. -/
def locksAfter (pid : Int) (calls : List LockType) : List LockEntry :=
  calls.foldl (fun locks lock => (setLk pid locks lock).2) []

/-- Only read locks of the process, or one write lock of it. -/
def Exclusive (pid : Int) (locks : List LockEntry) : Prop :=
  (∀ e ∈ locks, e = ⟨pid, .rdlck⟩) ∨ locks = [⟨pid, .wrlck⟩]

section Calls

variable {pid : Int} {locks : List LockEntry}

/-- An unlock releases nothing if there are read locks only. -/
theorem setLk_unlck_of_reads (h : ∀ e ∈ locks, e = ⟨pid, .rdlck⟩) :
    setLk pid locks .unlck = (.eacces, locks) := by
  refine if_neg fun hany => ?_
  obtain ⟨e, he, hc⟩ := List.any_eq_true.mp hany
  rw [h e he] at hc
  simp [locksConflict] at hc

theorem setLk_unlck_of_write : setLk pid [⟨pid, .wrlck⟩] .unlck = (.success, []) := by
  simp [setLk, locksConflict]

theorem Exclusive.setLk (h : Exclusive pid locks) (lock : LockType) :
    Exclusive pid (setLk pid locks lock).2 := by
  cases lock with
  | invalid => exact h
  | unlck =>
    rcases h with h | rfl
    · rw [setLk_unlck_of_reads h]
      exact .inl h
    · rw [setLk_unlck_of_write]
      exact .inl (forall_mem_nil _)
  | rdlck =>
    rcases h with h | rfl
    · have hfree : ¬ (locks.any fun e => locksConflict .rdlck e.lock) = true := fun hany => by
        obtain ⟨e, he, hc⟩ := List.any_eq_true.mp hany
        rw [h e he] at hc
        simp [locksConflict] at hc
      rw [Client.setLk, takeLock, if_neg hfree]
      exact .inl (forall_mem_append.mpr ⟨h, forall_mem_singleton.mpr rfl⟩)
    · exact .inr (by simp [Client.setLk, takeLock, locksConflict])
  | wrlck =>
    by_cases hnil : locks = []
    · subst hnil
      exact .inr rfl
    · -- the request conflicts with whatever is held
      obtain ⟨e, he⟩ := exists_mem_of_ne_nil _ hnil
      rw [Client.setLk, takeLock, if_pos (List.any_eq_true.mpr ⟨e, he, rfl⟩)]
      exact h

theorem Exclusive.setLks (h : Exclusive pid locks) (calls : List LockType) :
    Exclusive pid (calls.foldl (fun locks lock => (Client.setLk pid locks lock).2) locks) := by
  induction calls generalizing locks with
  | nil => exact h
  | cons lock calls ih => exact ih (h.setLk lock)

end Calls

/-- What a process can rely on when it has `locks`. -/
structure LocksOk (pid : Int) (locks : List LockEntry) : Prop where
  exclusive : Exclusive pid locks
  /-- a held lock is released if and only if it is a write lock -/
  released : locks ≠ [] →
    (setLk pid locks .unlck = (.success, []) ↔ ∃ e ∈ locks, e.lock = .wrlck)
  granted : locks = [] → ∀ lock, lock = .rdlck ∨ lock = .wrlck →
    setLk pid locks lock = (.success, [⟨pid, lock⟩])

/-- **Locks are exclusive, and write locks are released**, after any calls of a process. -/
theorem locks_exclusive (pid : Int) (calls : List LockType) :
    LocksOk pid (locksAfter pid calls) := by
  have hempty : Exclusive pid [] := .inl (forall_mem_nil _)
  have hex : Exclusive pid (locksAfter pid calls) := hempty.setLks calls
  refine ⟨hex, fun hne => ?_, fun hnil lock hlock => ?_⟩
  · rcases hex with hr | hw
    · rw [setLk_unlck_of_reads hr]
      refine ⟨fun h => ?_, ?_⟩
      · cases h
      · rintro ⟨e, he, hlock⟩
        rw [hr e he] at hlock
        cases hlock
    · rw [hw]
      exact ⟨fun _ => ⟨_, mem_singleton.mpr rfl, rfl⟩, fun _ => setLk_unlck_of_write⟩
  · rw [hnil]
    rcases hlock with rfl | rfl
    · rfl
    · rfl

/-- A read lock cannot be released. -/
theorem read_lock_stays :
    ∃ pid calls, locksAfter pid calls = [⟨pid, .rdlck⟩] ∧
      setLk pid (locksAfter pid calls) .unlck = (.eacces, [⟨pid, .rdlck⟩]) :=
  ⟨1, [.rdlck], by decide, by decide⟩

end StaxFS.Client
