import StaxFS.Metadata.Once

/-!
# A client that writes an inode back

`dfs_open` copies the inode of a file into the descriptor, `dfs_write` changes the size in the copy,
and `dfs_fsync` and `dfs_close` send the whole copy back, which `UpdateInode` puts in place of the
inode: links, mode and owners included. What other clients did to these since the file was opened is
undone.

The metadata and the size of an inode are kept apart here: `Inode` holds what `Link`, `Unlink` and
`Chmod` change, `sizes` the `size_` of every inode. The state also holds the tables as the calls of
the other clients alone would have left them.

Result:
* `write_back_keeps`: nothing is undone if, whenever the copy is sent back, the metadata in the
  table are still those of the copy.
-/

namespace StaxFS.Client

open Foundation Metadata Wal Option

/-- `FileDescriptor`; `id`, `inode` and `size` are its `inode_`. -/
structure FileDescriptor where
  id : Nat
  inode : Inode
  size : Nat
  seekOffset : Nat
  modify : Bool
deriving DecidableEq, Repr

/-- The servers, the descriptor of the client, and the servers without the client. -/
structure Session where
  cluster : Cluster
  /-- `size_` of every inode -/
  sizes : Nat → Nat
  fd : Option FileDescriptor
  /-- what the calls of the others alone have produced -/
  alone : Cluster

/-- What happens: the client's operations on its file, and calls of other clients. -/
inductive SessionAct
  | openFile (path : Name)
  /-- `dfs_write`; the data server has written `count` bytes -/
  | write (count : Nat)
  | fsync
  | close
  | call (q : Request) (th : Nat)

/-- `Stat`. -/
def stat (path : Name) : M (Option (Nat × Inode)) := do
  let res ← locateInode path 0
  if !res.found then return none
  return (← getInode res.id).map (res.id, ·)

/-- `UpdateInode`: the inode is replaced, if there is one. -/
def Session.updateInode (s : Session) (f : FileDescriptor) : Session :=
  match s.cluster.inodes f.id with
  | none => s
  | some _ =>
    { s with
      cluster := s.cluster.setInode f.id (some f.inode)
      sizes := Function.update s.sizes f.id f.size }

/-- `dfs_open` without `O_CREAT`. -/
def Session.openFile (env : Env) (s : Session) (path : Name) : Option Session :=
  match (stat path).run (exec env 0 0) s.cluster with
  | some (some (id, n), _) => some { s with fd := some ⟨id, n, s.sizes id, 0, false⟩ }
  | _ => none

/-- `dfs_write`: `count` bytes were written. -/
def FileDescriptor.write (f : FileDescriptor) (count : Nat) : FileDescriptor :=
  if count ≠ 0 then
    { f with seekOffset := f.seekOffset + count, size := f.size + count, modify := true }
  else f

/-- `PutInodeRequest`, if the descriptor says that the file was modified. -/
def Session.writeBack (s : Session) (f : FileDescriptor) : Session :=
  if f.modify then s.updateInode f else s

def sessionStep (env : Env) (s : Session) : SessionAct → Option Session
  | .openFile path =>
    match s.fd with
    | none => s.openFile env path
    | some _ => none
  | .write count => s.fd.map fun f => { s with fd := some (f.write count) }
  | .fsync => s.fd.map fun f => { s.writeBack f with fd := some { f with modify := false } }
  | .close => s.fd.map fun f => { s.writeBack f with fd := none }
  | .call q th =>
    match s.cluster.run env q.srv th q.call, s.alone.run env q.srv th q.call with
    | some x, some y => some { s with cluster := x.2, alone := y.2 }
    | _, _ => none

/-- Runs from `σ₀`, with no file open. -/
def sessions (env : Env) (σ₀ : Cluster) : System Session SessionAct where
  start s := s.cluster = σ₀ ∧ s.alone = σ₀ ∧ s.fd = none
  step := sessionStep env

/-- The other clients make `Link`, `Unlink` and `Chmod` calls. -/
def otherCall : SessionAct → Bool
  | .call q _ =>
    match q.call with
    | .link .. | .unlink _ | .chmod .. => true
    | _ => false
  | _ => true

/-- The links, mode, owners and child count of every inode are those that the calls of the other
clients alone have produced. -/
def Session.Kept (s : Session) : Prop := s.cluster.inodes = s.alone.inodes

/-- **When nothing is undone**: a modified copy is sent back only while the metadata in the table are
those that were copied. -/
def SentFresh (s : Session) : SessionAct → Prop
  | .fsync | .close => ∀ f n, s.fd = some f → f.modify = true → s.cluster.inodes f.id = some n →
      n = f.inode
  | _ => True

section Step

variable {env : Env} {σ₀ : Cluster} {s s' : Session} {a : SessionAct}

theorem Session.updateInode_cluster {f : FileDescriptor}
    (h : ∀ n, s.cluster.inodes f.id = some n → n = f.inode) :
    (s.updateInode f).cluster = s.cluster ∧ (s.updateInode f).alone = s.alone := by
  unfold Session.updateInode
  split
  · exact ⟨rfl, rfl⟩
  · rename_i n hn
    exact ⟨Cluster.setInode_self (by rw [hn, h n hn]), rfl⟩

theorem Session.writeBack_cluster {f : FileDescriptor}
    (h : f.modify = true → ∀ n, s.cluster.inodes f.id = some n → n = f.inode) :
    (s.writeBack f).cluster = s.cluster ∧ (s.writeBack f).alone = s.alone := by
  unfold Session.writeBack
  split
  · rename_i hm
    exact updateInode_cluster (h hm)
  · exact ⟨rfl, rfl⟩

/-- A step keeps the servers as they are without the client. -/
theorem step_keeps (h : s.cluster = s.alone) (hok : SentFresh s a)
    (hst : (sessions env σ₀).step s a = some s') : s'.cluster = s'.alone := by
  cases a with
  | openFile path =>
    simp only [sessions, sessionStep] at hst
    split at hst
    · unfold Session.openFile at hst
      split at hst
      · cases hst
        exact h
      · cases hst
    · cases hst
  | write count =>
    obtain ⟨f, -, rfl⟩ := map_eq_some_iff.mp hst
    exact h
  | fsync | close =>
    obtain ⟨f, hf, rfl⟩ := map_eq_some_iff.mp hst
    obtain ⟨hc, ha⟩ := Session.writeBack_cluster fun hm n => hok f n hf hm
    exact hc.trans (h.trans ha.symm)
  | call q th =>
    simp only [sessions, sessionStep] at hst
    split at hst
    · rename_i x y hx hy
      cases hst
      rw [h, hy] at hx
      exact congrArg Prod.snd (Option.some.inj hx).symm
    · cases hst

end Step

/-- **Write-back does not undo metadata changes** in a run in which a modified copy is sent back only
while the metadata in the table are those that were copied. -/
theorem write_back_keeps {env : Env} {σ₀ : Cluster} {s : Session}
    (h : (sessions env σ₀).Reach (fun s a => otherCall a = true ∧ SentFresh s a) s) : s.Kept := by
  have hinv : s.cluster = s.alone := h.invariant (I := fun s => s.cluster = s.alone)
    (fun _ (hs : _ ∧ _ ∧ _) => hs.1.trans hs.2.1.symm)
    (fun s a s' _ hi hok hst => step_keeps hi hok.2 hst)
  exact congrArg Cluster.inodes hinv

/-- `/a` exists, nothing is open. -/
def closedA : Session := ⟨madeA, fun _ => 0, none, madeA⟩

theorem closedA_start : (sessions steadyEnv madeA).start closedA := ⟨rfl, rfl, rfl⟩

/-- A test for `SentFresh`. -/
def sentFresh (s : Session) : SessionAct → Bool
  | .fsync | .close =>
    match s.fd with
    | some f => !f.modify || decide (∀ n ∈ s.cluster.inodes f.id, n = f.inode)
    | none => true
  | _ => true

theorem sentFresh_of_test {s : Session} {a : SessionAct} (h : sentFresh s a = true) :
    SentFresh s a := by
  have hsent : ∀ f n, s.fd = some f → f.modify = true → s.cluster.inodes f.id = some n →
      sentFresh s .close = true → n = f.inode := by
    intro f n hf hm hn ht
    simp only [sentFresh, hf, hm, Bool.not_true, Bool.false_or, decide_eq_true_eq] at ht
    exact ht n hn
  cases a with
  | fsync | close => exact fun f n hf hm hn => hsent f n hf hm hn h
  | _ => trivial

/-- The file is written and closed, and then linked and its mode changed. -/
def closedFirst : List SessionAct :=
  [.openFile pathA, .write 10, .fsync, .write 5, .close, .call ⟨0, .link pathA pathB⟩ 1,
    .call ⟨1, .chmod pathA 0o600⟩ 2]

/-- Calls that come after the file was closed are kept: the condition is met. -/
theorem write_back_keeps_closedFirst :
    ∃ s, (sessions steadyEnv madeA).Reach (fun s a => otherCall a = true ∧ SentFresh s a) s ∧
      (s.sizes 3, (s.cluster.inodes 3).map Inode.nlink) = (15, some 2) ∧ s.Kept := by
  have hrun : ((sessions steadyEnv madeA).runChecked (fun s a => otherCall a && sentFresh s a)
      closedFirst closedA).map
      (fun s => (s.sizes 3, (s.cluster.inodes 3).map Inode.nlink)) = some (15, some 2) := by
    decide +kernel
  obtain ⟨s, hs, hout⟩ := map_eq_some_iff.mp hrun
  have hreach : (sessions steadyEnv madeA).Reach
      (fun s a => otherCall a = true ∧ SentFresh s a) s := by
    refine (System.Reach.start closedA_start).steps (System.steps_runChecked (fun s a ht => ?_) hs)
    rw [Bool.and_eq_true] at ht
    exact ⟨ht.1, sentFresh_of_test ht.2⟩
  exact ⟨s, hreach, hout, write_back_keeps hreach⟩

/-- The file is linked and its mode changed while it is open. -/
def linkedWhileOpen : List SessionAct :=
  [.openFile pathA, .write 10, .call ⟨0, .link pathA pathB⟩ 1, .call ⟨1, .chmod pathA 0o600⟩ 2, .close]

/-- **Write-back can undo metadata changes**: the link count of a file that was linked while it was
open is 1 again after the close, and its mode is the old one. -/
theorem write_back_undoes_link :
    ∃ s, (sessions steadyEnv madeA).Reach (fun _ a => otherCall a = true) s ∧ s.fd = none ∧
      (s.alone.inodes 3).map Inode.nlink = some 2 ∧ (s.cluster.inodes 3).map Inode.nlink = some 1 ∧
      ¬s.Kept := by
  refine System.exists_reach_of_labels (l := linkedWhileOpen)
    (Q := fun s => s.fd.isNone = true ∧ (s.alone.inodes 3).map Inode.nlink = some 2 ∧
      (s.cluster.inodes 3).map Inode.nlink = some 1)
    closedA_start (fun a ha _ => ?_) (by decide +kernel) fun s _ hs => ?_
  · simp only [linkedWhileOpen, List.mem_cons, List.not_mem_nil, or_false] at ha
    rcases ha with rfl | rfl | rfl | rfl | rfl <;> rfl
  · obtain ⟨hfd, halone, hcluster⟩ := hs
    refine ⟨isNone_iff_eq_none.mp hfd, halone, hcluster, fun hk => ?_⟩
    rw [Session.Kept] at hk
    rw [hk, halone] at hcluster
    cases hcluster

end StaxFS.Client
