import StaxFS.Foundation.Total
import StaxFS.Metadata.Tree
import StaxFS.Metadata.Unique

/-!
# No orphans under concurrency

`Rmdir` tests `extra_` and drops the link in one update, but the other calls raise `extra_` and
insert their entry in two, and they resolved the directory before that. `AddDirectoryEntry` does not
notice when the directory is gone: it reports a failed update of `extra_` and inserts the entry.

The proof is an account per directory. While calls are in flight, `extra_` and the number of entries
differ by what the calls have still to do, and that is read off their traces (`balance`). `Rmdir`
sees `extra_` at zero; if no call raises it afterwards, what is still to be done takes as many
entries out as it puts in, and in the end there is none.

Results:
* `exec_children`, `exec_extra`: what an operation does to the entries and to `extra_`.
* `Account.step`: what a step keeps of the account.
* `no_orphans`: a directory that `Rmdir` removed has no entries when all calls have returned, if no
  call was late.
-/

namespace StaxFS.Metadata

open Foundation Wal List Option
open Function (update update_of_ne update_self)

/-! ### The condition -/

/-- Some call has dropped a link of directory `dir`. -/
def Dropped (dir : Nat) (P : Calls) : Prop :=
  ∃ t q tr p, P.threads t = .active q tr p ∧ Drops dir tr

/-- An operation is in time: `extra_` is raised while the directory has not been dropped and has
room, what is erased is there, and the directory's inode is not replaced before it is dropped. -/
def OpInTime (dir : Nat) (P : Calls) : Op → Prop
  | .updateFn id .extraInc => id = dir →
      ¬Dropped dir P ∧ ∀ n, P.shared.inodes dir = some n → n.extra + 1 < 2 ^ 32
  | .eraseDirent pid name => pid = dir → (P.shared.find dir name).isSome = true
  | .putInode id _ => id = dir → Dropped dir P
  | _ => True

/-- **When `Rmdir` leaves no orphans**: no call is late in directory `dir`. -/
def InTime (dir : Nat) (P : Calls) : PoolAct Request (Nat × Nat) → Prop
  | .step t => ∀ q tr op k, P.threads t = .active q tr (.call op k) → OpInTime dir P op
  | _ => True

/-! ### What an operation does to a directory -/

section Exec

variable {env : Env} {srv th dir : Nat} {op : Op} {σ σ' : Cluster} {r : Res op}

theorem children_eraseP {ds : List Dirent} {pid : Nat} {name : Name}
    (h : pid = dir → (lookup ds (pid, name)).isSome = true) :
    (children (ds.eraseP (Dirent.hasKey pid name)) dir : Int) ≤
      children ds dir + if pid = dir then -1 else 0 := by
  cases hd : lookup ds (pid, name) with
  | none =>
    have hne : pid ≠ dir := fun he => by
      have := h he
      rw [hd] at this
      cases this
    rw [eraseP_of_find_none hd, if_neg hne]
    omega
  | some d =>
    have hperm : ds.Perm (d :: ds.eraseP (Dirent.hasKey pid name)) := perm_cons_eraseP hd
    have hpid : d.pid = pid := congrArg Prod.fst (key_of_lookup hd)
    have hcount : children ds dir = children (ds.eraseP (Dirent.hasKey pid name)) dir +
        if dir = d.pid then 1 else 0 := by
      rw [← children_cons]
      exact hperm.countP_eq _
    rw [hpid] at hcount
    by_cases he : pid = dir
    · rw [if_pos he.symm] at hcount
      rw [if_pos he]
      omega
    · rw [if_neg (Ne.symm he)] at hcount
      rw [if_neg he]
      omega

/-- The entries of a directory change by what the operation adds, at most. -/
theorem exec_children (h : exec env srv th op σ = some (r, σ'))
    (herase : ∀ name, op = .eraseDirent dir name → (σ.find dir name).isSome = true) :
    (children σ'.dirents dir : Int) ≤ children σ.dirents dir + op.entries dir := by
  cases op with
  | insertDirent d =>
    cases h
    rw [Cluster.insert, Op.entries]
    split
    · split <;> simp
    · simp only [children_cons, eq_comm (a := dir)]
      split <;> simp
  | eraseDirent pid name =>
    cases h
    refine children_eraseP fun he => ?_
    subst he
    exact herase name rfl
  | undefined => cases h
  | _ =>
    have hle := children_sublist (exec_dirents h) dir
    simp only [Op.inserted, nil_append] at hle
    simpa [Op.entries] using hle

/-- What is left of `extra_` when one of the functions of `update_fn` was applied: to lower it below
zero makes it large. -/
theorem extra_apply {f : InodeFn} {n : Inode} (hlt : n.extra < 2 ^ 32)
    (hinc : f = .extraInc → n.extra + 1 < 2 ^ 32) :
    (n.extra : Int) + (Op.updateFn dir f).counts dir ≤ (f.apply n).extra ∧
      (f.apply n).extra < 2 ^ 32 := by
  cases f with
  | extraInc =>
    have := hinc rfl
    simp only [Op.counts, if_true, InodeFn.apply]
    omega
  | extraDec =>
    simp only [Op.counts, if_true, InodeFn.apply]
    omega
  | unlink isDir =>
    have hextra : ((InodeFn.unlink isDir).apply n).extra = n.extra := by
      simp only [InodeFn.apply]
      split <;> rfl
    simp only [Op.counts, hextra, Int.add_zero]
    exact ⟨Int.le_refl _, hlt⟩
  | nlinkInc | setMode mode => exact ⟨by simp [Op.counts, InodeFn.apply], hlt⟩

/-- `extra_` of a live directory changes by what the operation adds, at least. -/
theorem exec_extra (h : exec env srv th op σ = some (r, σ')) (hput : ∀ n, op ≠ .putInode dir n)
    (hlt : ∀ n, σ.inodes dir = some n → n.extra < 2 ^ 32)
    (hinc : op = .updateFn dir .extraInc → ∀ n, σ.inodes dir = some n → n.extra + 1 < 2 ^ 32)
    {n' : Inode} (hn' : σ'.inodes dir = some n') : n'.extra < 2 ^ 32 ∧
      ∃ n, σ.inodes dir = some n ∧ (n.extra : Int) + op.counts dir ≤ n'.extra := by
  have hsame : σ'.inodes dir = σ.inodes dir → op.counts dir = 0 → n'.extra < 2 ^ 32 ∧
      ∃ n, σ.inodes dir = some n ∧ (n.extra : Int) + op.counts dir ≤ n'.extra := by
    intro he hc
    rw [he] at hn'
    exact ⟨hlt n' hn', n', hn', by rw [hc]; omega⟩
  cases op with
  | updateFn id f =>
    cases h
    rw [Cluster.updateFn_inodes] at hn'
    by_cases he : id = dir
    · subst he
      rw [if_pos rfl, map_eq_some_iff] at hn'
      obtain ⟨n, hn, rfl⟩ := hn'
      obtain ⟨hle, hlt'⟩ := extra_apply (hlt n hn) fun hf => hinc (hf ▸ rfl) n hn
      exact ⟨hlt', n, hn, hle⟩
    · rw [if_neg (Ne.symm he)] at hn'
      refine ⟨hlt n' hn', n', hn', ?_⟩
      cases f <;> simp [Op.counts, he]
  | putInode id n =>
    cases h
    have hne : dir ≠ id := fun he => hput n (he ▸ rfl)
    exact hsame (update_of_ne hne _ _) rfl
  | deleteInode id =>
    cases h
    by_cases he : dir = id
    · rw [Cluster.setInode, he] at hn'
      simp at hn'
    · exact hsame (update_of_ne he _ _) rfl
  | log req =>
    cases h
    refine hsame ?_ rfl
    split <;> simp
  | undefined => cases h
  | _ =>
    cases h
    refine hsame ?_ rfl
    simp [Cluster.erase]

theorem counts_nonpos (h : op ≠ .updateFn dir .extraInc) : op.counts dir ≤ 0 := by
  cases op with
  | updateFn id f =>
    cases f with
    | extraInc =>
      have hne : id ≠ dir := fun he => h (he ▸ rfl)
      simp [Op.counts, hne]
    | extraDec =>
      simp only [Op.counts]
      split <;> decide
    | _ => exact Int.le_refl 0
  | _ => exact Int.le_refl 0

/-- The update that drops a link sees a live directory without entries. -/
theorem of_dropsLink (h : exec env srv th op σ = some (r, σ')) (hd : dropsLink dir ⟨op, r⟩ = true) :
    op = .updateFn dir (.unlink true) ∧ ∃ n, σ.inodes dir = some n ∧ n.extra = 0 := by
  unfold dropsLink at hd
  split at hd
  · rename_i id n he
    cases he
    simp only [Bool.and_eq_true, beq_iff_eq, Bool.not_eq_true'] at hd
    obtain ⟨rfl, hok⟩ := hd
    simp only [exec, Option.some.injEq, Prod.mk.injEq] at h
    refine ⟨rfl, n, h.1, ?_⟩
    simp only [unlinkError, if_true, Bool.or_eq_false_iff, decide_eq_false_iff_not] at hok
    omega
  · cases hd

end Exec

/-! ### The account of a directory -/

/-- What a call has added to `extra_` less what it has added to the entries. -/
def threadBalance (dir : Nat) : Thread Request Op Res Int → Int
  | .idle => 0
  | .active _ tr _ => balance dir tr

/-- The account, with `x` the balance of all calls. -/
structure Account (dir : Nat) (P : Calls) (x : Int) : Prop where
  total : Total (fun t => threadBalance dir (P.threads t)) x
  /-- before the directory is dropped -/
  kept : ¬Dropped dir P → ∀ n, P.shared.inodes dir = some n →
    n.extra < 2 ^ 32 ∧ (children P.shared.dirents dir : Int) + x ≤ n.extra
  /-- and afterwards -/
  dropped : Dropped dir P → (children P.shared.dirents dir : Int) + x ≤ 0

variable {dir : Nat} {P : Calls} {q : Request} {t : Nat}

theorem total_update {x : Int}
    (h : Total (fun t => threadBalance dir (P.threads t)) x) (t : Nat) (th : Thread Request Op Res Int) :
    Total (fun t' => threadBalance dir (update P.threads t th t'))
      (x + (threadBalance dir th - threadBalance dir (P.threads t))) := by
  have hfun : (fun t' => threadBalance dir (update P.threads t th t')) =
      update (fun t' => threadBalance dir (P.threads t')) t (threadBalance dir th) := by
    funext t'
    by_cases ht : t' = t
    · rw [ht, update_self, update_self]
    · rw [update_of_ne ht, update_of_ne ht]
  rw [hfun]
  exact h.update t (threadBalance dir th)

variable {tr : Trace}

/-- Who has dropped the directory after a call has gone on. -/
theorem dropped_update {p p' : M Int}
    {e : Prog.Event Op Res} {σ : Cluster} (hth : P.threads t = .active q tr p) :
    Dropped dir ⟨σ, update P.threads t (.active q (e :: tr) p')⟩ ↔
      Dropped dir P ∨ dropsLink dir e = true := by
  constructor
  · rintro ⟨t', q', tr', p'', hth', hd⟩
    by_cases ht : t' = t
    · subst ht
      simp only [update_self] at hth'
      cases hth'
      rw [Drops, any_cons, Bool.or_eq_true] at hd
      rcases hd with hd | hd
      · exact .inr hd
      · exact .inl ⟨t', q, tr, p, hth, hd⟩
    · simp only [update_of_ne ht] at hth'
      exact .inl ⟨t', q', tr', p'', hth', hd⟩
  · rintro (⟨t', q', tr', p'', hth', hd⟩ | hd)
    · by_cases ht : t' = t
      · subst ht
        rw [hth] at hth'
        cases hth'
        exact ⟨t', q, e :: tr, p', update_self .., by
          rw [Drops, any_cons, Bool.or_eq_true]
          exact .inr hd⟩
      · exact ⟨t', q', tr', p'', (update_of_ne ht _ _).trans hth', hd⟩
    · exact ⟨t, q, e :: tr, p', update_self .., by
        rw [Drops, any_cons, hd, Bool.true_or]⟩

namespace Account

variable {env : Env} {dir : Nat} {P P' : Calls} {x : Int} {a : PoolAct Request (Nat × Nat)}

/-- A call performs an operation that is in time. -/
theorem opStep (h : Account dir P x) {op : Op}
    {k : Res op → M Int} {r : Res op} {σ : Cluster} (hth : P.threads t = .active q tr (.call op k))
    (hx : exec env q.srv t op P.shared = some (r, σ)) (hok : OpInTime dir P op) :
    Account dir ⟨σ, update P.threads t (.active q (⟨op, r⟩ :: tr) (k r))⟩
      (x + op.weight dir) := by
  have hchildren : (children σ.dirents dir : Int) ≤ children P.shared.dirents dir + op.entries dir :=
    exec_children hx fun name he => by
      subst he
      exact hok rfl
  have hinc : op = .updateFn dir .extraInc → ¬Dropped dir P ∧
      ∀ n, P.shared.inodes dir = some n → n.extra + 1 < 2 ^ 32 := by
    rintro rfl
    exact hok rfl
  refine ⟨?_, fun hnot n' hn' => ?_, fun hd => ?_⟩
  · have := total_update h.total t (.active q (⟨op, r⟩ :: tr) (k r))
    rwa [hth, threadBalance, threadBalance, balance, add_sub_cancel_left] at this
  · rw [dropped_update hth, not_or] at hnot
    have hkept := h.kept hnot.1
    have hput : ∀ n, op ≠ .putInode dir n := by
      rintro n rfl
      exact hnot.1 (hok rfl)
    obtain ⟨hlt, n, hn, hle⟩ := exec_extra hx hput (fun n hn => (hkept n hn).1)
      (fun he => (hinc he).2) hn'
    have := (hkept n hn).2
    simp only [Op.weight]
    exact ⟨hlt, by omega⟩
  · by_cases hold : Dropped dir P
    · have hcounts : op.counts dir ≤ 0 := counts_nonpos fun he => (hinc he).1 hold
      have := h.dropped hold
      simp only [Op.weight]
      omega
    · -- this is the operation that drops the directory
      obtain ⟨rfl, n, hn, hzero⟩ := of_dropsLink hx (((dropped_update hth).mp hd).resolve_left hold)
      have := (h.kept hold n hn).2
      simp only [Op.weight, Op.counts, Op.entries] at hchildren ⊢
      omega

/-- **A step that is in time keeps the account.** -/
theorem step {start : Cluster → Prop} (h : Account dir P x) (hok : InTime dir P a)
    (hst : (concurrent env start).step P a = some P') : ∃ x', Account dir P' x' := by
  cases concurrent_rule hst with
  | @start t q hidle =>
    have hd : Dropped dir { P with
        threads := update P.threads t (.active q [] q.call.body) } → Dropped dir P := by
      rintro ⟨t', q', tr', p', hth, hdrop⟩
      by_cases ht : t' = t
      · subst ht
        simp only [update_self] at hth
        cases hth
        cases hdrop
      · exact ⟨t', q', tr', p', (update_of_ne ht _ _).symm.trans hth, hdrop⟩
    have hd' : Dropped dir P → Dropped dir { P with
        threads := update P.threads t (.active q [] q.call.body) } := by
      rintro ⟨t', q', tr', p', hth, hdrop⟩
      have ht : t' ≠ t := by
        rintro rfl
        rw [hidle] at hth
        cases hth
      exact ⟨t', q', tr', p', (update_of_ne ht _ _).trans hth, hdrop⟩
    refine ⟨x, ?_, fun hnot => h.kept fun hp => hnot (hd' hp), fun hdrop => h.dropped (hd hdrop)⟩
    have := total_update h.total t (.active q [] q.call.body)
    rwa [hidle, threadBalance, threadBalance, balance, Int.sub_zero, Int.add_zero] at this
  | @step t q tr op k r σ hth hx => exact ⟨_, h.opStep hth hx (hok q tr op k hth)⟩
  | @env e σ he =>
    have hsame : σ.dirents = P.shared.dirents ∧ σ.inodes = P.shared.inodes := by
      unfold checkpointStep at he
      split at he
      · cases he
        exact ⟨rfl, rfl⟩
      · cases he
    refine ⟨x, h.total, fun hnot n hn => ?_, fun hd => ?_⟩
    · rw [hsame.1]
      exact h.kept hnot n (hsame.2 ▸ hn)
    · rw [hsame.1]
      exact h.dropped hd

end Account

/-- The call has not started or has returned. -/
def returned : Thread Request Op Res Int → Bool
  | .active _ _ (.call _ _) => false
  | _ => true

theorem all_returned {n : Nat} {P : Calls} (h : P.Below n)
    (hret : ((List.range n).all fun t => returned (P.threads t)) = true) (t : Nat) :
    returned (P.threads t) = true :=
  h.all (p := fun th => returned th = true) rfl
    (fun t ht => List.all_eq_true.mp hret t (List.mem_range.mpr ht)) t

theorem threadBalance_of_returned
    (hmeets : P.Meets InsertsMissed CallDone) (h : returned (P.threads t) = true) :
    threadBalance dir (P.threads t) = 0 := by
  cases hth : P.threads t with
  | idle => rfl
  | active q tr p =>
    cases p with
    | pure a => exact (hmeets t q tr _ hth).1 dir
    | call op k =>
      rw [hth] at h
      cases h

/-- **`Rmdir` leaves no orphans**: when all calls have returned, the directory it removed has no
entries, if no call was late. -/
theorem no_orphans {env : Env} {start : Cluster → Prop} {dir : Nat}
    (hstart : ∀ σ, start σ → ∀ n, σ.inodes dir = some n →
      n.extra < 2 ^ 32 ∧ children σ.dirents dir ≤ n.extra)
    {P : Calls} (h : (concurrent env start).Reach (InTime dir) P) {t srv : Nat} {path : Name}
    {tr : Trace} (hrm : P.threads t = .active ⟨srv, .rmdir path⟩ tr (.pure 0)) (hdir : Drops dir tr)
    (hall : ∀ t, returned (P.threads t) = true) : ∀ d ∈ P.shared.dirents, d.pid ≠ dir := by
  obtain ⟨x, hacc⟩ : ∃ x, Account dir P x := by
    refine h.invariant (I := fun P => ∃ x, Account dir P x) ?_ ?_
    · rintro P ⟨hs, hidle⟩
      refine ⟨0, .of_zero fun t => by rw [hidle t]; rfl, fun _ n hn => ?_, ?_⟩
      · have := hstart _ hs n hn
        exact ⟨this.1, by omega⟩
      · rintro ⟨t, q, tr, p, hth, -⟩
        rw [hidle t] at hth
        cases hth
    · rintro P a P' - ⟨x, hx⟩ hok hst
      exact hx.step hok hst
  have hzero : x = 0 := hacc.total.eq_zero fun t =>
    threadBalance_of_returned (concurrent_meets h) (hall t)
  have hnone := hacc.dropped ⟨t, _, tr, _, hrm, hdir⟩
  intro d hd hpid
  have hpos : 0 < children P.shared.dirents dir :=
    countP_pos_iff.mpr ⟨d, hd, by simpa using hpid⟩
  omega

/-- What a call that has returned did, and whether it dropped directory `dir`. -/
def outcome (dir : Nat) : Thread Request Op Res Int → Option (Request × Int × Bool)
  | .active q tr (.pure r) => some (q, r, tr.any (dropsLink dir))
  | _ => none

theorem of_outcome {th : Thread Request Op Res Int} {r : Int}
    (h : outcome dir th = some (q, r, true)) : ∃ tr, th = .active q tr (.pure r) ∧ Drops dir tr := by
  unfold outcome at h
  split at h
  · simp only [Option.some.injEq, Prod.mk.injEq] at h
    obtain ⟨rfl, rfl, hd⟩ := h
    exact ⟨_, rfl, hd⟩
  · cases h

/-- `/d` exists and is empty. -/
def madeD : Cluster :=
  ((sequential steadyEnv).step freshCluster (.call (.mkdir pathD 0o755 0 0))).getD freshCluster

/-- A test for `InTime` among the calls below `n`, for operations that do not replace the directory's
inode. -/
def inTime (dir n : Nat) (P : Calls) : PoolAct Request (Nat × Nat) → Bool
  | .step t =>
    match P.threads t with
    | .active _ _ (.call (.updateFn id .extraInc) _) => id != dir ||
        (P.shared.inodes dir).all (fun n => decide (n.extra + 1 < 2 ^ 32)) &&
          (List.range n).all fun t' => match P.threads t' with
            | .active _ tr _ => !tr.any (dropsLink dir)
            | .idle => true
    | .active _ _ (.call (.eraseDirent pid name) _) => pid != dir || (P.shared.find dir name).isSome
    | .active _ _ (.call (.putInode id _) _) => id != dir
    | _ => true
  | _ => true

theorem inTime_of_test {n : Nat} (P : Calls) (a : PoolAct Request (Nat × Nat)) (hP : P.Below n)
    (h : inTime dir n P a = true) : InTime dir P a := by
  cases a with
  | step t =>
    intro q tr op k hth
    simp only [inTime, hth] at h
    cases op with
    | updateFn id f =>
      cases f with
      | extraInc =>
        rintro rfl
        simp only [bne_self_eq_false, Bool.false_or, Bool.and_eq_true, List.all_eq_true,
          List.mem_range] at h
        refine ⟨?_, fun n hn => ?_⟩
        · rintro ⟨t', q', tr', p', hth', hdrop⟩
          have hnot := h.2 t' (hP.lt hth')
          simp only [hth', Drops.eq_1 .. ▸ hdrop] at hnot
          cases hnot
        · rw [hn] at h
          exact of_decide_eq_true h.1
      | _ => trivial
    | eraseDirent pid name =>
      rintro rfl
      simpa using h
    | putInode id n => exact fun he => absurd he (by simpa using h)
    | _ => trivial
  | _ => trivial

/-- `Rmdir` of `/d` has found the directory when `/d/x` is created and unlinked by other calls; it
drops the directory before the `Unlink` has erased its entry. -/
def rmdirAndUnlink : List (PoolAct Request (Nat × Nat)) :=
  [.start 0 ⟨0, .rmdir pathD⟩, .start 1 ⟨1, .create pathDX 0o644 0 0⟩,
    .start 2 ⟨1, .unlink pathDX⟩, .step 0] ++ List.replicate 7 (.step 1) ++
    List.replicate 5 (.step 2) ++ List.replicate 6 (.step 0) ++ List.replicate 3 (.step 2)

/-- `Rmdir` next to calls in the directory it removes: the condition is met. -/
theorem no_orphans_rmdirAndUnlink :
    ∃ P t tr, (concurrent steadyEnv (· = madeD)).Reach (InTime 3) P ∧
      P.threads t = .active ⟨0, .rmdir pathD⟩ tr (.pure 0) ∧ Drops 3 tr ∧
      ∀ d ∈ P.shared.dirents, d.pid ≠ 3 := by
  have hrun : ((concurrent steadyEnv (· = madeD)).runChecked
      (fun P a => a.below 3 && inTime 3 3 P a) rmdirAndUnlink ⟨madeD, fun _ => .idle⟩).map
      (fun P => (outcome 3 (P.threads 0), (List.range 3).all fun t => returned (P.threads t))) =
      some (some (⟨0, .rmdir pathD⟩, 0, true), true) := by
    decide +kernel
  obtain ⟨P, hreach, hbelow, hout⟩ := exists_reach_below hrun rfl inTime_of_test
  obtain ⟨hrm, hret⟩ := Prod.mk.injEq .. ▸ hout
  obtain ⟨tr, hth, hdrop⟩ := of_outcome hrm
  have hstart : ∀ σ, σ = madeD → ∀ n, σ.inodes 3 = some n →
      n.extra < 2 ^ 32 ∧ children σ.dirents 3 ≤ n.extra := by
    rintro σ rfl n hn
    have : (madeD.inodes 3).map Inode.extra = some 0 ∧ children madeD.dirents 3 = 0 := by
      decide +kernel
    rw [hn, map_some, Option.some.injEq] at this
    omega
  have hall := all_returned hbelow hret
  exact ⟨P, 0, tr, hreach, hth, hdrop, no_orphans hstart hreach hth hdrop hall⟩

/-- `/d` is made; then a `Create` of `/d/x` resolves the directory, `Rmdir` removes it, and the
`Create` goes on. -/
def lateCreate : List (PoolAct Request (Nat × Nat)) :=
  .start 0 ⟨0, .mkdir pathD 0o755 0 0⟩ :: List.replicate 6 (.step 0) ++
    [.start 1 ⟨0, .create pathDX 0o644 0 0⟩, .step 1, .step 1, .start 2 ⟨0, .rmdir pathD⟩] ++
    List.replicate 7 (.step 2) ++ List.replicate 5 (.step 1)

/-- **`Rmdir` can leave an orphan**: all calls have returned, `Rmdir` with success, and an entry
stands in the directory it removed. -/
theorem late_create_orphaned :
    ∃ P t tr dir, (concurrent steadyEnv Cluster.Initial).Reach (fun _ _ => True) P ∧
      P.threads t = .active ⟨0, .rmdir pathD⟩ tr (.pure 0) ∧ Drops dir tr ∧
      (∀ t, returned (P.threads t) = true) ∧ ∃ d ∈ P.shared.dirents, d.pid = dir := by
  have hrun : ((concurrent steadyEnv Cluster.Initial).runChecked (fun _ a => a.below 3 && true)
      lateCreate freshCalls).map (fun P => (outcome 3 (P.threads 2),
        (List.range 3).all fun t => returned (P.threads t), P.shared.dirents.any (·.pid == 3))) =
      some (some (⟨0, .rmdir pathD⟩, 0, true), true, true) := by
    decide +kernel
  obtain ⟨P, hreach, hbelow, hout⟩ := exists_reach_below hrun ⟨_, _, rfl⟩ fun _ _ _ _ => trivial
  simp only [Prod.mk.injEq] at hout
  obtain ⟨hrm, hret, horphan⟩ := hout
  obtain ⟨tr, hth, hdrop⟩ := of_outcome hrm
  obtain ⟨d, hd, hpid⟩ := List.any_eq_true.mp horphan
  exact ⟨P, 2, tr, 3, hreach, hth, hdrop, all_returned hbelow hret, d, hd, by simpa using hpid⟩

end StaxFS.Metadata
