import StaxFS.Table.Effect
import StaxFS.Table.Protocol

/-!
# The two-level hash table: at most one call holds a bucket

Any number of calls on any number of servers, interleaved operation by operation (`calls`); the
history records who did what. A call holds a bucket from its successful lock compare-and-swap to the
header it writes (`held`).

A waiter that runs out of turns clears the lock of a holder that is still at work, and from then on
two calls can hold the bucket (`cleared_lock_shared`). And the version of a header has seven bits: a
call that reads a header and is overtaken by 128 commits locks the bucket with a stale copy. Without
these two (`LocksRespected`) the lock excludes, and a header is only ever written over the header its
writer has read.

The invariant of a bucket compares the header with every header read in the past (`Since`): the
version counts the commits in between, and with no commit in between the fingerprints are the same.

Results:
* `BucketInv.step`: the invariant, one operation at a time.
* `bucket_exclusive`: **a bucket is held by at most one call, and nothing committed is overwritten by
  a stale header.**
* `cleared_lock_shared`: two calls hold a bucket after a forced clear.
* `locks_released`: a call ends without a lock.
-/

namespace StaxFS.Table

open Foundation Foundation.Prog List Option

variable {K L : Type} [Inhabited L] {e : Event (Op L) Res} {expected : Word}

/-- A call: the table object of its server and the operation. -/
abbrev TableCall (K L : Type) : Type := Config K L × Request K L

/-- The states of any number of calls on a shared table, with their history. -/
abbrev Calls (K L : Type) : Type :=
  Pool (TableCall K L) (Op L) Res (Option (L × L)) (State L × History (Op L) Res)

/-- Public operations of any servers on one shared table, interleaved operation by operation. -/
def calls (E : Env) : System (Calls K L) (PoolAct (TableCall K L) Empty) :=
  recorded (fun c => body c.1 c.2) (fun _ c op => exec E c.1.srv op) (fun e _ => nomatch e)
    fun σ => ∃ n, σ = State.init n

/-! ### Events on a bucket -/

variable {keys : Header} {srv : Nat}

section Events

omit [Inhabited L]

/-- The lock of `a` is taken. -/
def isLock (a : Addr) : Event (Op L) Res → Bool
  | ⟨.casHeader a' expected _, r⟩ => a' = a && r && !expected.dirty
  | _ => false

/-- The lock of `a` is cleared by force. -/
def isClear (a : Addr) : Event (Op L) Res → Bool
  | ⟨.casHeader a' expected _, r⟩ => a' = a && r && expected.dirty
  | _ => false

/-- A commit or an unlock of `a`. -/
def isCommit (a : Addr) : Event (Op L) Res → Bool
  | ⟨.writeHeader a' _, _⟩ => a' = a
  | _ => false

/-- A line of `a` is written. -/
def isLineWrite (a : Addr) : Event (Op L) Res → Bool
  | ⟨.writeLine a' _ _ _, _⟩ => a' = a
  | _ => false

/-- Call `t` reads the header of `a`. -/
def isReadBy (t : Nat) (a : Addr) : Nat × Event (Op L) Res → Bool
  | (u, ⟨.readHeader a', _⟩) => u = t && a' = a
  | _ => false

/-- The commits and unlocks of `a` in a history. -/
def commits (a : Addr) (hist : History (Op L) Res) : Nat := hist.countP fun e => isCommit a e.2

/-- The commits and unlocks of `a` since call `t` has last read its header. -/
def sinceRead (t : Nat) (a : Addr) (hist : History (Op L) Res) : Nat :=
  commits a (hist.takeWhile fun e => !isReadBy t a e)

theorem held_cons (a : Addr) (e : Event (Op L) Res) (tr : Trace L) : held a (e :: tr) =
      if isLock a e then lastRead a tr else if isCommit a e then none else held a tr := by
  obtain ⟨op, r⟩ := e
  cases op with
  | casHeader a' expected desired => simp [held, isLock, isCommit, and_assoc]
  | writeHeader a' keys => simp [held, isLock, isCommit]
  | _ => rfl

variable {a : Addr} {t : Nat}

theorem lastRead_split : ∀ {hist : History (Op L) Res}, lastRead a (eventsOf t hist) = some keys →
      ∃ older, hist = (hist.takeWhile fun e => !isReadBy t a e) ++
        (t, ⟨.readHeader a, keys⟩) :: older
  | [], h => nomatch h
  | (u, e) :: hist, h => by
    by_cases hread : isReadBy t a (u, e) = true
    · obtain ⟨op, r⟩ := e
      cases op with
      | readHeader a' =>
        simp only [isReadBy, Bool.and_eq_true, decide_eq_true_eq] at hread
        obtain ⟨rfl, rfl⟩ := hread
        rw [eventsOf_cons_self] at h
        simp only [lastRead, if_true, Option.some.injEq] at h
        subst h
        exact ⟨hist, by simp [isReadBy]⟩
      | _ => cases hread
    · have hrest : lastRead a (eventsOf t hist) = some keys := by
        by_cases hu : u = t
        · subst hu
          rw [eventsOf_cons_self] at h
          obtain ⟨op, r⟩ := e
          cases op with
          | readHeader a' =>
            have hne : a' ≠ a := by simpa [isReadBy] using hread
            simpa [lastRead, hne] using h
          | _ => exact h
        · rwa [eventsOf_cons_of_ne hu] at h
      obtain ⟨older, hold⟩ := lastRead_split hrest
      refine ⟨older, ?_⟩
      rw [takeWhile_cons_of_pos (by simpa using hread), cons_append, ← hold]

/-! ### What an operation does to a bucket -/

/-- The bucket `a` after an event. -/
def Bucket.after (a : Addr) : Event (Op L) Res → Bucket L → Bucket L
  | ⟨.casHeader a' _ desired, r⟩, b =>
    if a' = a ∧ r = true then { b with header := b.header.setWord desired } else b
  | ⟨.writeHeader a' keys, _⟩, b => if a' = a then { b with header := keys } else b
  | ⟨.writeLine a' s second x, _⟩, b =>
    if a' = a then
      { b with lines := Function.update b.lines s (Function.update (b.lines s) second x) }
    else b
  | _, b => b

/-- Only taking, clearing or releasing the lock changes the header. -/
theorem header_after (hl : isLock a e = false)
    (hc : isClear a e = false) (hw : isCommit a e = false) (b : Bucket L) :
    (b.after a e).header = b.header := by
  obtain ⟨op, r⟩ := e
  cases op with
  | casHeader a' expected desired =>
    have hno : ¬(a' = a ∧ r = true) := by
      rintro ⟨rfl, rfl⟩
      simp only [isLock, isClear, decide_true, Bool.true_and] at hl hc
      simp [hc] at hl
    simp [Bucket.after, hno]
  | writeHeader a' keys =>
    have hno : a' ≠ a := by simpa [isCommit] using hw
    simp [Bucket.after, hno]
  | writeLine a' s second x =>
    simp only [Bucket.after]
    split <;> rfl
  | _ => rfl

/-- Only a write of a line changes the lines. -/
theorem lines_after (h : isLineWrite a e = false)
    (b : Bucket L) : (b.after a e).lines = b.lines := by
  obtain ⟨op, r⟩ := e
  cases op with
  | writeLine a' s second x =>
    have hno : a' ≠ a := by simpa [isLineWrite] using h
    simp [Bucket.after, hno]
  | casHeader a' expected desired | writeHeader a' keys => simp only [Bucket.after]; split <;> rfl
  | _ => rfl

/-! ### A header and the headers read before -/

/-- The version of the last commit: a locked header is one ahead of it. -/
def Header.committed (h : Header) : Nat := if h.dirty then (h.version + 127) % 128 else h.version

/-- The header after an event, in terms of the header before it: a commit counts, and only a commit
changes the fingerprints; an unlocked header was unlocked before, and no line was written. -/
structure HeaderStep (a : Addr) (now now' : Header) (e : Event (Op L) Res) : Prop where
  version : now'.committed = (now.committed + if isCommit a e then 1 else 0) % 128
  fp : isCommit a e = false → now'.fp = now.fp
  quiet : isCommit a e = false → now'.dirty = false → now.dirty = false ∧ isLineWrite a e = false

/-- The header `now` against a header `keys` read before the events `newer`. -/
structure Since (a : Addr) (now keys : Header) (newer : History (Op L) Res) : Prop where
  bound : keys.committed < 128
  first : newer = [] → now = keys
  version : now.committed = (keys.committed + commits a newer) % 128
  fp : commits a newer = 0 → now.fp = keys.fp
  quiet : commits a newer = 0 → now.dirty = false → ∀ e ∈ newer, isLineWrite a e.2 = false

theorem commits_cons (a : Addr) (x : Nat × Event (Op L) Res) (hist : History (Op L) Res) :
    commits a (x :: hist) = commits a hist + if isCommit a x.2 then 1 else 0 :=
  countP_cons

variable {newer : History (Op L) Res}

theorem Since.step {now now' : Header}
    {x : Nat × Event (Op L) Res} (h : Since a now keys newer) (hs : HeaderStep a now now' x.2) :
    Since a now' keys (x :: newer) := by
  have hzero : commits a (x :: newer) = 0 → commits a newer = 0 ∧ isCommit a x.2 = false := by
    rw [commits_cons]
    cases isCommit a x.2 <;> simp
  refine ⟨h.bound, nofun, ?_, fun h0 => ?_, fun h0 hd => ?_⟩
  · rw [hs.version, h.version, commits_cons, Nat.mod_add_mod, Nat.add_assoc]
  · obtain ⟨h0, hx⟩ := hzero h0
    exact (hs.fp hx).trans (h.fp h0)
  · obtain ⟨h0, hx⟩ := hzero h0
    obtain ⟨hd', hline⟩ := hs.quiet hx hd
    exact forall_mem_cons.mpr ⟨hline, h.quiet h0 hd'⟩

/-- **Seven bits suffice for fewer than 128 commits**: a header whose word is the word read is the
header read. -/
theorem Since.eq_of_word {now : Header}
    (h : Since a now keys newer) (hword : now.word = keys.word) (hd : keys.dirty = false)
    (hlt : commits a newer < 128) : commits a newer = 0 ∧ now = keys := by
  obtain ⟨nd, nv, nfp⟩ := now
  obtain ⟨kd, kv, kfp⟩ := keys
  simp only [Header.word, Word.mk.injEq] at hword
  obtain ⟨rfl, rfl, -⟩ := hword
  obtain rfl : nd = false := hd
  have hv := h.version
  have hb := h.bound
  simp only [Header.committed, Bool.false_eq_true, if_false] at hv hb
  have h0 : commits a newer = 0 := by omega
  refine ⟨h0, ?_⟩
  have hfp := h.fp h0
  simp only at hfp
  rw [hfp]

end Events

variable {op : Op L} {r : Res op}

theorem bucket_exec {E : Env} {σ σ' : State L} (h : exec E srv op σ = some (r, σ')) (a : Addr) :
    σ'.bucket a = (σ.bucket a).after a ⟨op, r⟩ := by
  cases op with
  | casHeader a' expected desired =>
    simp only [exec] at h
    split at h <;> cases h
    · rw [State.bucket_setBucket]
      by_cases ha : a' = a
      · subst ha
        simp [Bucket.after]
      · simp [Bucket.after, ha]
    · simp [Bucket.after]
  | writeHeader a' keys | writeLine a' s second x =>
    cases h
    rw [State.bucket_setBucket]
    by_cases ha : a' = a
    · subst ha
      simp [Bucket.after]
    · simp [Bucket.after, ha]
  | casCtrl expected desired | casBegun expected desired =>
    simp only [exec] at h; split at h <;> cases h <;> rfl
  | advanceCursor i =>
    cases h
    split <;> rfl
  | spin => cases h
  | _ => cases h; rfl

/-! ### The invariant of a bucket -/

/-- What holds of bucket `a`. -/
structure BucketInv (P : Calls K L) (a : Addr) : Prop where
  version : (P.shared.1.bucket a).header.version < 128
  locked : ∀ t keys, held a (P.trace t) = some keys →
    (P.shared.1.bucket a).header = ⟨true, nextVersion keys.version, keys.fp⟩
  one : ∀ t u, held a (P.trace t) ≠ none → held a (P.trace u) ≠ none → t = u
  free : (∀ t, held a (P.trace t) = none) → (P.shared.1.bucket a).header.dirty = false
  since : ∀ newer t keys older, P.shared.2 = newer ++ (t, ⟨.readHeader a, keys⟩) :: older →
    Since a (P.shared.1.bucket a).header keys newer
  lines : ∀ newer t s second x older,
    P.shared.2 = newer ++ (t, ⟨.readLine a s second, x⟩) :: older →
    (∀ e ∈ newer, isLineWrite a e.2 = false) → (P.shared.1.bucket a).lines s second = x

variable {P : Calls K L}

theorem BucketInv.dirty_of_held (h : BucketInv P a)
    (ht : held a (P.trace t) ≠ none) : (P.shared.1.bucket a).header.dirty = true := by
  obtain ⟨keys, hk⟩ := ne_none_iff_exists'.mp ht
  rw [h.locked t keys hk]

theorem BucketInv.free_of_unlocked (h : BucketInv P a)
    (hd : (P.shared.1.bucket a).header.dirty = false) (t : Nat) : held a (P.trace t) = none := by
  by_contra ht
  rw [h.dirty_of_held ht] at hd
  cases hd

theorem Header.committed_lt {h : Header} (hv : h.version < 128) : h.committed < 128 := by
  unfold Header.committed
  split
  · exact Nat.mod_lt _ (by decide)
  · exact hv

theorem nextVersion_lt (v : Nat) : nextVersion v < 128 := Nat.mod_lt _ (by decide)

section Step

variable {E : Env} {P : Calls K L} {a : Addr} {t : Nat} {c : TableCall K L} {tr : Trace L}
  {op : Op L} {k : Res op → M L (Option (L × L))} {r : Res op} {σ' : State L}

/-- The state after an operation of call `t`. -/
def Moved (P : Calls K L) (t : Nat) (c : TableCall K L) (tr : Trace L) (op : Op L) (r : Res op)
    (p : M L (Option (L × L))) (σ' : State L) : Calls K L :=
  { shared := (σ', (t, ⟨op, r⟩) :: P.shared.2)
    threads := Function.update P.threads t (.active c (⟨op, r⟩ :: tr) p) }

omit [Inhabited L] in
theorem trace_moved (P : Calls K L) (t u : Nat) (c : TableCall K L) (tr : Trace L) (op : Op L)
    (r : Res op) (p : M L (Option (L × L))) (σ' : State L) :
    (Moved P t c tr op r p σ').trace u = if u = t then ⟨op, r⟩ :: tr else P.trace u :=
  Pool.trace_update _ _ _ _ _ _ _

/-- What is left to show for one operation: how it changes the header, and who holds the bucket. -/
theorem BucketInv.moved (h : BucketInv P a) (hx : exec E c.1.srv op P.shared.1 = some (r, σ'))
    (hs : HeaderStep a (P.shared.1.bucket a).header (σ'.bucket a).header ⟨op, r⟩)
    (hv : (σ'.bucket a).header.version < 128)
    (hlocked : ∀ u keys, held a ((Moved P t c tr op r (k r) σ').trace u) = some keys →
      (σ'.bucket a).header = ⟨true, nextVersion keys.version, keys.fp⟩)
    (hone : ∀ u u', held a ((Moved P t c tr op r (k r) σ').trace u) ≠ none →
      held a ((Moved P t c tr op r (k r) σ').trace u') ≠ none → u = u')
    (hfree : (∀ u, held a ((Moved P t c tr op r (k r) σ').trace u) = none) →
      (σ'.bucket a).header.dirty = false) : BucketInv (Moved P t c tr op r (k r) σ') a := by
  refine ⟨hv, hlocked, hone, hfree, fun newer u keys older hsplit => ?_,
    fun newer u s second x older hsplit hquiet => ?_⟩
  · cases newer with
    | nil =>
      -- the header was read just now
      obtain ⟨he, -⟩ := List.cons.inj hsplit
      cases he
      cases hx
      exact ⟨Header.committed_lt hv, fun _ => rfl,
        (Nat.mod_eq_of_lt (Header.committed_lt hv)).symm, fun _ => rfl, fun _ _ => nofun⟩
    | cons y newer =>
      obtain ⟨rfl, hrest⟩ := List.cons.inj hsplit
      exact (h.since newer u keys older hrest).step hs
  · cases newer with
    | nil =>
      obtain ⟨he, -⟩ := List.cons.inj hsplit
      cases he
      cases hx
      rfl
    | cons y newer =>
      obtain ⟨rfl, hrest⟩ := List.cons.inj hsplit
      rw [forall_mem_cons] at hquiet
      change (σ'.bucket a).lines s second = x
      rw [bucket_exec hx, lines_after hquiet.1]
      exact h.lines newer u s second x older hrest hquiet.2

/-- An operation that leaves the lock of `a` alone. -/
theorem BucketInv.quiet (h : BucketInv P a) (hth : P.trace t = tr)
    (hx : exec E c.1.srv op P.shared.1 = some (r, σ'))
    (hl : isLock a (⟨op, r⟩ : Event (Op L) Res) = false)
    (hcl : isClear a (⟨op, r⟩ : Event (Op L) Res) = false)
    (hw : isCommit a (⟨op, r⟩ : Event (Op L) Res) = false)
    (hline : isLineWrite a (⟨op, r⟩ : Event (Op L) Res) = true → held a tr ≠ none) :
    BucketInv (Moved P t c tr op r (k r) σ') a := by
  have hsame : (σ'.bucket a).header = (P.shared.1.bucket a).header := by
    rw [bucket_exec hx, header_after hl hcl hw]
  have hheld : ∀ u, held a ((Moved P t c tr op r (k r) σ').trace u) = held a (P.trace u) := by
    intro u
    rw [trace_moved]
    split
    · next hu =>
      subst hu
      rw [held_cons, hl, hw, hth]
      rfl
    · rfl
  refine h.moved hx ⟨?_, fun _ => by rw [hsame], fun _ hd => ?_⟩ (hsame ▸ h.version)
    (fun u keys hu => ?_) (fun u u' hu hu' => ?_) (fun hall => ?_)
  · rw [hw, hsame]
    exact (Nat.mod_eq_of_lt (Header.committed_lt h.version)).symm
  · rw [hsame] at hd
    refine ⟨hd, ?_⟩
    by_contra hl'
    have hheld := hline (by simpa using hl')
    rw [← hth] at hheld
    rw [h.dirty_of_held hheld] at hd
    cases hd
  · rw [hheld] at hu
    rw [hsame]
    exact h.locked u keys hu
  · rw [hheld] at hu hu'
    exact h.one u u' hu hu'
  · rw [hsame]
    exact h.free fun u => (hheld u).symm.trans (hall u)

/-- The lock of `a` is taken with the header that is there. -/
theorem BucketInv.lock (h : BucketInv P a)
    (hx : exec E c.1.srv (.casHeader a expected (makeLocked expected)) P.shared.1 =
      some (true, σ'))
    (hd : expected.dirty = false) (hread : lastRead a tr = some (P.shared.1.bucket a).header)
    (hword : (P.shared.1.bucket a).header.word = expected) (k : Bool → M L (Option (L × L))) :
    BucketInv (Moved P t c tr (.casHeader a expected (makeLocked expected)) true (k true) σ') a := by
  have hnow : (P.shared.1.bucket a).header.dirty = false := by
    rw [← hd, ← hword]
    rfl
  have hnew : (σ'.bucket a).header = ⟨true, nextVersion (P.shared.1.bucket a).header.version,
      (P.shared.1.bucket a).header.fp⟩ := by
    rw [bucket_exec hx, ← hword]
    simp [Bucket.after, Header.setWord, makeLocked, Header.word]
  have hheld : ∀ u, held a ((Moved P t c tr (.casHeader a expected (makeLocked expected)) true
      (k true) σ').trace u) =
        if u = t then some (P.shared.1.bucket a).header else none := by
    intro u
    rw [trace_moved]
    split
    · rw [held_cons, if_pos (by simp [isLock, hd]), hread]
    · exact h.free_of_unlocked hnow u
  refine h.moved hx ⟨?_, fun _ => by rw [hnew], fun _ hd' => ?_⟩ ?_ (fun u keys hu => ?_)
    (fun u u' hu hu' => ?_) (fun hall => ?_)
  · have hv := h.version
    rw [hnew]
    simp only [Header.committed, hnow, if_true, Bool.false_eq_true, if_false, isCommit,
      nextVersion, kVersionBits]
    omega
  · rw [hnew] at hd'
    cases hd'
  · rw [hnew]
    exact nextVersion_lt _
  · rw [hheld] at hu
    split at hu
    · cases hu
      exact hnew
    · cases hu
  · rw [hheld] at hu hu'
    have hu : u = t := by
      by_contra hne
      exact hu (if_neg hne)
    have hu' : u' = t := by
      by_contra hne
      exact hu' (if_neg hne)
    rw [hu, hu']
  · have := hall t
    rw [hheld, if_pos rfl] at this
    cases this

/-- The holder of `a` releases the lock. -/
theorem BucketInv.release {fp : Slot → Nat} (h : BucketInv P a)
    (hth : P.trace t = tr) (hheld : held a tr = some keys)
    (hx : exec E c.1.srv (.writeHeader a (keys.unlocked fp)) P.shared.1 = some ((), σ'))
    (k : Unit → M L (Option (L × L))) :
    BucketInv (Moved P t c tr (.writeHeader a (keys.unlocked fp)) () (k ()) σ') a := by
  have hnow := h.locked t keys (hth ▸ hheld)
  have hnew : (σ'.bucket a).header = keys.unlocked fp := by
    rw [bucket_exec hx]
    simp [Bucket.after]
  have hnone : ∀ u, held a ((Moved P t c tr (.writeHeader a (keys.unlocked fp)) () (k ())
      σ').trace u) = none := by
    intro u
    rw [trace_moved]
    split
    · rw [held_cons]
      simp [isLock, isCommit]
    · next hu =>
      by_contra hne
      exact hu (h.one u t hne (by rw [hth, hheld]; nofun))
  refine h.moved hx ⟨?_, fun hw => ?_, fun hw => ?_⟩ ?_ (fun u keys hu => ?_)
    (fun u u' hu _ => absurd (hnone u) hu) (fun _ => ?_)
  · rw [hnow, hnew]
    simp only [Header.committed, Header.unlocked, if_true, Bool.false_eq_true, if_false, isCommit,
      decide_true, nextVersion, kVersionBits]
    omega
  · simp [isCommit] at hw
  · simp [isCommit] at hw
  · rw [hnew]
    exact nextVersion_lt _
  · rw [hnone] at hu
    cases hu
  · rw [hnew]
    rfl

end Step

/-! ### Every operation -/

/-- What holds in every state: the calls follow the discipline, and every bucket has its
invariant. -/
structure CallsInv (P : Calls K L) : Prop where
  ordered : Ordered P
  meets : P.Meets Obeys fun _ _ _ => True
  consistent : ∀ t, Consistent (P.trace t)
  bucket : ∀ a, BucketInv P a

/-- The compare-and-swaps of a step: no lock is cleared by force, and a lock is taken fewer than 128
commits after its header was read. -/
def ValidLocks (P : Calls K L) (act : PoolAct (TableCall K L) Empty) : Prop :=
  ∀ t c tr a expected desired k, act = .step t →
    P.threads t = .active c tr (.call (.casHeader a expected desired) k) →
    (expected.dirty = true → (P.shared.1.bucket a).header.word ≠ expected) ∧
    (expected.dirty = false → sinceRead t a P.shared.2 < 128)

section CallsInv

variable {E : Env} {P P' : Calls K L} {act : PoolAct (TableCall K L) Empty} {desired : Word}

variable {tr : Trace L} {c : TableCall K L}

/-- **A lock is taken with the header that is there.** -/
theorem CallsInv.lastRead_of_lock (h : CallsInv P) {k : Bool → M L (Option (L × L))}
    (hth : P.threads t = .active c tr (.call (.casHeader a expected desired) k))
    (hd : expected.dirty = false) (hword : (P.shared.1.bucket a).header.word = expected)
    (hlt : sinceRead t a P.shared.2 < 128) :
    lastRead a tr = some (P.shared.1.bucket a).header ∧ desired = makeLocked expected := by
  obtain ⟨keys, hread, hexp, hdes⟩ := (h.meets t c tr _ hth).1.2
  have hdk : keys.dirty = false := by
    rw [← hd, hexp]
    rfl
  have hev : lastRead a (eventsOf t P.shared.2) = some keys := by
    rw [h.ordered t, Pool.trace_of_active hth, hread]
  obtain ⟨older, hsplit⟩ := lastRead_split hev
  have hnow := ((h.bucket a).since _ t keys older hsplit).eq_of_word (hword.trans hexp) hdk hlt
  rw [hread, hnow.2]
  exact ⟨rfl, by rw [hdes, if_neg (by simp [hdk])]⟩

omit [Inhabited L] in
theorem consistent_cons (h : Consistent tr)
    (hl : ∀ a, isLock a e = true → held a tr = none) : Consistent (e :: tr) := by
  obtain ⟨op, r⟩ := e
  cases op with
  | casHeader a expected desired => exact ⟨fun hr hd => hl a (by simp [isLock, hr, hd]), h⟩
  | _ => exact h

theorem word_of_cas {σ σ' : State L}
    (hx : exec E srv (.casHeader a expected desired) σ = some (true, σ')) :
    (σ.bucket a).header.word = expected := by
  simp only [exec] at hx
  split at hx
  · assumption
  · cases hx

variable {k : Res op → M L (Option (L × L))}

/-- Only a commit changes fingerprints. -/
theorem fp_of_not_commit {σ' : State L} (hmeets : P.Meets Obeys fun _ _ _ => True)
    (hth : P.threads t = .active c tr (.call op k))
    (hx : exec E c.1.srv op P.shared.1 = some (r, σ'))
    (hw : isCommit a (⟨op, r⟩ : Event (Op L) Res) = false) :
    (σ'.bucket a).header.fp = (P.shared.1.bucket a).header.fp := by
  have hobeys := (hmeets t c tr _ hth).1.2
  rw [bucket_exec hx]
  cases op with
  | casHeader a' expected desired =>
    simp only [Bucket.after]
    split
    · next hc =>
      obtain ⟨rfl, rfl⟩ := hc
      have hword := word_of_cas hx
      obtain ⟨keys, -, -, hdes⟩ := hobeys
      have hfp : desired.fp = (P.shared.1.bucket a').header.fp 0 := by
        rw [hdes, ← hword]
        split <;> rfl
      simp only [Header.setWord, hfp, Function.update_eq_self]
    · rfl
  | writeHeader a' keys =>
    have hne : a' ≠ a := by simpa [isCommit] using hw
    simp [Bucket.after, hne]
  | writeLine a' s second x =>
    simp only [Bucket.after]
    split <;> rfl
  | _ => rfl

theorem CallsInv.moved (h : CallsInv P) {σ' : State L}
    (hth : P.threads t = .active c tr (.call op k))
    (hx : exec E c.1.srv op P.shared.1 = some (r, σ')) (hok : ValidLocks P (.step t)) (a : Addr) :
    BucketInv (Moved P t c tr op r (k r) σ') a ∧
      (isLock a (⟨op, r⟩ : Event (Op L) Res) = true → held a tr = none) := by
  have htr : P.trace t = tr := Pool.trace_of_active hth
  have hobeys := (h.meets t c tr _ hth).1
  by_cases hl : isLock a (⟨op, r⟩ : Event (Op L) Res) = true
  · cases op with
    | casHeader a' expected desired =>
      simp only [isLock, Bool.and_eq_true, decide_eq_true_eq, Bool.not_eq_true'] at hl
      obtain ⟨⟨rfl, rfl⟩, hd⟩ := hl
      have hword := word_of_cas hx
      obtain ⟨hread, rfl⟩ := h.lastRead_of_lock hth hd hword ((hok t c tr _ _ _ k rfl hth).2 hd)
      refine ⟨(h.bucket a').lock hx hd hread hword k, fun _ => ?_⟩
      rw [← htr]
      refine (h.bucket a').free_of_unlocked ?_ t
      rw [← hd, ← hword]
      rfl
    | _ => cases hl
  refine ⟨?_, fun hl' => absurd hl' hl⟩
  have hcl : isClear a (⟨op, r⟩ : Event (Op L) Res) = false := by
    cases op with
    | casHeader a' expected desired =>
      by_contra hc
      simp only [isClear, Bool.not_eq_false, Bool.and_eq_true, decide_eq_true_eq] at hc
      obtain ⟨⟨rfl, rfl⟩, hd⟩ := hc
      exact (hok t c tr _ _ _ k rfl hth).1 hd (word_of_cas hx)
    | _ => rfl
  by_cases hw : isCommit a (⟨op, r⟩ : Event (Op L) Res) = true
  · cases op with
    | writeHeader a' header =>
      obtain rfl : a' = a := by simpa [isCommit] using hw
      obtain ⟨keys, fp, hheld, rfl, -⟩ := hobeys.2 (htr ▸ h.consistent t)
      exact (h.bucket a').release htr hheld hx k
    | _ => cases hw
  · refine (h.bucket a).quiet htr hx (by simpa using hl) hcl (by simpa using hw) fun hline => ?_
    cases op with
    | writeLine a' s second x =>
      obtain rfl : a' = a := by simpa [isLineWrite] using hline
      exact hobeys.2 (htr ▸ h.consistent t)
    | _ => cases hline

/-- **One operation.** -/
theorem CallsInv.step (h : CallsInv P) (hok : ValidLocks P act)
    (hst : (calls E).step P act = some P') : CallsInv P' := by
  have hrule := recorded_rule hst
  have hmeets : P'.Meets Obeys fun _ _ _ => True :=
    h.meets.step (fun c => (behaves_body c.1 c.2 [] trivial rfl).mono fun _ _ _ => trivial) hst
  suffices hrest : (∀ u, Consistent (P'.trace u)) ∧ ∀ a, BucketInv P' a from
    ⟨h.ordered.step hrule, hmeets, hrest.1, hrest.2⟩
  cases hrule with
  | @start t c hidle =>
    have htrace := Pool.trace_start hidle c (body c.1 c.2)
    refine ⟨fun u => (htrace u).symm ▸ h.consistent u, fun a => ?_⟩
    have hb := h.bucket a
    refine ⟨hb.version, fun u => ?_, fun u u' => ?_, fun hall => hb.free fun u => ?_, hb.since,
      hb.lines⟩
    · rw [htrace]
      exact hb.locked u
    · rw [htrace, htrace]
      exact hb.one u u'
    · rw [← htrace]
      exact hall u
  | @step t c tr op k r σ' hth hx =>
    refine ⟨fun u => ?_, fun a => (h.moved hth hx hok a).1⟩
    rw [Pool.trace_update]
    split
    · refine consistent_cons ?_ fun a => (h.moved hth hx hok a).2
      exact Pool.trace_of_active hth ▸ h.consistent t
    · exact h.consistent u
  | @env e => exact e.elim

theorem callsInv_of_start (h : (calls E).start P) : CallsInv P := by
  have hordered := ordered_of_start h
  obtain ⟨⟨⟨n, hσ⟩, hnil⟩, hidle⟩ := h
  have htrace : ∀ u, P.trace u = [] := fun u => by simp [Pool.trace, hidle u]
  refine ⟨hordered, fun t c tr p ht => ?_, fun u => ?_, fun a => ?_⟩
  · rw [hidle t] at ht
    cases ht
  · rw [htrace]
    trivial
  · refine ⟨?_, fun u keys hu => ?_, fun u u' hu => ?_, fun _ => ?_, fun newer u keys older hs => ?_,
      fun newer u s second x older hs => ?_⟩
    · rw [hσ]
      exact Nat.succ_pos 127
    · rw [htrace] at hu
      cases hu
    · rw [htrace] at hu
      exact absurd rfl hu
    · rw [hσ]
      rfl
    all_goals simp [hnil] at hs

theorem callsInv {ok : Calls K L → PoolAct (TableCall K L) Empty → Prop}
    (hvalid : ∀ P act, CallsInv P → ok P act → ValidLocks P act) (h : (calls E).Reach ok P) :
    CallsInv P :=
  h.invariant (fun _ => callsInv_of_start) fun P act _ _ hi hok hst =>
    hi.step (hvalid P act hi hok) hst

end CallsInv

/-! ### At most one holder -/

/-- A lock is cleared by force only when no call holds it, and it is taken fewer than 128 commits
after its header was read. -/
def LocksRespected (P : Calls K L) (act : PoolAct (TableCall K L) Empty) : Prop :=
  ∀ t c tr a expected desired k, act = .step t →
    P.threads t = .active c tr (.call (.casHeader a expected desired) k) →
    (expected.dirty = true → ∀ u, held a (P.trace u) = none) ∧
    (expected.dirty = false → sinceRead t a P.shared.2 < 128)

theorem LocksRespected.valid {act : PoolAct (TableCall K L) Empty} (h : CallsInv P)
    (hok : LocksRespected P act) : ValidLocks P act := by
  intro t c tr a expected desired k hact hth
  obtain ⟨hclear, hlock⟩ := hok t c tr a expected desired k hact hth
  refine ⟨fun hd hword => ?_, hlock⟩
  have hfree := (h.bucket a).free (hclear hd)
  rw [← hword] at hd
  rw [show (P.shared.1.bucket a).header.dirty = true from hd] at hfree
  cases hfree

/-- No call has started on an empty table of four top-level buckets. -/
def noCalls : Calls Nat Nat := ⟨(State.init 4, []), fun _ => .idle⟩

theorem noCalls_start : (calls noHint).start noCalls := ⟨⟨⟨4, rfl⟩, rfl⟩, fun _ => rfl⟩

/-- The bucket that is tried first. -/
def firstBucket : Addr := ⟨0, oneHash.first 0 4⟩

/-- Call `t` takes `n` operations. -/
def operations (t n : Nat) : List (PoolAct (TableCall Nat Nat) Empty) := List.replicate n (.step t)

def startCall (t : Nat) (q : Request Nat Nat) : PoolAct (TableCall Nat Nat) Empty :=
  .start t (fixedConfig oneHash 1, q)

/-- A test of `LocksRespected` for runs in which no wait gives up. -/
def locksRespected (P : Calls Nat Nat) : PoolAct (TableCall Nat Nat) Empty → Bool
  | .step t =>
    match P.threads t with
    | .active _ _ (.call (.casHeader a expected _) _) =>
      !expected.dirty && decide (sinceRead t a P.shared.2 < 128)
    | _ => true
  | _ => true

theorem locksRespected_ok (P : Calls Nat Nat) (act : PoolAct (TableCall Nat Nat) Empty)
    (h : locksRespected P act = true) : LocksRespected P act := by
  rintro t c tr a expected desired k rfl hth
  simp only [locksRespected, hth, Bool.and_eq_true, Bool.not_eq_true', decide_eq_true_eq] at h
  exact ⟨fun hd => absurd (hd.symm.trans h.1) (by decide), fun _ => h.2⟩

/-- **A bucket is held by at most one call**, and a header is written over the locked form of the
header its writer has read. -/
theorem bucket_exclusive (E : Env) {P : Calls K L} (h : (calls E).Reach LocksRespected P)
    (a : Addr) :
    (∀ t u, held a (P.trace t) ≠ none → held a (P.trace u) ≠ none → t = u) ∧
    ∀ t c tr header k, P.threads t = .active c tr (.call (.writeHeader a header) k) →
      ∃ keys fp, held a tr = some keys ∧ header = keys.unlocked fp ∧
        (P.shared.1.bucket a).header = ⟨true, nextVersion keys.version, keys.fp⟩ := by
  have hinv := callsInv (fun _ _ => LocksRespected.valid) h
  refine ⟨(hinv.bucket a).one, fun t c tr header k hth => ?_⟩
  have htr := Pool.trace_of_active hth
  obtain ⟨keys, fp, hheld, hheader, -⟩ := (hinv.meets t c tr _ hth).1.2 (htr ▸ hinv.consistent t)
  exact ⟨keys, fp, hheld, hheader, (hinv.bucket a).locked t keys (htr.symm ▸ hheld)⟩

/-- Two insertions have read the header of a bucket; the first one locks it and writes its value, the
second one tries to lock it and goes on. -/
def contendedBucket : List (PoolAct (TableCall Nat Nat) Empty) :=
  startCall 0 (.insert 1 (1, 5)) :: operations 0 9 ++ startCall 1 (.insert 2 (2, 6)) :: operations 1 9 ++
    operations 0 3 ++ operations 1 2

/-- The last but one event of a call is a compare-and-swap that has failed. -/
def lostLock (tr : Trace Nat) : Bool := tr matches _ :: ⟨.casHeader .., false⟩ :: _

theorem bucket_exclusive_contended :
    ∃ P : Calls Nat Nat, (calls noHint).Reach LocksRespected P ∧ lostLock (P.trace 1) = true ∧
      held firstBucket (P.trace 0) ≠ none ∧ (∀ t, held firstBucket (P.trace t) ≠ none → t = 0) ∧
      ∃ c tr header k fp, ∃ keys : Header,
        P.threads 0 = .active c tr (.call (.writeHeader firstBucket header) k) ∧
        header = keys.unlocked fp ∧
        (P.shared.1.bucket firstBucket).header = ⟨true, nextVersion keys.version, keys.fp⟩ := by
  have hrun : ((calls noHint).runChecked locksRespected contendedBucket noCalls).map (fun P =>
      (lostLock (P.trace 1), (held firstBucket (P.trace 0)).isSome,
        match P.threads 0 with
        | .active _ _ (.call (.writeHeader a _) _) => a == firstBucket
        | _ => false)) = some (true, true, true) := by
    decide +kernel
  obtain ⟨P, hP, hout⟩ := map_eq_some_iff.mp hrun
  simp only [Prod.mk.injEq] at hout
  obtain ⟨hlost, hheld, hpending⟩ := hout
  have hreach : (calls noHint).Reach LocksRespected P :=
    (System.Reach.start noCalls_start).steps (System.steps_runChecked locksRespected_ok hP)
  have hheld := isSome_iff_ne_none.mp hheld
  have hone := bucket_exclusive noHint hreach firstBucket
  split at hpending
  · rename_i c tr a header k hth
    obtain rfl := beq_iff_eq.mp hpending
    obtain ⟨keys, fp, -, hheader, hlocked⟩ := hone.2 0 c tr header k hth
    exact ⟨P, hreach, hlost, hheld, fun t ht => hone.1 t 0 ht hheld, c, tr, header, k, fp, keys, hth,
      hheader, hlocked⟩
  · cases hpending

/-- **No lock is left behind**: a call that has returned holds no bucket, and when all calls have
returned no bucket is locked. -/
theorem locks_released (E : Env) (h : (calls E).Reach LocksRespected P) :
    (∀ t c tr x, P.threads t = .active c tr (.pure x) → ∀ a, held a tr = none) ∧
    ((∀ t c tr p, P.threads t = .active c tr p → ∃ x, p = .pure x) →
      ∀ a, (P.shared.1.bucket a).header.dirty = false) := by
  have hinv := callsInv (fun _ _ => LocksRespected.valid) h
  unfold calls recorded at h
  have hmeets : P.Meets Obeys fun _ tr _ => Kept [] tr :=
    pool_along (fun c => behaves_body c.1 c.2 [] trivial rfl) h
  have hnone {t c tr x} (hth : P.threads t = .active c tr (.pure x)) :=
    (hmeets t c tr _ hth).held (Pool.trace_of_active hth ▸ hinv.consistent t)
  refine ⟨fun _ _ _ _ => hnone, fun hall a => (hinv.bucket a).free fun t => ?_⟩
  cases hth : P.threads t with
  | idle => simp [Pool.trace, hth, held]
  | active c tr p =>
    obtain ⟨x, rfl⟩ := hall t c tr p hth
    rw [Pool.trace_of_active hth]
    exact hnone hth a

/-- The two insertions that contend for a bucket run to their ends. -/
theorem locks_released_contended : ∃ P : Calls Nat Nat, (calls noHint).Reach LocksRespected P ∧
      lostLock ((P.trace 1).drop 5) = true ∧
      ∀ t, t = 0 ∨ t = 1 →
        ∃ c tr x, P.threads t = .active c tr (.pure x) ∧ held firstBucket tr = none := by
  have hrun : ((calls noHint).runChecked locksRespected
      (contendedBucket ++ operations 0 2 ++ operations 1 5) noCalls).map (fun P =>
        (lostLock ((P.trace 1).drop 5),
          [0, 1].all fun t => P.threads t matches .active _ _ (.pure _))) = some (true, true) := by
    decide +kernel
  obtain ⟨P, hP, hout⟩ := map_eq_some_iff.mp hrun
  simp only [Prod.mk.injEq, List.all_cons, List.all_nil, Bool.and_true, Bool.and_eq_true] at hout
  have hreach := (System.Reach.start noCalls_start).steps
    (System.steps_runChecked locksRespected_ok hP)
  have hfree := (locks_released noHint hreach).1
  have hended {t} (ht : (P.threads t matches .active _ _ (.pure _)) = true) :
      ∃ c tr x, P.threads t = .active c tr (.pure x) ∧ held firstBucket tr = none := by
    split at ht
    · rename_i c tr x hth
      exact ⟨c, tr, x, hth, hfree t c tr x hth _⟩
    · cases ht
  refine ⟨P, hreach, hout.1, ?_⟩
  rintro t (rfl | rfl)
  exacts [hended hout.2.1, hended hout.2.2]

/-- An insertion is paused with the lock in its hands. A lookup waits for it, gives up and clears the
lock. A second insertion locks the bucket. -/
def clearedLock : List (PoolAct (TableCall Nat Nat) Empty) :=
  startCall 0 (.insert 1 (1, 5)) :: operations 0 10 ++ startCall 1 (.find 1) :: operations 1 1018 ++
    startCall 2 (.insert 2 (2, 6)) :: operations 2 10

/-- **A forced clear lets a second call hold the bucket.** -/
theorem cleared_lock_shared :
    ∃ P : Calls Nat Nat, (calls noHint).Reach (fun _ _ => True) P ∧
      held firstBucket (P.trace 0) ≠ none ∧ held firstBucket (P.trace 2) ≠ none := by
  exact System.exists_reach_of_labels (l := clearedLock) (Q := fun P =>
      (held firstBucket (P.trace 0)).isSome = true ∧ (held firstBucket (P.trace 2)).isSome = true)
    noCalls_start (fun _ _ _ => trivial) (by decide +kernel)
    fun P _ h => ⟨isSome_iff_ne_none.mp h.1, isSome_iff_ne_none.mp h.2⟩

end StaxFS.Table
