import StaxFS.Foundation.History
import StaxFS.Table.Resize

/-!
# The two-level hash table: what every function does to a bucket

Every function of the table works on buckets by one discipline: it reads the header, locks the
bucket by a compare-and-swap on the word it read, writes lines only while it holds the lock, and
releases the lock by writing a whole header made from the copy it read. A waiter that gives up clears
the lock by a compare-and-swap on a word that is locked.

`Obeys` is this discipline for one operation after a trace, `Behaves` says that a program follows it
and ends with the locks it started with. What a call holds is read off its own trace (`held`).
Two nested functions of one call could lock the same bucket only if the answers of the memory allowed
it; `Consistent` excludes such traces.

Results:
* `behaves_body`: **every public operation follows the discipline**.
-/

namespace StaxFS.Table

open Foundation Foundation.Prog List

variable {K L α β R : Type}

/-- Traces of calls on the table. -/
abbrev Trace (L : Type) : Type := List (Event (Op L) Res)

/-- The header of `a` a call has read last. -/
def lastRead (a : Addr) : Trace L → Option Header
  | [] => none
  | ⟨.readHeader a', keys⟩ :: tr => if a' = a then some keys else lastRead a tr
  | _ :: tr => lastRead a tr

/-- The header a call that holds the lock of `a` has locked. -/
def held (a : Addr) : Trace L → Option Header
  | [] => none
  | ⟨.casHeader a' expected _, r⟩ :: tr =>
    if a' = a ∧ r = true ∧ expected.dirty = false then lastRead a tr else held a tr
  | ⟨.writeHeader a' _, _⟩ :: tr => if a' = a then none else held a tr
  | _ :: tr => held a tr

/-- No bucket is locked twice without a release. -/
def Consistent : Trace L → Prop
  | [] => True
  | ⟨.casHeader a expected _, r⟩ :: tr =>
    (r = true → expected.dirty = false → held a tr = none) ∧ Consistent tr
  | _ :: tr => Consistent tr

/-- The slot of which a call has written the last line only. -/
def openHalf : Trace L → Option (Addr × Slot)
  | ⟨.writeLine a s true _, _⟩ :: _ => some (a, s)
  | _ => none

/-- The operation finishes a value whose last line was written just before, and nothing else comes in
between. -/
def Pairs (tr : Trace L) (op : Op L) : Prop :=
  ∀ a s, openHalf tr = some (a, s) ↔ ∃ x, op = .writeLine a s false x

/-- The discipline of one operation. -/
def Obeys (tr : Trace L) (op : Op L) : Prop :=
  Pairs tr op ∧
  match op with
  | .casHeader a expected desired =>
    ∃ keys, lastRead a tr = some keys ∧ expected = keys.word ∧
      desired = if keys.dirty then { expected with dirty := false } else makeLocked expected
  | .writeHeader a header =>
    Consistent tr → ∃ keys fp, held a tr = some keys ∧ header = keys.unlocked fp ∧
      ∀ s, fp s ≠ 0 → fp s = keys.fp s ∨ ∃ x, ⟨.writeLine a s false x, ()⟩ ∈ tr
  | .writeLine a _ _ _ => Consistent tr → held a tr ≠ none
  | _ => True

variable {tr : Trace L} {op : Op L} {p : M L α} {f : α → M L β} {S : Slot → Prop}

theorem Consistent.tail {e : Event (Op L) Res} (h : Consistent (e :: tr)) : Consistent tr := by
  obtain ⟨op, r⟩ := e
  cases op <;> first | exact h.2 | exact h

theorem Consistent.of_suffix {tr' : Trace L} (h : Consistent tr') (hs : tr <:+ tr') :
    Consistent tr := by
  obtain ⟨newer, rfl⟩ := hs
  induction newer with
  | nil => exact h
  | cons e newer ih => exact ih h.tail

/-! ### Programs that end with the locks they started with -/

/-- What a program leaves behind: a longer trace, no half-written value, the same locks. -/
structure Kept (tr tr' : Trace L) : Prop where
  suffix : tr <:+ tr'
  settled : openHalf tr' = none
  held : Consistent tr' → ∀ a, held a tr' = held a tr

theorem Kept.refl (h : openHalf tr = none) : Kept tr tr :=
  ⟨suffix_refl tr, h, fun _ _ => rfl⟩

theorem Kept.trans {tr' tr'' : Trace L} (h : Kept tr tr') (h' : Kept tr' tr'') : Kept tr tr'' :=
  ⟨h.suffix.trans h'.suffix, h'.settled, fun hc a =>
    (h'.held hc a).trans (h.held (hc.of_suffix h'.suffix) a)⟩

/-- The program follows the discipline from any trace of which `pre` holds, and keeps the locks. -/
def BehavesFrom (pre : Trace L → Prop) (p : M L α) : Prop :=
  ∀ tr, pre tr → openHalf tr = none → Along Obeys (fun tr' _ => Kept tr tr') tr p

abbrev Behaves (p : M L α) : Prop := BehavesFrom (fun _ => True) p

/-- The program follows the discipline when `keys` is what the call has last read of `a`. -/
abbrev BehavesAt (a : Addr) (keys : Header) (p : M L α) : Prop :=
  BehavesFrom (fun tr => lastRead a tr = some keys) p

/-- The program starts inside the lock of `a`, taken with `keys`, and releases it. `S` are the slots
the call has written. -/
def Inside (a : Addr) (keys : Header) (S : Slot → Prop) (p : M L α) : Prop :=
  ∀ tr, (Consistent tr → held a tr = some keys) →
    (∀ s, S s → ∃ x, (⟨.writeLine a s false x, ()⟩ : Event (Op L) Res) ∈ tr) → openHalf tr = none →
    Along Obeys
      (fun tr' _ => tr <:+ tr' ∧ openHalf tr' = none ∧
        (Consistent tr' → held a tr' = none ∧ ∀ b, b ≠ a → held b tr' = held b tr)) tr p

/-- Operations the discipline says nothing about. -/
def Plain : Op L → Prop
  | .casHeader .. | .writeHeader .. | .writeLine .. => False
  | _ => True

variable {a : Addr} {keys : Header} {act : Addr → Header → M L (Try R)} {s : Slot}

theorem kept_cons (h : Plain op) (r : Res op) : Kept tr (⟨op, r⟩ :: tr) := by
  refine ⟨suffix_cons _ _, ?_, fun _ a => ?_⟩ <;> cases op <;> first | rfl | exact h.elim

theorem pairs_of_settled (h : openHalf tr = none)
    (hop : ∀ a s x, op ≠ .writeLine a s false x) : Pairs tr op := by
  intro a s
  rw [h]
  exact ⟨nofun, fun ⟨x, hx⟩ => (hop a s x hx).elim⟩

theorem obeys_plain (h : Plain op) (ht : openHalf tr = none) : Obeys tr op := by
  refine ⟨pairs_of_settled ht fun a s x hx => ?_, ?_⟩
  · subst hx
    exact h
  · cases op <;> trivial

theorem behaves_pure (x : α) : Behaves (Pure.pure x : M L α) :=
  fun _ _ ht => Kept.refl ht

theorem behaves_perform (h : Plain op) : Behaves (perform op) :=
  fun _ _ ht => ⟨obeys_plain h ht, fun r => kept_cons h r⟩

theorem BehavesFrom.bind {pre : Trace L → Prop}
    (hp : BehavesFrom pre p) (hf : ∀ x, Behaves (f x)) : BehavesFrom pre (p >>= f) :=
  fun tr hpre ht => (hp tr hpre ht).bind fun tr' x hk =>
    (hf x tr' trivial hk.settled).mono fun _ _ hk' => hk.trans hk'

/-- One such operation, then more. -/
theorem behaves_step {f : Res op → M L α} (h : Plain op) (hf : ∀ x, Behaves (f x)) :
    Behaves (perform op >>= f) :=
  BehavesFrom.bind (behaves_perform h) hf

theorem Behaves.at (h : Behaves p) : BehavesAt a keys p :=
  fun tr _ ht => h tr trivial ht

/-- Reading a header makes it the one last read. -/
theorem Behaves.readHeader {f : Header → M L α} (hf : ∀ keys, BehavesAt a keys (f keys)) :
    Behaves (readHeader a >>= f) := by
  intro tr _ ht
  refine ⟨obeys_plain (by trivial) ht, fun keys => ?_⟩
  have hk : Kept tr (⟨.readHeader a, keys⟩ :: tr) := kept_cons (by trivial) keys
  exact (hf keys (⟨.readHeader a, keys⟩ :: tr) (if_pos rfl) hk.settled).mono fun _ _ hk' =>
    hk.trans hk'

theorem behaves_readValue (a : Addr) (s : Slot) : Behaves (readValue a s : M L (L × L)) :=
  behaves_step trivial fun _ => behaves_step trivial fun _ => behaves_pure _

/-! ### Programs that do not touch a bucket -/

/-- The program performs no operation the discipline is about. -/
def Calm (p : M L α) : Prop := ∀ tr, Along (fun _ op => Plain op) (fun _ _ => True) tr p

theorem calm_pure (x : α) : Calm (Pure.pure x : M L α) := fun _ => trivial

theorem calm_perform (h : Plain op) : Calm (perform op) :=
  fun _ => ⟨h, fun _ => trivial⟩

theorem Calm.bind (hp : Calm p) (hf : ∀ x, Calm (f x)) : Calm (p >>= f) :=
  fun tr => (hp tr).bind fun tr' x _ => hf x tr'

theorem calm_step {f : Res op → M L α} (h : Plain op) (hf : ∀ x, Calm (f x)) :
    Calm (perform op >>= f) :=
  (calm_perform h).bind hf

theorem Calm.behaves (h : Calm p) : Behaves p := by
  intro tr _ ht
  replace h := h tr
  induction p generalizing tr with
  | pure x => exact Kept.refl ht
  | call op k ih =>
    refine ⟨obeys_plain h.1 ht, fun r => ?_⟩
    have hk : Kept tr (⟨op, r⟩ :: tr) := kept_cons h.1 r
    exact (ih r _ hk.settled (h.2 r)).mono fun _ _ hk' => hk.trans hk'

/-! ### The locked section -/

/-- **Lock**: the compare-and-swap on what was read starts a locked section or changes nothing. -/
theorem BehavesAt.lock {f : Bool → M L α} (hd : keys.dirty = false) (hfail : Behaves (f false))
    (hlock : Inside a keys (fun _ => False) (f true)) :
    BehavesAt a keys (lockBucket a keys >>= f) := by
  intro tr hread ht
  refine ⟨⟨pairs_of_settled ht nofun, keys, hread, rfl, ?_⟩, fun r => ?_⟩
  · rw [if_neg (by simp [hd])]
  have hdw : keys.word.dirty = false := hd
  cases r with
  | false =>
    have hk : Kept tr (⟨.casHeader a keys.word (makeLocked keys.word), false⟩ :: tr) :=
      ⟨suffix_cons _ _, rfl, fun _ b => if_neg (by simp)⟩
    exact (hfail _ trivial rfl).mono fun _ _ hk' => hk.trans hk'
  | true =>
    have hself : held a (⟨.casHeader a keys.word (makeLocked keys.word), true⟩ :: tr) = some keys :=
      (if_pos ⟨rfl, rfl, hdw⟩).trans hread
    have hother : ∀ b, b ≠ a →
        held b (⟨.casHeader a keys.word (makeLocked keys.word), true⟩ :: tr) = held b tr :=
      fun b hb => if_neg fun h => hb h.1.symm
    refine (hlock _ (fun _ => hself) nofun rfl).mono fun tr' _ ⟨hs, hset, hheld⟩ => ?_
    refine ⟨(suffix_cons _ _).trans hs, hset, fun hc b => ?_⟩
    by_cases hb : b = a
    · subst hb
      rw [(hheld hc).1, (hc.of_suffix hs).1 rfl hdw]
    · rw [(hheld hc).2 b hb, hother b hb]

theorem Inside.bind (hp : Behaves p)
    (hf : ∀ x, Inside a keys S (f x)) : Inside a keys S (p >>= f) := by
  intro tr hheld hS ht
  refine (hp tr trivial ht).bind fun tr' x hk => ?_
  refine (hf x tr' (fun hc => (hk.held hc a).trans (hheld (hc.of_suffix hk.suffix)))
    (fun s hs => (hS s hs).imp fun _ hx => hk.suffix.subset hx) hk.settled).mono ?_
  rintro tr'' _ ⟨hsuf, hset, hrest⟩
  refine ⟨hk.suffix.trans hsuf, hset, fun hc => ⟨(hrest hc).1, fun b hb => ?_⟩⟩
  rw [(hrest hc).2 b hb, hk.held (hc.of_suffix hsuf) b]

/-- A program that releases the lock, then another one. -/
theorem Inside.andThen (hp : Inside a keys S p)
    (hf : ∀ x, Behaves (f x)) : Inside a keys S (p >>= f) := by
  intro tr hheld hS ht
  refine (hp tr hheld hS ht).bind fun tr' x ⟨hsuf, hset, hrel⟩ => ?_
  refine (hf x tr' trivial hset).mono fun tr'' _ hk => ⟨hsuf.trans hk.suffix, hk.settled, ?_⟩
  intro hc
  obtain ⟨hself, hother⟩ := hrel (hc.of_suffix hk.suffix)
  exact ⟨(hk.held hc a).trans hself, fun b hb => (hk.held hc b).trans (hother b hb)⟩

variable {f : Unit → M L α}

/-- Writing a value in the locked bucket. -/
theorem Inside.writeValue {v : L × L} (hf : Inside a keys (fun j => j = s ∨ S j) (f ())) :
    Inside a keys S (writeValue a s v >>= f) := by
  intro tr hheld hS ht
  have hne : Consistent tr → held a tr ≠ none := fun hc h => by
    rw [hheld hc] at h
    cases h
  refine ⟨⟨pairs_of_settled ht nofun, hne⟩, fun _ => ⟨⟨fun b j => ?_, hne⟩, fun _ => ?_⟩⟩
  · constructor
    · intro h
      cases h
      exact ⟨_, rfl⟩
    · rintro ⟨x, hx⟩
      cases hx
      rfl
  · refine (hf (⟨.writeLine a s false v.1, ()⟩ :: ⟨.writeLine a s true v.2, ()⟩ :: tr) hheld
      (fun j hj => ?_) rfl).mono fun tr' _ ⟨hsuf, hrest⟩ =>
        ⟨((suffix_cons _ _).trans (suffix_cons _ _)).trans hsuf, hrest⟩
    rcases hj with rfl | hj
    · exact ⟨v.1, mem_cons_self⟩
    · exact (hS j hj).imp fun _ hx => mem_cons_of_mem _ (mem_cons_of_mem _ hx)

/-- **Release**: the header written is made from the copy that was locked. -/
theorem Inside.release {fp : Slot → Nat}
    (hfp : ∀ s, fp s ≠ 0 → fp s = keys.fp s ∨ S s) (hf : Behaves (f ())) :
    Inside a keys S (perform (.writeHeader a (keys.unlocked fp)) >>= f) := by
  intro tr hheld hS ht
  refine ⟨⟨pairs_of_settled ht nofun, fun hc => ⟨keys, fp, hheld hc, rfl, fun s hs => ?_⟩⟩,
    fun _ => ?_⟩
  · exact (hfp s hs).imp_right (hS s)
  · refine (hf _ trivial rfl).mono fun tr' _ hk => ?_
    refine ⟨(suffix_cons _ _).trans hk.suffix, hk.settled, fun hc => ⟨?_, fun b hb => ?_⟩⟩
    · exact (hk.held hc a).trans (if_pos rfl)
    · exact (hk.held hc b).trans (if_neg (Ne.symm hb))

theorem Inside.unlock (hf : Behaves (f ())) : Inside a keys S (unlockBucket a keys >>= f) :=
  Inside.release (fun _ _ => Or.inl rfl) hf

theorem Inside.commit {fp : Nat} (hs : S s)
    (hf : Behaves (f ())) : Inside a keys S (commitBucket a keys s fp >>= f) := by
  refine Inside.release (fun j _ => ?_) hf
  by_cases hj : j = s
  · subst hj
    exact Or.inr hs
  · exact Or.inl (Function.update_of_ne hj _ _)

/-! ### Bucket functions -/

theorem behaves_place (hd : keys.dirty = false) (fp : Nat) (v : L × L) :
    BehavesAt a keys (place a keys fp v) := by
  refine BehavesAt.lock hd (behaves_pure _) ?_
  simp only [Bool.not_true, Bool.false_eq_true, if_false]
  cases keys.findEmptySlot with
  | none => exact Inside.unlock (behaves_pure _)
  | some target => exact Inside.writeValue (Inside.commit (Or.inl rfl) (behaves_pure _))

section

variable (H : Hashing K L)

include H

theorem behaves_findLocked (fp : Nat) (key : K) (ss : List Slot) :
    Behaves (findLocked H a keys fp key ss) := by
  induction ss with
  | nil => exact behaves_pure _
  | cons s ss ih =>
    unfold findLocked
    split
    · refine (behaves_readValue a s).bind fun v => ?_
      split
      · exact behaves_pure _
      · exact ih
    · exact ih

theorem behaves_tryEraseFrom (hd : keys.dirty = false) (fp : Nat) (key : K) :
    BehavesAt a keys (tryEraseFrom H a keys fp key) := by
  refine BehavesAt.lock hd (behaves_pure _) ?_
  refine Inside.bind (behaves_findLocked H fp key slots) fun x => ?_
  match x with
  | none => exact Inside.unlock (behaves_pure _)
  | some (s, v) =>
    refine Inside.release (fun j hj => ?_)
      (behaves_step trivial fun _ => behaves_pure _)
    by_cases hjs : j = s
    · subst hjs
      exact (hj (Function.update_self _ _ _)).elim
    · exact Or.inl (Function.update_of_ne hjs _ _)

theorem behaves_tryUpdateIn (writeFn : L × L → L × L) (hd : keys.dirty = false)
    (fp : Nat) (key : K) : BehavesAt a keys (tryUpdateIn H writeFn a keys fp key) := by
  refine BehavesAt.lock hd (behaves_pure _) ?_
  refine Inside.bind (behaves_findLocked H fp key slots) fun x => ?_
  match x with
  | none => exact Inside.unlock (behaves_pure _)
  | some (s, v) => exact Inside.writeValue (Inside.unlock (behaves_pure _))

theorem behaves_scanBucketSlots (fp : Nat) (key : K) (ss : List Slot) :
    Behaves (scanBucketSlots H a keys fp key ss) := by
  induction ss with
  | nil => exact behaves_pure _
  | cons s ss ih =>
    unfold scanBucketSlots
    split
    · exact ih
    · refine (behaves_readValue a s).bind fun v => Behaves.readHeader fun keys2 => Behaves.at ?_
      split
      · exact behaves_pure _
      · split
        · exact behaves_pure _
        · exact ih

theorem behaves_findInBucket (fp : Nat) (key : K) (a : Addr) :
    Behaves (findInBucket H fp key a) := by
  refine Behaves.readHeader fun keys => Behaves.at ?_
  split
  · exact behaves_pure _
  · exact behaves_scanBucketSlots H fp key slots

end

/-- What is done at a bucket whose header was just read and is not locked. -/
abbrev ActBehaves (act : Addr → Header → M L (Try R)) : Prop :=
  ∀ a keys, keys.dirty = false → BehavesAt a keys (act a keys)

theorem behaves_tryBucket (hact : ActBehaves act) (fp : Nat)
    (a : Addr) : Behaves (tryBucket act fp a) := by
  refine Behaves.readHeader fun keys => ?_
  split
  · exact (behaves_pure _).at
  · next hd =>
    split
    · exact (behaves_pure _).at
    · exact hact a keys (by simpa using hd)

/-! ### Waiting -/

/-- After a successful wait the header is the one last read, and not locked. -/
def Waited (a : Addr) (tr : Trace L) (ok : Bool) (keys : Header) : Prop :=
  lastRead a tr = some keys ∧ (ok = true → keys.dirty = false)

theorem along_waitForUnlock (n : Nat) (hd : keys.dirty = true)
    (hread : lastRead a tr = some keys) (ht : openHalf tr = none) :
    Along Obeys (fun tr' r => Kept tr tr' ∧ Waited a tr' r.1 r.2) tr
      (waitForUnlock a n keys) := by
  induction n generalizing keys tr with
  | zero =>
    refine ⟨⟨pairs_of_settled ht nofun, keys, hread, rfl, (if_pos hd).symm⟩, fun r => ?_⟩
    have hk : Kept tr (⟨.casHeader a keys.word { keys.word with dirty := false }, r⟩ :: tr) :=
      ⟨suffix_cons _ _, rfl, fun _ b => if_neg (by simp [Header.word, hd])⟩
    refine ⟨obeys_plain (by trivial) rfl, fun keys' => ⟨hk.trans (kept_cons (by trivial) keys'), ?_⟩⟩
    exact ⟨if_pos rfl, by simp⟩
  | succ n ih =>
    refine ⟨obeys_plain (by trivial) ht, fun keys' => ?_⟩
    have hk : Kept tr (⟨.readHeader a, keys'⟩ :: tr) := kept_cons (by trivial) keys'
    change Along _ _ _ (if (!keys'.dirty) = true then Pure.pure (true, keys') else
      waitForUnlock a n keys')
    have hread' : lastRead a (⟨.readHeader a, keys'⟩ :: tr) = some keys' := if_pos rfl
    cases hd' : keys'.dirty with
    | false => exact ⟨hk, hread', fun _ => hd'⟩
    | true =>
      exact (ih hd' hread' rfl).mono fun _ _ hw => ⟨hk.trans hw.1, hw.2⟩

theorem behaves_waitForUnlock (n : Nat) (hd : keys.dirty = true) :
    BehavesAt a keys (waitForUnlock a n keys : M L _) :=
  fun _ hread ht => (along_waitForUnlock n hd hread ht).mono fun _ _ h => h.1

/-- Reading a header and waiting leaves a header that is last read and not locked, or none. -/
theorem Behaves.readUnlocked {f : Option Header → M L α} (hnone : Behaves (f none))
    (hsome : ∀ keys, keys.dirty = false → BehavesAt a keys (f (some keys))) :
    Behaves (readUnlocked a >>= f) := by
  unfold Table.readUnlocked
  intro tr _ ht
  rw [along_bind, along_bind]
  refine ⟨obeys_plain (by trivial) ht, fun keys => ?_⟩
  have hk : Kept tr (⟨.readHeader a, keys⟩ :: tr) := kept_cons (by trivial) keys
  have hread : lastRead a (⟨.readHeader a, keys⟩ :: tr) = some keys := if_pos rfl
  refine along_pure.mpr ?_
  split
  · next hd =>
    rw [along_bind]
    refine (along_waitForUnlock kMaxSpins hd hread rfl).mono ?_
    rintro tr' ⟨ok, keys'⟩ ⟨hk', hread', hok⟩
    cases ok with
    | false =>
      exact (hnone tr' trivial hk'.settled).mono fun _ _ hk'' => (hk.trans hk').trans hk''
    | true =>
      exact (hsome keys' (hok rfl) tr' hread' hk'.settled).mono fun _ _ hk'' =>
        (hk.trans hk').trans hk''
  · next hd =>
    exact (hsome keys (by simpa using hd) _ hread rfl).mono fun _ _ hk' => hk.trans hk'

/-! ### Lookups -/

section Lookups

variable {probe : Addr → M L (Try R)}

theorem behaves_hinted (hp : ∀ a, Behaves (probe a)) (fp : Nat) (cs : List Cand) :
    Behaves (hinted fp probe cs) := by
  induction cs with
  | nil => exact behaves_pure _
  | cons c cs ih =>
    refine behaves_step trivial fun hint => ?_
    split
    · refine (hp c.addr).bind fun x => ?_
      cases x with
      | hit r => exact behaves_pure _
      | miss => exact ih
      | contended =>
        refine ih.bind fun y => ?_
        cases y <;> exact behaves_pure _
    · refine ih.bind fun y => ?_
      cases y <;> exact behaves_pure _

theorem behaves_probeAll (hp : ∀ a, Behaves (probe a)) (cs : List Cand) :
    Behaves (probeAll probe cs) := by
  induction cs with
  | nil => exact behaves_pure _
  | cons c cs ih =>
    refine (hp c.addr).bind fun x => ?_
    cases x with
    | hit r => exact behaves_pure _
    | miss => exact ih
    | contended =>
      refine ih.bind fun y => ?_
      cases y <;> exact behaves_pure _

theorem behaves_firstHit {act : Cand → M L (Option R)} (hact : ∀ c, Behaves (act c))
    (cs : List Cand) : Behaves (firstHit act cs) := by
  induction cs with
  | nil => exact behaves_pure _
  | cons c cs ih =>
    refine (hact c).bind fun x => ?_
    cases x with
    | some r => exact behaves_pure _
    | none => exact ih

theorem behaves_orNone {p : M L (Try R)} (hp : Behaves p) : Behaves (orNone p) := by
  refine hp.bind fun x => ?_
  cases x <;> exact behaves_pure _

theorem behaves_search {retry : Addr → M L (Option R)} {again : Cand → M L (Option R)}
    (hp : ∀ a, Behaves (probe a)) (hr : ∀ a, Behaves (retry a))
    (ha : ∀ c, Behaves (again c)) (fp : Nat) (cands : List Cand) :
    Behaves (search fp cands probe retry again) := by
  refine (behaves_hinted hp fp cands).bind fun x => ?_
  match x with
  | .inl r => exact behaves_pure _
  | .inr (contended, rest) =>
    refine (behaves_probeAll hp rest).bind fun y => ?_
    match y with
    | .inl r => exact behaves_pure _
    | .inr contended' =>
      refine (behaves_firstHit (fun c => hr c.addr) _).bind fun z => ?_
      match z with
      | some r => exact behaves_pure _
      | none =>
        dsimp only
        split
        · exact behaves_firstHit ha _
        · exact behaves_pure _

end Lookups

theorem calm_loadLayout : Calm (loadLayout : M L (Bool × Layout)) :=
  calm_step trivial fun _ => calm_step trivial fun _ => calm_step trivial fun _ =>
    calm_step trivial fun _ => calm_step trivial fun _ => calm_step trivial fun _ =>
      calm_step trivial fun _ => calm_step trivial fun _ => calm_pure _

theorem calm_getLayout (fuel : Nat) : Calm (getLayout fuel : M L Layout) := by
  induction fuel with
  | zero =>
    refine calm_loadLayout.bind fun x => ?_
    dsimp only
    split
    · exact calm_step trivial fun _ => calm_pure _
    · exact calm_pure _
  | succ fuel ih =>
    refine calm_loadLayout.bind fun x => ?_
    dsimp only
    split
    · exact calm_pure _
    · exact ih

theorem behaves_getCandidates (H : Hashing K L) (fuel : Nat) (key : K) :
    Behaves (getCandidates H fuel key) :=
  (calm_getLayout fuel).behaves.bind fun _ => behaves_pure _

theorem behaves_findRetry (H : Hashing K L) (fp : Nat) (key : K) (a : Addr) (fuel : Nat) :
    Behaves (findRetry H fp key a fuel) := by
  induction fuel with
  | zero => exact behaves_step trivial fun _ => behaves_pure _
  | succ fuel ih =>
    refine Behaves.readHeader fun keys => ?_
    split
    · next hd => exact (behaves_waitForUnlock _ hd).bind fun _ => ih
    · refine Behaves.at ((behaves_scanBucketSlots H fp key slots).bind fun x => ?_)
      cases x with
      | hit v | miss => exact behaves_pure _
      | contended => exact ih

theorem behaves_findImpl (H : Hashing K L) (fuel : Nat) (key : K) :
    Behaves (findImpl H fuel key) :=
  (behaves_getCandidates H fuel key).bind fun _ =>
    behaves_search (behaves_findInBucket H _ key) (fun a => behaves_findRetry H _ key a fuel)
      (fun c => behaves_orNone (behaves_findInBucket H _ key c.addr)) _ _

theorem behaves_actRetry (hact : ActBehaves act) (fp : Nat)
    (a : Addr) (fuel : Nat) : Behaves (actRetry act fp a fuel) := by
  induction fuel with
  | zero => exact behaves_step trivial fun _ => behaves_pure _
  | succ fuel ih =>
    refine Behaves.readUnlocked (behaves_pure _) fun keys hd => ?_
    dsimp only
    split
    · exact (behaves_pure _).at
    · refine (hact a keys hd).bind fun x => ?_
      cases x with
      | hit r | miss => exact behaves_pure _
      | contended => exact ih

theorem behaves_actImpl (H : Hashing K L) (fuel : Nat) (key : K)
    {act : Addr → Header → Nat → M L (Try R)}
    (hact : ∀ fp, ActBehaves fun a keys => act a keys fp) :
    Behaves (actImpl H fuel key act) := by
  refine (behaves_getCandidates H fuel key).bind fun cands => ?_
  refine behaves_search (behaves_tryBucket (hact _) _) (fun a => behaves_actRetry (hact _) _ a fuel)
    (fun c => ?_) _ _
  exact behaves_step trivial fun l => behaves_orNone (behaves_tryBucket (hact _) _ _)

/-! ### Insertion and movement -/

theorem behaves_insertPass (fp : Nat) (v : L × L) (cs : List Cand) :
    Behaves (insertPass fp v cs) := by
  induction cs with
  | nil => exact behaves_pure _
  | cons c cs ih =>
    refine Behaves.readHeader fun keys => ?_
    split
    · exact Behaves.at (ih.bind fun _ => behaves_pure _)
    · next hd =>
      split
      · exact ih.at
      · refine (behaves_place (by simpa using hd) fp v).bind fun x => ?_
        match x with
        | some true => exact behaves_pure _
        | some false => exact ih
        | none => exact ih.bind fun _ => behaves_pure _

theorem behaves_insertRetry (fp : Nat) (v : L × L) (a : Addr) (retries : Nat) :
    Behaves (insertRetry fp v a retries) := by
  induction retries with
  | zero => exact behaves_pure _
  | succ retries ih =>
    refine Behaves.readUnlocked (behaves_pure _) fun keys hd => ?_
    dsimp only
    split
    · exact (behaves_pure _).at
    · refine (behaves_place hd fp v).bind fun x => ?_
      cases x with
      | some r => exact behaves_pure _
      | none => exact ih

theorem behaves_anyOf {act : Cand → M L Bool} (hact : ∀ c, Behaves (act c)) (cs : List Cand) :
    Behaves (anyOf act cs) := by
  induction cs with
  | nil => exact behaves_pure _
  | cons c cs ih =>
    refine (hact c).bind fun x => ?_
    split
    · exact behaves_pure _
    · exact ih

theorem behaves_insertPasses (fp : Nat) (v : L × L) (cands : List Cand) :
    Behaves (insertPasses fp v cands) := by
  refine (behaves_insertPass fp v _).bind fun x => ?_
  cases x with
  | none => exact behaves_pure _
  | some contended => exact behaves_anyOf (fun c => behaves_insertRetry fp v c.addr 3) contended

abbrev DisplaceBehaves (extra : Displace L) : Prop := ∀ b fp v, Behaves (extra b fp v)

theorem behaves_noDisplace : DisplaceBehaves (noDisplace : Displace L) :=
  fun _ _ _ => behaves_pure _

section Movement

variable {extra : Displace L} (hextra : DisplaceBehaves extra)

include hextra

theorem behaves_moveTo (b : Addr) (fp : Nat) (v : L × L) : Behaves (moveTo extra b fp v) := by
  refine Behaves.readHeader fun keys => ?_
  split
  · exact (behaves_pure _).at
  · next hd =>
    split
    · exact (hextra b fp v).at
    · exact (behaves_place (by simpa using hd) fp v).bind fun _ => behaves_pure _

theorem behaves_moveToOneOf (fp : Nat) (v : L × L) (bs : List Addr) :
    Behaves (moveToOneOf extra fp v bs) := by
  induction bs with
  | nil => exact behaves_pure _
  | cons b bs ih =>
    refine (behaves_moveTo hextra b fp v).bind fun x => ?_
    split
    · exact behaves_pure _
    · exact ih

theorem inside_moveSlots (targets : L × L → List Addr) (fpNew : Nat) (v : L × L) (ss : List Slot) :
    Inside a keys (fun _ => False) (moveSlots targets extra a keys fpNew v ss) := by
  induction ss with
  | nil => exact Inside.unlock (behaves_pure _)
  | cons s ss ih =>
    unfold moveSlots
    split
    · exact ih
    · refine Inside.bind (behaves_readValue a s) fun victim => ?_
      refine Inside.bind (behaves_moveToOneOf hextra (keys.fp s) victim (targets victim)) fun x => ?_
      split
      · exact Inside.writeValue (Inside.commit (Or.inl rfl) (behaves_pure _))
      · exact ih

theorem behaves_movementAndPlace (targets : L × L → List Addr) (countInsert : Bool) (a : Addr)
    (fpNew : Nat) (v : L × L) :
    Behaves (movementAndPlace targets extra countInsert a fpNew v) := by
  refine Behaves.readHeader fun keys => ?_
  split
  · exact (behaves_pure _).at
  · next hd =>
    refine BehavesAt.lock (by simpa using hd) (behaves_pure _) ?_
    refine Inside.andThen (inside_moveSlots hextra targets fpNew v slots) fun x => ?_
    split
    · dsimp only
      split
      · exact behaves_step trivial fun _ => behaves_pure _
      · exact behaves_pure _
    · exact behaves_pure _

end Movement

theorem behaves_sameLevelExtra (H : Hashing K L) (cands : Candidates) (level : Level)
    (levelN : Nat) : DisplaceBehaves (sameLevelExtra H cands level levelN) := by
  intro b fp v
  refine (behaves_movementAndPlace behaves_noDisplace _ false b fp v).bind fun x => ?_
  split
  · exact behaves_pure _
  · split
    · exact behaves_movementAndPlace behaves_noDisplace _ false b fp v
    · exact behaves_pure _

theorem behaves_tryMigrateAndInsert (H : Hashing K L) (fpNew : Nat) (v : L × L)
    (cands : Candidates) : Behaves (tryMigrateAndInsert H fpNew v cands) := by
  have hmove : ∀ (targets : Cand → L × L → List Addr) (extra : Cand → Displace L),
      (∀ c, DisplaceBehaves (extra c)) → ∀ cs,
      Behaves (anyOf (fun c => movementAndPlace (targets c) (extra c) true c.addr fpNew v) cs) :=
    fun targets extra hextra cs =>
      behaves_anyOf (fun c => behaves_movementAndPlace (hextra c) _ true c.addr fpNew v) cs
  refine (hmove _ _ (fun _ => behaves_noDisplace) _).bind fun x => ?_
  split
  · exact behaves_pure _
  refine (hmove (fun _ => b2tTargets H cands.tlOffset cands.tlN) (fun _ => noDisplace)
    (fun _ => behaves_noDisplace) _).bind fun y => ?_
  split
  · exact behaves_pure _
  split
  · refine (hmove (fun c => sameLevelTargets H (cands.levelN c.level) c.addr)
      (fun c => sameLevelExtra H cands c.level (cands.levelN c.level))
      (fun c => behaves_sameLevelExtra H cands _ _) _).bind fun z => ?_
    split
    · exact behaves_pure _
    · exact hmove (fun _ => b2tTargets H cands.tlOffset cands.tlN) (fun _ => b2tExtra H cands)
        (fun _ b fp w => behaves_movementAndPlace behaves_noDisplace _ false b fp w) _
  · exact behaves_pure _

theorem behaves_insertImpl (H : Hashing K L) (fuel : Nat) (key : K) (v : L × L) :
    Behaves (insertImpl H fuel key v) := by
  refine (behaves_getCandidates H fuel key).bind fun cands => ?_
  refine (behaves_insertPasses _ v cands.list).bind fun x => ?_
  split
  · exact behaves_step trivial fun _ => behaves_pure _
  · exact behaves_tryMigrateAndInsert H _ v cands

/-! ### Resize -/

theorem calm_refreshCache : Calm (refreshCache : M L Unit) :=
  calm_step trivial fun _ => calm_perform trivial

theorem calm_checkVersionChanged : Calm (checkVersionChanged : M L Bool) :=
  calm_step trivial fun _ =>
    calm_step trivial fun _ => calm_pure _

theorem calm_notifyAllMds (nMds srv version : Nat) :
    Calm (notifyAllMds nMds srv version : M L Unit) := by
  refine Calm.bind ?_ fun _ => calm_perform trivial
  induction (List.range nMds).filter (· ≠ srv) with
  | nil => exact calm_pure _
  | cons i is ih => exact calm_step trivial fun _ => ih

theorem calm_waitLayoutReady (fuel : Nat) : Calm (waitLayoutReady fuel : M L Unit) := by
  induction fuel with
  | zero => exact calm_perform trivial
  | succ fuel ih =>
    refine calm_step trivial fun b => ?_
    split
    · refine calm_step trivial fun l => ?_
      split
      · exact calm_pure _
      · exact ih
    · exact calm_pure _

theorem calm_incrementDoneCount (fuel : Nat) : Calm (incrementDoneCount fuel : M L Unit) := by
  induction fuel with
  | zero => exact calm_perform trivial
  | succ fuel ih =>
    refine calm_step trivial fun m => calm_step trivial fun x => ?_
    split
    · exact calm_pure _
    · exact ih

theorem calm_copyLevels : Calm (copyLevels : M L Unit) :=
  have copy (m : Member) (f : Cache → Nat) : Calm (copyMember m f : M L Unit) :=
    calm_step trivial fun _ => calm_perform trivial
  (copy _ _).bind fun _ => (copy _ _).bind fun _ => (copy _ _).bind fun _ => copy _ _

theorem calm_beginMigration : Calm (beginMigration : M L Unit) :=
  calm_step trivial fun _ => calm_step trivial fun _ => calm_step trivial fun _ =>
    calm_step trivial fun _ => calm_copyLevels.bind fun _ => calm_perform trivial

theorem calm_waitAdopted (fuel : Nat) : Calm (waitAdopted fuel : M L Unit) := by
  induction fuel with
  | zero => exact calm_perform trivial
  | succ fuel ih =>
    refine calm_step trivial fun b => ?_
    split
    · exact ih
    · exact calm_pure _

theorem calm_adoptLayout (fuel : Nat) : Calm (adoptLayout fuel : M L Unit) := by
  refine calm_step trivial fun won => ?_
  split
  · exact calm_copyLevels.bind fun _ => calm_perform trivial
  · exact calm_waitAdopted fuel

theorem calm_refreshUntilReady (fuel : Nat) : Calm (refreshUntilReady fuel : M L Unit) := by
  induction fuel with
  | zero => exact calm_perform trivial
  | succ fuel ih =>
    refine calm_refreshCache.bind fun _ => calm_step trivial fun c => ?_
    split
    · exact calm_pure _
    · exact ih

theorem calm_refreshWhileEmpty (fuel : Nat) : Calm (refreshWhileEmpty fuel : M L Unit) := by
  induction fuel with
  | zero => exact calm_perform trivial
  | succ fuel ih =>
    refine calm_step trivial fun c => ?_
    split
    · exact calm_refreshCache.bind fun _ => ih
    · exact calm_pure _

theorem calm_checkResize (fuel : Nat) : Calm (checkResize fuel : M L Unit) := by
  refine calm_step trivial fun begun => ?_
  split
  · refine calm_step trivial fun l => ?_
    dsimp only
    split
    on_goal 1 => refine (calm_waitLayoutReady fuel).bind fun _ => ?_
    -- the resize may have been finalized
    all_goals
      refine calm_checkVersionChanged.bind fun b => ?_
      split
      · refine calm_step trivial fun m => ?_
        split
        · refine calm_step trivial fun won => ?_
          split
          · exact calm_refreshCache.bind fun _ => calm_perform trivial
          · exact calm_pure _
        · exact calm_pure _
      · exact calm_pure _
  · refine calm_checkVersionChanged.bind fun b => ?_
    split
    · refine calm_step trivial fun m => ?_
      split
      · refine calm_step trivial fun won => ?_
        split
        · exact (calm_refreshUntilReady fuel).bind fun _ => calm_beginMigration
        · exact calm_waitLayoutReady fuel
      · exact calm_refreshCache.bind fun _ => calm_adoptLayout fuel
    · exact calm_pure _

theorem calm_waitVersion (version fuel : Nat) : Calm (waitVersion version fuel : M L Unit) := by
  induction fuel with
  | zero => exact calm_perform trivial
  | succ fuel ih =>
    refine calm_step trivial fun m => ?_
    split
    · refine calm_step trivial fun l => ?_
      split
      · exact calm_pure _
      · exact ih
    · exact calm_pure _

theorem calm_publishLayout (nMds srv : Nat) : Calm (publishLayout nMds srv : M L Unit) := by
  refine calm_step trivial fun prev => ?_
  dsimp only
  split
  on_goal 1 =>
    refine calm_step trivial fun _ => calm_step trivial fun _ => calm_step trivial fun _ =>
      calm_step trivial fun _ => ?_
  all_goals
    exact calm_step trivial fun _ => (calm_notifyAllMds _ _ _).bind fun _ =>
      calm_step trivial fun _ => calm_step trivial fun _ => calm_step trivial fun _ =>
        calm_step trivial fun _ => calm_step trivial fun _ => calm_step trivial fun _ =>
          calm_step trivial fun _ => (calm_notifyAllMds _ _ _).bind fun _ => calm_refreshCache

theorem calm_tryInitiateResize (fuel nMds srv : Nat) :
    Calm (tryInitiateResize fuel nMds srv : M L Unit) := by
  have hrest : ∀ won : Bool, Calm (if won then publishLayout nMds srv else do
      waitVersion (← perform .loadCache).version fuel : M L Unit) := by
    intro won
    split
    · exact calm_publishLayout nMds srv
    · exact calm_step trivial fun c => calm_waitVersion _ fuel
  refine calm_step trivial fun m => ?_
  dsimp only
  split
  · exact calm_step trivial hrest
  · exact hrest false

theorem calm_joinMigration (fuel : Nat) : Calm (joinMigration fuel : M L Unit) := by
  refine (calm_refreshWhileEmpty fuel).bind fun _ => calm_step trivial fun b => ?_
  split
  · exact calm_beginMigration
  · exact calm_waitLayoutReady fuel

theorem calm_doResize (fuel nMds srv : Nat) : Calm (doResize fuel nMds srv : M L Unit) := by
  refine calm_checkVersionChanged.bind fun b => ?_
  split
  · refine calm_refreshCache.bind fun _ => calm_step trivial fun c => ?_
    split
    · exact calm_adoptLayout fuel
    · exact calm_joinMigration fuel
  · refine (calm_tryInitiateResize fuel nMds srv).bind fun _ => calm_step trivial fun won => ?_
    split
    · refine calm_refreshCache.bind fun _ => calm_step trivial fun c => ?_
      split
      · exact (calm_refreshWhileEmpty fuel).bind fun _ => calm_beginMigration
      · exact calm_step trivial fun _ => calm_adoptLayout fuel
    · exact calm_waitLayoutReady fuel

/-! ### Migration -/

theorem behaves_insertToNewLayout (H : Hashing K L) (fuel fp : Nat) (v : L × L) :
    Behaves (insertToNewLayout H fuel fp v) := by
  refine (behaves_getCandidates H fuel _).bind fun cands => ?_
  refine (behaves_insertPasses fp v cands.list).bind fun x => ?_
  split
  · exact behaves_pure _
  · refine (behaves_tryMigrateAndInsert H fp v cands).bind fun y => ?_
    split
    · exact behaves_step trivial fun _ => behaves_pure _
    · exact behaves_pure _

/-- What stays of a bucket that is migrated was there before. -/
theorem inside_migrateSlots (H : Hashing K L) (fuel : Nat) {f : (Slot → Nat) → M L α}
    (hf : ∀ left : Slot → Nat, (∀ s, left s ≠ 0 → left s = keys.fp s) →
      Inside a keys (fun _ => False) (f left)) (js : List Slot) (left : Slot → Nat)
    (hleft : ∀ s, left s ≠ 0 → left s = keys.fp s) :
    Inside a keys (fun _ => False) (migrateSlots H fuel a keys js left >>= f) := by
  induction js generalizing left with
  | nil => exact hf left hleft
  | cons j js ih =>
    unfold migrateSlots
    split
    · exact ih left hleft
    · rw [bind_bind]
      refine Inside.bind (behaves_readValue a j) fun v => ?_
      rw [bind_bind]
      refine Inside.bind (behaves_insertToNewLayout H fuel (keys.fp j) v) fun x => ?_
      split
      · refine ih _ fun s hs => ?_
        by_cases hsj : s = j
        · subst hsj
          exact (hs (Function.update_self _ _ _)).elim
        · rw [Function.update_of_ne hsj] at hs ⊢
          exact hleft s hs
      · exact ih left hleft

theorem behaves_migrateBucket (H : Hashing K L) (fuel : Nat) (a : Addr) (i : Nat) :
    Behaves (migrateBucket H fuel a i) := by
  refine Behaves.readHeader fun metas => ?_
  split
  · exact (behaves_pure _).at
  · next hd =>
    split
    · exact (behaves_perform (by trivial)).at
    · refine BehavesAt.lock (by simpa using hd) (behaves_pure _) ?_
      refine inside_migrateSlots H fuel (fun left hleft => ?_) slots metas.fp fun _ _ => rfl
      refine Inside.release (fun s hs => Or.inl (hleft s hs)) ?_
      split
      · exact behaves_perform trivial
      · exact behaves_pure _

theorem behaves_migrateStep (H : Hashing K L) (fuel : Nat) : Behaves (migrateStep H fuel) := by
  refine behaves_step trivial fun c => ?_
  split
  · exact behaves_pure _
  · split
    · refine behaves_step trivial fun reported => ?_
      dsimp only
      split
      · exact (calm_incrementDoneCount fuel).behaves.bind fun _ => behaves_perform trivial
      · exact behaves_perform trivial
    · exact behaves_migrateBucket H fuel _ _

theorem calm_checkFinalize (nMds srv : Nat) : Calm (checkFinalize nMds srv : M L Unit) := by
  refine calm_step trivial fun begun => ?_
  split
  · exact calm_pure _
  refine calm_step trivial fun c => ?_
  split
  · exact calm_pure _
  refine calm_step trivial fun m => ?_
  dsimp only
  split
  · exact calm_pure _
  split
  · exact calm_pure _
  refine calm_step trivial fun won => ?_
  split
  · exact calm_step trivial fun _ => calm_step trivial fun _ =>
      (calm_notifyAllMds _ _ _).bind fun _ => calm_refreshCache.bind fun _ =>
        calm_step trivial fun _ => calm_perform trivial
  · exact calm_pure _

/-! ### Public operations -/

section

variable (C : Config K L)

include C

theorem calm_preOp : Calm (preOp C) := by
  unfold preOp
  split
  · exact calm_checkResize C.fuel
  · exact calm_pure _

theorem behaves_insertOrResize (key : K) (v : L × L) : Behaves (insertOrResize C key v) := by
  refine (behaves_insertImpl C.hashing C.fuel key v).bind fun x => ?_
  split
  · exact behaves_pure _
  split
  · refine behaves_step trivial fun l => ?_
    split
    · exact behaves_pure _
    · exact (calm_doResize _ _ _).behaves.bind fun _ => behaves_insertImpl C.hashing C.fuel key v
  · exact behaves_pure _

theorem behaves_operation (q : Request K L) : Behaves (operation C q) := by
  cases q with
  | insert key v =>
    refine (behaves_insertOrResize C key v).bind fun x => ?_
    split <;> exact behaves_pure _
  | find key => exact behaves_findImpl C.hashing C.fuel key
  | update key writeFn =>
    exact behaves_actImpl C.hashing C.fuel key fun fp a keys hd =>
      behaves_tryUpdateIn C.hashing writeFn hd fp key
  | erase key =>
    exact behaves_actImpl C.hashing C.fuel key fun fp a keys hd =>
      behaves_tryEraseFrom C.hashing hd fp key

theorem behaves_postOp : Behaves (postOp C) := by
  unfold postOp
  split
  · refine behaves_step trivial fun begun => ?_
    split
    · exact (behaves_migrateStep C.hashing C.fuel).bind fun _ => (calm_checkFinalize C.nMds C.srv).behaves
    · exact behaves_pure _
  · exact behaves_pure _

/-- **Every public operation follows the discipline.** -/
theorem behaves_body (q : Request K L) : Behaves (body C q) :=
  (calm_preOp C).behaves.bind fun _ => (behaves_operation C q).bind fun _ =>
    (behaves_postOp C).bind fun _ => behaves_pure _

end

end StaxFS.Table
