import StaxFS.Table.Servers
import StaxFS.Table.Snapshots

/-!
# The two-level hash table: is a present key found?

A lookup computes its candidate buckets once and reads them one after the other. Movements and the
migration copy an entry to another bucket and then remove it from the first one. A lookup that has
loaded the layout before a resize, or has passed the bucket an entry goes to, misses a key that was in
the table all the time (`moved_key_missed`).

If the entry stays in its slot while the call runs, and no wait gives up (`Stays`), the call finds it:
whatever the call reads of the slot is the entry, so there can be no evidence of a miss.

Results:
* `StillThere.step`: what the call has read is the entry, one operation at a time.
* `present_found`: **a key that stays in its slot is found.**
* `moved_key_missed`: a migration makes a lookup miss a key that is in the table throughout.
-/

namespace StaxFS.Table

open Foundation Foundation.Prog List Option System

variable {K L : Type} [Inhabited L]

/-- Slot `s` of `a` holds the value `v` under the fingerprint `fp`. -/
def EntryAt (σ : State L) (a : Addr) (s : Slot) (fp : Nat) (v : L × L) : Prop :=
  (σ.bucket a).header.fp s = fp ∧ ((σ.bucket a).lines s false, (σ.bucket a).lines s true) = v

/-- A step of a run in which the entry of `key` stays in slot `s` of `a` while call `t` looks for it:
no other call writes the slot or its fingerprint, the bucket is a candidate of the layout that call `t`
has put together when it ends its loads, and call `t` does not give up waiting. -/
def Stays (H : Hashing K L) (key : K) (t : Nat) (a : Addr) (s : Slot) (P : Calls K L)
    (act : PoolAct (TableCall K L) Empty) : Prop :=
  ∀ u c tr op k, act = .step u → P.threads u = .active c tr (.call op k) →
    if u = t then
      (∀ b expected desired, op = .casHeader b expected desired → expected.dirty = false) ∧
      (op = .loadActive → ∀ l,
        loadedLayout (⟨.loadActive, (P.shared.1.servers c.1.srv).layout.active⟩ :: tr) = some l →
        ∃ x ∈ (H.candidates l key).list, x.addr = a)
    else
      (∀ second x, op ≠ .writeLine a s second x) ∧
      ∀ header, op = .writeHeader a header → header.fp s = H.makeFp key

/-- What a call has read of the slot is the entry. -/
def ReadsEntry (a : Addr) (s : Slot) (fp : Nat) (v : L × L) (tr : Trace L) : Prop :=
  (∀ keys, ⟨.readHeader a, keys⟩ ∈ tr → keys.fp s = fp) ∧
  (∀ x, ⟨.readLine a s false, x⟩ ∈ tr → x = v.1) ∧ ∀ x, ⟨.readLine a s true, x⟩ ∈ tr → x = v.2

/-- The entry is in its slot, and call `t` has seen it there; as long as the call has only written back
what it had read. -/
structure StillThere (H : Hashing K L) (key : K) (t : Nat) (a : Addr) (s : Slot) (v : L × L)
    (P : Calls K L) : Prop where
  entry : WritesBack (P.trace t) → EntryAt P.shared.1 a s (H.makeFp key) v
  reads : ∀ tr, tr <:+ P.trace t → WritesBack tr → ReadsEntry a s (H.makeFp key) v tr
  waits : ¬GaveUp (P.trace t)
  layouts : ∀ l, Loaded l (P.trace t) → ∃ x ∈ (H.candidates l key).list, x.addr = a

variable {tr : Trace L}

omit [Inhabited L] in
theorem WritesBack.tail {e : Event (Op L) Res} (h : WritesBack (e :: tr)) : WritesBack tr := by
  obtain ⟨op, r⟩ := e
  cases op <;> first | exact h.2 | exact h.elim | exact h

omit [Inhabited L] in
theorem op_of_loadedLayout {op : Op L} {r : Res op} {l : Layout}
    (h : loadedLayout (⟨op, r⟩ :: tr) = some l) : op = .loadActive := by
  unfold loadedLayout at h
  split at h
  · rename_i he
    cases he
    cases op <;> first | rfl | simp [activeLoad] at h
  · cases h

section Step

variable {E : Env} {H : Hashing K L} {key : K} {t : Nat} {a : Addr} {s : Slot} {v : L × L}
  {P : Calls K L} {u : Nat} {c : TableCall K L} {tr : Trace L} {op : Op L}
  {k : Res op → M L (Option (L × L))} {r : Res op} {σ' : State L} {fp : Nat}

/-- An operation that does not write the slot, and commits the fingerprint if it commits the bucket,
keeps the entry. -/
theorem EntryAt.step (h : EntryAt P.shared.1 a s fp v)
    (hmeets : P.Meets Obeys fun _ _ _ => True)
    (hth : P.threads u = .active c tr (.call op k))
    (hx : exec E c.1.srv op P.shared.1 = some (r, σ'))
    (hline : ∀ second x, op ≠ .writeLine a s second x)
    (hcommit : ∀ header, op = .writeHeader a header → header.fp s = fp) : EntryAt σ' a s fp v := by
  refine ⟨?_, ?_⟩
  · by_cases hw : isCommit a (⟨op, r⟩ : Event (Op L) Res) = true
    · cases op with
      | writeHeader a' header =>
        obtain rfl : a' = a := by simpa [isCommit] using hw
        rw [bucket_exec hx]
        simpa [Bucket.after] using hcommit header rfl
      | _ => cases hw
    · rw [fp_of_not_commit hmeets hth hx (by simpa using hw)]
      exact h.1
  · have hquiet : isSlotWrite a s (⟨op, r⟩ : Event (Op L) Res) = false := by
      by_contra hs
      obtain ⟨second, x, hop⟩ := eq_writeLine (by simpa using hs)
      exact hline second x hop
    rw [bucket_exec hx, lines_after_of_quiet hquiet]
    exact h.2

/-- The answer of a read is what is in memory. -/
theorem ReadsEntry.cons (h : ReadsEntry a s fp v tr)
    (hentry : EntryAt P.shared.1 a s fp v) (hx : exec E c.1.srv op P.shared.1 = some (r, σ')) :
    ReadsEntry a s fp v (⟨op, r⟩ :: tr) := by
  obtain ⟨hfp, hval⟩ := hentry
  refine ⟨fun keys hk => ?_, fun x hx' => ?_, fun x hx' => ?_⟩
  · rcases mem_cons.mp hk with he | hk
    · cases he
      cases hx
      exact hfp
    · exact h.1 keys hk
  · rcases mem_cons.mp hx' with he | hx'
    · cases he
      cases hx
      exact congrArg Prod.fst hval
    · exact h.2.1 x hx'
  · rcases mem_cons.mp hx' with he | hx'
    · cases he
      cases hx
      exact congrArg Prod.snd hval
    · exact h.2.2 x hx'

/-- An operation of the call itself. -/
theorem StillThere.own (h : StillThere H key t a s v P)
    (hmeets : P.Meets Obeys fun _ _ _ => True)
    (hth : P.threads t = .active c tr (.call op k))
    (hx : exec E c.1.srv op P.shared.1 = some (r, σ')) (hok : Stays H key t a s P (.step t)) :
    StillThere H key t a s v (Moved P t c tr op r (k r) σ') := by
  have htr := Pool.trace_of_active hth
  have hself : (Moved P t c tr op r (k r) σ').trace t = ⟨op, r⟩ :: tr := by
    rw [trace_moved, if_pos rfl]
  have hguard := hok t c tr op k rfl hth
  rw [if_pos rfl] at hguard
  refine ⟨fun hw => ?_, fun tr1 hs hw => ?_, fun hg => ?_, fun l hl => ?_⟩
  · rw [hself] at hw
    refine (h.entry (htr.symm ▸ hw.tail)).step hmeets hth hx (fun second x hop => ?_)
      fun header hop => ?_
    · subst hop
      exact hw
    · subst hop
      obtain ⟨⟨keys, hread, hfp⟩, hw⟩ := hw
      rw [hfp]
      exact (h.reads tr (htr.symm ▸ suffix_refl tr) hw).1 keys hread
  · rw [hself] at hs
    rcases suffix_cons_iff.mp hs with rfl | hs
    · exact (h.reads tr (htr.symm ▸ suffix_refl tr) hw.tail).cons
        (h.entry (htr.symm ▸ hw.tail)) hx
    · exact h.reads tr1 (htr.symm ▸ hs) hw
  · rw [hself] at hg
    obtain ⟨e, he, hgive⟩ := hg
    rcases mem_cons.mp he with rfl | he
    · cases op with
      | casHeader b expected desired =>
        have := hguard.1 b expected desired rfl
        rw [show expected.dirty = true from hgive] at this
        cases this
      | spin => cases hx
      | _ => cases hgive
    · exact h.waits ⟨e, htr.symm ▸ he, hgive⟩
  · rw [hself] at hl
    obtain ⟨tr1, hs, hl⟩ := hl
    rcases suffix_cons_iff.mp hs with rfl | hs
    · obtain rfl := op_of_loadedLayout hl
      cases hx
      exact hguard.2 rfl l hl
    · exact h.layouts l (htr.symm ▸ ⟨tr1, hs, hl⟩)

/-- **One operation.** -/
theorem StillThere.step {P' : Calls K L} {act : PoolAct (TableCall K L) Empty}
    (h : StillThere H key t a s v P) (hmeets : P.Meets Obeys fun _ _ _ => True)
    (hok : Stays H key t a s P act) (hst : (calls E).step P act = some P') :
    StillThere H key t a s v P' := by
  cases recorded_rule hst with
  | @start u c hidle =>
    have htrace := Pool.trace_start hidle c (body c.1 c.2) t
    refine ⟨fun hw => h.entry (htrace ▸ hw), fun tr1 hs => h.reads tr1 (htrace ▸ hs), ?_, ?_⟩
    · rw [htrace]
      exact h.waits
    · rw [htrace]
      exact h.layouts
  | @step u c tr op k r σ' hth hx =>
    by_cases hut : u = t
    · subst hut
      exact h.own hmeets hth hx hok
    · have htrace : (Moved P u c tr op r (k r) σ').trace t = P.trace t := by
        rw [trace_moved, if_neg (Ne.symm hut)]
      have hguard := hok u c tr op k rfl hth
      rw [if_neg hut] at hguard
      refine ⟨fun hw => ?_, fun tr1 hs => h.reads tr1 (htrace ▸ hs), ?_, ?_⟩
      · exact (h.entry (htrace ▸ hw)).step hmeets hth hx hguard.1 hguard.2
      · exact htrace.symm ▸ h.waits
      · exact htrace.symm ▸ h.layouts
  | @env e => exact e.elim

end Step

variable {key t : Nat} {σ : State Nat} {a : Addr} {s : Slot}

/-- The evidence of a miss at the bucket of the entry is a contradiction. -/
theorem StillThere.not_missedAll {H : Hashing K L} {key : K}
    {v : L × L} {P : Calls K L} (h : StillThere H key t a s v P) (hkey : H.extract v = key)
    (hs : tr <:+ P.trace t) : ¬MissedAll H key tr := by
  rintro ⟨hw, hgave | ⟨l, ⟨tr1, hs1, hl⟩, hall⟩⟩
  · exact h.waits (hgave.mono hs)
  obtain ⟨x, hx, rfl⟩ := h.layouts l ⟨tr1, hs1.trans hs, hl⟩
  obtain ⟨hheader, hfirst, hsecond⟩ := h.reads tr hs hw
  rcases hall x hx with ⟨keys, hread, hother⟩ | hgave
  · obtain ⟨y, z, hy, hz, hmatch⟩ := hother s (hheader keys hread)
    rw [hfirst y hy, hsecond z hz] at hmatch
    have : H.isMatch v key = true := (H.isMatch_iff v key).mpr hkey
    rw [hmatch] at this
    cases this
  · exact h.waits (hgave.mono hs)

/-- What a call that reports no key rests on. -/
def MissBacked (c : TableCall K L) (tr : Trace L) (x : Option (L × L)) : Prop :=
  ∀ key, c.2.lookup = some key → x = none → ∃ tr1, tr1 <:+ tr ∧ MissedAll c.1.hashing key tr1

omit [Inhabited L] in
theorem body_missBacked (c : TableCall K L) : Leads [] (body c.1 c.2) (MissBacked c) := by
  cases hl : c.2.lookup with
  | none => exact (leads_true _).mono fun tr x _ key hk => absurd (hl.symm.trans hk) nofun
  | some key' =>
    refine (leads_body c.1 c.2 hl).mono fun tr x hx key hk => ?_
    obtain rfl : key' = key := Option.some.inj (hl.symm.trans hk)
    exact hx.1

omit [Inhabited L] in
theorem body_obeys (c : TableCall K L) : Along Obeys (fun _ _ => True) [] (body c.1 c.2) :=
  (behaves_body c.1 c.2 [] trivial rfl).mono fun _ _ _ => trivial

/-- **A present key is found**: a `find`, `update` or `erase` whose key stays in its slot reports the
key. -/
theorem present_found (E : Env) {P P' : Calls K L} {t : Nat} {C : Config K L} {q : Request K L}
    {key : K} {a : Addr} {s : Slot} {v : L × L} {tr : Trace L} {r : Option (L × L)}
    (hreach : (calls E).Reach (fun _ _ => True) P) (hidle : P.threads t = .idle)
    (hentry : EntryAt P.shared.1 a s (C.hashing.makeFp key) v) (hkey : C.hashing.extract v = key)
    (hsteps : (calls E).Steps (Stays C.hashing key t a s) P P') (hq : q.lookup = some key)
    (hret : P'.threads t = .active (C, q) tr (.pure r)) : r ≠ none := by
  have hpool := hreach
  unfold calls recorded at hpool
  have hempty : P.trace t = [] := by simp [Pool.trace, hidle]
  have hstart : StillThere C.hashing key t a s v P := by
    refine ⟨fun _ => hentry, fun tr1 hs _ => ?_, ?_, ?_⟩ <;> rw [hempty] at *
    · rw [suffix_nil] at hs
      subst hs
      refine ⟨?_, ?_, ?_⟩ <;> simp
    · rintro ⟨e, he, -⟩
      cases he
    · rintro l ⟨tr1, hs, hl⟩
      rw [suffix_nil.mp hs] at hl
      cases hl
  obtain ⟨-, hmiss, hthere⟩ := hsteps.invariant
    (I := fun Q => Q.Meets Obeys (fun _ _ _ => True) ∧
      Q.Meets (fun _ _ => True) MissBacked ∧ StillThere C.hashing key t a s v Q)
    (fun Q act Q' hQ hok hst =>
      ⟨hQ.1.step body_obeys hst, hQ.2.1.step body_missBacked hst, hQ.2.2.step hQ.1 hok hst⟩)
    ⟨pool_along body_obeys hpool, pool_along body_missBacked hpool, hstart⟩
  intro hnone
  obtain ⟨tr1, hs, hmissed⟩ := hmiss t (C, q) tr _ hret key hq hnone
  exact hthere.not_missedAll hkey (Pool.trace_of_active hret ▸ hs) hmissed

/-- A test of `Stays`. -/
def stays (H : Hashing Nat Nat) (key t : Nat) (a : Addr) (s : Slot) (P : Calls Nat Nat) :
    PoolAct (TableCall Nat Nat) Empty → Bool
  | .step u =>
    match P.threads u with
    | .active _ _ (.call (.casHeader _ expected _) _) => u != t || !expected.dirty
    | .active c tr (.call .loadActive _) =>
      u != t || (loadedLayout
        (⟨.loadActive, (P.shared.1.servers c.1.srv).layout.active⟩ :: tr : Trace Nat)).all fun l =>
          (H.candidates l key).list.any fun x => x.addr == a
    | .active _ _ (.call (.writeLine a' s' _ _) _) => u == t || !(a' == a && s' == s)
    | .active _ _ (.call (.writeHeader a' header) _) =>
      u == t || a' != a || header.fp s == H.makeFp key
    | _ => true
  | _ => true

theorem stays_ok {H : Hashing Nat Nat}
    (P : Calls Nat Nat) (act : PoolAct (TableCall Nat Nat) Empty)
    (h : stays H key t a s P act = true) : Stays H key t a s P act := by
  rintro u c tr op k rfl hth
  simp only [stays, hth] at h
  split
  · next hu =>
    subst hu
    refine ⟨?_, ?_⟩
    · rintro b expected desired rfl
      simpa using h
    · rintro rfl l hl
      simpa [hl] using h
  · next hu =>
    refine ⟨?_, ?_⟩
    · rintro second x rfl
      simp [hu] at h
    · rintro header rfl
      simpa [hu] using h

def isIdle (P : Calls Nat Nat) (t : Nat) : Bool :=
  match P.threads t with
  | .idle => true
  | .active .. => false

theorem idle_of_isIdle {P : Calls Nat Nat} (h : isIdle P t = true) : P.threads t = .idle := by
  unfold isIdle at h
  split at h
  · assumption
  · cases h

/-- The parity of a key is its hash: all keys have the same candidates on a level of four buckets and
on one of two, but not on one of eight. -/
def parityHash : Hashing Nat Nat where
  hash key := key % 2
  extract v := v.1
  isMatch v key := v.1 == key
  isMatch_iff := fst_beq_iff

/-- Server 0 starts an operation, with resize enabled. -/
def startResizing (t : Nat) (q : Request Nat Nat) : PoolAct (TableCall Nat Nat) Empty :=
  .start t (config parityHash 2 1 0, q)

/-- 32 insertions fill the candidates of the two levels. -/
def filled : List (PoolAct (TableCall Nat Nat) Empty) :=
  (List.range 32).flatMap fun i => startResizing i (.insert i (i, 0)) :: operations i (18 + i / 8)

/-- A lookup of a key in the top level has loaded half of the layout; the next insertion starts a resize
and moves a bucket of the bottom level; the lookup loads the new layout and goes on. -/
def resizedFind : List (PoolAct (TableCall Nat Nat) Empty) :=
  startResizing 33 (.find 0) :: operations 33 7 ++
    startResizing 32 (.insert 32 (32, 0)) :: operations 32 371 ++ operations 33 194

theorem present_found_resized :
    ∃ (P P' : Calls Nat Nat) (tr : Trace Nat) (r : Option (Nat × Nat)),
      EntryAt P.shared.1 ⟨0, 1⟩ 0 (parityHash.makeFp 0) (0, 0) ∧
      (calls noHint).Steps (Stays parityHash 0 33 ⟨0, 1⟩ 0) P P' ∧
      (P.shared.1.servers 0).layout.active = false ∧ (P'.shared.1.servers 0).layout.active = true ∧
      P'.threads 33 = .active (config parityHash 2 1 0, .find 0) tr (.pure r) ∧ r ≠ none := by
  have hrun : ((calls noHint).runLabels filled noCalls).bind (fun P =>
      ((calls noHint).runChecked (stays parityHash 0 33 ⟨0, 1⟩ 0) resizedFind P).map fun P' =>
        (isIdle P 33 && (P.shared.1.bucket ⟨0, 1⟩).header.fp 0 == parityHash.makeFp 0 &&
          (P.shared.1.bucket ⟨0, 1⟩).lines 0 false == 0 &&
          (P.shared.1.bucket ⟨0, 1⟩).lines 0 true == 0, (P.shared.1.servers 0).layout.active,
          (P'.shared.1.servers 0).layout.active, (foundBy P' 33).isSome)) =
        some (true, false, true, true) := by
    decide +kernel
  obtain ⟨P, hP, hrun'⟩ := bind_eq_some_iff.mp hrun
  obtain ⟨P', hP', hout⟩ := map_eq_some_iff.mp hrun'
  simp only [Prod.mk.injEq, Bool.and_eq_true, beq_iff_eq] at hout
  obtain ⟨⟨⟨⟨hidle, hfp⟩, hfirst⟩, hsecond⟩, hbefore, hafter, hfound⟩ := hout
  obtain ⟨x, hx⟩ := isSome_iff_exists.mp hfound
  obtain ⟨C, tr, hth⟩ := active_of_foundBy hx
  have hcall : ((C, .find x.1) : TableCall Nat Nat) = (config parityHash 2 1 0, .find 0) := by
    have hlabels := runLabels_of_runChecked hP'
    unfold calls recorded at hlabels
    refine call_of_runLabels hlabels (fun c hc => ?_) (fun c tr p hp => ?_) _ tr _ hth
    · simpa only [resizedFind, startResizing, operations, mem_append, mem_cons,
        mem_replicate, PoolAct.start.injEq, reduceCtorEq, and_false, or_false, true_and,
        Nat.reduceEqDiff, false_and, cons_append] using hc
    · rw [idle_of_isIdle hidle] at hp
      cases hp
  rw [hcall] at hth
  have hentry : EntryAt P.shared.1 ⟨0, 1⟩ 0 (parityHash.makeFp 0) (0, 0) :=
    ⟨hfp, Prod.ext hfirst hsecond⟩
  have hsteps : (calls noHint).Steps (Stays parityHash 0 33 ⟨0, 1⟩ 0) P P' :=
    steps_runChecked stays_ok hP'
  have hreach : (calls noHint).Reach (fun _ _ => True) P :=
    reach_runLabels noCalls_start (fun _ _ _ => trivial) hP
  exact ⟨P, P', tr, some x.2, hentry, hsteps, hbefore, hafter, hth,
    present_found (C := config parityHash 2 1 0) (q := .find 0) noHint hreach (idle_of_isIdle hidle)
      hentry rfl hsteps rfl hth⟩

/-! ### A key that is moved -/

/-- The key is in one of its candidate buckets of the layout that the shared line describes, for a
table of `n` top-level buckets at first. -/
def KeyInTable (H : Hashing K L) (n : Nat) (key : K) (σ : State L) : Prop :=
  ∃ c ∈ (H.candidates (σ.resize.layout n) key).list, ∃ s v,
    EntryAt σ c.addr s (H.makeFp key) v ∧ H.extract v = key

/-- The key is in the table, no lock is cleared by force, and no call erases the key. -/
def KeyPresent (H : Hashing K L) (n : Nat) (key : K) (P : Calls K L)
    (act : PoolAct (TableCall K L) Empty) : Prop :=
  KeyInTable H n key P.shared.1 ∧
  (∀ u c tr b expected desired k, act = .step u →
    P.threads u = .active c tr (.call (.casHeader b expected desired) k) →
    expected.dirty = false) ∧
  ∀ u C, act ≠ .start u (C, .erase key)

def keyInTable (σ : State Nat) (key : Nat) : Bool :=
  (parityHash.candidates (σ.resize.layout 4) key).list.any fun c => slots.any fun s =>
    (σ.bucket c.addr).header.fp s == parityHash.makeFp key && (σ.bucket c.addr).lines s false == key

def keyPresent (key : Nat) (P : Calls Nat Nat) (act : PoolAct (TableCall Nat Nat) Empty) : Bool :=
  keyInTable P.shared.1 key &&
  match act with
  | .step u =>
    match P.threads u with
    | .active _ _ (.call (.casHeader _ expected _) _) => !expected.dirty
    | _ => true
  | .start _ (_, .erase key') => key' != key
  | _ => true

/-- A lookup of a key in the bottom level has loaded the layout; the next insertion starts a resize
and moves the bucket of the key; the lookup goes on. -/
def movedKey : List (PoolAct (TableCall Nat Nat) Empty) :=
  startResizing 33 (.find 16) :: operations 33 11 ++
    startResizing 32 (.insert 32 (32, 0)) :: operations 32 371 ++ operations 33 209

/-- The key of a `find` that has returned none. -/
def missedBy (P : Calls Nat Nat) (t : Nat) : Option Nat :=
  match P.threads t with
  | .active (_, .find key) _ (.pure none) => some key
  | _ => none

theorem active_of_missedBy {P : Calls Nat Nat} (h : missedBy P t = some key) :
    ∃ C tr, P.threads t = .active (C, .find key) tr (.pure none) := by
  unfold missedBy at h
  split at h
  · next C key' tr hth =>
    cases h
    exact ⟨C, tr, hth⟩
  · cases h

theorem keyInTable_ok (h : keyInTable σ key = true) : KeyInTable parityHash 4 key σ := by
  simp only [keyInTable, List.any_eq_true, Bool.and_eq_true, beq_iff_eq] at h
  obtain ⟨c, hc, s, -, hfp, hkey⟩ := h
  exact ⟨c, hc, s, _, ⟨hfp, rfl⟩, hkey⟩

theorem keyPresent_ok (P : Calls Nat Nat) (act : PoolAct (TableCall Nat Nat) Empty)
    (h : keyPresent key P act = true) : KeyPresent parityHash 4 key P act := by
  simp only [keyPresent, Bool.and_eq_true] at h
  obtain ⟨hin, h⟩ := h
  refine ⟨keyInTable_ok hin, ?_, ?_⟩
  · rintro u c tr b expected desired k rfl hth
    simpa [hth] using h
  · rintro u C rfl
    simp at h

/-- **A key that is moved is missed**: it is in the table from before the start of the `find` to its
end, no other call erases it and no lock is cleared by force. -/
theorem moved_key_missed :
    ∃ P P' : Calls Nat Nat, (calls noHint).Reach (fun _ _ => True) P ∧ P.threads 33 = .idle ∧
      (calls noHint).Steps (KeyPresent parityHash 4 16) P P' ∧
      KeyInTable parityHash 4 16 P'.shared.1 ∧
      ∃ tr, P'.threads 33 = .active (config parityHash 2 1 0, .find 16) tr (.pure none) := by
  have hrun : ((calls noHint).runLabels filled noCalls).bind (fun P =>
      ((calls noHint).runChecked (keyPresent 16) movedKey P).map fun P' =>
        (isIdle P 33, keyInTable P'.shared.1 16, (missedBy P' 33).isSome)) =
          some (true, true, true) := by
    decide +kernel
  obtain ⟨P, hP, hrun'⟩ := bind_eq_some_iff.mp hrun
  obtain ⟨P', hP', hout⟩ := map_eq_some_iff.mp hrun'
  simp only [Prod.mk.injEq] at hout
  obtain ⟨hidle, hin, hmissed⟩ := hout
  obtain ⟨key, hkey⟩ := isSome_iff_exists.mp hmissed
  obtain ⟨C, tr, hth⟩ := active_of_missedBy hkey
  have hcall : ((C, .find key) : TableCall Nat Nat) = (config parityHash 2 1 0, .find 16) := by
    have hlabels := runLabels_of_runChecked hP'
    unfold calls recorded at hlabels
    refine call_of_runLabels hlabels (fun c hc => ?_) (fun c tr p hp => ?_) _ tr _ hth
    · simpa only [movedKey, startResizing, operations, mem_append, mem_cons,
        mem_replicate, PoolAct.start.injEq, reduceCtorEq, and_false, or_false, true_and,
        Nat.reduceEqDiff, false_and, cons_append] using hc
    · rw [idle_of_isIdle hidle] at hp
      cases hp
  rw [hcall] at hth
  exact ⟨P, P', reach_runLabels noCalls_start (fun _ _ _ => trivial) hP,
    idle_of_isIdle hidle, steps_runChecked keyPresent_ok hP', keyInTable_ok hin, tr, hth⟩

end StaxFS.Table
