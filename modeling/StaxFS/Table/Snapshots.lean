import StaxFS.Table.Evidence
import StaxFS.Table.Exclusion

/-!
# The two-level hash table: a checked snapshot is valid

A call checks only the first word of a header: the compare-and-swap that locks a bucket, and the
second read of a scan. When no lock is cleared by force and fewer than 128 commits come in between
(`ValidLocks`), the word stands for the whole bucket: all fingerprints are those that were read, and
the lines read in between belong to one value.

`ValueInv` adds the values to the invariant of a bucket: a value is written in two steps, second
and first line, by the holder of the lock; the slots of an unlocked bucket hold whole values that were
committed (`Committed`).

Results:
* `ValueInv.step`: the invariant, one operation at a time.
* `bucket_snapshots`: **a lock is taken with the current header, and a scan that reports a match
  returns a committed value the slot holds.**
-/

namespace StaxFS.Table

open Foundation Foundation.Prog List

variable {K L : Type}

/-! ### Values in the history -/

/-- A line of slot `s` of `a` is written. -/
def isSlotWrite (a : Addr) (s : Slot) : Event (Op L) Res → Bool
  | ⟨.writeLine a' s' _ _, _⟩ => a' = a && s' = s
  | _ => false

/-- No line of the slot is written. -/
def SlotQuiet (a : Addr) (s : Slot) (hist : History (Op L) Res) : Prop :=
  ∀ e ∈ hist, isSlotWrite a s e.2 = false

/-- The last two writes to the slot are the two lines of `v`, by call `t`; `newer` is what came
after. -/
def WrittenBy (a : Addr) (s : Slot) (v : L × L) (t : Nat) (newer hist : History (Op L) Res) : Prop :=
  ∃ mid older,
    hist = newer ++ (t, ⟨.writeLine a s false v.1, ()⟩) ::
      (mid ++ (t, ⟨.writeLine a s true v.2, ()⟩) :: older) ∧
    SlotQuiet a s newer ∧ SlotQuiet a s mid

/-- The slot holds the whole value `v`, and the call that wrote it has committed it. -/
def Committed (a : Addr) (s : Slot) (v : L × L) (hist : History (Op L) Res) : Prop :=
  ∃ t newer header, WrittenBy a s v t newer hist ∧ (t, ⟨.writeHeader a header, ()⟩) ∈ newer

/-- Call `t` has just checked the value `v` of a slot in a scan for `key`: it has read the lines
between two reads of the header with one unlocked word, and `n` commits came in between. -/
def Scan (H : Hashing K L) (key : K) (t : Nat) (a : Addr) (s : Slot) (v : L × L) (n : Nat)
    (hist : History (Op L) Res) : Prop :=
  ∃ keys keys2 newer mid older,
    hist = (t, ⟨.readHeader a, keys2⟩) :: (newer ++ (t, ⟨.readHeader a, keys⟩) :: older) ∧
    eventsOf t newer = ⟨.readLine a s true, v.2⟩ :: ⟨.readLine a s false, v.1⟩ :: mid ∧
    keys.dirty = false ∧ keys.fp s = H.makeFp key ∧ keys2.word = keys.word ∧
    H.isMatch v key = true ∧ commits a newer = n

variable {H : Hashing K L} {key : K} {t : Nat} {v : L × L} {P : Calls K L} {a : Addr} {s : Slot}

/-- What a call that returned a value has scanned is in the history. -/
theorem scan_of_scanned {hist : History (Op L) Res} {tr : Trace L} (hs : tr <:+ eventsOf t hist)
    (h : Scanned H key v tr) : ∃ a s n hist1, hist1 <:+ hist ∧ Scan H key t a s v n hist1 := by
  obtain ⟨newer, hnewer⟩ := hs
  obtain ⟨a, s, keys, keys2, mid, older, rfl, hd, hfp, hword, hmatch⟩ := h
  obtain ⟨n1, o1, rfl, -, ho1⟩ := eventsOf_split hnewer.symm
  have ho2 : eventsOf t o1 = (⟨.readLine a s true, v.2⟩ :: ⟨.readLine a s false, v.1⟩ :: mid) ++
      ⟨.readHeader a, keys⟩ :: older := ho1
  obtain ⟨n2, o2, rfl, hn2, -⟩ := eventsOf_split ho2
  exact ⟨a, s, commits a n2, _, suffix_append _ _, keys, keys2, n2, mid, o2, rfl, hn2, hd, hfp,
    hword, hmatch, rfl⟩

/-! ### The values of a bucket -/

variable [Inhabited L]

/-- What holds of the values of bucket `a`. -/
structure ValueInv (P : Calls K L) (a : Addr) : Prop where
  used : ∀ s, (P.shared.1.bucket a).header.fp s ≠ 0 → ∃ e ∈ P.shared.2, isSlotWrite a s e.2 = true
  whole : ∀ s, (∃ e ∈ P.shared.2, isSlotWrite a s e.2 = true) →
    (∃ t, openHalf (P.trace t) = some (a, s)) ∨
    ∃ t newer, WrittenBy a s ((P.shared.1.bucket a).lines s false, (P.shared.1.bucket a).lines s true)
        t newer P.shared.2 ∧
      (held a (P.trace t) ≠ none ∨ ∃ header, (t, ⟨.writeHeader a header, ()⟩) ∈ newer)
  half : ∀ t s, openHalf (P.trace t) = some (a, s) → held a (P.trace t) ≠ none ∧
    ∃ newer older, P.shared.2 =
      newer ++ (t, ⟨.writeLine a s true ((P.shared.1.bucket a).lines s true), ()⟩) :: older ∧
      SlotQuiet a s newer

/-- **An unlocked bucket holds committed values.** -/
theorem ValueInv.committed (h : ValueInv P a) (hb : BucketInv P a)
    (hd : (P.shared.1.bucket a).header.dirty = false)
    (hfp : (P.shared.1.bucket a).header.fp s ≠ 0) :
    Committed a s ((P.shared.1.bucket a).lines s false, (P.shared.1.bucket a).lines s true)
      P.shared.2 := by
  have hfree := hb.free_of_unlocked hd
  rcases h.whole s (h.used s hfp) with ⟨t, ht⟩ | ⟨t, newer, hw, hheld | ⟨header, hc⟩⟩
  · exact absurd (hfree t) (h.half t s ht).1
  · exact absurd (hfree t) hheld
  · exact ⟨t, newer, header, hw, hc⟩

omit [Inhabited L] in
theorem lines_after_of_quiet {e : Event (Op L) Res}
    (h : isSlotWrite a s e = false) (b : Bucket L) : (b.after a e).lines s = b.lines s := by
  obtain ⟨op, r⟩ := e
  cases op with
  | writeLine a' s' second x =>
    simp only [Bucket.after]
    split
    · next ha =>
      have hs : s ≠ s' := by
        rintro rfl
        simp [isSlotWrite, ha] at h
      exact Function.update_of_ne hs _ _
    · rfl
  | casHeader a' expected desired | writeHeader a' keys => simp only [Bucket.after]; split <;> rfl
  | _ => rfl

omit [Inhabited L] in
/-- A write to a slot is one of its two lines. -/
theorem eq_writeLine {op : Op L} {r : Res op}
    (h : isSlotWrite a s (⟨op, r⟩ : Event (Op L) Res) = true) :
    ∃ second x, op = .writeLine a s second x := by
  cases op with
  | writeLine a' s' second x =>
    simp only [isSlotWrite, Bool.and_eq_true, decide_eq_true_eq] at h
    obtain ⟨rfl, rfl⟩ := h
    exact ⟨second, x, rfl⟩
  | _ => cases h

section Step

variable {E : Env} {P : Calls K L} {a : Addr} {t : Nat} {c : TableCall K L} {tr : Trace L}
  {op : Op L} {k : Res op → M L (Option (L × L))} {r : Res op} {σ' : State L}

/-- A write to a slot is by the holder of the lock. -/
theorem CallsInv.held_of_slotWrite (hi : CallsInv P) (hth : P.threads t = .active c tr
    (.call op k)) (h : isSlotWrite a s (⟨op, r⟩ : Event (Op L) Res) = true) :
    held a (P.trace t) ≠ none := by
  obtain ⟨second, x, rfl⟩ := eq_writeLine h
  have htr := Pool.trace_of_active hth
  rw [htr]
  exact (hi.meets t c tr _ hth).1.2 (htr ▸ hi.consistent t)

omit [Inhabited L] in
/-- An operation that does not write the slot keeps the value in it. -/
theorem WrittenBy.cons {v : L × L} {s : Slot} {u : Nat} {newer hist : History (Op L) Res}
    {x : Nat × Event (Op L) Res} (h : WrittenBy a s v u newer hist)
    (hq : isSlotWrite a s x.2 = false) : WrittenBy a s v u (x :: newer) (x :: hist) := by
  obtain ⟨mid, older, rfl, hn, hm⟩ := h
  exact ⟨mid, older, rfl, forall_mem_cons.mpr ⟨hq, hn⟩, hm⟩

theorem ValueInv.moved (h : ValueInv P a) (hi : CallsInv P)
    (hth : P.threads t = .active c tr (.call op k))
    (hx : exec E c.1.srv op P.shared.1 = some (r, σ')) :
    ValueInv (Moved P t c tr op r (k r) σ') a := by
  have htr := Pool.trace_of_active hth
  have hobeys := (hi.meets t c tr _ hth).1
  have hself : (Moved P t c tr op r (k r) σ').trace t = ⟨op, r⟩ :: tr := by
    rw [trace_moved, if_pos rfl]
  have hother : ∀ u, u ≠ t → (Moved P t c tr op r (k r) σ').trace u = P.trace u := fun u hu => by
    rw [trace_moved, if_neg hu]
  refine ⟨fun s hfp => ?_, fun s hw => ?_, fun u s hu => ?_⟩
  · -- a slot in use was in use before, or was written by the call that commits
    suffices hold : ∃ e ∈ P.shared.2, isSlotWrite a s e.2 = true by
      obtain ⟨e, he, hs⟩ := hold
      exact ⟨e, mem_cons_of_mem _ he, hs⟩
    by_cases hw : isCommit a (⟨op, r⟩ : Event (Op L) Res) = true
    · cases op with
      | writeHeader a' header =>
        obtain rfl : a' = a := by simpa [isCommit] using hw
        obtain ⟨keys, fp, hheld, rfl, hfrom⟩ := hobeys.2 (htr ▸ hi.consistent t)
        have hnew : (σ'.bucket a').header = keys.unlocked fp := by
          rw [bucket_exec hx]
          simp [Bucket.after]
        change (σ'.bucket a').header.fp s ≠ 0 at hfp
        rw [hnew] at hfp
        rcases hfrom s hfp with heq | ⟨x, hmem⟩
        · refine h.used s ?_
          rw [(hi.bucket a').locked t keys (htr.symm ▸ hheld)]
          exact heq ▸ hfp
        · rw [← htr, ← hi.ordered t, mem_eventsOf] at hmem
          exact ⟨_, hmem, by simp [isSlotWrite]⟩
      | _ => cases hw
    · refine h.used s ?_
      rwa [← fp_of_not_commit hi.meets hth hx (by simpa using hw)]
  · by_cases hslot : isSlotWrite a s (⟨op, r⟩ : Event (Op L) Res) = true
    · obtain ⟨second, x, rfl⟩ := eq_writeLine hslot
      cases second with
      | true => exact .inl ⟨t, by rw [hself]; rfl⟩
      | false =>
        -- the first line follows the second one of the same call
        have hopen : openHalf (P.trace t) = some (a, s) := htr.symm ▸ (hobeys.1 a s).mpr ⟨x, rfl⟩
        obtain ⟨hheld, newer, older, hsplit, hq⟩ := h.half t s hopen
        have hlines : (σ'.bucket a).lines s =
            Function.update ((P.shared.1.bucket a).lines s) false x := by
          rw [bucket_exec hx]
          simp [Bucket.after]
        refine .inr ⟨t, [], ⟨newer, older, ?_, fun _ h => (not_mem_nil h).elim, hq⟩, .inl ?_⟩
        · change _ :: P.shared.2 = [] ++ (t, ⟨.writeLine a s false ((σ'.bucket a).lines s false), ()⟩) ::
            (newer ++ (t, ⟨.writeLine a s true ((σ'.bucket a).lines s true), ()⟩) :: older)
          rw [hlines, hsplit]
          simp
        · rw [hself]
          exact htr ▸ hheld
    · have hq : isSlotWrite a s (⟨op, r⟩ : Event (Op L) Res) = false := by simpa using hslot
      have hlines : (σ'.bucket a).lines s = (P.shared.1.bucket a).lines s := by
        rw [bucket_exec hx, lines_after_of_quiet hq]
      have hwritten : ∃ e ∈ P.shared.2, isSlotWrite a s e.2 = true := by
        obtain ⟨e, he, hs⟩ := hw
        rcases mem_cons.mp he with rfl | he
        · exact absurd hs hslot
        · exact ⟨e, he, hs⟩
      rcases h.whole s hwritten with ⟨u, hu⟩ | ⟨u, newer, hby, hcommit⟩
      · by_cases hut : u = t
        · subst hut
          rw [htr] at hu
          obtain ⟨x, rfl⟩ := (hobeys.1 a s).mp hu
          simp [isSlotWrite] at hq
        · exact .inl ⟨u, by rw [hother u hut]; exact hu⟩
      · refine .inr ⟨u, (t, ⟨op, r⟩) :: newer, ?_, ?_⟩
        · change WrittenBy a s ((σ'.bucket a).lines s false, (σ'.bucket a).lines s true) u _ _
          rw [hlines]
          exact hby.cons hq
        · rcases hcommit with hheld | ⟨header, hc⟩
          · by_cases hut : u = t
            · subst hut
              rw [hself, held_cons]
              split
              · next hl =>
                cases op with
                | casHeader a' expected desired =>
                  obtain ⟨keys, hread, -⟩ := hobeys.2
                  obtain rfl : a' = a := by
                    simp only [isLock, Bool.and_eq_true, decide_eq_true_eq] at hl
                    exact hl.1.1
                  exact .inl (by rw [hread]; simp)
                | _ => cases hl
              · split
                · next hw' =>
                  cases op with
                  | writeHeader a' header =>
                    obtain rfl : a' = a := by simpa [isCommit] using hw'
                    exact .inr ⟨header, mem_cons_self⟩
                  | _ => cases hw'
                · exact .inl (htr ▸ hheld)
            · exact .inl (by rw [hother u hut]; exact hheld)
          · exact .inr ⟨header, mem_cons_of_mem _ hc⟩
  · by_cases hut : u = t
    · subst hut
      rw [hself] at hu ⊢
      cases op with
      | writeLine a' s' second x =>
        cases second with
        | true =>
          cases hu
          refine ⟨hobeys.2 (htr ▸ hi.consistent u), [], P.shared.2, ?_, fun _ h => (not_mem_nil h).elim⟩
          have hline : (σ'.bucket a).lines s true = x := by
            rw [bucket_exec hx]
            simp [Bucket.after]
          change _ :: P.shared.2 =
            [] ++ (u, ⟨.writeLine a s true ((σ'.bucket a).lines s true), ()⟩) :: P.shared.2
          rw [hline]
          rfl
        | false => cases hu
      | _ => cases hu
    · rw [hother u hut] at hu ⊢
      obtain ⟨hheld, newer, older, hsplit, hq⟩ := h.half u s hu
      have hquiet : isSlotWrite a s (⟨op, r⟩ : Event (Op L) Res) = false := by
        by_contra hslot
        exact hut ((hi.bucket a).one u t hheld
          (hi.held_of_slotWrite hth (by simpa using hslot)))
      have hlines : (σ'.bucket a).lines s = (P.shared.1.bucket a).lines s := by
        rw [bucket_exec hx, lines_after_of_quiet hquiet]
      refine ⟨hheld, (t, ⟨op, r⟩) :: newer, older, ?_, forall_mem_cons.mpr ⟨hquiet, hq⟩⟩
      change _ :: P.shared.2 =
        _ :: newer ++ (u, ⟨.writeLine a s true ((σ'.bucket a).lines s true), ()⟩) :: older
      rw [hlines, hsplit]
      rfl

end Step

/-! ### The check of a scan -/

/-- **A checked value is what the slot holds**: the header and the lines are those that were read. -/
theorem CallsInv.scan (hi : CallsInv P)
    {n : Nat} (h : Scan H key t a s v n P.shared.2) (hn : n < 128) :
    (P.shared.1.bucket a).header.dirty = false ∧
      (P.shared.1.bucket a).header.fp s = H.makeFp key ∧
      ((P.shared.1.bucket a).lines s false, (P.shared.1.bucket a).lines s true) = v := by
  obtain ⟨keys, keys2, newer, mid, older, hhist, hevents, hd, hfp, hword, -, rfl⟩ := h
  have hb := hi.bucket a
  have hnow : (P.shared.1.bucket a).header = keys2 := (hb.since [] t keys2 _ hhist).first rfl
  have hsince := hb.since ((t, ⟨.readHeader a, keys2⟩) :: newer) t keys older hhist
  have hcount : commits a ((t, ⟨.readHeader a, keys2⟩) :: newer : History (Op L) Res) =
      commits a newer := commits_cons a _ newer
  obtain ⟨h0, heq⟩ := hsince.eq_of_word (by rw [hnow, hword]) hd (by rw [hcount]; exact hn)
  have hquiet := hsince.quiet h0 (by rw [heq]; exact hd)
  have hev : eventsOf t newer =
      [] ++ ⟨.readLine a s true, v.2⟩ :: (⟨.readLine a s false, v.1⟩ :: mid) := hevents
  obtain ⟨n1, n2, rfl, -, hn2⟩ := eventsOf_split hev
  have hev2 : eventsOf t n2 = [] ++ ⟨.readLine a s false, v.1⟩ :: mid := hn2
  obtain ⟨n3, n4, rfl, -, -⟩ := eventsOf_split hev2
  refine ⟨by rw [heq]; exact hd, by rw [heq]; exact hfp, Prod.ext ?_ ?_⟩
  · refine hb.lines ((t, ⟨.readHeader a, keys2⟩) :: (n1 ++ (t, ⟨.readLine a s true, v.2⟩) :: n3)) t s
      false v.1 (n4 ++ (t, ⟨.readHeader a, keys⟩) :: older) (by simpa using hhist) fun e he => ?_
    refine hquiet e ?_
    simp only [mem_cons, mem_append] at he ⊢
    tauto
  · refine hb.lines ((t, ⟨.readHeader a, keys2⟩) :: n1) t s true v.2
      (n3 ++ (t, ⟨.readLine a s false, v.1⟩) :: (n4 ++ (t, ⟨.readHeader a, keys⟩) :: older))
      (by simpa using hhist) fun e he => ?_
    refine hquiet e ?_
    simp only [mem_cons, mem_append] at he ⊢
    tauto

/-- What holds in every state, and of every check made so far. -/
structure SnapshotInv (P : Calls K L) : Prop where
  calls : CallsInv P
  values : ∀ a, ValueInv P a
  past : ∀ hist, hist <:+ P.shared.2 → ∀ (H : Hashing K L) key t a s v n,
    Scan H key t a s v n hist → n < 128 → Committed a s v hist

theorem committed_of_scan (hi : CallsInv P) (hv : ∀ a, ValueInv P a) {n : Nat}
    (h : Scan H key t a s v n P.shared.2) (hn : n < 128) : Committed a s v P.shared.2 := by
  obtain ⟨hd, hfp, rfl⟩ := hi.scan h hn
  exact (hv a).committed (hi.bucket a) hd (by rw [hfp]; exact H.makeFp_ne_zero key)

variable {E : Env}

theorem SnapshotInv.step {P P' : Calls K L} {act : PoolAct (TableCall K L) Empty}
    (h : SnapshotInv P) (hok : ValidLocks P act) (hst : (Table.calls E).step P act = some P') :
    SnapshotInv P' := by
  have hcalls := h.calls.step hok hst
  cases recorded_rule hst with
  | @start t c hidle =>
    have htrace := Pool.trace_start hidle c (body c.1 c.2)
    refine ⟨hcalls, fun a => ⟨(h.values a).used, fun s hw => ?_, fun u s hu => ?_⟩, h.past⟩
    · simp only [htrace]
      exact (h.values a).whole s hw
    · rw [htrace] at hu ⊢
      exact (h.values a).half u s hu
  | @step t c tr op k r σ' hth hx =>
    have hvalues : ∀ a, ValueInv (Moved P t c tr op r (k r) σ') a := fun a =>
      (h.values a).moved h.calls hth hx
    refine ⟨hcalls, hvalues, fun hist hs H key u a s v n hscan hn => ?_⟩
    rcases suffix_cons_iff.mp hs with rfl | hs
    · exact committed_of_scan hcalls hvalues hscan hn
    · exact h.past hist hs H key u a s v n hscan hn
  | @env e => exact e.elim

theorem snapshotInv (h : (calls E).Reach ValidLocks P) : SnapshotInv P := by
  refine h.invariant (fun P hs => ?_) fun P act _ _ hi hok hst => hi.step hok hst
  have hcalls := callsInv_of_start hs
  obtain ⟨⟨⟨n, hσ⟩, hnil⟩, hidle⟩ := hs
  refine ⟨hcalls, fun a => ⟨fun s hfp => ?_, fun s hw => ?_, fun u s hu => ?_⟩,
    fun hist hsuf H key t a s v n hscan => ?_⟩
  · rw [hσ] at hfp
    exact absurd rfl hfp
  · obtain ⟨e, he, -⟩ := hw
    rw [hnil] at he
    cases he
  · simp [Pool.trace, hidle u, openHalf] at hu
  · rw [hnil, suffix_nil] at hsuf
    subst hsuf
    obtain ⟨_, _, _, _, _, hhist, -⟩ := hscan
    cases hhist

/-- A `find` that has returned a value has scanned it. -/
theorem scan_of_find {ok : Calls K L → PoolAct (TableCall K L) Empty → Prop}
    (h : (calls E).Reach ok P) (hordered : Ordered P) {C : Config K L} {tr : Trace L}
    (hth : P.threads t = .active (C, .find key) tr (.pure (some v))) :
    ∃ a s n hist, hist <:+ P.shared.2 ∧ Scan C.hashing key t a s v n hist := by
  have hbody : ∀ c : TableCall K L, Along (fun _ _ => True) (fun tr x => ∀ key, c.2 = .find key →
      ∀ v, x = some v → ∃ tr1, tr1 <:+ tr ∧ Scanned c.1.hashing key v tr1) [] (body c.1 c.2) := by
    rintro ⟨C', q⟩
    cases q with
    | find key' =>
      refine (leads_body C' (.find key') rfl).mono fun tr x hx key hk v hv => ?_
      cases hk
      exact hx.2 v hv rfl
    | _ => exact (leads_true _).mono fun _ _ _ _ => nofun
  unfold calls recorded at h
  obtain ⟨tr1, hs, hscanned⟩ := pool_along hbody h t _ tr _ hth key rfl v rfl
  refine scan_of_scanned ?_ hscanned
  rw [hordered t, Pool.trace_of_active hth]
  exact hs

/-- **Bucket snapshots are valid**: a lock is taken with the header that is there, all eight
fingerprints included; a scan that reports a match has a whole committed value of the key that the
slot holds at that moment; and every value a `find` returns comes from such a scan. -/
theorem bucket_snapshots (E : Env) {P : Calls K L} (h : (calls E).Reach ValidLocks P) (a : Addr) :
    (∀ t c tr expected desired k,
      P.threads t = .active c tr (.call (.casHeader a expected desired) k) →
      expected.dirty = false → (P.shared.1.bucket a).header.word = expected →
      sinceRead t a P.shared.2 < 128 → lastRead a tr = some (P.shared.1.bucket a).header) ∧
    (∀ (H : Hashing K L) key t s v n, Scan H key t a s v n P.shared.2 → n < 128 →
      (P.shared.1.bucket a).header.dirty = false ∧
      (P.shared.1.bucket a).header.fp s = H.makeFp key ∧
      ((P.shared.1.bucket a).lines s false, (P.shared.1.bucket a).lines s true) = v ∧
      H.extract v = key ∧ Committed a s v P.shared.2) ∧
    ∀ t C key tr v, P.threads t = .active (C, .find key) tr (.pure (some v)) →
      ∃ b s n hist, hist <:+ P.shared.2 ∧ Scan C.hashing key t b s v n hist ∧
        (n < 128 → Committed b s v hist) := by
  have hinv := snapshotInv h
  refine ⟨fun t c tr expected desired k hth hd hword hlt => ?_, fun H key t s v n hscan hn => ?_,
    fun t C key tr v hth => ?_⟩
  · exact (hinv.calls.lastRead_of_lock hth hd hword hlt).1
  · obtain ⟨hd, hfp, hv⟩ := hinv.calls.scan hscan hn
    have hmatch : H.isMatch v key = true := by
      obtain ⟨_, _, _, _, _, -, -, -, -, -, hm, -⟩ := hscan
      exact hm
    exact ⟨hd, hfp, hv, (H.isMatch_iff v key).mp hmatch, committed_of_scan hinv.calls hinv.values
      hscan hn⟩
  · obtain ⟨b, s, n, hist, hs, hscan⟩ := scan_of_find h hinv.calls.ordered hth
    exact ⟨b, s, n, hist, hs, hscan, fun hn => hinv.past hist hs _ key t b s v n hscan hn⟩

/-- After an insertion, a lookup of the key is overtaken by an update between the two lines of the
value. It reads the bucket once more. -/
def overtakenFind : List (PoolAct (TableCall Nat Nat) Empty) :=
  startCall 0 (.insert 1 (1, 5)) :: operations 0 14 ++ startCall 1 (.find 1) :: operations 1 14 ++
    startCall 2 (.update 1 fun v => (v.1, v.2 + 4)) :: operations 2 19 ++ operations 1 9

/-- The key and the value of a `find` that has returned one. -/
def foundBy (P : Calls Nat Nat) (t : Nat) : Option (Nat × (Nat × Nat)) :=
  match P.threads t with
  | .active (_, .find key) _ (.pure (some v)) => some (key, v)
  | _ => none

theorem active_of_foundBy {P : Calls Nat Nat} {key : Nat} {v : Nat × Nat}
    (h : foundBy P t = some (key, v)) :
    ∃ C tr, P.threads t = .active (C, .find key) tr (.pure (some v)) := by
  unfold foundBy at h
  split at h
  · next C key' tr v' hth =>
    cases h
    exact ⟨C, tr, hth⟩
  · cases h

theorem bucket_snapshots_overtaken :
    ∃ (P : Calls Nat Nat) (C : Config Nat Nat), (calls noHint).Reach ValidLocks P ∧
      ∃ b s n hist, hist <:+ P.shared.2 ∧ Scan C.hashing 1 1 b s (1, 9) n hist ∧
        (n < 128 → Committed b s (1, 9) hist) := by
  have hrun : ((calls noHint).runChecked locksRespected overtakenFind noCalls).map
      (fun P => foundBy P 1) = some (some (1, 1, 9)) := by
    decide +kernel
  obtain ⟨P, hP, hout⟩ := Option.map_eq_some_iff.mp hrun
  obtain ⟨C, tr, hth⟩ := active_of_foundBy hout
  have hvalid : ∀ (Q : Calls Nat Nat) act, CallsInv Q → locksRespected Q act = true →
      ValidLocks Q act := fun Q act hi ht => (locksRespected_ok Q act ht).valid hi
  have hreach : (calls noHint).Reach ValidLocks P := by
    refine (System.Reach.start noCalls_start).steps
      (System.steps_runChecked_of (I := CallsInv) (fun Q act Q' hi ht hst => ?_)
        (callsInv_of_start noCalls_start) hP)
    exact ⟨hvalid Q act hi ht, hi.step (hvalid Q act hi ht) hst⟩
  exact ⟨P, C, hreach, (bucket_snapshots noHint hreach firstBucket).2.2 1 C 1 tr (1, 9) hth⟩

end StaxFS.Table
