import StaxFS.Table.Contents

/-!
# The two-level hash table: what find, update and erase do when they run alone

A call that runs alone finds no bucket locked, so no candidate is contended and the phases of `search`
come down to one try per candidate, in an order that the tag hint chooses.

Results:
* `ends_search`: if a try at a bucket either has a result or shows that the bucket has none, so does
  the search over all candidates.
* `ends_findImpl`, `ends_updateImpl`, `ends_eraseImpl`: the call succeeds if and only if one of the
  candidates has an entry with the key; the entry is returned, rewritten or removed.
-/

namespace StaxFS.Table

open Foundation Foundation.Prog List Function

variable {K L R : Type} [Inhabited L] {writeFn : L × L → L × L} {d : Int}

/-! ### The phases without contention -/

section Search

variable {E : Env} {srv : Nat} {I : State L → Prop} {Miss : Addr → Prop} {Hit : R → State L → Prop}

/-- A try at `a` keeps `I` and shows that the bucket has nothing, or hits. -/
def TryEnds (E : Env) (srv : Nat) (I : State L → Prop) (Miss : Addr → Prop)
    (Hit : R → State L → Prop) (p : M L (Try R)) (a : Addr) : Prop :=
  ∀ σ, I σ → Ends (exec E srv) p σ fun t σ' =>
    (∃ r, t = .hit r ∧ Hit r σ') ∨ (t = .miss ∧ I σ' ∧ Miss a)

variable {fp : Nat} {probe : Addr → M L (Try R)}

theorem ends_hinted (hask : ∀ σ, I σ → I { σ with asked := σ.asked + 1 }) :
    ∀ (cs : List Cand) (σ : State L), I σ →
      (∀ c ∈ cs, TryEnds E srv I Miss Hit (probe c.addr) c.addr) →
      Ends (exec E srv) (hinted fp probe cs) σ fun t σ' =>
        (∃ r, t = .inl r ∧ Hit r σ') ∨
          ∃ rest, t = .inr ([], rest) ∧ I σ' ∧ (∀ c ∈ rest, c ∈ cs) ∧
            ∀ c ∈ cs, c ∈ rest ∨ Miss c.addr
  | [], _, h, _ => .pure (.inr ⟨[], rfl, h, nofun, nofun⟩)
  | c :: cs, σ, h, hprobe => by
    have hcs : ∀ c' ∈ cs, TryEnds E srv I Miss Hit (probe c'.addr) c'.addr := fun c' hc' =>
      hprobe c' (mem_cons_of_mem c hc')
    refine .seq ((ends_perform rfl).mpr ?_)
    split
    · refine (hprobe c mem_cons_self _ (hask σ h)).bind fun t σ' ht => ?_
      obtain ⟨r, rfl, hr⟩ | ⟨rfl, hI, hmiss⟩ := ht
      · exact .pure (.inl ⟨r, rfl, hr⟩)
      · refine (ends_hinted hask cs σ' hI hcs).mono fun t σ'' ht => ht.imp_right ?_
        rintro ⟨rest, rfl, hI', hsub, hall⟩
        refine ⟨rest, rfl, hI', fun c' hc' => mem_cons_of_mem c (hsub c' hc'), ?_⟩
        rintro c' (_ | ⟨_, hc'⟩)
        · exact .inr hmiss
        · exact hall c' hc'
    · refine (ends_hinted hask cs _ (hask σ h) hcs).bind fun t σ' ht => ?_
      obtain ⟨r, rfl, hr⟩ | ⟨rest, rfl, hI, hsub, hall⟩ := ht
      · exact .pure (.inl ⟨r, rfl, hr⟩)
      · refine .pure (.inr ⟨c :: rest, rfl, hI, ?_, ?_⟩)
        · rintro c' (_ | ⟨_, hc'⟩)
          · exact mem_cons_self
          · exact mem_cons_of_mem c (hsub c' hc')
        · rintro c' (_ | ⟨_, hc'⟩)
          · exact .inl mem_cons_self
          · exact (hall c' hc').imp_left (mem_cons_of_mem c)

theorem ends_probeAll : ∀ (cs : List Cand) (σ : State L), I σ →
      (∀ c ∈ cs, TryEnds E srv I Miss Hit (probe c.addr) c.addr) →
      Ends (exec E srv) (probeAll probe cs) σ fun t σ' =>
        (∃ r, t = .inl r ∧ Hit r σ') ∨ (t = .inr [] ∧ I σ' ∧ ∀ c ∈ cs, Miss c.addr)
  | [], _, h, _ => .pure (.inr ⟨rfl, h, nofun⟩)
  | c :: cs, σ, h, hprobe => by
    refine (hprobe c mem_cons_self σ h).bind fun t σ' ht => ?_
    obtain ⟨r, rfl, hr⟩ | ⟨rfl, hI, hmiss⟩ := ht
    · exact .pure (.inl ⟨r, rfl, hr⟩)
    · refine (ends_probeAll cs σ' hI fun c' hc' => hprobe c' (mem_cons_of_mem c hc')).mono
        fun t σ'' ht => ht.imp_right ?_
      rintro ⟨rfl, hI', hall⟩
      refine ⟨rfl, hI', ?_⟩
      rintro c' (_ | ⟨_, hc'⟩)
      · exact hmiss
      · exact hall c' hc'

/-- **Without contention** a search hits, or shows that no candidate has anything. -/
theorem ends_search {cands : List Cand} {retry : Addr → M L (Option R)}
    {again : Cand → M L (Option R)} {σ : State L} (Miss : Addr → Prop) (Hit : R → State L → Prop)
    (h : I σ) (hask : ∀ σ, I σ → I { σ with asked := σ.asked + 1 })
    (hprobe : ∀ c ∈ cands, TryEnds E srv I Miss Hit (probe c.addr) c.addr) :
    Ends (exec E srv) (search fp cands probe retry again) σ fun o σ' =>
      (∃ r, o = some r ∧ Hit r σ') ∨ (o = none ∧ I σ' ∧ ∀ c ∈ cands, Miss c.addr) := by
  refine (ends_hinted hask cands σ h hprobe).bind fun t σ' ht => ?_
  obtain ⟨r, rfl, hr⟩ | ⟨rest, rfl, hI, hsub, hall⟩ := ht
  · exact .pure (.inl ⟨r, rfl, hr⟩)
  · refine (ends_probeAll rest σ' hI fun c hc => hprobe c (hsub c hc)).bind fun t σ'' ht => ?_
    obtain ⟨r, rfl, hr⟩ | ⟨rfl, hI', hmiss⟩ := ht
    · exact .pure (.inl ⟨r, rfl, hr⟩)
    · have hwait : cands.filter (fun c => c ∈ ([] ++ [] : List Cand)) = [] :=
        filter_eq_nil_iff.mpr fun _ _ => by simp
      simp only [hwait, firstHit, any_nil, Bool.false_eq_true, if_false]
      exact .pure (.inr ⟨rfl, hI', fun c hc => (hall c hc).elim (hmiss c) id⟩)

end Search

/-! ### One bucket -/

/-- One cell is changed, and the counter by `d`. -/
structure Sets (srv : Nat) (Home : Addr → Entry L → Prop) (x : Addr × Slot) (o : Option (Entry L))
    (d : Int) (σ σ' : State L) : Prop where
  good : Good Home ∅ σ'
  frame : Frame srv σ σ'
  size : σ'.size srv = σ.size srv + d
  cell : σ'.cell = Function.update σ.cell x o

section Bucket

variable {E : Env} {srv : Nat} {Home : Addr → Entry L → Prop} {H : Hashing K L} {σ : State L}
  {a : Addr} {keys : Header} {key : K} {fp : Nat} {o : Option (Entry L)} {σ' : State L} {s : Slot}
  {v : L × L} {x : Addr × Slot}

theorem Keeps.sets {σ'' : State L}
    (h : Keeps srv Home ∅ σ σ') (h' : Sets srv Home x o d σ' σ'') : Sets srv Home x o d σ σ'' where
  good := h'.good
  frame := h.frame.trans h'.frame
  size := h.size ▸ h'.size
  cell := h.cell ▸ h'.cell

/-- Some slot of the bucket has an entry with the key. -/
def HasKey (H : Hashing K L) (σ : State L) (fp : Nat) (key : K) (a : Addr) (v : L × L) (s : Slot) :
    Prop :=
  σ.cell (a, s) = some (fp, v) ∧ H.extract v = key

/-- No slot in `ss` has one. -/
def NoKey (H : Hashing K L) (σ : State L) (fp : Nat) (key : K) (a : Addr) (ss : List Slot) : Prop :=
  ∀ s ∈ ss, ∀ v, ¬HasKey H σ fp key a v s

theorem noKey_cons {ss : List Slot} (hs : ∀ v, ¬HasKey H σ fp key a v s)
    (h : NoKey H σ fp key a ss) : NoKey H σ fp key a (s :: ss) := by
  rintro s' (_ | ⟨_, hs'⟩)
  · exact hs
  · exact h s' hs'

/-- A slot with another fingerprint has no entry with the key. -/
theorem not_hasKey_of_fp (h : (σ.bucket a).header.fp s ≠ fp) : ¬HasKey H σ fp key a v s := by
  rintro ⟨hc, -⟩
  simp only [State.cell, Bucket.cell] at hc
  split at hc
  · cases hc
  · cases hc
    exact h rfl

/-- A slot with the fingerprint is decided by its value. -/
theorem hasKey_iff (hfp : fp ≠ 0) (h : (σ.bucket a).header.fp s = fp) : HasKey H σ fp key a v s ↔
      v = ((σ.bucket a).lines s false, (σ.bucket a).lines s true) ∧ H.isMatch v key = true := by
  simp only [HasKey, H.isMatch_iff, State.cell, Bucket.cell, h, if_neg hfp, Option.some.injEq,
    Prod.mk.injEq, true_and, eq_comm (a := v)]

theorem ends_scanBucketSlots (hfp : fp ≠ 0) : ∀ ss : List Slot,
    Ends (exec E srv) (scanBucketSlots H a (σ.bucket a).header fp key ss) σ fun t σ' =>
      (∃ v, t = .hit v ∧ σ' = σ ∧ ∃ s, HasKey H σ fp key a v s) ∨
        (t = .miss ∧ σ' = σ ∧ NoKey H σ fp key a ss)
  | [] => .pure (.inr ⟨rfl, rfl, nofun⟩)
  | s :: ss => by
    have ih := ends_scanBucketSlots hfp ss
    simp only [scanBucketSlots]
    by_cases hs : (σ.bucket a).header.fp s = fp
    · rw [if_neg (by rw [hs]; exact fun h => h.elim hfp (absurd rfl))]
      refine .seq (ends_readValue (.seq (ends_readHeader ?_)))
      rw [if_neg (not_not.mpr rfl)]
      split
      · rename_i hm
        exact .pure (.inl ⟨_, rfl, rfl, s, (hasKey_iff hfp hs).mpr ⟨rfl, hm⟩⟩)
      · rename_i hm
        refine ih.mono fun t σ' ht => ht.imp_right fun ⟨h1, h2, h3⟩ => ⟨h1, h2, noKey_cons ?_ h3⟩
        intro v hv
        obtain ⟨rfl, hm'⟩ := (hasKey_iff hfp hs).mp hv
        exact hm hm'
    · rw [if_pos (.inr hs)]
      exact ih.mono fun t σ' ht => ht.imp_right fun ⟨h1, h2, h3⟩ =>
        ⟨h1, h2, noKey_cons (fun v => not_hasKey_of_fp hs) h3⟩

theorem ends_findLocked (hfp : fp ≠ 0) (hl : LockedAs σ a keys) : ∀ ss : List Slot,
    Ends (exec E srv) (findLocked H a keys fp key ss) σ fun o σ' =>
      (∃ s v, o = some (s, v) ∧ σ' = σ ∧ HasKey H σ fp key a v s) ∨
        (o = none ∧ σ' = σ ∧ NoKey H σ fp key a ss)
  | [] => .pure (.inr ⟨rfl, rfl, nofun⟩)
  | s :: ss => by
    have ih := ends_findLocked hfp hl ss
    have hheader : (σ.bucket a).header.fp = keys.fp := by rw [hl]
    simp only [findLocked]
    by_cases hs : keys.fp s = fp
    · have hs' : (σ.bucket a).header.fp s = fp := hheader ▸ hs
      rw [if_pos hs]
      refine .seq (ends_readValue ?_)
      split
      · rename_i hm
        exact .pure (.inl ⟨s, _, rfl, rfl, (hasKey_iff hfp hs').mpr ⟨rfl, hm⟩⟩)
      · rename_i hm
        refine ih.mono fun t σ' ht => ht.imp_right fun ⟨h1, h2, h3⟩ => ⟨h1, h2, noKey_cons ?_ h3⟩
        intro v hv
        obtain ⟨rfl, hm'⟩ := (hasKey_iff hfp hs').mp hv
        exact hm hm'
    · have hs' : (σ.bucket a).header.fp s ≠ fp := hheader ▸ hs
      rw [if_neg hs]
      exact ih.mono fun t σ' ht => ht.imp_right fun ⟨h1, h2, h3⟩ =>
        ⟨h1, h2, noKey_cons (fun v => not_hasKey_of_fp hs') h3⟩

/-- The bucket as it was before the lock. -/
theorem hasKey_lock : HasKey H (σ.lock a) fp key a v s ↔ HasKey H σ fp key a v s := by
  rw [HasKey, cell_lock, HasKey]

/-- Keeping cells keeps what the buckets have. -/
theorem Keeps.hasKey {X : Set Addr}
    (h : Keeps srv Home X σ σ') : HasKey H σ' fp key a v s ↔ HasKey H σ fp key a v s := by
  rw [HasKey, h.cell, HasKey]

/-- The entry in slot `s` of the locked bucket is replaced by `o`. -/
theorem Sets.unlock {fps : Slot → Nat} {lines : Slot → Bool → L}
    (h : Good Home ∅ σ) (ho : ∀ e, o = some e → Home a e)
    (hcell : ((σ.lock a).unlock a (σ.bucket a).header fps lines).cell =
      update (σ.lock a).cell (a, s) o) :
    Sets srv Home (a, s) o 0 σ ((σ.lock a).unlock a (σ.bucket a).header fps lines) where
  good := by
    refine Good.unlock h.lock (Set.notMem_empty a) fun s' e he => ?_
    rw [hcell] at he
    by_cases hs : s' = s
    · rw [hs, update_self] at he
      exact ho e he
    · rw [update_of_ne fun hp => hs (Prod.ext_iff.mp hp).2, cell_lock] at he
      exact h.home a s' e he
  frame := (Frame.setBucket srv σ a _).trans (Frame.setBucket srv _ a _)
  size := (add_zero _).symm
  cell := by rw [hcell, cell_lock]

/-- Counting down. -/
theorem Sets.count {n : Int} (h : Sets srv Home x o d σ σ') : Sets srv Home x o (d + n) σ
      (σ'.setServer srv { σ'.servers srv with size := (σ'.servers srv).size + n }) where
  good := ⟨h.good.locked, h.good.home⟩
  frame := h.frame.trans (Frame.setSize srv σ' n)
  size := by
    have hs := h.size
    simp only [State.size, State.setServer, update_self] at hs ⊢
    omega
  cell := h.cell

/-- What erasing or rewriting an entry with the key means. -/
def ActsAs (E : Env) (srv : Nat) (Home : Addr → Entry L → Prop) (H : Hashing K L) (fp : Nat) (key : K)
    (d : Int) (change : L × L → Option (Entry L)) (act : Addr → Header → M L (Try (L × L))) : Prop :=
  ∀ σ a, Good Home ∅ σ → Ends (exec E srv) (act a (σ.bucket a).header) σ fun t σ' =>
    (∃ v, t = .hit v ∧ ∃ s, HasKey H σ fp key a v s ∧ Sets srv Home (a, s) (change v) d σ σ') ∨
      (t = .miss ∧ Keeps srv Home ∅ σ σ' ∧ NoKey H σ fp key a slots)

theorem actsAs_tryEraseFrom (hfp : fp ≠ 0) :
    ActsAs E srv Home H fp key (-1) (fun _ => none) fun a keys => tryEraseFrom H a keys fp key := by
  intro σ a h
  refine .seq (ends_lockBucket ?_)
  simp only [Bool.not_true, Bool.false_eq_true, if_false]
  refine (ends_findLocked hfp (lockedAs_lock σ a) slots).bind fun o σ' ho => ?_
  obtain ⟨s, v, rfl, rfl, hv⟩ | ⟨rfl, rfl, hno⟩ := ho
  · have hsets : Sets srv Home (a, s) none 0 σ ((σ.lock a).unlock a (σ.bucket a).header
        (update (σ.bucket a).header.fp s 0) ((σ.lock a).bucket a).lines) :=
      Sets.unlock h (fun _ he => nomatch he) (cell_unlock_clear (lockedAs_lock σ a))
    have hcount := hsets.count (n := -1)
    rw [zero_add] at hcount
    exact .seq ((ends_perform rfl).mpr (.seq ((ends_perform rfl).mpr
      (.pure (.inl ⟨v, rfl, s, hasKey_lock.mp hv, hcount⟩)))))
  · refine .seq (ends_unlockBucket (.pure (.inr ⟨rfl, ?_, ?_⟩)))
    · exact Keeps.of_lock (Set.notMem_empty a)
        (Keeps.unlock h.lock (Set.notMem_empty a) (lockedAs_lock σ a))
    · exact fun s hs v hv => hno s hs v (hasKey_lock.mpr hv)

theorem actsAs_tryUpdateIn (hfp : fp ≠ 0)
    (hwrite : ∀ a v, Home a (fp, v) → H.extract v = key → Home a (fp, writeFn v)) :
    ActsAs E srv Home H fp key 0 (fun v => some (fp, writeFn v))
      fun a keys => tryUpdateIn H writeFn a keys fp key := by
  intro σ a h
  refine .seq (ends_lockBucket ?_)
  simp only [Bool.not_true, Bool.false_eq_true, if_false]
  refine (ends_findLocked hfp (lockedAs_lock σ a) slots).bind fun o σ' ho => ?_
  obtain ⟨s, v, rfl, rfl, hv⟩ | ⟨rfl, rfl, hno⟩ := ho
  · have hv' : HasKey H σ fp key a v s := hasKey_lock.mp hv
    have hs : (σ.bucket a).header.fp s = fp := by_contra fun hne => not_hasKey_of_fp hne hv'
    have hput := cell_unlock_put (s := s) (v := writeFn v) (lockedAs_lock σ a) hfp
    rw [← hs, update_eq_self, hs] at hput
    have hsets : Sets srv Home (a, s) (some (fp, writeFn v)) 0 σ
        ((σ.lock a).unlock a (σ.bucket a).header (σ.bucket a).header.fp
          (setValue ((σ.lock a).bucket a).lines s (writeFn v))) :=
      Sets.unlock h (fun e he => Option.some.inj he ▸ hwrite a v (h.home a s _ hv'.1) hv'.2) hput
    refine .seq (ends_writeValue (.seq (ends_unlockBucket (ends_pure.mpr
      (.inl ⟨v, rfl, s, hv', ?_⟩)))))
    simpa [State.unlock, State.setBucket, State.bucket] using hsets
  · refine .seq (ends_unlockBucket (.pure (.inr ⟨rfl, ?_, ?_⟩)))
    · exact Keeps.of_lock (Set.notMem_empty a)
        (Keeps.unlock h.lock (Set.notMem_empty a) (lockedAs_lock σ a))
    · exact fun s hs v hv => hno s hs v (hasKey_lock.mpr hv)

/-- A bucket without the fingerprint has no entry with the key. -/
theorem noKey_of_findFpSlot (hfp : fp ≠ 0) (h : (σ.bucket a).header.findFpSlot fp = none) :
    NoKey H σ fp key a slots := by
  intro s hs v
  refine not_hasKey_of_fp fun he => ?_
  have hnone := find?_eq_none.mp h s hs
  simp [he, hfp] at hnone

end Bucket

/-! ### The calls -/

section Calls

variable {E : Env} {srv : Nat} {Home : Addr → Entry L → Prop} {H : Hashing K L} {σ : State L} {key : K}

/-- No candidate bucket has an entry with the key. -/
def Absent (H : Hashing K L) (srv : Nat) (σ : State L) (key : K) : Prop :=
  ∀ c ∈ (H.candidates (σ.servers srv).layout key).list, NoKey H σ (H.makeFp key) key c.addr slots

/-- Slot `s` of the candidate bucket `a` has an entry with the key. -/
structure FoundAt (H : Hashing K L) (srv : Nat) (σ : State L) (key : K) (v : L × L) (a : Addr)
    (s : Slot) : Prop where
  cand : ∃ c ∈ (H.candidates (σ.servers srv).layout key).list, c.addr = a
  has : HasKey H σ (H.makeFp key) key a v s

theorem Keeps.asked {σ' : State L} (h : Keeps srv Home ∅ σ σ') :
    Keeps srv Home ∅ σ { σ' with asked := σ'.asked + 1 } where
  good := ⟨h.good.locked, h.good.home⟩
  frame := ⟨h.frame.resize, h.frame.notified, h.frame.next, h.frame.layout, h.frame.begun,
    h.frame.cache, h.frame.others⟩
  size := h.size
  fixed := h.fixed
  cell := h.cell

/-- **find** returns an entry with the key if a candidate has one. -/
theorem ends_findImpl (fuel : Nat) (h : Good Home ∅ σ) :
    Ends (exec E srv) (findImpl H fuel key) σ fun o σ' => Keeps srv Home ∅ σ σ' ∧
      ((∃ v a s, o = some v ∧ FoundAt H srv σ key v a s) ∨
        (o = none ∧ Absent H srv σ key)) := by
  have hfp := H.makeFp_ne_zero key
  refine .seq (ends_getCandidates ?_)
  refine (ends_search (I := Keeps srv Home ∅ σ)
    (fun a => NoKey H σ (H.makeFp key) key a slots)
    (fun v σ' => Keeps srv Home ∅ σ σ' ∧ ∃ a s, FoundAt H srv σ key v a s)
    (Keeps.refl h) (fun σ' hk => hk.asked) fun c hc σ' hk => ?_).mono fun o σ' ho => ?_
  · refine .seq (ends_readHeader ?_)
    rw [if_neg fun hd => Set.notMem_empty c.addr ((hk.good.locked c.addr).mp hd)]
    refine (ends_scanBucketSlots hfp slots).mono fun t σ'' ht => ?_
    obtain ⟨v, rfl, rfl, s, hv⟩ | ⟨rfl, rfl, hno⟩ := ht
    · exact .inl ⟨v, rfl, hk, c.addr, s, ⟨c, hc, rfl⟩, hk.hasKey.mp hv⟩
    · exact .inr ⟨rfl, hk, fun s hs v hv => hno s hs v (hk.hasKey.mpr hv)⟩
  · obtain ⟨v, rfl, hk, a, s, hv⟩ | ⟨rfl, hk, hmiss⟩ := ho
    · exact ⟨hk, .inl ⟨v, a, s, rfl, hv⟩⟩
    · exact ⟨hk, .inr ⟨rfl, hmiss⟩⟩

/-- A call that acts on the first bucket it finds with the key. -/
theorem ends_actImpl {act : Addr → Header → Nat → M L (Try (L × L))}
    {change : L × L → Option (Entry L)} (fuel : Nat) (h : Good Home ∅ σ)
    (hact : ActsAs E srv Home H (H.makeFp key) key d change fun a keys => act a keys (H.makeFp key)) :
    Ends (exec E srv) (actImpl H fuel key act) σ fun o σ' =>
      (∃ v a s, o = some v ∧ FoundAt H srv σ key v a s ∧
        Sets srv Home (a, s) (change v) d σ σ') ∨
      (o = none ∧ Keeps srv Home ∅ σ σ' ∧ Absent H srv σ key) := by
  have hfp := H.makeFp_ne_zero key
  refine .seq (ends_getCandidates ?_)
  refine (ends_search (I := Keeps srv Home ∅ σ)
    (fun a => NoKey H σ (H.makeFp key) key a slots)
    (fun v σ' => ∃ a s, FoundAt H srv σ key v a s ∧
      Sets srv Home (a, s) (change v) d σ σ')
    (Keeps.refl h) (fun σ' hk => hk.asked) fun c hc σ' hk => ?_).mono fun o σ' ho => ?_
  · refine .seq (ends_readHeader ?_)
    rw [if_neg fun hd => Set.notMem_empty c.addr ((hk.good.locked c.addr).mp hd)]
    split
    · rename_i hnone
      refine .pure (.inr ⟨rfl, hk, fun s hs v hv => ?_⟩)
      exact noKey_of_findFpSlot hfp hnone s hs v (hk.hasKey.mpr hv)
    · refine (hact σ' c.addr hk.good).mono fun t σ'' ht => ?_
      obtain ⟨v, rfl, s, hv, hsets⟩ | ⟨rfl, hk', hno⟩ := ht
      · exact .inl ⟨v, rfl, c.addr, s, ⟨⟨c, hc, rfl⟩, hk.hasKey.mp hv⟩, hk.sets hsets⟩
      · exact .inr ⟨rfl, hk.trans hk', fun s hs v hv => hno s hs v (hk.hasKey.mpr hv)⟩
  · obtain ⟨v, rfl, a, s, hv, hsets⟩ | ⟨rfl, hk, hmiss⟩ := ho
    · exact .inl ⟨v, a, s, rfl, hv, hsets⟩
    · exact .inr ⟨rfl, hk, hmiss⟩

/-- **erase** removes an entry with the key if a candidate has one. -/
theorem ends_eraseImpl (fuel : Nat) (h : Good Home ∅ σ) :
    Ends (exec E srv) (eraseImpl H fuel key) σ fun o σ' =>
      (∃ v a s, o = some v ∧ FoundAt H srv σ key v a s ∧
        Sets srv Home (a, s) none (-1) σ σ') ∨
      (o = none ∧ Keeps srv Home ∅ σ σ' ∧ Absent H srv σ key) :=
  ends_actImpl fuel h (actsAs_tryEraseFrom (H.makeFp_ne_zero key))

/-- **update** rewrites an entry with the key if a candidate has one. -/
theorem ends_updateImpl (fuel : Nat) (h : Good Home ∅ σ)
    (hwrite : ∀ a v, Home a (H.makeFp key, v) → H.extract v = key →
      Home a (H.makeFp key, writeFn v)) :
    Ends (exec E srv) (updateImpl H fuel key writeFn) σ fun o σ' =>
      (∃ v a s, o = some v ∧ FoundAt H srv σ key v a s ∧
        Sets srv Home (a, s) (some (H.makeFp key, writeFn v)) 0 σ σ') ∨
      (o = none ∧ Keeps srv Home ∅ σ σ' ∧ Absent H srv σ key) :=
  ends_actImpl fuel h (actsAs_tryUpdateIn (H.makeFp_ne_zero key) hwrite)

end Calls

end StaxFS.Table
