import StaxFS.Foundation.Cells
import StaxFS.Table.Operations

/-!
# The two-level hash table: what insertion and movement do to the contents

The operations of a call that runs alone, seen as changes of a store of cells: a cell is a slot of a
bucket, its entry the fingerprint and the value. `Good` is the state such a call works in: exactly the
buckets it holds are locked, and every entry is at one of its homes, where `Home` is any relation the
caller chooses. Every function that places an entry either adds it and leaves all other entries
in the table (`Adds`), or leaves every cell as it was (`Keeps`); a bucket that was locked before is not
touched by either.

Results:
* `ends_place`, `places_insertPasses`: placing a value in an empty slot.
* `places_movementAndPlace`: a movement with any targets that are homes of their victims, and any
  extra displacement that itself adds or keeps.
* `places_tryMigrateAndInsert`: all phases of the fallback.
* `ends_insertImpl`: an insertion that succeeds adds exactly its entry, one that fails changes nothing.
-/

namespace StaxFS.Table

open Foundation Foundation.Prog List
open Function (update update_of_ne update_self)

/-- Fingerprint and value of an occupied slot. -/
abbrev Entry (L : Type) : Type := Nat × (L × L)

variable {K L R : Type}

def Bucket.cell (b : Bucket L) (s : Slot) : Option (Entry L) :=
  if b.header.fp s = 0 then none else some (b.header.fp s, (b.lines s false, b.lines s true))

variable [Inhabited L]

/-- The cell of a bucket and a slot. -/
def State.cell (σ : State L) (x : Addr × Slot) : Option (Entry L) := (σ.bucket x.1).cell x.2

@[simp] theorem State.bucket_setBucket (σ : State L) (a a' : Addr) (b : Bucket L) :
    (σ.setBucket a b).bucket a' = if a = a' then b else σ.bucket a' :=
  Memory.get_set σ.memory a a' b

variable {σ : State L} {a : Addr} {b : Bucket L} {w : L × L}

theorem State.cell_setBucket_of_ne {x : Addr × Slot}
    (h : x.1 ≠ a) : (σ.setBucket a b).cell x = σ.cell x := by
  simp [State.cell, h.symm]

/-- A bucket with the same cells. -/
theorem State.cell_setBucket
    (h : ∀ s, b.cell s = σ.cell (a, s)) : (σ.setBucket a b).cell = σ.cell := by
  funext x
  by_cases hx : x.1 = a
  · obtain ⟨a', s⟩ := x
    subst hx
    simpa [State.cell] using h s
  · exact cell_setBucket_of_ne hx

/-- A bucket with one other cell. -/
theorem State.cell_setBucket_update {s : Slot}
    {o : Option (Entry L)} (hs : b.cell s = o) (h : ∀ s', s' ≠ s → b.cell s' = σ.cell (a, s')) :
    (σ.setBucket a b).cell = update σ.cell (a, s) o := by
  funext x
  obtain ⟨a', s'⟩ := x
  by_cases hx : (a', s') = (a, s)
  · cases hx
    simp [State.cell, hs]
  · rw [update_of_ne hx]
    by_cases ha : a' = a
    · subst ha
      have hs' : s' ≠ s := fun he => hx (by rw [he])
      simpa [State.cell] using h s' hs'
    · exact cell_setBucket_of_ne ha

/-! ### What a call leaves alone -/

/-- Only memory, hint and element counter of `srv` differ. -/
structure Frame (srv : Nat) (σ σ' : State L) : Prop where
  resize : σ'.resize = σ.resize
  notified : σ'.notified = σ.notified
  next : σ'.next = σ.next
  layout : ∀ i, (σ'.servers i).layout = (σ.servers i).layout
  begun : ∀ i, (σ'.servers i).migrationBegun = (σ.servers i).migrationBegun
  cache : ∀ i, (σ'.servers i).cache = (σ.servers i).cache
  others : ∀ i, i ≠ srv → (σ'.servers i).size = (σ.servers i).size

omit [Inhabited L] in
theorem Frame.refl (srv : Nat) (σ : State L) : Frame srv σ σ :=
  ⟨rfl, rfl, rfl, fun _ => rfl, fun _ => rfl, fun _ => rfl, fun _ _ => rfl⟩

omit [Inhabited L] in
theorem Frame.trans {srv : Nat} {σ' σ'' : State L} (h : Frame srv σ σ') (h' : Frame srv σ' σ'') :
    Frame srv σ σ'' where
  resize := h'.resize.trans h.resize
  notified := h'.notified.trans h.notified
  next := h'.next.trans h.next
  layout i := (h'.layout i).trans (h.layout i)
  begun i := (h'.begun i).trans (h.begun i)
  cache i := (h'.cache i).trans (h.cache i)
  others i hi := (h'.others i hi).trans (h.others i hi)

omit [Inhabited L] in
theorem Frame.setBucket (srv : Nat) (σ : State L) (a : Addr) (b : Bucket L) :
    Frame srv σ (σ.setBucket a b) :=
  ⟨rfl, rfl, rfl, fun _ => rfl, fun _ => rfl, fun _ => rfl, fun _ _ => rfl⟩

omit [Inhabited L] in
theorem Frame.setSize (srv : Nat) (σ : State L) (n : Int) :
    Frame srv σ (σ.setServer srv { σ.servers srv with size := (σ.servers srv).size + n }) where
  resize := rfl
  notified := rfl
  next := rfl
  layout i := by by_cases hi : i = srv <;> simp [State.setServer, hi]
  begun i := by by_cases hi : i = srv <;> simp [State.setServer, hi]
  cache i := by by_cases hi : i = srv <;> simp [State.setServer, hi]
  others i hi := by simp [State.setServer, hi]

/-- The element counter of a server. -/
def State.size (σ : State L) (srv : Nat) : Int := (σ.servers srv).size

/-- Exactly the buckets in `X` are locked, and every entry is at one of its homes. -/
structure Good (Home : Addr → Entry L → Prop) (X : Set Addr) (σ : State L) : Prop where
  locked : ∀ a, (σ.bucket a).header.dirty = true ↔ a ∈ X
  home : ∀ a s e, σ.cell (a, s) = some e → Home a e

/-- Every cell is as before. -/
structure Keeps (srv : Nat) (Home : Addr → Entry L → Prop) (X : Set Addr) (σ σ' : State L) : Prop where
  good : Good Home X σ'
  frame : Frame srv σ σ'
  size : σ'.size srv = σ.size srv
  fixed : ∀ a ∈ X, σ'.bucket a = σ.bucket a
  cell : σ'.cell = σ.cell

/-- The contents are those before and `e`; the counter has grown by `d`. -/
structure Adds (srv : Nat) (Home : Addr → Entry L → Prop) (X : Set Addr) (e : Entry L) (d : Int)
    (σ σ' : State L) : Prop where
  good : Good Home X σ'
  frame : Frame srv σ σ'
  size : σ'.size srv = σ.size srv + d
  fixed : ∀ a ∈ X, σ'.bucket a = σ.bucket a
  holds : ∀ c, Holds σ.cell c → Holds σ'.cell (e ::ₘ c)

/-- The result of a try to place `e`. -/
def Placed (srv : Nat) (Home : Addr → Entry L → Prop) (X : Set Addr) (e : Entry L) (d : Int)
    (σ : State L) (placed : Bool) (σ' : State L) : Prop :=
  if placed then Adds srv Home X e d σ σ' else Keeps srv Home X σ σ'

section Rules

variable {srv : Nat} {Home : Addr → Entry L → Prop} {X : Set Addr} {e : Entry L}
  {d : Int} {σ σ' σ'' : State L}

theorem Keeps.refl (h : Good Home X σ) : Keeps srv Home X σ σ :=
  ⟨h, Frame.refl srv σ, rfl, fun _ _ => rfl, rfl⟩

theorem Keeps.trans (h : Keeps srv Home X σ σ') (h' : Keeps srv Home X σ' σ'') :
    Keeps srv Home X σ σ'' where
  good := h'.good
  frame := h.frame.trans h'.frame
  size := h'.size.trans h.size
  fixed a ha := (h'.fixed a ha).trans (h.fixed a ha)
  cell := h'.cell.trans h.cell

theorem Keeps.adds (h : Keeps srv Home X σ σ') (h' : Adds srv Home X e d σ' σ'') :
    Adds srv Home X e d σ σ'' where
  good := h'.good
  frame := h.frame.trans h'.frame
  size := h.size ▸ h'.size
  fixed a ha := (h'.fixed a ha).trans (h.fixed a ha)
  holds c hc := h'.holds c (h.cell ▸ hc)

theorem Keeps.placed {placed : Bool} (h : Keeps srv Home X σ σ')
    (h' : Placed srv Home X e d σ' placed σ'') : Placed srv Home X e d σ placed σ'' := by
  cases placed with
  | true => exact h.adds h'
  | false => exact h.trans h'

end Rules

/-! ### Operations on a locked bucket -/

/-- `keys` is the header the bucket had when it was locked. -/
def LockedAs (σ : State L) (a : Addr) (keys : Header) : Prop :=
  (σ.bucket a).header = ⟨true, nextVersion keys.version, keys.fp⟩

/-- The bucket `a` is locked. -/
def State.lock (σ : State L) (a : Addr) : State L :=
  let b := σ.bucket a
  σ.setBucket a { b with header := ⟨true, nextVersion b.header.version, b.header.fp⟩ }

/-- The bucket `a` is unlocked, with other fingerprints and lines. -/
def State.unlock (σ : State L) (a : Addr) (keys : Header) (fp : Slot → Nat)
    (lines : Slot → Bool → L) : State L :=
  σ.setBucket a ⟨keys.unlocked fp, lines⟩

/-- The lines of a bucket with one value replaced. -/
def setValue (lines : Slot → Bool → L) (s : Slot) (v : L × L) : Slot → Bool → L :=
  update lines s fun second => if second then v.2 else v.1

section Locked

variable {E : Env} {srv : Nat} {Home : Addr → Entry L → Prop} {X : Set Addr} {σ : State L}
  {a : Addr} {keys : Header} {s : Slot} {v : L × L} {fp : Nat} {Q : Unit → State L → Prop}

theorem cell_lock (σ : State L) (a : Addr) : (σ.lock a).cell = σ.cell :=
  State.cell_setBucket fun _ => rfl

theorem lockedAs_lock (σ : State L) (a : Addr) : LockedAs (σ.lock a) a (σ.bucket a).header := by
  simp [LockedAs, State.lock]

theorem Good.lock (h : Good Home X σ) : Good Home (insert a X) (σ.lock a) where
  locked a' := by
    by_cases ha : a = a'
    · simp [State.lock, ha]
    · simp [State.lock, ha, h.locked a', Ne.symm ha]
  home a' s e he := h.home a' s e (cell_lock σ a ▸ he)

theorem Good.unlock {fps : Slot → Nat} {lines : Slot → Bool → L} (h : Good Home (insert a X) σ)
    (ha : a ∉ X) (hhome : ∀ s e, (σ.unlock a keys fps lines).cell (a, s) = some e → Home a e) :
    Good Home X (σ.unlock a keys fps lines) where
  locked a' := by
    by_cases hne : a = a'
    · subst hne
      simp [State.unlock, Header.unlocked, ha]
    · simp [State.unlock, hne, h.locked a', Ne.symm hne]
  home a' s e he := by
    by_cases hne : a' = a
    · exact hne ▸ hhome s e (hne ▸ he)
    · exact h.home a' s e ((State.cell_setBucket_of_ne hne).symm.trans he)

/-- Unlocking with the fingerprints and lines the bucket has changes no cell. -/
theorem cell_unlock (h : LockedAs σ a keys) :
    (σ.unlock a keys keys.fp (σ.bucket a).lines).cell = σ.cell := by
  refine State.cell_setBucket fun s => ?_
  rw [LockedAs] at h
  simp only [State.cell, Bucket.cell]
  rw [h]
  rfl

/-- Committing a value in a slot fills the cell. -/
theorem cell_unlock_put (h : LockedAs σ a keys) (hfp : fp ≠ 0) :
    (σ.unlock a keys (update keys.fp s fp) (setValue (σ.bucket a).lines s v)).cell =
      update σ.cell (a, s) (some (fp, v)) := by
  rw [LockedAs] at h
  refine State.cell_setBucket_update ?_ fun s' hs' => ?_
  · simp [Bucket.cell, Header.unlocked, setValue, hfp]
  · simp [State.cell, Bucket.cell, Header.unlocked, setValue, h, update_of_ne hs']

/-- Committing a 0 empties the cell. -/
theorem cell_unlock_clear (h : LockedAs σ a keys) :
    (σ.unlock a keys (update keys.fp s 0) (σ.bucket a).lines).cell =
      update σ.cell (a, s) none := by
  rw [LockedAs] at h
  refine State.cell_setBucket_update ?_ fun s' hs' => ?_
  · simp [Bucket.cell, Header.unlocked]
  · simp [State.cell, Bucket.cell, Header.unlocked, h, update_of_ne hs']

theorem ends_lockBucket {Q : Bool → State L → Prop} (hQ : Q true (σ.lock a)) :
    Ends (exec E srv) (lockBucket a (σ.bucket a).header) σ Q := by
  have hx : exec E srv (.casHeader a (σ.bucket a).header.word
      (makeLocked (σ.bucket a).header.word)) σ = some (true, σ.lock a) := by
    simp [exec, State.lock, Header.setWord, makeLocked, Header.word]
  exact (ends_perform hx).mpr hQ

theorem ends_readHeader {Q : Header → State L → Prop} (hQ : Q (σ.bucket a).header σ) :
    Ends (exec E srv) (readHeader a) σ Q :=
  (ends_perform rfl).mpr hQ

theorem ends_readValue {Q : L × L → State L → Prop}
    (hQ : Q ((σ.bucket a).lines s false, (σ.bucket a).lines s true) σ) :
    Ends (exec E srv) (readValue a s) σ Q :=
  .seq ((ends_perform rfl).mpr (.seq ((ends_perform rfl).mpr (.pure hQ))))

theorem ends_writeValue
    (hQ : Q () (σ.setBucket a { σ.bucket a with lines := setValue (σ.bucket a).lines s v })) :
    Ends (exec E srv) (writeValue a s v) σ Q := by
  refine .seq ((ends_perform rfl).mpr ((ends_perform rfl).mpr ?_))
  have hlines : update (σ.bucket a).lines s
      (update (update ((σ.bucket a).lines s) true v.2) false v.1) =
      setValue (σ.bucket a).lines s v := by
    rw [setValue]
    congr 1
    funext second
    cases second <;> simp
  rw [← hlines] at hQ
  simpa [State.setBucket, State.bucket] using hQ

theorem ends_unlockBucket (hQ : Q () (σ.unlock a keys keys.fp (σ.bucket a).lines)) :
    Ends (exec E srv) (unlockBucket a keys) σ Q :=
  (ends_perform rfl).mpr hQ

/-- Writing a value and committing it. -/
theorem ends_put {Q : R → State L → Prop} {p : M L R} (hQ : Ends (exec E srv) p
      (σ.unlock a keys (update keys.fp s fp) (setValue (σ.bucket a).lines s v)) Q) :
    Ends (exec E srv)
      (do
        writeValue a s v
        commitBucket a keys s fp
        p) σ Q := by
  refine .seq (ends_writeValue (.seq ((ends_perform rfl).mpr ?_)))
  simpa [State.setBucket, State.unlock, State.bucket] using hQ

/-- A bucket that is unlocked as it was locked. -/
theorem Keeps.unlock (h : Good Home (insert a X) σ) (ha : a ∉ X) (hl : LockedAs σ a keys) :
    Keeps srv Home X σ (σ.unlock a keys keys.fp (σ.bucket a).lines) where
  good := h.unlock ha fun s e he => h.home a s e (cell_unlock hl ▸ he)
  frame := Frame.setBucket srv σ a _
  size := rfl
  fixed b hb := by
    have hne : a ≠ b := fun he => ha (he ▸ hb)
    simp [State.unlock, hne]
  cell := cell_unlock hl

variable {σ' : State L}

/-- What a call sees of a bucket it has locked, if it only changed others. -/
theorem LockedAs.of_bucket (hl : LockedAs σ a keys) (h : σ'.bucket a = σ.bucket a) :
    LockedAs σ' a keys := by
  rw [LockedAs, h]
  exact hl

end Locked

/-! ### Placing an entry in an empty slot -/

section Place

variable {E : Env} {srv : Nat} {Home : Addr → Entry L → Prop} {X : Set Addr} {σ : State L} {a : Addr}
  {keys : Header} {s : Slot} {v : L × L} {fp : Nat}

/-- A commit in an empty slot of a locked bucket. -/
theorem Adds.put (h : Good Home (insert a X) σ) (ha : a ∉ X) (hl : LockedAs σ a keys)
    (hs : keys.fp s = 0) (hfp : fp ≠ 0) (hhome : Home a (fp, v)) : Adds srv Home X (fp, v) 0 σ
      (σ.unlock a keys (update keys.fp s fp) (setValue (σ.bucket a).lines s v)) where
  good := h.unlock ha fun s' e he => by
    rw [cell_unlock_put hl hfp] at he
    by_cases hs' : s' = s
    · rw [hs', update_self] at he
      exact Option.some.inj he ▸ hhome
    · rw [update_of_ne fun hp => hs' (Prod.ext_iff.mp hp).2] at he
      exact h.home a s' e he
  frame := Frame.setBucket srv σ a _
  size := (add_zero _).symm
  fixed b hb := by
    have hne : a ≠ b := fun he => ha (he ▸ hb)
    simp [State.unlock, hne]
  holds c hc := by
    rw [cell_unlock_put hl hfp]
    refine hc.put ?_ (fp, v)
    rw [LockedAs] at hl
    simp [State.cell, Bucket.cell, hl, hs]

/-- A lock leaves the other buckets alone. -/
theorem bucket_lock_of_notMem (ha : a ∉ X) : ∀ b ∈ X, (σ.lock a).bucket b = σ.bucket b := fun b hb => by
  have hne : a ≠ b := fun he => ha (he ▸ hb)
  simp [State.lock, hne]

theorem Keeps.of_lock (ha : a ∉ X) (h : Keeps srv Home X (σ.lock a) σ') :
    Keeps srv Home X σ σ' where
  good := h.good
  frame := (Frame.setBucket srv σ a _).trans h.frame
  size := h.size
  fixed b hb := (h.fixed b hb).trans (bucket_lock_of_notMem ha b hb)
  cell := h.cell.trans (cell_lock σ a)

/-- What was done from the lock on, seen from before it. -/
theorem Placed.of_lock {e : Entry L} {d : Int} {placed : Bool}
    (ha : a ∉ X) (h : Placed srv Home X e d (σ.lock a) placed σ') :
    Placed srv Home X e d σ placed σ' := by
  cases placed with
  | true =>
    exact ⟨h.good, (Frame.setBucket srv σ a _).trans h.frame, h.size,
      fun b hb => (h.fixed b hb).trans (bucket_lock_of_notMem ha b hb),
      fun c hc => h.holds c (cell_lock σ a ▸ hc)⟩
  | false => exact Keeps.of_lock ha h

theorem ends_place (h : Good Home X σ) (ha : a ∉ X) (hfp : fp ≠ 0) (hhome : Home a (fp, v)) :
    Ends (exec E srv) (place a (σ.bucket a).header fp v) σ fun r σ' =>
      ∃ placed, r = some placed ∧ Placed srv Home X (fp, v) 0 σ placed σ' := by
  refine .seq (ends_lockBucket ?_)
  simp only [Bool.not_true, Bool.false_eq_true, if_false]
  split
  · refine .seq (ends_unlockBucket (.pure ⟨false, rfl, Placed.of_lock ha ?_⟩))
    exact Keeps.unlock h.lock ha (lockedAs_lock σ a)
  · rename_i target ht
    refine ends_put (.pure ⟨true, rfl, Placed.of_lock ha ?_⟩)
    have hs : (σ.bucket a).header.fp target = 0 := by simpa using find?_some ht
    exact Adds.put h.lock ha (lockedAs_lock σ a) hs hfp hhome

end Place

/-! ### Functions that place an entry -/

/-- From every good state, `p` ends and either adds `e` or keeps every cell. -/
def Places (E : Env) (srv : Nat) (Home : Addr → Entry L → Prop) (X : Set Addr) (e : Entry L) (d : Int)
    (p : M L Bool) : Prop :=
  ∀ σ, Good Home X σ → Ends (exec E srv) p σ (Placed srv Home X e d σ)

section Places

variable {E : Env} {srv : Nat} {Home : Addr → Entry L → Prop} {X : Set Addr} {e : Entry L} {d : Int}
  {a b : Addr} {v : L × L} {fp : Nat}

theorem places_false : Places E srv Home X e d (return false) := fun _ h =>
  .pure (Keeps.refl h)

/-- One try after another. -/
theorem Places.orElse {p q : M L Bool} (hp : Places E srv Home X e d p)
    (hq : Places E srv Home X e d q) :
    Places E srv Home X e d (do if ← p then return true else q) := by
  intro σ h
  refine (hp σ h).bind fun placed σ' hσ' => ?_
  cases placed with
  | true => exact .pure hσ'
  | false => exact (hq σ' hσ'.good).mono fun _ _ hσ'' => hσ'.placed hσ''

theorem places_anyOf {act : Cand → M L Bool} :
    ∀ {cs : List Cand}, (∀ c ∈ cs, Places E srv Home X e d (act c)) →
      Places E srv Home X e d (anyOf act cs)
  | [], _ => places_false
  | c :: _, h => (h c mem_cons_self).orElse
      (places_anyOf fun c' hc' => h c' (mem_cons_of_mem c hc'))

variable {extra : Displace L} {targets : L × L → List Addr}

/-- A victim goes to a bucket where it is at home. -/
theorem places_moveTo (hfp : fp ≠ 0) (hhome : Home b (fp, v))
    (hextra : Places E srv Home X (fp, v) 0 (extra b fp v)) :
    Places E srv Home X (fp, v) 0 (moveTo extra b fp v) := by
  intro σ h
  refine .seq (ends_readHeader ?_)
  split
  · exact .pure (Keeps.refl h)
  · rename_i hd
    split
    · exact hextra σ h
    · have hb : b ∉ X := fun hb => hd ((h.locked b).mpr hb)
      refine (ends_place h hb hfp hhome).bind fun r σ' hr => ?_
      obtain ⟨placed, rfl, hp⟩ := hr
      cases placed <;> exact .pure hp

theorem places_moveToOneOf (hfp : fp ≠ 0) :
    ∀ {bs : List Addr}, (∀ b ∈ bs, Home b (fp, v) ∧ Places E srv Home X (fp, v) 0 (extra b fp v)) →
      Places E srv Home X (fp, v) 0 (moveToOneOf extra fp v bs)
  | [], _ => places_false
  | b :: _, h => (places_moveTo hfp (h b mem_cons_self).1 (h b mem_cons_self).2).orElse
      (places_moveToOneOf hfp fun b' hb' => h b' (mem_cons_of_mem b hb'))

/-- What a movement from `a` needs of its targets: a victim is at home there, and the extra
displacement places it, with `a` locked. -/
def TargetsOk (E : Env) (srv : Nat) (Home : Addr → Entry L → Prop) (X : Set Addr) (a : Addr)
    (targets : L × L → List Addr) (extra : Displace L) : Prop :=
  ∀ fp w, fp ≠ 0 → Home a (fp, w) → ∀ b ∈ targets w,
    Home b (fp, w) ∧ Places E srv Home (insert a X) (fp, w) 0 (extra b fp w)

/-- A victim was copied elsewhere and its slot is overwritten: the new entry is added. -/
theorem Adds.overwrite {keys : Header} {s : Slot} (ha : a ∉ X)
    (hl : LockedAs σ a keys) (hs : keys.fp s ≠ 0)
    (hw : w = ((σ.bucket a).lines s false, (σ.bucket a).lines s true)) (hfp : fp ≠ 0)
    (hhome : Home a (fp, v)) (h : Adds srv Home (insert a X) (keys.fp s, w) 0 σ σ') :
    Adds srv Home X (fp, v) 0 σ
      (σ'.unlock a keys (update keys.fp s fp) (setValue (σ'.bucket a).lines s v)) := by
  have hbucket := h.fixed a (Set.mem_insert a X)
  have hl' : LockedAs σ' a keys := hl.of_bucket hbucket
  have hcell : σ'.cell (a, s) = some (keys.fp s, w) := by
    simp only [State.cell, Bucket.cell, hbucket]
    rw [LockedAs] at hl
    simp [hl, hs, hw]
  refine ⟨h.good.unlock ha fun s' e he => ?_, h.frame.trans (Frame.setBucket srv σ' a _), h.size,
    fun b hb => ?_, fun c hc => ?_⟩
  · rw [cell_unlock_put hl' hfp] at he
    by_cases hs' : s' = s
    · rw [hs', update_self] at he
      exact Option.some.inj he ▸ hhome
    · rw [update_of_ne fun hp => hs' (Prod.ext_iff.mp hp).2] at he
      exact h.good.home a s' e he
  · have hne : a ≠ b := fun he => ha (he ▸ hb)
    simp only [State.unlock, State.bucket_setBucket, if_neg hne]
    exact h.fixed b (Set.mem_insert_of_mem a hb)
  · rw [cell_unlock_put hl' hfp]
    exact (h.holds c hc).replace hcell (fp, v)

/-- The slots of a locked bucket: whatever was tried, the bucket ends unlocked. -/
theorem ends_moveSlots {keys : Header} (ha : a ∉ X) (hfp : fp ≠ 0) (hhome : Home a (fp, v))
    (htargets : TargetsOk E srv Home X a targets extra) :
    ∀ (ss : List Slot) (σ : State L), Good Home (insert a X) σ → LockedAs σ a keys →
      Ends (exec E srv) (moveSlots targets extra a keys fp v ss) σ (Placed srv Home X (fp, v) 0 σ)
  | [], σ, h, hl =>
    .seq (ends_unlockBucket (.pure (Keeps.unlock h ha hl)))
  | s :: ss, σ, h, hl => by
    simp only [moveSlots]
    split
    · exact ends_moveSlots ha hfp hhome htargets ss σ h hl
    · rename_i hs
      refine .seq (ends_readValue ?_)
      have hvictim : Home a (keys.fp s, ((σ.bucket a).lines s false, (σ.bucket a).lines s true)) := by
        refine h.home a s _ ?_
        rw [LockedAs] at hl
        simp [State.cell, Bucket.cell, hl, hs]
      refine (places_moveToOneOf hs (htargets _ _ hs hvictim) σ h).bind fun moved σ' hσ' => ?_
      cases moved with
      | true => exact ends_put (.pure (Adds.overwrite ha hl hs rfl hfp hhome hσ'))
      | false =>
        have hk : Keeps srv Home (insert a X) σ σ' := hσ'
        have hl' := hl.of_bucket (hk.fixed a (Set.mem_insert a X))
        refine (ends_moveSlots ha hfp hhome htargets ss σ' hk.good hl').mono fun placed σ'' hp => ?_
        have hX : ∀ b ∈ X, σ'.bucket b = σ.bucket b := fun b hb =>
          hk.fixed b (Set.mem_insert_of_mem a hb)
        cases placed with
        | true =>
          exact ⟨hp.good, hk.frame.trans hp.frame, hk.size ▸ hp.size,
            fun b hb => (hp.fixed b hb).trans (hX b hb), fun c hc => hp.holds c (hk.cell ▸ hc)⟩
        | false =>
          exact ⟨hp.good, hk.frame.trans hp.frame, hp.size.trans hk.size,
            fun b hb => (hp.fixed b hb).trans (hX b hb), hp.cell.trans hk.cell⟩

/-- Counting an entry. -/
theorem Adds.count {n : Int} (h : Adds srv Home X e d σ σ') : Adds srv Home X e (d + n) σ
      (σ'.setServer srv { σ'.servers srv with size := (σ'.servers srv).size + n }) where
  good := ⟨h.good.locked, h.good.home⟩
  frame := h.frame.trans (Frame.setSize srv σ' n)
  size := by
    have hs := h.size
    simp only [State.size, State.setServer, update_self] at hs ⊢
    omega
  fixed := h.fixed
  holds := h.holds

/-- What a movement adds to the counter. -/
def counted : Bool → Int
  | true => 1
  | false => 0

/-- **A movement** adds the new entry and leaves every other one in the table, or changes no cell. -/
theorem places_movementAndPlace (countInsert : Bool) (hfp : fp ≠ 0) (hhome : Home a (fp, v))
    (htargets : TargetsOk E srv Home X a targets extra) :
    Places E srv Home X (fp, v) (counted countInsert)
      (movementAndPlace targets extra countInsert a fp v) := by
  intro σ h
  refine .seq (ends_readHeader ?_)
  split
  · exact .pure (Keeps.refl h)
  · rename_i hd
    have ha : a ∉ X := fun ha => hd ((h.locked a).mpr ha)
    refine .seq (ends_lockBucket ?_)
    simp only [Bool.not_true, Bool.false_eq_true, if_false]
    refine ((ends_moveSlots ha hfp hhome htargets slots (σ.lock a) h.lock
      (lockedAs_lock σ a)).mono fun _ _ hp => Placed.of_lock ha hp).bind fun placed σ' hσ' => ?_
    cases placed with
    | false => exact .pure hσ'
    | true =>
      have hadds : Adds srv Home X (fp, v) 0 σ σ' := hσ'
      cases countInsert with
      | false => exact .pure hadds
      | true =>
        have hcount := hadds.count (n := 1)
        rw [zero_add] at hcount
        exact .seq ((ends_perform rfl).mpr (.pure hcount))

end Places

/-! ### The passes over the candidates -/

section Passes

variable {E : Env} {srv : Nat} {Home : Addr → Entry L → Prop} {X : Set Addr} {v : L × L} {fp : Nat}

/-- With no locked candidate none is contended. -/
theorem ends_insertPass (hfp : fp ≠ 0) : ∀ (cs : List Cand) (σ : State L), Good Home X σ →
      (∀ c ∈ cs, c.addr ∉ X ∧ Home c.addr (fp, v)) →
      Ends (exec E srv) (insertPass fp v cs) σ fun r σ' =>
        (r = none ∧ Adds srv Home X (fp, v) 0 σ σ') ∨ (r = some [] ∧ Keeps srv Home X σ σ')
  | [], _, h, _ => .pure (.inr ⟨rfl, Keeps.refl h⟩)
  | c :: cs, σ, h, hcs => by
    obtain ⟨hc, hhome⟩ := hcs c mem_cons_self
    have hcs' : ∀ c' ∈ cs, c'.addr ∉ X ∧ Home c'.addr (fp, v) := fun c' hc' =>
      hcs c' (mem_cons_of_mem c hc')
    refine .seq (ends_readHeader ?_)
    rw [if_neg fun hd => hc ((h.locked c.addr).mp hd)]
    split
    · exact ends_insertPass hfp cs σ h hcs'
    · refine (ends_place h hc hfp hhome).bind fun r σ' hr => ?_
      obtain ⟨placed, rfl, hp⟩ := hr
      cases placed with
      | true => exact .pure (.inl ⟨rfl, hp⟩)
      | false =>
        have hk : Keeps srv Home X σ σ' := hp
        refine (ends_insertPass hfp cs σ' hk.good hcs').mono fun r σ'' hr => ?_
        exact hr.imp (fun h' => ⟨h'.1, hk.adds h'.2⟩) fun h' => ⟨h'.1, hk.trans h'.2⟩

theorem places_insertPasses {cands : List Cand} (hfp : fp ≠ 0)
    (hcs : ∀ c ∈ cands, c.level ≠ .oldBottom → c.addr ∉ X ∧ Home c.addr (fp, v)) :
    Places E srv Home X (fp, v) 0 (insertPasses fp v cands) := by
  intro σ h
  have hcs' : ∀ c ∈ cands.filter fun c => c.level ≠ .oldBottom,
      c.addr ∉ X ∧ Home c.addr (fp, v) := fun c hc => by
    obtain ⟨hmem, hl⟩ := mem_filter.mp hc
    exact hcs c hmem (of_decide_eq_true hl)
  refine (ends_insertPass hfp _ σ h hcs').bind fun r σ' hr => ?_
  obtain ⟨rfl, hadds⟩ | ⟨rfl, hkeeps⟩ := hr
  · exact .pure hadds
  · exact .pure hkeeps

end Passes

/-! ### The homes of a layout -/

/-- `a` is one of the candidate buckets of the entry, and the fingerprint is that of its key. -/
def Hashing.Home (H : Hashing K L) (l : Layout) (a : Addr) (e : Entry L) : Prop :=
  e.1 = H.makeFp (H.extract e.2) ∧ ∃ c ∈ (H.candidates l (H.extract e.2)).list, c.addr = a

section Homes

omit [Inhabited L]

variable {H : Hashing K L} {l : Layout} {key : K}

/-- The offset and size of a level. -/
def Layout.level (l : Layout) : Level → Nat × Nat
  | .top => (l.tlOffset, l.tlN)
  | .bottom => (l.blOffset, l.blN)
  | .oldBottom => (l.oldBlOffset, l.oldBlN)

/-- The candidates: two buckets on each level in use. -/
theorem Hashing.mem_candidates {c : Cand} :
    c ∈ (H.candidates l key).list ↔ (c.level = .oldBottom → l.active = true) ∧
      c.addr.base = (l.level c.level).1 ∧
      (c.addr.idx = H.first key (l.level c.level).2 ∨
        c.addr.idx = H.second key (l.level c.level).2) := by
  obtain ⟨level, base, idx⟩ := c
  cases hact : l.active <;> cases level <;>
    simp [Hashing.candidates, Hashing.pair, Layout.level, hact, and_or_left]

/-- A choice of homes within a layout: all candidates on the new levels, and buckets of the old level
as far as `Home` says. It does not depend on more of a value than its key. -/
structure Hashing.Homes (H : Hashing K L) (l : Layout) (Home : Addr → Entry L → Prop) : Prop where
  sub : ∀ {a e}, Home a e → H.Home l a e
  new : ∀ {c : Cand} {fp : Nat} {w : L × L}, fp = H.makeFp (H.extract w) → c.level ≠ .oldBottom →
    c ∈ (H.candidates l (H.extract w)).list → Home c.addr (fp, w)
  congr : ∀ {a fp v w}, H.extract v = H.extract w → Home a (fp, v) → Home a (fp, w)

/-- All candidates. -/
theorem Hashing.homes (H : Hashing K L) (l : Layout) : H.Homes l (H.Home l) where
  sub h := h
  new hfp _ hc := ⟨hfp, _, hc, rfl⟩
  congr he h := by
    simp only [Hashing.Home] at h ⊢
    rwa [← he]

/-- An address with the first or second index of the key on a new level is a home. -/
theorem Hashing.Homes.of_level {Home : Addr → Entry L → Prop} (hH : H.Homes l Home) {fp : Nat}
    {b : Addr} {level : Level} (hfp : fp = H.makeFp (H.extract w))
    (hl : level ≠ .oldBottom) (hb : b.base = (l.level level).1)
    (hidx : b.idx = H.first (H.extract w) (l.level level).2 ∨
      b.idx = H.second (H.extract w) (l.level level).2) : Home b (fp, w) :=
  hH.new (c := ⟨level, b⟩) hfp hl (H.mem_candidates.mpr ⟨fun h => absurd h hl, hb, hidx⟩)

end Homes

/-! ### The fallback to movements -/

section Movement

variable {E : Env} {srv : Nat} {X : Set Addr} {H : Hashing K L} {l : Layout}
  {Home : Addr → Entry L → Prop} {a : Addr} {extra : Displace L} {level : Level} {v : L × L} {fp : Nat}

section

variable (hH : H.Homes l Home)

include hH

theorem sameLevel_targetsOk (hl : level ≠ .oldBottom) (ha : a.base = (l.level level).1)
    (hextra : ∀ fp w b, fp ≠ 0 → Home b (fp, w) → b.base = (l.level level).1 →
      Places E srv Home (insert a X) (fp, w) 0 (extra b fp w)) :
    TargetsOk E srv Home X a (sameLevelTargets H (l.level level).2 a) extra := by
  intro fp w hfp hw b hb
  have hhome : Home b (fp, w) ∧ b.base = (l.level level).1 := by
    obtain ⟨jdx, hjdx, hb⟩ : ∃ jdx, (jdx = H.first (H.extract w) (l.level level).2 ∨
        jdx = H.second (H.extract w) (l.level level).2) ∧
        b ∈ if jdx = a.idx then [] else [(⟨a.base, jdx⟩ : Addr)] :=
      ⟨_, by split <;> simp, hb⟩
    split at hb
    · cases hb
    · rw [mem_singleton] at hb
      subst hb
      exact ⟨hH.of_level (hH.sub hw).1 hl ha hjdx, ha⟩
  exact ⟨hhome.1, hextra fp w b hfp hhome.1 hhome.2⟩

theorem b2t_targetsOk (hextra : ∀ fp w b, fp ≠ 0 → Home b (fp, w) → b.base = (l.level .top).1 →
      Places E srv Home (insert a X) (fp, w) 0 (extra b fp w)) :
    TargetsOk E srv Home X a (b2tTargets H l.tlOffset l.tlN) extra := by
  intro fp w hfp hw b hb
  have hhome : Home b (fp, w) ∧ b.base = (l.level .top).1 := by
    have htop : Level.top ≠ .oldBottom := Level.noConfusion
    simp only [b2tTargets, mem_cons, not_mem_nil, or_false] at hb
    obtain rfl | rfl := hb
    · exact ⟨hH.of_level (hH.sub hw).1 htop rfl (.inl rfl), rfl⟩
    · exact ⟨hH.of_level (hH.sub hw).1 htop rfl (.inr rfl), rfl⟩
  exact ⟨hhome.1, hextra fp w b hfp hhome.1 hhome.2⟩

theorem places_sameLevel (countInsert : Bool) (hl : level ≠ .oldBottom)
    (ha : a.base = (l.level level).1) (hfp : fp ≠ 0) (hhome : Home a (fp, v))
    (hextra : ∀ fp w b, fp ≠ 0 → Home b (fp, w) → b.base = (l.level level).1 →
      Places E srv Home (insert a X) (fp, w) 0 (extra b fp w)) :
    Places E srv Home X (fp, v) (counted countInsert)
      (sameLevelMovementAndPlace H (l.level level).2 extra countInsert a fp v) :=
  places_movementAndPlace countInsert hfp hhome (sameLevel_targetsOk hH hl ha hextra)

theorem places_b2t (countInsert : Bool) (hfp : fp ≠ 0) (hhome : Home a (fp, v))
    (hextra : ∀ fp w b, fp ≠ 0 → Home b (fp, w) → b.base = (l.level .top).1 →
      Places E srv Home (insert a X) (fp, w) 0 (extra b fp w)) :
    Places E srv Home X (fp, v) (counted countInsert)
      (b2tMovementAndPlace H l.tlOffset l.tlN extra countInsert a fp v) :=
  places_movementAndPlace countInsert hfp hhome (b2t_targetsOk hH hextra)

end

variable {key : K}

/-- The extra displacement of a same-level movement. -/
theorem places_sameLevelExtra (hH : H.Homes l Home) (hl : level ≠ .oldBottom)
    (ha : a.base = (l.level level).1) (hfp : fp ≠ 0) (hhome : Home a (fp, v)) : Places E srv Home X (fp, v) 0
      (sameLevelExtra H (H.candidates l key) level (l.level level).2 a fp v) := by
  have hsame : Places E srv Home X (fp, v) 0
      (sameLevelMovementAndPlace H (l.level level).2 noDisplace false a fp v) :=
    places_sameLevel hH false hl ha hfp hhome fun _ _ _ _ _ _ => places_false
  refine hsame.orElse ?_
  split
  · exact places_b2t hH false hfp hhome fun _ _ _ _ _ _ => places_false
  · exact places_false

/-- The extra displacement of a promotion. -/
theorem places_b2tExtra (hH : H.Homes l Home) (ha : a.base = (l.level .top).1) (hfp : fp ≠ 0)
    (hhome : Home a (fp, v)) :
    Places E srv Home X (fp, v) 0 (b2tExtra H (H.candidates l key) a fp v) := by
  have htop : Level.top ≠ .oldBottom := Level.noConfusion
  have hsame : Places E srv Home X (fp, v) 0
      (sameLevelMovementAndPlace H (l.level .top).2 noDisplace false a fp v) :=
    places_sameLevel hH false htop ha hfp hhome fun _ _ _ _ _ _ => places_false
  exact hsame

omit [Inhabited L] in
theorem levelN_eq (hl : level ≠ .oldBottom) :
    (H.candidates l key).levelN level = (l.level level).2 := by
  cases level with
  | top => rfl
  | bottom => rfl
  | oldBottom => exact absurd rfl hl

/-- Phases A and C: same-level movements at the candidates of the new levels. -/
theorem places_sameLevelPhase (hH : H.Homes l Home) (extra : Level → Displace L) (hfp : fp ≠ 0)
    (hcs : ∀ c ∈ (H.candidates l key).list, c.level ≠ .oldBottom → Home c.addr (fp, v))
    (hextra : ∀ level, level ≠ .oldBottom → ∀ Y fp w b, fp ≠ 0 → Home b (fp, w) →
      b.base = (l.level level).1 → Places E srv Home Y (fp, w) 0 (extra level b fp w)) :
    Places E srv Home X (fp, v) 1 (anyOf
      (fun c => sameLevelMovementAndPlace H ((H.candidates l key).levelN c.level) (extra c.level) true
        c.addr fp v)
      ((H.candidates l key).list.filter fun c => c.level ≠ .oldBottom)) := by
  refine places_anyOf fun c hc => ?_
  obtain ⟨hmem, hlv⟩ := mem_filter.mp hc
  have hl : c.level ≠ .oldBottom := of_decide_eq_true hlv
  rw [levelN_eq hl]
  exact places_sameLevel hH true hl (H.mem_candidates.mp hmem).2.1 hfp (hcs c hmem hl)
    (hextra c.level hl _)

/-- Phases B and C: promotions from the bottom candidates. -/
theorem places_b2tPhase (hH : H.Homes l Home) (extra : Displace L) (hfp : fp ≠ 0)
    (hcs : ∀ c ∈ (H.candidates l key).list, c.level ≠ .oldBottom → Home c.addr (fp, v))
    (hextra : ∀ Y fp w b, fp ≠ 0 → Home b (fp, w) → b.base = (l.level .top).1 →
      Places E srv Home Y (fp, w) 0 (extra b fp w)) : Places E srv Home X (fp, v) 1 (anyOf
      (fun c => b2tMovementAndPlace H l.tlOffset l.tlN extra true c.addr fp v)
      ((H.candidates l key).list.filter fun c => c.level = .bottom)) := by
  refine places_anyOf fun c hc => ?_
  obtain ⟨hmem, hlv⟩ := mem_filter.mp hc
  have hbottom : c.level = .bottom := of_decide_eq_true hlv
  exact places_b2t hH true hfp (hcs c hmem (hbottom ▸ Level.noConfusion)) (hextra _)

/-- **All phases of the fallback** add the new entry, or change no cell. -/
theorem places_tryMigrateAndInsert (hH : H.Homes l Home) (hfp : fp ≠ 0)
    (hcs : ∀ c ∈ (H.candidates l key).list, c.level ≠ .oldBottom → Home c.addr (fp, v)) :
    Places E srv Home X (fp, v) 1 (tryMigrateAndInsert H fp v (H.candidates l key)) := by
  refine (places_sameLevelPhase hH (fun _ => noDisplace) hfp hcs
    fun _ _ _ _ _ _ _ _ _ => places_false).orElse ?_
  refine (places_b2tPhase hH noDisplace hfp hcs fun _ _ _ _ _ _ _ => places_false).orElse ?_
  split
  · refine (places_sameLevelPhase hH
      (fun level => sameLevelExtra H (H.candidates l key) level ((H.candidates l key).levelN level))
      hfp hcs fun level hl Y fp w b hfp hh hb => ?_).orElse
      (places_b2tPhase hH (b2tExtra H (H.candidates l key)) hfp hcs fun Y fp w b hfp hh hb => ?_)
    · rw [levelN_eq hl]
      exact places_sameLevelExtra hH hl hb hfp hh
    · exact places_b2tExtra hH hb hfp hh
  · exact places_false

end Movement

/-! ### Insertion -/

section Insert

variable {E : Env} {srv : Nat} {X : Set Addr} {H : Hashing K L} {l : Layout}
  {Home : Addr → Entry L → Prop} {v : L × L} {σ : State L} {fuel : Nat} {key : K}

omit [Inhabited L] in
/-- The candidates on the new levels are homes of the entry, and not locked. -/
theorem candidates_home (hH : H.Homes l Home) (hv : H.extract v = key)
    (hX : ∀ a ∈ X, a.base ≠ l.tlOffset ∧ a.base ≠ l.blOffset) :
    ∀ c ∈ (H.candidates l key).list, c.level ≠ .oldBottom →
      c.addr ∉ X ∧ Home c.addr (H.makeFp key, v) := by
  intro c hc hlv
  subst hv
  obtain ⟨-, hbase, -⟩ := H.mem_candidates.mp hc
  refine ⟨fun hmem => ?_, hH.new rfl hlv hc⟩
  obtain ⟨htop, hbot⟩ := hX c.addr hmem
  cases hlevel : c.level with
  | top => exact htop (by rw [hbase, hlevel]; rfl)
  | bottom => exact hbot (by rw [hbase, hlevel]; rfl)
  | oldBottom => exact hlv hlevel

theorem ends_loadLayout {Q : Bool × Layout → State L → Prop}
    (hQ : Q (true, (σ.servers srv).layout) σ) : Ends (exec E srv) loadLayout σ Q := by
  iterate 8 refine .seq ((ends_perform rfl).mpr ?_)
  rw [beq_self_eq_true]
  exact .pure hQ

/-- With no other call in between the first turn of the loop of `get_candidates` is the last one. -/
theorem ends_getCandidates {Q : Candidates → State L → Prop}
    (hQ : Q (H.candidates (σ.servers srv).layout key) σ) :
    Ends (exec E srv) (getCandidates H fuel key) σ Q := by
  cases fuel <;> exact .seq (.seq (ends_loadLayout (.pure (.pure hQ))))

/-- **An insertion** that succeeds adds exactly its entry and counts it; one that fails changes
nothing. -/
theorem ends_insertImpl (hH : H.Homes l Home) (h : Good Home X σ) (hl : (σ.servers srv).layout = l)
    (hv : H.extract v = key) (hX : ∀ a ∈ X, a.base ≠ l.tlOffset ∧ a.base ≠ l.blOffset) :
    Ends (exec E srv) (insertImpl H fuel key v) σ (Placed srv Home X (H.makeFp key, v) 1 σ) := by
  have hfp := H.makeFp_ne_zero key
  have hcs := candidates_home hH hv hX
  refine .seq (ends_getCandidates ?_)
  rw [hl]
  refine (places_insertPasses hfp hcs σ h).bind fun placed σ' hσ' => ?_
  cases placed with
  | true =>
    have hadds : Adds srv Home X (H.makeFp key, v) 0 σ σ' := hσ'
    have hcount := hadds.count (n := 1)
    rw [zero_add] at hcount
    exact .seq ((ends_perform rfl).mpr (.pure hcount))
  | false =>
    have hkeeps : Keeps srv Home X σ σ' := hσ'
    refine (places_tryMigrateAndInsert hH hfp (fun c hc hlv => (hcs c hc hlv).2) σ' hkeeps.good).mono ?_
    exact fun _ _ hp => hkeeps.placed hp

end Insert

end StaxFS.Table
