import StaxFS.Table.Lookup
import StaxFS.Table.Resize

/-!
# The two-level hash table as a multiset of entries

What a call does to the multiset of entries (`Effect`), for calls that run one after the other. A table
of fixed size is the system `fixedTable`: resize is off and every public operation is one step.

Results:
* `effect_insert`, `effect_find`, `effect_update`, `effect_erase`: the functions under the public
  operations have the effect of the operation, in every layout.
* `fixedTable_correct`: in every state that calls with values of their own key lead to, every entry is
  in one of its four candidate buckets, the counter is the number of occupied slots, and every call
  returns and has its effect.
* `hint_independent`: whatever the tag hint reports, find, update and erase return the same and leave
  the same cells.
-/

namespace StaxFS.Table

open Foundation Foundation.Prog List

variable {K L : Type}

/-- A call gives the table only values of its own key. -/
def Request.Carries (H : Hashing K L) : Request K L → Prop
  | .insert key v => H.extract v = key
  | .update key writeFn => ∀ v, H.extract v = key → H.extract (writeFn v) = key
  | .find _ => True
  | .erase _ => True

/-- A lookup in `c` succeeds exactly if an entry has the key, and has the value of one. -/
structure Looked (H : Hashing K L) (key : K) (c : Multiset (Entry L)) (r : Option (L × L)) : Prop where
  isSome_iff : r.isSome = true ↔ ∃ e ∈ c, H.extract e.2 = key
  mem : ∀ v, r = some v → (H.makeFp key, v) ∈ c ∧ H.extract v = key

/-- What a call with result `r` does to the entries. -/
def Effect (H : Hashing K L) (c : Multiset (Entry L)) (r : Option (L × L)) (c' : Multiset (Entry L)) :
    Request K L → Prop
  | .insert key v => (r = some v ∧ c' = (H.makeFp key, v) ::ₘ c) ∨ (r = none ∧ c' = c)
  | .find key => Looked H key c r ∧ c' = c
  | .update key writeFn => Looked H key c r ∧ (r = none → c' = c) ∧
      ∀ v, r = some v → ∃ d, c = (H.makeFp key, v) ::ₘ d ∧ c' = (H.makeFp key, writeFn v) ::ₘ d
  | .erase key => Looked H key c r ∧ (r = none → c' = c) ∧
      ∀ v, r = some v → c = (H.makeFp key, v) ::ₘ c'

variable [Inhabited L]

/-- From a good state with entries `c`, the call ends in a good state, with its effect on the entries
and on the counter. -/
def Performs (E : Env) (srv : Nat) (H : Hashing K L) (l : Layout)
    (Home : Addr → Entry L → Prop) (q : Request K L) (p : M L (Option (L × L))) : Prop :=
  ∀ σ c, Good Home ∅ σ → (σ.servers srv).layout = l → Holds σ.cell c →
    Ends (exec E srv) p σ fun r σ' => Good Home ∅ σ' ∧ Frame srv σ σ' ∧
      ∃ c', Holds σ'.cell c' ∧ Effect H c r c' q ∧ σ'.size srv - σ.size srv = c'.card - c.card

section Functions

variable {E : Env} {srv : Nat} {H : Hashing K L} {l : Layout} {Home : Addr → Entry L → Prop}
  {σ : State L} {key : K} {c : Multiset (Entry L)}

/-- If no candidate bucket has the key, no entry has it. -/
theorem Absent.forall_ne (h : Absent H srv σ key) (hH : H.Homes l Home) (hgood : Good Home ∅ σ)
    (hl : (σ.servers srv).layout = l) (hc : Holds σ.cell c) : ¬∃ e ∈ c, H.extract e.2 = key := by
  rintro ⟨⟨fp, v⟩, he, rfl⟩
  obtain ⟨⟨a, s⟩, hcell⟩ := hc.mem_iff.mp he
  obtain ⟨hfp, cand, hcand, rfl⟩ := hH.sub (hgood.home a s _ hcell)
  rw [← hl] at hcand
  exact h cand hcand s (mem_finRange s) v ⟨hcell.trans (congrArg (fun n => some (n, v)) hfp), rfl⟩

variable {v : L × L}

theorem HasKey.mem {a : Addr} {s : Slot} (h : HasKey H σ (H.makeFp key) key a v s)
    (hc : Holds σ.cell c) : (H.makeFp key, v) ∈ c ∧ H.extract v = key :=
  ⟨hc.mem_iff.mpr ⟨(a, s), h.1⟩, h.2⟩

/-- The lookup found an entry. -/
theorem HasKey.looked {a : Addr} {s : Slot} (h : HasKey H σ (H.makeFp key) key a v s)
    (hc : Holds σ.cell c) : Looked H key c (some v) where
  isSome_iff := ⟨fun _ => ⟨_, (h.mem hc).1, (h.mem hc).2⟩, fun _ => rfl⟩
  mem _ hw := Option.some.inj hw ▸ h.mem hc

/-- The lookup found none. -/
theorem Absent.looked (h : Absent H srv σ key) (hH : H.Homes l Home) (hgood : Good Home ∅ σ)
    (hl : (σ.servers srv).layout = l) (hc : Holds σ.cell c) : Looked H key c none where
  isSome_iff := ⟨nofun, fun he => absurd he (h.forall_ne hH hgood hl hc)⟩
  mem := nofun

theorem effect_find (hH : H.Homes l Home) (fuel : Nat) :
    Performs E srv H l Home (.find key) (findImpl H fuel key) := by
  intro σ c hgood hl hc
  refine (ends_findImpl fuel hgood).mono fun o σ' ⟨hk, ho⟩ => ?_
  refine ⟨hk.good, hk.frame, c, hk.cell ▸ hc, ⟨?_, rfl⟩, by rw [hk.size]; omega⟩
  obtain ⟨v, a, s, rfl, hv⟩ | ⟨rfl, habs⟩ := ho
  · exact hv.has.looked hc
  · exact habs.looked hH hgood hl hc

theorem effect_erase (hH : H.Homes l Home) (fuel : Nat) :
    Performs E srv H l Home (.erase key) (eraseImpl H fuel key) := by
  intro σ c hgood hl hc
  refine (ends_eraseImpl fuel hgood).mono fun o σ' ho => ?_
  obtain ⟨v, a, s, rfl, hv, hsets⟩ | ⟨rfl, hk, habs⟩ := ho
  · obtain ⟨d, rfl⟩ := hc.exists_cons hv.has.1
    refine ⟨hsets.good, hsets.frame, d, hsets.cell ▸ hc.clear hv.has.1, ⟨hv.has.looked hc, nofun, ?_⟩, ?_⟩
    · rintro w ⟨⟩
      rfl
    · have hs := hsets.size
      rw [Multiset.card_cons]
      omega
  · exact ⟨hk.good, hk.frame, c, hk.cell ▸ hc, ⟨habs.looked hH hgood hl hc, fun _ => rfl, nofun⟩,
      by rw [hk.size]; omega⟩

theorem effect_update {writeFn : L × L → L × L} (hH : H.Homes l Home) (fuel : Nat)
    (hq : (Request.update key writeFn).Carries H) :
    Performs E srv H l Home (.update key writeFn) (updateImpl H fuel key writeFn) := by
  intro σ c hgood hl hc
  have hwrite : ∀ a v, Home a (H.makeFp key, v) → H.extract v = key →
      Home a (H.makeFp key, writeFn v) := fun a v hv he => hH.congr (he.trans (hq v he).symm) hv
  refine (ends_updateImpl fuel hgood hwrite).mono fun o σ' ho => ?_
  obtain ⟨v, a, s, rfl, hv, hsets⟩ | ⟨rfl, hk, habs⟩ := ho
  · obtain ⟨d, rfl⟩ := hc.exists_cons hv.has.1
    refine ⟨hsets.good, hsets.frame, _, hsets.cell ▸ hc.replace hv.has.1 _,
      ⟨hv.has.looked hc, nofun, ?_⟩, ?_⟩
    · rintro w ⟨⟩
      exact ⟨d, rfl, rfl⟩
    · have hs := hsets.size
      rw [Multiset.card_cons, Multiset.card_cons]
      omega
  · exact ⟨hk.good, hk.frame, c, hk.cell ▸ hc, ⟨habs.looked hH hgood hl hc, fun _ => rfl, nofun⟩,
      by rw [hk.size]; omega⟩

/-- The result of an insertion, as a public operation reports it. -/
def inserted (v : L × L) (placed : Bool) : Option (L × L) := if placed then some v else none

omit [Inhabited L] in
theorem effect_insert [Inhabited L] {placed : Bool} {σ' : State L}
    (hc : Holds σ.cell c) (hp : Placed srv Home ∅ (H.makeFp key, v) 1 σ placed σ') :
    Good Home ∅ σ' ∧ Frame srv σ σ' ∧ ∃ c', Holds σ'.cell c' ∧
      Effect H c (inserted v placed) c' (.insert key v) ∧
      σ'.size srv - σ.size srv = c'.card - c.card := by
  cases placed with
  | true =>
    have hadds : Adds srv Home ∅ (H.makeFp key, v) 1 σ σ' := hp
    refine ⟨hadds.good, hadds.frame, _, hadds.holds c hc, .inl ⟨rfl, rfl⟩, ?_⟩
    have hs := hadds.size
    rw [Multiset.card_cons]
    omega
  | false =>
    have hkeeps : Keeps srv Home ∅ σ σ' := hp
    refine ⟨hkeeps.good, hkeeps.frame, c, hkeeps.cell ▸ hc, .inr ⟨rfl, rfl⟩, ?_⟩
    rw [hkeeps.size]
    omega

end Functions

/-! ### A table of fixed size -/

/-- A table object without resize. -/
def fixedConfig (H : Hashing K L) (fuel : Nat) : Config K L := ⟨H, 1, 0, false, fuel⟩

/-- One public operation after the other, on a table of `n` top-level buckets. -/
def fixedTable (E : Env) (H : Hashing K L) (fuel n : Nat) : System (State L) (Request K L) where
  start σ := σ = State.init n
  step σ q := ((body (fixedConfig H fuel) q).run (exec E 0) σ).map Prod.snd

/-- The slots of the two levels. -/
def tableCells (n : Nat) : Finset (Addr × Slot) :=
  ((Finset.range n).image (Addr.mk 0) ∪ (Finset.range (n / 2)).image (Addr.mk 1)) ×ˢ Finset.univ

/-- The entries of the table. -/
def State.entries (σ : State L) (n : Nat) : Multiset (Entry L) :=
  ∑ x ∈ tableCells n, cellEntry (σ.cell x)

/-- The number of occupied slots. -/
def State.occupied (σ : State L) (n : Nat) : Nat :=
  ((tableCells n).filter fun x => (σ.cell x).isSome).card

section Fixed

variable {E : Env} {H : Hashing K L} {fuel n : Nat} {σ : State L} {q : Request K L} {levelN : Nat}

theorem performs_body (hq : q.Carries H) :
    Performs E 0 H (Server.init n).layout (H.Home (Server.init n).layout) q (body (fixedConfig H fuel) q) := by
  intro σ c hgood hl hc
  -- the calls before and after the operation do nothing
  refine .seq (.pure (Ends.bind ?_ fun r σ' hr => .seq (.pure (.pure hr))))
  cases q with
  | insert key v =>
    refine .seq ((ends_insertImpl (X := ∅) (H.homes _) hgood hl hq nofun).bind fun placed σ' hp => ?_)
    have heff := effect_insert hc hp
    cases placed <;> exact .pure (.pure heff)
  | find key => exact effect_find (H.homes _) fuel σ c hgood hl hc
  | update key writeFn => exact effect_update (H.homes _) fuel hq σ c hgood hl hc
  | erase key => exact effect_erase (H.homes _) fuel σ c hgood hl hc

theorem good_init : Good (H.Home (Server.init n).layout) ∅ (State.init (L := L) n) where
  locked a := by simp [State.init, State.bucket, Memory.get, Bucket.zero]
  home a s e he := by simp [State.cell, State.init, State.bucket, Memory.get, Bucket.zero,
    Bucket.cell] at he

theorem cell_init : (State.init (L := L) n).cell = fun _ => none := by
  funext x
  simp [State.cell, State.init, State.bucket, Memory.get, Bucket.zero, Bucket.cell]

omit [Inhabited L] in
theorem Hashing.first_lt (H : Hashing K L) (key : K) (h : 2 ≤ levelN) :
    H.first key levelN < levelN := by
  have hlt := Nat.mod_lt (mixH1 (H.hash key)) (show 0 < levelN / 2 by omega)
  simp only [Hashing.first, fIdx]
  omega

omit [Inhabited L] in
theorem Hashing.second_lt (H : Hashing K L) (key : K) (h : 2 ≤ levelN) :
    H.second key levelN < levelN := by
  have hlt := Nat.mod_lt (mixH2 (H.hash key)) (show 0 < levelN / 2 by omega)
  simp only [Hashing.second, sIdx]
  omega

/-- All entries are in the slots of the two levels. -/
theorem Good.cell_eq_none (hn : 4 ≤ n) (h : Good (H.Home (Server.init n).layout) ∅ σ) :
    ∀ x, x ∉ tableCells n → σ.cell x = none := by
  rintro ⟨a, s⟩ hx
  cases hcell : σ.cell (a, s) with
  | none => rfl
  | some e =>
    refine absurd ?_ hx
    obtain ⟨-, cand, hcand, rfl⟩ := h.home a s e hcell
    have hn2 : 2 ≤ n / 2 := by omega
    simp only [Hashing.candidates, Hashing.pair, Server.init, Bool.false_eq_true, if_false,
      nil_append, cons_append, mem_cons, not_mem_nil, or_false] at hcand
    simp only [tableCells, Finset.mem_product, Finset.mem_univ, and_true, Finset.mem_union,
      Finset.mem_image, Finset.mem_range]
    obtain rfl | rfl | rfl | rfl := hcand
    · exact .inl ⟨_, H.first_lt _ (by omega), rfl⟩
    · exact .inl ⟨_, H.second_lt _ (by omega), rfl⟩
    · exact .inr ⟨_, H.first_lt _ hn2, rfl⟩
    · exact .inr ⟨_, H.second_lt _ hn2, rfl⟩

/-- What holds between the calls. -/
structure FixedInv (H : Hashing K L) (n : Nat) (σ : State L) : Prop where
  good : Good (H.Home (Server.init n).layout) ∅ σ
  layout : (σ.servers 0).layout = (Server.init n).layout
  holds : Holds σ.cell (σ.entries n)
  size : σ.size 0 = (σ.entries n).card

theorem FixedInv.init : FixedInv H n (State.init (L := L) n) := by
  have hentries : (State.init (L := L) n).entries n = 0 := by
    simp [State.entries, cell_init]
  refine ⟨good_init, rfl, ?_, ?_⟩
  · rw [hentries, cell_init]
    exact holds_empty
  · rw [hentries]
    rfl

/-- A call from a state that meets the invariant. -/
theorem FixedInv.call (E : Env) (fuel : Nat) (hn : 4 ≤ n) (h : FixedInv H n σ) (hq : q.Carries H) :
    ∃ r σ', (body (fixedConfig H fuel) q).run (exec E 0) σ = some (r, σ') ∧ FixedInv H n σ' ∧
      Effect H (σ.entries n) r (σ'.entries n) q := by
  obtain ⟨r, σ', hrun, hgood, hframe, c', hc', heff, hsize⟩ :=
    performs_body hq σ (σ.entries n) h.good h.layout h.holds
  have hc'' : σ'.entries n = c' := hc'.sum_eq (hgood.cell_eq_none hn)
  subst hc''
  refine ⟨r, σ', hrun, ⟨hgood, (hframe.layout 0).trans h.layout, hc', ?_⟩, heff⟩
  have hs := h.size
  omega

/-- **A table of fixed size is a multiset of entries.** Whatever calls with values of their own key
were made: every entry is in one of its four candidate buckets, the counter is the number of occupied
slots, and the next call returns and has its effect. An insertion that reports success has added
exactly its entry, whatever movements it made, and one that reports failure has changed nothing. -/
theorem fixedTable_correct (hn : 4 ≤ n)
    (h : (fixedTable E H fuel n).Reach (fun _ q => q.Carries H) σ) :
    (∀ a s e, σ.cell (a, s) = some e → e.1 = H.makeFp (H.extract e.2) ∧
      ∃ c ∈ (H.candidates (Server.init n).layout (H.extract e.2)).list, c.addr = a) ∧
    σ.size 0 = σ.occupied n ∧
    ∀ q : Request K L, q.Carries H → ∃ r σ',
      (body (fixedConfig H fuel) q).run (exec E 0) σ = some (r, σ') ∧
      Effect H (σ.entries n) r (σ'.entries n) q := by
  have hinv : FixedInv H n σ := by
    refine h.invariant (I := FixedInv H n) ?_ fun σ q σ' _ hinv hq hst => ?_
    · rintro σ rfl
      exact FixedInv.init
    · obtain ⟨⟨r, σ''⟩, hrun, rfl⟩ := Option.map_eq_some_iff.mp hst
      obtain ⟨r', σ3, hrun', hinv', -⟩ := hinv.call E fuel hn hq
      cases hrun.symm.trans hrun'
      exact hinv'
  refine ⟨hinv.good.home, ?_, fun q hq => ?_⟩
  · rw [hinv.size, hinv.holds.card_eq (hinv.good.cell_eq_none hn)]
    rfl
  · obtain ⟨r, σ', hrun, -, heff⟩ := hinv.call E fuel hn hq
    exact ⟨r, σ', hrun, heff⟩

end Fixed

theorem fst_beq_iff (v : Nat × Nat) (key : Nat) : (v.1 == key) = true ↔ v.1 = key := beq_iff_eq

/-- Keys and lines are numbers, the first line is the key, and all keys have one hash. -/
def oneHash : Hashing Nat Nat where
  hash _ := 0
  extract v := v.1
  isMatch v key := v.1 == key
  isMatch_iff := fst_beq_iff

/-- A tag hint that reports nothing. -/
def noHint : Env := ⟨fun _ _ _ => false⟩

/-- The same with two hashes, of which the top buckets are 1 and 3 for the first eight keys, and 1 and
2 for the others. -/
def twoHashes : Hashing Nat Nat := { oneHash with hash := fun key => if key < 8 then 3 else 0 }

/-- The first eight keys fill top bucket 1, the others top bucket 2 and both bottom buckets; the last
one takes the slot of key 0, which is moved to top bucket 3 and is found there by an update. -/
def displacing : List (Request Nat Nat) :=
  (List.range 33).map (fun key => .insert key (key, 5)) ++ [.update 0 fun v => (v.1, 7), .erase 8]

theorem fixedTable_correct_displacing :
    ∃ σ, (fixedTable noHint twoHashes 1 4).runLabels displacing (State.init 4) = some σ ∧
      (σ.cell (⟨0, 3⟩, 0)).map Prod.snd = some (0, 7) ∧ σ.size 0 = σ.occupied 4 := by
  have hrun : ((fixedTable noHint twoHashes 1 4).runLabels displacing (State.init 4)).map
      (fun σ => (σ.cell (⟨0, 3⟩, 0)).map Prod.snd) = some (some (0, 7)) := by decide +kernel
  obtain ⟨σ, hσ, hcell⟩ := Option.map_eq_some_iff.mp hrun
  refine ⟨σ, hσ, hcell, (fixedTable_correct (by decide) (System.reach_runLabels rfl ?_ hσ)).2.1⟩
  simp [displacing, or_imp, forall_and, Request.Carries, twoHashes, oneHash]

/-! ### The tag hint -/

/-- No key is in two slots. -/
def OneEntryPerKey (H : Hashing K L) (σ : State L) : Prop :=
  ∀ x x' e e', σ.cell x = some e → σ.cell x' = some e' → H.extract e.2 = H.extract e'.2 → x = x'

section Hint

variable {H : Hashing K L} {srv : Nat} {σ : State L} {key : K} {v v' : L × L} {a a' : Addr}
  {s s' : Slot}

theorem FoundAt.unique (h : FoundAt H srv σ key v a s) (h' : FoundAt H srv σ key v' a' s')
    (hone : OneEntryPerKey H σ) : (a', s') = (a, s) ∧ v' = v := by
  have hx : (a', s') = (a, s) := hone _ _ _ _ h'.has.1 h.has.1 (h'.has.2.trans h.has.2.symm)
  have hcell := h'.has.1
  rw [hx, h.has.1] at hcell
  exact ⟨hx, (Prod.mk.inj (Option.some.inj hcell)).2.symm⟩

theorem FoundAt.not_absent (h : FoundAt H srv σ key v a s) : ¬Absent H srv σ key := by
  intro habs
  obtain ⟨c, hc, rfl⟩ := h.cand
  exact habs c hc s (mem_finRange s) v h.has

/-- A call that sets the cell in which it finds its key has one outcome for all hints. -/
theorem outcome_of_acts {p : M L (Option (L × L))} {d : Int} {change : L × L → Option (Entry L)}
    (hone : OneEntryPerKey H σ) (hp : ∀ E, Ends (exec E srv) p σ fun o σ' =>
      (∃ v a s, o = some v ∧ FoundAt H srv σ key v a s ∧
        Sets srv (fun _ _ => True) (a, s) (change v) d σ σ') ∨
      (o = none ∧ Keeps srv (fun _ _ => True) ∅ σ σ' ∧ Absent H srv σ key)) :
    ∃ r cell size, ∀ E, Ends (exec E srv) p σ fun o σ' =>
      o = r ∧ σ'.cell = cell ∧ σ'.size srv = size := by
  by_cases h : ∃ v a s, FoundAt H srv σ key v a s
  · obtain ⟨v, a, s, hv⟩ := h
    refine ⟨some v, Function.update σ.cell (a, s) (change v), σ.size srv + d,
      fun E => (hp E).mono fun o σ' ho => ?_⟩
    obtain ⟨v', a', s', rfl, hv', hsets⟩ | ⟨-, -, habs⟩ := ho
    · obtain ⟨hx, rfl⟩ := hv.unique hv' hone
      exact ⟨rfl, hx ▸ hsets.cell, hsets.size⟩
    · exact absurd habs hv.not_absent
  · refine ⟨none, σ.cell, σ.size srv, fun E => (hp E).mono fun o σ' ho => ?_⟩
    obtain ⟨v, a, s, -, hv, -⟩ | ⟨rfl, hk, -⟩ := ho
    · exact absurd ⟨v, a, s, hv⟩ h
    · exact ⟨rfl, hk.cell, hk.size⟩

end Hint

/-- **The tag hint does not change results**: in a state without a locked bucket and with at most one
entry per key, in or out of a migration, a find, update or erase returns the same under any two hints,
and leaves the same cells and the same count. -/
theorem hint_independent {C : Config K L} {σ : State L}
    (hfree : ∀ a, (σ.bucket a).header.dirty = false) (hone : OneEntryPerKey C.hashing σ)
    {q : Request K L} (hq : ∀ key v, q ≠ .insert key v) (E E' : Env) :
    ∃ r σ₁ σ₂, (operation C q).run (exec E C.srv) σ = some (r, σ₁) ∧
      (operation C q).run (exec E' C.srv) σ = some (r, σ₂) ∧
      σ₁.cell = σ₂.cell ∧ σ₁.size C.srv = σ₂.size C.srv := by
  have hgood : Good (fun _ _ => True) ∅ σ :=
    ⟨fun a => by simp [hfree a], fun _ _ _ _ => trivial⟩
  have hall : ∃ r cell size, ∀ E, Ends (exec E C.srv) (operation C q) σ fun o σ' =>
      o = r ∧ σ'.cell = cell ∧ σ'.size C.srv = size := by
    cases q with
    | insert key v => exact absurd rfl (hq key v)
    | find key =>
      -- a find sets the cell to what it is
      refine @outcome_of_acts K L _ C.hashing C.srv σ key _ 0
        (fun v => some (C.hashing.makeFp key, v)) hone fun E => ?_
      refine (ends_findImpl C.fuel hgood).mono fun o σ' ⟨hk, ho⟩ => ?_
      obtain ⟨v, a, s, rfl, hv⟩ | ⟨rfl, habs⟩ := ho
      · refine .inl ⟨v, a, s, rfl, hv, hk.good, hk.frame, by rw [hk.size, add_zero], ?_⟩
        rw [hk.cell, ← hv.has.1, Function.update_eq_self]
      · exact .inr ⟨rfl, hk, habs⟩
    | update key writeFn =>
      exact outcome_of_acts hone fun E => ends_updateImpl C.fuel hgood fun _ _ _ _ => trivial
    | erase key => exact outcome_of_acts hone fun E => ends_eraseImpl C.fuel hgood
  obtain ⟨r, cell, size, hends⟩ := hall
  obtain ⟨r₁, σ₁, h₁, rfl, hc₁, hs₁⟩ := hends E
  obtain ⟨r₂, σ₂, h₂, rfl, hc₂, hs₂⟩ := hends E'
  exact ⟨r₂, σ₁, σ₂, h₁, h₂, hc₁.trans hc₂.symm, hs₁.trans hs₂.symm⟩

/-- The key 1 in one of its buckets. -/
def oneEntry : State Nat :=
  (State.init 4).setBucket ⟨0, 1⟩
    ⟨⟨false, 0, fun s => if s.val = 0 then oneHash.makeFp 1 else 0⟩, fun _ second => cond second 5 1⟩

theorem cell_oneEntry {x : Addr × Slot} {e : Entry Nat} (h : oneEntry.cell x = some e) :
    x = (⟨0, 1⟩, 0) := by
  obtain ⟨a, s⟩ := x
  by_cases ha : ⟨0, 1⟩ = a
  · subst ha
    by_cases hs : s = 0
    · rw [hs]
    · simp [oneEntry, State.cell, Bucket.cell, hs] at h
  · rw [oneEntry, State.cell_setBucket_of_ne (Ne.symm ha), cell_init] at h
    cases h

theorem hint_independent_erase :
    ∃ σ₁ σ₂, (operation ⟨oneHash, 1, 0, false, 1⟩ (.erase 1)).run (exec noHint 0) oneEntry =
        some (some (1, 5), σ₁) ∧
      (operation ⟨oneHash, 1, 0, false, 1⟩ (.erase 1)).run (exec ⟨fun _ _ _ => true⟩ 0) oneEntry =
        some (some (1, 5), σ₂) ∧ σ₁.cell = σ₂.cell := by
  have hfree : ∀ a, (oneEntry.bucket a).header.dirty = false := fun a => by
    rw [oneEntry, State.bucket_setBucket]
    split
    · rfl
    · simpa using (good_init (H := oneHash)).locked a
  have hone : OneEntryPerKey oneHash oneEntry := fun x x' e e' h h' _ =>
    (cell_oneEntry h).trans (cell_oneEntry h').symm
  obtain ⟨r, σ₁, σ₂, h₁, h₂, hcell, -⟩ := hint_independent (C := ⟨oneHash, 1, 0, false, 1⟩) hfree hone
    (q := .erase 1) (fun _ _ h => by cases h) noHint ⟨fun _ _ _ => true⟩
  have hr : ((operation ⟨oneHash, 1, 0, false, 1⟩ (.erase 1)).run (exec noHint 0) oneEntry).map
      Prod.fst = some (some (1, 5)) := by decide +kernel
  rw [h₁] at hr
  cases hr
  exact ⟨σ₁, σ₂, h₁, h₂, hcell⟩

end StaxFS.Table
