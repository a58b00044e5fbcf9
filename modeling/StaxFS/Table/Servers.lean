import StaxFS.Table.Migration

/-!
# One table, shared by the servers

Public operations of `N` servers on one table with resize enabled, each of them atomic (`servers`). Next
to the state runs the map of what was last inserted or updated and not erased (`record`).

A server notices the end of a migration only at its next operation, and as long as it has not, a
migration that another server has started in the meantime looks to it like the one it knows:
`check_resize` compares versions and finds the state MIGRATING, and does nothing. Such a server keeps
the old layout, so it does not look into the new top level (`sleeping_server_misses`). An insertion can
start a resize; the results are therefore about runs in which a server inserts only when no other
server has slept through the end of the last migration (`AllNoticed`).

Results:
* `ends_body`: a public operation has its effect on the entries, whatever part of a migration it does.
* `servers_find`: in such runs a find on any server returns what was last inserted or updated.
* `resize_find`: with one server, for all calls that insert only absent keys; and the counter is the
  number of keys.
-/

namespace StaxFS.Table

open Foundation Foundation.Prog Option
open Function (update update_idem update_of_ne update_self)

variable {K L : Type} [Inhabited L] {q : Request K L} {v : L × L}

/-! ### A public operation -/

/-- The table object of server `srv` of `N`, with resize enabled. -/
def config (H : Hashing K L) (fuel N srv : Nat) : Config K L := ⟨H, N, srv, true, fuel⟩

/-- No other server has slept through the end of the last migration. -/
def AllNoticed (N srv : Nat) (σ : State L) : Prop :=
  σ.resize.ctrl.state = .normal → ∀ i < N, i ≠ srv → (σ.servers i).migrationBegun = false

section Body

variable {E : Env} {H : Hashing K L} {N n : Nat} {σ : State L} {srv fuel : Nat}
  {c : Multiset (Entry L)}

/-- The state after a part of a call: the table is in order, the server may work on it, and the entries
and the counter have changed as the call `q` with result `r` changes them. -/
structure After (H : Hashing K L) (N n srv : Nat) (c : Multiset (Entry L)) (q : Request K L) (σ : State L)
    (r : Option (L × L)) (σ' : State L) : Prop where
  inv : TableInv H N n σ'
  ready : Ready N n σ' srv
  effect : ∃ c', Holds σ'.cell c' ∧ Effect H c r c' q ∧ σ'.size srv - σ.size srv = c'.card - c.card
  others : ∀ i, i ≠ srv → σ'.size i = σ.size i

omit [Inhabited L] in
theorem Ready.layout (h : Ready N n σ srv) : (σ.servers srv).layout = σ.resize.layout n :=
  h.elim (fun h => h.2.layout) fun h => h.2.layout

variable {σ' : State L}

omit [Inhabited L] in
theorem Ready.frame (h : Ready N n σ srv) (hf : Frame srv σ σ') : Ready N n σ' srv := by
  refine h.imp (fun ⟨hn, hc⟩ => ⟨hf.resize ▸ hn, ?_⟩) fun ⟨hm, hj⟩ => ⟨hf.resize ▸ hm, ?_⟩
  · refine ⟨?_, ?_, ?_⟩ <;> simp only [hf.begun, hf.layout, hf.cache, hf.resize]
    exacts [hc.begun, hc.layout, hc.version]
  · refine ⟨?_, ?_, ?_, ?_, ?_, ?_, ?_, ?_⟩ <;> simp only [hf.begun, hf.layout, hf.cache, hf.resize]
    exacts [hj.begun, hj.layout, hj.version, hj.state, hj.old, hj.rangeEnd, hj.reported, hj.done]

/-- A function that has the effect of a call, in the layout of the server. -/
theorem Performs.after {p : M L (Option (L × L))} (h : TableInv H N n σ)
    (hr : Ready N n σ srv) (hc : Holds σ.cell c)
    (hp : Performs E srv H (σ.resize.layout n) (HomeNow H N n σ) q p) :
    Ends (exec E srv) p σ (After H N n srv c q σ) :=
  (hp σ c h.good hr.layout hc).mono fun _ _ ⟨hgood, hframe, heffect⟩ =>
    ⟨h.frame hframe hgood, hr.frame hframe, heffect, hframe.others⟩

/-- An insertion that is tried once. -/
theorem ends_insertOnce {key : K} (hv : H.extract v = key) (h : TableInv H N n σ)
    (hr : Ready N n σ srv) (hc : Holds σ.cell c) :
    Ends (exec E srv) (insertImpl H fuel key v) σ fun placed σ' =>
      After H N n srv c (.insert key v) σ (inserted v placed) σ' ∧
        (placed = false → Keeps srv (HomeNow H N n σ) ∅ σ σ') := by
  refine (ends_insertImpl h.homes h.good hr.layout hv nofun).mono fun placed σ' hp => ?_
  obtain ⟨hgood, hframe, heffect⟩ := effect_insert hc hp
  refine ⟨⟨h.frame hframe hgood, hr.frame hframe, heffect, hframe.others⟩, ?_⟩
  rintro rfl
  exact hp

/-- An insertion, with a resize if there is no room. -/
theorem ends_insertOrResize {key : K} (hN : N < 256) (hsrv : srv < N)
    (hv : H.extract v = key) (h : TableInv H N n σ) (hr : Ready N n σ srv)
    (hnoticed : AllNoticed N srv σ) (hc : Holds σ.cell c) :
    Ends (exec E srv) (insertOrResize (config H (fuel + 1) N srv) key v) σ fun placed σ' =>
      After H N n srv c (.insert key v) σ (inserted v placed) σ' := by
  refine (ends_insertOnce hv h hr hc).bind fun placed σ1 ⟨hafter, hkeeps⟩ => ?_
  cases placed with
  | true => exact .pure hafter
  | false =>
    have hk := hkeeps rfl
    refine Ends.step rfl ?_
    split
    · exact .pure hafter
    · rename_i hact
      -- not active: the shared state is normal, and every server has caught up
      have hn : σ1.resize.ctrl.state = .normal := by
        refine hafter.ready.elim And.left fun ⟨hm, hj⟩ => absurd ?_ hact
        rw [hj.layout, layout_migrating (hafter.inv.migrating hm) hm]
      have hall : ∀ i < N, CaughtUp n σ1 i := by
        intro i hi
        by_cases hne : i = srv
        · subst hne
          exact (hafter.ready.resolve_right fun hm => ResizeState.noConfusion (hn.symm.trans hm.1)).2
        · refine (hafter.inv.normal hn i hi).resolve_right fun hlag => ?_
          have hb := hnoticed (hk.frame.resize ▸ hn) i hi hne
          rw [← hk.frame.begun i, hlag.begun] at hb
          exact Bool.noConfusion hb
      refine (ends_doResize hN hsrv hafter.inv hn hall).bind fun _ σ2 => ?_
      rintro ⟨hinv, hm, hjoined, hmemory, hsize⟩
      have hcell : σ2.cell = σ.cell := by
        rw [← hk.cell]
        funext x
        simp only [State.cell, State.bucket, hmemory]
      refine (ends_insertOnce hv hinv (.inr ⟨hm, hjoined⟩) (hcell ▸ hc)).mono ?_
      rintro placed σ3 ⟨⟨hinv3, hready3, ⟨c', hc', heff, hs⟩, hothers⟩, -⟩
      have hs2 : σ2.size srv = σ.size srv := (hsize srv).trans hk.size
      refine ⟨hinv3, hready3, ⟨c', hc', heff, by omega⟩, fun i hi => ?_⟩
      rw [hothers i hi, hsize i]
      exact hk.frame.others i hi

/-- The operation proper. -/
theorem ends_operation (hN : N < 256) (hsrv : srv < N) (hq : q.Carries H)
    (h : TableInv H N n σ) (hr : Ready N n σ srv)
    (hnoticed : ∀ key v, q = .insert key v → AllNoticed N srv σ) (hc : Holds σ.cell c) :
    Ends (exec E srv) (operation (config H (fuel + 1) N srv) q) σ (After H N n srv c q σ) := by
  cases q with
  | insert key v =>
    refine (ends_insertOrResize hN hsrv hq h hr (hnoticed key v rfl) hc).bind fun placed σ' hafter => ?_
    cases placed <;> exact .pure hafter
  | find key => exact (effect_find h.homes _).after h hr hc
  | update key writeFn => exact (effect_update h.homes _ hq).after h hr hc
  | erase key => exact (effect_erase h.homes _).after h hr hc

/-- What follows an operation keeps all entries. -/
theorem ends_postOp (hN : N < 256) (hsrv : srv < N) (h : TableInv H N n σ) (hr : Ready N n σ srv) :
    Ends (exec E srv) (postOp (config H (fuel + 1) N srv)) σ fun _ σ' =>
      TableInv H N n σ' ∧ Ready N n σ' srv ∧ SameContents σ σ' := by
  refine Ends.step rfl ?_
  split
  · rename_i hbegun
    have hwork : AtWork H N n srv σ := by
      refine hr.elim (fun ⟨_, hc⟩ => ?_) fun ⟨hm, hj⟩ => ⟨h, hm, hj⟩
      rw [hc.begun] at hbegun
      exact Bool.noConfusion hbegun
    refine (ends_migrateStep hN hsrv hwork).bind fun _ σ1 ⟨hwork1, hsame1⟩ => ?_
    refine (ends_checkFinalize (by omega) hsrv hwork1).mono fun _ σ2 ⟨hinv, hready, hsame2⟩ => ?_
    exact ⟨hinv, hready, hsame1.trans hsame2⟩
  · exact .pure ⟨h, hr, SameContents.refl σ⟩

theorem Local.cell (h : Local srv σ σ') : σ'.cell = σ.cell := by
  funext x
  simp only [State.cell, State.bucket, h.memory]

omit [Inhabited L] in
theorem AllNoticed.of_local (h : AllNoticed N srv σ) (hl : Local srv σ σ') :
    AllNoticed N srv σ' := by
  intro hn i hi hne
  rw [hl.others i hne]
  exact h (hl.resize ▸ hn) i hi hne

/-- **A public operation** ends, has its effect on the entries, and leaves the table in order. -/
theorem ends_body (fuel : Nat) (hN : N < 256) (hsrv : srv < N) (hq : q.Carries H)
    (h : TableInv H N n σ) (hnoticed : ∀ key v, q = .insert key v → AllNoticed N srv σ)
    (hc : Holds σ.cell c) :
    Ends (exec E srv) (body (config H (fuel + 1) N srv) q) σ (After H N n srv c q σ) := by
  refine (ends_checkResize hsrv h).bind ?_
  rintro - σ1 ⟨hinv, hready, hlocal⟩
  refine (ends_operation hN hsrv hq hinv hready
    (fun key v hkey => (hnoticed key v hkey).of_local hlocal) (hlocal.cell ▸ hc)).bind ?_
  rintro r σ2 ⟨hinv2, hready2, ⟨c', hc', heff, hs⟩, hothers⟩
  refine (ends_postOp hN hsrv hinv2 hready2).bind ?_
  rintro - σ3 ⟨hinv3, hready3, hsame⟩
  refine .pure ?_
  refine ⟨hinv3, hready3, ⟨c', hsame.holds c' hc', heff, ?_⟩, fun i hi => ?_⟩
  · have hs3 := hsame.size srv
    have hs1 := hlocal.size
    omega
  · rw [hsame.size i, hothers i hi, State.size, hlocal.others i hi]
    rfl

end Body

/-! ### What was last inserted or updated -/

/-- The map of what was inserted or updated and not erased, after call `q` with result `r`. -/
def record [DecidableEq K] (m : K → Option (L × L)) (r : Option (L × L)) :
    Request K L → K → Option (L × L)
  | .insert key v => if r.isSome then update m key (some v) else m
  | .update key writeFn => if r.isSome then update m key ((m key).map writeFn) else m
  | .erase key => if r.isSome then update m key none else m
  | .find _ => m

/-- The entries are those of a map: one for every key that has a value. -/
structure Represents (H : Hashing K L) (c : Multiset (Entry L)) (m : K → Option (L × L)) : Prop where
  entry : ∀ e ∈ c, m (H.extract e.2) = some e.2
  value : ∀ key v, m key = some v → H.extract v = key ∧ (H.makeFp key, v) ∈ c
  nodup : (c.map fun e => H.extract e.2).Nodup

section Represents

omit [Inhabited L]

variable {H : Hashing K L} {c c' : Multiset (Entry L)} {m : K → Option (L × L)}
  {r : Option (L × L)} {key : K}

theorem represents_nil : Represents H 0 fun _ => none := ⟨nofun, nofun, Multiset.nodup_zero⟩

/-- A lookup returns what the map has. -/
theorem Looked.eq (h : Looked H key c r) (hm : Represents H c m) : r = m key := by
  cases r with
  | some v =>
    obtain ⟨hmem, hkey⟩ := h.mem v rfl
    exact (hkey ▸ hm.entry _ hmem).symm
  | none =>
    cases hk : m key with
    | none => rfl
    | some v =>
      obtain ⟨hkey, hmem⟩ := hm.value key v hk
      exact absurd (h.isSome_iff.mpr ⟨_, hmem, hkey⟩) Bool.noConfusion

variable [DecidableEq K]

/-- An entry is added for a key that has none. -/
theorem Represents.cons (h : Represents H c m) (hv : H.extract v = key) (hnone : m key = none) :
    Represents H ((H.makeFp key, v) ::ₘ c) (update m key (some v)) where
  entry e he := by
    obtain rfl | he := Multiset.mem_cons.mp he
    · simp [hv]
    · have hne : H.extract e.2 ≠ key := fun hk => by
        rw [← hk, h.entry e he] at hnone
        cases hnone
      rw [update_of_ne hne]
      exact h.entry e he
  value k w hw := by
    by_cases hk : k = key
    · subst hk
      rw [update_self] at hw
      cases hw
      exact ⟨hv, Multiset.mem_cons_self _ _⟩
    · rw [update_of_ne hk] at hw
      exact ⟨(h.value k w hw).1, Multiset.mem_cons_of_mem (h.value k w hw).2⟩
  nodup := by
    rw [Multiset.map_cons, Multiset.nodup_cons]
    refine ⟨fun hmem => ?_, h.nodup⟩
    obtain ⟨e, he, hek⟩ := Multiset.mem_map.mp hmem
    rw [← hv, ← hek, h.entry e he] at hnone
    cases hnone

/-- The entry of a key is taken away. -/
theorem Represents.tail (h : Represents H ((H.makeFp key, v) ::ₘ c) m)
    (hv : H.extract v = key) : Represents H c (update m key none) := by
  have hnd := h.nodup
  rw [Multiset.map_cons, Multiset.nodup_cons] at hnd
  have hne : ∀ e ∈ c, H.extract e.2 ≠ key := fun e he hk =>
    hnd.1 (Multiset.mem_map.mpr ⟨e, he, hk.trans hv.symm⟩)
  refine ⟨fun e he => ?_, fun k w hw => ?_, hnd.2⟩
  · rw [update_of_ne (hne e he)]
    exact h.entry e (Multiset.mem_cons_of_mem he)
  · by_cases hk : k = key
    · subst hk
      rw [update_self] at hw
      cases hw
    · rw [update_of_ne hk] at hw
      obtain ⟨hkey, hmem⟩ := h.value k w hw
      refine ⟨hkey, (Multiset.mem_cons.mp hmem).resolve_left fun he => hk ?_⟩
      have hwv : w = v := (Prod.ext_iff.mp he).2
      rw [← hkey, hwv]
      exact hv

/-- **A call changes the map as it changes the entries**, if it inserts only keys that have no value. -/
theorem Effect.record (h : Represents H c m) (hq : q.Carries H)
    (habs : ∀ key v, q = .insert key v → m key = none) (he : Effect H c r c' q) :
    Represents H c' (record m r q) := by
  cases q with
  | insert key v =>
    obtain ⟨rfl, rfl⟩ | ⟨rfl, rfl⟩ := he
    · exact h.cons hq (habs key v rfl)
    · exact h
  | find key => exact he.2 ▸ h
  | update key writeFn =>
    obtain ⟨hlook, hnone, hsome⟩ := he
    cases r with
    | none => exact hnone rfl ▸ h
    | some v =>
      obtain ⟨d, rfl, rfl⟩ := hsome v rfl
      obtain ⟨-, hv⟩ := hlook.mem v rfl
      have htail := (h.tail hv).cons (v := writeFn v) (hq v hv) (update_self _ _ _)
      rw [update_idem] at htail
      have hval : m key = some v := (hlook.eq h).symm
      simpa [Table.record, hval] using htail
  | erase key =>
    obtain ⟨hlook, hnone, hsome⟩ := he
    cases r with
    | none => exact hnone rfl ▸ h
    | some v =>
      have hv := (hlook.mem v rfl).2
      rw [hsome v rfl] at h
      exact h.tail hv

/-- The number of entries is the number of keys with a value. -/
theorem Represents.card_eq (h : Represents H c m) : c.card = {key | m key ≠ none}.ncard := by
  have hset : {key | m key ≠ none} = ↑(c.map fun e => H.extract e.2).toFinset := by
    ext key
    simp only [Set.mem_ofPred_eq, Finset.mem_coe, Multiset.mem_toFinset, Multiset.mem_map]
    constructor
    · intro hk
      obtain ⟨v, hv⟩ := ne_none_iff_exists'.mp hk
      exact ⟨_, (h.value key v hv).2, (h.value key v hv).1⟩
    · rintro ⟨e, he, rfl⟩
      rw [h.entry e he]
      exact some_ne_none _
  rw [hset, Set.ncard_coe_finset, Multiset.toFinset_card_of_nodup h.nodup, Multiset.card_map]

end Represents

/-! ### Runs of calls -/

section System

variable [DecidableEq K]

/-- `N` servers that call public operations one at a time, and the map next to the state. -/
def servers (E : Env) (H : Hashing K L) (fuel N n : Nat) :
    System (State L × (K → Option (L × L))) (Nat × Request K L) where
  start x := x = (State.init n, fun _ => none)
  step x a :=
    if a.1 < N then
      ((body (config H fuel N a.1) a.2).run (exec E a.1) x.1).map fun y => (y.2, record x.2 y.1 a.2)
    else none

/-- The calls have values of their own key, and only keys without a value are inserted. -/
def InsertsAbsent (H : Hashing K L) (x : State L × (K → Option (L × L))) (a : Nat × Request K L) : Prop :=
  a.2.Carries H ∧ ∀ key v, a.2 = .insert key v → x.2 key = none

/-- No server inserts while another one has slept through the end of the last migration. -/
def InsertsNoticed (N : Nat) (x : State L × (K → Option (L × L))) (a : Nat × Request K L) : Prop :=
  ∀ key v, a.2 = .insert key v → AllNoticed N a.1 x.1

/-- What holds between the calls. -/
structure ServersInv (H : Hashing K L) (N n : Nat) (x : State L × (K → Option (L × L))) : Prop where
  inv : TableInv H N n x.1
  entries : ∃ c, Holds x.1.cell c ∧ Represents H c x.2

variable {E : Env} {H : Hashing K L} {fuel N n : Nat} {x x' : State L × (K → Option (L × L))}
  {a : Nat × Request K L}

omit [DecidableEq K] in
theorem TableInv.init (hn : 4 ≤ n) : TableInv H N n (State.init (L := L) n) where
  top := hn
  bottom := by
    show 2 ≤ n / 2
    omega
  distinct := Nat.zero_ne_one
  topNext := Nat.two_pos
  bottomNext := Nat.one_lt_two
  notified _ _ := rfl
  good := ⟨(good_init (H := H)).locked, fun a s e he => by rw [cell_init] at he; cases he⟩
  normal _ _ _ := .inl ⟨rfl, rfl, rfl⟩
  migrating h := by cases h

omit [DecidableEq K] in
theorem ServersInv.init (hn : 4 ≤ n) : ServersInv H N n (State.init n, fun _ => none) where
  inv := .init hn
  entries := ⟨0, cell_init (L := L) ▸ holds_empty, represents_nil⟩

/-- One call. -/
theorem ServersInv.step (hN : N < 256) (h : ServersInv H N n x) (habs : InsertsAbsent H x a)
    (hnot : InsertsNoticed N x a) (hst : (servers E H (fuel + 1) N n).step x a = some x') :
    ServersInv H N n x' ∧ Ready N n x'.1 a.1 ∧ ∀ c c', Holds x.1.cell c → Holds x'.1.cell c' →
      x'.1.size a.1 - x.1.size a.1 = c'.card - c.card := by
  simp only [servers] at hst
  split at hst
  · rename_i hsrv
    obtain ⟨⟨r, σ'⟩, hrun, rfl⟩ := map_eq_some_iff.mp hst
    obtain ⟨c, hc, hrep⟩ := h.entries
    obtain ⟨r', σ'', hrun', hafter⟩ := ends_body (E := E) fuel hN hsrv habs.1 h.inv hnot hc
    cases hrun.symm.trans hrun'
    obtain ⟨c', hc', heff, hsize⟩ := hafter.effect
    refine ⟨⟨hafter.inv, c', hc', heff.record hrep habs.1 habs.2⟩, hafter.ready, ?_⟩
    intro d d' hd hd'
    rw [hd.unique hc, hd'.unique hc']
    exact hsize
  · cases hst

omit [DecidableEq K] in
/-- A find in a state that meets the invariant. -/
theorem ServersInv.find {srv : Nat} (hN : N < 256) (hsrv : srv < N) (h : ServersInv H N n x) (key : K) :
    ∃ σ', (body (config H (fuel + 1) N srv) (.find key)).run (exec E srv) x.1 =
      some (x.2 key, σ') := by
  obtain ⟨c, hc, hrep⟩ := h.entries
  obtain ⟨r, σ', hrun, hafter⟩ := ends_body (E := E) fuel (q := .find key) hN hsrv trivial
    h.inv nofun hc
  obtain ⟨c', -, heff, -⟩ := hafter.effect
  exact ⟨σ', heff.1.eq hrep ▸ hrun⟩

/-- Server `srv` inserts `key`. -/
def insertKey (srv key : Nat) : Nat × Request Nat Nat := (srv, .insert key (key, key + 100))

/-- The calls are insertions of absent keys, lookups or erasures. -/
def insertsAbsent (x : State Nat × (Nat → Option (Nat × Nat))) (a : Nat × Request Nat Nat) : Bool :=
  match a.2 with
  | .insert key v => v.1 == key && (x.2 key).isNone
  | .update .. => false
  | .find _ => true
  | .erase _ => true

theorem insertsAbsent_ok (x : State Nat × (Nat → Option (Nat × Nat))) (a : Nat × Request Nat Nat)
    (h : insertsAbsent x a = true) : InsertsAbsent oneHash x a := by
  obtain ⟨srv, q⟩ := a
  cases q with
  | insert key v =>
    simp only [insertsAbsent, Bool.and_eq_true, beq_iff_eq, isNone_iff_eq_none] at h
    refine ⟨h.1, ?_⟩
    rintro key' v' ⟨⟩
    exact h.2
  | update key writeFn => cases h
  | find key | erase key => exact ⟨trivial, nofun⟩

/-- **All servers see one table**, in every run in which the calls insert only absent keys, and no
server inserts while another one has slept through the end of the last migration: a find on any server
returns what was last inserted or updated by any server and not erased. -/
theorem servers_find (hn : 4 ≤ n) (hN : N < 256)
    (h : (servers E H (fuel + 1) N n).Reach (fun x a => InsertsAbsent H x a ∧ InsertsNoticed N x a) x)
    {srv : Nat} (hsrv : srv < N) (key : K) :
    ∃ σ', (body (config H (fuel + 1) N srv) (.find key)).run (exec E srv) x.1 = some (x.2 key, σ') := by
  have hinv : ServersInv H N n x := by
    refine h.invariant (I := ServersInv H N n) ?_ fun x a x' _ hi hok hst => ?_
    · rintro x rfl
      exact .init hn
    · exact (hi.step hN hok.1 hok.2 hst).1
  exact hinv.find hN hsrv key

/-- Server 0 fills a table of 4 top-level buckets, all keys having one hash, and starts a resize with
its 33rd insertion; both servers do their part of the migration, and server 0 ends it. -/
def firstResize : List (Nat × Request Nat Nat) :=
  (List.range 33).map (insertKey 0) ++
    [(0, .erase 0), (0, .erase 1), (0, .erase 2), (0, .erase 3), (1, .find 9), (1, .find 9),
      (0, .find 9)]

/-- Server 0 fills the table again and starts the next resize. -/
def secondResize : List (Nat × Request Nat Nat) :=
  [insertKey 0 33, insertKey 0 34, insertKey 0 35, insertKey 0 36]

/-- A test of `InsertsNoticed` for two servers. -/
def insertsNoticed (x : State Nat × (Nat → Option (Nat × Nat))) (a : Nat × Request Nat Nat) : Bool :=
  x.1.resize.ctrl.state == .migrating ||
    (List.range 2).all fun i => i == a.1 || !(x.1.servers i).migrationBegun

theorem insertsNoticed_ok (x : State Nat × (Nat → Option (Nat × Nat))) (a : Nat × Request Nat Nat)
    (h : insertsNoticed x a = true) : InsertsNoticed 2 x a := by
  intro _ _ _ hn i hi hne
  simpa [insertsNoticed, hn, hne] using List.all_eq_true.mp
    ((Bool.or_eq_true_iff.mp h).resolve_left (by simp [hn])) i (List.mem_range.mpr hi)

/-- Server 1 has noticed the end of the first migration, and finds a key that was inserted during the
second one. -/
theorem servers_find_secondResize :
    ∃ x, (servers noHint oneHash 1 2 4).runChecked (fun x a => insertsAbsent x a && insertsNoticed x a)
      (firstResize ++ (1, .find 9) :: secondResize) (State.init 4, fun _ => none) = some x ∧
      x.1.resize.ctrl.state = .migrating ∧ x.2 36 = some (36, 136) ∧
      ∃ σ', (body (config oneHash 1 2 1) (.find 36)).run (exec noHint 1) x.1 = some (x.2 36, σ') := by
  have hrun : ((servers noHint oneHash 1 2 4).runChecked
      (fun x a => insertsAbsent x a && insertsNoticed x a)
      (firstResize ++ (1, .find 9) :: secondResize) (State.init 4, fun _ => none)).map
        (fun x => (x.1.resize.ctrl.state, x.2 36)) = some (.migrating, some (36, 136)) := by
    decide +kernel
  obtain ⟨x, hx, hval⟩ := map_eq_some_iff.mp hrun
  obtain ⟨hm, hmap⟩ := Prod.ext_iff.mp hval
  have hreach : (servers noHint oneHash 1 2 4).Reach
      (fun x a => InsertsAbsent oneHash x a ∧ InsertsNoticed 2 x a) x := by
    refine (System.Reach.start rfl).steps (System.steps_runChecked (fun x a h => ?_) hx)
    rw [Bool.and_eq_true] at h
    exact ⟨insertsAbsent_ok x a h.1, insertsNoticed_ok x a h.2⟩
  exact ⟨x, hx, hm, hmap, servers_find (by decide) (by decide) hreach (by decide) 36⟩

/-- **A server that slept through the end of a migration and the start of the next one does not see the
new top level**: server 1 has made no call since it was done with the first migration, and finds nothing
for a key that server 0 has just inserted. -/
theorem sleeping_server_misses :
    ¬∀ x, (servers noHint oneHash 1 2 4).Reach (InsertsAbsent oneHash) x → ∀ srv < 2, ∀ key, ∃ σ',
      (body (config oneHash 1 2 srv) (.find key)).run (exec noHint srv) x.1 = some (x.2 key, σ') := by
  intro hall
  have hrun : ((servers noHint oneHash 1 2 4).runChecked insertsAbsent
      (firstResize ++ secondResize) (State.init 4, fun _ => none)).map (fun x => (x.2 36,
        ((body (config oneHash 1 2 1) (.find 36)).run (exec noHint 1) x.1).map Prod.fst)) =
      some (some (36, 136), some none) := by decide +kernel
  obtain ⟨x, hx, hval⟩ := map_eq_some_iff.mp hrun
  obtain ⟨hmap, hfind⟩ := Prod.ext_iff.mp hval
  have hreach : (servers noHint oneHash 1 2 4).Reach (InsertsAbsent oneHash) x :=
    (System.Reach.start rfl).steps (System.steps_runChecked insertsAbsent_ok hx)
  obtain ⟨σ', hσ'⟩ := hall x hreach 1 (by decide) 36
  simp only at hmap hfind
  rw [hσ', hmap] at hfind
  cases hfind

/-- **A progressive resize preserves the contents.** With one server and calls that insert only absent
keys, at every point, in the middle of a migration as well: a find returns the value last inserted or
updated for a key that was not erased, and nothing for every other key; the counter is the number of
these keys, and a step of the migration does not change it. -/
theorem resize_find (hn : 4 ≤ n) (h : (servers E H (fuel + 1) 1 n).Reach (InsertsAbsent H) x) :
    (∀ key, ∃ σ', (body (config H (fuel + 1) 1 0) (.find key)).run (exec E 0) x.1 =
      some (x.2 key, σ')) ∧
    x.1.size 0 = {key | x.2 key ≠ none}.ncard ∧
    (x.1.resize.ctrl.state = .migrating → ∃ σ',
      (migrateStep H (fuel + 1)).run (exec E 0) x.1 = some ((), σ') ∧ σ'.size 0 = x.1.size 0) := by
  have hinv : ServersInv H 1 n x ∧ Ready 1 n x.1 0 ∧ ∀ c, Holds x.1.cell c → x.1.size 0 = c.card := by
    refine h.invariant (I := fun x => ServersInv H 1 n x ∧ Ready 1 n x.1 0 ∧
      ∀ c, Holds x.1.cell c → x.1.size 0 = c.card) ?_ fun x a x' _ ⟨hi, _, hsize⟩ hok hst => ?_
    · rintro x rfl
      refine ⟨.init hn, .inl ⟨rfl, rfl, rfl, rfl⟩, fun c hc => ?_⟩
      rw [hc.unique (cell_init (L := L) ▸ holds_empty)]
      rfl
    · have hsrv : a.1 = 0 := by
        by_contra hne
        simp only [servers] at hst
        rw [if_neg (by omega)] at hst
        cases hst
      obtain ⟨hi', hr', hdiff⟩ := hi.step (by omega) hok
        (fun _ _ _ _ i hi hne => absurd (by omega) hne) hst
      rw [hsrv] at hr' hdiff
      refine ⟨hi', hr', fun c' hc' => ?_⟩
      obtain ⟨c, hc, -⟩ := hi.entries
      have hd := hdiff c c' hc hc'
      have hs := hsize c hc
      omega
  obtain ⟨hi, hready, hsize⟩ := hinv
  refine ⟨fun key => hi.find (by omega) Nat.one_pos key, ?_, fun hm => ?_⟩
  · obtain ⟨c, hc, hrep⟩ := hi.entries
    rw [hsize c hc, hrep.card_eq]
  · have hj := (hready.resolve_left fun hn => ResizeState.noConfusion (hn.1.symm.trans hm)).2
    obtain ⟨u, σ', hrun, -, hsame⟩ := ends_migrateStep (E := E) (by omega) Nat.one_pos
      ⟨hi.inv, hm, hj⟩
    exact ⟨σ', hrun, hsame.size 0⟩

/-- In the middle of a migration, of which one bucket out of two was moved. -/
theorem resize_find_migrating :
    ∃ x, (servers noHint oneHash 1 1 4).runChecked insertsAbsent ((List.range 33).map (insertKey 0))
      (State.init 4, fun _ => none) = some x ∧ x.1.resize.ctrl.state = .migrating ∧
      ∃ σ', (body (config oneHash 1 1 0) (.find 20)).run (exec noHint 0) x.1 = some (x.2 20, σ') := by
  have hrun : ((servers noHint oneHash 1 1 4).runChecked insertsAbsent
      ((List.range 33).map (insertKey 0)) (State.init 4, fun _ => none)).map
        (fun x => x.1.resize.ctrl.state) = some .migrating := by decide +kernel
  obtain ⟨x, hx, hm⟩ := map_eq_some_iff.mp hrun
  have hreach : (servers noHint oneHash 1 1 4).Reach (InsertsAbsent oneHash) x :=
    (System.Reach.start rfl).steps (System.steps_runChecked insertsAbsent_ok hx)
  exact ⟨x, hx, hm, (resize_find (by decide) hreach).1 20⟩

end System

end StaxFS.Table
