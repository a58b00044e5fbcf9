import StaxFS.Table.Effect

/-!
# The two-level hash table: the state of a progressive resize

The servers of one table, between two calls. The shared `ResizeMeta` line describes one layout
(`ResizeMeta.layout`). While the shared state is normal, a server is caught up with it, or it has not
yet noticed that the last migration is over; while a migration is in progress, a server has joined it
or has not yet noticed it. A server that has joined empties its range of the old bottom level from the
start up to its cursor, and the control word counts the servers that are done.

`TableInv` collects this, together with what `Good` says about the buckets: no bucket is locked, and
every entry is in one of its candidate buckets of the current layout, but not in a part of the old
bottom level that was already emptied.

Results:
* `ends_preOp`: a call starts with the server caught up or joined.
* `ends_doResize`: starting a resize keeps every entry.
* `ends_migrateStep`: so does a step of the migration, which also keeps the element counter.
* `ends_checkFinalize`: when the initiator ends the migration, the old bottom level is empty.
-/

namespace StaxFS.Table

open Foundation Foundation.Prog List State

variable {K L : Type}

/-- The layout that the shared line describes; before the first resize it is that of the constructor
with `n` top-level buckets. -/
def ResizeMeta.layout (n : Nat) (m : ResizeMeta) : Layout :=
  if m.tlSize = 0 then (Server.init n).layout
  else ⟨m.ctrl.state = .migrating, m.tlOffset, m.tlSize, m.blOffset, m.blSize, m.oldBlOffset,
    m.oldBlSize⟩

/-- Where the range of server `i` of `N` starts in an old level of `size` buckets. -/
def rangeStart (N i size : Nat) : Nat := i * (size / N)

def rangeEnd (N i size : Nat) : Nat := if i + 1 = N then size else (i + 1) * (size / N)

/-- The ranges cover the level. -/
theorem exists_range {N size x : Nat} (hN : 0 < N) (hx : x < size) :
    ∃ i < N, rangeStart N i size ≤ x ∧ x < rangeEnd N i size := by
  by_cases hlast : (N - 1) * (size / N) ≤ x
  · refine ⟨N - 1, by omega, hlast, ?_⟩
    rw [rangeEnd, if_pos (by omega)]
    exact hx
  · have hpos : 0 < size / N := by
      rcases Nat.eq_zero_or_pos (size / N) with h0 | hpos
      · rw [h0] at hlast
        omega
      · exact hpos
    have hdiv : x / (size / N) < N - 1 := by
      rw [Nat.div_lt_iff_lt_mul hpos]
      omega
    refine ⟨x / (size / N), by omega, Nat.div_mul_le_self x _, ?_⟩
    rw [rangeEnd, if_neg (by omega), Nat.add_mul, one_mul]
    exact Nat.lt_div_mul_add hpos

section Status

variable (n : Nat) (σ : State L) (i : Nat)

/-- The server has the layout of the shared line, and no migration is in progress. -/
structure CaughtUp : Prop where
  begun : (σ.servers i).migrationBegun = false
  layout : (σ.servers i).layout = σ.resize.layout n
  version : (σ.servers i).cache.version = σ.resize.version

/-- The server has not noticed that the last migration is over. -/
structure Lagging : Prop where
  begun : (σ.servers i).migrationBegun = true
  layout : (σ.servers i).layout = { σ.resize.layout n with active := true }
  version : (σ.servers i).cache.version ≠ σ.resize.version

/-- The server has not noticed the migration in progress. -/
structure Behind : Prop where
  begun : (σ.servers i).migrationBegun = false
  version : (σ.servers i).cache.version ≠ σ.resize.version

/-- The server takes part in the migration in progress, as one of `N`. -/
structure Joined (N : Nat) : Prop where
  begun : (σ.servers i).migrationBegun = true
  layout : (σ.servers i).layout = σ.resize.layout n
  version : (σ.servers i).cache.version = σ.resize.version
  state : (σ.servers i).cache.state = .migrating
  old : (σ.servers i).cache.oldBlOffset = σ.resize.oldBlOffset
  rangeEnd : (σ.servers i).cache.rangeEnd = rangeEnd N i σ.resize.oldBlSize
  reported : (σ.servers i).cache.doneReported = (σ.servers i).cache.rangeDone
  done : (σ.servers i).cache.rangeDone = true →
    (σ.servers i).cache.rangeEnd ≤ (σ.servers i).cache.localCursor

end Status

/-- The server is done with its range of the migration in progress. -/
def State.isDone (σ : State L) (i : Nat) : Bool :=
  (σ.servers i).cache.version == σ.resize.version && (σ.servers i).cache.rangeDone

/-- The part of the old bottom level that was emptied. -/
def State.Emptied (σ : State L) (N : Nat) : Set Addr :=
  { a | σ.resize.ctrl.state = .migrating ∧ a.base = σ.resize.oldBlOffset ∧
    ∃ i < N, (σ.servers i).cache.version = σ.resize.version ∧
      rangeStart N i σ.resize.oldBlSize ≤ a.idx ∧ a.idx < (σ.servers i).cache.localCursor }

/-- A candidate bucket of the current layout that was not emptied. -/
def HomeNow (H : Hashing K L) (N n : Nat) (σ : State L) (a : Addr) (e : Entry L) : Prop :=
  H.Home (σ.resize.layout n) a e ∧ a ∉ σ.Emptied N

/-- The migration in progress, by `N` servers. -/
structure MigrationOk (N n : Nat) (σ : State L) : Prop where
  ready : 0 < σ.resize.tlSize
  oldSize : 2 ≤ σ.resize.oldBlSize
  oldNext : σ.resize.oldBlOffset < σ.next
  oldTl : σ.resize.oldBlOffset ≠ σ.resize.tlOffset
  oldBl : σ.resize.oldBlOffset ≠ σ.resize.blOffset
  nMds : σ.resize.ctrl.nMds = N
  initiator : σ.resize.ctrl.initiator < N
  doneCount : σ.resize.ctrl.doneCount = ((Finset.range N).filter fun i => σ.isDone i).card
  servers : ∀ i < N, Joined n σ i N ∨ Behind σ i

variable [Inhabited L] {Q : Unit → State L → Prop} {s : Server} {c : Cache} {f : Nat → Nat}
  {e : Entry L}

/-- What holds between the calls of `N` servers on a table of `n` top-level buckets. -/
structure TableInv (H : Hashing K L) (N n : Nat) (σ : State L) : Prop where
  top : 4 ≤ (σ.resize.layout n).tlN
  bottom : 2 ≤ (σ.resize.layout n).blN
  distinct : (σ.resize.layout n).tlOffset ≠ (σ.resize.layout n).blOffset
  topNext : (σ.resize.layout n).tlOffset < σ.next
  bottomNext : (σ.resize.layout n).blOffset < σ.next
  notified : ∀ i < N, σ.notified i = σ.resize.version
  good : Good (HomeNow H N n σ) ∅ σ
  normal : σ.resize.ctrl.state = .normal → ∀ i < N, CaughtUp n σ i ∨ Lagging n σ i
  migrating : σ.resize.ctrl.state = .migrating → MigrationOk N n σ

section Basic

variable {H : Hashing K L} {N n : Nat} {σ σ' : State L} {srv : Nat}

omit [Inhabited L] in
theorem layout_migrating (h : MigrationOk N n σ) (hm : σ.resize.ctrl.state = .migrating) :
    σ.resize.layout n = ⟨true, σ.resize.tlOffset, σ.resize.tlSize, σ.resize.blOffset, σ.resize.blSize,
      σ.resize.oldBlOffset, σ.resize.oldBlSize⟩ := by
  simp [ResizeMeta.layout, hm, Nat.pos_iff_ne_zero.mp h.ready]

omit [Inhabited L] in
theorem layout_normal (h : σ.resize.ctrl.state = .normal) : (σ.resize.layout n).active = false := by
  simp only [ResizeMeta.layout]
  split
  · rfl
  · simp [h]

section

variable (h : TableInv H N n σ)

include h

/-- The candidates on the new levels were not emptied. -/
theorem TableInv.homes : H.Homes (σ.resize.layout n) (HomeNow H N n σ) where
  sub ha := ha.1
  new {c fp w} hfp hl hc := by
    refine ⟨⟨hfp, c, hc, rfl⟩, ?_⟩
    rintro ⟨hm, hbase, -⟩
    have hmig := h.migrating hm
    have hb := (H.mem_candidates.mp hc).2.1
    rw [layout_migrating hmig hm] at hb
    cases hlevel : c.level with
    | top => exact hmig.oldTl (hbase.symm.trans (by rw [hb, hlevel]; rfl))
    | bottom => exact hmig.oldBl (hbase.symm.trans (by rw [hb, hlevel]; rfl))
    | oldBottom => exact hl hlevel
  congr he ha := ⟨(H.homes _).congr he ha.1, ha.2⟩

/-- A call that only changes the buckets and the counter of its server. -/
theorem TableInv.frame (hf : Frame srv σ σ')
    (hgood : Good (HomeNow H N n σ) ∅ σ') : TableInv H N n σ' := by
  have hemp : σ'.Emptied N = σ.Emptied N := by
    simp only [State.Emptied, hf.resize, hf.cache]
  have hhome : HomeNow H N n σ' = HomeNow H N n σ := by
    funext a e
    simp only [HomeNow, hemp, hf.resize]
  have hdone : ∀ i, σ'.isDone i = σ.isDone i := fun i => by
    simp only [State.isDone, hf.resize, hf.cache]
  refine ⟨?_, ?_, ?_, ?_, ?_, ?_, hhome ▸ hgood, ?_, ?_⟩
  · exact hf.resize ▸ h.top
  · exact hf.resize ▸ h.bottom
  · exact hf.resize ▸ h.distinct
  · exact hf.resize ▸ hf.next ▸ h.topNext
  · exact hf.resize ▸ hf.next ▸ h.bottomNext
  · exact fun i hi => by rw [hf.notified, hf.resize]; exact h.notified i hi
  · intro hn i hi
    rw [hf.resize] at hn
    refine (h.normal hn i hi).imp (fun hc => ?_) fun hc => ?_ <;>
      exact ⟨(hf.begun i).trans hc.begun, by rw [hf.layout, hf.resize]; exact hc.layout,
        by rw [hf.cache, hf.resize]; exact hc.version⟩
  · intro hm
    rw [hf.resize] at hm
    have hmig := h.migrating hm
    refine ⟨?_, ?_, ?_, ?_, ?_, ?_, ?_, ?_, fun i hi => (hmig.servers i hi).imp (fun hc => ?_)
      fun hc => ?_⟩
    · exact hf.resize ▸ hmig.ready
    · exact hf.resize ▸ hmig.oldSize
    · exact hf.resize ▸ hf.next ▸ hmig.oldNext
    · exact hf.resize ▸ hmig.oldTl
    · exact hf.resize ▸ hmig.oldBl
    · exact hf.resize ▸ hmig.nMds
    · exact hf.resize ▸ hmig.initiator
    · simp only [hdone, hf.resize]
      exact hmig.doneCount
    · refine ⟨(hf.begun i).trans hc.begun, ?_, ?_, ?_, ?_, ?_, ?_, ?_⟩ <;>
        simp only [hf.layout, hf.cache, hf.resize]
      exacts [hc.layout, hc.version, hc.state, hc.old, hc.rangeEnd, hc.reported, hc.done]
    · exact ⟨(hf.begun i).trans hc.begun, by rw [hf.cache, hf.resize]; exact hc.version⟩

/-- One server of a migration in progress has moved on: it has joined, it has advanced its cursor past
an empty bucket, or it has reported that it is done. -/
theorem TableInv.progress {d : Nat} (hm : σ.resize.ctrl.state = .migrating)
    (hmemory : σ'.memory = σ.memory) (hnext : σ'.next = σ.next) (hnotified : σ'.notified = σ.notified)
    (hresize : σ'.resize = { σ.resize with ctrl := { σ.resize.ctrl with doneCount := d } })
    (hothers : ∀ i, i ≠ srv → σ'.servers i = σ.servers i) (hjoined : Joined n σ' srv N)
    (hcount : d = ((Finset.range N).filter fun i => σ'.isDone i).card)
    (hemptied : ∀ a ∈ σ'.Emptied N, a ∈ σ.Emptied N ∨ ∀ s, σ.cell (a, s) = none) :
    TableInv H N n σ' := by
  have hmig := h.migrating hm
  have hbucket : ∀ a, σ'.bucket a = σ.bucket a := fun a => by rw [State.bucket, hmemory, State.bucket]
  have hlayout : σ'.resize.layout n = σ.resize.layout n := by rw [hresize]; rfl
  have hversion : σ'.resize.version = σ.resize.version := by rw [hresize]
  refine ⟨hlayout ▸ h.top, hlayout ▸ h.bottom, hlayout ▸ h.distinct, ?_, ?_, ?_, ⟨?_, ?_⟩, ?_, ?_⟩
  · rw [hlayout, hnext]
    exact h.topNext
  · rw [hlayout, hnext]
    exact h.bottomNext
  · intro i hi
    rw [hnotified, hversion]
    exact h.notified i hi
  · intro a
    rw [hbucket]
    exact h.good.locked a
  · intro a s e he
    have he' : σ.cell (a, s) = some e := by rwa [State.cell, ← hbucket]
    obtain ⟨hhome, hnot⟩ := h.good.home a s e he'
    refine ⟨hlayout ▸ hhome, fun hmem => (hemptied a hmem).elim hnot fun hnone => ?_⟩
    rw [hnone s] at he'
    cases he'
  · intro hn
    rw [hresize] at hn
    exact absurd (hm.symm.trans hn) ResizeState.noConfusion
  · intro _
    refine ⟨?_, ?_, ?_, ?_, ?_, ?_, ?_, ?_, fun i hi => ?_⟩ <;> try rw [hresize]
    · exact hmig.ready
    · exact hmig.oldSize
    · rw [hnext]
      exact hmig.oldNext
    · exact hmig.oldTl
    · exact hmig.oldBl
    · exact hmig.nMds
    · exact hmig.initiator
    · exact hcount
    · by_cases hne : i = srv
      · subst hne
        exact .inl hjoined
      · refine (hmig.servers i hi).imp (fun hc => ?_) fun hc => ?_
        · refine ⟨?_, ?_, ?_, ?_, ?_, ?_, ?_, ?_⟩ <;> rw [hothers i hne]
          exacts [hc.begun, hlayout ▸ hc.layout, hversion ▸ hc.version, hc.state,
            by rw [hresize]; exact hc.old, by rw [hresize]; exact hc.rangeEnd, hc.reported, hc.done]
        · refine ⟨?_, ?_⟩ <;> rw [hothers i hne]
          exacts [hc.begun, hversion ▸ hc.version]

/-- A server has caught up. -/
theorem TableInv.catchUp (hn : σ.resize.ctrl.state = .normal)
    (hs : CaughtUp n (σ.setServer srv s) srv) : TableInv H N n (σ.setServer srv s) := by
  refine ⟨h.top, h.bottom, h.distinct, h.topNext, h.bottomNext, h.notified, ⟨h.good.locked, ?_⟩, ?_, ?_⟩
  · intro a s' e he
    refine ⟨(h.good.home a s' e he).1, ?_⟩
    rintro ⟨hm, -⟩
    exact absurd (hm.symm.trans hn) ResizeState.noConfusion
  · intro _ i hi
    by_cases hne : i = srv
    · subst hne
      exact .inl hs
    · have hsame : (σ.setServer srv s).servers i = σ.servers i := servers_setServer_of_ne hne
      refine (h.normal hn i hi).imp (fun hc => ?_) fun hc => ?_ <;>
        exact ⟨hsame ▸ hc.begun, hsame ▸ hc.layout, hsame ▸ hc.version⟩
  · intro hm
    exact absurd (hm.symm.trans hn) ResizeState.noConfusion

end

end Basic

/-! ### Before an operation -/

/-- The server may work on the table. -/
def Ready (N n : Nat) (σ : State L) (i : Nat) : Prop :=
  (σ.resize.ctrl.state = .normal ∧ CaughtUp n σ i) ∨
    (σ.resize.ctrl.state = .migrating ∧ Joined n σ i N)

/-- Only the state of one server has changed, and not its counter. -/
structure Local (srv : Nat) (σ σ' : State L) : Prop where
  memory : σ'.memory = σ.memory
  resize : σ'.resize = σ.resize
  notified : σ'.notified = σ.notified
  next : σ'.next = σ.next
  others : ∀ i, i ≠ srv → σ'.servers i = σ.servers i
  size : σ'.size srv = σ.size srv

omit [Inhabited L] in
theorem Local.refl (srv : Nat) (σ : State L) : Local srv σ σ :=
  ⟨rfl, rfl, rfl, rfl, fun _ _ => rfl, rfl⟩

omit [Inhabited L] in
theorem Local.setServer {srv : Nat} {σ : State L} (h : s.size = σ.size srv) :
    Local srv σ (σ.setServer srv s) :=
  ⟨rfl, rfl, rfl, rfl, fun _ hi => servers_setServer_of_ne hi,
    (congrArg Server.size (σ.servers_setServer srv s)).trans h⟩

section PreOp

variable {E : Env} {H : Hashing K L} {N n : Nat} {σ : State L} {srv fuel : Nat}

theorem ends_refreshCache
    (hQ : Q () (σ.setCache srv ((σ.servers srv).cache.refresh srv σ.resize))) :
    Ends (exec E srv) refreshCache σ Q :=
  Ends.step rfl ((ends_perform rfl).mpr hQ)

theorem ends_checkVersionChanged {Q : Bool → State L → Prop}
    (hQ : Q (σ.notified srv != (σ.servers srv).cache.version) σ) :
    Ends (exec E srv) checkVersionChanged σ Q :=
  Ends.step rfl (Ends.step rfl (.pure hQ))

theorem version_refresh (c : Cache) (srv : Nat) (m : ResizeMeta) :
    (c.refresh srv m).version = m.version := by
  rw [Cache.refresh]
  split <;> rfl

variable {m : ResizeMeta}

/-- A cache refreshed during a migration by `N` servers: the server starts at the begin of its
range. -/
theorem refresh_migrating (hm : m.ctrl.state = .migrating)
    (hold : 0 < m.oldBlSize) (hN : m.ctrl.nMds = N) (hsrv : srv < N) : c.refresh srv m =
      { state := .migrating, version := m.version, tlOffset := m.tlOffset, tlSize := m.tlSize
        blOffset := m.blOffset, blSize := m.blSize, oldBlOffset := m.oldBlOffset
        oldBlSize := m.oldBlSize, rangeEnd := rangeEnd N srv m.oldBlSize
        localCursor := rangeStart N srv m.oldBlSize, rangeDone := false, doneReported := false } := by
  rw [Cache.refresh, if_pos ⟨hm, hold, hN ▸ (by omega)⟩, hm, hN]
  rfl

/-- The layout of a migration in progress. -/
def Cache.layout (c : Cache) : Layout :=
  ⟨true, c.tlOffset, c.tlSize, c.blOffset, c.blSize, c.oldBlOffset, c.oldBlSize⟩

/-- With no other call in between a server switches to the layout of its cache. -/
theorem ends_beginMigration (hQ : Q () (σ.setLayout srv (σ.servers srv).cache.layout)) :
    Ends (exec E srv) beginMigration σ Q := by
  have copy {m : Member} {f : Cache → Nat} {σ : State L} {Q : Unit → State L → Prop}
      (hQ : Q () (σ.setLayout srv ((σ.servers srv).layout.set (f (σ.servers srv).cache) m))) :
      Ends (exec E srv) (copyMember m f) σ Q := Ends.step rfl ((ends_perform rfl).mpr hQ)
  refine .seq (copy (.seq (copy (.seq (.seq (copy (.seq (copy (.seq (copy (copy ?_)))))))))))
  refine (ends_perform rfl).mpr ?_
  simpa [State.setLayout, Layout.set, Cache.layout] using hQ

/-- A server that begins a migration has the layout of the line it has read. -/
theorem layout_refresh (hm : m.ctrl.state = .migrating) (htl : m.tlSize ≠ 0) :
    (c.refresh srv m).layout = m.layout n := by
  rw [Cache.refresh]
  split <;> simp [Cache.layout, ResizeMeta.layout, hm, htl]

/-- A server joins the migration in progress. -/
theorem TableInv.join (h : TableInv H N n σ) (hm : σ.resize.ctrl.state = .migrating)
    (hsrv : srv < N) (hb : Behind σ srv) (hbegun : s.migrationBegun = true)
    (hlayout : s.layout = σ.resize.layout n)
    (hcache : s.cache = (σ.servers srv).cache.refresh srv σ.resize) :
    TableInv H N n (σ.setServer srv s) ∧ Joined n (σ.setServer srv s) srv N := by
  have hmig := h.migrating hm
  rw [refresh_migrating hm (by have := hmig.oldSize; omega) hmig.nMds hsrv] at hcache
  have hself := σ.servers_setServer srv s
  have hothers : ∀ i, i ≠ srv → (σ.setServer srv s).servers i = σ.servers i := fun i hi =>
    servers_setServer_of_ne hi
  have hjoined : Joined n (σ.setServer srv s) srv N := by
    refine ⟨?_, ?_, ?_, ?_, ?_, ?_, ?_, ?_⟩ <;> simp [hcache, hbegun, hlayout]
  refine ⟨h.progress (d := σ.resize.ctrl.doneCount) hm rfl rfl rfl rfl hothers hjoined ?_ ?_, hjoined⟩
  · rw [hmig.doneCount]
    congr 1
    refine Finset.filter_congr fun i _ => ?_
    by_cases hi : i = srv
    · subst hi
      simp [State.isDone, hcache, hb.version]
    · simp only [State.isDone, hothers i hi]
      rfl
  · rintro a ⟨-, hbase, i, hi, hv, hlo, hhi⟩
    by_cases hne : i = srv
    · subst hne
      rw [hself, hcache] at hhi
      exact absurd (hlo.trans_lt hhi) (lt_irrefl _)
    · rw [hothers i hne] at hv hhi
      exact .inl ⟨hm, hbase, i, hi, hv, hlo, hhi⟩

theorem ends_checkResize (hsrv : srv < N) (h : TableInv H N n σ) :
    Ends (exec E srv) (checkResize (fuel + 1)) σ fun _ σ' =>
      TableInv H N n σ' ∧ Ready N n σ' srv ∧ Local srv σ σ' := by
  refine Ends.step rfl ?_
  obtain hn | hm : σ.resize.ctrl.state = .normal ∨ σ.resize.ctrl.state = .migrating := by
    cases σ.resize.ctrl.state <;> simp
  · obtain hc | hc := h.normal hn srv hsrv
    · -- caught up: nothing to do
      rw [if_neg (by rw [hc.begun]; exact Bool.noConfusion)]
      refine .seq (ends_checkVersionChanged ?_)
      rw [h.notified srv hsrv, hc.version, bne_self_eq_false, if_neg Bool.noConfusion]
      exact .pure ⟨h, .inl ⟨hn, hc⟩, Local.refl srv σ⟩
    · -- the last migration is over: leave it
      rw [if_pos hc.begun]
      refine Ends.step rfl ?_
      rw [hc.layout]
      refine .seq (ends_checkVersionChanged ?_)
      rw [h.notified srv hsrv, if_pos (bne_iff_ne.mpr hc.version.symm)]
      refine Ends.step rfl ?_
      rw [if_pos hn]
      refine Ends.step (if_pos hc.begun) (.seq (ends_refreshCache ((ends_perform rfl).mpr ?_)))
      simp only [State.setBegun, State.setCache, State.setLayout, servers_setServer,
        setServer_setServer, resize_setServer]
      have hcaught : CaughtUp n (σ.setServer srv
          { σ.servers srv with
            layout := { (σ.servers srv).layout with active := false }, migrationBegun := false
            cache := (σ.servers srv).cache.refresh srv σ.resize }) srv := by
        refine ⟨?_, ?_, ?_⟩ <;> rw [servers_setServer]
        · rw [hc.layout, resize_setServer, ← layout_normal hn]
        · exact version_refresh _ _ _
      exact ⟨h.catchUp hn hcaught, .inl ⟨hn, hcaught⟩, Local.setServer rfl⟩
  · obtain hc | hc := (h.migrating hm).servers srv hsrv
    · -- at work on it already
      rw [if_pos hc.begun]
      refine Ends.step rfl ?_
      rw [hc.layout, layout_migrating (h.migrating hm) hm]
      refine .seq (ends_checkVersionChanged ?_)
      rw [h.notified srv hsrv, hc.version, bne_self_eq_false, if_neg Bool.noConfusion]
      exact .pure ⟨h, .inr ⟨hm, hc⟩, Local.refl srv σ⟩
    · -- a new migration: join it
      rw [if_neg (by rw [hc.begun]; exact Bool.noConfusion)]
      refine .seq (ends_checkVersionChanged ?_)
      rw [h.notified srv hsrv, if_pos (bne_iff_ne.mpr hc.version.symm)]
      refine Ends.step rfl ?_
      rw [hm]
      refine Ends.step (if_pos hc.begun) (.seq (.seq (ends_refreshCache
        (Ends.step rfl ?_))))
      simp only [State.setBegun, State.setCache, servers_setServer, setServer_setServer,
        resize_setServer]
      have hmig := h.migrating hm
      have hcache := refresh_migrating (c := (σ.servers srv).cache) hm
        (by have := hmig.oldSize; omega) hmig.nMds hsrv
      rw [if_pos (by rw [hcache]; exact (h.migrating hm).ready)]
      refine .pure (ends_beginMigration ?_)
      rw [State.setLayout, servers_setServer, setServer_setServer]
      obtain ⟨hinv, hjoined⟩ := h.join (s :=
        { σ.servers srv with
          layout := ((σ.servers srv).cache.refresh srv σ.resize).layout, migrationBegun := true
          cache := (σ.servers srv).cache.refresh srv σ.resize })
        hm hsrv hc rfl (layout_refresh hm (Nat.pos_iff_ne_zero.mp hmig.ready)) rfl
      exact ⟨hinv, .inr ⟨hm, hjoined⟩, Local.setServer rfl⟩

end PreOp

/-! ### Starting a resize -/

section DoResize

variable {E : Env} {H : Hashing K L} {N n : Nat} {σ : State L} {srv fuel : Nat} {version : Nat}

variable {l : Layout} {a : Addr}

omit [Inhabited L] in
/-- When the levels change their roles, the homes stay homes. -/
theorem Hashing.Home.shift {newTl newN : Nat} (h : H.Home l a e) (hl : l.active = false) :
    H.Home ⟨true, newTl, newN, l.tlOffset, l.tlN, l.blOffset, l.blN⟩ a e := by
  obtain ⟨hfp, c, hc, rfl⟩ := h
  obtain ⟨hact, hbase, hidx⟩ := H.mem_candidates.mp hc
  cases hlevel : c.level with
  | top =>
    rw [hlevel] at hbase hidx
    exact ⟨hfp, ⟨.bottom, c.addr⟩, H.mem_candidates.mpr ⟨nofun, hbase, hidx⟩, rfl⟩
  | bottom =>
    rw [hlevel] at hbase hidx
    exact ⟨hfp, ⟨.oldBottom, c.addr⟩, H.mem_candidates.mpr ⟨fun _ => rfl, hbase, hidx⟩, rfl⟩
  | oldBottom =>
    rw [hact hlevel] at hl
    cases hl

theorem ends_forM_notify {Q : PUnit → State L → Prop} : ∀ (is : List Nat) (σ : State L),
      (∀ f : Nat → Nat, (∀ i, f i = if i ∈ is then version else σ.notified i) →
        Q ⟨⟩ { σ with notified := f }) →
      Ends (exec E srv) (is.forM fun i => perform (.notify i version)) σ Q
  | [], σ, hQ => .pure (hQ σ.notified fun i => by simp)
  | i :: is, σ, hQ => by
    refine Ends.step rfl (ends_forM_notify is _ fun f hf => ?_)
    refine hQ f fun i' => ?_
    rw [hf]
    by_cases hmem : i' ∈ is
    · simp [hmem]
    · by_cases he : i' = i <;> simp [hmem, he]

/-- Every server is notified. -/
theorem ends_notifyAllMds
    (hQ : ∀ f : Nat → Nat, (∀ i < N, f i = version) → Q () { σ with notified := f }) :
    Ends (exec E srv) (notifyAllMds N srv version) σ Q := by
  refine .seq (ends_forM_notify _ σ fun f hf => (ends_perform rfl).mpr (hQ _ fun i hi => ?_))
  by_cases he : i = srv
  · simp [he]
  · simp [hf, he, hi]

/-- What the winner of the control word publishes. -/
def resizedMeta (N srv : Nat) (σ : State L) (l : Layout) : ResizeMeta :=
  ⟨Ctrl.pack .migrating srv N 0, σ.resize.version + 1, σ.next, l.tlN * 2, l.tlOffset, l.tlN,
    l.blOffset, l.blN⟩

theorem ends_publishLayout (hl : (σ.servers srv).layout = l)
    (hprev : 0 < σ.resize.tlSize → { l with tlOffset := σ.resize.tlOffset, tlN := σ.resize.tlSize
                                            blOffset := σ.resize.blOffset, blN := σ.resize.blSize } = l)
    (hQ : ∀ f : Nat → Nat, (∀ i < N, f i = σ.resize.version + 1) →
      Q () (({ σ with resize := resizedMeta N srv σ l, notified := f, next := σ.next + 1 }).setCache srv
        ((σ.servers srv).cache.refresh srv (resizedMeta N srv σ l)))) :
    Ends (exec E srv) (publishLayout N srv) σ Q := by
  -- the stores to the own layout, if any, write what is there
  refine Ends.step rfl ?_
  dsimp only
  split
  on_goal 1 =>
    rename_i hpos
    have hsame (m : Member) (x : Nat) (hx : x = l.get m) :
        σ.setLayout srv ((σ.servers srv).layout.set x m) = σ := by
      have hset : l.set x m = l := by subst hx; cases m <;> rfl
      rw [hl, hset, State.setLayout, ← hl]
      simp [State.setServer]
    have hstore {m : Member} {x : Nat} {p : Unit → M L Unit} (hx : x = l.get m)
        (hp : Ends (exec E srv) (p ()) σ Q) :
        Ends (exec E srv) (perform (.storeMember m x) >>= p) σ Q :=
      Ends.step (congrArg (fun σ => some ((), σ)) (hsame m x hx)) hp
    have hl' := hprev hpos
    refine hstore (congrArg Layout.tlOffset hl') (hstore (congrArg Layout.tlN hl')
      (hstore (congrArg Layout.blOffset hl') (hstore (congrArg Layout.blN hl') ?_)))
  all_goals
    refine Ends.step rfl (.seq (ends_notifyAllMds fun f _ => ?_))
    iterate 7 refine Ends.step rfl ?_
    refine .seq (ends_notifyAllMds fun f' hf' => ends_refreshCache ?_)
    simp only [Layout.get, hl]
    exact hQ f' hf'

/-- The state after a resize was started by `srv`. -/
theorem TableInv.resized (hN : N < 256) (hsrv : srv < N)
    (h : TableInv H N n σ) (hn : σ.resize.ctrl.state = .normal) (hall : ∀ i < N, CaughtUp n σ i)
    (hf : ∀ i < N, f i = σ.resize.version + 1) (hbegun : s.migrationBegun = true)
    (hlayout : s.layout = (resizedMeta N srv σ (σ.resize.layout n)).layout n)
    (hcache : s.cache = c.refresh srv (resizedMeta N srv σ (σ.resize.layout n))) :
    let σ' := ({ σ with resize := resizedMeta N srv σ (σ.resize.layout n), notified := f
                        next := σ.next + 1 } : State L).setServer srv s
    TableInv H N n σ' ∧ Joined n σ' srv N := by
  intro σ'
  have htop := h.top
  have hbottom := h.bottom
  have hmeta : (resizedMeta N srv σ (σ.resize.layout n)).layout n =
      ⟨true, σ.next, (σ.resize.layout n).tlN * 2, (σ.resize.layout n).tlOffset,
        (σ.resize.layout n).tlN, (σ.resize.layout n).blOffset, (σ.resize.layout n).blN⟩ := by
    have hne : (resizedMeta N srv σ (σ.resize.layout n)).tlSize ≠ 0 :=
      show (σ.resize.layout n).tlN * 2 ≠ 0 by omega
    rw [ResizeMeta.layout, if_neg hne]
    rfl
  have hctrl : (resizedMeta N srv σ (σ.resize.layout n)).ctrl = ⟨.migrating, srv, N, 0⟩ := by
    simp [resizedMeta, Ctrl.pack, Nat.mod_eq_of_lt hN, Nat.mod_eq_of_lt (hsrv.trans hN)]
  have hresize : σ'.resize = resizedMeta N srv σ (σ.resize.layout n) := rfl
  have hself : σ'.servers srv = s := servers_setServer _ _ _
  have hothers : ∀ i, i ≠ srv → σ'.servers i = σ.servers i := fun i hi =>
    servers_setServer_of_ne hi
  rw [refresh_migrating (by rw [hctrl]) (show 0 < (σ.resize.layout n).blN by omega)
    (by rw [hctrl]) hsrv] at hcache
  have hstale : ∀ i < N, i ≠ srv → (σ'.servers i).cache.version ≠ σ'.resize.version := by
    intro i hi hne
    rw [hothers i hne, (hall i hi).version, hresize]
    exact (Nat.lt_succ_self _).ne
  have hempty : σ'.Emptied N = ∅ := by
    refine Set.eq_empty_of_forall_notMem ?_
    rintro a ⟨-, -, i, hi, hv, hlo, hhi⟩
    by_cases hne : i = srv
    · subst hne
      rw [hself, hcache] at hhi
      exact absurd (hlo.trans_lt hhi) (lt_irrefl _)
    · exact hstale i hi hne hv
  have hjoined : Joined n σ' srv N := by
    refine ⟨?_, ?_, ?_, ?_, ?_, ?_, ?_, ?_⟩ <;> simp [hself, hcache, hbegun, hlayout, hresize]
  refine ⟨⟨?_, ?_, ?_, ?_, ?_, hf, ⟨h.good.locked, fun a s e he => ?_⟩, fun hn' => ?_, fun _ => ?_⟩,
    hjoined⟩
  · rw [hresize, hmeta]
    show 4 ≤ (σ.resize.layout n).tlN * 2
    omega
  · rw [hresize, hmeta]
    show 2 ≤ (σ.resize.layout n).tlN
    omega
  · rw [hresize, hmeta]
    exact h.topNext.ne'
  · rw [hresize, hmeta]
    exact Nat.lt_succ_self σ.next
  · rw [hresize, hmeta]
    exact h.topNext.trans (Nat.lt_succ_self σ.next)
  · refine ⟨?_, hempty ▸ Set.notMem_empty a⟩
    rw [hresize, hmeta]
    exact (h.good.home a s e he).1.shift (layout_normal hn)
  · rw [hresize, hctrl] at hn'
    cases hn'
  · refine ⟨?_, ?_, ?_, ?_, ?_, ?_, ?_, ?_, fun i hi => ?_⟩
    · show 0 < (σ.resize.layout n).tlN * 2
      omega
    · exact hbottom
    · exact h.bottomNext.trans (Nat.lt_succ_self σ.next)
    · exact h.bottomNext.ne
    · exact h.distinct.symm
    · rw [hresize, hctrl]
    · rw [hresize, hctrl]
      exact hsrv
    · rw [hresize, hctrl]
      refine (Finset.card_eq_zero.mpr (Finset.filter_eq_empty_iff.mpr fun i hi => ?_)).symm
      by_cases hne : i = srv
      · simp [State.isDone, hne, hself, hcache]
      · simp [State.isDone, hstale i (Finset.mem_range.mp hi) hne]
    · by_cases hne : i = srv
      · subst hne
        exact .inl hjoined
      · exact .inr ⟨by rw [hothers i hne]; exact (hall i hi).begun, hstale i hi hne⟩

/-- **Starting a resize** when every server has caught up: the server joins its own migration, and no
bucket and no counter changes. -/
theorem ends_doResize (hN : N < 256) (hsrv : srv < N) (h : TableInv H N n σ)
    (hn : σ.resize.ctrl.state = .normal) (hall : ∀ i < N, CaughtUp n σ i) :
    Ends (exec E srv) (doResize (fuel + 1) N srv) σ fun _ σ' =>
      TableInv H N n σ' ∧ σ'.resize.ctrl.state = .migrating ∧ Joined n σ' srv N ∧
        σ'.memory = σ.memory ∧ ∀ i, σ'.size i = σ.size i := by
  have hc := hall srv hsrv
  have htop := h.top
  refine .seq (ends_checkVersionChanged ?_)
  rw [h.notified srv hsrv, hc.version, bne_self_eq_false, if_neg Bool.noConfusion]
  refine .seq (Ends.step rfl ?_)
  rw [if_pos hn]
  refine Ends.step (if_pos rfl) (ends_publishLayout hc.layout ?_ fun f hf => ?_)
  · intro hpos
    show _ = _
    have htl : 0 < σ.resize.tlSize := hpos
    simp [ResizeMeta.layout, Nat.pos_iff_ne_zero.mp htl]
  refine Ends.step (if_pos ?_) (.seq (ends_refreshCache (Ends.step rfl ?_)))
  · simp only [State.setCache, servers_setServer]
    exact hc.begun
  simp only [State.setBegun, State.setCache, servers_setServer, setServer_setServer,
    resize_setServer]
  -- the first refresh is that of the initiator, the second that of `do_resize`
  have hrefresh : ∀ c : Cache, (c.refresh srv (resizedMeta N srv σ (σ.resize.layout n))).state =
      .migrating ∧ (c.refresh srv (resizedMeta N srv σ (σ.resize.layout n))).tlSize ≠ 0 := by
    intro c
    rw [refresh_migrating rfl (show 0 < (σ.resize.layout n).blN by have := h.bottom; omega)
      (Nat.mod_eq_of_lt hN) hsrv]
    exact ⟨rfl, show (σ.resize.layout n).tlN * 2 ≠ 0 by omega⟩
  refine (if_pos (hrefresh _).1).symm ▸ .seq (Ends.step rfl ?_)
  simp only [servers_setServer]
  refine (if_neg (hrefresh _).2).symm ▸ .pure (ends_beginMigration ?_)
  rw [State.setLayout, servers_setServer, setServer_setServer]
  let cache := ((σ.servers srv).cache.refresh srv (resizedMeta N srv σ (σ.resize.layout n))).refresh
    srv (resizedMeta N srv σ (σ.resize.layout n))
  obtain ⟨hinv, hjoined⟩ := h.resized hN hsrv hn hall hf (s :=
    { σ.servers srv with layout := cache.layout, migrationBegun := true, cache := cache }) rfl
    (layout_refresh rfl (show (σ.resize.layout n).tlN * 2 ≠ 0 by omega)) rfl
  refine ⟨hinv, rfl, hjoined, rfl, fun i => ?_⟩
  by_cases hi : i = srv
  · subst hi
    simp [State.size]
  · simp only [State.size]
    rw [servers_setServer_of_ne hi]

end DoResize

/-! ### A step of the migration -/

/-- The entries and the counters are as before. -/
structure SameContents (σ σ' : State L) : Prop where
  holds : ∀ c, Holds σ.cell c → Holds σ'.cell c
  size : ∀ i, σ'.size i = σ.size i

section Migrate

variable {E : Env} {H : Hashing K L} {N n : Nat} {σ : State L} {srv fuel : Nat} {l : Layout}
  {Home : Addr → Entry L → Prop} {X : Set Addr} {a : Addr} {keys : Header}

theorem ends_insertToNewLayout {fp : Nat} {v : L × L} (hH : H.Homes l Home) (h : Good Home X σ)
    (hl : (σ.servers srv).layout = l) (hfp : fp = H.makeFp (H.extract v))
    (hX : ∀ a ∈ X, a.base ≠ l.tlOffset ∧ a.base ≠ l.blOffset) :
    Ends (exec E srv) (insertToNewLayout H fuel fp v) σ (Placed srv Home X (fp, v) 0 σ) := by
  subst hfp
  have hne := H.makeFp_ne_zero (H.extract v)
  have hcs := candidates_home hH rfl hX (v := v)
  refine .seq (ends_getCandidates ?_)
  rw [hl]
  refine (places_insertPasses hne hcs σ h).bind fun placed σ' hσ' => ?_
  cases placed with
  | true => exact .pure hσ'
  | false =>
    have hkeeps : Keeps srv Home X σ σ' := hσ'
    refine (places_tryMigrateAndInsert hH hne (fun c hc hlv => (hcs c hc hlv).2) σ'
      hkeeps.good).bind fun placed σ'' hσ'' => ?_
    cases placed with
    | false => exact .pure (hkeeps.trans hσ'')
    | true =>
      have hadds : Adds srv Home X (H.makeFp (H.extract v), v) 1 σ' σ'' := hσ''
      have hcount := (hkeeps.adds hadds).count (n := -1)
      rw [Int.add_right_neg] at hcount
      exact .seq ((ends_perform rfl).mpr (.pure hcount))

/-- The entry that slot `s` of the locked bucket had. -/
def entryAt (σ : State L) (a : Addr) (keys : Header) (s : Slot) : Entry L :=
  (keys.fp s, ((σ.bucket a).lines s false, (σ.bucket a).lines s true))

theorem cell_of_lockedAs {s : Slot} (hl : LockedAs σ a keys) (hs : keys.fp s ≠ 0) :
    σ.cell (a, s) = some (entryAt σ a keys s) := by
  rw [LockedAs] at hl
  simp [State.cell, Bucket.cell, hl, hs, entryAt]

/-- The slots of an old bucket: those that were placed in the new layout have a copy there. -/
theorem ends_migrateSlots (hH : H.Homes l Home) (ha : a.base ≠ l.tlOffset ∧ a.base ≠ l.blOffset) :
    ∀ (ss : List Slot) (left : Slot → Nat) (σ : State L), ss.Nodup → Good Home {a} σ →
      (σ.servers srv).layout = l → LockedAs σ a keys →
      Ends (exec E srv) (migrateSlots H fuel a keys ss left) σ fun left' σ' =>
        ∃ moved : List Slot, moved.Nodup ∧ (∀ s ∈ moved, s ∈ ss ∧ keys.fp s ≠ 0) ∧
          (left' = fun s => if s ∈ moved then 0 else left s) ∧ Good Home {a} σ' ∧ Frame srv σ σ' ∧
          σ'.size srv = σ.size srv ∧ σ'.bucket a = σ.bucket a ∧
          ∀ c, Holds σ.cell c → Holds σ'.cell (↑(moved.map (entryAt σ a keys)) + c)
  | [], left, σ, _, h, _, _ => by
    refine .pure ⟨[], nodup_nil, nofun, ?_, h, Frame.refl srv σ, rfl, rfl, ?_⟩
    · simp
    · simp
  | s :: ss, left, σ, hnd, h, hl, hlock => by
    obtain ⟨hs, hnd'⟩ := nodup_cons.mp hnd
    simp only [migrateSlots]
    split
    · refine (ends_migrateSlots hH ha ss left σ hnd' h hl hlock).mono ?_
      rintro left' σ' ⟨moved, hmnd, hmem, rest⟩
      exact ⟨moved, hmnd, fun j hj => ⟨mem_cons_of_mem s (hmem j hj).1, (hmem j hj).2⟩, rest⟩
    · rename_i hne
      refine .seq (ends_readValue ?_)
      have hfp := (hH.sub (h.home a s _ (cell_of_lockedAs hlock hne))).1
      have hX : ∀ b ∈ ({a} : Set Addr), b.base ≠ l.tlOffset ∧ b.base ≠ l.blOffset := by
        rintro b rfl
        exact ha
      refine (ends_insertToNewLayout hH h hl hfp hX).bind fun placed σ1 hσ1 => ?_
      cases placed with
      | false =>
        have hk : Keeps srv Home {a} σ σ1 := hσ1
        have hbucket := hk.fixed a rfl
        refine (ends_migrateSlots hH ha ss left σ1 hnd' hk.good ((hk.frame.layout srv).trans hl)
          (hlock.of_bucket hbucket)).mono ?_
        rintro left' σ' ⟨moved, hmnd, hmem, hleft, hgood, hframe, hsize, hb, hholds⟩
        refine ⟨moved, hmnd, fun j hj => ⟨mem_cons_of_mem s (hmem j hj).1, (hmem j hj).2⟩, hleft,
          hgood, hk.frame.trans hframe, hsize.trans hk.size, hb.trans hbucket, fun c hc => ?_⟩
        have he : entryAt σ1 a keys = entryAt σ a keys := by
          funext j
          simp only [entryAt, hbucket]
        exact he ▸ hholds c (hk.cell ▸ hc)
      | true =>
        have hadds : Adds srv Home {a} (entryAt σ a keys s) 0 σ σ1 := hσ1
        have hbucket := hadds.fixed a rfl
        refine (ends_migrateSlots hH ha ss _ σ1 hnd' hadds.good ((hadds.frame.layout srv).trans hl)
          (hlock.of_bucket hbucket)).mono ?_
        rintro left' σ' ⟨moved, hmnd, hmem, hleft, hgood, hframe, hsize, hb, hholds⟩
        have hsize' := hadds.size
        refine ⟨s :: moved, nodup_cons.mpr ⟨fun hm => hs (hmem s hm).1, hmnd⟩, ?_, ?_, hgood,
          hadds.frame.trans hframe, by omega, hb.trans hbucket, fun c hc => ?_⟩
        · rintro j (_ | ⟨_, hj⟩)
          · exact ⟨mem_cons_self, hne⟩
          · exact ⟨mem_cons_of_mem s (hmem j hj).1, (hmem j hj).2⟩
        · rw [hleft]
          funext j
          by_cases hj : j = s
          · simp [hj]
          · simp [hj]
        · have he : entryAt σ1 a keys = entryAt σ a keys := by
            funext j
            simp only [entryAt, hbucket]
          have hres := hholds _ (hadds.holds c hc)
          rw [he] at hres
          rw [map_cons, ← Multiset.cons_coe, Multiset.cons_add, ← Multiset.add_cons]
          exact hres

/-- The old bucket is written back without the slots that were moved. -/
theorem cell_unlock_moved {moved : List Slot} {x : Addr × Slot} (hl : LockedAs σ a keys) :
    (σ.unlock a keys (fun s => if s ∈ moved then 0 else keys.fp s) (σ.bucket a).lines).cell x =
      if x ∈ moved.map (Prod.mk a) then none else σ.cell x := by
  obtain ⟨a', s⟩ := x
  rw [LockedAs] at hl
  by_cases ha : a' = a
  · subst ha
    by_cases hs : s ∈ moved <;>
      simp [State.cell, State.unlock, Bucket.cell, Header.unlocked, hl, hs]
  · rw [State.unlock, cell_setBucket_of_ne ha, if_neg]
    intro hmem
    obtain ⟨s', -, he⟩ := List.mem_map.mp hmem
    exact ha (Prod.ext_iff.mp he).1.symm

/-- The server, at work on its range. -/
structure AtWork (H : Hashing K L) (N n srv : Nat) (σ : State L) : Prop where
  inv : TableInv H N n σ
  migrating : σ.resize.ctrl.state = .migrating
  joined : Joined n σ srv N

omit [Inhabited L] in
theorem SameContents.refl (σ : State L) [Inhabited L] : SameContents σ σ := ⟨fun _ h => h, fun _ => rfl⟩

theorem SameContents.trans {σ' σ'' : State L} (h : SameContents σ σ') (h' : SameContents σ' σ'') :
    SameContents σ σ'' :=
  ⟨fun c hc => h'.holds c (h.holds c hc), fun i => (h'.size i).trans (h.size i)⟩

/-- The call changed buckets and its own counter only, but not that. -/
theorem AtWork.frame {σ' : State L} (h : AtWork H N n srv σ) (hf : Frame srv σ σ')
    (hgood : Good (HomeNow H N n σ) ∅ σ') : AtWork H N n srv σ' where
  inv := h.inv.frame hf hgood
  migrating := hf.resize ▸ h.migrating
  joined := by
    have hj := h.joined
    refine ⟨?_, ?_, ?_, ?_, ?_, ?_, ?_, ?_⟩ <;> simp only [hf.begun, hf.layout, hf.cache, hf.resize]
    exacts [hj.begun, hj.layout, hj.version, hj.state, hj.old, hj.rangeEnd, hj.reported, hj.done]

/-- A cursor moves past an empty bucket. -/
theorem AtWork.advance (h : AtWork H N n srv σ) (hdone : (σ.servers srv).cache.rangeDone = false)
    (hempty : ∀ s, σ.cell (⟨σ.resize.oldBlOffset, (σ.servers srv).cache.localCursor⟩, s) = none) :
    AtWork H N n srv (σ.setCache srv { (σ.servers srv).cache with
      localCursor := (σ.servers srv).cache.localCursor + 1 }) := by
  have hj := h.joined
  have hjoined : Joined n (σ.setCache srv { (σ.servers srv).cache with
      localCursor := (σ.servers srv).cache.localCursor + 1 }) srv N := by
    refine ⟨?_, ?_, ?_, ?_, ?_, ?_, ?_, ?_⟩ <;>
      simp only [State.setCache, servers_setServer, resize_setServer]
    exacts [hj.begun, hj.layout, hj.version, hj.state, hj.old, hj.rangeEnd, hj.reported,
      fun hd => absurd (hdone.symm.trans hd) Bool.noConfusion]
  refine ⟨h.inv.progress (d := σ.resize.ctrl.doneCount) h.migrating rfl rfl rfl rfl
    (fun i hi => servers_setServer_of_ne hi) hjoined ?_ ?_, h.migrating, hjoined⟩
  · rw [(h.inv.migrating h.migrating).doneCount]
    congr 1
    refine Finset.filter_congr fun i _ => ?_
    by_cases hi : i = srv
    · subst hi
      simp [State.isDone, State.setCache]
    · simp only [State.isDone, State.setCache, servers_setServer_of_ne hi]
      rfl
  · rintro a ⟨-, hbase, i, hi, hv, hlo, hhi⟩
    by_cases hne : i = srv
    · subst hne
      simp only [State.setCache, servers_setServer] at hhi
      by_cases hlast : a.idx = (σ.servers i).cache.localCursor
      · obtain ⟨base, idx⟩ := a
        cases hbase
        cases hlast
        exact .inr hempty
      · exact .inl ⟨h.migrating, hbase, i, hi, hj.version, hlo, by omega⟩
    · rw [State.setCache, servers_setServer_of_ne hne] at hv hhi
      exact .inl ⟨h.migrating, hbase, i, hi, hv, hlo, hhi⟩

theorem SameContents.setCache (σ : State L) (srv : Nat) (c : Cache) :
    SameContents σ (σ.setCache srv c) := by
  refine ⟨fun _ hc => hc, fun i => ?_⟩
  by_cases hi : i = srv
  · simp [State.size, State.setCache, hi]
  · simp only [State.size, State.setCache, servers_setServer_of_ne hi]

/-- The entries of a bucket of the old level are moved as far as there is room, and the bucket is
written back. -/
theorem ends_migrateLocked {p : (Slot → Nat) → M L Unit}
    (hH : H.Homes l Home) (ha : a.base ≠ l.tlOffset ∧ a.base ≠ l.blOffset) (h : Good Home ∅ σ)
    (hl : (σ.servers srv).layout = l)
    (hQ : ∀ left σ', Good Home ∅ σ' → Frame srv σ σ' → SameContents σ σ' →
      (∀ s, left s = 0 → σ'.cell (a, s) = none) → Ends (exec E srv) (p left) σ' Q) :
    Ends (exec E srv)
      (do
        let left ← migrateSlots H fuel a (σ.bucket a).header slots (σ.bucket a).header.fp
        perform (.writeHeader a ((σ.bucket a).header.unlocked left))
        p left) (σ.lock a) Q := by
  have hsing : insert a (∅ : Set Addr) = {a} := insert_empty_eq a
  have hgood : Good Home {a} (σ.lock a) := hsing ▸ h.lock
  refine (ends_migrateSlots hH ha slots _ _ (nodup_finRange 8) hgood hl
    (lockedAs_lock σ a)).bind ?_
  rintro left σ1 ⟨moved, hnd, hmem, rfl, hgood1, hframe, hsize, hbucket, hholds⟩
  have hlock := (lockedAs_lock σ a).of_bucket hbucket
  have hcell : ∀ x, _ = if x ∈ moved.map (Prod.mk a) then none else σ1.cell x := fun x =>
    cell_unlock_moved hlock
  have hframe2 := ((Frame.setBucket srv σ a _).trans hframe).trans (Frame.setBucket srv σ1 a
    ⟨(σ.bucket a).header.unlocked fun s => if s ∈ moved then 0 else (σ.bucket a).header.fp s,
      (σ1.bucket a).lines⟩)
  refine Ends.step rfl (hQ _ _ ?_ hframe2 ⟨fun c hc => ?_, fun i => ?_⟩ fun s hs => ?_)
  · refine Good.unlock (hsing ▸ hgood1) (Set.notMem_empty a) fun s e he => hgood1.home a s e ?_
    rw [hcell] at he
    split at he
    · cases he
    · exact he
  · refine Holds.clearAll
      (e := fun x : Addr × Slot => entryAt (σ.lock a) a (σ.bucket a).header x.2) ?_ ?_ ?_
      (fun x hx => (hcell x).trans (if_pos hx)) fun x hx => (hcell x).trans (if_neg hx)
    · exact hnd.map fun _ _ he => (Prod.ext_iff.mp he).2
    · rw [List.map_map]
      exact hholds c (cell_lock σ a ▸ hc)
    · intro x hx
      obtain ⟨s, hs, rfl⟩ := List.mem_map.mp hx
      rw [cell_of_lockedAs hlock (hmem s hs).2, entryAt, hbucket]
      rfl
  · by_cases hi : i = srv
    · rw [hi]
      exact hsize
    · exact hframe2.others i hi
  · have hfp : ((σ1.unlock a (σ.bucket a).header
        (fun s => if s ∈ moved then 0 else (σ.bucket a).header.fp s)
        (σ1.bucket a).lines).bucket a).header.fp s = 0 := by
      simpa [State.unlock, Header.unlocked] using hs
    exact if_pos hfp

/-- **A bucket of the old level** is moved, as far as there is room. -/
theorem ends_migrateBucket (h : AtWork H N n srv σ)
    (hdone : (σ.servers srv).cache.rangeDone = false) : Ends (exec E srv)
      (migrateBucket H fuel ⟨(σ.servers srv).cache.oldBlOffset, (σ.servers srv).cache.localCursor⟩
        (σ.servers srv).cache.localCursor) σ
      fun _ σ' => AtWork H N n srv σ' ∧ SameContents σ σ' := by
  have hmig := h.inv.migrating h.migrating
  have hlay := layout_migrating hmig h.migrating
  rw [h.joined.old]
  refine .seq (ends_readHeader ?_)
  rw [if_neg fun hd => Set.notMem_empty _ ((h.inv.good.locked _).mp hd)]
  split
  · rename_i hall
    refine (ends_perform rfl).mpr ?_
    rw [if_pos rfl]
    refine ⟨h.advance hdone fun s => ?_, SameContents.setCache σ srv _⟩
    have hs := of_decide_eq_true (List.all_eq_true.mp hall s (mem_finRange s))
    exact if_pos hs
  · refine .seq (ends_lockBucket ?_)
    rw [if_pos rfl]
    have hbase : σ.resize.oldBlOffset ≠ (σ.resize.layout n).tlOffset ∧
        σ.resize.oldBlOffset ≠ (σ.resize.layout n).blOffset := by
      rw [hlay]
      exact ⟨hmig.oldTl, hmig.oldBl⟩
    refine ends_migrateLocked h.inv.homes hbase h.inv.good h.joined.layout
      fun left σ' hgood hframe hsame hleft => ?_
    have hwork := h.frame hframe hgood
    split
    · rename_i hall
      refine (ends_perform rfl).mpr ?_
      have hcache := hframe.cache srv
      rw [if_pos (by rw [hcache]), ← hcache]
      refine ⟨hwork.advance (hcache ▸ hdone) fun s => ?_, hsame.trans (SameContents.setCache σ' srv _)⟩
      rw [hcache, hframe.resize]
      exact hleft s (of_decide_eq_true (List.all_eq_true.mp hall s (mem_finRange s)))
    · exact .pure ⟨hwork, hsame⟩

/-- The server reports that its range is done. -/
theorem AtWork.report (hN : N < 256) (hsrv : srv < N) (h : AtWork H N n srv σ)
    (hdone : (σ.servers srv).cache.rangeDone = false)
    (hend : (σ.servers srv).cache.rangeEnd ≤ (σ.servers srv).cache.localCursor) : AtWork H N n srv
      (({ σ with resize := { σ.resize with ctrl :=
          { σ.resize.ctrl with doneCount := (σ.resize.ctrl.doneCount + 1) % 256 } } } : State L).setCache
        srv { (σ.servers srv).cache with doneReported := true, rangeDone := true }) := by
  have hj := h.joined
  have hnot : srv ∉ (Finset.range N).filter fun i => σ.isDone i := by
    simp [State.isDone, hdone]
  have hcount := (h.inv.migrating h.migrating).doneCount
  -- the server itself is not counted yet, so the count stays in its eight bits
  have hlt : σ.resize.ctrl.doneCount < N := by
    have hsub : (Finset.range N).filter (fun i => σ.isDone i) ⊂ Finset.range N :=
      ⟨Finset.filter_subset _ _, fun he => hnot (he (Finset.mem_range.mpr hsrv))⟩
    have hcard := Finset.card_lt_card hsub
    rwa [Finset.card_range, ← hcount] at hcard
  rw [Nat.mod_eq_of_lt (show σ.resize.ctrl.doneCount + 1 < 256 by omega)]
  have hjoined : Joined n (({ σ with resize := { σ.resize with ctrl :=
      { σ.resize.ctrl with doneCount := σ.resize.ctrl.doneCount + 1 } } } : State L).setCache srv
      { (σ.servers srv).cache with doneReported := true, rangeDone := true }) srv N := by
    refine ⟨?_, ?_, ?_, ?_, ?_, ?_, ?_, ?_⟩ <;>
      simp only [State.setCache, servers_setServer, resize_setServer]
    exacts [hj.begun, hj.layout, hj.version, hj.state, hj.old, hj.rangeEnd, fun _ => hend]
  refine ⟨h.inv.progress h.migrating rfl rfl rfl rfl
    (fun i hi => servers_setServer_of_ne hi) hjoined ?_ ?_, h.migrating, hjoined⟩
  · rw [hcount, ← Finset.card_insert_of_notMem hnot]
    congr 1
    ext i
    by_cases hi : i = srv
    · subst hi
      simp [State.isDone, State.setCache, hj.version, hsrv]
    · simp [State.isDone, State.setCache, servers_setServer_of_ne hi, hi]
  · rintro a ⟨-, hbase, i, hi, hv, hlo, hhi⟩
    refine .inl ⟨h.migrating, hbase, i, hi, ?_⟩
    by_cases hne : i = srv
    · subst hne
      simp only [State.setCache, servers_setServer] at hhi
      exact ⟨hj.version, hlo, hhi⟩
    · rw [State.setCache, servers_setServer_of_ne hne] at hv hhi
      exact ⟨hv, hlo, hhi⟩

/-- **A step of the migration** keeps every entry and every counter. -/
theorem ends_migrateStep (hN : N < 256) (hsrv : srv < N) (h : AtWork H N n srv σ) :
    Ends (exec E srv) (migrateStep H (fuel + 1)) σ fun _ σ' =>
      AtWork H N n srv σ' ∧ SameContents σ σ' := by
  refine Ends.step rfl ?_
  split
  · exact .pure ⟨h, SameContents.refl σ⟩
  · rename_i hcond
    have hdone : (σ.servers srv).cache.rangeDone = false := by
      cases hd : (σ.servers srv).cache.rangeDone with
      | false => rfl
      | true => exact absurd (.inr hd) hcond
    split
    · rename_i hend
      refine Ends.step rfl ?_
      rw [h.joined.reported, hdone]
      refine .seq (Ends.step rfl (Ends.step (if_pos rfl) (ends_pure.mpr
        ((ends_perform rfl).mpr ?_))))
      have hwork := h.report hN hsrv hdone hend
      simp only [State.setCache, State.setServer, Function.update_self, Function.update_idem] at hwork ⊢
      refine ⟨hwork, fun c hc => hc, fun i => ?_⟩
      by_cases hi : i = srv <;> simp [State.size, hi]
    · exact ends_migrateBucket h hdone

end Migrate

/-! ### The end of a migration -/

section Finalize

variable {E : Env} {H : Hashing K L} {N n : Nat} {σ : State L} {srv fuel : Nat}

omit [Inhabited L] in
/-- When the count of the control word is full, every server has done its range. -/
theorem MigrationOk.all_done (h : MigrationOk N n σ) (hcount : N ≤ σ.resize.ctrl.doneCount) :
    ∀ i < N, Joined n σ i N ∧ (σ.servers i).cache.rangeDone = true := by
  rw [h.doneCount] at hcount
  have hall : (Finset.range N).filter (fun i => σ.isDone i) = Finset.range N := by
    refine Finset.eq_of_subset_of_card_le (Finset.filter_subset _ _) ?_
    rwa [Finset.card_range]
  intro i hi
  have hdone : σ.isDone i = true := (Finset.filter_eq_self.mp hall) i (Finset.mem_range.mpr hi)
  simp only [State.isDone, Bool.and_eq_true, beq_iff_eq] at hdone
  exact ⟨(h.servers i hi).resolve_right fun hb => hb.version hdone.1, hdone.2⟩

/-- Then the old bottom level is empty. -/
theorem TableInv.old_empty (h : TableInv H N n σ) (hm : σ.resize.ctrl.state = .migrating) (hN : 0 < N)
    (hcount : N ≤ σ.resize.ctrl.doneCount) (ha : a.base = σ.resize.oldBlOffset) (s : Slot) :
    σ.cell (a, s) = none := by
  have hmig := h.migrating hm
  cases hcell : σ.cell (a, s) with
  | none => rfl
  | some e =>
    obtain ⟨⟨-, c, hc, rfl⟩, hnot⟩ := h.good.home a s e hcell
    obtain ⟨-, hbase, hidx⟩ := H.mem_candidates.mp hc
    rw [layout_migrating hmig hm] at hbase hidx
    have hlt : c.addr.idx < σ.resize.oldBlSize := by
      cases hlevel : c.level with
      | top => exact absurd (ha.symm.trans (by rw [hbase, hlevel]; rfl)) hmig.oldTl
      | bottom => exact absurd (ha.symm.trans (by rw [hbase, hlevel]; rfl)) hmig.oldBl
      | oldBottom =>
        rw [hlevel] at hidx
        exact hidx.elim (fun hi => hi ▸ H.first_lt _ hmig.oldSize)
          fun hi => hi ▸ H.second_lt _ hmig.oldSize
    obtain ⟨i, hi, hlo, hhi⟩ := exists_range hN hlt
    obtain ⟨hj, hd⟩ := hmig.all_done hcount i hi
    have hcur := hj.done hd
    rw [hj.rangeEnd] at hcur
    exact absurd ⟨hm, ha, i, hi, hj.version, hlo, by omega⟩ hnot

omit [Inhabited L] in
/-- A home that is not in the old bottom level stays one when the migration ends. -/
theorem Hashing.Home.settle (h : H.Home l a e)
    (ha : a.base ≠ l.oldBlOffset) : H.Home { l with active := false } a e := by
  obtain ⟨hfp, c, hc, rfl⟩ := h
  obtain ⟨-, hbase, hidx⟩ := H.mem_candidates.mp hc
  refine ⟨hfp, c, H.mem_candidates.mpr ⟨fun hl => ?_, ?_, ?_⟩, rfl⟩
  · rw [hl] at hbase
    exact absurd hbase ha
  · rw [hbase]
    cases c.level <;> rfl
  · refine hidx.imp (fun hi => ?_) fun hi => ?_ <;>
      · rw [hi]
        cases c.level <;> rfl

/-- The shared line after the migration. -/
def ResizeMeta.finalized (m : ResizeMeta) : ResizeMeta :=
  { m with ctrl := { m.ctrl with state := .normal }, version := m.version + 1 }

/-- The state after the migration was ended by `srv`. -/
theorem TableInv.finalized (hN : 0 < N) (hsrv : srv < N)
    (h : TableInv H N n σ) (hm : σ.resize.ctrl.state = .migrating)
    (hcount : N ≤ σ.resize.ctrl.doneCount) (hf : ∀ i < N, f i = σ.resize.version + 1)
    (hbegun : s.migrationBegun = false)
    (hlayout : s.layout = { σ.resize.layout n with active := false })
    (hversion : s.cache.version = σ.resize.version + 1) :
    let σ' := ({ σ with resize := σ.resize.finalized, notified := f } : State L).setServer srv s
    TableInv H N n σ' ∧ CaughtUp n σ' srv := by
  intro σ'
  have hmig := h.migrating hm
  have hlay := layout_migrating hmig hm
  have hmeta : σ'.resize.layout n = { σ.resize.layout n with active := false } := by
    rw [hlay]
    show σ.resize.finalized.layout n = _
    simp [ResizeMeta.layout, ResizeMeta.finalized, Nat.pos_iff_ne_zero.mp hmig.ready]
  have hself : σ'.servers srv = s := servers_setServer _ _ _
  have hcaught : CaughtUp n σ' srv :=
    ⟨by rw [hself]; exact hbegun, by rw [hself, hmeta]; exact hlayout, by rw [hself]; exact hversion⟩
  refine ⟨⟨?_, ?_, ?_, ?_, ?_, hf, ⟨h.good.locked, fun a s e he => ?_⟩, fun _ i hi => ?_,
    fun hm' => ?_⟩, hcaught⟩
  · rw [hmeta]
    exact h.top
  · rw [hmeta]
    exact h.bottom
  · rw [hmeta]
    exact h.distinct
  · rw [hmeta]
    exact h.topNext
  · rw [hmeta]
    exact h.bottomNext
  · refine ⟨?_, fun hmem => ResizeState.noConfusion hmem.1⟩
    rw [hmeta]
    refine (h.good.home a s e he).1.settle fun hbase => ?_
    rw [hlay] at hbase
    have hnone := h.old_empty hm hN hcount hbase s
    exact nomatch hnone.symm.trans he
  · by_cases hne : i = srv
    · subst hne
      exact .inl hcaught
    · have hsame : σ'.servers i = σ.servers i := servers_setServer_of_ne hne
      obtain ⟨hj, -⟩ := hmig.all_done hcount i hi
      refine .inr ⟨hsame ▸ hj.begun, ?_, ?_⟩
      · rw [hsame, hmeta, hj.layout, hlay]
      · rw [hsame, hj.version]
        exact (Nat.lt_succ_self _).ne
  · cases hm'

/-- **The end of a migration**: nothing happens, or all servers are done, the old bottom level is
empty and the server is caught up with the new layout. -/
theorem ends_checkFinalize (hN : 0 < N) (hsrv : srv < N) (h : AtWork H N n srv σ) :
    Ends (exec E srv) (checkFinalize N srv) σ fun _ σ' =>
      TableInv H N n σ' ∧ Ready N n σ' srv ∧ SameContents σ σ' := by
  have hmig := h.inv.migrating h.migrating
  have hstay : TableInv H N n σ ∧ Ready N n σ srv ∧ SameContents σ σ :=
    ⟨h.inv, .inr ⟨h.migrating, h.joined⟩, SameContents.refl σ⟩
  refine Ends.step rfl ?_
  rw [if_neg (by rw [h.joined.begun]; exact Bool.noConfusion)]
  refine Ends.step rfl ?_
  split
  · exact .pure hstay
  refine Ends.step rfl ?_
  dsimp only
  split
  · exact .pure hstay
  split
  · exact .pure hstay
  rename_i hcount
  rw [hmig.nMds, not_lt] at hcount
  refine Ends.step (if_pos rfl) ?_
  rw [if_pos rfl]
  refine Ends.step rfl (Ends.step rfl (.seq (ends_notifyAllMds fun f hf => ?_)))
  refine .seq (ends_refreshCache (Ends.step rfl ((ends_perform rfl).mpr ?_)))
  simp only [State.setBegun, State.setCache, State.setLayout, servers_setServer, setServer_setServer]
  obtain ⟨hinv, hcaught⟩ := h.inv.finalized hN hsrv h.migrating hcount hf (s :=
    { σ.servers srv with
      layout := { (σ.servers srv).layout with active := false }, migrationBegun := false
      cache := (σ.servers srv).cache.refresh srv σ.resize.finalized }) rfl (by rw [h.joined.layout])
    (version_refresh _ _ _)
  refine ⟨hinv, .inl ⟨rfl, hcaught⟩, fun c hc => hc, fun i => ?_⟩
  by_cases hi : i = srv
  · subst hi
    simp [State.size, State.setServer]
  · simp [State.size, State.setServer, hi]

end Finalize

end StaxFS.Table
