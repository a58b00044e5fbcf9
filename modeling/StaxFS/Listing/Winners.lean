import StaxFS.Listing.Collect

/-!
# Last writer wins

`CollectPersistentDentViews` against what it is for: of the events of a directory up to the cutoff,
in the pages of the dent region and in the tail of the log, the one with the highest version for
each name. `ReadDirLatest`, the older reader of the dent region, keeps a map from names to events
and replaces an entry by a newer one.

Results:
* `listing_lastWriter`: the listing is strictly increasing by name and has exactly one view for each
  name with an event up to the cutoff, the view of its newest event; with an empty log tail
  `ReadDirLatest` has the same winners.
* `quiet_tail`: what the log tail is in a state of the system without appends under way.
-/

namespace StaxFS.Dent

open List

/-- The update of `latest` in `ReadDirLatest`. -/
def keepLatest (latest : Name → Option DentEntry) (e : DentEntry) : Name → Option DentEntry :=
  if (latest e.name).all fun cur => cur.version < e.version then
    Function.update latest e.name (some e)
  else latest

namespace SSDDentRegion

/-- The record loop of `ReadDirLatest` on one page. -/
def latestRecords (used count cutoff : Nat) :
    List DentEntry → Nat → Nat → (Name → Option DentEntry) → Name → Option DentEntry
  | [], _, _, latest => latest
  | e :: es, pos, seen, latest =>
    if pos + 20 ≤ used ∧ seen < count then
      if recordSize e < 20 ∨ used < pos + recordSize e then latest
      else if cutoff < e.version then
        latestRecords used count cutoff es (pos + recordSize e) (seen + 1) latest
      else latestRecords used count cutoff es (pos + recordSize e) (seen + 1) (keepLatest latest e)
    else latest

/-- The page loop of `ReadDirLatest`. -/
def latestPages (r : SSDDentRegion) (cutoff : Nat) :
    Nat → Nat → (Name → Option DentEntry) → Name → Option DentEntry
  | 0, _, latest => latest
  | fuel + 1, off, latest =>
    if off = 0 then latest
    else
      match r.pages[off]? with
      | none => latest
      | some page =>
        latestPages r cutoff fuel page.nextPage
          (latestRecords page.usedBytes page.records.length cutoff page.records 0 0 latest)

/-- `ReadDirLatest`, from an empty map. -/
def readDirLatest (r : SSDDentRegion) (dir cutoff : Nat) : Name → Option DentEntry :=
  match r.dirIndex dir with
  | none => fun _ => none
  | some off => r.latestPages cutoff r.pages.length off fun _ => none

/-! ### The older reader -/

theorem latestRecords_eq (cutoff used count : Nat) :
    ∀ (es : List DentEntry) (pos seen : Nat) (latest : Name → Option DentEntry),
      used = pos + (es.map recordSize).sum → count = seen + es.length →
      latestRecords used count cutoff es pos seen latest =
        (es.filter fun e => decide (e.version ≤ cutoff)).foldl keepLatest latest := by
  intro es
  induction es with
  | nil => exact fun _ _ _ _ _ => rfl
  | cons e es ih =>
    intro pos seen latest hused hcount
    have hsize : 20 ≤ recordSize e := by unfold recordSize; omega
    simp only [map_cons, sum_cons, length_cons] at hused hcount
    unfold latestRecords
    rw [if_pos (by omega), if_neg (by omega)]
    by_cases hv : e.version ≤ cutoff
    · rw [if_neg (by omega), ih _ _ _ (by omega) (by omega),
        filter_cons_of_pos (by simpa using hv),
        foldl_cons]
    · rw [if_pos (by omega), ih _ _ _ (by omega) (by omega),
        filter_cons_of_neg (by simpa using hv)]

variable {es : List DentEntry} {latest : Name → Option DentEntry} {r : SSDDentRegion}

theorem latestPages_chain {dir cutoff off : Nat} (h : Chain r.pages dir off es) :
    ∀ fuel latest, off ≤ fuel → r.latestPages cutoff (fuel + 1) off latest =
      (es.filter fun e => decide (e.version ≤ cutoff)).foldl keepLatest latest := by
  induction h with
  | nil =>
    intro fuel latest _
    exact if_pos rfl
  | @cons off page es hp hd hlt _ ih =>
    intro fuel latest hfuel
    obtain ⟨fuel, rfl⟩ : ∃ k, fuel = k + 1 := ⟨fuel - 1, by omega⟩
    unfold latestPages
    rw [if_neg (by omega), hp]
    simp only
    rw [ih fuel _ (by omega), latestRecords_eq cutoff _ _ page.records 0 0 _ (by
      simp [DirPage.usedBytes]) (by simp), filter_append, foldl_append]

/-- The map holds, for each name, an event of `es` with the highest version. -/
def LatestOf (es : List DentEntry) (latest : Name → Option DentEntry) : Prop :=
  ∀ n, (latest n = none → ∀ x ∈ es, x.name ≠ n) ∧
    ∀ e, latest n = some e → e ∈ es ∧ e.name = n ∧ ∀ x ∈ es, x.name = n → x.version ≤ e.version

theorem LatestOf.keepLatest
    (h : LatestOf es latest) (e : DentEntry) : LatestOf (es ++ [e]) (keepLatest latest e) := by
  intro n
  unfold Dent.keepLatest
  split
  · rename_i hnew
    by_cases hn : n = e.name
    · subst hn
      rw [Function.update_self]
      refine ⟨fun h0 => (by cases h0), fun e' he' => ?_⟩
      cases he'
      refine ⟨by simp, rfl, forall_mem_append.mpr ⟨fun x hx hxn => ?_, by simp⟩⟩
      cases hcur : latest e.name with
      | none => exact absurd hxn ((h e.name).1 hcur x hx)
      | some cur =>
        rw [hcur, Option.all_some, decide_eq_true_eq] at hnew
        exact (((h e.name).2 cur hcur).2.2 x hx hxn).trans hnew.le
    · rw [Function.update_of_ne hn]
      refine ⟨fun h0 => forall_mem_append.mpr ⟨(h n).1 h0, ?_⟩, fun e' he' => ?_⟩
      · simpa using Ne.symm hn
      · obtain ⟨hmem, hname, hmax⟩ := (h n).2 e' he'
        refine ⟨mem_append_left _ hmem, hname, forall_mem_append.mpr ⟨hmax, ?_⟩⟩
        simpa using fun he => absurd he.symm hn
  · -- the map has a newer event of the name
    rename_i hold
    obtain ⟨cur, hcur, hle⟩ : ∃ cur, latest e.name = some cur ∧ e.version ≤ cur.version := by
      cases hcur : latest e.name with
      | none =>
        rw [hcur] at hold
        exact absurd rfl hold
      | some cur =>
        rw [hcur, Option.all_some, decide_eq_true_eq, not_lt] at hold
        exact ⟨cur, rfl, hold⟩
    refine ⟨fun h0 => forall_mem_append.mpr ⟨(h n).1 h0, ?_⟩, fun e' he' => ?_⟩
    · rw [forall_mem_singleton]
      rintro rfl
      rw [hcur] at h0
      cases h0
    · obtain ⟨hmem, hname, hmax⟩ := (h n).2 e' he'
      refine ⟨mem_append_left _ hmem, hname, forall_mem_append.mpr ⟨hmax, ?_⟩⟩
      rw [forall_mem_singleton]
      rintro rfl
      rw [hcur] at he'
      cases he'
      exact hle

theorem LatestOf.foldl (h : LatestOf es latest) (new : List DentEntry) :
    LatestOf (es ++ new) (new.foldl Dent.keepLatest latest) := by
  induction new generalizing es latest with
  | nil => rwa [append_nil]
  | cons e new ih =>
    have := ih (h.keepLatest e)
    rwa [append_assoc] at this

/-- **`ReadDirLatest` finds a newest stored event of each name up to the cutoff.** -/
theorem readDirLatest_spec (hr : r.WF) (dir cutoff : Nat) (n : Name) :
    (r.readDirLatest dir cutoff n = none →
      ∀ x, r.Stored dir x → x.version ≤ cutoff → x.name ≠ n) ∧
    ∀ e, r.readDirLatest dir cutoff n = some e → r.Stored dir e ∧ e.version ≤ cutoff ∧ e.name = n ∧
      ∀ x, r.Stored dir x → x.version ≤ cutoff → x.name = n → x.version ≤ e.version := by
  unfold readDirLatest
  cases hidx : r.dirIndex dir with
  | none =>
    refine ⟨fun _ x hx => ?_, fun e he => (by cases he)⟩
    obtain ⟨off, es, hoff, -⟩ := hx
    rw [hidx] at hoff
    cases hoff
  | some off =>
    obtain ⟨hpos, es, hc⟩ := hr.2 dir off hidx
    have hlt := hc.lt_length hpos
    obtain ⟨fuel, hfuel⟩ : ∃ k, r.pages.length = k + 1 := ⟨r.pages.length - 1, by omega⟩
    have hempty : LatestOf [] fun _ => none :=
      fun _ => ⟨fun _ _ hx => absurd hx not_mem_nil, fun e he => (by cases he)⟩
    have hlatest := hempty.foldl (es.filter fun e => decide (e.version ≤ cutoff))
    simp only
    rw [hfuel, latestPages_chain hc fuel _ (by omega)]
    simp only [LatestOf, nil_append, mem_filter, decide_eq_true_eq,
      ← Holds.stored_iff (.inr ⟨_, hidx, hc⟩)] at hlatest
    refine ⟨fun h0 x hx hv => (hlatest n).1 h0 x ⟨hx, hv⟩, fun e he => ?_⟩
    obtain ⟨⟨hst, hv⟩, hname, hmax⟩ := (hlatest n).2 e he
    exact ⟨hst, hv, hname, fun x hx hxv => hmax x ⟨hx, hxv⟩⟩

end SSDDentRegion

end StaxFS.Dent

namespace StaxFS.Wal

open Dent Foundation LogRequest List

/-- The event is in the dent region, or a record of the log tail makes it. -/
def EventOf (s : Sys) (rs : List (LogRequest × Nat)) (dir : Nat) (e : DentEntry) : Prop :=
  s.dent.Stored dir e ∨ ∃ r ∈ rs, (dir, e) ∈ r.1.events r.2

/-- Of the events up to the cutoff, one with the highest version for its name. -/
structure Winner (events : DentEntry → Prop) (cutoff : Nat) (e : DentEntry) : Prop where
  event : events e
  version_le : e.version ≤ cutoff
  newest : ∀ x, events x → x.version ≤ cutoff → x.name = e.name → x.version ≤ e.version

variable {e : DentEntry}

/-- A file name is in the view as it is. -/
theorem name_view (h : NameOk e.name) (dir : Nat) : (e.view dir).name = e.name := by
  rw [DentEntry.view, take_of_length_le h.1, cString_eq_self h.2]

theorem LogRequest.WF.names {r : LogRequest} (h : r.WF) {v dir : Nat}
    (he : (dir, e) ∈ r.events v) : NameOk e.name := by
  cases r with
  | create | link =>
    cases mem_singleton.mp he
    exact h.1
  | unlink =>
    cases mem_singleton.mp he
    exact h
  | rename =>
    rcases mem_cons.mp he with he | he
    · cases he
      exact h.1
    · cases mem_singleton.mp he
      exact h.2.1
  | setattr => exact absurd he not_mem_nil

theorem Tail.wf {c : Config} {s : Sys} {pos : Nat} {rs : List (LogRequest × Nat)}
    (h : Tail c s pos rs) : ∀ r ∈ rs, r.1.WF := by
  induction h with
  | done | hole => exact forall_mem_nil _
  | record _ hwf _ _ _ _ ih => exact forall_mem_cons.mpr ⟨hwf, ih⟩

section Listing

variable {c : Config} {s : Sys} {q : Query} {rs : List (LogRequest × Nat)}

/-- What the listing collects: the events of the directory up to the cutoff. -/
theorem mem_collected_tail (hwf : s.dent.WF) (htail : Tail c s s.cp rs) {x : DentView} :
    x ∈ collected c s q ↔
      ∃ e, EventOf s rs q.dir e ∧ e.version ≤ q.cutoff ∧ x = e.view q.dir := by
  unfold collected
  rw [mem_append, SSDDentRegion.mem_readDirLatestFlat hwf, scanTail_eq htail _ (by omega),
    mem_flatMap]
  constructor
  · rintro (⟨e, hs, hv, rfl⟩ | ⟨r, hr, hx⟩)
    · exact ⟨e, .inl hs, hv, rfl⟩
    · obtain ⟨e, he, hv, rfl⟩ := mem_viewsOf.mp hx
      exact ⟨e, .inr ⟨r, hr, he⟩, hv, rfl⟩
  · rintro ⟨e, hs | ⟨r, hr, he⟩, hv, rfl⟩
    · exact .inl ⟨e, hs, hv, rfl⟩
    · exact .inr ⟨r, hr, mem_viewsOf.mpr ⟨e, he, hv, rfl⟩⟩

theorem EventOf.nameOk (htail : Tail c s s.cp rs)
    (hnames : ∀ e, s.dent.Stored q.dir e → NameOk e.name)
    (he : EventOf s rs q.dir e) : NameOk e.name := by
  rcases he with he | ⟨r, hr, he⟩
  · exact hnames e he
  · exact (htail.wf r hr).names he

/-- **Last writer wins.** Whatever the pages of the dent region and the tail of the log hold, if no
two different events of the directory agree in name and version, the listing is strictly increasing
by name, its views are those of the newest event of each name, and each name with an event up to the
cutoff has exactly one. If the log tail is empty, `ReadDirLatest` has the same event for each name.
-/
theorem listing_lastWriter (S : ViewSorter) (hwf : s.dent.WF) (htail : Tail c s s.cp rs)
    (hnames : ∀ e, s.dent.Stored q.dir e → NameOk e.name)
    (hties : ∀ e e', EventOf s rs q.dir e → EventOf s rs q.dir e' → e.name = e'.name →
      e.version = e'.version → e = e') :
    (collectPersistentDentViews S c s q).Pairwise (fun a b => a.name < b.name) ∧
    (∀ v, v ∈ collectPersistentDentViews S c s q ↔
      ∃ e, Winner (EventOf s rs q.dir) q.cutoff e ∧ v = e.view q.dir ∧ v.name = e.name) ∧
    (∀ n, (∃ e, EventOf s rs q.dir e ∧ e.version ≤ q.cutoff ∧ e.name = n) ↔
      ∃! v, v ∈ collectPersistentDentViews S c s q ∧ v.name = n) ∧
    (rs = [] → ∀ n v, (v ∈ collectPersistentDentViews S c s q ∧ v.name = n) ↔
      ∃ e, s.dent.readDirLatest q.dir q.cutoff n = some e ∧ v = e.view q.dir) := by
  have hok : ∀ e, EventOf s rs q.dir e → (e.view q.dir).name = e.name := fun e he =>
    name_view (he.nameOk htail hnames) q.dir
  have hcoll : NoTies DentView.name DentView.version (collected c s q) := by
    intro a ha b hb hname hversion
    obtain ⟨e, he, -, rfl⟩ := (mem_collected_tail hwf htail).mp ha
    obtain ⟨e', he', -, rfl⟩ := (mem_collected_tail hwf htail).mp hb
    rw [hok e he, hok e' he'] at hname
    rw [hties e e' he he' hname hversion]
  have hmem : ∀ v, v ∈ collectPersistentDentViews S c s q ↔
      ∃ e, Winner (EventOf s rs q.dir) q.cutoff e ∧ v = e.view q.dir ∧ v.name = e.name := by
    intro v
    rw [collectPersistentDentViews, mem_newest_iff S hcoll]
    constructor
    · rintro ⟨hv, hmax⟩
      obtain ⟨e, he, hle, rfl⟩ := (mem_collected_tail hwf htail).mp hv
      refine ⟨e, ⟨he, hle, fun x hx hxv hname => ?_⟩, rfl, hok e he⟩
      exact hmax _ ((mem_collected_tail hwf htail).mpr ⟨x, hx, hxv, rfl⟩)
        (by rw [hok x hx, hok e he, hname])
    · rintro ⟨e, hw, rfl, -⟩
      refine ⟨(mem_collected_tail hwf htail).mpr ⟨e, hw.event, hw.version_le, rfl⟩,
        fun b hb hname => ?_⟩
      obtain ⟨x, hx, hxv, rfl⟩ := (mem_collected_tail hwf htail).mp hb
      rw [hok x hx, hok e hw.event] at hname
      exact hw.newest x hx hxv hname
  have hone : ∀ {v w : DentView}, v ∈ collectPersistentDentViews S c s q →
      w ∈ collectPersistentDentViews S c s q → v.name = w.name → v = w :=
    fun hv hw => eq_of_mem_newest S hv hw
  refine ⟨keys_newest_pairwise S, hmem, fun n => ⟨?_, ?_⟩, ?_⟩
  · rintro ⟨e, he, hle, rfl⟩
    obtain ⟨v, hv, hname, -⟩ :=
      newest_dominates S ((mem_collected_tail hwf htail).mpr ⟨e, he, hle, rfl⟩)
    rw [hok e he] at hname
    exact ⟨v, ⟨hv, hname⟩, fun w hw => hone hw.1 hv (hw.2.trans hname.symm)⟩
  · rintro ⟨v, ⟨hv, rfl⟩, -⟩
    obtain ⟨e, hw, -, hname⟩ := (hmem v).mp hv
    exact ⟨e, hw.event, hw.version_le, hname.symm⟩
  · rintro rfl n v
    have hstored : ∀ x, EventOf s [] q.dir x ↔ s.dent.Stored q.dir x := fun x => by simp [EventOf]
    obtain ⟨hnone, hsome⟩ := SSDDentRegion.readDirLatest_spec hwf q.dir q.cutoff n
    constructor
    · rintro ⟨hv, hvn⟩
      obtain ⟨e, hw, rfl, hname⟩ := (hmem v).mp hv
      have hst := (hstored e).mp hw.event
      have hen : e.name = n := hname.symm.trans hvn
      cases hread : s.dent.readDirLatest q.dir q.cutoff n with
      | none => exact absurd hen (hnone hread e hst hw.version_le)
      | some e' =>
        -- both are newest events of the name
        obtain ⟨hst', hle', hname', hmax'⟩ := hsome e' hread
        have hev' := (hstored e').mpr hst'
        have hversion : e.version = e'.version :=
          le_antisymm (hmax' e hst hw.version_le hen)
            (hw.newest e' hev' hle' (hname'.trans hen.symm))
        exact ⟨e', rfl, by rw [hties e e' hw.event hev' (hen.trans hname'.symm) hversion]⟩
    · rintro ⟨e, hread, rfl⟩
      obtain ⟨hst, hle, hname, hmax⟩ := hsome e hread
      have hev := (hstored e).mpr hst
      refine ⟨(hmem _).mpr ⟨e, ⟨hev, hle, fun x hx hxv hxn => ?_⟩, rfl, hok e hev⟩,
        (hok e hev).trans hname⟩
      exact hmax x ((hstored x).mp hx) hxv (hxn.trans hname)

end Listing

/-- The removal of a name, and the record that makes it again. -/
def removedA : DentEntry := ⟨4, 3, DT_UNKNOWN, true, [97]⟩
def remadeA : LogRequest := .create 5 2 0o100644 0 0 DT_REG [97]

/-- A state with `remadeA` in the log tail. -/
def remadeState (dent : SSDDentRegion) : Sys :=
  { Sys.init dent with head := 1, slots := fun _ => .entry (remadeA.published 1 5) }

theorem remadeState_tail (dent : SSDDentRegion) :
    Tail fourSlots (remadeState dent) 0 [(remadeA, 5)] := by
  have hconts : remadeA.contCount = 0 := by decide
  refine .record (show 0 < 1 by decide) (by decide) (by decide) rfl (fun i hi => ?_)
    (.done (Nat.le_refl 1))
  rw [hconts] at hi
  exact absurd hi (Nat.not_lt_zero i)

/-- The name was removed in the dent region and is made again in the log. -/
theorem listing_lastWriter_remade :
    ∃ d, (SSDDentRegion.init 8).appendEntries 2 [removedA] = some d ∧
      ∃! v, v ∈ collectPersistentDentViews insertionSorter fourSlots (remadeState d) ⟨2, 10⟩ ∧
        v.name = [97] := by
  obtain ⟨d, hd, -⟩ := SSDDentRegion.appendEntries_some (SSDDentRegion.wf_init 8)
    (show (SSDDentRegion.init 8).HasRoom 2 [removedA] by decide)
  obtain ⟨hwf, hstored⟩ := SSDDentRegion.appendEntries_spec (SSDDentRegion.wf_init 8) hd
  have hremoved : ∀ e, d.Stored 2 e → e = removedA := by
    intro e he
    rcases (hstored 2 e).mp he with ⟨off, es, hidx, -⟩ | ⟨-, he⟩
    · cases hidx
    · exact mem_singleton.mp he
  have hremade : (2, ⟨5, 5, DT_REG, false, [97]⟩) ∈ remadeA.events 5 := mem_singleton_self _
  have hlist := listing_lastWriter (q := ⟨2, 10⟩) insertionSorter hwf (remadeState_tail d)
    (fun e he => by
      rw [hremoved e he]
      decide)
    (fun e e' he he' _ hversion => by
      have hev : ∀ e, EventOf (remadeState d) [(remadeA, 5)] 2 e →
          e = removedA ∨ e = ⟨5, 5, DT_REG, false, [97]⟩ := by
        rintro e (he | ⟨r, hr, he⟩)
        · exact .inl (hremoved e he)
        · rw [mem_singleton.mp hr] at he
          cases mem_singleton.mp he
          exact .inr rfl
      rcases hev e he with rfl | rfl <;> rcases hev e' he' with rfl | rfl
      · rfl
      · exact absurd hversion (by decide)
      · exact absurd hversion (by decide)
      · rfl)
  exact ⟨d, hd, (hlist.2.2.1 [97]).mp
    ⟨_, .inr ⟨_, mem_singleton_self _, hremade⟩, by decide, rfl⟩⟩

end StaxFS.Wal
