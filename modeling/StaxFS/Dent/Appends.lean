import StaxFS.Dent.Cache
import StaxFS.Dent.Events
import StaxFS.Foundation.Runs

/-!
# What the dent region stores behind its cache

As long as its pages are within the capacity, every operation on the cached region is the operation
of `Dent/Region` on what it stores, whatever pages were evicted on the way; so the events of a
directory are those it was given. Behind the capacity nothing stops an append.

Results:
* `appendEntries_refines`, `flushDirty_same`, `readDirLatestFlat_stored`: the refinement.
* `dent_region_stores_events`: within the capacity, a listing returns every event of its directory
  as often as it was appended, and a batch leaves the pages that its events leave one by one.
* `pages_within_capacity`: in runs whose calls find the pages they need, no page behind the capacity
  is touched and the next call adds its events; every call that does not find them goes behind the
  capacity, as in `full_region_not_refused`.
-/

namespace StaxFS.Dent

open List SSDDentRegion

namespace CachedRegion

/-! ### Appends store what they store without a cache -/

section Refine

variable {k : Nat} {s : CachedRegion} {dir n i : Nat} {e : DentEntry}

theorem stored_length (s : CachedRegion) : s.stored.pages.length = s.allocPos := by
  simp [stored]

theorem stored_getElem (hpos : 0 < n) (hn : n < s.allocPos) :
    s.stored.pages[n]? = some (s.readPage n) := by
  simp [stored, hn, Nat.ne_of_gt hpos]

/-- Frame `i` holds page `n`, the head page of `dir`. -/
structure AtHead (s : CachedRegion) (dir n i : Nat) : Prop where
  index : s.dirIndex dir = some n
  used : i ∈ s.lru
  offset : (s.pool i).offset = n
  pos : 0 < n

/-- A record in a frame is a record at the end of the stored page. -/
theorem stored_writeRecord (h : Coherent k s) (hat : AtHead s dir n i) :
    (s.writeRecord i e).stored = s.stored.pushRecord n e := by
  have hpage : s.readPage n = (s.pool i).page := by
    rw [← hat.offset]
    exact readPage_of_frame h hat.used
  have hread : ∀ m, m < s.allocPos → (s.writeRecord i e).readPage m =
      if m = n then (s.readPage n).push e else s.readPage m := by
    intro m hm
    rw [hpage, ← hat.offset]
    exact readPage_setPage h hat.used true _ (lt_of_lt_of_le hm h.within)
  have hpages : (s.writeRecord i e).stored.pages = s.stored.pages.modify n (·.push e) := by
    apply ext_getElem
    · simp [stored, writeRecord, setPage]
    · intro m h1 h2
      rw [stored_length] at h1
      have hm : m < s.allocPos := h1
      have hpos := hat.pos
      rw [getElem_modify]
      simp only [stored, getElem_map, getElem_range, hread m hm]
      by_cases hmn : m = n
      · subst hmn
        rw [if_neg (by omega), if_pos rfl, if_pos rfl, if_neg (by omega)]
      · rw [if_neg hmn, if_neg (Ne.symm hmn)]
  exact congrArg (SSDDentRegion.mk s.numPageSlots · s.dirIndex) hpages

theorem AtHead.writeRecord (hat : AtHead s dir n i) : AtHead (s.writeRecord i e) dir n i := by
  refine ⟨hat.index, hat.used, ?_, hat.pos⟩
  rw [← hat.offset]
  simp [CachedRegion.writeRecord, setPage]

/-- The frame of a new page is its directory's head. -/
theorem atHead_place (s₁ : CachedRegion) (dir i : Nat) (hn : 0 < n) (page : DirPage) :
    AtHead ((s₁.place i n true page).setIndex dir n) dir n i :=
  ⟨by simp [CachedRegion.setIndex], mem_cons_self, by simp [CachedRegion.setIndex,
    CachedRegion.place], hn⟩

theorem takePoolSlot_allocPos (s : CachedRegion) : s.takePoolSlot.2.allocPos = s.allocPos := by
  unfold takePoolSlot
  cases s.free with
  | cons i rest => rfl
  | nil =>
    cases s.lru.getLast? with
    | none => rfl
    | some i =>
      dsimp only
      split <;> rfl

theorem loadWith_allocPos (fill : CachedRegion → Nat → DirPage) (s : CachedRegion) (n : Nat) :
    (s.loadWith fill n).2.allocPos = s.allocPos := by
  unfold loadWith
  cases s.pageSlots n with
  | some i => rfl
  | none => exact takePoolSlot_allocPos _

/-- A new head page takes one page. -/
theorem freshHead_allocPos (s : CachedRegion) (dir next : Nat) :
    (s.freshHead dir next).2.2.allocPos = s.allocPos + 1 :=
  loadWith_allocPos _ s.allocPage.2 s.allocPos

/-- The loop takes the pages that its records need. -/
theorem appendLoop_allocPos (dir : Nat) : ∀ (es : List DentEntry) (n i : Nat) (s : CachedRegion),
      (appendLoop dir es n i s).allocPos = s.allocPos + pagesTaken (s.pool i).page.usedBytes es
  | [], _, _, _ => rfl
  | e :: es, n, i, s => by
    unfold appendLoop pagesTaken
    rw [appendLoop_allocPos, appendRecord]
    by_cases hspace : (s.pool i).page.usedBytes + recordSize e ≤ kDataBytes
    · have hs : (s.pool i).page.hasSpace (recordSize e) = true := decide_eq_true hspace
      rw [if_pos hs, if_pos hspace]
      simp only [writeRecord, setPage, Function.update_self, usedBytes_push]
    · have hs : ¬(s.pool i).page.hasSpace (recordSize e) = true := by
        simpa [DirPage.hasSpace] using hspace
      have hpage : ((s.freshHead dir n).2.2.pool (s.freshHead dir n).2.1).page = ⟨dir, n, []⟩ := by
        simp [freshHead, setPage, setIndex]
      rw [if_neg hs, if_neg hspace]
      simp only [writeRecord, setPage, Function.update_self, hpage, usedBytes_push,
        freshHead_allocPos]
      simp only [DirPage.usedBytes, map_nil, sum_nil, Nat.zero_add]
      omega

theorem openHead_allocPos (s : CachedRegion) (dir : Nat) : (s.openHead dir).2.2.allocPos =
      if s.dirIndex dir = none then s.allocPos + 1 else s.allocPos := by
  refine (loadWith_allocPos _ _ _).trans ?_
  unfold getOrCreateHeadPage
  cases s.dirIndex dir with
  | some n => rfl
  | none => exact freshHead_allocPos s dir 0

theorem allocPos_le_appendEntries (s : CachedRegion) (dir : Nat) (es : List DentEntry) :
    s.allocPos ≤ (s.appendEntries dir es).allocPos := by
  unfold appendEntries
  split
  · exact le_refl _
  · dsimp only
    rw [appendLoop_allocPos, openHead_allocPos]
    split <;> omega

/-- **One turn of the append loop.** -/
theorem appendRecord_refines (h : Coherent (k + 1) s) (hat : AtHead s dir n i)
    (hfit : (appendRecord dir e n i s).2.2.allocPos ≤ s.numPageSlots) :
    Coherent (k + 1) (appendRecord dir e n i s).2.2 ∧
      AtHead (appendRecord dir e n i s).2.2 dir (appendRecord dir e n i s).1
        (appendRecord dir e n i s).2.1 ∧
      SSDDentRegion.appendLoop dir [e] n s.stored = some (appendRecord dir e n i s).2.2.stored := by
  have hn : n < s.allocPos := hat.offset ▸ (h.frame i hat.used).1
  have hpage : s.stored.pages[n]? = some (s.pool i).page := by
    rw [stored_getElem hat.pos hn, ← hat.offset, readPage_of_frame h hat.used]
  unfold appendRecord at hfit ⊢
  unfold SSDDentRegion.appendLoop
  rw [hpage]
  by_cases hspace : (s.pool i).page.hasSpace (recordSize e) = true
  · simp only [hspace, if_true] at hfit ⊢
    exact ⟨h.setPage i (by simp), hat.writeRecord, congrArg some (stored_writeRecord h hat).symm⟩
  · simp only [hspace] at hfit ⊢
    have hroom : s.allocPos < s.numPageSlots := by
      have : (s.freshHead dir n).2.2.allocPos ≤ s.numPageSlots := hfit
      rw [freshHead_allocPos] at this
      exact this
    obtain ⟨j, s₁, hfresh, hpl⟩ := h.freshHead hroom dir n
    -- the record goes into the new frame at once
    have hrec : ((s₁.place j s.allocPos false ⟨dir, n, []⟩).setIndex dir s.allocPos).writeRecord j e =
        (s₁.place j s.allocPos true ⟨dir, n, [e]⟩).setIndex dir s.allocPos := by
      have hset := place_setPage (s := s₁) j s.allocPos false true ⟨dir, n, []⟩ ⟨dir, n, [e]⟩
      have hj : ((s₁.place j s.allocPos false ⟨dir, n, []⟩).pool j).page = ⟨dir, n, []⟩ := by
        simp [CachedRegion.place]
      show ((s₁.place j s.allocPos false ⟨dir, n, []⟩).setPage j true
        (((s₁.place j s.allocPos false ⟨dir, n, []⟩).pool j).page.push e)).setIndex dir
          s.allocPos = _
      rw [hj]
      exact congrArg (·.setIndex dir s.allocPos) hset
    rw [hfresh]
    simp only [Bool.false_eq_true, if_false]
    rw [hrec, (hpl _).2]
    refine ⟨(hpl _).1, atHead_place s₁ dir j h.alloc _, ?_⟩
    unfold SSDDentRegion.freshHead
    rw [if_pos (by rw [stored_length]; exact hroom)]
    simp only [SSDDentRegion.appendLoop, SSDDentRegion.pushRecord, stored_length]
    rw [modify_eq_set_getElem?, getElem?_append_right (by simp [stored_length])]
    simp [DirPage.push, stored]

/-- **Opening the head page** of a directory, with a new page if it has none. -/
theorem openHead_refines (h : Coherent (k + 1) s) (hwf : s.stored.WF)
    (hfit : (s.openHead dir).2.2.allocPos ≤ s.numPageSlots) :
    Coherent (k + 1) (s.openHead dir).2.2 ∧
      AtHead (s.openHead dir).2.2 dir (s.openHead dir).1 (s.openHead dir).2.1 ∧
      s.stored.getOrCreateHeadPage dir =
        some ((s.openHead dir).1, (s.openHead dir).2.2.stored) := by
  rw [openHead_allocPos] at hfit
  -- the frame of the head page, in the region `s'` that `GetOrCreateHeadPage` leaves
  have hopen : ∀ {s' : CachedRegion} {n : Nat}, s.getOrCreateHeadPage dir = (n, s') →
      Coherent (k + 1) s' → s'.dirIndex dir = some n → 0 < n → n < s'.allocPos →
      Coherent (k + 1) (s.openHead dir).2.2 ∧
        AtHead (s.openHead dir).2.2 dir (s.openHead dir).1 (s.openHead dir).2.1 ∧
        (s.openHead dir).1 = n ∧ (s.openHead dir).2.2.stored = s'.stored := by
    intro s' n hget hc hidx hpos hn
    obtain ⟨hc', hsame, hused, hoff⟩ := hc.load hn
    unfold openHead
    rw [hget]
    exact ⟨hc', ⟨by rw [hsame.dirIndex]; exact hidx, hused, hoff, hpos⟩, rfl,
      hsame.stored hc.within⟩
  cases hidx : s.dirIndex dir with
  | some n =>
    have hget : s.getOrCreateHeadPage dir = (n, s) := by
      unfold getOrCreateHeadPage
      rw [hidx]
    obtain ⟨hpos, es, hc⟩ := hwf.2 dir n hidx
    have hn : n < s.allocPos := stored_length s ▸ hc.lt_length hpos
    obtain ⟨h1, h2, h3, h4⟩ := hopen hget h hidx hpos hn
    refine ⟨h1, h2, ?_⟩
    have hidx' : s.stored.dirIndex dir = some n := hidx
    rw [h3, h4, SSDDentRegion.getOrCreateHeadPage, hidx']
  | none =>
    have hroom : s.allocPos < s.numPageSlots := by
      rw [if_pos hidx] at hfit
      exact hfit
    obtain ⟨j, s₁, hfresh, hpl⟩ := h.freshHead hroom dir 0
    obtain ⟨hc, hst⟩ := hpl ⟨dir, 0, []⟩
    have hget : s.getOrCreateHeadPage dir =
        (s.allocPos, (s₁.place j s.allocPos true ⟨dir, 0, []⟩).setIndex dir s.allocPos) := by
      have hset := place_setPage (s := s₁) j s.allocPos false true ⟨dir, 0, []⟩ ⟨dir, 0, []⟩
      have hj : ((s₁.place j s.allocPos false ⟨dir, 0, []⟩).pool j).page = ⟨dir, 0, []⟩ := by
        simp [CachedRegion.place]
      unfold getOrCreateHeadPage
      rw [hidx, hfresh]
      refine congrArg (Prod.mk s.allocPos) ?_
      show ((s₁.place j s.allocPos false ⟨dir, 0, []⟩).setPage j true
        ((s₁.place j s.allocPos false ⟨dir, 0, []⟩).pool j).page).setIndex dir s.allocPos = _
      rw [hj, hset]
    have halloc : ((s₁.place j s.allocPos true ⟨dir, 0, []⟩).setIndex dir s.allocPos).allocPos =
        s.allocPos + 1 := by
      have hlen := congrArg (fun r => r.pages.length) hst
      simp only [stored_length, length_append, length_singleton] at hlen
      exact hlen
    obtain ⟨h1, h2, h3, h4⟩ := hopen hget hc (by simp [CachedRegion.setIndex]) h.alloc (by omega)
    refine ⟨h1, h2, ?_⟩
    have hidx' : s.stored.dirIndex dir = none := hidx
    rw [h3, h4, hst, SSDDentRegion.getOrCreateHeadPage, hidx']
    unfold SSDDentRegion.freshHead
    rw [if_pos (by rw [stored_length]; exact hroom), stored_length]
    rfl

/-- The append loop, from a head page in its frame. -/
theorem appendLoop_refines :
    ∀ {es : List DentEntry} {n i : Nat} {s : CachedRegion}, Coherent (k + 1) s → s.stored.WF →
      AtHead s dir n i → (appendLoop dir es n i s).allocPos ≤ s.numPageSlots →
      Coherent (k + 1) (appendLoop dir es n i s) ∧
        SSDDentRegion.appendLoop dir es n s.stored = some (appendLoop dir es n i s).stored
  | [], _, _, _, h, _, _, _ => ⟨h, rfl⟩
  | e :: es, n, i, s, h, hwf, hat, hfit => by
    obtain ⟨hc, hat', hst⟩ := @appendRecord_refines k s dir n i e h hat (by
      rw [appendLoop, appendLoop_allocPos] at hfit
      omega)
    have hslots : (appendRecord dir e n i s).2.2.numPageSlots = s.numPageSlots :=
      appendLoop_numPageSlots hst
    have hwf' := (appendLoop_spec hwf hat.index hst).1
    obtain ⟨hc', hst'⟩ := appendLoop_refines hc hwf' hat' (hslots.symm ▸ hfit)
    refine ⟨hc', ?_⟩
    rw [appendLoop_cons hwf hat.index, hst, Option.bind_some,
      appendEntries_of_index hat'.index]
    exact hst'

variable {es : List DentEntry}

/-- **`AppendEntries`** stores what it stores without a cache. -/
theorem appendEntries_refines (h : Coherent (k + 1) s) (hwf : s.stored.WF)
    (hfit : (s.appendEntries dir es).allocPos ≤ s.numPageSlots) :
    Coherent (k + 1) (s.appendEntries dir es) ∧
      s.stored.appendEntries dir es = some (s.appendEntries dir es).stored := by
  cases es with
  | nil => exact ⟨h, rfl⟩
  | cons e es =>
    obtain ⟨hc, hat, hst⟩ := @openHead_refines k s dir h hwf (by
      have hloop := appendLoop_allocPos dir (e :: es) (s.openHead dir).1 (s.openHead dir).2.1
        (s.openHead dir).2.2
      exact (Nat.le_add_right _ _).trans (hloop.ge.trans hfit))
    have hslots : (s.openHead dir).2.2.numPageSlots = s.numPageSlots :=
      getOrCreateHeadPage_numPageSlots hst
    have hwf' := (getOrCreateHeadPage_wf hwf hst).1
    obtain ⟨hc', hst'⟩ := appendLoop_refines hc hwf' hat (hslots.symm ▸ hfit)
    refine ⟨hc', ?_⟩
    show (if (e :: es).isEmpty then _ else _) = _
    rw [if_neg (by simp), hst]
    exact hst'

/-- A batch takes the pages that were counted, if it finds the head page. -/
theorem appendEntries_allocPos (h : Coherent (k + 1) s) (hwf : s.stored.WF) (hes : ¬es.isEmpty)
    (hfit : (s.openHead dir).2.2.allocPos ≤ s.numPageSlots) :
    (s.appendEntries dir es).allocPos = s.allocPos + s.stored.newPages dir es := by
  obtain ⟨hc, hat, hst⟩ := openHead_refines h hwf hfit
  have halloc := s.openHead_allocPos dir
  unfold appendEntries newPages
  rw [if_neg hes, if_neg hes]
  dsimp only
  rw [appendLoop_allocPos]
  generalize s.openHead dir = head at *
  obtain ⟨n, i, s'⟩ := head
  dsimp only at *
  -- the page in the frame is the stored one
  have hpage : s'.stored.pages[n]? = some (s'.pool i).page := by
    obtain ⟨-, hused, rfl, hpos⟩ := hat
    rw [stored_getElem hpos (hc.frame i hused).1, readPage_of_frame hc hused]
  have hidx : s.stored.dirIndex dir = s.dirIndex dir := rfl
  rw [halloc, hidx]
  unfold SSDDentRegion.getOrCreateHeadPage at hst
  rw [hidx] at hst
  cases hcase : s.dirIndex dir with
  | some m =>
    rw [hcase] at hst
    obtain ⟨rfl, hs'⟩ := Prod.mk.inj (Option.some.inj hst)
    dsimp only
    rw [hs', hpage]
    rfl
  | none =>
    rw [hcase] at hst
    simp only [SSDDentRegion.freshHead] at hst
    split at hst
    · obtain ⟨rfl, hs'⟩ := Prod.mk.inj (Option.some.inj hst)
      rw [← hs'] at hpage
      have hnew : (s'.pool i).page = ⟨dir, 0, []⟩ := by simpa using hpage.symm
      rw [hnew, if_pos rfl]
      simp only [DirPage.usedBytes, map_nil, sum_nil]
      omega
    · cases hst

/-- **The pages stay within the capacity iff there is room for the batch.** -/
theorem hasRoom_iff (h : Coherent (k + 1) s) (hwf : s.stored.WF) :
    s.stored.HasRoom dir es ↔ (s.appendEntries dir es).allocPos ≤ s.numPageSlots := by
  have hw := h.within
  by_cases hes : es.isEmpty = true
  · rw [HasRoom, newPages, appendEntries, if_pos hes, if_pos hes]
    exact ⟨fun _ => hw, fun _ => .inl rfl⟩
  · have hroom : s.stored.HasRoom dir es ↔ s.stored.newPages dir es = 0 ∨
        s.allocPos + s.stored.newPages dir es ≤ s.numPageSlots := by
      rw [HasRoom, stored_length]
      rfl
    rw [hroom]
    by_cases hfit : (s.openHead dir).2.2.allocPos ≤ s.numPageSlots
    · rw [appendEntries_allocPos h hwf hes hfit]
      omega
    · -- the head page is missing, and there is no page for it
      have hmore : (s.openHead dir).2.2.allocPos ≤ (s.appendEntries dir es).allocPos := by
        rw [appendEntries, if_neg hes]
        dsimp only
        rw [appendLoop_allocPos]
        exact Nat.le_add_right _ _
      rw [openHead_allocPos] at hfit hmore
      split at hfit
      · rename_i hnone
        have hnone' : s.stored.dirIndex dir = none := hnone
        rw [if_pos hnone] at hmore
        rw [newPages, if_neg hes, hnone']
        dsimp only
        omega
      · exact absurd hw hfit

/-- `FlushDirty` changes no stored page. -/
theorem flushDirty_same (h : Coherent k s) :
    Coherent k s.flushDirty ∧ SameStored s s.flushDirty := by
  have hloop : ∀ (l : List Nat) (t : CachedRegion), Coherent k t → (∀ i ∈ l, i ∈ t.lru) →
      Coherent k (l.foldl flushEntry t) ∧ SameStored t (l.foldl flushEntry t) := by
    intro l
    induction l with
    | nil => exact fun t ht _ => ⟨ht, .refl t⟩
    | cons i l ih =>
      intro t ht hl
      have hi := hl i mem_cons_self
      have hentry : Coherent k (t.flushEntry i) ∧ SameStored t (t.flushEntry i) ∧
          (t.flushEntry i).lru = t.lru := by
        unfold flushEntry
        split
        · obtain ⟨hw, hsame⟩ := ht.dentWrite hi
          refine ⟨hw.setPage i fun _ => Function.update_self _ _ _, hsame.trans ⟨rfl, rfl, rfl,
            fun n hn => ?_⟩, rfl⟩
          have hread := readPage_of_frame hw hi
          rw [readPage_setPage hw hi false _ hn]
          split
          · rename_i hni
            rw [hni]
            exact hread.symm
          · rfl
        · exact ⟨ht, .refl t, rfl⟩
      obtain ⟨hc, hs, hlru⟩ := hentry
      obtain ⟨hc', hs'⟩ := ih (t.flushEntry i) hc fun j hj => by
        rw [hlru]
        exact hl j (mem_cons_of_mem i hj)
      exact ⟨hc', hs.trans hs'⟩
  exact hloop s.lru s h fun i hi => hi

/-- A listing reads what is stored. -/
theorem readDirLatestFlat_stored (hwf : s.stored.WF) (dir cutoff : Nat) :
    s.readDirLatestFlat dir cutoff = s.stored.readDirLatestFlat dir cutoff := by
  have hpages : ∀ {off : Nat} {es : List DentEntry}, SSDDentRegion.Chain s.stored.pages dir off es →
      ∀ fuel, s.readPages dir cutoff fuel off = s.stored.readPages dir cutoff fuel off := by
    intro off es hc
    induction hc with
    | nil =>
      intro fuel
      cases fuel with
      | zero | succ fuel => rfl
    | @cons off page es hp hd hlt _ ih =>
      intro fuel
      cases fuel with
      | zero => rfl
      | succ fuel =>
        have hlen : off < s.allocPos := stored_length s ▸ (List.getElem?_eq_some_iff.mp hp).1
        have hpage : s.readPage off = page := by
          rw [stored_getElem (by omega) hlen] at hp
          exact Option.some.inj hp
        unfold readPages SSDDentRegion.readPages
        rw [if_neg (by omega), if_neg (by omega), hp, hpage]
        dsimp only
        rw [ih fuel]
  unfold readDirLatestFlat SSDDentRegion.readDirLatestFlat
  have hidx : s.stored.dirIndex dir = s.dirIndex dir := rfl
  rw [hidx]
  cases hn : s.dirIndex dir with
  | none => rfl
  | some n =>
    obtain ⟨-, es, hc⟩ := hwf.2 dir n hn
    dsimp only
    rw [stored_length]
    exact hpages hc _

end Refine

/-! ### Runs -/

/-- The calls of the checkpoint thread. -/
inductive DentOp
  | appendEntry (dir : Nat) (e : DentEntry)
  | deleteEntry (dir inodeId : Nat) (name : Name) (version : Nat)
  | appendEntries (dir : Nat) (es : List DentEntry)
  | flushDirty
deriving DecidableEq, Repr

namespace DentOp

/-- The events a call is given for directory `d`. -/
def events (d : Nat) : DentOp → List DentEntry
  | appendEntry dir e => if d = dir then [e] else []
  | deleteEntry dir inodeId name version =>
    if d = dir then [⟨inodeId, version, DT_UNKNOWN, true, name⟩] else []
  | appendEntries dir es => if d = dir then es else []
  | flushDirty => []

/-- The directory of the events. -/
def dir : DentOp → Nat
  | appendEntry dir _ | deleteEntry dir .. | appendEntries dir _ => dir
  | flushDirty => 0

/-- What a call returns; the appends are `void`. -/
def answer : DentOp → Option Bool
  | deleteEntry .. => some true
  | _ => none

end DentOp

/-- One call. -/
def apply (s : CachedRegion) : DentOp → CachedRegion
  | .appendEntry dir e => s.appendEntry dir e
  | .deleteEntry dir inodeId name version =>
    s.appendEntry dir (.make inodeId DT_UNKNOWN name version true)
  | .appendEntries dir es => s.appendEntries dir es
  | .flushDirty => s.flushDirty

/-- A sequence of calls. -/
def run (s : CachedRegion) (ops : List DentOp) : CachedRegion := ops.foldl apply s

/-- An event with a name that fits `name_[64]` and a version of 64 bits. -/
def EventFits (e : DentEntry) : Prop := e.name.length ≤ kMaxFilenameLen ∧ e.version < 2 ^ 64

/-- The view of an event, its name not cut. -/
def eventView (dir : Nat) (e : DentEntry) : DentView :=
  ⟨e.inodeId, dir, e.version, e.type, e.tombstone, cString e.name⟩

instance (e : DentEntry) : Decidable (EventFits e) := inferInstanceAs (Decidable (_ ∧ _))

theorem make_of_fits {inodeId version : Nat} {name : Name}
    (h : EventFits ⟨inodeId, version, DT_UNKNOWN, true, name⟩) :
    DentEntry.make inodeId DT_UNKNOWN name version true =
      ⟨inodeId, version, DT_UNKNOWN, true, name⟩ := by
  unfold DentEntry.make
  rw [take_of_length_le h.1]

/-- The names and versions a call is given fit. -/
def DentOp.Fits : DentOp → Prop
  | .appendEntry _ e => EventFits e
  | .deleteEntry _ inodeId name version => EventFits ⟨inodeId, version, DT_UNKNOWN, true, name⟩
  | .appendEntries _ es => ∀ e ∈ es, EventFits e
  | .flushDirty => True

instance : DecidablePred DentOp.Fits
  | .appendEntry .. => inferInstanceAs (Decidable (EventFits _))
  | .deleteEntry .. => inferInstanceAs (Decidable (EventFits _))
  | .appendEntries .. => inferInstanceAs (Decidable (∀ _ ∈ _, _))
  | .flushDirty => inferInstanceAs (Decidable True)

theorem DentOp.Fits.events {op : DentOp} (h : op.Fits) {d : Nat} {e : DentEntry}
    (he : e ∈ op.events d) : EventFits e := by
  cases op with
  | appendEntry | deleteEntry =>
    simp only [DentOp.events] at he
    split at he
    · rw [mem_singleton.mp he]
      exact h
    · exact (not_mem_nil he).elim
  | appendEntries dir es =>
    simp only [DentOp.events] at he
    split at he
    · exact h e he
    · exact (not_mem_nil he).elim
  | flushDirty => exact (not_mem_nil he).elim

section Runs

variable {k : Nat} {s : CachedRegion}

theorem flushDirty_allocPos (s : CachedRegion) : s.flushDirty.allocPos = s.allocPos := by
  have hloop : ∀ (l : List Nat) (t : CachedRegion), (l.foldl flushEntry t).allocPos = t.allocPos := by
    intro l
    induction l with
    | nil => exact fun _ => rfl
    | cons i l ih =>
      intro t
      rw [foldl_cons, ih]
      unfold flushEntry
      split <;> rfl
  exact hloop s.lru s

/-- Pages are never given back. -/
theorem allocPos_le_apply (s : CachedRegion) (op : DentOp) : s.allocPos ≤ (s.apply op).allocPos := by
  cases op with
  | appendEntry dir e => exact allocPos_le_appendEntries s dir [e]
  | deleteEntry dir inodeId name version => exact allocPos_le_appendEntries s dir [_]
  | appendEntries dir es => exact allocPos_le_appendEntries s dir es
  | flushDirty => exact (flushDirty_allocPos s).ge

theorem allocPos_le_run (s : CachedRegion) (ops : List DentOp) :
    s.allocPos ≤ (s.run ops).allocPos := by
  induction ops generalizing s with
  | nil => exact le_refl _
  | cons op ops ih => exact (allocPos_le_apply s op).trans (ih (s.apply op))

/-- A coherent region in a well-formed state, with the events `held` of every directory. -/
structure Good (k : Nat) (s : CachedRegion) (held : Nat → List DentEntry) : Prop where
  coherent : Coherent (k + 1) s
  wf : s.stored.WF
  holds : ∀ dir, ∃ es, s.stored.Holds dir es ∧ es.Perm (held dir)

variable {held : Nat → List DentEntry}

theorem Good.appendEntries (h : Good k s held) {dir : Nat}
    (hfit : (s.appendEntries dir es).allocPos ≤ s.numPageSlots) :
    Good k (s.appendEntries dir es) (fun d => held d ++ if d = dir then es else []) := by
  obtain ⟨hc, hst⟩ := appendEntries_refines h.coherent h.wf hfit
  refine ⟨hc, (appendEntries_spec h.wf hst).1, fun d => ?_⟩
  obtain ⟨old, hold, hperm⟩ := h.holds d
  obtain ⟨new, hnew, hperm'⟩ := (appendEntries_holds h.wf hst).2 d _ hold
  exact ⟨new, hnew, hperm'.trans (hperm.append_right _)⟩

/-- **A call** within the capacity adds the events it is given. -/
theorem Good.apply (h : Good k s held) {op : DentOp} (hop : op.Fits)
    (hfit : (s.apply op).allocPos ≤ s.numPageSlots) :
    Good k (s.apply op) (fun d => held d ++ op.events d) ∧
      (s.apply op).numPageSlots = s.numPageSlots := by
  have happend : ∀ (dir : Nat) (es : List DentEntry),
      (s.appendEntries dir es).allocPos ≤ s.numPageSlots →
      Good k (s.appendEntries dir es) (fun d => held d ++ if d = dir then es else []) ∧
        (s.appendEntries dir es).numPageSlots = s.numPageSlots := by
    intro dir es hf
    obtain ⟨-, hst⟩ := appendEntries_refines h.coherent h.wf hf
    exact ⟨h.appendEntries hf, appendEntries_numPageSlots hst⟩
  cases op with
  | appendEntry dir e => exact happend dir [e] hfit
  | deleteEntry dir inodeId name version =>
    simp only [CachedRegion.apply, make_of_fits hop] at hfit ⊢
    exact happend dir [_] hfit
  | appendEntries dir es => exact happend dir es hfit
  | flushDirty =>
    obtain ⟨hc, hsame⟩ := flushDirty_same h.coherent
    have hst := hsame.stored h.coherent.within
    refine ⟨⟨hc, ?_, fun d => ?_⟩, hsame.numPageSlots⟩
    · show s.flushDirty.stored.WF
      rw [hst]
      exact h.wf
    · show ∃ es, s.flushDirty.stored.Holds d es ∧ es.Perm (held d ++ [])
      rw [hst, append_nil]
      exact h.holds d

theorem Good.run {ops : List DentOp} (h : Good k s held) (hops : ∀ op ∈ ops, op.Fits)
    (hfit : (s.run ops).allocPos ≤ s.numPageSlots) :
    Good k (s.run ops) (fun d => held d ++ ops.flatMap (·.events d)) ∧
      (s.run ops).numPageSlots = s.numPageSlots := by
  induction ops generalizing s held with
  | nil =>
    simp only [flatMap_nil, append_nil]
    exact ⟨h, rfl⟩
  | cons op ops ih =>
    have hmono := allocPos_le_run (s.apply op) ops
    obtain ⟨hg, hslots⟩ := h.apply (hops op mem_cons_self) (hmono.trans hfit)
    obtain ⟨hrest, hslots'⟩ :=
      ih hg (fun o ho => hops o (mem_cons_of_mem op ho)) (hslots.symm ▸ hfit)
    simp only [append_assoc] at hrest
    exact ⟨hrest, hslots'.trans hslots⟩

/-- A new region with at least one frame and one page. -/
theorem good_init {capacity poolPages : Nat} (behind : Nat → Option Nat) (flash : Nat → DirPage)
    (hpool : 0 < poolPages) (hcap : kPageSize ≤ capacity) :
    Good (poolPages - 1) (init capacity poolPages behind flash) (fun _ => []) := by
  have hslots : 1 ≤ capacity / kPageSize := (Nat.one_le_div_iff (by decide)).mpr hcap
  have hwf : (init capacity poolPages behind flash).stored.WF := by
    refine ⟨?_, fun dir off h => by simp [stored, init] at h⟩
    rw [stored_length]
    exact Nat.one_pos
  refine ⟨⟨Nat.one_pos, hslots, fun n i hn hi => ?_, forall_mem_nil _,
    forall_mem_nil _, ?_, ?_, forall_mem_nil _⟩, hwf,
    fun dir => ⟨[], .inl ⟨rfl, rfl⟩, .refl _⟩⟩
  · have hn' : n < capacity / kPageSize := hn
    simp [init, hn'] at hi
  · exact nodup_range
  · simp only [init, nil_append, length_range]
    omega

/-- What is read at the largest cutoff is what is held. -/
theorem Good.read (h : Good k s held) (hheld : ∀ dir, ∀ e ∈ held dir, EventFits e) (dir : Nat) :
    (s.readDirLatestFlat dir (2 ^ 64 - 1)).Perm ((held dir).map (eventView dir)) := by
  obtain ⟨es, hes, hperm⟩ := h.holds dir
  have hfits : ∀ e ∈ es, EventFits e := fun e he => hheld dir e (hperm.mem_iff.mp he)
  have hall : (es.filter fun e => decide (e.version ≤ 2 ^ 64 - 1)) = es := by
    refine filter_eq_self.mpr fun e he => ?_
    have := (hfits e he).2
    simp only [decide_eq_true_eq]
    omega
  have hview : es.map (·.view dir) = es.map (eventView dir) := by
    refine map_congr_left fun e he => ?_
    unfold DentEntry.view eventView
    rw [take_of_length_le (hfits e he).1]
  rw [readDirLatestFlat_stored h.wf, hes.read h.wf, hall, hview]
  exact hperm.map _

/-- A batch and its events one by one store the same. -/
theorem stored_one_by_one (hc : Coherent (k + 1) s) (hwf : s.stored.WF) {dir : Nat}
    (hbatch : (s.appendEntries dir es).allocPos ≤ s.numPageSlots)
    (hsingle : (es.foldl (fun s e => s.appendEntry dir e) s).allocPos ≤ s.numPageSlots) :
    (es.foldl (fun s e => s.appendEntry dir e) s).stored = (s.appendEntries dir es).stored := by
  -- both are the batch without a cache
  have hfold : ∀ (es : List DentEntry) (t : CachedRegion),
      t.allocPos ≤ (es.foldl (fun s e => s.appendEntry dir e) t).allocPos := by
    intro es
    induction es with
    | nil => exact fun _ => le_refl _
    | cons e es ih => exact fun t => (allocPos_le_appendEntries t dir [e]).trans (ih _)
  have hstored : ∀ (es : List DentEntry) (t : CachedRegion), Coherent (k + 1) t → t.stored.WF →
      (es.foldl (fun s e => s.appendEntry dir e) t).allocPos ≤ t.numPageSlots →
      t.stored.appendEntries dir es =
        some (es.foldl (fun s e => s.appendEntry dir e) t).stored := by
    intro es
    induction es with
    | nil => exact fun _ _ _ _ => rfl
    | cons e es ih =>
      intro t ht htwf hfit
      obtain ⟨hc', hst⟩ := @appendEntries_refines k t dir [e] ht htwf ((hfold es _).trans hfit)
      have hslots : (t.appendEntries dir [e]).numPageSlots = t.numPageSlots :=
        appendEntries_numPageSlots hst
      rw [appendEntries_cons htwf, hst, Option.bind_some]
      exact ih _ hc' (appendEntries_spec htwf hst).1 (hslots.symm ▸ hfit)
  have hb := (appendEntries_refines hc hwf hbatch).2
  rw [hstored es s hc hwf hsingle] at hb
  exact Option.some.inj hb

end Runs

/-- **The dent region stores every event.** For any number of frames, any calls and any directory, if
the pages stay within the capacity: a listing at the largest cutoff returns the events given to the
directory, each as often as it was given; and a batch leaves the same stored pages, and the same
index, as its events one by one. -/
theorem dent_region_stores_events (capacity poolPages : Nat) (behind : Nat → Option Nat)
    (flash : Nat → DirPage) (hpool : 0 < poolPages) (ops : List DentOp)
    (hops : ∀ op ∈ ops, op.Fits)
    (hcap : ((init capacity poolPages behind flash).run ops).allocPos ≤ capacity / kPageSize)
    (dir : Nat) :
    (((init capacity poolPages behind flash).run ops).readDirLatestFlat dir (2 ^ 64 - 1)).Perm
        ((ops.flatMap (·.events dir)).map (eventView dir)) ∧
      ∀ es : List DentEntry,
        (((init capacity poolPages behind flash).run ops).appendEntries dir es).allocPos ≤
          capacity / kPageSize →
        (es.foldl (fun s e => s.appendEntry dir e)
          ((init capacity poolPages behind flash).run ops)).allocPos ≤ capacity / kPageSize →
        (es.foldl (fun s e => s.appendEntry dir e)
            ((init capacity poolPages behind flash).run ops)).stored =
          (((init capacity poolPages behind flash).run ops).appendEntries dir es).stored := by
  have hpage : kPageSize ≤ capacity := by
    have hmono := allocPos_le_run (init capacity poolPages behind flash) ops
    exact (Nat.one_le_div_iff (by decide)).mp (hmono.trans hcap)
  obtain ⟨hgood, hslots⟩ := (good_init behind flash hpool hpage).run hops hcap
  refine ⟨?_, fun es hbatch hsingle => ?_⟩
  · refine hgood.read (fun d e he => ?_) dir
    obtain ⟨op, hop, he'⟩ := mem_flatMap.mp he
    exact (hops op hop).events he'
  · exact stored_one_by_one hgood.coherent hgood.wf (hslots.symm ▸ hbatch) (hslots.symm ▸ hsingle)

/-- Two directories that share one frame. -/
def twoDirs : List DentOp :=
  [.appendEntry 2 ⟨5, 1, 8, false, [97]⟩, .appendEntry 3 ⟨6, 2, 8, false, [98]⟩, .flushDirty,
   .deleteEntry 2 5 [97] 3, .appendEntries 2 [⟨7, 4, 8, false, [99]⟩, ⟨7, 4, 8, false, [99]⟩]]

theorem dent_region_stores_events_evicted :
    (((init 16384 1 (fun _ => none) (fun _ => zeroPage)).run twoDirs).readDirLatestFlat 2
        (2 ^ 64 - 1)).Perm
      [⟨5, 2, 1, 8, false, [97]⟩, ⟨5, 2, 3, 0, true, [97]⟩, ⟨7, 2, 4, 8, false, [99]⟩,
        ⟨7, 2, 4, 8, false, [99]⟩] := by
  refine (dent_region_stores_events 16384 1 (fun _ => none) (fun _ => zeroPage) (by decide) twoDirs
    (by decide) (by decide +kernel) 2).1.trans (List.Perm.of_eq (by decide))

/-! ### Running out of pages -/

/-- The calls on a region. -/
def dentSystem (capacity poolPages : Nat) (behind : Nat → Option Nat) (flash : Nat → DirPage) :
    Foundation.System CachedRegion DentOp where
  start s := s = init capacity poolPages behind flash
  step s op := some (s.apply op)

/-- The pages that a call takes are left. -/
def DentOp.HasRoom (s : CachedRegion) (op : DentOp) : Prop :=
  s.stored.HasRoom op.dir (op.events op.dir)

/-- The names fit, and the pages that the call takes are left. -/
def FindsPages (s : CachedRegion) (op : DentOp) : Prop := op.Fits ∧ op.HasRoom s

instance : DecidableRel FindsPages := fun _ op =>
  inferInstanceAs (Decidable (op.Fits ∧ SSDDentRegion.HasRoom _ _ _))

section Room

variable {k : Nat} {s : CachedRegion} {held : Nat → List DentEntry} {op : DentOp}

/-- A call is the batch of its events, or changes no stored page. -/
theorem apply_cases (s : CachedRegion) (hop : op.Fits) :
    s.apply op = s.appendEntries op.dir (op.events op.dir) ∨ op = .flushDirty := by
  cases op with
  | appendEntry dir e =>
    left
    simp only [DentOp.events, DentOp.dir, if_true]
    rfl
  | deleteEntry dir inodeId name version =>
    left
    simp only [DentOp.events, DentOp.dir, if_true]
    rw [← make_of_fits hop]
    rfl
  | appendEntries dir es =>
    left
    simp only [DentOp.events, DentOp.dir, if_true]
    rfl
  | flushDirty => exact .inr rfl

theorem Good.hasRoom_iff (h : Good k s held) (hop : op.Fits) :
    op.HasRoom s ↔ (s.apply op).allocPos ≤ s.numPageSlots := by
  rcases apply_cases s hop with heq | rfl
  · rw [heq]
    exact CachedRegion.hasRoom_iff h.coherent h.wf
  · refine ⟨fun _ => ?_, fun _ => .inl rfl⟩
    exact (flushDirty_allocPos s).trans_le h.coherent.within

/-- In a region without a page the calls that find theirs do nothing. -/
theorem apply_init {capacity poolPages : Nat} {behind : Nat → Option Nat} {flash : Nat → DirPage}
    (hcap : capacity < kPageSize) (hop : FindsPages (init capacity poolPages behind flash) op) :
    (init capacity poolPages behind flash).apply op = init capacity poolPages behind flash ∧
      ∀ dir, op.events dir = [] := by
  rcases apply_cases (init capacity poolPages behind flash) hop.1 with heq | rfl
  · have hroom := hop.2
    have hslots : (init capacity poolPages behind flash).stored.numPageSlots = 0 :=
      Nat.div_eq_of_lt hcap
    rw [DentOp.HasRoom, SSDDentRegion.HasRoom, hslots, stored_length] at hroom
    cases hes : op.events op.dir with
    | nil =>
      refine ⟨by rw [heq, hes]; rfl, fun dir => ?_⟩
      cases op <;> simp_all [DentOp.events, DentOp.dir]
    | cons e es =>
      have hnew : (init capacity poolPages behind flash).stored.newPages op.dir (e :: es) =
        pagesTaken 0 (e :: es) + 1 := rfl
      rw [hes, hnew] at hroom
      omega
  · exact ⟨rfl, fun _ => rfl⟩

end Room

/-- **No page behind the capacity is touched** in a run whose calls find the pages they need: every
offset that is handed out, used as an index of the page table or written lies in the region. If the
next call finds its pages, it adds its events to the listings; if not, it goes behind the capacity. -/
theorem pages_within_capacity {capacity poolPages : Nat} {behind : Nat → Option Nat}
    {flash : Nat → DirPage} (hpool : 0 < poolPages) {s : CachedRegion}
    (h : (dentSystem capacity poolPages behind flash).Reach FindsPages s) :
    (∀ u ∈ s.uses, u.2 * kPageSize + kPageSize ≤ capacity) ∧
      ∀ op : DentOp, op.Fits →
        (op.HasRoom s → ∀ dir, ((s.apply op).readDirLatestFlat dir (2 ^ 64 - 1)).Perm
          (s.readDirLatestFlat dir (2 ^ 64 - 1) ++ (op.events dir).map (eventView dir))) ∧
        (¬op.HasRoom s → capacity < (s.apply op).allocPos * kPageSize) := by
  have hinv : (capacity < kPageSize ∧ s = init capacity poolPages behind flash) ∨
      ∃ held, Good (poolPages - 1) s held ∧ s.numPageSlots = capacity / kPageSize ∧
        ∀ dir, ∀ e ∈ held dir, EventFits e := by
    refine h.invariant (I := fun s => (capacity < kPageSize ∧ s = init capacity poolPages behind
      flash) ∨ ∃ held, Good (poolPages - 1) s held ∧ s.numPageSlots = capacity / kPageSize ∧
        ∀ dir, ∀ e ∈ held dir, EventFits e) ?_ ?_
    · rintro s rfl
      by_cases hcap : capacity < kPageSize
      · exact .inl ⟨hcap, rfl⟩
      · exact .inr ⟨_, good_init behind flash hpool (by omega), rfl, fun _ => forall_mem_nil _⟩
    · intro s op s' _ hs hok hst
      obtain rfl := Option.some.inj hst
      rcases hs with ⟨hcap, rfl⟩ | ⟨held, hgood, hslots, hheld⟩
      · exact .inl ⟨hcap, (apply_init hcap hok).1⟩
      · obtain ⟨hg, hs'⟩ := hgood.apply hok.1 ((hgood.hasRoom_iff hok.1).mp hok.2)
        exact .inr ⟨_, hg, hs'.trans hslots, fun dir =>
          forall_mem_append.mpr ⟨hheld dir, fun e he => hok.1.events he⟩⟩
  rcases hinv with ⟨hcap, rfl⟩ | ⟨held, hgood, hslots, hheld⟩
  · refine ⟨forall_mem_nil _, fun op hop => ⟨fun hroom dir => ?_, fun _ => ?_⟩⟩
    · obtain ⟨heq, hnone⟩ := apply_init hcap ⟨hop, hroom⟩
      rw [heq, hnone, map_nil, append_nil]
    · have hmono := allocPos_le_apply (init capacity poolPages behind flash) op
      exact hcap.trans_le (Nat.le_mul_of_pos_left _ hmono)
  · refine ⟨fun u hu => ?_, fun op hop => ⟨fun hroom dir => ?_, fun hroom => ?_⟩⟩
    · have hlt := hgood.coherent.uses u hu
      rw [hslots] at hlt
      have hle := (Nat.le_div_iff_mul_le (by decide : 0 < kPageSize)).mp hlt
      rwa [Nat.succ_mul] at hle
    · obtain ⟨hg, -⟩ := hgood.apply hop ((hgood.hasRoom_iff hop).mp hroom)
      refine (hg.read (fun d => forall_mem_append.mpr ⟨hheld d, fun e he => hop.events he⟩)
        dir).trans ?_
      rw [map_append]
      exact (hgood.read hheld dir).symm.append_right _
    · rw [hgood.hasRoom_iff hop, hslots, Nat.le_div_iff_mul_le (by decide)] at hroom
      omega

theorem pages_within_capacity_one_dir :
    ∃ s, (dentSystem 8192 2 (fun _ => none) (fun _ => zeroPage)).Reach FindsPages s ∧
      s.uses = [(.handedOut, 1), (.indexed, 1), (.indexed, 1), (.indexed, 1), (.written, 1)] ∧
      (∀ u ∈ s.uses, u.2 * kPageSize + kPageSize ≤ 8192) ∧
      8192 < (s.apply (.appendEntry 3 ⟨6, 4, 8, false, [98]⟩)).allocPos * kPageSize := by
  have hreach : (dentSystem 8192 2 (fun _ => none) (fun _ => zeroPage)).Reach FindsPages
      ((((init 8192 2 (fun _ => none) (fun _ => zeroPage)).apply
        (.appendEntry 2 ⟨5, 1, 8, false, [97]⟩)).apply (.deleteEntry 2 5 [97] 3)).apply
          .flushDirty) := by
    refine .step (.step (.step (.start rfl) ?_ rfl) ?_ rfl) ?_ rfl
    all_goals decide +kernel
  obtain ⟨huses, hnext⟩ := pages_within_capacity (by decide) hreach
  refine ⟨_, hreach, by decide +kernel, huses, ?_⟩
  exact (hnext (.appendEntry 3 ⟨6, 4, 8, false, [98]⟩) (by decide)).2
    (show ¬SSDDentRegion.HasRoom _ _ _ by decide +kernel)

/-- **A full region does not refuse.** A region of one page, which is the reserved one: the first
event gets the page behind the capacity, `DeleteEntry` answers true, the page table is indexed and
the flash written behind the end, and the listing of the directory has changed. -/
theorem full_region_not_refused :
    let s := (init 4096 2 (fun _ => none) (fun _ => zeroPage)).run
      [.deleteEntry 2 5 [97] 3, .flushDirty]
    DentOp.answer (.deleteEntry 2 5 [97] 3) = some true ∧
      s.uses = [(.handedOut, 1), (.indexed, 1), (.indexed, 1), (.written, 1)] ∧
      4096 ≤ 1 * kPageSize ∧ s.numPageSlots = 1 ∧
      s.readDirLatestFlat 2 (2 ^ 64 - 1) = [⟨5, 2, 3, 0, true, [97]⟩] := by
  decide +kernel

end CachedRegion

end StaxFS.Dent
