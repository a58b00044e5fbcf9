import StaxFS.Dent.Verifier

/-!
# The dent region behind its page cache

`SSDDentRegion` of `server/dent_region.h` as it is: a pool of page frames in front of the flash, the
table `page_slots_` from page numbers to frames, the list of used frames with the most recent one
first, and the free frames. Pages are changed in their frame and marked dirty; they get to the flash
when their frame is needed for another page, or with `FlushDirty`. The doubly linked list is a list
of frame numbers. A page number is the page's offset divided by the page size.

`AllocPage` logs when the capacity is passed and returns the offset all the same. What `page_slots_`
reads behind its end is a parameter of `init`, and every offset that is handed out, used as an index
or written is recorded.

`stored` forgets the cache: a page is what `ReadPage` returns.

Results:
* `Coherent`: a page without a frame is on flash, and so is a page whose frame is clean. Taking a
  frame, loading a page, writing back and changing a page in its frame keep it.
* `Coherent.take`, `Coherent.load`: neither changes what is stored.
* `Coherent.freshHead`: a new head page gets the frame of the least recent page.
-/

namespace StaxFS.Dent

open List
open Function (update update_idem update_of_ne update_self)

/-- What an offset is used for. -/
inductive PageUse
  /-- returned by `AllocPage` -/
  | handedOut
  /-- an index of `page_slots_` -/
  | indexed
  /-- the target of `DentWrite` -/
  | written
deriving DecidableEq, Repr

/-- `PageCacheEntry`, without its links. -/
structure PageCacheEntry where
  offset : Nat
  dirty : Bool
  page : DirPage
deriving DecidableEq, Repr

/-- `SSDDentRegion` with its cache and the flash. -/
structure CachedRegion where
  /-- `num_page_slots_` -/
  numPageSlots : Nat
  /-- `alloc_pos_`, as a page number -/
  allocPos : Nat
  /-- `dir_index_` -/
  dirIndex : Nat → Option Nat
  /-- `pool_` -/
  pool : Nat → PageCacheEntry
  /-- `page_slots_`; `none` is `kNullIdx` -/
  pageSlots : Nat → Option Nat
  /-- the used frames from `lru_head_` to `lru_tail_` -/
  lru : List Nat
  /-- the frames from `free_head_` on -/
  free : List Nat
  flash : Nat → DirPage
  /-- the offsets used so far. Bookkeeping. -/
  uses : List (PageUse × Nat)

namespace CachedRegion

/-- A page of zeros. -/
def zeroPage : DirPage := ⟨0, 0, []⟩

/-- `Init`, with `poolPages` frames; `behind` is what lies behind the page table. -/
def init (capacity poolPages : Nat) (behind : Nat → Option Nat) (flash : Nat → DirPage) :
    CachedRegion where
  numPageSlots := capacity / kPageSize
  allocPos := 1
  dirIndex := fun _ => none
  pool := fun _ => ⟨0, false, zeroPage⟩
  pageSlots := fun n => if n < capacity / kPageSize then none else behind n
  lru := []
  free := List.range poolPages
  flash := flash
  uses := []

def use (s : CachedRegion) (u : PageUse) (n : Nat) : CachedRegion :=
  { s with uses := s.uses ++ [(u, n)] }

/-! ### The page cache -/

/-- `DentWrite` of a page. -/
def dentWrite (s : CachedRegion) (n : Nat) (page : DirPage) : CachedRegion :=
  { s.use .written n with flash := update s.flash n page }

/-- `TakePoolSlot`. -/
def takePoolSlot (s : CachedRegion) : Nat × CachedRegion :=
  match s.free with
  | i :: rest => (i, { s with free := rest })
  | [] =>
    match s.lru.getLast? with
    -- only without frames
    | none => (0, s)
    | some i =>
      let v := s.pool i
      let s' := if v.dirty then s.dentWrite v.offset v.page else s
      (i, { s'.use .indexed v.offset with
        pageSlots := update s.pageSlots v.offset none
        lru := s.lru.dropLast })

/-- Frame `i` holds page `n` and is the most recent one. -/
def place (s : CachedRegion) (i n : Nat) (dirty : Bool) (page : DirPage) : CachedRegion :=
  { s with
    pool := update s.pool i ⟨n, dirty, page⟩
    pageSlots := update s.pageSlots n (some i)
    lru := i :: s.lru }

/-- The frame of page `n`; without one, a frame is taken and `fill` says what it then holds. -/
def loadWith (fill : CachedRegion → Nat → DirPage) (s : CachedRegion) (n : Nat) :
    Nat × CachedRegion :=
  match s.pageSlots n with
  | some i => (i, { s.use .indexed n with lru := i :: s.lru.erase i })
  | none =>
    let r := (s.use .indexed n).takePoolSlot
    (r.1, r.2.place r.1 n false (fill r.2 r.1))

/-- `LoadPageSlot`. -/
def loadPageSlot (s : CachedRegion) (n : Nat) : Nat × CachedRegion :=
  s.loadWith (fun s _ => s.flash n) n

/-- `LoadPageSlotForFresh`: the frame keeps what it held. -/
def loadPageSlotForFresh (s : CachedRegion) (n : Nat) : Nat × CachedRegion :=
  s.loadWith (fun s i => (s.pool i).page) n

/-- `ReadPage`. -/
def readPage (s : CachedRegion) (n : Nat) : DirPage :=
  match s.pageSlots n with
  | some i => (s.pool i).page
  | none => s.flash n

/-- Write to the page of frame `i` and set its mark. -/
def setPage (s : CachedRegion) (i : Nat) (dirty : Bool) (page : DirPage) : CachedRegion :=
  { s with pool := update s.pool i ⟨(s.pool i).offset, dirty, page⟩ }

/-- The loop body of `FlushDirty`. -/
def flushEntry (s : CachedRegion) (i : Nat) : CachedRegion :=
  if (s.pool i).dirty then
    (s.dentWrite (s.pool i).offset (s.pool i).page).setPage i false (s.pool i).page
  else s

/-- `FlushDirty`. -/
def flushDirty (s : CachedRegion) : CachedRegion := s.lru.foldl flushEntry s

/-! ### Appending -/

/-- `AllocPage`. -/
def allocPage (s : CachedRegion) : Nat × CachedRegion :=
  (s.allocPos, { s.use .handedOut s.allocPos with allocPos := s.allocPos + 1 })

/-- `dir_index_[dir_id] = n`. -/
def setIndex (s : CachedRegion) (dir n : Nat) : CachedRegion :=
  { s with dirIndex := update s.dirIndex dir (some n) }

/-- A new page for directory `dir` in front of page `next`: its number, its frame, the region. -/
def freshHead (s : CachedRegion) (dir next : Nat) : Nat × Nat × CachedRegion :=
  let a := s.allocPage
  let l := a.2.loadPageSlotForFresh a.1
  (a.1, l.1, (l.2.setPage l.1 (l.2.pool l.1).dirty ⟨dir, next, []⟩).setIndex dir a.1)

/-- `GetOrCreateHeadPage`. -/
def getOrCreateHeadPage (s : CachedRegion) (dir : Nat) : Nat × CachedRegion :=
  match s.dirIndex dir with
  | some n => (n, s)
  | none =>
    let f := s.freshHead dir 0
    (f.1, f.2.2.setPage f.2.1 true (f.2.2.pool f.2.1).page)

/-- Write a record to the page of frame `i`. -/
def writeRecord (s : CachedRegion) (i : Nat) (e : DentEntry) : CachedRegion :=
  s.setPage i true ((s.pool i).page.push e)

/-- The loop body of `AppendEntries`, which is also the end of `AppendEntryLocked`, at page `n` in
frame `i`. -/
def appendRecord (dir : Nat) (e : DentEntry) (n i : Nat) (s : CachedRegion) :
    Nat × Nat × CachedRegion :=
  if (s.pool i).page.hasSpace (recordSize e) then (n, i, s.writeRecord i e)
  else
    let f := s.freshHead dir n
    (f.1, f.2.1, f.2.2.writeRecord f.2.1 e)

def appendLoop (dir : Nat) : List DentEntry → Nat → Nat → CachedRegion → CachedRegion
  | [], _, _, s => s
  | e :: es, n, i, s =>
    let r := appendRecord dir e n i s
    appendLoop dir es r.1 r.2.1 r.2.2

/-- The head page of a directory in its frame. -/
def openHead (s : CachedRegion) (dir : Nat) : Nat × Nat × CachedRegion :=
  let h := s.getOrCreateHeadPage dir
  let l := h.2.loadPageSlot h.1
  (h.1, l.1, l.2)

/-- `AppendEntryLocked`, which is all of `AppendEntry`. -/
def appendEntry (s : CachedRegion) (dir : Nat) (e : DentEntry) : CachedRegion :=
  let h := s.openHead dir
  (appendRecord dir e h.1 h.2.1 h.2.2).2.2

/-- `AppendEntries`. -/
def appendEntries (s : CachedRegion) (dir : Nat) (es : List DentEntry) : CachedRegion :=
  if es.isEmpty then s
  else
    let h := s.openHead dir
    appendLoop dir es h.1 h.2.1 h.2.2

/-! ### Reading -/

/-- The page loop of `ReadDirLatestFlat`. -/
def readPages (s : CachedRegion) (dir cutoff : Nat) : Nat → Nat → List DentView
  | 0, _ => []
  | fuel + 1, n =>
    if n = 0 then []
    else
      let page := s.readPage n
      SSDDentRegion.readRecords page.usedBytes page.records.length dir cutoff page.records 0 0 ++
        readPages s dir cutoff fuel page.nextPage

/-- `ReadDirLatestFlat`. -/
def readDirLatestFlat (s : CachedRegion) (dir cutoff : Nat) : List DentView :=
  match s.dirIndex dir with
  | none => []
  | some n => s.readPages dir cutoff s.allocPos n

/-- What is stored, the cache forgotten. -/
def stored (s : CachedRegion) : SSDDentRegion where
  numPageSlots := s.numPageSlots
  pages := (List.range s.allocPos).map fun n => if n = 0 then zeroPage else s.readPage n
  dirIndex := s.dirIndex

/-! ### Coherence -/

/-- **The cache and the flash agree**: `k` frames in all, every used frame is the one of its page, a
clean one holds what is on flash, and no offset behind the table was used. -/
structure Coherent (k : Nat) (s : CachedRegion) : Prop where
  alloc : 0 < s.allocPos
  within : s.allocPos ≤ s.numPageSlots
  slot : ∀ n i, n < s.numPageSlots → s.pageSlots n = some i → i ∈ s.lru ∧ (s.pool i).offset = n
  frame : ∀ i ∈ s.lru, (s.pool i).offset < s.allocPos ∧ s.pageSlots (s.pool i).offset = some i
  clean : ∀ i ∈ s.lru, (s.pool i).dirty = false → s.flash (s.pool i).offset = (s.pool i).page
  nodup : (s.lru ++ s.free).Nodup
  size : (s.lru ++ s.free).length = k
  uses : ∀ u ∈ s.uses, u.2 < s.numPageSlots

/-- Nothing but the cache has changed. -/
structure SameStored (s s' : CachedRegion) : Prop where
  numPageSlots : s'.numPageSlots = s.numPageSlots
  allocPos : s'.allocPos = s.allocPos
  dirIndex : s'.dirIndex = s.dirIndex
  readPage : ∀ n, n < s.numPageSlots → s'.readPage n = s.readPage n

variable {i n : Nat} {page : DirPage} {dirty : Bool}

section Frames

variable {k : Nat} {s : CachedRegion}

theorem readPage_of_frame (h : Coherent k s) (hi : i ∈ s.lru) :
    s.readPage (s.pool i).offset = (s.pool i).page := by
  unfold readPage
  rw [(h.frame i hi).2]

theorem SameStored.refl (s : CachedRegion) : SameStored s s := ⟨rfl, rfl, rfl, fun _ _ => rfl⟩

theorem SameStored.trans {s' s'' : CachedRegion} (h : SameStored s s') (h' : SameStored s' s'') :
    SameStored s s'' :=
  ⟨h'.numPageSlots.trans h.numPageSlots, h'.allocPos.trans h.allocPos, h'.dirIndex.trans h.dirIndex,
    fun n hn => (h'.readPage n (h.numPageSlots.symm ▸ hn)).trans (h.readPage n hn)⟩

theorem SameStored.stored {s' : CachedRegion} (h : SameStored s s')
    (hw : s.allocPos ≤ s.numPageSlots) : s'.stored = s.stored := by
  unfold CachedRegion.stored
  rw [h.numPageSlots, h.allocPos, h.dirIndex]
  congr 1
  refine map_congr_left fun n hn => ?_
  rw [mem_range] at hn
  rw [h.readPage n (by omega)]

section

variable (h : Coherent k s)

include h

/-- A use of an offset inside the table. -/
theorem Coherent.use (u : PageUse) (hn : n < s.numPageSlots) : Coherent k (s.use u n) := by
  refine ⟨h.alloc, h.within, h.slot, h.frame, h.clean, h.nodup, h.size, ?_⟩
  exact forall_mem_append.mpr ⟨h.uses, forall_mem_singleton.mpr hn⟩

/-- The frame of page `n` becomes the most recent one. -/
theorem Coherent.moveToFront (hi : i ∈ s.lru) :
    Coherent k { s with lru := i :: s.lru.erase i } := by
  have hperm : (i :: s.lru.erase i).Perm s.lru := (perm_cons_erase hi).symm
  have hmem : ∀ j, j ∈ i :: s.lru.erase i ↔ j ∈ s.lru := fun j => hperm.mem_iff
  refine ⟨h.alloc, h.within, fun n j hn hj => ?_, fun j hj => h.frame j ((hmem j).mp hj),
    fun j hj => h.clean j ((hmem j).mp hj), ?_, ?_, h.uses⟩
  · obtain ⟨hl, ho⟩ := h.slot n j hn hj
    exact ⟨(hmem j).mpr hl, ho⟩
  · exact (hperm.append_right s.free).nodup_iff.mpr h.nodup
  · rw [(hperm.append_right s.free).length_eq]
    exact h.size

/-- Changing a page in its frame: it is marked, or it is what is on flash. -/
theorem Coherent.setPage (i : Nat) (hflash : dirty = false → s.flash (s.pool i).offset = page) :
    Coherent k (s.setPage i dirty page) := by
  have hoff : ∀ j, ((s.setPage i dirty page).pool j).offset = (s.pool j).offset := by
    intro j
    unfold CachedRegion.setPage
    by_cases hj : j = i
    · subst hj
      simp
    · simp [update_of_ne hj]
  refine ⟨h.alloc, h.within, fun n j hn hj => ?_, fun j hj => ?_, fun j hj hd => ?_, h.nodup, h.size,
    h.uses⟩
  · rw [hoff]
    exact h.slot n j hn hj
  · rw [hoff]
    exact h.frame j hj
  · rw [hoff]
    by_cases hji : j = i
    · subst hji
      simp only [CachedRegion.setPage, update_self] at hd ⊢
      exact hflash hd
    · simp only [CachedRegion.setPage, update_of_ne hji] at hd ⊢
      exact h.clean j hj hd

theorem readPage_setPage (hi : i ∈ s.lru) (dirty : Bool)
    (page : DirPage) (hn : n < s.numPageSlots) : (s.setPage i dirty page).readPage n =
      if n = (s.pool i).offset then page else s.readPage n := by
  by_cases hni : n = (s.pool i).offset
  · subst hni
    have hslot : (s.setPage i dirty page).pageSlots (s.pool i).offset = some i := (h.frame i hi).2
    rw [if_pos rfl, readPage, hslot]
    simp [setPage]
  · rw [if_neg hni]
    unfold readPage
    have hslot : (s.setPage i dirty page).pageSlots n = s.pageSlots n := rfl
    rw [hslot]
    cases hj : s.pageSlots n with
    | none => rfl
    | some j =>
      have hji : j ≠ i := by
        rintro rfl
        exact hni (h.slot n j hn hj).2.symm
      simp [setPage, update_of_ne hji]

/-- A page of a frame is written to flash. -/
theorem Coherent.dentWrite (hi : i ∈ s.lru) :
    Coherent k (s.dentWrite (s.pool i).offset (s.pool i).page) ∧
      SameStored s (s.dentWrite (s.pool i).offset (s.pool i).page) := by
  have hin : (s.pool i).offset < s.numPageSlots := lt_of_lt_of_le (h.frame i hi).1 h.within
  have hu := h.use .written hin
  refine ⟨⟨h.alloc, h.within, h.slot, h.frame, fun j hj hd => ?_, h.nodup, h.size, hu.uses⟩,
    rfl, rfl, rfl, fun n hn => ?_⟩
  · by_cases hji : (s.pool j).offset = (s.pool i).offset
    · -- two frames of one page are one frame
      have hij : j = i := by
        have hj' := (h.frame j hj).2
        rw [hji, (h.frame i hi).2] at hj'
        exact (Option.some.inj hj').symm
      subst hij
      exact update_self _ _ _
    · exact (update_of_ne hji _ _).trans (h.clean j hj hd)
  · unfold readPage
    have hslot : (s.dentWrite (s.pool i).offset (s.pool i).page).pageSlots n = s.pageSlots n := rfl
    rw [hslot]
    cases hj : s.pageSlots n with
    | some j => rfl
    | none =>
      have hne : n ≠ (s.pool i).offset := by
        rintro rfl
        rw [(h.frame i hi).2] at hj
        cases hj
      exact update_of_ne hne _ _

end

end Frames

/-! ### Taking a frame -/

section Load

variable {k : Nat} {s : CachedRegion}

/-- The page of the last used frame is on flash; its frame is free for another page. -/
theorem Coherent.evict (h : Coherent (k + 1) s) {rest : List Nat} (hlru : s.lru = rest ++ [i])
    (hflash : s.flash (s.pool i).offset = (s.pool i).page) :
    Coherent k { s.use .indexed (s.pool i).offset with
      pageSlots := update s.pageSlots (s.pool i).offset none
      lru := rest } ∧
    SameStored s { s.use .indexed (s.pool i).offset with
      pageSlots := update s.pageSlots (s.pool i).offset none
      lru := rest } ∧
    i ∉ rest ++ s.free := by
  have hi : i ∈ s.lru := by simp [hlru]
  have hmem : ∀ j, j ∈ rest → j ∈ s.lru := fun j hj => by simp [hlru, hj]
  have hperm : (s.lru ++ s.free).Perm (i :: (rest ++ s.free)) := by
    rw [hlru, append_assoc]
    exact perm_middle
  have hnodup : (i :: (rest ++ s.free)).Nodup := hperm.nodup_iff.mp h.nodup
  have hin : (s.pool i).offset < s.numPageSlots := lt_of_lt_of_le (h.frame i hi).1 h.within
  -- no other frame has this page
  have hother : ∀ j ∈ rest, (s.pool j).offset ≠ (s.pool i).offset := by
    intro j hj ho
    have hj' := (h.frame j (hmem j hj)).2
    rw [ho, (h.frame i hi).2] at hj'
    obtain rfl := Option.some.inj hj'
    exact (nodup_cons.mp hnodup).1 (mem_append_left _ hj)
  refine ⟨⟨h.alloc, h.within, fun n j hn hj => ?_, fun j hj => ?_, fun j hj => h.clean j (hmem j hj),
    hnodup.of_cons, ?_, (h.use .indexed hin).uses⟩, ⟨rfl, rfl, rfl, fun n hn => ?_⟩,
    (nodup_cons.mp hnodup).1⟩
  · dsimp only at hj
    by_cases hne : n = (s.pool i).offset
    · rw [hne, update_self] at hj
      cases hj
    · rw [update_of_ne hne] at hj
      obtain ⟨hl, ho⟩ := h.slot n j hn hj
      refine ⟨?_, ho⟩
      rw [hlru] at hl
      rcases mem_append.mp hl with hl | hl
      · exact hl
      · rw [mem_singleton.mp hl] at ho
        exact absurd ho.symm hne
  · obtain ⟨ho, hs⟩ := h.frame j (hmem j hj)
    exact ⟨ho, (update_of_ne (hother j hj) _ _).trans hs⟩
  · have hlen := hperm.length_eq
    rw [h.size] at hlen
    exact (Nat.succ.inj hlen).symm
  · unfold readPage
    dsimp only
    by_cases hne : n = (s.pool i).offset
    · subst hne
      rw [update_self, (h.frame i hi).2]
      exact hflash
    · rw [update_of_ne hne]
      rfl

/-- **`TakePoolSlot`** frees a frame, writing its page back if need be, and changes no stored page. -/
theorem Coherent.take (h : Coherent (k + 1) s) :
    Coherent k s.takePoolSlot.2 ∧ SameStored s s.takePoolSlot.2 ∧
      s.takePoolSlot.1 ∉ s.takePoolSlot.2.lru ++ s.takePoolSlot.2.free := by
  unfold takePoolSlot
  cases hfree : s.free with
  | cons i rest =>
    have hperm : (s.lru ++ s.free).Perm (i :: (s.lru ++ rest)) := by
      rw [hfree]
      exact perm_middle
    have hnodup : (i :: (s.lru ++ rest)).Nodup := hperm.nodup_iff.mp h.nodup
    refine ⟨⟨h.alloc, h.within, h.slot, h.frame, h.clean, hnodup.of_cons, ?_, h.uses⟩,
      ⟨rfl, rfl, rfl, fun _ _ => rfl⟩, (nodup_cons.mp hnodup).1⟩
    have hlen := hperm.length_eq
    rw [h.size] at hlen
    exact (Nat.succ.inj hlen).symm
  | nil =>
    have hne : s.lru ≠ [] := by
      intro hnil
      have := h.size
      rw [hnil, hfree] at this
      cases this
    have hlast : s.lru = s.lru.dropLast ++ [s.lru.getLast hne] :=
      (dropLast_append_getLast hne).symm
    set i := s.lru.getLast hne with hi
    have himem : i ∈ s.lru := getLast_mem hne
    dsimp only
    rw [getLast?_eq_getLast_of_ne_nil hne]
    dsimp only
    by_cases hd : (s.pool i).dirty = true
    · obtain ⟨hw, hsame⟩ := h.dentWrite himem
      obtain ⟨hc, hs, hfresh⟩ := hw.evict hlast (update_self _ _ _)
      rw [if_pos hd]
      exact ⟨hc, hsame.trans hs, hfresh⟩
    · obtain ⟨hc, hs, hfresh⟩ := h.evict hlast (h.clean i himem (by simpa using hd))
      rw [if_neg hd]
      exact ⟨hc, hs, hfresh⟩

/-- A page without a frame is still without one. -/
theorem takePoolSlot_pageSlots (h : s.pageSlots n = none) :
    s.takePoolSlot.2.pageSlots n = none := by
  unfold takePoolSlot
  cases s.free with
  | cons i rest => exact h
  | nil =>
    cases s.lru.getLast? with
    | none => exact h
    | some i =>
      dsimp only
      by_cases hn : n = (s.pool i).offset
      · rw [hn, update_self]
      · rw [update_of_ne hn]
        exact h

/-- A frame is given to a page that has none, with what is on flash or marked. -/
theorem Coherent.place (h : Coherent k s)
    (hi : i ∉ s.lru ++ s.free) (hn : n < s.allocPos) (hslot : s.pageSlots n = none)
    (hflash : dirty = false → s.flash n = page) : Coherent (k + 1) (s.place i n dirty page) := by
  have hin : n < s.numPageSlots := lt_of_lt_of_le hn h.within
  have hne : ∀ j ∈ s.lru, j ≠ i := by
    rintro j hj rfl
    exact hi (mem_append_left _ hj)
  have hoff : ∀ j ∈ s.lru, (s.pool j).offset ≠ n := by
    intro j hj ho
    have hj' := (h.frame j hj).2
    rw [ho, hslot] at hj'
    cases hj'
  refine ⟨h.alloc, h.within, fun m j hm hj => ?_, fun j hj => ?_, fun j hj hd => ?_, ?_, ?_, h.uses⟩
  · simp only [CachedRegion.place] at hj ⊢
    by_cases hmn : m = n
    · subst hmn
      rw [update_self] at hj
      obtain rfl := Option.some.inj hj
      exact ⟨mem_cons_self, by simp⟩
    · rw [update_of_ne hmn] at hj
      obtain ⟨hl, ho⟩ := h.slot m j hm hj
      exact ⟨mem_cons_of_mem _ hl, by rw [update_of_ne (hne j hl)]; exact ho⟩
  · simp only [CachedRegion.place]
    rcases mem_cons.mp hj with rfl | hj
    · rw [update_self]
      exact ⟨hn, update_self _ _ _⟩
    · obtain ⟨ho, hs⟩ := h.frame j hj
      rw [update_of_ne (hne j hj)]
      exact ⟨ho, (update_of_ne (hoff j hj) _ _).trans hs⟩
  · simp only [CachedRegion.place] at hd ⊢
    rcases mem_cons.mp hj with rfl | hj
    · rw [update_self] at hd ⊢
      exact hflash hd
    · rw [update_of_ne (hne j hj)] at hd ⊢
      exact h.clean j hj hd
  · exact nodup_cons.mpr ⟨hi, h.nodup⟩
  · exact congrArg (· + 1) h.size

theorem readPage_place (h : Coherent k s) {i n : Nat} (dirty : Bool) (page : DirPage)
    (hi : i ∉ s.lru ++ s.free) {m : Nat} (hm : m < s.numPageSlots) :
    (s.place i n dirty page).readPage m = if m = n then page else s.readPage m := by
  unfold readPage CachedRegion.place
  dsimp only
  by_cases hmn : m = n
  · subst hmn
    rw [if_pos rfl, update_self]
    simp
  · rw [if_neg hmn, update_of_ne hmn]
    cases hj : s.pageSlots m with
    | none => rfl
    | some j =>
      have hji : j ≠ i := by
        rintro rfl
        exact hi (mem_append_left _ (h.slot m j hm hj).1)
      simp [update_of_ne hji]

/-- **`LoadPageSlot`** gives the page's frame and changes no stored page. -/
theorem Coherent.load (h : Coherent (k + 1) s) (hn : n < s.allocPos) :
    Coherent (k + 1) (s.loadPageSlot n).2 ∧ SameStored s (s.loadPageSlot n).2 ∧
      (s.loadPageSlot n).1 ∈ (s.loadPageSlot n).2.lru ∧
      ((s.loadPageSlot n).2.pool (s.loadPageSlot n).1).offset = n := by
  have hin : n < s.numPageSlots := lt_of_lt_of_le hn h.within
  have hu := h.use .indexed hin
  unfold loadPageSlot loadWith
  cases hslot : s.pageSlots n with
  | some i =>
    obtain ⟨hi, ho⟩ := h.slot n i hin hslot
    exact ⟨hu.moveToFront hi, ⟨rfl, rfl, rfl, fun _ _ => rfl⟩, mem_cons_self, ho⟩
  | none =>
    obtain ⟨hc, hsame, hfresh⟩ := hu.take
    have hsame' : SameStored s (s.use .indexed n).takePoolSlot.2 :=
      ⟨hsame.numPageSlots, hsame.allocPos, hsame.dirIndex, hsame.readPage⟩
    have hslot' : (s.use .indexed n).takePoolSlot.2.pageSlots n = none :=
      takePoolSlot_pageSlots hslot
    dsimp only
    refine ⟨hc.place hfresh (by rw [hsame'.allocPos]; exact hn) hslot' fun _ => rfl, ?_, ?_, ?_⟩
    · refine ⟨hsame'.numPageSlots, hsame'.allocPos, hsame'.dirIndex, fun m hm => ?_⟩
      rw [readPage_place hc _ _ hfresh (hsame'.numPageSlots.symm ▸ hm)]
      split
      · rename_i hmn
        subst hmn
        rw [← hsame'.readPage m hm, readPage, hslot']
      · exact hsame'.readPage m hm
    · exact mem_cons_self
    · simp [CachedRegion.place]

/-! ### One record -/

/-- What the new page's frame ends with, once a record or the mark has been written to it: as if the
frame had been given out with that page. -/
theorem place_setPage (i n : Nat) (dirty dirty' : Bool) (page page' : DirPage) :
    (s.place i n dirty page).setPage i dirty' page' = s.place i n dirty' page' := by
  unfold CachedRegion.place setPage
  simp [update_idem]

/-- A page that was never handed out has no frame. -/
theorem Coherent.unused (h : Coherent k s) (hroom : s.allocPos < s.numPageSlots) :
    s.pageSlots s.allocPos = none := by
  cases hslot : s.pageSlots s.allocPos with
  | none => rfl
  | some i =>
    obtain ⟨hi, ho⟩ := h.slot _ i hroom hslot
    exact absurd (h.frame i hi).1 (by omega)

/-- The region after `AllocPage`. -/
theorem Coherent.allocPage (h : Coherent k s) (hroom : s.allocPos < s.numPageSlots) :
    Coherent k s.allocPage.2 := by
  have hu := h.use .handedOut hroom
  refine ⟨Nat.succ_pos _, hroom, h.slot, fun i hi => ?_, h.clean, h.nodup, h.size, hu.uses⟩
  obtain ⟨ho, hs⟩ := h.frame i hi
  exact ⟨Nat.lt_succ_of_lt ho, hs⟩

theorem Coherent.setIndex (h : Coherent k s) (dir n : Nat) : Coherent k (s.setIndex dir n) :=
  ⟨h.alloc, h.within, h.slot, h.frame, h.clean, h.nodup, h.size, h.uses⟩

/-- What is stored after one more page. -/
theorem stored_append {s' : CachedRegion} (h : Coherent k s) (hroom : s.allocPos < s.numPageSlots)
    {page : DirPage} (hslots : s'.numPageSlots = s.numPageSlots)
    (halloc : s'.allocPos = s.allocPos + 1) (hread : ∀ n, n < s.numPageSlots →
      s'.readPage n = if n = s.allocPos then page else s.readPage n) :
    s'.stored = ⟨s.numPageSlots, s.stored.pages ++ [page], s'.dirIndex⟩ := by
  have hpos := h.alloc
  unfold stored
  rw [hslots, halloc, List.range_succ, map_append, map_singleton,
    if_neg (by omega : s.allocPos ≠ 0), hread _ hroom, if_pos rfl]
  congr 2
  refine map_congr_left fun n hn => ?_
  rw [mem_range] at hn
  rw [hread n (by omega), if_neg (by omega : n ≠ s.allocPos)]

/-- **A new head page** gets a frame `i`, in a region `s₁` that stores what was stored before. The
frame is not yet coherent: the caller marks it, with a record or without. -/
theorem Coherent.freshHead (h : Coherent (k + 1) s) (hroom : s.allocPos < s.numPageSlots)
    (dir next : Nat) : ∃ (i : Nat) (s₁ : CachedRegion),
      s.freshHead dir next =
        (s.allocPos, i, (s₁.place i s.allocPos false ⟨dir, next, []⟩).setIndex dir s.allocPos) ∧
      ∀ page, Coherent (k + 1) ((s₁.place i s.allocPos true page).setIndex dir s.allocPos) ∧
        ((s₁.place i s.allocPos true page).setIndex dir s.allocPos).stored =
          ⟨s.numPageSlots, s.stored.pages ++ [page],
            update s.dirIndex dir (some s.allocPos)⟩ := by
  have hnew := h.unused hroom
  have hu := (h.allocPage hroom).use .indexed hroom
  obtain ⟨hc, hsame, hfresh⟩ := hu.take
  set s₁ := (s.allocPage.2.use .indexed s.allocPos).takePoolSlot.2 with hs₁
  set i := (s.allocPage.2.use .indexed s.allocPos).takePoolSlot.1 with hi
  have hslot : s₁.pageSlots s.allocPos = none := takePoolSlot_pageSlots hnew
  have halloc : s₁.allocPos = s.allocPos + 1 := hsame.allocPos
  have hslots : s₁.numPageSlots = s.numPageSlots := hsame.numPageSlots
  have hdir : s₁.dirIndex = s.dirIndex := hsame.dirIndex
  have hload : s.allocPage.2.loadPageSlotForFresh s.allocPos =
      (i, s₁.place i s.allocPos false (s₁.pool i).page) := by
    unfold loadPageSlotForFresh loadWith
    have hnew' : s.allocPage.2.pageSlots s.allocPos = none := hnew
    rw [hnew']
  refine ⟨i, s₁, ?_, fun page => ⟨?_, ?_⟩⟩
  · unfold CachedRegion.freshHead
    dsimp only
    rw [show s.allocPage.1 = s.allocPos from rfl, hload]
    dsimp only
    rw [place_setPage]
    simp [CachedRegion.place]
  · exact (hc.place hfresh (by omega) hslot fun hd => by cases hd).setIndex dir s.allocPos
  · rw [@stored_append _ _ ((s₁.place i s.allocPos true page).setIndex dir s.allocPos) h hroom page
      hslots halloc fun n hn => ?_]
    · show (⟨_, _, update s₁.dirIndex dir (some s.allocPos)⟩ : SSDDentRegion) = _
      rw [hdir]
    · have hplace := @readPage_place k s₁ hc i s.allocPos true page hfresh n (hslots.symm ▸ hn)
      rw [hsame.readPage n hn] at hplace
      exact hplace

end Load

end CachedRegion

end StaxFS.Dent
