import StaxFS.Types

/-!
# The dent region

`SSDDentRegion` of `server/dent_region.h`: append-only 4 KiB pages on flash, chained per
directory, the newest page first. A page is modelled by its records in order; its used bytes are
the sum of their sizes. The page cache in front of the flash only defers writes and is left out:
a page here is what `ReadPage` returns. Page numbers are byte offsets divided by the page size;
page 0 is reserved as the end of a chain, so an offset of 0 is the number 0.

`AllocPage` reports an error past the capacity but hands out the offset all the same, and
`page_slots_` is then indexed out of bounds. The operations return `none` there; `HasRoom` says, by the
sizes of the records, when there are pages enough.

Results:
* `SSDDentRegion.WF`: every directory's index entry starts a chain of pages of that directory
  with falling page numbers; kept by `appendEntries`.
* `mem_readDirLatestFlat`, `appendEntries_spec`: a listing returns exactly the stored events
  of its directory up to the cutoff, and `AppendEntries` adds exactly its batch to exactly its
  directory.
* `Holds.read`, `appendEntries_holds`: the same with the number of times each event was appended.
* `appendEntries_some`: a batch that has room is stored, and takes the pages that were counted.
-/

namespace StaxFS.Dent

open List

/-- `DirPage::kDataBytes`. -/
def kDataBytes : Nat := 4096 - 22

/-- `record_size`: header, name, NUL. -/
def recordSize (e : DentEntry) : Nat := 20 + e.name.length + 1

/-- `DirPage`, with `data_` as the list of its records. -/
structure DirPage where
  dirId : Nat
  /-- number of the next page of the chain, 0 at its end -/
  nextPage : Nat
  records : List DentEntry
deriving DecidableEq, Repr

namespace DirPage

/-- `used_bytes_`. -/
def usedBytes (p : DirPage) : Nat := (p.records.map recordSize).sum

/-- `DirPage::HasSpace`. -/
def hasSpace (p : DirPage) (size : Nat) : Bool := p.usedBytes + size ≤ kDataBytes

/-- Write a record behind the last one. -/
def push (p : DirPage) (e : DentEntry) : DirPage := { p with records := p.records ++ [e] }

end DirPage

/-- `SSDDentRegion`. -/
structure SSDDentRegion where
  /-- `num_page_slots_` -/
  numPageSlots : Nat
  /-- the pages handed out so far, by page number; number 0 is reserved -/
  pages : List DirPage
  /-- `dir_index_` -/
  dirIndex : Nat → Option Nat

namespace SSDDentRegion

/-- `Init`. -/
def init (numPageSlots : Nat) : SSDDentRegion := ⟨numPageSlots, [⟨0, 0, []⟩], fun _ => none⟩

/-- `AllocPage` and the zeroing of the page by its caller, for directory `dir` in front of page
`next`; the new page becomes the head of the directory's chain. -/
def freshHead (r : SSDDentRegion) (dir next : Nat) : Option (Nat × SSDDentRegion) :=
  if r.pages.length < r.numPageSlots then
    some (r.pages.length, { r with
      pages := r.pages ++ [⟨dir, next, []⟩]
      dirIndex := Function.update r.dirIndex dir (some r.pages.length) })
  else none

/-- `GetOrCreateHeadPage`. -/
def getOrCreateHeadPage (r : SSDDentRegion) (dir : Nat) : Option (Nat × SSDDentRegion) :=
  match r.dirIndex dir with
  | some off => some (off, r)
  | none => r.freshHead dir 0

/-- Write a record at the end of page `off`. -/
def pushRecord (r : SSDDentRegion) (off : Nat) (e : DentEntry) : SSDDentRegion :=
  { r with pages := r.pages.modify off (·.push e) }

/-- The loop of `AppendEntries`, at page `off`. -/
def appendLoop (dir : Nat) : List DentEntry → Nat → SSDDentRegion → Option SSDDentRegion
  | [], _, r => some r
  | e :: es, off, r =>
    match r.pages[off]? with
    | none => none
    | some page =>
      if page.hasSpace (recordSize e) then appendLoop dir es off (r.pushRecord off e)
      else
        match r.freshHead dir off with
        | none => none
        | some (off', r') => appendLoop dir es off' (r'.pushRecord off' e)

/-- `AppendEntries`. -/
def appendEntries (r : SSDDentRegion) (dir : Nat) (es : List DentEntry) : Option SSDDentRegion :=
  if es.isEmpty then some r
  else
    match r.getOrCreateHeadPage dir with
    | none => none
    | some (off, r') => appendLoop dir es off r'

/-- The pages that a batch takes behind a head page with `used` bytes of records. -/
def pagesTaken : Nat → List DentEntry → Nat
  | _, [] => 0
  | used, e :: es =>
    if used + recordSize e ≤ kDataBytes then pagesTaken (used + recordSize e) es
    else pagesTaken (recordSize e) es + 1

/-- The pages that a batch takes of the region. -/
def newPages (r : SSDDentRegion) (dir : Nat) (es : List DentEntry) : Nat :=
  if es.isEmpty then 0
  else
    match r.dirIndex dir with
    | none => pagesTaken 0 es + 1
    | some off => pagesTaken (r.pages[off]?.elim 0 DirPage.usedBytes) es

/-- The pages that a batch takes are left. -/
def HasRoom (r : SSDDentRegion) (dir : Nat) (es : List DentEntry) : Prop :=
  r.newPages dir es = 0 ∨ r.pages.length + r.newPages dir es ≤ r.numPageSlots

instance (r : SSDDentRegion) (dir : Nat) (es : List DentEntry) : Decidable (r.HasRoom dir es) :=
  inferInstanceAs (Decidable (_ ∨ _))

/-- The record loop of `ReadDirLatestFlat` on one page: byte position `pos`, `seen` records. -/
def readRecords (used count dir cutoff : Nat) : List DentEntry → Nat → Nat → List DentView
  | [], _, _ => []
  | e :: es, pos, seen =>
    if pos + 20 ≤ used ∧ seen < count then
      if recordSize e < 20 ∨ used < pos + recordSize e then []
      else
        (if e.version ≤ cutoff then [e.view dir] else []) ++
          readRecords used count dir cutoff es (pos + recordSize e) (seen + 1)
    else []

/-- The page loop of `ReadDirLatestFlat`. -/
def readPages (r : SSDDentRegion) (dir cutoff : Nat) : Nat → Nat → List DentView
  | 0, _ => []
  | fuel + 1, off =>
    if off = 0 then []
    else
      match r.pages[off]? with
      | none => []
      | some page =>
        readRecords page.usedBytes page.records.length dir cutoff page.records 0 0 ++
          readPages r dir cutoff fuel page.nextPage

/-- `ReadDirLatestFlat`. A chain is no longer than the number of pages. -/
def readDirLatestFlat (r : SSDDentRegion) (dir cutoff : Nat) : List DentView :=
  match r.dirIndex dir with
  | none => []
  | some off => r.readPages dir cutoff r.pages.length off

/-! ### Chains -/

/-- `Chain pages dir off es`: the chain from page `off` on has pages of `dir` only, with falling
numbers, and holds the records `es`. -/
inductive Chain (pages : List DirPage) (dir : Nat) : Nat → List DentEntry → Prop
  | nil : Chain pages dir 0 []
  | cons {off : Nat} {page : DirPage} {es : List DentEntry} :
      pages[off]? = some page → page.dirId = dir → page.nextPage < off →
      Chain pages dir page.nextPage es → Chain pages dir off (page.records ++ es)

/-- Every index entry starts a chain of its directory. -/
def WF (r : SSDDentRegion) : Prop :=
  0 < r.pages.length ∧
    ∀ dir off, r.dirIndex dir = some off → 0 < off ∧ ∃ es, Chain r.pages dir off es

/-- The event `e` is stored for directory `dir`. -/
def Stored (r : SSDDentRegion) (dir : Nat) (e : DentEntry) : Prop :=
  ∃ off es, r.dirIndex dir = some off ∧ Chain r.pages dir off es ∧ e ∈ es

variable {pages : List DirPage} {dir off : Nat} {es : List DentEntry} {r r' : SSDDentRegion}
  {es' : List DentEntry} {cutoff next d : Nat}

theorem Chain.unique (h : Chain pages dir off es) (h' : Chain pages dir off es') : es = es' := by
  induction h generalizing es' with
  | nil =>
    cases h' with
    | nil => rfl
    | cons _ _ hlt _ => omega
  | cons hp hd hlt _ ih =>
    cases h' with
    | nil => omega
    | cons hp' _ _ hc' =>
      rw [hp] at hp'
      cases hp'
      rw [ih hc']

/-- A chain only depends on the pages of its directory up to its head. -/
theorem Chain.congr {pages' : List DirPage} (h : Chain pages dir off es)
    (hag : ∀ k page, k ≤ off → pages[k]? = some page → page.dirId = dir →
      pages'[k]? = some page) : Chain pages' dir off es := by
  induction h with
  | nil => exact .nil
  | cons hp hd hlt _ ih =>
    refine .cons (hag _ _ le_rfl hp hd) hd hlt (ih ?_)
    intro k page hk
    exact hag k page (by omega)

theorem Chain.lt_length (h : Chain pages dir off es) (hoff : 0 < off) : off < pages.length := by
  cases h with
  | nil => omega
  | cons hp _ _ _ => exact (List.getElem?_eq_some_iff.mp hp).1

/-! ### Reading -/

/-- On an intact page the loop guards never stop it before the last record. -/
theorem readRecords_eq (dir cutoff used count : Nat) :
    ∀ (es : List DentEntry) (pos seen : Nat), used = pos + (es.map recordSize).sum →
      count = seen + es.length →
      readRecords used count dir cutoff es pos seen =
        (es.filter fun e => decide (e.version ≤ cutoff)).map (·.view dir)
  | [], _, _, _, _ => rfl
  | e :: es, pos, seen, hused, hcount => by
    have hsize : 20 ≤ recordSize e := by unfold recordSize; omega
    simp only [map_cons, sum_cons, length_cons] at hused hcount
    unfold readRecords
    rw [if_pos (by omega), if_neg (by omega),
      readRecords_eq dir cutoff used count es (pos + recordSize e) (seen + 1) (by omega) (by omega)]
    by_cases hv : e.version ≤ cutoff <;> simp [hv]

theorem readPages_chain (h : Chain r.pages dir off es) :
    ∀ fuel, off ≤ fuel → r.readPages dir cutoff (fuel + 1) off =
      (es.filter fun e => decide (e.version ≤ cutoff)).map (·.view dir) := by
  induction h with
  | nil => intro fuel _; simp [readPages]
  | @cons off page es hp hd hlt _ ih =>
    intro fuel hfuel
    obtain ⟨fuel, rfl⟩ : ∃ k, fuel = k + 1 := ⟨fuel - 1, by omega⟩
    unfold readPages
    rw [if_neg (by omega), hp]
    simp only
    rw [ih fuel (by omega), readRecords_eq dir cutoff _ _ page.records 0 0 (by
      simp [DirPage.usedBytes]) (by simp), filter_append, map_append]

/-! ### What a directory holds -/

/-- The chain of directory `dir` holds the events `es`, newest page first. -/
def Holds (r : SSDDentRegion) (dir : Nat) (es : List DentEntry) : Prop :=
  (r.dirIndex dir = none ∧ es = []) ∨ ∃ off, r.dirIndex dir = some off ∧ Chain r.pages dir off es

theorem WF.holds (hr : r.WF) (dir : Nat) : ∃ es, r.Holds dir es := by
  cases hidx : r.dirIndex dir with
  | none => exact ⟨[], .inl ⟨hidx, rfl⟩⟩
  | some off =>
    obtain ⟨-, es, hc⟩ := hr.2 dir off hidx
    exact ⟨es, .inr ⟨off, hidx, hc⟩⟩

theorem Holds.unique (h : r.Holds dir es) (h' : r.Holds dir es') : es = es' := by
  rcases h with ⟨hnone, rfl⟩ | ⟨off, hoff, hc⟩
  · rcases h' with ⟨-, rfl⟩ | ⟨off, hoff, -⟩
    · rfl
    · rw [hnone] at hoff
      cases hoff
  · rcases h' with ⟨hnone, -⟩ | ⟨off', hoff', hc'⟩
    · rw [hnone] at hoff
      cases hoff
    · obtain rfl : off = off' := Option.some.inj (hoff.symm.trans hoff')
      exact hc.unique hc'

theorem Holds.stored_iff (h : r.Holds dir es) {e : DentEntry} : r.Stored dir e ↔ e ∈ es := by
  constructor
  · rintro ⟨off, es', hoff, hc, he⟩
    exact h.unique (.inr ⟨off, hoff, hc⟩) ▸ he
  · intro he
    rcases h with ⟨-, rfl⟩ | ⟨off, hoff, hc⟩
    · cases he
    · exact ⟨off, es, hoff, hc, he⟩

/-- A change that keeps a directory's index entry and the pages of its chain keeps what it holds. -/
theorem Holds.congr (h : r.Holds dir es) (hidx : r'.dirIndex dir = r.dirIndex dir)
    (hag : ∀ (k : Nat) (page : DirPage), r.pages[k]? = some page → page.dirId = dir →
      r'.pages[k]? = some page) : r'.Holds dir es := by
  rcases h with ⟨hnone, rfl⟩ | ⟨off, hoff, hc⟩
  · exact .inl ⟨hidx.trans hnone, rfl⟩
  · exact .inr ⟨off, hidx.trans hoff, hc.congr fun k page _ => hag k page⟩

/-- **A listing returns what the directory holds**, up to the cutoff. -/
theorem Holds.read (h : r.Holds dir es) (hr : r.WF) (cutoff : Nat) :
    r.readDirLatestFlat dir cutoff =
      (es.filter fun e => decide (e.version ≤ cutoff)).map (·.view dir) := by
  unfold readDirLatestFlat
  rcases h with ⟨hnone, rfl⟩ | ⟨off, hoff, hc⟩
  · rw [hnone]
    rfl
  · rw [hoff]
    have hlt := hc.lt_length (hr.2 dir off hoff).1
    obtain ⟨fuel, hfuel⟩ : ∃ k, r.pages.length = k + 1 := ⟨r.pages.length - 1, by omega⟩
    dsimp only
    rw [hfuel, readPages_chain hc fuel (by omega)]

/-- **A listing returns exactly the stored events of its directory up to the cutoff.** -/
theorem mem_readDirLatestFlat (hr : r.WF) {v : DentView} : v ∈ r.readDirLatestFlat dir cutoff ↔
      ∃ e, r.Stored dir e ∧ e.version ≤ cutoff ∧ v = e.view dir := by
  obtain ⟨es, hes⟩ := hr.holds dir
  rw [hes.read hr]
  simp only [hes.stored_iff, List.mem_map, mem_filter, decide_eq_true_eq]
  constructor
  · rintro ⟨e, ⟨he, hv⟩, rfl⟩
    exact ⟨e, he, hv, rfl⟩
  · rintro ⟨e, he, hv, rfl⟩
    exact ⟨e, ⟨he, hv⟩, rfl⟩

/-! ### Appending -/

theorem wf_init (n : Nat) : (init n).WF :=
  ⟨Nat.one_pos, fun dir off h => by simp [init] at h⟩

/-- A change after which every directory still has a chain keeps the region well formed. -/
theorem WF.of_holds (hr : r.WF) (hlen : 0 < r'.pages.length)
    (hpos : ∀ d off, r'.dirIndex d = some off → 0 < off)
    (h : ∀ d es, r.Holds d es → ∃ es', r'.Holds d es') : r'.WF := by
  refine ⟨hlen, fun d off hd => ⟨hpos d off hd, ?_⟩⟩
  obtain ⟨es, hes⟩ := hr.holds d
  obtain ⟨es', ⟨hnone, -⟩ | ⟨off', hoff', hc⟩⟩ := h d es hes
  · rw [hd] at hnone
    cases hnone
  · obtain rfl : off' = off := Option.some.inj (hoff'.symm.trans hd)
    exact ⟨es', hc⟩

/-- An empty page in front of a directory's head changes nothing that is held. -/
theorem freshHead_holds (hr : r.WF)
    (hnext : r.dirIndex dir = some next ∨ r.dirIndex dir = none ∧ next = 0)
    (h : r.freshHead dir next = some (off, r')) (hd : r.Holds d es) : r'.Holds d es := by
  unfold freshHead at h
  split at h
  · cases h
    have hold : ∀ (k : Nat) (page : DirPage), r.pages[k]? = some page →
        (r.pages ++ [(⟨dir, next, []⟩ : DirPage)])[k]? = some page := by
      intro k page hk
      rw [getElem?_append_left (List.getElem?_eq_some_iff.mp hk).1]
      exact hk
    by_cases hdd : d = dir
    · subst hdd
      obtain ⟨hc, hlt⟩ : Chain r.pages d next es ∧ next < r.pages.length := by
        rcases hd with ⟨hnone, rfl⟩ | ⟨off, hoff, hc⟩
        · rcases hnext with hn | ⟨-, rfl⟩
          · exact absurd (hn.symm.trans hnone) (by simp)
          · exact ⟨.nil, hr.1⟩
        · rcases hnext with hn | ⟨hn, -⟩
          · obtain rfl : off = next := Option.some.inj (hoff.symm.trans hn)
            exact ⟨hc, hc.lt_length (hr.2 d off hoff).1⟩
          · exact absurd (hn.symm.trans hoff) (by simp)
      have hnew : (r.pages ++ [(⟨d, next, []⟩ : DirPage)])[r.pages.length]? =
          some ⟨d, next, []⟩ := by simp
      exact .inr ⟨r.pages.length, by simp,
        .cons hnew rfl hlt (hc.congr fun k page _ hk _ => hold k page hk)⟩
    · exact hd.congr (by simp [Function.update_of_ne hdd]) fun k page hk _ => hold k page hk
  · cases h

theorem freshHead_spec (hr : r.WF)
    (hnext : r.dirIndex dir = some next ∨ r.dirIndex dir = none ∧ next = 0)
    (h : r.freshHead dir next = some (off, r')) :
    r'.WF ∧ r'.dirIndex dir = some off ∧ ∀ d es, r.Holds d es → r'.Holds d es := by
  have hholds : ∀ d es, r.Holds d es → r'.Holds d es := fun _ _ => freshHead_holds hr hnext h
  unfold freshHead at h
  split at h
  · cases h
    refine ⟨hr.of_holds (by simp) (fun d off hd => ?_) fun d es hd => ⟨es, hholds d es hd⟩,
      by simp, hholds⟩
    by_cases hdd : d = dir
    · subst hdd
      simp only [Function.update_self, Option.some.injEq] at hd
      exact hd ▸ hr.1
    · simp only [Function.update_of_ne hdd] at hd
      exact (hr.2 d off hd).1
  · cases h

/-- A record at the end of a directory's head page is one more event of that directory. -/
theorem pushRecord_holds (e : DentEntry) (hr : r.WF) (hidx : r.dirIndex dir = some off)
    (hd : r.Holds d es) :
    ∃ es', (r.pushRecord off e).Holds d es' ∧ es'.Perm (es ++ if d = dir then [e] else []) := by
  obtain ⟨hpos, es₀, hc₀⟩ := hr.2 dir off hidx
  cases hc₀ with
  | nil => omega
  | @cons _ page rest hp hpd hlt hrest =>
    have hother : ∀ (k : Nat) (q : DirPage), k ≠ off → r.pages[k]? = some q →
        (r.pushRecord off e).pages[k]? = some q := by
      intro k q hk hq
      rw [pushRecord, getElem?_modify, hq]
      simp [Ne.symm hk]
    by_cases hdd : d = dir
    · subst hdd
      have hes : es = page.records ++ rest := hd.unique (.inr ⟨off, hidx, .cons hp hpd hlt hrest⟩)
      refine ⟨(page.push e).records ++ rest, .inr ⟨off, hidx, .cons ?_ hpd hlt ?_⟩, ?_⟩
      · rw [pushRecord, getElem?_modify, hp]
        simp
      · exact hrest.congr fun k q hk hq _ => hother k q (by omega) hq
      · rw [if_pos rfl, hes, DirPage.push, append_assoc, append_assoc]
        exact List.Perm.append_left _ perm_append_comm
    · refine ⟨es, hd.congr rfl fun k q hq hqd => hother k q ?_ hq, by simp [hdd]⟩
      rintro rfl
      rw [hp] at hq
      cases hq
      exact hdd (hqd.symm.trans hpd)

theorem pushRecord_spec (e : DentEntry) (hr : r.WF) (hidx : r.dirIndex dir = some off) :
    (r.pushRecord off e).WF ∧ (r.pushRecord off e).dirIndex dir = some off := by
  refine ⟨hr.of_holds ?_ (fun d off hd => (hr.2 d off hd).1) fun d es hd => ?_, hidx⟩
  · simpa [pushRecord] using hr.1
  · obtain ⟨es', hes', -⟩ := pushRecord_holds e hr hidx hd
    exact ⟨es', hes'⟩

theorem appendLoop_spec :
    ∀ {es : List DentEntry} {off : Nat} {r r' : SSDDentRegion}, r.WF → r.dirIndex dir = some off →
      appendLoop dir es off r = some r' →
      r'.WF ∧ ∀ d held, r.Holds d held →
        ∃ held', r'.Holds d held' ∧ held'.Perm (held ++ if d = dir then es else [])
  | [], off, r, r', hr, _, h => by
    simp only [appendLoop, Option.some.injEq] at h
    subst h
    exact ⟨hr, fun d held hd => ⟨held, hd, by simp⟩⟩
  | e :: es, off, r, r', hr, hidx, h => by
    -- the record, and the rest of the batch behind it
    have hcons : ∀ {off : Nat} {r : SSDDentRegion}, r.WF → r.dirIndex dir = some off →
        appendLoop dir es off (r.pushRecord off e) = some r' →
        r'.WF ∧ ∀ d held, r.Holds d held →
          ∃ held', r'.Holds d held' ∧ held'.Perm (held ++ if d = dir then e :: es else []) := by
      intro off r hr hidx h
      obtain ⟨hwf, hidx'⟩ := pushRecord_spec e hr hidx
      obtain ⟨hwf', hrest⟩ := appendLoop_spec hwf hidx' h
      refine ⟨hwf', fun d held hd => ?_⟩
      obtain ⟨es₁, hd₁, hp₁⟩ := pushRecord_holds e hr hidx hd
      obtain ⟨es₂, hd₂, hp₂⟩ := hrest d es₁ hd₁
      refine ⟨es₂, hd₂, hp₂.trans ((hp₁.append_right _).trans ?_)⟩
      rw [append_assoc]
      by_cases hdd : d = dir <;> simp [hdd]
    unfold appendLoop at h
    split at h
    · cases h
    · split at h
      · exact hcons hr hidx h
      · split at h
        · cases h
        · rename_i off' r₁ hfresh
          obtain ⟨hwf₁, hidx₁, hst₁⟩ := freshHead_spec hr (.inl hidx) hfresh
          obtain ⟨hwf, hst⟩ := hcons hwf₁ hidx₁ h
          exact ⟨hwf, fun d held hd => hst d held (hst₁ d held hd)⟩

/-- **A batch adds its events to its directory**, each as often as it is in the batch. -/
theorem appendEntries_holds (hr : r.WF) (h : r.appendEntries dir es = some r') :
    r'.WF ∧ ∀ d held, r.Holds d held →
      ∃ held', r'.Holds d held' ∧ held'.Perm (held ++ if d = dir then es else []) := by
  unfold appendEntries at h
  split at h
  · rename_i hes
    cases h
    rw [List.isEmpty_iff] at hes
    exact ⟨hr, fun d held hd => ⟨held, hd, by simp [hes]⟩⟩
  · split at h
    · cases h
    · rename_i off r₁ hhead
      unfold getOrCreateHeadPage at hhead
      split at hhead
      · rename_i hidx
        cases hhead
        exact appendLoop_spec hr hidx h
      · rename_i hidx
        obtain ⟨hwf₁, hidx₁, hst₁⟩ := freshHead_spec hr (.inr ⟨hidx, rfl⟩) hhead
        obtain ⟨hwf, hst⟩ := appendLoop_spec hwf₁ hidx₁ h
        exact ⟨hwf, fun d held hd => hst d held (hst₁ d held hd)⟩

/-- **`AppendEntries` adds exactly its batch, to exactly its directory.** -/
theorem appendEntries_spec (hr : r.WF) (h : r.appendEntries dir es = some r') :
    r'.WF ∧ ∀ d x, r'.Stored d x ↔ r.Stored d x ∨ d = dir ∧ x ∈ es := by
  obtain ⟨hwf, hheld⟩ := appendEntries_holds hr h
  refine ⟨hwf, fun d x => ?_⟩
  obtain ⟨held, hd⟩ := hr.holds d
  obtain ⟨held', hd', hperm⟩ := hheld d held hd
  rw [hd'.stored_iff, hd.stored_iff, hperm.mem_iff, mem_append]
  by_cases hdd : d = dir <;> simp [hdd]

/-! ### Running out of pages -/

theorem pagesTaken_le (used : Nat) (es : List DentEntry) : pagesTaken used es ≤ es.length := by
  induction es generalizing used with
  | nil => exact le_rfl
  | cons e es ih =>
    unfold pagesTaken
    rw [length_cons]
    split
    · exact (ih _).trans (Nat.le_succ _)
    · exact Nat.succ_le_succ (ih _)

theorem newPages_le (r : SSDDentRegion) (dir : Nat) (es : List DentEntry) :
    r.newPages dir es ≤ es.length + 1 := by
  unfold newPages
  split
  · exact Nat.zero_le _
  · split
    · exact Nat.succ_le_succ (pagesTaken_le 0 es)
    · exact (pagesTaken_le _ es).trans (Nat.le_succ _)

theorem usedBytes_push (page : DirPage) (e : DentEntry) :
    (page.push e).usedBytes = page.usedBytes + recordSize e := by
  simp [DirPage.usedBytes, DirPage.push]

/-- The loop at page `off`, which has room for its records or a new page for those it has not. -/
theorem appendLoop_some : ∀ {es : List DentEntry} {off : Nat} {r : SSDDentRegion} {page : DirPage},
      r.pages[off]? = some page →
      pagesTaken page.usedBytes es = 0 ∨
        r.pages.length + pagesTaken page.usedBytes es ≤ r.numPageSlots →
      ∃ r', appendLoop dir es off r = some r' ∧
        r'.pages.length = r.pages.length + pagesTaken page.usedBytes es
  | [], off, r, page, _, _ => ⟨r, rfl, rfl⟩
  | e :: es, off, r, page, hp, hroom => by
    have hpush : ∀ {off : Nat} {r : SSDDentRegion} {page : DirPage}, r.pages[off]? = some page →
        (r.pushRecord off e).pages[off]? = some (page.push e) ∧
          (r.pushRecord off e).pages.length = r.pages.length := by
      intro off r page hp
      simp [pushRecord, hp]
    unfold appendLoop pagesTaken at *
    rw [hp]
    by_cases hspace : page.usedBytes + recordSize e ≤ kDataBytes
    · rw [if_pos hspace] at hroom ⊢
      have hs : page.hasSpace (recordSize e) = true := decide_eq_true hspace
      obtain ⟨hp', hlen⟩ := hpush hp
      rw [← usedBytes_push, ← hlen] at hroom ⊢
      simp only [hs, if_true]
      exact appendLoop_some hp' hroom
    · rw [if_neg hspace] at hroom ⊢
      have hs : page.hasSpace (recordSize e) = false := decide_eq_false hspace
      have hlt : r.pages.length < r.numPageSlots := by omega
      simp only [hs, Bool.false_eq_true, if_false, freshHead, if_pos hlt]
      have hnew : (r.pages ++ [(⟨dir, off, []⟩ : DirPage)])[r.pages.length]? =
          some ⟨dir, off, []⟩ := by simp
      obtain ⟨hp', hlen⟩ := @hpush _ (⟨r.numPageSlots, _, Function.update r.dirIndex dir
        (some r.pages.length)⟩ : SSDDentRegion) _ hnew
      have hused : ((⟨dir, off, []⟩ : DirPage).push e).usedBytes = recordSize e := by
        simp [DirPage.usedBytes, DirPage.push]
      rw [length_append, length_singleton] at hlen
      obtain ⟨r', hr', hlen'⟩ := @appendLoop_some es _ _ _ hp' (by
        rw [hused, hlen]
        exact .inr (by simp only [pushRecord]; omega))
      exact ⟨r', hr', by rw [hlen', hlen, hused]; omega⟩

/-- **A batch that has room is stored**, in as many new pages as were counted. -/
theorem appendEntries_some (hr : r.WF) (h : r.HasRoom dir es) :
    ∃ r', r.appendEntries dir es = some r' ∧ r'.pages.length = r.pages.length + r.newPages dir es := by
  unfold HasRoom newPages at *
  unfold appendEntries
  split at h
  · rename_i hes
    rw [if_pos hes]
    exact ⟨r, rfl, by rw [if_pos hes]; rfl⟩
  · rename_i hes
    rw [if_neg hes, if_neg hes]
    cases hidx : r.dirIndex dir with
    | some off =>
      obtain ⟨hpos, es', hc⟩ := hr.2 dir off hidx
      have hp := getElem?_eq_getElem (hc.lt_length hpos)
      simp only [hidx, hp] at h
      simp only [getOrCreateHeadPage, hidx, hp]
      exact appendLoop_some hp h
    | none =>
      simp only [hidx, Nat.succ_ne_zero, false_or] at h
      have hlt : r.pages.length < r.numPageSlots := by omega
      simp only [getOrCreateHeadPage, hidx, freshHead, if_pos hlt]
      have hnew : (r.pages ++ [(⟨dir, 0, []⟩ : DirPage)])[r.pages.length]? =
          some ⟨dir, 0, []⟩ := by simp
      have hused : (⟨dir, 0, []⟩ : DirPage).usedBytes = 0 := rfl
      obtain ⟨r', hr', hlen⟩ := @appendLoop_some dir es _ (⟨r.numPageSlots, _, Function.update
        r.dirIndex dir (some r.pages.length)⟩ : SSDDentRegion) _ hnew (.inr (by
          rw [hused, length_append, length_singleton]
          show _ ≤ r.numPageSlots
          omega))
      rw [hused, length_append, length_singleton] at hlen
      exact ⟨r', hr', hlen.trans (by omega)⟩

end SSDDentRegion

end StaxFS.Dent
