import StaxFS.Dent.Region

/-!
# Batches of events

A batch leaves the capacity of the dent region as it is, and the same pages as its events do that
are appended one by one.

Results:
* `appendEntries_numPageSlots`: the number of page slots never changes.
* `appendEntries_cons`: a batch is stored as its events are one after the other.
-/

namespace StaxFS.Dent

open List

namespace SSDDentRegion

/-! ### The capacity does not change -/

section Capacity

variable {r r' : SSDDentRegion} {dir off : Nat}

theorem freshHead_numPageSlots {next : Nat} (h : r.freshHead dir next = some (off, r')) :
    r'.numPageSlots = r.numPageSlots := by
  unfold freshHead at h
  split at h
  · cases h
    rfl
  · cases h

theorem getOrCreateHeadPage_numPageSlots (h : r.getOrCreateHeadPage dir = some (off, r')) :
    r'.numPageSlots = r.numPageSlots := by
  unfold getOrCreateHeadPage at h
  split at h
  · cases h
    rfl
  · exact freshHead_numPageSlots h

theorem appendLoop_numPageSlots :
    ∀ {es : List DentEntry} {off : Nat} {r : SSDDentRegion}, appendLoop dir es off r = some r' →
      r'.numPageSlots = r.numPageSlots
  | [], off, r, h => by
    cases h
    rfl
  | e :: es, off, r, h => by
    unfold appendLoop at h
    split at h
    · cases h
    · split at h
      · have hrest := appendLoop_numPageSlots h
        exact hrest
      · split at h
        · cases h
        · rename_i r₁ hfresh
          have hrest := appendLoop_numPageSlots h
          exact hrest.trans (freshHead_numPageSlots hfresh : r₁.numPageSlots = _)

theorem appendEntries_numPageSlots {es : List DentEntry} (h : r.appendEntries dir es = some r') :
    r'.numPageSlots = r.numPageSlots := by
  unfold appendEntries at h
  split at h
  · cases h
    rfl
  · split at h
    · cases h
    · rename_i hhead
      exact (appendLoop_numPageSlots h).trans (getOrCreateHeadPage_numPageSlots hhead)

end Capacity

/-! ### A batch, one event after the other -/

section OneByOne

variable {r : SSDDentRegion} {dir off : Nat}

/-- The head page is opened in a well-formed region. -/
theorem getOrCreateHeadPage_wf {r' : SSDDentRegion} (hr : r.WF)
    (h : r.getOrCreateHeadPage dir = some (off, r')) : r'.WF ∧ r'.dirIndex dir = some off := by
  unfold getOrCreateHeadPage at h
  split at h
  · cases h
    exact ⟨hr, ‹_›⟩
  · obtain ⟨hwf, hidx, -⟩ := freshHead_spec hr (.inr ⟨‹_›, rfl⟩) h
    exact ⟨hwf, hidx⟩

/-- `AppendEntries` on a directory that has a page. -/
theorem appendEntries_of_index (hidx : r.dirIndex dir = some off)
    (es : List DentEntry) : r.appendEntries dir es = appendLoop dir es off r := by
  cases es with
  | nil => rfl
  | cons e es =>
    simp only [appendEntries, isEmpty_cons, Bool.false_eq_true, if_false,
      getOrCreateHeadPage, hidx]

/-- The loop on a head page, cut behind its first record. -/
theorem appendLoop_cons (hr : r.WF)
    (hidx : r.dirIndex dir = some off) (e : DentEntry) (es : List DentEntry) :
    appendLoop dir (e :: es) off r =
      (appendLoop dir [e] off r).bind fun r' => r'.appendEntries dir es := by
  unfold appendLoop
  cases hp : r.pages[off]? with
  | none => rfl
  | some page =>
    by_cases hspace : page.hasSpace (recordSize e) = true
    · simp only [hspace, if_true, appendLoop, Option.bind_some]
      exact (appendEntries_of_index (r := r.pushRecord off e) hidx es).symm
    · simp only [hspace]
      cases hfresh : r.freshHead dir off with
      | none => rfl
      | some f =>
        obtain ⟨off', r'⟩ := f
        obtain ⟨-, hidx', -⟩ := freshHead_spec hr (.inl hidx) hfresh
        simp only [appendLoop]
        exact (appendEntries_of_index (r := r'.pushRecord off' e) hidx' es).symm

/-- **A batch is stored as its events are, one after the other.** -/
theorem appendEntries_cons (hr : r.WF) (e : DentEntry) (es : List DentEntry) :
    r.appendEntries dir (e :: es) =
      (r.appendEntries dir [e]).bind fun r' => r'.appendEntries dir es := by
  have hopen : ∀ l : List DentEntry, l ≠ [] → r.appendEntries dir l =
      (r.getOrCreateHeadPage dir).bind fun p => appendLoop dir l p.1 p.2 := by
    intro l hl
    unfold appendEntries
    rw [if_neg (by simpa using hl)]
    cases r.getOrCreateHeadPage dir with
    | none => rfl
    | some p => rfl
  rw [hopen _ (cons_ne_nil _ _), hopen _ (cons_ne_nil _ _), Option.bind_assoc]
  cases hhead : r.getOrCreateHeadPage dir with
  | none => rfl
  | some p =>
    obtain ⟨off, r₁⟩ := p
    obtain ⟨hwf₁, hidx₁⟩ := getOrCreateHeadPage_wf hr hhead
    exact appendLoop_cons hwf₁ hidx₁ e es

end OneByOne

end SSDDentRegion

end StaxFS.Dent
