import Mathlib

/-!
# The contents of a store of cells

A store has a cell per index, empty or with an entry, and all but finitely many are empty. `Holds f c`
says that `c` is the multiset of its entries. It is a relation, so that it can be carried through
changes of one cell without naming the set of cells in use.

Results:
* `Holds.put`, `Holds.clear`, `Holds.replace`: filling an empty cell adds the entry, emptying a cell
  removes its entry, overwriting a cell exchanges them.
* `Holds.clearAll`: several cells are emptied.
* `Holds.mem_iff`: an entry is in the contents if and only if some cell has it.
* `Holds.unique`, `Holds.sum_eq`, `Holds.card_eq`: the contents as a sum over any set of cells that
  has all entries, and their number.
-/

namespace StaxFS.Foundation

open List

variable {ι α : Type}

/-- The entry of a cell as a multiset. -/
def cellEntry (o : Option α) : Multiset α := o.elim 0 fun e => {e}

@[simp] theorem cellEntry_none : cellEntry (none : Option α) = 0 := rfl

@[simp] theorem cellEntry_some (e : α) : cellEntry (some e) = {e} := rfl

/-- `c` is the multiset of the entries of `f`. -/
def Holds (f : ι → Option α) (c : Multiset α) : Prop :=
  ∃ S : Finset ι, (∀ i, i ∉ S → f i = none) ∧ ∑ i ∈ S, cellEntry (f i) = c

variable {f : ι → Option α} {c : Multiset α}

theorem holds_empty : Holds (fun _ : ι => (none : Option α)) 0 := ⟨∅, fun _ _ => rfl, rfl⟩

/-- The contents are the sum over any set that has all entries. -/
theorem Holds.sum_eq [DecidableEq ι] (h : Holds f c) {A : Finset ι}
    (hA : ∀ i, i ∉ A → f i = none) : ∑ i ∈ A, cellEntry (f i) = c := by
  obtain ⟨S, hS, rfl⟩ := h
  have key : ∀ T U : Finset ι, (∀ i, i ∉ T → f i = none) →
      ∑ i ∈ T ∪ U, cellEntry (f i) = ∑ i ∈ T, cellEntry (f i) := fun T U hT =>
    (Finset.sum_subset Finset.subset_union_left fun i _ hi => by rw [hT i hi]; rfl).symm
  rw [← key A S hA, ← key S A hS, Finset.union_comm]

theorem Holds.unique [DecidableEq ι] {c' : Multiset α} (h : Holds f c) (h' : Holds f c') :
    c = c' := by
  obtain ⟨S, hS, rfl⟩ := h
  exact h'.sum_eq hS

theorem Holds.mem_iff (h : Holds f c) {e : α} : e ∈ c ↔ ∃ i, f i = some e := by
  obtain ⟨S, hS, rfl⟩ := h
  rw [Multiset.mem_sum]
  constructor
  · rintro ⟨i, -, hi⟩
    cases hf : f i with
    | none => simp [hf] at hi
    | some e' =>
      rw [hf, cellEntry_some, Multiset.mem_singleton] at hi
      exact ⟨i, hi ▸ hf⟩
  · rintro ⟨i, hi⟩
    refine ⟨i, by_contra fun hn => ?_, by simp [hi]⟩
    rw [hS i hn] at hi
    cases hi

/-- One cell changes. -/
theorem Holds.update [DecidableEq ι] (h : Holds f c) (i : ι) (o : Option α) :
    ∃ c', Holds (Function.update f i o) c' ∧ c' + cellEntry (f i) = c + cellEntry o := by
  obtain ⟨S, hS, rfl⟩ := h
  refine ⟨_, ⟨insert i S, fun j hj => ?_, rfl⟩, ?_⟩
  · have hne : j ≠ i := fun he => hj (he ▸ Finset.mem_insert_self i S)
    rw [Function.update_of_ne hne]
    exact hS j fun hm => hj (Finset.mem_insert_of_mem hm)
  · have hcongr : ∀ j ∈ (insert i S).erase i,
        cellEntry (Function.update f i o j) = cellEntry (f j) := fun j hj => by
      rw [Function.update_of_ne (Finset.ne_of_mem_erase hj)]
    have hsum : ∑ j ∈ S, cellEntry (f j) = ∑ j ∈ insert i S, cellEntry (f j) :=
      (Finset.sum_insert_of_eq_zero_if_notMem fun hn => by rw [hS i hn]; rfl).symm
    rw [hsum, ← Finset.add_sum_erase _ (fun j => cellEntry (Function.update f i o j))
        (Finset.mem_insert_self i S),
      ← Finset.add_sum_erase _ (fun j => cellEntry (f j)) (Finset.mem_insert_self i S),
      Finset.sum_congr rfl hcongr, Function.update_self]
    rw [add_right_comm, add_comm (cellEntry o), add_right_comm]

section Change

variable [DecidableEq ι] {i : ι} {e e' : α}

/-- **Filling an empty cell adds the entry.** -/
theorem Holds.put (h : Holds f c) (hi : f i = none) (e : α) :
    Holds (Function.update f i (some e)) (e ::ₘ c) := by
  obtain ⟨c', hc', he⟩ := h.update i (some e)
  rw [hi, cellEntry_none, add_zero, cellEntry_some, add_comm, Multiset.singleton_add] at he
  exact he ▸ hc'

/-- **Emptying a cell removes its entry.** -/
theorem Holds.clear (h : Holds f (e ::ₘ c)) (hi : f i = some e) :
    Holds (Function.update f i none) c := by
  obtain ⟨c', hc', he⟩ := h.update i none
  rw [hi, cellEntry_none, add_zero, cellEntry_some, add_comm, Multiset.singleton_add] at he
  exact Multiset.cons_inj_right e |>.mp he ▸ hc'

/-- **Overwriting a cell exchanges the entries.** -/
theorem Holds.replace (h : Holds f (e ::ₘ c)) (hi : f i = some e) (e' : α) :
    Holds (Function.update f i (some e')) (e' ::ₘ c) := by
  have h' := (h.clear hi).put (Function.update_self i none f) e'
  rwa [Function.update_idem] at h'

omit [DecidableEq ι] in
/-- The entry of a cell, set apart. -/
theorem Holds.exists_cons (h : Holds f c) (hi : f i = some e) : ∃ d, c = e ::ₘ d :=
  Multiset.exists_cons_of_mem (h.mem_iff.mpr ⟨i, hi⟩)

/-- Emptying several cells removes their entries. -/
theorem Holds.clearAll {e : ι → α} {g : ι → Option α} :
    ∀ {is : List ι} {f : ι → Option α}, is.Nodup → Holds f (↑(is.map e) + c) →
      (∀ i ∈ is, f i = some (e i)) → (∀ i ∈ is, g i = none) → (∀ i, i ∉ is → g i = f i) → Holds g c
  | [], f, _, h, _, _, hg => by
    have hgf : g = f := funext fun i => hg i not_mem_nil
    simpa [hgf] using h
  | i :: is, f, hnd, h, hf, hnone, hg => by
    obtain ⟨hi, hnd'⟩ := nodup_cons.mp hnd
    rw [map_cons, ← Multiset.cons_coe, Multiset.cons_add] at h
    have hf' : ∀ j ∈ is, Function.update f i none j = some (e j) := fun j hj => by
      have hne : j ≠ i := fun he => hi (he ▸ hj)
      rw [Function.update_of_ne hne]
      exact hf j (mem_cons_of_mem i hj)
    refine Holds.clearAll hnd' (h.clear (hf i mem_cons_self)) hf'
      (fun j hj => hnone j (mem_cons_of_mem i hj)) fun j hj => ?_
    by_cases he : j = i
    · rw [he, Function.update_self]
      exact hnone i mem_cons_self
    · rw [Function.update_of_ne he]
      exact hg j fun hm => (mem_cons.mp hm).elim he hj

end Change

/-- The number of entries is the number of cells with one. -/
theorem Holds.card_eq [DecidableEq ι] (h : Holds f c) {A : Finset ι}
    (hA : ∀ i, i ∉ A → f i = none) : c.card = (A.filter fun i => (f i).isSome).card := by
  rw [← h.sum_eq hA, Finset.card_filter, Multiset.card_sum]
  refine Finset.sum_congr rfl fun i _ => ?_
  cases f i <;> simp

end StaxFS.Foundation
