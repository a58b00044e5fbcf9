import Mathlib

/-!
# Totals over unboundedly many parties

The sum of an integer per party when all but finitely many are zero, as a relation, so that it can
be carried through an invariant and changed one party at a time.

Results:
* `Total.update`: when one party changes, the total changes by as much.
* `Total.eq_zero`: if all are zero, so is the total.
-/

namespace StaxFS.Foundation

variable {ι : Type} {f : ι → Int} {x : Int}

/-- `x` is the sum of `f`, which is zero outside a finite set. -/
def Total (f : ι → Int) (x : Int) : Prop :=
  ∃ S : Finset ι, (∀ i, i ∉ S → f i = 0) ∧ ∑ i ∈ S, f i = x

theorem Total.of_zero (h : ∀ i, f i = 0) : Total f 0 := ⟨∅, fun i _ => h i, rfl⟩

theorem Total.eq_zero (h : Total f x) (hz : ∀ i, f i = 0) : x = 0 := by
  obtain ⟨S, -, rfl⟩ := h
  exact Finset.sum_eq_zero fun i _ => hz i

/-- **One party changes.** -/
theorem Total.update [DecidableEq ι] (h : Total f x) (i : ι) (y : Int) :
    Total (Function.update f i y) (x + (y - f i)) := by
  obtain ⟨S, hS, rfl⟩ := h
  refine ⟨insert i S, fun j hj => ?_, ?_⟩
  · have hne : j ≠ i := fun he => hj (he ▸ Finset.mem_insert_self i S)
    rw [Function.update_of_ne hne]
    exact hS j fun hm => hj (Finset.mem_insert_of_mem hm)
  · have hsum : ∑ j ∈ S, f j = ∑ j ∈ insert i S, f j :=
      (Finset.sum_insert_of_eq_zero_if_notMem (hS i)).symm
    rw [Finset.sum_update_of_mem (Finset.mem_insert_self i S), hsum,
      ← Finset.add_sum_erase _ f (Finset.mem_insert_self i S), Finset.sdiff_singleton_eq_erase]
    omega

end StaxFS.Foundation
