import Mathlib

/-!
# Sums that start again

A counter that a list of events moves, and that some events set back to a fixed value before they
move it: a running sum in which only what follows the last of these events counts.

Results:
* `restart_of_none`: without such an event the moves add up.
* `restart_of_some`: with one, where the counter started does not matter.
-/

namespace StaxFS.Foundation

open List

variable {α : Type} (again : α → Bool) (base : Int) (move : α → Int)

/-- The counter after one event. -/
def restartStep (v : Int) (a : α) : Int := (if again a then base else v) + move a

/-- The counter after a list of events. -/
def restart (as : List α) (v : Int) : Int := as.foldl (restartStep again base move) v

variable {again base move}

@[simp] theorem restart_nil (v : Int) : restart again base move [] v = v := rfl

theorem restart_cons (a : α) (as : List α) (v : Int) : restart again base move (a :: as) v =
      restart again base move as (restartStep again base move v a) := rfl

theorem restart_append (as bs : List α) (v : Int) : restart again base move (as ++ bs) v =
      restart again base move bs (restart again base move as v) := foldl_append ..

/-- Without an event that starts again, the moves add up. -/
theorem restart_of_none {as : List α} (h : ∀ a ∈ as, again a = false) (v : Int) :
    restart again base move as v = v + (as.map move).sum := by
  induction as generalizing v with
  | nil => simp
  | cons a as ih =>
    rw [restart_cons, ih fun b hb => h b (mem_cons_of_mem _ hb), restartStep,
      if_neg (by simp [h a mem_cons_self]), map_cons, sum_cons]
    omega

/-- With one, what was before it does not matter. -/
theorem restart_of_some {as : List α} (h : ∃ a ∈ as, again a = true) (v w : Int) :
    restart again base move as v = restart again base move as w := by
  induction as generalizing v w with
  | nil =>
    obtain ⟨a, ha, -⟩ := h
    cases ha
  | cons a as ih =>
    by_cases hc : again a = true
    · simp [restart_cons, restartStep, hc]
    · obtain ⟨b, hb, hc'⟩ := h
      have hmem : b ∈ as := (mem_cons.mp hb).resolve_left fun he => hc (he ▸ hc')
      exact ih ⟨b, hmem, hc'⟩ _ _

end StaxFS.Foundation
