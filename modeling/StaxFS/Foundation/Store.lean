import Mathlib

/-!
# A map and the log of its versioned writes

A map is changed by writes; each write is logged with a version, and a reader of the log takes, for
every key, the value of the write with the highest version. Map and log agree as long as every write
carries a higher version than all earlier writes of its key.

Results:
* `Agrees.shown_iff`: what a reader of the log sees is what the map holds.
* `Agrees.putAll`: writes in order keep the agreement; `InOrder.of_above`: writes are in order if
  their versions are above a bound that no logged write of their keys reaches.
-/

namespace StaxFS.Foundation

open List

/-- A versioned write; `none` removes the key. -/
structure Write (κ β : Type) where
  key : κ
  version : Nat
  value : Option β
deriving DecidableEq, Repr

section Store

variable {κ β : Type}

/-- The write is logged, and every other write of its key has a lower version. -/
def Newest (L : Write κ β → Prop) (w : Write κ β) : Prop :=
  L w ∧ ∀ w', L w' → w'.key = w.key → w' ≠ w → w'.version < w.version

/-- A reader of the log sees value `b` under `k`: a write of highest version says so. -/
def Shown (L : Write κ β → Prop) (k : κ) (b : β) : Prop :=
  ∃ w, L w ∧ w.key = k ∧ (∀ w', L w' → w'.key = k → w'.version ≤ w.version) ∧ w.value = some b

/-- **Map and log agree**: a key holds the value of its newest write, and nothing if it has none. -/
def Agrees (L : Write κ β → Prop) (m : κ → Option β) : Prop :=
  ∀ k, (∃ w, Newest L w ∧ w.key = k ∧ m k = w.value) ∨ ((∀ w, L w → w.key ≠ k) ∧ m k = none)

/-- The log with further writes. -/
def Extended (L : Write κ β → Prop) (ws : List (Write κ β)) (w : Write κ β) : Prop := L w ∨ w ∈ ws

/-- Every write has a higher version than all earlier writes of its key. -/
def InOrder (L : Write κ β → Prop) : List (Write κ β) → Prop
  | [] => True
  | w :: ws => (∀ w', L w' → w'.key = w.key → w'.version < w.version) ∧ InOrder (Extended L [w]) ws

theorem extended_nil (L : Write κ β → Prop) : Extended L [] = L := by
  funext w
  simp [Extended]

theorem extended_cons (L : Write κ β → Prop) (w : Write κ β) (ws : List (Write κ β)) :
    Extended L (w :: ws) = Extended (Extended L [w]) ws := by
  funext x
  simp [Extended, or_assoc]

variable {L : Write κ β → Prop}

theorem Agrees.shown_iff {m : κ → Option β} (h : Agrees L m) (k : κ) (b : β) :
    Shown L k b ↔ m k = some b := by
  constructor
  · rintro ⟨w, hw, hk, hmax, hv⟩
    rcases h k with ⟨x, ⟨hx, hnew⟩, hxk, hm⟩ | ⟨hno, -⟩
    · by_cases hwx : w = x
      · rw [hm, ← hwx, hv]
      · have hlt := hnew w hw (hk.trans hxk.symm) hwx
        exact absurd (hmax x hx hxk) (Nat.not_le_of_lt hlt)
    · exact absurd hk (hno w hw)
  · intro hb
    rcases h k with ⟨x, ⟨hx, hnew⟩, hxk, hm⟩ | ⟨-, hm⟩
    · refine ⟨x, hx, hxk, fun w' hw' hk' => ?_, hm.symm.trans hb⟩
      by_cases he : w' = x
      · exact Nat.le_of_eq (congrArg Write.version he)
      · exact Nat.le_of_lt (hnew w' hw' (hk'.trans hxk.symm) he)
    · cases hm.symm.trans hb

section Put

variable [DecidableEq κ]

/-- The map after a write. -/
def put (m : κ → Option β) (w : Write κ β) : κ → Option β := Function.update m w.key w.value

/-- The map after some writes. -/
def putAll (m : κ → Option β) (ws : List (Write κ β)) : κ → Option β := ws.foldl put m

theorem putAll_append (m : κ → Option β) (ws ws' : List (Write κ β)) :
    putAll m (ws ++ ws') = putAll (putAll m ws) ws' :=
  foldl_append

variable {L : Write κ β → Prop} {m : κ → Option β} {w : Write κ β} {ws : List (Write κ β)}

/-- A write of higher version than all earlier writes of its key. -/
theorem Agrees.put (h : Agrees L m) (hw : ∀ w', L w' → w'.key = w.key → w'.version < w.version) :
    Agrees (Extended L [w]) (put m w) := by
  intro k
  by_cases hk : k = w.key
  · left
    refine ⟨w, ⟨.inr mem_cons_self, fun w' hw' hk' hne => ?_⟩, hk.symm, ?_⟩
    · rcases hw' with hw' | hw'
      · exact hw w' hw' hk'
      · exact absurd (mem_singleton.mp hw') hne
    · rw [hk, Foundation.put, Function.update_self]
  · have hput : Foundation.put m w k = m k := Function.update_of_ne hk ..
    rw [hput]
    rcases h k with ⟨x, ⟨hx, hnew⟩, hxk, hm⟩ | ⟨hno, hm⟩
    · left
      refine ⟨x, ⟨.inl hx, fun w' hw' hk' hne => ?_⟩, hxk, hm⟩
      rcases hw' with hw' | hw'
      · exact hnew w' hw' hk' hne
      · rw [mem_singleton.mp hw'] at hk'
        exact absurd (hxk.symm.trans hk'.symm) hk
    · right
      refine ⟨fun x hx => ?_, hm⟩
      rcases hx with hx | hx
      · exact hno x hx
      · rw [mem_singleton.mp hx]
        exact Ne.symm hk

/-- **Writes in order keep the agreement.** -/
theorem Agrees.putAll (h : Agrees L m) (hws : InOrder L ws) :
    Agrees (Extended L ws) (putAll m ws) := by
  induction ws generalizing L m with
  | nil => rwa [extended_nil]
  | cons w ws ih =>
    rw [extended_cons]
    exact ih (h.put hws.1) hws.2

end Put

/-- **Writes are in order** if no logged write of their keys reaches the bound `v`, their versions
do, and their versions grow where their keys meet. -/
theorem InOrder.of_above {ws : List (Write κ β)} {v : Nat}
    (hlog : ∀ w ∈ ws, ∀ w', L w' → w'.key = w.key → w'.version < v) (hver : ∀ w ∈ ws, v ≤ w.version)
    (hgrow : ws.Pairwise fun w w' => w.key = w'.key → w.version < w'.version) : InOrder L ws := by
  -- the logged writes are below the bound, or are earlier ones of the list
  suffices hgen : ∀ (L : Write κ β → Prop),
      (∀ w ∈ ws, ∀ w', L w' → w'.key = w.key → w'.version < w.version) → InOrder L ws by
    exact hgen L fun w hw w' hw' hk => Nat.lt_of_lt_of_le (hlog w hw w' hw' hk) (hver w hw)
  clear hlog hver
  induction ws with
  | nil => exact fun _ _ => trivial
  | cons x ws ih =>
    intro L hL
    rw [pairwise_cons] at hgrow
    refine ⟨hL x mem_cons_self, ih hgrow.2 _ fun w hw w' hw' hk => ?_⟩
    rcases hw' with hw' | hw'
    · exact hL w (mem_cons_of_mem _ hw) w' hw' hk
    · rw [mem_singleton.mp hw'] at hk ⊢
      exact hgrow.1 w hw hk

end Store

end StaxFS.Foundation
