import Mathlib

/-!
# The hybrid logical clock

`CompactWAL::MergeAndTick`: a version packs milliseconds, a 14-bit counter and the id of the server
in 64 bits. The clock state holds the first two; it moves past its old value, past an observed
version and never behind the physical clock.

Results, as long as the milliseconds fit their 42 bits (`Fits`):
* `lt_mergeAndTick`: the clock state grows.
* `version_mergeAndTick`: the version shows the new clock state above the id of the server.
-/

namespace StaxFS.Metadata

/-- `kVersionMetaBits`. -/
def kVersionMetaBits : Nat := 8

/-- `kVersionLogicalBits`. -/
def kVersionLogicalBits : Nat := 14

/-- `kVersionPhysicalShift`. -/
def kVersionPhysicalShift : Nat := kVersionMetaBits + kVersionLogicalBits

/-- `PackVersion`. -/
def packVersion (physicalMs logical metaId : Nat) : Nat :=
  (physicalMs <<< kVersionPhysicalShift) % 2 ^ 64 ||| (logical <<< kVersionMetaBits) ||| metaId

/-- A clock reading: milliseconds and counter. -/
structure Reading where
  physical : Nat
  logical : Nat
deriving DecidableEq, Repr

namespace Reading

/-- The reading in a clock state. -/
def ofState (state : Nat) : Reading :=
  ⟨state >>> kVersionLogicalBits, state &&& (2 ^ kVersionLogicalBits - 1)⟩

/-- The clock state of a reading. -/
def toState (r : Reading) : Nat := (r.physical <<< kVersionLogicalBits) % 2 ^ 64 ||| r.logical

/-- The comparison of `MergeAndTick`. -/
def Later (a b : Reading) : Prop :=
  b.physical < a.physical ∨ a.physical = b.physical ∧ b.logical < a.logical

instance (a b : Reading) : Decidable (a.Later b) := inferInstanceAs (Decidable (_ ∨ _))

/-- The later of the old and the observed reading. -/
def merge (old observed : Reading) : Reading := if observed.Later old then observed else old

/-- The reading after `base` at physical time `nowMs`. -/
def tick (nowMs : Nat) (base : Reading) : Reading :=
  if max nowMs base.physical = base.physical then
    if base.logical = 2 ^ kVersionLogicalBits - 1 then ⟨base.physical + 1, 0⟩
    else ⟨base.physical, base.logical + 1⟩
  else ⟨max nowMs base.physical, 0⟩

end Reading

/-- `MergeAndTick`: the new clock state and the version, from the physical clock, the clock state,
the observed version and the server's id. -/
def mergeAndTick (nowMs hlc observed metaId : Nat) : Nat × Nat :=
  let next := ((Reading.ofState hlc).merge (Reading.ofState (observed >>> kVersionMetaBits))).tick nowMs
  (next.toState, packVersion next.physical next.logical (metaId % 2 ^ kVersionMetaBits))

/-! ### Versions grow -/

namespace Reading

/-- The reading as one number. -/
def value (r : Reading) : Nat := r.physical * 2 ^ 14 + r.logical

/-- The counter fits its 14 bits, and the milliseconds their 42 bits, one more included. -/
structure Fits (r : Reading) : Prop where
  physical : r.physical + 1 < 2 ^ 42
  logical : r.logical < 2 ^ 14

variable {r a b : Reading} {now : Nat}

theorem logical_ofState (state : Nat) : (ofState state).logical < 2 ^ 14 := by
  simp only [ofState, kVersionLogicalBits, Nat.and_two_pow_sub_one_eq_mod]
  exact Nat.mod_lt _ (by decide)

theorem value_ofState (state : Nat) : (ofState state).value = state := by
  simp only [value, ofState, kVersionLogicalBits, Nat.and_two_pow_sub_one_eq_mod,
    Nat.shiftRight_eq_div_pow]
  omega

theorem toState_eq (hp : r.physical < 2 ^ 42) (hl : r.logical < 2 ^ 14) : r.toState = r.value := by
  have hlt : r.physical * 2 ^ 14 < 2 ^ 64 := by omega
  rw [toState, kVersionLogicalBits, Nat.shiftLeft_eq, Nat.mod_eq_of_lt hlt, ← Nat.shiftLeft_eq,
    ← Nat.shiftLeft_add_eq_or_of_lt hl, Nat.shiftLeft_eq, value]

theorem Fits.merge (ha : a.Fits) (hb : b.Fits) : (a.merge b).Fits := by
  unfold Reading.merge
  split <;> assumption

theorem value_merge (ha : a.logical < 2 ^ 14) (hb : b.logical < 2 ^ 14) :
    (a.merge b).value = max a.value b.value := by
  unfold Reading.merge value
  split <;> rename_i hlater <;> unfold Later at hlater <;> omega

theorem logical_merge (ha : a.logical < 2 ^ 14) (hb : b.logical < 2 ^ 14) :
    (a.merge b).logical < 2 ^ 14 := by
  unfold Reading.merge
  split <;> assumption

/-- A tick goes past its base and still fits. -/
theorem tick_spec (hv : r.value + 1 < 2 ^ 56) (hl : r.logical < 2 ^ 14) (hnow : now < 2 ^ 42) :
    r.value < (r.tick now).value ∧ (r.tick now).physical < 2 ^ 42 ∧
      (r.tick now).logical < 2 ^ 14 := by
  unfold value at hv
  unfold tick value
  split
  · split <;> rename_i hfull <;> simp only [kVersionLogicalBits] at hfull ⊢ <;> omega
  · simp only
    omega

theorem le_tick (nowMs : Nat) (r : Reading) :
    r.physical ≤ (r.tick nowMs).physical ∧ nowMs ≤ (r.tick nowMs).physical := by
  unfold tick
  split
  · split <;> simp only <;> omega
  · simp only
    omega

end Reading

theorem packVersion_eq {physical logical metaId : Nat} (hp : physical < 2 ^ 42)
    (hl : logical < 2 ^ 14) (hm : metaId < 2 ^ 8) :
    packVersion physical logical metaId = (physical * 2 ^ 14 + logical) * 2 ^ 8 + metaId := by
  have hlt : physical * 2 ^ 22 < 2 ^ 64 := by omega
  have hsum : logical * 2 ^ 8 + metaId < 2 ^ 22 := by
    clear hlt
    omega
  have hlow : logical <<< 8 ||| metaId = logical * 2 ^ 8 + metaId := by
    rw [← Nat.shiftLeft_add_eq_or_of_lt hm, Nat.shiftLeft_eq]
  rw [packVersion, show kVersionPhysicalShift = 22 from rfl, show kVersionMetaBits = 8 from rfl,
    Nat.or_assoc, hlow, Nat.shiftLeft_eq, Nat.mod_eq_of_lt hlt, ← Nat.shiftLeft_eq,
    ← Nat.shiftLeft_add_eq_or_of_lt hsum, Nat.shiftLeft_eq]
  omega

section MergeAndTick

variable {now hlc observed metaId : Nat}

/-- The clock of a server and an observed version fit. -/
def ClockFits (hlc observed : Nat) : Prop :=
  (Reading.ofState hlc).physical + 1 < 2 ^ 42 ∧
    (Reading.ofState (observed >>> kVersionMetaBits)).physical + 1 < 2 ^ 42

theorem ClockFits.merge (h : ClockFits hlc observed) :
    ((Reading.ofState hlc).merge (Reading.ofState (observed >>> kVersionMetaBits))).Fits :=
  .merge ⟨h.1, Reading.logical_ofState _⟩ ⟨h.2, Reading.logical_ofState _⟩

/-- Neither the clock nor the version observed is at the last reading. -/
def NotLast (hlc observed : Nat) : Prop := hlc + 1 < 2 ^ 56 ∧ observed / 2 ^ 8 + 1 < 2 ^ 56

/-- What a tick goes on from. -/
theorem value_base :
    ((Reading.ofState hlc).merge (Reading.ofState (observed >>> kVersionMetaBits))).value =
      max hlc (observed / 2 ^ 8) := by
  rw [Reading.value_merge (Reading.logical_ofState _) (Reading.logical_ofState _),
    Reading.value_ofState, Reading.value_ofState, Nat.shiftRight_eq_div_pow, kVersionMetaBits]

theorem logical_base :
    ((Reading.ofState hlc).merge (Reading.ofState (observed >>> kVersionMetaBits))).logical < 2 ^ 14 :=
  Reading.logical_merge (Reading.logical_ofState _) (Reading.logical_ofState _)

theorem NotLast.of_physical (h : ((Reading.ofState hlc).merge
    (Reading.ofState (observed >>> kVersionMetaBits))).physical + 1 < 2 ^ 42) :
    NotLast hlc observed := by
  have hlog := @logical_base hlc observed
  have hbase := @value_base hlc observed
  unfold Reading.value at hbase
  exact ⟨by omega, by omega⟩

/-- **A tick below the last reading**: the clock state is above the old one and above the version
observed, and the version shows it above the id of the server. -/
theorem mergeAndTick_forward (h : NotLast hlc observed) (hnow : now < 2 ^ 42) (metaId : Nat) :
    hlc < (mergeAndTick now hlc observed metaId).1 ∧
      observed / 2 ^ 8 < (mergeAndTick now hlc observed metaId).1 ∧
      (mergeAndTick now hlc observed metaId).1 < 2 ^ 56 ∧
      (mergeAndTick now hlc observed metaId).2 =
        (mergeAndTick now hlc observed metaId).1 * 2 ^ 8 + metaId % 2 ^ 8 := by
  obtain ⟨hh, ho⟩ := h
  have hlog := @logical_base hlc observed
  have hbase := @value_base hlc observed
  unfold mergeAndTick
  generalize (Reading.ofState hlc).merge (Reading.ofState (observed >>> kVersionMetaBits)) = r at *
  obtain ⟨hlt, hp, hl⟩ := Reading.tick_spec (by omega) hlog hnow
  have hpack := packVersion_eq hp hl (Nat.mod_lt metaId (by decide : 0 < 2 ^ 8))
  simp only [Reading.toState_eq hp hl]
  have hval : (r.tick now).value < 2 ^ 56 := by
    unfold Reading.value
    omega
  exact ⟨by omega, by omega, hval, hpack⟩

/-- **The clock state grows.** -/
theorem lt_mergeAndTick (h : ClockFits hlc observed) (hnow : now < 2 ^ 42) :
    hlc < (mergeAndTick now hlc observed metaId).1 :=
  (mergeAndTick_forward (.of_physical h.merge.physical) hnow metaId).1

/-- **The version shows the clock state** above the id of the server. -/
theorem version_mergeAndTick (h : ClockFits hlc observed) (hnow : now < 2 ^ 42) :
    (mergeAndTick now hlc observed metaId).2 =
      (mergeAndTick now hlc observed metaId).1 * 2 ^ 8 + metaId % 2 ^ 8 :=
  (mergeAndTick_forward (.of_physical h.merge.physical) hnow metaId).2.2.2

end MergeAndTick

end StaxFS.Metadata
