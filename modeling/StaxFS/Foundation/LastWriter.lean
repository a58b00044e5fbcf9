import Mathlib

/-!
# Last writer wins, by sorting

A list of records, each with a key and a version, is sorted by key and, within a key, by falling
version; keeping the first record of every key then gives the newest record of each key. The sort is
a parameter: `std::sort` fixes the order of the result only up to records that compare equal.

Results:
* `newest_dominates`: every record of the input is matched by a kept record of the same key and at
  least its version; `keys_newest_pairwise`: the kept keys are strictly increasing, so there is one
  kept record per key.
* `newest_eq_of_mem_iff`: if no two different records agree in key and version, the outcome only
  depends on which records the input has: not on their order, their multiplicity or the sort.
-/

namespace StaxFS.Foundation

open List

section LastWriter

variable {α κ : Type} [LinearOrder κ] (key : α → κ) (version : α → Nat)

/-- The comparison: by key, then newest first. -/
def Before (a b : α) : Prop := key a < key b ∨ key a = key b ∧ version b < version a

instance : DecidableRel (Before key version) := fun _ _ => inferInstanceAs (Decidable (_ ∨ _))

/-- What a sort by `Before` promises: a permutation without inversions. -/
structure Sorter where
  sort : List α → List α
  perm : ∀ l, (sort l).Perm l
  sorted : ∀ l, (sort l).Pairwise fun a b => ¬Before key version b a

/-- Keep a record unless it has the key of the record kept last. -/
def keepFirst : Option κ → List α → List α
  | _, [] => []
  | last, a :: l => if last = some (key a) then keepFirst last l else a :: keepFirst (some (key a)) l

variable {key version} {a : α}

theorem not_before_iff {b : α} :
    ¬Before key version b a ↔ key a < key b ∨ key a = key b ∧ version b ≤ version a := by
  unfold Before
  rcases lt_trichotomy (key a) (key b) with h | h | h
  · simp [h, h.not_gt, h.ne']
  · simp [h]
  · simp [h, h.not_gt, h.ne']

theorem keepFirst_sublist (last : Option κ) (l : List α) : (keepFirst key last l).Sublist l := by
  induction l generalizing last with
  | nil => exact List.Sublist.refl _
  | cons a l ih =>
    unfold keepFirst
    split
    · exact (ih last).cons a
    · exact (ih _).cons_cons a

/-- The keys that are kept: larger than the last one and strictly increasing. -/
theorem keepFirst_pairwise {l : List α} (hl : l.Pairwise fun a b => ¬Before key version b a)
    (last : Option κ) (hlast : ∀ k ∈ last, ∀ a ∈ l, k ≤ key a) :
    (∀ k ∈ last, ∀ a ∈ keepFirst key last l, k < key a) ∧
      (keepFirst key last l).Pairwise fun a b => key a < key b := by
  induction l generalizing last with
  | nil => exact ⟨fun _ _ _ h => absurd h not_mem_nil, List.Pairwise.nil⟩
  | cons a l ih =>
    rw [pairwise_cons] at hl
    have hle : ∀ b ∈ l, key a ≤ key b := by
      intro b hb
      rcases not_before_iff.mp (hl.1 b hb) with h | h
      · exact h.le
      · exact h.1.le
    unfold keepFirst
    split
    · exact ih hl.2 last fun k hk b hb => hlast k hk b (mem_cons_of_mem _ hb)
    · rename_i hne
      obtain ⟨ih1, ih2⟩ := ih hl.2 (some (key a)) (by
        intro k hk b hb
        rw [Option.mem_some_iff] at hk
        exact hk ▸ hle b hb)
      have hgt : ∀ k ∈ last, k < key a := by
        intro k hk
        refine lt_of_le_of_ne (hlast k hk a mem_cons_self) fun he => hne ?_
        rw [← he]
        exact hk
      refine ⟨fun k hk b hb => ?_, pairwise_cons.mpr ⟨fun b hb => ?_, ih2⟩⟩
      · rcases mem_cons.mp hb with rfl | hb
        · exact hgt k hk
        · exact (hgt k hk).trans (ih1 (key a) rfl b hb)
      · exact ih1 (key a) rfl b hb

/-- Every record has a kept one of its key and at least its version, unless its key is the last
one. -/
theorem keepFirst_dominates {l : List α} (hl : l.Pairwise fun a b => ¬Before key version b a)
    (last : Option κ) (ha : a ∈ l) : last = some (key a) ∨
      ∃ b ∈ keepFirst key last l, key b = key a ∧ version a ≤ version b := by
  induction l generalizing last with
  | nil => exact absurd ha not_mem_nil
  | cons x l ih =>
    rw [pairwise_cons] at hl
    unfold keepFirst
    split
    · rename_i heq
      rcases mem_cons.mp ha with rfl | ha
      · exact .inl heq
      · exact ih hl.2 last ha
    · right
      rcases mem_cons.mp ha with rfl | ha
      · exact ⟨a, mem_cons_self, rfl, le_rfl⟩
      · rcases ih hl.2 (some (key x)) ha with heq | ⟨b, hb, hk, hv⟩
        · -- the record has the key of `x`, which comes first and so is at least as new
          rw [Option.some.injEq] at heq
          refine ⟨x, mem_cons_self, heq, ?_⟩
          rcases not_before_iff.mp (hl.1 a ha) with h | h
          · exact absurd heq h.ne
          · exact h.2
        · exact ⟨b, mem_cons_of_mem _ hb, hk, hv⟩

/-- Sort, then keep the first record of every key. -/
def newest (S : Sorter key version) (l : List α) : List α := keepFirst key none (S.sort l)

variable (S T : Sorter key version) {l l' : List α}

theorem mem_of_mem_newest (h : a ∈ newest S l) : a ∈ l :=
  (S.perm l).mem_iff.mp ((keepFirst_sublist none _).subset h)

/-- **The kept keys are strictly increasing.** -/
theorem keys_newest_pairwise : (newest S l).Pairwise fun a b => key a < key b :=
  (keepFirst_pairwise (S.sorted l) none (fun k hk => by cases hk)).2

/-- **Every record is matched by a kept one of its key and at least its version.** -/
theorem newest_dominates (h : a ∈ l) : ∃ b ∈ newest S l, key b = key a ∧ version a ≤ version b := by
  rcases keepFirst_dominates (S.sorted l) none ((S.perm l).mem_iff.mpr h) with h0 | h0
  · cases h0
  · exact h0

/-- There is one kept record per key. -/
theorem eq_of_mem_newest {b : α} (ha : a ∈ newest S l) (hb : b ∈ newest S l)
    (hk : key a = key b) : a = b := by
  have hnd : ((newest S l).map key).Nodup := by
    rw [List.Nodup, pairwise_map]
    exact (keys_newest_pairwise S).imp fun h => h.ne
  exact inj_on_of_nodup_map hnd ha hb hk

/-- No two different records agree in key and version. -/
def NoTies (key : α → κ) (version : α → Nat) (l : List α) : Prop :=
  ∀ a ∈ l, ∀ b ∈ l, key a = key b → version a = version b → a = b

/-- Without ties, the kept records are the newest of their key. -/
theorem mem_newest_iff (hl : NoTies key version l) :
    a ∈ newest S l ↔ a ∈ l ∧ ∀ b ∈ l, key b = key a → version b ≤ version a := by
  constructor
  · intro ha
    refine ⟨mem_of_mem_newest S ha, fun b hb hk => ?_⟩
    obtain ⟨x, hx, hkx, hvx⟩ := newest_dominates S hb
    rwa [eq_of_mem_newest S hx ha (hkx.trans hk)] at hvx
  · rintro ⟨ha, hmax⟩
    obtain ⟨x, hx, hkx, hvx⟩ := newest_dominates S ha
    have hxl := mem_of_mem_newest S hx
    rwa [hl x hxl a ha hkx (le_antisymm (hmax x hxl hkx) hvx)] at hx

/-- **Without ties, the outcome only depends on which records there are.** -/
theorem newest_eq_of_mem_iff (hl : NoTies key version l) (hmem : ∀ a, a ∈ l ↔ a ∈ l') :
    newest S l = newest T l' := by
  have hl' : NoTies key version l' := fun a ha b hb =>
    hl a ((hmem a).mpr ha) b ((hmem b).mpr hb)
  have hnd : ∀ (U : Sorter key version) (m : List α), (newest U m).Nodup := fun U m =>
    (keys_newest_pairwise U).imp fun h he => h.ne (congrArg key he)
  have hperm : (newest S l).Perm (newest T l') := by
    rw [perm_ext_iff_of_nodup (hnd S l) (hnd T l')]
    intro a
    rw [mem_newest_iff S hl, mem_newest_iff T hl']
    simp only [hmem]
  exact hperm.eq_of_pairwise (fun a b _ _ h h' => absurd h h'.not_gt)
    (keys_newest_pairwise S) (keys_newest_pairwise T)

/-- Insertion sort is such a sort. -/
def Sorter.insertion (key : α → κ) (version : α → Nat) : Sorter key version where
  sort := List.insertionSort fun a b => ¬Before key version b a
  perm := List.perm_insertionSort _
  sorted l := by
    have htotal : Std.Total fun a b : α => ¬Before key version b a := ⟨fun a b => by
      simp only [not_before_iff]
      rcases lt_trichotomy (key a) (key b) with h | h | h
      · exact .inl (.inl h)
      · rcases le_total (version b) (version a) with hv | hv
        · exact .inl (.inr ⟨h, hv⟩)
        · exact .inr (.inr ⟨h.symm, hv⟩)
      · exact .inr (.inl h)⟩
    have htrans : IsTrans α fun a b : α => ¬Before key version b a := ⟨fun a b d h1 h2 => by
      rw [not_before_iff] at h1 h2 ⊢
      rcases h1 with h1 | ⟨h1, v1⟩ <;> rcases h2 with h2 | ⟨h2, v2⟩
      · exact .inl (h1.trans h2)
      · exact .inl (h2 ▸ h1)
      · exact .inl (h1 ▸ h2)
      · exact .inr ⟨h1.trans h2, v2.trans v1⟩⟩
    exact List.pairwise_insertionSort _ l

end LastWriter

end StaxFS.Foundation
