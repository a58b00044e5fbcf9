import StaxFS.Table.Migration

/-!
# Candidate geometry

The layouts of a `TwoLevelHashtable` (`server/level_hashtable.h`): the constructor takes a power of
two of at least 2 buckets for the top level and half of it for the bottom level; a resize doubles the
top level, and each level takes the role of the one below. `f_idx` and `s_idx` divide by half the size
of a level.

Results:
* `geometry_iff`: in every layout of a table all candidates are inside their levels, the two on a level
  differ, nothing is divided by zero, and the candidates on the top level are those on the bottom level
  after a resize, if and only if the table was not made with 2 buckets.
* `two_buckets_divide`: a table of 2 buckets has a bottom level of one bucket, and half of it is 0.
-/

namespace StaxFS.Table

open List

/-- The assertions of the constructor. -/
def accepts (tlNumBuckets : Nat) : Bool :=
  2 ≤ tlNumBuckets && tlNumBuckets &&& (tlNumBuckets - 1) = 0

/-- The layout `try_initiate_resize` publishes, with the new top level at `newTl`. -/
def Layout.resized (l : Layout) (newTl : Nat) : Layout :=
  ⟨true, newTl, l.tlN * 2, l.tlOffset, l.tlN, l.blOffset, l.blN⟩

/-- The layouts of a table made with `n` buckets, in and out of migration. -/
inductive LayoutOf (n : Nat) : Layout → Prop
  | new (tlOffset blOffset oldBlOffset oldBlN : Nat) :
      LayoutOf n ⟨false, tlOffset, n, blOffset, n / 2, oldBlOffset, oldBlN⟩
  | resize {l : Layout} (newTl : Nat) : LayoutOf n l → l.active = false → LayoutOf n (l.resized newTl)
  | finish {l : Layout} : LayoutOf n l → LayoutOf n { l with active := false }

/-- `get_candidates` looks at the level. -/
def Layout.Uses (l : Layout) (level : Level) : Prop := level = .oldBottom → l.active = true

variable {K L : Type}

structure Geometry (H : Hashing K L) (l : Layout) : Prop where
  divides : ∀ level, l.Uses level → (l.level level).2 / 2 ≠ 0
  inside : ∀ key, ∀ c ∈ (H.candidates l key).list, c.addr.idx < (l.level c.level).2
  differ : ∀ key level, l.Uses level →
    H.first key (l.level level).2 ≠ H.second key (l.level level).2
  shift : ∀ key newTl, ∀ c ∈ (H.candidates l key).list, c.level = .top →
    ⟨.bottom, c.addr⟩ ∈ (H.candidates (l.resized newTl) key).list

section Sizes

variable {n : Nat} {l : Layout} {H : Hashing K L}

/-- The sizes of the levels in use. -/
structure Layout.Sized (l : Layout) : Prop where
  top : 4 ≤ l.tlN
  level : ∀ level, l.Uses level → 2 ≤ (l.level level).2

theorem LayoutOf.sized (hn : 4 ≤ n) (h : LayoutOf n l) : l.Sized := by
  induction h with
  | new =>
    refine ⟨hn, fun level hl => ?_⟩
    cases level with
    | top => exact (by omega : 2 ≤ n)
    | bottom => exact (by omega : 2 ≤ n / 2)
    | oldBottom => exact absurd (hl rfl) Bool.false_ne_true
  | @resize l newTl _ _ ih =>
    have htop := ih.top
    refine ⟨(by omega : 4 ≤ l.tlN * 2), fun level _ => ?_⟩
    -- the old levels have moved down
    cases level with
    | top => exact (by omega : 2 ≤ l.tlN * 2)
    | bottom => exact (by omega : 2 ≤ l.tlN)
    | oldBottom => exact ih.level .bottom fun he => by cases he
  | finish _ ih =>
    refine ⟨ih.top, fun level hl => ?_⟩
    cases level with
    | top => exact ih.level .top fun he => by cases he
    | bottom => exact ih.level .bottom fun he => by cases he
    | oldBottom => exact absurd (hl rfl) Bool.false_ne_true

/-- The first candidate is in the first half of its level, the second in the second. -/
theorem Hashing.first_lt_second (key : K) {levelN : Nat} (h : 2 ≤ levelN) :
    H.first key levelN < H.second key levelN := by
  have hlt := Nat.mod_lt (mixH1 (H.hash key)) (show 0 < levelN / 2 by omega)
  simp only [Hashing.first, Hashing.second, fIdx, sIdx]
  omega

theorem Layout.Sized.geometry (h : l.Sized) (H : Hashing K L) : Geometry H l where
  divides level hl := by
    have hsize := h.level level hl
    omega
  inside key c hc := by
    obtain ⟨hl, -, hidx | hidx⟩ := H.mem_candidates.mp hc
    · exact hidx ▸ H.first_lt key (h.level c.level hl)
    · exact hidx ▸ H.second_lt key (h.level c.level hl)
  differ key level hl := (Hashing.first_lt_second key (h.level level hl)).ne
  shift key newTl c hc hlevel := by
    obtain ⟨-, hbase, hidx⟩ := H.mem_candidates.mp hc
    rw [hlevel] at hbase hidx
    exact H.mem_candidates.mpr ⟨fun he => (by cases he), hbase, hidx⟩

/-- **Candidate geometry**: it holds in all layouts exactly if the table was not made with 2 buckets. -/
theorem geometry_iff (H : Hashing K L) (hn : accepts n = true) :
    (∀ l, LayoutOf n l → Geometry H l) ↔ n ≠ 2 := by
  constructor
  · rintro h rfl
    exact (h _ (.new 0 1 0 0)).divides .bottom (fun he => by cases he) rfl
  · intro hne l hl
    have hfour : 4 ≤ n := by
      by_contra hlt
      obtain rfl | rfl | rfl | rfl : n = 0 ∨ n = 1 ∨ n = 2 ∨ n = 3 := by omega
      · cases hn
      · cases hn
      · exact hne rfl
      · cases hn
    exact (hl.sized hfour).geometry H

end Sizes

theorem geometry_iff_four : accepts 4 = true ∧ ∀ l, LayoutOf 4 l → Geometry oneHash l :=
  ⟨by decide, (geometry_iff oneHash (by decide)).mpr (by decide)⟩

/-- **A table of 2 buckets is accepted**, and `f_idx` divides by zero for its bottom level. -/
theorem two_buckets_divide : accepts 2 = true ∧
    ∃ l, LayoutOf 2 l ∧ l.Uses .bottom ∧ (l.level .bottom).2 / 2 = 0 ∧ ¬Geometry oneHash l :=
  ⟨by decide, _, .new 0 1 0 0, fun he => (by cases he), rfl, fun h => h.divides .bottom (fun he => by cases he) rfl⟩

end StaxFS.Table
