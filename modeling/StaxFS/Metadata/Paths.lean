import StaxFS.Metadata.Resolve

/-!
# Canonical paths as lists of names

A canonical path is its list of names, and `LocateInode` walks that list. `Rename` cuts both of its
paths at their last common slash; for canonical paths that is a cut of both lists behind a common
part, and resolving the rest from where the common part leads is resolving the whole path.

Results:
* `components_flatMap`: the names of a path that is written from names are these names.
* `Canonical.cut`: a canonical path cut at a slash is a list of names cut in two.
* `lastCommonDir_cut`: the cut `Rename` makes has the same names before it in both paths.
* `resolve_append`, `locateIn_concat`: a walk along names, and what `LocateInode` reports of it.
-/

namespace StaxFS.Metadata

open Foundation List

/-! ### Names and bytes -/

/-- The path of a list of names, without a name the empty string. -/
def pathOf (names : List Name) : Name := names.flatMap (slash :: ·)

/-- Names as they stand in a path. -/
def Plain (names : List Name) : Prop := ∀ name ∈ names, name ≠ [] ∧ slash ∉ name

theorem Canonical.plain {path : Name} (h : Canonical path) : Plain (components path) :=
  fun name hn => ⟨h.2.1 name hn, slash_notMem_components path name hn⟩

theorem takeWhile_name {name rest : List Byte} (h : slash ∉ name) :
    (name ++ slash :: rest).takeWhile (· ≠ slash) = name := by
  induction name with
  | nil => simp
  | cons b name ih =>
    have hb : b ≠ slash := fun he => h (he ▸ mem_cons_self)
    rw [cons_append, takeWhile_cons_of_pos (by simpa using hb),
      ih fun hm => h (mem_cons_of_mem _ hm)]

theorem takeWhile_last {name : List Byte} (h : slash ∉ name) :
    name.takeWhile (· ≠ slash) = name := by
  rw [takeWhile_eq_self_iff]
  intro b hb
  simpa using fun he : b = slash => h (he ▸ hb)

variable {names : List Name} {i : Nat}

/-- The loop behind a slash reads one name after the other. -/
theorem componentsLoop_pathOf {name : Name} (h : Plain (name :: names))
    {fuel : Nat} (hf : (name ++ pathOf names).length ≤ fuel) :
    componentsLoop fuel (name ++ pathOf names) = name :: names := by
  induction names generalizing name fuel with
  | nil =>
    obtain ⟨hne, hslash⟩ := h name mem_cons_self
    obtain ⟨b, rest, rfl⟩ := exists_cons_of_ne_nil hne
    obtain ⟨fuel, rfl⟩ : ∃ k, fuel = k + 1 := ⟨fuel - 1, by
      simp only [length_append, length_cons] at hf
      omega⟩
    simp only [pathOf, flatMap_nil, append_nil, componentsLoop, takeWhile_last hslash]
    rw [drop_eq_nil_of_le (Nat.le_succ _)]
    cases fuel <;> simp [componentsLoop]
  | cons next names ih =>
    obtain ⟨hne, hslash⟩ := h name mem_cons_self
    have hrest : pathOf (next :: names) = slash :: (next ++ pathOf names) := by
      simp [pathOf]
    rw [hrest] at hf ⊢
    obtain ⟨fuel, rfl⟩ : ∃ k, fuel = k + 1 := ⟨fuel - 1, by
      simp only [length_append, length_cons] at hf
      omega⟩
    have hstep : componentsLoop (fuel + 1) (name ++ slash :: (next ++ pathOf names)) =
        name :: componentsLoop fuel (next ++ pathOf names) := by
      obtain ⟨b, rest, rfl⟩ := exists_cons_of_ne_nil hne
      rw [cons_append, componentsLoop, ← cons_append, takeWhile_name hslash]
      simp
    rw [hstep, ih (fun n hn => h n (mem_cons_of_mem _ hn))]
    simp only [length_append, length_cons] at hf ⊢
    omega

/-- **The names of a path written from names are these names.** -/
theorem components_flatMap (h : Plain names) : components (pathOf names) = names := by
  cases names with
  | nil => rfl
  | cons name names =>
    have hpath : pathOf (name :: names) = slash :: (name ++ pathOf names) := by
      simp [pathOf]
    rw [hpath, components_slash_cons, componentsLoop_pathOf h (Nat.le_refl _)]

/-- **A path cut at a slash is its names cut in two.** -/
theorem pathOf_cut (h : Plain names) (hi : (pathOf names)[i]? = some slash) :
    ∃ a b, names = a ++ b ∧ b ≠ [] ∧ (pathOf names).take i = pathOf a ∧
      (pathOf names).drop i = pathOf b := by
  induction names generalizing i with
  | nil => simp [pathOf] at hi
  | cons name names ih =>
    have hpath : pathOf (name :: names) = (slash :: name) ++ pathOf names := by
      simp [pathOf]
    cases i with
    | zero => exact ⟨[], name :: names, rfl, by simp, rfl, rfl⟩
    | succ i =>
      -- the slash is not one of the bytes of the first name
      have hlen : (slash :: name).length ≤ i + 1 := by
        by_contra hlt
        rw [hpath, getElem?_append_left (by omega), getElem?_cons_succ] at hi
        exact (h name mem_cons_self).2 (mem_of_getElem? hi)
      rw [hpath, getElem?_append_right hlen] at hi
      obtain ⟨a, b, hab, hb, htake, hdrop⟩ :=
        ih (fun n hn => h n (mem_cons_of_mem _ hn)) hi
      refine ⟨name :: a, b, by rw [hab, cons_append], hb, ?_, ?_⟩
      · rw [hpath, take_append, take_of_length_le hlen, htake]
        simp [pathOf]
      · rw [hpath, drop_append, drop_eq_nil_of_le hlen, hdrop, nil_append]

/-- **A canonical path cut at a slash**: the names of both parts make up its names. -/
theorem Canonical.cut {path : Name} (h : Canonical path) (hi : path[i]? = some slash) :
    components path = components (path.take i) ++ components (path.drop i) ∧
      components (path.drop i) ≠ [] ∧ path.drop i = pathOf (components (path.drop i)) := by
  have heq : path = pathOf (components path) := h.2.2
  rw [heq] at hi
  obtain ⟨a, b, hab, hb, htake, hdrop⟩ := pathOf_cut h.plain hi
  have hplain : ∀ ns, (∀ n ∈ ns, n ∈ components path) → Plain ns :=
    fun ns hsub n hn => h.plain n (hsub n hn)
  have ha : components (path.take i) = a := by
    rw [heq, htake]
    exact components_flatMap (hplain a fun n hn => hab ▸ mem_append_left b hn)
  have hb' : components (path.drop i) = b := by
    rw [heq, hdrop]
    exact components_flatMap (hplain b fun n hn => hab ▸ mem_append_right a hn)
  rw [ha, hb']
  exact ⟨hab, hb, by rw [← hdrop, ← heq]⟩

/-! ### The last common slash -/

theorem lastCommonDirLoop_comm (old new : List Byte) :
    ∀ i last, lastCommonDirLoop i last old new = lastCommonDirLoop i last new old := by
  induction old generalizing new with
  | nil => cases new <;> simp [lastCommonDirLoop]
  | cons a old ih =>
    intro i last
    cases new with
    | nil => simp [lastCommonDirLoop]
    | cons b new =>
      simp only [lastCommonDirLoop]
      by_cases hab : a = b
      · subst hab
        rw [if_pos rfl, if_pos rfl, ih]
      · rw [if_neg hab, if_neg (Ne.symm hab)]

variable {old new : List Byte}

/-- The loop stops at a difference. -/
theorem lastCommonDirLoop_isSome (hne : old ≠ new) (i last : Nat) :
    (lastCommonDirLoop i last old new).isSome = true := by
  induction old generalizing new i last with
  | nil =>
    cases new with
    | nil => exact absurd rfl hne
    | cons b new => rfl
  | cons a old ih =>
    cases new with
    | nil => rfl
    | cons b new =>
      simp only [lastCommonDirLoop]
      split
      · next hab => exact ih (fun he => hne (by rw [hab, he])) _ _
      · rfl

/-- Both strings are the same up to what the loop reports. -/
theorem lastCommonDirLoop_take {last lcd : Nat} (h : lastCommonDirLoop i last old new = some lcd) :
    lcd = last ∨ i ≤ lcd ∧ old.take (lcd - i) = new.take (lcd - i) := by
  induction old generalizing new i last with
  | nil =>
    cases new with
    | nil => cases h
    | cons b new => exact .inl (Option.some.inj h).symm
  | cons a old ih =>
    cases new with
    | nil => exact .inl (Option.some.inj h).symm
    | cons b new =>
      simp only [lastCommonDirLoop] at h
      split at h
      · next hab =>
        subst hab
        rcases ih h with hl | ⟨hle, htake⟩
        · split at hl
          · exact .inr ⟨hl.ge, by simp [hl]⟩
          · exact .inl hl
        · refine .inr ⟨by omega, ?_⟩
          obtain ⟨k, hk⟩ : ∃ k, lcd - i = k + 1 := ⟨lcd - i - 1, by omega⟩
          rw [hk, take_succ_cons, take_succ_cons]
          rw [show lcd - (i + 1) = k by omega] at htake
          rw [htake]
      · exact .inl (Option.some.inj h).symm

/-- **The cut of `Rename`**: different canonical paths have a last common slash, with the same names
before it in both. -/
theorem lastCommonDir_cut {oldpath newpath : Name} (hold : Canonical oldpath)
    (hnew : Canonical newpath) (hne : oldpath ≠ newpath) :
    ∃ lcd, lastCommonDir oldpath newpath = some lcd ∧ oldpath.take lcd = newpath.take lcd ∧
      oldpath[lcd]? = some slash ∧ newpath[lcd]? = some slash := by
  obtain ⟨lcd, hlcd⟩ := Option.isSome_iff_exists.mp (lastCommonDirLoop_isSome hne 0 0)
  refine ⟨lcd, hlcd, ?_, lastCommonDirLoop_spec _ _ 0 0 lcd rfl hold.head_eq hlcd,
    lastCommonDirLoop_spec _ _ 0 0 lcd rfl hnew.head_eq
      ((lastCommonDirLoop_comm _ _ 0 0).symm.trans hlcd)⟩
  rcases lastCommonDirLoop_take hlcd with rfl | ⟨-, htake⟩
  · rfl
  · exact htake

/-! ### Walks -/

/-- The inode a walk along names leads to. -/
def resolve (ds : List Dirent) : List Name → Nat → Option Nat
  | [], id => some id
  | name :: rest, id => (lookup ds (id, name)).bind fun d => resolve ds rest d.id

section Walks

variable {ds ds' : List Dirent}

theorem resolve_append (a b : List Name) (id : Nat) :
    resolve ds (a ++ b) id = (resolve ds a id).bind (resolve ds b) := by
  induction a generalizing id with
  | nil => rfl
  | cons name a ih =>
    simp only [cons_append, resolve]
    cases lookup ds (id, name) with
    | none => rfl
    | some d => exact ih d.id

theorem resolve_concat (a : List Name) (name : Name) (id : Nat) : resolve ds (a ++ [name]) id =
      (resolve ds a id).bind fun i => (lookup ds (i, name)).map Dirent.id := by
  rw [resolve_append]
  congr 1
  funext i
  simp only [resolve]
  cases lookup ds (i, name) <;> rfl

variable {names : List Name} {id : Nat}

/-- A walk from a directory that is there does not end at inode 0. -/
theorem resolve_ne_zero (hz : ∀ d ∈ ds, d.id ≠ 0) (hid : id ≠ 0)
    (h : resolve ds names id = some i) : i ≠ 0 := by
  induction names generalizing id with
  | nil => exact Option.some.inj h ▸ hid
  | cons name rest ih =>
    rw [resolve, Option.bind_eq_some_iff] at h
    obtain ⟨d, hd, hrest⟩ := h
    exact ih (hz d (mem_of_lookup hd)) hrest

/-- What `LocateInode` reports of a walk. -/
theorem locateIn_eq (names : List Name) (id parent : Nat) (ent : Option Dirent) :
    (locateIn ds names id parent ent).found = (resolve ds names id).isSome ∧
      ∀ i, resolve ds names id = some i → (locateIn ds names id parent ent).id = i := by
  induction names generalizing id parent ent with
  | nil => exact ⟨rfl, fun i hi => Option.some.inj hi⟩
  | cons name rest ih =>
    unfold locateIn
    simp only [resolve, lookup]
    cases ds.find? (Dirent.hasKey id name) with
    | none => exact ⟨rfl, fun i hi => by cases hi⟩
    | some d => exact ih d.id id (some d)

/-- A walk of at least one name does not depend on where it came from. -/
theorem locateIn_start (hne : names ≠ []) (id parent : Nat)
    (ent : Option Dirent) : locateIn ds names id parent ent = locateIn ds names id 0 none := by
  cases names with
  | nil => exact absurd rfl hne
  | cons name rest => simp only [locateIn]

/-- **Resolving the rest from where the first names lead is resolving the whole.** -/
theorem locateIn_append {a b : List Name} (hb : b ≠ []) (id parent : Nat) (ent : Option Dirent)
    (hi : resolve ds a id = some i) :
    locateIn ds (a ++ b) id parent ent = locateIn ds b i 0 none := by
  induction a generalizing id parent ent with
  | nil =>
    cases hi
    exact locateIn_start hb _ _ _
  | cons name a ih =>
    simp only [resolve] at hi
    rw [cons_append, locateIn]
    have hl : lookup ds (id, name) = ds.find? (Dirent.hasKey id name) := rfl
    cases hd : ds.find? (Dirent.hasKey id name) with
    | none =>
      rw [hl, hd] at hi
      cases hi
    | some d =>
      rw [hl, hd] at hi
      exact ih d.id id (some d) hi

/-- The last name of a walk. -/
theorem locateIn_concat {a : List Name} {name : Name} {dir : Nat}
    (hdir : resolve ds a id = some dir) : locateIn ds (a ++ [name]) id 0 none =
      match lookup ds (dir, name) with
      | some d => .atEnd d.id dir (some d)
      | none => .missing dir name true := by
  rw [locateIn_append (by simp) id 0 none hdir, locateIn]
  simp only [lookup]
  cases ds.find? (Dirent.hasKey dir name) <;> rfl

/-- **A walk only looks at the keys it passes.** -/
theorem resolve_congr (h : ∀ a name b i, names = a ++ name :: b → resolve ds a id = some i →
      lookup ds' (i, name) = lookup ds (i, name)) : resolve ds' names id = resolve ds names id := by
  induction names generalizing id with
  | nil => rfl
  | cons name rest ih =>
    simp only [resolve]
    rw [h [] name rest id rfl rfl]
    cases hd : lookup ds (id, name) with
    | none => rfl
    | some d =>
      refine ih fun a n b i hrest hi => ?_
      refine h (name :: a) n b i (by rw [hrest, cons_append]) ?_
      simp only [resolve, hd]
      exact hi

end Walks

end StaxFS.Metadata
