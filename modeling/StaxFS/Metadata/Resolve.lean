import StaxFS.Metadata.Outcome

/-!
# The dirent table and path resolution

What `find`, `erase` and `LocateInode` say about the table as a list of entries.

Results:
* `perm_cons_eraseP`: erasing a key that is found removes exactly the entry that was found;
  `lookup_of_mem`: with one entry per key, every entry is found under its key.
* `locate_found`, `locate_missing`: a path of at least one name that resolves ends in an entry of the
  table; one that is missing at the last level has no entry under the key it reports.
* `Canonical.components_drop`: in a canonical path, a name follows the last common slash.
-/

namespace StaxFS.Metadata

open Foundation List

/-! ### The table -/

/-- The key an entry is found under. -/
def Dirent.key (d : Dirent) : Nat × Name := (d.pid, d.name)

@[simp] theorem hasKey_iff {pid : Nat} {name : Name} {d : Dirent} :
    d.hasKey pid name = true ↔ d.key = (pid, name) := by
  simp [Dirent.hasKey, Dirent.key]

theorem perm_cons_eraseP {α : Type} {p : α → Bool} {a : α} {l : List α} (h : l.find? p = some a) :
    l.Perm (a :: l.eraseP p) := by
  induction l with
  | nil => cases h
  | cons b l ih =>
    by_cases hb : p b = true
    · rw [find?_cons_of_pos hb, Option.some.injEq] at h
      rw [eraseP_cons_of_pos hb, h]
    · rw [find?_cons_of_neg hb] at h
      rw [eraseP_cons_of_neg hb]
      exact ((ih h).cons b).trans (.swap a b _)

theorem eraseP_of_find_none {α : Type} {p : α → Bool} {l : List α} (h : l.find? p = none) :
    l.eraseP p = l :=
  eraseP_of_forall_not fun a ha => find?_eq_none.mp h a ha

section Table

variable {ds : List Dirent} {d : Dirent} {k : Nat × Name}

/-- The entry found under a key. -/
def lookup (ds : List Dirent) (k : Nat × Name) : Option Dirent := ds.find? (Dirent.hasKey k.1 k.2)

theorem key_of_lookup (h : lookup ds k = some d) : d.key = k :=
  hasKey_iff.mp (find?_some h)

theorem mem_of_lookup (h : lookup ds k = some d) : d ∈ ds :=
  mem_of_find?_eq_some h

theorem lookup_eq_none_iff : lookup ds k = none ↔ k ∉ ds.map Dirent.key := by
  simp only [lookup, find?_eq_none, hasKey_iff, List.mem_map, not_exists, not_and]

/-- An entry that is found, and what is left when its key is erased. -/
theorem perm_of_lookup (h : lookup ds d.key = some d) :
    ds.Perm (d :: ds.eraseP (Dirent.hasKey d.pid d.name)) := perm_cons_eraseP h

theorem lookup_eraseP_of_ne {k' : Nat × Name} (hne : k' ≠ k) :
    lookup (ds.eraseP (Dirent.hasKey k.1 k.2)) k' = lookup ds k' := by
  induction ds with
  | nil => rfl
  | cons e ds ih =>
    by_cases he : e.hasKey k.1 k.2 = true
    · have hno : ¬e.hasKey k'.1 k'.2 = true := by
        rw [hasKey_iff] at he ⊢
        exact fun h => hne (h.symm.trans he)
      rw [eraseP_cons_of_pos he, lookup, lookup, find?_cons_of_neg hno]
    · rw [eraseP_cons_of_neg he]
      simp only [lookup, find?_cons] at ih ⊢
      rw [ih]

/-- With one entry per key, a key is gone when it is erased. -/
theorem lookup_eraseP_self (hnd : (ds.map Dirent.key).Nodup) (h : lookup ds d.key = some d) :
    lookup (ds.eraseP (Dirent.hasKey d.pid d.name)) d.key = none := by
  have hperm := ((perm_of_lookup h).map Dirent.key).nodup hnd
  exact lookup_eq_none_iff.mpr (nodup_cons.mp hperm).1

/-- With one entry per key, every entry is found. -/
theorem lookup_of_mem (hnd : (ds.map Dirent.key).Nodup) (h : d ∈ ds) : lookup ds d.key = some d := by
  cases hf : lookup ds d.key with
  | none => exact absurd (List.mem_map_of_mem h) (lookup_eq_none_iff.mp hf)
  | some d' => rw [inj_on_of_nodup_map hnd (mem_of_lookup hf) h (key_of_lookup hf)]

end Table

/-! ### Resolution -/

theorem locateIn_found {ds : List Dirent} (hz : ∀ d ∈ ds, d.id ≠ 0) :
    ∀ (names : List Name) (id parent : Nat) (ent : Option Dirent), id ≠ 0 → names ≠ [] →
      (locateIn ds names id parent ent).found = true →
      ∃ d, (locateIn ds names id parent ent).ent = some d ∧ lookup ds d.key = some d ∧
        (locateIn ds names id parent ent).id = d.id ∧
        (locateIn ds names id parent ent).parent = d.pid ∧ d.pid ≠ 0
  | [], _, _, _, _, hne, _ => absurd rfl hne
  | name :: rest, id, parent, ent, hid, _, hf => by
    unfold locateIn at hf ⊢
    cases hd : ds.find? (Dirent.hasKey id name) with
    | none =>
      rw [hd] at hf
      cases hf
    | some d =>
      rw [hd] at hf
      have hl : lookup ds (id, name) = some d := hd
      have hkey := key_of_lookup hl
      have hpid : d.pid = id := congrArg Prod.fst hkey
      cases rest with
      | nil =>
        refine ⟨d, ?_, hkey ▸ hl, rfl, hpid.symm, hpid ▸ hid⟩
        simp only [locateIn, Located.atEnd]
        exact if_neg hid
      | cons n ns =>
        exact locateIn_found hz (n :: ns) d.id id (some d) (hz d (mem_of_lookup hl)) (by simp) hf

theorem locateIn_missing {ds : List Dirent} :
    ∀ (names : List Name) (id parent : Nat) (ent : Option Dirent),
      (locateIn ds names id parent ent).found = false →
      (locateIn ds names id parent ent).parent ≠ 0 →
      lookup ds ((locateIn ds names id parent ent).parent,
        (locateIn ds names id parent ent).newPath) = none
  | [], _, _, _, hf, _ => by cases hf
  | name :: rest, id, parent, ent, hf, hp => by
    unfold locateIn at hf hp ⊢
    cases hd : ds.find? (Dirent.hasKey id name) with
    | none =>
      rw [hd] at hp
      have hrest : rest.isEmpty = true := by
        by_contra hr
        exact hp (if_neg hr)
      simp only [Located.missing, hrest, if_true]
      exact hd
    | some d =>
      rw [hd] at hf hp
      exact locateIn_missing rest d.id id (some d) hf hp

namespace Cluster

variable {σ : Cluster} {path : Name} {start : Nat}

theorem start_ne_zero (start : Nat) : (if start = 0 then kRootId else start) ≠ 0 := by
  split
  · decide
  · assumption

/-- **A path of at least one name that resolves ends in an entry of the table.** -/
theorem locate_found (hz : ∀ d ∈ σ.dirents, d.id ≠ 0) (hc : components path ≠ [])
    (hf : (σ.locate path start).found = true) :
    ∃ d, (σ.locate path start).ent = some d ∧ lookup σ.dirents d.key = some d ∧
      (σ.locate path start).id = d.id ∧ (σ.locate path start).parent = d.pid ∧ d.pid ≠ 0 :=
  locateIn_found hz _ _ _ _ (start_ne_zero start) hc hf

/-- **The key under which a path is reported missing has no entry.** -/
theorem locate_missing (hf : (σ.locate path start).found = false)
    (hp : (σ.locate path start).parent ≠ 0) :
    lookup σ.dirents ((σ.locate path start).parent, (σ.locate path start).newPath) = none :=
  locateIn_missing _ _ _ _ hf hp

end Cluster

/-! ### Canonical paths -/

theorem componentsLoop_ne_nil {fuel : Nat} {rest : List Byte} (hf : 0 < fuel) (hr : rest ≠ []) :
    componentsLoop fuel rest ≠ [] := by
  cases fuel with
  | zero => omega
  | succ fuel =>
    cases rest with
    | nil => exact absurd rfl hr
    | cons b rest => simp [componentsLoop]

theorem slash_notMem_componentsLoop :
    ∀ (fuel : Nat) (rest : List Byte), ∀ name ∈ componentsLoop fuel rest, slash ∉ name
  | 0, _, name, h => by cases h
  | _ + 1, [], name, h => by cases h
  | fuel + 1, b :: rest, name, h => by
    simp only [componentsLoop, mem_cons] at h
    rcases h with rfl | h
    · intro hm
      have := mem_takeWhile_imp hm
      simp at this
    · exact slash_notMem_componentsLoop fuel _ name h

theorem slash_notMem_components (path : Name) : ∀ name ∈ components path, slash ∉ name := by
  unfold components
  split
  · split <;> exact slash_notMem_componentsLoop _ _
  · simp

theorem components_slash_cons (rest : List Byte) :
    components (slash :: rest) = componentsLoop rest.length rest := by
  simp [components]

/-- The comparison loop reports a slash of the old path. -/
theorem lastCommonDirLoop_spec {p : Name} :
    ∀ (old new : List Byte) (i last lcd : Nat), old = p.drop i → p[last]? = some slash →
      lastCommonDirLoop i last old new = some lcd → p[lcd]? = some slash
  | a :: as, b :: bs, i, last, lcd, ho, hl, h => by
    simp only [lastCommonDirLoop] at h
    have has : as = p.drop (i + 1) := by
      rw [← tail_drop, ← ho, tail_cons]
    split at h
    · refine lastCommonDirLoop_spec as bs (i + 1) _ lcd has ?_ h
      split
      · rename_i ha
        have : p[i]? = (p.drop i)[0]? := by simp
        rw [this, ← ho, getElem?_cons_zero, ha]
      · exact hl
    · cases h
      exact hl
  | [], [], _, _, _, _, _, h => by cases h
  | [], _ :: _, _, _, _, _, hl, h => by
    cases h
    exact hl
  | _ :: _, [], _, _, _, _, hl, h => by
    cases h
    exact hl

namespace Canonical

variable {path : Name}

theorem head_eq (h : Canonical path) : path[0]? = some slash := by
  obtain ⟨hne, -, heq⟩ := h
  rw [heq]
  cases hc : components path with
  | nil => exact absurd hc hne
  | cons n ns => simp

theorem getLast_ne (h : Canonical path) : path.getLast? ≠ some slash := by
  obtain ⟨hne, hnil, heq⟩ := h
  rw [heq]
  obtain ⟨ns, n, hn⟩ := eq_nil_or_concat (components path) |>.resolve_left hne
  have hmem : n ∈ components path := by rw [hn]; simp
  rw [hn, concat_eq_append, flatMap_append]
  simp only [flatMap_cons, flatMap_nil, append_nil]
  intro hl
  rw [getLast?_append, getLast?_cons] at hl
  cases hg : n.getLast? with
  | none => exact hnil n hmem (getLast?_eq_none_iff.mp hg)
  | some b =>
    simp [hg] at hl
    subst hl
    exact slash_notMem_components path n hmem (mem_of_getLast? hg)

/-- **In a canonical path a name follows every slash.** -/
theorem components_drop (h : Canonical path) {i : Nat} (hi : path[i]? = some slash) :
    components (path.drop i) ≠ [] := by
  obtain ⟨hlt, hget⟩ := List.getElem?_eq_some_iff.mp hi
  rw [drop_eq_getElem_cons hlt, hget, components_slash_cons]
  have hrest : path.drop (i + 1) ≠ [] := by
    intro hnil
    have hlen : path.length = i + 1 := by
      have := drop_eq_nil_iff.mp hnil
      omega
    apply h.getLast_ne
    rw [getLast?_eq_getElem?, hlen, Nat.add_sub_cancel]
    exact hi
  exact componentsLoop_ne_nil (length_pos_iff.mpr hrest) hrest

theorem components_drop_lcd (h : Canonical path) {newpath : Name} {lcd : Nat}
    (hlcd : lastCommonDir path newpath = some lcd) : components (path.drop lcd) ≠ [] :=
  h.components_drop (lastCommonDirLoop_spec path newpath 0 0 lcd rfl h.head_eq hlcd)

end Canonical

end StaxFS.Metadata
