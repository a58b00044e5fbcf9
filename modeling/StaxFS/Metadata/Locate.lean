import StaxFS.Metadata.Paths

/-!
# `LocateInode` as a walk

`LocateInode` with its own counters: `offset` runs over the path, `name_len` over a name, and both may
end up past the end of the string. The other modules work with the names it looks up (`components`);
here the loop on offsets is shown to be that, and the names to be the pieces between the slashes.

Results:
* `locateInodeAt_eq`, `components_eq`: the loop on offsets looks up the pieces of the path.
* `locate_is_walk`: `LocateInode` succeeds exactly if the walk along the pieces does, and reports the
  last inode, its parent and its entry; otherwise the first missing name, and the directory reached if
  that name is the last one. The entry is left out if the parent has id 0.
-/

namespace StaxFS.Metadata

open Foundation List Option

/-! ### The loop on offsets -/

/-- The inner loop: `name_len` from `n` on. -/
def nameLenLoop (path : Name) (offset : Nat) : Nat → Nat → Nat
  | 0, n => n
  | fuel + 1, n =>
    if offset + n < path.length ∧ path[offset + n]? ≠ some slash then
      nameLenLoop path offset fuel (n + 1)
    else n

/-- The outer loop: `id` is `inode_id`, `parent` is `parent_id`, `dptr` is `*dptr`. -/
def locateOffsets (ds : List Dirent) (path : Name) :
    Nat → Nat → Nat → Nat → Option Dirent → Located
  | 0, _, id, parent, dptr => .atEnd id parent dptr
  | fuel + 1, offset, id, parent, dptr =>
    if offset < path.length then
      let nameLen := nameLenLoop path offset path.length 0
      let name := (path.drop offset).take nameLen
      match ds.find? (Dirent.hasKey id name) with
      | some d => locateOffsets ds path fuel (offset + nameLen + 1) d.id id (some d)
      | none => .missing id name (decide (path.length ≤ offset + nameLen + 1))
    else .atEnd id parent dptr

/-- The inode a resolution starts at; `start` is `*parent_buf` at the call. -/
def startDir (start : Nat) : Nat := if start = 0 then kRootId else start

/-- `LocateInode` on the dirent table `ds`. -/
def locateInodeAt (ds : List Dirent) (path : Name) (start : Nat) : Located :=
  locateOffsets ds path path.length (if path.head? = some slash then 1 else 0) (startDir start) 0 none

/-! ### The walk -/

/-- Pieces without an empty one at the end. -/
def dropLastEmpty (ps : List Name) : List Name := if ps.getLast? = some [] then ps.dropLast else ps

/-- The pieces between slashes; an empty one at the end does not count. -/
def pieces (rest : Name) : List Name := dropLastEmpty (rest.splitOn slash)

/-- A path behind a leading slash. -/
def stripSlash (path : Name) : Name := if path.head? = some slash then path.tail else path

/-- The entries found one after the other from directory `dir` on. -/
def walk (ds : List Dirent) : Nat → List Name → Option (List Dirent)
  | _, [] => some []
  | dir, name :: names =>
    (lookup ds (dir, name)).bind fun d => (walk ds d.id names).map (d :: ·)

/-- Where entries found from `dir` on lead. -/
def reached (dir : Nat) (es : List Dirent) : Nat := (es.getLast?.map Dirent.id).getD dir

/-! ### Pieces -/

variable {name path : Name} {ds : List Dirent} {parent fuel : Nat}

theorem dropLastEmpty_cons {ps : List Name} (h : ps ≠ []) :
    dropLastEmpty (name :: ps) = name :: dropLastEmpty ps := by
  unfold dropLastEmpty
  obtain ⟨p, ps, rfl⟩ := exists_cons_of_ne_nil h
  rw [getLast?_cons_cons, dropLast_cons_cons]
  split <;> rfl

theorem beq_slash_of_notMem (h : slash ∉ name) :
    ∀ b ∈ name, (b == slash) = false := fun _ hb => beq_false_of_ne fun he => h (he ▸ hb)

/-- The first piece. -/
theorem pieces_cons (h : slash ∉ name) (rest : Name) :
    pieces (name ++ slash :: rest) = name :: pieces rest := by
  unfold pieces List.splitOn
  rw [splitOnP_append_cons_of_forall_mem (beq_slash_of_notMem h) slash (by simp),
    dropLastEmpty_cons]
  exact splitOnP_ne_nil _ _

theorem pieces_nil : pieces [] = [] := rfl

/-- The only piece. -/
theorem pieces_single (h : slash ∉ name) (hne : name ≠ []) : pieces name = [name] := by
  unfold pieces List.splitOn
  rw [splitOnP_eq_singleton (beq_slash_of_notMem h), dropLastEmpty, if_neg]
  simpa using hne

/-- A string has no slash, or a first one. -/
theorem split_at_slash (rest : Name) :
    slash ∉ rest ∨ ∃ name rest', rest = name ++ slash :: rest' ∧ slash ∉ name := by
  by_cases h : slash ∈ rest
  · obtain ⟨a, b, hab, ha⟩ := eq_append_cons_of_mem h
    exact .inr ⟨a, b, hab, ha⟩
  · exact .inl h

/-- The pieces are the names of the loop. -/
theorem componentsLoop_eq {rest : Name} (h : rest.length ≤ fuel) :
    componentsLoop fuel rest = pieces rest := by
  induction fuel generalizing rest with
  | zero =>
    rw [length_eq_zero_iff.mp (Nat.le_zero.mp h)]
    rfl
  | succ fuel ih =>
    cases rest with
    | nil => rfl
    | cons b rest =>
      rw [componentsLoop]
      rcases split_at_slash (b :: rest) with hno | ⟨name, rest', heq, hname⟩
      · rw [takeWhile_last hno, drop_eq_nil_of_le (Nat.le_succ _), ih (Nat.zero_le _),
          pieces_nil, pieces_single hno (cons_ne_nil _ _)]
      · have hlen := congrArg List.length heq
        rw [length_append, length_cons, length_cons] at hlen
        rw [length_cons] at h
        rw [heq, takeWhile_name hname, pieces_cons hname, ← @ih rest' (by omega)]
        simp

/-- **The names `LocateInode` looks up** are the pieces between slashes, behind a leading slash. -/
theorem components_eq (path : Name) : components path = pieces (stripSlash path) := by
  cases path with
  | nil => rfl
  | cons b rest =>
    unfold components stripSlash
    dsimp only
    by_cases hb : b = slash
    · rw [if_pos hb, if_pos (by rw [hb]; rfl)]
      exact componentsLoop_eq (Nat.le_refl _)
    · rw [if_neg hb, head?_cons, if_neg (fun h => hb (Option.some.inj h))]
      exact componentsLoop_eq (Nat.le_refl _)

/-! ### The loop is the walk -/

theorem nameLenLoop_eq {path : Name} {offset fuel n : Nat} (h : path.length ≤ offset + n + fuel) :
    nameLenLoop path offset fuel n =
      n + ((path.drop (offset + n)).takeWhile (· ≠ slash)).length := by
  induction fuel generalizing n with
  | zero =>
    rw [Nat.add_zero] at h
    rw [drop_eq_nil_of_le h]
    rfl
  | succ fuel ih =>
    rw [nameLenLoop]
    split
    · rename_i hgo
      obtain ⟨hlt, hne⟩ := hgo
      rw [getElem?_eq_getElem hlt] at hne
      rw [ih (by omega), drop_eq_getElem_cons hlt,
        takeWhile_cons_of_pos (by simpa using hne), length_cons]
      rw [Nat.add_assoc offset n 1]
      omega
    · rename_i hstop
      rcases Nat.lt_or_ge (offset + n) path.length with hlt | hge
      · have hs : path[offset + n]? = some slash := by
          by_contra hne
          exact hstop ⟨hlt, hne⟩
        rw [getElem?_eq_getElem hlt, Option.some.injEq] at hs
        rw [drop_eq_getElem_cons hlt, takeWhile_cons_of_neg (by simp [hs])]
        rfl
      · rw [drop_eq_nil_of_le hge]
        rfl

/-- The outer loop looks up the pieces of what is left of the path. -/
theorem locateOffsets_eq {offset id : Nat}
    {dptr : Option Dirent} (h : path.length ≤ offset + fuel) :
    locateOffsets ds path fuel offset id parent dptr =
      locateIn ds (pieces (path.drop offset)) id parent dptr := by
  induction fuel generalizing offset id parent dptr with
  | zero =>
    rw [Nat.add_zero] at h
    rw [drop_eq_nil_of_le h]
    rfl
  | succ fuel ih =>
    rw [locateOffsets]
    split
    · rename_i hlt
      have hlen := @nameLenLoop_eq path offset path.length 0 (by omega)
      rw [Nat.zero_add, Nat.add_zero] at hlen
      have hne : path.drop offset ≠ [] := by
        rw [Ne, drop_eq_nil_iff]
        omega
      dsimp only
      rw [hlen]
      rcases split_at_slash (path.drop offset) with hno | ⟨name, rest, heq, hname⟩
      · -- the last name
        have hl : (path.drop offset).length = path.length - offset := length_drop
        rw [takeWhile_last hno, take_length, pieces_single hno hne, locateIn]
        cases ds.find? (Dirent.hasKey id (path.drop offset)) with
        | none =>
          dsimp only
          rw [decide_eq_true (by omega)]
          rfl
        | some d =>
          dsimp only
          rw [ih (by omega), drop_eq_nil_of_le (by omega)]
          rfl
      · have hl : path.length - offset = name.length + (rest.length + 1) := by
          rw [← length_drop, heq, length_append, length_cons]
        have hrest : path.drop (offset + name.length + 1) = rest := by
          rw [Nat.add_assoc, ← drop_drop, heq]
          simp
        rw [heq, takeWhile_name hname, take_left' rfl, pieces_cons hname, locateIn]
        cases ds.find? (Dirent.hasKey id name) with
        | none =>
          dsimp only
          congr 1
          rw [Bool.eq_iff_iff, decide_eq_true_iff, List.isEmpty_iff]
          constructor
          · intro hend
            rw [length_eq_zero_iff.mp (show rest.length = 0 by omega)]
            rfl
          · intro hnil
            have hzero : rest = [] := by
              by_contra hr
              rcases split_at_slash rest with hno | ⟨n, r, hsplit, hn⟩
              · rw [pieces_single hno hr] at hnil
                cases hnil
              · rw [hsplit, pieces_cons hn] at hnil
                cases hnil
            rw [hzero] at hl
            simp only [length_nil] at hl
            omega
        | some d =>
          dsimp only
          rw [ih (by omega), hrest]
    · rename_i hge
      rw [drop_eq_nil_of_le (by omega)]
      rfl

/-- **The loop on offsets looks up the pieces of the path.** -/
theorem locateInodeAt_eq (ds : List Dirent) (path : Name) (start : Nat) :
    locateInodeAt ds path start = locateIn ds (components path) (startDir start) 0 none := by
  rw [components_eq, locateInodeAt, stripSlash]
  split
  · rename_i hs
    rw [locateOffsets_eq (by omega), drop_one]
  · rw [locateOffsets_eq (by omega), drop_zero]

/-! ### What a walk reports -/

theorem reached_cons (dir : Nat) (d : Dirent) (es : List Dirent) :
    reached dir (d :: es) = reached d.id es := by
  unfold reached
  cases es with
  | nil => rfl
  | cons e es =>
    rw [getLast?_cons_cons, getLast?_eq_some_getLast (cons_ne_nil e es)]
    rfl

section Walk

variable {ds : List Dirent} {dir : Nat} {names : List Name} {es : List Dirent}

/-- A walk along a first name. -/
theorem walk_cons_eq_some (h : walk ds dir (name :: names) = some es) :
    ∃ d es', lookup ds (dir, name) = some d ∧ walk ds d.id names = some es' ∧ es = d :: es' := by
  rw [walk] at h
  obtain ⟨d, hd, h⟩ := bind_eq_some_iff.mp h
  obtain ⟨es', hes, rfl⟩ := map_eq_some_iff.mp h
  exact ⟨d, es', hd, hes, rfl⟩

/-- A walk that succeeds: the last inode, where its entry is, and its entry. -/
theorem locateIn_walk {ent : Option Dirent} (h : walk ds dir names = some es) :
    locateIn ds names dir parent ent = .atEnd (reached dir es)
      (if es = [] then parent else reached dir es.dropLast)
      (if es = [] then ent else es.getLast?) := by
  induction names generalizing dir parent ent es with
  | nil =>
    cases h
    rfl
  | cons name names ih =>
    obtain ⟨d, es', hd, hes, rfl⟩ := walk_cons_eq_some h
    have hfind : ds.find? (Dirent.hasKey dir name) = some d := hd
    rw [locateIn, hfind]
    dsimp only
    rw [ih hes, reached_cons dir d es', if_neg (cons_ne_nil d es'),
      if_neg (cons_ne_nil d es')]
    cases es' with
    | nil => rfl
    | cons e es' =>
      rw [if_neg (cons_ne_nil e es'), if_neg (cons_ne_nil e es'), getLast?_cons_cons,
        dropLast_cons_cons, reached_cons dir d]

/-- A walk that fails does so at a first name. -/
theorem locateIn_no_walk (parent : Nat) (ent : Option Dirent) (h : walk ds dir names = none) :
    ∃ a name b es, names = a ++ name :: b ∧ walk ds dir a = some es ∧
      lookup ds (reached dir es, name) = none ∧
      locateIn ds names dir parent ent = .missing (reached dir es) name b.isEmpty := by
  induction names generalizing dir parent ent with
  | nil => cases h
  | cons name names ih =>
    cases hd : lookup ds (dir, name) with
    | none =>
      have hfind : ds.find? (Dirent.hasKey dir name) = none := hd
      refine ⟨[], name, names, [], rfl, rfl, hd, ?_⟩
      rw [locateIn, hfind]
      rfl
    | some d =>
      have hfind : ds.find? (Dirent.hasKey dir name) = some d := hd
      rw [walk, hd, bind_some, map_eq_none_iff] at h
      obtain ⟨a, n, b, es, rfl, ha, hn, hl⟩ := ih dir (some d) h
      refine ⟨name :: a, n, b, d :: es, rfl, ?_, by rwa [reached_cons], ?_⟩
      · rw [walk, hd, bind_some, ha]
        rfl
      · rw [locateIn, hfind]
        dsimp only
        rw [hl, reached_cons]

end Walk

/-- **`LocateInode` is a walk along the pieces of the path.** It succeeds exactly if the walk does,
and then reports the last inode, its parent (0 if there are no pieces) and, unless the parent's id is
0, its entry. Otherwise it reports the first missing name, and as the parent the directory reached so
far if that name is the last one, 0 if not. -/
theorem locate_is_walk (ds : List Dirent) (path : Name) (start : Nat) :
    ((locateInodeAt ds path start).found = true ↔
      (walk ds (startDir start) (pieces (stripSlash path))).isSome = true) ∧
    (∀ es, walk ds (startDir start) (pieces (stripSlash path)) = some es →
      (locateInodeAt ds path start).id = reached (startDir start) es ∧
      (locateInodeAt ds path start).parent =
        (if es = [] then 0 else reached (startDir start) es.dropLast) ∧
      ((locateInodeAt ds path start).parent ≠ 0 →
        (locateInodeAt ds path start).ent = es.getLast?)) ∧
    ((locateInodeAt ds path start).found = false →
      ∃ a name b es, pieces (stripSlash path) = a ++ name :: b ∧
        walk ds (startDir start) a = some es ∧
        lookup ds (reached (startDir start) es, name) = none ∧
        (locateInodeAt ds path start).newPath = name ∧
        (locateInodeAt ds path start).parent =
          if b = [] then reached (startDir start) es else 0) := by
  rw [locateInodeAt_eq, components_eq]
  cases hw : walk ds (startDir start) (pieces (stripSlash path)) with
  | none =>
    obtain ⟨a, name, b, es, hsplit, ha, hn, hl⟩ := locateIn_no_walk 0 none hw
    rw [hl]
    refine ⟨by simp [Located.missing], fun es hes => (some_ne_none es hes.symm).elim,
      fun _ => ?_⟩
    refine ⟨a, name, b, es, hsplit, ha, hn, rfl, ?_⟩
    cases b <;> rfl
  | some es =>
    rw [locateIn_walk hw]
    refine ⟨by simp [Located.atEnd], fun es' hes => ?_, fun hf => by cases hf⟩
    cases hes
    refine ⟨rfl, rfl, fun hp => ?_⟩
    have hne : es ≠ [] := by
      rintro rfl
      exact hp rfl
    change (if es = [] then 0 else reached (startDir start) es.dropLast) ≠ 0 at hp
    change (if (if es = [] then 0 else reached (startDir start) es.dropLast) = 0 then none
      else if es = [] then none else es.getLast?) = es.getLast?
    rw [if_neg hp, if_neg hne]

/-- **A directory with id 0 hides the entries in it**: the path of a file in it resolves, but the
entry is not returned. -/
theorem zero_parent_no_entry :
    walk [⟨0, 2, DT_DIR, [122]⟩, ⟨5, 0, DT_REG, [120]⟩] (startDir 0)
        (pieces (stripSlash [47, 122, 47, 120])) =
      some [⟨0, 2, DT_DIR, [122]⟩, ⟨5, 0, DT_REG, [120]⟩] ∧
      locateInodeAt [⟨0, 2, DT_DIR, [122]⟩, ⟨5, 0, DT_REG, [120]⟩] [47, 122, 47, 120] 0 =
        ⟨true, 5, [], 0, none⟩ := by
  decide +kernel

end StaxFS.Metadata
