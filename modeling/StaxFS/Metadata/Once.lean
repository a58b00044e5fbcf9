import StaxFS.Metadata.Orphans

/-!
# Unlinking one name many times

Several `Unlink` calls on the path of one file. Each resolves the path, logs, takes a link and
erases the entry, and a failed erase is ignored, so two calls that both find the entry both take a
link and both return 0.

If no call finds the entry while another one that found it is in flight, the calls take turns:
`Phase` says how far the one that found the entry is, and `programAt` and `inodesAt` what it has
left to do and what it has done. All others are still looking, or come too late.

Results:
* `OnceInv.step`: a step moves to the next phase or keeps the phase.
* `unlink_once`: when all calls have returned, exactly one returned 0, and one link, one entry and
  one child of the parent are gone.
-/

namespace StaxFS.Metadata

open Foundation Wal List Option
open Function (update update_of_ne update_self)

/-- `path` names the regular file of entry `d` and inode `n`, in a directory with inode `p`. -/
@[mk_iff] structure NamesFile (σ : Cluster) (path : Name) (d : Dirent) (n p : Inode) : Prop where
  found : (σ.locate path 0).found = true
  ends : (σ.locate path 0).EndsIn d
  named : components path ≠ []
  entry : lookup σ.dirents d.key = some d
  unique : NamesUnique σ
  inode : σ.inodes d.id = some n
  regular : n.isDir = false
  /-- the link count is the number of entries of the inode, in 64 bits -/
  nlink : n.nlink = links σ.dirents d.id
  nlink_lt : n.nlink < 2 ^ 64
  parent : σ.inodes d.pid = some p
  parent_ne : d.pid ≠ d.id
  /-- the parent counts this entry, in 32 bits -/
  extra : 0 < p.extra ∧ p.extra < 2 ^ 32
  /-- a file has no entries -/
  leaf : ∀ d' ∈ σ.dirents, d'.pid ≠ d.id

/-- The calls: `Unlink` of `path`, on any server. -/
def UnlinksOf (path : Name) : PoolAct Request (Nat × Nat) → Prop
  | .start _ q => q.call = .unlink path
  | _ => True

instance (path : Name) : ∀ a, Decidable (UnlinksOf path a)
  | .start _ q => inferInstanceAs (Decidable (q.call = .unlink path))
  | .step _ | .env _ => isTrue trivial

/-- The call has found the entry of `key`. -/
def foundKey (key : Nat × Name) (tr : Trace) : Bool :=
  tr.any fun
    | ⟨.findDirent pid name, some _⟩ => (pid, name) == key
    | _ => false

/-- **When a file is unlinked once**: no call finds the entry while another call that found it is in
flight, and the log has room for the record of the call that found it. -/
def TakesTurns (key : Nat × Name) (P : Calls) : PoolAct Request (Nat × Nat) → Prop
  | .step t => ∀ q tr op k, P.threads t = .active q tr (.call op k) →
      (op = .findDirent key.1 key.2 → (P.shared.find key.1 key.2).isSome = true →
        ∀ t' q' tr' op' k', t' ≠ t → P.threads t' = .active q' tr' (.call op' k') →
          foundKey key tr' = false) ∧
      (∀ req, op = .log req → P.shared.hasRoom q.srv req = true)
  | _ => True

/-! ### `Unlink` in parts -/

/-- `Unlink` behind the resolution of the path. -/
def unlinkLocated (isDir : Bool) (res : Located) : M Int := do
  if !res.found then return -1
  if !(← log (.unlink res.id res.parent res.entName)) then return -EAGAIN
  match ← updateFn res.id (.unlink isDir) with
  | none => return -1
  | some n =>
    if unlinkError isDir n then return -1
    deleteDirectoryEntry res.entName res.parent true
    if n.dropLink.nlink = 0 then
      freeInodeId res.id
      deleteInode res.id
    return 0

theorem unlink_eq (path : Name) (isDir : Bool) :
    unlink path isDir = (locateLoop (components path) kRootId 0 none).bind (unlinkLocated isDir) := rfl

/-- `Unlink` behind the erased entry. -/
def removeInode (id : Nat) (n : Inode) : M Int := do
  if n.dropLink.nlink = 0 then
    freeInodeId id
    deleteInode id
  return 0

/-- What the call that found the entry has done last. -/
inductive Point
  | located
  | logged
  | unlinked
  | counted
  | erased
  | freed

/-- How far the calls are: nobody has found the entry; call `t` has found it and is at point `k`; or
call `t` has unlinked it. -/
inductive Phase
  | untouched
  | held (t : Nat) (k : Point)
  | done (t : Nat)

/-- The entry is no longer in the table. -/
def Point.Erased : Point → Prop
  | .erased | .freed => True
  | _ => False

/-- The entry is no longer in the table. -/
def Phase.Erased : Phase → Prop
  | .untouched => False
  | .held _ k => k.Erased
  | .done _ => True

section Once

variable (σ₀ : Cluster) (path : Name) (d : Dirent) (n p : Inode)

/-- What is left to do at point `k`. -/
def programAt : Point → M Int
  | .located => do
    if !(← log (.unlink d.id d.pid d.name)) then return -EAGAIN
    match ← updateFn d.id (.unlink false) with
    | none => return -1
    | some n =>
      if unlinkError false n then return -1
      deleteDirectoryEntry d.name d.pid true
      removeInode d.id n
  | .logged => do
    match ← updateFn d.id (.unlink false) with
    | none => return -1
    | some n =>
      if unlinkError false n then return -1
      deleteDirectoryEntry d.name d.pid true
      removeInode d.id n
  | .unlinked => do
    let _ ← updateFn d.pid .extraDec
    let _ ← eraseDirent d.pid d.name
    removeInode d.id n
  | .counted => do
    let _ ← eraseDirent d.pid d.name
    removeInode d.id n
  | .erased => do
    freeInodeId d.id
    deleteInode d.id
    return 0
  | .freed => do
    deleteInode d.id
    return 0

/-- The inodes when the link is taken. -/
def inodesUnlinked : Nat → Option Inode := update σ₀.inodes d.id (some n.dropLink)

/-- The inodes when the parent has counted. -/
def inodesCounted : Nat → Option Inode :=
  update (inodesUnlinked σ₀ d n) d.pid (some (InodeFn.extraDec.apply p))

def inodesDone : Nat → Option Inode :=
  if n.dropLink.nlink = 0 then update (inodesCounted σ₀ d n p) d.id none
  else inodesCounted σ₀ d n p

def direntsDone : List Dirent := σ₀.dirents.eraseP (Dirent.hasKey d.pid d.name)

/-- The tables in a phase. -/
def tablesAt : Phase → List Dirent × (Nat → Option Inode)
  | .untouched | .held _ .located | .held _ .logged => (σ₀.dirents, σ₀.inodes)
  | .held _ .unlinked => (σ₀.dirents, inodesUnlinked σ₀ d n)
  | .held _ .counted => (σ₀.dirents, inodesCounted σ₀ d n p)
  | .held _ .erased | .held _ .freed => (direntsDone σ₀ d, inodesCounted σ₀ d n p)
  | .done _ => (direntsDone σ₀ d, inodesDone σ₀ d n p)

/-- A call that is still resolving the path, on its way to the entry. -/
def Looking (prog : M Int) : Prop :=
  ∃ names id parent ent, names ≠ [] ∧ prog = (locateLoop names id parent ent).bind (unlinkLocated false) ∧
    locateIn σ₀.dirents names id parent ent = σ₀.locate path 0

/-- A call other than the one that found the entry: it is still looking, or the entry was erased
before it came to look for it. -/
def Other (erased : Prop) (th : Thread Request Op Res Int) : Prop :=
  th = .idle ∨ ∃ q tr prog, th = .active q tr prog ∧ foundKey d.key tr = false ∧
    (Looking σ₀ path prog ∨ erased ∧ ∃ r, r ≠ 0 ∧ prog = .pure r)

/-- The calls in a phase. -/
def ThreadAt (t : Nat) (th : Thread Request Op Res Int) : Phase → Prop
  | .untouched => Other σ₀ path d False th
  | .held t' k =>
    if t = t' then ∃ q tr, th = .active q tr (programAt d n k) ∧ foundKey d.key tr = true ∧
      (k.Erased → n.dropLink.nlink = 0)
    else Other σ₀ path d k.Erased th
  | .done t' => if t = t' then ∃ q tr, th = .active q tr (.pure 0) else Other σ₀ path d True th

/-- Where a run is. -/
structure OnceInv (ph : Phase) (P : Calls) : Prop where
  tables : (P.shared.dirents, P.shared.inodes) = tablesAt σ₀ d n p ph
  threads : ∀ t, ThreadAt σ₀ path d n t (P.threads t) ph

end Once

variable {key : Nat × Name}

section Steps

variable {σ₀ : Cluster} {path : Name} {d : Dirent} {n p : Inode} {th : Thread Request Op Res Int}

theorem Looking.isCall {prog : M Int} (h : Looking σ₀ path prog) : ∃ op k, prog = .call op k := by
  obtain ⟨names, id, parent, ent, hnames, rfl, -⟩ := h
  cases names with
  | nil => exact absurd rfl hnames
  | cons name rest => exact ⟨_, _, rfl⟩

theorem Other.mono {e e' : Prop} (h : Other σ₀ path d e th) (hi : e → e') : Other σ₀ path d e' th :=
  h.imp_right fun ⟨q, tr, prog, hth, hk, hp⟩ => ⟨q, tr, prog, hth, hk, hp.imp_right (.imp_left hi)⟩

variable {name : Name} {tr : Trace} {ent : Option Dirent} {rest : List Name}

/-- On the way to the entry every name is found. -/
theorem look_other (hF : NamesFile σ₀ path d n p) {id parent : Nat}
    (hloc : locateIn σ₀.dirents (name :: rest) id parent ent = σ₀.locate path 0)
    (hne : (id, name) ≠ d.key) : ∃ d', lookup σ₀.dirents (id, name) = some d' ∧
      Looking σ₀ path ((locateLoop rest d'.id id (some d')).bind (unlinkLocated false)) := by
  simp only [locateIn] at hloc
  cases hf : σ₀.dirents.find? (Dirent.hasKey id name) with
  | none =>
    rw [hf] at hloc
    have := hF.found
    rw [← hloc] at this
    cases this
  | some d' =>
    rw [hf] at hloc
    refine ⟨d', hf, rest, d'.id, id, some d', ?_, rfl, hloc⟩
    rintro rfl
    -- the last entry found would be `d`
    have hent := hF.ends.ent
    rw [← hloc] at hent
    simp only [locateIn, Located.atEnd] at hent
    split at hent
    · cases hent
    · cases hent
      exact hne (hasKey_iff.mp (find?_some hf)).symm

/-- The entry is found at the end of the path, and then the call logs. -/
theorem look_key (hF : NamesFile σ₀ path d n p) {id parent : Nat}
    (hloc : locateIn σ₀.dirents (name :: rest) id parent ent = σ₀.locate path 0)
    (hk : (id, name) = d.key) : rest = [] ∧
      (locateLoop [] d.id id (some d)).bind (unlinkLocated false) = programAt d n .located := by
  have hf : σ₀.dirents.find? (Dirent.hasKey id name) = some d := by
    have := hF.entry
    rw [← hk] at this
    exact this
  simp only [locateIn, hf] at hloc
  cases rest with
  | cons name' rest =>
    -- a file has no entries
    have hnone : σ₀.dirents.find? (Dirent.hasKey d.id name') = none := by
      rw [find?_eq_none]
      intro d' hd' hkey
      exact hF.leaf d' hd' (congrArg Prod.fst (hasKey_iff.mp hkey))
    have := hF.found
    rw [← hloc] at this
    simp [locateIn, hnone, Located.missing] at this
  | nil =>
    refine ⟨rfl, ?_⟩
    have hent := hF.ends.ent
    rw [← hloc] at hent
    have hid : id ≠ 0 := by
      rintro rfl
      simp [locateIn, Located.atEnd] at hent
    have hpid : id = d.pid := congrArg Prod.fst hk
    have hname : (Located.atEnd d.id id (some d)).entName = d.name := by
      simp [Located.atEnd, Located.entName, hid]
    change unlinkLocated false (.atEnd d.id id (some d)) = _
    simp only [unlinkLocated, hname]
    rw [hpid]
    rfl

theorem foundKey_of_ne {pid : Nat} {r : Option Dirent}
    (h : foundKey key tr = false) (hne : (pid, name) ≠ key) :
    foundKey key (⟨.findDirent pid name, r⟩ :: tr) = false := by
  unfold foundKey at h ⊢
  rw [any_cons, h, Bool.or_false]
  cases r with
  | none => rfl
  | some d => simpa using hne

theorem tablesAt_dirents (ph : Phase) : (¬ph.Erased → (tablesAt σ₀ d n p ph).1 = σ₀.dirents) ∧
      (ph.Erased → (tablesAt σ₀ d n p ph).1 = direntsDone σ₀ d) := by
  cases ph with
  | untouched => exact ⟨fun _ => rfl, nofun⟩
  | done t => exact ⟨fun h => absurd trivial h, fun _ => rfl⟩
  | held t k =>
    cases k with
    | erased | freed => exact ⟨fun h => absurd trivial h, fun _ => rfl⟩
    | _ => exact ⟨fun _ => rfl, nofun⟩

variable {env : Env} {P P' : Calls} {ph : Phase} {a : PoolAct Request (Nat × Nat)}

namespace OnceInv

/-- The call that holds the entry. -/
def holder : Phase → Option Nat
  | .untouched => none
  | .held t _ | .done t => some t

variable {t : Nat} {σ : Cluster} {q : Request} {op : Op}

/-- All calls but the holder are alike. -/
theorem threadAt_of_ne (ht : holder ph ≠ some t) :
    ThreadAt σ₀ path d n t th ph ↔ Other σ₀ path d ph.Erased th := by
  cases ph with
  | untouched => exact Iff.rfl
  | held t' k | done t' =>
    rw [ThreadAt, if_neg (fun he => ht (congrArg some he.symm))]
    exact Iff.rfl

section

variable (h : OnceInv σ₀ path d n p ph P)

include h

theorem other (ht : holder ph ≠ some t) : Other σ₀ path d ph.Erased (P.threads t) :=
  (threadAt_of_ne ht).mp (h.threads t)

/-- The holder and the tables stay, another call moves on. -/
theorem moveOther (ht : holder ph ≠ some t) (hth : Other σ₀ path d ph.Erased th)
    (hσ : σ.dirents = P.shared.dirents ∧ σ.inodes = P.shared.inodes) :
    OnceInv σ₀ path d n p ph ⟨σ, update P.threads t th⟩ := by
  refine ⟨?_, fun t' => ?_⟩
  · rw [hσ.1, hσ.2]
    exact h.tables
  · by_cases htt : t' = t
    · subst htt
      simp only [update_self]
      exact (threadAt_of_ne ht).mpr hth
    · simp only [update_of_ne htt]
      exact h.threads t'

/-- Call `t` enters phase `ph'` as the holder; the others stay. -/
theorem moveHolder {ph' : Phase}
    (hold : holder ph = none ∨ holder ph = some t) (hnew : holder ph' = some t)
    (herased : ph.Erased → ph'.Erased) (hth : ThreadAt σ₀ path d n t th ph')
    (hσ : (σ.dirents, σ.inodes) = tablesAt σ₀ d n p ph') :
    OnceInv σ₀ path d n p ph' ⟨σ, update P.threads t th⟩ := by
  refine ⟨hσ, fun t' => ?_⟩
  by_cases htt : t' = t
  · subst htt
    simp only [update_self]
    exact hth
  · simp only [update_of_ne htt]
    have hne' : some t ≠ some t' := fun he => htt (Option.some.inj he).symm
    have hne : holder ph ≠ some t' := by
      rcases hold with hold | hold <;> rw [hold]
      · exact nofun
      · exact hne'
    exact (threadAt_of_ne (hnew ▸ hne')).mpr ((h.other hne).mono herased)

end

section

variable (hF : NamesFile σ₀ path d n p)

include hF

/-- A call that does not hold the entry performs an operation. -/
theorem otherStep (h : OnceInv σ₀ path d n p ph P) (ht : holder ph ≠ some t) {k : Res op → M Int}
    {r : Res op} (hth : P.threads t = .active q tr (.call op k))
    (hx : exec env q.srv t op P.shared = some (r, σ)) (hok : TakesTurns d.key P (.step t)) :
    ∃ ph', OnceInv σ₀ path d n p ph'
      ⟨σ, update P.threads t (.active q (⟨op, r⟩ :: tr) (k r))⟩ := by
  have hother := h.other ht
  rw [hth] at hother
  rcases hother with hidle | ⟨q', tr', prog, he, hkey, hlook | ⟨-, r', -, rfl⟩⟩
  · cases hidle
  · simp only [Thread.active.injEq] at he
    obtain ⟨rfl, rfl, rfl⟩ := he
    obtain ⟨names, id, parent, ent, hne, hprog, hloc⟩ := hlook
    cases names with
    | nil => exact absurd rfl hne
    | cons name rest =>
      cases hprog
      obtain ⟨hr, rfl⟩ : P.shared.find id name = r ∧ P.shared = σ := by
        simpa [exec] using hx
      have hds := congrArg Prod.fst h.tables
      obtain ⟨hbefore, hafter⟩ := @tablesAt_dirents σ₀ d n p ph
      have hfind : P.shared.find id name = lookup P.shared.dirents (id, name) := rfl
      by_cases hk : (id, name) = d.key
      · obtain ⟨rfl, hprog⟩ := look_key hF hloc hk
        by_cases her : ph.Erased
        · -- too late
          have hnone : P.shared.find id name = none := by
            rw [hfind, show P.shared.dirents = direntsDone σ₀ d from hds.trans (hafter her), hk]
            exact lookup_eraseP_self hF.unique hF.entry
          rw [hnone] at hr
          subst hr
          have hkey' : foundKey d.key (⟨.findDirent id name, none⟩ :: tr) = false := hkey
          exact ⟨ph, h.moveOther ht (.inr ⟨q, _, _, rfl, hkey',
            .inr ⟨her, -1, by decide, rfl⟩⟩) ⟨rfl, rfl⟩⟩
        · have hsome : P.shared.find id name = some d := by
            rw [hfind, show P.shared.dirents = σ₀.dirents from hds.trans (hbefore her), hk]
            exact hF.entry
          rw [hsome] at hr
          subst hr
          obtain ⟨hpid, hname⟩ : id = d.pid ∧ name = d.name := by simpa [Dirent.key] using hk
          have halone := (hok q tr _ _ hth).1 (by rw [hpid, hname]; rfl)
            (by
              rw [hpid, hname] at hsome
              exact (congrArg Option.isSome hsome).trans rfl)
          cases ph with
          | done => exact absurd trivial her
          | held t' k' =>
            -- the holder is in flight and has found the entry
            have hne' : t' ≠ t := fun he => ht (congrArg some he)
            have hheld := h.threads t'
            rw [ThreadAt, if_pos rfl] at hheld
            obtain ⟨q', tr', hth', hfound, -⟩ := hheld
            have hcall : ∃ op' k'', programAt d n k' = .call op' k'' := by
              cases k' <;> exact ⟨_, _, rfl⟩
            obtain ⟨op', k'', hp'⟩ := hcall
            rw [hp'] at hth'
            rw [halone t' q' tr' op' k'' hne' hth'] at hfound
            cases hfound
          | untouched =>
            refine ⟨.held t .located, h.moveHolder (.inl rfl) rfl (fun he => by cases he) ?_ h.tables⟩
            rw [ThreadAt, if_pos rfl]
            refine ⟨q, _, congrArg _ hprog, ?_, fun he => by cases he⟩
            simp [foundKey, hk]
      · obtain ⟨d', hd', hlook'⟩ := look_other hF hloc hk
        have hsome : P.shared.find id name = some d' := by
          rw [hfind]
          by_cases her : ph.Erased
          · rw [show P.shared.dirents = direntsDone σ₀ d from hds.trans (hafter her), direntsDone]
            exact (lookup_eraseP_of_ne (k := d.key) hk).trans hd'
          · rw [show P.shared.dirents = σ₀.dirents from hds.trans (hbefore her)]
            exact hd'
        rw [hsome] at hr
        subst hr
        exact ⟨ph, h.moveOther ht (.inr ⟨q, _, _, rfl, foundKey_of_ne hkey hk, .inl hlook'⟩)
          ⟨rfl, rfl⟩⟩
  · simp at he

/-- The call that holds the entry performs its next operation. -/
theorem holderStep {k : Point}
    (h : OnceInv σ₀ path d n p (.held t k) P) {c : Res op → M Int} {r : Res op}
    (hth : P.threads t = .active q tr (.call op c))
    (hx : exec env q.srv t op P.shared = some (r, σ)) (hok : TakesTurns d.key P (.step t)) :
    ∃ ph', OnceInv σ₀ path d n p ph'
      ⟨σ, update P.threads t (.active q (⟨op, r⟩ :: tr) (c r))⟩ := by
  have hroom := (hok q tr op c hth).2
  have hat := h.threads t
  rw [ThreadAt, if_pos rfl, hth] at hat
  obtain ⟨q', tr', he, hfound, hlast⟩ := hat
  simp only [Thread.active.injEq] at he
  obtain ⟨rfl, rfl, hprog⟩ := he
  have htab := h.tables
  have hfound' : ∀ e, foundKey d.key (e :: tr) = true := fun e => by
    unfold foundKey at hfound ⊢
    rw [any_cons, hfound, Bool.or_true]
  -- the next point, with its tables
  have hnext : ∀ (k' : Point) {prog : M Int} {σ' : Cluster} {e : Prog.Event Op Res},
      (k.Erased → k'.Erased) → prog = programAt d n k' → (k'.Erased → n.dropLink.nlink = 0) →
      (σ'.dirents, σ'.inodes) = tablesAt σ₀ d n p (.held t k') →
      ∃ ph', OnceInv σ₀ path d n p ph'
        ⟨σ', update P.threads t (.active q (e :: tr) prog)⟩ := by
    rintro k' prog σ' e hmono rfl hz hσ
    have hold : holder (.held t k') = some t := rfl
    refine ⟨.held t k', h.moveHolder (.inr rfl) hold hmono ?_ hσ⟩
    rw [ThreadAt, if_pos rfl]
    exact ⟨q, _, rfl, hfound' e, hz⟩
  have hdone : ∀ {prog : M Int} {σ' : Cluster} {e : Prog.Event Op Res}, prog = .pure 0 →
      (σ'.dirents, σ'.inodes) = tablesAt σ₀ d n p (.done t) →
      ∃ ph', OnceInv σ₀ path d n p ph'
        ⟨σ', update P.threads t (.active q (e :: tr) prog)⟩ := by
    rintro prog σ' e rfl hσ
    have hold : holder (.done t) = some t := rfl
    refine ⟨.done t, h.moveHolder (.inr rfl) hold (fun _ => trivial) ?_ hσ⟩
    rw [ThreadAt, if_pos rfl]
    exact ⟨q, _, rfl⟩
  cases k with
  | located =>
    cases hprog
    simp only [exec, hroom _ rfl, if_true, Option.some.injEq, Prod.mk.injEq] at hx
    obtain ⟨rfl, rfl⟩ := hx
    refine hnext .logged (fun he => by cases he) rfl (fun he => by cases he) ?_
    simpa [tablesAt] using htab
  | logged =>
    cases hprog
    obtain ⟨hds, hin⟩ := Prod.mk.inj htab
    have hn : P.shared.inodes d.id = some n := by rw [hin, hF.inode]
    simp only [exec, hn, Option.some.injEq, Prod.mk.injEq] at hx
    obtain ⟨rfl, rfl⟩ := hx
    have hok' : unlinkError false n = false := hF.regular
    refine hnext .unlinked (fun he => by cases he) ?_ (fun he => by cases he) ?_
    · simp only [Prog.bind, hok']
      rfl
    · rw [Cluster.updateFn_unlink_of_ok hn hok']
      simp [tablesAt, inodesUnlinked, Cluster.setInode, hds, hin]
  | unlinked =>
    cases hprog
    obtain ⟨hds, hin⟩ := Prod.mk.inj htab
    have hp : P.shared.inodes d.pid = some p := by
      rw [hin, inodesUnlinked, update_of_ne hF.parent_ne, hF.parent]
    simp only [exec, hp, Option.some.injEq, Prod.mk.injEq] at hx
    obtain ⟨rfl, rfl⟩ := hx
    refine hnext .counted (fun he => by cases he) rfl (fun he => by cases he) ?_
    rw [Cluster.updateFn_of_some _ hp]
    simp [tablesAt, inodesCounted, Cluster.setInode, hds, hin]
  | counted =>
    cases hprog
    obtain ⟨hds, hin⟩ := Prod.mk.inj htab
    cases hx
    by_cases hz : n.dropLink.nlink = 0
    · refine hnext .erased (fun he => by cases he) ?_ (fun _ => hz) ?_
      · simp only [Prog.bind, removeInode, if_pos hz]
        rfl
      · simp [tablesAt, direntsDone, Cluster.erase, hds, hin]
    · refine hdone ?_ ?_
      · simp only [Prog.bind, removeInode, if_neg hz]
        rfl
      · simp [tablesAt, direntsDone, inodesDone, Cluster.erase, hds, hin, hz]
  | erased =>
    cases hprog
    cases hx
    exact hnext .freed id rfl hlast htab
  | freed =>
    cases hprog
    obtain ⟨hds, hin⟩ := Prod.mk.inj htab
    cases hx
    refine hdone rfl ?_
    simp [tablesAt, inodesDone, Cluster.setInode, hds, hin, hlast trivial]

/-- **A step moves to the next phase, or keeps the phase.** -/
theorem step (h : OnceInv σ₀ path d n p ph P)
    (hcalls : UnlinksOf path a) (hok : TakesTurns d.key P a)
    (hst : (concurrent env (· = σ₀)).step P a = some P') : ∃ ph', OnceInv σ₀ path d n p ph' P' := by
  cases concurrent_rule hst with
  | @start t q hidle =>
    have hne : holder ph ≠ some t := by
      intro he
      have hat := h.threads t
      rw [hidle] at hat
      cases ph with
      | untouched => cases he
      | held t' k | done t' =>
        cases he
        rw [ThreadAt, if_pos rfl] at hat
        obtain ⟨q, tr, hth⟩ := hat
        simp at hth
    refine ⟨ph, h.moveOther hne (.inr ⟨q, [], _, rfl, rfl, .inl ?_⟩) ⟨rfl, rfl⟩⟩
    rw [show q.call = .unlink path from hcalls]
    exact ⟨_, _, _, _, hF.named, unlink_eq path false, rfl⟩
  | @step t q tr op k r σ hth hx =>
    by_cases hne : holder ph = some t
    · cases ph with
      | untouched => cases hne
      | held t' c =>
        cases hne
        exact holderStep hF h hth hx hok
      | done t' =>
        cases hne
        have hat := h.threads t
        rw [ThreadAt, if_pos rfl, hth] at hat
        obtain ⟨q', tr', he⟩ := hat
        simp at he
    · exact otherStep hF h hne hth hx hok
  | @env e σ he =>
    have heq : σ.dirents = P.shared.dirents ∧ σ.inodes = P.shared.inodes := by
      unfold checkpointStep at he
      split at he
      · cases he
        exact ⟨rfl, rfl⟩
      · cases he
    refine ⟨ph, ?_, h.threads⟩
    rw [heq.1, heq.2]
    exact h.tables

end

end OnceInv

end Steps

/-! ### The outcome -/

/-- The call returned `r`. -/
def ReturnedWith (th : Thread Request Op Res Int) (r : Int) : Prop :=
  ∃ q tr, th = .active q tr (.pure r)

/-- Exactly one call returned 0, and the file has one link and the parent one child less. -/
structure UnlinkedOnce (d : Dirent) (n p : Inode) (P : Calls) : Prop where
  once : ∃ t, ReturnedWith (P.threads t) 0 ∧ ∀ t', ReturnedWith (P.threads t') 0 → t' = t
  inode : P.shared.inodes d.id = if n.nlink = 1 then none else some { n with nlink := n.nlink - 1 }
  parent : P.shared.inodes d.pid = some { p with extra := p.extra - 1 }
  live : ∀ d' ∈ P.shared.dirents, d'.id = d.id → (P.shared.inodes d.id).isSome = true

section Outcome

variable {env : Env} {σ₀ : Cluster} {path : Name} {d : Dirent} {n p : Inode} {P : Calls}

theorem NamesFile.dropLink_eq (hF : NamesFile σ₀ path d n p) :
    n.dropLink = { n with nlink := n.nlink - 1 } ∧ 0 < n.nlink := by
  have hpos : 0 < n.nlink := by
    rw [hF.nlink]
    exact countP_pos_iff.mpr ⟨d, mem_of_lookup hF.entry, by simp⟩
  refine ⟨?_, hpos⟩
  have hlt := hF.nlink_lt
  simp only [Inode.dropLink, Inode.mk.injEq, and_true]
  omega

/-- The tables when the file is unlinked. -/
theorem OnceInv.unlinkedOnce (hF : NamesFile σ₀ path d n p) {t : Nat}
    (h : OnceInv σ₀ path d n p (.done t) P) : UnlinkedOnce d n p P := by
  obtain ⟨hdrop, hpos⟩ := hF.dropLink_eq
  obtain ⟨hds, hin⟩ := Prod.mk.inj h.tables
  have hz : n.dropLink.nlink = 0 ↔ n.nlink = 1 := by
    rw [hdrop]
    simp only
    omega
  have hinode : P.shared.inodes d.id =
      if n.nlink = 1 then none else some { n with nlink := n.nlink - 1 } := by
    rw [hin, inodesDone]
    by_cases h1 : n.nlink = 1
    · rw [if_pos (hz.mpr h1), if_pos h1, update_self]
    · rw [if_neg (mt hz.mp h1), if_neg h1, inodesCounted, update_of_ne hF.parent_ne.symm,
        inodesUnlinked, update_self, hdrop]
  refine ⟨⟨t, ?_, fun t' ht' => ?_⟩, hinode, ?_, fun d' hd' hid => ?_⟩
  · have := h.threads t
    rwa [ThreadAt, if_pos rfl] at this
  · by_contra hne
    have := h.threads t'
    rw [ThreadAt, if_neg hne] at this
    obtain ⟨q, tr, hth⟩ := ht'
    rw [hth] at this
    rcases this with hidle | ⟨q', tr', prog, he, -, hlook | ⟨-, r, hr, rfl⟩⟩
    · cases hidle
    · obtain ⟨op, k, rfl⟩ := hlook.isCall
      cases he
    · simp only [Thread.active.injEq, Prog.pure.injEq] at he
      exact hr he.2.2.symm
  · have hextra := hF.extra
    have hp : InodeFn.extraDec.apply p = { p with extra := p.extra - 1 } := by
      simp only [InodeFn.apply, Inode.mk.injEq, true_and, and_true]
      omega
    rw [hin, inodesDone]
    split
    · rw [update_of_ne hF.parent_ne, inodesCounted, update_self, hp]
    · rw [inodesCounted, update_self, hp]
  · rw [hinode]
    split
    · -- the only entry of the inode was erased
      rename_i h1
      have hcount := (perm_of_lookup hF.entry).countP_eq (p := fun e => e.id == d.id)
      rw [← links, ← hF.nlink, h1, countP_cons_of_pos (by simp)] at hcount
      have hzero : (direntsDone σ₀ d).countP (fun e => e.id == d.id) = 0 := by
        rw [direntsDone]
        omega
      have hnot := countP_eq_zero.mp hzero d' (hds ▸ hd')
      exact absurd (by simpa using hid) hnot
    · rfl

/-- **Unlink happens once**: when all of any number of `Unlink` calls on the path of a file have
returned, exactly one of them returned 0 and took one link, if no call found the entry while another
that found it was in flight and the log had room. -/
theorem unlink_once (hF : NamesFile σ₀ path d n p)
    (h : (concurrent env (· = σ₀)).Reach (fun P a => UnlinksOf path a ∧ TakesTurns d.key P a) P)
    (hone : ∃ t, P.threads t ≠ .idle) (hall : ∀ t, returned (P.threads t) = true) :
    UnlinkedOnce d n p P := by
  have hinv : ∃ ph, OnceInv σ₀ path d n p ph P := by
    refine h.invariant (I := fun P => ∃ ph, OnceInv σ₀ path d n p ph P) (fun P hs => ?_)
      (fun P a P' _ hi hok hst => hi.elim fun ph hi => hi.step hF hok.1 hok.2 hst)
    refine ⟨.untouched, ?_, fun t => .inl (hs.2 t)⟩
    rw [show P.shared = σ₀ from hs.1]
    rfl
  obtain ⟨ph, hinv⟩ := hinv
  cases ph with
  | untouched =>
    -- whoever has started is still looking
    obtain ⟨t, ht⟩ := hone
    rcases hinv.threads t with hidle | ⟨q, tr, prog, hth, -, hlook | ⟨hf, -⟩⟩
    · exact absurd hidle ht
    · obtain ⟨op, k, rfl⟩ := hlook.isCall
      have := hall t
      rw [hth] at this
      cases this
    · exact hf.elim
  | held t k =>
    have hth := hinv.threads t
    rw [ThreadAt, if_pos rfl] at hth
    obtain ⟨q, tr, hth, -⟩ := hth
    have := hall t
    rw [hth] at this
    cases k <;> cases this
  | done t => exact hinv.unlinkedOnce hF

end Outcome

/-- `/a` exists. -/
def madeA : Cluster :=
  ((sequential steadyEnv).step freshCluster (.call (.create pathA 0o644 0 0))).getD freshCluster

/-- The entry and the inode of `/a`, and the inode of the root. -/
def entryA : Dirent := ⟨3, kRootId, DT_REG, [97]⟩
def inodeA (nlink : Nat) : Inode := ⟨nlink, 0o644 ||| S_IFREG, 0, 0, 0⟩
def rootOf (extra : Nat) : Inode := ⟨1, 0o755 ||| S_IFDIR, extra, 1, 2⟩

instance (l : Located) (d : Dirent) : Decidable (l.EndsIn d) :=
  decidable_of_iff _ (Located.endsIn_iff l d).symm

instance (σ : Cluster) (path : Name) (d : Dirent) (n p : Inode) :
    Decidable (NamesFile σ path d n p) :=
  decidable_of_iff _ (namesFile_iff σ path d n p).symm

/-- A test for `TakesTurns` with two calls. -/
def inTurn (key : Nat × Name) (P : Calls) : PoolAct Request (Nat × Nat) → Bool
  | .start t q => decide (UnlinksOf pathA (.start t q))
  | .step t =>
    match P.threads t with
    | .active q _ (.call op _) => (!(op == .findDirent key.1 key.2) ||
        (P.shared.find key.1 key.2).isNone || match P.threads (1 - t) with
          | .active _ tr (.call _ _) => !foundKey key tr
          | _ => true) &&
        match op with
        | .log req => P.shared.hasRoom q.srv req
        | _ => true
    | _ => true
  | .env _ => true

theorem takesTurns_of_inTurn (P : Calls) (a : PoolAct Request (Nat × Nat)) (hP : P.Below 2)
    (h : inTurn key P a = true) : UnlinksOf pathA a ∧ TakesTurns key P a := by
  cases a with
  | start t q => exact ⟨of_decide_eq_true h, trivial⟩
  | step t =>
    refine ⟨trivial, fun q tr op k hth => ?_⟩
    simp only [inTurn, hth, Bool.and_eq_true, Bool.or_eq_true, Bool.not_eq_true',
      beq_eq_false_iff_ne, isNone_iff_eq_none] at h
    refine ⟨fun hop hfound t' q' tr' op' k' hne hth' => ?_, fun req hop => ?_⟩
    · rcases h.1 with (hop' | hnone) | hnot
      · exact absurd hop hop'
      · rw [hnone] at hfound
        cases hfound
      · have := hP.lt hth
        have := hP.lt hth'
        obtain rfl : t' = 1 - t := by omega
        simpa only [hth', Bool.not_eq_true'] using hnot
    · subst hop
      exact h.2
  | env e => exact ⟨trivial, trivial⟩

/-- What a call returned. -/
theorem returnedWith_of_outcome {th : Thread Request Op Res Int} {r : Int}
    (h : (outcome 0 th).map (fun x => x.2.1) = some r) : ReturnedWith th r := by
  unfold outcome at h
  split at h
  · cases h
    exact ⟨_, _, rfl⟩
  · cases h

/-- `/a` and `/b` are links to one file. -/
def linkedAB : Cluster :=
  ((sequential steadyEnv).step madeA (.call (.link pathA pathB))).getD madeA

theorem linkedAB_namesFile : NamesFile linkedAB pathA entryA (inodeA 2) (rootOf 2) := by
  decide +kernel

/-- Two calls of `Unlink` in flight together; the second looks the entry up when the first has erased
it. -/
def unlinkTwice : List (PoolAct Request (Nat × Nat)) :=
  [.start 0 ⟨0, .unlink pathA⟩, .start 1 ⟨1, .unlink pathA⟩] ++ List.replicate 5 (.step 0) ++
    [.step 1]

/-- Calls that overlap and take turns at the entry: the condition is met. -/
theorem unlink_once_overlap :
    ∃ P, (concurrent steadyEnv (· = linkedAB)).Reach
        (fun P a => UnlinksOf pathA a ∧ TakesTurns entryA.key P a) P ∧
      ReturnedWith (P.threads 1) (-1) ∧ UnlinkedOnce entryA (inodeA 2) (rootOf 2) P := by
  have hrun : ((concurrent steadyEnv (· = linkedAB)).runChecked
      (fun P a => a.below 2 && inTurn entryA.key P a) unlinkTwice ⟨linkedAB, fun _ => .idle⟩).map
      (fun P => ((List.range 2).all fun t => returned (P.threads t),
        (outcome 0 (P.threads 1)).map fun x => x.2.1)) = some (true, some (-1)) := by
    decide +kernel
  obtain ⟨P, hreach, hbelow, hout⟩ := exists_reach_below hrun rfl takesTurns_of_inTurn
  obtain ⟨hall, hret⟩ := Prod.mk.injEq .. ▸ hout
  have hret := returnedWith_of_outcome hret
  refine ⟨P, hreach, hret, unlink_once linkedAB_namesFile hreach ⟨1, ?_⟩
    (all_returned hbelow hall)⟩
  obtain ⟨q, tr, hth⟩ := hret
  rw [hth]
  exact nofun

/-- Two servers both find `/a`, and then both unlink it. -/
def racingUnlinks : List (PoolAct Request (Nat × Nat)) :=
  [.start 0 ⟨0, .unlink pathA⟩, .start 1 ⟨1, .unlink pathA⟩, .step 0, .step 1] ++
    List.replicate 4 (.step 0) ++ List.replicate 6 (.step 1)

/-- **Two calls can unlink the same entry**: both return 0, both links of the file are gone, and
`/b` names an inode that does not exist. -/
theorem racing_unlinks_dangle : NamesFile linkedAB pathA entryA (inodeA 2) (rootOf 2) ∧
    ∃ P, (concurrent steadyEnv (· = linkedAB)).Reach (fun _ a => UnlinksOf pathA a) P ∧
      (∀ t, returned (P.threads t) = true) ∧ (∃ t, P.threads t ≠ .idle) ∧
      (∃ d ∈ P.shared.dirents, d.id = entryA.id ∧ P.shared.inodes d.id = none) ∧
      ¬UnlinkedOnce entryA (inodeA 2) (rootOf 2) P := by
  have hrun : ((concurrent steadyEnv (· = linkedAB)).runChecked
      (fun _ a => a.below 2 && decide (UnlinksOf pathA a)) racingUnlinks
      ⟨linkedAB, fun _ => .idle⟩).map (fun P => ((List.range 2).all fun t => returned (P.threads t),
        (outcome 0 (P.threads 0)).map (fun x => x.2.1),
        (outcome 0 (P.threads 1)).map (fun x => x.2.1),
        P.shared.dirents.any fun d => d.id == entryA.id && (P.shared.inodes d.id).isNone)) =
      some (true, some 0, some 0, true) := by
    decide +kernel
  obtain ⟨P, hreach, hbelow, hout⟩ := exists_reach_below hrun rfl fun _ _ _ h => of_decide_eq_true h
  simp only [Prod.mk.injEq, List.any_eq_true, Bool.and_eq_true, beq_iff_eq,
    isNone_iff_eq_none] at hout
  obtain ⟨hall, h0, h1, d, hd, hid, hnone⟩ := hout
  obtain ⟨q₀, tr₀, hth₀⟩ := returnedWith_of_outcome h0
  obtain ⟨q₁, tr₁, hth₁⟩ := returnedWith_of_outcome h1
  refine ⟨linkedAB_namesFile, P, hreach, all_returned hbelow hall, ⟨0, ?_⟩, ⟨d, hd, hid, hnone⟩,
    fun honce => ?_⟩
  · rw [hth₀]
    exact nofun
  · obtain ⟨t, -, hu⟩ := honce.once
    have e0 := hu 0 ⟨_, _, hth₀⟩
    have e1 := hu 1 ⟨_, _, hth₁⟩
    omega

end StaxFS.Metadata
