import StaxFS.Table.Protocol

/-!
# The two-level hash table: what the result of a lookup rests on

A lookup decides by what it has read. Its trace is the evidence: a value is returned right after the
check of a scan (`Scanned`), and a key is reported as missing only if at every candidate bucket the
call has read a header without the fingerprint, or values of other keys in the slots that have it
(`Missed`), or has given up (`GaveUp`). Its candidates are those of the layout it has put together from
single loads (`loadedLayout`). Up to then the call has changed nothing: every header it has
written has the fingerprints of a header it had read (`WritesBack`).

Results:
* `along_search`: the rule of the phases of a lookup.
* `leads_findImpl`, `leads_actImpl`: **what a lookup reports is backed by its trace**.
-/

namespace StaxFS.Table

open Foundation Foundation.Prog List

variable {K L α R : Type}

/-- What holds of the trace and the result at the end of a program, whatever the answers are. -/
abbrev Leads (tr : Trace L) (p : M L α) (Q : Trace L → α → Prop) : Prop :=
  Along (fun _ _ => True) Q tr p

theorem leads_true {tr : Trace L} (p : M L α) : Leads tr p fun _ _ => True := by
  induction p generalizing tr with
  | pure x => trivial
  | call op k ih => exact ⟨trivial, fun r => ih r⟩

/-! ### The phases of a lookup -/

section Search

variable {I : Trace L → Prop} {Hit : Trace L → R → Prop} {Miss : Addr → Trace L → Prop}

/-- After a try at bucket `a`: a hit has evidence `Hit`, a miss has evidence `Miss`, and without a hit
`I` is kept. -/
def TryPost (I : Trace L → Prop) (Hit : Trace L → R → Prop) (Miss : Addr → Trace L → Prop)
    (a : Addr) (tr : Trace L) : Try R → Prop
  | .hit r => Hit tr r
  | .miss => I tr ∧ Miss a tr
  | .contended => I tr

/-- The same for a try that is not contended. -/
def LastPost (I : Trace L → Prop) (Hit : Trace L → R → Prop) (Miss : Addr → Trace L → Prop)
    (a : Addr) (tr : Trace L) : Option R → Prop
  | some r => Hit tr r
  | none => I tr ∧ Miss a tr

def TryLeads (I : Trace L → Prop) (Hit : Trace L → R → Prop) (Miss : Addr → Trace L → Prop)
    (a : Addr) (p : M L (Try R)) : Prop :=
  ∀ tr, I tr → Leads tr p (TryPost I Hit Miss a)

def LastLeads (I : Trace L → Prop) (Hit : Trace L → R → Prop) (Miss : Addr → Trace L → Prop)
    (a : Addr) (p : M L (Option R)) : Prop :=
  ∀ tr, I tr → Leads tr p (LastPost I Hit Miss a)

variable (hmono : ∀ a tr tr', tr <:+ tr' → Miss a tr → Miss a tr')

include hmono

variable {probe : Addr → M L (Try R)} {tr : Trace L}

theorem along_hinted (hhint : ∀ tr a fp r, I tr → I (⟨.hintTest a fp, r⟩ :: tr))
    (hp : ∀ a, TryLeads I Hit Miss a (probe a)) (fp : Nat) (cs : List Cand) (hI : I tr) :
    Leads tr (hinted fp probe cs) fun tr' x =>
      match x with
      | .inl r => Hit tr' r
      | .inr (contended, rest) =>
        I tr' ∧ ∀ c ∈ cs, Miss c.addr tr' ∨ c ∈ contended ∨ c ∈ rest := by
  induction cs generalizing tr with
  | nil => exact ⟨hI, nofun⟩
  | cons c cs ih =>
    refine along_step.mpr ⟨trivial, fun hint => ?_⟩
    have hI' := hhint tr c.addr fp hint hI
    cases hint with
    | true =>
      rw [if_pos rfl]
      refine (hp c.addr _ hI').bind fun tr1 x hx => ?_
      match x with
      | .hit r => exact hx
      | .miss =>
        refine ((ih hx.1).suffix).mono fun tr2 y hy => ?_
        match y with
        | .inl r => exact hy.1
        | .inr (contended, rest) =>
          exact ⟨hy.1.1, forall_mem_cons.mpr ⟨.inl (hmono _ _ _ hy.2 hx.2), hy.1.2⟩⟩
      | .contended =>
        refine (ih hx).bind fun tr2 y hy => ?_
        match y with
        | .inl r => exact hy
        | .inr (contended, rest) =>
          refine ⟨hy.1, forall_mem_cons.mpr ⟨.inr (.inl mem_cons_self), fun d hd => ?_⟩⟩
          exact (hy.2 d hd).imp_right fun h => h.imp_left (mem_cons_of_mem c)
    | false =>
      rw [if_neg (by decide)]
      refine (ih hI').bind fun tr2 y hy => ?_
      match y with
      | .inl r => exact hy
      | .inr (contended, rest) =>
        refine ⟨hy.1, forall_mem_cons.mpr ⟨.inr (.inr mem_cons_self), fun d hd => ?_⟩⟩
        exact (hy.2 d hd).imp_right fun h => h.imp_right (mem_cons_of_mem c)

theorem along_probeAll (hp : ∀ a, TryLeads I Hit Miss a (probe a)) (cs : List Cand) (hI : I tr) :
    Leads tr (probeAll probe cs) fun tr' x =>
      match x with
      | .inl r => Hit tr' r
      | .inr contended => I tr' ∧ ∀ c ∈ cs, Miss c.addr tr' ∨ c ∈ contended := by
  induction cs generalizing tr with
  | nil => exact ⟨hI, nofun⟩
  | cons c cs ih =>
    refine (hp c.addr _ hI).bind fun tr1 x hx => ?_
    match x with
    | .hit r => exact hx
    | .miss =>
      refine ((ih hx.1).suffix).mono fun tr2 y hy => ?_
      match y with
      | .inl r => exact hy.1
      | .inr contended =>
        exact ⟨hy.1.1, forall_mem_cons.mpr ⟨.inl (hmono _ _ _ hy.2 hx.2), hy.1.2⟩⟩
    | .contended =>
      refine (ih hx).bind fun tr2 y hy => ?_
      match y with
      | .inl r => exact hy
      | .inr contended =>
        refine ⟨hy.1, forall_mem_cons.mpr ⟨.inr mem_cons_self, fun d hd => ?_⟩⟩
        exact (hy.2 d hd).imp_right (mem_cons_of_mem c)

theorem along_firstHit {act : Cand → M L (Option R)}
    (ha : ∀ c, LastLeads I Hit Miss c.addr (act c)) (cs : List Cand) (hI : I tr) :
    Leads tr (firstHit act cs) fun tr' x =>
      match x with
      | some r => Hit tr' r
      | none => I tr' ∧ ∀ c ∈ cs, Miss c.addr tr' := by
  induction cs generalizing tr with
  | nil => exact ⟨hI, nofun⟩
  | cons c cs ih =>
    refine (ha c _ hI).bind fun tr1 x hx => ?_
    match x with
    | some r => exact hx
    | none =>
      refine ((ih hx.1).suffix).mono fun tr2 y hy => ?_
      match y with
      | some r => exact hy.1
      | none => exact ⟨hy.1.1, forall_mem_cons.mpr ⟨hmono _ _ _ hy.2 hx.2, hy.1.2⟩⟩

/-- **The phases of a lookup**: without a hit there was a miss at every candidate. -/
theorem along_search {retry : Addr → M L (Option R)}
    {again : Cand → M L (Option R)} (hhint : ∀ tr a fp r, I tr → I (⟨.hintTest a fp, r⟩ :: tr))
    (hp : ∀ a, TryLeads I Hit Miss a (probe a)) (hr : ∀ a, LastLeads I Hit Miss a (retry a))
    (ha : ∀ c, LastLeads I Hit (fun _ _ => True) c.addr (again c)) (fp : Nat) (cands : List Cand)
    (hI : I tr) : Leads tr (search fp cands probe retry again) fun tr' x =>
      match x with
      | some r => Hit tr' r
      | none => I tr' ∧ ∀ c ∈ cands, Miss c.addr tr' := by
  refine (along_hinted hmono hhint hp fp cands hI).bind fun tr1 x hx => ?_
  match x with
  | .inl r => exact hx
  | .inr (contended, rest) =>
    refine ((along_probeAll hmono hp rest hx.1).suffix).bind fun tr2 y hy => ?_
    match y with
    | .inl r => exact hy.1
    | .inr contended' =>
      refine ((along_firstHit hmono (fun c => hr c.addr) _ hy.1.1).suffix).bind fun tr3 z hz => ?_
      match z with
      | some r => exact hz.1
      | none =>
        have hall : ∀ c ∈ cands, Miss c.addr tr3 := by
          intro c hc
          have hwait : c ∈ contended ++ contended' → Miss c.addr tr3 := fun h =>
            hz.1.2 c (mem_filter.mpr ⟨hc, by simpa using h⟩)
          rcases hx.2 c hc with h | h | h
          · exact hmono _ _ _ (hy.2.trans hz.2) h
          · exact hwait (mem_append_left _ h)
          · rcases hy.1.2 c h with h | h
            · exact hmono _ _ _ hz.2 h
            · exact hwait (mem_append_right _ h)
        dsimp only
        split
        · refine ((along_firstHit (fun _ _ _ _ h => h) ha _ hz.1.1).suffix).mono fun tr4 w hw => ?_
          match w with
          | some r => exact hw.1
          | none => exact ⟨hw.1.1, fun c hc => hmono _ _ _ hw.2 (hall c hc)⟩
        · exact ⟨hz.1.1, hall⟩

end Search

/-! ### Evidence -/

/-- The call has only written back fingerprints it had read. -/
def WritesBack : Trace L → Prop
  | [] => True
  | ⟨.writeHeader a keys, _⟩ :: tr =>
    (∃ keys', ⟨.readHeader a, keys'⟩ ∈ tr ∧ keys.fp = keys'.fp) ∧ WritesBack tr
  | ⟨.writeLine .., _⟩ :: _ => False
  | _ :: tr => WritesBack tr

/-- The event ends a wait: a forced clear, or a turn of a loop that does not end. -/
def isGivingUp : Event (Op L) Res → Bool
  | ⟨.casHeader _ expected _, _⟩ => expected.dirty
  | ⟨.spin, _⟩ => true
  | _ => false

def GaveUp (tr : Trace L) : Prop := ∃ e ∈ tr, isGivingUp e = true

def activeLoad : Event (Op L) Res → Option Bool
  | ⟨.loadActive, b⟩ => some b
  | _ => none

def memberLoad (m : Member) : Event (Op L) Res → Option Nat
  | ⟨.loadMember m', x⟩ => if m' = m then some x else none
  | _ => none

/-- The layout that the last eight events put together, if they are a turn of the loop of
`get_candidates` that ends it. -/
def loadedLayout : Trace L → Option Layout
  | e8 :: e7 :: e6 :: e5 :: e4 :: e3 :: e2 :: e1 :: _ => do
    let active' ← activeLoad e8
    let active ← activeLoad e1
    let tlOffset ← memberLoad .tlOffset e2
    let tlN ← memberLoad .tlN e3
    let blOffset ← memberLoad .blOffset e4
    let blN ← memberLoad .blN e5
    let oldBlOffset ← memberLoad .oldBlOffset e6
    let oldBlN ← memberLoad .oldBlN e7
    if active = active' then some ⟨active', tlOffset, tlN, blOffset, blN, oldBlOffset, oldBlN⟩ else none
  | _ => none

variable (H : Hashing K L) (key : K)

/-- The call has read another key in the slot. -/
def OtherKey (a : Addr) (tr : Trace L) (s : Slot) : Prop :=
  ∃ x y, ⟨.readLine a s false, x⟩ ∈ tr ∧ ⟨.readLine a s true, y⟩ ∈ tr ∧
    H.isMatch (x, y) key = false

/-- The call has read that the key is not in the bucket, or has given up. -/
def Missed (a : Addr) (tr : Trace L) : Prop :=
  (∃ keys, ⟨.readHeader a, keys⟩ ∈ tr ∧
    ∀ s, keys.fp s = H.makeFp key → OtherKey H key a tr s) ∨ GaveUp tr

/-- The call has just checked a value it has read: it was read between two reads of the header with
one and the same unlocked word. -/
def Scanned (v : L × L) (tr : Trace L) : Prop :=
  ∃ a s keys keys2 mid older,
    tr = ⟨.readHeader a, keys2⟩ :: ⟨.readLine a s true, v.2⟩ :: ⟨.readLine a s false, v.1⟩ ::
      mid ++ ⟨.readHeader a, keys⟩ :: older ∧
    keys.dirty = false ∧ keys.fp s = H.makeFp key ∧ keys2.word = keys.word ∧
    H.isMatch v key = true

variable {H key} {a : Addr} {keys : Header} {tr tr' : Trace L}

theorem OtherKey.mono {s : Slot} (h : OtherKey H key a tr s) (hs : tr <:+ tr') :
    OtherKey H key a tr' s := by
  obtain ⟨x, y, hx, hy, hm⟩ := h
  exact ⟨x, y, hs.subset hx, hs.subset hy, hm⟩

theorem GaveUp.mono (h : GaveUp tr) (hs : tr <:+ tr') : GaveUp tr' := by
  obtain ⟨e, he, hg⟩ := h
  exact ⟨e, hs.subset he, hg⟩

theorem missed_mono (a : Addr) (tr tr' : Trace L) (hs : tr <:+ tr') (h : Missed H key a tr) :
    Missed H key a tr' := by
  rcases h with ⟨keys, hk, hall⟩ | h
  · exact .inl ⟨keys, hs.subset hk, fun s hfp => (hall s hfp).mono hs⟩
  · exact .inr (h.mono hs)

theorem writesBack_plain {op : Op L} (h : Plain op) (r : Res op) (htr : WritesBack tr) :
    WritesBack (⟨op, r⟩ :: tr) := by
  cases op <;> first | exact htr | exact h.elim

theorem Calm.leads {p : M L α} (h : Calm p) (htr : WritesBack tr) :
    Leads tr p fun tr' _ => WritesBack tr' := by
  replace h := h tr
  induction p generalizing tr with
  | pure x => exact htr
  | call op k ih => exact ⟨trivial, fun r => ih r (writesBack_plain h.1 r htr) (h.2 r)⟩

/-! ### Waiting -/

theorem leads_waitForUnlock (n : Nat) (hd : keys.dirty = true) (htr : WritesBack tr) :
    Leads tr (waitForUnlock a n keys) fun tr' r =>
      WritesBack tr' ∧ ⟨.readHeader a, r.2⟩ ∈ tr' ∧
        (r.1 = true → r.2.dirty = false) ∧ (r.1 = false → GaveUp tr') := by
  induction n generalizing keys tr with
  | zero =>
    refine ⟨trivial, fun won => ⟨trivial, fun keys' => ⟨htr, mem_cons_self, by simp, ?_⟩⟩⟩
    exact fun _ => ⟨_, mem_cons_of_mem _ mem_cons_self, hd⟩
  | succ n ih =>
    refine ⟨trivial, fun keys' => ?_⟩
    change Leads _ (if (!keys'.dirty) = true then Pure.pure (true, keys') else
      waitForUnlock a n keys') _
    cases hd' : keys'.dirty with
    | false => exact ⟨htr, mem_cons_self, fun _ => hd', nofun⟩
    | true => exact ih hd' htr

theorem leads_readUnlocked (a : Addr) (htr : WritesBack tr) : Leads tr (readUnlocked a) fun tr' r =>
      WritesBack tr' ∧
        match r with
        | some keys => ⟨.readHeader a, keys⟩ ∈ tr'
        | none => GaveUp tr' := by
  refine along_step.mpr ⟨trivial, fun keys => ?_⟩
  have htr' : WritesBack (⟨.readHeader a, keys⟩ :: tr) := htr
  split
  · next hd =>
    refine (leads_waitForUnlock kMaxSpins hd htr').bind ?_
    rintro tr' ⟨ok, keys'⟩ ⟨hw, hread, -, hgave⟩
    cases ok with
    | true => exact ⟨hw, hread⟩
    | false => exact ⟨hw, hgave rfl⟩
  · exact ⟨htr, mem_cons_self⟩

/-! ### `find` -/

/-- A scan of a bucket whose header was read as `keys`. -/
theorem leads_scanBucketSlots (hd : keys.dirty = false) (hread : ⟨.readHeader a, keys⟩ ∈ tr)
    (htr : WritesBack tr) (ss : List Slot) :
    Leads tr (scanBucketSlots H a keys (H.makeFp key) key ss) fun tr' x =>
      match x with
      | .hit v => Scanned H key v tr'
      | .miss => WritesBack tr' ∧ ∀ s ∈ ss, keys.fp s = H.makeFp key → OtherKey H key a tr' s
      | .contended => WritesBack tr' := by
  induction ss generalizing tr with
  | nil => exact ⟨htr, fun _ hs => by cases hs⟩
  | cons s ss ih =>
    unfold scanBucketSlots
    split
    · next hskip =>
      have hne : keys.fp s ≠ H.makeFp key := by
        rcases hskip with h0 | hne
        · rw [h0]
          exact (H.makeFp_ne_zero key).symm
        · exact hne
      refine (ih hread htr).mono fun tr' x hx => ?_
      cases x with
      | hit v | contended => exact hx
      | miss => exact ⟨hx.1, forall_mem_cons.mpr ⟨fun h => absurd h hne, hx.2⟩⟩
    · next hfp =>
      refine along_step.mpr ⟨trivial, fun x => along_step.mpr ⟨trivial, fun y => ?_⟩⟩
      refine along_step.mpr ⟨trivial, fun keys2 => ?_⟩
      split
      · exact htr
      next hword =>
      split
      · next hmatch =>
        obtain ⟨mid, older, rfl⟩ := append_of_mem hread
        have hfp' : keys.fp s = H.makeFp key := by
          by_contra hne
          exact hfp (.inr hne)
        exact ⟨a, s, keys, keys2, mid, older, rfl, hd, hfp', not_not.mp hword, hmatch⟩
      · next hmatch =>
        have hread' : ⟨.readHeader a, keys⟩ ∈ (⟨.readHeader a, keys2⟩ :: ⟨.readLine a s true, y⟩ ::
            ⟨.readLine a s false, x⟩ :: tr : Trace L) := by simp [hread]
        refine ((ih hread' htr).suffix).mono fun tr' z hz => ?_
        cases z with
        | hit v | contended => exact hz.1
        | miss =>
          refine ⟨hz.1.1, forall_mem_cons.mpr ⟨fun _ => ?_, hz.1.2⟩⟩
          exact ⟨x, y, hz.2.subset (by simp), hz.2.subset (by simp), by simpa using hmatch⟩

theorem mem_slots (s : Slot) : s ∈ slots := mem_finRange s

/-- A whole scan. -/
theorem leads_scan (hd : keys.dirty = false) (hread : ⟨.readHeader a, keys⟩ ∈ tr)
    (htr : WritesBack tr) : Leads tr (scanBucketSlots H a keys (H.makeFp key) key slots)
      (TryPost WritesBack (fun tr v => Scanned H key v tr) (Missed H key) a) := by
  refine ((leads_scanBucketSlots hd hread htr slots).suffix).mono fun tr' x hx => ?_
  match x with
  | .hit v => exact hx.1
  | .miss =>
    exact ⟨hx.1.1, .inl ⟨keys, hx.2.subset hread, fun s hs => hx.1.2 s (mem_slots s) hs⟩⟩
  | .contended => exact hx.1

theorem leads_findInBucket (H : Hashing K L) (key : K) (a : Addr) :
    TryLeads WritesBack (fun tr v => Scanned H key v tr) (Missed H key) a
      (findInBucket H (H.makeFp key) key a) := by
  intro tr htr
  refine along_step.mpr ⟨trivial, fun keys => ?_⟩
  split
  · exact htr
  · next hd => exact leads_scan (by simpa using hd) mem_cons_self htr

theorem leads_findRetry (fuel : Nat) (a : Addr) :
    LastLeads WritesBack (fun tr v => Scanned H key v tr) (Missed H key) a
      (findRetry H (H.makeFp key) key a fuel) := by
  induction fuel with
  | zero =>
    intro tr htr
    exact along_step.mpr ⟨trivial, fun _ => ⟨htr, .inr ⟨_, mem_cons_self, rfl⟩⟩⟩
  | succ fuel ih =>
    intro tr htr
    refine along_step.mpr ⟨trivial, fun keys => ?_⟩
    have htr' : WritesBack (⟨.readHeader a, keys⟩ :: tr) := htr
    split
    · next hd =>
      exact (leads_waitForUnlock kMaxSpins hd htr').bind fun tr' _ hw => ih tr' hw.1
    · next hd =>
      refine (leads_scan (by simpa using hd) mem_cons_self htr).bind ?_
      intro tr' x hx
      match x with
      | .hit v => exact hx
      | .miss => exact hx
      | .contended => exact ih tr' hx

theorem leads_orNone {Hit : Trace L → R → Prop} {Miss : Addr → Trace L → Prop} {p : M L (Try R)}
    (h : TryLeads WritesBack Hit Miss a p) :
    LastLeads WritesBack Hit (fun _ _ => True) a (orNone p) := by
  intro tr htr
  refine (h tr htr).bind fun tr' x hx => ?_
  match x with
  | .hit r => exact hx
  | .miss => exact ⟨hx.1, trivial⟩
  | .contended => exact ⟨hx, trivial⟩

/-! ### Candidates -/

/-- The call has loaded the layout. -/
def Loaded (l : Layout) (tr : Trace L) : Prop := ∃ tr1, tr1 <:+ tr ∧ loadedLayout tr1 = some l

theorem leads_loadLayout (htr : WritesBack tr) : Leads tr loadLayout fun tr' x =>
    WritesBack tr' ∧ (x.1 = true → Loaded x.2 tr') := by
  iterate 8 refine along_step.mpr ⟨trivial, fun _ => ?_⟩
  refine ⟨htr, fun h => ⟨_, suffix_refl _, ?_⟩⟩
  simp [loadedLayout, activeLoad, memberLoad, beq_iff_eq.mp h]

theorem leads_getLayout (fuel : Nat) (htr : WritesBack tr) :
    Leads tr (getLayout fuel) fun tr' l => WritesBack tr' ∧ (Loaded l tr' ∨ GaveUp tr') := by
  induction fuel generalizing tr with
  | zero =>
    refine (leads_loadLayout htr).bind ?_
    rintro tr' ⟨same, l⟩ ⟨hw, hl⟩
    cases same with
    | true => exact ⟨hw, .inl (hl rfl)⟩
    | false => exact along_step.mpr ⟨trivial, fun _ => ⟨hw, .inr ⟨_, mem_cons_self, rfl⟩⟩⟩
  | succ fuel ih =>
    refine (leads_loadLayout htr).bind ?_
    rintro tr' ⟨same, l⟩ ⟨hw, hl⟩
    cases same with
    | true => exact ⟨hw, .inl (hl rfl)⟩
    | false => exact ih hw

theorem leads_getCandidates {f : Candidates → M L α} {Q : Trace L → α → Prop} (fuel : Nat)
    (htr : WritesBack tr) (hf : ∀ tr0 l, WritesBack tr0 → Loaded l tr0 ∨ GaveUp tr0 →
      Leads tr0 (f (H.candidates l key)) Q) : Leads tr (getCandidates H fuel key >>= f) Q :=
  along_bind.mpr ((leads_getLayout fuel htr).bind fun tr0 l hl => hf tr0 l hl.1 hl.2)

/-- The call has missed the key at every candidate of a layout it has loaded, or has given up. -/
def MissedAll (H : Hashing K L) (key : K) (tr : Trace L) : Prop :=
  WritesBack tr ∧ (GaveUp tr ∨
    ∃ l, Loaded l tr ∧ ∀ c ∈ (H.candidates l key).list, Missed H key c.addr tr)

/-- What is missed at the candidates of the layout a call has got. -/
theorem missedAll_of_getLayout {l : Layout} (hl : Loaded l tr ∨ GaveUp tr) (hs : tr <:+ tr')
    (hw : WritesBack tr') (hall : ∀ c ∈ (H.candidates l key).list, Missed H key c.addr tr') :
    MissedAll H key tr' := by
  refine ⟨hw, hl.symm.imp (fun hg => hg.mono hs) ?_⟩
  rintro ⟨tr1, hs1, hl⟩
  exact ⟨l, ⟨tr1, hs1.trans hs, hl⟩, hall⟩

/-- **A `find` that returns a value has just checked it, and one that returns none has missed the key
everywhere.** -/
theorem leads_findImpl (fuel : Nat) (htr : WritesBack tr) :
    Leads tr (findImpl H fuel key) fun tr' x =>
      match x with
      | some v => Scanned H key v tr'
      | none => MissedAll H key tr' := by
  refine leads_getCandidates fuel htr fun tr0 l hw hl => ?_
  refine ((along_search missed_mono (fun _ _ _ _ h => h) (leads_findInBucket H key)
    (leads_findRetry fuel) (fun c => leads_orNone (leads_findInBucket H key c.addr)) _ _
      hw).suffix).mono fun tr' x hx => ?_
  match x with
  | some v => exact hx.1
  | none => exact missedAll_of_getLayout hl hx.2 hx.1.1 hx.1.2

/-! ### `update` and `erase` -/

/-- The evidence of an operation that acts on a bucket whose header it has read: nothing is said about
a hit. -/
abbrev ActLeads (H : Hashing K L) (key : K) (act : Addr → Header → M L (Try R)) : Prop :=
  ∀ a keys tr, ⟨.readHeader a, keys⟩ ∈ tr → WritesBack tr →
    Leads tr (act a keys) (TryPost WritesBack (fun _ _ => True) (Missed H key) a)

theorem leads_findLocked (htr : WritesBack tr) (ss : List Slot) :
    Leads tr (findLocked H a keys (H.makeFp key) key ss) fun tr' x =>
      x = none → WritesBack tr' ∧
        ∀ s ∈ ss, keys.fp s = H.makeFp key → OtherKey H key a tr' s := by
  induction ss generalizing tr with
  | nil => exact fun _ => ⟨htr, fun _ hs => by cases hs⟩
  | cons s ss ih =>
    unfold findLocked
    split
    · refine along_step.mpr ⟨trivial, fun x => along_step.mpr ⟨trivial, fun y => ?_⟩⟩
      change Leads _ (if H.isMatch (x, y) key = true then _ else _) _
      split
      · intro he
        cases he
      · next hmatch =>
        have htr' : WritesBack (⟨.readLine a s true, y⟩ :: ⟨.readLine a s false, x⟩ :: tr) := htr
        refine ((ih htr').suffix).mono fun tr' z hz hnone => ?_
        refine ⟨(hz.1 hnone).1, forall_mem_cons.mpr ⟨fun _ => ?_, (hz.1 hnone).2⟩⟩
        exact ⟨x, y, hz.2.subset (by simp), hz.2.subset (by simp), by simpa using hmatch⟩
    · next hfp =>
      exact (ih htr).mono fun tr' z hz hnone =>
        ⟨(hz hnone).1, forall_mem_cons.mpr ⟨fun h => absurd h hfp, (hz hnone).2⟩⟩

/-- Lock and look; the bucket is unlocked again if the key is not there. -/
theorem leads_locked {f : Option (Slot × (L × L)) → M L (Try R)}
    (hnone : f none = unlockBucket a keys >>= fun _ => Pure.pure .miss)
    (hsome : ∀ x tr, Leads tr (f (some x))
      (TryPost WritesBack (fun _ _ => True) (Missed H key) a))
    (hread : ⟨.readHeader a, keys⟩ ∈ tr) (htr : WritesBack tr) :
    Leads tr (lockBucket a keys >>= fun won => if (!won) = true then Pure.pure .contended else
        findLocked H a keys (H.makeFp key) key slots >>= f)
      (TryPost WritesBack (fun _ _ => True) (Missed H key) a) := by
  refine along_step.mpr ⟨trivial, fun won => ?_⟩
  cases won with
  | false => exact htr
  | true =>
    have htr' : WritesBack
        (⟨.casHeader a keys.word (makeLocked keys.word), true⟩ :: tr) := htr
    refine ((leads_findLocked htr' slots).suffix).bind fun tr' x hx => ?_
    match x with
    | none =>
      obtain ⟨hw, hother⟩ := hx.1 rfl
      have hread' := hx.2.subset (mem_cons_of_mem _ hread)
      rw [hnone]
      refine along_step.mpr ⟨trivial, fun _ => ⟨⟨⟨keys, hread', rfl⟩, hw⟩, .inl ⟨keys, ?_⟩⟩⟩
      exact ⟨mem_cons_of_mem _ hread', fun s hs =>
        (hother s (mem_slots s) hs).mono (suffix_cons _ _)⟩
    | some x => exact hsome x tr'

theorem leads_tryEraseFrom (H : Hashing K L) (key : K) :
    ActLeads H key fun a keys => tryEraseFrom H a keys (H.makeFp key) key := by
  intro a keys tr hread htr
  refine leads_locked rfl (fun x tr' => ?_) hread htr
  exact ⟨trivial, fun _ => ⟨trivial, fun _ => trivial⟩⟩

theorem leads_tryUpdateIn (H : Hashing K L) (key : K) (writeFn : L × L → L × L) :
    ActLeads H key fun a keys => tryUpdateIn H writeFn a keys (H.makeFp key) key := by
  intro a keys tr hread htr
  refine leads_locked rfl (fun x tr' => ?_) hread htr
  exact ⟨trivial, fun _ => ⟨trivial, fun _ => ⟨trivial, fun _ => trivial⟩⟩⟩

/-- A header without the fingerprint. -/
theorem missed_of_findFpSlot (h : keys.findFpSlot (H.makeFp key) = none)
    (hread : ⟨.readHeader a, keys⟩ ∈ tr) : Missed H key a tr := by
  refine .inl ⟨keys, hread, fun s hs => ?_⟩
  have := find?_eq_none.mp h s (mem_slots s)
  simp [hs, H.makeFp_ne_zero key] at this

section Act

variable {act : Addr → Header → M L (Try R)} (hact : ActLeads H key act)

include hact

theorem leads_tryBucket (a : Addr) :
    TryLeads WritesBack (fun _ _ => True) (Missed H key) a (tryBucket act (H.makeFp key) a) := by
  intro tr htr
  refine along_step.mpr ⟨trivial, fun keys => ?_⟩
  have htr' : WritesBack (⟨.readHeader a, keys⟩ :: tr) := htr
  split
  · exact htr
  · split
    · next hnone => exact ⟨htr', missed_of_findFpSlot hnone mem_cons_self⟩
    · exact hact a keys _ mem_cons_self htr'

theorem leads_actRetry (fuel : Nat) (a : Addr) :
    LastLeads WritesBack (fun _ _ => True) (Missed H key) a
      (actRetry act (H.makeFp key) a fuel) := by
  induction fuel with
  | zero =>
    intro tr htr
    exact along_step.mpr ⟨trivial, fun _ => ⟨htr, .inr ⟨_, mem_cons_self, rfl⟩⟩⟩
  | succ fuel ih =>
    intro tr htr
    refine (leads_readUnlocked a htr).bind fun tr' x hx => ?_
    match x with
    | none => exact ⟨hx.1, .inr hx.2⟩
    | some keys =>
      dsimp only
      split
      · next hnone => exact ⟨hx.1, missed_of_findFpSlot hnone hx.2⟩
      · refine (hact a keys tr' hx.2 hx.1).bind fun tr'' y hy => ?_
        match y with
        | .hit r => exact hy
        | .miss => exact hy
        | .contended => exact ih tr'' hy

theorem leads_actAgain (c : Cand) : LastLeads WritesBack (fun _ _ => True) (fun _ _ => True) c.addr
      (actAgain act (H.makeFp key) c) := by
  intro tr htr
  refine along_step.mpr ⟨trivial, fun base => ?_⟩
  have htr' : WritesBack (⟨.loadMember c.level.offset, base⟩ :: tr) := htr
  exact (leads_orNone (leads_tryBucket hact _) _ htr').mono fun tr' x hx => by
    cases x <;> exact hx

end Act

/-- **An `update` or `erase` that reports no key has missed it everywhere.** -/
theorem leads_actImpl (act : Addr → Header → Nat → M L (Try R))
    (hact : ActLeads H key fun a keys => act a keys (H.makeFp key)) (fuel : Nat)
    (htr : WritesBack tr) :
    Leads tr (actImpl H fuel key act) fun tr' x => x = none → MissedAll H key tr' := by
  refine leads_getCandidates fuel htr fun tr0 l hw hl => ?_
  refine ((along_search missed_mono (fun _ _ _ _ h => h) (leads_tryBucket hact)
    (leads_actRetry hact fuel) (leads_actAgain hact) _ _ hw).suffix).mono
      fun tr' x hx hnone => ?_
  subst hnone
  exact missedAll_of_getLayout hl hx.2 hx.1.1 hx.1.2

/-! ### Public operations -/

/-- The key of an operation that looks one up. -/
def Request.lookup : Request K L → Option K
  | .insert .. => none
  | .find key => some key
  | .update key _ => some key
  | .erase key => some key

/-- At some point of the call the evidence was complete. -/
theorem leads_body (C : Config K L) (q : Request K L) (hq : q.lookup = some key) :
    Leads [] (body C q) fun tr' x =>
      (x = none → ∃ tr1, tr1 <:+ tr' ∧ MissedAll C.hashing key tr1) ∧
      ∀ v, x = some v → q = .find key → ∃ tr1, tr1 <:+ tr' ∧ Scanned C.hashing key v tr1 := by
  have hpre : Leads [] (preOp C) fun tr' _ => WritesBack tr' := (calm_preOp C).leads trivial
  refine hpre.bind fun tr0 _ htr0 => ?_
  have hop : Leads tr0 (operation C q) fun tr1 x =>
      (x = none → MissedAll C.hashing key tr1) ∧
      ∀ v, x = some v → q = .find key → Scanned C.hashing key v tr1 := by
    cases q with
    | insert key' v => cases hq
    | find key' =>
      cases hq
      refine (leads_findImpl C.fuel htr0).mono fun tr1 x hx => ?_
      match x with
      | some v => exact ⟨nofun, fun w hw _ => Option.some.inj hw ▸ hx⟩
      | none => exact ⟨fun _ => hx, nofun⟩
    | update key' writeFn =>
      cases hq
      exact (leads_actImpl (fun a keys fp => tryUpdateIn C.hashing writeFn a keys fp key)
        (leads_tryUpdateIn C.hashing key writeFn) C.fuel htr0).mono fun tr1 x hx =>
        ⟨hx, fun _ _ => nofun⟩
    | erase key' =>
      cases hq
      exact (leads_actImpl (fun a keys fp => tryEraseFrom C.hashing a keys fp key)
        (leads_tryEraseFrom C.hashing key) C.fuel htr0).mono fun tr1 x hx =>
        ⟨hx, fun _ _ => nofun⟩
  refine hop.bind fun tr1 x hx => ?_
  -- what comes after the operation only makes the trace longer
  have hpost : Leads tr1 (postOp C) fun _ _ => True := leads_true _
  refine hpost.suffix.bind fun tr2 _ hsuf => ?_
  exact ⟨fun hnone => ⟨tr1, hsuf.2, hx.1 hnone⟩, fun v hv hf => ⟨tr1, hsuf.2, hx.2 v hv hf⟩⟩

end StaxFS.Table
