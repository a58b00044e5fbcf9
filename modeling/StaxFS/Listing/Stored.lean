import StaxFS.Wal.Invariant

/-!
# What the checkpoint has stored

The events a checkpoint cycle decodes are first buffered and then flushed to the dent region, one
directory at a time. `DentInv` ties the dent region and the buffer to the records of the log: what is
stored beyond the initial contents comes from records behind the replay frontier, and every event of
such a record is stored or still in the buffer of the running cycle.

Results:
* `DentInv.of_reach`: the invariant holds, for some initial contents, in every run whose skips only
  pass slots of crashed calls; `DentInv.step` keeps it for the same contents.
-/

namespace StaxFS.Wal

open Dent AppendPc List

/-- The dent buffer of the running cycle. -/
def CkptPc.buffer : CkptPc → List (Nat × DentEntry)
  | .replay _ _ _ buffer | .names _ _ _ buffer _ _ | .flush _ _ buffer => buffer
  | .loop | .clearing _ | .worked | .orphan | .skipAdvance | .skipClear _ => []

/-- A returned record that starts below `limit` says `e` about directory `dir`. -/
def Logged (s : Sys) (limit dir : Nat) (e : DentEntry) : Prop :=
  ∃ t req pos l v, s.apps t = .returned req pos l v ∧ pos < limit ∧ (dir, e) ∈ req.events v

variable {s s' : Sys}

theorem Logged.mono {limit limit' dir : Nat} {e : DentEntry}
    (h : Logged s limit dir e) (hl : limit ≤ limit')
    (ha : ∀ t req pos l v, s.apps t = .returned req pos l v → s'.apps t = .returned req pos l v) :
    Logged s' limit' dir e := by
  obtain ⟨t, req, pos, l, v, ht, hlt, he⟩ := h
  exact ⟨t, req, pos, l, v, ha t req pos l v ht, by omega, he⟩

/-- What is stored, relative to the contents `d0` the dent region started with. -/
structure DentInv (d0 : SSDDentRegion) (s : Sys) : Prop where
  wf : s.dent.WF
  stored : ∀ {dir e}, s.dent.Stored dir e → d0.Stored dir e ∨ Logged s s.frontier dir e
  buffered : ∀ {dir e}, (dir, e) ∈ s.ckpt.buffer → Logged s s.frontier dir e
  kept : ∀ {dir e}, d0.Stored dir e → s.dent.Stored dir e
  complete : ∀ {dir e}, Logged s s.frontier dir e →
    s.dent.Stored dir e ∨ (dir, e) ∈ s.ckpt.buffer
  /-- the buffer only holds events of the running cycle -/
  settled : ∀ {dir e}, Logged s (max s.pendingMain s.cp) dir e → s.dent.Stored dir e

namespace DentInv

variable {c : Config} {d0 : SSDDentRegion} {s s' : Sys}

theorem init (hd : d0.WF) : DentInv d0 (Sys.init d0) := by
  have hno : ∀ {limit dir e}, ¬Logged (Sys.init d0) limit dir e := by
    rintro limit dir e ⟨t, req, pos, l, v, ht, -⟩
    cases ht
  exact ⟨hd, fun h => .inl h, fun h => absurd h not_mem_nil, fun h => h,
    fun h => absurd h hno, fun h => absurd h hno⟩

/-- A step that leaves the dent region and the buffer alone and moves no record across the
frontier. -/
theorem congr (h : DentInv d0 s) (hdent : s'.dent = s.dent) (hbuf : s'.ckpt.buffer = s.ckpt.buffer)
    (hlog : ∀ dir e, Logged s' s'.frontier dir e ↔ Logged s s.frontier dir e)
    (hset : ∀ dir e, Logged s' (max s'.pendingMain s'.cp) dir e → s.dent.Stored dir e) :
    DentInv d0 s' := by
  refine ⟨hdent ▸ h.wf, fun hs => ?_, fun hb => ?_, fun hs => ?_, fun hl => ?_, fun hl => ?_⟩
  · rw [hdent] at hs
    rw [hlog]
    exact h.stored hs
  · rw [hbuf] at hb
    rw [hlog]
    exact h.buffered hb
  · rw [hdent]
    exact h.kept hs
  · rw [hdent, hbuf]
    exact h.complete ((hlog _ _).mp hl)
  · rw [hdent]
    exact hset _ _ hl

/-- The same, for a step of the checkpoint thread that moves neither the frontier nor what is
settled. -/
theorem goto (h : DentInv d0 s) {pc : CkptPc} (hpc : s.ckpt = pc) (hdent : s'.dent = s.dent)
    (happs : s'.apps = s.apps) (hbuf : s'.ckpt.buffer = pc.buffer)
    (hfr : s'.frontier = pc.frontier s.pendingMain s.cp)
    (hset : max s'.pendingMain s'.cp ≤ max s.pendingMain s.cp) : DentInv d0 s' := by
  subst hpc
  have hlog : ∀ limit dir e, Logged s' limit dir e ↔ Logged s limit dir e := by
    intro limit dir e
    unfold Logged
    rw [happs]
  refine h.congr hdent hbuf (fun dir e => by rw [hfr, hlog]; rfl) fun dir e hl => h.settled ?_
  exact ((hlog _ _ _).mp hl).mono hset fun _ _ _ _ _ ht => ht

end DentInv

/-! ### Steps -/

variable {a : Act} {pos : Nat} {req : LogRequest} {c : Config}

/-- A returned call stays returned. -/
theorem returned_stable (hst : step c s a = some s')
    {t l v : Nat} (ht : s.apps t = .returned req pos l v) : s'.apps t = .returned req pos l v := by
  cases Step.of_step hst with
  | @app t' _ _ _ hst =>
    have hne : ∀ {pc}, s.apps t' = pc → (∀ req pos l v, pc ≠ .returned req pos l v) → t ≠ t' := by
      rintro pc hpc hnot rfl
      exact hnot req pos l v (hpc.symm.trans ht)
    cases hst with
    | begin h _ | room h _ | noRoom h _ | reserve h | retry h | seqDrawn h _ | stamp h
    | continuation h | publish h =>
      simp only [Sys.setApp, Sys.dramWrite]
      rw [Function.update_of_ne (hne h (by simp))]
      exact ht
    | seqZero h => exact ht
    | crash _ _ _ => exact ht
  | ckpt hst | list hst => cases hst <;> exact ht

/-- A call that returns in this step has its record ahead of the frontier. -/
theorem RingInv.returned_new (hi : RingInv c s)
    (hst : (system c).step s a = some s') {t l v : Nat} (ht : s'.apps t = .returned req pos l v) :
    s.apps t = .returned req pos l v ∨ s.frontier ≤ pos := by
  cases Step.of_step hst with
  | @app t' _ _ hlive hst =>
    by_cases htt : t = t'
    · subst htt
      cases hst with
      | begin h _ | room h _ | noRoom h _ | reserve h | retry h | seqDrawn h _ | stamp h
      | continuation h =>
        simp only [Sys.setApp, Sys.dramWrite, Function.update_self] at ht
        cases ht
      | publish h =>
        simp only [Sys.setApp, Sys.dramWrite, Function.update_self] at ht
        cases ht
        rcases hi.progress.live hlive (by rw [h]; rfl) with ⟨⟨_, _, _, _, hr⟩, -⟩ | hle
        · rw [h] at hr
          cases hr
        · exact .inr hle
      | seqZero h => exact .inl ht
      | crash _ _ _ => exact .inl ht
    · left
      cases hst with
      | begin h _ | room h _ | noRoom h _ | reserve h | retry h | seqDrawn h _ | stamp h
      | continuation h | publish h =>
        simp only [Sys.setApp, Sys.dramWrite] at ht
        rwa [Function.update_of_ne htt] at ht
      | seqZero h => exact ht
      | crash _ _ _ => exact ht
  | ckpt hst | list hst => cases hst <;> exact .inl ht

/-- What is settled lies behind the frontier. -/
theorem RingInv.settled_le {s : Sys} (h : RingInv c s) : max s.pendingMain s.cp ≤ s.frontier := by
  have hp := h.pcOk
  unfold Sys.PcOk at hp
  unfold Sys.frontier
  cases hpc : s.ckpt <;> simp only [hpc, CkptPc.frontier] at hp ⊢ <;> first | exact le_rfl | omega

namespace DentInv

variable {c : Config} {d0 : SSDDentRegion} {s s' : Sys} {env : CycleEnv}
  {buffer : List (Nat × DentEntry)}

section

variable (h : DentInv d0 s)

include h

/-- A step that changes nothing but append calls and the listing. -/
theorem appStep (hi : RingInv c s) (hst : step c s a = some s')
    (hdent : s'.dent = s.dent) (hck : s'.ckpt = s.ckpt) (hpm : s'.pendingMain = s.pendingMain)
    (hcp : s'.cp = s.cp) : DentInv d0 s' := by
  have hfr : s'.frontier = s.frontier := by rw [Sys.frontier, hck, hpm, hcp]; rfl
  have hlog : ∀ {limit dir e}, limit ≤ s.frontier →
      (Logged s' limit dir e ↔ Logged s limit dir e) := by
    intro limit dir e hle
    constructor
    · rintro ⟨t, req, pos, l, v, ht, hlt, he⟩
      rcases hi.returned_new hst ht with ht' | hf
      · exact ⟨t, req, pos, l, v, ht', hlt, he⟩
      · omega
    · exact fun hl => hl.mono le_rfl fun t req pos l v ht => returned_stable hst ht
  refine h.congr hdent (by rw [hck]) (fun dir e => by rw [hfr]; exact hlog le_rfl)
    fun dir e hl => ?_
  rw [hpm, hcp] at hl
  exact h.settled ((hlog hi.settled_le).mp hl)

/-- A decoded record: its events join the buffer as the frontier passes it. -/
theorem decode (hi : RingInv c s) {head : Nat} {e : CompactLogEntry}
    {got : List (List Byte)} {stale : Buf}
    (hpc : s.ckpt = .names env pos head buffer e got) (hneed : needsCont e got.length = false)
    (hdent : s'.dent = s.dent) (happs : s'.apps = s.apps) (hpm : s'.pendingMain = s.pendingMain)
    (hcp : s'.cp = s.cp) (hfr : s'.frontier = pos + e.slotCount)
    (hbuf : s'.ckpt.buffer = buffer ++ replayDents stale e got) : DentInv d0 s' := by
  have hp := hi.pcOk
  simp only [Sys.PcOk, hpc] at hp
  obtain ⟨-, -, t, req, l, v, ht, rfl, hgot⟩ := hp
  have hwf := hi.ledger.wf t
  rw [ht] at hwf
  rw [RingInv.conts_of_not_needsCont hwf.1 hwf.2 hgot hneed, replayDents_published hwf.1] at hbuf
  rw [LogRequest.slotCount_published hwf.1 hwf.2] at hfr
  have hf : s.frontier = pos := by simp [Sys.frontier, hpc, CkptPc.frontier]
  have hb : s.ckpt.buffer = buffer := by rw [hpc]; rfl
  have hpos := req.slots_pos
  have hspan : (s.apps t).span = some (pos, req.slots) := by rw [ht]; rfl
  have hmono : ∀ {dir x}, Logged s s.frontier dir x → Logged s' s'.frontier dir x := fun hl =>
    hl.mono (by omega) fun _ _ _ _ _ h => by rwa [happs]
  refine ⟨hdent ▸ h.wf, fun hs => ?_, fun {dir x} hx => ?_, fun hs => ?_, fun {dir x} hl => ?_,
    fun {dir x} hl => ?_⟩
  · rw [hdent] at hs
    exact (h.stored hs).imp id hmono
  · rw [hbuf, mem_append] at hx
    rcases hx with hx | hx
    · exact hmono (h.buffered (by rwa [hb]))
    · exact ⟨t, req, pos, l, v, by rwa [happs], by omega, hx⟩
  · rw [hdent]
    exact h.kept hs
  · obtain ⟨t', req', pos', l', v', ht', hlt, hx⟩ := hl
    rw [happs] at ht'
    rw [hdent, hbuf, mem_append]
    by_cases hold : pos' < pos
    · rcases h.complete ⟨t', req', pos', l', v', ht', by omega, hx⟩ with hs | hs
      · exact .inl hs
      · exact .inr (.inl (hb ▸ hs))
    · -- a record that starts in the stretch just passed is the decoded one
      have hs' : (s.apps t').span = some (pos', req'.slots) := by rw [ht']; rfl
      have htt : t' = t := hi.ledger.unique (owns_start hs')
        ((owns_of_span hspan).mpr ⟨by omega, by omega⟩)
      subst htt
      rw [ht] at ht'
      cases ht'
      exact .inr (.inr hx)
  · rw [hdent]
    rw [hpm, hcp] at hl
    exact h.settled (hl.mono le_rfl fun _ _ _ _ _ h => by rwa [← happs])

/-- `AppendEntries` of one directory's batch, for which there is room. -/
theorem appendEntries {dir : Nat} {past : SSDDentRegion} (hpc : s.ckpt = .flush env pos buffer)
    (hroom : s.dent.HasRoom dir (batch buffer dir)) :
    DentInv d0 { s with
      dent := (s.dent.appendEntries dir (batch buffer dir)).getD past
      ckpt := .flush env pos (buffer.filter (·.1 != dir)) } := by
  obtain ⟨dent, hdent, -⟩ := SSDDentRegion.appendEntries_some h.wf hroom
  rw [hdent, Option.getD_some]
  obtain ⟨hwf, hst⟩ := SSDDentRegion.appendEntries_spec h.wf hdent
  have hb : s.ckpt.buffer = buffer := by rw [hpc]; rfl
  have hf : s.frontier = pos := by simp [Sys.frontier, hpc, CkptPc.frontier]
  have hbatch : ∀ x, x ∈ batch buffer dir ↔ (dir, x) ∈ buffer := by
    intro x
    simp only [batch, List.mem_map, mem_filter, beq_iff_eq]
    constructor
    · rintro ⟨⟨d, y⟩, ⟨hy, rfl⟩, rfl⟩
      exact hy
    · exact fun hx => ⟨(dir, x), ⟨hx, rfl⟩, rfl⟩
  have hlog : ∀ {limit d x}, Logged { s with
      dent := dent, ckpt := .flush env pos (buffer.filter (·.1 != dir)) } limit d x ↔
      Logged s limit d x := Iff.rfl
  have hfr : Sys.frontier { s with
      dent := dent, ckpt := .flush env pos (buffer.filter (·.1 != dir)) } = s.frontier := by
    rw [hf]
    rfl
  refine ⟨hwf, fun {d x} hs => ?_, fun {d x} hx => ?_, fun {d x} hs => ?_, fun {d x} hl => ?_,
    fun {d x} hl => ?_⟩
  · rw [hfr, hlog]
    rcases (hst d x).mp hs with hs | ⟨rfl, hx⟩
    · exact h.stored hs
    · exact .inr (h.buffered (by rw [hb]; exact (hbatch x).mp hx))
  · rw [hfr, hlog]
    exact h.buffered (by rw [hb]; exact mem_of_mem_filter hx)
  · exact (hst d x).mpr (.inl (h.kept hs))
  · rw [hfr, hlog] at hl
    rcases h.complete hl with hs | hx
    · exact .inl ((hst d x).mpr (.inl hs))
    · rw [hb] at hx
      by_cases hd : d = dir
      · subst hd
        exact .inl ((hst d x).mpr (.inr ⟨rfl, (hbatch x).mpr hx⟩))
      · exact .inr (mem_filter.mpr ⟨hx, by simpa using hd⟩)
  · exact (hst d x).mpr (.inl (h.settled hl))

/-- The end of the flush: everything behind the frontier is stored. -/
theorem settle (hi : RingInv c s) (hpc : s.ckpt = .flush env pos []) {pc : CkptPc}
    (hfr : pc.frontier pos s.cp = max pos s.cp) (hbuf : pc.buffer = []) :
    DentInv d0 { s with pendingMain := pos, ckpt := pc } := by
  have hle := hi.settled_le
  have hf : s.frontier = pos := by simp [Sys.frontier, hpc, CkptPc.frontier]
  have hmax : max pos s.cp = pos := by omega
  refine h.congr rfl (by rw [hpc]; exact hbuf) (fun dir e => ?_) fun dir e hl => ?_
  · have hfr' : Sys.frontier { s with pendingMain := pos, ckpt := pc } = pos := hfr.trans hmax
    rw [hfr', hf]
    exact Iff.rfl
  · simp only [hmax] at hl
    have hl' : Logged s s.frontier dir e := by rw [hf]; exact hl
    rcases h.complete hl' with hs | hb
    · exact hs
    · rw [hpc] at hb
      exact absurd hb not_mem_nil

/-- The checkpoint thread keeps the invariant, if its skips only pass slots of crashed calls and the
dent region has room. -/
theorem ckptStep (hi : RingInv c s) {a : CkptAct} (hst : CkptStep c s a s')
    (hok : InOrder s (.ckpt a)) : DentInv d0 s' := by
  have hp := hi.pcOk
  cases hst with
  | idle hpc _ | openCycle hpc _ =>
    refine h.goto hpc rfl rfl ?_ ?_ ?_
    · simp [hpc, CkptPc.buffer]
    · simp [Sys.frontier, hpc, CkptPc.frontier]
    · simp
  | ready hpc _ _ _ | stop hpc _ | overflow hpc _ | skipClear hpc | clearSlot hpc _
  | stalled hpc _ _ _ | stalling hpc _ _ _ | moved hpc _ | notOrphan hpc _ | orphan hpc _ =>
    exact h.goto hpc rfl rfl rfl rfl le_rfl
  | decodeLast hpc hneed | decode hpc hneed =>
    exact h.decode hi hpc hneed rfl rfl rfl rfl rfl rfl
  | appendEntries hpc _ => exact h.appendEntries hpc (hok.2 _ _ _ hpc)
  | sync hpc _ _ => exact h.settle hi hpc rfl rfl
  | noSync hpc _ => exact h.settle hi hpc rfl rfl
  | advance hpc hge =>
    simp only [Sys.PcOk, hpc] at hp
    refine h.goto hpc rfl rfl rfl ?_ ?_
    · simp only [Sys.frontier, CkptPc.frontier]
      omega
    · simp
  | skipAdvance hpc =>
    simp only [Sys.PcOk, hpc] at hp
    have hdead : ∀ t, (s.apps t).Owns s.cp → s.crashed t = true := hok.1
    obtain ⟨hf, -⟩ := hi.progress.skip hi.ledger hp hdead
    have hle := hi.settled_le
    have hfr : Sys.frontier { s with cp := s.cp + 1, ckpt := .skipClear s.cp } = s.cp + 1 := by
      simp only [Sys.frontier, CkptPc.frontier]
      omega
    -- no returned record starts at the skipped slot
    have hlog : ∀ {dir e}, Logged s (s.cp + 1) dir e ↔ Logged s s.cp dir e := by
      intro dir e
      constructor
      · rintro ⟨t, req, pos, l, v, ht, hlt, he⟩
        refine ⟨t, req, pos, l, v, ht, ?_, he⟩
        by_contra hge
        have hpos : pos = s.cp := by omega
        subst hpos
        have hown : (s.apps t).Owns s.cp := owns_start (by rw [ht]; rfl)
        exact hi.progress.crashed_open (hdead t hown) ⟨_, _, _, _, ht⟩
      · exact fun hl => hl.mono (by omega) fun _ _ _ _ _ ht => ht
    refine h.congr rfl (by rw [hpc]; rfl) (fun dir e => ?_) fun dir e hl => ?_
    · rw [hfr, hf]
      exact hlog
    · have hmax : max s.pendingMain (s.cp + 1) = s.cp + 1 := by omega
      simp only [hmax] at hl
      have hl' : Logged s s.cp dir e := hlog.mp hl
      exact h.settled (hl'.mono (by omega) fun _ _ _ _ _ ht => ht)

theorem step (hi : RingInv c s) (hok : InOrder s a)
    (hst : step c s a = some s') : DentInv d0 s' := by
  cases Step.of_step hst with
  | app _ hst' | list hst' => cases hst' <;> exact h.appStep hi hst rfl rfl rfl rfl
  | ckpt hst' => exact h.ckptStep hi hst' hok

end

/-- **The invariant holds in every run whose skips only pass slots of crashed calls and whose batches
find room.** -/
theorem of_reach (h : (system c).Reach InOrder s) : ∃ d0, DentInv d0 s := by
  refine h.invariant (I := fun x => ∃ d0, DentInv d0 x) ?_ fun s a s' hr hi hok hst => ?_
  · rintro s ⟨dent, hd, rfl⟩
    exact ⟨dent, DentInv.init hd⟩
  · obtain ⟨d0, hi⟩ := hi
    exact ⟨d0, hi.step (RingInv.of_reach (hr.weaken fun _ _ => And.left)) hok hst⟩

end DentInv

end StaxFS.Wal
