import StaxFS.Wal.System

/-!
# What the ring holds

The invariant behind the results about the log, in four parts, each about a few components of the
state only:

* `Ledger`: the stretches of slots that append calls have reserved tile `[0, head)`.
* `Window`: between the slot that is cleared next and the head, every ring slot holds what the call
  that reserved its position has written so far; behind the head, up to a full turn of the ring,
  the slots are zero.
* `Progress`: where the replay frontier stands relative to the reservations. A live call is
  either published and replayed, or still entirely ahead of the frontier.
* `Replays`: the replayed records are the published records behind the frontier, each once, as they
  were appended.

The orphan skip breaks `Progress` when it passes a slot whose writer is alive. `SkipsOnlyDead` is
the condition on the skip under which it does not.

Results:
* `RingInv.of_reach`: the invariant holds in every state of every run whose skips only pass slots of
  crashed calls.
* `reach_inOrder`: how runs that meet the conditions are exhibited.
-/

namespace StaxFS.Wal

open Dent List
open Function (update_eq_self update_of_ne update_self)

/-! ### Ring indices -/

theorem Config.capacity_pos (c : Config) : 0 < c.capacity := Nat.two_pow_pos _

theorem Config.capacity_le (c : Config) : c.capacity ≤ 2 ^ 63 := by
  have h := c.logCapacity_lt
  exact Nat.pow_le_pow_right (by omega) (by omega)

theorem Config.index_eq_mod (c : Config) (p : Nat) : c.index p = p % c.capacity :=
  Nat.and_two_pow_sub_one_eq_mod p c.logCapacity

/-- Two positions less than a turn apart have different slots. -/
theorem Config.index_inj (c : Config) {lo p q : Nat} (hp : lo ≤ p) (hp' : p < lo + c.capacity)
    (hq : lo ≤ q) (hq' : q < lo + c.capacity) (h : c.index p = c.index q) : p = q := by
  rw [c.index_eq_mod, c.index_eq_mod] at h
  rcases Nat.le_total p q with hle | hle
  · have h0 : (q - p) % c.capacity = 0 := Nat.sub_mod_eq_zero_of_mod_eq h.symm
    rw [Nat.mod_eq_of_lt (by omega)] at h0
    omega
  · have h0 : (p - q) % c.capacity = 0 := Nat.sub_mod_eq_zero_of_mod_eq h
    rw [Nat.mod_eq_of_lt (by omega)] at h0
    omega

theorem Config.index_add_capacity (c : Config) (p : Nat) : c.index (p + c.capacity) = c.index p := by
  rw [c.index_eq_mod, c.index_eq_mod, Nat.add_mod_right]

/-! ### Reservations -/

namespace AppendPc

/-- The first slot and the number of slots a call has reserved. -/
def span : AppendPc → Option (Nat × Nat)
  | .reserved req pos | .sequenced req pos _ | .writing req pos _ _ _ | .returned req pos _ _ =>
    some (pos, req.slots)
  | .idle | .loaded .. | .checked .. | .full _ => none

/-- Position `p` is one of the call's slots. -/
def Owns (pc : AppendPc) (p : Nat) : Prop :=
  ∃ pos n, pc.span = some (pos, n) ∧ pos ≤ p ∧ p < pos + n

/-- What the call has written to its slot at `p` so far. -/
def content : AppendPc → Nat → Slot
  | .writing req pos l _ left, p =>
    if p ≤ pos + left then .zero else .overflow (req.contSlot l (p - pos - 1))
  | .returned req pos l v, p =>
    if p = pos then .entry (req.published l v) else .overflow (req.contSlot l (p - pos - 1))
  | _, _ => .zero

/-- The call returned a nonzero value. -/
def IsReturned (pc : AppendPc) : Prop := ∃ req pos l v, pc = .returned req pos l v

/-- The request is one the server makes, and the local sequence number fits its field. -/
def WF : AppendPc → Prop
  | .idle => True
  | .loaded req _ | .checked req _ | .reserved req _ | .full req => req.WF
  | .sequenced req _ l => req.WF ∧ l < 2 ^ 29
  | .writing req _ l _ left => req.WF ∧ l < 2 ^ 29 ∧ left ≤ req.contCount
  | .returned req _ l _ => req.WF ∧ l < 2 ^ 29

variable {pc : AppendPc} {p pos n : Nat}

theorem Owns.span_eq (h : pc.Owns p) : ∃ pos n, pc.span = some (pos, n) ∧ pos ≤ p ∧ p < pos + n := h

theorem owns_congr {pc' : AppendPc} (h : pc.span = pc'.span) (p : Nat) :
    pc.Owns p ↔ pc'.Owns p := by
  unfold Owns
  rw [h]

theorem owns_of_span (h : pc.span = some (pos, n)) : pc.Owns p ↔ pos ≤ p ∧ p < pos + n := by
  constructor
  · rintro ⟨pos', n', h', hp⟩
    rw [h] at h'
    cases h'
    exact hp
  · exact fun hp => ⟨pos, n, h, hp⟩

theorem Owns.bounds (ho : pc.Owns p)
    (h : pc.span = some (pos, n)) : pos ≤ p ∧ p < pos + n := (owns_of_span h).mp ho

theorem not_owns_of_span (h : pc.span = none) : ¬pc.Owns p := by
  rintro ⟨pos, n, h', -⟩
  rw [h] at h'
  cases h'

/-- A reservation is never empty, so a call owns its first slot. -/
theorem owns_start (h : pc.span = some (pos, n)) : pc.Owns pos := by
  refine (owns_of_span h).mpr ⟨le_rfl, ?_⟩
  cases pc <;> simp only [span, Option.some.injEq, Prod.mk.injEq, reduceCtorEq] at h <;>
    (obtain ⟨rfl, rfl⟩ := h; unfold LogRequest.slots; omega)

/-- **A ready slot is the primary of a published record.** -/
theorem content_ready (h : (pc.content p).isReady = true) :
    ∃ req l v, pc = .returned req p l v := by
  cases pc with
  | writing req pos l v left =>
    simp only [content] at h
    split at h
    · rw [Slot.zero_not_ready] at h
      cases h
    · rw [Slot.overflow_not_ready] at h
      cases h
  | returned req pos l v =>
    simp only [content] at h
    split at h
    · rename_i hp
      exact ⟨req, l, v, by rw [hp]⟩
    · rw [Slot.overflow_not_ready] at h
      cases h
  | _ =>
    simp only [content, Slot.zero_not_ready] at h
    cases h

end AppendPc

open AppendPc

section Update

variable {apps : Nat → AppendPc} {t : Nat} {pc : AppendPc}

theorem owns_update (hspan : pc.span = (apps t).span) (t' p : Nat) :
    (Function.update apps t pc t').Owns p ↔ (apps t').Owns p := by
  by_cases h : t' = t
  · subst h
    rw [update_self]
    exact owns_congr hspan p
  · rw [update_of_ne h]

theorem span_update (hspan : pc.span = (apps t).span) (t' : Nat) :
    (Function.update apps t pc t').span = (apps t').span := by
  by_cases h : t' = t
  · subst h
    rw [update_self, hspan]
  · rw [update_of_ne h]

end Update

/-- The reservations tile `[0, head)`. -/
structure Ledger (apps : Nat → AppendPc) (head : Nat) : Prop where
  wf : ∀ t, (apps t).WF
  unique : ∀ {t t' p}, (apps t).Owns p → (apps t').Owns p → t = t'
  lt_head : ∀ {t p}, (apps t).Owns p → p < head
  owned : ∀ {p}, p < head → ∃ t, (apps t).Owns p

namespace Ledger

variable {apps : Nat → AppendPc} {head t : Nat} {pc : AppendPc}

theorem update (h : Ledger apps head) (hspan : pc.span = (apps t).span) (hwf : pc.WF) :
    Ledger (Function.update apps t pc) head where
  wf t' := by
    by_cases ht : t' = t
    · subst ht
      rwa [update_self]
    · rw [update_of_ne ht]
      exact h.wf t'
  unique h1 h2 := h.unique ((owns_update hspan _ _).mp h1) ((owns_update hspan _ _).mp h2)
  lt_head h1 := h.lt_head ((owns_update hspan _ _).mp h1)
  owned hp := by
    obtain ⟨t', ht'⟩ := h.owned hp
    exact ⟨t', (owns_update hspan _ _).mpr ht'⟩

/-- A successful compare-and-swap adds a stretch at the head. -/
theorem reserve (h : Ledger apps head) {n : Nat} (hnone : (apps t).span = none)
    (hspan : pc.span = some (head, n)) (hwf : pc.WF) :
    Ledger (Function.update apps t pc) (head + n) := by
  have hother : ∀ {t' p}, t' ≠ t → (Function.update apps t pc t').Owns p → (apps t').Owns p := by
    intro t' p ht ho
    rwa [update_of_ne ht] at ho
  have hself : ∀ {p}, (Function.update apps t pc t).Owns p → head ≤ p ∧ p < head + n := by
    intro p ho
    rw [update_self] at ho
    exact (owns_of_span hspan).mp ho
  refine ⟨fun t' => ?_, fun {t1 t2 p} h1 h2 => ?_, fun {t' p} ho => ?_, fun {p} hp => ?_⟩
  · by_cases ht : t' = t
    · subst ht
      rwa [update_self]
    · rw [update_of_ne ht]
      exact h.wf t'
  · by_cases ht1 : t1 = t <;> by_cases ht2 : t2 = t
    · rw [ht1, ht2]
    · subst ht1
      have hlt := h.lt_head (hother ht2 h2)
      have hge := hself h1
      omega
    · subst ht2
      have hlt := h.lt_head (hother ht1 h1)
      have hge := hself h2
      omega
    · exact h.unique (hother ht1 h1) (hother ht2 h2)
  · by_cases ht : t' = t
    · subst ht
      exact (hself ho).2
    · have hlt := h.lt_head (hother ht ho)
      omega
  · by_cases hlt : p < head
    · obtain ⟨t', ht'⟩ := h.owned hlt
      have hne : t' ≠ t := by
        rintro rfl
        exact not_owns_of_span hnone ht'
      exact ⟨t', by rwa [update_of_ne hne]⟩
    · refine ⟨t, ?_⟩
      rw [update_self]
      exact (owns_of_span hspan).mpr ⟨by omega, hp⟩

end Ledger

/-! ### The window of the ring in use -/

/-- What a call in `TryReserveSlots` knows: the head it loaded was the head once, and a room test
that passed still holds, since the checkpoint only moves forward. -/
def AppendPc.Tested (c : Config) (head cp : Nat) : AppendPc → Prop
  | .loaded _ cur => cur ≤ head
  | .checked req cur => cur + req.slots < cp + c.capacity
  | _ => True

variable {c : Config} {x : Slot} {a : Act}

theorem AppendPc.Tested.mono {head head' cp cp' : Nat} {pc : AppendPc}
    (h : pc.Tested c head cp) (hh : head ≤ head') (hcp : cp ≤ cp') : pc.Tested c head' cp' := by
  cases pc <;> simp only [Tested] at h ⊢ <;> omega

/-- The ring between `clear`, the slot that is cleared next, and a full turn behind it. -/
structure Window (c : Config) (slots : Nat → Slot) (apps : Nat → AppendPc)
    (head cp clear : Nat) : Prop where
  cp_le : cp ≤ clear + 1
  room : head < cp + c.capacity
  content : ∀ {t p}, (apps t).Owns p → clear ≤ p → slots (c.index p) = (apps t).content p
  free : ∀ {p}, head ≤ p → p < clear + c.capacity → slots (c.index p) = .zero
  tested : ∀ t, (apps t).Tested c head cp

namespace Window

variable {c : Config} {slots : Nat → Slot} {apps : Nat → AppendPc} {head cp clear t : Nat}
  {pc : AppendPc}

theorem tested_update (h : ∀ t', (apps t').Tested c head cp) (hpc : pc.Tested c head cp) (t' : Nat) :
    (Function.update apps t pc t').Tested c head cp := by
  by_cases ht : t' = t
  · subst ht
    rwa [update_self]
  · rw [update_of_ne ht]
    exact h t'

section

variable (h : Window c slots apps head cp clear)

include h

theorem head_le : head ≤ clear + c.capacity := by
  have h1 := h.cp_le
  have h2 := h.room
  omega

/-- Two positions of the window share a slot only if they are equal. -/
theorem index_inj {p q : Nat} (hp : clear ≤ p)
    (hp' : p < head) (hq : clear ≤ q) (hq' : q < clear + c.capacity)
    (heq : c.index p = c.index q) : p = q := by
  have hhead := h.head_le
  exact c.index_inj hp (by omega) hq hq' heq

/-- A step of a call that writes no slot. -/
theorem update (hspan : pc.span = (apps t).span)
    (hcontent : ∀ p, pc.Owns p → pc.content p = (apps t).content p)
    (htested : pc.Tested c head cp) : Window c slots (Function.update apps t pc) head cp clear where
  cp_le := h.cp_le
  room := h.room
  free := h.free
  content {t' p} ho hp := by
    by_cases ht : t' = t
    · subst ht
      rw [update_self] at ho ⊢
      rw [hcontent p ho]
      exact h.content ((owns_congr hspan p).mp ho) hp
    · rw [update_of_ne ht] at ho ⊢
      exact h.content ho hp
  tested := tested_update h.tested htested

/-- A call writes one of its slots. -/
theorem write (hl : Ledger apps head) {q : Nat}
    (hspan : pc.span = (apps t).span) (hown : (apps t).Owns q) (hq : clear ≤ q)
    (hx : pc.content q = x) (hcontent : ∀ p, pc.Owns p → p ≠ q → pc.content p = (apps t).content p)
    (htested : pc.Tested c head cp) :
    Window c (Function.update slots (c.index q) x) (Function.update apps t pc) head cp clear := by
  have hqlt := hl.lt_head hown
  have hhead := h.head_le
  refine ⟨h.cp_le, h.room, fun {t' p} ho hp => ?_, fun {p} hp hp' => ?_,
    tested_update h.tested htested⟩
  · have ho' := (owns_update hspan t' p).mp ho
    by_cases hpq : p = q
    · subst hpq
      have ht : t' = t := hl.unique ho' hown
      subst ht
      rw [update_self, update_self, hx]
    · have hidx : c.index p ≠ c.index q := fun he =>
        hpq (h.index_inj hp (hl.lt_head ho') hq (by omega) he)
      rw [update_of_ne hidx, h.content ho' hp]
      by_cases ht : t' = t
      · subst ht
        rw [update_self] at ho ⊢
        rw [hcontent p ho hpq]
      · rw [update_of_ne ht]
  · have hidx : c.index p ≠ c.index q := fun he => by
      have := h.index_inj hq hqlt (by omega) hp' he.symm
      omega
    rw [update_of_ne hidx]
    exact h.free hp hp'

/-- A successful compare-and-swap: the new slots are zero. -/
theorem reserve {n : Nat} (hspan : pc.span = some (head, n)) (hroom : head + n < cp + c.capacity)
    (hcontent : ∀ p, pc.content p = .zero) (htested : pc.Tested c (head + n) cp) :
    Window c slots (Function.update apps t pc) (head + n) cp clear := by
  have hcp := h.cp_le
  refine ⟨hcp, hroom, fun {t' p} ho hp => ?_, fun {p} hp hp' => h.free (by omega) hp',
    tested_update (fun t' => (h.tested t').mono (by omega) le_rfl) htested⟩
  by_cases ht : t' = t
  · subst ht
    rw [update_self] at ho ⊢
    have hp2 := (owns_of_span hspan).mp ho
    rw [hcontent p]
    exact h.free hp2.1 (by omega)
  · rw [update_of_ne ht] at ho ⊢
    exact h.content ho hp

/-- `ClearRange` clears one more slot behind the frontier. -/
theorem clearOne (hl : Ledger apps head) (hlt : clear < head) :
    Window c (Function.update slots (c.index clear) .zero) apps head cp (clear + 1) := by
  have hhead := h.head_le
  have hcap := c.capacity_pos
  refine ⟨by have := h.cp_le; omega, h.room, fun {t p} ho hp => ?_, fun {p} hp hp' => ?_, h.tested⟩
  · have hidx : c.index p ≠ c.index clear := fun he => by
      have := h.index_inj (by omega) (hl.lt_head ho) le_rfl (by omega) he
      omega
    rw [update_of_ne hidx]
    exact h.content ho (by omega)
  · by_cases hpc : p = clear + c.capacity
    · rw [hpc, c.index_add_capacity, update_self]
    · have hidx : c.index p ≠ c.index clear := fun he => by
        have := h.index_inj le_rfl hlt (by omega) (by omega) he.symm
        omega
      rw [update_of_ne hidx]
      exact h.free hp (by omega)

/-- `AdvanceCheckpoint`. -/
theorem advance {cp' : Nat} (hle : cp ≤ cp')
    (hcp : cp' ≤ clear + 1) : Window c slots apps head cp' clear where
  cp_le := hcp
  room := by have := h.room; omega
  content := h.content
  free := h.free
  tested t := (h.tested t).mono le_rfl hle

end

end Window

/-- The room test, on the values it was made with, rules out a reservation that would reach around
the ring: either it did not wrap, or the head it was made for is already stale. -/
theorem hasRoom_spec {cur n head cp : Nat} (h : hasRoom c cur n cp = true)
    (hcur : cur ≤ head) (hhead : head < cp + c.capacity) (hn : n ≤ 4) :
    cur + n < cp + c.capacity := by
  have hcap := c.capacity_le
  unfold hasRoom subU64 at h
  rw [decide_eq_true_eq] at h
  by_contra hge
  obtain ⟨d, hd⟩ : ∃ d, cur + n = cp + d := ⟨cur + n - cp, by omega⟩
  have hsub : (cur + n + (2 ^ 64 - cp % 2 ^ 64)) % 2 ^ 64 = d := by omega
  omega

/-! ### The replay frontier -/

/-- Where the frontier of the replay stands. `[cp, frontier)` is replayed but not yet synced. -/
structure Progress (apps : Nat → AppendPc) (crashed : Nat → Bool)
    (head cp clear frontier : Nat) : Prop where
  clear_le : clear ≤ frontier
  cp_le : cp ≤ frontier
  frontier_le : frontier ≤ head
  /-- a live reservation is published and behind the frontier, or ahead of it -/
  live : ∀ {t pos n}, crashed t = false → (apps t).span = some (pos, n) →
    (apps t).IsReturned ∧ pos + n ≤ frontier ∨ frontier ≤ pos
  /-- the checkpoint stands between two live reservations -/
  aligned : ∀ {t pos n}, crashed t = false → (apps t).span = some (pos, n) →
    pos + n ≤ cp ∨ cp ≤ pos
  crashed_open : ∀ {t}, crashed t = true → ¬(apps t).IsReturned
  drained : ∀ {t p}, cp ≤ p → p < frontier → (apps t).Owns p → (apps t).IsReturned

namespace Progress

variable {apps : Nat → AppendPc} {crashed : Nat → Bool} {head cp clear frontier t : Nat}
  {pc : AppendPc}

section

variable (h : Progress apps crashed head cp clear frontier)

include h

theorem update (hspan : pc.span = (apps t).span) (hret : (apps t).IsReturned → pc.IsReturned)
    (ht : crashed t = false) :
    Progress (Function.update apps t pc) crashed head cp clear frontier := by
  have hmono : ∀ t', (apps t').IsReturned → (Function.update apps t pc t').IsReturned := by
    intro t' hr
    by_cases htt : t' = t
    · subst htt
      rw [update_self]
      exact hret hr
    · rwa [update_of_ne htt]
  refine ⟨h.clear_le, h.cp_le, h.frontier_le, fun {t' pos n} hl hs => ?_,
    fun {t' pos n} hl hs => h.aligned hl (by rwa [span_update hspan] at hs), fun {t'} hc => ?_,
    fun {t' p} h1 h2 ho => ?_⟩
  · rw [span_update hspan] at hs
    rcases h.live hl hs with ⟨hr, hle⟩ | hle
    · exact .inl ⟨hmono t' hr, hle⟩
    · exact .inr hle
  · have htt : t' ≠ t := by
      rintro rfl
      rw [ht] at hc
      cases hc
    rw [update_of_ne htt]
    exact h.crashed_open hc
  · exact hmono t' (h.drained h1 h2 ((owns_update hspan t' p).mp ho))

theorem reserve {n : Nat}
    (hnone : (apps t).span = none) (hspan : pc.span = some (head, n)) (ht : crashed t = false) :
    Progress (Function.update apps t pc) crashed (head + n) cp clear frontier := by
  have hf := h.frontier_le
  have hcp := h.cp_le
  refine ⟨h.clear_le, hcp, by omega, fun {t' pos m} hl hs => ?_, fun {t' pos m} hl hs => ?_,
    fun {t'} hc => ?_, fun {t' p} h1 h2 ho => ?_⟩
  · by_cases htt : t' = t
    · subst htt
      rw [update_self, hspan] at hs
      cases hs
      exact .inr hf
    · rw [update_of_ne htt] at hs ⊢
      exact h.live hl hs
  · by_cases htt : t' = t
    · subst htt
      rw [update_self, hspan] at hs
      cases hs
      exact .inr (le_trans hcp hf)
    · rw [update_of_ne htt] at hs
      exact h.aligned hl hs
  · have htt : t' ≠ t := by
      rintro rfl
      rw [ht] at hc
      cases hc
    rw [update_of_ne htt]
    exact h.crashed_open hc
  · by_cases htt : t' = t
    · subst htt
      rw [update_self] at ho
      have := (owns_of_span hspan).mp ho
      omega
    · rw [update_of_ne htt] at ho ⊢
      exact h.drained h1 h2 ho

theorem crash (hopen : ¬(apps t).IsReturned) :
    Progress apps (Function.update crashed t true) head cp clear frontier := by
  have hlive : ∀ {t'}, Function.update crashed t true t' = false → crashed t' = false := by
    intro t' hl
    have htt : t' ≠ t := by
      rintro rfl
      rw [update_self] at hl
      cases hl
    rwa [update_of_ne htt] at hl
  refine ⟨h.clear_le, h.cp_le, h.frontier_le, fun hl hs => h.live (hlive hl) hs,
    fun hl hs => h.aligned (hlive hl) hs, fun {t'} hc => ?_, h.drained⟩
  · by_cases htt : t' = t
    · subst htt
      exact hopen
    · rw [update_of_ne htt] at hc
      exact h.crashed_open hc

theorem clearOne (hlt : clear < frontier) : Progress apps crashed head cp (clear + 1) frontier :=
  ⟨hlt, h.cp_le, h.frontier_le, h.live, h.aligned, h.crashed_open, h.drained⟩

/-- `AdvanceCheckpoint` to the frontier. -/
theorem advance : Progress apps crashed head frontier clear frontier :=
  ⟨h.clear_le, le_rfl, h.frontier_le, h.live,
    fun hl hs => (h.live hl hs).imp And.right id, h.crashed_open,
    fun h1 h2 _ => absurd h2 (Nat.not_lt.mpr h1)⟩

/-- The frontier passes a published record. -/
theorem replay (hl : Ledger apps head)
    {req : LogRequest} {l v : Nat} (ht : apps t = .returned req frontier l v) :
    Progress apps crashed head cp clear (frontier + req.slots) := by
  have hspan : (apps t).span = some (frontier, req.slots) := by rw [ht]; rfl
  have hret : (apps t).IsReturned := ⟨req, frontier, l, v, ht⟩
  have hpos := req.slots_pos
  have hlast : (apps t).Owns (frontier + req.slots - 1) :=
    (owns_of_span hspan).mpr ⟨by omega, by omega⟩
  have hend := hl.lt_head hlast
  refine ⟨by have := h.clear_le; omega, by have := h.cp_le; omega, by omega,
    fun {t' pos n} hlive hs => ?_, h.aligned, h.crashed_open, fun {t' p} h1 h2 ho => ?_⟩
  · rcases h.live hlive hs with ⟨hr, hle⟩ | hle
    · exact .inl ⟨hr, by omega⟩
    · by_cases hin : pos < frontier + req.slots
      · -- the call that starts inside the record is the record's own
        have htt : t' = t := hl.unique (owns_start hs) ((owns_of_span hspan).mpr ⟨hle, hin⟩)
        subst htt
        rw [hspan] at hs
        cases hs
        exact .inl ⟨hret, le_rfl⟩
      · exact .inr (by omega)
  · by_cases hlt : p < frontier
    · exact h.drained h1 hlt ho
    · have htt : t' = t := hl.unique ho ((owns_of_span hspan).mpr ⟨by omega, h2⟩)
      subst htt
      exact hret

/-- The checkpoint skips a slot whose calls have all crashed. -/
theorem skip (hl : Ledger apps head)
    (hlt : cp < head) (hdead : ∀ t, (apps t).Owns cp → crashed t = true) :
    frontier = cp ∧ Progress apps crashed head (cp + 1) clear (cp + 1) := by
  obtain ⟨t0, ht0⟩ := hl.owned hlt
  have hf : frontier = cp := by
    by_contra hne
    have hcp := h.cp_le
    exact h.crashed_open (hdead t0 ht0) (h.drained le_rfl (by omega) ht0)
  subst hf
  have hahead : ∀ {t pos n}, crashed t = false → (apps t).span = some (pos, n) →
      (apps t).IsReturned ∧ pos + n ≤ frontier + 1 ∨ frontier + 1 ≤ pos := by
    intro t pos n hlive hs
    rcases h.live hlive hs with ⟨hr, hle⟩ | hle
    · exact .inl ⟨hr, by omega⟩
    · right
      by_contra hge
      have hpos : pos = frontier := by omega
      subst hpos
      have hdead' := hdead t (owns_start hs)
      rw [hlive] at hdead'
      cases hdead'
  exact ⟨rfl, by have := h.clear_le; omega, le_rfl, hlt, hahead,
    fun hlive hs => (hahead hlive hs).imp And.right id, h.crashed_open,
    fun {t p} h1 h2 ho => by omega⟩

end

end Progress

/-- The replayed records: the published records behind the frontier, each once, with the events they
were appended with. -/
structure Replays (apps : Nat → AppendPc) (frontier : Nat) (replayed : List Replay) : Prop where
  mem : ∀ {r : Replay}, r ∈ replayed ↔ ∃ t req l v, apps t = .returned req r.pos l v ∧
    r.pos < frontier ∧ r.entry = req.published l v ∧ r.dents = req.events v
  nodup : (replayed.map (·.pos)).Nodup

namespace Replays

variable {apps : Nat → AppendPc} {frontier t : Nat} {replayed : List Replay} {pc : AppendPc}

section

variable (h : Replays apps frontier replayed)

include h

/-- A step of a call: a record that gets published is ahead of the frontier. -/
theorem update (hopen : ¬(apps t).IsReturned)
    (hpc : ∀ req pos l v, pc = .returned req pos l v → frontier ≤ pos) :
    Replays (Function.update apps t pc) frontier replayed := by
  refine ⟨fun {r} => h.mem.trans ?_, h.nodup⟩
  constructor
  · rintro ⟨t', req, l, v, he, hrest⟩
    have htt : t' ≠ t := by
      rintro rfl
      exact hopen ⟨_, _, _, _, he⟩
    exact ⟨t', req, l, v, by rwa [update_of_ne htt], hrest⟩
  · rintro ⟨t', req, l, v, he, hlt, hrest⟩
    have htt : t' ≠ t := by
      rintro rfl
      rw [update_self] at he
      have := hpc _ _ _ _ he
      omega
    rw [update_of_ne htt] at he
    exact ⟨t', req, l, v, he, hlt, hrest⟩

theorem replay {head : Nat} (hl : Ledger apps head)
    {req : LogRequest} {l v : Nat} (ht : apps t = .returned req frontier l v) :
    Replays apps (frontier + req.slots)
      (replayed ++ [⟨frontier, req.published l v, req.events v⟩]) := by
  have hspan : (apps t).span = some (frontier, req.slots) := by rw [ht]; rfl
  have hpos := req.slots_pos
  refine ⟨fun {r} => ?_, ?_⟩
  · rw [mem_append, h.mem, mem_singleton]
    constructor
    · rintro (⟨t', req', l', v', he, hlt, hrest⟩ | rfl)
      · exact ⟨t', req', l', v', he, by omega, hrest⟩
      · exact ⟨t, req, l, v, ht, by simp only; omega, rfl, rfl⟩
    · rintro ⟨t', req', l', v', he, hlt, hentry, hdents⟩
      by_cases hin : r.pos < frontier
      · exact .inl ⟨t', req', l', v', he, hin, hentry, hdents⟩
      · right
        have hs' : (apps t').span = some (r.pos, req'.slots) := by rw [he]; rfl
        have htt : t' = t :=
          hl.unique (owns_start hs') ((owns_of_span hspan).mpr ⟨by omega, hlt⟩)
        subst htt
        rw [ht] at he
        cases he
        cases r
        simp only at hentry hdents ⊢
        rw [hentry, hdents]
  · rw [map_append, nodup_append]
    refine ⟨h.nodup, by simp, ?_⟩
    intro a ha b hb
    rw [List.mem_map] at ha
    obtain ⟨r, hr, rfl⟩ := ha
    obtain ⟨-, -, -, -, -, hlt, -⟩ := h.mem.mp hr
    simp only [map_cons, map_nil, mem_singleton] at hb
    omega

/-- Moving the frontier past positions where no published record starts. -/
theorem skip {frontier' : Nat} (hle : frontier ≤ frontier')
    (hnone : ∀ t req pos l v, apps t = .returned req pos l v → frontier ≤ pos → frontier' ≤ pos) :
    Replays apps frontier' replayed := by
  refine ⟨fun {r} => h.mem.trans ?_, h.nodup⟩
  constructor
  · rintro ⟨t, req, l, v, he, hlt, hrest⟩
    exact ⟨t, req, l, v, he, by omega, hrest⟩
  · rintro ⟨t, req, l, v, he, hlt, hrest⟩
    refine ⟨t, req, l, v, he, ?_, hrest⟩
    by_contra hge
    have := hnone t req r.pos l v he (by omega)
    omega

end

end Replays

/-! ### The invariant -/

/-- The next position the replay reads, in terms of `pending_main_pos_` and `checkpoint_pos_`. -/
def CkptPc.frontier (pendingMain cp : Nat) : CkptPc → Nat
  | .replay _ pos _ _ | .names _ pos _ _ _ _ | .flush _ pos _ => pos
  | .loop | .clearing _ | .worked | .orphan | .skipAdvance | .skipClear _ => max pendingMain cp

/-- The oldest slot that is not cleared yet. -/
def CkptPc.clearPos (cp : Nat) : CkptPc → Nat
  | .clearing next => next
  | .skipClear pos => pos
  | .loop | .replay .. | .names .. | .flush .. | .worked | .orphan | .skipAdvance => cp

namespace Sys

/-- The next position the replay reads. -/
def frontier (s : Sys) : Nat := s.ckpt.frontier s.pendingMain s.cp

/-- The oldest slot that is not cleared yet. -/
def clearPos (s : Sys) : Nat := s.ckpt.clearPos s.cp

/-- What the checkpoint thread's local variables say. -/
def PcOk (s : Sys) : Prop :=
  match s.ckpt with
  | .replay _ pos head _ => max s.pendingMain s.cp ≤ pos ∧ head ≤ s.head
  | .names _ pos head _ e got => max s.pendingMain s.cp ≤ pos ∧ head ≤ s.head ∧
      ∃ t req l v, s.apps t = .returned req pos l v ∧ e = req.published l v ∧
        got = req.conts.take got.length
  | .flush _ pos _ => max s.pendingMain s.cp ≤ pos
  | .clearing next => s.cp ≤ next ∧ next ≤ s.pendingMain
  | .orphan | .skipAdvance => s.cp < s.head
  | .skipClear pos => s.cp = pos + 1
  | .loop | .worked => True

end Sys

/-- The invariant of the ring. -/
structure RingInv (c : Config) (s : Sys) : Prop where
  ledger : Ledger s.apps s.head
  window : Window c s.slots s.apps s.head s.cp s.clearPos
  progress : Progress s.apps s.crashed s.head s.cp s.clearPos s.frontier
  replays : Replays s.apps s.frontier s.replayed
  pcOk : s.PcOk

/-- **The condition on the orphan skip**: the checkpoint passes a slot only if the append call that
reserved it has crashed. -/
def SkipsOnlyDead (s : Sys) (a : Act) : Prop :=
  match a with
  | .ckpt .skipAdvance => ∀ t, (s.apps t).Owns s.cp → s.crashed t = true
  | _ => True

/-- **The condition on the dent region**: it has room for the batch that is appended. -/
def HasPages (s : Sys) (a : Act) : Prop :=
  match a with
  | .ckpt (.appendEntries dir _) => ∀ env pos buffer, s.ckpt = .flush env pos buffer →
      s.dent.HasRoom dir (batch buffer dir)
  | _ => True

/-- Skips only pass slots of crashed calls, and the dent region has room. -/
def InOrder (s : Sys) (a : Act) : Prop := SkipsOnlyDead s a ∧ HasPages s a

namespace RingInv

variable {c : Config} {s s' : Sys}

theorem init (dent : SSDDentRegion) : RingInv c (Sys.init dent) := by
  have hno : ∀ t p, ¬((Sys.init dent).apps t).Owns p := fun t p => not_owns_of_span rfl
  refine ⟨⟨fun t => trivial, fun {t t' p} h => absurd h (hno t p), fun {t p} h => absurd h (hno t p),
      fun hp => absurd hp (Nat.not_lt_zero _)⟩,
    ⟨Nat.zero_le _, ?_, fun {t p} h => absurd h (hno t p), fun _ _ => rfl, fun t => trivial⟩,
    ⟨le_rfl, le_rfl, le_rfl, fun _ hs => (by cases hs), fun _ hs => (by cases hs),
      fun hc => (by cases hc),
      fun {t p} _ _ h => absurd h (hno t p)⟩, ⟨fun {r} => ?_, nodup_nil⟩, trivial⟩
  · exact lt_of_lt_of_le c.capacity_pos (Nat.le_add_left _ _)
  · refine ⟨fun h => absurd h not_mem_nil, ?_⟩
    rintro ⟨t, req, l, v, he, -⟩
    cases he

/-- The parts of the invariant when the checkpoint thread is at `pc`. -/
theorem parts (h : RingInv c s) {pc : CkptPc} (hpc : s.ckpt = pc) :
    Window c s.slots s.apps s.head s.cp (pc.clearPos s.cp) ∧
      Progress s.apps s.crashed s.head s.cp (pc.clearPos s.cp) (pc.frontier s.pendingMain s.cp) ∧
      Replays s.apps (pc.frontier s.pendingMain s.cp) s.replayed := by
  subst hpc
  exact ⟨h.window, h.progress, h.replays⟩

/-- A step that only moves the checkpoint thread, not the frontier. -/
theorem goto (h : RingInv c s) {old pc : CkptPc} {pendingMain lastCp stall : Nat}
    {dent : SSDDentRegion} (hpc : s.ckpt = old) (hclear : pc.clearPos s.cp = old.clearPos s.cp)
    (hfrontier : pc.frontier pendingMain s.cp = old.frontier s.pendingMain s.cp)
    (hok : Sys.PcOk { s with ckpt := pc, pendingMain, lastCp, stall, dent }) :
    RingInv c { s with ckpt := pc, pendingMain, lastCp, stall, dent } := by
  obtain ⟨hw, hpr, hre⟩ := h.parts hpc
  rw [← hclear] at hw hpr
  rw [← hfrontier] at hpr hre
  exact ⟨h.ledger, hw, hpr, hre, hok⟩

variable {t pos l v : Nat} {pc : AppendPc} {req : LogRequest} {got : List (List Byte)}
  {e : CompactLogEntry} {localSeq : Nat}

section

variable (h : RingInv c s)

include h

/-- The checkpoint thread's variables do not depend on a call that has not returned. -/
theorem pcOk_update {slots : Nat → Slot}
    {head : Nat} (hopen : ¬(s.apps t).IsReturned) (hhead : s.head ≤ head) : Sys.PcOk { s with
      slots := slots, head := head, localSeq := localSeq,
      apps := Function.update s.apps t pc } := by
  have hpc := h.pcOk
  unfold Sys.PcOk at hpc ⊢
  cases hck : s.ckpt with
  | names env pos head' buffer e got =>
    simp only [hck] at hpc ⊢
    obtain ⟨hp, hh, t', req, l, v, he, hrest⟩ := hpc
    have htt : t' ≠ t := by
      rintro rfl
      exact hopen ⟨_, _, _, _, he⟩
    exact ⟨hp, by omega, t', req, l, v, by rwa [update_of_ne htt], hrest⟩
  | replay env pos head' buffer =>
    simp only [hck] at hpc ⊢
    exact ⟨hpc.1, by omega⟩
  | orphan | skipAdvance =>
    simp only [hck] at hpc ⊢
    omega
  | loop | worked => trivial
  | _ => simpa only [hck] using hpc

/-- A step of a call that neither reserves nor writes a slot nor returns. -/
theorem quiet (ht : s.crashed t = false)
    (hopen : ¬(s.apps t).IsReturned) (hspan : pc.span = (s.apps t).span) (hwf : pc.WF)
    (hcontent : ∀ p, pc.Owns p → pc.content p = (s.apps t).content p)
    (htested : pc.Tested c s.head s.cp) (hpc : ¬pc.IsReturned) :
    RingInv c { s with localSeq := localSeq, apps := Function.update s.apps t pc } where
  ledger := h.ledger.update hspan hwf
  window := h.window.update hspan hcontent htested
  progress := h.progress.update hspan (fun hr => absurd hr hopen) ht
  replays := h.replays.update hopen fun req pos l v he => absurd ⟨req, pos, l, v, he⟩ hpc
  pcOk := h.pcOk_update hopen le_rfl

/-- A call that writes one of its slots. -/
theorem write {q : Nat} (ht : s.crashed t = false)
    (hopen : ¬(s.apps t).IsReturned) (hspan : pc.span = (s.apps t).span) (hwf : pc.WF)
    (hown : (s.apps t).Owns q) (hx : pc.content q = x)
    (hcontent : ∀ p, pc.Owns p → p ≠ q → pc.content p = (s.apps t).content p)
    (htested : pc.Tested c s.head s.cp) : RingInv c ((s.dramWrite c q x).setApp t pc) := by
  -- a live call that has not returned is entirely ahead of the frontier
  obtain ⟨pos, n, hs, hle, hlt⟩ := hown.span_eq
  have hahead : s.frontier ≤ pos := by
    rcases h.progress.live ht hs with ⟨hr, -⟩ | hf
    · exact absurd hr hopen
    · exact hf
  have hclear := h.progress.clear_le
  refine ⟨h.ledger.update hspan hwf,
    h.window.write h.ledger hspan hown (by omega) hx hcontent htested,
    h.progress.update hspan (fun hr => absurd hr hopen) ht,
    h.replays.update hopen fun req pos' l v he => ?_, h.pcOk_update hopen le_rfl⟩
  subst he
  rw [hs] at hspan
  cases hspan
  exact hahead

/-- Append calls keep the invariant. -/
theorem appStep {a : AppAct} (ht : s.crashed t = false)
    (hst : AppStep c s t a s') : RingInv c s' := by
  have hwf := h.ledger.wf t
  have htst := h.window.tested t
  cases hst with
  | @begin req hpc hreq =>
    exact h.quiet ht (by simp [IsReturned, hpc]) (by rw [hpc]; rfl) hreq
      (fun p ho => absurd ho (not_owns_of_span rfl)) (le_refl s.head) (by simp [IsReturned])
  | @room req cur hpc hroom =>
    rw [hpc] at hwf htst
    refine h.quiet ht (by simp [IsReturned, hpc]) (by rw [hpc]; rfl) hwf
      (fun p ho => absurd ho (not_owns_of_span rfl)) ?_ (by simp [IsReturned])
    have hn : req.slots ≤ 4 := by
      have := LogRequest.WF.contCount_lt hwf
      unfold LogRequest.slots
      omega
    exact hasRoom_spec hroom htst h.window.room hn
  | @noRoom req cur hpc hroom =>
    rw [hpc] at hwf
    exact h.quiet ht (by simp [IsReturned, hpc]) (by rw [hpc]; rfl) hwf
      (fun p ho => absurd ho (not_owns_of_span rfl)) trivial (by simp [IsReturned])
  | @reserve req hpc =>
    rw [hpc] at hwf htst
    have hopen : ¬(s.apps t).IsReturned := by simp [IsReturned, hpc]
    have hnone : (s.apps t).span = none := by rw [hpc]; rfl
    exact ⟨h.ledger.reserve hnone rfl hwf, h.window.reserve rfl htst (fun _ => rfl) trivial,
      h.progress.reserve hnone rfl ht,
      h.replays.update hopen fun req pos l v he => (by cases he),
      h.pcOk_update hopen (Nat.le_add_right _ _)⟩
  | @retry req cur spurious hpc =>
    rw [hpc] at hwf
    exact h.quiet ht (by simp [IsReturned, hpc]) (by rw [hpc]; rfl) hwf
      (fun p ho => absurd ho (not_owns_of_span rfl)) (le_refl s.head) (by simp [IsReturned])
  | @seqZero req pos hpc =>
    have h' : RingInv c { s with
        localSeq := (s.localSeq + 1) % 2 ^ 32
        apps := Function.update s.apps t (s.apps t) } :=
      h.quiet ht (by simp [IsReturned, hpc]) rfl hwf (fun _ _ => rfl) htst
        (by simp [IsReturned, hpc])
    rwa [update_eq_self] at h'
  | @seqDrawn req pos hpc hseq =>
    rw [hpc] at hwf
    have hlt : s.localSeq &&& kSeqLocalMask < 2 ^ 29 := by
      have hmask : kSeqLocalMask = 2 ^ 29 - 1 := by decide
      rw [hmask, Nat.and_two_pow_sub_one_eq_mod]
      exact Nat.mod_lt _ (by decide)
    exact h.quiet ht (by simp [IsReturned, hpc]) (by rw [hpc]; rfl) ⟨hwf, hlt⟩
      (fun p _ => by rw [hpc]; rfl) trivial (by simp [IsReturned])
  | @stamp req pos l v hpc =>
    rw [hpc] at hwf
    refine h.quiet ht (by simp [IsReturned, hpc]) (by rw [hpc]; rfl) ⟨hwf.1, hwf.2, le_rfl⟩
      (fun p ho => ?_) trivial (by simp [IsReturned])
    have hp := ho.bounds rfl
    unfold LogRequest.slots at hp
    rw [hpc]
    simp only [content]
    rw [if_pos (by omega)]
  | @continuation req pos l v left hpc =>
    rw [hpc] at hwf
    obtain ⟨hreq, hl, hleft⟩ := hwf
    have hspan : (s.apps t).span = some (pos, req.slots) := by rw [hpc]; rfl
    refine h.write ht (by simp [IsReturned, hpc]) hspan.symm ⟨hreq, hl, by omega⟩
      ((owns_of_span hspan).mpr ⟨by omega, by unfold LogRequest.slots; omega⟩) ?_
      (fun p _ hne => ?_) trivial
    · simp only [content]
      rw [if_neg (by omega)]
      congr 2
      omega
    · rw [hpc]
      simp only [content]
      by_cases hp : p ≤ pos + left
      · rw [if_pos hp, if_pos (by omega)]
      · rw [if_neg hp, if_neg (by omega)]
  | @publish req pos l v hpc =>
    rw [hpc] at hwf
    obtain ⟨hreq, hl, -⟩ := hwf
    have hspan : (s.apps t).span = some (pos, req.slots) := by rw [hpc]; rfl
    refine h.write ht (by simp [IsReturned, hpc]) hspan.symm ⟨hreq, hl⟩ (owns_start hspan) ?_
      (fun p ho hne => ?_) trivial
    · simp [content]
    · have hp := ho.bounds rfl
      rw [hpc]
      simp only [content]
      rw [if_neg hne, if_neg (by omega)]
  | crash hidle hret hfull =>
    have hopen : ¬(s.apps t).IsReturned := by
      rintro ⟨req, pos, l, v, he⟩
      exact hret req pos l v he
    exact ⟨h.ledger, h.window, h.progress.crash hopen, h.replays, h.pcOk⟩

/-! ### The checkpoint thread -/

/-- A published record that is not cleared yet can be read in its slots. -/
theorem slotAt_returned (ht : s.apps t = .returned req pos l v) (hpos : s.clearPos ≤ pos) :
    s.slotAt c pos = .entry (req.published l v) := by
  have hspan : (s.apps t).span = some (pos, req.slots) := by rw [ht]; rfl
  have hc := h.window.content (owns_start hspan) hpos
  rw [ht] at hc
  simpa [content, Sys.slotAt] using hc

theorem slotAt_continuation {i : Nat}
    (ht : s.apps t = .returned req pos l v) (hpos : s.clearPos ≤ pos + 1 + i)
    (hi : i < req.contCount) : s.slotAt c (pos + 1 + i) = .overflow (req.contSlot l i) := by
  have hspan : (s.apps t).span = some (pos, req.slots) := by rw [ht]; rfl
  have hc := h.window.content
    ((owns_of_span hspan).mpr ⟨by omega, by unfold LogRequest.slots; omega⟩) hpos
  rw [ht] at hc
  simp only [content] at hc
  rw [if_neg (by omega)] at hc
  rw [Sys.slotAt, hc]
  congr 2
  omega

/-- A ready slot of the window is the primary of a published record. -/
theorem returned_of_ready
    (hpos : s.clearPos ≤ pos) (hlt : pos < s.head) (hslot : s.slotAt c pos = .entry e)
    (he : e.isReady = true) :
    ∃ t req l v, s.apps t = .returned req pos l v ∧ e = req.published l v := by
  obtain ⟨t, ht⟩ := h.ledger.owned hlt
  have hc := h.window.content ht hpos
  rw [show s.slots (c.index pos) = s.slotAt c pos from rfl, hslot] at hc
  have hready : ((s.apps t).content pos).isReady = true := by
    rw [← hc]
    exact he
  obtain ⟨req, l, v, hret⟩ := content_ready hready
  refine ⟨t, req, l, v, hret, ?_⟩
  rw [hret] at hc
  simpa [content] using hc

end

/-- One more continuation slot of a published record. -/
theorem take_conts_succ {d : List Byte}
    (hgot : got = req.conts.take got.length) (hlt : got.length < req.contCount)
    (hd : d = req.contData got.length) : got ++ [d] = req.conts.take (got ++ [d]).length := by
  have hlen : got.length < req.conts.length := by rwa [req.conts_length]
  rw [length_append, length_singleton, take_add_one, ← hgot,
    getElem?_eq_getElem hlen, req.conts_getElem hlen, hd]
  rfl

/-- The extraction loop has read all continuation slots of the record when it ends. -/
theorem conts_of_not_needsCont (hreq : req.WF) (hl : l < 2 ^ 29)
    (hgot : got = req.conts.take got.length)
    (hneed : needsCont (req.published l v) got.length = false) : got = req.conts := by
  rw [LogRequest.needsCont_published hreq hl, decide_eq_false_iff_not] at hneed
  rw [hgot, take_of_length_le (by rw [req.conts_length]; omega)]

/-- The frontier passes the record that was just decoded. -/
theorem decode (h : RingInv c s) {env : CycleEnv} {pos head : Nat}
    {buffer : List (Nat × DentEntry)} {stale : Buf}
    (hpc : s.ckpt = .names env pos head buffer e got) (hneed : needsCont e got.length = false)
    {pc : CkptPc} (hfrontier : pc.frontier s.pendingMain s.cp = pos + e.slotCount)
    (hclear : pc.clearPos s.cp = s.cp) (hok : Sys.PcOk { s with
      replayed := s.replayed ++ [⟨pos, e, replayDents stale e got⟩], ckpt := pc }) :
    RingInv c { s with
      replayed := s.replayed ++ [⟨pos, e, replayDents stale e got⟩], ckpt := pc } := by
  have hp := h.pcOk
  simp only [Sys.PcOk, hpc] at hp
  obtain ⟨-, -, t, req, l, v, ht, rfl, hgot⟩ := hp
  have hwf := h.ledger.wf t
  rw [ht] at hwf
  have hconts := conts_of_not_needsCont hwf.1 hwf.2 hgot hneed
  obtain ⟨hw, hpr, hre⟩ := h.parts hpc
  simp only [CkptPc.clearPos, CkptPc.frontier] at hw hpr hre
  rw [LogRequest.slotCount_published hwf.1 hwf.2] at hfrontier
  refine ⟨h.ledger, ?_, ?_, ?_, hok⟩
  · simpa only [Sys.clearPos, hclear] using hw
  · simpa only [Sys.clearPos, hclear, Sys.frontier, hfrontier] using hpr.replay h.ledger ht
  · simp only [Sys.frontier, hfrontier]
    rw [hconts, replayDents_published hwf.1]
    exact hre.replay h.ledger ht

/-- The checkpoint thread keeps the invariant, if its skips only pass slots of crashed calls. -/
theorem ckptStep (h : RingInv c s) {a : CkptAct} (hst : CkptStep c s a s')
    (hok : SkipsOnlyDead s (.ckpt a)) : RingInv c s' := by
  have hp := h.pcOk
  have hcpf := h.progress.cp_le
  have hfh := h.progress.frontier_le
  cases hst with
  | idle hpc _ =>
    refine h.goto hpc (by rw [hpc]) ?_ ?_
    · simp [hpc, CkptPc.frontier]
    · simp [Sys.PcOk, hpc]
  | openCycle hpc _ =>
    refine h.goto hpc rfl rfl ?_
    simp [Sys.PcOk]
  | @ready env pos head buffer e hpc hlt hslot he =>
    simp only [Sys.PcOk, hpc] at hp
    have hcl : s.clearPos = s.cp := by simp [Sys.clearPos, hpc, CkptPc.clearPos]
    obtain ⟨t, req, l, v, ht, hpub⟩ :=
      h.returned_of_ready (by omega) (by omega) hslot he
    exact h.goto hpc rfl rfl ⟨hp.1, hp.2, t, req, l, v, ht, hpub, rfl⟩
  | stop hpc _ =>
    simp only [Sys.PcOk, hpc] at hp
    exact h.goto hpc rfl rfl hp.1
  | @overflow env pos head buffer e got hpc hneed =>
    simp only [Sys.PcOk, hpc] at hp
    obtain ⟨hle, hh, t, req, l, v, ht, rfl, hgot⟩ := hp
    have hwf := h.ledger.wf t
    rw [ht] at hwf
    rw [LogRequest.needsCont_published hwf.1 hwf.2, decide_eq_true_eq] at hneed
    have hcl : s.clearPos = s.cp := by simp [Sys.clearPos, hpc, CkptPc.clearPos]
    have hslot := h.slotAt_continuation ht (by omega) hneed
    refine h.goto hpc rfl rfl ⟨hle, hh, t, req, l, v, ht, rfl, ?_⟩
    exact take_conts_succ hgot hneed (by rw [hslot]; rfl)
  | decodeLast hpc hneed | decode hpc hneed =>
    refine h.decode hpc hneed rfl rfl ?_
    simp only [Sys.PcOk, hpc] at hp ⊢
    omega
  | appendEntries hpc _ | orphan hpc _ =>
    simp only [Sys.PcOk, hpc] at hp
    exact h.goto hpc rfl rfl hp
  | sync hpc _ hlt =>
    simp only [Sys.PcOk, hpc] at hp
    refine h.goto hpc rfl ?_ ⟨le_rfl, hlt.le⟩
    simp only [CkptPc.frontier]
    omega
  | noSync hpc _ =>
    simp only [Sys.PcOk, hpc] at hp
    refine h.goto hpc rfl ?_ trivial
    simp only [CkptPc.frontier]
    omega
  | @clearSlot next hpc hlt =>
    simp only [Sys.PcOk, hpc] at hp
    obtain ⟨hw, hpr, hre⟩ := h.parts hpc
    simp only [CkptPc.clearPos, CkptPc.frontier] at hw hpr hre
    have hfh := hpr.frontier_le
    exact ⟨h.ledger, hw.clearOne h.ledger (by omega), hpr.clearOne (by omega), hre,
      ⟨by simp only [Sys.dramWrite]; omega, by simp only [Sys.dramWrite]; omega⟩⟩
  | @advance next hpc hge =>
    simp only [Sys.PcOk, hpc] at hp
    obtain ⟨hw, hpr, hre⟩ := h.parts hpc
    have hle : s.cp ≤ s.pendingMain := by omega
    obtain rfl : next = s.pendingMain := by omega
    simp only [CkptPc.clearPos, CkptPc.frontier, max_eq_left hle] at hw hpr hre
    refine ⟨h.ledger, hw.advance hle (Nat.le_succ _), ?_, ?_, trivial⟩
    · simpa [Sys.clearPos, Sys.frontier, CkptPc.clearPos, CkptPc.frontier] using
        hpr.advance
    · simpa [Sys.frontier, CkptPc.frontier] using hre
  | stalled hpc _ hlt _ =>
    exact h.goto hpc rfl rfl hlt
  | stalling hpc _ _ _ | moved hpc _ | notOrphan hpc _ =>
    exact h.goto hpc rfl rfl trivial
  | skipAdvance hpc =>
    simp only [Sys.PcOk, hpc] at hp
    have hdead : ∀ t, (s.apps t).Owns s.cp → s.crashed t = true := hok
    obtain ⟨hw, hpr, hre⟩ := h.parts hpc
    simp only [CkptPc.clearPos, CkptPc.frontier] at hw hpr hre
    obtain ⟨hfcp, hskip⟩ := hpr.skip h.ledger hp hdead
    have hf' : max s.pendingMain (s.cp + 1) = s.cp + 1 := by omega
    refine ⟨h.ledger, hw.advance (Nat.le_succ s.cp) le_rfl, ?_, ?_, rfl⟩
    · simpa [Sys.clearPos, Sys.frontier, CkptPc.clearPos, CkptPc.frontier, hf'] using hskip
    · simp only [Sys.frontier, CkptPc.frontier, hf']
      refine hre.skip (by omega) fun t req pos l v ht hle => ?_
      -- the record at the skipped slot would be published, and its call has crashed
      by_contra hlt
      have hpos : pos = s.cp := by omega
      subst hpos
      have hown : (s.apps t).Owns s.cp := owns_start (by rw [ht]; rfl)
      exact hpr.crashed_open (hdead t hown) ⟨_, _, _, _, ht⟩
  | @skipClear pos hpc =>
    simp only [Sys.PcOk, hpc] at hp
    obtain ⟨hw, hpr, hre⟩ := h.parts hpc
    simp only [CkptPc.clearPos, CkptPc.frontier] at hw hpr hre
    refine ⟨h.ledger, ?_, ?_, hre, trivial⟩
    · simpa [Sys.clearPos, CkptPc.clearPos, hp, Sys.dramWrite] using
        hw.clearOne h.ledger (by omega)
    · simpa [Sys.clearPos, CkptPc.clearPos, Sys.frontier, CkptPc.frontier, hp, Sys.dramWrite] using
        hpr.clearOne (by omega)

/-- The listing changes nothing the invariant is about. -/
theorem listStep (h : RingInv c s) {a : ListAct} (hst : ListStep c s a s') : RingInv c s' := by
  cases hst <;> exact ⟨h.ledger, h.window, h.progress, h.replays, h.pcOk⟩

end RingInv

/-- The dent region stays well formed as long as it has room. -/
theorem dent_wf_step {s s' : Sys} (h : s.dent.WF) (hok : HasPages s a)
    (hst : step c s a = some s') : s'.dent.WF := by
  cases Step.of_step hst with
  | app _ hst | list hst => cases hst <;> exact h
  | ckpt hst =>
    cases hst with
    | appendEntries hpc _ =>
      obtain ⟨dent, hdent, -⟩ := SSDDentRegion.appendEntries_some h (hok _ _ _ hpc)
      rw [hdent]
      exact (SSDDentRegion.appendEntries_spec h hdent).1
    | _ => exact h

theorem dent_wf_of_reach {s : Sys} (h : (system c).Reach InOrder s) : s.dent.WF := by
  refine h.invariant (I := fun s => s.dent.WF) ?_ fun s a s' _ hi hok hst =>
    dent_wf_step hi hok.2 hst
  rintro s ⟨dent, hd, rfl⟩
  exact hd

namespace RingInv

variable {c : Config} {s s' : Sys}

theorem step (h : RingInv c s) (hok : SkipsOnlyDead s a)
    (hst : step c s a = some s') : RingInv c s' := by
  cases Step.of_step hst with
  | app ht hst => exact h.appStep ht hst
  | ckpt hst => exact h.ckptStep hst hok
  | list hst => exact h.listStep hst

/-- **The invariant holds in every run whose skips only pass slots of crashed calls.** -/
theorem of_reach (h : (system c).Reach SkipsOnlyDead s) : RingInv c s := by
  refine h.invariant ?_ fun s a s' _ hi hok hst => hi.step hok hst
  rintro s ⟨dent, -, rfl⟩
  exact RingInv.init dent

end RingInv

/-- A test of `InOrder` for runs whose skips pass slots of call 0. -/
def inOrder (s : Sys) : Act → Bool
  | .ckpt .skipAdvance =>
    s.crashed 0 && (s.apps 0).span.any fun x => decide (x.1 ≤ s.cp) && decide (s.cp < x.1 + x.2)
  | .ckpt (.appendEntries dir _) =>
    match s.ckpt with
    | .flush _ _ buffer => decide (s.dent.HasRoom dir (batch buffer dir))
    | _ => true
  | _ => true

/-- A slot has one owner, so the other calls need not be looked at. -/
theorem RingInv.inOrder (h : RingInv c s) (ht : Wal.inOrder s a = true) : InOrder s a := by
  unfold Wal.inOrder at ht
  split at ht
  · rw [Bool.and_eq_true, Option.any_eq_true] at ht
    obtain ⟨hc, x, hx, hin⟩ := ht
    rw [Bool.and_eq_true, decide_eq_true_eq, decide_eq_true_eq] at hin
    refine ⟨fun t ho => ?_, trivial⟩
    rw [h.ledger.unique ho ((owns_of_span hx).mpr hin)]
    exact hc
  · refine ⟨trivial, fun env pos buffer hpc => ?_⟩
    rw [hpc] at ht
    exact of_decide_eq_true ht
  · rename_i hskip happend
    refine ⟨?_, ?_⟩
    · unfold SkipsOnlyDead
      split
      · exact absurd rfl hskip
      · trivial
    · unfold HasPages
      split
      · exact absurd rfl (happend _ _)
      · trivial

/-- A list of labels that executes and passes the test, from an empty ring. -/
theorem reach_inOrder {dent : SSDDentRegion} {as : List Act} (hwf : dent.WF)
    (h : (system c).runChecked inOrder as (Sys.init dent) = some s) : (system c).Reach InOrder s := by
  have hstart : (system c).Reach InOrder (Sys.init dent) := .start ⟨dent, hwf, rfl⟩
  refine hstart.steps (Foundation.System.steps_runChecked_of (I := RingInv c)
    (fun s a s' hi ht hst => ?_) (RingInv.init dent) h)
  exact ⟨hi.inOrder ht, hi.step (hi.inOrder ht).1 hst⟩

end StaxFS.Wal
