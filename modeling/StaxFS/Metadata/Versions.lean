import StaxFS.Foundation.Runs
import StaxFS.Metadata.Clock

/-!
# The versions of one server

`BeginOperation`, `NextVersion` and `EndOperation` of `CompactWAL`, by any threads and with whatever
version a client has sent. A call of `MergeAndTick` is one step, its turn in which the
compare-and-swap succeeds. The milliseconds have 42 bits and the counter 14; of the reading after the
last one `PackVersion` loses the milliseconds.

Results:
* `clock_forward_iff`: every version is above those issued before and above the one observed, exactly
  as long as the last reading is not merged.
* `clock_turns_back`: a request that sends the highest version gets version 0.
-/

namespace StaxFS.Metadata

open StaxFS.Foundation List
open Function (update update_apply)

structure Issuer where
  hlc : Nat
  /-- `tls_pending_version_` of a thread, 0 if there is none -/
  pending : Nat → Nat
  /-- what `MergeAndTick` has returned, the last first, with the versions observed -/
  issued : List (Nat × Nat)

inductive ClockAct
  | beginOperation (th nowMs observed : Nat)
  | nextVersion (th nowMs : Nat)
  | endOperation (th : Nat)

/-- `MergeAndTick`, with the pending versions after it. -/
def Issuer.tick (metaId : Nat) (s : Issuer) (nowMs observed : Nat) (pending : Nat → Nat) : Issuer :=
  ⟨(mergeAndTick nowMs s.hlc observed metaId).1, pending,
    (observed, (mergeAndTick nowMs s.hlc observed metaId).2) :: s.issued⟩

def clockStep (metaId : Nat) (s : Issuer) : ClockAct → Issuer
  | .beginOperation th nowMs observed =>
    s.tick metaId nowMs observed (update s.pending th (mergeAndTick nowMs s.hlc observed metaId).2)
  | .nextVersion th nowMs =>
    if s.pending th ≠ 0 then { s with pending := update s.pending th 0 }
    else s.tick metaId nowMs 0 s.pending
  | .endOperation th => { s with pending := update s.pending th 0 }

def clockCalls (metaId : Nat) : System Issuer ClockAct where
  start s := s = ⟨0, fun _ => 0, []⟩
  step s a := some (clockStep metaId s a)

/-- The physical clock is below `2 ^ 41` ms, and the version sent has 64 bits. -/
def ClockAct.InRange : ClockAct → Prop
  | .beginOperation _ nowMs observed => nowMs < 2 ^ 41 ∧ observed < 2 ^ 64
  | .nextVersion _ nowMs => nowMs < 2 ^ 41
  | .endOperation _ => True

/-- No call merges the last reading. -/
def ClockAct.Fits (s : Issuer) : ClockAct → Prop
  | .beginOperation _ _ observed => NotLast s.hlc observed
  | .nextVersion th _ => s.pending th = 0 → NotLast s.hlc 0
  | .endOperation _ => True

/-- Every version is above those issued before it and above the one observed, and the versions that
wait for a record are among them. -/
structure Issuer.Forward (s : Issuer) : Prop where
  increasing : s.issued.Pairwise fun newer older => older.2 < newer.2
  observed : ∀ e ∈ s.issued, e.1 < e.2
  pending : ∀ th, s.pending th ≠ 0 → ∃ e ∈ s.issued, e.2 = s.pending th

structure Issuer.Inv (s : Issuer) : Prop extends s.Forward where
  fits : s.hlc < 2 ^ 56
  shown : ∀ e ∈ s.issued, e.2 < (s.hlc + 1) * 2 ^ 8
  last : s.hlc ≠ 0 → ∃ e ∈ s.issued, s.hlc * 2 ^ 8 ≤ e.2

section Tick

variable {nowMs hlc observed metaId th : Nat} {s : Issuer} {pending : Nat → Nat} {a : ClockAct}

/-- A tick from the last reading: the milliseconds of the version are lost. -/
theorem mergeAndTick_last (metaId : Nat) (hnow : nowMs < 2 ^ 41)
    (h : max hlc (observed / 2 ^ 8) = 2 ^ 56 - 1) :
    (mergeAndTick nowMs hlc observed metaId).2 = metaId % 2 ^ 8 := by
  have hbase := @value_base hlc observed
  have hlog := @logical_base hlc observed
  unfold mergeAndTick
  generalize (Reading.ofState hlc).merge (Reading.ofState (observed >>> kVersionMetaBits)) = r at *
  obtain ⟨p, l⟩ := r
  simp only [Reading.value] at hbase hlog
  obtain ⟨rfl, rfl⟩ : p = 2 ^ 42 - 1 ∧ l = 2 ^ 14 - 1 := by omega
  have htick : Reading.tick nowMs ⟨2 ^ 42 - 1, 2 ^ 14 - 1⟩ = ⟨2 ^ 42, 0⟩ := by
    have hlt : ¬ 4398046511103 < nowMs := by omega
    simp [Reading.tick, kVersionLogicalBits, hlt]
  rw [htick]
  simp [packVersion, kVersionPhysicalShift, kVersionMetaBits, kVersionLogicalBits]

theorem Issuer.Inv.tick (h : s.Inv) (hnow : nowMs < 2 ^ 41) (hlast : NotLast s.hlc observed)
    (hp : ∀ th, pending th ≠ 0 → pending th = s.pending th ∨
      pending th = (mergeAndTick nowMs s.hlc observed metaId).2) :
    (s.tick metaId nowMs observed pending).Inv := by
  obtain ⟨hlt, hobs, hfits, hver⟩ := mergeAndTick_forward hlast (hnow.trans (by decide)) metaId
  unfold Issuer.tick
  generalize mergeAndTick nowMs s.hlc observed metaId = r at *
  have hid : metaId % 2 ^ 8 < 2 ^ 8 := Nat.mod_lt _ (by decide)
  refine ⟨⟨pairwise_cons.mpr ⟨fun e he => ?_, h.increasing⟩, ?_, fun th hth => ?_⟩, hfits, ?_, fun _ => ?_⟩
  · have hshown := h.shown e he
    simp only
    omega
  · exact forall_mem_cons.mpr ⟨by simp only; omega, h.observed⟩
  · rcases hp th hth with heq | heq
    · obtain ⟨e, he, hpe⟩ := h.pending th (heq ▸ hth)
      exact ⟨e, mem_cons_of_mem _ he, hpe.trans heq.symm⟩
    · exact ⟨_, mem_cons_self, heq.symm⟩
  · refine forall_mem_cons.mpr ⟨by simp only; omega, fun e he => (h.shown e he).trans_le ?_⟩
    exact Nat.mul_le_mul_right _ (by simp only; omega)
  · exact ⟨_, mem_cons_self, by simp only; omega⟩

/-- A tick from the last reading issues a version that is not above the others. -/
theorem Issuer.Inv.not_forward (h : s.Inv) (hnow : nowMs < 2 ^ 41) (hobs : observed < 2 ^ 64)
    (hlast : ¬NotLast s.hlc observed) : ¬(s.tick metaId nowMs observed pending).Forward := by
  intro hf
  have hfits := h.fits
  have hid : metaId % 2 ^ 8 < 2 ^ 8 := Nat.mod_lt _ (by decide)
  unfold NotLast at hlast
  have hmax : max s.hlc (observed / 2 ^ 8) = 2 ^ 56 - 1 := by omega
  have hver := mergeAndTick_last metaId hnow hmax
  have hlt := hf.observed _ mem_cons_self
  simp only at hlt
  obtain ⟨e, he, hle⟩ := h.last (by omega)
  have hlt' := (pairwise_cons.mp hf.increasing).1 e he
  simp only at hlt'
  omega

theorem Issuer.Inv.forget (h : s.Inv) : Issuer.Inv { s with pending := update s.pending th 0 } := by
  refine ⟨⟨h.increasing, h.observed, fun t ht => ?_⟩, h.fits, h.shown, h.last⟩
  simp only [update_apply] at ht ⊢
  split at ht
  · exact absurd rfl ht
  · rw [if_neg ‹_›]
    exact h.pending t ht

/-- **One step**, which keeps the order exactly if it does not merge the last reading. -/
theorem Issuer.Inv.step (h : s.Inv) (hr : a.InRange) :
    (a.Fits s → (clockStep metaId s a).Inv) ∧ (¬a.Fits s → ¬(clockStep metaId s a).Forward) := by
  cases a with
  | beginOperation th nowMs observed =>
    refine ⟨fun hf => h.tick hr.1 hf fun t ht => ?_, h.not_forward hr.1 hr.2⟩
    simp only [update_apply]
    split
    · exact .inr rfl
    · exact .inl rfl
  | nextVersion th nowMs =>
    simp only [clockStep, ClockAct.Fits]
    split
    · rename_i hne
      exact ⟨fun _ => h.forget, fun hf => absurd (fun h0 => absurd h0 hne) hf⟩
    · rename_i hzero
      rw [not_not] at hzero
      exact ⟨fun hf => h.tick hr (hf hzero) fun _ _ => .inl rfl,
        fun hf => h.not_forward hr (by decide) fun hl => hf fun _ => hl⟩
  | endOperation th => exact ⟨fun _ => h.forget, fun hf => absurd trivial hf⟩

end Tick

/-- **No request turns the clock back** unless the last reading is merged: the versions of every run in
which it is not are in order, and a further step keeps them in order exactly if it does not merge it. -/
theorem clock_forward_iff {metaId : Nat} {s : Issuer}
    (h : (clockCalls metaId).Reach (fun s a => a.InRange ∧ a.Fits s) s) :
    s.Forward ∧ ∀ a, a.InRange → ((clockStep metaId s a).Forward ↔ a.Fits s) := by
  have hinv : s.Inv := by
    refine h.invariant (fun s hs => ?_) fun s a s' _ hi hok hst => ?_
    · rw [show s = ⟨0, fun _ => 0, []⟩ from hs]
      exact ⟨⟨Pairwise.nil, forall_mem_nil _, fun _ h0 => absurd rfl h0⟩, by decide, forall_mem_nil _,
        fun h0 => absurd rfl h0⟩
    · cases hst
      exact (hi.step hok.1).1 hok.2
  refine ⟨hinv.toForward, fun a ha => ⟨fun hf => ?_, fun hf => ((hinv.step ha).1 hf).toForward⟩⟩
  by_contra hnot
  exact (hinv.step ha).2 hnot hf

instance (s : Issuer) : ∀ a : ClockAct, Decidable (a.InRange ∧ a.Fits s)
  | .beginOperation .. => inferInstanceAs (Decidable ((_ ∧ _) ∧ _ ∧ _))
  | .nextVersion th _ => inferInstanceAs (Decidable (_ < _ ∧ (s.pending th = 0 → _ ∧ _)))
  | .endOperation _ => isTrue ⟨trivial, trivial⟩

/-- Two threads; the second sends a version that is ahead of the clock, which then stands behind the
versions issued. Another request, in the same millisecond, keeps the order. -/
theorem clock_forward_iff_behind :
    ∃ s, (clockCalls 1).Reach (fun s a => a.InRange ∧ a.Fits s) s ∧
      s.issued = [(0, 7 * 2 ^ 22 + 2 * 2 ^ 8 + 1), (7 * 2 ^ 22, 7 * 2 ^ 22 + 2 ^ 8 + 1),
        (0, 5 * 2 ^ 22 + 1)] ∧
      (clockStep 1 s (.beginOperation 0 5 0)).Forward := by
  refine System.exists_reach
    (l := [.beginOperation 0 5 0, .beginOperation 1 5 (7 * 2 ^ 22), .nextVersion 0 5,
      .nextVersion 0 5, .endOperation 1])
    (Q := fun s => s.issued = [(0, 7 * 2 ^ 22 + 2 * 2 ^ 8 + 1),
      (7 * 2 ^ 22, 7 * 2 ^ 22 + 2 ^ 8 + 1), (0, 5 * 2 ^ 22 + 1)] ∧ s.hlc < 2 ^ 50)
    (s := ⟨0, fun _ => 0, []⟩) rfl (by decide +kernel) fun s hreach hs => ⟨hs.1, ?_⟩
  have hstep := (clock_forward_iff hreach).2 (.beginOperation 0 5 0) ⟨by decide, by decide⟩
  exact hstep.mpr ⟨by omega, by decide⟩

/-- **A request turns the clock back**: after version `5 * 2 ^ 22`, the highest value is sent, and the
version issued is 0. -/
theorem clock_turns_back : ∃ s, (clockCalls 0).Reach (fun _ a => a.InRange) s ∧
    s.issued = [(2 ^ 64 - 1, 0), (0, 5 * 2 ^ 22)] ∧ ¬s.Forward := by
  refine ⟨_, .step (a := .beginOperation 1 6 (2 ^ 64 - 1)) (.step (a := .beginOperation 0 5 0)
    (.start rfl) ⟨by decide, by decide⟩ rfl) ⟨by decide, by decide⟩ rfl, by decide +kernel, fun hf => ?_⟩
  exact absurd (hf.observed _ mem_cons_self) (by decide +kernel)

end StaxFS.Metadata
