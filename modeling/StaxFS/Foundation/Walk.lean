import Mathlib

/-!
# Walks along a list of edges

A list of edges, each with a source and a target, is a directed multigraph. `Walk` is reachability
along its edges. The results say which nodes stay reachable when an edge is dropped or replaced.

Results:
* `Walk.mono`, `Walk.perm`: more edges reach more.
* `Walk.drop_leaf`: an edge into a node without outgoing edges is needed for that node only.
* `Walk.redirect`: an edge may get another source if its target does not reach the new source.
-/

namespace StaxFS.Foundation

open List

variable {ε ν : Type} (src dst : ε → ν)

/-- Some edge of the list leads from `a` to `b`. -/
def Joined (es : List ε) (a b : ν) : Prop := ∃ e ∈ es, src e = a ∧ dst e = b

/-- `b` is reached from `a` along the edges of the list. -/
def Walk (es : List ε) : ν → ν → Prop := Relation.ReflTransGen (Joined src dst es)

namespace Walk

variable {src dst} {es es' : List ε} {d e : ε} {r a b : ν}

theorem refl (es : List ε) (a : ν) : Walk src dst es a a := Relation.ReflTransGen.refl

/-- A walk goes on along an edge. -/
theorem snoc (h : Walk src dst es r (src e)) (he : e ∈ es) : Walk src dst es r (dst e) :=
  Relation.ReflTransGen.tail h ⟨e, he, rfl, rfl⟩

theorem mono (h : Walk src dst es a b) (hsub : ∀ e ∈ es, e ∈ es') : Walk src dst es' a b :=
  Relation.ReflTransGen.mono (fun _ _ ⟨e, he, hs⟩ => ⟨e, hsub e he, hs⟩) _ _ h

theorem perm (h : Walk src dst es a b) (hp : es.Perm es') : Walk src dst es' a b :=
  h.mono fun _ he => hp.mem_iff.mp he

section

variable (h : Walk src dst (d :: es) r b)

include h

/-- **Dropping an edge into a leaf** leaves every other node reachable. -/
theorem drop_leaf (hleaf : ∀ e ∈ d :: es, src e ≠ dst d)
    (hb : b ≠ dst d) : Walk src dst es r b := by
  induction h with
  | refl => exact refl es r
  | tail _ hstep ih =>
    obtain ⟨e, he, rfl, rfl⟩ := hstep
    have hne : e ≠ d := fun hed => hb (hed ▸ rfl)
    exact (ih (hleaf e he)).snoc (mem_of_ne_of_mem hne he)

/-- A node that the edge's target does not reach is reached without the edge. -/
theorem avoid (hnot : ¬Walk src dst (d :: es) (dst d) b) : Walk src dst es r b := by
  induction h with
  | refl => exact refl es r
  | tail _ hstep ih =>
    obtain ⟨e, he, rfl, rfl⟩ := hstep
    have hne : e ≠ d := fun hed => hnot (hed ▸ refl _ _)
    exact (ih fun hw => hnot (hw.snoc he)).snoc (mem_of_ne_of_mem hne he)

/-- **Redirecting an edge** to start at a node its target does not reach leaves everything
reachable. -/
theorem redirect (hdst : dst e = dst d) (hsrc : Walk src dst (d :: es) r (src e))
    (hnot : ¬Walk src dst (d :: es) (dst d) (src e)) : Walk src dst (e :: es) r b := by
  have hnew : Walk src dst (e :: es) r (dst d) :=
    hdst ▸ ((hsrc.avoid hnot).mono fun _ hc => mem_cons_of_mem e hc).snoc mem_cons_self
  induction h with
  | refl => exact refl _ r
  | tail _ hstep ih =>
    obtain ⟨c, hc, rfl, rfl⟩ := hstep
    rcases mem_cons.mp hc with rfl | hc
    · exact hnew
    · exact ih.snoc (mem_cons_of_mem e hc)

end

end Walk

end StaxFS.Foundation
