import Mathlib
import Petri.Proofs.JointSet.Maximal

/-! The conflict groups of a net are its components: they hold the enabled transitions that are linked by common input
places. -/

namespace Petri

namespace Net

variable {N : Net} {t u : Transition}

def Enables (N : Net) (t : Transition) : Prop :=
  t ∈ N.transitions ∧ ∀ p, N.intake t.id p ≤ (N.marking.tokens p).toNat

def Feeds (N : Net) (p : String) (t : Transition) : Prop :=
  ⟨p, t.id⟩ ∈ N.arcs

def Competes (N : Net) (t u : Transition) : Prop :=
  N.Enables t ∧ N.Enables u ∧ ∃ p, N.Feeds p t ∧ N.Feeds p u

def Linked (N : Net) : Transition → Transition → Prop :=
  Relation.ReflTransGen N.Competes

lemma Competes.symm (h : N.Competes t u) : N.Competes u t :=
  ⟨h.2.1, h.1, h.2.2.imp fun _ hp => hp.symm⟩

lemma Linked.symm (h : N.Linked t u) : N.Linked u t := by
  induction h with
  | refl => exact .refl
  | tail _ hvw ih => exact .head hvw.symm ih

end Net

namespace ConflictGroup

open JointSet

variable {N : Net} {g h : ConflictGroup} {gs passed rest : List ConflictGroup} {t u : Transition} {p : String}

lemma mem_places_iff (hg : Describes N g) : p ∈ g.places ↔ ∃ t ∈ members g, N.Feeds p t := by
  simp only [mem_places hg, Net.intake, List.count_pos_iff, Net.Feeds]

structure IsLinked (N : Net) (g : ConflictGroup) : Prop where
  describes : Describes N g
  enables : ∀ t ∈ members g, N.Enables t
  linked : ∀ t ∈ members g, ∀ u ∈ members g, N.Linked t u

lemma mem_members_merge : t ∈ members (g.merge h) ↔ t ∈ members g ∨ t ∈ members h := by
  simp [members, merge]

lemma IsLinked.merge (hg : IsLinked N g) (hh : IsLinked N h) (hmeets : h.meets g = true) : IsLinked N (g.merge h) := by
  -- the place that the groups have in common joins a transition of one to a transition of the other
  obtain ⟨p, hph, hpg⟩ : ∃ p ∈ h.places, p ∈ g.places := by simpa [meets] using hmeets
  obtain ⟨x, hx, hxp⟩ := (mem_places_iff hg.describes).mp hpg
  obtain ⟨y, hy, hyp⟩ := (mem_places_iff hh.describes).mp hph
  have hxy : N.Linked x y := .single ⟨hg.enables x hx, hh.enables y hy, p, hxp, hyp⟩
  have hcross : ∀ t ∈ members g, ∀ u ∈ members h, N.Linked t u := fun t ht u hu =>
    ((hg.linked t ht x hx).trans hxy).trans (hh.linked y hy u hu)
  refine ⟨hg.describes.merge hh.describes, fun t ht => ?_, fun t ht u hu => ?_⟩
  · exact (mem_members_merge.mp ht).elim (hg.enables t) (hh.enables t)
  · rcases mem_members_merge.mp ht with ht | ht <;> rcases mem_members_merge.mp hu with hu | hu
    · exact hg.linked t ht u hu
    · exact hcross t ht u hu
    · exact (hcross u hu t ht).symm
    · exact hh.linked t ht u hu

end ConflictGroup

end Petri
