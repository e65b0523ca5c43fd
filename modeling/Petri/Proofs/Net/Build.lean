import Mathlib
import Petri.Net.Basic
import Petri.Proofs.Sorted

/-! Which descriptions of a net pass the check, and what the net is made of then. -/

namespace Petri

lemma firstRepeat?_append {seen l l' : List String} (hl : l.Nodup) (hseen : ∀ a ∈ l, a ∉ seen) :
    firstRepeat? seen (l ++ l') = firstRepeat? (l.reverse ++ seen) l' := by
  induction l generalizing seen with
  | nil => rfl
  | cons a l ih =>
    obtain ⟨ha, hl⟩ := List.nodup_cons.mp hl
    rw [List.cons_append, firstRepeat?, if_neg (hseen a List.mem_cons_self), ih hl, List.reverse_cons,
      List.append_assoc, List.singleton_append]
    intro b hb
    rw [List.mem_cons, not_or]
    exact ⟨fun hba => ha (hba ▸ hb), hseen b (List.mem_cons_of_mem a hb)⟩

lemma firstRepeat?_eq_none_iff {seen l : List String} :
    firstRepeat? seen l = none ↔ l.Nodup ∧ ∀ a ∈ l, a ∉ seen := by
  refine ⟨nodup_of_firstRepeat?, ?_⟩
  rintro ⟨hnodup, hseen⟩
  rw [← List.append_nil l, firstRepeat?_append hnodup hseen, firstRepeat?]

lemma firstRepeat?_of_nodup {l : List String} (h : l.Nodup) : firstRepeat? [] l = none :=
  firstRepeat?_eq_none_iff.mpr ⟨h, fun _ _ => List.not_mem_nil⟩

lemma firstRepeat?_eq_some_iff {seen l : List String} {a : String} : firstRepeat? seen l = some a ↔
    ∃ before after, l = before ++ a :: after ∧ (a ∈ seen ∨ a ∈ before) ∧ before.Nodup ∧ ∀ b ∈ before, b ∉ seen := by
  constructor
  · intro h
    induction l generalizing seen with
    | nil => cases h
    | cons b l ih =>
      rw [firstRepeat?] at h
      split at h
      · next hb =>
        cases h
        exact ⟨[], l, rfl, Or.inl hb, List.nodup_nil, List.forall_mem_nil _⟩
      · next hb =>
        obtain ⟨before, after, rfl, ha, hnodup, hseen⟩ := ih h
        have hbefore : b ∉ before := fun hmem => hseen b hmem List.mem_cons_self
        refine ⟨b :: before, after, rfl, ?_, List.nodup_cons.mpr ⟨hbefore, hnodup⟩, ?_⟩
        · rw [List.mem_cons] at ha ⊢
          tauto
        · exact List.forall_mem_cons.mpr ⟨hb, fun c hc hmem => hseen c hc (List.mem_cons_of_mem b hmem)⟩
  · rintro ⟨before, after, rfl, ha, hnodup, hseen⟩
    rw [firstRepeat?_append hnodup hseen, firstRepeat?, if_pos]
    rwa [List.mem_append, List.mem_reverse, or_comm]

lemma Arc.fault?_eq_none_iff {a : Arc} {places transitions : List String} (h : ∀ x ∈ transitions, x ∉ places) :
    a.fault? places transitions = none ↔ a.Joins places transitions := by
  refine ⟨Arc.joins_of_fault?, ?_⟩
  rintro (⟨hs, ht⟩ | ⟨hs, ht⟩)
  · simp [Arc.fault?, hs, ht, h _ ht]
  · simp [Arc.fault?, hs, ht, h _ hs]

namespace Net

variable {id : String} {nodes : List Node} {arcs : List Arc} {N : Net}

lemma build_ok (h : build id nodes arcs = .ok N) :
    N.id = id ∧ (nodes.map Node.id).Nodup ∧ N.marking = Marking.ofPlaces (nodes.filterMap Node.place?) ∧
      N.transitions = Sorted.ofListBy Transition.id (nodes.filterMap Node.transition?) ∧ N.arcs = arcs := by
  unfold build at h
  split at h
  · cases h
  · next hn =>
    simp only at h
    split at h
    · cases h
    · cases h
      exact ⟨rfl, (nodup_of_firstRepeat? hn).1, rfl, rfl, rfl⟩

lemma build_of_firstRepeat? {a : String} (h : firstRepeat? [] (nodes.map Node.id) = some a) :
    build id nodes arcs = .error (.duplicateNode a) := by
  unfold build
  split
  · next hsome =>
    rw [h] at hsome
    cases hsome
    rfl
  · next hnone =>
    rw [h] at hnone
    cases hnone

lemma exists_build_eq_ok (hnodes : (nodes.map Node.id).Nodup)
    (harcs : ∀ a ∈ arcs, a.Joins (Marking.ofPlaces (nodes.filterMap Node.place?)).ids
      ((Sorted.ofListBy Transition.id (nodes.filterMap Node.transition?)).map Transition.id)) :
    ∃ N, build id nodes arcs = .ok N := by
  unfold build
  split
  · next hsome => cases (firstRepeat?_of_nodup hnodes).symm.trans hsome
  · simp only
    split
    · next hfault =>
      obtain ⟨a, ha, hfault⟩ := List.exists_of_findSome?_eq_some hfault
      rw [(Arc.fault?_eq_none_iff ?_).mpr (harcs a ha)] at hfault
      · cases hfault
      · intro x hx
        obtain ⟨t, ht, rfl⟩ := List.mem_map.mp hx
        exact disjoint_of_nodup hnodes t ht
    · exact ⟨_, rfl⟩

end Net

end Petri
