import Mathlib
import Petri.Proofs.Firing.ArcOrder
import Petri.Proofs.Unfolding.Copies

/-! A copy fires wherever its transition does, with the same outcome: its arcs take first and give afterwards. -/

namespace Petri

namespace Unfolding

variable {N U K : Net} {cs : List (Transition × String)} {t u : Transition} {c d p : String} {a : Arc}

lemma mem_inputs (ht : t ∈ N.transitions) (ha : a ∈ (N.incoming t.id).map fun a => (⟨a.source, c⟩ : Arc)) :
    a.source ∈ N.marking.ids ∧ a.target = c := by
  obtain ⟨b, hb, rfl⟩ := List.mem_map.mp ha
  obtain ⟨hb, hbt⟩ := List.mem_filter.mp hb
  exact ⟨(Net.touches_arcs N (List.mem_map_of_mem ht)).source b hb (by simpa using hbt), rfl⟩

lemma mem_outputs (ht : t ∈ N.transitions) (ha : a ∈ (N.outgoing t.id).map fun a => (⟨c, a.target⟩ : Arc)) :
    a.source = c ∧ a.target ∈ N.marking.ids := by
  obtain ⟨b, hb, rfl⟩ := List.mem_map.mp ha
  obtain ⟨hb, hbt⟩ := List.mem_filter.mp hb
  exact ⟨rfl, (Net.touches_arcs N (List.mem_map_of_mem ht)).target b hb (by simpa using hbt)⟩

lemma mem_copyArcs (ht : t ∈ N.transitions) (ha : a ∈ copyArcs N t.id c) :
    (a.source ∈ N.marking.ids ∧ a.target = c) ∨ (a.source = c ∧ a.target ∈ N.marking.ids) :=
  (List.mem_append.mp ha).imp (mem_inputs ht) (mem_outputs ht)

lemma takesFirst_copyArcs (ht : t ∈ N.transitions) (hc : c ∉ N.marking.ids) :
    Net.TakesFirst c (copyArcs N t.id c) := by
  have hin : ∀ a ∈ (N.incoming t.id).map fun a => (⟨a.source, c⟩ : Arc), a.source ≠ c :=
    fun a ha hac => hc (hac ▸ (mem_inputs ht ha).1)
  have hout : ∀ a ∈ (N.outgoing t.id).map fun a => (⟨c, a.target⟩ : Arc), a.target ≠ c :=
    fun a ha hac => hc (hac ▸ (mem_outputs ht ha).2)
  rw [copyArcs, Net.TakesFirst, List.pairwise_append]
  refine ⟨?_, ?_, fun a ha b _ hab => hin a ha hab.1⟩
  · exact List.pairwise_of_forall_mem_list fun a ha b _ hab => hin a ha hab.1
  · exact List.pairwise_of_forall_mem_list fun a _ b hb hab => hout b hb hab.2

namespace IsUnfolding

lemma rename_mem (h : IsUnfolding N cs U) (hc : (t, c) ∈ cs) : rename t c ∈ U.transitions :=
  (h.mem_transitions _).mpr ⟨t, c, hc, rfl⟩

lemma name_notMem (h : IsUnfolding N cs U) (hc : (t, c) ∈ cs) : c ∉ N.marking.ids :=
  h.marking ▸ U.disjoint _ (h.rename_mem hc)

lemma eq_of_name (h : IsUnfolding N cs U) (ht : (t, c) ∈ cs) (hu : (u, c) ∈ cs) : t = u :=
  congrArg Prod.fst (List.inj_on_of_nodup_map h.names_nodup ht hu rfl)

lemma nodup_rename (h : IsUnfolding N cs U) : (cs.map fun x => rename x.1 x.2).Nodup := by
  apply List.Nodup.of_map Transition.id
  rw [List.map_map]
  exact h.names_nodup

lemma exists_arcs_eq (h : IsUnfolding N cs U) (hc : (t, c) ∈ cs) :
    ∃ l r, U.arcs = l ++ copyArcs N t.id c ++ r ∧ ∀ a ∈ l ++ r, a.source ≠ c ∧ a.target ≠ c := by
  obtain ⟨l, r, rfl⟩ := List.append_of_mem hc
  refine ⟨l.flatMap fun c => copyArcs N c.1.id c.2, r.flatMap fun c => copyArcs N c.1.id c.2, ?_, ?_⟩
  · rw [h.arcs]
    simp
  · intro a ha
    rw [← List.flatMap_append] at ha
    obtain ⟨⟨u, d⟩, hd, ha⟩ := List.mem_flatMap.mp ha
    have hdc : d ≠ c := by
      have hnodup := h.names_nodup
      rw [List.map_append, List.map_cons, List.nodup_middle, List.nodup_cons, ← List.map_append] at hnodup
      rintro rfl
      exact hnodup.1 (List.mem_map.mpr ⟨_, hd, rfl⟩)
    have hu := (h.original u d (by simp only [List.mem_append, List.mem_cons] at hd ⊢; tauto)).1
    have hcp := h.name_notMem hc
    rcases mem_copyArcs hu ha with ⟨hs, ht⟩ | ⟨hs, ht⟩
    · exact ⟨fun he => hcp (he ▸ hs), fun he => hdc (ht.symm.trans he)⟩
    · exact ⟨fun he => hdc (hs.symm.trans he), fun he => hcp (he ▸ ht)⟩

lemma filter_arcs (h : IsUnfolding N cs U) (hc : (t, c) ∈ cs) {f : Arc → Bool}
    (hf : ∀ a, f a = true → a.source = c ∨ a.target = c) : U.arcs.filter f = (copyArcs N t.id c).filter f := by
  obtain ⟨l, r, harcs, hapart⟩ := h.exists_arcs_eq hc
  have hnil : ∀ l' ⊆ l ++ r, l'.filter f = [] := by
    intro l' hl'
    rw [List.filter_eq_nil_iff]
    intro a ha hfa
    exact (hf a hfa).elim (hapart a (hl' ha)).1 (hapart a (hl' ha)).2
  rw [harcs, List.filter_append, List.filter_append, hnil l (List.subset_append_left l r),
    hnil r (List.subset_append_right l r), List.append_nil, List.nil_append]

lemma incoming_copy (h : IsUnfolding N cs U) (hc : (t, c) ∈ cs) :
    U.incoming c = (N.incoming t.id).map fun a => ⟨a.source, c⟩ := by
  have ht := (h.original t c hc).1
  rw [Net.incoming, h.filter_arcs hc fun a ha => Or.inr (by simpa using ha), copyArcs, List.filter_append,
    List.filter_eq_self.mpr, List.filter_eq_nil_iff.mpr, List.append_nil]
  · intro a ha htarget
    exact h.name_notMem hc (of_decide_eq_true htarget ▸ (mem_outputs ht ha).2)
  · exact fun a ha => decide_eq_true (mem_inputs ht ha).2

lemma outgoing_copy (h : IsUnfolding N cs U) (hc : (t, c) ∈ cs) :
    U.outgoing c = (N.outgoing t.id).map fun a => ⟨c, a.target⟩ := by
  have ht := (h.original t c hc).1
  rw [Net.outgoing, h.filter_arcs hc fun a ha => Or.inl (by simpa using ha), copyArcs, List.filter_append,
    List.filter_eq_nil_iff.mpr, List.filter_eq_self.mpr, List.nil_append]
  · exact fun a ha => decide_eq_true (mem_outputs ht ha).1
  · intro a ha hsource
    exact h.name_notMem hc (of_decide_eq_true hsource ▸ (mem_inputs ht ha).1)

lemma consumption_copy (h : IsUnfolding N cs U) (hc : (t, c) ∈ cs) : U.consumption c = N.consumption t.id := by
  rw [Net.consumption, h.incoming_copy hc, List.map_map]
  rfl

lemma production_copy (h : IsUnfolding N cs U) (hc : (t, c) ∈ cs) : U.production c = N.production t.id := by
  rw [Net.production, h.outgoing_copy hc, List.map_map]
  rfl

lemma intake_copy (h : IsUnfolding N cs U) (hc : (t, c) ∈ cs) : U.intake c p = N.intake t.id p := by
  rw [← Net.count_source_incoming, ← Net.count_source_incoming, h.incoming_copy hc, List.map_map]
  rfl

lemma output_copy (h : IsUnfolding N cs U) (hc : (t, c) ∈ cs) : U.output c p = N.output t.id p := by
  rw [← Net.count_target_outgoing, ← Net.count_target_outgoing, h.outgoing_copy hc, List.map_map]
  rfl

lemma takesFirst (h : IsUnfolding N cs U) (hc : (t, c) ∈ cs) : Net.TakesFirst c U.arcs := by
  obtain ⟨l, r, harcs, hapart⟩ := h.exists_arcs_eq hc
  have hl : ∀ a ∈ l, a.source ≠ c ∧ a.target ≠ c := fun a ha => hapart a (List.mem_append_left r ha)
  have hr : ∀ a ∈ r, a.source ≠ c ∧ a.target ≠ c := fun a ha => hapart a (List.mem_append_right l ha)
  rw [harcs, Net.TakesFirst, List.pairwise_append, List.pairwise_append]
  refine ⟨⟨?_, takesFirst_copyArcs (h.original t c hc).1 (h.name_notMem hc), ?_⟩, ?_, ?_⟩
  · exact List.pairwise_of_forall_mem_list fun a ha b _ hab => (hl a ha).1 hab.1
  · exact fun a ha b _ hab => (hl a ha).1 hab.1
  · exact List.pairwise_of_forall_mem_list fun a ha b _ hab => (hr a ha).1 hab.1
  · exact fun a _ b hb hab => (hr b hb).2 hab.2

lemma isEnabled_copy (h : IsUnfolding N cs U) (hc : (t, c) ∈ cs) : U.isEnabled c = N.isEnabled t.id := by
  rw [Bool.eq_iff_iff, Net.isEnabled_iff, Net.isEnabled_iff, h.marking]
  simp only [h.intake_copy hc]
  exact and_congr_left' (iff_of_true (List.mem_map.mpr ⟨_, h.rename_mem hc, rfl⟩)
    (List.mem_map_of_mem (h.original t c hc).1))

lemma fire_copy (h : IsUnfolding N cs U) (hc : (t, c) ∈ cs) (hf : N.fire t.id = .ok K) :
    U.fire c = .ok (U.withMarking K.marking) := by
  obtain ⟨_, hb, _⟩ := Net.fire_ok hf
  have hbU : Net.Balanced c U.marking K.marking U.arcs := by
    rw [h.marking]
    refine ⟨hb.1, fun p => ?_⟩
    have hp := hb.2 p
    change _ + U.intake c p = _ + U.output c p
    rw [h.intake_copy hc, h.output_copy hc]
    exact hp
  have he : U.isEnabled c = true := by
    rw [h.isEnabled_copy hc]
    exact Net.isEnabled_of_fire hf
  have hsum : ∀ p, (U.marking.tokens p).toNat + U.output c p ≤ Numeral.largest + U.intake c p := by
    intro p
    have hp := hbU.2 p
    have hle := K.marking.tokens_le p
    rw [Net.intake, Net.output]
    omega
  exact Net.fire_eq_ok_of_balanced he ((h.takesFirst hc).fits hsum) hbU

lemma withMarking (h : IsUnfolding N cs U) (m : Marking) :
    IsUnfolding (N.withMarking m) cs (U.withMarking m) where
  marking := by simp only [Net.withMarking, h.marking]
  arcs := h.arcs
  mem_transitions := h.mem_transitions
  names_nodup := h.names_nodup
  original := h.original
  self_mem := h.self_mem

end IsUnfolding

end Unfolding

end Petri
