import Mathlib
import Petri.Proofs.Firing
import Petri.JointSet

/-! Conflict groups divide the enabled transitions, and no place is an input of two groups. -/

namespace Petri.ConflictGroup

variable {N : Net} {g h : ConflictGroup} {gs passed rest : List ConflictGroup} {t : Transition} {p : String}

def Apart (g h : ConflictGroup) : Prop :=
  ∀ p ∈ g.places, p ∉ h.places

def Genuine (N : Net) (demands : List Demand) : Prop :=
  ∀ d ∈ demands, N.consumption d.transition.id = .ok d.needs

structure Describes (N : Net) (g : ConflictGroup) : Prop where
  needs : Genuine N g.demands
  places : ∀ p, p ∈ g.places ↔ ∃ d ∈ g.demands, 0 < N.intake d.transition.id p

lemma Apart.symm (hgh : Apart g h) : Apart h g :=
  fun p hp hg => hgh p hg hp

lemma meets_eq_false_iff : h.meets g = false ↔ Apart h g := by
  simp [meets, Apart]

lemma lastFirst_perm {α : Type} (l : List α) : (lastFirst l).Perm l := by
  induction l using List.reverseRecOn with
  | nil => rfl
  | append_singleton l a =>
    have hl : lastFirst (l ++ [a]) = a :: l := by simp [lastFirst]
    rw [hl]
    exact (List.perm_append_singleton a l).symm

lemma Apart.merge {k : ConflictGroup} (hg : Apart k g) (hh : Apart k h) : Apart k (g.merge h) :=
  fun p hp hm => (List.mem_append.mp hm).elim (hg p hp) (hh p hp)

lemma describes_single {d : Demand} (hd : N.consumption d.transition.id = .ok d.needs) : Describes N (single d) where
  needs := List.forall_mem_singleton.mpr hd
  places p := by
    simp only [single, List.mem_singleton, exists_eq_left]
    exact Net.mem_map_fst_consumption hd

lemma Describes.merge (hg : Describes N g) (hh : Describes N h) : Describes N (g.merge h) where
  needs d hd := (List.mem_append.mp hd).elim (hg.needs d) (hh.needs d)
  places p := by
    simp only [ConflictGroup.merge, List.mem_append, hg.places, hh.places, or_and_right, exists_or]

structure Divides (N : Net) (gs : List ConflictGroup) : Prop where
  describes : ∀ g ∈ gs, Describes N g
  apart : gs.Pairwise Apart

lemma Divides.perm {gs' : List ConflictGroup} (hgs : Divides N gs) (hp : gs.Perm gs') : Divides N gs' :=
  ⟨fun g hg => hgs.describes g (hp.mem_iff.mpr hg), (hp.pairwise_iff Apart.symm).mp hgs.apart⟩

lemma Divides.sublist {gs' : List ConflictGroup} (hgs : Divides N gs) (hs : gs'.Sublist gs) : Divides N gs' :=
  ⟨fun g hg => hgs.describes g (hs.mem hg), hgs.apart.sublist hs⟩

lemma divides_absorb (hg : Describes N g) (hgs : Divides N (passed ++ rest)) (hpassed : ∀ h ∈ passed, Apart h g) :
    Divides N (absorb g passed rest) ∧
      ((absorb g passed rest).flatMap demands).Perm (g.demands ++ (passed ++ rest).flatMap demands) := by
  fun_induction absorb g passed rest with
  | case1 g passed =>
    rw [List.append_nil] at hgs ⊢
    refine ⟨⟨?_, ?_⟩, ?_⟩
    · intro h hh
      rcases List.mem_append.mp hh with hh | hh
      · exact hgs.describes h hh
      · exact List.mem_singleton.mp hh ▸ hg
    · rw [List.pairwise_append]
      exact ⟨hgs.apart, List.pairwise_singleton _ _, fun h hh k hk => List.mem_singleton.mp hk ▸ hpassed h hh⟩
    · simpa using List.perm_append_comm
  | case2 g passed h rest hmeets ih =>
    have hperm : (passed ++ lastFirst rest).Perm (passed ++ rest) := (lastFirst_perm rest).append_left passed
    have hh := hgs.describes h (List.mem_append_right passed List.mem_cons_self)
    have hrest : Divides N (passed ++ rest) := hgs.sublist ((List.sublist_cons_self h rest).append_left passed)
    have happassed : ∀ k ∈ passed, Apart k (g.merge h) := fun k hk =>
      (hpassed k hk).merge ((List.pairwise_append.mp hgs.apart).2.2 k hk h List.mem_cons_self)
    obtain ⟨hdiv, hdemands⟩ := ih (hg.merge hh) (hrest.perm hperm.symm) happassed
    refine ⟨hdiv, hdemands.trans ?_⟩
    have hmiddle : ((passed ++ h :: rest).flatMap demands).Perm (h.demands ++ (passed ++ rest).flatMap demands) :=
      List.perm_middle.flatMap_right demands
    simp only [ConflictGroup.merge, List.append_assoc]
    exact (((hperm.flatMap_right demands).append_left _).trans hmiddle.symm).append_left _
  | case3 g passed h rest hmeets ih =>
    have hpassed' : ∀ k ∈ passed ++ [h], Apart k g := by
      intro k hk
      rcases List.mem_append.mp hk with hk | hk
      · exact hpassed k hk
      · rw [List.mem_singleton.mp hk]
        exact meets_eq_false_iff.mp (by simpa using hmeets)
    simpa using ih hg (by simpa using hgs) hpassed'

lemma divides_foldl {ds : List Demand} (hds : Genuine N ds) (hgs : Divides N gs) :
    Divides N (ds.foldl (fun groups d => absorb (single d) [] groups) gs) ∧
      ((ds.foldl (fun groups d => absorb (single d) [] groups) gs).flatMap demands).Perm
        (gs.flatMap demands ++ ds) := by
  induction ds generalizing gs with
  | nil => exact ⟨hgs, by simp⟩
  | cons d ds ih =>
    obtain ⟨hd, hds⟩ := List.forall_mem_cons.mp hds
    have hgs' : Divides N ([] ++ gs) := hgs
    obtain ⟨hdiv, hdemands⟩ := divides_absorb (describes_single hd) hgs' (by simp)
    obtain ⟨hdiv', hdemands'⟩ := ih hds hdiv
    refine ⟨hdiv', hdemands'.trans ((hdemands.append_right _).trans ?_)⟩
    simpa [single] using List.perm_middle.symm

lemma mem_demands {d : Demand} :
    d ∈ N.demands ↔ d.transition ∈ N.enabled ∧ N.consumption d.transition.id = .ok d.needs := by
  simp only [Net.demands, List.mem_filterMap, Option.map_eq_some_iff, toOption_eq_some_iff]
  constructor
  · rintro ⟨t, ht, needs, hneeds, rfl⟩
    exact ⟨ht, hneeds⟩
  · rintro ⟨ht, hneeds⟩
    exact ⟨d.transition, ht, d.needs, hneeds, rfl⟩

/-- No enabled transition is left out, since what it takes can be counted. -/
lemma map_transition_demands (N : Net) : N.demands.map Demand.transition = N.enabled := by
  rw [Net.demands, List.map_filterMap]
  refine (List.filterMap_congr fun t ht => ?_).trans List.filterMap_some
  obtain ⟨needs, hneeds⟩ := Net.exists_consumption (Net.mem_enabled.mp ht).2
  rw [hneeds]
  rfl

lemma divides_ofNet (N : Net) : Divides N (ofNet N) ∧ ((ofNet N).flatMap demands).Perm N.demands := by
  have hnil : Divides N [] := ⟨by simp, List.Pairwise.nil⟩
  simpa [ofNet] using divides_foldl (fun d hd => (mem_demands.mp hd).2) hnil

end Petri.ConflictGroup
