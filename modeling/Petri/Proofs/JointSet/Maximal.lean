import Mathlib
import Petri.Proofs.JointSet.Choices

/-! The joint sets of a net are the greatest sets of transitions that its marking can serve at once. -/

namespace Petri.JointSet

open ConflictGroup

variable {N : Net} {m : Marking} {g : ConflictGroup} {gs : List ConflictGroup} {parts : List JointSet}
  {s s' : JointSet} {t : Transition} {p : String}

def members (g : ConflictGroup) : List Transition :=
  g.demands.map Demand.transition

lemma mem_places (hg : Describes N g) : p ∈ g.places ↔ ∃ t ∈ members g, 0 < N.intake t.id p := by
  rw [hg.places]
  simp [members]

lemma mem_combine {choices : List (List JointSet)} : s ∈ combine choices ↔
    ∃ parts, List.Forall₂ (fun part sets => part ∈ sets) parts choices ∧ parts.flatten = s := by
  induction choices generalizing s with
  | nil => simp [combine, eq_comm]
  | cons sets choices ih =>
    simp only [combine, List.mem_flatMap, List.mem_map, ih, List.forall₂_cons_right_iff]
    constructor
    · rintro ⟨part, hpart, _, ⟨parts, hparts, rfl⟩, rfl⟩
      exact ⟨part :: parts, ⟨part, parts, hpart, hparts, rfl⟩, rfl⟩
    · rintro ⟨_, ⟨part, parts, hpart, hparts, rfl⟩, rfl⟩
      exact ⟨part, hpart, parts.flatten, ⟨parts, hparts, rfl⟩, rfl⟩

structure IsJoint (N : Net) (s : JointSet) : Prop where
  nodup : s.Nodup
  subset : s ⊆ N.transitions
  fits : ∀ p, N.load s p ≤ (N.marking.tokens p).toNat

def IsMaximal (N : Net) (s : JointSet) : Prop :=
  ∀ t ∈ N.transitions, t ∉ s → ∃ p, (N.marking.tokens p).toNat < N.load s p + N.intake t.id p

lemma members_perm (N : Net) : ((ConflictGroup.ofNet N).flatMap members).Perm N.enabled := by
  have h := (divides_ofNet N).2.map Demand.transition
  rw [List.map_flatMap, map_transition_demands] at h
  exact h

lemma nodup_members (N : Net) : ((ConflictGroup.ofNet N).flatMap members).Nodup :=
  (members_perm N).nodup_iff.mpr ((Sorted.nodup_of_ascending N.ascending).filter _)

lemma forall₂_congr_right {α β : Type} {R S : α → β → Prop} {l : List α} {l' : List β}
    (h : ∀ b ∈ l', ∀ a, R a b ↔ S a b) : List.Forall₂ R l l' ↔ List.Forall₂ S l l' := by
  induction l' generalizing l with
  | nil => simp
  | cons b l' ih =>
    have htail := fun l => ih (l := l) fun c hc => h c (List.mem_cons_of_mem b hc)
    simp only [List.forall₂_cons_right_iff, h b List.mem_cons_self, htail]

lemma exists_mem_zip {α β : Type} {R : α → β → Prop} {l : List α} {l' : List β} {b : β}
    (h : List.Forall₂ R l l') (hb : b ∈ l') : ∃ a, (a, b) ∈ l.zip l' ∧ R a b := by
  obtain ⟨i, hi, rfl⟩ := List.getElem_of_mem hb
  have hlt : i < l.length := h.length_eq ▸ hi
  have hmem : (l[i], l'[i]) ∈ l.zip l' := List.mem_iff_getElem.mpr ⟨i, by simp [hlt, hi], List.getElem_zip⟩
  exact ⟨l[i], hmem, List.forall₂_zip h hmem⟩

lemma mem_ofNet : s ∈ ofNet N ↔ s ≠ [] ∧ ∃ parts, parts.flatten = s ∧
    List.Forall₂ (fun part g => IsChoice N N.marking [] (members g) part) parts (ConflictGroup.ofNet N) := by
  have hchoice : ∀ g ∈ ConflictGroup.ofNet N, ∀ part, part ∈ choices N.marking [] g.demands ↔
      IsChoice N N.marking [] (members g) part := by
    intro g hg part
    refine mem_choices (by simp [Genuine]) ((divides_ofNet N).1.describes g hg).needs ?_
    exact (List.nodup_flatMap.mp (nodup_members N)).1 g hg
  simp only [ofNet, List.mem_filter, mem_combine, List.forall₂_map_right_iff, forall₂_congr_right hchoice]
  simp only [Bool.not_eq_true', List.isEmpty_eq_false_iff]
  constructor
  · rintro ⟨⟨parts, hparts, hs⟩, hne⟩
    exact ⟨hne, parts, hs, hparts⟩
  · rintro ⟨hne, parts, hs, hparts⟩
    exact ⟨⟨parts, hparts, hs⟩, hne⟩

lemma load_eq_zero {part : JointSet} (hg : Describes N g) (hpart : part ⊆ members g) (hp : p ∉ g.places) :
    N.load part p = 0 := by
  by_contra hne
  obtain ⟨t, ht, hpos⟩ := Net.exists_of_load_pos (Nat.pos_of_ne_zero hne)
  exact hp ((mem_places hg).mpr ⟨t, hpart ht, hpos⟩)

lemma load_flatten_eq_zero (hgs : ∀ g ∈ gs, Describes N g)
    (hparts : List.Forall₂ (fun part g => part ⊆ members g) parts gs) (hp : ∀ g ∈ gs, p ∉ g.places) :
    N.load parts.flatten p = 0 := by
  induction hparts with
  | nil => rfl
  | @cons part g parts gs hpart _ ih =>
    rw [List.forall_mem_cons] at hgs hp
    rw [List.flatten_cons, Net.load_append, load_eq_zero hgs.1 hpart hp.1, ih hgs.2 hp.2]

lemma load_flatten (hgs : Divides N gs) (hparts : List.Forall₂ (fun part g => part ⊆ members g) parts gs)
    {part : JointSet} (hg : (part, g) ∈ parts.zip gs) (hp : p ∈ g.places) :
    N.load parts.flatten p = N.load part p := by
  induction hparts with
  | nil => cases hg
  | @cons part' g' parts gs hpart hparts ih =>
    obtain ⟨hapart, _⟩ := List.pairwise_cons.mp hgs.apart
    rw [List.flatten_cons, Net.load_append]
    rcases List.mem_cons.mp hg with heq | hg
    · cases heq
      rw [load_flatten_eq_zero (fun h hh => hgs.describes h (List.mem_cons_of_mem g hh)) hparts
        fun h hh => hapart h hh p hp, Nat.add_zero]
    · have hp' : p ∉ g'.places := fun hp' => hapart g (List.of_mem_zip hg).2 p hp' hp
      rw [load_eq_zero (hgs.describes g' List.mem_cons_self) hpart hp', Nat.zero_add]
      exact ih (hgs.sublist (List.sublist_cons_self g' gs)) hg

lemma flatten_sublist (hparts : List.Forall₂ (fun part g => part.Sublist (members g)) parts gs) :
    parts.flatten.Sublist (gs.flatMap members) := by
  induction hparts with
  | nil => exact List.Sublist.refl []
  | cons hpart _ ih => exact hpart.append ih

lemma exists_of_notMem_enabled (ht : t ∈ N.transitions) (hen : t ∉ N.enabled) :
    ∃ p, (N.marking.tokens p).toNat < N.load s p + N.intake t.id p := by
  by_contra hall
  push Not at hall
  refine hen (Net.mem_enabled.mpr ⟨ht, Net.isEnabled_iff.mpr ⟨List.mem_map_of_mem ht, fun p => ?_⟩⟩)
  have hp := hall p
  omega

lemma isJoint_of_mem_ofNet (h : s ∈ ofNet N) : IsJoint N s ∧ IsMaximal N s := by
  obtain ⟨-, parts, rfl, hparts⟩ := mem_ofNet.mp h
  have hdiv := (divides_ofNet N).1
  have hsublist := flatten_sublist (hparts.imp fun _ _ hc => hc.sublist)
  have hsubset := hparts.imp fun _ _ (hc : IsChoice N N.marking [] _ _) => hc.sublist.subset
  refine ⟨⟨(nodup_members N).sublist hsublist, ?_, ?_⟩, ?_⟩
  · intro t ht
    exact (Net.mem_enabled.mp ((members_perm N).mem_iff.mp (hsublist.mem ht))).1
  · intro p
    by_cases hp : ∃ g ∈ ConflictGroup.ofNet N, p ∈ g.places
    · obtain ⟨g, hg, hp⟩ := hp
      obtain ⟨part, hzip, hpart⟩ := exists_mem_zip hparts hg
      rw [load_flatten hdiv hsubset hzip hp]
      exact hpart.fits p
    · push Not at hp
      rw [load_flatten_eq_zero hdiv.describes hsubset hp]
      exact Nat.zero_le _
  · intro t ht hts
    by_cases hen : t ∈ N.enabled
    · obtain ⟨g, hg, htg⟩ := List.mem_flatMap.mp ((members_perm N).mem_iff.mpr hen)
      obtain ⟨part, hzip, hpart⟩ := exists_mem_zip hparts hg
      have hsub := List.sublist_flatten_of_mem (List.of_mem_zip hzip).1
      obtain ⟨p, hp⟩ := hpart.blocked t (Or.inr ⟨htg, fun htp => hts (hsub.mem htp)⟩)
      exact ⟨p, hp.trans_le (Nat.add_le_add_right (Net.load_mono hsub) _)⟩
    · exact exists_of_notMem_enabled ht hen

lemma IsJoint.subset_enabled (h : IsJoint N s) : s ⊆ N.enabled := by
  intro t ht
  refine Net.mem_enabled.mpr ⟨h.subset ht, Net.isEnabled_iff.mpr ⟨List.mem_map_of_mem (h.subset ht), fun p => ?_⟩⟩
  exact (Net.intake_le_load ht).trans (h.fits p)

def share (s : JointSet) (g : ConflictGroup) : JointSet :=
  (members g).filter fun t => t ∈ s

lemma share_subset (s : JointSet) (g : ConflictGroup) : share s g ⊆ members g :=
  List.filter_sublist.subset

lemma share_perm (h : IsJoint N s) : ((ConflictGroup.ofNet N).map (share s)).flatten.Perm s := by
  have hfilter : ((ConflictGroup.ofNet N).map (share s)).flatten =
      ((ConflictGroup.ofNet N).flatMap members).filter fun t => t ∈ s := by
    rw [List.filter_flatMap, ← List.flatMap_def]
    rfl
  rw [hfilter, List.perm_ext_iff_of_nodup ((nodup_members N).filter _) h.nodup]
  intro t
  rw [List.mem_filter, (members_perm N).mem_iff, decide_eq_true_eq]
  exact and_iff_right_of_imp fun ht => h.subset_enabled ht

lemma isChoice_share (h : IsJoint N s) (hmax : IsMaximal N s) (hg : g ∈ ConflictGroup.ofNet N) :
    IsChoice N N.marking [] (members g) (share s g) where
  sublist := List.filter_sublist
  fits p := by
    refine (Net.load_mono ?_).trans ((Net.load_perm (share_perm h)).trans_le (h.fits p))
    exact List.sublist_flatten_of_mem (List.mem_map_of_mem hg)
  blocked t ht := by
    obtain ⟨htg, hts⟩ := ht.resolve_left List.not_mem_nil
    have htN := (Net.mem_enabled.mp ((members_perm N).mem_iff.mp (List.mem_flatMap.mpr ⟨g, hg, htg⟩))).1
    have hts : t ∉ s := fun hmem => hts (List.mem_filter.mpr ⟨htg, by simpa using hmem⟩)
    obtain ⟨p, hp⟩ := hmax t htN hts
    have hfits := h.fits p
    have hplace : p ∈ g.places :=
      (mem_places ((divides_ofNet N).1.describes g hg)).mpr ⟨t, htg, by omega⟩
    have hshare : List.Forall₂ (fun part g => part = share s g) ((ConflictGroup.ofNet N).map (share s))
        (ConflictGroup.ofNet N) := List.forall₂_map_left_iff.mpr (List.forall₂_same.mpr fun _ _ => rfl)
    obtain ⟨_, hzip, rfl⟩ := exists_mem_zip hshare hg
    have hsubset := hshare.imp fun part g (hpart : part = share s g) => hpart ▸ share_subset s g
    rw [← Net.load_perm (share_perm h), load_flatten (divides_ofNet N).1 hsubset hzip hplace] at hp
    exact ⟨p, hp⟩

lemma exists_mem_ofNet_of_isMaximal (h : IsJoint N s) (hmax : IsMaximal N s) (hne : s ≠ []) :
    ∃ s' ∈ ofNet N, s'.Perm s := by
  have hperm := share_perm h
  refine ⟨_, mem_ofNet.mpr ⟨fun hnil => hne ?_, _, rfl, ?_⟩, hperm⟩
  · rw [hnil] at hperm
    exact hperm.nil_eq.symm
  · exact List.forall₂_map_left_iff.mpr (List.forall₂_same.mpr fun g hg => isChoice_share h hmax hg)

lemma IsJoint.exists_isMaximal (h : IsJoint N s) : ∃ s', s ⊆ s' ∧ IsJoint N s' ∧ IsMaximal N s' := by
  -- on how many transitions are left out
  induction hk : N.transitions.length - s.length using Nat.strong_induction_on generalizing s with
  | _ k ih =>
    by_cases hmax : IsMaximal N s
    · exact ⟨s, List.Subset.refl s, h, hmax⟩
    · simp only [IsMaximal, not_forall, not_exists, Nat.not_lt] at hmax
      obtain ⟨t, ht, hts, hfits⟩ := hmax
      have hnext : IsJoint N (t :: s) := by
        refine ⟨List.nodup_cons.mpr ⟨hts, h.nodup⟩, List.cons_subset.mpr ⟨ht, h.subset⟩, fun p => ?_⟩
        rw [Net.load_cons, Nat.add_comm]
        exact hfits p
      have hlen := (hnext.nodup.subperm hnext.subset).length_le
      rw [List.length_cons] at hlen
      obtain ⟨s', hs', h'⟩ := ih _ (by rw [List.length_cons]; omega) hnext rfl
      exact ⟨s', List.Subset.trans (List.subset_cons_self t s) hs', h'⟩

lemma IsJoint.exists_mem_ofNet (h : IsJoint N s) (hne : s ≠ []) : ∃ s' ∈ ofNet N, s ⊆ s' := by
  obtain ⟨s₁, hs₁, hjoint, hmax⟩ := h.exists_isMaximal
  obtain ⟨s', hs', hperm⟩ := exists_mem_ofNet_of_isMaximal hjoint hmax fun hnil =>
    hne (List.subset_nil.mp (hnil ▸ hs₁))
  exact ⟨s', hs', List.Subset.trans hs₁ hperm.symm.subset⟩

variable {G : MarkingGraph} {sets : List JointSet} {seen : List (List String)} {ts : List Transition}
  {condition : Context → Bool} {n : ℕ}

lemma mem_of_mem_distinct (h : s ∈ distinct seen sets) : s ∈ sets := by
  induction sets generalizing seen with
  | nil => cases h
  | cons s' sets ih =>
    simp only [distinct] at h
    split at h
    · exact List.mem_cons_of_mem s' (ih h)
    · rcases List.mem_cons.mp h with rfl | h
      · exact List.mem_cons_self
      · exact List.mem_cons_of_mem s' (ih h)

lemma exists_mem_distinct (h : s ∈ sets) (hseen : Sorted.ofList s.ids ∉ seen) :
    ∃ s' ∈ distinct seen sets, Sorted.ofList s'.ids = Sorted.ofList s.ids := by
  induction sets generalizing seen with
  | nil => cases h
  | cons s' sets ih =>
    by_cases hkey : Sorted.ofList s.ids = Sorted.ofList s'.ids
    · refine ⟨s', ?_, hkey.symm⟩
      rw [distinct, if_neg (by simpa [hkey] using hseen)]
      exact List.mem_cons_self
    · have hs : s ∈ sets := (List.mem_cons.mp h).resolve_left fun he => hkey (he ▸ rfl)
      simp only [distinct]
      split
      · exact ih hs hseen
      · have hseen' : Sorted.ofList s.ids ∉ Sorted.ofList s'.ids :: seen := by simp [hkey, hseen]
        obtain ⟨s₁, hs₁, hkey₁⟩ := ih hs hseen'
        exact ⟨s₁, List.mem_cons_of_mem s' hs₁, hkey₁⟩

lemma length_ofList {l : List String} (h : l.Nodup) : (Sorted.ofList l).length = l.length :=
  ((List.perm_ext_iff_of_nodup (Sorted.nodup_ofList l) h).mpr fun _ => Sorted.mem_ofList).length_eq

lemma IsJoint.nodup_ids (h : IsJoint N s) : s.ids.Nodup := by
  refine h.nodup.map_on fun t ht u hu => ?_
  exact List.inj_on_of_nodup_map (Sorted.nodup_keys N.ascending) (h.subset ht) (h.subset hu)

lemma IsJoint.mem_iff (h : IsJoint N s) : t ∈ s ↔ t ∈ N.transitions ∧ t.id ∈ s.ids := by
  constructor
  · intro ht
    exact ⟨h.subset ht, List.mem_map_of_mem ht⟩
  · rintro ⟨ht, hid⟩
    obtain ⟨u, hu, hid⟩ := List.mem_map.mp hid
    exact List.inj_on_of_nodup_map (Sorted.nodup_keys N.ascending) (h.subset hu) ht hid ▸ hu

lemma IsJoint.matching_eq (h : IsJoint N s) :
    s.matching condition = (s.filter (·.satisfies condition)).length := by
  rw [matching, length_ofList, ids, List.length_map]
  exact h.nodup_ids.sublist (List.filter_sublist.map Transition.id)

lemma IsJoint.sublist (h : IsJoint N s) (hs : s'.Sublist s) : IsJoint N s' :=
  ⟨h.nodup.sublist hs, fun _ ht => h.subset (hs.mem ht), fun p => (Net.load_mono hs).trans (h.fits p)⟩

lemma exists_mem_ofGraph (condition : Context → Bool) (hts : ∀ V ∈ G.vertices.toList, V.transitions = ts)
    (hN : N ∈ G.vertices.toList) (hs : s ∈ ofNet N) : ∃ s' ∈ ofGraph G, s'.matching condition = s.matching condition := by
  obtain ⟨s', hs', hkey⟩ := exists_mem_distinct (List.mem_flatMap.mpr ⟨N, hN, hs⟩) List.not_mem_nil
  refine ⟨s', hs', ?_⟩
  obtain ⟨M, hM, hs'⟩ := List.mem_flatMap.mp (mem_of_mem_distinct hs')
  have hids : ∀ id, id ∈ s'.ids ↔ id ∈ s.ids := fun id => by
    rw [← Sorted.mem_ofList, hkey, Sorted.mem_ofList]
  have hjoint := (isJoint_of_mem_ofNet hs).1
  have hjoint' := (isJoint_of_mem_ofNet hs').1
  rw [hjoint.matching_eq, hjoint'.matching_eq]
  have hMN : M.transitions = N.transitions := (hts M hM).trans (hts N hN).symm
  have hperm : s'.Perm s := by
    rw [List.perm_ext_iff_of_nodup hjoint'.nodup hjoint.nodup]
    intro t
    rw [hjoint.mem_iff, hjoint'.mem_iff, hMN, hids]
  exact (hperm.filter _).length_eq

lemma anyMatching_ofGraph_iff (hts : ∀ V ∈ G.vertices.toList, V.transitions = ts) (hn : 1 ≤ n) :
    anyMatching (ofGraph G) condition n = true ↔ ∃ V ∈ G.vertices.toList, ∃ s, IsJoint V s ∧ n ≤ s.length ∧
      ∀ t ∈ s, t.satisfies condition = true := by
  simp only [anyMatching, List.any_eq_true, decide_eq_true_eq]
  constructor
  · rintro ⟨s, hs, hle⟩
    obtain ⟨V, hV, hs⟩ := List.mem_flatMap.mp (mem_of_mem_distinct hs)
    have hjoint := (isJoint_of_mem_ofNet hs).1
    rw [hjoint.matching_eq] at hle
    exact ⟨V, hV, _, hjoint.sublist List.filter_sublist, hle, fun t ht => (List.mem_filter.mp ht).2⟩
  · rintro ⟨V, hV, s, hjoint, hle, hall⟩
    obtain ⟨s', hs', hsub⟩ := hjoint.exists_mem_ofNet (List.ne_nil_of_length_pos (by omega))
    obtain ⟨s₁, hs₁, hmatching⟩ := exists_mem_ofGraph condition hts hV hs'
    refine ⟨s₁, hs₁, ?_⟩
    have hfilter : s ⊆ s'.filter (·.satisfies condition) := fun t ht => List.mem_filter.mpr ⟨hsub ht, hall t ht⟩
    rw [hmatching, (isJoint_of_mem_ofNet hs').1.matching_eq]
    exact hle.trans (hjoint.nodup.subperm hfilter).length_le

end Petri.JointSet
