import Mathlib
import Petri.Proofs.Unfolding.Concurrency

/-! The names of copies. Those of different transitions never meet, even where an id looks like a copy itself, since a
name ends in the number of the copy after the last `#`. -/

namespace Petri

lemma append_cons_inj_of_notMem_right {α : Type} {l l' r r' : List α} {a : α} (hr : a ∉ r) (hr' : a ∉ r')
    (h : l ++ a :: r = l' ++ a :: r') : l = l' ∧ r = r' := by
  rcases List.append_eq_append_iff.mp h with ⟨m, rfl, hm⟩ | ⟨m, rfl, hm⟩
  · cases m with
    | nil => simpa using hm
    | cons b m =>
      obtain ⟨-, rfl⟩ := List.cons.inj hm
      simp at hr
  · cases m with
    | nil => simpa [eq_comm] using hm
    | cons b m =>
      obtain ⟨-, rfl⟩ := List.cons.inj hm
      simp at hr'

namespace Unfolding

variable {N U : Net} {G : MarkingGraph} {t u : Transition} {id id' c : String} {taken base : List String}
  {number m n k s : ℕ} {numbers : List ℕ}

lemma hash_notMem_toString (n : ℕ) : '#' ∉ (toString n).toList := by
  rw [Nat.toString_eq_ofList_toDigits, String.toList_ofList]
  intro h
  have hdigit := Nat.isDigit_of_mem_toDigits (by omega) (by omega) h
  revert hdigit
  decide

lemma copyName_inj : copyName id m = copyName id' n ↔ id = id' ∧ m = n := by
  constructor
  · intro h
    have hlist : id.toList ++ '#' :: (toString m).toList = id'.toList ++ '#' :: (toString n).toList := by
      simpa [copyName] using congrArg String.toList h
    obtain ⟨hid, hnumber⟩ :=
      append_cons_inj_of_notMem_right (hash_notMem_toString m) (hash_notMem_toString n) hlist
    exact ⟨String.toList_inj.mp hid, Nat.repr_inj.mp (String.toList_inj.mp hnumber)⟩
  · rintro ⟨rfl, rfl⟩
    rfl

lemma freshNumber_spec (taken : List String) (id : String) (number : ℕ) :
    number < freshNumber taken id number ∧ copyName id (freshNumber taken id number) ∉ taken ∧
      ∀ k, number < k → k < freshNumber taken id number → copyName id k ∈ taken := by
  fun_induction freshNumber taken id number with
  | case1 taken number hmem ih =>
    obtain ⟨hlt, hfree, hskipped⟩ := ih
    -- only a name with a smaller number has been erased
    refine ⟨by omega, fun h => hfree ((List.mem_erase_of_ne fun heq => ?_).mpr h), fun k hk hlt' => ?_⟩
    · have := (copyName_inj.mp heq).2
      omega
    · rcases Nat.eq_or_lt_of_le (Nat.succ_le_of_lt hk) with rfl | hk
      · exact hmem
      · exact List.mem_of_mem_erase (hskipped k hk hlt')
  | case2 taken number hmem => exact ⟨by omega, hmem, fun k hk hlt => by omega⟩

/-- Numbers for copies of `id` after `number`, leaving out only those whose names are taken. -/
structure IsNumbering (id : String) (taken : List String) (number : ℕ) (numbers : List ℕ) : Prop where
  ascending : numbers.Pairwise (· < ·)
  gt : ∀ s ∈ numbers, number < s
  free : ∀ s ∈ numbers, copyName id s ∉ taken
  skipped : ∀ s ∈ numbers, ∀ k, number < k → k < s → k ∈ numbers ∨ copyName id k ∈ taken

lemma IsNumbering.cons (h : IsNumbering id (copyName id (freshNumber taken id number) :: taken)
    (freshNumber taken id number) numbers) :
    IsNumbering id taken number (freshNumber taken id number :: numbers) := by
  obtain ⟨hlt, hfree, hskipped⟩ := freshNumber_spec taken id number
  generalize freshNumber taken id number = m at h hlt hfree hskipped
  refine ⟨List.pairwise_cons.mpr ⟨h.gt, h.ascending⟩, ?_, ?_, ?_⟩
  · rw [List.forall_mem_cons]
    exact ⟨hlt, fun s hs => hlt.trans (h.gt s hs)⟩
  · rw [List.forall_mem_cons]
    exact ⟨hfree, fun s hs hmem => h.free s hs (List.mem_cons_of_mem _ hmem)⟩
  · intro s hs k hk hks
    rcases Nat.lt_trichotomy k m with hkm | rfl | hmk
    · exact Or.inr (hskipped k hk hkm)
    · exact Or.inl List.mem_cons_self
    · have hs : s ∈ numbers := (List.mem_cons.mp hs).resolve_left (by omega)
      rcases h.skipped s hs k hmk hks with hmem | hmem
      · exact Or.inl (List.mem_cons_of_mem m hmem)
      · refine Or.inr ((List.mem_cons.mp hmem).resolve_left fun heq => ?_)
        have := (copyName_inj.mp heq).2
        omega

lemma exists_isNumbering (id : String) (taken : List String) (number count : ℕ) :
    ∃ numbers, copyNames id taken number count = numbers.map (copyName id) ∧ IsNumbering id taken number numbers := by
  induction count generalizing taken number with
  | zero => exact ⟨[], rfl, by simp, by simp, by simp, by simp⟩
  | succ count ih =>
    obtain ⟨numbers, heq, hnumbers⟩ :=
      ih (copyName id (freshNumber taken id number) :: taken) (freshNumber taken id number)
    exact ⟨_ :: numbers, by rw [copyNames, heq, List.map_cons], hnumbers.cons⟩

lemma IsNumbering.of_mem_iff (h : IsNumbering id taken number numbers)
    (hmem : ∀ k, copyName id k ∈ taken ↔ copyName id k ∈ base) : IsNumbering id base number numbers where
  ascending := h.ascending
  gt := h.gt
  free s hs := (hmem s).not.mp (h.free s hs)
  skipped s hs k hk hks := (h.skipped s hs k hk hks).imp_right (hmem k).mp

lemma IsNumbering.lt (h : IsNumbering id taken 1 numbers) (hid : id ∈ taken) (hs : s ∈ numbers) :
    s < numbers.length + 1 + taken.length := by
  -- each number up to `s` is that of a copy or gives a name that is taken, and `id` itself is none of these names
  have hnodup : ((List.range' 2 (s - 1)).map (copyName id)).Nodup :=
    List.Nodup.map (fun _ _ heq => (copyName_inj.mp heq).2) List.nodup_range'
  have hsubset : (List.range' 2 (s - 1)).map (copyName id) ⊆ numbers.map (copyName id) ++ taken.erase id := by
    intro c hc
    obtain ⟨k, hk, rfl⟩ := List.mem_map.mp hc
    obtain ⟨hle, hlt⟩ := List.mem_range'_1.mp hk
    have hcases : k ∈ numbers ∨ copyName id k ∈ taken := by
      rcases Nat.lt_or_eq_of_le (show k ≤ s by omega) with hks | rfl
      · exact h.skipped s hs k hle hks
      · exact Or.inl hs
    rw [List.mem_append]
    refine hcases.imp (List.mem_map_of_mem) fun hmem => ?_
    exact (List.mem_erase_of_ne (Std.ne_of_lt (lt_copyName id k)).symm).mpr hmem
  have hlength := (List.subperm_of_subset hnodup hsubset).length_le
  have hpos := List.length_pos_of_mem hid
  rw [List.length_map, List.length_range', List.length_append, List.length_map, List.length_erase_of_mem hid] at hlength
  omega

def copyIds (t : Transition) (numbers : List ℕ) : List String :=
  t.id :: numbers.map (copyName t.id)

lemma exists_allCopies_eq (count : Transition → ℕ) {ts : List Transition} (hids : (ts.map Transition.id).Nodup)
    (htaken : ∀ t ∈ ts, ∀ k, copyName t.id k ∈ taken ↔ copyName t.id k ∈ base) :
    ∃ numbers : Transition → List ℕ, allCopies count taken ts = ts.map (fun t => (t, copyIds t (numbers t))) ∧
      ∀ t ∈ ts, (numbers t).length = count t - 1 ∧ IsNumbering t.id base 1 (numbers t) := by
  induction ts generalizing taken with
  | nil => exact ⟨fun _ => [], rfl, by simp⟩
  | cons t ts ih =>
    rw [List.map_cons, List.nodup_cons] at hids
    have hne : ∀ u ∈ ts, u.id ≠ t.id := fun u hu heq => hids.1 (List.mem_map.mpr ⟨u, hu, heq⟩)
    obtain ⟨own, hown, hnumbering⟩ := exists_isNumbering t.id taken 1 (count t - 1)
    -- what `t` takes is no name that a copy of another transition could have
    have hothers : ∀ u ∈ ts, ∀ k, copyName u.id k ∈ copyNames t.id taken 1 (count t - 1) ++ taken ↔
        copyName u.id k ∈ base := by
      intro u hu k
      rw [← htaken u (List.mem_cons_of_mem t hu) k, List.mem_append, or_iff_right]
      rw [hown, List.mem_map]
      rintro ⟨s, -, heq⟩
      exact hne u hu (copyName_inj.mp heq).1.symm
    obtain ⟨numbers, heq, hnumbers⟩ := ih hids.2 hothers
    have hupdate : ∀ u ∈ ts, Function.update numbers t own u = numbers u := fun u hu =>
      Function.update_of_ne (fun hut => hne u hu (congrArg Transition.id hut)) _ _
    refine ⟨Function.update numbers t own, ?_, ?_⟩
    · rw [allCopies, heq, List.map_cons, Function.update_self, hown]
      congr 1
      exact List.map_congr_left fun u hu => by rw [hupdate u hu]
    · rw [List.forall_mem_cons, Function.update_self]
      refine ⟨⟨?_, hnumbering.of_mem_iff (htaken t List.mem_cons_self)⟩, fun u hu => ?_⟩
      · rw [← length_copyNames t.id taken 1 (count t - 1), hown, List.length_map]
      · rw [hupdate u hu]
        exact hnumbers u hu

lemma id_mem_node_ids (ht : t ∈ N.transitions) : t.id ∈ N.nodes.map Node.id :=
  Net.mem_node_ids.mpr (Or.inr (List.mem_map_of_mem ht))

def IsNumbered (N : Net) (numbers : Transition → List ℕ) : Prop :=
  ∀ t ∈ N.transitions, IsNumbering t.id (N.nodes.map Node.id) 1 (numbers t)

lemma exists_copies_eq (N : Net) (G : MarkingGraph) : ∃ numbers : Transition → List ℕ,
    copies N G = (N.transitions.flatMap fun t => (copyIds t (numbers t)).map (Prod.mk t)) ∧
      IsNumbered N numbers ∧ ∀ t ∈ N.transitions, (copyIds t (numbers t)).length = copyCount G t := by
  obtain ⟨numbers, heq, hnumbers⟩ := exists_allCopies_eq (copyCount G) (Sorted.nodup_keys N.ascending) fun t _ k =>
    Iff.refl (copyName t.id k ∈ N.nodes.map Node.id)
  refine ⟨numbers, by rw [copies, heq, List.flatMap_map], fun t ht => (hnumbers t ht).2, fun t ht => ?_⟩
  have hpos := (copyCount_le_iff.mp (le_refl (copyCount G t))).1
  rw [copyIds, List.length_cons, List.length_map, (hnumbers t ht).1]
  omega

namespace IsNumbered

variable {numbers : Transition → List ℕ}

lemma cases_of_mem (h : IsNumbered N numbers) (ht : t ∈ N.transitions) (hc : c ∈ copyIds t (numbers t)) :
    c = t.id ∨ ∃ s, c = copyName t.id s ∧ c ∉ N.nodes.map Node.id := by
  refine (List.mem_cons.mp hc).imp_right fun hc => ?_
  obtain ⟨s, hs, rfl⟩ := List.mem_map.mp hc
  exact ⟨s, rfl, (h t ht).free s hs⟩

lemma notMem_places (h : IsNumbered N numbers) (ht : t ∈ N.transitions) (hc : c ∈ copyIds t (numbers t)) :
    c ∉ N.marking.ids := by
  rcases h.cases_of_mem ht hc with rfl | ⟨s, -, hfree⟩
  · exact N.disjoint t ht
  · exact fun hmem => hfree (Net.mem_node_ids.mpr (Or.inl hmem))

lemma nodup_copyIds (h : IsNumbered N numbers) (ht : t ∈ N.transitions) : (copyIds t (numbers t)).Nodup := by
  refine List.nodup_cons.mpr ⟨fun hmem => ?_, ?_⟩
  · obtain ⟨s, -, heq⟩ := List.mem_map.mp hmem
    exact Std.ne_of_lt (lt_copyName t.id s) heq.symm
  · exact List.Nodup.map (fun _ _ heq => (copyName_inj.mp heq).2) ((h t ht).ascending.imp Nat.ne_of_lt)

lemma eq_id_of_mem (h : IsNumbered N numbers) (ht : t ∈ N.transitions) (hu : u ∈ N.transitions)
    (hct : c ∈ copyIds t (numbers t)) (hcu : c ∈ copyIds u (numbers u)) : t.id = u.id := by
  rcases h.cases_of_mem ht hct with rfl | ⟨s, rfl, hfree⟩
  · rcases h.cases_of_mem hu hcu with heq | ⟨s, -, hfree⟩
    · exact heq
    · exact absurd (id_mem_node_ids ht) hfree
  · rcases h.cases_of_mem hu hcu with heq | ⟨s', heq, -⟩
    · exact absurd (heq ▸ id_mem_node_ids hu) hfree
    · exact (copyName_inj.mp heq).1

lemma nodup_flatMap (h : IsNumbered N numbers) :
    (N.transitions.flatMap fun t => copyIds t (numbers t)).Nodup := by
  refine List.nodup_flatMap.mpr ⟨fun t ht => h.nodup_copyIds ht, ?_⟩
  refine (List.pairwise_map.mp (Sorted.nodup_keys N.ascending)).imp_of_mem fun {t u} ht hu hne c hct hcu => ?_
  exact hne (h.eq_id_of_mem ht hu hct hcu)

end IsNumbered

end Unfolding

end Petri
