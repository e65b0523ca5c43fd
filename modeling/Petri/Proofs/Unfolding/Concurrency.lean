import Mathlib
import Petri.Proofs.Firing.Degree
import Petri.Proofs.JointSet.Maximal
import Petri.Proofs.Net.Nodes
import Petri.Proofs.Unfolding.Exploration

/-! Joint sets of the unfolded net stand for what can happen at once in the net itself, where a transition may occur
more than once. -/

namespace Petri

namespace Unfolding

open MarkingGraph

variable {N U M V : Net} {G H : MarkingGraph} {cs : List (Transition × String)} {t : Transition} {k : ℕ}

lemma foldl_max_le_iff (l : List Net) (t : Transition) (init : ℕ) :
    l.foldl (fun most N => max most (N.occurrences t.id)) init ≤ k ↔ init ≤ k ∧ ∀ M ∈ l, M.occurrences t.id ≤ k := by
  induction l generalizing init with
  | nil => simp
  | cons M l ih => rw [List.foldl_cons, ih, List.forall_mem_cons, Nat.max_le, and_assoc]

lemma copyCount_le_iff : copyCount G t ≤ k ↔ 1 ≤ k ∧ ∀ M ∈ G.vertices.toList, M.occurrences t.id ≤ k := by
  rw [copyCount, ← Array.foldl_toList, foldl_max_le_iff]

lemma length_copyNames (id : String) (taken : List String) (number count : ℕ) :
    (copyNames id taken number count).length = count := by
  induction count generalizing taken number with
  | zero => rfl
  | succ count ih => rw [copyNames, List.length_cons, ih]

lemma map_fst_flatMap_allCopies (count : Transition → ℕ) (taken : List String) (ts : List Transition)
    (hcount : ∀ t, 1 ≤ count t) :
    ((allCopies count taken ts).flatMap fun (t, names) => names.map (Prod.mk t)).map Prod.fst =
      ts.flatMap fun t => List.replicate (count t) t := by
  induction ts generalizing taken with
  | nil => rfl
  | cons t ts ih =>
    have hcopies : (((t.id :: copyNames t.id taken 1 (count t - 1)).map (Prod.mk t)).map Prod.fst) =
        List.replicate (count t) t := by
      rw [List.map_map, List.eq_replicate_iff]
      refine ⟨?_, by simp⟩
      rw [List.length_map, List.length_cons, length_copyNames, Nat.sub_add_cancel (hcount t)]
    rw [allCopies, List.flatMap_cons, List.map_append, ih, List.flatMap_cons, hcopies]

lemma count_copies (ht : t ∈ N.transitions) : ((copies N G).map Prod.fst).count t = copyCount G t := by
  have hpos : ∀ t, 1 ≤ copyCount G t := fun t => (copyCount_le_iff.mp le_rfl).1
  rw [copies, map_fst_flatMap_allCopies _ _ _ hpos]
  have hnodup := Sorted.nodup_of_ascending N.ascending
  obtain ⟨l, r, hlr⟩ := List.append_of_mem ht
  rw [hlr, List.nodup_middle, List.nodup_cons, List.mem_append, not_or] at hnodup
  have hother : ∀ ts : List Transition, t ∉ ts →
      (ts.flatMap fun t => List.replicate (copyCount G t) t).count t = 0 := by
    intro ts hts
    rw [List.count_eq_zero, List.mem_flatMap]
    rintro ⟨u, hu, htu⟩
    exact hts (List.eq_of_mem_replicate htu ▸ hu)
  rw [hlr, List.flatMap_append, List.flatMap_cons, List.count_append, List.count_append, hother l hnodup.1.1,
    hother r hnodup.1.2, List.count_replicate_self, Nat.zero_add, Nat.add_zero]

/-- Occurrences of transitions that the marking `m` can serve at once; one without inputs occurs only once. -/
structure IsStep (N : Net) (m : Marking) (s : Multiset Transition) : Prop where
  mem : ∀ t ∈ s, t ∈ N.transitions
  once : ∀ t ∈ s, (∀ p, N.intake t.id p = 0) → s.count t ≤ 1
  fits : ∀ p, (s.map fun t => N.intake t.id p).sum ≤ (m.tokens p).toNat

lemma IsStep.count_mul_le {m : Marking} {s : Multiset Transition} (h : IsStep N m s) (t : Transition)
    (p : String) : s.count t * N.intake t.id p ≤ (m.tokens p).toNat := by
  refine le_trans ?_ (h.fits p)
  obtain ⟨r, hr⟩ := Multiset.le_iff_exists_add.mp (Multiset.le_count_iff_replicate_le.mp (le_refl (s.count t)))
  nth_rewrite 2 [hr]
  simp

lemma exists_sublist_map {α β : Type} {f : α → β} {l : List α} {S : Multiset β} (h : S ≤ (l.map f : List β)) :
    ∃ xs : List α, xs.Sublist l ∧ S = (xs.map f : List β) := by
  rw [← S.coe_toList, Multiset.coe_le] at h
  obtain ⟨l', hperm, hsub⟩ := h
  obtain ⟨xs, hxs, rfl⟩ := List.sublist_map_iff.mp hsub
  refine ⟨xs, hxs, ?_⟩
  rw [← S.coe_toList, Multiset.coe_eq_coe]
  exact hperm.symm

section

variable {xs : List (Transition × String)} {p : String}

lemma IsUnfolding.load_rename (h : IsUnfolding M cs V) (hxs : xs.Sublist cs) :
    V.load (xs.map fun x => rename x.1 x.2) p = ((xs.map Prod.fst).map fun t => M.intake t.id p).sum := by
  rw [Net.load, List.map_map, List.map_map]
  congr 1
  exact List.map_congr_left fun x hx => h.intake_copy (hxs.mem hx)

lemma IsUnfolding.exists_perm_rename {s : JointSet} (h : IsUnfolding M cs V) (hs : JointSet.IsJoint V s) :
    ∃ xs : List (Transition × String), xs.Sublist cs ∧ (xs.map fun x => rename x.1 x.2).Perm s := by
  refine ⟨cs.filter fun x => rename x.1 x.2 ∈ s, List.filter_sublist, ?_⟩
  rw [List.perm_ext_iff_of_nodup (h.nodup_rename.sublist (List.filter_sublist.map _)) hs.nodup]
  intro u
  simp only [List.mem_map, List.mem_filter, decide_eq_true_eq, Prod.exists]
  constructor
  · rintro ⟨t, c, ⟨_, hu⟩, rfl⟩
    exact hu
  · intro hu
    obtain ⟨t, c, hc, rfl⟩ := (h.mem_transitions u).mp (hs.subset hu)
    exact ⟨t, c, ⟨hc, hu⟩, rfl⟩

lemma IsUnfolding.exists_isStep {s : JointSet} (h : IsUnfolding M cs V) (hs : JointSet.IsJoint V s)
    (honce : ∀ t ∈ M.transitions, (∀ p, M.intake t.id p = 0) → (cs.map Prod.fst).count t ≤ 1) :
    ∃ S, IsStep M M.marking S ∧ S.card = s.length ∧ ∀ t ∈ S, ∃ u ∈ s, u.context = t.context := by
  obtain ⟨xs, hxs, hperm⟩ := h.exists_perm_rename hs
  have hmem : ∀ t ∈ xs.map Prod.fst, ∃ c, (t, c) ∈ xs := by
    intro t ht
    obtain ⟨⟨_, c⟩, hx, rfl⟩ := List.mem_map.mp ht
    exact ⟨c, hx⟩
  refine ⟨(xs.map Prod.fst : List Transition), ⟨?_, ?_, ?_⟩, ?_, ?_⟩
  · intro t ht
    obtain ⟨c, hx⟩ := hmem t ht
    exact (h.original t c (hxs.mem hx)).1
  · intro t ht hin
    obtain ⟨c, hx⟩ := hmem t ht
    rw [Multiset.coe_count]
    exact ((hxs.map Prod.fst).count_le t).trans (honce t (h.original t c (hxs.mem hx)).1 hin)
  · intro p
    rw [Multiset.map_coe, Multiset.sum_coe, ← h.load_rename hxs, Net.load_perm hperm, ← h.marking]
    exact hs.fits p
  · rw [Multiset.coe_card, List.length_map, ← hperm.length_eq, List.length_map]
  · intro t ht
    obtain ⟨c, hx⟩ := hmem t ht
    exact ⟨rename t c, hperm.mem_iff.mp (List.mem_map.mpr ⟨_, hx, rfl⟩), rfl⟩

lemma IsUnfolding.exists_isJoint {S : Multiset Transition} (h : IsUnfolding M cs V) (hS : IsStep M M.marking S)
    (hcount : ∀ t ∈ S, S.count t ≤ (cs.map Prod.fst).count t) :
    ∃ s, JointSet.IsJoint V s ∧ s.length = S.card ∧ ∀ u ∈ s, ∃ t ∈ S, u.context = t.context := by
  have hle : S ≤ (cs.map Prod.fst : List Transition) := by
    rw [Multiset.le_iff_count]
    intro t
    by_cases ht : t ∈ S
    · rw [Multiset.coe_count]
      exact hcount t ht
    · rw [Multiset.count_eq_zero.mpr ht]
      exact Nat.zero_le _
  obtain ⟨xs, hxs, rfl⟩ := exists_sublist_map hle
  refine ⟨xs.map fun x => rename x.1 x.2, ⟨?_, ?_, ?_⟩, ?_, ?_⟩
  · exact h.nodup_rename.sublist (hxs.map _)
  · intro u hu
    obtain ⟨⟨t, c⟩, hx, rfl⟩ := List.mem_map.mp hu
    exact h.rename_mem (hxs.mem hx)
  · intro p
    rw [h.load_rename hxs, h.marking]
    exact hS.fits p
  · simp
  · intro u hu
    obtain ⟨⟨t, c⟩, hx, rfl⟩ := List.mem_map.mp hu
    exact ⟨t, List.mem_map.mpr ⟨_, hx, rfl⟩, rfl⟩

end

lemma isStep_reachable {m : Marking} {s : Multiset Transition} (h : N.Reachable M) :
    IsStep M m s ↔ IsStep N m s := by
  constructor
  · rintro ⟨hmem, honce, hfits⟩
    simp only [h.transitions_eq, h.intake_eq] at hmem honce hfits
    exact ⟨hmem, honce, hfits⟩
  · rintro ⟨hmem, honce, hfits⟩
    refine ⟨?_, ?_, ?_⟩ <;> simpa only [h.transitions_eq, h.intake_eq]

lemma IsStep.count_le {s : Multiset Transition} (h : IsStep M M.marking s) (hG : Frontier N G.vertices.size [] G)
    (hM : N.Reachable M) (ht : t ∈ s) : s.count t ≤ ((copies N G).map Prod.fst).count t := by
  obtain ⟨hone, hmost⟩ := copyCount_le_iff.mp (le_refl (copyCount G t))
  rw [count_copies (hM.transitions_eq ▸ h.mem t ht)]
  by_cases hin : M.incoming t.id = []
  · exact (h.once t ht (Net.incoming_eq_nil_iff.mp hin)).trans hone
  · refine le_trans ?_ (hmost M (hG.mem_vertices.mpr hM))
    exact (Net.le_occurrences_iff hin).mpr fun q => h.count_mul_le t q

lemma count_copies_le_one (hG : Frontier N G.vertices.size [] G) (ht : t ∈ N.transitions)
    (hin : ∀ p, N.intake t.id p = 0) : ((copies N G).map Prod.fst).count t ≤ 1 := by
  rw [count_copies ht]
  refine copyCount_le_iff.mpr ⟨le_refl 1, fun M hM => (Net.occurrences_of_nil ?_).le⟩
  exact Net.incoming_eq_nil_iff.mpr fun p => (hG.mem_vertices.mp hM).intake_eq t.id p ▸ hin p

lemma satisfies_eq {u : Transition} {condition : Context → Bool} (h : u.context = t.context) :
    u.satisfies condition = t.satisfies condition := by
  rw [Transition.satisfies, h, Transition.satisfies]

theorem anyMatching_unfolding {budget budget' : Budget} {n : ℕ} (hU : N.unfolding budget = .ok U)
    (hG : explore budget' U = .ok G) (condition : Context → Bool) (hn : 1 ≤ n) :
    JointSet.anyMatching (JointSet.ofGraph G) condition n = true ↔
      ∃ ts M, N.run ts = .ok M ∧ ∃ s, IsStep N M.marking s ∧ n ≤ s.card ∧
        ∀ t ∈ s, ∃ context, t.context = some context ∧ condition context = true := by
  obtain ⟨G₀, hG₀, hcopies⟩ := unfolding_ok hU
  obtain ⟨H, hH, hmirror⟩ := hcopies.explore hG₀
  have hF₀ := frontier_explore hG₀
  have hFH := frontier_explore hH
  have hFG := frontier_explore hG
  have hts : ∀ V ∈ G.vertices.toList, V.transitions = U.transitions :=
    fun V hV => (hFG.mem_vertices.mp hV).transitions_eq
  simp only [JointSet.anyMatching_ofGraph_iff hts hn, ← Transition.satisfies_iff]
  constructor
  · rintro ⟨V, hV, s, hs, hle, hall⟩
    obtain ⟨i, hi⟩ := hFH.complete (hFG.mem_vertices.mp hV)
    obtain ⟨M, hM, hMV⟩ := hmirror.exists_original hi
    have hMr := hF₀.reachable i M hM
    obtain ⟨S, hS, hcard, hctx⟩ := hMV.exists_isStep hs fun t ht hin =>
      count_copies_le_one hF₀ (hMr.transitions_eq ▸ ht) fun p => hMr.intake_eq t.id p ▸ hin p
    obtain ⟨ts, hts⟩ := hMr
    refine ⟨ts, M, hts, S, (isStep_reachable ⟨ts, hts⟩).mp hS, hcard ▸ hle, fun t ht => ?_⟩
    obtain ⟨u, hu, hut⟩ := hctx t ht
    rw [← satisfies_eq hut]
    exact hall u hu
  · rintro ⟨ts, M, hts, S, hS, hle, hall⟩
    have hMr : N.Reachable M := ⟨ts, hts⟩
    obtain ⟨i, hi⟩ := hF₀.complete hMr
    obtain ⟨V, hV, hMV⟩ := hmirror.exists_unfolded hi
    have hS' := (isStep_reachable hMr).mpr hS
    obtain ⟨s, hs, hlength, hctx⟩ := hMV.exists_isJoint hS' fun t ht => hS'.count_le hF₀ hMr ht
    refine ⟨V, hFG.mem_vertices.mpr (hFH.reachable i V hV), s, hs, hlength ▸ hle, fun u hu => ?_⟩
    obtain ⟨t, ht, hut⟩ := hctx u hu
    rw [satisfies_eq hut]
    exact hall t ht

def desk : Net where
  id := "desk"
  marking := ⟨[⟨"chair", 2⟩, ⟨"done", 0⟩, ⟨"pen", 1⟩], by decide⟩
  transitions := [⟨"read", some { kind := .app, read := some "data" }⟩,
    ⟨"write", some { kind := .app, write := some "data" }⟩]
  arcs := [⟨"chair", "read"⟩, ⟨"read", "done"⟩, ⟨"pen", "write"⟩, ⟨"write", "done"⟩]
  ascending := by decide
  disjoint := by decide
  joins := by simp [Arc.Joins, Marking.ids]

theorem anyMatching_unfolding_desk : ∃ U G, desk.unfolding {} = .ok U ∧ explore {} U = .ok G ∧
    (∃ ts M, desk.run ts = .ok M ∧ ∃ s, IsStep desk M.marking s ∧ 2 ≤ s.card ∧
      ∀ t ∈ s, ∃ context, t.context = some context ∧ context.reads "data" = true) ∧
    ¬ ∃ ts M, desk.run ts = .ok M ∧ ∃ s, IsStep desk M.marking s ∧ 3 ≤ s.card ∧
      ∀ t ∈ s, ∃ context, t.context = some context ∧ context.reads "data" = true := by
  have hquery : (desk.unfolding {} >>= explore {}).toOption.map (fun G =>
      [2, 3].map (JointSet.anyMatching (JointSet.ofGraph G) (·.reads "data"))) = some [true, false] := by decide +kernel
  obtain ⟨G, hUG⟩ := exists_eq_ok (x := desk.unfolding {} >>= explore {}) (by decide +kernel)
  rw [hUG] at hquery
  obtain ⟨htwo, hthree⟩ : JointSet.anyMatching (JointSet.ofGraph G) (·.reads "data") 2 = true ∧
      JointSet.anyMatching (JointSet.ofGraph G) (·.reads "data") 3 = false := by
    simpa [Except.toOption] using hquery
  obtain ⟨U, hU, hG⟩ := bind_eq_ok.mp hUG
  refine ⟨U, G, hU, hG, (anyMatching_unfolding hU hG _ (by decide)).mp htwo, fun hstep => ?_⟩
  exact absurd ((anyMatching_unfolding hU hG _ (by decide)).mpr hstep) (by simp [hthree])

end Unfolding

end Petri
