import Mathlib
import Petri.Proofs.Adjacency

/-! Reversing the edges of a graph. A graph that is reversed twice has its own edges again, each row sorted by target,
and edges with one target keep their order. -/

namespace Petri.Adjacency

variable {α : Type} {A B : Adjacency α}

inductive Built : Adjacency α → Prop
  | discrete (n : ℕ) : Built (discrete n)
  | grow {A : Adjacency α} : Built A → Built A.grow
  | add {A : Adjacency α} (s t : ℕ) (l : α) : Built A → Built (A.add s t l)

lemma Built.target_lt (h : Built A) {v : ℕ} {e : ℕ × α} (he : e ∈ A.edges v) : e.1 < A.size := by
  induction h with
  | discrete n => simp at he
  | grow _ ih =>
    rw [edges_grow] at he
    rw [size_grow]
    exact Nat.lt_succ_of_lt (ih he)
  | add s t l _ ih =>
    rw [edges_add] at he
    rw [size_add]
    split at he
    · rcases List.mem_append.mp he with he | he
      · exact lt_max_of_lt_left (ih he)
      · obtain rfl := List.mem_singleton.mp he
        exact lt_max_of_lt_right (Nat.lt_succ_of_le (le_max_right s t))
    · exact lt_max_of_lt_left (ih he)

lemma built_reverse (A : Adjacency α) : Built A.reverse := by
  refine List.foldlRecOn _ _ (.discrete A.size) fun R hR v _ => ?_
  exact List.foldlRecOn _ _ hR fun R hR e _ => hR.add e.1 v e.2

lemma Built.size_reverse (h : Built A) : A.reverse.size = A.size := by
  -- Both ends of every edge are vertices, so no addition has to make room.
  refine List.foldlRecOn (motive := fun R : Adjacency α => R.size = A.size) _ _ (size_discrete _) fun R hR v hv => ?_
  refine List.foldlRecOn (motive := fun R : Adjacency α => R.size = A.size) _ _ hR fun R hR e he => ?_
  have hv := List.mem_range.mp hv
  have he := h.target_lt he
  rw [size_add, hR]
  omega

lemma ext_edges (hsize : A.size = B.size) (h : ∀ v, A.edges v = B.edges v) : A = B := by
  have hrows : A.rows = B.rows := by
    apply Array.ext hsize
    intro v hA hB
    simpa [edges, hA, hB] using h v
  cases A
  cases B
  cases hrows
  rfl

def byTarget (e f : ℕ × α) : Bool :=
  e.1 ≤ f.1

lemma byTarget_trans (d e f : ℕ × α) (hde : byTarget d e = true) (hef : byTarget e f = true) :
    byTarget d f = true := by
  simp only [byTarget, decide_eq_true_eq] at hde hef ⊢
  exact hde.trans hef

lemma byTarget_total (e f : ℕ × α) : (byTarget e f || byTarget f e) = true := by
  simpa [byTarget] using Nat.le_total e.1 f.1

section

variable {row : List (ℕ × α)}

lemma pairwise_byTarget_iff :
    row.Pairwise (fun e f => byTarget e f = true) ↔ (row.map Prod.fst).Pairwise (· ≤ ·) := by
  simp [List.pairwise_map, byTarget]

lemma filter_mergeSort (row : List (ℕ × α)) (w : ℕ) :
    (row.mergeSort byTarget).filter (fun e => e.1 = w) = row.filter fun e => e.1 = w := by
  have hsorted : (row.filter fun e => e.1 = w).Pairwise fun e f => byTarget e f = true := by
    refine List.pairwise_of_forall_mem_list fun e he f hf => ?_
    simp only [List.mem_filter, decide_eq_true_eq] at he hf
    simp [byTarget, he.2, hf.2]
  have hsub := List.sublist_mergeSort byTarget_trans byTarget_total hsorted List.filter_sublist
  have hlength := ((List.mergeSort_perm row byTarget).filter fun e => e.1 = w).length_eq
  -- The edges to `w` are a sorted part of the row, so they stand in its sorted form in the same order.
  have hpart := hsub.filter fun e => e.1 = w
  simp only [List.filter_filter, Bool.and_self] at hpart
  exact (hpart.eq_of_length hlength.symm).symm

lemma filter_lt_succ (h : (row.map Prod.fst).Pairwise (· ≤ ·)) (n : ℕ) :
    row.filter (fun e => e.1 < n + 1) = row.filter (fun e => e.1 < n) ++ row.filter fun e => e.1 = n := by
  induction row with
  | nil => rfl
  | cons e row ih =>
    rw [List.map_cons, List.pairwise_cons, List.forall_mem_map] at h
    have ih := ih h.2
    simp only [List.filter_cons, decide_eq_true_eq, ih]
    rcases Nat.lt_trichotomy e.1 n with hlt | heq | hgt
    · rw [if_pos (by omega), if_pos hlt, if_neg hlt.ne, List.cons_append]
    · have hnone : row.filter (fun f => f.1 < n) = [] := by
        rw [List.filter_eq_nil_iff]
        intro f hf
        simpa [heq] using h.1 f hf
      rw [if_pos (by omega), if_neg (by omega), if_pos heq, hnone, List.nil_append, List.nil_append]
    · rw [if_neg (by omega), if_neg (by omega), if_neg hgt.ne']

lemma flatMap_range_filter (h : (row.map Prod.fst).Pairwise (· ≤ ·)) (n : ℕ) :
    ((List.range n).flatMap fun w => row.filter fun e => e.1 = w) = row.filter fun e => e.1 < n := by
  induction n with
  | zero => simp
  | succ n ih => rw [List.range_succ, List.flatMap_append, ih, List.flatMap_singleton, filter_lt_succ h]

lemma flatMap_range_eq_mergeSort {n : ℕ} (h : ∀ e ∈ row, e.1 < n) :
    ((List.range n).flatMap fun w => row.filter fun e => e.1 = w) = row.mergeSort byTarget := by
  have hsorted := List.pairwise_mergeSort byTarget_trans byTarget_total row
  calc
    _ = (List.range n).flatMap fun w => (row.mergeSort byTarget).filter fun e => e.1 = w := by
      simp only [filter_mergeSort]
    _ = (row.mergeSort byTarget).filter fun e => e.1 < n := flatMap_range_filter (pairwise_byTarget_iff.mp hsorted) n
    _ = row.mergeSort byTarget := by
      rw [List.filter_eq_self]
      intro e he
      simpa using h e (List.mem_mergeSort.mp he)

end

lemma flatMap_range_of_forall_ne {β : Type} {f : ℕ → List β} {v n : ℕ} (hf : ∀ u, u ≠ v → f u = [])
    (hv : n ≤ v → f v = []) : (List.range n).flatMap f = f v := by
  induction n with
  | zero => exact (hv (Nat.zero_le v)).symm
  | succ n ih =>
    rw [List.range_succ, List.flatMap_append, List.flatMap_singleton]
    by_cases hn : n = v
    · subst hn
      rw [List.flatMap_eq_nil_iff.mpr fun u hu => hf u (List.mem_range.mp hu).ne, List.nil_append]
    · rw [hf n hn, List.append_nil]
      exact ih fun hle => hv (by omega)

lemma filter_edges_reverse (A : Adjacency α) (v w : ℕ) :
    (A.reverse.edges w).filter (fun e => e.1 = v) = ((A.edges v).filter fun e => e.1 = w).map fun e => (v, e.2) := by
  rw [edges_reverse, List.filter_flatMap, flatMap_range_of_forall_ne (v := v)]
  · simp [List.filter_map, Function.comp_def]
  · intro u hu
    simp [List.filter_map, Function.comp_def, hu]
  · intro hv
    rw [A.edges_of_size_le hv]
    rfl

lemma pairwise_targets_reverse (A : Adjacency α) (w : ℕ) : (A.reverse.targets w).Pairwise (· ≤ ·) := by
  rw [targets, edges_reverse, ← pairwise_byTarget_iff, List.pairwise_flatMap]
  constructor
  · intro v _
    rw [List.pairwise_map]
    exact List.pairwise_of_forall fun _ _ => by simp [byTarget]
  · refine List.pairwise_lt_range.imp fun {u v} huv e he f hf => ?_
    obtain ⟨_, _, rfl⟩ := List.mem_map.mp he
    obtain ⟨_, _, rfl⟩ := List.mem_map.mp hf
    simpa [byTarget] using huv.le

namespace Built

lemma edges_reverse_reverse (h : Built A) (v : ℕ) : A.reverse.reverse.edges v = (A.edges v).mergeSort byTarget := by
  rw [edges_reverse, h.size_reverse, ← flatMap_range_eq_mergeSort fun e he => h.target_lt he]
  refine List.flatMap_congr fun w _ => ?_
  rw [filter_edges_reverse, List.map_map]
  refine (List.map_congr_left fun e he => ?_).trans (List.map_id _)
  rw [← of_decide_eq_true (List.mem_filter.mp he).2]
  rfl

lemma reverse_reverse_eq_iff (h : Built A) : A.reverse.reverse = A ↔ ∀ v, (A.targets v).Pairwise (· ≤ ·) := by
  constructor
  · intro heq v
    rw [← heq]
    exact pairwise_targets_reverse A.reverse v
  · intro hsorted
    apply ext_edges
    · rw [(built_reverse A).size_reverse, h.size_reverse]
    · intro v
      rw [h.edges_reverse_reverse, List.mergeSort_of_pairwise (pairwise_byTarget_iff.mpr (hsorted v))]

theorem reverse_transposes (h : Built A) :
    A.reverse.size = A.size ∧
    (∀ b, A.reverse.edges b =
      (List.range A.size).flatMap fun a => ((A.edges a).filter fun e => e.1 = b).map fun e => (a, e.2)) ∧
    (∀ v, A.reverse.reverse.edges v = (A.edges v).mergeSort byTarget) ∧
    (A.reverse.reverse = A ↔ ∀ v, (A.targets v).Pairwise (· ≤ ·)) ∧
    A.reverse.reverse.reverse = A.reverse :=
  ⟨h.size_reverse, A.edges_reverse, h.edges_reverse_reverse, h.reverse_reverse_eq_iff,
    (built_reverse A).reverse_reverse_eq_iff.mpr (pairwise_targets_reverse A)⟩

end Built

def junction : Adjacency Char :=
  ((((discrete 1).add 0 2 'a').add 0 1 'b').grow.add 0 2 'c').add 2 2 'd'

theorem reverse_transposes_junction : Built junction ∧
    junction.reverse.edges 2 = [(0, 'a'), (0, 'c'), (2, 'd')] ∧
    junction.reverse.reverse.edges 0 = [(1, 'b'), (2, 'a'), (2, 'c')] ∧
    junction.reverse.reverse ≠ junction ∧ junction.reverse.reverse.reverse = junction.reverse := by
  have hbuilt : Built junction := .add _ _ _ (.add _ _ _ (.grow (.add _ _ _ (.add _ _ _ (.discrete 1)))))
  obtain ⟨_, hrow, hsort, hiff, hthird⟩ := hbuilt.reverse_transposes
  refine ⟨hbuilt, ?_, ?_, ?_, hthird⟩
  · rw [hrow]
    decide +kernel
  · have hedges : junction.edges 0 = [(2, 'a'), (1, 'b'), (2, 'c')] := by decide +kernel
    rw [hsort, hedges]
    simp [List.mergeSort, byTarget]
  · intro heq
    exact absurd (hiff.mp heq 0) (by decide +kernel)

end Petri.Adjacency
