import Mathlib
import Petri.Adjacency

/-! What the operations on adjacency lists do to the number of vertices and to the edges that leave a vertex. -/

namespace Petri.Adjacency

variable {α : Type} (A : Adjacency α)

@[simp] lemma size_discrete (n : ℕ) : (discrete n : Adjacency α).size = n := by
  simp [discrete, size]

@[simp] lemma edges_discrete (n v : ℕ) : (discrete n : Adjacency α).edges v = [] := by
  simp only [discrete, edges, Array.getElem?_replicate]
  split <;> rfl

@[simp] lemma size_grow : A.grow.size = A.size + 1 := by
  simp [grow, size]

@[simp] lemma edges_grow (v : ℕ) : A.grow.edges v = A.edges v := by
  simp only [grow, edges, Array.getElem?_push]
  split
  · next h => simp [h]
  · rfl

lemma size_reserve (n : ℕ) : (A.reserve n).size = max A.size n := by
  simp only [reserve, size, Array.size_append, Array.size_replicate]
  omega

lemma edges_reserve (n v : ℕ) : (A.reserve n).edges v = A.edges v := by
  simp only [reserve, edges, Array.getElem?_append]
  split
  · rfl
  · next h =>
    rw [Array.getElem?_eq_none (Nat.not_lt.mp h), Array.getElem?_replicate]
    split <;> rfl

lemma size_add (s t : ℕ) (l : α) : (A.add s t l).size = max A.size (max s t + 1) := by
  rw [← size_reserve, add, size, size, Array.size_modify]

lemma edges_add (s t : ℕ) (l : α) (v : ℕ) :
    (A.add s t l).edges v = if v = s then A.edges v ++ [(t, l)] else A.edges v := by
  rw [← edges_reserve A (max s t + 1) v]
  simp only [add, edges, Array.getElem?_modify]
  by_cases hv : v = s
  · subst hv
    have hlt : v < (A.reserve (max v t + 1)).rows.size := by
      have := size_reserve A (max v t + 1)
      rw [size] at this
      omega
    simp [Array.getElem?_eq_getElem hlt]
  · rw [if_neg (Ne.symm hv), if_neg hv]

lemma edges_of_size_le {v : ℕ} (h : A.size ≤ v) : A.edges v = [] := by
  rw [edges, Array.getElem?_eq_none h]
  rfl

lemma lt_size_of_mem_edges {v : ℕ} {e : ℕ × α} (h : e ∈ A.edges v) : v < A.size := by
  by_contra hv
  rw [A.edges_of_size_le (Nat.not_lt.mp hv)] at h
  cases h

lemma edges_foldl_add (R : Adjacency α) (row : List (ℕ × α)) (v w : ℕ) :
    (row.foldl (fun R e => R.add e.1 v e.2) R).edges w =
      R.edges w ++ (row.filter fun e => e.1 = w).map fun e => (v, e.2) := by
  induction row generalizing R with
  | nil => simp
  | cons e row ih =>
    rw [List.foldl_cons, ih, edges_add, List.filter_cons]
    by_cases he : e.1 = w
    · simp [he]
    · simp [he, Ne.symm he]

lemma edges_reverse (w : ℕ) : A.reverse.edges w =
    (List.range A.size).flatMap fun v => ((A.edges v).filter fun e => e.1 = w).map fun e => (v, e.2) := by
  have hfold : ∀ (sources : List ℕ) (R : Adjacency α),
      (sources.foldl (fun R v => (A.edges v).foldl (fun R e => R.add e.1 v e.2) R) R).edges w =
        R.edges w ++ sources.flatMap fun v => ((A.edges v).filter fun e => e.1 = w).map fun e => (v, e.2) := by
    intro sources
    induction sources with
    | nil => simp
    | cons v sources ih =>
      intro R
      rw [List.foldl_cons, ih, edges_foldl_add, List.flatMap_cons, List.append_assoc]
  rw [reverse, hfold, edges_discrete, List.nil_append]

variable {A}

lemma mem_targets {v w : ℕ} : w ∈ A.targets v ↔ ∃ l, (w, l) ∈ A.edges v := by
  simp [targets]

lemma mem_targets_reverse {v w : ℕ} : v ∈ A.reverse.targets w ↔ w ∈ A.targets v := by
  simp only [mem_targets, edges_reverse, List.mem_flatMap, List.mem_range, List.mem_map, List.mem_filter,
    decide_eq_true_eq]
  constructor
  · rintro ⟨l, u, _, ⟨x, l'⟩, ⟨he, rfl⟩, heq⟩
    cases heq
    exact ⟨_, he⟩
  · rintro ⟨l, he⟩
    exact ⟨l, v, A.lt_size_of_mem_edges he, (w, l), ⟨he, rfl⟩, rfl⟩

end Petri.Adjacency
