import Mathlib
import Petri.Proofs.Path.LiveGraph

/-! Walks of a graph whose nodes are of two sorts that alternate. A shortest walk to a goal is simple. -/

namespace Petri

/-- From `n`, the walk `w` is at the goal after `2 * k` arcs, with `hold` at every other node before. -/
structure UntilWalk (arc : String → String → Prop) (hold goal : String → Prop) (n : String) (k : ℕ)
    (w : ℕ → String) : Prop where
  start : w 0 = n
  arcs : ∀ i < 2 * k, arc (w i) (w (i + 1))
  goal : goal (w (2 * k))
  hold : ∀ i < k, hold (w (2 * i))

variable {arc : String → String → Prop} {hold goal : String → Prop} {n : String} {k i j : ℕ} {w : ℕ → String}

lemma UntilWalk.shortcut (h : UntilWalk arc hold goal n k w) (hij : i < j) (hj : j ≤ 2 * k) (heq : w i = w j)
    (hpar : i % 2 = j % 2) : ∃ k' < k, ∃ w', UntilWalk arc hold goal n k' w' := by
  obtain ⟨c, hc⟩ : ∃ c, j = i + 2 * c := ⟨(j - i) / 2, by omega⟩
  have hcut : ∀ x, i ≤ x → (if x ≤ i then w x else w (x + 2 * c)) = w (x + 2 * c) := by
    intro x hx
    split
    · obtain rfl : x = i := by omega
      rw [heq, hc]
    · rfl
  refine ⟨k - c, by omega, fun x => if x ≤ i then w x else w (x + 2 * c), ⟨?_, ?_, ?_, ?_⟩⟩
  · simpa using h.start
  · intro x hx
    rcases Nat.lt_or_ge x i with hxi | hxi
    · simpa [Nat.le_of_lt hxi, hxi] using h.arcs x (by omega)
    · rw [hcut x hxi, hcut (x + 1) (by omega), Nat.add_right_comm]
      exact h.arcs _ (by omega)
  · rw [hcut _ (by omega), ← Nat.mul_add, Nat.sub_add_cancel (by omega)]
    exact h.goal
  · intro x hx
    split
    · exact h.hold x (by omega)
    · rw [← Nat.mul_add]
      exact h.hold _ (by omega)

lemma exists_simple_untilWalk
    (hpar : ∀ k w, UntilWalk arc hold goal n k w → ∀ i j, i < j → j ≤ 2 * k → w i = w j → i % 2 = j % 2)
    (h : ∃ k w, UntilWalk arc hold goal n k w) :
    ∃ k w, UntilWalk arc hold goal n k w ∧ ((List.range (2 * k + 1)).map w).Nodup := by
  classical
  obtain ⟨w, hw⟩ := Nat.find_spec h
  refine ⟨Nat.find h, w, hw, List.Nodup.map_on ?_ List.nodup_range⟩
  have hne : ∀ i j, i < j → j ≤ 2 * Nat.find h → w i ≠ w j := by
    intro i j hij hj heq
    obtain ⟨k', hk', hw'⟩ := hw.shortcut hij hj heq (hpar _ w hw i j hij hj heq)
    exact Nat.find_min h hk' hw'
  intro i hi j hj heq
  rw [List.mem_range] at hi hj
  rcases Nat.lt_trichotomy i j with hij | rfl | hji
  · exact absurd heq (hne i j hij (by omega))
  · rfl
  · exact absurd heq.symm (hne j i hji (by omega))

lemma Domain.other_involutive : Function.Involutive Domain.other := by
  intro d
  cases d <;> rfl

lemma Domain.other_ne (d : Domain) : d.other ≠ d := by
  cases d <;> decide

lemma Domain.iterate_other_eq_iff {d : Domain} (h : Domain.other^[i] d = Domain.other^[j] d) : i % 2 = j % 2 := by
  have hcases : ∀ i, Domain.other^[i] d = if i % 2 = 0 then d else d.other := by
    intro i
    rcases Nat.even_or_odd i with hi | hi
    · rw [Domain.other_involutive.iterate_even hi, if_pos (Nat.even_iff.mp hi), id]
    · rw [Domain.other_involutive.iterate_odd hi, if_neg (by rw [Nat.odd_iff.mp hi]; decide)]
  rw [hcases, hcases] at h
  cases d <;> grind [Domain.other]

namespace PathSet

variable {N : Net} {G : MarkingGraph} {d : Domain}

lemma isNode_walk {m : ℕ} (h0 : N.IsNode d (w 0)) (harcs : ∀ i < m, LiveArc N G (w i) (w (i + 1))) (hi : i ≤ m) :
    N.IsNode (Domain.other^[i] d) (w i) := by
  induction i with
  | zero => exact h0
  | succ i ih =>
    rw [Function.iterate_succ_apply']
    exact (ih (by omega)).other (harcs i (by omega)).1

end PathSet

end Petri
