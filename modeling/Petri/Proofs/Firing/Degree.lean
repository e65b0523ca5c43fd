import Mathlib
import Petri.Proofs.Firing

/-! How often a transition can take its tokens: the degree, found by division, is the number of times that they can be
removed one time after another. -/

namespace Petri

namespace Marking

variable {m : Marking} {needs : Weights}

end Marking

namespace Net

variable {N : Net} {m : Marking} {t p : String} {needs : Weights} {d : UInt32} {k : ℕ}

lemma ne_zero_of_mem_consumption (h : N.consumption t = .ok needs) : ∀ need ∈ needs, need.2 ≠ 0 := by
  rintro ⟨p, n⟩ hn rfl
  exact absurd ((mem_consumption h).mp hn).2 (Nat.lt_irrefl 0)

lemma degree_eq (h : N.consumption t = .ok needs) :
    N.degree t = .ok ((needs.map fun need => N.marking.tokens need.1 / need.2).min?.getD 1) := by
  have hshares : needs.mapM (share N.marking) = .ok (needs.map fun need => N.marking.tokens need.1 / need.2) := by
    rw [mapM_eq_ok, List.forall₂_map_right_iff, List.forall₂_same]
    exact fun need hneed => if_neg (ne_zero_of_mem_consumption h need hneed)
  rw [degree, h]
  change needs.mapM (share N.marking) >>= _ = _
  rw [hshares]
  rfl

lemma degree_cases (N : Net) (t : String) :
    ((∃ needs d, N.consumption t = .ok needs ∧ N.degree t = .ok d) ∧ ∀ p, N.intake t p ≤ Numeral.largest) ∨
      (N.degree t = .error .weightOverflow ∧ ∃ p, Numeral.largest < N.intake t p) := by
  rcases consumption_cases N t with ⟨⟨needs, hneeds⟩, hfits⟩ | ⟨herr, hover⟩
  · exact Or.inl ⟨⟨needs, _, hneeds, degree_eq hneeds⟩, hfits⟩
  · refine Or.inr ⟨?_, hover⟩
    rw [degree, herr]
    rfl

lemma consumption_of_degree (hd : N.degree t = .ok d) : ∃ needs, N.consumption t = .ok needs := by
  obtain ⟨needs, hneeds, _⟩ := bind_eq_ok.mp hd
  exact ⟨needs, hneeds⟩

lemma degree_of_nil (h : N.incoming t = []) : N.degree t = .ok 1 := by
  have hneeds : N.consumption t = .ok [] := by
    rw [consumption, h]
    rfl
  exact degree_eq hneeds

lemma le_degree_iff (hin : N.incoming t ≠ []) (hd : N.degree t = .ok d) :
    k ≤ d.toNat ↔ ∀ p, k * N.intake t p ≤ (N.marking.tokens p).toNat := by
  obtain ⟨needs, hneeds⟩ := consumption_of_degree hd
  rw [degree_eq hneeds, Except.ok.injEq] at hd
  have hne : (needs.map fun need => N.marking.tokens need.1 / need.2) ≠ [] := by
    rwa [Ne, List.map_eq_nil_iff, consumption_eq_nil_iff hneeds]
  obtain ⟨a, ha⟩ := Option.isSome_iff_exists.mp (List.isSome_min?_of_ne_nil hne)
  rw [ha, Option.getD_some] at hd
  subst hd
  obtain ⟨hmem, hleast⟩ := List.min?_eq_some_iff.mp ha
  rw [← forall_mem_consumption hneeds (P := fun p n => k * n ≤ (N.marking.tokens p).toNat) fun _ => by simp]
  have hshare : ∀ need ∈ needs, k ≤ (N.marking.tokens need.1 / need.2).toNat ↔
      k * need.2.toNat ≤ (N.marking.tokens need.1).toNat := by
    intro need hneed
    rw [UInt32.toNat_div]
    exact Nat.le_div_iff_mul_le ((mem_consumption hneeds).mp hneed).2
  constructor
  · intro hk need hneed
    have hle := UInt32.le_iff_toNat_le.mp (hleast _ (List.mem_map_of_mem hneed))
    exact (hshare need hneed).mp (hk.trans hle)
  · intro hk
    obtain ⟨need, hneed, rfl⟩ := List.mem_map.mp hmem
    exact (hshare need hneed).mpr (hk need hneed)

lemma le_occurrences_iff (hin : N.incoming t ≠ []) :
    k ≤ N.occurrences t ↔ ∀ p, k * N.intake t p ≤ (N.marking.tokens p).toNat := by
  rcases degree_cases N t with ⟨⟨_, d, _, hd⟩, _⟩ | ⟨herr, p, hp⟩
  · rw [occurrences, hd]
    exact le_degree_iff hin hd
  · rw [occurrences, herr]
    change k ≤ 0 ↔ _
    constructor
    · intro hk q
      rw [Nat.le_zero.mp hk, Nat.zero_mul]
      exact Nat.zero_le _
    · intro hk
      by_contra hpos
      have hle : N.intake t p ≤ k * N.intake t p := Nat.le_mul_of_pos_left _ (Nat.pos_of_ne_zero (by omega))
      exact absurd ((hle.trans (hk p)).trans (N.marking.tokens_le p)) (Nat.not_le.mpr hp)

lemma occurrences_of_nil (h : N.incoming t = []) : N.occurrences t = 1 := by
  rw [occurrences, degree_of_nil h]
  rfl

end Net

end Petri
