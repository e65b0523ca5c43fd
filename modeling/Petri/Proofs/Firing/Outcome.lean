import Mathlib
import Petri.Proofs.Firing

/-! What comes of firing a transition. A token that is to be taken is always there, but a place can pass its limit on
the way. -/

namespace Petri.Net

variable {N : Net} {t p : String} {l : List Arc}

/-- The tokens of `p` when `t` has moved tokens along the arcs of `l`, as an integer. -/
def level (N : Net) (t : String) (l : List Arc) (p : String) : ℤ :=
  (N.marking.tokens p).toNat - l.count ⟨p, t⟩ + l.count ⟨t, p⟩

inductive Outcome (N : Net) (t : String) : Except Error Net → Prop
  | unknown : t ∉ N.transitions.map Transition.id → Outcome N t (.error (.unknownTransition t))
  | overweight : t ∈ N.transitions.map Transition.id → (∃ p, Numeral.largest < N.intake t p) →
      Outcome N t (.error .weightOverflow)
  | disabled : t ∈ N.transitions.map Transition.id → (∀ p, N.intake t p ≤ Numeral.largest) →
      N.isEnabled t = false → Outcome N t (.error (.notEnabled t))
  | overflow : N.isEnabled t = true → ¬ Fits t N.marking N.arcs → Outcome N t (.error .tokenOverflow)
  | fired {M : Net} : N.isEnabled t = true → Fits t N.marking N.arcs → M = N.withMarking M.marking →
      Balanced t N.marking M.marking N.arcs → Outcome N t (.ok M)

lemma outcome_fire (N : Net) (t : String) : Outcome N t (N.fire t) := by
  by_cases ht : t ∈ N.transitions.map Transition.id
  · cases hE : N.isEnabled t with
    | true =>
      rcases fire_of_isEnabled hE with ⟨M, hM, heq, hb, hf⟩ | ⟨hM, hf⟩
      · exact hM ▸ .fired hE hf heq hb
      · exact hM ▸ .overflow hE hf
    | false =>
      rw [fire_of_mem ht]
      rcases tryEnabled_cases ht with ⟨hx, hfits⟩ | ⟨hx, hover⟩
      · rw [hx, hE]
        exact .disabled ht hfits hE
      · rw [hx]
        exact .overweight ht hover
  · rw [fire_of_notMem ht]
    exact .unknown ht

lemma count_target_eq_zero (ht : t ∈ N.transitions.map Transition.id) (hp : p ∉ N.marking.ids) (hl : l <+: N.arcs) :
    l.count ⟨t, p⟩ = 0 := by
  apply List.count_eq_zero_of_not_mem
  intro ha
  exact hp ((touches_arcs N ht).target ⟨t, p⟩ (hl.subset ha) rfl)

lemma not_overweight_of_isEnabled (hE : N.isEnabled t = true) : ¬ ∃ p, Numeral.largest < N.intake t p := by
  rintro ⟨p, hp⟩
  exact absurd (intake_le_of_isEnabled hE p) (Nat.not_le.mpr hp)

lemma fire_eq_weightOverflow_iff (ht : t ∈ N.transitions.map Transition.id) :
    N.fire t = .error .weightOverflow ↔ ∃ p, Numeral.largest < N.intake t p := by
  have hx := outcome_fire N t
  generalize N.fire t = x at hx ⊢
  cases hx with
  | unknown hn => exact absurd ht hn
  | overweight _ hover => exact iff_of_true rfl hover
  | disabled _ hfits => exact iff_of_false (by simp) (by simpa using hfits)
  | overflow hE | fired hE => exact iff_of_false (by simp) (not_overweight_of_isEnabled hE)

lemma fire_eq_notEnabled_iff (ht : t ∈ N.transitions.map Transition.id)
    (hfits : ∀ p, N.intake t p ≤ Numeral.largest) :
    N.fire t = .error (.notEnabled t) ↔ N.isEnabled t = false := by
  have hx := outcome_fire N t
  generalize N.fire t = x at hx ⊢
  cases hx with
  | unknown hn => exact absurd ht hn
  | overweight _ hover => exact absurd hover (by simpa using hfits)
  | disabled _ _ hE => exact iff_of_true rfl hE
  | overflow hE | fired hE => exact iff_of_false (by simp) (by simp [hE])

lemma fire_eq_tokenOverflow_iff (hE : N.isEnabled t = true) :
    N.fire t = .error .tokenOverflow ↔ ¬ Fits t N.marking N.arcs := by
  rcases fire_of_isEnabled hE with ⟨M, hM, _, _, hf⟩ | ⟨hM, hf⟩
  · exact iff_of_false (by simp [hM]) (not_not.mpr hf)
  · exact iff_of_true hM hf

lemma exists_fire_eq_ok (hE : N.isEnabled t = true) (hf : Fits t N.marking N.arcs) :
    ∃ M, N.fire t = .ok M ∧ M = N.withMarking M.marking ∧ M.marking.ids = N.marking.ids ∧
      ∀ p, ((M.marking.tokens p).toNat : ℤ) = N.level t N.arcs p := by
  rcases fire_of_isEnabled hE with ⟨M, hM, heq, hb, _⟩ | ⟨_, hnf⟩
  · refine ⟨M, hM, heq, hb.1, fun p => ?_⟩
    have := hb.2 p
    rw [level]
    omega
  · exact absurd hf hnf

def jammed : Net where
  id := "jammed"
  marking := ⟨[⟨"hall", 4294967295⟩], by decide⟩
  transitions := [⟨"turn", none⟩]
  arcs := [⟨"turn", "hall"⟩, ⟨"hall", "turn"⟩]
  ascending := by decide
  disjoint := by decide
  joins := by simp [Arc.Joins, Marking.ids]

end Petri.Net
