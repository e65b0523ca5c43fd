import Mathlib
import Petri.Proofs.JointSet.Groups

/-! A choice of a group loads no place with more than it holds, and leaves no room for another transition of the group.
-/

namespace Petri

namespace Net

variable {N : Net} {m : Marking} {s s' : List Transition} {t : Transition} {p : String}

def load (N : Net) (s : List Transition) (p : String) : ℕ :=
  (s.map fun t => N.intake t.id p).sum

@[simp] lemma load_cons (N : Net) (t : Transition) (s : List Transition) (p : String) :
    N.load (t :: s) p = N.intake t.id p + N.load s p := by
  simp [load]

@[simp] lemma load_append (N : Net) (s s' : List Transition) (p : String) :
    N.load (s ++ s') p = N.load s p + N.load s' p := by
  simp [load]

lemma load_perm (h : s.Perm s') : N.load s p = N.load s' p :=
  (h.map _).sum_eq

lemma load_mono (h : s.Sublist s') : N.load s p ≤ N.load s' p :=
  (h.map _).sum_le_sum fun _ _ => Nat.zero_le _

lemma intake_le_load (h : t ∈ s) : N.intake t.id p ≤ N.load s p := by
  simpa [load] using load_mono (List.singleton_sublist.mpr h)

lemma exists_of_load_pos (h : 0 < N.load s p) : ∃ t ∈ s, 0 < N.intake t.id p := by
  induction s with
  | nil => cases h
  | cons t s ih =>
    rw [load_cons] at h
    rcases Nat.eq_zero_or_pos (N.intake t.id p) with h0 | hpos
    · obtain ⟨u, hu, hpos⟩ := ih (by omega)
      exact ⟨u, List.mem_cons_of_mem t hu, hpos⟩
    · exact ⟨t, List.mem_cons_self, hpos⟩

end Net

namespace ConflictGroup

variable {N : Net} {m : Marking} {s ts skipped : List Transition} {t : Transition} {p : String} {needs : Weights}

/-- The marking serves the transitions `s` of `ts` together, but none of the others, nor of `skipped`, as well. -/
structure IsChoice (N : Net) (m : Marking) (skipped ts s : List Transition) : Prop where
  sublist : s.Sublist ts
  fits : ∀ p, N.load s p ≤ (m.tokens p).toNat
  blocked : ∀ t, t ∈ skipped ∨ (t ∈ ts ∧ t ∉ s) → ∃ p, (m.tokens p).toNat < N.load s p + N.intake t.id p

lemma isChoice_nil : IsChoice N m skipped [] s ↔
    s = [] ∧ ∀ t ∈ skipped, ¬ ∀ p, N.intake t.id p ≤ (m.tokens p).toNat := by
  simp only [not_forall, Nat.not_le]
  constructor
  · intro h
    obtain rfl := List.sublist_nil.mp h.sublist
    exact ⟨rfl, fun t ht => by simpa [Net.load] using h.blocked t (Or.inl ht)⟩
  · rintro ⟨rfl, h⟩
    exact ⟨List.Sublist.refl [], by simp [Net.load], fun t ht => by simpa [Net.load] using h t (by simpa using ht)⟩

lemma IsChoice.skip (h : IsChoice N m (t :: skipped) ts s) : IsChoice N m skipped (t :: ts) s where
  sublist := h.sublist.cons t
  fits := h.fits
  blocked u hu := by
    apply h.blocked
    rcases hu with hu | ⟨hu, hus⟩
    · exact Or.inl (List.mem_cons_of_mem t hu)
    · rcases List.mem_cons.mp hu with rfl | hu
      · exact Or.inl List.mem_cons_self
      · exact Or.inr ⟨hu, hus⟩

lemma IsChoice.take (ht : N.consumption t.id = .ok needs) (hm : ∀ p, N.intake t.id p ≤ (m.tokens p).toNat)
    (h : IsChoice N (m.remove needs) skipped ts s) : IsChoice N m skipped (t :: ts) (t :: s) where
  sublist := h.sublist.cons_cons t
  fits p := by
    have hp := h.fits p
    have hmp := hm p
    rw [Net.toNat_tokens_remove_consumption ht] at hp
    rw [Net.load_cons]
    omega
  blocked u hu := by
    obtain ⟨p, hp⟩ := h.blocked u (by
      rcases hu with hu | ⟨hu, hus⟩
      · exact Or.inl hu
      · rw [List.mem_cons, not_or] at hus
        exact Or.inr ⟨(List.mem_cons.mp hu).resolve_left hus.1, hus.2⟩)
    rw [Net.toNat_tokens_remove_consumption ht] at hp
    refine ⟨p, ?_⟩
    rw [Net.load_cons]
    omega

lemma IsChoice.cases (ht : N.consumption t.id = .ok needs) (hn : (t :: ts).Nodup) (h : IsChoice N m skipped (t :: ts) s) :
    IsChoice N m (t :: skipped) ts s ∨ ((∀ p, N.intake t.id p ≤ (m.tokens p).toNat) ∧
      ∃ s', IsChoice N (m.remove needs) skipped ts s' ∧ t :: s' = s) := by
  obtain ⟨htn, _⟩ := List.nodup_cons.mp hn
  rcases List.sublist_cons_iff.mp h.sublist with hs | ⟨s', rfl, hs⟩
  · refine Or.inl ⟨hs, h.fits, fun u hu => h.blocked u ?_⟩
    rcases hu with hu | ⟨hu, hus⟩
    · rcases List.mem_cons.mp hu with rfl | hu
      · exact Or.inr ⟨List.mem_cons_self, fun hus => htn (hs.mem hus)⟩
      · exact Or.inl hu
    · exact Or.inr ⟨List.mem_cons_of_mem t hu, hus⟩
  · refine Or.inr ⟨fun p => (Net.intake_le_load List.mem_cons_self).trans (h.fits p), s', ⟨hs, ?_, ?_⟩, rfl⟩
    · intro p
      have hp := h.fits p
      rw [Net.load_cons] at hp
      rw [Net.toNat_tokens_remove_consumption ht]
      omega
    · intro u hu
      obtain ⟨p, hp⟩ := h.blocked u (by
        rcases hu with hu | ⟨hu, hus⟩
        · exact Or.inl hu
        · refine Or.inr ⟨List.mem_cons_of_mem t hu, fun hmem => ?_⟩
          rcases List.mem_cons.mp hmem with rfl | hmem
          · exact htn hu
          · exact hus hmem)
      have hfit := h.fits p
      rw [Net.load_cons] at hp hfit
      refine ⟨p, ?_⟩
      rw [Net.toNat_tokens_remove_consumption ht]
      omega

lemma isChoice_cons (ht : N.consumption t.id = .ok needs) (hn : (t :: ts).Nodup) : IsChoice N m skipped (t :: ts) s ↔
    IsChoice N m (t :: skipped) ts s ∨ ((∀ p, N.intake t.id p ≤ (m.tokens p).toNat) ∧
      ∃ s', IsChoice N (m.remove needs) skipped ts s' ∧ t :: s' = s) := by
  constructor
  · exact IsChoice.cases ht hn
  · rintro (h | ⟨hm, s', h, rfl⟩)
    · exact h.skip
    · exact h.take ht hm

variable {d : Demand} {passed demands : List Demand}

lemma mem_choices_nil : s ∈ choices m passed [] ↔ s = [] ∧ ∀ d ∈ passed, ¬ m.covers d.needs = true := by
  rw [choices]
  split
  · next hc =>
    obtain ⟨d, hd, hcovers⟩ := List.any_eq_true.mp hc
    exact iff_of_false List.not_mem_nil fun h => h.2 d hd hcovers
  · next hc =>
    rw [List.mem_singleton]
    exact (and_iff_left fun d hd hcovers => hc (List.any_eq_true.mpr ⟨d, hd, hcovers⟩)).symm

lemma mem_choices_cons : s ∈ choices m passed (d :: demands) ↔ s ∈ choices m (d :: passed) demands ∨
    (m.covers d.needs = true ∧ ∃ s' ∈ choices (m.remove d.needs) passed demands, d.transition :: s' = s) := by
  rw [choices]
  split
  · next hc => simp [hc]
  · next hc => simp [hc]

lemma mem_choices (hpassed : Genuine N passed) (hdemands : Genuine N demands)
    (hn : (demands.map Demand.transition).Nodup) : s ∈ choices m passed demands ↔
      IsChoice N m (passed.map Demand.transition) (demands.map Demand.transition) s := by
  induction demands generalizing m passed s with
  | nil =>
    rw [mem_choices_nil, List.map_nil, isChoice_nil, List.forall_mem_map]
    refine and_congr_right fun _ => forall₂_congr fun d hd => ?_
    rw [Net.covers_consumption (hpassed d hd)]
  | cons d demands ih =>
    obtain ⟨hd, hrest⟩ := List.forall_mem_cons.mp hdemands
    have hnrest := (List.nodup_cons.mp hn).2
    have hwithout := ih (m := m) (s := s) (List.forall_mem_cons.mpr ⟨hd, hpassed⟩) hrest hnrest
    rw [mem_choices_cons, List.map_cons, isChoice_cons hd hn, hwithout, Net.covers_consumption hd]
    simp only [ih hpassed hrest hnrest, List.map_cons]

end ConflictGroup

end Petri
