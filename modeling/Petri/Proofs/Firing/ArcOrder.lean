import Mathlib
import Petri.Proofs.Firing.Outcome

/-! How far the outcome of a firing depends on the order of the arcs. No order is better than one that takes first, and
none is worse than one that gives first. -/

namespace Petri.Net

variable {N M : Net} {t p : String} {m n : Marking} {arcs : List Arc}

/-- The same net with its arcs in another order. -/
structure Rearranges (N M : Net) : Prop where
  id : M.id = N.id
  marking : M.marking = N.marking
  transitions : M.transitions = N.transitions
  arcs : M.arcs.Perm N.arcs

def rearrange (N : Net) (arcs : List Arc) (h : arcs.Perm N.arcs) : Net :=
  { N with
    arcs
    joins := fun a ha => N.joins a (h.subset ha) }

lemma rearranges_rearrange (h : arcs.Perm N.arcs) : N.Rearranges (N.rearrange arcs h) :=
  ⟨rfl, rfl, rfl, h⟩

namespace Rearranges

lemma intake_eq (h : N.Rearranges M) (t p : String) : M.intake t p = N.intake t p :=
  h.arcs.count_eq _

lemma isEnabled_eq (h : N.Rearranges M) (t : String) : M.isEnabled t = N.isEnabled t := by
  rw [Bool.eq_iff_iff, isEnabled_iff, isEnabled_iff, h.marking, h.transitions]
  simp only [h.intake_eq]

lemma balanced (h : N.Rearranges M) (hb : Balanced t m n M.arcs) : Balanced t m n N.arcs := by
  refine ⟨hb.1, fun p => ?_⟩
  rw [← h.arcs.count_eq, ← h.arcs.count_eq]
  exact hb.2 p

lemma fire_of_disabled (h : N.Rearranges M) (hd : N.isEnabled t = false) :
    ∃ e, N.fire t = .error e ∧ M.fire t = .error e := by
  have hx := outcome_fire N t
  generalize N.fire t = x at hx ⊢
  cases hx with
  | unknown ht =>
    rw [← h.transitions] at ht
    exact ⟨_, rfl, fire_of_notMem ht⟩
  | overweight ht hover =>
    rw [← h.transitions] at ht
    simp only [← h.intake_eq] at hover
    exact ⟨_, rfl, (fire_eq_weightOverflow_iff ht).mpr hover⟩
  | disabled ht hfits =>
    rw [← h.transitions] at ht
    simp only [← h.intake_eq] at hfits
    exact ⟨_, rfl, (fire_eq_notEnabled_iff ht hfits).mpr ((h.isEnabled_eq t).trans hd)⟩
  | overflow hE | fired hE => exact absurd (hE.symm.trans hd) (by simp)

lemma map_fire_eq_iff (h : N.Rearranges M) :
    (M.fire t).map Net.marking = (N.fire t).map Net.marking ↔
      (N.isEnabled t = true → (Fits t N.marking M.arcs ↔ Fits t N.marking N.arcs)) := by
  cases hE : N.isEnabled t with
  | false =>
    obtain ⟨e, hN, hM⟩ := h.fire_of_disabled hE
    simp [hN, hM]
  | true =>
    have hM := fire_of_isEnabled ((h.isEnabled_eq t).trans hE)
    rw [h.marking] at hM
    rcases fire_of_isEnabled hE with ⟨K, hK, _, hb, hf⟩ | ⟨hK, hf⟩
    · rcases hM with ⟨L, hL, _, hb', hf'⟩ | ⟨hL, hf'⟩
      · simp [hK, hL, Except.map, hf, hf', (h.balanced hb').unique hb]
      · simp [hK, hL, Except.map, hf, hf']
    · rcases hM with ⟨L, hL, _, _, hf'⟩ | ⟨hL, hf'⟩
      · simp [hK, hL, Except.map, hf, hf']
      · simp [hK, hL, hf, hf']

end Rearranges

/-- Once an arc has given for `t`, none takes for it any more. -/
def TakesFirst (t : String) (arcs : List Arc) : Prop :=
  arcs.Pairwise fun a b => ¬ (a.source = t ∧ b.target = t)

lemma TakesFirst.fits (h : TakesFirst t arcs)
    (hsum : ∀ p, (m.tokens p).toNat + arcs.count ⟨t, p⟩ ≤ Numeral.largest + arcs.count ⟨p, t⟩) : Fits t m arcs := by
  rintro l ⟨r, rfl⟩ p
  have hp := hsum p
  have hm := m.tokens_le p
  rw [List.count_append, List.count_append] at hp
  by_cases hgive : (⟨t, p⟩ : Arc) ∈ l
  · have htake : (⟨p, t⟩ : Arc) ∉ r := fun hr => (List.pairwise_append.mp h).2.2 _ hgive _ hr ⟨rfl, rfl⟩
    rw [List.count_eq_zero.mpr htake] at hp
    omega
  · rw [List.count_eq_zero.mpr hgive]
    omega

lemma fits_of_room (h : ∀ p, (m.tokens p).toNat + arcs.count ⟨t, p⟩ ≤ Numeral.largest) : Fits t m arcs := by
  intro l hl p
  have hp := h p
  have hle := hl.sublist.count_le (⟨t, p⟩ : Arc)
  omega

lemma exists_takesFirst (ht : t ∈ N.transitions.map Transition.id) : ∃ M, N.Rearranges M ∧ TakesFirst t M.arcs := by
  have htouch := touches_arcs N ht
  have hin : ∀ a ∈ N.incoming t, a.source ≠ t := by
    intro a ha hat
    obtain ⟨ha, htarget⟩ := List.mem_filter.mp ha
    exact htouch.apart (hat ▸ htouch.source a ha (by simpa using htarget))
  have hrest : ∀ a ∈ N.arcs.filter (fun a => !decide (a.target = t)), a.target ≠ t := by
    intro a ha
    simpa using (List.mem_filter.mp ha).2
  refine ⟨N.rearrange _ (List.filter_append_perm (fun a => decide (a.target = t)) N.arcs),
    rearranges_rearrange _, List.pairwise_append.mpr ⟨?_, ?_, ?_⟩⟩
  · exact List.pairwise_of_forall_mem_list fun a ha _ _ hab => hin a ha hab.1
  · exact List.pairwise_of_forall_mem_list fun _ _ b hb hab => hrest b hb hab.2
  · exact fun a ha _ _ hab => hin a ha hab.1

lemma exists_givesFirst (ht : t ∈ N.transitions.map Transition.id) :
    ∃ M, N.Rearranges M ∧
      (Fits t N.marking M.arcs → ∀ p, (N.marking.tokens p).toNat + N.output t p ≤ Numeral.largest) := by
  have htouch := touches_arcs N ht
  have hperm := List.filter_append_perm (fun a : Arc => decide (a.source = t)) N.arcs
  refine ⟨N.rearrange _ hperm, rearranges_rearrange hperm, fun hfits p => ?_⟩
  have hp := hfits (N.outgoing t) (List.prefix_append _ _) p
  have hgiven : (N.outgoing t).count ⟨t, p⟩ = N.output t p := List.count_filter (by simp)
  have htaken : (N.outgoing t).count ⟨p, t⟩ = 0 := by
    apply List.count_eq_zero.mpr
    intro ha
    obtain ⟨ha, hsource⟩ := List.mem_filter.mp ha
    obtain rfl : p = t := by simpa using hsource
    exact htouch.apart (htouch.source _ ha rfl)
  omega

lemma room_of_places (ht : t ∈ N.transitions.map Transition.id) {k : String → ℕ}
    (h : ∀ p ∈ N.marking.ids, (N.marking.tokens p).toNat + N.output t p ≤ Numeral.largest + k p) (p : String) :
    (N.marking.tokens p).toNat + N.output t p ≤ Numeral.largest + k p := by
  by_cases hp : p ∈ N.marking.ids
  · exact h p hp
  · have hout : N.output t p = 0 := count_target_eq_zero ht hp List.prefix_rfl
    have hle := N.marking.tokens_le p
    omega

lemma Rearranges.fire_cases (h : N.Rearranges M) (t : String) :
    (M.fire t).map Net.marking = (N.fire t).map Net.marking ∨
      ((∃ K, N.fire t = .ok K) ∧ M.fire t = .error .tokenOverflow) ∨
      (N.fire t = .error .tokenOverflow ∧ ∃ K, M.fire t = .ok K) := by
  by_cases hsame : (M.fire t).map Net.marking = (N.fire t).map Net.marking
  · exact Or.inl hsame
  · rw [h.map_fire_eq_iff, Classical.not_imp, ← h.marking] at hsame
    obtain ⟨hE, hdiffer⟩ := hsame
    have hE' : M.isEnabled t = true := (h.isEnabled_eq t).trans hE
    right
    by_cases hf : Fits t N.marking N.arcs
    · obtain ⟨K, hK, _⟩ := exists_fire_eq_ok hE hf
      refine Or.inl ⟨⟨K, hK⟩, (fire_eq_tokenOverflow_iff hE').mpr fun hf' => ?_⟩
      exact hdiffer (iff_of_true hf' (h.marking ▸ hf))
    · have hf' : Fits t M.marking M.arcs := by
        by_contra hf'
        exact hdiffer (iff_of_false hf' (h.marking ▸ hf))
      obtain ⟨K, hK, _⟩ := exists_fire_eq_ok hE' hf'
      exact Or.inr ⟨(fire_eq_tokenOverflow_iff hE).mpr hf, K, hK⟩

lemma exceeds_or_room (ht : t ∈ N.transitions.map Transition.id)
    (hfits : ∀ M, N.Rearranges M → (Fits t N.marking M.arcs ↔ Fits t N.marking N.arcs)) :
    (∃ p ∈ N.marking.ids, Numeral.largest + N.intake t p < (N.marking.tokens p).toNat + N.output t p) ∨
      ∀ p ∈ N.marking.ids, (N.marking.tokens p).toNat + N.output t p ≤ Numeral.largest := by
  by_cases hf : Fits t N.marking N.arcs
  · obtain ⟨M, h, hgives⟩ := exists_givesFirst ht
    exact Or.inr fun p _ => hgives ((hfits M h).mpr hf) p
  · obtain ⟨M, h, htakes⟩ := exists_takesFirst ht
    left
    by_contra hsum
    push Not at hsum
    apply hf
    apply (hfits M h).mp
    apply htakes.fits
    intro p
    rw [h.arcs.count_eq, h.arcs.count_eq]
    exact room_of_places ht hsum p

lemma Rearranges.not_fits (h : N.Rearranges M)
    (hp : Numeral.largest + N.intake t p < (N.marking.tokens p).toNat + N.output t p) :
    ¬ Fits t N.marking M.arcs := by
  intro hf
  have hle := hf M.arcs List.prefix_rfl p
  rw [h.arcs.count_eq, h.arcs.count_eq] at hle
  exact absurd hle (Nat.not_le.mpr hp)

lemma Rearranges.fits (h : N.Rearranges M) (ht : t ∈ N.transitions.map Transition.id)
    (hroom : ∀ p ∈ N.marking.ids, (N.marking.tokens p).toNat + N.output t p ≤ Numeral.largest) :
    Fits t N.marking M.arcs := by
  apply fits_of_room
  intro p
  rw [h.arcs.count_eq]
  exact room_of_places ht (k := fun _ => 0) hroom p

theorem fire_rearranged (N : Net) (t : String) :
    (∀ M, N.Rearranges M →
      (M.fire t).map Net.marking = (N.fire t).map Net.marking ∨
      ((∃ K, N.fire t = .ok K) ∧ M.fire t = .error .tokenOverflow) ∨
      (N.fire t = .error .tokenOverflow ∧ ∃ K, M.fire t = .ok K)) ∧
    ((∀ M, N.Rearranges M → (M.fire t).map Net.marking = (N.fire t).map Net.marking) ↔
      (N.isEnabled t = true →
        (∃ p ∈ N.marking.ids, Numeral.largest + N.intake t p < (N.marking.tokens p).toNat + N.output t p) ∨
        ∀ p ∈ N.marking.ids, (N.marking.tokens p).toNat + N.output t p ≤ Numeral.largest)) := by
  refine ⟨fun M h => h.fire_cases t, fun hall hE => ?_, fun hroom M h => ?_⟩
  · apply exceeds_or_room (isEnabled_iff.mp hE).1
    exact fun M h => h.map_fire_eq_iff.mp (hall M h) hE
  · apply h.map_fire_eq_iff.mpr
    intro hE
    have hself : N.Rearranges N := ⟨rfl, rfl, rfl, List.Perm.refl _⟩
    rcases hroom hE with ⟨p, _, hp⟩ | hroom
    · exact iff_of_false (h.not_fits hp) (hself.not_fits hp)
    · have ht := (isEnabled_iff.mp hE).1
      exact iff_of_true (h.fits ht hroom) (hself.fits ht hroom)

def turnstile : Net where
  id := "turnstile"
  marking := ⟨[⟨"lobby", 4294967294⟩], by decide⟩
  transitions := [⟨"enter", none⟩]
  arcs := [⟨"enter", "lobby"⟩, ⟨"lobby", "enter"⟩]
  ascending := by decide
  disjoint := by decide
  joins := by simp [Arc.Joins, Marking.ids]

theorem fire_rearranged_turnstile : turnstile.isEnabled "enter" = true ∧
    (∀ M, turnstile.Rearranges M → (M.fire "enter").map Net.marking = (turnstile.fire "enter").map Net.marking) ∧
    jammed.isEnabled "turn" = true ∧
    ¬ ∀ M, jammed.Rearranges M → (M.fire "turn").map Net.marking = (jammed.fire "turn").map Net.marking := by
  refine ⟨by decide, ?_, by decide, ?_⟩
  · exact (fire_rearranged turnstile "enter").2.mpr fun _ => Or.inr (by decide)
  · intro hall
    have hroom := (fire_rearranged jammed "turn").2.mp hall (by decide)
    revert hroom
    decide

def flowing : Net :=
  jammed.rearrange [⟨"hall", "turn"⟩, ⟨"turn", "hall"⟩] (List.Perm.swap _ _ _)

theorem fire_order_matters : jammed.Rearranges flowing ∧ jammed.fire "turn" = .error .tokenOverflow ∧
    flowing.fire "turn" = .ok flowing :=
  ⟨rearranges_rearrange _, rfl, rfl⟩

end Petri.Net
