import Mathlib
import Petri.Proofs.Firing.Weights

/-! Firing in numbers: along the arcs one by one it gives the sums of the weights, unless a place passes its limit on
the way. -/

namespace Petri.Net

variable {N M : Net} {t p : String}

lemma transition?_eq_some_iff {u : Transition} : N.transition? t = some u ↔ u ∈ N.transitions ∧ u.id = t :=
  Sorted.find?_eq_some_iff (Sorted.nodup_keys N.ascending)

lemma transition?_isSome : (N.transition? t).isSome = true ↔ t ∈ N.transitions.map Transition.id := by
  rw [Option.isSome_iff_exists]
  simp only [transition?_eq_some_iff, List.mem_map]

lemma transition?_isNone : (N.transition? t).isNone = true ↔ t ∉ N.transitions.map Transition.id := by
  rw [← transition?_isSome, Option.isNone_iff_eq_none, ← Option.not_isSome_iff_eq_none]

lemma tryEnabled_of_notMem (ht : t ∉ N.transitions.map Transition.id) : N.tryEnabled t = .ok false :=
  if_pos (transition?_isNone.mpr ht)

lemma tryEnabled_of_mem (ht : t ∈ N.transitions.map Transition.id) :
    N.tryEnabled t = (N.consumption t).map N.marking.covers := by
  rw [tryEnabled, if_neg (transition?_isNone.not.mpr (not_not.mpr ht))]
  cases h : N.consumption t with
  | error e => rfl
  | ok needs =>
    refine congrArg Except.ok ?_
    rw [Bool.eq_iff_iff, Marking.covers, List.all_eq_true, List.all_eq_true]
    refine forall₂_congr fun need hneed => ?_
    rw [decide_eq_true_iff]
    exact Marking.any_place?_iff ((mem_consumption h).mp hneed).2

lemma tryEnabled_of_isEnabled (h : N.isEnabled t = true) : N.tryEnabled t = .ok true := by
  rw [isEnabled] at h
  cases hx : N.tryEnabled t with
  | error e => simp [hx, Except.toOption] at h
  | ok b =>
    rw [hx] at h
    exact congrArg Except.ok h

lemma tryEnabled_cases (ht : t ∈ N.transitions.map Transition.id) :
    (N.tryEnabled t = .ok (N.isEnabled t) ∧ ∀ p, N.intake t p ≤ Numeral.largest) ∨
      (N.tryEnabled t = .error .weightOverflow ∧ ∃ p, Numeral.largest < N.intake t p) := by
  rw [isEnabled, tryEnabled_of_mem ht]
  rcases consumption_cases N t with ⟨⟨needs, hneeds⟩, hfits⟩ | ⟨herr, hover⟩
  · rw [hneeds]
    exact Or.inl ⟨rfl, hfits⟩
  · rw [herr]
    exact Or.inr ⟨rfl, hover⟩

lemma isEnabled_iff : N.isEnabled t = true ↔
    t ∈ N.transitions.map Transition.id ∧ ∀ p, N.intake t p ≤ (N.marking.tokens p).toNat := by
  by_cases ht : t ∈ N.transitions.map Transition.id
  · rw [and_iff_right ht, isEnabled, tryEnabled_of_mem ht]
    rcases consumption_cases N t with ⟨⟨needs, hneeds⟩, _⟩ | ⟨herr, p, hp⟩
    · rw [hneeds]
      exact covers_consumption hneeds
    · rw [herr]
      refine iff_of_false Bool.false_ne_true fun h => ?_
      exact absurd ((h p).trans (N.marking.tokens_le p)) (Nat.not_le.mpr hp)
  · rw [isEnabled, tryEnabled_of_notMem ht]
    exact iff_of_false Bool.false_ne_true fun h => ht h.1

lemma intake_le_of_isEnabled (h : N.isEnabled t = true) (p : String) : N.intake t p ≤ Numeral.largest :=
  ((isEnabled_iff.mp h).2 p).trans (N.marking.tokens_le p)

lemma exists_consumption (h : N.isEnabled t = true) : ∃ needs, N.consumption t = .ok needs :=
  consumption_of_fits (intake_le_of_isEnabled h)

lemma mem_enabled {u : Transition} : u ∈ N.enabled ↔ u ∈ N.transitions ∧ N.isEnabled u.id = true := by
  simp [enabled]

lemma isEnabled_iff_mem_enabled : N.isEnabled t = true ↔ ∃ u ∈ N.enabled, u.id = t := by
  constructor
  · intro h
    obtain ⟨u, hu, rfl⟩ := List.mem_map.mp (isEnabled_iff.mp h).1
    exact ⟨u, mem_enabled.mpr ⟨hu, h⟩, rfl⟩
  · rintro ⟨u, hu, rfl⟩
    exact (mem_enabled.mp hu).2

/-- Passing along the arcs of `l`, no place goes over its limit at any moment. -/
def Fits (t : String) (m : Marking) (l : List Arc) : Prop :=
  ∀ l', l' <+: l → ∀ p, (m.tokens p).toNat + l'.count ⟨t, p⟩ ≤ Numeral.largest + l'.count ⟨p, t⟩

structure Touches (t : String) (m : Marking) (l : List Arc) : Prop where
  apart : t ∉ m.ids
  source : ∀ a ∈ l, a.target = t → a.source ∈ m.ids
  target : ∀ a ∈ l, a.source = t → a.target ∈ m.ids

lemma touches_arcs (N : Net) (h : t ∈ N.transitions.map Transition.id) : Touches t N.marking N.arcs := by
  obtain ⟨u, hu, rfl⟩ := List.mem_map.mp h
  have hd := N.disjoint u hu
  refine ⟨hd, ?_, ?_⟩
  · intro a ha hat
    rcases N.joins a ha with ⟨hs, _⟩ | ⟨_, hp⟩
    · exact hs
    · exact absurd (hat ▸ hp) hd
  · intro a ha hat
    rcases N.joins a ha with ⟨hs, _⟩ | ⟨_, hp⟩
    · exact absurd (hat ▸ hs) hd
    · exact hp

lemma intake_eq_zero (ht : t ∈ N.transitions.map Transition.id) (hp : p ∉ N.marking.ids) : N.intake t p = 0 := by
  apply List.count_eq_zero_of_not_mem
  intro ha
  exact hp ((touches_arcs N ht).source ⟨p, t⟩ ha rfl)

lemma forall_mem_ids_intake {P : String → ℕ → Prop} (hP : ∀ p, P p 0) (ht : t ∈ N.transitions.map Transition.id) :
    (∀ p ∈ N.marking.ids, P p (N.intake t p)) ↔ ∀ p, P p (N.intake t p) := by
  refine ⟨fun h p => ?_, fun h p _ => h p⟩
  by_cases hp : p ∈ N.marking.ids
  · exact h p hp
  · rw [intake_eq_zero ht hp]
    exact hP p

/-- The tokens of `n` are those of `m` after the arcs of `l` have been passed. -/
def Balanced (t : String) (m n : Marking) (l : List Arc) : Prop :=
  n.ids = m.ids ∧ ∀ p, (n.tokens p).toNat + l.count ⟨p, t⟩ = (m.tokens p).toNat + l.count ⟨t, p⟩

lemma Balanced.cons {m n k : Marking} {a : Arc} {l : List Arc} (h : Balanced t m n [a])
    (hl : Balanced t n k l) : Balanced t m k (a :: l) := by
  refine ⟨hl.1.trans h.1, fun p => ?_⟩
  have h1 := h.2 p
  have h2 := hl.2 p
  simp only [List.count_cons, List.count_nil] at h1 h2 ⊢
  omega

lemma Balanced.unique {m n k : Marking} {l : List Arc} (hn : Balanced t m n l) (hk : Balanced t m k l) : n = k := by
  apply Marking.ext_tokens (hn.1.trans hk.1.symm)
  intro p _
  have h1 := hn.2 p
  have h2 := hk.2 p
  exact UInt32.toNat_inj.mp (by omega)

lemma Touches.tail {m n : Marking} {a : Arc} {l : List Arc} (h : Touches t m (a :: l)) (hn : n.ids = m.ids) :
    Touches t n l :=
  ⟨hn ▸ h.apart, fun b hb => hn ▸ h.source b (List.mem_cons_of_mem a hb),
    fun b hb => hn ▸ h.target b (List.mem_cons_of_mem a hb)⟩

lemma fits_cons {m n : Marking} {a : Arc} {l : List Arc} (h : Balanced t m n [a]) :
    Fits t m (a :: l) ↔ Fits t n l := by
  constructor
  · intro hf l' hl' p
    have h1 := h.2 p
    have h2 := hf (a :: l') (List.cons_prefix_cons.mpr ⟨rfl, hl'⟩) p
    simp only [List.count_cons, List.count_nil] at h1 h2
    omega
  · intro hf l' hl' p
    cases l' with
    | nil => simpa using m.tokens_le p
    | cons b l' =>
      obtain ⟨rfl, hp⟩ := List.cons_prefix_cons.mp hl'
      have h1 := h.2 p
      have h2 := hf l' hp p
      simp only [List.count_cons, List.count_nil] at h1 ⊢
      omega

lemma balanced_take {m : Marking} {a : Arc} (ha : a.source ∈ m.ids) (hs : a.source ≠ t) (hat : a.target = t)
    (h : 0 < (m.tokens a.source).toNat) : Balanced t m (m.adjust a.source (· - 1)) [a] := by
  refine ⟨Marking.ids_adjust _ _ _, fun p => ?_⟩
  obtain ⟨source, target⟩ := a
  simp only at ha hs hat h
  simp only [List.count_singleton, beq_iff_eq, Arc.mk.injEq, hs, hat, false_and, and_true, if_false]
  by_cases hp : source = p
  · subst hp
    rw [if_pos rfl, Marking.toNat_sub_one ha h, Nat.add_zero]
  · rw [if_neg hp, Marking.tokens_adjust_of_ne (Ne.symm hp)]

lemma balanced_put {m : Marking} {a : Arc} (ha : a.target ∈ m.ids) (hs : a.source = t) (hat : a.target ≠ t)
    (h : (m.tokens a.target).toNat < Numeral.largest) : Balanced t m (m.adjust a.target (· + 1)) [a] := by
  refine ⟨Marking.ids_adjust _ _ _, fun p => ?_⟩
  obtain ⟨source, target⟩ := a
  simp only at ha hs hat h
  simp only [List.count_singleton, beq_iff_eq, Arc.mk.injEq, hs, hat, and_false, true_and, if_false]
  by_cases hp : target = p
  · subst hp
    rw [if_pos rfl, Marking.toNat_add_one ha h, Nat.add_zero]
  · rw [if_neg hp, Marking.tokens_adjust_of_ne (Ne.symm hp)]

lemma balanced_refl {m : Marking} {a : Arc} (hs : a.source ≠ t) (hat : a.target ≠ t) : Balanced t m m [a] := by
  refine ⟨rfl, fun p => ?_⟩
  have h1 : a ≠ ⟨p, t⟩ := fun he => hat (congrArg Arc.target he)
  have h2 : a ≠ ⟨t, p⟩ := fun he => hs (congrArg Arc.source he)
  simp [h1, h2]

lemma not_fits_of_full {m : Marking} {a : Arc} (hs : a.source = t) (hat : a.target ≠ t)
    (h : (m.tokens a.target).toNat = Numeral.largest) : ¬ Fits t m [a] := by
  intro hf
  have h1 := hf [a] List.prefix_rfl a.target
  obtain ⟨source, target⟩ := a
  simp only at hs hat h
  simp [hs, hat, h] at h1

lemma pass_cases {m : Marking} {a : Arc} (h : Touches t m [a])
    (hc : a.target = t → 0 < (m.tokens a.source).toNat) :
    (∃ n, pass t m a = .ok n ∧ Balanced t m n [a]) ∨ (pass t m a = .error .tokenOverflow ∧ ¬ Fits t m [a]) := by
  have hsource := h.source a List.mem_cons_self
  have htarget := h.target a List.mem_cons_self
  by_cases hat : a.target = t
  · have hs : a.source ≠ t := fun hs => h.apart (hs ▸ hsource hat)
    refine Or.inl ⟨_, ?_, balanced_take (hsource hat) hs hat (hc hat)⟩
    simp [pass, hat, hs, Marking.take_of_pos (hc hat)]
  · by_cases hs : a.source = t
    · rcases Nat.lt_or_ge (m.tokens a.target).toNat Numeral.largest with hlt | hge
      · refine Or.inl ⟨_, ?_, balanced_put (htarget hs) hs hat hlt⟩
        simp [pass, hat, hs, Marking.put_of_lt hlt]
      · have hfull := Nat.le_antisymm (m.tokens_le a.target) hge
        refine Or.inr ⟨?_, not_fits_of_full hs hat hfull⟩
        simp [pass, hat, hs, Marking.put_of_full hfull]
    · refine Or.inl ⟨m, ?_, balanced_refl hs hat⟩
      simp only [pass, hat, hs, if_false]
      rfl

lemma foldlM_pass {l : List Arc} {m : Marking} (h : Touches t m l)
    (hc : ∀ p, l.count ⟨p, t⟩ ≤ (m.tokens p).toNat) :
    (∃ n, l.foldlM (pass t) m = .ok n ∧ Balanced t m n l ∧ Fits t m l) ∨
      (l.foldlM (pass t) m = .error .tokenOverflow ∧ ¬ Fits t m l) := by
  induction l generalizing m with
  | nil =>
    refine Or.inl ⟨m, rfl, ⟨rfl, fun p => rfl⟩, ?_⟩
    intro l' hl' p
    rw [List.prefix_nil.mp hl']
    exact m.tokens_le p
  | cons a l ih =>
    have ha : Touches t m [a] :=
      ⟨h.apart, fun b hb => h.source b (by simp_all), fun b hb => h.target b (by simp_all)⟩
    have hpos : a.target = t → 0 < (m.tokens a.source).toNat := by
      rintro rfl
      have := hc a.source
      rw [List.count_cons_self] at this
      omega
    rw [List.foldlM_cons]
    rcases pass_cases ha hpos with ⟨n, hn, hb⟩ | ⟨hn, hf⟩
    · have hc' : ∀ p, l.count ⟨p, t⟩ ≤ (n.tokens p).toNat := by
        intro p
        have h1 := hb.2 p
        have h2 := hc p
        simp only [List.count_cons, List.count_nil] at h1 h2
        omega
      rw [hn, fits_cons hb]
      rcases ih (h.tail hb.1) hc' with ⟨k, hk, hbk, hfk⟩ | ⟨hk, hfk⟩
      · exact Or.inl ⟨k, hk, hb.cons hbk, hfk⟩
      · exact Or.inr ⟨hk, hfk⟩
    · rw [hn]
      refine Or.inr ⟨rfl, fun hfl => hf fun l' hl' => hfl l' (hl'.trans ?_)⟩
      exact List.cons_prefix_cons.mpr ⟨rfl, List.nil_prefix⟩

@[simp] lemma marking_withMarking {m : Marking} (h : m.ids = N.marking.ids) : (N.withMarking m).marking = m :=
  Marking.override_eq_of_ids_eq h

lemma withMarking_withMarking (N : Net) (m n : Marking) (h : n.ids = N.marking.ids) :
    (N.withMarking m).withMarking n = N.withMarking n := by
  have hm : (N.marking.override m).override n = N.marking.override n := by
    rw [Marking.override_eq_of_ids_eq h, Marking.override_eq_of_ids_eq (by simpa using h)]
  simp only [withMarking, hm]

lemma withMarking_marking (N : Net) : N.withMarking N.marking = N := by
  have hm : N.marking.override N.marking = N.marking := Marking.override_eq_of_ids_eq rfl
  simp only [withMarking, hm]

lemma fire_of_mem (ht : t ∈ N.transitions.map Transition.id) : N.fire t = (do
    if ← N.tryEnabled t then
      let m ← N.arcs.foldlM (pass t) N.marking
      return N.withMarking m
    else .error (.notEnabled t)) :=
  if_neg (transition?_isNone.not.mpr (not_not.mpr ht))

lemma fire_of_notMem (ht : t ∉ N.transitions.map Transition.id) : N.fire t = .error (.unknownTransition t) :=
  if_pos (transition?_isNone.mpr ht)

lemma fire_of_isEnabled (h : N.isEnabled t = true) :
    (∃ M, N.fire t = .ok M ∧ M = N.withMarking M.marking ∧ Balanced t N.marking M.marking N.arcs ∧
      Fits t N.marking N.arcs) ∨
      (N.fire t = .error .tokenOverflow ∧ ¬ Fits t N.marking N.arcs) := by
  obtain ⟨ht, hc⟩ := isEnabled_iff.mp h
  have hf : N.fire t = do
      let m ← N.arcs.foldlM (pass t) N.marking
      return N.withMarking m := by
    rw [fire_of_mem ht, tryEnabled_of_isEnabled h]
    rfl
  rw [hf]
  rcases foldlM_pass (touches_arcs N ht) hc with ⟨n, hn, hb, hfit⟩ | ⟨hn, hfit⟩
  · refine Or.inl ⟨N.withMarking n, by rw [hn]; rfl, ?_⟩
    rw [marking_withMarking hb.1]
    exact ⟨rfl, hb, hfit⟩
  · exact Or.inr ⟨by rw [hn]; rfl, hfit⟩

lemma isEnabled_of_fire (h : N.fire t = .ok M) : N.isEnabled t = true := by
  by_cases ht : t ∈ N.transitions.map Transition.id
  · rw [fire_of_mem ht] at h
    obtain ⟨b, hb, h⟩ := bind_eq_ok.mp h
    cases b with
    | false => cases h
    | true =>
      rw [isEnabled, hb]
      rfl
  · rw [fire_of_notMem ht] at h
    cases h

lemma fire_ok (h : N.fire t = .ok M) :
    M = N.withMarking M.marking ∧ Balanced t N.marking M.marking N.arcs ∧ Fits t N.marking N.arcs := by
  rcases fire_of_isEnabled (isEnabled_of_fire h) with ⟨M', hM', hfire⟩ | ⟨herr, _⟩
  · rw [h, Except.ok.injEq] at hM'
    exact hM' ▸ hfire
  · rw [h] at herr
    cases herr

lemma fire_eq_ok_of_balanced {m : Marking} (h : N.isEnabled t = true) (hf : Fits t N.marking N.arcs)
    (hb : Balanced t N.marking m N.arcs) : N.fire t = .ok (N.withMarking m) := by
  rcases fire_of_isEnabled h with ⟨M, hM, hMN, hbM, _⟩ | ⟨_, hnf⟩
  · rw [hM, ← hbM.unique hb, ← hMN]
  · exact absurd hf hnf

end Petri.Net
