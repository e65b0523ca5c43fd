import Mathlib
import Petri.Proofs.Run

/-! The marking equation. Runs that are permutations of each other end in the same net. -/

namespace Petri.Net

variable {N M K L : Net} {t p : String} {ts us : List String}

def effect (N : Net) (t p : String) : ℤ :=
  N.output t p - N.intake t p

def taken (N : Net) (ts : List String) (p : String) : ℕ :=
  (ts.map fun t => N.intake t p).sum

def given (N : Net) (ts : List String) (p : String) : ℕ :=
  (ts.map fun t => N.output t p).sum

@[simp] lemma taken_cons (N : Net) (t : String) (ts : List String) (p : String) :
    N.taken (t :: ts) p = N.intake t p + N.taken ts p := by
  simp [taken]

@[simp] lemma given_cons (N : Net) (t : String) (ts : List String) (p : String) :
    N.given (t :: ts) p = N.output t p + N.given ts p := by
  simp [given]

lemma taken_perm (h : ts.Perm us) : N.taken ts p = N.taken us p :=
  (h.map _).sum_eq

lemma given_perm (h : ts.Perm us) : N.given ts p = N.given us p :=
  (h.map _).sum_eq

lemma Reachable.output_eq (h : N.Reachable M) (t p : String) : M.output t p = N.output t p := by
  rw [output, h.arcs_eq, output]

lemma Reachable.taken_eq (h : N.Reachable M) (ts : List String) (p : String) : M.taken ts p = N.taken ts p := by
  simp only [taken, h.intake_eq]

lemma Reachable.given_eq (h : N.Reachable M) (ts : List String) (p : String) : M.given ts p = N.given ts p := by
  simp only [given, h.output_eq]

lemma run_cons : N.run (t :: ts) = .ok K ↔ ∃ M, N.fire t = .ok M ∧ M.run ts = .ok K := by
  rw [run, List.foldlM_cons]
  exact bind_eq_ok

lemma tokens_fire (h : N.fire t = .ok M) (p : String) :
    (M.marking.tokens p).toNat + N.intake t p = (N.marking.tokens p).toNat + N.output t p :=
  (fire_ok h).2.1.2 p

lemma tokens_run (h : N.run ts = .ok K) (p : String) :
    (K.marking.tokens p).toNat + N.taken ts p = (N.marking.tokens p).toNat + N.given ts p := by
  induction ts generalizing N with
  | nil =>
    cases h
    rfl
  | cons t ts ih =>
    obtain ⟨M, hM, hK⟩ := run_cons.mp h
    have hreach : N.Reachable M := (Reachable.refl N).tail hM
    have hfire := tokens_fire hM p
    have hrest := ih hK
    rw [hreach.taken_eq, hreach.given_eq] at hrest
    rw [taken_cons, given_cons]
    omega

lemma sum_effect (N : Net) (ts : List String) (p : String) :
    (ts.map fun t => N.effect t p).sum = N.given ts p - N.taken ts p := by
  induction ts with
  | nil => rfl
  | cons t ts ih =>
    rw [List.map_cons, List.sum_cons, ih, given_cons, taken_cons, effect]
    push_cast
    ring

lemma run_eq_of_perm (hK : N.run ts = .ok K) (hL : N.run us = .ok L) (h : ts.Perm us) : K = L := by
  have hreachK : N.Reachable K := ⟨ts, hK⟩
  have hreachL : N.Reachable L := ⟨us, hL⟩
  apply hreachK.eq_of_marking_eq hreachL
  apply Marking.ext_tokens (hreachK.ids_eq.trans hreachL.ids_eq.symm)
  intro p _
  have hp := tokens_run hK p
  have hq := tokens_run hL p
  rw [taken_perm h, given_perm h] at hp
  apply UInt32.toNat_inj.mp
  omega

theorem marking_equation (h : N.run ts = .ok K) :
    K.id = N.id ∧ K.arcs = N.arcs ∧ K.transitions = N.transitions ∧ K.marking.ids = N.marking.ids ∧
      (∀ p, ((K.marking.tokens p).toNat : ℤ) =
        (N.marking.tokens p).toNat + (ts.map fun t => N.effect t p).sum) ∧
      ∀ us L, us.Perm ts → N.run us = .ok L → L = K := by
  have hreach : N.Reachable K := ⟨ts, h⟩
  have hid : K.id = N.id := by
    rw [hreach.eq_withMarking]
    rfl
  refine ⟨hid, hreach.arcs_eq, hreach.transitions_eq, hreach.ids_eq, fun p => ?_, fun us L hperm hL => ?_⟩
  · have htokens := tokens_run h p
    rw [sum_effect]
    omega
  · exact run_eq_of_perm hL h hperm

def workshop : Net where
  id := "workshop"
  marking := ⟨[⟨"chair", 0⟩, ⟨"saw", 1⟩, ⟨"wood", 3⟩], by decide⟩
  transitions := [⟨"build", none⟩, ⟨"deliver", none⟩]
  arcs := [⟨"wood", "build"⟩, ⟨"saw", "build"⟩, ⟨"build", "saw"⟩, ⟨"wood", "build"⟩, ⟨"build", "chair"⟩,
    ⟨"deliver", "wood"⟩]
  ascending := by decide
  disjoint := by decide
  joins := by simp [Arc.Joins, Marking.ids]

theorem marking_equation_workshop : ∃ K L, workshop.run ["build", "deliver", "build"] = .ok K ∧
    workshop.run ["deliver", "build", "build"] = .ok L ∧ (K.marking.tokens "wood").toNat = 0 ∧
    (K.marking.tokens "saw").toNat = 1 ∧ L = K := by
  obtain ⟨K, hK⟩ := exists_eq_ok (x := workshop.run ["build", "deliver", "build"]) (by decide +kernel)
  obtain ⟨L, hL⟩ := exists_eq_ok (x := workshop.run ["deliver", "build", "build"]) (by decide +kernel)
  obtain ⟨_, _, _, _, htokens, hperm⟩ := marking_equation hK
  have hwood : ((K.marking.tokens "wood").toNat : ℤ) = 0 := (htokens "wood").trans (by decide +kernel)
  have hsaw : ((K.marking.tokens "saw").toNat : ℤ) = 1 := (htokens "saw").trans (by decide +kernel)
  exact ⟨K, L, hK, hL, by exact_mod_cast hwood, by exact_mod_cast hsaw, hperm _ L (by decide) hL⟩

end Petri.Net
