import Mathlib
import Petri.Proofs.Firing

/-! Runs: transitions fired one after the other. A run changes the marking of a net and nothing else. -/

namespace Petri.Net

variable {N M K : Net} {t : String}

def run (N : Net) (ts : List String) : Except Error Net :=
  ts.foldlM fire N

def Reachable (N M : Net) : Prop :=
  ∃ ts, N.run ts = .ok M

lemma run_concat {ts : List String} : N.run (ts ++ [t]) = .ok K ↔ ∃ M, N.run ts = .ok M ∧ M.fire t = .ok K := by
  simp only [run, List.foldlM_append, List.foldlM_cons, List.foldlM_nil, bind_pure]
  exact bind_eq_ok

lemma Reachable.refl (N : Net) : N.Reachable N :=
  ⟨[], rfl⟩

lemma Reachable.tail (h : N.Reachable M) (ht : M.fire t = .ok K) : N.Reachable K := by
  obtain ⟨ts, hts⟩ := h
  exact ⟨ts ++ [t], run_concat.mpr ⟨M, hts, ht⟩⟩

lemma Reachable.induction {P : Net → Prop} (h : N.Reachable M) (hN : P N)
    (hstep : ∀ M t K, N.Reachable M → P M → M.fire t = .ok K → P K) : P M := by
  obtain ⟨ts, hts⟩ := h
  induction ts using List.reverseRecOn generalizing M with
  | nil =>
    cases hts
    exact hN
  | append_singleton ts t ih =>
    obtain ⟨L, hL, hM⟩ := run_concat.mp hts
    exact hstep L t M ⟨ts, hL⟩ (ih hL) hM

lemma eq_withMarking_of_fire (hM : M = N.withMarking M.marking) (h : M.fire t = .ok K) :
    K = N.withMarking K.marking := by
  obtain ⟨hK, hb, _⟩ := fire_ok h
  have hids : K.marking.ids = N.marking.ids := by
    rw [hb.1, hM]
    exact Marking.ids_override _ _
  calc
    K = M.withMarking K.marking := hK
    _ = (N.withMarking M.marking).withMarking K.marking := by rw [← hM]
    _ = N.withMarking K.marking := withMarking_withMarking N _ _ hids

lemma Reachable.eq_withMarking (h : N.Reachable M) : M = N.withMarking M.marking :=
  h.induction (withMarking_marking N).symm fun _ _ _ _ hM ht => eq_withMarking_of_fire hM ht

lemma Reachable.ids_eq (h : N.Reachable M) : M.marking.ids = N.marking.ids := by
  rw [h.eq_withMarking]
  exact Marking.ids_override _ _

lemma Reachable.eq_of_marking_eq (hM : N.Reachable M) (hK : N.Reachable K) (h : M.marking = K.marking) :
    M = K := by
  rw [hM.eq_withMarking, hK.eq_withMarking, h]

lemma Reachable.arcs_eq (h : N.Reachable M) : M.arcs = N.arcs := by
  rw [h.eq_withMarking]
  rfl

lemma Reachable.intake_eq (h : N.Reachable M) (t p : String) : M.intake t p = N.intake t p := by
  rw [intake, h.arcs_eq, intake]

lemma Reachable.transitions_eq (h : N.Reachable M) : M.transitions = N.transitions := by
  rw [h.eq_withMarking]
  rfl

end Petri.Net
