import Mathlib
import Petri.Proofs.Formula.Semantics

/-! Nodes of two live graphs that are related by a bisimulation satisfy the same formulas, as long as the conditions of
these do not tell the two nets apart. -/

namespace Petri

section

variable {arc arc' : String → String → Prop} {hold hold' goal goal' : String → Prop} {R : String → String → Prop}
  {a a' b c : String} {k : ℕ} {w : ℕ → String}

def precede (a b : String) (w : ℕ → String) : ℕ → String
  | 0 => a
  | 1 => b
  | i + 2 => w i

lemma UntilWalk.precede (ha : hold a) (hab : arc a b) (hbc : arc b c) (h : UntilWalk arc hold goal c k w) :
    UntilWalk arc hold goal a (k + 1) (precede a b w) where
  start := rfl
  arcs i hi := by
    rw [← h.start] at hbc
    obtain _ | _ | i := i
    · exact hab
    · exact hbc
    · exact h.arcs i (by omega)
  goal := h.goal
  hold i hi := by
    obtain _ | i := i
    · exact ha
    · exact h.hold i (by omega)

lemma UntilWalk.drop (h : UntilWalk arc hold goal a (k + 1) w) :
    UntilWalk arc hold goal (w 2) k fun i => w (i + 2) where
  start := rfl
  arcs i hi := h.arcs (i + 2) (by omega)
  goal := h.goal
  hold i hi := h.hold (i + 1) (by omega)

lemma UntilWalk.transfer (harc : ∀ a b a', R a a' → arc a b → ∃ b', arc' a' b' ∧ R b b')
    (hhold : ∀ a a', R a a' → hold a → hold' a') (hgoal : ∀ a a', R a a' → goal a → goal' a') (hR : R a a')
    (h : UntilWalk arc hold goal a k w) : ∃ w', UntilWalk arc' hold' goal' a' k w' := by
  induction k generalizing a a' w with
  | zero =>
    obtain rfl : w 0 = a := h.start
    exact ⟨fun _ => a', rfl, by simp, hgoal _ _ hR h.goal, by simp⟩
  | succ k ih =>
    obtain rfl : w 0 = a := h.start
    obtain ⟨b', hb, hRb⟩ := harc _ _ _ hR (h.arcs 0 (by omega))
    obtain ⟨c', hc, hRc⟩ := harc _ _ _ hRb (h.arcs 1 (by omega))
    obtain ⟨w', hw⟩ := ih hRc h.drop
    exact ⟨_, hw.precede (hhold _ _ hR (h.hold 0 (by omega))) hb hc⟩

end

namespace PathSet

variable {N U : Net} {G H : MarkingGraph} {R : String → String → Prop} {a a' : String}

structure Bisimulation (N : Net) (G : MarkingGraph) (U : Net) (H : MarkingGraph) (R : String → String → Prop) :
    Prop where
  live : ∀ a a', R a a' → (Live N G a ↔ Live U H a')
  forth : ∀ a b a', R a a' → LiveArc N G a b → ∃ b', LiveArc U H a' b' ∧ R b b'
  back : ∀ a' b' a, R a a' → LiveArc U H a' b' → ∃ b, LiveArc N G a b ∧ R b b'
  place : ∀ a a' p, R a a' → (p ∈ N.marking.places ∧ p.id = a ↔ p ∈ U.marking.places ∧ p.id = a')
  context : ∀ a a' c, R a a' →
    ((∃ t ∈ N.transitions, t.id = a ∧ t.context = some c) ↔ ∃ t ∈ U.transitions, t.id = a' ∧ t.context = some c)

namespace Bisimulation

variable {hold hold' goal goal' : String → Prop}

lemma until_iff (h : Bisimulation N G U H R) (hhold : ∀ a a', R a a' → (hold a ↔ hold' a'))
    (hgoal : ∀ a a', R a a' → (goal a ↔ goal' a')) (hR : R a a') :
    (Live N G a ∧ ∃ k w, UntilWalk (LiveArc N G) hold goal a k w) ↔
      Live U H a' ∧ ∃ k w, UntilWalk (LiveArc U H) hold' goal' a' k w := by
  apply and_congr (h.live a a' hR)
  apply exists_congr
  intro k
  constructor
  · rintro ⟨w, hw⟩
    exact hw.transfer h.forth (fun a a' hR => (hhold a a' hR).mp) (fun a a' hR => (hgoal a a' hR).mp) hR
  · rintro ⟨w, hw⟩
    exact hw.transfer (R := fun a' a => R a a') h.back (fun a' a hR => (hhold a a' hR).mpr)
      (fun a' a hR => (hgoal a a' hR).mpr) hR

lemma successor_iff (h : Bisimulation N G U H R) (hgoal : ∀ a a', R a a' → (goal a ↔ goal' a')) (hR : R a a') :
    (∃ b, LiveArc N G a b ∧ goal b) ↔ ∃ b', LiveArc U H a' b' ∧ goal' b' := by
  constructor
  · rintro ⟨b, hb, hgb⟩
    obtain ⟨b', hb', hRb⟩ := h.forth a b a' hR hb
    exact ⟨b', hb', (hgoal b b' hRb).mp hgb⟩
  · rintro ⟨b', hb', hgb⟩
    obtain ⟨b, hb, hRb⟩ := h.back a' b' a hR hb'
    exact ⟨b, hb, (hgoal b b' hRb).mpr hgb⟩

lemma next_iff (h : Bisimulation N G U H R) (hgoal : ∀ a a', R a a' → (goal a ↔ goal' a')) (hR : R a a') :
    (∀ b c, LiveArc N G a b → LiveArc N G b c → goal c) ↔
      ∀ b' c', LiveArc U H a' b' → LiveArc U H b' c' → goal' c' := by
  constructor
  · intro hall b' c' hb' hc'
    obtain ⟨b, hb, hRb⟩ := h.back a' b' a hR hb'
    obtain ⟨c, hc, hRc⟩ := h.back b' c' b hRb hc'
    exact (hgoal c c' hRc).mp (hall b c hb hc)
  · intro hall b c hb hc
    obtain ⟨b', hb', hRb⟩ := h.forth a b a' hR hb
    obtain ⟨c', hc', hRc⟩ := h.forth b c b' hRb hc
    exact (hgoal c c' hRc).mpr (hall b' c' hb' hc')

end Bisimulation

end PathSet

namespace Formula

open PathSet

def placeConditions : {d : Domain} → Formula d → List (Site → Bool)
  | _, tt => []
  | _, ff => []
  | .state, atom _ condition => [condition]
  | .transition, atom _ _ => []
  | _, and f g => f.placeConditions ++ g.placeConditions
  | _, or f g => f.placeConditions ++ g.placeConditions
  | _, not f => f.placeConditions
  | _, existsUntil hold goal => hold.placeConditions ++ goal.placeConditions
  | _, forallNext f => f.placeConditions
  | _, ev f => f.placeConditions
  | _, pos f => f.placeConditions
  | _, along f => f.placeConditions
  | _, modal f => f.placeConditions
  | _, existsModal f g => f.placeConditions ++ g.placeConditions

def SameAnswers (N U : Net) (condition : Site → Bool) : Prop :=
  ∀ p ∈ N.marking.places, condition ⟨N, p⟩ = condition ⟨U, p⟩

variable {N U : Net} {G H : MarkingGraph} {R : String → String → Prop} {a a' : String} {d : Domain}

lemma holds_atom_iff (h : Bisimulation N G U H R) {label : String} {condition : Predicate d}
    (hf : ∀ c ∈ (atom label condition).placeConditions, SameAnswers N U c) (hR : R a a') :
    (atom label condition).Holds N G a ↔ (atom label condition).Holds U H a' := by
  cases d with
  | state =>
    have hc : SameAnswers N U condition := hf condition List.mem_cons_self
    apply exists_congr
    intro p
    rw [← and_assoc, ← and_assoc, ← h.place a a' p hR]
    apply and_congr_right
    intro hp
    rw [hc p hp.1]
  | transition =>
    constructor
    · rintro ⟨t, ht, hid, c, hc, hcondition⟩
      obtain ⟨u, hu, huid, huc⟩ := (h.context a a' c hR).mp ⟨t, ht, hid, hc⟩
      exact ⟨u, hu, huid, c, huc, hcondition⟩
    · rintro ⟨u, hu, huid, c, hc, hcondition⟩
      obtain ⟨t, ht, hid, htc⟩ := (h.context a a' c hR).mpr ⟨u, hu, huid, hc⟩
      exact ⟨t, ht, hid, c, htc, hcondition⟩

lemma holds_iff_of_bisimulation (h : Bisimulation N G U H R) (f : Formula d)
    (hf : ∀ c ∈ f.placeConditions, SameAnswers N U c) (hR : R a a') : f.Holds N G a ↔ f.Holds U H a' := by
  induction f generalizing a a' with
  | tt | ff => exact Iff.rfl
  | atom label condition => exact holds_atom_iff h hf hR
  | and f g ihf ihg =>
    obtain ⟨hf, hg⟩ := List.forall_mem_append.mp hf
    exact and_congr (ihf hf hR) (ihg hg hR)
  | or f g ihf ihg =>
    obtain ⟨hf, hg⟩ := List.forall_mem_append.mp hf
    exact or_congr (ihf hf hR) (ihg hg hR)
  | not f ihf => exact not_congr (ihf hf hR)
  | existsUntil f g ihf ihg =>
    obtain ⟨hf, hg⟩ := List.forall_mem_append.mp hf
    exact h.until_iff (fun _ _ => ihf hf) (fun _ _ => ihg hg) hR
  | forallNext f ihf =>
    exact h.next_iff (fun _ _ => ihf hf) hR
  | ev f ihf | pos f ihf => exact h.until_iff (fun _ _ _ => Iff.rfl) (fun _ _ => ihf hf) hR
  | along f ihf =>
    exact not_congr (h.until_iff (fun _ _ _ => Iff.rfl) (fun _ _ hR => not_congr (ihf hf hR)) hR)
  | modal f ihf => exact h.successor_iff (fun _ _ => ihf hf) hR
  | existsModal f g ihf ihg =>
    obtain ⟨hf, hg⟩ := List.forall_mem_append.mp hf
    apply h.successor_iff (fun _ _ hR => ?_) hR
    exact and_congr (ihf hf hR) (h.successor_iff (fun _ _ => ihg hg) hR)

end Formula

end Petri
