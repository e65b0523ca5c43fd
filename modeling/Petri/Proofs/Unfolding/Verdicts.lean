import Mathlib
import Petri.Proofs.Formula.Bisimulation
import Petri.Proofs.Unfolding.Exploration

/-! A net and its unfolding give every formula the same verdict, since to be a copy is a bisimulation of the two live
graphs. -/

namespace Petri

variable {N : Net} {a b : String} {d : Domain}

lemma Net.IsNode.notMem_arcs (ha : N.IsNode d a) (hb : N.IsNode d b) : ⟨a, b⟩ ∉ N.arcs := by
  intro harc
  exact Domain.other_ne d ((ha.other harc).unique hb)

lemma Net.exists_isNode_of_arc (h : ⟨a, b⟩ ∈ N.arcs) : (∃ d, N.IsNode d a) ∧ ∃ d, N.IsNode d b := by
  have hj := N.joins _ h
  rw [Arc.Joins, ← isNode_state, ← isNode_state, ← isNode_transition, ← isNode_transition] at hj
  rcases hj with ⟨ha, hb⟩ | ⟨ha, hb⟩
  · exact ⟨⟨_, ha⟩, _, hb⟩
  · exact ⟨⟨_, ha⟩, _, hb⟩

lemma Decides.eq_of_iff {x y : Except Error Bool} {q r : Prop} (hx : Decides x q) (hy : Decides y r) (hqr : q ↔ r) :
    x = y := by
  obtain ⟨v, rfl, hv⟩ := hx
  obtain ⟨w, rfl, hw⟩ := hy
  have hvw : v = w := Bool.eq_iff_iff.mpr (hv.trans (hqr.trans hw.symm))
  rw [hvw]

lemma Formula.eval_of_domain_ne {P : PathSet} {n : String} {x : Node} (f : Formula d) (hx : P.net.node? n = some x)
    (hd : x.domain ≠ d) : f.eval P n = .error (.domainMismatch f.render d x.domain n) := by
  rw [eval, locate, hx]
  simp only [if_neg hd]
  rfl

namespace Unfolding

open MarkingGraph PathSet

variable {U : Net} {G H : MarkingGraph} {cs : List (Transition × String)} {t : Transition} {a' b' c n : String}

inductive IsCopy (N : Net) (cs : List (Transition × String)) : String → String → Prop
  | place {p : String} : p ∈ N.marking.ids → IsCopy N cs p p
  | transition {t : Transition} {c : String} : (t, c) ∈ cs → IsCopy N cs t.id c

def FiredAlike (cs : List (Transition × String)) (G H : MarkingGraph) : Prop :=
  ∀ t c, (t, c) ∈ cs → ((∃ e ∈ G.edges.toList, e.fired = t.id) ↔ ∃ e ∈ H.edges.toList, e.fired = c)

namespace IsUnfolding

lemma isNode_copy (h : IsUnfolding N cs U) (hc : (t, c) ∈ cs) :
    N.IsNode .transition t.id ∧ U.IsNode .transition c := by
  rw [Net.isNode_transition, Net.isNode_transition]
  exact ⟨List.mem_map_of_mem (h.original t c hc).1, List.mem_map.mpr ⟨_, h.rename_mem hc, rfl⟩⟩

lemma isNode_place (h : IsUnfolding N cs U) (ha : a ∈ N.marking.ids) :
    N.IsNode .state a ∧ U.IsNode .state a := by
  rw [Net.isNode_state, Net.isNode_state, h.marking]
  exact ⟨ha, ha⟩

lemma isCopy_self (h : IsUnfolding N cs U) (ha : N.IsNode d a) : IsCopy N cs a a := by
  cases d with
  | state => exact .place (Net.isNode_state.mp ha)
  | transition =>
    obtain ⟨t, ht, rfl⟩ := List.mem_map.mp (Net.isNode_transition.mp ha)
    exact .transition (h.self_mem t ht)

lemma exists_isCopy (h : IsUnfolding N cs U) (ha : U.IsNode d a') : ∃ a, IsCopy N cs a a' := by
  cases d with
  | state =>
    rw [Net.isNode_state, h.marking] at ha
    exact ⟨a', .place ha⟩
  | transition =>
    obtain ⟨u, hu, rfl⟩ := List.mem_map.mp (Net.isNode_transition.mp ha)
    obtain ⟨t, c, hc, rfl⟩ := (h.mem_transitions u).mp hu
    exact ⟨t.id, .transition hc⟩

lemma mem_arcs_iff (h : IsUnfolding N cs U) (ha : IsCopy N cs a a') (hb : IsCopy N cs b b') :
    ⟨a', b'⟩ ∈ U.arcs ↔ ⟨a, b⟩ ∈ N.arcs := by
  cases ha with
  | place ha =>
    cases hb with
    | place hb =>
      obtain ⟨ha, ha'⟩ := h.isNode_place ha
      obtain ⟨hb, hb'⟩ := h.isNode_place hb
      exact iff_of_false (ha'.notMem_arcs hb') (ha.notMem_arcs hb)
    | transition hc =>
      rw [← List.count_pos_iff, ← List.count_pos_iff]
      exact iff_of_eq (congrArg (0 < ·) (h.intake_copy hc))
  | transition hc =>
    cases hb with
    | place hb =>
      rw [← List.count_pos_iff, ← List.count_pos_iff]
      exact iff_of_eq (congrArg (0 < ·) (h.output_copy hc))
    | transition hd =>
      obtain ⟨ha, ha'⟩ := h.isNode_copy hc
      obtain ⟨hb, hb'⟩ := h.isNode_copy hd
      exact iff_of_false (ha'.notMem_arcs hb') (ha.notMem_arcs hb)

lemma exists_arc_forth (h : IsUnfolding N cs U) (ha : IsCopy N cs a a') (harc : ⟨a, b⟩ ∈ N.arcs) :
    ⟨a', b⟩ ∈ U.arcs ∧ IsCopy N cs b b := by
  obtain ⟨_, d, hb⟩ := Net.exists_isNode_of_arc harc
  have hself := h.isCopy_self hb
  exact ⟨(h.mem_arcs_iff ha hself).mpr harc, hself⟩

lemma exists_arc_back (h : IsUnfolding N cs U) (ha : IsCopy N cs a a') (harc : ⟨a', b'⟩ ∈ U.arcs) :
    ∃ b, ⟨a, b⟩ ∈ N.arcs ∧ IsCopy N cs b b' := by
  obtain ⟨_, d, hb⟩ := Net.exists_isNode_of_arc harc
  obtain ⟨b, hcopy⟩ := h.exists_isCopy hb
  exact ⟨b, (h.mem_arcs_iff ha hcopy).mp harc, hcopy⟩

-- the two graphs need not be those that mirror each other: what fires somewhere does so in every complete graph
lemma firedAlike (h : IsUnfolding N cs U) {budget : Budget} {G₀ : MarkingGraph} (hG₀ : MarkingGraph.explore budget N = .ok G₀)
    (hG : Frontier N G.vertices.size [] G) (hH : Frontier U H.vertices.size [] H) : FiredAlike cs G H := by
  obtain ⟨H₀, hH₀, hmirror⟩ := h.explore hG₀
  have hF := frontier_explore hG₀
  have hF' := frontier_explore hH₀
  intro t c hc
  rw [hG.exists_fired_iff, ← hF.exists_fired_iff, hH.exists_fired_iff, ← hF'.exists_fired_iff]
  constructor
  · rintro ⟨⟨i, j, _⟩, he, rfl⟩
    exact ⟨⟨i, j, c⟩, (hmirror.mem_edges hF hF').mpr ⟨t, hc, he⟩, rfl⟩
  · rintro ⟨⟨i, j, _⟩, he, rfl⟩
    obtain ⟨u, hu, he⟩ := (hmirror.mem_edges hF hF').mp he
    obtain rfl := h.eq_of_name hc hu
    exact ⟨_, he, rfl⟩

lemma live_iff (h : IsUnfolding N cs U) (hfired : FiredAlike cs G H) (ha : IsCopy N cs a a') :
    Live N G a ↔ Live U H a' := by
  cases ha with
  | place ha =>
    obtain ⟨hN, hU⟩ := h.isNode_place ha
    exact iff_of_true (Or.inl hN) (Or.inl hU)
  | @transition t c hc =>
    obtain ⟨hN, hU⟩ := h.isNode_copy hc
    have hNs : ¬ N.IsNode .state t.id := fun hs => Domain.noConfusion (hs.unique hN)
    have hUs : ¬ U.IsNode .state a' := fun hs => Domain.noConfusion (hs.unique hU)
    simp only [Live, hN, hU, hNs, hUs, true_and, false_or]
    exact hfired t a' hc

lemma place_iff (h : IsUnfolding N cs U) (ha : IsCopy N cs a a') (p : Place) :
    p ∈ N.marking.places ∧ p.id = a ↔ p ∈ U.marking.places ∧ p.id = a' := by
  rw [h.marking]
  cases ha with
  | place => exact Iff.rfl
  | @transition t c hc =>
    have hid : p ∈ N.marking.places → p.id ∈ N.marking.ids := fun hp => List.mem_map_of_mem hp
    refine iff_of_false (fun hp => ?_) fun hp => ?_
    · exact N.disjoint t (h.original t a' hc).1 (hp.2 ▸ hid hp.1)
    · exact h.name_notMem hc (hp.2 ▸ hid hp.1)

lemma context_iff (h : IsUnfolding N cs U) (ha : IsCopy N cs a a') (context : Context) :
    (∃ t ∈ N.transitions, t.id = a ∧ t.context = some context) ↔
      ∃ u ∈ U.transitions, u.id = a' ∧ u.context = some context := by
  cases ha with
  | place ha =>
    refine iff_of_false ?_ ?_
    · rintro ⟨t, ht, rfl, _⟩
      exact N.disjoint t ht ha
    · rintro ⟨u, hu, rfl, _⟩
      exact U.disjoint u hu (h.marking ▸ ha)
  | @transition t c hc =>
    constructor
    · rintro ⟨t', ht', hid, hcontext⟩
      obtain rfl := List.inj_on_of_nodup_map (Sorted.nodup_keys N.ascending) ht' (h.original t a' hc).1 hid
      exact ⟨_, h.rename_mem hc, rfl, hcontext⟩
    · rintro ⟨u, hu, rfl, hcontext⟩
      obtain ⟨t', c, hc', rfl⟩ := (h.mem_transitions u).mp hu
      obtain rfl := h.eq_of_name hc hc'
      exact ⟨t, (h.original t c hc).1, rfl, hcontext⟩

lemma bisimulation (h : IsUnfolding N cs U) (hfired : FiredAlike cs G H) :
    Bisimulation N G U H (IsCopy N cs) where
  live a a' ha := h.live_iff hfired ha
  forth a b a' ha hab := by
    obtain ⟨harc, hb⟩ := h.exists_arc_forth ha hab.1
    exact ⟨b, ⟨harc, (h.live_iff hfired ha).mp hab.2.1, (h.live_iff hfired hb).mp hab.2.2⟩, hb⟩
  back a' b' a ha hab := by
    obtain ⟨b, harc, hb⟩ := h.exists_arc_back ha hab.1
    exact ⟨b, ⟨harc, (h.live_iff hfired ha).mpr hab.2.1, (h.live_iff hfired hb).mpr hab.2.2⟩, hb⟩
  place _ _ p ha := h.place_iff ha p
  context _ _ context ha := h.context_iff ha context

lemma node?_eq (h : IsUnfolding N cs U) {x : Node} (hx : N.node? n = some x) : U.node? n = some x := by
  cases x with
  | place p =>
    obtain ⟨hp, hid⟩ := Net.node?_eq_place.mp hx
    exact Net.node?_eq_place.mpr ⟨h.marking ▸ hp, hid⟩
  | transition t =>
    obtain ⟨ht, hid⟩ := Net.node?_eq_transition.mp hx
    exact Net.node?_eq_transition.mpr ⟨h.rename_mem (h.self_mem t ht), hid⟩

lemma isSink_eq (h : IsUnfolding N cs U) {p : Place} (hp : p ∈ N.marking.places) :
    Site.isSink ⟨N, p⟩ = Site.isSink ⟨U, p⟩ := by
  have hcopy : IsCopy N cs p.id p.id := .place (List.mem_map_of_mem hp)
  rw [Bool.eq_iff_iff]
  simp only [Site.isSink, Net.outgoing, List.isEmpty_iff, List.filter_eq_nil_iff, decide_eq_true_eq]
  constructor
  · rintro hnone ⟨_, b⟩ harc rfl
    obtain ⟨b, harc, _⟩ := h.exists_arc_back hcopy harc
    exact hnone _ harc rfl
  · rintro hnone ⟨_, b⟩ harc rfl
    exact hnone _ (h.exists_arc_forth hcopy harc).1 rfl

lemma isSource_eq (h : IsUnfolding N cs U) {p : Place} (hp : p ∈ N.marking.places) :
    Site.isSource ⟨N, p⟩ = Site.isSource ⟨U, p⟩ := by
  have hcopy : IsCopy N cs p.id p.id := .place (List.mem_map_of_mem hp)
  rw [Bool.eq_iff_iff]
  simp only [Site.isSource, Net.incoming, List.isEmpty_iff, List.filter_eq_nil_iff, decide_eq_true_eq]
  constructor
  · rintro hnone ⟨b', _⟩ harc rfl
    obtain ⟨⟨d, hb⟩, _⟩ := Net.exists_isNode_of_arc harc
    obtain ⟨b, hb⟩ := h.exists_isCopy hb
    exact hnone _ ((h.mem_arcs_iff hb hcopy).mp harc) rfl
  · rintro hnone ⟨b, _⟩ harc rfl
    obtain ⟨⟨d, hb⟩, _⟩ := Net.exists_isNode_of_arc harc
    exact hnone _ ((h.mem_arcs_iff (h.isCopy_self hb) hcopy).mpr harc) rfl

end IsUnfolding

lemma initial_explore {budget : Budget} (h : explore budget N = .ok G) : G.initial = N :=
  (frontier_explore h).isReachabilityGraph.initial.1

theorem eval_unfolding {budget budget₁ budget₂ budget₃ budget₄ : Budget} {P P' : PathSet} {x : Node}
    (hU : N.unfolding budget = .ok U) (hG : explore budget₁ N = .ok G) (hH : explore budget₂ U = .ok H)
    (hP : PathSet.ofGraph budget₃ G = .ok P) (hP' : PathSet.ofGraph budget₄ H = .ok P') (hx : N.node? n = some x) :
    (∀ f : Formula d, (∀ c ∈ f.placeConditions, Formula.SameAnswers N U c) → f.eval P n = f.eval P' n) ∧
      ∀ q : String → UInt32 → Bool → Bool → Bool,
        Formula.SameAnswers N U fun s => q s.place.id s.place.tokens s.isSink s.isSource := by
  obtain ⟨G₀, hG₀, hcopies⟩ := unfolding_ok hU
  have hNG := initial_explore hG
  have hUH := initial_explore hH
  have hxU := hcopies.node?_eq hx
  refine ⟨fun f hf => ?_, fun q p hp => ?_⟩
  · by_cases hd : x.domain = d
    · have hfired := hcopies.firedAlike hG₀ (frontier_explore hG) (frontier_explore hH)
      have hnode : N.IsNode d n := ⟨x, hx, hd⟩
      have hholds := Formula.holds_iff_of_bisimulation (hcopies.bisimulation hfired) f hf (hcopies.isCopy_self hnode)
      have hN := Formula.decides_eval hP f (n := n) (hNG ▸ hnode)
      have hU := Formula.decides_eval hP' f (n := n) (hUH ▸ ⟨x, hxU, hd⟩)
      rw [hNG] at hN
      rw [hUH] at hU
      exact hN.eq_of_iff hU hholds
    · have hPN : P.net = N := (PathSet.ofGraph_ok hP).1.trans hNG
      have hPU : P'.net = U := (PathSet.ofGraph_ok hP').1.trans hUH
      rw [f.eval_of_domain_ne (hPN ▸ hx) hd, f.eval_of_domain_ne (hPU ▸ hxU) hd]
  · change q p.id p.tokens (Site.isSink ⟨N, p⟩) (Site.isSource ⟨N, p⟩) = _
    rw [hcopies.isSink_eq hp, hcopies.isSource_eq hp]

def readToSink : Formula .state :=
  .modal (.and (.atom "reads" fun (c : Context) => c.reads "data") (.modal (.atom "sink" fun (s : Site) => s.isSink)))

theorem eval_unfolding_readers : ∃ U G H P P', readers.unfolding {} = .ok U ∧ explore {} readers = .ok G ∧
    explore {} U = .ok H ∧ PathSet.ofGraph {} G = .ok P ∧ PathSet.ofGraph {} H = .ok P' ∧
    (∀ c ∈ readToSink.placeConditions, Formula.SameAnswers readers U c) ∧
    readToSink.eval P "pool" = readToSink.eval P' "pool" := by
  obtain ⟨P, hP⟩ := exists_eq_ok (x := explore {} readers >>= PathSet.ofGraph {}) (by decide +kernel)
  obtain ⟨G, hG, hP⟩ := bind_eq_ok.mp hP
  obtain ⟨P', hP'⟩ := exists_eq_ok (x := readers.unfolding {} >>= explore {} >>= PathSet.ofGraph {})
    (by decide +kernel)
  obtain ⟨H, hH, hP'⟩ := bind_eq_ok.mp hP'
  obtain ⟨U, hU, hH⟩ := bind_eq_ok.mp hH
  obtain ⟨heval, hanswers⟩ := eval_unfolding (n := "pool") hU hG hH hP hP' (x := .place ⟨"pool", 2⟩) (by decide)
  have hsink : ∀ c ∈ readToSink.placeConditions, Formula.SameAnswers readers U c := by
    intro c hc
    cases List.mem_singleton.mp hc
    exact hanswers fun _ _ sink _ => sink
  exact ⟨U, G, H, P, P', hU, hG, hH, hP, hP', hsink, heval readToSink hsink⟩

end Unfolding

end Petri
