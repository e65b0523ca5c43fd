import Mathlib
import Petri.Proofs.MarkingGraph.Exploration
import Petri.Proofs.Unfolding.Firing

/-! A net and its unfolding find the same markings in the same order: a copy comes after its transition among the
enabled ones, so what it leads to has been found before. -/

namespace Petri.Unfolding

open MarkingGraph

variable {N U M V K : Net} {G H G' H' : MarkingGraph} {cs : List (Transition × String)} {t u : Transition}
  {c : String} {limit : Option ℕ} {v : ℕ} {fired fired' : List String}

lemma IsUnfolding.fire (h : IsUnfolding M cs V) (hc : (t, c) ∈ cs) (hf : M.fire t.id = .ok K) :
    ∃ L, V.fire c = .ok L ∧ IsUnfolding K cs L := by
  refine ⟨_, h.fire_copy hc hf, ?_⟩
  obtain ⟨hK, -⟩ := Net.fire_ok hf
  nth_rewrite 1 [hK]
  exact h.withMarking _

lemma IsUnfolding.mem_enabled (h : IsUnfolding M cs V) :
    u ∈ V.enabled ↔ ∃ t c, (t, c) ∈ cs ∧ rename t c = u ∧ t ∈ M.enabled := by
  rw [Net.mem_enabled, h.mem_transitions]
  constructor
  · rintro ⟨⟨t, c, hc, rfl⟩, hu⟩
    exact ⟨t, c, hc, rfl, Net.mem_enabled.mpr ⟨(h.original t c hc).1, h.isEnabled_copy hc ▸ hu⟩⟩
  · rintro ⟨t, c, hc, rfl, ht⟩
    exact ⟨⟨t, c, hc, rfl⟩, (h.isEnabled_copy hc).trans (Net.mem_enabled.mp ht).2⟩

lemma ascending_enabled (N : Net) : Ascending Transition.id N.enabled :=
  N.ascending.filter _

lemma IsUnfolding.filter_enabled (h : IsUnfolding M cs V) :
    V.enabled.filter (fun u => u ∈ M.transitions) = M.enabled := by
  apply Sorted.eq_of_mem_iff ((ascending_enabled V).filter _) (ascending_enabled M)
  intro u
  rw [List.mem_filter, decide_eq_true_eq]
  constructor
  · rintro ⟨hu, huM⟩
    refine Net.mem_enabled.mpr ⟨huM, ?_⟩
    rw [← h.isEnabled_copy (h.self_mem u huM)]
    exact (Net.mem_enabled.mp hu).2
  · intro hu
    have huM := (Net.mem_enabled.mp hu).1
    exact ⟨h.mem_enabled.mpr ⟨u, u.id, h.self_mem u huM, rfl, hu⟩, huM⟩

/-- What the transitions of `M` among `done` lead to is in `H`. -/
def Settled (M : Net) (H : MarkingGraph) (done : List Transition) : Prop :=
  ∀ t ∈ done, t ∈ M.transitions → ∃ K, M.fire t.id = .ok K ∧ K.marking ∈ H.markings

lemma Settled.concat {done : List Transition} (h : Settled M H done) (hx : Extends H H')
    (hu : u ∈ M.transitions → ∃ K, M.fire u.id = .ok K ∧ K.marking ∈ H'.markings) :
    Settled M H' (done ++ [u]) := by
  intro t ht htM
  rcases List.mem_append.mp ht with ht | ht
  · obtain ⟨K, hK, hKH⟩ := h t ht htM
    exact ⟨K, hK, hx.markings_subset hKH⟩
  · cases List.mem_singleton.mp ht
    exact hu htM

lemma Settled.fire_copy {done us : List Transition} (h : Settled M H done) (hMV : IsUnfolding M cs V)
    (hus : V.enabled = done ++ u :: us) (hu : u ∉ M.transitions) :
    ∃ L, V.fire u.id = .ok L ∧ L.marking ∈ H.markings := by
  obtain ⟨t, c, hc, rfl, ht⟩ := hMV.mem_enabled.mp (hus ▸ List.mem_append_right done List.mem_cons_self)
  obtain ⟨htM, hlt⟩ := hMV.original t c hc
  have hlt : t.id < c := by
    rcases hlt with rfl | hlt
    · exact absurd htM hu
    · exact hlt
  have hmem : t ∈ done ++ rename t c :: us :=
    hus ▸ hMV.mem_enabled.mpr ⟨t, t.id, hMV.self_mem t htM, rfl, ht⟩
  -- the name of a copy is greater than that of its transition
  have hdone : t ∈ done := by
    rcases List.mem_append.mp hmem with hmem | hmem
    · exact hmem
    · rcases List.mem_cons.mp hmem with heq | hmem
      · exact absurd (heq ▸ htM) hu
      · have hasc := ascending_enabled V
        rw [hus] at hasc
        have hgt : c < t.id := (List.pairwise_cons.mp (List.pairwise_append.mp hasc).2.1).1 t hmem
        exact absurd hlt (Std.not_lt.mpr (Std.le_of_lt hgt))
  obtain ⟨K, hK, hKH⟩ := h t hdone htM
  obtain ⟨L, hL, hKL⟩ := hMV.fire hc hK
  exact ⟨L, hL, hKL.marking ▸ hKH⟩

def Mirrors (cs : List (Transition × String)) (G H : MarkingGraph) : Prop :=
  List.Forall₂ (fun M V => IsUnfolding M cs V) G.vertices.toList H.vertices.toList

namespace Mirrors

lemma markings_eq (h : Mirrors cs G H) : H.markings = G.markings := by
  rw [Mirrors] at h
  unfold MarkingGraph.markings
  generalize G.vertices.toList = l, H.vertices.toList = l' at h ⊢
  induction h with
  | nil => rfl
  | cons hMV _ ih => rw [List.map_cons, List.map_cons, hMV.marking, ih]

lemma size_eq (h : Mirrors cs G H) : H.vertices.size = G.vertices.size := by
  simpa using h.length_eq.symm

lemma of_getElem? (h : Mirrors cs G H) {i : ℕ} (hM : G.vertices[i]? = some M) (hV : H.vertices[i]? = some V) :
    IsUnfolding M cs V := by
  obtain ⟨hi, rfl⟩ := Array.getElem?_eq_some_iff.mp hM
  obtain ⟨hj, rfl⟩ := Array.getElem?_eq_some_iff.mp hV
  exact List.Forall₂.get h (by simpa using hi) (by simpa using hj)

lemma exists_original (h : Mirrors cs G H) {i : ℕ} (hV : H.vertices[i]? = some V) :
    ∃ M, G.vertices[i]? = some M ∧ IsUnfolding M cs V := by
  have hM := Array.getElem?_eq_getElem (h.size_eq ▸ (Array.getElem?_eq_some_iff.mp hV).1)
  exact ⟨_, hM, h.of_getElem? hM hV⟩

lemma exists_unfolded (h : Mirrors cs G H) {i : ℕ} (hM : G.vertices[i]? = some M) :
    ∃ V, H.vertices[i]? = some V ∧ IsUnfolding M cs V := by
  have hV := Array.getElem?_eq_getElem (h.size_eq ▸ (Array.getElem?_eq_some_iff.mp hM).1)
  exact ⟨_, hV, h.of_getElem? hM hV⟩

lemma push {L : Net} (h : Mirrors cs G H) (hKL : IsUnfolding K cs L) (hG : G'.vertices = G.vertices.push K)
    (hH : H'.vertices = H.vertices.push L) : Mirrors cs G' H' := by
  rw [Mirrors, hG, hH, Array.toList_push, Array.toList_push]
  exact List.rel_append h (.cons hKL .nil)

lemma expand (h : Mirrors cs G H) (hG : G.Consistent) (hH : H.Consistent) (hMV : IsUnfolding M cs V)
    (ht : t ∈ M.transitions) (hok : expand limit v M G t = .ok G') :
    ∃ H', MarkingGraph.expand limit v V H t = .ok H' ∧ Mirrors cs G' H' ∧
      ∃ K, M.fire t.id = .ok K ∧ K.marking ∈ H'.markings := by
  obtain ⟨K, hK, hcases⟩ := fire_of_expand hG hok
  obtain ⟨L, hL, hKL⟩ := hMV.fire (hMV.self_mem t ht) hK
  rw [← h.markings_eq, ← hKL.marking, ← h.size_eq] at hcases
  rcases hcases with ⟨hmem, hG'⟩ | ⟨hnew, hl, hG'⟩
  · obtain ⟨H', hH', hv⟩ := expand_of_mem hH hL hmem
    refine ⟨H', hH', by rwa [Mirrors, hG', hv], K, hK, ?_⟩
    rwa [MarkingGraph.markings, hv, ← hKL.marking]
  · obtain ⟨H', hH', hv⟩ := expand_of_notMem hH hL hnew hl
    refine ⟨H', hH', h.push hKL hG' hv, K, hK, ?_⟩
    rw [MarkingGraph.markings, hv, ← hKL.marking]
    simp

lemma foldlM {done us : List Transition} (h : Mirrors cs G H) (hG : Frontier N v fired G)
    (hH : Frontier U v fired' H) (hM : G.vertices[v]? = some M) (hV : H.vertices[v]? = some V)
    (hus : V.enabled = done ++ us) (hdone : Settled M H done)
    (hok : (us.filter fun u => u ∈ M.transitions).foldlM (MarkingGraph.expand limit v M) G = .ok G') :
    ∃ H', us.foldlM (MarkingGraph.expand limit v V) H = .ok H' ∧ Mirrors cs G' H' := by
  have hMV := h.of_getElem? hM hV
  induction us generalizing done fired fired' G H with
  | nil =>
    cases hok
    exact ⟨H, rfl, h⟩
  | cons u us ih =>
    have hus' : V.enabled = done ++ [u] ++ us := by simpa using hus
    rw [List.foldlM_cons]
    by_cases hu : u ∈ M.transitions
    · rw [List.filter_cons_of_pos (by simpa using hu), List.foldlM_cons] at hok
      obtain ⟨G₁, hG₁, hok⟩ := bind_eq_ok.mp hok
      obtain ⟨H₁, hH₁, h₁, K, hK, hKH⟩ := h.expand hG.consistent hH.consistent hMV hu hG₁
      obtain ⟨hFG, hxG⟩ := hG.expand hM hG₁
      obtain ⟨hFH, hxH⟩ := hH.expand hV hH₁
      have hdone' := hdone.concat hxH fun _ => ⟨K, hK, hKH⟩
      obtain ⟨H', hH', h'⟩ := ih h₁ hFG hFH (hxG v M hM) (hxH v V hV) hus' hdone' hok
      exact ⟨H', bind_eq_ok.mpr ⟨H₁, hH₁, hH'⟩, h'⟩
    · rw [List.filter_cons_of_neg (by simpa using hu)] at hok
      obtain ⟨L, hL, hLH⟩ := hdone.fire_copy hMV hus hu
      obtain ⟨H₁, hH₁, hv⟩ := expand_of_mem hH.consistent hL hLH
      obtain ⟨hFH, hxH⟩ := hH.expand hV hH₁
      have h₁ : Mirrors cs G H₁ := by rwa [Mirrors, hv]
      have hdone' := hdone.concat hxH fun huM => absurd huM hu
      obtain ⟨H', hH', h'⟩ := ih h₁ hG hFH hM (hxH v V hV) hus' hdone' hok
      exact ⟨H', bind_eq_ok.mpr ⟨H₁, hH₁, hH'⟩, h'⟩

lemma visit {visits : ℕ} (h : Mirrors cs G H) (hG : Frontier N v [] G) (hH : Frontier U v [] H)
    (hok : visit limit visits v G = .ok G') :
    ∃ H', MarkingGraph.visit limit visits v H = .ok H' ∧ Mirrors cs G' H' := by
  induction visits generalizing v G H with
  | zero =>
    cases hok
    exact ⟨H, rfl, h⟩
  | succ visits ih =>
    rw [MarkingGraph.visit] at hok ⊢
    cases hM : G.vertices[v]? with
    | none =>
      have hV : H.vertices[v]? = none := by
        rw [Array.getElem?_eq_none_iff, h.size_eq]
        exact Array.getElem?_eq_none_iff.mp hM
      rw [hM] at hok
      cases hok
      exact ⟨H, by rw [hV], h⟩
    | some M =>
      obtain ⟨V, hV, hMV⟩ := h.exists_unfolded hM
      rw [hM] at hok
      obtain ⟨G₁, hG₁, hok⟩ := bind_eq_ok.mp hok
      have hG₁' := hG₁
      rw [← hMV.filter_enabled] at hG₁'
      obtain ⟨H₁, hH₁, h₁⟩ := h.foldlM hG hH hM hV (List.nil_append _).symm (by simp [Settled]) hG₁'
      obtain ⟨hFG, hxG⟩ := hG.foldlM hM hG₁
      obtain ⟨hFH, hxH⟩ := hH.foldlM hV hH₁
      obtain ⟨H', hH', h'⟩ := ih h₁ (hFG.next (hxG v M hM)) (hFH.next (hxH v V hV)) hok
      rw [hV]
      exact ⟨H', bind_eq_ok.mpr ⟨H₁, hH₁, hH'⟩, h'⟩

end Mirrors

lemma IsUnfolding.explore {budget : Budget} (h : IsUnfolding N cs U) (hG : explore budget N = .ok G) :
    ∃ H, MarkingGraph.explore budget U = .ok H ∧ Mirrors cs G H := by
  have h₀ : Mirrors cs (ofNet N) (ofNet U) := .cons h .nil
  obtain ⟨H, hH, hGH⟩ := h₀.visit (frontier_ofNet N) (frontier_ofNet U) hG
  rw [← h.marking] at hH
  exact ⟨H, hH, hGH⟩

lemma Mirrors.mem_edges (h : Mirrors cs G H) (hG : Frontier N G.vertices.size [] G)
    (hH : Frontier U H.vertices.size [] H) {i j : ℕ} :
    ⟨i, j, c⟩ ∈ H.edges.toList ↔ ∃ t, (t, c) ∈ cs ∧ ⟨i, j, t.id⟩ ∈ G.edges.toList := by
  constructor
  · intro he
    obtain ⟨V, L, hV, hL, hVL⟩ := hH.sound _ he
    obtain ⟨M, hM, hMV⟩ := h.exists_original hV
    obtain ⟨u, hu, hcu⟩ := Net.isEnabled_iff_mem_enabled.mp (Net.isEnabled_of_fire hVL)
    obtain ⟨t, d, hd, rfl, ht⟩ := hMV.mem_enabled.mp hu
    obtain rfl : d = c := hcu
    obtain ⟨k, K, hk, hK, hMK⟩ := hG.mem_order hM (Net.mem_enabled.mp ht).2
    obtain ⟨L', hVL', hKL⟩ := hMV.fire hd hMK
    cases hVL.symm.trans hVL'
    obtain ⟨K', hK', hK'L⟩ := h.exists_original hL
    obtain rfl := hG.consistent.injective hK hK' (hKL.marking.symm.trans hK'L.marking)
    exact ⟨t, hd, hk⟩
  · rintro ⟨t, hc, he⟩
    obtain ⟨M, K, hM, hK, hMK⟩ := hG.sound _ he
    obtain ⟨V, hV, hMV⟩ := h.exists_unfolded hM
    obtain ⟨L, hVL, hKL⟩ := hMV.fire hc hMK
    obtain ⟨k, L', hk, hL', hVL'⟩ := hH.mem_order hV (Net.isEnabled_of_fire hVL)
    cases hVL.symm.trans hVL'
    obtain ⟨W, hW, hKW⟩ := h.exists_unfolded hK
    obtain rfl := hH.consistent.injective hL' hW (hKL.marking.trans hKW.marking.symm)
    exact hk

def copiesOf (cs : List (Transition × String)) (id : String) : List String :=
  (cs.filter fun c => c.1.id = id).map Prod.snd

lemma mem_copiesOf {id : String} : c ∈ copiesOf cs id ↔ ∃ t, (t, c) ∈ cs ∧ t.id = id := by
  simp [copiesOf]

lemma IsUnfolding.nodup_copiesOf (h : IsUnfolding N cs U) (id : String) : (copiesOf cs id).Nodup :=
  h.names_nodup.sublist (List.filter_sublist.map Prod.snd)

lemma IsUnfolding.eq_of_mem_copiesOf (h : IsUnfolding N cs U) {id id' : String} (hc : c ∈ copiesOf cs id)
    (hc' : c ∈ copiesOf cs id') : id = id' := by
  obtain ⟨t, ht, rfl⟩ := mem_copiesOf.mp hc
  obtain ⟨t', ht', rfl⟩ := mem_copiesOf.mp hc'
  rw [h.eq_of_name ht ht']

lemma IsUnfolding.transitions_perm (h : IsUnfolding N cs U) :
    U.transitions.Perm (N.transitions.flatMap fun t => (copiesOf cs t.id).map (rename t)) := by
  have hids := Sorted.nodup_keys N.ascending
  rw [List.perm_ext_iff_of_nodup (Sorted.nodup_of_ascending U.ascending)]
  · intro u
    rw [h.mem_transitions]
    simp only [List.mem_flatMap, List.mem_map, mem_copiesOf]
    constructor
    · rintro ⟨t, c, hc, hu⟩
      exact ⟨t, (h.original t c hc).1, c, ⟨t, hc, rfl⟩, hu⟩
    · rintro ⟨t, ht, c, ⟨t', hc, hid⟩, hu⟩
      obtain rfl := List.inj_on_of_nodup_map hids (h.original t' c hc).1 ht hid
      exact ⟨t', c, hc, hu⟩
  · rw [List.nodup_flatMap]
    constructor
    · intro t _
      exact (h.nodup_copiesOf t.id).map fun _ _ he => congrArg Transition.id he
    · refine (List.pairwise_map.mp hids).imp fun {t u} htu x hx hx' => htu ?_
      obtain ⟨c, hc, rfl⟩ := List.mem_map.mp hx
      obtain ⟨d, hd, hcd⟩ := List.mem_map.mp hx'
      obtain rfl : d = c := congrArg Transition.id hcd
      exact h.eq_of_mem_copiesOf hc hd

lemma Mirrors.edges_perm (h : Mirrors cs G H) (hN : IsUnfolding N cs U) (hG : Frontier N G.vertices.size [] G)
    (hH : Frontier U H.vertices.size [] H) :
    H.edges.toList.Perm (G.edges.toList.flatMap fun e =>
      (copiesOf cs e.fired).map fun c => ⟨e.source, e.target, c⟩) := by
  rw [List.perm_ext_iff_of_nodup hH.nodup_edges]
  · rintro ⟨i, j, c⟩
    rw [h.mem_edges hG hH]
    simp only [List.mem_flatMap, List.mem_map, mem_copiesOf, Edge.mk.injEq]
    constructor
    · rintro ⟨t, hc, he⟩
      exact ⟨_, he, c, ⟨t, hc, rfl⟩, rfl, rfl, rfl⟩
    · rintro ⟨⟨_, _, _⟩, he, _, ⟨t, hc, rfl⟩, rfl, rfl, rfl⟩
      exact ⟨t, hc, he⟩
  · rw [List.nodup_flatMap]
    constructor
    · intro e _
      exact (hN.nodup_copiesOf e.fired).map fun _ _ he => congrArg Edge.fired he
    · refine hG.nodup_edges.imp fun {e e'} hne x hx hx' => hne ?_
      obtain ⟨c, hc, rfl⟩ := List.mem_map.mp hx
      obtain ⟨d, hd, hcd⟩ := List.mem_map.mp hx'
      obtain ⟨i, j, t⟩ := e
      obtain ⟨i', j', t'⟩ := e'
      cases hcd
      exact congrArg (Edge.mk i j) (hN.eq_of_mem_copiesOf hc hd)

theorem explore_unfolding {budget : Budget} (h : N.unfolding budget = .ok U) :
    ∃ G H, explore budget N = .ok G ∧ explore budget U = .ok H ∧ H.markings = G.markings ∧
      H.edges.toList.Perm (G.edges.toList.flatMap fun e =>
        (copiesOf (copies N G) e.fired).map fun c => ⟨e.source, e.target, c⟩) ∧
      U.transitions.Perm (N.transitions.flatMap fun t =>
        (copiesOf (copies N G) t.id).map fun c => { t with id := c }) ∧
      ∀ t ∈ N.transitions, t.id ∈ copiesOf (copies N G) t.id := by
  obtain ⟨G, hG, hU⟩ := unfolding_ok h
  obtain ⟨H, hH, hGH⟩ := hU.explore hG
  refine ⟨G, H, hG, hH, hGH.markings_eq, ?_, hU.transitions_perm, fun t ht => ?_⟩
  · exact hGH.edges_perm hU (frontier_explore hG) (frontier_explore hH)
  · exact mem_copiesOf.mpr ⟨t, hU.self_mem t ht, rfl⟩

def readers : Net where
  id := "readers"
  marking := ⟨[⟨"done", 0⟩, ⟨"pool", 2⟩], by decide⟩
  transitions := [⟨"read", some { kind := .app, read := some "data" }⟩]
  arcs := [⟨"pool", "read"⟩, ⟨"read", "done"⟩]
  ascending := by decide
  disjoint := by decide
  joins := by simp [Arc.Joins, Marking.ids]

theorem explore_unfolding_readers : ∃ U G H, readers.unfolding {} = .ok U ∧ explore {} readers = .ok G ∧
    explore {} U = .ok H ∧ H.markings = G.markings ∧ H.edges.toList.Perm (G.edges.toList.flatMap fun e =>
      (copiesOf (copies readers G) e.fired).map fun c => ⟨e.source, e.target, c⟩) := by
  obtain ⟨U, hU⟩ := exists_eq_ok (x := readers.unfolding {}) (by decide +kernel)
  obtain ⟨G, H, hG, hH, hmarkings, hedges, -⟩ := explore_unfolding hU
  exact ⟨U, G, H, hU, hG, hH, hmarkings, hedges⟩

end Petri.Unfolding
