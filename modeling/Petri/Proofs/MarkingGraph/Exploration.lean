import Mathlib
import Petri.Proofs.MarkingGraph.Consistent
import Petri.Proofs.Run
import Petri.MarkingGraph.Exploration

/-! Exploration finds the reachable markings and the firings between them. `Frontier` says what holds when the vertices
before `v` have been expanded, and `v` itself by some of its transitions. -/

namespace Petri.MarkingGraph

variable {G H : MarkingGraph} {N M K L : Net} {t : Transition} {limit : Option ℕ} {v : ℕ} {fired : List String}

inductive Expansion (limit : Option ℕ) (v : ℕ) (M : Net) (G : MarkingGraph) (t : String) :
    Except Error MarkingGraph → Prop
  | stuck {e : Error} : M.fire t = .error e → Expansion limit v M G t (.error e)
  | known {K L : Net} {i : ℕ} : M.fire t = .ok K → G.vertices[i]? = some L → L.marking = K.marking →
      Expansion limit v M G t (.ok (G.link v i t))
  | fresh {K : Net} {H : MarkingGraph} : M.fire t = .ok K →
      (∀ (i : ℕ) (L : Net), G.vertices[i]? = some L → L.marking ≠ K.marking) →
      H.Consistent → H.vertices = G.vertices.push K → H.edges = G.edges →
      (∀ l, limit = some l → G.vertices.size + 1 ≤ l) →
      Expansion limit v M G t (.ok (H.link v G.vertices.size t))
  | full {K : Net} {l : ℕ} : M.fire t = .ok K →
      (∀ (i : ℕ) (L : Net), G.vertices[i]? = some L → L.marking ≠ K.marking) →
      limit = some l → l < G.vertices.size + 1 →
      Expansion limit v M G t (.error (.exhausted .markings l))

lemma expand_of_error {e : Error} (hf : M.fire t.id = .error e) : expand limit v M G t = .error e := by
  rw [expand, hf]
  rfl

lemma expand_of_ok (hf : M.fire t.id = .ok K) : expand limit v M G t =
    (if (G.insert K).2.1 then Resource.markings.within limit (G.insert K).2.2.vertices.size else .ok ()) >>=
      fun _ => .ok ((G.insert K).2.2.link v (G.insert K).1 t.id) := by
  rw [expand, hf]
  cases hnew : (G.insert K).2.1 with
  | false => simp only [bind, Except.bind, hnew, Bool.false_eq_true, if_false, pure, Except.pure]
  | true => simp only [bind, Except.bind, hnew, if_true, pure, Except.pure]

lemma expansion (h : G.Consistent) (limit : Option ℕ) (v : ℕ) (M : Net) (t : Transition) :
    Expansion limit v M G t.id (expand limit v M G t) := by
  cases hf : M.fire t.id with
  | error e =>
    rw [expand_of_error hf]
    exact .stuck hf
  | ok K =>
    rw [expand_of_ok hf]
    rcases h.insert K with ⟨i, L, hi, hL, hLK⟩ | ⟨hnew, H, hi, hH, hv, he⟩
    · rw [hi]
      exact .known hf hL hLK
    · have hs : H.vertices.size = G.vertices.size + 1 := by rw [hv, Array.size_push]
      rw [hi]
      cases limit with
      | none => exact .fresh hf hnew hH hv he (by simp)
      | some l =>
        simp only [Resource.within, hs, if_true]
        split
        · next hl => exact .full hf hnew rfl hl
        · next hl => exact .fresh hf hnew hH hv he (by simpa using hl)

lemma fire_of_expand (h : G.Consistent) (hok : expand limit v M G t = .ok H) : ∃ K, M.fire t.id = .ok K ∧
    ((K.marking ∈ G.markings ∧ H.vertices = G.vertices) ∨
      (K.marking ∉ G.markings ∧ (∀ l, limit = some l → G.vertices.size + 1 ≤ l) ∧
        H.vertices = G.vertices.push K)) := by
  have hx := expansion h limit v M t
  rw [hok] at hx
  cases hx with
  | @known K L i ht hL hLK => exact ⟨K, ht, Or.inl ⟨mem_markings.mpr ⟨i, L, hL, hLK⟩, rfl⟩⟩
  | @fresh K H ht hnew _ hvert _ hl =>
    refine ⟨K, ht, Or.inr ⟨fun hmem => ?_, hl, hvert⟩⟩
    obtain ⟨i, L, hL, hLK⟩ := mem_markings.mp hmem
    exact hnew i L hL hLK

lemma expand_of_mem (h : G.Consistent) (ht : M.fire t.id = .ok K) (hK : K.marking ∈ G.markings) :
    ∃ H, expand limit v M G t = .ok H ∧ H.vertices = G.vertices := by
  obtain ⟨i, L, hL, hLK⟩ := mem_markings.mp hK
  have hx := expansion h limit v M t
  generalize expand limit v M G t = x at hx ⊢
  cases hx with
  | stuck ht' => cases ht.symm.trans ht'
  | known => exact ⟨_, rfl, rfl⟩
  | fresh ht' hnew | full ht' hnew =>
    cases ht.symm.trans ht'
    exact absurd hLK (hnew i L hL)

lemma expand_of_notMem (h : G.Consistent) (ht : M.fire t.id = .ok K) (hK : K.marking ∉ G.markings)
    (hl : ∀ l, limit = some l → G.vertices.size + 1 ≤ l) :
    ∃ H, expand limit v M G t = .ok H ∧ H.vertices = G.vertices.push K := by
  have hx := expansion h limit v M t
  generalize expand limit v M G t = x at hx ⊢
  cases hx with
  | stuck ht' => cases ht.symm.trans ht'
  | known ht' hL hLK =>
    cases ht.symm.trans ht'
    exact absurd (mem_markings.mpr ⟨_, _, hL, hLK⟩) hK
  | fresh ht' _ _ hvert =>
    cases ht.symm.trans ht'
    exact ⟨_, rfl, hvert⟩
  | full _ _ hlimit hlt => exact absurd hlt (Nat.not_lt.mpr (hl _ hlimit))

def Extends (G H : MarkingGraph) : Prop :=
  ∀ (i : ℕ) (M : Net), G.vertices[i]? = some M → H.vertices[i]? = some M

lemma extends_push (hv : H.vertices = G.vertices.push K) : Extends G H := by
  intro i M hi
  have hlt := (Array.getElem?_eq_some_iff.mp hi).1
  rw [hv, Array.getElem?_push, if_neg (by omega), hi]

lemma Extends.markings_subset (h : Extends G H) : G.markings ⊆ H.markings := by
  intro m hm
  obtain ⟨i, M, hi, hM⟩ := mem_markings.mp hm
  exact mem_markings.mpr ⟨i, M, h i M hi, hM⟩

def firings (G : MarkingGraph) (v : ℕ) : List (ℕ × String) :=
  match G.vertices[v]? with
  | some M => M.enabled.map fun t => (v, t.id)
  | none => []

lemma firings_eq (h : G.vertices[v]? = some M) : G.firings v = M.enabled.map fun t => (v, t.id) := by
  rw [firings, h]

lemma Extends.firings_eq (h : Extends G H) {i : ℕ} (hi : i < G.vertices.size) : H.firings i = G.firings i := by
  have hG := Array.getElem?_eq_getElem hi
  rw [MarkingGraph.firings_eq hG, MarkingGraph.firings_eq (h i _ hG)]

structure Frontier (N : Net) (v : ℕ) (fired : List String) (G : MarkingGraph) : Prop where
  consistent : G.Consistent
  initial : G.vertices[0]? = some N
  bound : v ≤ G.vertices.size
  reachable : ∀ (i : ℕ) (M : Net), G.vertices[i]? = some M → N.Reachable M
  sound : ∀ e ∈ G.edges.toList, ∃ M K, G.vertices[e.source]? = some M ∧ G.vertices[e.target]? = some K ∧
    M.fire e.fired = .ok K
  order : G.edges.toList.map (fun e => (e.source, e.fired)) =
    (List.range v).flatMap G.firings ++ fired.map fun t => (v, t)

lemma frontier_ofNet (N : Net) : Frontier N 0 [] (ofNet N) where
  consistent := consistent_ofNet N
  initial := rfl
  bound := Nat.zero_le _
  reachable i M hi := by
    have hi' : #[N][i]? = some M := hi
    have h0 := (Array.getElem?_eq_some_iff.mp hi').1
    obtain rfl : i = 0 := by simpa using h0
    cases hi'
    exact .refl N
  sound e he := by simp [ofNet] at he
  order := by simp [ofNet]

lemma Frontier.link (h : Frontier N v fired G) (hv : G.vertices[v]? = some M) {t : String}
    (ht : M.fire t = .ok K) {w : ℕ} (hx : Extends G H) (hH : H.Consistent) (he : H.edges = G.edges)
    (hr : ∀ (i : ℕ) (L : Net), H.vertices[i]? = some L → N.Reachable L)
    (hw : H.vertices[w]? = some K) : Frontier N v (fired ++ [t]) (H.link v w t) where
  consistent := by
    refine hH.link ?_ ?_ t
    · exact (Array.getElem?_eq_some_iff.mp (hx v M hv)).1
    · exact (Array.getElem?_eq_some_iff.mp hw).1
  initial := hx 0 N h.initial
  bound := Nat.le_of_lt (Array.getElem?_eq_some_iff.mp (hx v M hv)).1
  reachable := hr
  sound e hemem := by
    rw [toList_edges_link, he, List.mem_append, List.mem_singleton] at hemem
    rcases hemem with hemem | rfl
    · obtain ⟨A, B, hA, hB, hAB⟩ := h.sound e hemem
      exact ⟨A, B, hx _ A hA, hx _ B hB, hAB⟩
    · exact ⟨M, K, hx v M hv, hw, ht⟩
  order := by
    have hf : (List.range v).flatMap (H.link v w t).firings = (List.range v).flatMap G.firings := by
      apply List.flatMap_congr
      intro i hi
      exact hx.firings_eq ((List.mem_range.mp hi).trans_le h.bound)
    rw [toList_edges_link, he, hf, List.map_append, h.order]
    simp

lemma Frontier.expand (h : Frontier N v fired G) (hv : G.vertices[v]? = some M)
    (hok : expand limit v M G t = .ok H) : Frontier N v (fired ++ [t.id]) H ∧ Extends G H := by
  have hM := h.reachable v M hv
  have hx := expansion h.consistent limit v M t
  rw [hok] at hx
  cases hx with
  | @known K L i ht hL hLK =>
    have hK := hM.tail ht
    obtain rfl := (h.reachable i L hL).eq_of_marking_eq hK hLK
    exact ⟨h.link hv ht (fun _ _ hi => hi) h.consistent rfl h.reachable hL, fun _ _ hi => hi⟩
  | @fresh K H ht hnew hH hvert he hl =>
    have hext : Extends G H := extends_push hvert
    refine ⟨h.link hv ht hext hH he ?_ ?_, hext⟩
    · intro i L hi
      rw [hvert, Array.getElem?_push] at hi
      split at hi
      · cases hi
        exact hM.tail ht
      · exact h.reachable i L hi
    · rw [hvert]
      exact Array.getElem?_push_size

lemma Frontier.foldlM {ts : List Transition} (h : Frontier N v fired G) (hv : G.vertices[v]? = some M)
    (hok : ts.foldlM (MarkingGraph.expand limit v M) G = .ok H) :
    Frontier N v (fired ++ ts.map Transition.id) H ∧ Extends G H := by
  induction ts generalizing fired G with
  | nil =>
    cases hok
    exact ⟨by simpa using h, fun _ _ hi => hi⟩
  | cons t ts ih =>
    rw [List.foldlM_cons] at hok
    obtain ⟨G', hG', hH⟩ := bind_eq_ok.mp hok
    obtain ⟨h', hx'⟩ := h.expand hv hG'
    obtain ⟨hF, hx⟩ := ih h' (hx' v M hv) hH
    exact ⟨by simpa using hF, fun i L hi => hx i L (hx' i L hi)⟩

lemma Frontier.next (h : Frontier N v (M.enabled.map Transition.id) G) (hv : G.vertices[v]? = some M) :
    Frontier N (v + 1) [] G where
  consistent := h.consistent
  initial := h.initial
  bound := (Array.getElem?_eq_some_iff.mp hv).1
  reachable := h.reachable
  sound := h.sound
  order := by
    rw [h.order, List.range_succ, List.flatMap_append]
    simp [firings_eq hv]

/-- Vertices differ in their markings on the places of `N`, and there are only so many of these. -/
lemma Consistent.size_le (h : G.Consistent)
    (hr : ∀ (i : ℕ) (M : Net), G.vertices[i]? = some M → N.Reachable M) :
    G.vertices.size ≤ N.marking.alternatives := by
  let level (i : Fin G.vertices.size) (p : Fin N.marking.ids.length) : Fin (Numeral.largest + 1) :=
    ⟨(G.vertices[i].marking.tokens N.marking.ids[p]).toNat, Nat.lt_succ_of_le (Marking.tokens_le _ _)⟩
  have hvert (i : Fin G.vertices.size) : G.vertices[i.val]? = some G.vertices[i] :=
    Array.getElem?_eq_getElem i.isLt
  have hinj : Function.Injective level := by
    intro i j hij
    have hi := (hr i _ (hvert i)).ids_eq
    have hj := (hr j _ (hvert j)).ids_eq
    apply Fin.ext
    apply h.injective (hvert i) (hvert j)
    apply Marking.ext_tokens (hi.trans hj.symm)
    intro p hp
    obtain ⟨k, hk, rfl⟩ := List.getElem_of_mem (hi ▸ hp)
    have hlevel := congrArg Fin.val (congrFun hij ⟨k, hk⟩)
    exact UInt32.toNat_inj.mp hlevel
  have hcard := Fintype.card_le_of_injective level hinj
  rw [Fintype.card_fin, Fintype.card_fun, Fintype.card_fin, Fintype.card_fin] at hcard
  simpa [Marking.alternatives, Marking.ids] using hcard

lemma Frontier.visit {visits : ℕ} (h : Frontier N v [] G) (hv : N.marking.alternatives ≤ v + visits)
    (hok : visit limit visits v G = .ok H) : Frontier N H.vertices.size [] H := by
  induction visits generalizing v G with
  | zero =>
    cases hok
    have hsize := h.consistent.size_le h.reachable
    have hbound := h.bound
    obtain rfl : v = H.vertices.size := by omega
    exact h
  | succ visits ih =>
    rw [MarkingGraph.visit] at hok
    cases hM : G.vertices[v]? with
    | none =>
      rw [hM] at hok
      cases hok
      obtain rfl : v = H.vertices.size := Nat.le_antisymm h.bound (Array.getElem?_eq_none_iff.mp hM)
      exact h
    | some M =>
      rw [hM] at hok
      obtain ⟨G', hG', hH⟩ := bind_eq_ok.mp hok
      obtain ⟨h', hx⟩ := h.foldlM hM hG'
      exact ih (h'.next (hx v M hM)) (by omega) hH

lemma frontier_explore {budget : Budget} (h : explore budget N = .ok G) : Frontier N G.vertices.size [] G :=
  (frontier_ofNet N).visit (by omega) h

lemma Frontier.mem_order (h : Frontier N G.vertices.size [] G) {i : ℕ} {t : String}
    (hi : G.vertices[i]? = some M) (ht : M.isEnabled t = true) :
    ∃ j K, ⟨i, j, t⟩ ∈ G.edges.toList ∧ G.vertices[j]? = some K ∧ M.fire t = .ok K := by
  have hmem : (i, t) ∈ G.edges.toList.map fun e => (e.source, e.fired) := by
    rw [h.order, List.map_nil, List.append_nil, List.mem_flatMap]
    refine ⟨i, List.mem_range.mpr (Array.getElem?_eq_some_iff.mp hi).1, ?_⟩
    obtain ⟨u, hu, rfl⟩ := Net.isEnabled_iff_mem_enabled.mp ht
    rw [firings_eq hi]
    exact List.mem_map.mpr ⟨u, hu, rfl⟩
  obtain ⟨⟨_, j, _⟩, he, heq⟩ := List.mem_map.mp hmem
  cases heq
  obtain ⟨A, K, hA, hK, hAK⟩ := h.sound _ he
  obtain rfl : M = A := Option.some.inj (hi.symm.trans hA)
  exact ⟨j, K, he, hK, hAK⟩

lemma Frontier.complete (h : Frontier N G.vertices.size [] G) (hM : N.Reachable M) :
    ∃ i : ℕ, G.vertices[i]? = some M := by
  refine hM.induction (P := fun M => ∃ i : ℕ, G.vertices[i]? = some M) ⟨0, h.initial⟩ ?_
  rintro M t K - ⟨i, hi⟩ ht
  obtain ⟨j, L, -, hj, hL⟩ := h.mem_order hi (Net.isEnabled_of_fire ht)
  rw [ht, Except.ok.injEq] at hL
  exact ⟨j, hL ▸ hj⟩

lemma Frontier.mem_vertices (h : Frontier N G.vertices.size [] G) : M ∈ G.vertices.toList ↔ N.Reachable M := by
  rw [List.mem_iff_getElem?]
  simp only [Array.getElem?_toList]
  exact ⟨fun ⟨i, hi⟩ => h.reachable i M hi, h.complete⟩

lemma Frontier.exists_fired_iff (h : Frontier N G.vertices.size [] G) {t : String} :
    (∃ e ∈ G.edges.toList, e.fired = t) ↔ ∃ M, N.Reachable M ∧ M.isEnabled t = true := by
  constructor
  · rintro ⟨e, he, rfl⟩
    obtain ⟨M, K, hM, _, hMK⟩ := h.sound e he
    exact ⟨M, h.reachable _ M hM, Net.isEnabled_of_fire hMK⟩
  · rintro ⟨M, hM, ht⟩
    obtain ⟨i, hi⟩ := h.complete hM
    obtain ⟨j, K, he, _⟩ := h.mem_order hi ht
    exact ⟨_, he, rfl⟩

lemma fst_of_mem_firings {x : ℕ × String} (hx : x ∈ G.firings v) : x.1 = v := by
  rw [firings] at hx
  split at hx
  · obtain ⟨t, _, rfl⟩ := List.mem_map.mp hx
    rfl
  · cases hx

lemma Frontier.ascending_edges (h : Frontier N v [] G) : G.edges.toList.Pairwise fun e f =>
    e.source < f.source ∨ e.source = f.source ∧ e.fired < f.fired := by
  have hfirings : ((List.range v).flatMap G.firings).Pairwise fun x y => x.1 < y.1 ∨ x.1 = y.1 ∧ x.2 < y.2 := by
    refine List.pairwise_flatMap.mpr ⟨fun i _ => ?_, ?_⟩
    · rw [firings]
      split
      · next M _ =>
        apply List.pairwise_map.mpr
        exact (M.ascending.sublist List.filter_sublist).imp fun hlt => Or.inr ⟨rfl, hlt⟩
      · exact List.Pairwise.nil
    · refine List.pairwise_lt_range.imp fun hij x hx y hy => Or.inl ?_
      rw [fst_of_mem_firings hx, fst_of_mem_firings hy]
      exact hij
  have horder := h.order
  rw [List.map_nil, List.append_nil] at horder
  rw [← horder] at hfirings
  exact List.pairwise_map.mp hfirings

lemma Frontier.nodup_edges (h : Frontier N v [] G) : G.edges.toList.Nodup := by
  refine h.ascending_edges.imp ?_
  rintro e _ (hlt | ⟨_, hlt⟩) rfl
  · exact Nat.lt_irrefl _ hlt
  · exact String.lt_irrefl _ hlt

structure IsReachabilityGraph (N : Net) (G : MarkingGraph) : Prop where
  initial : G.initial = N ∧ G.vertices[0]? = some N
  distinct : G.markings.Nodup
  reachable : ∀ m, m ∈ G.markings ↔ ∃ ts M, N.run ts = .ok M ∧ M.marking = m
  nets : ∀ M ∈ G.vertices.toList, M = N.withMarking M.marking
  edges_nodup : G.edges.toList.Nodup
  edge : ∀ i j t, ⟨i, j, t⟩ ∈ G.edges.toList ↔
    ∃ M K L, G.vertices[i]? = some M ∧ M.isEnabled t = true ∧ M.fire t = .ok K ∧
      G.vertices[j]? = some L ∧ L.marking = K.marking
  final : ∀ v, v ∈ G.finals ↔ ∃ M, G.vertices[v]? = some M ∧ ∀ t, M.isEnabled t = false

lemma Frontier.isReachabilityGraph (h : Frontier N G.vertices.size [] G) : IsReachabilityGraph N G where
  initial := by
    refine ⟨?_, h.initial⟩
    have hget := Array.getElem?_eq_getElem G.nonempty
    exact Option.some.inj (hget.symm.trans h.initial)
  distinct := h.consistent.nodup_markings
  reachable m := by
    rw [mem_markings]
    constructor
    · rintro ⟨i, M, hi, hM⟩
      obtain ⟨ts, hts⟩ := h.reachable i M hi
      exact ⟨ts, M, hts, hM⟩
    · rintro ⟨ts, M, hts, hM⟩
      obtain ⟨i, hi⟩ := h.complete ⟨ts, hts⟩
      exact ⟨i, M, hi, hM⟩
  nets M hM := by
    obtain ⟨i, hi⟩ := List.mem_iff_getElem?.mp hM
    exact (h.reachable i M (by simpa using hi)).eq_withMarking
  edges_nodup := h.nodup_edges
  edge i j t := by
    constructor
    · intro he
      obtain ⟨M, K, hM, hK, hMK⟩ := h.sound _ he
      exact ⟨M, K, K, hM, Net.isEnabled_of_fire hMK, hMK, hK, rfl⟩
    · rintro ⟨M, K, L, hM, ht, hMK, hL, hLK⟩
      obtain ⟨j', K', he, hj', hMK'⟩ := h.mem_order hM ht
      rw [hMK, Except.ok.injEq] at hMK'
      obtain rfl := h.consistent.injective hL hj' (hMK' ▸ hLK)
      exact he
  final v := by
    rw [h.consistent.mem_finals]
    constructor
    · rintro ⟨hv, hnone⟩
      refine ⟨_, Array.getElem?_eq_getElem hv, fun t => ?_⟩
      by_contra ht
      obtain ⟨j, K, he, _⟩ := h.mem_order (Array.getElem?_eq_getElem hv) (Bool.not_eq_false _ ▸ ht)
      exact hnone _ he rfl
    · rintro ⟨M, hM, hnone⟩
      refine ⟨(Array.getElem?_eq_some_iff.mp hM).1, ?_⟩
      rintro e he rfl
      obtain ⟨A, K, hA, _, hAK⟩ := h.sound e he
      obtain rfl : M = A := Option.some.inj (hM.symm.trans hA)
      exact absurd (Net.isEnabled_of_fire hAK) (by simp [hnone])

end Petri.MarkingGraph
