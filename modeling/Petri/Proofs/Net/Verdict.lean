import Mathlib
import Petri.Proofs.Net.Build
import Petri.Proofs.Net.Draft
import Petri.Proofs.Net.Nodes

/-! A description of a net has one result: the first id that is repeated, or else the fault of the first arc that has
one, or else the net. -/

namespace Petri

inductive Arc.Faulty (nodes : List Node) (a : Arc) : Error → Prop
  | source : a.source ∉ nodes.map Node.id → Faulty nodes a (.unknownNode a.source a.target a.source)
  | target : a.source ∈ nodes.map Node.id → a.target ∉ nodes.map Node.id →
      Faulty nodes a (.unknownNode a.source a.target a.target)
  | alike {x y : Node} : x ∈ nodes → y ∈ nodes → x.id = a.source → y.id = a.target → x.domain = y.domain →
      Faulty nodes a (.notBipartite a.source a.target)

lemma Arc.Faulty.perm {nodes nodes' : List Node} {a : Arc} {e : Error} (h : a.Faulty nodes e)
    (hperm : nodes.Perm nodes') : a.Faulty nodes' e := by
  have hids : ∀ s, s ∈ nodes.map Node.id ↔ s ∈ nodes'.map Node.id := fun s => (hperm.map Node.id).mem_iff
  cases h with
  | source hs => exact .source ((hids _).not.mp hs)
  | target hs ht => exact .target ((hids _).mp hs) ((hids _).not.mp ht)
  | alike hx hy hxs hyt hd => exact .alike (hperm.mem_iff.mp hx) (hperm.mem_iff.mp hy) hxs hyt hd

namespace Net

inductive Verdict (id : String) (nodes : List Node) (arcs : List Arc) : Except Error Net → Prop
  | repeated {before after : List Node} {x : Node} : nodes = before ++ x :: after → (before.map Node.id).Nodup →
      x.id ∈ before.map Node.id → Verdict id nodes arcs (.error (.duplicateNode x.id))
  | faulty {before after : List Arc} {a : Arc} {e : Error} : (nodes.map Node.id).Nodup → arcs = before ++ a :: after →
      (∀ b ∈ before, ∀ e, ¬ b.Faulty nodes e) → a.Faulty nodes e → Verdict id nodes arcs (.error e)
  | net {N : Net} : (nodes.map Node.id).Nodup → (∀ a ∈ arcs, ∀ e, ¬ a.Faulty nodes e) → N.id = id →
      N.nodes.Perm nodes → N.arcs = arcs → Verdict id nodes arcs (.ok N)

def placeIds (nodes : List Node) : List String :=
  (Marking.ofPlaces (nodes.filterMap Node.place?)).ids

def transitionIds (nodes : List Node) : List String :=
  (Sorted.ofListBy Transition.id (nodes.filterMap Node.transition?)).map Transition.id

variable {id : String} {nodes nodes' : List Node} {arcs : List Arc} {N M : Net} {a : Arc} {e : Error} {s : String}

lemma mem_placeIds : s ∈ placeIds nodes ↔ ∃ x ∈ nodes, x.id = s ∧ x.domain = .state := by
  rw [placeIds, Marking.ids, Marking.ofPlaces, Sorted.mem_keys_ofListBy, List.mem_map]
  constructor
  · rintro ⟨p, hp, rfl⟩
    obtain ⟨x, hx, hxp⟩ := List.mem_filterMap.mp hp
    cases x with
    | place q =>
      cases hxp
      exact ⟨_, hx, rfl, rfl⟩
    | transition t => cases hxp
  · rintro ⟨x, hx, rfl, hd⟩
    cases x with
    | place p => exact ⟨p, List.mem_filterMap.mpr ⟨_, hx, rfl⟩, rfl⟩
    | transition t => cases hd

lemma mem_transitionIds : s ∈ transitionIds nodes ↔ ∃ x ∈ nodes, x.id = s ∧ x.domain = .transition := by
  rw [transitionIds, Sorted.mem_keys_ofListBy, List.mem_map]
  constructor
  · rintro ⟨t, ht, rfl⟩
    obtain ⟨x, hx, hxt⟩ := List.mem_filterMap.mp ht
    cases x with
    | place p => cases hxt
    | transition u =>
      cases hxt
      exact ⟨_, hx, rfl, rfl⟩
  · rintro ⟨x, hx, rfl, hd⟩
    cases x with
    | place p => cases hd
    | transition t => exact ⟨t, List.mem_filterMap.mpr ⟨_, hx, rfl⟩, rfl⟩

lemma unknown_iff : (s ∉ placeIds nodes ∧ s ∉ transitionIds nodes) ↔ s ∉ nodes.map Node.id := by
  rw [← not_or, mem_placeIds, mem_transitionIds, List.mem_map]
  apply not_congr
  constructor
  · rintro (⟨x, hx, hs, -⟩ | ⟨x, hx, hs, -⟩) <;> exact ⟨x, hx, hs⟩
  · rintro ⟨x, hx, hs⟩
    cases hd : x.domain with
    | state => exact Or.inl ⟨x, hx, hs, hd⟩
    | transition => exact Or.inr ⟨x, hx, hs, hd⟩

lemma mem_placeIds_iff_domain (h : (nodes.map Node.id).Nodup) {x : Node} (hx : x ∈ nodes) :
    x.id ∈ placeIds nodes ↔ x.domain = .state := by
  rw [mem_placeIds]
  constructor
  · rintro ⟨y, hy, hid, hd⟩
    obtain rfl := eq_of_id_eq h hy hx hid
    exact hd
  · intro hd
    exact ⟨x, hx, rfl, hd⟩

lemma domain_eq_iff {d d' : Domain} : d = d' ↔ (d = .state ↔ d' = .state) := by
  cases d <;> cases d' <;> simp

lemma fault?_eq_some_iff (h : (nodes.map Node.id).Nodup) :
    a.fault? (placeIds nodes) (transitionIds nodes) = some e ↔ a.Faulty nodes e := by
  have halike : ∀ x ∈ nodes, ∀ y ∈ nodes, x.domain = y.domain ↔ (x.id ∈ placeIds nodes ↔ y.id ∈ placeIds nodes) := by
    intro x hx y hy
    rw [mem_placeIds_iff_domain h hx, mem_placeIds_iff_domain h hy, domain_eq_iff]
  simp only [Arc.fault?, unknown_iff]
  constructor
  · intro he
    split at he
    · next hs =>
      cases he
      exact .source hs
    · next hs =>
      rw [not_not] at hs
      split at he
      · next ht =>
        cases he
        exact .target hs ht
      · next ht =>
        obtain ⟨x, hx, hxs⟩ := List.mem_map.mp hs
        obtain ⟨y, hy, hyt⟩ := List.mem_map.mp (not_not.mp ht)
        split at he
        · next hsame =>
          cases he
          rw [← hxs, ← hyt] at hsame
          exact .alike hx hy hxs hyt ((halike x hx y hy).mpr hsame)
        · cases he
  · intro he
    cases he with
    | source hs => rw [if_pos hs]
    | target hs ht => rw [if_neg (not_not.mpr hs), if_pos ht]
    | @alike x y hx hy hxs hyt hd =>
      have hsame := (halike x hx y hy).mp hd
      rw [← hxs, ← hyt, if_neg (not_not.mpr (List.mem_map_of_mem hx)), if_neg (not_not.mpr (List.mem_map_of_mem hy)),
        if_pos hsame]

lemma fault?_eq_none_iff (h : (nodes.map Node.id).Nodup) :
    a.fault? (placeIds nodes) (transitionIds nodes) = none ↔ ∀ e, ¬ a.Faulty nodes e := by
  simp only [← fault?_eq_some_iff h, Option.eq_none_iff_forall_ne_some, ne_eq]

lemma perm_nodes_iff (h : (nodes.map Node.id).Nodup) : N.nodes.Perm nodes ↔ ∀ x, x ∈ N.nodes ↔ x ∈ nodes :=
  List.perm_ext_iff_of_nodup (Sorted.nodup_of_ascending (Sorted.ascending_ofListBy _ _)) (List.Nodup.of_map _ h)

lemma nodup_keys_filterMap {α : Type} {f : Node → Option α} {key : α → String} (hf : ∀ x, ∀ b ∈ f x, key b = x.id)
    (h : (nodes.map Node.id).Nodup) : ((nodes.filterMap f).map key).Nodup := by
  rw [List.Nodup, List.pairwise_map] at h
  rw [List.Nodup, List.pairwise_map, List.pairwise_filterMap]
  refine h.imp fun {x y} hne b hb c hc hbc => hne ?_
  rw [← hf x b hb, ← hf y c hc, hbc]

lemma mem_nodes_of_build (h : build id nodes arcs = .ok N) (x : Node) : x ∈ N.nodes ↔ x ∈ nodes := by
  obtain ⟨-, hnodup, hmarking, htransitions, -⟩ := build_ok h
  have hplaces : ∀ p, p ∈ N.marking.places ↔ p ∈ nodes.filterMap Node.place? := by
    intro p
    rw [hmarking]
    refine Sorted.mem_ofListBy (nodup_keys_filterMap ?_ hnodup)
    rintro (q | t) b hb <;> cases hb
    rfl
  have htransitions' : ∀ t, t ∈ N.transitions ↔ t ∈ nodes.filterMap Node.transition? := by
    intro t
    rw [htransitions]
    refine Sorted.mem_ofListBy (nodup_keys_filterMap ?_ hnodup)
    rintro (q | t) b hb <;> cases hb
    rfl
  rw [mem_nodes]
  simp only [hplaces, htransitions', List.mem_filterMap]
  constructor
  · rintro (⟨p, ⟨y, hy, hp⟩, rfl⟩ | ⟨t, ⟨y, hy, ht⟩, rfl⟩)
    · cases y <;> cases hp
      exact hy
    · cases y <;> cases ht
      exact hy
  · intro hx
    cases x with
    | place p => exact Or.inl ⟨p, ⟨_, hx, rfl⟩, rfl⟩
    | transition t => exact Or.inr ⟨t, ⟨_, hx, rfl⟩, rfl⟩

lemma eq_of_mem_nodes_iff (hid : N.id = M.id) (hnodes : ∀ x, x ∈ N.nodes ↔ x ∈ M.nodes) (harcs : N.arcs = M.arcs) :
    N = M := by
  have hplaces : N.marking.places = M.marking.places :=
    Sorted.eq_of_mem_iff N.marking.ascending M.marking.ascending fun p => by
      simpa [mem_nodes] using hnodes (.place p)
  have htransitions : N.transitions = M.transitions :=
    Sorted.eq_of_mem_iff N.ascending M.ascending fun t => by
      simpa [mem_nodes] using hnodes (.transition t)
  have hmarking : N.marking = M.marking := by
    rw [← N.marking.ofPlaces_places, hplaces, M.marking.ofPlaces_places]
  cases N
  cases M
  simp_all

lemma build_of_findSome? (h : (nodes.map Node.id).Nodup)
    (ha : arcs.findSome? (fun a => a.fault? (placeIds nodes) (transitionIds nodes)) = some e) :
    build id nodes arcs = .error e := by
  unfold build
  split
  · next hsome => cases (firstRepeat?_of_nodup h).symm.trans hsome
  · simp only
    split
    · next hfault =>
      cases hfault.symm.trans ha
      rfl
    · next hfault => cases hfault.symm.trans ha

lemma exists_build_of_not_faulty (id : String) (h : (nodes.map Node.id).Nodup)
    (harcs : ∀ a ∈ arcs, ∀ e, ¬ a.Faulty nodes e) : ∃ N, build id nodes arcs = .ok N :=
  exists_build_eq_ok h fun a ha => Arc.joins_of_fault? ((fault?_eq_none_iff h).mpr (harcs a ha))

lemma verdict_build (id : String) (nodes : List Node) (arcs : List Arc) :
    Verdict id nodes arcs (build id nodes arcs) := by
  cases hrepeat : firstRepeat? [] (nodes.map Node.id) with
  | some s =>
    obtain ⟨before, after, hsplit, hs, hnodup, -⟩ := firstRepeat?_eq_some_iff.mp hrepeat
    obtain ⟨front, rest, rfl, rfl, hrest⟩ := List.map_eq_append_iff.mp hsplit
    obtain ⟨x, back, rfl, rfl, rfl⟩ := List.map_eq_cons_iff.mp hrest
    rw [build_of_firstRepeat? hrepeat]
    exact .repeated rfl hnodup (hs.resolve_left List.not_mem_nil)
  | none =>
    have hnodup := (firstRepeat?_eq_none_iff.mp hrepeat).1
    cases hfault : arcs.findSome? fun a => a.fault? (placeIds nodes) (transitionIds nodes) with
    | some e =>
      obtain ⟨before, a, after, hsplit, ha, hbefore⟩ := List.findSome?_eq_some_iff.mp hfault
      rw [build_of_findSome? hnodup hfault]
      refine .faulty hnodup hsplit (fun b hb => ?_) ((fault?_eq_some_iff hnodup).mp ha)
      exact (fault?_eq_none_iff hnodup).mp (hbefore b hb)
    | none =>
      have hsound : ∀ a ∈ arcs, ∀ e, ¬ a.Faulty nodes e := fun a ha =>
        (fault?_eq_none_iff hnodup).mp (List.findSome?_eq_none_iff.mp hfault a ha)
      obtain ⟨N, hN⟩ := exists_build_of_not_faulty id hnodup hsound
      obtain ⟨hid, -, -, -, harcs⟩ := build_ok hN
      rw [hN]
      exact .net hnodup hsound hid ((perm_nodes_iff hnodup).mpr (mem_nodes_of_build hN)) harcs

lemma Verdict.eq_build {result : Except Error Net} (h : Verdict id nodes arcs result) :
    result = build id nodes arcs := by
  cases h with
  | @repeated before after x hsplit hnodup hx =>
    have hrepeat : firstRepeat? [] (nodes.map Node.id) = some x.id := by
      refine firstRepeat?_eq_some_iff.mpr ⟨before.map Node.id, after.map Node.id, ?_, Or.inr hx, hnodup, ?_⟩
      · rw [hsplit, List.map_append, List.map_cons]
      · exact fun _ _ => List.not_mem_nil
    exact (build_of_firstRepeat? hrepeat).symm
  | @faulty before after a e hnodup hsplit hbefore ha =>
    refine (build_of_findSome? hnodup (List.findSome?_eq_some_iff.mpr ⟨before, a, after, hsplit, ?_, fun b hb => ?_⟩)).symm
    · exact (fault?_eq_some_iff hnodup).mpr ha
    · exact (fault?_eq_none_iff hnodup).mpr (hbefore b hb)
  | @net N hnodup hsound hid hperm harcs =>
    obtain ⟨M, hM⟩ := exists_build_of_not_faulty id hnodup hsound
    obtain ⟨hidM, -, -, -, harcsM⟩ := build_ok hM
    have hmem : ∀ x, x ∈ N.nodes ↔ x ∈ M.nodes := fun x => hperm.mem_iff.trans (mem_nodes_of_build hM x).symm
    rw [hM, eq_of_mem_nodes_iff (hid.trans hidM.symm) hmem (harcs.trans harcsM.symm)]

lemma build_eq_ok_of_perm (hperm : nodes.Perm nodes') (h : build id nodes arcs = .ok N) :
    build id nodes' arcs = .ok N := by
  have hverdict := verdict_build id nodes arcs
  rw [h] at hverdict
  cases hverdict with
  | net hnodup hsound hid hnodes harcs =>
    refine (Verdict.eq_build (.net ?_ (fun a ha e he => ?_) hid (hnodes.trans hperm) harcs)).symm
    · exact (hperm.map Node.id).nodup_iff.mp hnodup
    · exact hsound a ha e (he.perm hperm.symm)

lemma verdict_iff {result : Except Error Net} : Verdict id nodes arcs result ↔ result = build id nodes arcs :=
  ⟨Verdict.eq_build, fun h => h ▸ verdict_build id nodes arcs⟩

theorem build_verdict (id : String) (nodes : List Node) (arcs : List Arc) :
    (∀ result, Verdict id nodes arcs result ↔ result = build id nodes arcs) ∧
    (∀ nodes', nodes.Perm nodes' → ∀ N, build id nodes arcs = .ok N ↔ build id nodes' arcs = .ok N) ∧
    ∀ (D : Draft) (calls : List Draft.Call) (result : Except Error Net),
      Verdict D.id (D.nodes.toList ++ calls.flatMap Draft.Call.nodes) (D.arcs.toList ++ calls.flatMap Draft.Call.arcs)
        result ↔ result = (calls.foldl Draft.call D).build := by
  refine ⟨fun result => verdict_iff, fun nodes' hperm N => ?_, fun D calls result => ?_⟩
  · exact ⟨build_eq_ok_of_perm hperm, build_eq_ok_of_perm hperm.symm⟩
  · rw [Draft.build_foldl_call]
    exact verdict_iff

def kitchenCalls : List Draft.Call :=
  [.wire "cook" none ["pot"] ["bowl"], .place "pot" 1, .place "bowl" 0, .arc "pot" "bowl", .arc "pan" "lid"]

theorem build_verdict_kitchen :
    Verdict "kitchen" [.place ⟨"pot", 1⟩, .transition ⟨"cook", none⟩, .transition ⟨"pot", none⟩, .place ⟨"cook", 0⟩]
      [⟨"pan", "pot"⟩] (.error (.duplicateNode "pot")) ∧
    Verdict "kitchen" [.place ⟨"pot", 1⟩, .transition ⟨"cook", none⟩]
      [⟨"pot", "cook"⟩, ⟨"pan", "lid"⟩, ⟨"pot", "pot"⟩] (.error (.unknownNode "pan" "lid" "pan")) ∧
    Verdict "kitchen" [.transition ⟨"cook", none⟩, .place ⟨"pot", 1⟩, .place ⟨"bowl", 0⟩]
      [⟨"pot", "cook"⟩, ⟨"cook", "bowl"⟩, ⟨"pot", "bowl"⟩, ⟨"pan", "lid"⟩] (.error (.notBipartite "pot" "bowl")) ∧
    (kitchenCalls.foldl Draft.call { id := "kitchen" }).build = .error (.notBipartite "pot" "bowl") ∧
    ∃ N, build "kitchen" [.transition ⟨"cook", none⟩, .place ⟨"pot", 1⟩] [⟨"pot", "cook"⟩] = .ok N ∧
      build "kitchen" [.place ⟨"pot", 1⟩, .transition ⟨"cook", none⟩] [⟨"pot", "cook"⟩] = .ok N := by
  have hbowl : Verdict "kitchen" [.transition ⟨"cook", none⟩, .place ⟨"pot", 1⟩, .place ⟨"bowl", 0⟩]
      [⟨"pot", "cook"⟩, ⟨"cook", "bowl"⟩, ⟨"pot", "bowl"⟩, ⟨"pan", "lid"⟩] (.error (.notBipartite "pot" "bowl")) :=
    ((build_verdict _ _ _).1 _).mpr rfl
  obtain ⟨N, hN⟩ : ∃ N, build "kitchen" [.transition ⟨"cook", none⟩, .place ⟨"pot", 1⟩] [⟨"pot", "cook"⟩] = .ok N :=
    ⟨_, rfl⟩
  refine ⟨((build_verdict _ _ _).1 _).mpr rfl, ((build_verdict _ _ _).1 _).mpr rfl, hbowl, ?_, N, hN, ?_⟩
  · exact (((build_verdict "kitchen" [] []).2.2 { id := "kitchen" } kitchenCalls _).mp hbowl).symm
  · exact ((build_verdict _ _ _).2.1 _ (List.Perm.swap _ _ _) N).mp hN

end Net

end Petri
