import Mathlib
import Petri.Proofs.MarkingGraph.Exploration

/-! The numbers of the vertices are a breadth-first numbering. Neither the sources of the first edges nor the depths
that they give can fall along the numbers, so the depth of a vertex is its distance from the start. -/

namespace Petri

def Net.lengths (N : Net) (m : Marking) : Set ℕ :=
  {n | ∃ ts K, N.run ts = .ok K ∧ K.marking = m ∧ ts.length = n}

noncomputable def Net.distance (N : Net) (m : Marking) : ℕ :=
  sInf (N.lengths m)

namespace MarkingGraph

variable {G H : MarkingGraph} {N M K : Net} {t : Transition} {limit : Option ℕ} {budget : Budget} {v w x n : ℕ}
  {e : Edge} {edges : List Edge}

def leadsTo (w : ℕ) (e : Edge) : Bool :=
  e.target = w

/-- Of `n` vertices each but the first was found by the first edge that leads to it, one after the other. -/
structure Discovery (edges : List Edge) (n : ℕ) : Prop where
  target_lt : ∀ e ∈ edges, e.target < n
  found : ∀ w, 0 < w → w < n → ∃ e, edges.find? (leadsTo w) = some e ∧ e.source < w
  ordered : ∀ w x, 0 < w → w < x → x < n → edges.findIdx (leadsTo w) < edges.findIdx (leadsTo x)

lemma Discovery.findIdx_lt (h : Discovery edges n) (hw : 0 < w) (hn : w < n) :
    edges.findIdx (leadsTo w) < edges.length := by
  obtain ⟨e, he, _⟩ := h.found w hw hn
  exact List.findIdx_lt_length.mpr ⟨e, List.mem_of_find?_eq_some he, List.find?_some he⟩

lemma Discovery.findIdx_concat (h : Discovery edges n) (hw : 0 < w) (hn : w < n) (e : Edge) :
    (edges ++ [e]).findIdx (leadsTo w) = edges.findIdx (leadsTo w) := by
  rw [List.findIdx_append, if_pos (h.findIdx_lt hw hn)]

lemma Discovery.found_concat (h : Discovery edges n) (hw : 0 < w) (hn : w < n) (e : Edge) :
    ∃ d, (edges ++ [e]).find? (leadsTo w) = some d ∧ d.source < w := by
  obtain ⟨d, hd, hlt⟩ := h.found w hw hn
  refine ⟨d, ?_, hlt⟩
  rw [List.find?_append, hd, Option.some_or]

lemma Discovery.known (h : Discovery edges n) (he : e.target < n) : Discovery (edges ++ [e]) n where
  target_lt d hd := by
    rcases List.mem_append.mp hd with hd | hd
    · exact h.target_lt d hd
    · rwa [List.mem_singleton.mp hd]
  found w hw hn := h.found_concat hw hn e
  ordered w x hw hx hn := by
    rw [h.findIdx_concat hw (hx.trans hn), h.findIdx_concat (hw.trans hx) hn]
    exact h.ordered w x hw hx hn

lemma Discovery.findIdx_eq_length (h : Discovery edges n) : edges.findIdx (leadsTo n) = edges.length := by
  apply List.findIdx_eq_length.mpr
  intro e he
  simpa [leadsTo] using (h.target_lt e he).ne

lemma Discovery.fresh (h : Discovery edges n) (hs : e.source < n) (he : e.target = n) :
    Discovery (edges ++ [e]) (n + 1) where
  target_lt d hd := by
    rcases List.mem_append.mp hd with hd | hd
    · exact (h.target_lt d hd).trans n.lt_succ_self
    · rw [List.mem_singleton.mp hd, he]
      exact n.lt_succ_self
  found w hw hn := by
    rcases Nat.lt_succ_iff_lt_or_eq.mp hn with hn | rfl
    · exact h.found_concat hw hn e
    · refine ⟨e, ?_, hs⟩
      have hnone : edges.find? (leadsTo w) = none := by
        rw [List.find?_eq_getElem?_findIdx, h.findIdx_eq_length, List.getElem?_eq_none le_rfl]
      rw [List.find?_append, hnone, Option.none_or]
      simp [leadsTo, he]
  ordered w x hw hx hn := by
    rcases Nat.lt_succ_iff_lt_or_eq.mp hn with hn | rfl
    · rw [h.findIdx_concat hw (hx.trans hn), h.findIdx_concat (hw.trans hx) hn]
      exact h.ordered w x hw hx hn
    · rw [h.findIdx_concat hw hx, List.findIdx_append, h.findIdx_eq_length, if_neg (lt_irrefl _)]
      exact (h.findIdx_lt hw hx).trans_le (Nat.le_add_left _ _)

lemma Discovery.expand (h : Discovery G.edges.toList G.vertices.size) (hG : G.Consistent) (hv : v < G.vertices.size)
    (hok : expand limit v M G t = .ok H) : Discovery H.edges.toList H.vertices.size := by
  have hx := expansion hG limit v M t
  rw [hok] at hx
  cases hx with
  | known _ hL _ =>
    rw [toList_edges_link]
    exact h.known (Array.getElem?_eq_some_iff.mp hL).1
  | fresh _ _ _ hvert hedges _ =>
    rw [toList_edges_link, vertices_link, hedges, hvert, Array.size_push]
    exact h.fresh hv rfl

lemma discovery_ofNet (N : Net) : Discovery (ofNet N).edges.toList (ofNet N).vertices.size where
  target_lt e he := by simp [ofNet] at he
  found w hw hn := absurd (Nat.lt_one_iff.mp hn) hw.ne'
  ordered w x hw hx hn := absurd (Nat.lt_one_iff.mp hn) (hw.trans hx).ne'

/-- Every firing on the way of an exploration keeps `P`. -/
def Kept (limit : Option ℕ) (N : Net) (P : MarkingGraph → Prop) : Prop :=
  ∀ v M fired G t H, Frontier N v fired G → G.vertices[v]? = some M → P G → expand limit v M G t = .ok H → P H

lemma Kept.foldlM {P : MarkingGraph → Prop} (hstep : Kept limit N P) {ts : List Transition} (hF : Frontier N v [] G)
    (hM : G.vertices[v]? = some M) (hP : P G) (hok : ts.foldlM (MarkingGraph.expand limit v M) G = .ok H) : P H := by
  have hfold := foldlM_induction
    (P := fun G => (∃ fired, Frontier N v fired G) ∧ G.vertices[v]? = some M ∧ P G) hok ⟨⟨[], hF⟩, hM, hP⟩ ?_
  · exact hfold.2.2
  · rintro G t G' _ ⟨⟨fired, hF⟩, hM, hP⟩ hG'
    obtain ⟨hF', hx⟩ := hF.expand hM hG'
    exact ⟨⟨_, hF'⟩, hx v M hM, hstep v M fired G t G' hF hM hP hG'⟩

lemma Kept.visit {P : MarkingGraph → Prop} (hstep : Kept limit N P) {visits : ℕ} (hF : Frontier N v [] G) (hP : P G)
    (hok : MarkingGraph.visit limit visits v G = .ok H) : P H := by
  induction visits generalizing v G with
  | zero =>
    cases hok
    exact hP
  | succ visits ih =>
    rw [MarkingGraph.visit] at hok
    cases hM : G.vertices[v]? with
    | none =>
      rw [hM] at hok
      cases hok
      exact hP
    | some M =>
      rw [hM] at hok
      obtain ⟨G', hG', hH⟩ := bind_eq_ok.mp hok
      obtain ⟨hF', hx⟩ := hF.foldlM hM hG'
      exact ih (hF'.next (hx v M hM)) (hstep.foldlM hF hM hP hG') hH

lemma discovery_explore (hok : explore budget N = .ok G) : Discovery G.edges.toList G.vertices.size := by
  have hstep : Kept budget.markings N fun G => Discovery G.edges.toList G.vertices.size := by
    intro v M fired G t H hF hM h hH
    exact h.expand hF.consistent (Array.getElem?_eq_some_iff.mp hM).1 hH
  exact hstep.visit (frontier_ofNet N) (discovery_ofNet N) hok

def parent (edges : List Edge) (w : ℕ) : ℕ :=
  ((edges.find? (leadsTo w)).map Edge.source).getD w

def depth (edges : List Edge) (w : ℕ) : ℕ :=
  if parent edges w < w then depth edges (parent edges w) + 1 else 0
termination_by w

lemma parent_eq (h : edges.find? (leadsTo w) = some e) : parent edges w = e.source := by
  rw [parent, h]
  rfl

lemma parent_le (hs : edges.Pairwise fun e f => e.source ≤ f.source) (he : e ∈ edges) :
    parent edges e.target ≤ e.source := by
  have hsome : (edges.find? (leadsTo e.target)).isSome := List.find?_isSome.mpr ⟨e, he, by simp [leadsTo]⟩
  obtain ⟨d, hd⟩ := Option.isSome_iff_exists.mp hsome
  obtain ⟨_, before, after, rfl, hnone⟩ := List.find?_eq_some_iff_append.mp hd
  rw [parent_eq hd]
  rcases List.mem_append.mp he with he | he
  · have hne := hnone e he
    simp [leadsTo] at hne
  · rcases List.mem_cons.mp he with rfl | he
    · exact le_rfl
    · exact (List.pairwise_cons.mp (List.pairwise_append.mp hs).2.1).1 e he

lemma Discovery.parent_lt (h : Discovery edges n) (hw : 0 < w) (hn : w < n) : parent edges w < w := by
  obtain ⟨e, he, hlt⟩ := h.found w hw hn
  rwa [parent_eq he]

lemma Discovery.parent_mono (h : Discovery edges n) (hs : edges.Pairwise fun e f => e.source ≤ f.source)
    (hw : 0 < w) (hx : w < x) (hn : x < n) : parent edges w ≤ parent edges x := by
  obtain ⟨e, he, _⟩ := h.found w hw (hx.trans hn)
  obtain ⟨f, hf, _⟩ := h.found x (hw.trans hx) hn
  rw [parent_eq he, parent_eq hf]
  rw [List.find?_eq_getElem?_findIdx] at he hf
  obtain ⟨hi, rfl⟩ := List.getElem?_eq_some_iff.mp he
  obtain ⟨hj, rfl⟩ := List.getElem?_eq_some_iff.mp hf
  exact List.pairwise_iff_getElem.mp hs _ _ hi hj (h.ordered w x hw hx hn)

lemma depth_zero (edges : List Edge) : depth edges 0 = 0 := by
  rw [depth, if_neg (Nat.not_lt_zero _)]

lemma Discovery.depth_eq (h : Discovery edges n) (hw : 0 < w) (hn : w < n) :
    depth edges w = depth edges (parent edges w) + 1 := by
  rw [depth, if_pos (h.parent_lt hw hn)]

lemma Discovery.depth_mono (h : Discovery edges n) (hs : edges.Pairwise fun e f => e.source ≤ f.source)
    (hx : w ≤ x) (hn : x < n) : depth edges w ≤ depth edges x := by
  induction x using Nat.strong_induction_on generalizing w with
  | _ x ih =>
    rcases hx.eq_or_lt with rfl | hx
    · exact le_rfl
    · rcases Nat.eq_zero_or_pos w with rfl | hw
      · rw [depth_zero]
        exact Nat.zero_le _
      · have hlt := h.parent_lt (hw.trans hx) hn
        rw [h.depth_eq hw (hx.trans hn), h.depth_eq (hw.trans hx) hn]
        exact Nat.succ_le_succ (ih _ hlt (h.parent_mono hs hw hx hn) (hlt.trans hn))

lemma Discovery.depth_le (h : Discovery edges n) (hs : edges.Pairwise fun e f => e.source ≤ f.source)
    (he : e ∈ edges) (hn : e.source < n) : depth edges e.target ≤ depth edges e.source + 1 := by
  rcases Nat.eq_zero_or_pos e.target with h0 | hpos
  · rw [h0, depth_zero]
    exact Nat.zero_le _
  · rw [h.depth_eq hpos (h.target_lt e he)]
    exact Nat.succ_le_succ (h.depth_mono hs (parent_le hs he) hn)

lemma Frontier.pairwise_source (h : Frontier N v [] G) : G.edges.toList.Pairwise fun e f => e.source ≤ f.source :=
  h.ascending_edges.imp fun hef => hef.elim Nat.le_of_lt fun hef => hef.1.le

lemma Frontier.depth_mem_lengths (h : Frontier N v [] G) (hd : Discovery G.edges.toList G.vertices.size)
    (hw : G.vertices[w]? = some M) : depth G.edges.toList w ∈ N.lengths M.marking := by
  induction w using Nat.strong_induction_on generalizing M with
  | _ w ih =>
    rcases Nat.eq_zero_or_pos w with rfl | hpos
    · obtain rfl : N = M := Option.some.inj (h.initial.symm.trans hw)
      exact ⟨[], N, rfl, rfl, (depth_zero _).symm⟩
    · have hn := (Array.getElem?_eq_some_iff.mp hw).1
      obtain ⟨e, he, hlt⟩ := hd.found w hpos hn
      obtain ⟨A, B, hA, hB, hAB⟩ := h.sound e (List.mem_of_find?_eq_some he)
      obtain rfl : e.target = w := by simpa [leadsTo] using List.find?_some he
      obtain rfl : B = M := Option.some.inj (hB.symm.trans hw)
      obtain ⟨ts, K, hts, hK, hlength⟩ := ih e.source hlt hA
      obtain rfl : K = A := Net.Reachable.eq_of_marking_eq ⟨ts, hts⟩ (h.reachable _ A hA) hK
      refine ⟨ts ++ [e.fired], B, Net.run_concat.mpr ⟨K, hts, hAB⟩, rfl, ?_⟩
      rw [hd.depth_eq hpos hn, parent_eq he, List.length_append, hlength]
      rfl

lemma Frontier.depth_le_length (h : Frontier N G.vertices.size [] G) (hd : Discovery G.edges.toList G.vertices.size)
    {ts : List String} (hts : N.run ts = .ok K) (hw : G.vertices[w]? = some K) :
    depth G.edges.toList w ≤ ts.length := by
  induction ts using List.reverseRecOn generalizing w K with
  | nil =>
    cases hts
    obtain rfl := h.consistent.injective hw h.initial rfl
    rw [depth_zero]
    exact Nat.zero_le _
  | append_singleton ts t ih =>
    obtain ⟨L, hL, hK⟩ := Net.run_concat.mp hts
    obtain ⟨i, hi⟩ := h.complete ⟨ts, hL⟩
    obtain ⟨j, K', he, hj, hK'⟩ := h.mem_order hi (Net.isEnabled_of_fire hK)
    obtain rfl : K = K' := Except.ok.inj (hK.symm.trans hK')
    obtain rfl := h.consistent.injective hw hj rfl
    have hstep := hd.depth_le h.pairwise_source he (Array.getElem?_eq_some_iff.mp hi).1
    have hrest := ih hL hi
    rw [List.length_append]
    exact hstep.trans (Nat.succ_le_succ hrest)

lemma Frontier.isLeast_depth (h : Frontier N G.vertices.size [] G) (hd : Discovery G.edges.toList G.vertices.size)
    (hw : G.vertices[w]? = some M) : IsLeast (N.lengths M.marking) (depth G.edges.toList w) := by
  refine ⟨h.depth_mem_lengths hd hw, ?_⟩
  rintro _ ⟨ts, K, hts, hK, rfl⟩
  obtain rfl : K = M := Net.Reachable.eq_of_marking_eq ⟨ts, hts⟩ (h.reachable w M hw) hK
  exact h.depth_le_length hd hts hw

lemma Frontier.distance_eq (h : Frontier N G.vertices.size [] G) (hd : Discovery G.edges.toList G.vertices.size)
    (hw : G.vertices[w]? = some M) : N.distance M.marking = depth G.edges.toList w :=
  (h.isLeast_depth hd hw).csInf_eq

structure IsBreadthFirst (N : Net) (G : MarkingGraph) : Prop where
  shortest : ∀ (i : ℕ) (M : Net), G.vertices[i]? = some M → IsLeast (N.lengths M.marking) (N.distance M.marking)
  monotone : ∀ (i j : ℕ) (M K : Net), i < j → G.vertices[i]? = some M → G.vertices[j]? = some K →
    N.distance M.marking ≤ N.distance K.marking
  ascending : G.edges.toList.Pairwise fun e f => e.source < f.source ∨ e.source = f.source ∧ e.fired < f.fired
  found : ∀ (j : ℕ) (K : Net), 0 < j → G.vertices[j]? = some K → ∃ e M, G.edges.toList.find? (leadsTo j) = some e ∧
    e.source < j ∧ G.vertices[e.source]? = some M ∧ N.distance K.marking = N.distance M.marking + 1
  ordered : ∀ j k, 0 < j → j < k → k < G.vertices.size →
    G.edges.toList.findIdx (leadsTo j) < G.edges.toList.findIdx (leadsTo k)

theorem explore_isBreadthFirst (hok : explore budget N = .ok G) : IsBreadthFirst N G := by
  have h := frontier_explore hok
  have hd := discovery_explore hok
  refine ⟨fun i M hi => ?_, fun i j M K hij hi hj => ?_, h.ascending_edges, fun j K hpos hj => ?_, hd.ordered⟩
  · rw [h.distance_eq hd hi]
    exact h.isLeast_depth hd hi
  · rw [h.distance_eq hd hi, h.distance_eq hd hj]
    exact hd.depth_mono h.pairwise_source hij.le (Array.getElem?_eq_some_iff.mp hj).1
  · have hn := (Array.getElem?_eq_some_iff.mp hj).1
    obtain ⟨e, he, hlt⟩ := hd.found j hpos hn
    obtain ⟨M, _, hM, _⟩ := h.sound e (List.mem_of_find?_eq_some he)
    refine ⟨e, M, he, hlt, hM, ?_⟩
    rw [h.distance_eq hd hM, h.distance_eq hd hj, hd.depth_eq hpos hn, parent_eq he]

def roundabout : Net where
  id := "roundabout"
  marking := ⟨[⟨"east", 0⟩, ⟨"north", 0⟩, ⟨"south", 1⟩, ⟨"west", 0⟩], by decide⟩
  transitions := [⟨"a", none⟩, ⟨"b", none⟩, ⟨"c", none⟩, ⟨"d", none⟩, ⟨"e", none⟩]
  arcs := [⟨"south", "a"⟩, ⟨"a", "east"⟩, ⟨"south", "b"⟩, ⟨"b", "west"⟩, ⟨"east", "c"⟩, ⟨"c", "north"⟩, ⟨"west", "d"⟩,
    ⟨"d", "north"⟩, ⟨"north", "e"⟩, ⟨"e", "south"⟩]
  ascending := by decide
  disjoint := by decide
  joins := by simp [Arc.Joins, Marking.ids]

theorem explore_isBreadthFirst_roundabout : ∃ G K, explore {} roundabout = .ok G ∧
    G.edges.toList = [⟨0, 1, "a"⟩, ⟨0, 2, "b"⟩, ⟨1, 3, "c"⟩, ⟨2, 3, "d"⟩, ⟨3, 0, "e"⟩] ∧
    G.vertices[3]? = some K ∧ roundabout.distance K.marking = 2 := by
  obtain ⟨G, hG⟩ := exists_eq_ok (x := explore {} roundabout) (by decide +kernel)
  have hedges : (explore {} roundabout).toOption.map (fun G => G.edges.toList) =
      some [⟨0, 1, "a"⟩, ⟨0, 2, "b"⟩, ⟨1, 3, "c"⟩, ⟨2, 3, "d"⟩, ⟨3, 0, "e"⟩] := by decide +kernel
  have hsize : (explore {} roundabout).toOption.map (fun G => G.vertices.size) = some 4 := by decide +kernel
  rw [hG] at hedges hsize
  replace hedges : G.edges.toList = _ := Option.some.inj hedges
  replace hsize : G.vertices.size = 4 := Option.some.inj hsize
  have hbfs := explore_isBreadthFirst hG
  have hlast : G.vertices[3]? = some G.vertices[3] := Array.getElem?_eq_getElem (by omega)
  obtain ⟨e, M, he, _, hM, hdistance⟩ := hbfs.found 3 _ (by decide) hlast
  rw [hedges] at he
  cases he
  obtain ⟨f, L, hf, _, hL, hdistance'⟩ := hbfs.found 1 M (by decide) hM
  rw [hedges] at hf
  cases hf
  obtain rfl : L = roundabout := Option.some.inj (hL.symm.trans (frontier_explore hG).initial)
  have hzero : roundabout.distance roundabout.marking = 0 :=
    Nat.sInf_eq_zero.mpr (Or.inl ⟨[], roundabout, rfl, rfl, rfl⟩)
  exact ⟨G, _, hG, hedges, hlast, by rw [hdistance, hdistance', hzero]⟩

end MarkingGraph

end Petri
