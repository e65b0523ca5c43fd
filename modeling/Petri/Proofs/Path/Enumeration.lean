import Mathlib
import Petri.Proofs.MarkingGraph.Edited
import Petri.Proofs.Path.LiveGraph
import Petri.Proofs.Path.Stack

/-! Each path that goes on until it comes back to itself or to an end is listed once, and no other is. A limit is
exceeded exactly when there are more paths of one kind. -/

namespace Petri

/-- A path along `r` whose vertices are distinct but for the last, which comes back to an earlier one or has no successor. -/
structure IsTruncated {α : Type} (r : α → α → Prop) (p : List α) : Prop where
  chain : p.IsChain r
  nodup : p.dropLast.Nodup
  ends : ∃ a, p.getLast? = some a ∧ (a ∈ p.dropLast ∨ (a ∉ p.dropLast ∧ ∀ b, ¬ r a b))

lemma Trail.isMaximal_iff {α : Type} {next : α → List α} {r : α → α → Prop} {p : List α}
    (hr : ∀ a ∈ p, ∀ b, r a b ↔ b ∈ next a) : Trail.IsMaximal next p ↔ IsTruncated r p := by
  have hchain : (p.IsChain fun a b => b ∈ next a) ↔ p.IsChain r :=
    List.IsChain.iff_of_mem_imp fun a b ha _ => (hr a ha b).symm
  constructor
  · rintro ⟨hp, init, last, rfl, hnodup, hlast⟩
    have hend : last ∈ init ∨ (last ∉ init ∧ ∀ b, ¬ r last b) := by
      by_cases hmem : last ∈ init
      · exact Or.inl hmem
      · refine Or.inr ⟨hmem, fun b hb => ?_⟩
        rw [hr last (by simp), hlast.resolve_left hmem] at hb
        cases hb
    exact ⟨hchain.mp hp, by simpa using hnodup, last, by simp, by simpa using hend⟩
  · rintro ⟨hp, hnodup, last, hget, hend⟩
    obtain ⟨init, rfl⟩ := List.getLast?_eq_some_iff.mp hget
    rw [List.dropLast_concat] at hnodup hend
    refine ⟨hchain.mpr hp, init, last, rfl, hnodup, hend.imp_right fun hnone => ?_⟩
    refine List.eq_nil_iff_forall_not_mem.mpr fun b hb => hnone.2 b ?_
    exact (hr last (by simp) b).mpr hb

namespace PathSet

variable {G : MarkingGraph} {P : PathSet} {p : List String}

lemma spans_onward (h : G.Tracked) : Search.Spans (List.range G.adjacency.size) (onward G) where
  ascending := List.pairwise_lt_range
  ascending_next v := Sorted.ascending_ofList _
  closed v _ w hw := by
    obtain ⟨e, he, -, rfl⟩ := h.mem_successors.mp (Sorted.mem_ofList.mp hw)
    exact List.mem_range.mpr (h.ends_lt e he).2

lemma zero_mem_range (h : G.Tracked) : 0 ∈ List.range G.adjacency.size :=
  List.mem_range.mpr (G.nonempty.trans_le h.vertices_le)

lemma ascending_liveNodes (N : Net) (fired : List String) : Ascending (fun n => n) (liveNodes N fired) := by
  have hnodes : Ascending Node.id N.nodes := Sorted.ascending_ofListBy _ _
  rw [Ascending, liveNodes, List.pairwise_map]
  exact hnodes.filter _

lemma spans_follow (G : MarkingGraph) : Search.Spans (liveNodes G.initial G.fired) (follow G) where
  ascending := ascending_liveNodes _ _
  ascending_next _ := (Sorted.ascending_ofList _).filter _
  closed := follow_closed

lemma mem_markingPaths (h : G.Tracked) {p : List ℕ} :
    p ∈ (all G).markingPaths ↔ p.head? = some 0 ∧ IsTruncated G.Leads p := by
  have hnext : ∀ a ∈ p, ∀ b, G.Leads a b ↔ b ∈ onward G a := by
    intro a _ b
    rw [onward, Sorted.mem_ofList, h.mem_successors]
  rw [← Trail.isMaximal_iff hnext]
  exact Trail.mem_paths_start List.nodup_range (spans_onward h).closed (zero_mem_range h)

lemma isTruncated_liveArc {n : String} (hn : Live G.initial G n) (hhead : p.head? = some n) :
    Trail.IsMaximal (follow G) p ↔ IsTruncated (LiveArc G.initial G) p := by
  -- the two relations agree on the path because it stays among the live nodes
  have hiff (hp : p.IsChain fun a b => b ∈ follow G a) : ∀ a ∈ p, ∀ b, LiveArc G.initial G a b ↔ b ∈ follow G a := by
    intro a ha b
    rw [mem_follow, LiveArc]
    exact and_congr_right fun _ => and_iff_right (live_of_isChain hn hhead hp a ha)
  constructor
  · intro hmax
    exact (Trail.isMaximal_iff (hiff hmax.chain)).mp hmax
  · intro htrunc
    have hp := htrunc.chain.imp fun a b hab => mem_follow.mpr ⟨hab.1, hab.2.2⟩
    exact (Trail.isMaximal_iff (hiff hp)).mpr htrunc

structure IsExact (G : MarkingGraph) (P : PathSet) : Prop where
  net_eq : P.net = G.initial
  nodup_markingPaths : P.markingPaths.Nodup
  mem_markingPaths : ∀ p, p ∈ P.markingPaths ↔ p.head? = some 0 ∧ IsTruncated G.Leads p
  nodup_nodePaths : P.nodePaths.Nodup
  mem_nodePaths : ∀ p, p ∈ P.nodePaths ↔
    (∃ n, Live G.initial G n ∧ p.head? = some n) ∧ IsTruncated (LiveArc G.initial G) p
  ordered : P.nodePaths.Pairwise fun p q => ∀ a ∈ p.head?, ∀ b ∈ q.head?, a ≤ b
  alternating : ∀ p ∈ P.nodePaths, p.IsChain fun a b => ∃ d, G.initial.IsNode d a ∧ G.initial.IsNode d.other b

/-- The paths are what the search over a stack ends with, first from the first vertex, then from one live node after
another. -/
structure IsCompleted (G : MarkingGraph) (P : PathSet) : Prop where
  markings : Search.Completes (onward G) 0 P.markingPaths
  nodes : ∃ f : String → List (List String), P.nodePaths = (liveNodes G.initial G.fired).flatMap f ∧
    ∀ n, Live G.initial G n → Search.Completes (follow G) n (f n)

lemma isCompleted_all (h : G.Tracked) : IsCompleted G (all G) where
  markings := (spans_onward h).completes (zero_mem_range h)
  nodes := ⟨_, rfl, fun _ hn => (spans_follow G).completes (mem_liveNodes.mpr hn)⟩

lemma head?_of_mem_start {n : String} (hn : n ∈ liveNodes G.initial G.fired)
    (hp : p ∈ (Trail.start (liveNodes G.initial G.fired) n).paths (follow G)) : p.head? = some n :=
  ((Trail.mem_paths_start (nodup_liveNodes _ _) follow_closed hn).mp hp).1

lemma nodup_nodePaths (G : MarkingGraph) : (all G).nodePaths.Nodup := by
  have hv := nodup_liveNodes G.initial G.fired
  refine List.nodup_flatMap.mpr ⟨fun n hn => ?_, hv.imp_of_mem fun {a b} ha hb hab p hpa hpb => ?_⟩
  · exact (Trail.simple_start hv hn).nodup_paths follow_closed fun m =>
      Sorted.nodup_of_ascending ((spans_follow G).ascending_next m)
  · exact hab (Option.some.inj ((head?_of_mem_start ha hpa).symm.trans (head?_of_mem_start hb hpb)))

lemma ordered_nodePaths (G : MarkingGraph) :
    (all G).nodePaths.Pairwise fun p q => ∀ a ∈ p.head?, ∀ b ∈ q.head?, a ≤ b := by
  have hhead : ∀ n ∈ liveNodes G.initial G.fired, ∀ p ∈ (Trail.start (liveNodes G.initial G.fired) n).paths (follow G),
      ∀ a ∈ p.head?, a = n := by
    intro n hn p hp a ha
    rw [head?_of_mem_start hn hp, Option.mem_some] at ha
    exact ha.symm
  refine List.pairwise_flatMap.mpr ⟨fun n hn => ?_, ?_⟩
  · refine List.pairwise_of_forall_mem_list fun p hp q hq a ha b hb => ?_
    rw [hhead n hn p hp a ha, hhead n hn q hq b hb]
  · refine (ascending_liveNodes _ _).imp_of_mem fun {m n} hm hn hmn p hp q hq a ha b hb => ?_
    rw [hhead m hm p hp a ha, hhead n hn q hq b hb]
    exact Std.le_of_lt hmn

lemma alternating_of_isChain (hp : p.IsChain (LiveArc G.initial G)) :
    p.IsChain fun a b => ∃ d, G.initial.IsNode d a ∧ G.initial.IsNode d.other b := by
  refine hp.imp fun a b hab => ?_
  obtain ⟨d, hd⟩ : ∃ d, G.initial.IsNode d a := hab.2.1.elim (fun h => ⟨_, h⟩) fun h => ⟨_, h.1⟩
  exact ⟨d, hd, hd.other hab.1⟩

lemma isExact_all (h : G.Tracked) : IsExact G (all G) := by
  have hnodes : ∀ p, p ∈ (all G).nodePaths ↔
      (∃ n, Live G.initial G n ∧ p.head? = some n) ∧ IsTruncated (LiveArc G.initial G) p := by
    intro p
    rw [mem_nodePaths, ← exists_and_right]
    refine exists_congr fun n => ?_
    rw [and_assoc]
    exact and_congr_right fun hn => and_congr_right fun hhead => isTruncated_liveArc hn hhead
  exact {
    net_eq := rfl
    nodup_markingPaths := (Trail.simple_start List.nodup_range (zero_mem_range h)).nodup_paths (spans_onward h).closed
      fun v => Sorted.nodup_ofList _
    mem_markingPaths := fun _ => mem_markingPaths h
    nodup_nodePaths := nodup_nodePaths G
    mem_nodePaths := hnodes
    ordered := ordered_nodePaths G
    alternating := fun p hp => alternating_of_isChain ((hnodes p).mp hp).2.chain }

theorem ofGraph_exact (h : G.Edited) (m : Option ℕ) :
    ∃ P, ofGraph ⟨m, none⟩ G = .ok P ∧ IsExact G P ∧ IsCompleted G P :=
  ⟨all G, ofGraph_eq _ G, isExact_all h.tracked, isCompleted_all h.tracked⟩

def wheel : Net where
  id := "wheel"
  marking := ⟨[⟨"down", 1⟩, ⟨"up", 0⟩], by decide⟩
  transitions := [⟨"back", none⟩, ⟨"stop", none⟩, ⟨"turn", none⟩]
  arcs := [⟨"down", "turn"⟩, ⟨"turn", "up"⟩, ⟨"up", "back"⟩, ⟨"back", "down"⟩, ⟨"down", "stop"⟩, ⟨"down", "stop"⟩]
  ascending := by decide
  disjoint := by decide
  joins := by simp [Arc.Joins, Marking.ids]

theorem ofGraph_exact_wheel : ∃ G, MarkingGraph.explore {} wheel = .ok G ∧ (G.link 1 4 "turn").Edited ∧
    ∃ P, ofGraph ⟨none, none⟩ (G.link 1 4 "turn") = .ok P ∧ IsExact (G.link 1 4 "turn") P ∧
      IsCompleted (G.link 1 4 "turn") P ∧ P.markingPaths = [[0, 1, 0], [0, 1, 4]] ∧
      P.nodePaths = [["back", "down", "turn", "up", "back"], ["down", "turn", "up", "back", "down"],
        ["turn", "up", "back", "down", "turn"], ["up", "back", "down", "turn", "up"]] := by
  obtain ⟨G, hG⟩ := exists_eq_ok (x := MarkingGraph.explore {} wheel) (by decide +kernel)
  have hedited : (G.link 1 4 "turn").Edited := .link 1 4 "turn" (MarkingGraph.edited_explore hG)
  obtain ⟨P, hP, hexact, hcompleted⟩ := ofGraph_exact hedited none
  have hpaths : (MarkingGraph.explore {} wheel >>= fun G => ofGraph ⟨none, none⟩ (G.link 1 4 "turn")).toOption.map
      (fun P => (P.markingPaths, P.nodePaths)) = some ([[0, 1, 0], [0, 1, 4]],
        [["back", "down", "turn", "up", "back"], ["down", "turn", "up", "back", "down"],
          ["turn", "up", "back", "down", "turn"], ["up", "back", "down", "turn", "up"]]) := by decide +kernel
  rw [bind_eq_ok.mpr ⟨G, hG, hP⟩] at hpaths
  obtain ⟨hmarkings, hnodes⟩ := Prod.mk.inj (Option.some.inj hpaths)
  exact ⟨G, hG, hedited, P, hP, hexact, hcompleted, hmarkings, hnodes⟩

lemma ofGraph_of_lt {G : MarkingGraph} {l : ℕ} (m : Option ℕ)
    (h : l < (all G).markingPaths.length ∨ l < (all G).nodePaths.length) :
    ofGraph ⟨m, some l⟩ G = .error (.exhausted .paths l) := by
  rw [ofGraph_eq]
  by_cases hmarkings : l < (all G).markingPaths.length
  · simp only [Resource.within, if_pos hmarkings]
    rfl
  · simp only [Resource.within, if_neg hmarkings, if_pos (h.resolve_left hmarkings)]
    rfl

lemma ofGraph_of_le {G : MarkingGraph} {l : ℕ} (m : Option ℕ) (hmarkings : (all G).markingPaths.length ≤ l)
    (hnodes : (all G).nodePaths.length ≤ l) : ofGraph ⟨m, some l⟩ G = .ok (all G) := by
  rw [ofGraph_eq]
  simp only [Resource.within, if_neg hmarkings.not_gt, if_neg hnodes.not_gt]
  rfl

/-- The search over a stack, within a limit: it finds all paths of a kind, or fails where there are too many. -/
structure IsCutOff (G : MarkingGraph) (l : ℕ) (P : PathSet) : Prop where
  markings : Search.Gives (onward G) (some l) #[] 0
    (if l < P.markingPaths.length then .error (.exhausted .paths l) else .ok P.markingPaths.toArray)
  nodes : Search.Sweeps (follow G) (some l) #[] (liveNodes G.initial G.fired)
    (if l < P.nodePaths.length then .error (.exhausted .paths l) else .ok P.nodePaths.toArray)

lemma isCutOff_all (h : G.Tracked) (l : ℕ) : IsCutOff G l (all G) where
  markings := by
    rw [← listed_some]
    exact (spans_onward h).gives (zero_mem_range h) (within_zero _ _)
  nodes := by
    rw [← listed_some]
    exact (spans_follow G).sweeps (List.Subset.refl _) (within_zero _ _)

theorem ofGraph_limited (G : MarkingGraph) (m m' : Option ℕ) (l : ℕ) : ∃ P, ofGraph ⟨m, none⟩ G = .ok P ∧
    (ofGraph ⟨m', some l⟩ G = .error (.exhausted .paths l) ↔
      l < P.markingPaths.length ∨ l < P.nodePaths.length) ∧
    (P.markingPaths.length ≤ l → P.nodePaths.length ≤ l → ofGraph ⟨m', some l⟩ G = .ok P) ∧
    (G.Edited → IsCutOff G l P) := by
  refine ⟨all G, ofGraph_eq _ G, ⟨fun herror => ?_, ofGraph_of_lt m'⟩, ofGraph_of_le m',
    fun h => isCutOff_all h.tracked l⟩
  by_contra hle
  rw [not_or, not_lt, not_lt] at hle
  rw [ofGraph_of_le m' hle.1 hle.2] at herror
  cases herror

theorem ofGraph_limited_wheel : ∃ G, MarkingGraph.explore {} wheel = .ok G ∧ G.Edited ∧
    ∃ P, ofGraph ⟨none, none⟩ G = .ok P ∧ P.markingPaths.length = 1 ∧ P.nodePaths.length = 4 ∧
      ofGraph ⟨none, some 3⟩ G = .error (.exhausted .paths 3) ∧ ofGraph ⟨none, some 4⟩ G = .ok P ∧
      Search.Sweeps (follow G) (some 3) #[] (liveNodes G.initial G.fired) (.error (.exhausted .paths 3)) := by
  obtain ⟨G, hG⟩ := exists_eq_ok (x := MarkingGraph.explore {} wheel) (by decide +kernel)
  have hedited : G.Edited := MarkingGraph.edited_explore hG
  obtain ⟨P, hP, hthree, -, hcut⟩ := ofGraph_limited G none none 3
  obtain ⟨Q, hQ, -, hfour, -⟩ := ofGraph_limited G none none 4
  obtain rfl : P = Q := Except.ok.inj (hP.symm.trans hQ)
  have hlengths : (MarkingGraph.explore {} wheel >>= ofGraph ⟨none, none⟩).toOption.map
      (fun P => (P.markingPaths.length, P.nodePaths.length)) = some (1, 4) := by decide +kernel
  rw [bind_eq_ok.mpr ⟨G, hG, hP⟩] at hlengths
  obtain ⟨hmarkings, hnodes⟩ := Prod.mk.inj (Option.some.inj hlengths)
  have hsweep := (hcut hedited).nodes
  rw [if_pos (by omega)] at hsweep
  exact ⟨G, hG, hedited, P, hP, hmarkings, hnodes, hthree.mpr (by omega), hfour (by omega) (by omega), hsweep⟩

end PathSet

end Petri
