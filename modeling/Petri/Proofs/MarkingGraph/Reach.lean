import Mathlib
import Petri.Proofs.MarkingGraph.Edited
import Petri.MarkingGraph.Inquiry

/-! The search along the reversed edges misses exactly the numbers from which no path leads to a goal, whatever has been
changed and asked before. -/

namespace Petri

open Relation

namespace Adjacency

variable {α : Type} {A : Adjacency α} {vertices unseen stack l : List ℕ} {v w : ℕ}

lemma mem_within : v ∈ within vertices l ↔ v ∈ l ∧ v ∈ vertices := by
  simp [within]

lemma mem_without : v ∈ without vertices l ↔ v ∈ l ∧ v ∉ vertices := by
  simp [without]

def Arrow (A : Adjacency α) (v w : ℕ) : Prop :=
  w ∈ A.targets v

lemma mem_of_mem_unreached (h : w ∈ A.unreached unseen stack) : w ∈ unseen := by
  fun_induction unreached A unseen stack with
  | case1 => exact h
  | case2 unseen v stack ih => exact (mem_without.mp (ih h)).1

lemma exists_path_of_notMem_unreached (hw : w ∈ unseen) (h : w ∉ A.unreached unseen stack) :
    ∃ s ∈ stack, ReflTransGen A.Arrow s w := by
  fun_induction unreached A unseen stack with
  | case1 => exact absurd hw h
  | case2 unseen v stack ih =>
    by_cases hvw : w ∈ A.targets v
    · exact ⟨v, List.mem_cons_self, .single hvw⟩
    · obtain ⟨s, hs, hpath⟩ := ih (mem_without.mpr ⟨hw, hvw⟩) h
      rcases List.mem_append.mp hs with hs | hs
      · exact ⟨v, List.mem_cons_self, .head (mem_within.mp hs).2 hpath⟩
      · exact ⟨s, List.mem_cons_of_mem v hs, hpath⟩

lemma notMem_unreached_of_arrow (hseen : ∀ a, a ∉ unseen → a ∉ stack → ∀ b, A.Arrow a b → b ∉ unseen)
    (hv : v ∉ A.unreached unseen stack) (hvw : A.Arrow v w) : w ∉ A.unreached unseen stack := by
  fun_induction unreached A unseen stack with
  | case1 => exact hseen v hv List.not_mem_nil w hvw
  | case2 unseen u stack ih =>
    refine ih (fun a ha hstack b hab hb => ?_) hv
    rw [mem_without, not_and_not_right] at ha
    rw [List.mem_append, mem_within, not_or] at hstack
    obtain ⟨hb, hub⟩ := mem_without.mp hb
    have haun : a ∉ unseen := fun haun => hstack.1 ⟨haun, ha haun⟩
    by_cases hau : a = u
    · exact hub (hau ▸ hab)
    · exact hseen a haun (by simp [hau, hstack.2]) b hab hb

lemma notMem_unreached_of_path (hseen : ∀ a, a ∉ unseen → a ∉ stack → ∀ b, A.Arrow a b → b ∉ unseen)
    (hv : v ∉ A.unreached unseen stack) (hpath : ReflTransGen A.Arrow v w) : w ∉ A.unreached unseen stack := by
  induction hpath with
  | refl => exact hv
  | tail _ hab ih => exact notMem_unreached_of_arrow hseen ih hab

end Adjacency

namespace MarkingGraph

variable {G : MarkingGraph} {condition : Net → Bool} {goals : List ℕ} {v w : ℕ}

lemma mem_satisfying : v ∈ G.satisfying condition ↔ ∃ M, G.vertices[v]? = some M ∧ condition M = true := by
  simp only [satisfying, List.mem_filter, List.mem_range, Option.any_eq_true]
  exact and_iff_right_of_imp fun ⟨M, hM, _⟩ => (Array.getElem?_eq_some_iff.mp hM).1

lemma lt_size_of_mem_satisfying (h : v ∈ G.satisfying condition) : v < G.vertices.size :=
  List.mem_range.mp (List.mem_filter.mp h).1

lemma length_satisfying_eq_iff :
    (G.satisfying condition).length = G.vertices.size ↔ ∀ M ∈ G.vertices, condition M = true := by
  have hlength := List.length_filter_eq_length_iff (p := fun v => G.vertices[v]?.any condition)
    (l := List.range G.vertices.size)
  rw [List.length_range] at hlength
  rw [satisfying, hlength]
  constructor
  · intro hall M hM
    obtain ⟨i, hi, rfl⟩ := Array.mem_iff_getElem.mp hM
    simpa [Array.getElem?_eq_getElem hi] using hall i (List.mem_range.mpr hi)
  · intro hall v hv
    have hv := List.mem_range.mp hv
    simpa [Array.getElem?_eq_getElem hv] using hall _ (Array.getElem_mem hv)

lemma Tracked.arrow_reverse (h : G.Tracked) : G.adjacency.reverse.Arrow v w ↔ G.Leads w v := by
  rw [Adjacency.Arrow, Adjacency.mem_targets_reverse]
  exact h.mem_successors

lemma Tracked.path_reverse (h : G.Tracked) :
    ReflTransGen G.adjacency.reverse.Arrow v w ↔ ReflTransGen G.Leads w v := by
  have hswap : G.adjacency.reverse.Arrow = Function.swap G.Leads := by
    funext a b
    exact propext h.arrow_reverse
  rw [hswap]
  exact reflTransGen_swap

lemma Tracked.mem_leadingTo (h : G.Tracked) (hgoals : ∀ j ∈ goals, j < G.adjacency.size) :
    v ∈ G.leadingTo G.adjacency.reverse goals ↔ ∃ j ∈ goals, ReflTransGen G.Leads v j := by
  have hseen : ∀ a, a ∉ Adjacency.without goals (List.range G.adjacency.size) → a ∉ goals →
      ∀ b, G.adjacency.reverse.Arrow a b → b ∉ Adjacency.without goals (List.range G.adjacency.size) := by
    intro a ha hag b hab
    obtain ⟨e, he, rfl, rfl⟩ := h.arrow_reverse.mp hab
    rw [Adjacency.mem_without, List.mem_range] at ha
    exact absurd ⟨(h.ends_lt e he).2, hag⟩ ha
  rw [leadingTo, Adjacency.mem_without, List.mem_range]
  constructor
  · rintro ⟨hv, hmissed⟩
    by_cases hvg : v ∈ goals
    · exact ⟨v, hvg, .refl⟩
    · have hunseen := Adjacency.mem_without.mpr ⟨List.mem_range.mpr hv, hvg⟩
      obtain ⟨j, hj, hpath⟩ := Adjacency.exists_path_of_notMem_unreached hunseen hmissed
      exact ⟨j, hj, h.path_reverse.mp hpath⟩
  · rintro ⟨j, hj, hpath⟩
    have hjseen : j ∉ G.adjacency.reverse.unreached (Adjacency.without goals (List.range G.adjacency.size)) goals :=
      fun hmem => (Adjacency.mem_without.mp (Adjacency.mem_of_mem_unreached hmem)).2 hj
    refine ⟨?_, Adjacency.notMem_unreached_of_path hseen hjseen (h.path_reverse.mpr hpath)⟩
    rcases hpath.cases_head with rfl | ⟨_, ⟨e, he, rfl, _⟩, _⟩
    · exact hgoals v hj
    · exact (h.ends_lt e he).1

lemma Tracked.mem_reaches (h : G.Tracked) (hv : v < G.vertices.size) : v ∈ G.reaches condition ↔
    ∃ j ∈ G.satisfying condition, ReflTransGen G.Leads v j := by
  rw [reaches]
  split
  · next hall =>
    have hmem : v ∈ G.satisfying condition :=
      mem_satisfying.mpr ⟨_, Array.getElem?_eq_getElem hv, length_satisfying_eq_iff.mp hall _ (Array.getElem_mem hv)⟩
    exact iff_of_true hmem ⟨v, hmem, .refl⟩
  · exact h.mem_leadingTo fun j hj => (lt_size_of_mem_satisfying hj).trans_le h.vertices_le

end MarkingGraph

namespace Inquiry

open MarkingGraph

variable {Q : Inquiry} {v : ℕ}

inductive Edited : Inquiry → Prop
  | ofNet (N : Net) : Edited { graph := .ofNet N }
  | insert {Q : Inquiry} (N : Net) : Edited Q → Edited (Q.insert N).2.2
  | link {Q : Inquiry} (s t : ℕ) (fired : String) : Edited Q → Edited (Q.link s t fired)
  | reaches {Q : Inquiry} (condition : Net → Bool) : Edited Q → Edited (Q.reaches condition).2

def Current (Q : Inquiry) : Prop :=
  ∀ R ∈ Q.reversed, R = Q.graph.adjacency.reverse

lemma Current.getD_eq (h : Q.Current) : Q.reversed.getD Q.graph.adjacency.reverse = Q.graph.adjacency.reverse := by
  cases hR : Q.reversed with
  | none => rfl
  | some R => exact h R hR

lemma Current.reaches_eq (h : Q.Current) (condition : Net → Bool) :
    (Q.reaches condition).1 = Q.graph.reaches condition := by
  rw [reaches, MarkingGraph.reaches, h.getD_eq]
  split <;> rfl

lemma graph_reaches (Q : Inquiry) (condition : Net → Bool) : (Q.reaches condition).2.graph = Q.graph := by
  rw [reaches]
  split <;> rfl

lemma Current.reaches (h : Q.Current) (condition : Net → Bool) : (Q.reaches condition).2.Current := by
  rw [Inquiry.reaches, h.getD_eq]
  split
  · exact h
  · rintro R hR
    cases hR
    rfl

lemma Current.insert (h : Q.Current) (N : Net) : (Q.insert N).2.2.Current := by
  rcases insert_cases Q.graph N with ⟨i, hi⟩ | ⟨H, hi, _⟩
  · rw [Inquiry.insert, hi]
    exact h
  · rw [Inquiry.insert, hi]
    rintro R hR
    cases hR

lemma Edited.current (h : Q.Edited) : Q.Current := by
  induction h with
  | ofNet N =>
    rintro R hR
    cases hR
  | insert N _ ih => exact ih.insert N
  | link s t fired _ ih =>
    rintro R hR
    cases hR
  | reaches condition _ ih => exact ih.reaches condition

lemma Edited.graph (h : Q.Edited) : Q.graph.Edited := by
  induction h with
  | ofNet N => exact .ofNet N
  | insert N _ ih => exact .insert N ih
  | link s t fired _ ih => exact .link s t fired ih
  | @reaches Q condition _ ih =>
    rw [graph_reaches]
    exact ih

theorem mem_reaches_iff (h : Q.Edited) (condition : Net → Bool) (hv : v < Q.graph.vertices.size) :
    v ∈ (Q.reaches condition).1 ↔
      ∃ j M, Q.graph.vertices[j]? = some M ∧ condition M = true ∧ ReflTransGen Q.graph.Leads v j := by
  rw [h.current.reaches_eq, h.graph.tracked.mem_reaches hv]
  simp only [mem_satisfying, ← exists_and_right, and_assoc]

def isLit (N : Net) : Bool :=
  N.marking.tokens "light" = 1

def lamps : Inquiry :=
  (({ graph := .ofNet (lamp 0) } : Inquiry).insert (lamp 1)).2.2

def rewired : Inquiry :=
  ((lamps.reaches isLit).2.link 0 7 "press").link 7 1 "glow"

theorem mem_reaches_iff_rewired : rewired.Edited ∧ (lamps.reaches isLit).1 = [1] ∧
    (rewired.reaches isLit).1 = [0, 1, 7] ∧
    ∃ j M, rewired.graph.vertices[j]? = some M ∧ isLit M = true ∧ ReflTransGen rewired.graph.Leads 0 j := by
  have hedited : rewired.Edited :=
    .link 7 1 "glow" (.link 0 7 "press" (.reaches isLit (.insert (lamp 1) (.ofNet (lamp 0)))))
  have hreaches : (rewired.reaches isLit).1 = [0, 1, 7] := by decide +kernel
  refine ⟨hedited, by decide +kernel, hreaches, (mem_reaches_iff hedited isLit (by decide +kernel)).mp ?_⟩
  rw [hreaches]
  exact List.mem_cons_self

end Inquiry

end Petri
