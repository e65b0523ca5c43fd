import Mathlib
import Petri.Net.Draft

/-! What a net under construction holds after places and transitions with their arcs have been noted. -/

namespace Petri.Draft

variable {D E F : Draft} {ps qs : List Node} {as bs : List Arc}

structure Adds (D : Draft) (nodes : List Node) (arcs : List Arc) (E : Draft) : Prop where
  id_eq : E.id = D.id
  nodes_eq : E.nodes.toList = D.nodes.toList ++ nodes
  arcs_eq : E.arcs.toList = D.arcs.toList ++ arcs

lemma adds_refl (D : Draft) : D.Adds [] [] D :=
  ⟨rfl, (List.append_nil _).symm, (List.append_nil _).symm⟩

lemma Adds.trans (h : D.Adds ps as E) (h' : E.Adds qs bs F) : D.Adds (ps ++ qs) (as ++ bs) F where
  id_eq := h'.id_eq.trans h.id_eq
  nodes_eq := by rw [h'.nodes_eq, h.nodes_eq, List.append_assoc]
  arcs_eq := by rw [h'.arcs_eq, h.arcs_eq, List.append_assoc]

lemma adds_foldl {α : Type} {step : Draft → α → Draft} {nodes : α → List Node} {arcs : α → List Arc}
    (hstep : ∀ (D : Draft) a, D.Adds (nodes a) (arcs a) (step D a)) (l : List α) (D : Draft) :
    D.Adds (l.flatMap nodes) (l.flatMap arcs) (l.foldl step D) := by
  induction l generalizing D with
  | nil => exact adds_refl D
  | cons a l ih => exact (hstep D a).trans (ih (step D a))

lemma flatMap_nil {α β : Type} (l : List α) : l.flatMap (fun _ => ([] : List β)) = [] :=
  List.flatMap_eq_nil_iff.mpr fun _ _ => rfl

lemma adds_place (D : Draft) (id : String) (tokens : UInt32) : D.Adds [.place ⟨id, tokens⟩] [] (D.place id tokens) where
  id_eq := rfl
  nodes_eq := by simp [place]
  arcs_eq := by simp [place]

lemma adds_foldl_place (ps : List Place) (D : Draft) :
    D.Adds (ps.map .place) [] (ps.foldl (fun D p => D.place p.id p.tokens) D) := by
  have hadds := adds_foldl (fun D p => adds_place D p.id p.tokens) ps D
  rwa [flatMap_nil, ← List.map_eq_flatMap] at hadds

lemma adds_transition (D : Draft) (id : String) (context : Option Context) :
    D.Adds [.transition ⟨id, context⟩] [] (D.transition id context) where
  id_eq := rfl
  nodes_eq := by simp [transition]
  arcs_eq := by simp [transition]

lemma adds_arc (D : Draft) (source target : String) : D.Adds [] [⟨source, target⟩] (D.arc source target) where
  id_eq := rfl
  nodes_eq := by simp [arc]
  arcs_eq := by simp [arc]

lemma adds_wire (D : Draft) (id : String) (context : Option Context) (inputs outputs : List String) :
    D.Adds [.transition ⟨id, context⟩] (inputs.map (⟨·, id⟩) ++ outputs.map (⟨id, ·⟩))
      (D.wire id context inputs outputs) := by
  have hinputs := adds_foldl (fun D p => adds_arc D p id) inputs (D.transition id context)
  have houtputs := adds_foldl (fun D p => adds_arc D id p) outputs
    (inputs.foldl (fun D p => D.arc p id) (D.transition id context))
  rw [flatMap_nil, ← List.map_eq_flatMap] at hinputs houtputs
  exact (adds_transition D id context).trans (hinputs.trans houtputs)

inductive Call where
  | place (id : String) (tokens : UInt32)
  | transition (id : String) (context : Option Context)
  | arc (source target : String)
  | wire (id : String) (context : Option Context) (inputs outputs : List String)

namespace Call

def nodes : Call → List Node
  | place id tokens => [.place ⟨id, tokens⟩]
  | transition id context => [.transition ⟨id, context⟩]
  | arc _ _ => []
  | wire id context _ _ => [.transition ⟨id, context⟩]

def arcs : Call → List Arc
  | place _ _ => []
  | transition _ _ => []
  | arc source target => [⟨source, target⟩]
  | wire id _ inputs outputs => inputs.map (⟨·, id⟩) ++ outputs.map (⟨id, ·⟩)

end Call

def call (D : Draft) : Call → Draft
  | .place id tokens => D.place id tokens
  | .transition id context => D.transition id context
  | .arc source target => D.arc source target
  | .wire id context inputs outputs => D.wire id context inputs outputs

lemma adds_call (D : Draft) (c : Call) : D.Adds c.nodes c.arcs (D.call c) := by
  cases c with
  | place id tokens => exact adds_place D id tokens
  | transition id context => exact adds_transition D id context
  | arc source target => exact adds_arc D source target
  | wire id context inputs outputs => exact adds_wire D id context inputs outputs

lemma build_foldl_call (D : Draft) (calls : List Call) : (calls.foldl call D).build =
    Net.build D.id (D.nodes.toList ++ calls.flatMap Call.nodes) (D.arcs.toList ++ calls.flatMap Call.arcs) := by
  have hadds := adds_foldl adds_call calls D
  rw [build, hadds.id_eq, hadds.nodes_eq, hadds.arcs_eq]

end Petri.Draft
