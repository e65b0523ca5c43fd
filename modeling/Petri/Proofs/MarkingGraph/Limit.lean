import Mathlib
import Petri.Proofs.MarkingGraph.Exploration

/-! Exploration within a limit goes in step with exploration without one, until the first vertex over the limit is
found. -/

namespace Petri.MarkingGraph

variable {G H : MarkingGraph} {N M : Net} {t : Transition} {limit : Option ℕ} {v l visits : ℕ}
  {x y : Except Error MarkingGraph}

/-- What comes of exploring within `l` vertices where exploring without a limit gives `x`. -/
inductive Capped (l : ℕ) : Except Error MarkingGraph → Except Error MarkingGraph → Prop
  | within {G : MarkingGraph} : G.vertices.size ≤ max l 1 → Capped l (.ok G) (.ok G)
  | exceeded {x : Except Error MarkingGraph} : (∀ G, x = .ok G → max l 1 < G.vertices.size) →
      Capped l x (.error (.exhausted .markings l))
  | failed {e : Error} : Capped l (.error e) (.error e)

lemma Capped.bind {f g : MarkingGraph → Except Error MarkingGraph} (h : Capped l x y)
    (hfg : ∀ G, G.vertices.size ≤ max l 1 → Capped l (f G) (g G))
    (hgrow : ∀ G H, f G = .ok H → G.vertices.size ≤ H.vertices.size) : Capped l (x >>= f) (y >>= g) := by
  cases h with
  | within hG => exact hfg _ hG
  | exceeded hx =>
    apply Capped.exceeded
    intro H hH
    obtain ⟨G, hG, hf⟩ := bind_eq_ok.mp hH
    exact (hx G hG).trans_le (hgrow G H hf)
  | failed => exact .failed

end Petri.MarkingGraph
