import Petri.Net.Basic

/-! Branching-time formulas over places and over transitions. Paths alternate between the two, so a formula speaks about
every other node of a path, and `modal` goes over to the other sort. -/

namespace Petri

def Predicate : Domain → Type
  | .state => Site → Bool
  | .transition => Context → Bool

inductive Formula : Domain → Type where
  | tt {d : Domain} : Formula d
  | ff {d : Domain} : Formula d
  /-- A condition under a label, by which alone it is known. -/
  | atom {d : Domain} (label : String) (condition : Predicate d) : Formula d
  | and {d : Domain} (f g : Formula d) : Formula d
  | or {d : Domain} (f g : Formula d) : Formula d
  | not {d : Domain} (f : Formula d) : Formula d
  /-- On some path `goal` holds somewhere, and `hold` before it. -/
  | existsUntil {d : Domain} (hold goal : Formula d) : Formula d
  /-- On every path that has one, the next node of this sort satisfies `f`. -/
  | forallNext {d : Domain} (f : Formula d) : Formula d
  | ev {d : Domain} (f : Formula d) : Formula d
  | pos {d : Domain} (f : Formula d) : Formula d
  /-- On every path `f` holds everywhere. -/
  | along {d : Domain} (f : Formula d) : Formula d
  /-- Some successor, which is of the other sort, satisfies `f`. -/
  | modal {d : Domain} (f : Formula d.other) : Formula d
  /-- Some following place satisfies `f` and has a following transition that satisfies `g`. -/
  | existsModal (f : Formula .state) (g : Formula .transition) : Formula .transition

namespace Formula

def primitive : {d : Domain} → Formula d → Formula d
  | _, tt => tt
  | _, ff => ff
  | _, atom label condition => atom label condition
  | _, and f g => and f.primitive g.primitive
  | _, or f g => or f.primitive g.primitive
  | _, not f => not f.primitive
  | _, existsUntil hold goal => existsUntil hold.primitive goal.primitive
  | _, forallNext f => forallNext f.primitive
  | _, ev f => existsUntil tt f.primitive
  | _, pos f => existsUntil tt f.primitive
  | _, along f => not (existsUntil tt (not f.primitive))
  | _, modal f => modal f.primitive
  | _, existsModal f g => modal (and f.primitive (modal g.primitive))

/-- The number of operators of the primitive form, and one more for each `existsModal` that it expresses. -/
def weight : {d : Domain} → Formula d → Nat
  | _, tt => 1
  | _, ff => 1
  | _, atom _ _ => 1
  | _, and f g => f.weight + g.weight + 1
  | _, or f g => f.weight + g.weight + 1
  | _, not f => f.weight + 1
  | _, existsUntil hold goal => hold.weight + goal.weight + 1
  | _, forallNext f => f.weight + 1
  | _, ev f => f.weight + 2
  | _, pos f => f.weight + 2
  | _, along f => f.weight + 4
  | _, modal f => f.weight + 1
  | _, existsModal f g => f.weight + g.weight + 4

theorem weight_primitive_existsModal (f : Formula .state) (g : Formula .transition) :
    (existsModal f g).primitive.weight = f.primitive.weight + (g.primitive.weight + 1) + 1 + 1 :=
  rfl

theorem weight_primitive_le {d : Domain} (f : Formula d) : f.primitive.weight ≤ f.weight := by
  induction f with
  | existsModal f g hf hg =>
    rw [weight_primitive_existsModal, weight]
    omega
  | _ => simp only [primitive, weight]; omega

theorem weight_primitive_existsModal_lt (f : Formula .state) (g : Formula .transition) :
    (existsModal f g).primitive.weight < (existsModal f g).weight := by
  have := weight_primitive_le f
  have := weight_primitive_le g
  rw [weight_primitive_existsModal, weight]
  omega

/-- Equality, conditions being equal when their labels are. -/
def same : {d : Domain} → Formula d → Formula d → Bool
  | _, tt, tt => true
  | _, ff, ff => true
  | _, atom label _, atom label' _ => label = label'
  | _, and f g, and f' g' => f.same f' && g.same g'
  | _, or f g, or f' g' => f.same f' && g.same g'
  | _, not f, not f' => f.same f'
  | _, existsUntil f g, existsUntil f' g' => f.same f' && g.same g'
  | _, forallNext f, forallNext f' => f.same f'
  | _, ev f, ev f' => f.same f'
  | _, pos f, pos f' => f.same f'
  | _, along f, along f' => f.same f'
  | _, modal f, modal f' => f.same f'
  | _, existsModal f g, existsModal f' g' => f.same f' && g.same g'
  | _, _, _ => false

end Formula

end Petri
