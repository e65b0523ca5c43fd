import Petri.Formula.Printer
import Petri.Path.PathSet

/-! The truth of a formula at a node. That the node is in the net and of the formula's sort is asked of every subformula
anew. -/

namespace Petri

namespace PathSet

/-- Along one path, `goal` holds at a node of the sort of the first, and `hold` at those before it. -/
def untilOn (hold goal : String → Except Error Bool) : List String → Except Error Bool
  | [] => return false
  | [n] => do
    if ← goal n then return true
    discard (hold n)
    return false
  | n :: _ :: path => do
    if ← goal n then return true
    if ← hold n then untilOn hold goal path else return false

def existsUntil (P : PathSet) (hold goal : String → Except Error Bool) (n : String) : Except Error Bool :=
  (P.startingAt n).anyM (untilOn hold goal)

def forallNext (P : PathSet) (holds : String → Except Error Bool) (n : String) : Except Error Bool :=
  (P.startingAt n).allM fun path =>
    match path[2]? with
    | some next => holds next
    | none => return true

def existsSuccessor (P : PathSet) (holds : String → Except Error Bool) (n : String) : Except Error Bool :=
  (P.successors n).anyM holds

end PathSet

namespace Formula

def locate (N : Net) {d : Domain} (f : Formula d) (n : String) : Except Error Node :=
  match N.node? n with
  | none => .error (.notInNet n)
  | some node =>
    if node.domain = d then .ok node
    else .error (.domainMismatch f.render d node.domain n)

def holdsAt (N : Net) : {d : Domain} → Predicate d → Node → Bool
  | .state, condition, .place p => condition ⟨N, p⟩
  | .transition, condition, .transition t => t.satisfies condition
  | _, _, _ => false

/-- The truth of a formula at `n`. The second operand of `and` and `or` is looked at only if the first does not
decide, and `existsModal` is evaluated in its primitive form. -/
def eval (P : PathSet) {d : Domain} (f : Formula d) (n : String) : Except Error Bool := do
  let node ← locate P.net f n
  match d, f with
  | _, tt => return true
  | _, ff => return false
  | _, atom _ condition => return holdsAt P.net condition node
  | _, and f g => if ← f.eval P n then g.eval P n else return false
  | _, or f g => if ← f.eval P n then return true else g.eval P n
  | _, not f => return !(← f.eval P n)
  | _, existsUntil hold goal => P.existsUntil (fun m => hold.eval P m) (fun m => goal.eval P m) n
  | _, forallNext f => P.forallNext (fun m => f.eval P m) n
  | _, ev f => P.existsUntil (fun _ => return true) (fun m => f.eval P m) n
  | _, pos f => P.existsUntil (fun _ => return true) (fun m => f.eval P m) n
  | _, along f =>
    return !(← P.existsUntil (fun _ => return true) (fun m => do return !(← f.eval P m)) n)
  | _, modal f => P.existsSuccessor (fun m => f.eval P m) n
  | _, existsModal f g => (existsModal f g).primitive.eval P n
termination_by f.weight
decreasing_by
  any_goals (simp only [weight]; omega)
  exact weight_primitive_existsModal_lt f g

end Formula

end Petri
