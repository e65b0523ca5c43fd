import Petri.Formula.Basic
import Petri.Text.Quoted

/-! Formulas as text: `render` with the symbols of the operators, and `inspect` with the names of the constructors. -/

namespace Petri.Formula

def symbol : {d : Domain} → Formula d → String
  | _, tt => "TT"
  | _, ff => "FF"
  | .state, atom _ _ => "NF"
  | .transition, atom _ _ => "AF"
  | _, and _ _ => "AND"
  | _, or _ _ => "OR"
  | _, not _ => "NOT"
  | _, existsUntil _ _ => "EXIST_UNTIL"
  | _, forallNext _ => "FORALL_NEXT"
  | _, ev _ => "EV"
  | _, pos _ => "POS"
  | _, along _ => "ALONG"
  | _, modal _ => "MODAL"
  | _, existsModal _ _ => "EXIST_MODAL"

def applied (head : String) (operands : List String) : String :=
  head ++ "(" ++ ", ".intercalate operands ++ ")"

def render : {d : Domain} → Formula d → String
  | _, tt => "TT"
  | _, ff => "FF"
  | d, atom label condition => applied (symbol (d := d) (atom label condition)) [label]
  | _, and f g => applied "AND" [f.render, g.render]
  | _, or f g => applied "OR" [f.render, g.render]
  | _, not f => applied "NOT" [f.render]
  | _, existsUntil hold goal => applied "EXIST_UNTIL" [hold.render, goal.render]
  | _, forallNext f => applied "FORALL_NEXT" [f.render]
  | _, ev f => applied "EV" [f.render]
  | _, pos f => applied "POS" [f.render]
  | _, along f => applied "ALONG" [f.render]
  | _, modal f => applied "MODAL" [f.render]
  | _, existsModal f g => applied "EXIST_MODAL" [f.render, g.render]

def expressionName : Domain → String
  | .state => "StateExpression"
  | .transition => "TransitionExpression"

def inspect : {d : Domain} → Formula d → String
  | _, tt => "True"
  | _, ff => "False"
  | d, atom label _ => applied "Expression" [applied (expressionName d) [Text.quoted label]]
  | _, and f g => applied "And" [f.inspect, g.inspect]
  | _, or f g => applied "Or" [f.inspect, g.inspect]
  | _, not f => applied "Not" [f.inspect]
  | _, existsUntil hold goal => applied "ExistUntil" [hold.inspect, goal.inspect]
  | _, forallNext f => applied "ForallNext" [f.inspect]
  | _, ev f => applied "Ev" [f.inspect]
  | _, pos f => applied "Pos" [f.inspect]
  | _, along f => applied "Along" [f.inspect]
  | _, modal f => applied "Modal" [f.inspect]
  | _, existsModal f g => applied "ExistModal" [f.inspect, g.inspect]

end Petri.Formula
