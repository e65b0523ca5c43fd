import Petri.MarkingGraph.Basic

/-! Drawings of nets and graphs in the DOT language. Quoted values are written as they are, without escapes. -/

namespace Petri.Dot

inductive Value where
  | plain (text : String)
  | quoted (text : String)

def Value.render : Value → String
  | plain text => text
  | quoted text => "\"" ++ text ++ "\""

abbrev Attribute := String × Value

inductive Statement where
  | setting (key value : String)
  | node (name : String) (attributes : List Attribute)
  | edge (source target : String) (attributes : List Attribute)

def renderAttributes (attributes : List Attribute) : String :=
  if attributes.isEmpty then ""
  else " [" ++ ", ".intercalate (attributes.map fun a => a.1 ++ "=" ++ a.2.render) ++ "]"

def Statement.render : Statement → String
  | setting key value => key ++ "=" ++ value
  | node name attributes => name ++ renderAttributes attributes
  | edge source target attributes => source ++ " -> " ++ target ++ renderAttributes attributes

def renderDigraph (statements : List Statement) : String :=
  "digraph \x7b\n" ++ String.join (statements.map fun s => "  " ++ s.render ++ ";\n") ++ "\x7d\n"

def fontSize : Statement :=
  .setting "fontsize" "14"

def tokensLabel (tokens : UInt32) : String :=
  if tokens ≤ 3 then String.join (List.replicate tokens.toNat "&#9679;") else toString tokens.toNat

def transitionLabel (t : Transition) : String :=
  match t.context.map Context.summary with
  | none => t.id
  | some summary => if summary.isEmpty then t.id else t.id ++ "\\n" ++ summary

def placeStatement (p : Place) (number : Nat) : Statement :=
  .node ("N" ++ toString number)
    [("shape", .plain "circle"), ("label", .quoted (tokensLabel p.tokens)), ("xlabel", .quoted p.id)]

def transitionStatement (t : Transition) (number : Nat) : Statement :=
  .node ("T" ++ toString number)
    [("shape", .plain "rectangle"), ("height", .plain "0.4"), ("width", .plain "0.4"), ("margin", .plain "0.01"),
      ("style", .quoted "filled"), ("label", .quoted (transitionLabel t))]

def nodeName? (N : Net) (id : String) : Option String :=
  match N.marking.places.findIdx? fun p => p.id = id with
  | some number => some ("N" ++ toString number)
  | none => (N.transitions.findIdx? fun t => t.id = id).map fun number => "T" ++ toString number

def arcStatement? (N : Net) (a : Arc) : Option Statement := do
  return .edge (← nodeName? N a.source) (← nodeName? N a.target) []

def ofNet (N : Net) : String :=
  renderDigraph
    ([fontSize, .setting "nodesep" "0.5"]
      ++ N.marking.places.mapIdx (fun number p => placeStatement p number)
      ++ N.transitions.mapIdx (fun number t => transitionStatement t number)
      ++ N.arcs.filterMap (arcStatement? N))

def ofGraphWith (describe : Net → List Attribute) (G : MarkingGraph) : String :=
  let vertex (number : Nat) (N : Net) : Statement :=
    let border : List Attribute := if number = 0 then [("peripheries", .plain "2")] else []
    .node ("S" ++ toString number) (border ++ describe N)
  let edge (e : Edge) : Statement :=
    .edge ("S" ++ toString e.source) ("S" ++ toString e.target) [("label", .quoted e.fired)]
  renderDigraph ([fontSize] ++ G.vertices.toList.mapIdx vertex ++ G.edges.toList.map edge)

def ofGraph (G : MarkingGraph) : String :=
  let item (p : Place) : String := if p.tokens = 1 then p.id else p.id ++ "×" ++ toString p.tokens.toNat
  ofGraphWith (fun N => [("label", .quoted (", ".intercalate (N.marking.marked.map item)))]) G

def ofGraphInColour (G : MarkingGraph) : String :=
  let item (p : Place) : String := p.id ++ ":" ++ toString p.tokens.toNat
  let isFinal (N : Net) : Bool := (G.find? N.marking).any G.finals.contains
  let describe (N : Net) : List Attribute :=
    let colour : List Attribute := if isFinal N then [("color", .quoted "red")] else []
    ("label", .quoted ("\\n".intercalate (N.marking.marked.map item))) :: colour
  ofGraphWith describe G

end Petri.Dot
