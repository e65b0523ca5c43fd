import Petri.Net.Basic

/-! Nets under construction, which are checked when they are built. -/

namespace Petri

structure Draft where
  id : String
  nodes : Array Node := #[]
  arcs : Array Arc := #[]

namespace Draft

def place (D : Draft) (id : String) (tokens : UInt32) : Draft :=
  { D with nodes := D.nodes.push (.place ⟨id, tokens⟩) }

def transition (D : Draft) (id : String) (context : Option Context) : Draft :=
  { D with nodes := D.nodes.push (.transition ⟨id, context⟩) }

def arc (D : Draft) (source target : String) : Draft :=
  { D with arcs := D.arcs.push ⟨source, target⟩ }

def wire (D : Draft) (id : String) (context : Option Context) (inputs outputs : List String) : Draft :=
  let D := D.transition id context
  let D := inputs.foldl (fun D p => D.arc p id) D
  outputs.foldl (fun D p => D.arc id p) D

def build (D : Draft) : Except Error Net :=
  Net.build D.id D.nodes.toList D.arcs.toList

end Draft

end Petri
