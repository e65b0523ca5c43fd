import Petri.Rule.Fault

/-! Everything that can go wrong, as causes, and the wording of each. -/

namespace Petri

/-- The two sorts of node that a formula can speak about. -/
inductive Domain where
  | state
  | transition
deriving DecidableEq

namespace Domain

def name : Domain → String
  | state => "state"
  | transition => "transition"

def other : Domain → Domain
  | state => transition
  | transition => state

end Domain

inductive Resource where
  | markings
  | paths
deriving DecidableEq

def Resource.name : Resource → String
  | markings => "reachable markings"
  | paths => "paths"

inductive Error where
  | duplicateNode (id : String)
  | unknownNode (source target missing : String)
  | notBipartite (source target : String)
  | unknownTransition (id : String)
  | notEnabled (id : String)
  | tokenOverflow
  | tokenUnderflow
  /-- There are more arcs between a place and a transition than can be counted. -/
  | weightOverflow
  | divisionByZero
  | vertexOverflow
  /-- So many vertices do not fit in memory, whatever its size. -/
  | noRoom
  | notInNet (id : String)
  | domainMismatch (formula : String) (expected found : Domain) (id : String)
  | exhausted (resource : Resource) (limit : Nat)
  | badLine (line : Nat) (fault : Rule.Fault)
deriving DecidableEq

def Error.message : Error → String
  | duplicateNode id => s!"Node id '{id}' is used more than once"
  | unknownNode source target missing => s!"Arc '{source}' -> '{target}' references unknown node '{missing}'"
  | notBipartite source target => s!"Arc '{source}' -> '{target}' does not connect a place and a transition"
  | unknownTransition id => s!"Transition '{id}' does not exist"
  | notEnabled id => s!"Transition '{id}' is not enabled"
  | tokenOverflow => "attempt to add with overflow"
  | tokenUnderflow => "attempt to subtract with overflow"
  | weightOverflow => "attempt to add with overflow"
  | divisionByZero => "attempt to divide by zero"
  | vertexOverflow => "attempt to add with overflow"
  | noRoom => "capacity overflow"
  | notInNet id => s!"Node '{id}' is not part of the evaluated net"
  | domainMismatch formula expected found id =>
    s!"{expected.name} formula {formula} cannot be evaluated at {found.name} node '{id}'"
  | exhausted resource limit => s!"Resource exhausted: more than {limit} {resource.name}"
  | badLine line fault => s!"Syntax error on line {line}: {fault.message}"

def Resource.within (resource : Resource) (limit : Option Nat) (count : Nat) : Except Error Unit :=
  match limit with
  | some limit => if limit < count then .error (.exhausted resource limit) else .ok ()
  | none => .ok ()

end Petri
