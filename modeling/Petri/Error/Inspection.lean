import Petri.Error
import Petri.Text.Quoted

/-! Errors in full, with the name of the cause and its data, as the command line shows them. -/

namespace Petri

def inspectRecord (name : String) (fields : List (String × String)) : String :=
  name ++ " \x7b " ++ ", ".intercalate (fields.map fun f => f.1 ++ ": " ++ f.2) ++ " \x7d"

def inspectId (id : String) : String :=
  "NodeId(" ++ Text.quoted id ++ ")"

def Domain.inspect : Domain → String
  | state => "State"
  | transition => "Transition"

def Error.inspect : Error → String
  | duplicateNode id => "DuplicateNode(" ++ inspectId id ++ ")"
  | unknownNode source target missing =>
    inspectRecord "UnknownNode"
      [("from", inspectId source), ("to", inspectId target), ("missing", inspectId missing)]
  | notBipartite source target =>
    inspectRecord "NotBipartite" [("from", inspectId source), ("to", inspectId target)]
  | unknownTransition id => "UnknownTransition(" ++ inspectId id ++ ")"
  | notEnabled id => "NotEnabled(" ++ inspectId id ++ ")"
  | tokenOverflow => tokenOverflow.message
  | tokenUnderflow => tokenUnderflow.message
  | weightOverflow => weightOverflow.message
  | divisionByZero => divisionByZero.message
  | vertexOverflow => vertexOverflow.message
  | noRoom => noRoom.message
  | notInNet id => "NotInNet(" ++ inspectId id ++ ")"
  | domainMismatch formula expected found id =>
    inspectRecord "DomainMismatch"
      [("formula", Text.quoted formula), ("expected", expected.inspect), ("found", found.inspect),
        ("node", inspectId id)]
  | exhausted resource limit =>
    inspectRecord "ResourceExhausted" [("what", Text.quoted resource.name), ("limit", toString limit)]
  | badLine line fault =>
    inspectRecord "SyntaxError" [("line", toString line), ("message", Text.quoted fault.message)]

end Petri
