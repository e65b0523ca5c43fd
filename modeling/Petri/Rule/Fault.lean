import Petri.Text.Numeral

/-! What can be wrong with a line of net text. -/

namespace Petri.Rule

inductive Fault where
  | secondArrow
  | unterminatedSet
  | unterminatedAttributes
  | invalidName (text : String)
  | invalidCount (text : String) (cause : Numeral.Fault)
  | noValue (text : String)
  | unknownAttribute (key : String)
  | unknownKind (text : String)
  | unrecognized (line : String)
  | undeclared (id : String)
deriving DecidableEq

def Fault.message : Fault → String
  | secondArrow => "Expected a single '->'"
  | unterminatedSet => "Unterminated '\x7b'"
  | unterminatedAttributes => "Unterminated '['"
  | invalidName text => s!"Invalid name '{text}'"
  | invalidCount text cause => s!"Invalid marker count '{text}': {cause.message}"
  | noValue text => s!"Expected key=value, got '{text}'"
  | unknownAttribute key => s!"Unknown attribute '{key}'"
  | unknownKind text => s!"Unknown transition kind '{text}'"
  | unrecognized line => s!"Unrecognized rule '{line}'"
  | undeclared id => s!"Context attached to undeclared transition '{id}'"

end Petri.Rule
