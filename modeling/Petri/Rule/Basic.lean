import Petri.Context

/-! The rules of net text, and their lines in the form that the reader takes back. -/

namespace Petri

inductive Rule where
  | transition (id : Option String) (inputs outputs : List String)
  | assign (place : String) (tokens : UInt32)
  | context (transition : String) (context : Context)
deriving DecidableEq

namespace Rule

def renderNames (names : List String) : String :=
  "\x7b" ++ ", ".intercalate names ++ "\x7d"

def renderContext (c : Context) : String :=
  let tag (key : String) (value : Option String) : List String := value.toList.map (key ++ "=" ++ ·)
  let required := if c.required.toList.isEmpty then [] else ["context=" ++ renderNames c.required.toList]
  ", ".intercalate
    (tag "read" c.read ++ tag "write" c.write ++ tag "erase" c.erase ++ required ++ ["kind=" ++ c.kind.name])

def render : Rule → String
  | transition none inputs outputs => renderNames inputs ++ " -> " ++ renderNames outputs
  | transition (some id) inputs outputs => id ++ ": " ++ renderNames inputs ++ " -> " ++ renderNames outputs
  | assign place tokens => place ++ " = " ++ toString tokens.toNat
  | context name c => name ++ " [" ++ renderContext c ++ "]"

def renderText (rules : List Rule) : String :=
  "\n".intercalate (rules.map render)

end Rule

end Petri
