import Petri.Error
import Petri.Rule.Basic
import Petri.Text.Cut

/-! Reading rules: `id: inputs -> outputs` or `inputs -> outputs`, `name [key=value, ...]`, and `name = count`. Inputs
and outputs are a name, or names in braces; what follows a `#` is a comment. -/

namespace Petri.Rule

open Text

/-- A colon may occur in a name only as part of `://`. -/
def isName (s : List Char) : Bool :=
  !s.isEmpty && s.all (fun c => !isBlank c && !"\x7b\x7d,=[]".toList.contains c) && (cutColon? s).isNone

def readName (s : List Char) : Except Fault String :=
  let name := trim s
  if isName name then .ok (String.ofList name) else .error (.invalidName (String.ofList name))

def readItems (s : List Char) : Except Fault (List String) :=
  let items := s.splitOnP fun c => c = ',' || isBlank c
  (items.filter fun item => !item.isEmpty).mapM readName

def readNames (s : List Char) : Except Fault (List String) :=
  match trim s with
  | '\x7b' :: inner =>
    if inner.getLast? = some '\x7d' then readItems inner.dropLast else .error .unterminatedSet
  | items => readItems items

def readKind (s : List Char) : Except Fault Kind :=
  match String.ofList (trim s) with
  | "app" => .ok .app
  | "control" => .ok .control
  | other => .error (.unknownKind other)

/-- Sets one attribute of a context; a key that comes again replaces what it set before. -/
def readAttribute (c : Context) (text : List Char) : Except Fault Context :=
  match cut? ['='] text with
  | none => .error (.noValue (String.ofList text))
  | some (key, value) =>
    match String.ofList (trim key) with
    | "read" => do return { c with read := some (← readName value) }
    | "write" => do return { c with write := some (← readName value) }
    | "erase" => do return { c with erase := some (← readName value) }
    | "context" => do return { c with required := .ofList (← readNames value) }
    | "kind" => do return { c with kind := ← readKind value }
    | other => .error (.unknownAttribute other)

def readContext (s : List Char) : Except Fault Context :=
  let attributes := (commaPieces 0 s).map trim
  (attributes.filter fun a => !a.isEmpty).foldlM readAttribute {}

def readTransition (left right : List Char) : Except Fault Rule :=
  if (cut? ['-', '>'] right).isSome then .error .secondArrow
  else
    match cutColon? left with
    | some (id, left) => do
      let id ← readName id
      return .transition (some id) (← readNames left) (← readNames right)
    | none => do return .transition none (← readNames left) (← readNames right)

def readContextRule (name rest : List Char) : Except Fault Rule :=
  let rest := trimRight rest
  if rest.getLast? = some ']' then do
    let name ← readName name
    return .context name (← readContext rest.dropLast)
  else .error .unterminatedAttributes

def readAssign (name value : List Char) : Except Fault Rule :=
  let value := trim value
  match Numeral.read value with
  | .error cause => .error (.invalidCount (String.ofList value) cause)
  | .ok tokens => do return .assign (← readName name) tokens

def readContent (line : List Char) : Except Fault Rule :=
  match cut? ['-', '>'] line with
  | some (left, right) => readTransition left right
  | none =>
    match cut? ['['] line with
    | some (name, rest) => readContextRule name rest
    | none =>
      match cut? ['='] line with
      | some (name, value) => readAssign name value
      | none => .error (.unrecognized (String.ofList line))

def readLine (line : List Char) : Except Fault (Option Rule) :=
  match trim (line.takeWhile (· ≠ '#')) with
  | [] => .ok none
  | content => do return some (← readContent content)

def readLines (number : Nat) : List (List Char) → Except Error (List (Nat × Rule))
  | [] => .ok []
  | line :: lines =>
    match readLine line with
    | .error fault => .error (.badLine number fault)
    | .ok none => readLines (number + 1) lines
    | .ok (some rule) => do return (number, rule) :: (← readLines (number + 1) lines)

def readText (text : String) : Except Error (List (Nat × Rule)) :=
  readLines 1 (text.toList.splitOn '\n')

end Petri.Rule
