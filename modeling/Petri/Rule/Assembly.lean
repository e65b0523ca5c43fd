import Petri.Net.Draft
import Petri.Rule.Reader

/-! The net that a list of rules describes. The last assignment of a place and the last context of a transition count,
and a transition without a name is called `t1`, `t2` and so on by its position. -/

namespace Petri.Rule

structure Declaration where
  id : String
  inputs : List String
  outputs : List String

structure Note where
  transition : String
  line : Nat
  context : Context

def declarations (count : Nat) : List Rule → List Declaration
  | [] => []
  | transition id inputs outputs :: rules =>
    ⟨id.getD ("t" ++ toString (count + 1)), inputs, outputs⟩ :: declarations (count + 1) rules
  | _ :: rules => declarations count rules

def used : Rule → List Place
  | transition _ inputs outputs => (inputs ++ outputs).map (⟨·, 0⟩)
  | _ => []

def assigned : Rule → List Place
  | assign name tokens => [⟨name, tokens⟩]
  | _ => []

def note? : Nat × Rule → Option Note
  | (line, context name c) => some ⟨name, line, c⟩
  | _ => none

end Petri.Rule

namespace Petri.Net

def ofRules (id : String) (numbered : List (Nat × Rule)) : Except Error Net :=
  let rules := numbered.map Prod.snd
  let marking := Marking.ofPlaces (rules.flatMap Rule.used ++ rules.flatMap Rule.assigned)
  let declared := Rule.declarations 0 rules
  let notes := Sorted.ofListBy Rule.Note.transition (numbered.filterMap Rule.note?)
  match notes.find? fun note => declared.all fun d => d.id ≠ note.transition with
  | some note => .error (.badLine note.line (.undeclared note.transition))
  | none =>
    let context? (id : String) : Option Context :=
      (notes.find? fun note => note.transition = id).map Rule.Note.context
    let blank : Draft := { id }
    let draft := marking.places.foldl (fun D p => D.place p.id p.tokens) blank
    (declared.foldl (fun D d => D.wire d.id (context? d.id) d.inputs d.outputs) draft).build

def ofText (id text : String) : Except Error Net := do
  ofRules id (← Rule.readText text)

end Petri.Net
