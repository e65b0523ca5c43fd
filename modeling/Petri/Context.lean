import Petri.Sorted

/-! What a transition does to data: the tags it requires, reads, writes and erases. -/

namespace Petri

structure Tags where
  toList : List String
  ascending : Ascending (fun t => t) toList
deriving DecidableEq

namespace Tags

def ofList (l : List String) : Tags :=
  ⟨Sorted.ofList l, Sorted.ascending_ofListBy _ l⟩

def empty : Tags := ⟨[], List.Pairwise.nil⟩

def contains (s : Tags) (tag : String) : Bool :=
  s.toList.contains tag

end Tags

inductive Kind where
  | app
  | control
deriving DecidableEq

def Kind.name : Kind → String
  | .app => "app"
  | .control => "control"

structure Context where
  kind : Kind := .control
  read : Option String := none
  write : Option String := none
  erase : Option String := none
  required : Tags := .empty
deriving DecidableEq

namespace Context

def reads (c : Context) (tag : String) : Bool :=
  c.read == some tag

def writes (c : Context) (tag : String) : Bool :=
  c.write == some tag

def erases (c : Context) (tag : String) : Bool :=
  c.erase == some tag

def requires (c : Context) (tag : String) : Bool :=
  c.required.contains tag

def summary (c : Context) : String :=
  let effect (mark : String) (tag : Option String) : List String := tag.toList.map (mark ++ ·)
  let needs := if c.required.toList.isEmpty then [] else ["ctx:" ++ "+".intercalate c.required.toList]
  " ".intercalate (effect "r:" c.read ++ effect "w:" c.write ++ effect "e:" c.erase ++ needs)

end Context

end Petri
