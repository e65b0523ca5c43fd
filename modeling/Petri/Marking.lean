import Petri.Error
import Petri.Sorted

/-! Markings: how many tokens each place holds, at most `Numeral.largest`. -/

namespace Petri

structure Place where
  id : String
  tokens : UInt32
deriving DecidableEq

structure Marking where
  places : List Place
  ascending : Ascending Place.id places
deriving DecidableEq

/-- Tokens to be taken from places or put on them, by ascending place. -/
abbrev Weights := List (String × UInt32)

namespace Marking

def ofPlaces (l : List Place) : Marking :=
  ⟨Sorted.ofListBy Place.id l, Sorted.ascending_ofListBy _ l⟩

def ids (m : Marking) : List String :=
  m.places.map Place.id

def place? (m : Marking) (id : String) : Option Place :=
  m.places.find? fun p => p.id = id

def tokens (m : Marking) (id : String) : UInt32 :=
  match m.place? id with
  | some p => p.tokens
  | none => 0

def marked (m : Marking) : List Place :=
  m.places.filter fun p => p.tokens ≠ 0

def total (m : Marking) : Nat :=
  m.places.foldl (fun sum p => sum + p.tokens.toNat) 0

theorem ascending_map {l : List Place} (f : Place → UInt32) (h : Ascending Place.id l) :
    Ascending Place.id (l.map fun p => { p with tokens := f p }) :=
  List.pairwise_map.2 h

def mapTokens (m : Marking) (f : Place → UInt32) : Marking :=
  ⟨m.places.map fun p => { p with tokens := f p }, ascending_map f m.ascending⟩

@[simp]
theorem ids_mapTokens (m : Marking) (f : Place → UInt32) : (m.mapTokens f).ids = m.ids := by
  simp [ids, mapTokens]

def adjust (m : Marking) (id : String) (f : UInt32 → UInt32) : Marking :=
  m.mapTokens fun p => if p.id = id then f p.tokens else p.tokens

def override (m other : Marking) : Marking :=
  m.mapTokens fun p =>
    match other.place? p.id with
    | some q => q.tokens
    | none => p.tokens

@[simp]
theorem ids_override (m other : Marking) : (m.override other).ids = m.ids :=
  ids_mapTokens m _

def put (m : Marking) (id : String) : Except Error Marking :=
  if (m.tokens id).toNat = Numeral.largest then .error .tokenOverflow
  else .ok (m.adjust id (· + 1))

def take (m : Marking) (id : String) : Except Error Marking :=
  if m.tokens id = 0 then .error .tokenUnderflow
  else .ok (m.adjust id (· - 1))

def covers (m : Marking) (needs : Weights) : Bool :=
  needs.all fun need => need.2 ≤ m.tokens need.1

def remove (m : Marking) (needs : Weights) : Marking :=
  needs.foldl (fun m need => m.adjust need.1 fun n => UInt32.ofNat (n.toNat - need.2.toNat)) m

def alternatives (m : Marking) : Nat :=
  Nat.pow (Numeral.largest + 1) m.places.length

end Marking

end Petri
