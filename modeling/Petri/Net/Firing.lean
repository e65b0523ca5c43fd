import Petri.Net.Basic

/-! Firing. Whether a transition is enabled is asked of its weights, but the tokens move along one arc after another, so
a place may pass its limit on the way even where the sum would not. -/

namespace Petri.Net

def tick (counts : Weights) (a : String) : Except Error Weights :=
  let n := ((counts.find? fun entry => entry.1 = a).map Prod.snd).getD 0
  if n.toNat = Numeral.largest then .error .weightOverflow
  else .ok (Sorted.insertBy Prod.fst (a, n + 1) counts)

def tally (l : List String) : Except Error Weights :=
  l.foldlM tick []

def consumption (N : Net) (t : String) : Except Error Weights :=
  tally ((N.incoming t).map Arc.source)

def production (N : Net) (t : String) : Except Error Weights :=
  tally ((N.outgoing t).map Arc.target)

def tryEnabled (N : Net) (t : String) : Except Error Bool :=
  if (N.transition? t).isNone then .ok false
  else do
    let needs ← N.consumption t
    return needs.all fun need => (N.place? need.1).any fun p => need.2 ≤ p.tokens

/-- As `tryEnabled`; a transition with more arcs from a place than can be counted is not enabled. -/
def isEnabled (N : Net) (t : String) : Bool :=
  (N.tryEnabled t).toOption.getD false

def enabled (N : Net) : List Transition :=
  N.transitions.filter fun t => N.isEnabled t.id

def pass (t : String) (m : Marking) (a : Arc) : Except Error Marking := do
  let m ← if a.target = t then m.take a.source else pure m
  if a.source = t then m.put a.target else pure m

def fire (N : Net) (t : String) : Except Error Net :=
  if (N.transition? t).isNone then .error (.unknownTransition t)
  else do
    if ← N.tryEnabled t then
      let m ← N.arcs.foldlM (pass t) N.marking
      return N.withMarking m
    else .error (.notEnabled t)

def share (m : Marking) (need : String × UInt32) : Except Error UInt32 :=
  if need.2 = 0 then .error .divisionByZero else .ok (m.tokens need.1 / need.2)

/-- How often `t` could fire at once; a transition without inputs counts as once. -/
def degree (N : Net) (t : String) : Except Error UInt32 := do
  let needs ← N.consumption t
  let shares ← needs.mapM (share N.marking)
  return shares.min?.getD 1

/-- The degree as a number, none where the weights cannot be counted. -/
def occurrences (N : Net) (t : String) : Nat :=
  (N.degree t).toOption.elim 0 UInt32.toNat

end Petri.Net
