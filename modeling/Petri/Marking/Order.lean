import Petri.Marking
import Std.Data.TreeMap

/-! A linear order on markings, place by place, for finding one among many. -/

namespace Petri

open Std

namespace Place

def cmp (p q : Place) : Ordering :=
  (compare p.tokens q.tokens).then (compare p.id q.id)

instance : TransCmp cmp :=
  inferInstanceAs (TransCmp (compareLex (compareOn Place.tokens) (compareOn Place.id)))

instance : LawfulEqCmp cmp where
  compare_self := ReflCmp.compare_self
  eq_of_compare {p q} h := by
    simp only [cmp, Ordering.then_eq_eq, LawfulEqOrd.compare_eq_iff_eq] at h
    cases p
    cases q
    simpa using h.symm

end Place

namespace Marking

def cmp (m n : Marking) : Ordering :=
  List.compareLex Place.cmp m.places n.places

instance : TransCmp cmp where
  eq_swap {m n} := by
    simp only [cmp]
    exact OrientedCmp.eq_swap
  isLE_trans {m n k} hmn hnk := by
    simp only [cmp] at hmn hnk ⊢
    exact TransCmp.isLE_trans hmn hnk

instance : LawfulEqCmp cmp where
  compare_self := ReflCmp.compare_self
  eq_of_compare {m n} h := by
    simp only [cmp] at h
    have := LawfulEqCmp.eq_of_compare h
    cases m
    cases n
    simpa using this

end Marking

end Petri
