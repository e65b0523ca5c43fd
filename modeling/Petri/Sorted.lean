/-! Lists in strictly ascending order of a key, as the canonical form of finite sets and maps. -/

namespace Petri

abbrev Ascending {α κ : Type} [LT κ] (key : α → κ) (l : List α) : Prop :=
  l.Pairwise fun a b => key a < key b

namespace Sorted

variable {α κ : Type} [LT κ] [DecidableLT κ] [DecidableEq κ]

/-- Puts `a` at its place; an entry with the same key gives way. -/
def insertBy (key : α → κ) (a : α) : List α → List α
  | [] => [a]
  | b :: l =>
    if key a < key b then a :: b :: l
    else if key a = key b then a :: l
    else b :: insertBy key a l

/-- The entries of `l` in ascending order; of several with one key the last stays. -/
def ofListBy (key : α → κ) (l : List α) : List α :=
  l.foldl (fun sorted a => insertBy key a sorted) []

def ofList (l : List κ) : List κ :=
  ofListBy (fun a => a) l

theorem mem_of_mem_insertBy {key : α → κ} {a b : α} {l : List α} (h : b ∈ insertBy key a l) :
    b = a ∨ b ∈ l := by
  induction l with
  | nil => simpa [insertBy] using h
  | cons c l ih => grind [insertBy]

theorem mem_of_mem_foldl {key : α → κ} {b : α} {l sorted : List α}
    (h : b ∈ l.foldl (fun sorted a => insertBy key a sorted) sorted) : b ∈ l ∨ b ∈ sorted := by
  induction l generalizing sorted with
  | nil => exact Or.inr h
  | cons a l ih =>
    rcases ih h with h | h
    · exact Or.inl (List.mem_cons_of_mem a h)
    · rcases mem_of_mem_insertBy h with rfl | h
      · exact Or.inl List.mem_cons_self
      · exact Or.inr h

theorem mem_of_mem_ofListBy {key : α → κ} {b : α} {l : List α} (h : b ∈ ofListBy key l) : b ∈ l := by
  rcases mem_of_mem_foldl h with h | h
  · exact h
  · simp at h

variable [LE κ] [Std.IsLinearOrder κ] [Std.LawfulOrderLT κ]

theorem ascending_insertBy {key : α → κ} (a : α) {l : List α} (h : Ascending key l) :
    Ascending key (insertBy key a l) := by
  induction l with
  | nil => simp [insertBy]
  | cons b l ih =>
    have hb := List.pairwise_cons.1 h
    simp only [insertBy]
    split
    · next hab =>
      refine List.pairwise_cons.2 ⟨fun c hc => ?_, h⟩
      rcases List.mem_cons.1 hc with rfl | hc
      · exact hab
      · exact Std.lt_trans hab (hb.1 c hc)
    · split
      · next hab => exact List.pairwise_cons.2 ⟨fun c hc => hab ▸ hb.1 c hc, hb.2⟩
      · next hlt hne =>
        refine List.pairwise_cons.2 ⟨fun c hc => ?_, ih hb.2⟩
        rcases mem_of_mem_insertBy hc with rfl | hc
        · exact Std.lt_of_le_of_ne (Std.not_lt.1 hlt) (Ne.symm hne)
        · exact hb.1 c hc

theorem ascending_foldl {key : α → κ} (l : List α) {sorted : List α} (h : Ascending key sorted) :
    Ascending key (l.foldl (fun sorted a => insertBy key a sorted) sorted) := by
  induction l generalizing sorted with
  | nil => exact h
  | cons a l ih => exact ih (ascending_insertBy a h)

theorem ascending_ofListBy (key : α → κ) (l : List α) : Ascending key (ofListBy key l) :=
  ascending_foldl l List.Pairwise.nil

end Sorted

end Petri
