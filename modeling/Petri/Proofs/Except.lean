import Mathlib

/-! Computations that can fail, and loops of them. -/

namespace Petri

variable {ε α β : Type} {x : Except ε α}

lemma exists_eq_ok (h : x.isOk = true) : ∃ a, x = .ok a := by
  cases x with
  | error e => cases h
  | ok a => exact ⟨a, rfl⟩

lemma toOption_eq_some_iff {a : α} : x.toOption = some a ↔ x = .ok a := by
  cases x <;> simp [Except.toOption]

lemma bind_eq_ok {f : α → Except ε β} {b : β} : (x >>= f) = .ok b ↔ ∃ a, x = .ok a ∧ f a = .ok b := by
  cases x with
  | error e =>
    constructor
    · intro h
      cases h
    · rintro ⟨_, h, _⟩
      cases h
  | ok a =>
    constructor
    · intro h
      exact ⟨a, rfl, h⟩
    · rintro ⟨_, h, hf⟩
      cases h
      exact hf

lemma mapM_eq_ok {f : α → Except ε β} {l : List α} {r : List β} :
    l.mapM f = .ok r ↔ List.Forall₂ (fun a b => f a = .ok b) l r := by
  induction l generalizing r with
  | nil =>
    rw [List.mapM_nil, List.forall₂_nil_left_iff]
    constructor
    · intro h
      cases h
      rfl
    · rintro rfl
      rfl
  | cons a l ih =>
    rw [List.mapM_cons, bind_eq_ok, List.forall₂_cons_left_iff]
    constructor
    · rintro ⟨b, hb, h⟩
      obtain ⟨r', hr', h⟩ := bind_eq_ok.mp h
      cases h
      exact ⟨b, r', hb, ih.mp hr', rfl⟩
    · rintro ⟨b, r', hb, hr', rfl⟩
      exact ⟨b, hb, bind_eq_ok.mpr ⟨r', ih.mpr hr', rfl⟩⟩

lemma exists_of_mem_mapM {f : α → Except ε β} {l : List α} {r : List β} (h : l.mapM f = .ok r) {b : β} (hb : b ∈ r) :
    ∃ a ∈ l, f a = .ok b := by
  have hr := mapM_eq_ok.mp h
  clear h
  induction hr with
  | nil => cases hb
  | @cons a b' l r hab _ ih =>
    rcases List.mem_cons.mp hb with rfl | hb
    · exact ⟨a, List.mem_cons_self, hab⟩
    · obtain ⟨a', ha', hab'⟩ := ih hb
      exact ⟨a', List.mem_cons_of_mem a ha', hab'⟩

lemma foldlM_induction {f : β → α → Except ε β} {P : β → Prop} {l : List α} {b c : β} (h : l.foldlM f b = .ok c)
    (hb : P b) (hstep : ∀ b a b', a ∈ l → P b → f b a = .ok b' → P b') : P c := by
  induction l generalizing b with
  | nil =>
    cases h
    exact hb
  | cons a l ih =>
    rw [List.foldlM_cons] at h
    obtain ⟨b', hb', h⟩ := bind_eq_ok.mp h
    exact ih h (hstep b a b' List.mem_cons_self hb hb')
      fun d e d' he => hstep d e d' (List.mem_cons_of_mem a he)

lemma foldlM_append_ok {f : β → α → Except ε β} {l l' : List α} {b c d : β} (h : l.foldlM f b = .ok c)
    (h' : l'.foldlM f c = .ok d) : (l ++ l').foldlM f b = .ok d := by
  rw [List.foldlM_append]
  exact bind_eq_ok.mpr ⟨c, h, h'⟩

lemma anyM_cons (f : α → Except ε Bool) (a : α) (l : List α) :
    (a :: l).anyM f = (do if ← f a then return true else l.anyM f) := by
  rw [List.anyM]
  refine bind_congr fun b => ?_
  cases b <;> rfl

lemma allM_eq_not_anyM (f : α → Except ε Bool) (l : List α) :
    l.allM f = (do return !(← l.anyM fun a => do return !(← f a))) := by
  simp only [List.allM_eq_not_anyM_not, map_eq_pure_bind]

section

variable {σ : Type} {step : σ → Option (Except ε σ)} {stops : σ → Prop} {result : σ → α} {s : σ} {y : Except ε α}

inductive Ends (step : σ → Option (Except ε σ)) (stops : σ → Prop) (result : σ → α) : σ → Except ε α → Prop
  | done {s : σ} : stops s → Ends step stops result s (.ok (result s))
  | failed {s : σ} {e : ε} : step s = some (.error e) → Ends step stops result s (.error e)
  | next {s t : σ} {x : Except ε α} : step s = some (.ok t) → Ends step stops result t x → Ends step stops result s x

lemma Ends.unique (hstops : ∀ s, stops s → step s = none) (hx : Ends step stops result s x)
    (hy : Ends step stops result s y) : x = y := by
  induction hx with
  | done hs =>
    cases hy with
    | done => rfl
    | failed hs' | next hs' => cases (hstops _ hs).symm.trans hs'
  | failed hs =>
    cases hy with
    | done hs' => cases (hstops _ hs').symm.trans hs
    | failed hs' =>
      cases hs.symm.trans hs'
      rfl
    | next hs' => cases hs.symm.trans hs'
  | next hs _ ih =>
    cases hy with
    | done hs' => cases (hstops _ hs').symm.trans hs
    | failed hs' => cases hs.symm.trans hs'
    | next hs' hy =>
      cases hs.symm.trans hs'
      exact ih hy

lemma Ends.acc (hstops : ∀ s, stops s → step s = none) (h : Ends step stops result s x) :
    Acc (fun t s => step s = some (.ok t)) s := by
  induction h with
  | done hs => exact ⟨_, fun t ht => by cases (hstops _ hs).symm.trans ht⟩
  | failed hs => exact ⟨_, fun t ht => by cases hs.symm.trans ht⟩
  | next hs _ ih =>
    refine ⟨_, fun t ht => ?_⟩
    cases hs.symm.trans ht
    exact ih

end

end Petri
