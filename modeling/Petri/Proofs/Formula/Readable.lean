import Mathlib
import Petri.Formula.Printer
import Petri.Proofs.Text.Cut

/-! A formula can be read off its text, since a symbol stops at a comma or a parenthesis and a label at the first
closing parenthesis. -/

namespace Petri

namespace Text

def isMark (c : Char) : Bool :=
  c = '(' || c = ',' || c = ')'

/-- The text is at its end, or goes on behind an operand. -/
def Stops (s : List Char) : Prop :=
  ∀ c ∈ s.head?, c = ',' ∨ c = ')'

lemma stops_nil : Stops [] := nofun

lemma takeWhile_append_eq {q : Char → Bool} {a s : List Char} (ha : ∀ c ∈ a, q c = true)
    (hs : ∀ c ∈ s.head?, q c = false) : (a ++ s).takeWhile q = a := by
  rw [List.takeWhile_append_of_pos ha]
  cases s with
  | nil => rw [List.takeWhile_nil, List.append_nil]
  | cons c s => rw [List.takeWhile_cons_of_neg (by simp [hs c rfl]), List.append_nil]

lemma append_inj_of_takeWhile {q : Char → Bool} {a b s t : List Char} (ha : ∀ c ∈ a, q c = true)
    (hb : ∀ c ∈ b, q c = true) (hs : ∀ c ∈ s.head?, q c = false) (ht : ∀ c ∈ t.head?, q c = false)
    (h : a ++ s = b ++ t) : a = b ∧ s = t := by
  have hab : a = b := by rw [← takeWhile_append_eq ha hs, h, takeWhile_append_eq hb ht]
  subst hab
  exact ⟨rfl, List.append_cancel_left h⟩

end Text

namespace Formula

open Text

variable {d : Domain} {f g : Formula d} {head label label' x x' y y' : String} {same same' : Prop} {s t : List Char}

def labels : {d : Domain} → Formula d → List String
  | _, tt => []
  | _, ff => []
  | _, atom label _ => [label]
  | _, and f g => f.labels ++ g.labels
  | _, or f g => f.labels ++ g.labels
  | _, not f => f.labels
  | _, existsUntil hold goal => hold.labels ++ goal.labels
  | _, forallNext f => f.labels
  | _, ev f => f.labels
  | _, pos f => f.labels
  | _, along f => f.labels
  | _, modal f => f.labels
  | _, existsModal f g => f.labels ++ g.labels

lemma toList_applied (head : String) (operands : List String) : (applied head operands).toList =
    head.toList ++ '(' :: (joined (operands.map String.toList) ++ [')']) := by
  simp [applied, joined, String.toList_intercalate]

/-- Whatever comes behind them, the texts `x` and `y` begin alike only if `same` holds. -/
def Tells (x y : String) (same : Prop) : Prop :=
  ∀ s t, Stops s → Stops t → x.toList ++ s = y.toList ++ t → same ∧ s = t

lemma Tells.imp (h : Tells x y same) (himp : same → same') : Tells x y same' := fun s t hs ht heq =>
  (h s t hs ht heq).imp_left himp

lemma tells_self (x : String) : Tells x x True := fun _ _ _ _ heq =>
  ⟨trivial, List.append_cancel_left heq⟩

lemma Tells.applied_one (h : Tells x y same) : Tells (applied head [x]) (applied head [y]) same := by
  intro s t hs ht heq
  simp only [toList_applied, List.map_cons, List.map_nil, joined_singleton, List.append_assoc, List.cons_append,
    List.append_cancel_left_eq, List.cons.injEq, true_and, List.nil_append] at heq
  obtain ⟨hsame, hrest⟩ := h (')' :: s) (')' :: t) (by simp [Stops]) (by simp [Stops]) heq
  exact ⟨hsame, (List.cons.inj hrest).2⟩

lemma Tells.applied_two (h : Tells x y same) (h' : Tells x' y' same') :
    Tells (applied head [x, x']) (applied head [y, y']) (same ∧ same') := by
  intro s t hs ht heq
  simp only [toList_applied, List.map_cons, List.map_nil, joined_cons_cons, joined_singleton, List.append_assoc,
    List.cons_append, List.append_cancel_left_eq, List.cons.injEq, true_and, List.nil_append] at heq
  obtain ⟨hsame, hrest⟩ := h (',' :: ' ' :: (x'.toList ++ ')' :: s)) (',' :: ' ' :: (y'.toList ++ ')' :: t))
    (by simp [Stops]) (by simp [Stops]) heq
  simp only [List.cons.injEq, true_and] at hrest
  obtain ⟨hsame', hrest⟩ := h' (')' :: s) (')' :: t) (by simp [Stops]) (by simp [Stops]) hrest
  exact ⟨⟨hsame, hsame'⟩, (List.cons.inj hrest).2⟩

lemma tells_label (h : ')' ∉ label.toList) (h' : ')' ∉ label'.toList) :
    Tells (applied head [label]) (applied head [label']) (label = label') := by
  intro s t _ _ heq
  simp only [toList_applied, List.map_cons, List.map_nil, joined_singleton, List.append_assoc, List.cons_append,
    List.append_cancel_left_eq, List.cons.injEq, true_and, List.nil_append] at heq
  have hlabel : ∀ l : List Char, ')' ∉ l → ∀ c ∈ l, decide (c ≠ ')') = true := by
    intro l hl c hc
    simpa using fun hce : c = ')' => hl (hce ▸ hc)
  obtain ⟨hsame, hrest⟩ := append_inj_of_takeWhile (hlabel _ h) (hlabel _ h') (by simp) (by simp) heq
  exact ⟨String.toList_inj.mp hsame, (List.cons.inj hrest).2⟩

lemma isMark_symbol (f : Formula d) : ∀ c ∈ f.symbol.toList, (!isMark c) = true := by
  cases f with
  | atom label condition => cases d <;> simp [symbol, isMark]
  | _ => simp [symbol, isMark]

lemma exists_toList_render (f : Formula d) :
    ∃ s, f.render.toList = f.symbol.toList ++ s ∧ ∀ c ∈ s.head?, c = '(' := by
  cases f with
  | tt => exact ⟨[], by simp [render, symbol]⟩
  | ff => exact ⟨[], by simp [render, symbol]⟩
  | _ => exact ⟨_, toList_applied _ _, by simp⟩

lemma symbol_eq (hs : Stops s) (ht : Stops t) (h : f.render.toList ++ s = g.render.toList ++ t) :
    f.symbol = g.symbol := by
  have hmark : ∀ u v : List Char, (∀ c ∈ u.head?, c = '(') → Stops v → ∀ c ∈ (u ++ v).head?, (!isMark c) = false := by
    intro u v hu hv c hc
    cases u with
    | nil => rcases hv c hc with rfl | rfl <;> rfl
    | cons a u =>
      obtain rfl := hu c hc
      rfl
  obtain ⟨u, hu, hopen⟩ := exists_toList_render f
  obtain ⟨v, hv, hopen'⟩ := exists_toList_render g
  rw [hu, hv, List.append_assoc, List.append_assoc] at h
  exact String.toList_inj.mp
    (append_inj_of_takeWhile (isMark_symbol f) (isMark_symbol g) (hmark u s hopen hs) (hmark v t hopen' ht) h).1

inductive Alike : {d : Domain} → Formula d → Formula d → Prop
  | tt {d : Domain} : Alike (tt : Formula d) tt
  | ff {d : Domain} : Alike (ff : Formula d) ff
  | atom {d : Domain} (label label' : String) (condition condition' : Predicate d) :
      Alike (atom label condition) (atom label' condition')
  | and {d : Domain} (f g f' g' : Formula d) : Alike (and f g) (and f' g')
  | or {d : Domain} (f g f' g' : Formula d) : Alike (or f g) (or f' g')
  | not {d : Domain} (f f' : Formula d) : Alike (not f) (not f')
  | existsUntil {d : Domain} (f g f' g' : Formula d) : Alike (existsUntil f g) (existsUntil f' g')
  | forallNext {d : Domain} (f f' : Formula d) : Alike (forallNext f) (forallNext f')
  | ev {d : Domain} (f f' : Formula d) : Alike (ev f) (ev f')
  | pos {d : Domain} (f f' : Formula d) : Alike (pos f) (pos f')
  | along {d : Domain} (f f' : Formula d) : Alike (along f) (along f')
  | modal {d : Domain} (f f' : Formula d.other) : Alike (modal f) (modal f')
  | existsModal (f f' : Formula .state) (g g' : Formula .transition) : Alike (existsModal f g) (existsModal f' g')

lemma alike_of_symbol_eq (h : f.symbol = g.symbol) : Alike f g := by
  -- with the sort the conditions have one symbol, and no two operators share theirs
  cases d <;> cases f <;> cases g <;> simp [symbol] at h <;> constructor

lemma tells_of_alike (h : Alike f g → Tells f.render g.render same) : Tells f.render g.render same :=
  fun s t hs ht heq => h (alike_of_symbol_eq (symbol_eq hs ht heq)) s t hs ht heq

lemma tells_render (hf : ∀ l ∈ f.labels, ')' ∉ l.toList) (hg : ∀ l ∈ g.labels, ')' ∉ l.toList) :
    Tells f.render g.render (f.same g = true) := by
  induction f with
  | tt | ff =>
    refine tells_of_alike fun halike => ?_
    cases halike
    exact (tells_self _).imp fun _ => rfl
  | @atom d label condition =>
    refine tells_of_alike fun halike => ?_
    cases halike
    simp only [labels, List.forall_mem_singleton] at hf hg
    simp only [render, same, decide_eq_true_eq]
    cases d with
    | state => exact tells_label hf hg
    | transition => exact tells_label hf hg
  | and f h ihf ihh | or f h ihf ihh | existsUntil f h ihf ihh | existsModal f h ihf ihh =>
    refine tells_of_alike fun halike => ?_
    cases halike
    simp only [labels, List.forall_mem_append] at hf hg
    simp only [render, same, Bool.and_eq_true]
    exact (ihf hf.1 hg.1).applied_two (ihh hf.2 hg.2)
  | not f ih | forallNext f ih | ev f ih | pos f ih | along f ih | modal f ih =>
    refine tells_of_alike fun halike => ?_
    cases halike
    simp only [labels] at hf hg
    simp only [render, same]
    exact (ih hf hg).applied_one

lemma render_eq_of_same (h : f.same g = true) : f.render = g.render := by
  fun_induction same f g with
  | case1 | case2 => rfl
  | case3 d label condition label' condition' =>
    obtain rfl := of_decide_eq_true h
    cases d <;> rfl
  | case4 d f g f' g' ihf ihg | case5 d f g f' g' ihf ihg | case7 d f g f' g' ihf ihg | case13 f g f' g' ihf ihg =>
    obtain ⟨hf, hg⟩ := Bool.and_eq_true_iff.mp h
    rw [render, render, ihf hf, ihg hg]
  | case6 d f f' ih | case8 d f f' ih | case9 d f f' ih | case10 d f f' ih | case11 d f f' ih | case12 d f f' ih =>
    rw [render, render, ih h]
  | case14 => cases h

theorem render_eq_iff_same (f g : Formula d) (hf : ∀ l ∈ f.labels, ')' ∉ l.toList)
    (hg : ∀ l ∈ g.labels, ')' ∉ l.toList) : f.render = g.render ↔ f.same g = true := by
  refine ⟨fun h => ?_, render_eq_of_same⟩
  exact (tells_render hf hg [] [] stops_nil stops_nil (by rw [h])).1

def anyPlace (label : String) : Formula .state :=
  atom label fun _ => true

def crowdedLeft : Formula .state :=
  and (and (anyPlace "a, NF") (anyPlace "TT")) (modal (atom "" fun _ => true))

def crowdedRight : Formula .state :=
  and (anyPlace "a, NF") (and (anyPlace "TT") (modal (atom "" fun _ => true)))

theorem render_eq_iff_same_crowded : (∀ l ∈ crowdedLeft.labels, ')' ∉ l.toList) ∧
    (∀ l ∈ crowdedRight.labels, ')' ∉ l.toList) ∧ crowdedLeft.render ≠ crowdedRight.render := by
  have hlabels : ∀ l ∈ ["a, NF", "TT", ""], ')' ∉ l.toList := by simp
  refine ⟨hlabels, hlabels, fun h => ?_⟩
  cases (render_eq_iff_same crowdedLeft crowdedRight hlabels hlabels).mp h

-- such a label looks like the end of one operand and the beginning of the next
example : (and (anyPlace "a), NF(b") (anyPlace "c")).render = (and (anyPlace "a") (anyPlace "b), NF(c")).render := by
  cbv

end Formula

end Petri
