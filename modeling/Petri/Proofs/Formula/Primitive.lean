import Mathlib
import Petri.Proofs.Run
import Petri.Formula.Evaluation

/-! A formula and its primitive form have the same truth value, or fail for the same cause at the same node. -/

namespace Petri

def Error.cause : Error → Error
  | .domainMismatch _ expected found n => .domainMismatch "" expected found n
  | e => e

def Agree {α : Type} (x y : Except Error α) : Prop :=
  x.mapError Error.cause = y.mapError Error.cause

namespace Agree

variable {α β : Type} {x y z : Except Error α} {l : List α}

lemma refl (x : Except Error α) : Agree x x := rfl

lemma symm (h : Agree x y) : Agree y x := Eq.symm h

lemma trans (h : Agree x y) (h' : Agree y z) : Agree x z := Eq.trans h h'

lemma error {e e' : Error} (h : e.cause = e'.cause) : Agree (.error e : Except Error α) (.error e') :=
  congrArg Except.error h

lemma eq_ok {a : α} (h : Agree (.ok a) y) : y = .ok a := by
  cases y with
  | error e => cases h
  | ok b =>
    cases h
    rfl

lemma cause_eq {e : Error} (h : Agree (.error e) y) : ∃ e', y = .error e' ∧ e.cause = e'.cause := by
  cases y with
  | error e' => exact ⟨e', rfl, Except.error.inj h⟩
  | ok b => cases h

lemma bind {f g : α → Except Error β} (h : Agree x y) (hfg : ∀ a, x = .ok a → Agree (f a) (g a)) :
    Agree (x >>= f) (y >>= g) := by
  cases x with
  | error e =>
    obtain ⟨e', rfl, he⟩ := h.cause_eq
    exact error he
  | ok a =>
    obtain rfl := h.eq_ok
    exact hfg a rfl

lemma ite {x y : Except Error Bool} {f f' g g' : Except Error β} (h : Agree x y)
    (hf : x = .ok true → Agree f f') (hg : x = .ok false → Agree g g') :
    Agree (do if ← x then f else g) (do if ← y then f' else g') := by
  apply h.bind
  intro b hb
  cases b with
  | true => exact hf hb
  | false => exact hg hb

lemma not {x y : Except Error Bool} (h : Agree x y) : Agree (do return !(← x)) (do return !(← y)) :=
  h.bind fun _ _ => refl _

variable {f g : α → Except Error Bool}

lemma anyM (h : ∀ a ∈ l, Agree (f a) (g a)) : Agree (l.anyM f) (l.anyM g) := by
  induction l with
  | nil => exact refl _
  | cons a l ih =>
    obtain ⟨ha, hl⟩ := List.forall_mem_cons.mp h
    rw [anyM_cons, anyM_cons]
    exact ha.ite (fun _ => refl _) fun _ => ih hl

lemma allM (h : ∀ a ∈ l, Agree (f a) (g a)) : Agree (l.allM f) (l.allM g) := by
  rw [allM_eq_not_anyM, allM_eq_not_anyM]
  exact (anyM fun a ha => (h a ha).not).not

end Agree

namespace PathSet

variable {P : PathSet} {hold hold' goal goal' : String → Except Error Bool} {n : String}

-- `hold` is asked only where `goal` has been found false
lemma agree_untilOn (hgoal : ∀ m, Agree (goal m) (goal' m))
    (hhold : ∀ m, goal m = .ok false → Agree (hold m) (hold' m)) (path : List String) :
    Agree (untilOn hold goal path) (untilOn hold' goal' path) := by
  fun_induction untilOn hold goal path with
  | case1 => exact .refl _
  | case2 n =>
    apply (hgoal n).ite fun _ => .refl _
    intro hn
    have hdiscard : Agree (discard (hold n)) (discard (hold' n)) := (hhold n hn).bind fun _ _ => .refl _
    exact hdiscard.bind fun _ _ => .refl _
  | case3 n _ path ih =>
    apply (hgoal n).ite fun _ => .refl _
    intro hn
    exact (hhold n hn).ite (fun _ => ih) fun _ => .refl _

lemma agree_existsUntil (hgoal : ∀ m, Agree (goal m) (goal' m))
    (hhold : ∀ m, goal m = .ok false → Agree (hold m) (hold' m)) :
    Agree (P.existsUntil hold goal n) (P.existsUntil hold' goal' n) :=
  Agree.anyM fun path _ => agree_untilOn hgoal hhold path

lemma agree_forallNext (hgoal : ∀ m, Agree (goal m) (goal' m)) :
    Agree (P.forallNext goal n) (P.forallNext goal' n) := by
  apply Agree.allM
  intro path _
  split
  · exact hgoal _
  · exact .refl _

lemma agree_existsSuccessor (hgoal : ∀ m, Agree (goal m) (goal' m)) :
    Agree (P.existsSuccessor goal n) (P.existsSuccessor goal' n) :=
  Agree.anyM fun m _ => hgoal m

end PathSet

namespace Formula

open PathSet

def isPrimitive : {d : Domain} → Formula d → Bool
  | _, tt => true
  | _, ff => true
  | _, atom _ _ => true
  | _, and f g => f.isPrimitive && g.isPrimitive
  | _, or f g => f.isPrimitive && g.isPrimitive
  | _, not f => f.isPrimitive
  | _, existsUntil hold goal => hold.isPrimitive && goal.isPrimitive
  | _, forallNext f => f.isPrimitive
  | _, ev _ => false
  | _, pos _ => false
  | _, along _ => false
  | _, modal f => f.isPrimitive
  | _, existsModal _ _ => false

variable {d : Domain} {P : PathSet} {f g : Formula d} {n : String} {v : Bool}

lemma isPrimitive_primitive (f : Formula d) : f.primitive.isPrimitive = true := by
  induction f with
  | existsModal f g hf hg =>
    change (f.primitive.isPrimitive && g.primitive.isPrimitive) = true
    rw [hf, hg]
    rfl
  | _ => simp_all [primitive, isPrimitive]

lemma agree_locate (N : Net) (f g : Formula d) (n : String) : Agree (locate N f n) (locate N g n) := by
  rw [locate, locate]
  cases N.node? n with
  | none => exact .refl _
  | some x =>
    by_cases hd : x.domain = d
    · simp only [if_pos hd]
      exact .refl _
    · simp only [if_neg hd]
      exact .error rfl

lemma locate_eq_ok {N : Net} {x : Node} (g : Formula d) (h : locate N f n = .ok x) : locate N g n = .ok x := by
  have hg := agree_locate N f g n
  rw [h] at hg
  exact hg.eq_ok

-- where some formula has a value, `tt` asks for no more than has been checked already
lemma eval_tt_of_eval_ok (h : f.eval P n = .ok v) : (tt : Formula d).eval P n = .ok true := by
  rw [eval] at h ⊢
  obtain ⟨x, hx, _⟩ := bind_eq_ok.mp h
  rw [locate_eq_ok tt hx]
  rfl

lemma agree_located {x y : Except Error Bool} (h : Agree x y) :
    Agree (locate P.net f n >>= fun _ => x) (locate P.net g n >>= fun _ => y) :=
  (agree_locate P.net f g n).bind fun _ _ => h

lemma agree_locate_eval (f g : Formula d) (n : String) :
    Agree (locate P.net f n >>= fun _ => g.eval P n) (g.eval P n) := by
  cases hf : locate P.net f n with
  | ok x => exact .refl _
  | error e =>
    have hg := agree_locate P.net f g n
    rw [hf] at hg
    obtain ⟨e', hg, he⟩ := hg.cause_eq
    rw [eval, hg]
    exact .error he

lemma agree_eval_not (f : Formula d) (n : String) : Agree ((not f).eval P n) (do return !(← f.eval P n)) := by
  have hassoc : (not f).eval P n = do return !(← locate P.net (not f) n >>= fun _ => f.eval P n) := by
    rw [eval, bind_assoc]
  rw [hassoc]
  exact (agree_locate_eval (not f) f n).not

lemma agree_until {goal goal' : String → Except Error Bool} (hgoal : ∀ m, Agree (goal m) (goal' m))
    (hvalue : ∀ m, goal m = .ok false → ∃ v, f.eval P m = .ok v) :
    Agree (P.existsUntil (fun _ => return true) goal n)
      (P.existsUntil (fun m => (tt : Formula d).eval P m) goal' n) := by
  apply agree_existsUntil hgoal
  intro m hm
  obtain ⟨v, hv⟩ := hvalue m hm
  rw [eval_tt_of_eval_ok hv]
  exact .refl _

lemma agree_eval_primitive (f : Formula d) (n : String) : Agree (f.eval P n) (f.primitive.eval P n) := by
  induction f generalizing n with
  | tt | ff | atom => exact .refl _
  | and f g hf hg =>
    rw [primitive, eval, eval]
    apply agree_located
    exact (hf n).ite (fun _ => hg n) fun _ => .refl _
  | or f g hf hg =>
    rw [primitive, eval, eval]
    apply agree_located
    exact (hf n).ite (fun _ => .refl _) fun _ => hg n
  | not f hf =>
    rw [primitive, eval, eval]
    apply agree_located
    exact (hf n).not
  | existsUntil f g hf hg =>
    rw [primitive, eval, eval]
    apply agree_located
    exact agree_existsUntil hg fun m _ => hf m
  | forallNext f hf =>
    rw [primitive, eval, eval]
    apply agree_located
    exact agree_forallNext hf
  | ev f hf | pos f hf =>
    rw [primitive, eval, eval]
    apply agree_located
    exact agree_until hf fun m hm => ⟨false, hm⟩
  | along f hf =>
    have hgoal : ∀ m, Agree (do return !(← f.eval P m)) ((not f.primitive).eval P m) := by
      intro m
      exact (hf m).not.trans (agree_eval_not f.primitive m).symm
    rw [primitive, eval, eval]
    apply (agree_locate _ _ _ _).bind
    intro x hx
    have huntil : Agree (P.existsUntil (fun _ => return true) (fun m => do return !(← f.eval P m)) n)
        ((existsUntil tt (not f.primitive)).eval P n) := by
      rw [eval, locate_eq_ok _ hx]
      apply agree_until hgoal
      intro m hm
      obtain ⟨v, hv, _⟩ := bind_eq_ok.mp hm
      exact ⟨v, hv⟩
    exact huntil.not
  | modal f hf =>
    rw [primitive, eval, eval]
    apply agree_located
    exact agree_existsSuccessor hf
  | existsModal f g _ _ =>
    rw [eval]
    exact agree_locate_eval _ _ n

theorem eval_primitive (f : Formula d) (P : PathSet) (n : String) :
    f.primitive.isPrimitive = true ∧ Agree (f.eval P n) (f.primitive.eval P n) :=
  ⟨isPrimitive_primitive f, agree_eval_primitive f n⟩

end Formula

end Petri
