import Mathlib
import Petri.Proofs.Formula.Walk
import Petri.Proofs.MarkingGraph.Exploration
import Petri.Formula.Evaluation

/-! The meaning of a formula by walks of any length. Evaluation over paths that are cut off at a repetition decides it.
-/

namespace Petri

def Decides (x : Except Error Bool) (q : Prop) : Prop :=
  ∃ v, x = .ok v ∧ (v = true ↔ q)

namespace Decides

variable {α : Type} {x y : Except Error Bool} {q r : Prop}

lemma congr (h : Decides x q) (hqr : q ↔ r) : Decides x r := by
  obtain ⟨v, hv, hq⟩ := h
  exact ⟨v, hv, hq.trans hqr⟩

lemma ok (v : Bool) : Decides (.ok v) (v = true) :=
  ⟨v, rfl, Iff.rfl⟩

lemma not (h : Decides x q) : Decides (do return !(← x)) (¬ q) := by
  obtain ⟨v, rfl, hq⟩ := h
  refine ⟨!v, rfl, ?_⟩
  rw [← hq]
  simp

lemma ite (h : Decides x q) {y z : Except Error Bool} {r s : Prop} (hy : q → Decides y r)
    (hz : ¬ q → Decides z s) :
    Decides (do if ← x then y else z) ((q ∧ r) ∨ (¬ q ∧ s)) := by
  obtain ⟨v, rfl, hq⟩ := h
  cases v with
  | true =>
    have hq' := hq.mp rfl
    exact (hy hq').congr (by simp [hq'])
  | false =>
    have hq' : ¬ q := fun hh => by simpa using hq.mpr hh
    exact (hz hq').congr (by simp [hq'])

lemma and (hx : Decides x q) (hy : Decides y r) : Decides (do if ← x then y else return false) (q ∧ r) :=
  (hx.ite (fun _ => hy) fun _ => ok false).congr (by simp)

lemma or (hx : Decides x q) (hy : Decides y r) : Decides (do if ← x then return true else y) (q ∨ r) :=
  (hx.ite (fun _ => ok true) fun _ => hy).congr (by simp; tauto)

variable {f : α → Except Error Bool} {p : α → Prop} {l : List α}

lemma anyM (h : ∀ a ∈ l, Decides (f a) (p a)) : Decides (l.anyM f) (∃ a ∈ l, p a) := by
  induction l with
  | nil => exact (ok false).congr (by simp)
  | cons a l ih =>
    obtain ⟨ha, hl⟩ := List.forall_mem_cons.mp h
    rw [anyM_cons]
    exact (ha.or (ih hl)).congr (by simp)

lemma allM (h : ∀ a ∈ l, Decides (f a) (p a)) : Decides (l.allM f) (∀ a ∈ l, p a) := by
  rw [allM_eq_not_anyM]
  exact (anyM fun a ha => (h a ha).not).not.congr (by simp)

end Decides

namespace PathSet

variable {N : Net} {G : MarkingGraph} {P : PathSet} {budget : Budget} {d : Domain} {n : String}
  {hold goal : String → Except Error Bool} {H Q : String → Prop} {path : List String}

/-- Along `path`, `Q` holds at an even position and `H` at those before it. -/
def UntilOn (H Q : String → Prop) (path : List String) : Prop :=
  ∃ k a, path[2 * k]? = some a ∧ Q a ∧ ∀ i < k, ∃ b, path[2 * i]? = some b ∧ H b

lemma not_untilOn_nil : ¬ UntilOn H Q [] := by
  rintro ⟨k, a, ha, -⟩
  simp at ha

lemma untilOn_singleton : UntilOn H Q [n] ↔ Q n := by
  constructor
  · rintro ⟨k, a, ha, hQ, -⟩
    cases k with
    | zero =>
      obtain rfl : n = a := by simpa using ha
      exact hQ
    | succ k => simp [Nat.mul_add] at ha
  · intro hQ
    exact ⟨0, n, rfl, hQ, by simp⟩

lemma untilOn_cons_cons {m : String} : UntilOn H Q (n :: m :: path) ↔ Q n ∨ (H n ∧ UntilOn H Q path) := by
  constructor
  · rintro ⟨k, a, ha, hQ, hH⟩
    cases k with
    | zero =>
      obtain rfl : n = a := by simpa using ha
      exact Or.inl hQ
    | succ k =>
      obtain ⟨b, hb, hHb⟩ := hH 0 (by omega)
      obtain rfl : n = b := by simpa using hb
      refine Or.inr ⟨hHb, k, a, by simpa [Nat.mul_add] using ha, hQ, fun i hi => ?_⟩
      simpa [Nat.mul_add] using hH (i + 1) (by omega)
  · rintro (hQ | ⟨hHn, k, a, ha, hQ, hH⟩)
    · exact ⟨0, n, rfl, hQ, by simp⟩
    · refine ⟨k + 1, a, by simpa [Nat.mul_add] using ha, hQ, fun i hi => ?_⟩
      cases i with
      | zero => exact ⟨n, rfl, hHn⟩
      | succ i => simpa [Nat.mul_add] using hH i (by omega)

lemma decides_untilOn
    (h : ∀ i a, path[2 * i]? = some a → Decides (hold a) (H a) ∧ Decides (goal a) (Q a)) :
    Decides (untilOn hold goal path) (UntilOn H Q path) := by
  fun_induction untilOn hold goal path with
  | case1 => exact (Decides.ok false).congr (by simpa using not_untilOn_nil)
  | case2 n =>
    obtain ⟨⟨v, hv, -⟩, hgoal⟩ := h 0 n rfl
    rw [hv]
    exact (hgoal.or (Decides.ok false)).congr (by simp [untilOn_singleton])
  | case3 n m path ih =>
    obtain ⟨hhold, hgoal⟩ := h 0 n rfl
    have hpath := ih fun i a ha => h (i + 1) a (by simpa [Nat.mul_add] using ha)
    exact (hgoal.or (hhold.and hpath)).congr untilOn_cons_cons.symm

lemma arc_of_mem_startingAt (hP : ofGraph budget G = .ok P) (hp : path ∈ P.startingAt n) {i : ℕ}
    (hi : i + 1 < path.length) : LiveArc G.initial G (path.getD i n) (path.getD (i + 1) n) := by
  have hchain := List.isChain_iff_getElem.mp (isChain_of_mem_startingAt hP hp).2 i hi
  rwa [List.getD_eq_getElem _ _ (by omega), List.getD_eq_getElem _ _ hi]

lemma getD_zero_of_mem_startingAt (hP : ofGraph budget G = .ok P) (hp : path ∈ P.startingAt n) :
    path.getD 0 n = n := by
  have hhead := (isChain_of_mem_startingAt hP hp).1
  rw [List.head?_eq_getElem?] at hhead
  simp [hhead]

lemma isNode_of_mem_startingAt (hP : ofGraph budget G = .ok P) (hn : G.initial.IsNode d n)
    (hp : path ∈ P.startingAt n) {i : ℕ} {a : String} (ha : path[2 * i]? = some a) : G.initial.IsNode d a := by
  have hlt := (List.getElem?_eq_some_iff.mp ha).1
  have hnode := isNode_walk (m := path.length - 1) (w := fun i => path.getD i n)
    ((getD_zero_of_mem_startingAt hP hp).symm ▸ hn)
    (fun i hi => arc_of_mem_startingAt hP hp (by omega)) (show 2 * i ≤ path.length - 1 by omega)
  rwa [Domain.other_involutive.iterate_two_mul, id, List.getD_eq_getElem?_getD, ha] at hnode

lemma untilWalk_of_untilOn (hP : ofGraph budget G = .ok P) (hp : path ∈ P.startingAt n) (h : UntilOn H Q path) :
    ∃ k w, UntilWalk (LiveArc G.initial G) H Q n k w := by
  obtain ⟨k, a, ha, hQ, hH⟩ := h
  have hlt := (List.getElem?_eq_some_iff.mp ha).1
  refine ⟨k, fun i => path.getD i n, getD_zero_of_mem_startingAt hP hp, ?_, ?_, ?_⟩
  · intro i hi
    exact arc_of_mem_startingAt hP hp (by omega)
  · simpa [List.getD_eq_getElem?_getD, ha] using hQ
  · intro i hi
    obtain ⟨b, hb, hHb⟩ := hH i hi
    simpa [List.getD_eq_getElem?_getD, hb] using hHb

lemma untilOn_of_untilWalk (hP : ofGraph budget G = .ok P) (hn : G.initial.IsNode d n) (hlive : Live G.initial G n)
    (h : ∃ k w, UntilWalk (LiveArc G.initial G) H Q n k w) : ∃ p ∈ P.startingAt n, UntilOn H Q p := by
  obtain ⟨k, w, hw, hnodup⟩ := exists_simple_untilWalk (fun k w hw i j hij hj heq => by
    have h0 : G.initial.IsNode d (w 0) := hw.start.symm ▸ hn
    have hi := isNode_walk h0 hw.arcs (show i ≤ 2 * k by omega)
    have hj := isNode_walk h0 hw.arcs hj
    exact Domain.iterate_other_eq_iff ((heq ▸ hi).unique hj)) h
  have hchain : ((List.range (2 * k + 1)).map w).IsChain (LiveArc G.initial G) := by
    rw [List.isChain_iff_getElem]
    intro i hi
    simpa using hw.arcs i (by simpa using hi)
  have hhead : ((List.range (2 * k + 1)).map w).head? = some n := by
    simp [List.range_succ_eq_map, hw.start]
  obtain ⟨p, hp, hpre⟩ := exists_mem_startingAt hP hlive hhead (hnodup.sublist (List.dropLast_sublist _)) hchain
  have hget : ∀ i ≤ 2 * k, p[i]? = some (w i) := by
    intro i hi
    have hlt : i < ((List.range (2 * k + 1)).map w).length := by simpa using Nat.lt_succ_of_le hi
    obtain ⟨rest, rfl⟩ := hpre
    rw [List.getElem?_append_left hlt, List.getElem?_map, List.getElem?_range (by omega)]
    rfl
  exact ⟨p, hp, k, w (2 * k), hget _ le_rfl, hw.goal, fun i hi => ⟨w (2 * i), hget _ (by omega), hw.hold i hi⟩⟩

lemma decides_existsUntil (hP : ofGraph budget G = .ok P) (hn : G.initial.IsNode d n)
    (hhold : ∀ m, G.initial.IsNode d m → Decides (hold m) (H m))
    (hgoal : ∀ m, G.initial.IsNode d m → Decides (goal m) (Q m)) :
    Decides (P.existsUntil hold goal n)
      (Live G.initial G n ∧ ∃ k w, UntilWalk (LiveArc G.initial G) H Q n k w) := by
  refine (Decides.anyM fun p hp => decides_untilOn (H := H) (Q := Q) fun i a ha => ?_).congr ?_
  · have ha' := isNode_of_mem_startingAt hP hn hp ha
    exact ⟨hhold a ha', hgoal a ha'⟩
  · constructor
    · rintro ⟨p, hp, hu⟩
      exact ⟨((mem_startingAt hP).mp hp).1, untilWalk_of_untilOn hP hp hu⟩
    · rintro ⟨hlive, hw⟩
      exact untilOn_of_untilWalk hP hn hlive hw

lemma decides_forallNext (hP : ofGraph budget G = .ok P) (hn : G.initial.IsNode d n)
    (hhold : ∀ m, G.initial.IsNode d m → Decides (hold m) (H m)) :
    Decides (P.forallNext hold n)
      (∀ m k, LiveArc G.initial G n m → LiveArc G.initial G m k → H k) := by
  refine (Decides.allM (p := fun p => ∀ k, p[2]? = some k → H k) fun p hp => ?_).congr ⟨?_, ?_⟩
  · cases h2 : p[2]? with
    | none => exact (Decides.ok true).congr (by simp)
    | some k => exact (hhold k (isNode_of_mem_startingAt (i := 1) hP hn hp h2)).congr (by simp)
  · intro h m k hm hk
    have hne : n ≠ m := by
      rintro rfl
      exact Domain.other_ne d (hn.unique (hn.other hm.1)).symm
    have hchain : [n, m, k].IsChain (LiveArc G.initial G) := by simp [hm, hk]
    obtain ⟨p, hp, rest, rfl⟩ := exists_mem_startingAt hP hm.2.1 rfl (by simpa using hne) hchain
    exact h _ hp k rfl
  · intro h p hp k hk
    have hlt := (List.getElem?_eq_some_iff.mp hk).1
    have h1 := arc_of_mem_startingAt hP hp (i := 0) (by omega)
    have h2 := arc_of_mem_startingAt hP hp (i := 1) (by omega)
    rw [getD_zero_of_mem_startingAt hP hp] at h1
    rw [List.getD_eq_getElem?_getD, List.getD_eq_getElem?_getD, hk] at h2
    exact h _ k h1 h2

lemma mem_successors (hP : ofGraph budget G = .ok P) {m : String} :
    m ∈ P.successors n ↔ LiveArc G.initial G n m := by
  rw [successors, Sorted.mem_ofList, List.mem_filterMap]
  constructor
  · rintro ⟨p, hp, hm⟩
    have harc := arc_of_mem_startingAt hP hp (i := 0) (List.getElem?_eq_some_iff.mp hm).1
    rwa [getD_zero_of_mem_startingAt hP hp, List.getD_eq_getElem?_getD, hm] at harc
  · intro harc
    have hchain : [n, m].IsChain (LiveArc G.initial G) := by simp [harc]
    obtain ⟨p, hp, rest, rfl⟩ := exists_mem_startingAt hP harc.2.1 rfl (by simp) hchain
    exact ⟨_, hp, rfl⟩

lemma decides_existsSuccessor (hP : ofGraph budget G = .ok P) (hn : G.initial.IsNode d n)
    (hhold : ∀ m, G.initial.IsNode d.other m → Decides (hold m) (H m)) :
    Decides (P.existsSuccessor hold n) (∃ m, LiveArc G.initial G n m ∧ H m) := by
  have hsucc : ∀ m ∈ P.successors n, Decides (hold m) (H m) := fun m hm =>
    hhold m (hn.other ((mem_successors hP).mp hm).1)
  refine (Decides.anyM hsucc).congr ?_
  simp only [mem_successors hP]

end PathSet

namespace Formula

open PathSet

def Holds (N : Net) (G : MarkingGraph) : {d : Domain} → Formula d → String → Prop
  | _, tt, _ => True
  | _, ff, _ => False
  | .state, atom _ condition, n => ∃ p ∈ N.marking.places, p.id = n ∧ condition ⟨N, p⟩ = true
  | .transition, atom _ condition, n =>
    ∃ t ∈ N.transitions, t.id = n ∧ ∃ context, t.context = some context ∧ condition context = true
  | _, and f g, n => f.Holds N G n ∧ g.Holds N G n
  | _, or f g, n => f.Holds N G n ∨ g.Holds N G n
  | _, not f, n => ¬ f.Holds N G n
  | _, existsUntil hold goal, n =>
    Live N G n ∧ ∃ k w, UntilWalk (LiveArc N G) (hold.Holds N G) (goal.Holds N G) n k w
  | _, forallNext f, n => ∀ m k, LiveArc N G n m → LiveArc N G m k → f.Holds N G k
  | _, ev f, n => Live N G n ∧ ∃ k w, UntilWalk (LiveArc N G) (fun _ => True) (f.Holds N G) n k w
  | _, pos f, n => Live N G n ∧ ∃ k w, UntilWalk (LiveArc N G) (fun _ => True) (f.Holds N G) n k w
  | _, along f, n =>
    ¬ (Live N G n ∧ ∃ k w, UntilWalk (LiveArc N G) (fun _ => True) (fun m => ¬ f.Holds N G m) n k w)
  | _, modal f, n => ∃ m, LiveArc N G n m ∧ f.Holds N G m
  | _, existsModal f g, n =>
    ∃ m, LiveArc N G n m ∧ f.Holds N G m ∧ ∃ k, LiveArc N G m k ∧ g.Holds N G k

variable {N : Net} {G : MarkingGraph} {P : PathSet} {d : Domain} {n : String}

lemma holds_primitive (f : Formula d) : f.primitive.Holds N G = f.Holds N G := by
  funext n
  induction f generalizing n with
  | tt | ff | atom => rfl
  | and f g hf hg => simp only [primitive, Holds, hf, hg]
  | or f g hf hg => simp only [primitive, Holds, hf, hg]
  | not f hf => simp only [primitive, Holds, hf]
  | existsUntil f g hf hg => simp only [primitive, Holds, funext hf, funext hg]
  | forallNext f hf => simp only [primitive, Holds, hf]
  | ev f hf => simp only [primitive, Holds, funext hf]
  | pos f hf => simp only [primitive, Holds, funext hf]
  | along f hf => simp only [primitive, Holds, funext hf]
  | modal f hf => simp only [primitive, Holds, hf]
  | existsModal f g hf hg =>
    change (∃ m, LiveArc N G n m ∧ f.primitive.Holds N G m ∧ ∃ k, LiveArc N G m k ∧ g.primitive.Holds N G k) = _
    rw [funext hf, funext hg]
    rfl

lemma locate_of_isNode {x : Node} (f : Formula d) (hx : N.node? n = some x) (hd : x.domain = d) :
    locate N f n = .ok x := by
  simp only [locate, hx, if_pos hd]

lemma holdsAt_iff {x : Node} {label : String} {condition : Predicate d} (hx : N.node? n = some x)
    (hd : x.domain = d) : holdsAt N condition x = true ↔ (atom label condition).Holds N G n := by
  subst hd
  cases x with
  | place p =>
    have hp := Net.node?_eq_place.mp hx
    constructor
    · intro h
      exact ⟨p, hp.1, hp.2, h⟩
    · rintro ⟨q, hq, hqn, h⟩
      rw [Net.node?_eq_place.mpr ⟨hq, hqn⟩, Option.some.injEq, Node.place.injEq] at hx
      exact hx ▸ h
  | transition t =>
    have ht := Net.node?_eq_transition.mp hx
    constructor
    · intro h
      obtain ⟨context, hc, h⟩ := Transition.satisfies_iff.mp h
      exact ⟨t, ht.1, ht.2, context, hc, h⟩
    · rintro ⟨u, hu, hun, context, hc, h⟩
      rw [Net.node?_eq_transition.mpr ⟨hu, hun⟩, Option.some.injEq, Node.transition.injEq] at hx
      subst hx
      exact Transition.satisfies_iff.mpr ⟨context, hc, h⟩

lemma decides_eval {budget : Budget} (hP : PathSet.ofGraph budget G = .ok P) (f : Formula d)
    (hn : G.initial.IsNode d n) : Decides (f.eval P n) (f.Holds G.initial G n) := by
  -- not on the formula: `existsModal` is evaluated through a formula that is no part of it
  induction hw : f.weight using Nat.strong_induction_on generalizing d n with
  | _ weight ih =>
    subst hw
    have hnet := (PathSet.ofGraph_ok hP).1
    have hpart : ∀ {d : Domain} (g : Formula d) (m : String), g.weight < f.weight → G.initial.IsNode d m →
        Decides (g.eval P m) (g.Holds G.initial G m) := fun g m hlt hm => ih _ hlt g hm rfl
    obtain ⟨x, hx, hd⟩ := id hn
    rw [eval, locate_of_isNode f (hnet ▸ hx) hd]
    cases f with
    | tt => exact (Decides.ok true).congr (by simp [Holds])
    | ff => exact (Decides.ok false).congr (by simp [Holds])
    | atom label condition =>
      change Decides (.ok (holdsAt P.net condition x)) _
      rw [hnet]
      exact (Decides.ok _).congr (holdsAt_iff hx hd)
    | and f g =>
      exact (hpart f n (by simp only [weight]; omega) hn).and (hpart g n (by simp only [weight]; omega) hn)
    | or f g =>
      exact (hpart f n (by simp only [weight]; omega) hn).or (hpart g n (by simp only [weight]; omega) hn)
    | not f => exact (hpart f n (by simp only [weight]; omega) hn).not
    | existsUntil f g =>
      exact decides_existsUntil hP hn (fun m hm => hpart f m (by simp only [weight]; omega) hm)
        fun m hm => hpart g m (by simp only [weight]; omega) hm
    | forallNext f => exact decides_forallNext hP hn fun m hm => hpart f m (by simp only [weight]; omega) hm
    | ev f =>
      exact decides_existsUntil hP hn (fun _ _ => (Decides.ok true).congr (by simp))
        fun m hm => hpart f m (by simp only [weight]; omega) hm
    | pos f =>
      exact decides_existsUntil hP hn (fun _ _ => (Decides.ok true).congr (by simp))
        fun m hm => hpart f m (by simp only [weight]; omega) hm
    | along f =>
      exact (decides_existsUntil hP hn (fun _ _ => (Decides.ok true).congr (by simp))
        fun m hm => (hpart f m (by simp only [weight]; omega) hm).not).not
    | modal f => exact decides_existsSuccessor hP hn fun m hm => hpart f m (by simp only [weight]; omega) hm
    | existsModal f g =>
      have hp := hpart (existsModal f g).primitive n (weight_primitive_existsModal_lt f g) hn
      exact hp.congr (by rw [holds_primitive])

theorem eval_eq_holds {budget budget' : Budget} (hG : MarkingGraph.explore budget N = .ok G)
    (hP : PathSet.ofGraph budget' G = .ok P) (f : Formula d) {x : Node} (hx : N.node? n = some x)
    (hd : x.domain = d) : ∃ v, f.eval P n = .ok v ∧ (v = true ↔ f.Holds N G n) := by
  have hinit : G.initial = N := (MarkingGraph.frontier_explore hG).isReachabilityGraph.initial.1
  subst hinit
  exact decides_eval hP f ⟨x, hx, hd⟩

def ferry : Net where
  id := "ferry"
  marking := ⟨[⟨"left", 1⟩, ⟨"lost", 0⟩, ⟨"right", 0⟩], by decide⟩
  transitions := [⟨"back", none⟩, ⟨"forth", some { kind := .app }⟩, ⟨"sink", none⟩]
  arcs := [⟨"left", "forth"⟩, ⟨"forth", "right"⟩, ⟨"right", "back"⟩, ⟨"back", "left"⟩, ⟨"left", "sink"⟩,
    ⟨"right", "sink"⟩, ⟨"sink", "lost"⟩]
  ascending := by decide
  disjoint := by decide
  joins := by simp [Arc.Joins, Marking.ids]

/-- From wherever one gets, some place that is marked at the outset can be got to. -/
def recurrent : Formula .state :=
  along (ev (atom "marked" fun (s : Site) => s.place.tokens ≠ 0))

theorem eval_eq_holds_ferry : ∃ G P, MarkingGraph.explore {} ferry = .ok G ∧ PathSet.ofGraph {} G = .ok P ∧
    recurrent.eval P "left" = .ok true ∧ recurrent.Holds ferry G "left" ∧
    recurrent.eval P "lost" = .ok false ∧ ¬ recurrent.Holds ferry G "lost" := by
  have hvalues : (MarkingGraph.explore {} ferry >>= PathSet.ofGraph {}).toOption.map (fun P =>
      ["left", "lost"].map fun n => (recurrent.eval P n).toOption) = some [some true, some false] := by
    simp only [recurrent, eval]
    decide +kernel
  obtain ⟨P, hP⟩ := exists_eq_ok (x := MarkingGraph.explore {} ferry >>= PathSet.ofGraph {}) (by decide +kernel)
  rw [hP] at hvalues
  obtain ⟨G, hG, hP⟩ := bind_eq_ok.mp hP
  obtain ⟨v, hv, hleft⟩ := eval_eq_holds hG hP recurrent (n := "left") (x := .place ⟨"left", 1⟩) (by decide) rfl
  obtain ⟨w, hw, hlost⟩ := eval_eq_holds hG hP recurrent (n := "lost") (x := .place ⟨"lost", 0⟩) (by decide) rfl
  obtain ⟨rfl, rfl⟩ : v = true ∧ w = false := by simpa [Except.toOption, hv, hw] using hvalues
  exact ⟨G, P, hG, hP, hv, hleft.mp rfl, hw, hlost.not.mp Bool.false_ne_true⟩

end Formula

end Petri
