import Mathlib
import Petri.Proofs.MarkingGraph.Exploration

/-! Exploration as a loop over a queue, without a bound on the number of turns. It comes to an end, since a marking
enters the queue at most once and there are finitely many, and it ends with what `explore` gives. -/

namespace Petri.MarkingGraph

structure Worklist where
  graph : MarkingGraph
  queue : List ℕ
  vertex : ℕ
  pending : List Transition
  /-- How many vertices have had their turn. -/
  turns : ℕ
  entered : List Marking

namespace Worklist

variable {W T : Worklist} {N M K : Net} {t : Transition} {ts : List Transition} {limit : Option ℕ} {v visits : ℕ}

def start (N : Net) : Worklist where
  graph := ofNet N
  queue := [0]
  vertex := 0
  pending := []
  turns := 0
  entered := [N.marking]

def advance (W : Worklist) (t : Transition) (K : Net) : Worklist :=
  let (w, isNew, G) := W.graph.insert K
  { W with
    graph := G.link W.vertex w t.id
    queue := if isNew then W.queue ++ [w] else W.queue
    pending := W.pending.tail
    entered := if isNew then W.entered ++ [K.marking] else W.entered }

def fire (limit : Option ℕ) (M : Net) (t : Transition) (W : Worklist) : Except Error Worklist := do
  let K ← M.fire t.id
  let (_, isNew, G) := W.graph.insert K
  if isNew then Resource.markings.within limit G.vertices.size
  return W.advance t K

def take (W : Worklist) (v : ℕ) (M : Net) : Worklist :=
  { W with
    queue := W.queue.tail
    vertex := v
    pending := M.enabled
    turns := W.turns + 1 }

def step (limit : Option ℕ) (W : Worklist) : Option (Except Error Worklist) :=
  match W.pending, W.queue with
  | t :: _, _ => W.graph.vertices[W.vertex]?.map fun M => W.fire limit M t
  | [], v :: _ => W.graph.vertices[v]?.map fun M => .ok (W.take v M)
  | [], [] => none

def Next (limit : Option ℕ) (W T : Worklist) : Prop :=
  W.step limit = some (.ok T)

abbrev Ends (limit : Option ℕ) : Worklist → Except Error MarkingGraph → Prop :=
  Petri.Ends (step limit) (fun W => W.pending = [] ∧ W.queue = []) graph

lemma step_of_pending (hp : W.pending = t :: ts) (hM : W.graph.vertices[W.vertex]? = some M) :
    W.step limit = some (W.fire limit M t) := by
  simp only [step, hp, hM, Option.map_some]

lemma step_of_queue {queue : List ℕ} (hp : W.pending = []) (hq : W.queue = v :: queue)
    (hM : W.graph.vertices[v]? = some M) : W.step limit = some (.ok (W.take v M)) := by
  simp only [step, hp, hq, hM, Option.map_some]

lemma step_of_done (h : W.pending = [] ∧ W.queue = []) : W.step limit = none := by
  simp only [step, h.1, h.2]

lemma step_cases {z : Except Error Worklist} (h : W.step limit = some z) :
    (∃ t ts M, W.pending = t :: ts ∧ W.graph.vertices[W.vertex]? = some M ∧ z = W.fire limit M t) ∨
      (∃ v queue M, W.pending = [] ∧ W.queue = v :: queue ∧ W.graph.vertices[v]? = some M ∧ z = .ok (W.take v M)) := by
  cases hp : W.pending with
  | cons t ts =>
    simp only [step, hp] at h
    obtain ⟨M, hM, rfl⟩ := Option.map_eq_some_iff.mp h
    exact Or.inl ⟨t, ts, M, rfl, hM, rfl⟩
  | nil =>
    cases hq : W.queue with
    | nil =>
      rw [step_of_done ⟨hp, hq⟩] at h
      cases h
    | cons v queue =>
      simp only [step, hp, hq] at h
      obtain ⟨M, hM, rfl⟩ := Option.map_eq_some_iff.mp h
      exact Or.inr ⟨v, queue, M, rfl, rfl, hM, rfl⟩

lemma fire_of_error {e : Error} (hf : M.fire t.id = .error e) : W.fire limit M t = .error e := by
  rw [fire, hf]
  rfl

lemma fire_of_ok (hf : M.fire t.id = .ok K) : W.fire limit M t =
    (if (W.graph.insert K).2.1 then Resource.markings.within limit (W.graph.insert K).2.2.vertices.size else .ok ()) >>=
      fun _ => .ok (W.advance t K) := by
  rw [fire, hf]
  cases hnew : (W.graph.insert K).2.1 with
  | false => simp only [bind, Except.bind, hnew, Bool.false_eq_true, if_false, pure, Except.pure]
  | true => simp only [bind, Except.bind, hnew, if_true, pure, Except.pure]

lemma map_graph_fire (limit : Option ℕ) (M : Net) (t : Transition) (W : Worklist) :
    (W.fire limit M t).map graph = expand limit W.vertex M W.graph t := by
  cases hf : M.fire t.id with
  | error e =>
    rw [fire_of_error hf, expand_of_error hf]
    rfl
  | ok K =>
    rw [fire_of_ok hf, expand_of_ok hf]
    generalize (if (W.graph.insert K).2.1 then _ else _ : Except Error Unit) = z
    cases z with
    | error e => rfl
    | ok _ => rfl

lemma eq_advance_of_fire (h : W.fire limit M t = .ok T) : ∃ K, M.fire t.id = .ok K ∧ T = W.advance t K := by
  cases hf : M.fire t.id with
  | error e =>
    rw [fire_of_error hf] at h
    cases h
  | ok K =>
    rw [fire_of_ok hf] at h
    obtain ⟨_, _, h⟩ := bind_eq_ok.mp h
    cases h
    exact ⟨K, rfl, rfl⟩

/-- What holds of the loop at any moment: the vertices that wait are those that have had no turn, and the markings
that have entered the queue are those of the graph. -/
structure Sound (N : Net) (W : Worklist) : Prop where
  consistent : W.graph.Consistent
  reachable : ∀ (i : ℕ) (M : Net), W.graph.vertices[i]? = some M → N.Reachable M
  turns_le : W.turns ≤ W.graph.vertices.size
  queue : W.queue = List.range' W.turns (W.graph.vertices.size - W.turns)
  entered : W.entered = W.graph.markings

lemma Sound.take {queue : List ℕ} (h : Sound N W) (hq : W.queue = v :: queue) (M : Net) : Sound N (W.take v M) where
  consistent := h.consistent
  reachable := h.reachable
  turns_le := by
    have hlength := congrArg List.length (hq.symm.trans h.queue)
    rw [List.length_cons, List.length_range'] at hlength
    change W.turns + 1 ≤ W.graph.vertices.size
    omega
  queue := by
    change W.queue.tail = List.range' (W.turns + 1) (W.graph.vertices.size - (W.turns + 1))
    rw [h.queue, List.tail_range']
    congr 1
  entered := h.entered

lemma Sound.advance (h : Sound N W) (hv : W.vertex < W.graph.vertices.size) (hK : N.Reachable K) (t : Transition) :
    Sound N (W.advance t K) := by
  rcases h.consistent.insert K with ⟨i, L, hi, hL, _⟩ | ⟨_, H, hi, hH, hvert, _⟩
  · have hW : W.advance t K = { W with graph := W.graph.link W.vertex i t.id, pending := W.pending.tail } := by
      simp only [Worklist.advance, hi, Bool.false_eq_true, if_false]
    rw [hW]
    exact ⟨h.consistent.link hv (Array.getElem?_eq_some_iff.mp hL).1 t.id, h.reachable, h.turns_le, h.queue, h.entered⟩
  · have hW : W.advance t K = { W with
        graph := H.link W.vertex W.graph.vertices.size t.id
        queue := W.queue ++ [W.graph.vertices.size]
        pending := W.pending.tail
        entered := W.entered ++ [K.marking] } := by
      simp only [Worklist.advance, hi, if_true]
    have hsize : H.vertices.size = W.graph.vertices.size + 1 := by rw [hvert, Array.size_push]
    have hle := h.turns_le
    rw [hW]
    refine ⟨hH.link (by omega) (by omega) t.id, fun i M hM => ?_, ?_, ?_, ?_⟩
    · rw [vertices_link, hvert, Array.getElem?_push] at hM
      split at hM
      · cases hM
        exact hK
      · exact h.reachable i M hM
    · change W.turns ≤ H.vertices.size
      omega
    · change W.queue ++ [W.graph.vertices.size] = List.range' W.turns (H.vertices.size - W.turns)
      have hlast : W.turns + (W.graph.vertices.size - W.turns) = W.graph.vertices.size := by omega
      rw [h.queue, hsize, Nat.succ_sub hle, List.range'_concat, Nat.one_mul, hlast]
    · change W.entered ++ [K.marking] = H.vertices.toList.map Net.marking
      rw [h.entered, hvert, Array.toList_push, List.map_append]
      rfl

lemma Sound.next (h : Sound N W) (hs : Next limit W T) : Sound N T := by
  rcases step_cases hs with ⟨t, _, M, _, hM, hT⟩ | ⟨v, queue, M, _, hq, _, hT⟩
  · obtain ⟨K, hK, rfl⟩ := eq_advance_of_fire hT.symm
    exact h.advance (Array.getElem?_eq_some_iff.mp hM).1 ((h.reachable _ M hM).tail hK) t
  · cases hT
    exact h.take hq M

lemma Sound.turns_le_alternatives (h : Sound N W) : W.turns ≤ N.marking.alternatives :=
  h.turns_le.trans (h.consistent.size_le h.reachable)

/-- The markings without a turn become fewer with every turn, and the transitions to fire with every firing. -/
lemma Sound.acc (limit : Option ℕ) (h : Sound N W) : Acc (fun T W => Next limit W T) W := by
  induction hn : N.marking.alternatives - W.turns using Nat.strong_induction_on generalizing W with
  | _ n ihturns =>
    induction hp : W.pending generalizing W with
    | nil =>
      apply Acc.intro
      intro T hs
      have hT := h.next hs
      have hle := hT.turns_le_alternatives
      rcases step_cases hs with ⟨t, ts, M, hp', _⟩ | ⟨v, queue, M, _, _, _, heq⟩
      · rw [hp] at hp'
        cases hp'
      · cases heq
        refine ihturns _ ?_ hT rfl
        change W.turns + 1 ≤ _ at hle
        change N.marking.alternatives - (W.turns + 1) < n
        omega
    | cons t ts ihpending =>
      apply Acc.intro
      intro T hs
      have hT := h.next hs
      rcases step_cases hs with ⟨u, us, M, _, _, heq⟩ | ⟨v, queue, M, hp', _⟩
      · obtain ⟨K, _, rfl⟩ := eq_advance_of_fire heq.symm
        apply ihpending hT hn
        change W.pending.tail = ts
        rw [hp, List.tail_cons]
      · rw [hp] at hp'
        cases hp'

lemma exists_fire_eq_ok {H : MarkingGraph} (h : expand limit W.vertex M W.graph t = .ok H) :
    ∃ K, W.fire limit M t = .ok (W.advance t K) ∧ (W.advance t K).graph = H := by
  rw [← map_graph_fire] at h
  cases hT : W.fire limit M t with
  | error e =>
    rw [hT] at h
    cases h
  | ok T =>
    rw [hT] at h
    obtain ⟨K, _, rfl⟩ := eq_advance_of_fire hT
    exact ⟨K, rfl, Except.ok.inj h⟩

lemma fire_eq_error {e : Error} (h : expand limit W.vertex M W.graph t = .error e) :
    W.fire limit M t = .error e := by
  rw [← map_graph_fire] at h
  cases hT : W.fire limit M t with
  | error e' =>
    rw [hT] at h
    cases h
    rfl
  | ok T =>
    rw [hT] at h
    cases h

lemma Sound.ends_pending (h : Sound N W) (hp : W.pending = ts) (hM : W.graph.vertices[W.vertex]? = some M)
    (hrest : ∀ T, Sound N T → T.pending = [] → T.turns = W.turns →
      Ends limit T (visit limit visits T.turns T.graph)) :
    Ends limit W (ts.foldlM (expand limit W.vertex M) W.graph >>= visit limit visits W.turns) := by
  induction ts generalizing W with
  | nil => exact hrest W h hp rfl
  | cons t ts ih =>
    have hstep : W.step limit = some (W.fire limit M t) := step_of_pending hp hM
    rw [List.foldlM_cons]
    cases hH : expand limit W.vertex M W.graph t with
    | error e =>
      rw [fire_eq_error hH] at hstep
      exact .failed hstep
    | ok H =>
      obtain ⟨K, hfire, rfl⟩ := exists_fire_eq_ok hH
      rw [hfire] at hstep
      have hp' : (W.advance t K).pending = ts := by
        change W.pending.tail = ts
        rw [hp, List.tail_cons]
      have hM' : (W.advance t K).graph.vertices[W.vertex]? = some M := by
        obtain ⟨L, _, ⟨_, hvert⟩ | ⟨_, _, hvert⟩⟩ := fire_of_expand h.consistent hH
        · rw [hvert]
          exact hM
        · exact extends_push hvert _ M hM
      exact .next hstep (ih (h.next hstep) hp' hM' hrest)

lemma Sound.ends (h : Sound N W) (hp : W.pending = []) (hv : N.marking.alternatives ≤ W.turns + visits) :
    Ends limit W (visit limit visits W.turns W.graph) := by
  have hsize := h.consistent.size_le h.reachable
  have hqueue := h.queue
  induction visits generalizing W with
  | zero =>
    -- no visit is left only where every vertex has had its turn, so the bound on the visits cuts nothing off
    have hempty : W.graph.vertices.size - W.turns = 0 := by omega
    rw [hempty] at hqueue
    exact .done ⟨hp, hqueue⟩
  | succ visits ih =>
    rw [visit]
    cases hM : W.graph.vertices[W.turns]? with
    | none =>
      have hempty : W.graph.vertices.size - W.turns = 0 := by
        have hle := Array.getElem?_eq_none_iff.mp hM
        omega
      rw [hempty] at hqueue
      exact .done ⟨hp, hqueue⟩
    | some M =>
      have hlt := (Array.getElem?_eq_some_iff.mp hM).1
      obtain ⟨n, hn⟩ : ∃ n, W.graph.vertices.size - W.turns = n + 1 :=
        ⟨_, (Nat.succ_pred_eq_of_pos (by omega)).symm⟩
      rw [hn, List.range'_succ] at hqueue
      have hstep : W.step limit = some (.ok (W.take W.turns M)) := step_of_queue hp hqueue hM
      have htake : Sound N (W.take W.turns M) := h.next hstep
      refine .next hstep (htake.ends_pending rfl hM fun T hT hTp hturns => ?_)
      refine ih hT hTp ?_ (hT.consistent.size_le hT.reachable) hT.queue
      change T.turns = W.turns + 1 at hturns
      omega

end Worklist

end Petri.MarkingGraph
