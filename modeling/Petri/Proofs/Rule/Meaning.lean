import Mathlib
import Petri.Proofs.Marking
import Petri.Proofs.Net.Build
import Petri.Proofs.Net.Draft
import Petri.Proofs.Rule.Lines
import Petri.Rule.Assembly

/-! What a list of rules means, in whatever order they come. A context without a transition comes before a name used
twice, and an arc is never at fault. -/

namespace Petri

namespace Rule

def placeNames : Rule → List String
  | transition _ inputs outputs => inputs ++ outputs
  | assign place _ => [place]
  | context _ _ => []

def wiring? : Rule → Option (Option String × List String × List String)
  | transition id inputs outputs => some (id, inputs, outputs)
  | _ => none

def tokensFor? (p : String) : Rule → Option UInt32
  | assign place tokens => if place = p then some tokens else none
  | _ => none

def contextFor? (t : String) : ℕ × Rule → Option (ℕ × Context)
  | (line, context name c) => if name = t then some (line, c) else none
  | _ => none

def Declaration.arcs (d : Declaration) : List Arc :=
  d.inputs.map (⟨·, d.id⟩) ++ d.outputs.map (⟨d.id, ·⟩)

variable {numbered : List (ℕ × Rule)} {id p t : String} {note : Note} {N : Net}

/-- The transitions in order, the `k`-th of them called `t` and `k` if it has no name of its own. -/
def declared (numbered : List (ℕ × Rule)) : List Declaration :=
  ((numbered.map Prod.snd).filterMap wiring?).mapIdx fun k w => ⟨w.1.getD ("t" ++ toString (k + 1)), w.2.1, w.2.2⟩

def transitionNames (numbered : List (ℕ × Rule)) : List String :=
  (declared numbered).map Declaration.id

def IsPlace (numbered : List (ℕ × Rule)) (p : String) : Prop :=
  ∃ r ∈ numbered, p ∈ r.2.placeNames

def lastTokens? (numbered : List (ℕ × Rule)) (p : String) : Option UInt32 :=
  ((numbered.map Prod.snd).filterMap (tokensFor? p)).getLast?

def lastContext? (numbered : List (ℕ × Rule)) (t : String) : Option (ℕ × Context) :=
  (numbered.filterMap (contextFor? t)).getLast?

def IsUndeclared (numbered : List (ℕ × Rule)) (t : String) : Prop :=
  (∃ line c, (line, context t c) ∈ numbered) ∧ t ∉ transitionNames numbered

/-- `t` is the first transition, in order, whose name is that of a place or of a transition before it. -/
def IsFirstClash (numbered : List (ℕ × Rule)) (t : String) : Prop :=
  ∃ before after, transitionNames numbered = before ++ t :: after ∧ (IsPlace numbered t ∨ t ∈ before) ∧
    before.Nodup ∧ ∀ s ∈ before, ¬ IsPlace numbered s

def IsClear (numbered : List (ℕ × Rule)) : Prop :=
  (transitionNames numbered).Nodup ∧ ∀ t ∈ transitionNames numbered, ¬ IsPlace numbered t

structure Describes (id : String) (numbered : List (ℕ × Rule)) (N : Net) : Prop where
  id_eq : N.id = id
  mem_places : ∀ p, p ∈ N.marking.ids ↔ IsPlace numbered p
  tokens_eq : ∀ p, IsPlace numbered p → N.marking.tokens p = (lastTokens? numbered p).getD 0
  mem_transitions : ∀ t, t ∈ N.transitions ↔
    t.id ∈ transitionNames numbered ∧ t.context = (lastContext? numbered t.id).map Prod.snd
  arcs_eq : N.arcs = (declared numbered).flatMap Declaration.arcs

inductive Means (id : String) (numbered : List (ℕ × Rule)) : Except Error Net → Prop
  | undeclared {t : String} {line : ℕ} {c : Context} : IsUndeclared numbered t →
      (∀ s, IsUndeclared numbered s → t ≤ s) → lastContext? numbered t = some (line, c) →
      Means id numbered (.error (.badLine line (.undeclared t)))
  | clash {t : String} : (∀ s, ¬ IsUndeclared numbered s) → IsFirstClash numbered t →
      Means id numbered (.error (.duplicateNode t))
  | net {N : Net} : (∀ s, ¬ IsUndeclared numbered s) → IsClear numbered → Describes id numbered N →
      Means id numbered (.ok N)

lemma declarations_eq (n : ℕ) (rules : List Rule) : declarations n rules =
    (rules.filterMap wiring?).mapIdx fun k w => ⟨w.1.getD ("t" ++ toString (n + k + 1)), w.2.1, w.2.2⟩ := by
  induction rules generalizing n with
  | nil => rfl
  | cons r rules ih =>
    cases r with
    | transition id inputs outputs =>
      simp [declarations, wiring?, ih, List.mapIdx_cons, Nat.add_assoc, Nat.add_comm 1]
    | assign place tokens => exact ih n
    | context name c => exact ih n

lemma declarations_zero (numbered : List (ℕ × Rule)) : declarations 0 (numbered.map Prod.snd) = declared numbered := by
  rw [declarations_eq, declared]
  simp only [Nat.zero_add]

lemma isPlace_of_mem_declared {d : Declaration} (hd : d ∈ declared numbered) (hp : p ∈ d.inputs ∨ p ∈ d.outputs) :
    IsPlace numbered p := by
  obtain ⟨k, hk, rfl⟩ := List.mem_mapIdx.mp hd
  obtain ⟨r, hr, hw⟩ := List.mem_filterMap.mp (List.getElem_mem hk)
  obtain ⟨x, hx, rfl⟩ := List.mem_map.mp hr
  refine ⟨x, hx, ?_⟩
  cases hrule : x.2 with
  | transition id inputs outputs =>
    rw [hrule] at hw
    rw [← Option.some.inj hw] at hp
    exact List.mem_append.mpr hp
  | assign place tokens =>
    rw [hrule] at hw
    cases hw
  | context name c =>
    rw [hrule] at hw
    cases hw

def places (numbered : List (ℕ × Rule)) : Marking :=
  Marking.ofPlaces ((numbered.map Prod.snd).flatMap used ++ (numbered.map Prod.snd).flatMap assigned)

lemma mem_ids_places : p ∈ (places numbered).ids ↔ IsPlace numbered p := by
  have hrule : ∀ r : Rule, p ∈ r.placeNames ↔ p ∈ r.used.map Place.id ∨ p ∈ r.assigned.map Place.id := by
    intro r
    cases r <;> simp [placeNames, used, assigned]
  rw [places, Marking.ids, Marking.ofPlaces, Sorted.mem_keys_ofListBy, List.map_append, List.mem_append]
  simp only [List.map_flatMap, List.mem_flatMap, List.mem_map (f := Prod.snd), IsPlace, hrule]
  grind

lemma filter_assigned (p : String) (rules : List Rule) :
    (rules.flatMap assigned).filter (fun q => q.id = p) = (rules.filterMap (tokensFor? p)).map (Place.mk p) := by
  induction rules with
  | nil => rfl
  | cons r rules ih =>
    rw [List.flatMap_cons, List.filter_append, ih]
    cases r with
    | transition id inputs outputs => rfl
    | assign place tokens =>
      by_cases hp : place = p
      · simp [assigned, tokensFor?, hp]
      · simp [assigned, tokensFor?, hp]
    | context name c => rfl

lemma tokens_of_mem_used {rules : List Rule} {q : Place} (hq : q ∈ rules.flatMap used) : q.tokens = 0 := by
  obtain ⟨r, _, hq⟩ := List.mem_flatMap.mp hq
  cases r with
  | transition id inputs outputs =>
    obtain ⟨_, _, rfl⟩ := List.mem_map.mp hq
    rfl
  | assign place tokens => cases hq
  | context name c => cases hq

lemma tokens_places (hp : IsPlace numbered p) : (places numbered).tokens p = (lastTokens? numbered p).getD 0 := by
  obtain ⟨q, hq, rfl⟩ := List.mem_map.mp (mem_ids_places.mpr hp)
  rw [Marking.tokens_of_mem hq]
  have hlast := Sorted.mem_ofListBy_iff.mp hq
  rw [List.filter_append, filter_assigned, List.getLast?_append, List.getLast?_map, ← lastTokens?] at hlast
  cases htokens : lastTokens? numbered q.id with
  | none =>
    rw [htokens, Option.map_none, Option.none_or] at hlast
    exact tokens_of_mem_used (List.mem_filter.mp (List.mem_of_getLast? hlast)).1
  | some v =>
    rw [htokens, Option.map_some, Option.some_or] at hlast
    rw [← Option.some.inj hlast]
    rfl

def notes (numbered : List (ℕ × Rule)) : List Note :=
  Sorted.ofListBy Note.transition (numbered.filterMap note?)

lemma filter_notes (t : String) (numbered : List (ℕ × Rule)) :
    (numbered.filterMap note?).filter (fun note => note.transition = t) =
      (numbered.filterMap (contextFor? t)).map fun x => ⟨t, x.1, x.2⟩ := by
  induction numbered with
  | nil => rfl
  | cons x numbered ih =>
    obtain ⟨line, r⟩ := x
    cases r with
    | transition id inputs outputs =>
      exact ih
    | assign place tokens => exact ih
    | context name c =>
      by_cases ht : name = t
      · simpa [note?, contextFor?, ht] using ih
      · simpa [note?, contextFor?, ht] using ih

lemma mem_notes : note ∈ notes numbered ↔ lastContext? numbered note.transition = some (note.line, note.context) := by
  rw [notes, Sorted.mem_ofListBy_iff, filter_notes, List.getLast?_map, ← lastContext?, Option.map_eq_some_iff]
  constructor
  · rintro ⟨x, hx, hnote⟩
    rw [hx, ← hnote]
  · intro h
    exact ⟨_, h, rfl⟩

lemma exists_lastContext?_iff :
    (∃ x, lastContext? numbered t = some x) ↔ ∃ line c, (line, context t c) ∈ numbered := by
  rw [← Option.isSome_iff_exists, lastContext?, List.getLast?_isSome]
  constructor
  · intro hne
    obtain ⟨x, hx⟩ := List.exists_mem_of_ne_nil _ hne
    obtain ⟨⟨line, r⟩, hmem, hx⟩ := List.mem_filterMap.mp hx
    cases r with
    | transition id inputs outputs => cases hx
    | assign place tokens => cases hx
    | context name c =>
      obtain ⟨rfl, _⟩ := Option.ite_none_right_eq_some.mp hx
      exact ⟨line, c, hmem⟩
  · rintro ⟨line, c, hmem⟩
    exact List.ne_nil_of_mem (List.mem_filterMap.mpr ⟨_, hmem, if_pos rfl⟩)

lemma nodup_notes : ((notes numbered).map Note.transition).Nodup :=
  Sorted.nodup_keys (Sorted.ascending_ofListBy _ _)

lemma find?_notes (t : String) :
    ((notes numbered).find? fun note => note.transition = t).map Note.context = (lastContext? numbered t).map Prod.snd := by
  cases hlast : lastContext? numbered t with
  | none =>
    rw [List.find?_eq_none.mpr]
    · rfl
    · intro note hnote ht
      rw [mem_notes, decide_eq_true_eq.mp ht, hlast] at hnote
      cases hnote
  | some x =>
    have hnote : (⟨t, x.1, x.2⟩ : Note) ∈ notes numbered := mem_notes.mpr hlast
    rw [(Sorted.find?_eq_some_iff nodup_notes).mpr ⟨hnote, rfl⟩]
    rfl

def isMissing (numbered : List (ℕ × Rule)) (note : Note) : Bool :=
  (declared numbered).all fun d => d.id ≠ note.transition

lemma isMissing_iff : isMissing numbered note = true ↔ note.transition ∉ transitionNames numbered := by
  simp [isMissing, transitionNames]

lemma isUndeclared_iff : IsUndeclared numbered t ↔
    ∃ note ∈ notes numbered, isMissing numbered note = true ∧ note.transition = t := by
  rw [IsUndeclared, ← exists_lastContext?_iff]
  constructor
  · rintro ⟨⟨x, hx⟩, ht⟩
    exact ⟨⟨t, x.1, x.2⟩, mem_notes.mpr hx, isMissing_iff.mpr ht, rfl⟩
  · rintro ⟨note, hnote, hmissing, rfl⟩
    exact ⟨⟨_, mem_notes.mp hnote⟩, isMissing_iff.mp hmissing⟩

lemma find?_isMissing_eq_none_iff :
    (notes numbered).find? (isMissing numbered) = none ↔ ∀ s, ¬ IsUndeclared numbered s := by
  rw [List.find?_eq_none]
  simp only [isUndeclared_iff]
  grind

lemma le_of_find?_isMissing (hfind : (notes numbered).find? (isMissing numbered) = some note)
    (ht : IsUndeclared numbered t) : note.transition ≤ t := by
  have hascending : Ascending Note.transition (notes numbered) := Sorted.ascending_ofListBy _ _
  obtain ⟨other, hother, hmissing, rfl⟩ := isUndeclared_iff.mp ht
  obtain ⟨_, before, after, hsplit, hbefore⟩ := List.find?_eq_some_iff_append.mp hfind
  rw [hsplit] at hother hascending
  rcases List.mem_append.mp hother with hother | hother
  · exact absurd hmissing (by simpa using hbefore other hother)
  · rcases List.mem_cons.mp hother with rfl | hother
    · exact le_rfl
    · exact le_of_lt ((List.pairwise_cons.mp (List.pairwise_append.mp hascending).2.1).1 other hother)

lemma find?_isMissing_eq_some_iff : (notes numbered).find? (isMissing numbered) = some note ↔
    IsUndeclared numbered note.transition ∧ (∀ s, IsUndeclared numbered s → note.transition ≤ s) ∧
      lastContext? numbered note.transition = some (note.line, note.context) := by
  rw [← mem_notes]
  constructor
  · intro hfind
    have hmem := List.mem_of_find?_eq_some hfind
    exact ⟨isUndeclared_iff.mpr ⟨note, hmem, List.find?_some hfind, rfl⟩, fun s => le_of_find?_isMissing hfind, hmem⟩
  · rintro ⟨hundeclared, hleast, hmem⟩
    cases hfind : (notes numbered).find? (isMissing numbered) with
    | none => exact absurd hundeclared (find?_isMissing_eq_none_iff.mp hfind _)
    | some other =>
      have hother := List.mem_of_find?_eq_some hfind
      have hle := hleast _ (isUndeclared_iff.mpr ⟨other, hother, List.find?_some hfind, rfl⟩)
      have heq := le_antisymm (le_of_find?_isMissing hfind hundeclared) hle
      rw [List.inj_on_of_nodup_map nodup_notes hother hmem heq]

def transitions (numbered : List (ℕ × Rule)) : List Transition :=
  (declared numbered).map fun d => ⟨d.id, (lastContext? numbered d.id).map Prod.snd⟩

def nodes (numbered : List (ℕ × Rule)) : List Node :=
  (places numbered).places.map .place ++ (transitions numbered).map .transition

def arcs (numbered : List (ℕ × Rule)) : List Arc :=
  (declared numbered).flatMap Declaration.arcs

lemma build_draft (id : String) (numbered : List (ℕ × Rule)) :
    ((declared numbered).foldl
      (fun D d => Draft.wire D d.id ((lastContext? numbered d.id).map Prod.snd) d.inputs d.outputs)
      ((places numbered).places.foldl (fun D p => Draft.place D p.id p.tokens) { id })).build =
      Net.build id (nodes numbered) (arcs numbered) := by
  have hplaces := Draft.adds_foldl_place (places numbered).places { id }
  have hwired := Draft.adds_foldl
    (fun D d => Draft.adds_wire D d.id ((lastContext? numbered d.id).map Prod.snd) d.inputs d.outputs) (declared numbered)
    ((places numbered).places.foldl (fun D p => Draft.place D p.id p.tokens) { id })
  have hadds := hplaces.trans hwired
  rw [Draft.build, hadds.id_eq, hadds.nodes_eq, hadds.arcs_eq, ← List.map_eq_flatMap, nodes, transitions, List.map_map]
  rfl

lemma ofRules_eq (id : String) (numbered : List (ℕ × Rule)) : Net.ofRules id numbered =
    ((notes numbered).find? (isMissing numbered)).elim (Net.build id (nodes numbered) (arcs numbered))
      fun note => .error (.badLine note.line (.undeclared note.transition)) := by
  rw [Net.ofRules, declarations_zero]
  split
  · next note hfind =>
    have hmissing : (notes numbered).find? (isMissing numbered) = some note := hfind
    rw [hmissing]
    rfl
  · next hfind =>
    have hmissing : (notes numbered).find? (isMissing numbered) = none := hfind
    rw [hmissing, Option.elim_none, ← build_draft]
    simp only [← find?_notes]
    rfl

lemma map_id_nodes : (nodes numbered).map Node.id = (places numbered).ids ++ transitionNames numbered := by
  simp [nodes, transitions, transitionNames, Marking.ids, Node.id, Function.comp_def]

lemma firstRepeat?_nodes : firstRepeat? [] ((nodes numbered).map Node.id) =
    firstRepeat? (places numbered).ids.reverse (transitionNames numbered) := by
  rw [map_id_nodes, firstRepeat?_append (places numbered).nodup_ids fun _ _ => List.not_mem_nil, List.append_nil]

lemma firstRepeat?_nodes_eq_some_iff :
    firstRepeat? [] ((nodes numbered).map Node.id) = some t ↔ IsFirstClash numbered t := by
  simp only [firstRepeat?_nodes, firstRepeat?_eq_some_iff, List.mem_reverse, mem_ids_places, IsFirstClash]

lemma firstRepeat?_nodes_eq_none_iff :
    firstRepeat? [] ((nodes numbered).map Node.id) = none ↔ IsClear numbered := by
  simp only [firstRepeat?_nodes, firstRepeat?_eq_none_iff, List.mem_reverse, mem_ids_places, IsClear]

lemma filterMap_place?_nodes : (nodes numbered).filterMap Node.place? = (places numbered).places := by
  simp [nodes, Node.place?, List.filterMap_map, Function.comp_def]

lemma filterMap_transition?_nodes : (nodes numbered).filterMap Node.transition? = transitions numbered := by
  simp [nodes, Node.transition?, List.filterMap_map, Function.comp_def]

lemma map_id_transitions : (transitions numbered).map Transition.id = transitionNames numbered := by
  simp [transitions, transitionNames, Function.comp_def]

lemma joins_of_mem_arcs {a : Arc} (ha : a ∈ arcs numbered) :
    a.Joins (places numbered).ids (transitionNames numbered) := by
  obtain ⟨d, hd, ha⟩ := List.mem_flatMap.mp ha
  have hid : d.id ∈ transitionNames numbered := List.mem_map_of_mem hd
  rcases List.mem_append.mp ha with ha | ha
  · obtain ⟨p, hp, rfl⟩ := List.mem_map.mp ha
    exact Or.inl ⟨mem_ids_places.mpr (isPlace_of_mem_declared hd (Or.inl hp)), hid⟩
  · obtain ⟨p, hp, rfl⟩ := List.mem_map.mp ha
    exact Or.inr ⟨hid, mem_ids_places.mpr (isPlace_of_mem_declared hd (Or.inr hp))⟩

lemma exists_build_nodes (id : String) (h : IsClear numbered) :
    ∃ N, Net.build id (nodes numbered) (arcs numbered) = .ok N := by
  apply Net.exists_build_eq_ok
  · exact (firstRepeat?_eq_none_iff.mp (firstRepeat?_nodes_eq_none_iff.mpr h)).1
  · intro a ha
    rw [filterMap_place?_nodes, Marking.ofPlaces_places, filterMap_transition?_nodes]
    have hkeys : ∀ x, x ∈ (Sorted.ofListBy Transition.id (transitions numbered)).map Transition.id ↔
        x ∈ transitionNames numbered := by
      intro x
      rw [Sorted.mem_keys_ofListBy, map_id_transitions]
    have hjoins := joins_of_mem_arcs ha
    rwa [Arc.Joins, ← hkeys, ← hkeys] at hjoins

lemma describes_of_build (hok : Net.build id (nodes numbered) (arcs numbered) = .ok N) : Describes id numbered N := by
  obtain ⟨hid, hnodup, hmarking, htransitions, harcs⟩ := Net.build_ok hok
  rw [filterMap_place?_nodes, Marking.ofPlaces_places] at hmarking
  rw [filterMap_transition?_nodes] at htransitions
  refine ⟨hid, fun p => ?_, fun p hp => ?_, fun t => ?_, harcs⟩
  · rw [hmarking, mem_ids_places]
  · rw [hmarking, tokens_places hp]
  · have hids : ((transitions numbered).map Transition.id).Nodup := by
      rw [map_id_transitions]
      rw [map_id_nodes] at hnodup
      exact hnodup.of_append_right
    rw [htransitions, Sorted.mem_ofListBy hids, transitions, transitionNames, List.mem_map, List.mem_map]
    constructor
    · rintro ⟨d, hd, rfl⟩
      exact ⟨⟨d, hd, rfl⟩, rfl⟩
    · rintro ⟨⟨d, hd, hid⟩, hcontext⟩
      refine ⟨d, hd, ?_⟩
      rw [hid, ← hcontext]

lemma Describes.unique {M : Net} (h : Describes id numbered N) (h' : Describes id numbered M) : N = M := by
  have hids : N.marking.ids = M.marking.ids :=
    Sorted.eq_of_mem_iff N.marking.ascending_ids M.marking.ascending_ids
      fun p => (h.mem_places p).trans (h'.mem_places p).symm
  have hmarking : N.marking = M.marking := by
    apply Marking.ext_tokens hids
    intro p hp
    have hplace := (h.mem_places p).mp hp
    rw [h.tokens_eq p hplace, h'.tokens_eq p hplace]
  have htransitions : N.transitions = M.transitions :=
    Sorted.eq_of_mem_iff N.ascending M.ascending fun t => (h.mem_transitions t).trans (h'.mem_transitions t).symm
  have hid := h.id_eq.trans h'.id_eq.symm
  have harcs := h.arcs_eq.trans h'.arcs_eq.symm
  cases N
  cases M
  simp_all

lemma means_ofRules (id : String) (numbered : List (ℕ × Rule)) : Means id numbered (Net.ofRules id numbered) := by
  rw [ofRules_eq]
  cases hfind : (notes numbered).find? (isMissing numbered) with
  | some note =>
    obtain ⟨hundeclared, hleast, hlast⟩ := find?_isMissing_eq_some_iff.mp hfind
    exact .undeclared hundeclared hleast hlast
  | none =>
    have hdeclared := find?_isMissing_eq_none_iff.mp hfind
    cases hrepeat : firstRepeat? [] ((nodes numbered).map Node.id) with
    | some t =>
      rw [Option.elim_none, Net.build_of_firstRepeat? hrepeat]
      exact .clash hdeclared (firstRepeat?_nodes_eq_some_iff.mp hrepeat)
    | none =>
      have hclear := firstRepeat?_nodes_eq_none_iff.mp hrepeat
      obtain ⟨N, hN⟩ := exists_build_nodes id hclear
      rw [Option.elim_none, hN]
      exact .net hdeclared hclear (describes_of_build hN)

lemma Means.eq_ofRules {result : Except Error Net} (h : Means id numbered result) : result = Net.ofRules id numbered := by
  rw [ofRules_eq]
  cases h with
  | @undeclared t line c hundeclared hleast hlast =>
    have hfind : (notes numbered).find? (isMissing numbered) = some ⟨t, line, c⟩ :=
      find?_isMissing_eq_some_iff.mpr ⟨hundeclared, hleast, hlast⟩
    rw [hfind]
    rfl
  | clash hdeclared hclash =>
    rw [find?_isMissing_eq_none_iff.mpr hdeclared, Option.elim_none,
      Net.build_of_firstRepeat? (firstRepeat?_nodes_eq_some_iff.mpr hclash)]
  | net hdeclared hclear hdescribes =>
    obtain ⟨M, hM⟩ := exists_build_nodes id hclear
    rw [find?_isMissing_eq_none_iff.mpr hdeclared, Option.elim_none, hM, hdescribes.unique (describes_of_build hM)]

lemma ofText_of_ok {text : String} (h : readText text = .ok numbered) (id : String) :
    Net.ofText id text = Net.ofRules id numbered := by
  rw [Net.ofText, h]
  rfl

theorem ofText_means (id text : String) :
    (∀ numbered, readText text = .ok numbered → ∀ result, Means id numbered result ↔ result = Net.ofText id text) ∧
    ∀ source target missing, Net.ofText id text ≠ .error (.unknownNode source target missing) ∧
      Net.ofText id text ≠ .error (.notBipartite source target) := by
  refine ⟨fun numbered h result => ?_, fun source target missing => ?_⟩
  · rw [ofText_of_ok h]
    exact ⟨Means.eq_ofRules, fun heq => heq ▸ means_ofRules id numbered⟩
  · cases h : readText text with
    | error e =>
      obtain ⟨line, fault, rfl⟩ := exists_badLine h
      rw [Net.ofText, h]
      exact ⟨nofun, nofun⟩
    | ok numbered =>
      have hmeans := means_ofRules id numbered
      rw [ofText_of_ok h]
      generalize Net.ofRules id numbered = result at hmeans
      cases hmeans <;> exact ⟨nofun, nofun⟩

def bakery : String :=
  "oven = 1\n\x7boven, flour\x7d -> bread\nbake: bread -> oven\nt1 [read=recipe]\noven = 2 # again\nt1 [kind=app]"

def bakeryRules : List (ℕ × Rule) :=
  [(1, .assign "oven" 1), (2, .transition none ["oven", "flour"] ["bread"]),
    (3, .transition (some "bake") ["bread"] ["oven"]), (4, .context "t1" { read := some "recipe" }),
    (5, .assign "oven" 2), (6, .context "t1" { kind := .app })]

theorem ofText_means_bakery : readText bakery = .ok bakeryRules ∧
    (∃ N, Net.ofText "bakery" bakery = .ok N ∧ Describes "bakery" bakeryRules N ∧ N.marking.tokens "oven" = 2 ∧
      ⟨"t1", some { kind := .app }⟩ ∈ N.transitions) ∧
    Means "shop" [(1, .transition none ["b"] ["t1"]), (2, .transition none ["a"] ["b"])]
      (.error (.duplicateNode "t1")) ∧
    Means "shop" [(1, .context "z" {}), (2, .context "m" {}), (3, .transition none [] []), (4, .context "m" {})]
      (.error (.badLine 4 (.undeclared "m"))) := by
  have hread : readText bakery = .ok bakeryRules := rfl
  obtain ⟨N, hN⟩ := exists_eq_ok (x := Net.ofText "bakery" bakery) (by decide +kernel)
  refine ⟨hread, ⟨N, hN, ?_⟩, ?_, ?_⟩
  · cases ((ofText_means "bakery" bakery).1 bakeryRules hread (.ok N)).mpr hN.symm with
    | net _ _ hdescribes =>
      have hoven : IsPlace bakeryRules "oven" := ⟨_, List.mem_cons_self, List.mem_cons_self⟩
      refine ⟨hdescribes, (hdescribes.tokens_eq "oven" hoven).trans (by decide +kernel), ?_⟩
      exact (hdescribes.mem_transitions _).mpr ⟨by decide +kernel, by decide +kernel⟩
  · exact ((ofText_means "shop" "b -> t1\na -> b").1 _ rfl _).mpr rfl
  · exact ((ofText_means "shop" "z []\nm []\n->\nm []").1 _ rfl _).mpr rfl

end Rule

end Petri
