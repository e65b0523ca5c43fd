import Mathlib
import Petri.Path.Trail

/-! The walk over a stack of trails lists the paths that cannot go on: simple up to the last vertex, which comes back to
an earlier one or has no successor. -/

namespace Petri

namespace Trail

section

variable {α : Type} {t : Trail α}

lemma path_eq (t : Trail α) : t.path = t.before.reverse ++ [t.last] := by
  simp [path]

lemma getLast?_path (t : Trail α) : t.path.getLast? = some t.last := by
  rw [path_eq, List.getLast?_concat]

lemma isChain_path_append_cons {r : α → α → Prop} {v : α} {rest : List α} :
    (t.path ++ v :: rest).IsChain r ↔ t.path.IsChain r ∧ r t.last v ∧ (v :: rest).IsChain r := by
  rw [path_eq, List.append_assoc, List.singleton_append]
  exact List.isChain_append_cons_cons

end

variable {α : Type} [DecidableEq α] {next : α → List α} {vertices : List α} {t u : Trail α} {p : List α}

lemma path_extend (t : Trail α) (v : α) : (t.extend v).path = t.path ++ [v] := by
  simp [extend, path]

lemma contains_eq (t : Trail α) : (t.last :: t.before).contains = fun v => decide (v ∈ t.path) := by
  funext v
  simp [path, or_comm]

lemma length_unused_lt (h : u ∈ t.continued next) : u.unused.length < t.unused.length := by
  obtain ⟨v, hv, rfl⟩ := List.mem_map.mp h
  have hmem := (List.mem_filter.mp hv).1
  have hpos := List.length_pos_of_mem hmem
  simp only [extend, List.length_erase_of_mem hmem]
  omega

def paths (next : α → List α) (t : Trail α) : List (List α) :=
  t.ended next ++ (t.continued next).attach.flatMap fun u => u.1.paths next
termination_by t.unused.length
decreasing_by exact length_unused_lt u.2

lemma paths_eq (next : α → List α) (t : Trail α) :
    t.paths next = t.ended next ++ (t.continued next).flatMap (paths next) := by
  rw [paths]
  congr 1
  simp

lemma mem_continued : u ∈ t.continued next ↔ ∃ v ∈ t.unused, v ∈ next t.last ∧ u = t.extend v := by
  simp only [continued, List.mem_map, List.mem_filter, List.contains_iff_mem]
  constructor
  · rintro ⟨v, ⟨hu, hn⟩, rfl⟩
    exact ⟨v, hu, hn, rfl⟩
  · rintro ⟨v, hu, hn, rfl⟩
    exact ⟨v, ⟨hu, hn⟩, rfl⟩

lemma mem_ended : p ∈ t.ended next ↔
    (next t.last = [] ∧ p = t.path) ∨ ∃ v ∈ next t.last, v ∈ t.path ∧ p = t.path ++ [v] := by
  rw [ended]
  split
  · next h =>
    rw [List.isEmpty_iff] at h
    simp [h]
  · next h =>
    rw [List.isEmpty_iff] at h
    simp only [h, false_and, false_or, List.mem_map, List.mem_reverse, List.mem_filter, List.contains_iff_mem]
    constructor
    · rintro ⟨v, ⟨hv, hp⟩, rfl⟩
      exact ⟨v, hv, by simpa [path, or_comm] using hp, rfl⟩
    · rintro ⟨v, hv, hp, rfl⟩
      exact ⟨v, ⟨hv, by simpa [path, or_comm] using hp⟩, rfl⟩

/-- The path can be walked, is simple up to its last vertex, and cannot go on. -/
structure IsMaximal (next : α → List α) (p : List α) : Prop where
  chain : p.IsChain fun a b => b ∈ next a
  ends : ∃ init last, p = init ++ [last] ∧ init.Nodup ∧ (last ∈ init ∨ next last = [])

/-- The trail is simple and can be walked; of the given vertices, those it has not been to are unused. -/
structure Simple (vertices : List α) (next : α → List α) (t : Trail α) : Prop where
  chain : t.path.IsChain fun a b => b ∈ next a
  nodup : t.path.Nodup
  unused : ∀ v, v ∈ t.unused ↔ v ∈ vertices ∧ v ∉ t.path
  unused_nodup : t.unused.Nodup
  last_mem : t.last ∈ vertices

lemma simple_start (hv : vertices.Nodup) {s : α} (hs : s ∈ vertices) :
    Simple vertices next (start vertices s) where
  chain := by simp [start, path]
  nodup := by simp [start, path]
  unused v := by
    rw [start, hv.mem_erase_iff]
    simp [path, and_comm]
  unused_nodup := hv.erase s
  last_mem := hs

lemma Simple.extend (h : Simple vertices next t) {v : α} (hv : v ∈ next t.last) (hu : v ∈ t.unused) :
    Simple vertices next (t.extend v) where
  chain := by
    rw [path_extend]
    exact isChain_path_append_cons.mpr ⟨h.chain, hv, List.isChain_singleton v⟩
  nodup := by
    rw [path_extend, List.nodup_append]
    simpa using ⟨h.nodup, fun a ha hav => ((h.unused v).mp hu).2 (hav ▸ ha)⟩
  unused w := by
    have hmem : w ∈ (t.extend v).unused ↔ w ≠ v ∧ w ∈ t.unused := h.unused_nodup.mem_erase_iff
    rw [hmem, h.unused, path_extend]
    simp
    tauto
  unused_nodup := h.unused_nodup.erase v
  last_mem := ((h.unused v).mp hu).1

lemma Simple.isMaximal_of_mem_ended (h : Simple vertices next t) (hp : p ∈ t.ended next) : IsMaximal next p := by
  rcases mem_ended.mp hp with ⟨hn, rfl⟩ | ⟨v, hv, hvp, rfl⟩
  · refine ⟨h.chain, t.before.reverse, t.last, path_eq t, ?_, Or.inr hn⟩
    have hnodup := h.nodup
    rw [path_eq] at hnodup
    exact hnodup.of_append_left
  · refine ⟨?_, t.path, v, rfl, h.nodup, Or.inl hvp⟩
    exact isChain_path_append_cons.mpr ⟨h.chain, hv, List.isChain_singleton v⟩

lemma Simple.cases_of_isMaximal (h : Simple vertices next t)
    (hc : ∀ a ∈ vertices, ∀ b ∈ next a, b ∈ vertices) (hp : IsMaximal next p) (hpre : t.path <+: p) :
    p ∈ t.ended next ∨ ∃ v ∈ t.unused, v ∈ next t.last ∧ (t.extend v).path <+: p := by
  obtain ⟨rest, rfl⟩ := hpre
  obtain ⟨init, last, heq, hnodup, hend⟩ := hp.ends
  cases rest with
  | nil =>
    rw [List.append_nil, path_eq] at heq
    obtain ⟨rfl, hlast⟩ := List.append_inj' heq rfl
    obtain rfl : t.last = last := by simpa using hlast
    have hnot : t.last ∉ t.before.reverse := by
      have hn := h.nodup
      rw [path_eq] at hn
      exact fun hm => List.disjoint_of_nodup_append hn hm (by simp)
    exact Or.inl (mem_ended.mpr (Or.inl ⟨hend.resolve_left hnot, by simp⟩))
  | cons v rest =>
    obtain ⟨-, hv, -⟩ := isChain_path_append_cons.mp hp.chain
    by_cases hvp : v ∈ t.path
    · refine Or.inl (mem_ended.mpr (Or.inr ⟨v, hv, hvp, ?_⟩))
      cases rest using List.reverseRecOn with
      | nil => rfl
      | append_singleton rest w =>
        have heq' : (t.path ++ v :: rest) ++ [w] = init ++ [last] := by simpa using heq
        obtain ⟨rfl, -⟩ := List.append_inj' heq' rfl
        exact absurd (by simp) (List.disjoint_of_nodup_append hnodup hvp)
    · have hu : v ∈ t.unused := (h.unused v).mpr ⟨hc _ h.last_mem v hv, hvp⟩
      refine Or.inr ⟨v, hu, hv, ?_⟩
      rw [path_extend]
      exact ⟨rest, by simp⟩

lemma Simple.mem_paths (h : Simple vertices next t) (hc : ∀ a ∈ vertices, ∀ b ∈ next a, b ∈ vertices) :
    p ∈ t.paths next ↔ t.path <+: p ∧ IsMaximal next p := by
  induction hn : t.unused.length using Nat.strong_induction_on generalizing t with
  | _ n ih =>
    subst hn
    have hstep : ∀ v ∈ t.unused, v ∈ next t.last →
        (p ∈ (t.extend v).paths next ↔ (t.extend v).path <+: p ∧ IsMaximal next p) := fun v hu hv =>
      ih _ (length_unused_lt (mem_continued.mpr ⟨v, hu, hv, rfl⟩)) (h.extend hv hu) rfl
    rw [paths_eq, List.mem_append, List.mem_flatMap]
    constructor
    · rintro (hp | ⟨u, hu, hp⟩)
      · refine ⟨?_, h.isMaximal_of_mem_ended hp⟩
        rcases mem_ended.mp hp with ⟨-, rfl⟩ | ⟨v, -, -, rfl⟩
        · exact List.prefix_rfl
        · exact List.prefix_append _ _
      · obtain ⟨v, hv, hn, rfl⟩ := mem_continued.mp hu
        obtain ⟨hpre, hmax⟩ := (hstep v hv hn).mp hp
        refine ⟨?_, hmax⟩
        rw [path_extend] at hpre
        exact (List.prefix_append _ _).trans hpre
    · rintro ⟨hpre, hmax⟩
      rcases h.cases_of_isMaximal hc hmax hpre with hp | ⟨v, hu, hv, hpre'⟩
      · exact Or.inl hp
      · exact Or.inr ⟨_, mem_continued.mpr ⟨v, hu, hv, rfl⟩, (hstep v hu hv).mpr ⟨hpre', hmax⟩⟩

lemma mem_paths_start (hv : vertices.Nodup) (hc : ∀ a ∈ vertices, ∀ b ∈ next a, b ∈ vertices) {s : α}
    (hs : s ∈ vertices) : p ∈ (start vertices s).paths next ↔ p.head? = some s ∧ IsMaximal next p := by
  rw [(simple_start hv hs).mem_paths hc]
  refine and_congr_left fun _ => ?_
  cases p <;> simp [start, path, eq_comm]

lemma eq_of_extend_path {v w : α} (hv : (t.extend v).path <+: p) (hw : (t.extend w).path <+: p) : v = w := by
  rw [path_extend] at hv hw
  obtain ⟨r, rfl⟩ := hv
  obtain ⟨r', hr⟩ := hw
  rw [List.append_assoc, List.append_assoc, List.append_cancel_left_eq] at hr
  exact (List.cons.inj hr).1.symm

lemma nodup_ended (hn : (next t.last).Nodup) : (t.ended next).Nodup := by
  rw [ended]
  split
  · exact List.nodup_singleton _
  · refine List.Nodup.map (fun v w hvw => ?_) (List.nodup_reverse.mpr (hn.filter _))
    exact List.singleton_inj.mp (List.append_cancel_left hvw)

lemma Simple.notMem_ended (h : Simple vertices next t) {v : α} (hv : v ∈ t.unused) (hp : (t.extend v).path <+: p) :
    p ∉ t.ended next := by
  intro hmem
  rcases mem_ended.mp hmem with ⟨-, rfl⟩ | ⟨w, -, hw, rfl⟩
  · have hle := hp.length_le
    rw [path_extend, List.length_append, List.length_singleton] at hle
    omega
  · have hpw : (t.extend w).path <+: t.path ++ [w] := by rw [path_extend]
    obtain rfl := eq_of_extend_path hp hpw
    exact ((h.unused v).mp hv).2 hw

lemma Simple.nodup_paths (h : Simple vertices next t) (hc : ∀ a ∈ vertices, ∀ b ∈ next a, b ∈ vertices)
    (hn : ∀ a, (next a).Nodup) : (t.paths next).Nodup := by
  induction hlength : t.unused.length using Nat.strong_induction_on generalizing t with
  | _ n ih =>
    subst hlength
    have hextend : ∀ v ∈ t.unused, v ∈ next t.last → Simple vertices next (t.extend v) := fun v hu hv => h.extend hv hu
    have hbegin : ∀ v ∈ t.unused.filter (next t.last).contains, ∀ p ∈ (t.extend v).paths next,
        (t.extend v).path <+: p := by
      intro v hv p hp
      obtain ⟨hu, hv⟩ := List.mem_filter.mp hv
      exact (((hextend v hu (by simpa using hv)).mem_paths hc).mp hp).1
    rw [paths_eq, List.nodup_append, List.nodup_flatMap]
    refine ⟨nodup_ended (hn t.last), ⟨fun u hu => ?_, ?_⟩, ?_⟩
    · obtain ⟨v, hv, hvn, rfl⟩ := mem_continued.mp hu
      exact ih _ (length_unused_lt hu) (hextend v hv hvn) rfl
    · rw [continued, List.pairwise_map]
      refine (h.unused_nodup.filter _).imp_of_mem fun {v w} hv hw hne p hpv hpw => ?_
      exact hne (eq_of_extend_path (hbegin v hv p hpv) (hbegin w hw p hpw))
    · rintro p hp q hq rfl
      obtain ⟨u, hu, hq⟩ := List.mem_flatMap.mp hq
      obtain ⟨v, hv, rfl⟩ := List.mem_map.mp hu
      exact h.notMem_ended (List.mem_filter.mp hv).1 (hbegin v hv p hq) hp

lemma Simple.exists_mem_paths (h : Simple vertices next t) (hc : ∀ a ∈ vertices, ∀ b ∈ next a, b ∈ vertices) :
    ∃ p, p ∈ t.paths next := by
  induction hn : t.unused.length using Nat.strong_induction_on generalizing t with
  | _ n ih =>
    subst hn
    rw [paths_eq]
    cases hl : next t.last with
    | nil => exact ⟨t.path, List.mem_append_left _ (mem_ended.mpr (Or.inl ⟨hl, rfl⟩))⟩
    | cons v rest =>
      have hv : v ∈ next t.last := hl ▸ List.mem_cons_self
      by_cases hvp : v ∈ t.path
      · exact ⟨_, List.mem_append_left _ (mem_ended.mpr (Or.inr ⟨v, hv, hvp, rfl⟩))⟩
      · have hu : v ∈ t.unused := (h.unused v).mpr ⟨hc _ h.last_mem v hv, hvp⟩
        have hcont : t.extend v ∈ t.continued next := mem_continued.mpr ⟨v, hu, hv, rfl⟩
        obtain ⟨p, hp⟩ := ih _ (length_unused_lt hcont) (h.extend hv hu) rfl
        exact ⟨p, List.mem_append_right _ (List.mem_flatMap.mpr ⟨_, hcont, hp⟩)⟩

lemma exists_isMaximal (hv : vertices.Nodup) (hc : ∀ a ∈ vertices, ∀ b ∈ next a, b ∈ vertices) {c : List α}
    (hne : c ≠ []) (hnodup : c.Nodup) (hchain : c.IsChain fun a b => b ∈ next a) (hmem : ∀ a ∈ c, a ∈ vertices) :
    ∃ p, c <+: p ∧ IsMaximal next p := by
  let t : Trail α := ⟨c.getLast hne, c.dropLast.reverse, vertices.filter (· ∉ c)⟩
  have hpath : t.path = c := by
    rw [path_eq, List.reverse_reverse]
    exact List.dropLast_append_getLast hne
  have ht : Simple vertices next t := {
    chain := hpath.symm ▸ hchain
    nodup := hpath.symm ▸ hnodup
    unused v := by
      rw [hpath]
      simp [t]
    unused_nodup := hv.filter _
    last_mem := hmem _ (List.getLast_mem hne) }
  obtain ⟨p, hp⟩ := ht.exists_mem_paths hc
  obtain ⟨hpre, hmax⟩ := (ht.mem_paths hc).mp hp
  exact ⟨p, hpath ▸ hpre, hmax⟩

lemma exists_isMaximal_of_dropLast (hv : vertices.Nodup) (hc : ∀ a ∈ vertices, ∀ b ∈ next a, b ∈ vertices) {c : List α}
    (hne : c ≠ []) (hnodup : c.dropLast.Nodup) (hchain : c.IsChain fun a b => b ∈ next a) (hmem : ∀ a ∈ c, a ∈ vertices) :
    ∃ p, c <+: p ∧ IsMaximal next p := by
  have hsplit := List.dropLast_append_getLast hne
  by_cases hlast : c.getLast hne ∈ c.dropLast
  · exact ⟨c, List.prefix_rfl, hchain, _, _, hsplit.symm, hnodup, Or.inl hlast⟩
  · have hsimple : c.Nodup := by
      rw [← hsplit, List.nodup_append]
      refine ⟨hnodup, List.nodup_singleton _, ?_⟩
      rintro a ha b hb rfl
      exact hlast (List.mem_singleton.mp hb ▸ ha)
    exact exists_isMaximal hv hc hne hsimple hchain hmem

end Trail

lemma within_eq_error_of_le {resource : Resource} {limit : Option ℕ} {m n : ℕ} {e : Error}
    (h : resource.within limit m = .error e) (hmn : m ≤ n) : resource.within limit n = .error e := by
  cases limit with
  | none => cases h
  | some l =>
    simp only [Resource.within] at h ⊢
    split at h
    · rw [if_pos (by omega)]
      exact h
    · cases h

lemma within_zero (resource : Resource) (limit : Option ℕ) : resource.within limit 0 = .ok () := by
  cases limit with
  | none => rfl
  | some l => simp [Resource.within]

section

variable {α : Type}

lemma size_append_list (a : Array α) (l : List α) : (a ++ l).size = a.size + l.length := by
  rw [← Array.length_toList, Array.toList_appendList, List.length_append, Array.length_toList]

lemma append_list_append (a : Array α) (l l' : List α) : a ++ l ++ l' = a ++ (l ++ l') :=
  Array.ext' (by simp)

def listed (limit : Option ℕ) (found : Array (List α)) (l : List (List α)) : Except Error (Array (List α)) := do
  Resource.paths.within limit (found ++ l).size
  return found ++ l

variable {limit : Option ℕ} {found : Array (List α)} {l l' : List (List α)}

lemma listed_of_error {e : Error} (h : Resource.paths.within limit (found ++ l).size = .error e) :
    listed limit found l = .error e := by
  rw [listed, h]
  rfl

lemma listed_of_ok (h : Resource.paths.within limit (found ++ l).size = .ok ()) :
    listed limit found l = .ok (found ++ l) := by
  rw [listed, h]
  rfl

lemma listed_nil (h : Resource.paths.within limit found.size = .ok ()) : listed limit found [] = .ok found := by
  have hnil : found ++ ([] : List (List α)) = found := Array.ext' (by simp)
  rw [listed, hnil, h]
  rfl

lemma listed_empty (limit : Option ℕ) (l : List (List α)) :
    listed limit #[] l = Resource.paths.within limit l.length >>= fun _ => .ok l.toArray := by
  have hl : (#[] : Array (List α)) ++ l = l.toArray := Array.ext' (by simp)
  rw [listed, hl, List.size_toArray]
  rfl

lemma listed_some (n : ℕ) (l : List (List α)) : listed (some n) #[] l =
    if n < l.length then .error (.exhausted .paths n) else .ok l.toArray := by
  rw [listed_empty, Resource.within]
  split <;> rfl

/-- Listing in two parts fails where listing all at once does, since the second part only adds. -/
lemma listed_bind {f : Array (List α) → Except Error (Array (List α))}
    (hf : ∀ r, Resource.paths.within limit r.size = .ok () → f r = listed limit r l') :
    (listed limit found l >>= f) = listed limit found (l ++ l') := by
  cases h : Resource.paths.within limit (found ++ l).size with
  | error e =>
    have hle : (found ++ l).size ≤ (found ++ (l ++ l')).size := by
      rw [← append_list_append, size_append_list (found ++ l)]
      omega
    rw [listed_of_error h, listed_of_error (within_eq_error_of_le h hle)]
    rfl
  | ok u =>
    rw [listed_of_ok h]
    change f (found ++ l) = _
    rw [hf _ h, listed, listed, append_list_append]

lemma listed_cons (limit : Option ℕ) (found : Array (List α)) (p : List α) (l : List (List α)) :
    listed limit found (p :: l) = listed limit found [p] >>= fun r => listed limit r l := by
  rw [← List.singleton_append]
  exact (listed_bind fun _ _ => rfl).symm

end

variable {α : Type} [DecidableEq α] {next : α → List α} {limit : Option ℕ} {found : Array (List α)} {vertices : List α}

lemma flatMap_paths_cons (t : Trail α) (stack : List (Trail α)) : (t :: stack).flatMap (Trail.paths next) =
    t.ended next ++ (t.continued next ++ stack).flatMap (Trail.paths next) := by
  rw [List.flatMap_cons, Trail.paths_eq, List.flatMap_append, List.append_assoc]

lemma walk_eq {stack : List (Trail α)} (h : Resource.paths.within limit found.size = .ok ()) :
    walk next limit stack found = listed limit found (stack.flatMap (Trail.paths next)) := by
  fun_induction walk next limit stack found with
  | case1 found => exact (listed_nil h).symm
  | case2 found t stack found' e he =>
    rw [flatMap_paths_cons, ← listed_bind fun _ _ => rfl, listed_of_error he]
    rfl
  | case3 found t stack found' hok ih =>
    rw [ih hok, flatMap_paths_cons, ← listed_bind fun _ _ => rfl, listed_of_ok hok]
    rfl

lemma pathsFrom_eq (h : Resource.paths.within limit found.size = .ok ()) (s : α) :
    pathsFrom vertices next limit found s = listed limit found ((Trail.start vertices s).paths next) := by
  rw [pathsFrom, walk_eq h, List.flatMap_singleton]

lemma foldlM_pathsFrom (h : Resource.paths.within limit found.size = .ok ()) (starts : List α) :
    starts.foldlM (pathsFrom vertices next limit) found =
      listed limit found (starts.flatMap fun s => (Trail.start vertices s).paths next) := by
  induction starts generalizing found with
  | nil => exact (listed_nil h).symm
  | cons s starts ih => rw [List.foldlM_cons, pathsFrom_eq h, listed_bind fun r hr => ih hr, List.flatMap_cons]

end Petri
