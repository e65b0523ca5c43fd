import Mathlib
import Petri.Proofs.Path.Stack

/-! The enumeration of paths against a recursion without a stack. From a start that leads to finitely many vertices both
give the same paths in the same order. -/

namespace Petri

namespace Search

variable {α : Type} [DecidableEq α]

/-- The recursion at `path` comes to an end and gives `paths`. A path that cannot go on is given as it is; otherwise the
extensions that come back to a vertex of the path are given, by descending vertex, and then what the recursion gives at
each other extension, by ascending vertex. -/
inductive Branches (next : α → List α) : List α → List (List α) → Prop
  | ends {path : List α} {last : α} : path.getLast? = some last → next last = [] → Branches next path [path]
  | goesOn {path : List α} {last : α} {onward : α → List (List α)} : path.getLast? = some last → next last ≠ [] →
      (∀ v ∈ next last, v ∉ path → Branches next (path ++ [v]) (onward v)) →
      Branches next path (((next last).filter (· ∈ path)).reverse.map (fun v => path ++ [v]) ++
        ((next last).filter (· ∉ path)).flatMap onward)

def Leads (next : α → List α) : α → α → Prop :=
  Relation.ReflTransGen fun v w => w ∈ next v

variable {next : α → List α} {vertices path : List α} {paths paths' : List (List α)} {t : Trail α} {s : α}

lemma Branches.unique (h : Branches next path paths) (h' : Branches next path paths') : paths = paths' := by
  induction h generalizing paths' with
  | ends hlast hnil =>
    cases h' with
    | ends => rfl
    | goesOn hlast' hne =>
      cases hlast.symm.trans hlast'
      exact absurd hnil hne
  | goesOn hlast hne _ ih =>
    cases h' with
    | ends hlast' hnil =>
      cases hlast.symm.trans hlast'
      exact absurd hnil hne
    | goesOn hlast' _ honward' =>
      cases hlast.symm.trans hlast'
      congr 1
      refine List.flatMap_congr fun v hv => ?_
      obtain ⟨hv, hpath⟩ := List.mem_filter.mp hv
      rw [decide_eq_true_eq] at hpath
      exact ih v hv hpath (honward' v hv hpath)

variable [LT α] [LE α] [Std.LawfulOrderLT α] [Std.IsLinearOrder α]

lemma Spans.paths_eq (hspan : Spans vertices next) (ht : Ready vertices next t) (hne : next t.last ≠ []) :
    t.paths next = ((next t.last).filter (· ∈ t.path)).reverse.map (fun v => t.path ++ [v]) ++
      ((next t.last).filter (· ∉ t.path)).flatMap fun v => (t.extend v).paths next := by
  rw [Trail.paths_eq, Trail.ended, if_neg (by simpa using hne), hspan.filter_eq ht, Trail.contains_eq, Trail.continued,
    List.flatMap_map]

lemma Spans.branches (hspan : Spans vertices next) (ht : Ready vertices next t) :
    Branches next t.path (t.paths next) := by
  induction hn : t.unused.length using Nat.strong_induction_on generalizing t with
  | _ n ih =>
    subst hn
    by_cases hnil : next t.last = []
    · have hpaths : t.paths next = [t.path] := by
        rw [Trail.paths_eq]
        simp [Trail.ended, Trail.continued, hnil]
      rw [hpaths]
      exact .ends t.getLast?_path hnil
    · rw [hspan.paths_eq ht hnil]
      refine .goesOn t.getLast?_path hnil fun v hv hpath => ?_
      have hcontinued : t.extend v ∈ t.continued next :=
        Trail.mem_continued.mpr ⟨v, (ht.unused v).mpr ⟨hspan.closed _ ht.last_mem v hv, hpath⟩, hv, rfl⟩
      rw [← Trail.path_extend]
      exact ih _ (Trail.length_unused_lt hcontinued) (ht.continued hcontinued) rfl

lemma Spans.branches_start (hspan : Spans vertices next) (hs : s ∈ vertices) :
    Branches next [s] ((Trail.start vertices s).paths next) :=
  hspan.branches (hspan.ready_start hs)

lemma exists_spans (hnext : ∀ v, Ascending (fun w => w) (next v)) (hfin : {v | Leads next s v}.Finite) :
    ∃ vertices, s ∈ vertices ∧ Spans vertices next := by
  classical
  have hmem : ∀ v, v ∈ Sorted.ofList hfin.toFinset.toList ↔ Leads next s v := by simp
  refine ⟨Sorted.ofList hfin.toFinset.toList, (hmem s).mpr .refl, Sorted.ascending_ofList _, hnext, fun v hv w hw => ?_⟩
  exact (hmem w).mpr (((hmem v).mp hv).tail hw)

theorem pathsFrom_eq_branches (hnext : ∀ v, Ascending (fun w => w) (next v)) (hfin : {v | Leads next s v}.Finite) :
    ∃ paths, (∀ paths', Branches next [s] paths' ↔ paths' = paths) ∧ Completes next s paths ∧
      (∃ vertices, s ∈ vertices ∧ Spans vertices next) ∧
      ∀ vertices, s ∈ vertices → Spans vertices next → ∀ found,
        pathsFrom vertices next none found s = .ok (found ++ paths) := by
  obtain ⟨reached, hs, hreached⟩ := exists_spans hnext hfin
  have hbranches := hreached.branches_start hs
  refine ⟨_, fun paths' => ⟨fun h => h.unique hbranches, fun h => h ▸ hbranches⟩, hreached.completes hs,
    ⟨reached, hs, hreached⟩, ?_⟩
  intro vertices hsv hspan found
  rw [pathsFrom_eq rfl, (hspan.branches_start hsv).unique hbranches]
  rfl

def ladder : ℕ → List ℕ
  | 0 => [0, 1, 2]
  | 1 => [0, 1, 2]
  | 2 => []
  | v => [v + 1]

lemma ascending_ladder (v : ℕ) : Ascending (fun w => w) (ladder v) := by
  unfold ladder
  split <;> simp [Ascending]

lemma spans_ladder : Spans [0, 1, 2] ladder where
  ascending := by decide
  ascending_next := ascending_ladder
  closed := by decide

lemma finite_leads_ladder : {v | Leads ladder 0 v}.Finite := by
  refine (Set.finite_Iic 2).subset fun v hv => ?_
  have hclosed : ∀ v ≤ 2, ∀ w ∈ ladder v, w ≤ 2 := by decide
  induction hv with
  | refl => exact Nat.zero_le 2
  | tail _ hw ih => exact hclosed _ ih _ hw

theorem pathsFrom_eq_branches_ladder : {v | Leads ladder 0 v}.Finite ∧ Completes ladder 0
      [[0, 0], [0, 1, 1], [0, 1, 0], [0, 1, 2], [0, 2]] ∧
    Branches ladder [0] [[0, 0], [0, 1, 1], [0, 1, 0], [0, 1, 2], [0, 2]] := by
  obtain ⟨paths, hbranches, hcompletes, -, hwalk⟩ := pathsFrom_eq_branches ascending_ladder finite_leads_ladder
  have hlist : (pathsFrom [0, 1, 2] ladder none #[] 0).toOption.map Array.toList =
      some [[0, 0], [0, 1, 1], [0, 1, 0], [0, 1, 2], [0, 2]] := by decide +kernel
  rw [hwalk _ List.mem_cons_self spans_ladder] at hlist
  obtain rfl : paths = _ := by simpa [Except.toOption] using hlist
  exact ⟨finite_leads_ladder, hcompletes, (hbranches _).mpr rfl⟩

end Search

end Petri
