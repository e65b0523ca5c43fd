import Mathlib
import Petri.Proofs.Except
import Petri.Proofs.Sorted
import Petri.Proofs.Path.Trail

/-! The enumeration of paths as a loop over a stack, without a bound on the number of turns. From a start in a finite
graph it comes to an end, with what `pathsFrom` gives. -/

namespace Petri

structure Search (α : Type) where
  stack : List (List α)
  found : Array (List α)

namespace Search

variable {α : Type}

def start (found : Array (List α)) (s : α) : Search α :=
  ⟨[[s]], found⟩

def list (limit : Option ℕ) (S : Search α) (path : List α) : Except Error (Search α) := do
  let found := S.found.push path
  Resource.paths.within limit found.size
  return ⟨S.stack, found⟩

lemma list_eq (limit : Option ℕ) (S : Search α) (path : List α) :
    S.list limit path = (listed limit S.found [path]).map fun found => ⟨S.stack, found⟩ := by
  have hpush : S.found.push path = S.found ++ [path] := Array.ext' (by simp)
  rw [list, hpush, listed]
  cases Resource.paths.within limit (S.found ++ [path]).size <;> rfl

variable [DecidableEq α]

def extend (limit : Option ℕ) (path : List α) (S : Search α) (v : α) : Except Error (Search α) :=
  if v ∈ path then S.list limit (path ++ [v]) else .ok ⟨(path ++ [v]) :: S.stack, S.found⟩

def turn (next : α → List α) (limit : Option ℕ) (path : List α) (S : Search α) (last : α) : Except Error (Search α) :=
  if (next last).isEmpty then S.list limit path else (next last).reverse.foldlM (extend limit path) S

def step (next : α → List α) (limit : Option ℕ) (S : Search α) : Option (Except Error (Search α)) :=
  match S.stack with
  | [] => none
  | path :: stack => some (path.getLast?.elim (.ok ⟨stack, S.found⟩) (turn next limit path ⟨stack, S.found⟩))

def Next (next : α → List α) (limit : Option ℕ) (S T : Search α) : Prop :=
  S.step next limit = some (.ok T)

abbrev Ends (next : α → List α) (limit : Option ℕ) : Search α → Except Error (Array (List α)) → Prop :=
  Petri.Ends (step next limit) (fun S => S.stack = []) found

variable {next : α → List α} {limit : Option ℕ} {S T : Search α} {found : Array (List α)} {stack : List (List α)}
  {path vertices l : List α} {t : Trail α} {ts : List (Trail α)} {v : α} {x y : Except Error (Array (List α))}

lemma step_of_nil (h : S.stack = []) : S.step next limit = none := by
  rw [step, h]

lemma foldlM_extend (h : Resource.paths.within limit found.size = .ok ()) :
    l.foldlM (extend limit path) ⟨stack, found⟩ =
      (listed limit found ((l.filter (· ∈ path)).map fun v => path ++ [v])).map fun found =>
        ⟨((l.filter (· ∉ path)).map fun v => path ++ [v]).reverse ++ stack, found⟩ := by
  -- what is listed keeps the order of `l`, what goes on the stack has the last on top
  induction l generalizing stack found with
  | nil =>
    simp only [List.filter_nil, List.map_nil, listed_nil h]
    rfl
  | cons v l ih =>
    rw [List.foldlM_cons, extend]
    by_cases hv : v ∈ path
    · simp only [hv, if_true, list_eq, List.filter_cons, decide_true, not_true_eq_false, decide_false,
        Bool.false_eq_true, if_false, List.map_cons]
      rw [listed_cons _ _ _ (List.map _ _)]
      cases hlist : Resource.paths.within limit (found ++ [path ++ [v]]).size with
      | error e =>
        rw [listed_of_error hlist]
        rfl
      | ok u =>
        rw [listed_of_ok hlist]
        exact ih hlist
    · simp only [hv, if_false, List.filter_cons, decide_false, Bool.false_eq_true, not_false_eq_true, decide_true,
        if_true, List.map_cons, List.reverse_cons, List.append_assoc, List.singleton_append]
      exact ih h

/-- A finite graph: the successors of a vertex are vertices, and all are in ascending order. -/
structure Spans [LT α] (vertices : List α) (next : α → List α) : Prop where
  ascending : Ascending (fun v => v) vertices
  ascending_next : ∀ v, Ascending (fun v => v) (next v)
  closed : ∀ v ∈ vertices, ∀ w ∈ next v, w ∈ vertices

structure Ready (vertices : List α) (next : α → List α) (t : Trail α) : Prop extends Trail.Simple vertices next t where
  sublist : t.unused.Sublist vertices

lemma Ready.continued {u : Trail α} (h : Ready vertices next t) (hu : u ∈ t.continued next) :
    Ready vertices next u := by
  obtain ⟨v, hv, hnext, rfl⟩ := Trail.mem_continued.mp hu
  exact ⟨h.toSimple.extend hnext hv, List.erase_sublist.trans h.sublist⟩

section

variable [LT α] [LE α] [Std.LawfulOrderLT α]

lemma Spans.ready_start (hspan : Spans vertices next) {s : α} (hs : s ∈ vertices) :
    Ready vertices next (.start vertices s) :=
  ⟨Trail.simple_start (Sorted.nodup_of_ascending hspan.ascending) hs, List.erase_sublist⟩

variable [Std.IsLinearOrder α]

lemma Spans.filter_eq (hspan : Spans vertices next) (ht : Ready vertices next t) :
    (next t.last).filter (· ∉ t.path) = t.unused.filter (next t.last).contains := by
  apply Sorted.eq_of_mem_iff ((hspan.ascending_next t.last).filter _) ((hspan.ascending.sublist ht.sublist).filter _)
  intro v
  simp only [List.mem_filter, ht.unused, decide_eq_true_eq, List.contains_iff_mem]
  constructor
  · rintro ⟨hv, hpath⟩
    exact ⟨⟨hspan.closed _ ht.last_mem v hv, hpath⟩, hv⟩
  · rintro ⟨⟨_, hpath⟩, hv⟩
    exact ⟨hv, hpath⟩

lemma Spans.turn_eq (hspan : Spans vertices next) (ht : Ready vertices next t)
    (h : Resource.paths.within limit found.size = .ok ()) :
    turn next limit t.path ⟨stack, found⟩ t.last =
      (listed limit found (t.ended next)).map fun found => ⟨(t.continued next).map Trail.path ++ stack, found⟩ := by
  have hcontinued : (t.continued next).map Trail.path =
      ((next t.last).filter (· ∉ t.path)).map fun v => t.path ++ [v] := by
    rw [hspan.filter_eq ht, Trail.continued, List.map_map]
    exact List.map_congr_left fun v _ => Trail.path_extend t v
  rw [turn, Trail.ended, hcontinued]
  split
  · next hnil => simp [List.isEmpty_iff.mp hnil, list_eq]
  · rw [foldlM_extend h, Trail.contains_eq, List.filter_reverse, List.filter_reverse, List.map_reverse,
      List.reverse_reverse]

lemma Spans.step_eq (hspan : Spans vertices next) (ht : Ready vertices next t)
    (h : Resource.paths.within limit found.size = .ok ()) :
    step next limit ⟨(t :: ts).map Trail.path, found⟩ = some ((listed limit found (t.ended next)).map fun found =>
      ⟨(t.continued next ++ ts).map Trail.path, found⟩) := by
  rw [step, List.map_cons, List.map_append, ← hspan.turn_eq ht h]
  dsimp only
  rw [Trail.getLast?_path]
  rfl

lemma Spans.ends_walk (hspan : Spans vertices next) (hts : ∀ t ∈ ts, Ready vertices next t)
    (h : Resource.paths.within limit found.size = .ok ()) :
    Ends next limit ⟨ts.map Trail.path, found⟩ (walk next limit ts found) := by
  fun_induction walk next limit ts found with
  | case1 found => exact .done rfl
  | case2 found t ts found' e he =>
    apply Ends.failed
    rw [hspan.step_eq (hts t List.mem_cons_self) h, listed_of_error he]
    rfl
  | case3 found t ts found' hok ih =>
    have hnext : Next next limit ⟨(t :: ts).map Trail.path, found⟩
        ⟨(t.continued next ++ ts).map Trail.path, found'⟩ := by
      rw [Next, hspan.step_eq (hts t List.mem_cons_self) h, listed_of_ok hok]
      rfl
    refine .next hnext (ih (fun u hu => ?_) hok)
    rcases List.mem_append.mp hu with hu | hu
    · exact (hts t List.mem_cons_self).continued hu
    · exact hts u (List.mem_cons_of_mem t hu)

/-- After `found`, the loop from `s` comes to an end, and in one way only: with `x`. -/
def Gives (next : α → List α) (limit : Option ℕ) (found : Array (List α)) (s : α)
    (x : Except Error (Array (List α))) : Prop :=
  Acc (fun T S => Next next limit S T) (start found s) ∧ ∀ y, Ends next limit (start found s) y ↔ y = x

def Completes (next : α → List α) (s : α) (paths : List (List α)) : Prop :=
  ∀ found, Gives next none found s (.ok (found ++ paths))

/-- The loops from one start after another, each adding to what has been found before. -/
inductive Sweeps (next : α → List α) (limit : Option ℕ) :
    Array (List α) → List α → Except Error (Array (List α)) → Prop
  | nil {found : Array (List α)} : Sweeps next limit found [] (.ok found)
  | failed {found : Array (List α)} {s : α} {starts : List α} {e : Error} :
      Gives next limit found s (.error e) → Sweeps next limit found (s :: starts) (.error e)
  | cons {found found' : Array (List α)} {s : α} {starts : List α} {x : Except Error (Array (List α))} :
      Gives next limit found s (.ok found') → Sweeps next limit found' starts x →
      Sweeps next limit found (s :: starts) x

lemma Spans.gives (hspan : Spans vertices next) {s : α} (hs : s ∈ vertices)
    (h : Resource.paths.within limit found.size = .ok ()) :
    Gives next limit found s (listed limit found ((Trail.start vertices s).paths next)) := by
  have hready : ∀ t ∈ [Trail.start vertices s], Ready vertices next t := by
    intro t ht
    rw [List.mem_singleton.mp ht]
    exact hspan.ready_start hs
  have hends : Ends next limit (start found s) (walk next limit [.start vertices s] found) := hspan.ends_walk hready h
  rw [walk_eq h, List.flatMap_singleton] at hends
  refine ⟨hends.acc fun _ => step_of_nil, fun y => ⟨fun hy => ?_, fun hy => hy ▸ hends⟩⟩
  exact hy.unique (fun _ => step_of_nil) hends

lemma Spans.completes (hspan : Spans vertices next) {s : α} (hs : s ∈ vertices) :
    Completes next s ((Trail.start vertices s).paths next) :=
  fun _ => hspan.gives hs rfl

lemma Spans.sweeps (hspan : Spans vertices next) {starts : List α} (hstarts : starts ⊆ vertices)
    (h : Resource.paths.within limit found.size = .ok ()) : Sweeps next limit found starts
      (listed limit found (starts.flatMap fun s => (Trail.start vertices s).paths next)) := by
  induction starts generalizing found with
  | nil =>
    rw [List.flatMap_nil, listed_nil h]
    exact .nil
  | cons s starts ih =>
    obtain ⟨hs, hrest⟩ := List.cons_subset.mp hstarts
    have hgives := hspan.gives hs h
    rw [List.flatMap_cons, ← listed_bind fun _ _ => rfl]
    cases hw : Resource.paths.within limit (found ++ (Trail.start vertices s).paths next).size with
    | error e =>
      rw [listed_of_error hw] at hgives ⊢
      exact .failed hgives
    | ok _ =>
      rw [listed_of_ok hw] at hgives ⊢
      exact .cons hgives (ih hrest hw)

end

end Search

end Petri
