import Petri.Error

/-! Enumerating paths. A path goes on along successors until there are none, or until it comes back to a vertex that it
has been to. -/

namespace Petri

structure Trail (α : Type) where
  last : α
  /-- The vertices before the last, the latest first. -/
  before : List α
  unused : List α

/-- How many trails can come of one with `n` vertices unused, itself included. -/
def trailCount : Nat → Nat
  | 0 => 1
  | n + 1 => 1 + (n + 1) * trailCount n

namespace Trail

variable {α : Type}

def weight : List (Trail α) → Nat
  | [] => 0
  | t :: trails => trailCount t.unused.length + weight trails

theorem weight_append (l l' : List (Trail α)) : weight (l ++ l') = weight l + weight l' := by
  induction l with
  | nil => simp [weight]
  | cons t l ih => simp [weight, ih, Nat.add_assoc]

def path (t : Trail α) : List α :=
  (t.last :: t.before).reverse

variable [DecidableEq α]

def start (vertices : List α) (start : α) : Trail α :=
  ⟨start, [], vertices.erase start⟩

def extend (t : Trail α) (v : α) : Trail α :=
  ⟨v, t.last :: t.before, t.unused.erase v⟩

/-- The paths that end one vertex further on, or here if there is no successor. Those that come back to a vertex
are given by descending vertex. -/
def ended (next : α → List α) (t : Trail α) : List (List α) :=
  if (next t.last).isEmpty then [t.path]
  else ((next t.last).filter (t.last :: t.before).contains).reverse.map fun v => t.path ++ [v]

def continued (next : α → List α) (t : Trail α) : List (Trail α) :=
  (t.unused.filter (next t.last).contains).map t.extend

theorem weight_map_extend (t : Trail α) {l : List α} (h : ∀ v ∈ l, v ∈ t.unused) :
    weight (l.map t.extend) = l.length * trailCount (t.unused.length - 1) := by
  induction l with
  | nil => simp [weight]
  | cons v l ih =>
    have hv := List.length_erase_of_mem (h v List.mem_cons_self)
    have hl := ih fun w hw => h w (List.mem_cons_of_mem v hw)
    rw [List.map_cons, weight, hl, List.length_cons, Nat.succ_mul, Nat.add_comm]
    simp only [extend, hv]

theorem weight_continued_lt (next : α → List α) (t : Trail α) :
    weight (t.continued next) < trailCount t.unused.length := by
  have hs := weight_map_extend t (l := t.unused.filter (next t.last).contains)
    fun v hv => (List.mem_filter.1 hv).1
  have hl := List.length_filter_le (next t.last).contains t.unused
  rw [continued, hs]
  cases hn : t.unused.length with
  | zero =>
    rw [hn] at hl
    simp [Nat.le_zero.1 hl, trailCount]
  | succ n =>
    rw [hn] at hl
    have := Nat.mul_le_mul_right (trailCount n) hl
    rw [Nat.add_sub_cancel, trailCount]
    omega

end Trail

variable {α : Type} [DecidableEq α]

/-- The paths that come of the trails on the stack, after those found before; the top of the stack is taken
first. -/
def walk (next : α → List α) (limit : Option Nat) (stack : List (Trail α)) (found : Array (List α)) :
    Except Error (Array (List α)) :=
  match stack with
  | [] => .ok found
  | t :: stack =>
    let found := found ++ t.ended next
    match Resource.paths.within limit found.size with
    | .error e => .error e
    | .ok () => walk next limit (t.continued next ++ stack) found
termination_by Trail.weight stack
decreasing_by
  rw [Trail.weight_append, Trail.weight]
  exact Nat.add_lt_add_right (t.weight_continued_lt next) _

def pathsFrom (vertices : List α) (next : α → List α) (limit : Option Nat) (found : Array (List α))
    (start : α) : Except Error (Array (List α)) :=
  walk next limit [.start vertices start] found

end Petri
