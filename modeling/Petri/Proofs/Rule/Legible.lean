import Mathlib
import Petri.Proofs.Except
import Petri.Proofs.Sorted
import Petri.Proofs.Text.Cut
import Petri.Rule.Reader

/-! Which names can come out of a text. The reader refuses some characters in a name; others it never meets there, since
the line has been cut at them before. -/

namespace Petri.Rule

open Text

variable {s : List Char} {name : String} {l : List String} {c d : Context} {r : Rule}

structure Plain (s : List Char) : Prop where
  comment : '#' ∉ s
  arrow : Arrowless s

lemma Plain.of_isInfix {t : List Char} (h : Plain t) (hs : s <:+: t) : Plain s :=
  ⟨fun hc => h.comment (hs.subset hc), h.arrow.of_isInfix hs⟩

structure Legible (s : List Char) : Prop extends Plain s where
  isName : isName s = true

lemma isName_iff : isName s = true ↔
    s ≠ [] ∧ (∀ c ∈ s, isBlank c = false ∧ c ∉ ['\x7b', '\x7d', ',', '=', '[', ']']) ∧ cutColon? s = none := by
  simp [isName, and_assoc]

lemma readName_eq_ok : readName s = .ok name ↔ isName (trim s) = true ∧ name = String.ofList (trim s) := by
  rw [readName]
  split
  · next h => simp [h, eq_comm]
  · next h => simp [h]

lemma legible_of_readName (hs : Plain s) (h : readName s = .ok name) : Legible name.toList := by
  obtain ⟨hname, rfl⟩ := readName_eq_ok.mp h
  rw [String.toList_ofList]
  exact ⟨hs.of_isInfix (trim_isInfix s), hname⟩

lemma legible_of_readItems (hs : Plain s) (h : readItems s = .ok l) : ∀ name ∈ l, Legible name.toList := by
  intro name hname
  obtain ⟨item, hitem, hread⟩ := exists_of_mem_mapM h hname
  have hpart := (pieces_splitOnP _ s).isInfix item (List.mem_of_mem_filter hitem)
  exact legible_of_readName (hs.of_isInfix hpart) hread

lemma legible_of_readNames (hs : Plain s) (h : readNames s = .ok l) : ∀ name ∈ l, Legible name.toList := by
  rw [readNames] at h
  have htrim := hs.of_isInfix (trim_isInfix s)
  generalize trim s = t at h htrim
  split at h
  · next inner =>
    have hinner : inner.dropLast <:+: '\x7b' :: inner :=
      (List.dropLast_prefix inner).isInfix.trans (List.suffix_cons _ _).isInfix
    split at h
    · exact legible_of_readItems (htrim.of_isInfix hinner) h
    · cases h
  · exact legible_of_readItems htrim h

def contextNames (c : Context) : List String :=
  c.read.toList ++ c.write.toList ++ c.erase.toList ++ c.required.toList

def names : Rule → List String
  | transition id inputs outputs => id.toList ++ inputs ++ outputs
  | assign place _ => [place]
  | context name c => name :: contextNames c

lemma mem_contextNames : name ∈ contextNames c ↔
    c.read = some name ∨ c.write = some name ∨ c.erase = some name ∨ name ∈ c.required.toList := by
  simp [contextNames]

lemma exists_value_of_readAttribute (h : readAttribute c s = .ok d) : ∃ value, value <:+: s ∧
    ∀ name ∈ contextNames d, name ∈ contextNames c ∨ readName value = .ok name ∨
      ∃ l, readNames value = .ok l ∧ name ∈ l := by
  rw [readAttribute] at h
  split at h
  · cases h
  · next key value hcut =>
    have hvalue : value <:+: s := by
      rw [eq_of_cut? hcut]
      exact (List.suffix_append _ value).isInfix
    refine ⟨value, hvalue, fun name hname => ?_⟩
    rw [mem_contextNames] at hname ⊢
    split at h
    · obtain ⟨tag, htag, h⟩ := bind_eq_ok.mp h
      cases h
      grind
    · obtain ⟨tag, htag, h⟩ := bind_eq_ok.mp h
      cases h
      grind
    · obtain ⟨tag, htag, h⟩ := bind_eq_ok.mp h
      cases h
      grind
    · obtain ⟨tags, htags, h⟩ := bind_eq_ok.mp h
      cases h
      have hmem : name ∈ (Tags.ofList tags).toList ↔ name ∈ tags := Sorted.mem_ofList
      grind
    · obtain ⟨kind, _, h⟩ := bind_eq_ok.mp h
      cases h
      exact Or.inl hname
    · cases h

lemma legible_of_readContext (hs : Plain s) (h : readContext s = .ok c) :
    ∀ name ∈ contextNames c, Legible name.toList := by
  refine foldlM_induction (P := fun c => ∀ name ∈ contextNames c, Legible name.toList) h ?_ ?_
  · simp [contextNames, Tags.empty]
  · intro c a d ha hc hread
    obtain ⟨piece, hpiece, rfl⟩ := List.mem_map.mp (List.mem_of_mem_filter ha)
    have hpart := (trim_isInfix piece).trans ((pieces_commaPieces 0 s).isInfix piece hpiece)
    obtain ⟨value, hvalue, hnames⟩ := exists_value_of_readAttribute hread
    have hplain := hs.of_isInfix (hvalue.trans hpart)
    intro name hname
    rcases hnames name hname with hold | hone | ⟨l, hl, hmem⟩
    · exact hc name hold
    · exact legible_of_readName hplain hone
    · exact legible_of_readNames hplain hl name hmem

lemma legible_of_readTransition {left right : List Char} (hl : Plain left) (hr : '#' ∉ right)
    (h : readTransition left right = .ok r) : ∀ name ∈ r.names, Legible name.toList := by
  rw [readTransition] at h
  split at h
  · cases h
  · next harrow =>
    have hright : Plain right := ⟨hr, cut?_arrow_eq_none_iff.mp (by simpa using harrow)⟩
    split at h
    · next id rest hcut =>
      have hid : id <:+: left := by
        rw [eq_of_cutColon? hcut]
        exact (List.prefix_append id _).isInfix
      have hrest : rest <:+: left := by
        rw [eq_of_cutColon? hcut, ← List.singleton_append, ← List.append_assoc]
        exact (List.suffix_append _ rest).isInfix
      obtain ⟨name, hname, h⟩ := bind_eq_ok.mp h
      obtain ⟨inputs, hinputs, h⟩ := bind_eq_ok.mp h
      obtain ⟨outputs, houtputs, h⟩ := bind_eq_ok.mp h
      cases h
      have h1 := legible_of_readName (hl.of_isInfix hid) hname
      have h2 := legible_of_readNames (hl.of_isInfix hrest) hinputs
      have h3 := legible_of_readNames hright houtputs
      simp only [names, List.mem_append]
      grind
    · obtain ⟨inputs, hinputs, h⟩ := bind_eq_ok.mp h
      obtain ⟨outputs, houtputs, h⟩ := bind_eq_ok.mp h
      cases h
      have h2 := legible_of_readNames hl hinputs
      have h3 := legible_of_readNames hright houtputs
      simp only [names, List.mem_append]
      grind

lemma legible_of_readContextRule {front rest : List Char} (hf : Plain front) (hs : Plain rest)
    (h : readContextRule front rest = .ok r) : ∀ name ∈ r.names, Legible name.toList := by
  rw [readContextRule] at h
  have hpart : (trimRight rest).dropLast <:+: rest :=
    (List.dropLast_prefix _).isInfix.trans (List.rdropWhile_prefix isBlank rest).isInfix
  split at h
  · obtain ⟨name, hname, h⟩ := bind_eq_ok.mp h
    obtain ⟨c, hc, h⟩ := bind_eq_ok.mp h
    cases h
    exact List.forall_mem_cons.mpr ⟨legible_of_readName hf hname, legible_of_readContext (hs.of_isInfix hpart) hc⟩
  · cases h

lemma legible_of_readAssign {front value : List Char} (hf : Plain front) (h : readAssign front value = .ok r) :
    ∀ name ∈ r.names, Legible name.toList := by
  rw [readAssign] at h
  split at h
  · cases h
  · obtain ⟨name, hname, h⟩ := bind_eq_ok.mp h
    cases h
    exact List.forall_mem_singleton.mpr (legible_of_readName hf hname)

lemma legible_of_readContent (hs : '#' ∉ s) (h : readContent s = .ok r) : ∀ name ∈ r.names, Legible name.toList := by
  rw [readContent] at h
  split at h
  · next left right hcut =>
    have heq := eq_of_cut? hcut
    have hleft : '#' ∉ left := fun hc => hs (by simp [heq, hc])
    have hright : '#' ∉ right := fun hc => hs (by simp [heq, hc])
    exact legible_of_readTransition ⟨hleft, arrowless_of_cut? hcut⟩ hright h
  · next harrow =>
    have hplain : Plain s := ⟨hs, cut?_arrow_eq_none_iff.mp harrow⟩
    have hparts : ∀ {mark front rest}, cut? mark s = some (front, rest) → Plain front ∧ Plain rest := by
      intro mark front rest hcut
      have heq := eq_of_cut? hcut
      constructor
      · apply hplain.of_isInfix
        rw [heq, List.append_assoc]
        exact (List.prefix_append front _).isInfix
      · apply hplain.of_isInfix
        rw [heq]
        exact (List.suffix_append _ rest).isInfix
    split at h
    · next hcut => exact legible_of_readContextRule (hparts hcut).1 (hparts hcut).2 h
    · split at h
      · next hcut => exact legible_of_readAssign (hparts hcut).1 h
      · cases h

lemma legible_of_readLine (h : readLine s = .ok (some r)) : ∀ name ∈ r.names, Legible name.toList := by
  rw [readLine] at h
  split at h
  · cases h
  · obtain ⟨rule, hrule, h⟩ := bind_eq_ok.mp h
    cases h
    apply legible_of_readContent _ hrule
    intro hc
    have hmem := List.mem_takeWhile_imp ((trim_isInfix _).subset hc)
    simp at hmem

lemma legible_of_readLines {number : ℕ} {lines : List (List Char)} {numbered : List (ℕ × Rule)}
    (h : readLines number lines = .ok numbered) : ∀ r ∈ numbered.map Prod.snd, ∀ name ∈ r.names, Legible name.toList := by
  fun_induction readLines number lines generalizing numbered with
  | case1 number =>
    cases h
    simp
  | case2 number line lines fault hline => cases h
  | case3 number line lines hline ih => exact ih h
  | case4 number line lines rule hline ih =>
    obtain ⟨rest, hrest, h⟩ := bind_eq_ok.mp h
    cases h
    rw [List.map_cons]
    exact List.forall_mem_cons.mpr ⟨legible_of_readLine hline, ih hrest⟩

end Petri.Rule
