import Mathlib
import Petri.Sorted

/-! The members of sorted lists, and looking up by key. -/

namespace Petri.Sorted

lemma find?_eq_some_iff {α κ : Type} [DecidableEq κ] {key : α → κ} {l : List α} (h : (l.map key).Nodup)
    {k : κ} {a : α} : l.find? (fun b => key b = k) = some a ↔ a ∈ l ∧ key a = k := by
  induction l with
  | nil => simp
  | cons b l ih =>
    simp only [List.map_cons, List.nodup_cons, List.mem_map, not_exists, not_and] at h
    by_cases hb : key b = k
    · rw [List.find?_cons_of_pos (by simpa using hb), Option.some.injEq]
      constructor
      · rintro rfl
        exact ⟨List.mem_cons_self, hb⟩
      · rintro ⟨ha, hk⟩
        rcases List.mem_cons.mp ha with rfl | ha
        · rfl
        · exact absurd (hk.trans hb.symm) (h.1 a ha)
    · rw [List.find?_cons_of_neg (by simpa using hb), ih h.2, List.mem_cons]
      constructor
      · rintro ⟨ha, hk⟩
        exact ⟨Or.inr ha, hk⟩
      · rintro ⟨rfl | ha, hk⟩
        · exact absurd hk hb
        · exact ⟨ha, hk⟩

lemma ofListBy_concat {α κ : Type} [LT κ] [DecidableLT κ] [DecidableEq κ] (key : α → κ) (l : List α) (a : α) :
    ofListBy key (l ++ [a]) = insertBy key a (ofListBy key l) := by
  rw [ofListBy, List.foldl_append]
  rfl

variable {α κ : Type} [LT κ] [LE κ] [Std.LawfulOrderLT κ]

lemma nodup_keys {key : α → κ} {l : List α} (h : Ascending key l) : (l.map key).Nodup := by
  rw [List.Nodup, List.pairwise_map]
  exact h.imp fun hlt => Std.ne_of_lt hlt

lemma nodup_of_ascending {key : α → κ} {l : List α} (h : Ascending key l) : l.Nodup :=
  List.Nodup.of_map key (nodup_keys h)

variable [Std.IsLinearOrder κ]

lemma eq_of_mem_iff {key : α → κ} {l l' : List α} (h : Ascending key l) (h' : Ascending key l')
    (hm : ∀ a, a ∈ l ↔ a ∈ l') : l = l' := by
  apply List.Perm.eq_of_pairwise (fun a b _ _ hab hba => (Std.lt_irrefl (Std.lt_trans hab hba)).elim) h h'
  exact (List.perm_ext_iff_of_nodup (nodup_of_ascending h) (nodup_of_ascending h')).mpr hm

variable [DecidableEq κ] [DecidableLT κ]

lemma mem_insertBy {key : α → κ} {a b : α} {l : List α} (h : Ascending key l) :
    b ∈ insertBy key a l ↔ b = a ∨ (b ∈ l ∧ key b ≠ key a) := by
  induction l with
  | nil => simp [insertBy]
  | cons c l ih =>
    obtain ⟨hc, hl⟩ := List.pairwise_cons.mp h
    have hne : ∀ d ∈ l, key d ≠ key c := fun d hd => (Std.ne_of_lt (hc d hd)).symm
    simp only [insertBy]
    split
    · next hlt =>
      have hgt : ∀ d ∈ c :: l, key d ≠ key a := by
        intro d hd
        rcases List.mem_cons.mp hd with rfl | hd
        · exact (Std.ne_of_lt hlt).symm
        · exact (Std.ne_of_lt (Std.lt_trans hlt (hc d hd))).symm
      rw [List.mem_cons]
      exact or_congr_right ⟨fun hb => ⟨hb, hgt b hb⟩, And.left⟩
    · split
      · next heq =>
        rw [List.mem_cons, List.mem_cons, heq]
        constructor
        · rintro (hb | hb)
          · exact Or.inl hb
          · exact Or.inr ⟨Or.inr hb, hne b hb⟩
        · rintro (hb | ⟨rfl | hb, hk⟩)
          · exact Or.inl hb
          · exact absurd rfl hk
          · exact Or.inr hb
      · next heq =>
        rw [List.mem_cons, List.mem_cons, ih hl]
        constructor
        · rintro (rfl | hb | ⟨hb, hk⟩)
          · exact Or.inr ⟨Or.inl rfl, Ne.symm heq⟩
          · exact Or.inl hb
          · exact Or.inr ⟨Or.inr hb, hk⟩
        · rintro (hb | ⟨hb | hb, hk⟩)
          · exact Or.inr (Or.inl hb)
          · exact Or.inl hb
          · exact Or.inr (Or.inr ⟨hb, hk⟩)

lemma mem_foldl {key : α → κ} {b : α} {l sorted : List α} (h : Ascending key sorted)
    (hl : ∀ a ∈ l, ∀ c ∈ l ++ sorted, key a = key c → a = c) :
    b ∈ l.foldl (fun sorted a => insertBy key a sorted) sorted ↔ b ∈ l ∨ b ∈ sorted := by
  induction l generalizing sorted with
  | nil => simp
  | cons a l ih =>
    rw [List.foldl_cons, ih (ascending_insertBy a h), mem_insertBy h, List.mem_cons]
    · have ha : b ∈ sorted → key b = key a → b = a := fun hb hk =>
        (hl a List.mem_cons_self b (List.mem_append_right _ hb) hk.symm).symm
      grind
    · intro c hc d hd
      apply hl c (List.mem_cons_of_mem a hc)
      rcases List.mem_append.mp hd with hd | hd
      · exact List.mem_append_left _ (List.mem_cons_of_mem a hd)
      · rcases mem_of_mem_insertBy hd with rfl | hd
        · exact List.mem_append_left _ List.mem_cons_self
        · exact List.mem_append_right _ hd

lemma mem_ofListBy {key : α → κ} {b : α} {l : List α} (h : (l.map key).Nodup) :
    b ∈ ofListBy key l ↔ b ∈ l := by
  rw [ofListBy, mem_foldl List.Pairwise.nil]
  · simp
  · intro a ha c hc
    exact List.inj_on_of_nodup_map h ha (by simpa using hc)

lemma mem_ofListBy_iff {key : α → κ} {b : α} {l : List α} :
    b ∈ ofListBy key l ↔ (l.filter fun a => key a = key b).getLast? = some b := by
  induction l using List.reverseRecOn with
  | nil => simp [ofListBy]
  | append_singleton l a ih =>
    rw [ofListBy_concat, mem_insertBy (ascending_ofListBy key l), ih, List.filter_append, List.getLast?_append]
    by_cases hk : key a = key b
    · simp [hk, eq_comm]
    · have hne : b ≠ a := fun hba => hk (congrArg key hba.symm)
      simp [hk, hne, Ne.symm hk]

lemma mem_keys_ofListBy {key : α → κ} {k : κ} {l : List α} : k ∈ (ofListBy key l).map key ↔ k ∈ l.map key := by
  rw [List.mem_map, List.mem_map]
  constructor
  · rintro ⟨a, ha, rfl⟩
    exact ⟨a, mem_of_mem_ofListBy ha, rfl⟩
  · rintro ⟨a, ha, rfl⟩
    have hne : l.filter (fun c => key c = key a) ≠ [] := List.ne_nil_of_mem (List.mem_filter.mpr ⟨ha, by simp⟩)
    have hlast := List.getLast_mem hne
    have hkey : key ((l.filter fun c => key c = key a).getLast hne) = key a := by
      simpa using (List.mem_filter.mp hlast).2
    refine ⟨_, mem_ofListBy_iff.mpr ?_, hkey⟩
    rw [hkey]
    exact List.getLast?_eq_some_getLast hne

@[simp] lemma mem_ofList {a : κ} {l : List κ} : a ∈ ofList l ↔ a ∈ l := by
  rw [ofList, ofListBy, mem_foldl List.Pairwise.nil]
  · simp
  · intro a _ c _ hac
    exact hac

lemma ascending_ofList (l : List κ) : Ascending (fun a => a) (ofList l) :=
  ascending_ofListBy _ l

lemma nodup_ofList (l : List κ) : (ofList l).Nodup :=
  nodup_of_ascending (ascending_ofList l)

end Petri.Sorted
