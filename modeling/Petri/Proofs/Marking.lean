import Mathlib
import Petri.Proofs.Sorted
import Petri.Marking

/-! A marking is determined by its places and by the tokens at each of them. -/

namespace Petri.Marking

variable {m n : Marking} {p q : String}

lemma ascending_ids (m : Marking) : Ascending (fun p => p) m.ids :=
  List.pairwise_map.mpr m.ascending

lemma nodup_ids (m : Marking) : m.ids.Nodup :=
  Sorted.nodup_keys m.ascending

lemma place?_eq_some_iff {r : Place} : m.place? p = some r ↔ r ∈ m.places ∧ r.id = p :=
  Sorted.find?_eq_some_iff m.nodup_ids

lemma place?_eq_none_iff : m.place? p = none ↔ p ∉ m.ids := by
  simp [place?, ids]

lemma tokens_of_mem {r : Place} (h : r ∈ m.places) : m.tokens r.id = r.tokens := by
  rw [tokens, place?_eq_some_iff.mpr ⟨h, rfl⟩]

lemma tokens_of_notMem (h : p ∉ m.ids) : m.tokens p = 0 := by
  rw [tokens, place?_eq_none_iff.mpr h]

lemma mem_places_iff {r : Place} : r ∈ m.places ↔ r.id ∈ m.ids ∧ m.tokens r.id = r.tokens := by
  constructor
  · intro h
    exact ⟨List.mem_map.mpr ⟨r, h, rfl⟩, tokens_of_mem h⟩
  · rintro ⟨hi, ht⟩
    obtain ⟨s, hs, hsr⟩ := List.mem_map.mp hi
    have he : s = r := by
      rw [← hsr, tokens_of_mem hs] at ht
      cases s
      cases r
      simp_all
    exact he ▸ hs

lemma ext_tokens (hids : m.ids = n.ids) (h : ∀ p ∈ m.ids, m.tokens p = n.tokens p) : m = n := by
  have hp : m.places = n.places := by
    apply Sorted.eq_of_mem_iff m.ascending n.ascending
    intro r
    rw [mem_places_iff, mem_places_iff, ← hids]
    exact and_congr_right fun hr => by rw [h _ hr]
  cases m
  cases n
  simpa using hp

lemma ofPlaces_places (m : Marking) : ofPlaces m.places = m := by
  have hp : (ofPlaces m.places).places = m.places := by
    apply Sorted.eq_of_mem_iff (ofPlaces m.places).ascending m.ascending
    intro p
    exact Sorted.mem_ofListBy m.nodup_ids
  generalize ofPlaces m.places = n at hp
  cases m
  cases n
  cases hp
  rfl

lemma tokens_mapTokens {f : Place → UInt32} (h : p ∈ m.ids) :
    (m.mapTokens f).tokens p = f ⟨p, m.tokens p⟩ := by
  obtain ⟨r, hr, rfl⟩ := List.mem_map.mp h
  have hm : { r with tokens := f r } ∈ (m.mapTokens f).places := List.mem_map.mpr ⟨r, hr, rfl⟩
  rw [tokens_of_mem hr]
  exact tokens_of_mem hm

@[simp] lemma ids_adjust (m : Marking) (p : String) (f : UInt32 → UInt32) : (m.adjust p f).ids = m.ids :=
  ids_mapTokens m _

lemma tokens_adjust_self {f : UInt32 → UInt32} (h : p ∈ m.ids) :
    (m.adjust p f).tokens p = f (m.tokens p) := by
  rw [adjust, tokens_mapTokens h, if_pos rfl]

lemma tokens_adjust_of_ne {f : UInt32 → UInt32} (h : q ≠ p) : (m.adjust p f).tokens q = m.tokens q := by
  by_cases hq : q ∈ m.ids
  · rw [adjust, tokens_mapTokens hq, if_neg h]
  · rw [tokens_of_notMem hq, tokens_of_notMem (by simpa using hq)]

lemma override_eq_of_ids_eq (h : n.ids = m.ids) : m.override n = n := by
  apply ext_tokens (by rw [ids_override, h])
  intro p hp
  rw [ids_override] at hp
  obtain ⟨r, hr, rfl⟩ := List.mem_map.mp (h ▸ hp)
  rw [override, tokens_mapTokens hp]
  simp only [place?_eq_some_iff.mpr ⟨hr, rfl⟩, tokens_of_mem hr]

lemma tokens_le (m : Marking) (p : String) : (m.tokens p).toNat ≤ Numeral.largest := by
  have := (m.tokens p).toNat_lt
  simp only [Numeral.largest]
  omega

lemma put_of_lt (h : (m.tokens p).toNat < Numeral.largest) : m.put p = .ok (m.adjust p (· + 1)) := by
  rw [put, if_neg (by omega)]

lemma put_of_full (h : (m.tokens p).toNat = Numeral.largest) : m.put p = .error .tokenOverflow :=
  if_pos h

lemma take_of_pos (h : 0 < (m.tokens p).toNat) : m.take p = .ok (m.adjust p (· - 1)) := by
  rw [take, if_neg]
  intro h0
  simp [h0] at h

lemma toNat_add_one (hp : p ∈ m.ids) (h : (m.tokens p).toNat < Numeral.largest) :
    ((m.adjust p (· + 1)).tokens p).toNat = (m.tokens p).toNat + 1 := by
  simp only [Numeral.largest] at h
  rw [tokens_adjust_self hp, UInt32.toNat_add, UInt32.toNat_one]
  omega

lemma toNat_sub_one (hp : p ∈ m.ids) (h : 0 < (m.tokens p).toNat) :
    ((m.adjust p (· - 1)).tokens p).toNat + 1 = (m.tokens p).toNat := by
  have hle : (1 : UInt32) ≤ m.tokens p := UInt32.le_iff_toNat_le.mpr h
  rw [tokens_adjust_self hp, UInt32.toNat_sub_of_le _ _ hle, UInt32.toNat_one]
  omega

section

variable {k : UInt32} {needs : Weights}

lemma any_place?_iff (hk : 0 < k.toNat) :
    (m.place? p).any (fun r => k ≤ r.tokens) = true ↔ k ≤ m.tokens p := by
  cases h : m.place? p with
  | none => simpa [tokens, h, UInt32.le_iff_toNat_le] using hk.ne'
  | some r => simp [tokens, h]

lemma covers_iff : m.covers needs = true ↔ ∀ p k, (p, k) ∈ needs → k.toNat ≤ (m.tokens p).toNat := by
  simp [covers, UInt32.le_iff_toNat_le]

lemma toNat_tokens_adjust_sub (m : Marking) (p : String) (k : ℕ) :
    ((m.adjust p fun n => UInt32.ofNat (n.toNat - k)).tokens p).toNat = (m.tokens p).toNat - k := by
  by_cases hp : p ∈ m.ids
  · rw [tokens_adjust_self hp, UInt32.toNat_ofNat_of_lt']
    exact (Nat.sub_le _ k).trans_lt (m.tokens p).toNat_lt_size
  · rw [tokens_of_notMem hp, tokens_of_notMem (by simpa using hp)]
    simp

lemma tokens_remove_of_notMem (h : p ∉ needs.map Prod.fst) : (m.remove needs).tokens p = m.tokens p := by
  induction needs generalizing m with
  | nil => rfl
  | cons need needs ih =>
    rw [List.map_cons, List.mem_cons, not_or] at h
    rw [remove, List.foldl_cons]
    exact (ih h.2).trans (tokens_adjust_of_ne h.1)

lemma toNat_tokens_remove (hn : (needs.map Prod.fst).Nodup) (h : (p, k) ∈ needs) :
    ((m.remove needs).tokens p).toNat = (m.tokens p).toNat - k.toNat := by
  induction needs generalizing m with
  | nil => cases h
  | cons need needs ih =>
    rw [List.map_cons, List.nodup_cons] at hn
    rw [remove, List.foldl_cons]
    rcases List.mem_cons.mp h with rfl | h
    · rw [← toNat_tokens_adjust_sub]
      exact congrArg UInt32.toNat (tokens_remove_of_notMem hn.1)
    · have hne : p ≠ need.1 := fun he => hn.1 (he ▸ List.mem_map.mpr ⟨_, h, rfl⟩)
      exact (ih hn.2 h).trans (by rw [tokens_adjust_of_ne hne])

end

end Petri.Marking
