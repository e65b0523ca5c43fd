import Mathlib
import Petri.Proofs.Except
import Petri.Proofs.Marking
import Petri.Net.Firing

/-! The weights of a transition are the numbers of its arcs, place by place. Counting fails where a number is over the
limit. -/

namespace Petri.Net

variable {N : Net} {t p a : String} {l : List String} {counts needs gains : Weights} {m : Marking} {k : UInt32}

def intake (N : Net) (t p : String) : ℕ :=
  N.arcs.count ⟨p, t⟩

def output (N : Net) (t p : String) : ℕ :=
  N.arcs.count ⟨t, p⟩

structure IsTally (l : List String) (counts : Weights) : Prop where
  ascending : Ascending Prod.fst counts
  mem_keys : ∀ a, a ∈ counts.map Prod.fst ↔ a ∈ l
  toNat_eq : ∀ entry ∈ counts, entry.2.toNat = l.count entry.1

namespace IsTally

lemma mem_iff (h : IsTally l counts) : (a, k) ∈ counts ↔ k.toNat = l.count a ∧ 0 < k.toNat := by
  constructor
  · intro hk
    have hcount : k.toNat = l.count a := h.toNat_eq _ hk
    have ha : a ∈ l := (h.mem_keys a).mp (List.mem_map_of_mem hk)
    exact ⟨hcount, hcount ▸ List.count_pos_iff.mpr ha⟩
  · rintro ⟨hcount, hpos⟩
    have ha : a ∈ l := List.count_pos_iff.mp (hcount ▸ hpos)
    obtain ⟨⟨b, n⟩, hn, rfl⟩ := List.mem_map.mp ((h.mem_keys a).mpr ha)
    obtain rfl : n = k := UInt32.toNat_inj.mp ((h.toNat_eq _ hn).trans hcount.symm)
    exact hn

lemma count_le (h : IsTally l counts) (a : String) : l.count a ≤ Numeral.largest := by
  by_cases ha : a ∈ l
  · obtain ⟨⟨b, n⟩, hn, rfl⟩ := List.mem_map.mp ((h.mem_keys a).mpr ha)
    have hlt := n.toNat_lt
    rw [← h.toNat_eq _ hn]
    simp only [Numeral.largest]
    omega
  · rw [List.count_eq_zero_of_not_mem ha]
    exact Nat.zero_le _

lemma toNat_getD (h : IsTally l counts) (a : String) :
    (((counts.find? fun entry => entry.1 = a).map Prod.snd).getD 0).toNat = l.count a := by
  cases hfind : counts.find? fun entry => entry.1 = a with
  | none =>
    have ha : a ∉ l := by
      intro hal
      obtain ⟨entry, hentry, rfl⟩ := List.mem_map.mp ((h.mem_keys a).mpr hal)
      exact List.find?_eq_none.mp hfind entry hentry (by simp)
    rw [List.count_eq_zero_of_not_mem ha]
    rfl
  | some entry =>
    obtain ⟨hentry, rfl⟩ := (Sorted.find?_eq_some_iff (Sorted.nodup_keys h.ascending)).mp hfind
    exact h.toNat_eq entry hentry

lemma insertBy (h : IsTally l counts) (hk : k.toNat = l.count a + 1) :
    IsTally (l ++ [a]) (Sorted.insertBy Prod.fst (a, k) counts) where
  ascending := Sorted.ascending_insertBy _ h.ascending
  mem_keys b := by
    have hb := h.mem_keys b
    simp only [List.mem_map, Sorted.mem_insertBy h.ascending] at hb ⊢
    grind
  toNat_eq entry hentry := by
    rcases (Sorted.mem_insertBy h.ascending).mp hentry with rfl | ⟨hmem, hne⟩
    · simpa using hk
    · rw [h.toNat_eq entry hmem, List.count_append, List.count_singleton]
      simp [Ne.symm hne]

lemma tick (h : IsTally l counts) (a : String) :
    (∃ counts', tick counts a = .ok counts' ∧ IsTally (l ++ [a]) counts') ∨
      (tick counts a = .error .weightOverflow ∧ l.count a = Numeral.largest) := by
  have hn := h.toNat_getD a
  rw [Net.tick]
  by_cases hfull : l.count a = Numeral.largest
  · exact Or.inr ⟨if_pos (hn.trans hfull), hfull⟩
  · have hlt : l.count a < 4294967295 := Nat.lt_of_le_of_ne (h.count_le a) hfull
    refine Or.inl ⟨_, if_neg (hn ▸ hfull), h.insertBy ?_⟩
    rw [UInt32.toNat_add, hn, UInt32.toNat_one]
    omega

end IsTally

lemma tally_concat (l : List String) (a : String) :
    tally (l ++ [a]) = tally l >>= fun counts => tick counts a := by
  rw [tally, List.foldlM_append]
  refine bind_congr fun counts => ?_
  rw [List.foldlM_cons]
  exact bind_pure _

lemma tally_cases (l : List String) : (∃ counts, tally l = .ok counts ∧ IsTally l counts) ∨
    (tally l = .error .weightOverflow ∧ ∃ a, Numeral.largest < l.count a) := by
  induction l using List.reverseRecOn with
  | nil => exact Or.inl ⟨[], rfl, List.Pairwise.nil, by simp, by simp⟩
  | append_singleton l a ih =>
    rw [tally_concat]
    rcases ih with ⟨counts, hcounts, h⟩ | ⟨herr, b, hb⟩
    · rw [hcounts]
      rcases h.tick a with htick | ⟨htick, hfull⟩
      · exact Or.inl htick
      · refine Or.inr ⟨htick, a, ?_⟩
        rw [List.count_append, List.count_singleton_self, hfull]
        exact Nat.lt_succ_self _
    · refine Or.inr ⟨by rw [herr]; rfl, b, hb.trans_le ?_⟩
      rw [List.count_append]
      exact Nat.le_add_right _ _

lemma isTally_of_tally (h : tally l = .ok counts) : IsTally l counts := by
  rcases tally_cases l with ⟨counts', hcounts', htally⟩ | ⟨herr, _⟩
  · exact Except.ok.inj (hcounts'.symm.trans h) ▸ htally
  · cases herr.symm.trans h

lemma count_map_filter {arcs : List Arc} {q : Arc → Bool} {key : Arc → String} {a : Arc}
    (h : ∀ b, (key b = p ∧ q b = true) ↔ b = a) : ((arcs.filter q).map key).count p = arcs.count a := by
  rw [List.count, List.countP_map, List.countP_filter, List.count]
  refine List.countP_congr fun b _ => ?_
  simpa using h b

lemma count_source_incoming (N : Net) (t p : String) :
    ((N.incoming t).map Arc.source).count p = N.intake t p :=
  count_map_filter fun b => by cases b; simp

lemma count_target_outgoing (N : Net) (t p : String) :
    ((N.outgoing t).map Arc.target).count p = N.output t p :=
  count_map_filter fun b => by cases b; simp [and_comm]

lemma mem_consumption (h : N.consumption t = .ok needs) : (p, k) ∈ needs ↔ k.toNat = N.intake t p ∧ 0 < k.toNat := by
  rw [(isTally_of_tally h).mem_iff, count_source_incoming]

lemma mem_production (h : N.production t = .ok gains) : (p, k) ∈ gains ↔ k.toNat = N.output t p ∧ 0 < k.toNat := by
  rw [(isTally_of_tally h).mem_iff, count_target_outgoing]

lemma consumption_cases (N : Net) (t : String) :
    ((∃ needs, N.consumption t = .ok needs) ∧ ∀ p, N.intake t p ≤ Numeral.largest) ∨
      (N.consumption t = .error .weightOverflow ∧ ∃ p, Numeral.largest < N.intake t p) := by
  simp only [← count_source_incoming]
  rcases tally_cases ((N.incoming t).map Arc.source) with ⟨needs, hneeds, h⟩ | herr
  · exact Or.inl ⟨⟨needs, hneeds⟩, h.count_le⟩
  · exact Or.inr herr

lemma consumption_of_fits (h : ∀ p, N.intake t p ≤ Numeral.largest) : ∃ needs, N.consumption t = .ok needs := by
  rcases consumption_cases N t with ⟨hneeds, _⟩ | ⟨_, p, hp⟩
  · exact hneeds
  · exact absurd (h p) (Nat.not_le.mpr hp)

lemma mem_map_fst_consumption (h : N.consumption t = .ok needs) : p ∈ needs.map Prod.fst ↔ 0 < N.intake t p := by
  rw [(isTally_of_tally h).mem_keys, ← List.count_pos_iff, count_source_incoming]

lemma nodup_map_fst_consumption (h : N.consumption t = .ok needs) : (needs.map Prod.fst).Nodup :=
  Sorted.nodup_keys (isTally_of_tally h).ascending

lemma forall_mem_consumption (h : N.consumption t = .ok needs) {P : String → ℕ → Prop} (hP : ∀ p, P p 0) :
    (∀ need ∈ needs, P need.1 need.2.toNat) ↔ ∀ p, P p (N.intake t p) := by
  constructor
  · intro hneeds p
    rcases Nat.eq_zero_or_pos (N.intake t p) with hzero | hpos
    · exact hzero ▸ hP p
    · obtain ⟨need, hneed, rfl⟩ := List.mem_map.mp ((mem_map_fst_consumption h).mpr hpos)
      rw [← ((mem_consumption h).mp hneed).1]
      exact hneeds need hneed
  · rintro hp ⟨p, k⟩ hk
    rw [((mem_consumption h).mp hk).1]
    exact hp p

lemma incoming_eq_nil_iff : N.incoming t = [] ↔ ∀ p, N.intake t p = 0 := by
  simp only [← count_source_incoming, List.count_eq_zero]
  rw [← List.eq_nil_iff_forall_not_mem, List.map_eq_nil_iff]

lemma consumption_eq_nil_iff (h : N.consumption t = .ok needs) : needs = [] ↔ N.incoming t = [] := by
  rw [incoming_eq_nil_iff, ← forall_mem_consumption h (P := fun _ k => k = 0) fun _ => rfl,
    List.eq_nil_iff_forall_not_mem]
  refine forall_congr' fun need => imp_congr_right fun hneed => ?_
  exact iff_of_false not_false (Nat.ne_of_gt ((mem_consumption h).mp hneed).2)

lemma toNat_tokens_remove_consumption (h : N.consumption t = .ok needs) (m : Marking) (p : String) :
    ((m.remove needs).tokens p).toNat = (m.tokens p).toNat - N.intake t p := by
  by_cases hp : p ∈ needs.map Prod.fst
  · obtain ⟨⟨q, k⟩, hk, rfl⟩ := List.mem_map.mp hp
    rw [← ((mem_consumption h).mp hk).1]
    exact Marking.toNat_tokens_remove (nodup_map_fst_consumption h) hk
  · have hzero : N.intake t p = 0 := Nat.eq_zero_of_not_pos fun hpos => hp ((mem_map_fst_consumption h).mpr hpos)
    rw [Marking.tokens_remove_of_notMem hp, hzero, Nat.sub_zero]

lemma covers_consumption (h : N.consumption t = .ok needs) :
    m.covers needs = true ↔ ∀ p, N.intake t p ≤ (m.tokens p).toNat := by
  rw [Marking.covers_iff, ← forall_mem_consumption h (P := fun p k => k ≤ (m.tokens p).toNat) fun _ => Nat.zero_le _,
    Prod.forall]

end Petri.Net
