import Mathlib
import Petri.Proofs.Rule.Legible

/-! Texts that can stand on a line are read back from what is written of them. -/

namespace Petri.Numeral

lemma le_ofDigitChars (l : List Char) (n : ℕ) : n ≤ Nat.ofDigitChars 10 l n := by
  rw [Nat.ofDigitChars_eq_ofDigitChars_zero]
  have := Nat.le_mul_of_pos_left n (show 0 < 10 ^ l.length by positivity)
  omega

lemma readDigits_eq_ok {l : List Char} {n : ℕ} (hl : ∀ c ∈ l, c.isDigit = true)
    (hn : Nat.ofDigitChars 10 l n ≤ largest) : readDigits n l = .ok (Nat.ofDigitChars 10 l n) := by
  induction l generalizing n with
  | nil => rfl
  | cons c l ih =>
    obtain ⟨hc, hl⟩ := List.forall_mem_cons.mp hl
    rw [Nat.ofDigitChars_cons] at hn ⊢
    have hnext := (le_ofDigitChars l _).trans hn
    rw [readDigits, if_pos hc]
    dsimp only
    rw [if_neg (Nat.not_lt.mpr hnext), ih hl hn]

lemma read_toDigits (n : UInt32) : read (Nat.toDigits 10 n.toNat) = .ok n := by
  have hdigit : ∀ c ∈ Nat.toDigits 10 n.toNat, c.isDigit = true := fun c hc =>
    Nat.isDigit_of_mem_toDigits (by decide) (by decide) hc
  have hvalue : Nat.ofDigitChars 10 (Nat.toDigits 10 n.toNat) 0 = n.toNat := Nat.ofDigitChars_ten_toDigits
  have hread : readDigits 0 (Nat.toDigits 10 n.toNat) = .ok n.toNat := by
    have hlt := n.toNat_lt
    rw [readDigits_eq_ok hdigit, hvalue]
    rw [hvalue, largest]
    omega
  rw [read]
  · rw [hread, Except.map, UInt32.ofNat_toNat]
  · exact Nat.toDigits_ne_nil
  · intro h
    simpa using hdigit '+' (by simp [h])
  · intro digits h
    simpa using hdigit '+' (by simp [h])

end Petri.Numeral

namespace Petri.Rule

open Text

variable {s : List Char} {name : String} {l : List String} {c : Context} {r : Rule}

instance (s : List Char) : Decidable (Legible s) :=
  decidable_of_iff ('#' ∉ s ∧ cut? ['-', '>'] s = none ∧ isName s = true)
    ⟨fun h => ⟨⟨h.1, cut?_arrow_eq_none_iff.mp h.2.1⟩, h.2.2⟩,
      fun h => ⟨h.comment, cut?_arrow_eq_none_iff.mpr h.arrow, h.isName⟩⟩

lemma Legible.ne_nil (h : Legible s) : s ≠ [] :=
  (isName_iff.mp h.isName).1

lemma Legible.notMem (h : Legible s) {a : Char}
    (ha : isBlank a = true ∨ a ∈ ['\x7b', '\x7d', ',', '=', '[', ']', '#']) : a ∉ s := by
  intro hs
  have hchar := (isName_iff.mp h.isName).2.1 a hs
  have hcomment : a ≠ '#' := fun he => h.comment (he ▸ hs)
  rcases ha with ha | ha
  · simp [ha] at hchar
  · simp only [List.mem_cons, List.not_mem_nil, or_false, not_or] at ha hchar
    tauto

lemma Legible.tight (h : Legible s) : Tight s :=
  tight_of_forall fun a ha => ((isName_iff.mp h.isName).2.1 a ha).1

lemma Legible.readName (h : Legible name.toList) : readName name.toList = .ok name := by
  rw [readName_eq_ok, h.tight.trim, String.ofList_toList]
  exact ⟨h.isName, rfl⟩

@[simp] lemma readName_concat_blank (s : List Char) : readName (s ++ [' ']) = readName s := by
  rw [Rule.readName, trim_concat (by decide)]
  rfl

lemma toList_renderNames (l : List String) :
    (renderNames l).toList = '\x7b' :: joined (l.map String.toList) ++ ['\x7d'] := by
  simp [renderNames, joined, String.toList_intercalate]

lemma readItems_joined (h : ∀ name ∈ l, Legible name.toList) : readItems (joined (l.map String.toList)) = .ok l := by
  have hitems : ∀ p ∈ l.map String.toList, p ≠ [] ∧ ∀ c ∈ p, (decide (c = ',') || isBlank c) = false := by
    intro p hp
    obtain ⟨name, hname, rfl⟩ := List.mem_map.mp hp
    refine ⟨(h name hname).ne_nil, fun c hc => ?_⟩
    obtain ⟨hblank, hmark⟩ := (isName_iff.mp (h name hname).isName).2.1 c hc
    simp only [List.mem_cons, not_or] at hmark
    simp [hblank, hmark]
  rw [readItems, filter_splitOnP_joined hitems, mapM_eq_ok, List.forall₂_map_left_iff, List.forall₂_same]
  intro name hname
  exact (h name hname).readName

@[simp] lemma readNames_cons_blank (s : List Char) : readNames (' ' :: s) = readNames s := by
  rw [readNames, trim_cons (by decide), ← readNames]

@[simp] lemma readNames_concat_blank (s : List Char) : readNames (s ++ [' ']) = readNames s := by
  rw [readNames, trim_concat (by decide), ← readNames]

/-- A text that is a line of its own, without comment and outer blanks. -/
structure Content (s : List Char) : Prop where
  comment : '#' ∉ s
  newline : '\n' ∉ s
  tight : Tight s
  ne_nil : s ≠ []

/-- A text that can stand on a line between arrows and commas. -/
structure Phrase (s : List Char) : Prop extends Content s where
  arrow : Arrowless s
  whole : Whole s

lemma Legible.phrase (h : Legible s) : Phrase s where
  comment := h.comment
  newline := h.notMem (by decide)
  tight := h.tight
  ne_nil := h.ne_nil
  arrow := h.arrow
  whole := whole_of_notMem (h.notMem (by decide)) (h.notMem (by decide)) (h.notMem (by decide))

lemma notMem_names {a : Char} (h : ∀ name ∈ l, Legible name.toList)
    (ha : isBlank a = true ∨ a ∈ ['\x7b', '\x7d', ',', '=', '[', ']', '#']) (hcomma : a ≠ ',') (hblank : a ≠ ' ') :
    a ∉ joined (l.map String.toList) := by
  apply notMem_joined _ hcomma hblank
  intro p hp
  obtain ⟨name, hname, rfl⟩ := List.mem_map.mp hp
  exact (h name hname).notMem ha

lemma phrase_renderNames (h : ∀ name ∈ l, Legible name.toList) : Phrase (renderNames l).toList := by
  have harrow : Arrowless (joined (l.map String.toList)) := by
    apply arrowless_joined
    intro p hp
    obtain ⟨name, hname, rfl⟩ := List.mem_map.mp hp
    exact (h name hname).arrow
  rw [toList_renderNames]
  refine ⟨⟨?_, ?_, ?_, by simp⟩, ?_, ?_⟩
  · simp [notMem_names h (a := '#')]
  · simp [notMem_names h (a := '\n'), show isBlank '\n' = true by decide]
  · exact Tight.append (tight_singleton (c := '\x7b') rfl) (tight_singleton (c := '\x7d') rfl) (by simp) (by simp) _
  · rw [arrowless_append_cons (by decide) (by decide), arrowless_cons]
    exact ⟨⟨by simp, harrow⟩, List.IsChain.nil⟩
  · exact whole_braces (notMem_names h (by decide) (by decide) (by decide))
      (notMem_names h (by decide) (by decide) (by decide))

lemma Content.append {a b m : List Char} (ha : Content a) (hb : Content b) (hm : '#' ∉ m ∧ '\n' ∉ m) :
    Content (a ++ m ++ b) where
  comment := by simp [ha.comment, hb.comment, hm.1]
  newline := by simp [ha.newline, hb.newline, hm.2]
  tight := ha.tight.append hb.tight ha.ne_nil hb.ne_nil m
  ne_nil := by simp [ha.ne_nil]

lemma Phrase.equation {a b : List Char} (ha : Phrase a) (hb : Phrase b) : Phrase (a ++ '=' :: b) := by
  have hcontent := ha.toContent.append hb.toContent (m := ['=']) (by decide)
  have hwhole := (ha.whole.append (whole_of_notMem (a := ['=']) (by decide) (by decide) (by decide))).append hb.whole
  have heq : a ++ ['='] ++ b = a ++ '=' :: b := by simp
  rw [heq] at hcontent hwhole
  exact ⟨hcontent, (arrowless_append_cons (by decide) (by decide)).mpr ⟨ha.arrow, hb.arrow⟩, hwhole⟩

lemma Content.readLine (h : Content s) (hr : readContent s = .ok r) : readLine s = .ok (some r) := by
  have htake : s.takeWhile (· ≠ '#') = s := by
    rw [List.takeWhile_eq_self_iff]
    intro c hc
    simpa using fun he : c = '#' => h.comment (he ▸ hc)
  rw [Rule.readLine, htake, h.tight.trim]
  cases s with
  | nil => exact absurd rfl h.ne_nil
  | cons c s => exact bind_eq_ok.mpr ⟨r, hr, rfl⟩

lemma cutColon?_renderNames (h : ∀ name ∈ l, Legible name.toList) : cutColon? (renderNames l).toList = none := by
  have hjoined : cutColon? (joined (l.map String.toList)) = none := by
    apply cutColon?_joined
    intro p hp
    obtain ⟨name, hname, rfl⟩ := List.mem_map.mp hp
    exact (isName_iff.mp (h name hname).isName).2.2
  rw [toList_renderNames]
  simp [cutColon?, cutColon?_append hjoined]

lemma readNames_renderNames (h : ∀ name ∈ l, Legible name.toList) : readNames (renderNames l).toList = .ok l := by
  rw [readNames, (phrase_renderNames h).tight.trim, toList_renderNames]
  simp [readItems_joined h]

lemma isSome_cut?_arrow (h : ∀ name ∈ l, Legible name.toList) :
    (cut? ['-', '>'] (' ' :: (renderNames l).toList)).isSome = false := by
  rw [cut?_arrow_eq_none_iff.mpr]
  · rfl
  · exact arrowless_cons.mpr ⟨by simp, (phrase_renderNames h).arrow⟩

lemma notMem_toDigits {a : Char} (n : ℕ) (ha : a.isDigit = false) : a ∉ Nat.toDigits 10 n := by
  intro hmem
  have hdigit := Nat.isDigit_of_mem_toDigits (by decide) (by decide) hmem
  rw [ha] at hdigit
  cases hdigit

lemma isBlank_eq_false_of_isDigit {a : Char} (h : a.isDigit = true) : isBlank a = false := by
  have hbounds : 48 ≤ a.toNat ∧ a.toNat ≤ 57 := by
    simpa [Char.isDigit, UInt32.le_iff_toNat_le] using h
  have hranges : ∀ r ∈ blankRanges, r.2 < 48 ∨ 57 < r.1 := by decide
  rw [isBlank, List.any_eq_false]
  intro r hr
  have hout := hranges r hr
  simp only [Bool.and_eq_true, decide_eq_true_eq, not_and]
  omega

lemma content_toDigits (n : ℕ) : Content (Nat.toDigits 10 n) where
  comment := notMem_toDigits n (by decide)
  newline := notMem_toDigits n (by decide)
  tight := tight_of_forall fun _ ha =>
    isBlank_eq_false_of_isDigit (Nat.isDigit_of_mem_toDigits (by decide) (by decide) ha)
  ne_nil := Nat.toDigits_ne_nil

end Petri.Rule
