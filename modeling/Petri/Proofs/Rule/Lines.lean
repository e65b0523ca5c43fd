import Mathlib
import Petri.Proofs.Except
import Petri.Proofs.Text.Cut
import Petri.Rule.Reader

/-! Reading goes line by line: a text in two parts is read part by part, and how a line ends makes no difference. -/

namespace Petri

namespace Text

lemma length_splitOn (c : Char) (s : List Char) : (s.splitOn c).length = s.count c + 1 := by
  induction s with
  | nil => rfl
  | cons d s ih =>
    rw [List.splitOn_cons_eq_if_modifyHead, List.count_cons]
    split
    · rw [List.length_cons, ih]
    · rw [List.length_modifyHead, ih, Nat.add_zero]

def dropReturn (s : List Char) : List Char :=
  if s.getLast? = some '\r' then s.dropLast else s

/-- The lines of a text. A line ends with a newline or with a carriage return and a newline, the last one also without. -/
def lines (s : List Char) : List (List Char) :=
  (s.splitOn '\n').dropLast.map dropReturn ++ (s.splitOn '\n').getLast?.toList.filter (· ≠ [])

end Text

namespace Rule

open Text

lemma readLine_concat_return (s : List Char) : readLine (s ++ ['\r']) = readLine s := by
  have htrim : trim ((s ++ ['\r']).takeWhile (· ≠ '#')) = trim (s.takeWhile (· ≠ '#')) := by
    rw [List.takeWhile_append]
    split
    · next hall =>
      rw [List.takeWhile_cons_of_pos (by decide), List.takeWhile_nil, trim_concat (by decide)]
      rw [(List.takeWhile_prefix _).eq_of_length hall]
    · rfl
  rw [readLine, readLine, htrim]

lemma readLine_dropReturn (s : List Char) : readLine (dropReturn s) = readLine s := by
  rw [dropReturn]
  split
  · next hlast =>
    obtain ⟨t, rfl⟩ := List.getLast?_eq_some_iff.mp hlast
    rw [List.dropLast_concat, readLine_concat_return]
  · rfl

lemma readLines_append (n : ℕ) (l l' : List (List Char)) : readLines n (l ++ l') =
    readLines n l >>= fun numbered => readLines (n + l.length) l' >>= fun numbered' => .ok (numbered ++ numbered') := by
  induction l generalizing n with
  | nil => exact (bind_pure (readLines n l')).symm
  | cons line l ih =>
    rw [List.cons_append, readLines, readLines, List.length_cons, Nat.add_comm l.length, ← Nat.add_assoc]
    cases readLine line with
    | error fault => rfl
    | ok rule =>
      cases rule with
      | none => exact ih (n + 1)
      | some rule =>
        simp only [ih (n + 1), bind_assoc]
        rfl

lemma readLines_map {f : List Char → List Char} (hf : ∀ s, readLine (f s) = readLine s) (n : ℕ)
    (l : List (List Char)) : readLines n (l.map f) = readLines n l := by
  induction l generalizing n with
  | nil => rfl
  | cons line l ih => rw [List.map_cons, readLines, readLines, hf, ih]

lemma readLines_concat_filter (n : ℕ) (l : List (List Char)) (last : List Char) :
    readLines n (l ++ [last].filter (· ≠ [])) = readLines n (l ++ [last]) := by
  cases last with
  | nil =>
    rw [readLines_append, readLines_append]
    rfl
  | cons c last => rfl

lemma readText_eq_readLines (text : String) : readText text = readLines 1 (lines text.toList) := by
  obtain ⟨init, last, hsplit⟩ := List.eq_nil_or_concat (text.toList.splitOn '\n') |>.resolve_left (List.splitOn_ne_nil _ _)
  rw [List.concat_eq_append] at hsplit
  rw [readText, lines, hsplit, List.dropLast_concat, List.getLast?_concat, Option.toList_some, readLines_concat_filter]
  rw [readLines_append, readLines_append, readLines_map readLine_dropReturn, List.length_map]

/-- The same result with all lines counted on by `k`. -/
inductive Delayed (k : ℕ) : Except Error (List (ℕ × Rule)) → Except Error (List (ℕ × Rule)) → Prop
  | error (line : ℕ) (fault : Fault) : Delayed k (.error (.badLine line fault)) (.error (.badLine (line + k) fault))
  | ok (numbered : List (ℕ × Rule)) : Delayed k (.ok numbered) (.ok (numbered.map (Prod.map (· + k) id)))

lemma Delayed.of_error {k : ℕ} {e : Error} {result : Except Error (List (ℕ × Rule))} (h : Delayed k (.error e) result) :
    ∃ line fault, e = .badLine line fault ∧ result = .error (.badLine (line + k) fault) := by
  cases h with
  | error line fault => exact ⟨line, fault, rfl, rfl⟩

lemma Delayed.of_ok {k : ℕ} {numbered : List (ℕ × Rule)} {result : Except Error (List (ℕ × Rule))}
    (h : Delayed k (.ok numbered) result) : result = .ok (numbered.map (Prod.map (· + k) id)) := by
  cases h
  rfl

lemma delayed_readLines (n k : ℕ) (l : List (List Char)) : Delayed k (readLines n l) (readLines (n + k) l) := by
  induction l generalizing n with
  | nil => exact .ok []
  | cons line l ih =>
    rw [readLines, readLines, Nat.add_right_comm]
    cases readLine line with
    | error fault => exact .error n fault
    | ok rule =>
      cases rule with
      | none => exact ih (n + 1)
      | some rule =>
        have hrest := ih (n + 1)
        generalize readLines (n + 1) l = first, readLines (n + 1 + k) l = second at hrest
        cases hrest with
        | error number fault => exact .error number fault
        | ok numbered => exact .ok ((n, rule) :: numbered)

lemma exists_badLine {text : String} {e : Error} (h : readText text = .error e) : ∃ line fault, e = .badLine line fault := by
  have hdelayed := delayed_readLines 1 0 (text.toList.splitOn '\n')
  rw [← readText, h] at hdelayed
  obtain ⟨line, fault, he, _⟩ := hdelayed.of_error
  exact ⟨line, fault, he⟩

lemma readText_append_eq (a b : String) : readText (a ++ "\n" ++ b) =
    readText a >>= fun numbered => readLines (1 + (a.toList.count '\n' + 1)) (b.toList.splitOn '\n') >>= fun numbered' =>
      .ok (numbered ++ numbered') := by
  have hsplit : (a ++ "\n" ++ b).toList.splitOn '\n' = a.toList.splitOn '\n' ++ b.toList.splitOn '\n' := by
    rw [String.toList_append, String.toList_append, List.append_assoc]
    exact List.splitOn_append_cons_self _ _
  rw [readText, hsplit, readLines_append, length_splitOn, readText]

theorem readText_append (a b : String) :
    (∀ e, readText a = .error e → (∃ line fault, e = .badLine line fault) ∧ readText (a ++ "\n" ++ b) = .error e) ∧
    (∀ numbered e, readText a = .ok numbered → readText b = .error e → ∃ line fault, e = .badLine line fault ∧
      readText (a ++ "\n" ++ b) = .error (.badLine (line + (a.toList.count '\n' + 1)) fault)) ∧
    (∀ numbered numbered', readText a = .ok numbered → readText b = .ok numbered' → readText (a ++ "\n" ++ b) =
      .ok (numbered ++ numbered'.map (Prod.map (· + (a.toList.count '\n' + 1)) id))) ∧
    readText (a ++ "\n" ++ b) = readLines 1 (lines (a ++ "\n" ++ b).toList) := by
  have hdelayed := delayed_readLines 1 (a.toList.count '\n' + 1) (b.toList.splitOn '\n')
  rw [← readText] at hdelayed
  refine ⟨fun e ha => ⟨exists_badLine ha, ?_⟩, fun numbered e ha hb => ?_, fun numbered numbered' ha hb => ?_,
    readText_eq_readLines _⟩
  · rw [readText_append_eq, ha]
    rfl
  · rw [hb] at hdelayed
    obtain ⟨line, fault, he, hlater⟩ := hdelayed.of_error
    refine ⟨line, fault, he, ?_⟩
    rw [readText_append_eq, ha, hlater]
    rfl
  · rw [hb] at hdelayed
    rw [readText_append_eq, ha, hdelayed.of_ok]
    rfl

theorem readText_append_header :
    readText ("A = 1\r\n" ++ "\n" ++ "A -> B # on") =
      .ok [(1, .assign "A" 1), (3, .transition none ["A"] ["B"])] ∧
    readText ("A = 1\r\n" ++ "\n" ++ "# header\nB = -2") = .error (.badLine 4 (.invalidCount "-2" .badDigit)) ∧
    readText ("A B" ++ "\n" ++ "# header\nB = -2") = .error (.badLine 1 (.unrecognized "A B")) := by
  have hfirst : readText "A = 1\r\n" = .ok [(1, .assign "A" 1)] := rfl
  have hcount : "A = 1\r\n".toList.count '\n' + 1 = 2 := by decide
  refine ⟨?_, ?_, ((readText_append "A B" "# header\nB = -2").1 _ rfl).2⟩
  · rw [(readText_append _ "A -> B # on").2.2.1 _ [(1, .transition none ["A"] ["B"])] hfirst rfl, hcount]
    rfl
  · obtain ⟨line, fault, heq, hresult⟩ := (readText_append _ "# header\nB = -2").2.1 _ _ hfirst rfl
    rw [hresult, hcount]
    cases heq
    rfl

end Rule

end Petri
