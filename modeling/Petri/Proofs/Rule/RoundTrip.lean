import Mathlib
import Petri.Proofs.Rule.Phrase

/-! Rules with legible names are read back from what is written of them, and the reader gives only such rules. -/

namespace Petri.Rule

open Text

variable {name : String} {c : Context} {r : Rule}

lemma readContent_transition {inputs outputs : List String} (hi : ∀ name ∈ inputs, Legible name.toList)
    (ho : ∀ name ∈ outputs, Legible name.toList) :
    readContent (render (.transition none inputs outputs)).toList = .ok (.transition none inputs outputs) := by
  have hleft : Arrowless ((renderNames inputs).toList ++ [' ']) :=
    (arrowless_append_cons (by decide) (by decide)).mpr ⟨(phrase_renderNames hi).arrow, List.IsChain.nil⟩
  have hcolon : cutColon? ((renderNames inputs).toList ++ [' ']) = none := by
    rw [cutColon?_append (cutColon?_renderNames hi)]
    rfl
  have hline : (render (.transition none inputs outputs)).toList =
      (renderNames inputs).toList ++ [' '] ++ '-' :: '>' :: ' ' :: (renderNames outputs).toList := by
    simp [render]
  rw [hline, readContent, cut?_arrow hleft]
  dsimp only
  rw [readTransition, isSome_cut?_arrow ho, hcolon]
  rw [readNames_concat_blank, readNames_cons_blank, readNames_renderNames hi, readNames_renderNames ho]
  rfl

lemma readContent_transition_id {id : String} {inputs outputs : List String} (hid : Legible id.toList)
    (hi : ∀ name ∈ inputs, Legible name.toList) (ho : ∀ name ∈ outputs, Legible name.toList) :
    readContent (render (.transition (some id) inputs outputs)).toList =
      .ok (.transition (some id) inputs outputs) := by
  have hleft : Arrowless (id.toList ++ ':' :: ' ' :: (renderNames inputs).toList ++ [' ']) := by
    rw [arrowless_append_cons (by decide) (by decide), arrowless_append_cons (by decide) (by decide), arrowless_cons]
    exact ⟨⟨hid.arrow, by simp, (phrase_renderNames hi).arrow⟩, List.IsChain.nil⟩
  have hcolon : cutColon? (id.toList ++ ':' :: ' ' :: (renderNames inputs).toList ++ [' ']) =
      some (id.toList, ' ' :: ((renderNames inputs).toList ++ [' '])) := by
    rw [List.append_assoc, cutColon?_append (isName_iff.mp hid.isName).2.2]
    simp [cutColon?]
  have hline : (render (.transition (some id) inputs outputs)).toList =
      id.toList ++ ':' :: ' ' :: (renderNames inputs).toList ++ [' '] ++
        '-' :: '>' :: ' ' :: (renderNames outputs).toList := by
    simp [render]
  rw [hline, readContent, cut?_arrow hleft]
  dsimp only
  rw [readTransition, isSome_cut?_arrow ho, hcolon]
  dsimp only
  rw [hid.readName, readNames_cons_blank, readNames_concat_blank, readNames_cons_blank, readNames_renderNames hi,
    readNames_renderNames ho]
  rfl

lemma readContent_assign {place : String} (h : Legible place.toList) (tokens : UInt32) :
    readContent (render (.assign place tokens)).toList = .ok (.assign place tokens) := by
  have hline : (render (.assign place tokens)).toList =
      place.toList ++ ' ' :: '=' :: ' ' :: Nat.toDigits 10 tokens.toNat := by
    simp [render]
  have harrow : Arrowless (place.toList ++ ' ' :: '=' :: ' ' :: Nat.toDigits 10 tokens.toNat) := by
    rw [arrowless_append_cons (by decide) (by decide)]
    refine ⟨h.arrow, arrowless_of_notMem ?_⟩
    simp [notMem_toDigits (a := '-')]
  have hbracket : '[' ∉ place.toList ++ ' ' :: '=' :: ' ' :: Nat.toDigits 10 tokens.toNat := by
    simp [h.notMem (a := '['), notMem_toDigits (a := '[')]
  have hequation : cut? ['='] (place.toList ++ ' ' :: '=' :: ' ' :: Nat.toDigits 10 tokens.toNat) =
      some (place.toList ++ [' '], ' ' :: Nat.toDigits 10 tokens.toNat) := by
    have hname : '=' ∉ place.toList ++ [' '] := by simp [h.notMem (a := '=')]
    simpa using cut?_char hname (b := ' ' :: Nat.toDigits 10 tokens.toNat)
  rw [hline, readContent, cut?_arrow_eq_none_iff.mpr harrow, cut?_char_eq_none_iff.mpr hbracket, hequation]
  dsimp only
  rw [readAssign, trim_cons (by decide), (content_toDigits _).tight.trim, Numeral.read_toDigits]
  dsimp only
  rw [readName_concat_blank, h.readName]
  rfl

def fields (c : Context) : List (String × String) :=
  c.read.toList.map ("read", ·) ++ c.write.toList.map ("write", ·) ++ c.erase.toList.map ("erase", ·) ++
    (if c.required.toList.isEmpty then [] else [("context", renderNames c.required.toList)]) ++ [("kind", c.kind.name)]

def equation (f : String × String) : List Char :=
  f.1.toList ++ '=' :: f.2.toList

lemma toList_renderContext (c : Context) : (renderContext c).toList = joined ((fields c).map equation) := by
  have hrender : renderContext c = ", ".intercalate ((fields c).map fun f => f.1 ++ "=" ++ f.2) := by
    cases hrequired : c.required.toList.isEmpty <;> simp [renderContext, fields, hrequired, Function.comp_def]
  rw [hrender, String.toList_intercalate, List.map_map]
  congr 1
  apply List.map_congr_left
  intro f _
  simp [equation]

lemma fields_phrases (h : ∀ name ∈ contextNames c, Legible name.toList) :
    ∀ f ∈ fields c, Phrase (equation f) := by
  have hequation : ∀ {key value : String}, Legible key.toList → Phrase value.toList → Phrase (equation (key, value)) :=
    fun hk hv => hk.phrase.equation hv
  intro f hf
  simp only [fields, List.mem_append, List.mem_map, Option.mem_toList] at hf
  rcases hf with (((⟨v, hv, rfl⟩ | ⟨v, hv, rfl⟩) | ⟨v, hv, rfl⟩) | hf) | hf
  · exact hequation (by decide +kernel) (h v (mem_contextNames.mpr (by tauto))).phrase
  · exact hequation (by decide +kernel) (h v (mem_contextNames.mpr (by tauto))).phrase
  · exact hequation (by decide +kernel) (h v (mem_contextNames.mpr (by tauto))).phrase
  · split at hf
    · cases hf
    · obtain rfl := List.mem_singleton.mp hf
      apply hequation (by decide +kernel) (phrase_renderNames _)
      intro name hname
      exact h name (mem_contextNames.mpr (by tauto))
  · obtain rfl := List.mem_singleton.mp hf
    have hkind : Legible c.kind.name.toList := by cases c.kind <;> decide +kernel
    exact hequation (by decide +kernel) hkind.phrase

lemma cut?_equation {key : String} (hk : Legible key.toList) (value : String) :
    cut? ['='] (equation (key, value)) = some (key.toList, value.toList) :=
  cut?_char (hk.notMem (by decide))

lemma readAttribute_tag {value : String} (c : Context) (h : Legible value.toList) :
    readAttribute c (equation ("read", value)) = .ok { c with read := some value } ∧
      readAttribute c (equation ("write", value)) = .ok { c with write := some value } ∧
      readAttribute c (equation ("erase", value)) = .ok { c with erase := some value } := by
  refine ⟨?_, ?_, ?_⟩ <;> rw [readAttribute, cut?_equation (by decide +kernel)]
  · exact bind_eq_ok.mpr ⟨value, h.readName, rfl⟩
  · exact bind_eq_ok.mpr ⟨value, h.readName, rfl⟩
  · exact bind_eq_ok.mpr ⟨value, h.readName, rfl⟩

lemma tags_ext {a b : Tags} (h : a.toList = b.toList) : a = b := by
  cases a
  cases b
  cases h
  rfl

lemma ofList_toList (tags : Tags) : Tags.ofList tags.toList = tags := by
  apply tags_ext
  exact Sorted.eq_of_mem_iff (Sorted.ascending_ofList _) tags.ascending fun _ => Sorted.mem_ofList

lemma readAttribute_context {tags : Tags} (c : Context) (h : ∀ name ∈ tags.toList, Legible name.toList) :
    readAttribute c (equation ("context", renderNames tags.toList)) = .ok { c with required := tags } := by
  rw [readAttribute, cut?_equation (by decide +kernel)]
  refine bind_eq_ok.mpr ⟨tags.toList, readNames_renderNames h, ?_⟩
  rw [ofList_toList]
  rfl

lemma readAttribute_kind (c : Context) (kind : Kind) :
    readAttribute c (equation ("kind", kind.name)) = .ok { c with kind := kind } := by
  have hkind : readKind kind.name.toList = .ok kind := by cases kind <;> rfl
  rw [readAttribute, cut?_equation (by decide +kernel)]
  exact bind_eq_ok.mpr ⟨kind, hkind, rfl⟩

lemma foldlM_tag {key : String} {value : Option String} {c d : Context} (hnone : value = none → c = d)
    (hsome : ∀ v, value = some v → readAttribute c (equation (key, v)) = .ok d) :
    ((value.toList.map (key, ·)).map equation).foldlM readAttribute c = .ok d := by
  cases value with
  | none =>
    rw [hnone rfl]
    rfl
  | some v => exact bind_eq_ok.mpr ⟨d, hsome v rfl, rfl⟩

lemma foldlM_fields (h : ∀ name ∈ contextNames c, Legible name.toList) :
    ((fields c).map equation).foldlM readAttribute {} = .ok c := by
  -- every attribute sets its own part, and one that is not written leaves the default, which is what it was
  have hread : ((c.read.toList.map ("read", ·)).map equation).foldlM readAttribute {} = .ok { read := c.read } := by
    refine foldlM_tag (fun hv => by rw [hv]) fun v hv => ?_
    rw [(readAttribute_tag _ (h v (mem_contextNames.mpr (by tauto)))).1, hv]
  have hwrite : ((c.write.toList.map ("write", ·)).map equation).foldlM readAttribute { read := c.read } =
      .ok { read := c.read, write := c.write } := by
    refine foldlM_tag (fun hv => by rw [hv]) fun v hv => ?_
    rw [(readAttribute_tag _ (h v (mem_contextNames.mpr (by tauto)))).2.1, hv]
  have herase : ((c.erase.toList.map ("erase", ·)).map equation).foldlM readAttribute
      { read := c.read, write := c.write } = .ok { read := c.read, write := c.write, erase := c.erase } := by
    refine foldlM_tag (fun hv => by rw [hv]) fun v hv => ?_
    rw [(readAttribute_tag _ (h v (mem_contextNames.mpr (by tauto)))).2.2, hv]
  have hrequired : ((if c.required.toList.isEmpty then []
        else [("context", renderNames c.required.toList)]).map equation).foldlM readAttribute
      { read := c.read, write := c.write, erase := c.erase } = .ok { c with kind := .control } := by
    split
    · next hempty =>
      have htags : c.required = .empty := tags_ext (List.isEmpty_iff.mp hempty)
      rw [← htags]
      rfl
    · refine bind_eq_ok.mpr ⟨_, readAttribute_context _ fun name hname => ?_, rfl⟩
      exact h name (mem_contextNames.mpr (by tauto))
  have hkind : ([("kind", c.kind.name)].map equation).foldlM readAttribute { c with kind := .control } = .ok c :=
    bind_eq_ok.mpr ⟨c, readAttribute_kind _ c.kind, rfl⟩
  simp only [fields, List.map_append]
  exact foldlM_append_ok (foldlM_append_ok (foldlM_append_ok (foldlM_append_ok hread hwrite) herase) hrequired) hkind

lemma readContext_renderContext (h : ∀ name ∈ contextNames c, Legible name.toList) :
    readContext (renderContext c).toList = .ok c := by
  have hphrases : ∀ p ∈ (fields c).map equation, Phrase p := List.forall_mem_map.mpr (fields_phrases h)
  have hne : (fields c).map equation ≠ [] := by simp [fields]
  have hpieces := map_trim_commaPieces hne fun p hp => ⟨(hphrases p hp).whole, (hphrases p hp).tight⟩
  have hfilter : ((fields c).map equation).filter (fun a => !a.isEmpty) = (fields c).map equation := by
    apply List.filter_eq_self.mpr
    intro p hp
    simpa using (hphrases p hp).ne_nil
  rw [readContext, toList_renderContext, hpieces, hfilter, foldlM_fields h]

lemma arrowless_renderContext (h : ∀ name ∈ contextNames c, Legible name.toList) :
    Arrowless (renderContext c).toList := by
  rw [toList_renderContext]
  apply arrowless_joined
  exact List.forall_mem_map.mpr fun f hf => (fields_phrases h f hf).arrow

lemma readContent_context (hname : Legible name.toList) (h : ∀ name ∈ contextNames c, Legible name.toList) :
    readContent (render (.context name c)).toList = .ok (.context name c) := by
  have hline : (render (.context name c)).toList =
      name.toList ++ ' ' :: '[' :: ((renderContext c).toList ++ [']']) := by
    simp [render]
  have harrow : Arrowless (name.toList ++ ' ' :: '[' :: ((renderContext c).toList ++ [']'])) := by
    rw [arrowless_append_cons (by decide) (by decide), arrowless_cons, arrowless_append_cons (by decide) (by decide)]
    exact ⟨hname.arrow, by simp, arrowless_renderContext h, List.IsChain.nil⟩
  have hbracket : cut? ['['] (name.toList ++ ' ' :: '[' :: ((renderContext c).toList ++ [']'])) =
      some (name.toList ++ [' '], (renderContext c).toList ++ [']']) := by
    have hnot : '[' ∉ name.toList ++ [' '] := by simp [hname.notMem (a := '[')]
    simpa using cut?_char hnot (b := (renderContext c).toList ++ [']'])
  have htrim : trimRight ((renderContext c).toList ++ [']']) = (renderContext c).toList ++ [']'] :=
    List.rdropWhile_concat_neg isBlank _ ']' (by decide)
  rw [hline, readContent, cut?_arrow_eq_none_iff.mpr harrow, hbracket]
  dsimp only
  rw [readContextRule, htrim, List.getLast?_concat, if_pos rfl, List.dropLast_concat]
  rw [readName_concat_blank, hname.readName, readContext_renderContext h]
  rfl

lemma readContent_render (h : ∀ name ∈ r.names, Legible name.toList) : readContent (render r).toList = .ok r := by
  cases r with
  | transition id inputs outputs =>
    simp only [names, List.mem_append, or_imp, forall_and] at h
    cases id with
    | none => exact readContent_transition h.1.2 h.2
    | some id => exact readContent_transition_id (h.1.1 id (by simp)) h.1.2 h.2
  | assign place tokens => exact readContent_assign (h place (by simp [names])) tokens
  | context name c =>
    obtain ⟨hname, hc⟩ := List.forall_mem_cons.mp h
    exact readContent_context hname hc

lemma content_render (h : ∀ name ∈ r.names, Legible name.toList) : Content (render r).toList := by
  cases r with
  | transition id inputs outputs =>
    simp only [names, List.mem_append, or_imp, forall_and] at h
    have hi := (phrase_renderNames h.1.2).toContent
    have ho := (phrase_renderNames h.2).toContent
    have hsides := hi.append ho (m := [' ', '-', '>', ' ']) (by decide)
    cases id with
    | none => simpa [render] using hsides
    | some id =>
      have hid := (h.1.1 id (by simp)).phrase.toContent
      simpa [render] using hid.append hsides (m := [':', ' ']) (by decide)
  | assign place tokens =>
    have hplace := (h place (by simp [names])).phrase.toContent
    simpa [render] using hplace.append (content_toDigits tokens.toNat) (m := [' ', '=', ' ']) (by decide)
  | context name c =>
    obtain ⟨hname, hc⟩ := List.forall_mem_cons.mp h
    have hphrases : ∀ p ∈ (fields c).map equation, Phrase p := List.forall_mem_map.mpr (fields_phrases hc)
    have hcomment : '#' ∉ joined ((fields c).map equation) :=
      notMem_joined (fun p hp => (hphrases p hp).comment) (by decide) (by decide)
    have hnewline : '\n' ∉ joined ((fields c).map equation) :=
      notMem_joined (fun p hp => (hphrases p hp).newline) (by decide) (by decide)
    have hend : Content [']'] := ⟨by decide, by decide, tight_singleton rfl, by decide⟩
    have hline := hname.phrase.toContent.append hend (m := [' ', '['] ++ joined ((fields c).map equation))
      (by simp [hcomment, hnewline])
    simpa [render, toList_renderContext] using hline

lemma readLine_render (h : ∀ name ∈ r.names, Legible name.toList) : readLine (render r).toList = .ok (some r) :=
  (content_render h).readLine (readContent_render h)

def numberFrom (n : ℕ) (rules : List Rule) : List (ℕ × Rule) :=
  (List.range' n rules.length).zip rules

lemma readLines_render {rules : List Rule} (h : ∀ r ∈ rules, ∀ name ∈ r.names, Legible name.toList) (n : ℕ) :
    readLines n (rules.map fun r => (render r).toList) = .ok (numberFrom n rules) := by
  induction rules generalizing n with
  | nil => rfl
  | cons r rules ih =>
    obtain ⟨hr, hrules⟩ := List.forall_mem_cons.mp h
    rw [List.map_cons, readLines, readLine_render hr]
    exact bind_eq_ok.mpr ⟨numberFrom (n + 1) rules, ih hrules (n + 1), rfl⟩

lemma readText_renderText {rules : List Rule} (h : ∀ r ∈ rules, ∀ name ∈ r.names, Legible name.toList) :
    readText (renderText rules) = .ok (numberFrom 1 rules) := by
  cases rules with
  | nil => rfl
  | cons r rules =>
    have hlines : (renderText (r :: rules)).toList.splitOn '\n' = (r :: rules).map fun r => (render r).toList := by
      rw [renderText, String.toList_intercalate, List.map_map]
      refine List.splitOn_intercalate '\n' ?_ (by simp)
      exact List.forall_mem_map.mpr fun r hr => (content_render (h r hr)).newline
    rw [readText, hlines, readLines_render h]

theorem readText_stable {text : String} {numbered : List (ℕ × Rule)} (h : readText text = .ok numbered) :
    readText (renderText (numbered.map Prod.snd)) = .ok (numberFrom 1 (numbered.map Prod.snd)) ∧
      ∀ rules : List Rule, (∀ r ∈ rules, ∀ name ∈ r.names, ∃ known ∈ numbered.map Prod.snd, name ∈ known.names) →
        readText (renderText rules) = .ok (numberFrom 1 rules) := by
  have hlegible := legible_of_readLines h
  refine ⟨readText_renderText hlegible, fun rules hrules => readText_renderText fun r hr name hname => ?_⟩
  obtain ⟨known, hknown, hmem⟩ := hrules r hr name hname
  exact hlegible known hknown name hmem

def crowded : String :=
  "t://: \x7b- >\x7d -> place://end # two names, no arrow\n\n  t:// [read=>x, context=\x7bb,a\x7d]\n-=+07"

def crowdedRules : List (ℕ × Rule) :=
  [(1, .transition (some "t://") ["-", ">"] ["place://end"]),
    (3, .context "t://" { read := some ">x", required := .ofList ["b", "a"] }),
    (4, .assign "-" 7)]

theorem readText_stable_crowded : readText crowded = .ok crowdedRules ∧
    renderText (crowdedRules.map Prod.snd) = "t://: \x7b-, >\x7d -> \x7bplace://end\x7d\n" ++
      "t:// [read=>x, context=\x7ba, b\x7d, kind=control]\n- = 7" ∧
    readText (renderText (crowdedRules.map Prod.snd)) = .ok (numberFrom 1 (crowdedRules.map Prod.snd)) :=
  ⟨rfl, by decide +kernel, (readText_stable (show readText crowded = .ok crowdedRules from rfl)).1⟩

end Petri.Rule
