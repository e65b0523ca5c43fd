import Mathlib
import Petri.Text.Cut

/-! What cutting a text gives. A text put together around a mark falls apart at that mark again. -/

namespace Petri.Text

variable {a b s t : List Char} {c : Char}

lemma trim_isInfix (s : List Char) : trim s <:+: s :=
  (List.rdropWhile_prefix isBlank (trimLeft s)).isInfix.trans (List.dropWhile_suffix isBlank).isInfix

lemma trim_cons (hc : isBlank c = true) : trim (c :: s) = trim s := by
  rw [trim, trimLeft, List.dropWhile_cons_of_pos hc]
  rfl

lemma trimRight_concat (hc : isBlank c = true) : trimRight (s ++ [c]) = trimRight s :=
  List.rdropWhile_concat_pos isBlank s c hc

lemma trim_concat (hc : isBlank c = true) : trim (s ++ [c]) = trim s := by
  rw [trim, trim, trimLeft, trimLeft, List.dropWhile_append]
  split
  · next hs =>
    rw [List.isEmpty_iff.mp hs, List.dropWhile_cons_of_pos hc]
    rfl
  · exact trimRight_concat hc

def Tight (s : List Char) : Prop :=
  (∀ c ∈ s.head?, isBlank c = false) ∧ ∀ c ∈ s.getLast?, isBlank c = false

lemma Tight.trimRight (h : Tight s) : trimRight s = s := by
  apply List.rdropWhile_eq_self_iff.mpr
  intro hs
  have hlast := h.2 _ (List.getLast?_eq_some_getLast hs)
  simp [hlast]

lemma Tight.trim (h : Tight s) : trim s = s := by
  have hleft : trimLeft s = s := by
    cases s with
    | nil => rfl
    | cons c s =>
      have hc := h.1 c rfl
      exact List.dropWhile_cons_of_neg (by simp [hc])
  rw [Text.trim, hleft, h.trimRight]

lemma tight_of_forall (h : ∀ c ∈ s, isBlank c = false) : Tight s :=
  ⟨fun c hc => h c (List.mem_of_head? hc), fun c hc => h c (List.mem_of_getLast? hc)⟩

lemma tight_singleton (hc : isBlank c = false) : Tight [c] :=
  tight_of_forall (List.forall_mem_singleton.mpr hc)

lemma Tight.append (ha : Tight a) (hb : Tight b) (hna : a ≠ []) (hnb : b ≠ []) (s : List Char) :
    Tight (a ++ s ++ b) := by
  refine ⟨fun c hc => ha.1 c ?_, fun c hc => hb.2 c ?_⟩
  · rwa [List.append_assoc, List.head?_append_of_ne_nil _ hna] at hc
  · rwa [List.getLast?_append_of_ne_nil _ hnb] at hc

def Arrowless (s : List Char) : Prop :=
  s.IsChain fun a b => ¬ (a = '-' ∧ b = '>')

lemma arrowless_cons : Arrowless (c :: s) ↔ ¬ (c = '-' ∧ s.head? = some '>') ∧ Arrowless s := by
  rw [Arrowless, List.isChain_cons]
  apply and_congr_left'
  cases s with
  | nil => simp
  | cons d s => simp

lemma Arrowless.of_isInfix (h : Arrowless t) (hs : s <:+: t) : Arrowless s :=
  List.IsChain.infix h hs

lemma arrowless_of_notMem (h : '-' ∉ s) : Arrowless s := by
  induction s with
  | nil => exact List.IsChain.nil
  | cons c s ih =>
    simp only [List.mem_cons, not_or] at h
    exact arrowless_cons.mpr ⟨fun hc => h.1 hc.1.symm, ih h.2⟩

lemma arrowless_append_cons (hc : c ≠ '-') (hc' : c ≠ '>') :
    Arrowless (a ++ c :: b) ↔ Arrowless a ∧ Arrowless b := by
  have hb : Arrowless (c :: b) ↔ Arrowless b := by simp [arrowless_cons, hc]
  have hjoin : ∀ x ∈ a.getLast?, ∀ y ∈ (c :: b).head?, ¬ (x = '-' ∧ y = '>') := by
    rintro x _ y hy ⟨_, rfl⟩
    exact hc' (Option.some.inj hy)
  rw [← hb]
  exact List.isChain_append.trans (by tauto)

lemma eq_of_cut? {mark : List Char} (h : cut? mark s = some (a, b)) : s = a ++ mark ++ b := by
  induction s generalizing a with
  | nil => cases h
  | cons c s ih =>
    rw [cut?] at h
    split at h
    · next hmark =>
      obtain ⟨t, ht⟩ := List.isPrefixOf_iff_prefix.mp hmark
      rw [← ht, List.drop_left] at h
      cases h
      exact ht.symm
    · obtain ⟨⟨a', b'⟩, hcut, heq⟩ := Option.map_eq_some_iff.mp h
      cases heq
      rw [ih hcut]
      rfl

lemma cut?_char_eq_none_iff : cut? [c] s = none ↔ c ∉ s := by
  induction s with
  | nil => simp [cut?]
  | cons d s ih =>
    rw [cut?]
    by_cases hcd : c = d
    · simp [hcd]
    · simp [hcd, ih]

lemma cut?_char (h : c ∉ a) : cut? [c] (a ++ c :: b) = some (a, b) := by
  induction a with
  | nil => simp [cut?]
  | cons d a ih =>
    obtain ⟨hd, ha⟩ := not_or.mp (List.mem_cons.not.mp h)
    rw [List.cons_append, cut?, ih ha]
    simp [hd]

lemma cut?_arrow_cons : cut? ['-', '>'] (c :: s) =
    if c = '-' ∧ s.head? = some '>' then some ([], s.tail)
    else (cut? ['-', '>'] s).map fun p => (c :: p.1, p.2) := by
  rw [cut?]
  cases s with
  | nil => simp
  | cons d s => simp [eq_comm (a := '-'), eq_comm (a := '>')]

lemma cut?_arrow_eq_none_iff : cut? ['-', '>'] s = none ↔ Arrowless s := by
  induction s with
  | nil => simp [cut?, Arrowless]
  | cons c s ih =>
    rw [cut?_arrow_cons, arrowless_cons, ← ih]
    split
    · next h => simp [h]
    · next h => simp [h]

lemma cut?_arrow (h : Arrowless a) : cut? ['-', '>'] (a ++ '-' :: '>' :: b) = some (a, b) := by
  induction a with
  | nil => simp [cut?_arrow_cons]
  | cons c a ih =>
    obtain ⟨hc, ha⟩ := arrowless_cons.mp h
    -- no arrow starts before the mark: what follows the last character of `a` is a dash
    have hhead : ¬ (c = '-' ∧ (a ++ '-' :: '>' :: b).head? = some '>') := by
      cases a with
      | nil => simp
      | cons d a => exact hc
    rw [List.cons_append, cut?_arrow_cons, if_neg hhead, ih ha]
    rfl

lemma arrowless_of_cut? (h : cut? ['-', '>'] s = some (a, b)) : Arrowless a := by
  induction s generalizing a with
  | nil => cases h
  | cons c s ih =>
    rw [cut?_arrow_cons] at h
    split at h
    · cases h
      exact List.IsChain.nil
    · next hc =>
      obtain ⟨⟨a', b'⟩, hcut, heq⟩ := Option.map_eq_some_iff.mp h
      cases heq
      refine arrowless_cons.mpr ⟨fun hhead => hc ⟨hhead.1, ?_⟩, ih hcut⟩
      rw [eq_of_cut? hcut, List.append_assoc, List.head?_append, hhead.2]
      rfl

lemma eq_of_cutColon? (h : cutColon? s = some (a, b)) : s = a ++ ':' :: b := by
  induction s generalizing a with
  | nil => cases h
  | cons c s ih =>
    rw [cutColon?] at h
    split at h
    · next hc =>
      cases h
      rw [hc.1]
      rfl
    · obtain ⟨⟨a', b'⟩, hcut, heq⟩ := Option.map_eq_some_iff.mp h
      cases heq
      rw [ih hcut]
      rfl

lemma cutColon?_append (h : cutColon? a = none) :
    cutColon? (a ++ b) = (cutColon? b).map fun p => (a ++ p.1, p.2) := by
  induction a with
  | nil => simp
  | cons c a ih =>
    rw [cutColon?] at h
    split at h
    · cases h
    · next hc =>
      -- a colon of `a` that does not cut has its slashes in `a`, so `b` cannot make it cut
      have hc' : ¬ (c = ':' ∧ ¬ ['/', '/'].isPrefixOf (a ++ b)) := by
        rintro ⟨hcolon, hb⟩
        apply hc ⟨hcolon, fun ha => hb ?_⟩
        rw [List.isPrefixOf_iff_prefix] at ha ⊢
        exact ha.trans (List.prefix_append a b)
      rw [List.cons_append, cutColon?, if_neg hc', ih (Option.map_eq_none_iff.mp h), Option.map_map]
      rfl

/-- The first piece stands at the start of the text, and the others somewhere in it. -/
def Pieces (s : List Char) : List (List Char) → Prop
  | [] => True
  | p :: ps => p <+: s ∧ ∀ q ∈ ps, q <:+: s

lemma Pieces.isInfix {ps : List (List Char)} (h : Pieces s ps) : ∀ p ∈ ps, p <:+: s := by
  cases ps with
  | nil => simp
  | cons p ps => exact List.forall_mem_cons.mpr ⟨h.1.isInfix, h.2⟩

lemma Pieces.cons_nil {ps : List (List Char)} (h : Pieces s ps) (c : Char) : Pieces (c :: s) ([] :: ps) :=
  ⟨List.nil_prefix, fun p hp => (h.isInfix p hp).trans (List.suffix_cons c s).isInfix⟩

lemma Pieces.modifyHead {ps : List (List Char)} (h : Pieces s ps) (c : Char) :
    Pieces (c :: s) (ps.modifyHead (c :: ·)) := by
  cases ps with
  | nil => trivial
  | cons p ps =>
    exact ⟨List.cons_prefix_cons.mpr ⟨rfl, h.1⟩, fun q hq => (h.2 q hq).trans (List.suffix_cons c s).isInfix⟩

lemma pieces_splitOnP (p : Char → Bool) (s : List Char) : Pieces s (s.splitOnP p) := by
  induction s with
  | nil => simp [Pieces]
  | cons c s ih =>
    rw [List.splitOnP_cons_eq_if_modifyHead]
    split
    · exact ih.cons_nil c
    · exact ih.modifyHead c

def deepen (depth : ℕ) (c : Char) : ℕ :=
  if c = '\x7b' then depth + 1 else if c = '\x7d' then depth - 1 else depth

lemma commaPieces_ne_nil (depth : ℕ) (s : List Char) : commaPieces depth s ≠ [] := by
  cases s with
  | nil => simp [commaPieces]
  | cons c s =>
    rw [commaPieces]
    split
    · simp
    · dsimp only
      generalize commaPieces _ s = pieces
      cases pieces <;> simp

lemma commaPieces_cons (depth : ℕ) (c : Char) (s : List Char) : commaPieces depth (c :: s) =
    if c = ',' ∧ depth = 0 then [] :: commaPieces 0 s
    else (commaPieces (deepen depth c) s).modifyHead (c :: ·) := by
  rw [commaPieces]
  split
  · rfl
  · dsimp only [deepen]
    generalize h : commaPieces _ s = pieces
    cases pieces with
    | nil => exact absurd h (commaPieces_ne_nil _ _)
    | cons p ps => rfl

lemma pieces_commaPieces (depth : ℕ) (s : List Char) : Pieces s (commaPieces depth s) := by
  induction s generalizing depth with
  | nil => simp [Pieces, commaPieces]
  | cons c s ih =>
    rw [commaPieces_cons]
    split
    · exact (ih 0).cons_nil c
    · exact (ih _).modifyHead c

lemma commaPieces_append {depth : ℕ} (hl : '\x7b' ∉ a) (hr : '\x7d' ∉ a) (hc : depth = 0 → ',' ∉ a) (b : List Char) :
    commaPieces depth (a ++ b) = (commaPieces depth b).modifyHead (a ++ ·) := by
  induction a with
  | nil => exact (congrFun List.modifyHead_id (commaPieces depth b)).symm
  | cons c a ih =>
    simp only [List.mem_cons, not_or] at hl hr hc
    have hcomma : ¬ (c = ',' ∧ depth = 0) := fun h => (hc h.2).1 h.1.symm
    have hdepth : deepen depth c = depth := by rw [deepen, if_neg (Ne.symm hl.1), if_neg (Ne.symm hr.1)]
    rw [List.cons_append, commaPieces_cons, if_neg hcomma, hdepth, ih hl.2 hr.2 fun h => (hc h).2,
      List.modifyHead_modifyHead]
    rfl

/-- No comma of the text cuts it, whatever comes after. -/
def Whole (a : List Char) : Prop :=
  ∀ b, commaPieces 0 (a ++ b) = (commaPieces 0 b).modifyHead (a ++ ·)

lemma whole_of_notMem (hl : '\x7b' ∉ a) (hr : '\x7d' ∉ a) (hc : ',' ∉ a) : Whole a :=
  commaPieces_append hl hr fun _ => hc

lemma whole_braces (hl : '\x7b' ∉ a) (hr : '\x7d' ∉ a) : Whole ('\x7b' :: a ++ ['\x7d']) := by
  intro b
  have hopen : deepen 0 '\x7b' = 1 := rfl
  have hclose : deepen 1 '\x7d' = 0 := rfl
  rw [List.append_assoc, List.cons_append, commaPieces_cons, if_neg (by decide), hopen,
    commaPieces_append hl hr (by simp), List.singleton_append, commaPieces_cons, if_neg (by decide), hclose,
    List.modifyHead_modifyHead, List.modifyHead_modifyHead]
  congr 1
  funext p
  simp

lemma Whole.append (ha : Whole a) (hb : Whole b) : Whole (a ++ b) := by
  intro s
  rw [List.append_assoc, ha, hb, List.modifyHead_modifyHead]
  congr 1
  funext p
  simp

def joined (ps : List (List Char)) : List Char :=
  [',', ' '].intercalate ps

@[simp] lemma joined_singleton (p : List Char) : joined [p] = p :=
  List.intercalate_singleton

lemma joined_cons_cons (p q : List Char) (ps : List (List Char)) :
    joined (p :: q :: ps) = p ++ ',' :: ' ' :: joined (q :: ps) := by
  simp [joined, List.intercalate_cons_cons]

lemma joined_induction {P : List Char → Prop} {ps : List (List Char)} (h : ∀ p ∈ ps, P p) (hnil : P [])
    (hstep : ∀ a b, P a → P b → P (a ++ ',' :: ' ' :: b)) : P (joined ps) := by
  induction ps with
  | nil => exact hnil
  | cons p ps ih =>
    obtain ⟨hp, hps⟩ := List.forall_mem_cons.mp h
    cases ps with
    | nil => rwa [joined_singleton]
    | cons q ps =>
      rw [joined_cons_cons]
      exact hstep p _ hp (ih hps)

lemma notMem_joined {ps : List (List Char)} (h : ∀ p ∈ ps, c ∉ p) (hcomma : c ≠ ',') (hblank : c ≠ ' ') :
    c ∉ joined ps := by
  apply joined_induction h (by simp)
  intro a b ha hb
  simp [ha, hb, hcomma, hblank]

lemma arrowless_joined {ps : List (List Char)} (h : ∀ p ∈ ps, Arrowless p) : Arrowless (joined ps) := by
  apply joined_induction h List.IsChain.nil
  intro a b ha hb
  rw [arrowless_append_cons (by decide) (by decide), arrowless_cons]
  exact ⟨ha, by simp, hb⟩

lemma cutColon?_joined {ps : List (List Char)} (h : ∀ p ∈ ps, cutColon? p = none) : cutColon? (joined ps) = none := by
  apply joined_induction (P := fun s => cutColon? s = none) h rfl
  intro a b ha hb
  rw [cutColon?_append ha]
  simp [cutColon?, hb]

lemma filter_splitOnP_joined {ps : List (List Char)}
    (h : ∀ p ∈ ps, p ≠ [] ∧ ∀ c ∈ p, (decide (c = ',') || isBlank c) = false) :
    ((joined ps).splitOnP fun c => c = ',' || isBlank c).filter (fun p => !p.isEmpty) = ps := by
  induction ps with
  | nil => simp [joined]
  | cons p ps ih =>
    obtain ⟨⟨hne, hchars⟩, hps⟩ := List.forall_mem_cons.mp h
    cases ps with
    | nil =>
      rw [joined_singleton, List.splitOnP_eq_singleton hchars]
      simp [hne]
    | cons q ps =>
      have hblank : isBlank ' ' = true := by decide
      rw [joined_cons_cons, List.splitOnP_append_cons_of_forall_mem hchars ',' (by simp)]
      rw [List.splitOnP_cons_eq_if_modifyHead, if_pos (by simp [hblank])]
      simp [hne, ih hps]

lemma map_trim_modifyHead (hc : isBlank c = true) (ps : List (List Char)) :
    (ps.modifyHead (c :: ·)).map trim = ps.map trim := by
  cases ps with
  | nil => rfl
  | cons p ps => simp [trim_cons hc]

lemma map_trim_commaPieces {ps : List (List Char)} (hps : ps ≠ []) (h : ∀ p ∈ ps, Whole p ∧ Tight p) :
    (commaPieces 0 (joined ps)).map trim = ps := by
  induction ps with
  | nil => exact absurd rfl hps
  | cons p ps ih =>
    obtain ⟨⟨hwhole, htight⟩, hrest⟩ := List.forall_mem_cons.mp h
    cases ps with
    | nil =>
      have hp := hwhole []
      rw [List.append_nil] at hp
      simp [hp, commaPieces, htight.trim]
    | cons q ps =>
      have hblank : deepen 0 ' ' = 0 := rfl
      rw [joined_cons_cons, hwhole, commaPieces_cons, if_pos ⟨rfl, rfl⟩, List.modifyHead_cons, List.map_cons,
        List.append_nil, htight.trim, commaPieces_cons, if_neg (by decide), hblank, map_trim_modifyHead rfl,
        ih (by simp) hrest]

end Petri.Text
