import LiveMarkup.Proofs.Template.Leftmost

/-!
Templates as template literals. A literal is read character by character; what is read of the source of
a template is its parts exactly when its texts hold no backslash and nothing that reads as a field.
-/

namespace LiveMarkup

open LiveMarkup.Text LiveMarkup.Expression

namespace TemplatePart

inductive Piece where
  | char (c : Char)
  | field (name : String)
  deriving DecidableEq, Repr

def fieldOpening : List Char := "$\x7b".toList ++ "context.".toList

def fieldSource (name : List Char) : List Char := fieldOpening ++ (name ++ ['\x7d'])

/-- Reads a literal behind its opening backtick. A backslash takes the next character as it is, a field is
a field, the first backtick besides ends the literal, and all else stands for itself. -/
def readPieces? : List Char → Option (List Piece)
  | [] => none
  | c :: cs =>
    if c = '\x60' then if cs.isEmpty then some [] else none
    else if c = '\\' then
      match cs with
      | [] => none
      | d :: cs => (readPieces? cs).map (.char d :: ·)
    else
      match _h : placeholder? fieldOpening ['\x7d'] (c :: cs) with
      | some (name, rest) => (readPieces? rest).map (.field (String.ofList name) :: ·)
      | none => (readPieces? cs).map (.char c :: ·)
termination_by cs => cs.length
decreasing_by
  · exact Nat.lt_succ_of_lt (Nat.lt_succ_self _)
  · exact placeholder?_length ‹_›
  · exact Nat.lt_succ_self _

namespace Piece

def join : List Piece → List TemplatePart
  | [] => []
  | .char c :: ps => addChar c (join ps)
  | .field name :: ps => .field name :: join ps

def source : Piece → List Char
  | .char c => Template.escapeBacktick c
  | .field name => fieldSource name.toList

def body (ps : List Piece) : List Char := ps.flatMap source ++ ['\x60']

variable {m : Type → Type} [Monad m]

def evaluate (field : String → m Value) : List Piece → m String
  | [] => pure ""
  | .char c :: ps => do
    let rest ← evaluate field ps
    pure (String.ofList [c] ++ rest)
  | .field name :: ps => do
    let v ← field name
    let rest ← evaluate field ps
    pure (v.display ++ rest)

end Piece

def literal? (source : String) : Option (List Piece) :=
  match source.toList with
  | [] => none
  | c :: cs => if c = '\x60' then readPieces? cs else none

def pieces : TemplatePart → List Piece
  | .text s => s.toList.map .char
  | .field name => [.field name]

variable {cs pre rest name : List Char} {c : Char} {ps : List Piece}

theorem pieces_addChar (c : Char) (parts : List TemplatePart) :
    (addChar c parts).flatMap pieces = .char c :: parts.flatMap pieces := by
  cases parts with
  | nil => simp [addChar, pieces]
  | cons p parts => cases p <;> simp [addChar, pieces]

theorem pieces_join (ps : List Piece) : (Piece.join ps).flatMap pieces = ps := by
  induction ps with
  | nil => rfl
  | cons p ps ih =>
    cases p with
    | char c => rw [Piece.join, pieces_addChar, ih]
    | field name => rw [Piece.join, List.flatMap_cons, ih, pieces, List.singleton_append]

theorem pieces_plain (cs : List Char) : (plain cs).flatMap pieces = cs.map .char := by
  rw [plain]
  split
  · next h =>
    rw [h]
    rfl
  · simp [pieces]

theorem join_chars (cs : List Char) (h : ∀ p ∈ (Piece.join ps).head?, p.isField = true) :
    Piece.join (cs.map .char ++ ps) = plain cs ++ Piece.join ps := by
  induction cs with
  | nil => rfl
  | cons c cs ih => rw [List.map_cons, List.cons_append, Piece.join, ih, addChar_plain c cs h]

section Taken

variable {opening closing text : List Char} {parts : List TemplatePart}

theorem Taken.join (h : Taken opening closing text parts) :
    Piece.join (parts.flatMap pieces) = parts := by
  induction h with
  | @last cs _ =>
    have hchars : Piece.join (cs.map .char ++ []) = plain cs ++ Piece.join [] := join_chars cs nofun
    rwa [List.append_nil, Piece.join, List.append_nil, ← pieces_plain] at hchars
  | next _ _ ih =>
    rw [List.flatMap_append, List.flatMap_cons, pieces_plain, pieces, List.singleton_append,
      join_chars _ (by rintro _ ⟨⟩; rfl), Piece.join, ih]

theorem toSource_eq (t : Template) :
    t.toSource.toList = '\x60' :: Piece.body (t.parts.flatMap pieces) := by
  have hpart (p : TemplatePart) : (Template.partSource p).toList = (pieces p).flatMap Piece.source := by
    cases p with
    | text s =>
      rw [Template.partSource, String.toList_ofList, pieces, List.flatMap_map]
      rfl
    | field name =>
      rw [Template.partSource, fieldText, pieces, List.flatMap_singleton, Piece.source, fieldSource,
        fieldOpening]
      simp only [String.toList_append, List.append_assoc]
      rfl
  have hjoin : (String.join (t.parts.map Template.partSource)).toList =
      (t.parts.flatMap pieces).flatMap Piece.source := by
    rw [String.toList_join, List.flatMap_map, List.flatMap_assoc]
    exact List.flatMap_congr fun p _ => hpart p
  rw [Template.toSource, String.toList_append, String.toList_append, hjoin, Piece.body]
  rfl

end Taken

section Evaluate

variable {m : Type → Type} [Monad m] [LawfulMonad m]

theorem renderParts_addChar (field : String → m Value) (c : Char) (parts : List TemplatePart) :
    Template.renderParts field (addChar c parts) =
      (do
        let rest ← Template.renderParts field parts
        pure (String.ofList [c] ++ rest)) := by
  cases parts with
  | nil => simp [addChar, Template.renderParts]
  | cons p parts =>
    cases p with
    | text s =>
      have hcons (rest : String) :
          String.ofList (c :: s.toList) ++ rest = String.ofList [c] ++ (s ++ rest) := by
        refine String.toList_inj.1 ?_
        simp
      simp only [addChar, Template.renderParts, hcons, bind_assoc, pure_bind]
    | field name => simp [addChar, Template.renderParts]

theorem renderParts_join (field : String → m Value) (ps : List Piece) :
    Template.renderParts field (Piece.join ps) = Piece.evaluate field ps := by
  induction ps with
  | nil => rfl
  | cons p ps ih =>
    cases p with
    | char c => rw [Piece.join, renderParts_addChar, ih, Piece.evaluate]
    | field name => rw [Piece.join, Template.renderParts, ih, Piece.evaluate]

end Evaluate

def AtBorder (ps : List Piece) : Prop := ∀ c, .char c ∉ ps.head?

structure Legible (cs : List Char) : Prop where
  backslash : '\\' ∉ cs
  field : ∀ name, isWord name = true → ¬ fieldSource name <:+: cs

theorem legible_cons : Legible (c :: cs) ↔
    c ≠ '\\' ∧ (∀ name, isWord name = true → ¬ fieldSource name <+: c :: cs) ∧ Legible cs := by
  constructor
  · rintro ⟨hbackslash, hfield⟩
    refine ⟨fun h => hbackslash (h ▸ List.mem_cons_self ..), fun name hname h => ?_,
      fun h => hbackslash (List.mem_cons_of_mem _ h), fun name hname h => ?_⟩
    · exact hfield name hname h.isInfix
    · exact hfield name hname (List.infix_cons h)
  · rintro ⟨hc, hinitial, hbackslash, hfield⟩
    refine ⟨fun h => ?_, fun name hname h => ?_⟩
    · rcases List.mem_cons.1 h with h | h
      · exact hc h.symm
      · exact hbackslash h
    · rcases List.infix_cons_iff.1 h with h | h
      · exact hinitial name hname h
      · exact hfield name hname h

def Inert (c : Char) : Prop := c ≠ '\x60' ∧ c ≠ '\\' ∧ c ≠ '$'

instance (c : Char) : Decidable (Inert c) := inferInstanceAs (Decidable (_ ∧ _))

theorem inert_of_isWordChar (h : isWordChar c = true) : Inert c := by
  refine ⟨?_, ?_, ?_⟩ <;>
    rintro rfl <;>
    exact absurd h (by decide)

def fieldTail (name : List Char) : List Char := ('\x7b' :: "context.".toList) ++ (name ++ ['\x7d'])

theorem fieldSource_eq (name : List Char) : fieldSource name = '$' :: fieldTail name := rfl

theorem inert_of_mem_fieldTail (hname : isWord name = true) : ∀ c ∈ fieldTail name, Inert c := by
  intro c hc
  have hopening : ('\x7b' :: "context.".toList).all (fun c => decide (Inert c)) = true := by decide
  rcases List.mem_append.1 hc with hc | hc
  · exact of_decide_eq_true (List.all_eq_true.1 hopening c hc)
  · rcases List.mem_append.1 hc with hc | hc
    · exact inert_of_isWordChar (isWordChar_of_mem hname hc)
    · obtain rfl := List.mem_singleton.1 hc
      decide

theorem placeholder?_field : placeholder? fieldOpening ['\x7d'] cs = some (name, rest) ↔
    isWord name = true ∧ cs = fieldSource name ++ rest := by
  rw [placeholder?_eq_some_iff]
  constructor
  · rintro ⟨rfl, -, hname⟩
    exact ⟨hname, by simp only [fieldSource, List.append_assoc]⟩
  · rintro ⟨hname, rfl⟩
    refine ⟨by simp only [fieldSource, List.append_assoc], ⟨rfl, fun b a h => ?_⟩, hname⟩
    refine Nat.le_of_not_lt fun hlt => ?_
    have hinitial : b ++ ['\x7d'] <+: name := by
      have hinitial : b ++ ['\x7d'] <+: name ++ ['\x7d'] ++ rest := ⟨a, h.symm⟩
      refine List.prefix_of_prefix_length_le hinitial
        ⟨['\x7d'] ++ rest, (List.append_assoc ..).symm⟩ ?_
      rw [List.length_append]
      exact hlt
    have hmem : '\x7d' ∈ name := hinitial.subset (List.mem_append_right _ (List.mem_singleton_self _))
    exact absurd (isWordChar_of_mem hname hmem) (by decide)

theorem readPieces?_end : readPieces? ['\x60'] = some [] := by
  rw [readPieces?]
  rfl

theorem readPieces?_escaped (c : Char) (cs : List Char) :
    readPieces? ('\\' :: c :: cs) = (readPieces? cs).map (.char c :: ·) := by
  rw [readPieces?]
  rfl

theorem readPieces?_field (hname : isWord name = true) (rest : List Char) :
    readPieces? (fieldSource name ++ rest) =
      (readPieces? rest).map (.field (String.ofList name) :: ·) := by
  have hplace : placeholder? fieldOpening ['\x7d'] (fieldSource name ++ rest) = some (name, rest) :=
    placeholder?_field.2 ⟨hname, rfl⟩
  rw [fieldSource_eq, List.cons_append] at hplace ⊢
  rw [readPieces?.eq_def]
  dsimp only
  rw [if_neg (by decide), if_neg (by decide)]
  split
  · next hsome =>
    cases hplace.symm.trans hsome
    rfl
  · next hnone => cases hplace.symm.trans hnone

theorem readPieces?_char (hbacktick : c ≠ '\x60') (hbackslash : c ≠ '\\')
    (hfield : ∀ name, isWord name = true → ¬ fieldSource name <+: c :: cs) :
    readPieces? (c :: cs) = (readPieces? cs).map (.char c :: ·) := by
  rw [readPieces?.eq_def]
  dsimp only
  rw [if_neg hbacktick, if_neg hbackslash]
  split
  · next hsome =>
    obtain ⟨hname, htext⟩ := placeholder?_field.1 hsome
    exact absurd ⟨_, htext.symm⟩ (hfield _ hname)
  · rfl

theorem body_char (h : c ≠ '\x60') : Piece.body (.char c :: ps) = c :: Piece.body ps := by
  simp [Piece.body, Piece.source, Template.escapeBacktick, h]

theorem body_backtick : Piece.body (.char '\x60' :: ps) = '\\' :: '\x60' :: Piece.body ps := rfl

theorem body_field (name : String) :
    Piece.body (.field name :: ps) = fieldSource name.toList ++ Piece.body ps := by
  rw [Piece.body, List.flatMap_cons, List.append_assoc]
  rfl

theorem body_chars (h : ∀ c ∈ pre, Inert c) :
    Piece.body (pre.map .char ++ ps) = pre ++ Piece.body ps := by
  induction pre with
  | nil => rfl
  | cons c pre ih =>
    rw [List.map_cons, List.cons_append, body_char (h c (List.mem_cons_self ..)).1,
      ih fun d hd => h d (List.mem_cons_of_mem _ hd), List.cons_append]

theorem chars_of_body (hpre : ∀ c ∈ pre, Inert c) (h : Piece.body ps = pre ++ rest) :
    ∃ qs, ps = pre.map .char ++ qs ∧ rest = Piece.body qs := by
  induction pre generalizing ps with
  | nil => exact ⟨ps, rfl, h.symm⟩
  | cons c pre ih =>
    obtain ⟨hbacktick, hbackslash, hdollar⟩ := hpre c (List.mem_cons_self ..)
    cases ps with
    | nil => exact absurd (List.cons.inj h).1.symm hbacktick
    | cons p ps =>
      cases p with
      | field name => exact absurd (List.cons.inj h).1.symm hdollar
      | char d =>
        by_cases hd : d = '\x60'
        · subst hd
          exact absurd (List.cons.inj h).1.symm hbackslash
        · rw [body_char hd] at h
          obtain ⟨rfl, htail⟩ := List.cons.inj h
          obtain ⟨qs, rfl, hrest⟩ := ih (fun c hc => hpre c (List.mem_cons_of_mem _ hc)) htail
          exact ⟨qs, rfl, hrest⟩

theorem prefix_of_chars (hborder : AtBorder ps)
    (h : pre.map .char <+: cs.map Piece.char ++ ps) : pre <+: cs := by
  induction pre generalizing cs with
  | nil => exact List.nil_prefix
  | cons c pre ih =>
    cases cs with
    | nil =>
      obtain ⟨rest, hrest⟩ := h
      have hps : .char c :: (pre.map .char ++ rest) = ps := hrest
      exact absurd (hps ▸ rfl) (hborder c)
    | cons d cs =>
      obtain ⟨hc, htail⟩ := List.cons_prefix_cons.1 h
      cases hc
      exact List.cons_prefix_cons.2 ⟨rfl, ih htail⟩

theorem fieldSource_prefix_iff (hname : isWord name = true) (hborder : AtBorder ps) :
    fieldSource name <+: c :: Piece.body (cs.map .char ++ ps) ↔ fieldSource name <+: c :: cs := by
  rw [fieldSource_eq, List.cons_prefix_cons, List.cons_prefix_cons]
  refine and_congr_right fun _ => ?_
  have hinert := inert_of_mem_fieldTail hname
  constructor
  · rintro ⟨rest, hrest⟩
    obtain ⟨qs, hqs, -⟩ := chars_of_body hinert hrest.symm
    exact prefix_of_chars hborder ⟨qs, hqs.symm⟩
  · rintro ⟨more, rfl⟩
    rw [List.map_append, List.append_assoc, body_chars hinert]
    exact ⟨_, rfl⟩

theorem length_body_le (h : readPieces? cs = some ps) : (Piece.body ps).length ≤ cs.length := by
  have length_char (c : Char) (ps : List Piece) :
      (Piece.body (.char c :: ps)).length ≤ (Piece.body ps).length + 2 := by
    by_cases hc : c = '\x60'
    · subst hc
      rw [body_backtick]
      exact Nat.le_refl _
    · rw [body_char hc]
      exact Nat.le_succ _
  fun_induction readPieces? cs generalizing ps with
  | case1 => cases h
  | case2 =>
    cases h
    exact Nat.succ_le_succ (Nat.zero_le _)
  | case3 => cases h
  | case4 => cases h
  | case5 d cs _ ih =>
    obtain ⟨qs, hqs, rfl⟩ := Option.map_eq_some_iff.1 h
    exact Nat.le_trans (length_char d qs) (Nat.add_le_add_right (ih hqs) 2)
  | case6 c cs _ _ name rest hplace ih =>
    obtain ⟨qs, hqs, rfl⟩ := Option.map_eq_some_iff.1 h
    rw [(placeholder?_field.1 hplace).2, body_field, String.toList_ofList, List.length_append,
      List.length_append]
    exact Nat.add_le_add_left (ih hqs) _
  | case7 c cs hbacktick _ _ ih =>
    obtain ⟨qs, hqs, rfl⟩ := Option.map_eq_some_iff.1 h
    rw [body_char hbacktick]
    exact Nat.succ_le_succ (ih hqs)

theorem readPieces?_backslash (ps : List Piece) :
    readPieces? (Piece.body (.char '\\' :: ps)) ≠ some (.char '\\' :: ps) := by
  -- the backslash takes the character behind it, and what is left of the literal is too short
  intro h
  obtain ⟨d, rest, hbody⟩ := List.exists_cons_of_ne_nil
    (List.append_ne_nil_of_right_ne_nil (ps.flatMap Piece.source) (List.cons_ne_nil '\x60' []))
  have hbody : Piece.body ps = d :: rest := hbody
  rw [body_char (by decide), hbody, readPieces?_escaped] at h
  obtain ⟨qs, hqs, heq⟩ := Option.map_eq_some_iff.1 h
  obtain ⟨-, rfl⟩ := List.cons.inj heq
  have hlength := length_body_le hqs
  rw [hbody] at hlength
  exact absurd hlength (Nat.not_succ_le_self _)

theorem readPieces?_text (hborder : AtBorder ps) :
    readPieces? (Piece.body (cs.map .char ++ ps)) = some (cs.map .char ++ ps) ↔
      Legible cs ∧ readPieces? (Piece.body ps) = some ps := by
  induction cs with
  | nil =>
    refine (and_iff_right ⟨nofun, fun name _ h => ?_⟩).symm
    exact absurd (List.infix_nil.1 h) (List.cons_ne_nil _ _)
  | cons c cs ih =>
    have hmap {rest : List Char} : (readPieces? rest).map (Piece.char c :: ·) =
        some (.char c :: (cs.map .char ++ ps)) ↔ readPieces? rest = some (cs.map .char ++ ps) := by
      simp
    rw [List.map_cons, List.cons_append, legible_cons]
    by_cases hbacktick : c = '\x60'
    · subst hbacktick
      have hfield (name : List Char) : ¬ fieldSource name <+: '\x60' :: cs := by
        rw [fieldSource_eq, List.cons_prefix_cons]
        exact fun h => absurd h.1 (by decide)
      rw [body_backtick, readPieces?_escaped, hmap, ih,
        and_iff_right (show '\x60' ≠ '\\' by decide), and_iff_right fun name _ => hfield name]
    by_cases hbackslash : c = '\\'
    · subst hbackslash
      exact iff_of_false (readPieces?_backslash _) fun h => h.1.1 rfl
    · rw [body_char hbacktick, and_iff_right hbackslash]
      by_cases hfield : ∀ name, isWord name = true → ¬ fieldSource name <+: c :: cs
      · have hnone (name : List Char) (hname : isWord name = true) :
            ¬ fieldSource name <+: c :: Piece.body (cs.map .char ++ ps) :=
          mt (fieldSource_prefix_iff hname hborder).1 (hfield name hname)
        rw [readPieces?_char hbacktick hbackslash hnone, hmap, ih, and_iff_right hfield]
      · refine iff_of_false (fun h => hfield fun name hname hinitial => ?_) fun h => hfield h.1.1
        obtain ⟨rest, hrest⟩ := (fieldSource_prefix_iff hname hborder).2 hinitial
        rw [← hrest, readPieces?_field hname] at h
        obtain ⟨qs, -, heq⟩ := Option.map_eq_some_iff.1 h
        cases heq

theorem readPieces?_field_iff (hname : isWord name = true) :
    readPieces? (Piece.body (.field (String.ofList name) :: ps)) =
        some (.field (String.ofList name) :: ps) ↔
      readPieces? (Piece.body ps) = some ps := by
  rw [body_field, String.toList_ofList, readPieces?_field hname]
  simp

def LegibleTexts (parts : List TemplatePart) : Prop := ∀ s, .text s ∈ parts → Legible s.toList

theorem legibleTexts_append {front back : List TemplatePart} :
    LegibleTexts (front ++ back) ↔ LegibleTexts front ∧ LegibleTexts back := by
  simp only [LegibleTexts, List.mem_append, or_imp, forall_and]

theorem legibleTexts_field {name : String} {parts : List TemplatePart} :
    LegibleTexts (.field name :: parts) ↔ LegibleTexts parts := by
  simp [LegibleTexts]

theorem legibleTexts_plain : LegibleTexts (plain cs) ↔ Legible cs := by
  rw [plain]
  split
  · next h =>
    rw [h]
    refine iff_of_true (fun s hs => absurd hs List.not_mem_nil)
      ⟨List.not_mem_nil, fun name _ hwithin => ?_⟩
    exact absurd (List.infix_nil.1 hwithin) (List.cons_ne_nil _ _)
  · simp [LegibleTexts]

theorem Taken.readPieces?_iff {opening closing text : List Char} {parts : List TemplatePart}
    (h : Taken opening closing text parts) :
    readPieces? (Piece.body (parts.flatMap pieces)) = some (parts.flatMap pieces) ↔
      LegibleTexts parts := by
  induction h with
  | @last cs _ =>
    have htext : readPieces? (Piece.body (cs.map .char ++ [])) = some (cs.map .char ++ []) ↔
        Legible cs ∧ readPieces? (Piece.body []) = some [] := readPieces?_text nofun
    rw [List.append_nil] at htext
    rw [pieces_plain, htext, legibleTexts_plain]
    exact and_iff_left readPieces?_end
  | next h _ ih =>
    rw [List.flatMap_append, List.flatMap_cons, pieces_plain, pieces, List.singleton_append,
      readPieces?_text (by rintro c ⟨⟩), readPieces?_field_iff h.here.word, ih, legibleTexts_append,
      legibleTexts_plain, legibleTexts_field]

end TemplatePart

namespace Template

open TemplatePart

variable {opening closing text : String} {t : Template}

def readLiteral? (source : String) : Option (List TemplatePart) := (literal? source).map Piece.join

def evaluateLiteral? {m : Type → Type} [Monad m] (field : String → m Value) (source : String) :
    Option (m String) :=
  (literal? source).map (Piece.evaluate field)

theorem taken_of_ofText? (h : ofText? opening closing text = some t) :
    Taken opening.toList closing.toList text.toList t.parts :=
  parts_of_ofText? h ▸ taken_scan ..

theorem literal?_toSource (t : Template) :
    literal? t.toSource = readPieces? (Piece.body (t.parts.flatMap pieces)) := by
  rw [literal?, toSource_eq]
  rfl

theorem readLiteral?_toSource_iff (h : ofText? opening closing text = some t) :
    readLiteral? t.toSource = some t.parts ↔ LegibleTexts t.parts := by
  have htaken := taken_of_ofText? h
  rw [readLiteral?, literal?_toSource, ← htaken.readPieces?_iff]
  constructor
  · intro hread
    obtain ⟨ps, hps, hjoin⟩ := Option.map_eq_some_iff.1 hread
    rw [hps, ← pieces_join ps, hjoin]
  · intro hread
    rw [hread, Option.map_some, htaken.join]

theorem evaluateLiteral?_toSource {m : Type → Type} [Monad m] [LawfulMonad m]
    (h : ofText? opening closing text = some t) (hlegible : LegibleTexts t.parts)
    (field : String → m Value) : evaluateLiteral? field t.toSource = some (t.render field) := by
  have htaken := taken_of_ofText? h
  rw [evaluateLiteral?, literal?_toSource, htaken.readPieces?_iff.2 hlegible, Option.map_some,
    ← renderParts_join, htaken.join, render]

/-- The source of a template reads back as its parts exactly when no text of it holds a backslash or what
reads as a field. Then evaluating the source renders the template, and no other parts have that source. -/
theorem toSource_literal (h : ofText? opening closing text = some t) :
    (readLiteral? t.toSource = some t.parts ↔ LegibleTexts t.parts) ∧
      (LegibleTexts t.parts →
        (∀ {m : Type → Type} [Monad m] [LawfulMonad m] (field : String → m Value),
          evaluateLiteral? field t.toSource = some (t.render field)) ∧
        ∀ opening' closing' text' t', ofText? opening' closing' text' = some t' →
          LegibleTexts t'.parts → t.parts ≠ t'.parts → t.toSource ≠ t'.toSource) := by
  refine ⟨readLiteral?_toSource_iff h, fun hlegible =>
    ⟨evaluateLiteral?_toSource h hlegible, fun _ _ _ t' h' hlegible' hne hsource => hne ?_⟩⟩
  have hread := (readLiteral?_toSource_iff h).2 hlegible
  rw [hsource, (readLiteral?_toSource_iff h').2 hlegible'] at hread
  exact (Option.some.inj hread).symm

theorem toSource_literal_backticks :
    ofText? "[[" "]]" "\x60[[x]]\x60, $[[y]]" =
        some ⟨[.text "\x60", .field "x", .text "\x60, $", .field "y"]⟩ ∧
      LegibleTexts [.text "\x60", .field "x", .text "\x60, $", .field "y"] ∧
      ∀ field : String → Id Value, evaluateLiteral? field
          (toSource ⟨[.text "\x60", .field "x", .text "\x60, $", .field "y"]⟩) =
        some (render ⟨[.text "\x60", .field "x", .text "\x60, $", .field "y"]⟩ field) := by
  have h : ofText? "[[" "]]" "\x60[[x]]\x60, $[[y]]" =
      some ⟨[.text "\x60", .field "x", .text "\x60, $", .field "y"]⟩ := by decide +kernel
  obtain ⟨hread, hlegible⟩ := toSource_literal h
  have hlegible' := hread.1 (by decide +kernel)
  exact ⟨h, hlegible', (hlegible hlegible').1⟩

/-- A backslash takes the field that follows, and a text that reads as a field is one. -/
theorem toSource_not_literal :
    (ofText? "[[" "]]" "a\\[[x]]" = some ⟨[.text "a\\", .field "x"]⟩ ∧
      readLiteral? (toSource ⟨[.text "a\\", .field "x"]⟩) =
        some [.text "a$\x7bcontext.x\x7d"]) ∧
    ofText? "[[" "]]" "$\x7bcontext.x\x7d[[y]]" =
        some ⟨[.text "$\x7bcontext.x\x7d", .field "y"]⟩ ∧
      ofText? "[[" "]]" "[[x]][[y]]" = some ⟨[.field "x", .field "y"]⟩ ∧
      toSource ⟨[.text "$\x7bcontext.x\x7d", .field "y"]⟩ = toSource ⟨[.field "x", .field "y"]⟩ := by
  decide +kernel

end Template

end LiveMarkup
