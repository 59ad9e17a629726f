import LiveMarkup.Markup.Tree
import LiveMarkup.Proofs.Text.Cutting
import Mathlib.Data.List.Chain
import Mathlib.Data.List.Infix

/-!
Printed markup under the scanner. Each printed piece is read as the one item that it stands for, and
the scanner goes on right behind it.
-/

namespace LiveMarkup.Markup

open LiveMarkup.Text

def isPlainChar (c : Char) : Bool := isNameChar c && !c.isUpper

def isTagName : List Char → Bool
  | [] => false
  | c :: cs => c.isLower && cs.all isPlainChar

/-- A name as the scanner finds it: only its first character may be an equals sign. -/
def isWrittenName : List Char → Bool
  | [] => false
  | c :: cs => isPlainChar c && cs.all fun c => isPlainChar c && c != '='

theorem isUpper_iff {c : Char} : c.isUpper = true ↔ 65 ≤ c.toNat ∧ c.toNat ≤ 90 :=
  decide_eq_true_iff

theorem isLower_iff {c : Char} : c.isLower = true ↔ 97 ≤ c.toNat ∧ c.toNat ≤ 122 :=
  Bool.and_eq_true_iff.trans (and_congr decide_eq_true_iff decide_eq_true_iff)

theorem isAlpha_iff {c : Char} : c.isAlpha = true ↔ c.isUpper = true ∨ c.isLower = true :=
  Bool.or_eq_true_iff

theorem not_isUpper_of_isLower {c : Char} (h : c.isLower = true) : c.isUpper = false := by
  rw [Bool.eq_false_iff, ne_eq, isUpper_iff]
  rw [isLower_iff] at h
  omega

theorem isNameChar_of_isAlpha {c : Char} (h : c.isAlpha = true) : isNameChar c = true := by
  have hword : isWordChar c = true := by simp [isWordChar, Char.isAlphanum, h]
  have hs := not_isSpace_of_isWordChar hword
  have hne (d : Char) (hd : d.isAlpha = false) : c ≠ d := by
    rintro rfl
    rw [hd] at h
    cases h
  simp [isNameChar, hs, hne '/' (by decide), hne '>' (by decide)]

theorem isPlainChar_of_isLower {c : Char} (h : c.isLower = true) : isPlainChar c = true := by
  have hn : isNameChar c = true := isNameChar_of_isAlpha (isAlpha_iff.2 (.inr h))
  simp [isPlainChar, hn, not_isUpper_of_isLower h]

theorem isNameChar_of_isPlainChar {c : Char} (h : isPlainChar c = true) : isNameChar c = true := by
  simp only [isPlainChar, Bool.and_eq_true] at h
  exact h.1

theorem isSpace_of_isNameChar {c : Char} (h : isNameChar c = true) : isSpace c = false := by
  simp only [isNameChar, Bool.not_eq_true', Bool.or_eq_false_iff] at h
  exact h.2

theorem ne_slash_of_isNameChar {c : Char} (h : isNameChar c = true) : c ≠ '/' := by
  rintro rfl
  revert h
  decide

theorem ne_close_of_isNameChar {c : Char} (h : isNameChar c = true) : c ≠ '>' := by
  rintro rfl
  revert h
  decide

theorem plain_of_isTagName {cs : List Char} (h : isTagName cs = true) :
    ∀ c ∈ cs, isPlainChar c = true := by
  cases cs with
  | nil => nofun
  | cons c cs =>
    simp only [isTagName, Bool.and_eq_true, List.all_eq_true] at h
    intro d hd
    rcases List.mem_cons.1 hd with rfl | hd
    · exact isPlainChar_of_isLower h.1
    · exact h.2 d hd

theorem plain_of_isWrittenName {cs : List Char} (h : isWrittenName cs = true) :
    ∀ c ∈ cs, isPlainChar c = true := by
  cases cs with
  | nil => nofun
  | cons c cs =>
    simp only [isWrittenName, Bool.and_eq_true, List.all_eq_true] at h
    intro d hd
    rcases List.mem_cons.1 hd with rfl | hd
    · exact h.1
    · exact (h.2 d hd).1

theorem toLower_of_not_isUpper {c : Char} (h : c.isUpper = false) : c.toLower = c := by
  unfold Char.toLower
  rw [dif_neg]
  exact fun hu => Bool.eq_false_iff.1 h (decide_eq_true hu)

theorem asciiLower_of_plain {s : String} (h : ∀ c ∈ s.toList, isPlainChar c = true) :
    s.asciiLower = s := by
  apply String.toList_inj.1
  rw [String.asciiLower, String.toList_map]
  refine (List.map_congr_left fun c hc => ?_).trans (List.map_id' s.toList)
  have hp := h c hc
  simp only [isPlainChar, Bool.and_eq_true, Bool.not_eq_true'] at hp
  exact toLower_of_not_isUpper hp.2

theorem items_cons (c : Char) (cs : List Char) :
    items (c :: cs) = (next c cs).1.toList ++ items (next c cs).2 := by rw [items]

theorem opensMarkup_of_ne {c : Char} (h : c ≠ '<') (cs : List Char) :
    opensMarkup (c :: cs) = false := by
  unfold opensMarkup
  split
  · next heq => exact absurd (List.cons.inj heq).1 h
  · rfl

def EndsText (rest : List Char) : Prop := rest = [] ∨ opensMarkup rest = true

theorem splitMarkup_append_of_not_mem {text rest : List Char} (h : '<' ∉ text)
    (hr : EndsText rest) : splitMarkup (text ++ rest) = (text, rest) := by
  induction text with
  | nil =>
    cases rest with
    | nil => rfl
    | cons c cs =>
      have hopens : opensMarkup (c :: cs) = true := hr.resolve_left (List.cons_ne_nil _ _)
      rw [List.nil_append, splitMarkup, if_pos hopens]
  | cons c text ih =>
    obtain ⟨hne, hmem⟩ := List.ne_and_not_mem_of_not_mem_cons h
    rw [List.cons_append, splitMarkup, if_neg, ih hmem]
    rw [opensMarkup_of_ne (Ne.symm hne)]
    exact Bool.false_ne_true

theorem items_text {text rest : List Char} (hne : text ≠ []) (h : '<' ∉ text) (hr : EndsText rest) :
    items (text ++ rest) = .text (String.ofList text) :: items rest := by
  cases text with
  | nil => exact absurd rfl hne
  | cons c text =>
    obtain ⟨hc, hmem⟩ := List.ne_and_not_mem_of_not_mem_cons h
    have hnext : next c (text ++ rest) = (some (.text (String.ofList (c :: text))), rest) := by
      simp only [next, opensMarkup_of_ne (Ne.symm hc), splitMarkup_append_of_not_mem hmem hr,
        Bool.false_eq_true, if_false]
    rw [List.cons_append, items_cons, hnext]
    rfl

theorem splitText_commentEnd {body : List Char} (h : ¬commentEnd <:+: body) (rest : List Char) :
    splitText commentEnd (body ++ commentEnd ++ rest) = some (body, rest) := by
  induction body with
  | nil => rfl
  | cons c body ih =>
    have hnone : behind? commentEnd (c :: body ++ commentEnd ++ rest) = none := by
      -- an end that begins here would lie within the body, or the body would end in a hyphen more
      cases hb : behind? commentEnd (c :: body ++ commentEnd ++ rest) with
      | none => rfl
      | some after =>
        have heq := behind?_eq_some.1 hb
        match body with
        | [] => simp [commentEnd] at heq
        | [d] => simp [commentEnd] at heq
        | d :: e :: body =>
          simp only [commentEnd, List.cons_append, List.nil_append, List.cons.injEq] at heq
          obtain ⟨rfl, rfl, rfl, -⟩ := heq
          exact absurd ⟨[], body, rfl⟩ h
    have hbody : ¬commentEnd <:+: body := fun hi => h (List.infix_cons_iff.2 (.inr hi))
    have hrest := ih hbody
    rw [List.cons_append, List.cons_append] at hnone ⊢
    rw [splitText, hnone, hrest]
    rfl

theorem items_comment {body : List Char} (h : ¬commentEnd <:+: body) (rest : List Char) :
    items ('<' :: '!' :: '-' :: '-' :: body ++ commentEnd ++ rest) =
      .comment (String.ofList body) :: items rest := by
  have hcomment : comment (body ++ commentEnd ++ rest) = (.comment (String.ofList body), rest) := by
    rw [comment, splitText_commentEnd h]
    rfl
  have hnext : next '<' ('!' :: '-' :: '-' :: (body ++ commentEnd ++ rest)) =
      (some (.comment (String.ofList body)), rest) := by
    simp only [next, opensMarkup, BEq.rfl, Bool.true_or, if_true, hcomment]
  simp only [List.cons_append]
  rw [items_cons, hnext]
  rfl

theorem items_printEnd {tag : String} (h : isTagName tag.toList = true) (rest : List Char) :
    items (printEnd tag ++ rest) = .stop tag :: items rest := by
  have hname (c) (hc : c ∈ tag.toList) : isNameChar c = true :=
    isNameChar_of_isPlainChar (plain_of_isTagName h c hc)
  have hclose : '>' ∉ tag.toList := fun hc => ne_close_of_isNameChar (hname _ hc) rfl
  have hspace (c) (hc : c ∈ tag.toList) : (!isSpace c) = true := by
    rw [isSpace_of_isNameChar (hname c hc)]
    rfl
  have hdrop : tag.toList.dropWhile isSpace = tag.toList := by
    cases hcs : tag.toList with
    | nil => rfl
    | cons c cs =>
      have hc := isSpace_of_isNameChar (hname c (hcs ▸ List.mem_cons_self ..))
      rw [List.dropWhile_cons, hc]
      rfl
  have htake : tag.toList.takeWhile (!isSpace ·) = tag.toList := by
    have happend : (tag.toList ++ []).takeWhile (!isSpace ·) = tag.toList ++ [] :=
      List.takeWhile_append_of_pos hspace
    rwa [List.append_nil] at happend
  have hne : tag.toList.isEmpty = false := by
    cases hcs : tag.toList with
    | nil =>
      rw [hcs] at h
      cases h
    | cons c cs => rfl
  have hend : endTag (tag.toList ++ '>' :: rest) = (some (.stop tag), rest) := by
    simp only [endTag, splitFirst_append rest hclose, hdrop, htake, hne, String.ofList_toList]
    rfl
  have hnext : next '<' ('/' :: (tag.toList ++ '>' :: rest)) = (some (.stop tag), rest) := by
    simp [next, opensMarkup, hend]
  have hprint : printEnd tag ++ rest = '<' :: '/' :: (tag.toList ++ '>' :: rest) := by
    simp [printEnd]
  rw [hprint, items_cons, hnext]
  rfl

def writtenAttribute (a : String × String) : WrittenAttribute :=
  (a.1, if a.2.isEmpty then none else some (String.ofList (escapeAttribute a.2.toList)))

structure Attributes.Named (as : Attributes) : Prop where
  names : ∀ a ∈ as, isWrittenName a.1.toList = true
  nodup : (as.map Prod.fst).Nodup

/-- No attribute that is printed without a value stands before one whose name begins like a value. -/
def Attributes.Apart (as : Attributes) : Prop :=
  as.IsChain fun a b => a.2 = "" → b.1.toList.head? ≠ some '='

structure Attributes.Legible (as : Attributes) : Prop extends as.Named where
  apart : as.Apart

theorem Attributes.Legible.tail {a : String × String} {as : Attributes}
    (h : Attributes.Legible (a :: as)) : Attributes.Legible as where
  names b hb := h.names b (List.mem_cons_of_mem _ hb)
  nodup := (List.nodup_cons.1 h.nodup).2
  apart := (List.isChain_cons.1 h.apart).2

theorem quote_not_mem_escapeAttribute (cs : List Char) : '"' ∉ escapeAttribute cs := by
  intro h
  obtain ⟨c, -, hc⟩ := List.mem_flatMap.1 h
  unfold escapeAttributeChar at hc
  split at hc
  · revert hc
    decide
  · next hne =>
    unfold escapeTextChar at hc
    split at hc
    · revert hc
      decide
    · revert hc
      decide
    · revert hc
      decide
    · exact hne (List.mem_singleton.1 hc).symm

theorem takeWhile_name {cs : List Char}
    (h : cs.all (fun c => isPlainChar c && c != '=') = true) {d : Char}
    (hd : isAttributeNameChar d = false) (rest : List Char) :
    (cs ++ d :: rest).takeWhile isAttributeNameChar = cs ∧
      (cs ++ d :: rest).dropWhile isAttributeNameChar = d :: rest := by
  have hpos (c) (hc : c ∈ cs) : isAttributeNameChar c = true := by
    have hc := List.all_eq_true.1 h c hc
    rw [Bool.and_eq_true] at hc
    rw [isAttributeNameChar, isNameChar_of_isPlainChar hc.1, hc.2]
    rfl
  refine run_append hpos fun c hc => ?_
  cases hc
  exact hd

theorem open_not_mem_escapeText (cs : List Char) : '<' ∉ escapeText cs := by
  intro h
  obtain ⟨c, -, hc⟩ := List.mem_flatMap.1 h
  unfold escapeTextChar at hc
  split at hc
  · revert hc
    decide
  · revert hc
    decide
  · revert hc
    decide
  · next hne _ => exact hne (List.mem_singleton.1 hc).symm

def printRest (as : Attributes) (rest : List Char) : List Char :=
  as.flatMap printAttribute ++ '>' :: rest

theorem printRest_cons (a : String × String) (as : Attributes) (rest : List Char) :
    printRest (a :: as) rest = ' ' :: (a.1.toList ++
      ((if a.2.isEmpty then [] else '=' :: '"' :: escapeAttribute a.2.toList ++ ['"']) ++
        printRest as rest)) := by
  simp [printRest, printAttribute]

theorem printRest_head (as : Attributes) (rest : List Char) :
    ∃ d ds, printRest as rest = d :: ds ∧ isNameChar d = false := by
  cases as with
  | nil => exact ⟨'>', rest, rfl, by decide⟩
  | cons a as => exact ⟨' ', _, printRest_cons a as rest, by decide⟩

theorem isAttributeNameChar_of_not {d : Char} (h : isNameChar d = false) :
    isAttributeNameChar d = false := by
  rw [isAttributeNameChar, h]
  rfl

theorem dropWhile_isSpace_printRest {as : Attributes} (h : as.Legible)
    (hhead : ∀ b ∈ as.head?, b.1.toList.head? ≠ some '=') (rest : List Char) :
    ∃ d ds, (printRest as rest).dropWhile isSpace = d :: ds ∧ d ≠ '=' := by
  cases as with
  | nil => exact ⟨'>', rest, rfl, by decide⟩
  | cons a as =>
    have hname := h.names a (List.mem_cons_self ..)
    cases hcs : a.1.toList with
    | nil =>
      rw [hcs] at hname
      cases hname
    | cons c cs =>
      have hc := plain_of_isWrittenName hname c (hcs ▸ List.mem_cons_self ..)
      have hspace := isSpace_of_isNameChar (isNameChar_of_isPlainChar hc)
      have hne : c ≠ '=' := by
        rintro rfl
        exact hhead a rfl (by rw [hcs]; rfl)
      have hshape : printRest (a :: as) rest = ' ' :: c :: (cs ++
          ((if a.2.isEmpty then [] else '=' :: '"' :: escapeAttribute a.2.toList ++ ['"']) ++
            printRest as rest)) := by rw [printRest_cons, hcs, List.cons_append]
      rw [hshape, List.dropWhile_cons, if_pos (by decide), List.dropWhile_cons, hspace]
      exact ⟨c, _, rfl, hne⟩

theorem readAttribute_printed {a : String × String} {as : Attributes} {c : Char} {cs : List Char}
    (h : Attributes.Legible (a :: as)) (hcs : a.1.toList = c :: cs) (rest : List Char) :
    readAttribute c (cs ++
      ((if a.2.isEmpty then [] else '=' :: '"' :: escapeAttribute a.2.toList ++ ['"']) ++
        printRest as rest)) = (writtenAttribute a, printRest as rest) := by
  have hname := h.names a (List.mem_cons_self ..)
  rw [hcs, isWrittenName, Bool.and_eq_true] at hname
  have hofList : String.ofList (c :: cs) = a.1 := by rw [← hcs, String.ofList_toList]
  cases hv : a.2.isEmpty with
  | true =>
    obtain ⟨d, ds, hrest, hd⟩ := printRest_head as rest
    obtain ⟨htake, hdrop⟩ := takeWhile_name hname.2 (isAttributeNameChar_of_not hd) ds
    rw [← hrest] at htake hdrop
    have hhead : ∀ b ∈ as.head?, b.1.toList.head? ≠ some '=' := fun b hb =>
      (List.isChain_cons.1 h.apart).1 b hb (String.isEmpty_iff.1 hv)
    obtain ⟨e, es, hspace, he⟩ := dropWhile_isSpace_printRest h.tail hhead rest
    rw [if_pos rfl, List.nil_append, readAttribute, htake, hdrop, hspace, hofList, writtenAttribute,
      hv]
    simp only [if_true]
    split
    · next heq => exact absurd (List.cons.inj heq).1 he
    · rfl
  | false =>
    have hshape : ('=' :: '"' :: escapeAttribute a.2.toList ++ ['"']) ++ printRest as rest =
        '=' :: '"' :: (escapeAttribute a.2.toList ++ '"' :: printRest as rest) := by simp
    obtain ⟨htake, hdrop⟩ := takeWhile_name hname.2 (d := '=') (by decide)
      ('"' :: (escapeAttribute a.2.toList ++ '"' :: printRest as rest))
    have hvalue : attributeValue ('"' :: (escapeAttribute a.2.toList ++ '"' :: printRest as rest)) =
        (escapeAttribute a.2.toList, printRest as rest) := by
      rw [attributeValue, quotedValue, splitFirst_append _ (quote_not_mem_escapeAttribute _)]
      rfl
    have hsign (ds : List Char) : ('=' :: ds).dropWhile isSpace = '=' :: ds := rfl
    have hquote (ds : List Char) : ('"' :: ds).dropWhile isSpace = '"' :: ds := rfl
    rw [if_neg Bool.false_ne_true, hshape, readAttribute, htake, hdrop, hofList, writtenAttribute, hv]
    simp only [hsign, hquote, hvalue, Bool.false_eq_true, if_false]

theorem tagBody_printRest {as : Attributes} (h : as.Legible) (rest : List Char) :
    tagBody (printRest as rest) = (⟨as.map writtenAttribute, false⟩, rest) := by
  induction as with
  | nil =>
    rw [printRest, List.flatMap_nil, List.nil_append, tagBody]
    rfl
  | cons a as ih =>
    have hname := h.names a (List.mem_cons_self ..)
    cases hcs : a.1.toList with
    | nil =>
      rw [hcs] at hname
      cases hname
    | cons c cs =>
      have hc := isNameChar_of_isPlainChar
        (plain_of_isWrittenName hname c (hcs ▸ List.mem_cons_self ..))
      have hskip (ds : List Char) : tagBody (' ' :: ds) = tagBody ds := by
        rw [tagBody]
        · rfl
        · decide
        · intro _ heq
          exact absurd heq (by decide)
      rw [printRest_cons, hskip, hcs, List.cons_append, tagBody,
        readAttribute_printed h hcs, ih h.tail]
      · simp [isSpace_of_isNameChar hc, ne_slash_of_isNameChar hc]
      · exact ne_close_of_isNameChar hc
      · intro _ heq
        exact absurd heq (ne_slash_of_isNameChar hc)

theorem items_printStart {tag : String} {as : Attributes} (ht : isTagName tag.toList = true)
    (ha : as.Legible) (rest : List Char) :
    items (printStart tag as ++ rest) =
      .start tag (as.map writtenAttribute) false :: items rest := by
  have hname (c) (hc : c ∈ tag.toList) : isNameChar c = true :=
    isNameChar_of_isPlainChar (plain_of_isTagName ht c hc)
  obtain ⟨d, ds, hrest, hd⟩ := printRest_head as rest
  have hends : ∀ c ∈ (printRest as rest).head?, isNameChar c = false := by
    rw [hrest]
    rintro c ⟨⟩
    exact hd
  obtain ⟨htake, hdrop⟩ := run_append hname hends
  have hstart : startTag (tag.toList ++ printRest as rest) =
      (.start tag (as.map writtenAttribute) false, rest) := by
    rw [startTag, htake, hdrop, tagBody_printRest ha, String.ofList_toList]
  have hprint : printStart tag as ++ rest = '<' :: (tag.toList ++ printRest as rest) := by
    simp [printStart, printRest]
  cases hcs : tag.toList with
  | nil =>
    rw [hcs] at ht
    cases ht
  | cons c cs =>
    rw [hcs, isTagName, Bool.and_eq_true] at ht
    have halpha : c.isAlpha = true := isAlpha_iff.2 (.inr ht.1)
    have hne (e : Char) (he : e.isAlpha = false) (es : List Char) :
        tag.toList ++ printRest as rest ≠ e :: es := by
      intro heq
      rw [hcs, List.cons_append] at heq
      rw [← (List.cons.inj heq).1, halpha] at he
      cases he
    have hopens : opensMarkup ('<' :: (tag.toList ++ printRest as rest)) = true := by
      rw [hcs]
      simp [opensMarkup, halpha]
    have hnext : next '<' (tag.toList ++ printRest as rest) =
        (some (.start tag (as.map writtenAttribute) false), rest) := by
      rw [next, if_pos hopens, hstart]
      · exact fun _ => hne '!' (by decide) _
      · exact fun _ => hne '!' (by decide) _
      · exact fun _ => hne '?' (by decide) _
      · exact fun _ => hne '/' (by decide) _
    rw [hprint, items_cons, hnext]
    rfl

end LiveMarkup.Markup
