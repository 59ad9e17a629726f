import LiveMarkup.Proofs.Document.Arena
import LiveMarkup.Proofs.Markup.Scanned

/-!
Markup that went through a document once is not changed by going through it again, unless an attribute
that is printed without a value stands before one whose name begins with an equals sign: that name is
then read as the value.
-/

namespace LiveMarkup.Markup

variable {ι : Type} {ok : Attributes → Prop}

def joinText : Branch ι → Forest ι → Forest ι
  | .text label data, bs =>
    if data = "" then bs
    else
      match bs with
      | .text _ data' :: bs => .text label (data ++ data') :: bs
      | bs => .text label data :: bs
  | b, bs => b :: bs

mutual

def Branch.merged : Branch ι → Branch ι
  | .element label tag attributes children => .element label tag attributes (Forest.merged children)
  | .text label data => .text label data
  | .comment label data => .comment label data

/-- The forest as it is printed: neighbouring texts are one, empty texts are gone. -/
def Forest.merged : Forest ι → Forest ι
  | [] => []
  | b :: bs => joinText (Branch.merged b) (Forest.merged bs)

end

theorem escapeText_append (cs ds : List Char) :
    escapeText (cs ++ ds) = escapeText cs ++ escapeText ds := List.flatMap_append

theorem print_joinText (b : Branch ι) (bs : Forest ι) :
    Forest.print (joinText b bs) = b.print ++ Forest.print bs := by
  unfold joinText
  split
  · next label data bs =>
    split
    · next hdata => simp [hdata, Branch.print, escapeText]
    · split
      · simp [Forest.print, Branch.print, escapeText_append]
      · rfl
  · rfl

mutual

theorem Branch.print_merged : (b : Branch ι) → b.merged.print = b.print
  | .element _ _ _ children => by
    rw [Branch.merged, Branch.print, Forest.print_merged children, Branch.print]
  | .text _ _ => rfl
  | .comment _ _ => rfl

theorem Forest.print_merged : (f : Forest ι) → Forest.print (Forest.merged f) = Forest.print f
  | [] => rfl
  | b :: bs => by
    rw [Forest.merged, print_joinText, Branch.print_merged b, Forest.print_merged bs, Forest.print]

end

theorem wellFormed_joinText {b : Branch ι} {bs : Forest ι}
    (hb : b.isText = false → b.WellFormed ok) (h : Forest.WellFormed ok bs) :
    Forest.WellFormed ok (joinText b bs) := by
  unfold joinText
  split
  · next label data bs =>
    split
    · exact h
    · next hdata =>
      split
      · obtain ⟨-, htexts, hbs⟩ := h
        refine ⟨fun hnil => hdata ?_, htexts, hbs⟩
        exact (String.append_eq_empty_iff.1 hnil).1
      · next hnext =>
        refine ⟨hdata, fun _ c hc => ?_, h⟩
        cases c with
        | text label' data' =>
          obtain ⟨rest, hrest⟩ := List.head?_eq_some_iff.1 hc
          exact absurd hrest (hnext _ _ _)
        | element => rfl
        | comment => rfl
  · next hnot =>
    have hfalse : b.isText = false := by
      cases b with
      | text label data => exact absurd rfl (hnot label data)
      | element => rfl
      | comment => rfl
    refine ⟨hb hfalse, fun ht => ?_, h⟩
    rw [hfalse] at ht
    cases ht

def Branch.Apart : Branch ι → Prop
  | .element _ _ attributes _ => attributes.Apart
  | .text _ _ => True
  | .comment _ _ => True

instance : DecidablePred (Branch.Apart (ι := ι))
  | .element _ _ attributes _ => inferInstanceAs (Decidable (List.IsChain _ attributes))
  | .text _ _ => inferInstanceAs (Decidable True)
  | .comment _ _ => inferInstanceAs (Decidable True)

mutual

theorem Branch.wellFormed_merged : {b : Branch ι} → b.Every Branch.Scanned → b.Every Branch.Apart →
    b.isText = false → b.merged.WellFormed Attributes.Legible
  | .element _ _ _ _, ⟨⟨htag, hnamed, hvoid⟩, hchildren⟩, ⟨hapart, hchildren'⟩, _ =>
    ⟨htag, ⟨hnamed, hapart⟩, fun hv => by rw [hvoid hv]; rfl,
      Forest.wellFormed_merged hchildren hchildren'⟩
  | .comment _ _, hb, _, _ => hb

theorem Forest.wellFormed_merged : {f : Forest ι} → Forest.Every Branch.Scanned f →
    Forest.Every Branch.Apart f → Forest.WellFormed Attributes.Legible (Forest.merged f)
  | [], _, _ => trivial
  | b :: _, ⟨hb, hbs⟩, ⟨hb', hbs'⟩ => by
    refine wellFormed_joinText (fun ht => ?_) (Forest.wellFormed_merged hbs hbs')
    have hisText : b.isText = false := by cases b <;> first | rfl | cases ht
    exact Branch.wellFormed_merged hb hb' hisText

end

mutual

theorem Branch.print_bare : (b : Branch ι) → b.bare.print = b.print
  | .element _ _ _ children => by
    rw [Branch.bare, Branch.print, Forest.print_bare children, Branch.print]
  | .text _ _ => rfl
  | .comment _ _ => rfl

theorem Forest.print_bare : (f : Forest ι) → Forest.print (Forest.bare f) = Forest.print f
  | [] => rfl
  | b :: bs => by
    rw [Forest.bare, Forest.print, Branch.print_bare b, Forest.print_bare bs, Forest.print]

end

end LiveMarkup.Markup

namespace LiveMarkup.Document

open LiveMarkup.Markup

theorem toHtml_parse (source : String) :
    (parse source).toHtml = String.ofList (Forest.print (Forest.parse source)) := by
  rw [← forest_parse, Forest.print_bare]
  rfl

theorem parse_toHtml_parse {source : String}
    (h : Forest.Every Branch.Apart (Forest.parse source)) :
    Forest.parse (parse source).toHtml = Forest.bare (Forest.merged (Forest.parse source)) := by
  rw [toHtml_parse, ← Forest.print_merged]
  exact Forest.parse_print (Forest.wellFormed_merged (Forest.scanned_parse source) h)

theorem toHtml_parse_again {source : String}
    (h : Forest.Every Branch.Apart (Forest.parse source)) :
    (parse (parse source).toHtml).toHtml = (parse source).toHtml := by
  rw [toHtml_parse, parse_toHtml_parse h, Forest.print_bare, Forest.print_merged, toHtml_parse]

/-- Names in capitals, attributes in each way of writing them, a dropped declaration in the middle of
a text, a stray end tag, and a comment and an element that stay open. -/
theorem toHtml_parse_again_rough :
    let source := "<P A=1 b='\"' c =d/=e>1 < 2<!x> 3</q><br/>&amp;<ul><LI><!--- u --"
    Forest.Every Branch.Apart (Forest.parse source) ∧
      (parse (parse source).toHtml).toHtml = (parse source).toHtml := by
  intro source
  have h : Forest.Every Branch.Apart (Forest.parse source) := by decide +kernel
  exact ⟨h, toHtml_parse_again h⟩

/-- The first time `=x` is a name, the second time it is the value of the name before it. -/
theorem toHtml_parse_again_unmarked :
    (parse (parse "<p a/=x>").toHtml).toHtml ≠ (parse "<p a/=x>").toHtml := by decide +kernel

end LiveMarkup.Document
