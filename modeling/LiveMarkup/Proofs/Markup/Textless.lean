import LiveMarkup.Proofs.Document.NormalForm

/-!
Trees without their texts. What is left of a tree does not depend on how its texts are cut, and is read
back from its printed form.
-/

namespace LiveMarkup.Markup

variable {ι : Type}

mutual

def Branch.withoutTexts : Branch ι → Forest ι
  | .element label tag attributes children =>
    [.element label tag attributes (Forest.withoutTexts children)]
  | .text _ _ => []
  | .comment label data => [.comment label data]

def Forest.withoutTexts : Forest ι → Forest ι
  | [] => []
  | b :: bs => Branch.withoutTexts b ++ Forest.withoutTexts bs

end

theorem withoutTexts_joinText (b : Branch ι) (bs : Forest ι) :
    Forest.withoutTexts (joinText b bs) = b.withoutTexts ++ Forest.withoutTexts bs := by
  unfold joinText
  split
  · split
    · rfl
    · split <;> rfl
  · rfl

mutual

theorem Branch.withoutTexts_merged : (b : Branch ι) → b.merged.withoutTexts = b.withoutTexts
  | .element _ _ _ children => by
    rw [Branch.merged, Branch.withoutTexts, Forest.withoutTexts_merged children, Branch.withoutTexts]
  | .text _ _ => rfl
  | .comment _ _ => rfl

theorem Forest.withoutTexts_merged :
    (f : Forest ι) → Forest.withoutTexts (Forest.merged f) = Forest.withoutTexts f
  | [] => rfl
  | b :: bs => by
    rw [Forest.merged, withoutTexts_joinText, Branch.withoutTexts_merged b,
      Forest.withoutTexts_merged bs, Forest.withoutTexts]

end

theorem Forest.bare_append (f g : Forest ι) :
    Forest.bare (f ++ g) = Forest.bare f ++ Forest.bare g := by
  induction f with
  | nil => rfl
  | cons b bs ih => rw [List.cons_append, Forest.bare, ih, Forest.bare, List.cons_append]

mutual

theorem Branch.withoutTexts_bare :
    (b : Branch ι) → b.bare.withoutTexts = Forest.bare b.withoutTexts
  | .element _ _ _ children => by
    rw [Branch.bare, Branch.withoutTexts, Forest.withoutTexts_bare children, Branch.withoutTexts]
    rfl
  | .text _ _ => rfl
  | .comment _ _ => rfl

theorem Forest.withoutTexts_bare :
    (f : Forest ι) → Forest.withoutTexts (Forest.bare f) = Forest.bare (Forest.withoutTexts f)
  | [] => rfl
  | b :: bs => by
    rw [Forest.bare, Forest.withoutTexts, Branch.withoutTexts_bare b, Forest.withoutTexts_bare bs,
      Forest.withoutTexts, Forest.bare_append]

end

theorem Forest.withoutTexts_parse_print {f : Forest ι} (h : Forest.Every Branch.Scanned f)
    (h' : Forest.Every Branch.Apart f) :
    Forest.withoutTexts (Forest.parse (String.ofList (Forest.print f))) =
      Forest.bare (Forest.withoutTexts f) := by
  rw [← Forest.print_merged, Forest.parse_print (Forest.wellFormed_merged h h'),
    Forest.withoutTexts_bare, Forest.withoutTexts_merged]

end LiveMarkup.Markup
