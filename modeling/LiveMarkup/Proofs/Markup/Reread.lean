import LiveMarkup.Proofs.Markup.Printed

/-!
Parsing undoes printing. A tree is well formed when each of its names, texts and comments is read back
as what it is; then the items of its printed text rebuild it, whatever stands behind them.
-/

namespace LiveMarkup.Markup

variable {ι : Type} {ok : Attributes → Prop}

mutual

def Branch.bare : Branch ι → Branch Unit
  | .element _ tag attributes children => .element () tag attributes (Forest.bare children)
  | .text _ data => .text () data
  | .comment _ data => .comment () data

def Forest.bare : Forest ι → Forest Unit
  | [] => []
  | b :: bs => Branch.bare b :: Forest.bare bs

end

mutual

theorem Branch.bare_eq : (b : Branch Unit) → b.bare = b
  | .element _ _ _ children => by rw [Branch.bare, Forest.bare_eq children]
  | .text _ _ => rfl
  | .comment _ _ => rfl

theorem Forest.bare_eq : (f : Forest Unit) → Forest.bare f = f
  | [] => rfl
  | b :: bs => by rw [Forest.bare, Branch.bare_eq b, Forest.bare_eq bs]

end

def Branch.isText : Branch ι → Bool
  | .text .. => true
  | _ => false

mutual

/-- Elements have names that are read back and attributes that are `ok`, void ones have no children,
texts are not empty, and no comment holds the end of one. -/
def Branch.WellFormed (ok : Attributes → Prop) : Branch ι → Prop
  | .element _ tag attributes children =>
    isTagName tag.toList = true ∧ ok attributes ∧ (isVoid tag = true → children = []) ∧
      Forest.WellFormed ok children
  | .text _ data => data ≠ ""
  | .comment _ data => ¬commentEnd <:+: data.toList

def Forest.WellFormed (ok : Attributes → Prop) : Forest ι → Prop
  | [] => True
  | b :: bs =>
    Branch.WellFormed ok b ∧ (b.isText = true → ∀ c ∈ bs.head?, c.isText = false) ∧
      Forest.WellFormed ok bs

end

mutual

instance Branch.decidableWellFormed [DecidablePred ok] : (b : Branch ι) → Decidable (b.WellFormed ok)
  | .element _ tag attributes children =>
    have := Forest.decidableWellFormed children
    inferInstanceAs (Decidable (isTagName tag.toList = true ∧ ok attributes ∧
      (isVoid tag = true → children = []) ∧ Forest.WellFormed ok children))
  | .text _ data => inferInstanceAs (Decidable (data ≠ ""))
  | .comment _ data => inferInstanceAs (Decidable (¬commentEnd <:+: data.toList))

instance Forest.decidableWellFormed [DecidablePred ok] :
    (f : Forest ι) → Decidable (Forest.WellFormed ok f)
  | [] => inferInstanceAs (Decidable True)
  | b :: bs =>
    have := Branch.decidableWellFormed b
    have := Forest.decidableWellFormed bs
    inferInstanceAs (Decidable (Branch.WellFormed ok b ∧
      (b.isText = true → ∀ c ∈ bs.head?, c.isText = false) ∧ Forest.WellFormed ok bs))

end

mutual

theorem Branch.WellFormed.imp {ok' : Attributes → Prop} (h : ∀ as, ok as → ok' as) :
    {b : Branch ι} → b.WellFormed ok → b.WellFormed ok'
  | .element _ _ _ _, ⟨htag, has, hvoid, hchildren⟩ =>
    ⟨htag, h _ has, hvoid, Forest.WellFormed.imp h hchildren⟩
  | .text _ _, hb => hb
  | .comment _ _, hb => hb

theorem Forest.WellFormed.imp {ok' : Attributes → Prop} (h : ∀ as, ok as → ok' as) :
    {f : Forest ι} → Forest.WellFormed ok f → Forest.WellFormed ok' f
  | [], hf => hf
  | _ :: _, ⟨hb, htexts, hbs⟩ => ⟨hb.imp h, htexts, Forest.WellFormed.imp h hbs⟩

end

namespace Unfinished

theorem attributes_written {as : Attributes} (h : as.Legible) :
    attributes (as.map writtenAttribute) = as := by
  -- the fold, from what it has found so far
  have hfold (bs found : Attributes) (hbs : ∀ a ∈ bs, isWrittenName a.1.toList = true)
      (hnodup : ((found ++ bs).map Prod.fst).Nodup) :
      (bs.map writtenAttribute).foldl (fun as w =>
        let name := w.1.asciiLower
        if as.any (·.1 == name) then as
        else as ++ [(name, String.ofList (unescape (w.2.getD "").toList))]) found = found ++ bs := by
    induction bs generalizing found with
    | nil => exact (List.append_nil found).symm
    | cons a bs ih =>
      have hname : a.1.asciiLower = a.1 :=
        asciiLower_of_plain (plain_of_isWrittenName (hbs a (List.mem_cons_self ..)))
      have hvalue : String.ofList (unescape ((writtenAttribute a).2.getD "").toList) = a.2 := by
        unfold writtenAttribute
        split
        · next hv =>
          rw [String.isEmpty_iff.1 hv]
          simp [unescape]
        · simp [unescape_escapeAttribute]
      have hnew : found.any (·.1 == a.1) = false := by
        rw [List.any_eq_false]
        intro b hb hba
        rw [beq_iff_eq] at hba
        rw [List.map_append, List.map_cons] at hnodup
        exact (List.nodup_append.1 hnodup).2.2 b.1 (List.mem_map_of_mem hb) a.1
          (List.mem_cons_self ..) hba
      have hstep : (found ++ [(a.1, a.2)]) ++ bs = found ++ a :: bs := by simp
      have hrest := ih (found ++ [(a.1, a.2)]) (fun b hb => hbs b (List.mem_cons_of_mem _ hb))
        (by rw [hstep]; exact hnodup)
      rw [hstep] at hrest
      simp only [List.map_cons, List.foldl_cons, hvalue]
      have hfirst : (writtenAttribute a).1 = a.1 := rfl
      rw [hfirst, hname, hnew]
      exact hrest
  exact hfold as [] h.names (by simpa using h.nodup)

def extend (p : Unfinished) (f : Forest Unit) : Unfinished :=
  { p with finished := f.reverse ++ p.finished }

theorem extend_push (p : Unfinished) (b : Branch Unit) (f : Forest Unit) :
    (p.push b).extend f = p.extend (b :: f) := by simp [extend, push]

end Unfinished

theorem endsText_printStart {tag : String} (h : isTagName tag.toList = true) (as : Attributes)
    (rest : List Char) : EndsText (printStart tag as ++ rest) := by
  right
  cases hcs : tag.toList with
  | nil =>
    rw [hcs] at h
    cases h
  | cons c cs =>
    rw [hcs, isTagName, Bool.and_eq_true] at h
    simp [printStart, hcs, opensMarkup, isAlpha_iff.2 (.inr h.1)]

theorem Branch.WellFormed.endsText {b : Branch ι} (h : b.WellFormed ok) (hb : b.isText = false)
    (rest : List Char) : EndsText (b.print ++ rest) := by
  cases b with
  | element _ tag attributes children =>
    rw [Branch.print, List.append_assoc]
    exact endsText_printStart h.1 _ _
  | text _ data => cases hb
  | comment _ data => exact .inr rfl

mutual

theorem Branch.WellFormed.reread {b : Branch ι} (h : b.WellFormed Attributes.Legible)
    (rest : List Char) (hr : b.isText = true → EndsText rest) (p : Unfinished) :
    (items (b.print ++ rest)).foldl Unfinished.add p =
      (items rest).foldl Unfinished.add (p.push b.bare) := by
  match b, h with
  | .element _ tag attributes children, ⟨htag, has, hvoid, hchildren⟩ =>
    have hlower : tag.asciiLower = tag := asciiLower_of_plain (plain_of_isTagName htag)
    rw [Branch.print, List.append_assoc, items_printStart htag has, List.foldl_cons, Unfinished.add,
      hlower, Unfinished.attributes_written has, Branch.bare]
    cases hv : isVoid tag with
    | true =>
      rw [hvoid hv]
      rfl
    | false =>
      have hstop : EndsText (printEnd tag ++ rest) := .inr rfl
      simp only [Bool.or_self, Bool.false_eq_true, if_false, List.append_assoc]
      rw [Forest.WellFormed.reread hchildren _ hstop, items_printEnd htag, List.foldl_cons,
        Unfinished.add, hlower, hv]
      simp [Unfinished.extend, Unfinished.closeThrough?, Unfinished.closeFrame, Unfinished.push]
  | .text _ data, hne =>
    have hnonempty : escapeText data.toList ≠ [] := by
      intro hnil
      have hdata := unescape_escapeText data.toList
      rw [hnil] at hdata
      exact hne (String.toList_inj.1 (by simpa [unescape] using hdata.symm))
    rw [Branch.print, items_text hnonempty (open_not_mem_escapeText _) (hr rfl), List.foldl_cons,
      Unfinished.add, String.toList_ofList, unescape_escapeText, String.ofList_toList, Branch.bare]
  | .comment _ data, hend =>
    rw [Branch.print, items_comment hend, List.foldl_cons, Unfinished.add, String.ofList_toList,
      Branch.bare]

theorem Forest.WellFormed.reread {f : Forest ι} (h : Forest.WellFormed Attributes.Legible f)
    (rest : List Char) (hr : EndsText rest) (p : Unfinished) :
    (items (Forest.print f ++ rest)).foldl Unfinished.add p =
      (items rest).foldl Unfinished.add (p.extend (Forest.bare f)) := by
  match f, h with
  | [], _ => rfl
  | b :: bs, ⟨hb, htexts, hbs⟩ =>
    have hnext : b.isText = true → EndsText (Forest.print bs ++ rest) := by
      intro ht
      match bs, htexts ht, hbs with
      | [], _, _ => exact hr
      | c :: cs, hc, ⟨hcw, _, _⟩ =>
        rw [Forest.print, List.append_assoc]
        exact hcw.endsText (hc c rfl) _
    rw [Forest.print, List.append_assoc, hb.reread _ hnext, Forest.WellFormed.reread hbs rest hr,
      Unfinished.extend_push, Forest.bare]

end

theorem Forest.parse_print {f : Forest ι} (h : Forest.WellFormed Attributes.Legible f) :
    Forest.parse (String.ofList (Forest.print f)) = Forest.bare f := by
  have hreread := h.reread [] (.inl rfl) ⟨[], []⟩
  rw [List.append_nil] at hreread
  rw [Forest.parse, Forest.ofItems, scan, String.toList_ofList, hreread]
  simp [items, Unfinished.extend, Unfinished.finish, Unfinished.closeAll]

end LiveMarkup.Markup
