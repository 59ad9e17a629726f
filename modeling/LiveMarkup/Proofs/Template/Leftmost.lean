import LiveMarkup.Proofs.Expression.ReadSets

/-!
Which placeholders of a text are taken. From the start, and again from the end of each one taken, the
next is the leftmost that there is; the text in between stays whole.
-/

namespace LiveMarkup

open LiveMarkup.Text

namespace Text

variable {needle cs before after : List Char}

structure First (needle cs before after : List Char) : Prop where
  text : cs = before ++ needle ++ after
  least : ∀ before' after', cs = before' ++ needle ++ after' → before.length ≤ before'.length

theorem splitText_eq_none : splitText needle cs = none ↔ ¬ needle <:+: cs := by
  induction cs with
  | nil => cases needle <;> simp [splitText]
  | cons c cs ih =>
    rw [splitText, List.infix_cons_iff, not_or]
    cases h : behind? needle (c :: cs) with
    | some rest =>
      have hinitial : needle <+: c :: cs := ⟨rest, (behind?_eq_some.1 h).symm⟩
      simp [hinitial]
    | none =>
      have hinitial : ¬ needle <+: c :: cs := by
        rintro ⟨rest, hrest⟩
        rw [behind?_eq_some.2 hrest.symm] at h
        cases h
      simp [hinitial, ih]

theorem first_of_splitText (h : splitText needle cs = some (before, after)) :
    First needle cs before after := by
  refine ⟨splitText_eq_some h, ?_⟩
  induction cs generalizing before with
  | nil =>
    have htext := splitText_eq_some h
    simp only [List.nil_eq, List.append_eq_nil_iff] at htext
    simp [htext.1.1]
  | cons c cs ih =>
    rw [splitText] at h
    split at h
    · cases h
      exact fun _ _ _ => Nat.zero_le _
    · next hnot =>
      obtain ⟨p, hp, heq⟩ := Option.map_eq_some_iff.1 h
      cases heq
      intro before' after' htext
      cases before' with
      | nil =>
        rw [List.nil_append] at htext
        rw [behind?_eq_some.2 htext] at hnot
        cases hnot
      | cons d before' =>
        cases htext
        exact Nat.succ_le_succ (ih hp before' after' rfl)

theorem splitText_eq_some_iff :
    splitText needle cs = some (before, after) ↔ First needle cs before after := by
  refine ⟨first_of_splitText, fun h => ?_⟩
  cases hsplit : splitText needle cs with
  | none => exact absurd ⟨before, after, h.text.symm⟩ (splitText_eq_none.1 hsplit)
  | some p =>
    obtain ⟨before', after'⟩ := p
    have h' := first_of_splitText hsplit
    have hlength : before.length = before'.length :=
      Nat.le_antisymm (h.least _ _ h'.text) (h'.least _ _ h.text)
    have htext := h.text.symm.trans h'.text
    rw [List.append_assoc, List.append_assoc] at htext
    obtain ⟨rfl, hrest⟩ := List.append_inj htext hlength
    rw [List.append_cancel_left_eq] at hrest
    rw [hrest]

end Text

namespace TemplatePart

section Places

/-- A placeholder stands at the start of `cs`, and its word reaches up to the next closing delimiter. -/
structure Placeholder (opening closing cs word rest : List Char) : Prop where
  text : cs = opening ++ (word ++ closing ++ rest)
  first : First closing (word ++ closing ++ rest) word rest
  word : isWord word = true

variable {opening closing cs before word rest : List Char}

theorem placeholder?_eq_some_iff : placeholder? opening closing cs = some (word, rest) ↔
    Placeholder opening closing cs word rest := by
  constructor
  · intro h
    rw [placeholder?] at h
    split at h
    · cases h
    · next inner hinner =>
      split at h
      · next word' rest' hsplit =>
        split at h
        · next hword =>
          cases h
          have hfirst := splitText_eq_some_iff.1 hsplit
          obtain rfl := hfirst.text
          exact ⟨behind?_eq_some.1 hinner, hfirst, hword⟩
        · cases h
      · cases h
  · rintro ⟨rfl, hfirst, hword⟩
    have hsplit := splitText_eq_some_iff.2 hfirst
    rw [placeholder?, behind?_eq_some.2 rfl]
    simp only [hsplit, hword, if_true]

def Starts (opening closing cs before : List Char) : Prop :=
  ∃ here word rest, cs = before ++ here ∧ Placeholder opening closing here word rest

def Passed (opening closing pre suf : List Char) : Prop :=
  ∀ before, Starts opening closing (pre ++ suf) before → pre.length ≤ before.length

structure Leftmost (opening closing cs before word rest : List Char) : Prop where
  text : cs = before ++ (opening ++ (word ++ closing ++ rest))
  here : Placeholder opening closing (opening ++ (word ++ closing ++ rest)) word rest
  least : ∀ before', Starts opening closing cs before' → before.length ≤ before'.length

theorem Starts.cons {c : Char} (h : Starts opening closing cs before) :
    Starts opening closing (c :: cs) (c :: before) := by
  obtain ⟨here, word, rest, rfl, hplace⟩ := h
  exact ⟨here, word, rest, rfl, hplace⟩

theorem starts_nil : Starts opening closing cs [] ↔
    ∃ word rest, Placeholder opening closing cs word rest := by
  constructor
  · rintro ⟨here, word, rest, rfl, h⟩
    exact ⟨word, rest, h⟩
  · rintro ⟨word, rest, h⟩
    exact ⟨cs, word, rest, rfl, h⟩

theorem Leftmost.length_lt (h : Leftmost opening closing cs before word rest) :
    rest.length < cs.length := by
  have hplace := placeholder?_length (placeholder?_eq_some_iff.2 h.here)
  rw [h.text, List.length_append]
  omega

theorem exists_leftmost (h : Starts opening closing cs before) :
    ∃ before word rest, Leftmost opening closing cs before word rest := by
  induction cs generalizing before with
  | nil =>
    obtain ⟨here, word, rest, htext, hplace⟩ := h
    obtain ⟨rfl, rfl⟩ := List.append_eq_nil_iff.1 htext.symm
    exact ⟨[], word, rest, hplace.text, hplace.text ▸ hplace, fun _ _ => Nat.zero_le _⟩
  | cons c cs ih =>
    by_cases hnil : Starts opening closing (c :: cs) []
    · obtain ⟨word, rest, hplace⟩ := starts_nil.1 hnil
      exact ⟨[], word, rest, hplace.text, hplace.text ▸ hplace, fun _ _ => Nat.zero_le _⟩
    · have later {before : List Char} (h : Starts opening closing (c :: cs) before) :
          ∃ tail, before = c :: tail ∧ Starts opening closing cs tail := by
        obtain ⟨here, word, rest, htext, hplace⟩ := h
        cases before with
        | nil => exact absurd ⟨here, word, rest, htext, hplace⟩ hnil
        | cons d tail =>
          cases htext
          exact ⟨tail, rfl, here, word, rest, rfl, hplace⟩
      obtain ⟨tail, rfl, htail⟩ := later h
      obtain ⟨before, word, rest, hleft⟩ := ih htail
      refine ⟨c :: before, word, rest, congrArg (c :: ·) hleft.text, hleft.here, fun before' h' => ?_⟩
      obtain ⟨tail', rfl, htail'⟩ := later h'
      exact Nat.succ_le_succ (hleft.least tail' htail')

end Places

def plain (cs : List Char) : List TemplatePart := if cs = [] then [] else [.text (String.ofList cs)]

section Scan

variable {opening closing cs before word rest : List Char} {parts : List TemplatePart}

theorem isField_of_mem_plain {p : TemplatePart} (h : p ∈ plain cs) : p.isField = false := by
  rw [plain] at h
  split at h
  · cases h
  · rw [List.mem_singleton.1 h, isField]

theorem written_plain : (plain cs).flatMap (written opening closing) = cs := by
  rw [plain]
  split
  · next h => exact h.symm
  · simp [written]

theorem addChar_plain (c : Char) (cs : List Char) (h : ∀ p ∈ parts.head?, p.isField = true) :
    addChar c (plain cs ++ parts) = plain (c :: cs) ++ parts := by
  cases cs with
  | cons d cs => simp [plain, addChar]
  | nil =>
    rcases parts with _ | ⟨s | name, parts⟩
    · rfl
    · cases h _ rfl
    · rfl

theorem scan_append (suf : List Char) (hhead : ∀ p ∈ (scan opening closing suf).head?, p.isField = true)
    (hpassed : Passed opening closing before suf) :
    scan opening closing (before ++ suf) = plain before ++ scan opening closing suf := by
  induction before with
  | nil => rfl
  | cons c before ih =>
    have hnone : placeholder? opening closing (c :: (before ++ suf)) = none := by
      refine Option.eq_none_iff_forall_ne_some.2 fun p hp => ?_
      have hstart := hpassed [] (starts_nil.2 ⟨p.1, p.2, placeholder?_eq_some_iff.1 hp⟩)
      exact absurd hstart (Nat.not_succ_le_zero _)
    rw [List.cons_append, scan]
    split
    · next hsome =>
      rw [hnone] at hsome
      cases hsome
    · rw [ih fun b hb => Nat.le_of_succ_le_succ (hpassed _ hb.cons), addChar_plain c before hhead]

theorem scan_eq_plain (h : ∀ before, ¬ Starts opening closing cs before) :
    scan opening closing cs = plain cs := by
  have hpassed : Passed opening closing cs [] := fun b hb => absurd (List.append_nil cs ▸ hb) (h b)
  have hscan := scan_append [] (by rw [scan]; exact fun p hp => by cases hp) hpassed
  rwa [List.append_nil, scan, List.append_nil] at hscan

theorem scan_placeholder (h : Placeholder opening closing cs word rest) :
    scan opening closing cs = .field (String.ofList word) :: scan opening closing rest := by
  have hplace := placeholder?_eq_some_iff.2 h
  cases cs with
  | nil => exact absurd (placeholder?_length hplace) (Nat.not_lt_zero _)
  | cons c cs =>
    rw [scan]
    split
    · next hsome =>
      cases hplace.symm.trans hsome
      rfl
    · next hnone =>
      rw [hplace] at hnone
      cases hnone

theorem scan_leftmost (h : Leftmost opening closing cs before word rest) :
    scan opening closing cs =
      plain before ++ .field (String.ofList word) :: scan opening closing rest := by
  have hhere := scan_placeholder h.here
  have hpassed : Passed opening closing before (opening ++ (word ++ closing ++ rest)) :=
    fun b hb => h.least b (h.text ▸ hb)
  rw [h.text, scan_append _ (by rw [hhere]; rintro _ ⟨⟩; rfl) hpassed, hhere]

variable (opening closing) in
inductive Taken : List Char → List TemplatePart → Prop
  | last {cs : List Char} (h : ∀ before, ¬ Starts opening closing cs before) : Taken cs (plain cs)
  | next {cs before word rest : List Char} {parts : List TemplatePart}
      (h : Leftmost opening closing cs before word rest) (hrest : Taken rest parts) :
      Taken cs (plain before ++ .field (String.ofList word) :: parts)

theorem taken_scan (opening closing cs : List Char) :
    Taken opening closing cs (scan opening closing cs) := by
  induction hn : cs.length using Nat.strongRecOn generalizing cs with
  | ind n ih =>
    by_cases h : ∃ before, Starts opening closing cs before
    · obtain ⟨_, hstart⟩ := h
      obtain ⟨before, word, rest, hleft⟩ := exists_leftmost hstart
      rw [scan_leftmost hleft]
      exact .next hleft (ih _ (hn ▸ hleft.length_lt) rest rfl)
    · rw [scan_eq_plain (not_exists.1 h)]
      exact .last (not_exists.1 h)

end Scan

def EndsField (parts : List TemplatePart) : Prop := ∀ p ∈ parts.getLast?, p.isField = true

/-- The parts of `cs` as they should be. A field is looked for from the end of the field before it,
which is where `done` ends. -/
structure Splits (opening closing cs : List Char) (parts : List TemplatePart) : Prop where
  whole : parts.flatMap (written opening closing) = cs
  nonempty : .text "" ∉ parts
  apart : parts.IsChain fun p q => p.isField = true ∨ q.isField = true
  leftmost : ∀ done pending name after, parts = done ++ (pending ++ .field name :: after) →
    EndsField done → (∀ p ∈ pending, p.isField = false) →
      Leftmost opening closing
        ((pending ++ .field name :: after).flatMap (written opening closing))
        (pending.flatMap (written opening closing)) name.toList
        (after.flatMap (written opening closing))
  complete : ∀ done pending, parts = done ++ pending → EndsField done →
    (∀ p ∈ pending, p.isField = false) →
      ∀ before, ¬ Starts opening closing (pending.flatMap (written opening closing)) before

section Splits

variable {opening closing cs : List Char} {pre post parts done tail : List TemplatePart}
  {name : String}

theorem EndsField.eq_nil (h : EndsField done) (hdone : ∀ p ∈ done, p.isField = false) :
    done = [] := by
  refine List.getLast?_eq_none_iff.1 (Option.eq_none_iff_forall_ne_some.2 fun p hp => ?_)
  have hfield := h p hp
  rw [hdone p (List.mem_of_getLast? hp)] at hfield
  cases hfield

theorem EndsField.past (h : EndsField done) (hpre : ∀ p ∈ pre, p.isField = false)
    (heq : pre ++ .field name :: post = done ++ tail) :
    done = [] ∨ ∃ more, done = pre ++ .field name :: more ∧ post = more ++ tail ∧ EndsField more := by
  rcases List.append_eq_append_iff.1 heq with ⟨more, rfl, hmore⟩ | ⟨more, rfl, htail⟩
  · cases more with
    | nil =>
      rw [List.append_nil] at h
      exact .inl (by rw [List.append_nil]; exact h.eq_nil hpre)
    | cons p more =>
      cases hmore
      refine .inr ⟨more, rfl, rfl, fun q hq => h q ?_⟩
      rw [Option.mem_def.1 (List.mem_getLast?_append_of_mem_getLast? (List.mem_getLast?_cons hq))]
      rfl
  · exact .inl (h.eq_nil fun p hp => hpre p (List.mem_append_left _ hp))

theorem field_unique {pre' post' : List TemplatePart} {name' : String}
    (hpre : ∀ p ∈ pre, p.isField = false) (hpre' : ∀ p ∈ pre', p.isField = false)
    (h : pre ++ .field name :: post = pre' ++ .field name' :: post') :
    pre = pre' ∧ name = name' ∧ post = post' := by
  have htake {pre post : List TemplatePart} {name : String} (hpre : ∀ p ∈ pre, p.isField = false) :
      (pre ++ .field name :: post).takeWhile (!·.isField) = pre := by
    rw [List.takeWhile_append_of_pos fun p hp => by rw [hpre p hp]; rfl]
    exact List.append_nil pre
  have heq := congrArg (List.takeWhile (!·.isField)) h
  rw [htake hpre, htake hpre'] at heq
  cases heq
  cases List.append_cancel_left h
  exact ⟨rfl, rfl, rfl⟩

theorem Taken.whole (h : Taken opening closing cs parts) :
    parts.flatMap (written opening closing) = cs := by
  induction h with
  | last => exact written_plain
  | next h _ ih =>
    rw [List.flatMap_append, List.flatMap_cons, written_plain, ih, h.text, written,
      String.toList_ofList]
    simp only [List.append_assoc]

theorem Taken.nonempty (h : Taken opening closing cs parts) : .text "" ∉ parts := by
  have hplain (cs : List Char) : .text "" ∉ plain cs := by
    rw [plain]
    split
    · nofun
    · next hne =>
      intro hmem
      have htext := congrArg String.toList (TemplatePart.text.inj (List.mem_singleton.1 hmem))
      exact hne (htext.trans String.toList_ofList).symm
  induction h with
  | last => exact hplain _
  | next _ _ ih =>
    intro hmem
    rcases List.mem_append.1 hmem with hmem | hmem
    · exact hplain _ hmem
    · cases hmem with
      | tail _ hmem => exact ih hmem

theorem Taken.apart (h : Taken opening closing cs parts) :
    parts.IsChain fun p q => p.isField = true ∨ q.isField = true := by
  induction h with
  | last =>
    rw [plain]
    split
    · exact .nil
    · exact .singleton _
  | @next _ _ word _ parts _ _ ih =>
    have hfield : (.field (String.ofList word) :: parts).IsChain
        fun p q => p.isField = true ∨ q.isField = true :=
      List.isChain_cons.2 ⟨fun _ _ => .inl rfl, ih⟩
    rw [plain]
    split
    · exact hfield
    · exact List.isChain_cons_cons.2 ⟨.inr rfl, hfield⟩

theorem Taken.leftmost (h : Taken opening closing cs parts) {pending after : List TemplatePart}
    (hparts : parts = done ++ (pending ++ .field name :: after)) (hdone : EndsField done)
    (hpending : ∀ p ∈ pending, p.isField = false) :
    Leftmost opening closing ((pending ++ .field name :: after).flatMap (written opening closing))
      (pending.flatMap (written opening closing)) name.toList
      (after.flatMap (written opening closing)) := by
  induction h generalizing done with
  | last =>
    have hmem : .field name ∈ done ++ (pending ++ .field name :: after) := by simp
    rw [← hparts] at hmem
    cases isField_of_mem_plain hmem
  | next hleft hrest ih =>
    rcases hdone.past (fun p => isField_of_mem_plain) hparts with rfl | ⟨more, rfl, rfl, hmore⟩
    · obtain ⟨rfl, rfl, rfl⟩ := field_unique (fun p => isField_of_mem_plain) hpending hparts
      have htaken := Taken.next hleft hrest
      rwa [htaken.whole, written_plain, String.toList_ofList, hrest.whole]
    · exact ih rfl hmore

theorem Taken.complete (h : Taken opening closing cs parts) {pending : List TemplatePart}
    (hparts : parts = done ++ pending) (hdone : EndsField done)
    (hpending : ∀ p ∈ pending, p.isField = false) (before : List Char) :
    ¬ Starts opening closing (pending.flatMap (written opening closing)) before := by
  induction h generalizing done with
  | @last cs hnone =>
    have hnil := hdone.eq_nil fun p hp =>
      isField_of_mem_plain (hparts ▸ List.mem_append_left pending hp)
    rw [hnil, List.nil_append] at hparts
    rw [← hparts, written_plain]
    exact hnone before
  | next hleft hrest ih =>
    rcases hdone.past (fun p => isField_of_mem_plain) hparts with rfl | ⟨more, rfl, rfl, hmore⟩
    · have hfield := hpending _ (hparts ▸ List.mem_append_right _ (List.mem_cons_self ..))
      cases hfield
    · exact ih rfl hmore

theorem Taken.splits (h : Taken opening closing cs parts) : Splits opening closing cs parts :=
  ⟨h.whole, h.nonempty, h.apart, fun _ _ _ _ => h.leftmost, fun _ _ => h.complete⟩

theorem exists_starts_iff :
    (∃ before, Starts opening closing cs before) ↔ (scan opening closing cs).any isField = true := by
  generalize hparts : scan opening closing cs = parts
  cases hparts ▸ taken_scan opening closing cs with
  | last h =>
    refine iff_of_false (not_exists.2 h) fun hany => ?_
    obtain ⟨p, hp, hfield⟩ := List.any_eq_true.1 hany
    rw [isField_of_mem_plain hp] at hfield
    cases hfield
  | @next _ before word rest parts h _ =>
    exact iff_of_true ⟨before, _, word, rest, h.text, h.here⟩ (List.any_eq_true.2
      ⟨.field (String.ofList word), List.mem_append_right _ (List.mem_cons_self ..), rfl⟩)

end Splits

section Texts

variable {opening closing text : String}

theorem split_eq_plain (h : opening = "" ∨ closing = "") :
    split opening closing text = plain text.toList := by
  have hempty : (opening.isEmpty || closing.isEmpty) = true := by simpa using h
  rw [split, if_pos hempty, plain]
  simp

theorem split_eq_scan (hopening : opening ≠ "") (hclosing : closing ≠ "") :
    split opening closing text = scan opening.toList closing.toList text.toList := by
  have hempty : ¬ (opening.isEmpty || closing.isEmpty) = true := by simp [hopening, hclosing]
  rw [split, if_neg hempty]

theorem isSome_ofText?_iff : (Template.ofText? opening closing text).isSome = true ↔
    opening ≠ "" ∧ closing ≠ "" ∧ ∃ before, Starts opening.toList closing.toList text.toList before := by
  rw [Template.isSome_ofText?, hasPlaceholder, ← and_assoc]
  by_cases h : opening = "" ∨ closing = ""
  · refine iff_of_false (fun hany => ?_) fun hne => h.elim hne.1.1 hne.1.2
    rw [split_eq_plain h] at hany
    obtain ⟨p, hp, hfield⟩ := List.any_eq_true.1 hany
    rw [isField_of_mem_plain hp] at hfield
    cases hfield
  · obtain ⟨hopening, hclosing⟩ := not_or.1 h
    rw [split_eq_scan hopening hclosing, exists_starts_iff, and_iff_right ⟨hopening, hclosing⟩]

end Texts

end TemplatePart

end LiveMarkup
