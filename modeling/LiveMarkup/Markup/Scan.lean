import LiveMarkup.Text.Cut

/-!
Cutting markup into items. Markup begins at a `<` before a letter, `/`, `!` or `?`; everything else
is text. Declarations, and end tags without a name, are passed over.
-/

namespace LiveMarkup.Markup

open LiveMarkup.Text

abbrev WrittenAttribute := String × Option String

inductive Item where
  | text (s : String)
  | start (name : String) (attributes : List WrittenAttribute) (selfClosing : Bool)
  | stop (name : String)
  | comment (body : String)
  deriving DecidableEq, Repr

def opensMarkup : List Char → Bool
  | '<' :: c :: _ => c == '!' || c == '?' || c == '/' || c.isAlpha
  | _ => false

def splitMarkup : List Char → List Char × List Char
  | [] => ([], [])
  | c :: cs =>
    if opensMarkup (c :: cs) then ([], c :: cs)
    else
      let (before, rest) := splitMarkup cs
      (c :: before, rest)

theorem splitMarkup_append (cs : List Char) : (splitMarkup cs).1 ++ (splitMarkup cs).2 = cs := by
  induction cs with
  | nil => rfl
  | cons c cs ih =>
    simp only [splitMarkup]
    split
    · rfl
    · simp [ih]

def isNameChar (c : Char) : Bool := !(c == '/' || c == '>' || isSpace c)

def isAttributeNameChar (c : Char) : Bool := isNameChar c && c != '='

def splitUnquoted : List Char → List Char × List Char
  | [] => ([], [])
  | c :: cs =>
    if c == '>' || isSpace c || (c == '/' && cs.head? == some '>') then ([], c :: cs)
    else
      let (value, rest) := splitUnquoted cs
      (c :: value, rest)

theorem splitUnquoted_append (cs : List Char) :
    (splitUnquoted cs).1 ++ (splitUnquoted cs).2 = cs := by
  induction cs with
  | nil => rfl
  | cons c cs ih =>
    simp only [splitUnquoted]
    split
    · rfl
    · simp [ih]

def quotedValue (quote : Char) (cs : List Char) : List Char × List Char :=
  (splitFirst quote cs).getD (cs, [])

def attributeValue : List Char → List Char × List Char
  | '"' :: cs => quotedValue '"' cs
  | '\x27' :: cs => quotedValue '\x27' cs
  | cs => splitUnquoted cs

def readAttribute (c : Char) (cs : List Char) : WrittenAttribute × List Char :=
  let name := String.ofList (c :: cs.takeWhile isAttributeNameChar)
  let rest := cs.dropWhile isAttributeNameChar
  match rest.dropWhile isSpace with
  | '=' :: tail =>
    let (value, rest) := attributeValue (tail.dropWhile isSpace)
    ((name, some (String.ofList value)), rest)
  | _ => ((name, none), rest)

theorem quotedValue_length (quote : Char) (cs : List Char) :
    (quotedValue quote cs).2.length ≤ cs.length := by
  unfold quotedValue
  cases h : splitFirst quote cs with
  | none => simp
  | some p =>
    obtain ⟨before, after⟩ := p
    have := congrArg List.length (splitFirst_eq_some h).1
    simp at this ⊢
    omega

theorem attributeValue_length (cs : List Char) : (attributeValue cs).2.length ≤ cs.length := by
  unfold attributeValue
  split
  · have := quotedValue_length '"' ‹_›; simp; omega
  · have := quotedValue_length '\x27' ‹_›; simp; omega
  · have := congrArg List.length (splitUnquoted_append cs); simp at this; omega

theorem readAttribute_length (c : Char) (cs : List Char) :
    (readAttribute c cs).2.length ≤ cs.length := by
  have hname := (List.dropWhile_sublist isAttributeNameChar (l := cs)).length_le
  have hspace := (List.dropWhile_sublist isSpace (l := cs.dropWhile isAttributeNameChar)).length_le
  unfold readAttribute
  dsimp only
  split
  · next tail ht =>
    have hvalue := attributeValue_length (tail.dropWhile isSpace)
    have htail := (List.dropWhile_sublist isSpace (l := tail)).length_le
    rw [ht] at hspace
    simp only [List.length_cons] at hspace
    dsimp only
    omega
  · exact hname

structure TagBody where
  attributes : List WrittenAttribute
  selfClosing : Bool
  deriving DecidableEq, Repr

def tagBody : List Char → TagBody × List Char
  | [] => (⟨[], true⟩, [])
  | '>' :: cs => (⟨[], false⟩, cs)
  | '/' :: '>' :: cs => (⟨[], true⟩, cs)
  | c :: cs =>
    if isSpace c || c == '/' then tagBody cs
    else
      let (body, rest) := tagBody (readAttribute c cs).2
      (⟨(readAttribute c cs).1 :: body.attributes, body.selfClosing⟩, rest)
termination_by cs => cs.length
decreasing_by
  · simp
  · have := readAttribute_length c cs
    simp
    omega

theorem tagBody_length (cs : List Char) : (tagBody cs).2.length ≤ cs.length := by
  fun_induction tagBody cs with
  | case1 => simp
  | case2 cs => simp
  | case3 cs => simp; omega
  | case4 c cs _ _ _ ih => simp; omega
  | case5 c cs _ _ _ body rest hr ih =>
    have := readAttribute_length c cs
    rw [hr] at ih
    simp at ih ⊢
    omega

def startTag (cs : List Char) : Item × List Char :=
  let name := String.ofList (cs.takeWhile isNameChar)
  let (body, rest) := tagBody (cs.dropWhile isNameChar)
  (.start name body.attributes body.selfClosing, rest)

def endTag (cs : List Char) : Option Item × List Char :=
  match splitFirst '>' cs with
  | none => (none, [])
  | some (inner, rest) =>
    let name := (inner.dropWhile isSpace).takeWhile (!isSpace ·)
    (if name.isEmpty then none else some (.stop (String.ofList name)), rest)

def commentEnd : List Char := ['-', '-', '>']

def comment (cs : List Char) : Item × List Char :=
  let (body, rest) := (splitText commentEnd cs).getD (cs, [])
  (.comment (String.ofList body), rest)

def declaration (cs : List Char) : List Char :=
  match splitFirst '>' cs with
  | none => []
  | some (_, rest) => rest

def next (c : Char) (cs : List Char) : Option Item × List Char :=
  if opensMarkup (c :: cs) then
    match cs with
    | '!' :: '-' :: '-' :: rest => let (item, rest) := comment rest; (some item, rest)
    | '!' :: rest => (none, declaration rest)
    | '?' :: rest => (none, declaration rest)
    | '/' :: rest => endTag rest
    | rest => let (item, rest) := startTag rest; (some item, rest)
  else
    let (text, rest) := splitMarkup cs
    (some (.text (String.ofList (c :: text))), rest)

theorem comment_length (cs : List Char) : (comment cs).2.length ≤ cs.length := by
  unfold comment
  cases h : splitText commentEnd cs with
  | none => simp
  | some p =>
    obtain ⟨before, after⟩ := p
    have := congrArg List.length (splitText_eq_some h)
    simp at this ⊢
    omega

theorem declaration_length (cs : List Char) : (declaration cs).length ≤ cs.length := by
  unfold declaration
  split
  · simp
  · next h =>
    have := congrArg List.length (splitFirst_eq_some h).1
    simp at this
    omega

theorem endTag_length (cs : List Char) : (endTag cs).2.length ≤ cs.length := by
  unfold endTag
  split
  · simp
  · next h =>
    have := congrArg List.length (splitFirst_eq_some h).1
    simp at this ⊢
    omega

theorem startTag_length (cs : List Char) : (startTag cs).2.length ≤ cs.length := by
  have hname := (List.dropWhile_sublist isNameChar (l := cs)).length_le
  have hbody := tagBody_length (cs.dropWhile isNameChar)
  unfold startTag
  dsimp only
  omega

theorem next_length (c : Char) (cs : List Char) : (next c cs).2.length ≤ cs.length := by
  unfold next
  split
  · split
    · next rest _ => have := comment_length rest; simp; omega
    · next rest _ _ => have := declaration_length rest; simp; omega
    · next rest _ => have := declaration_length rest; simp; omega
    · next rest _ => have := endTag_length rest; simp; omega
    · exact startTag_length cs
  · have := congrArg List.length (splitMarkup_append cs)
    simp at this ⊢
    omega

def items : List Char → List Item
  | [] => []
  | c :: cs => (next c cs).1.toList ++ items (next c cs).2
termination_by cs => cs.length
decreasing_by
  have := next_length c cs
  simp
  omega

def scan (source : String) : List Item := items source.toList

end LiveMarkup.Markup
