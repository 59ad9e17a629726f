import Mathlib.Data.List.Forall2
import LiveMarkup.Proofs.Expression.Called

/-!
Calls as they may be written: a name and, between parentheses, arguments between commas, each with any
blanks around it. What is read of them is the name and the arguments.
-/

namespace LiveMarkup.Expression

open LiveMarkup.Text

/-- The written forms of an argument. A field is whatever is no other form and ends no argument. -/
inductive Argument.Written : Argument → List Char → Prop
  | number {digits : List Char} : isInteger digits = true →
      Written (.number (Decimal.ofDigits digits)) digits
  | string {content : List Char} : ',' ∉ content → ')' ∉ content →
      Written (.string (String.ofList content)) ('\x27' :: (content ++ ['\x27']))
  | field {name : List Char} : name ≠ [] → trim name = name → isInteger name = false →
      isQuoted name = false → ',' ∉ name → ')' ∉ name → Written (.field (String.ofList name)) name
  | blank : Written (.string "") []

def Argument.WrittenIn (a : Argument) (cs : List Char) : Prop :=
  ∃ lead inner trail, Blank lead ∧ a.Written inner ∧ Blank trail ∧ cs = lead ++ inner ++ trail

/-- What stands between the parentheses. One argument alone is not left blank. -/
inductive ArgumentsWritten : List Argument → List Char → Prop
  | none {cs : List Char} : Blank cs → ArgumentsWritten [] cs
  | one {a : Argument} {cs : List Char} : a.WrittenIn cs → ¬Blank cs → ArgumentsWritten [a] cs
  | many {as : List Argument} {texts : List (List Char)} : List.Forall₂ Argument.WrittenIn as texts →
      2 ≤ as.length → ArgumentsWritten as ([','].intercalate texts)

variable {a : Argument} {as : List Argument} {c : Char} {cs lead name text trail : List Char}
  {texts : List (List Char)}

theorem not_mem_of_blank (h : Blank cs) (hc : isBlank c = false) : c ∉ cs := fun hmem => by
  rw [h c hmem] at hc
  cases hc

theorem trimmed_of_isWord (h : isWord cs = true) : Trimmed cs where
  head _ hc := not_isBlank_of_isWordChar (isWordChar_of_mem h (List.mem_of_mem_head? hc))
  last _ hc := not_isBlank_of_isWordChar (isWordChar_of_mem h (List.mem_of_mem_getLast? hc))

theorem Argument.Written.trimmed (h : a.Written cs) : Trimmed cs := by
  cases h with
  | number hdigits => exact trimmed_of_isWord (isWord_of_isInteger hdigits)
  | string _ _ =>
    refine ⟨fun c hc => ?_, fun c hc => ?_⟩
    · cases hc
      rfl
    · rw [List.getLast?_cons, List.getLast?_concat] at hc
      cases hc
      rfl
  | field _ htrim _ _ _ _ => exact htrim ▸ trimmed_trim _
  | blank => exact ⟨nofun, nofun⟩

theorem Argument.Written.not_mem (h : a.Written cs) : ',' ∉ cs ∧ ')' ∉ cs := by
  cases h with
  | number hdigits =>
    simp only [isInteger, Bool.and_eq_true, List.all_eq_true] at hdigits
    exact ⟨fun hmem => absurd (hdigits.2 _ hmem) (by decide),
      fun hmem => absurd (hdigits.2 _ hmem) (by decide)⟩
  | string hcomma hclose => simp [hcomma, hclose]
  | field _ _ _ _ hcomma hclose => exact ⟨hcomma, hclose⟩
  | blank => exact ⟨List.not_mem_nil, List.not_mem_nil⟩

theorem Argument.WrittenIn.not_mem (h : a.WrittenIn cs) : ',' ∉ cs ∧ ')' ∉ cs := by
  obtain ⟨lead, inner, trail, hlead, hinner, htrail, rfl⟩ := h
  simp [hinner.not_mem, not_mem_of_blank hlead, not_mem_of_blank htrail, show isBlank ',' = false from rfl,
    show isBlank ')' = false from rfl]

theorem isQuoted_quoted (content : List Char) : isQuoted ('\x27' :: (content ++ ['\x27'])) = true := by
  simp [isQuoted, List.getLast?_cons]

theorem Argument.WrittenIn.argument_eq (h : a.WrittenIn cs) : argument cs = a := by
  obtain ⟨lead, inner, trail, hlead, hinner, htrail, rfl⟩ := h
  rw [argument, trim_padded hlead hinner.trimmed htrail]
  cases hinner with
  | number hdigits =>
    have hne : inner.isEmpty = false := by
      simp only [isInteger, Bool.and_eq_true] at hdigits
      simpa using hdigits.1
    simp only [hne, hdigits, Bool.false_eq_true, if_false, if_true]
  | @string content _ _ =>
    have hdigits : isInteger ('\x27' :: (content ++ ['\x27'])) = false := by simp [isInteger]
    simp only [hdigits, isQuoted_quoted, List.isEmpty_cons, Bool.false_eq_true, if_false, if_true,
      List.drop_one, List.tail_cons, List.dropLast_concat]
  | field hne _ hdigits hquoted _ _ =>
    simp only [List.isEmpty_eq_false_iff.2 hne, hdigits, hquoted, Bool.false_eq_true, if_false]
  | blank => rfl

theorem map_argument (h : List.Forall₂ Argument.WrittenIn as texts) : texts.map argument = as := by
  induction h with
  | nil => rfl
  | cons ha _ ih => rw [List.map_cons, ha.argument_eq, ih]

theorem not_mem_of_mem (h : List.Forall₂ Argument.WrittenIn as texts) :
    ∀ cs ∈ texts, ',' ∉ cs ∧ ')' ∉ cs := by
  induction h with
  | nil => exact List.forall_mem_nil _
  | cons ha _ ih => exact List.forall_mem_cons.2 ⟨ha.not_mem, ih⟩

theorem ArgumentsWritten.not_mem (h : ArgumentsWritten as text) : ')' ∉ text := by
  cases h with
  | none hblank => exact not_mem_of_blank hblank rfl
  | one ha _ => exact ha.not_mem.2
  | many has _ =>
    intro hmem
    rcases mem_intercalate hmem with hcomma | ⟨cs, hcs, hclose⟩
    · exact absurd hcomma (by decide)
    · exact (not_mem_of_mem has cs hcs).2 hclose

theorem comma_mem_intercalate (h : 2 ≤ texts.length) : ',' ∈ [','].intercalate texts := by
  match texts, h with
  | cs :: ds :: texts, _ =>
    rw [List.intercalate_cons_cons]
    simp

theorem arguments_of_not_blank (h : ¬Blank text) :
    arguments (String.ofList text) = (splitAll ',' text).map argument := by
  have hne : (trim text).isEmpty = false := by
    rw [List.isEmpty_eq_false_iff]
    intro hnil
    obtain ⟨lead, trail, hlead, htrail, htext⟩ := exists_trim text
    rw [hnil, List.append_nil] at htext
    exact h (htext ▸ List.forall_mem_append.2 ⟨hlead, htrail⟩)
  rw [arguments, String.toList_ofList, hne, if_neg Bool.false_ne_true]

theorem ArgumentsWritten.arguments_eq (h : ArgumentsWritten as text) :
    arguments (String.ofList text) = as := by
  cases h with
  | none hblank =>
    rw [arguments, String.toList_ofList, trim_blank hblank]
    rfl
  | one ha hblank =>
    rw [arguments_of_not_blank hblank, splitAll_of_not_mem ha.not_mem.1, List.map_singleton,
      ha.argument_eq]
  | @many _ texts has hlength =>
    have hlength : 2 ≤ texts.length := has.length_eq ▸ hlength
    have hne : texts ≠ [] := by
      rintro rfl
      cases hlength
    have hblank : ¬Blank ([','].intercalate texts) := fun h =>
      not_mem_of_blank h rfl (comma_mem_intercalate hlength)
    rw [arguments_of_not_blank hblank,
      splitAll_intercalate hne fun cs hcs => (not_mem_of_mem has cs hcs).1, map_argument has]

def callSource (name text : List Char) : List Char := name ++ '(' :: text ++ [')']

theorem trimmed_callSource (hname : isWord name = true) : Trimmed (callSource name text) where
  head c hc := by
    cases name with
    | nil => cases hname
    | cons d name =>
      cases hc
      exact (trimmed_of_isWord hname).head _ rfl
  last c hc := by
    rw [callSource, List.getLast?_concat] at hc
    cases hc
    rfl

theorem isCall_written (hname : isWord name = true) (hlead : Blank lead) (htext : ')' ∉ text)
    (htrail : Blank trail) :
    IsCall (String.ofList (lead ++ callSource name text ++ trail)).trimmed (String.ofList name)
      (String.ofList text) := by
  refine (isCall_iff (trimmed_trimmed _)).2 ?_
  rw [toList_trimmed, String.toList_ofList, trim_padded hlead (trimmed_callSource hname) htrail,
    token?_eq_some]
  refine ⟨?_, ?_⟩
  · simp [Token.text, Lexeme.raw, callSource]
  · have hstands : (Lexeme.call (String.ofList name) (String.ofList text)).StandsAsWord [] := by
      refine ⟨?_, ?_⟩
      · rwa [String.toList_ofList]
      · rwa [String.toList_ofList]
    exact hstands

/-- Whatever the arguments and the blanks, the call is read with its name and its arguments in order,
and as an expression it is that one call, not negated. -/
theorem read?_written (hname : isWord name = true) (hlead : Blank lead)
    (htext : ArgumentsWritten as text) (htrail : Blank trail) :
    Call.read? (String.ofList (lead ++ callSource name text ++ trail)) =
        some ⟨String.ofList name, as⟩ ∧
      parse (String.ofList (lead ++ callSource name text ++ trail)) =
        [.call (String.ofList name) as false] := by
  have hcall := isCall_written hname hlead htext.not_mem htrail
  have harguments := htext.arguments_eq
  refine ⟨?_, ?_⟩
  · rw [Call.read?_of_isCall hcall, harguments]
  · rw [parse_of_isCall hcall, harguments]

def mixedArguments : List Argument :=
  [.number (Decimal.ofDigits "07".toList), .string " it's ", .string "", .field "a (b"]

def mixedTexts : List (List Char) :=
  [" 07".toList, "' it's '\t".toList, "\u00a0".toList, "a (b".toList]

theorem read?_written_mixed :
    isWord "f_1".toList = true ∧ Blank " ".toList ∧
      ArgumentsWritten mixedArguments ([','].intercalate mixedTexts) ∧ Blank "\n".toList ∧
      Call.read? " f_1( 07,' it's '\t,\u00a0,a (b)\n" = some ⟨"f_1", mixedArguments⟩ ∧
      parse " f_1( 07,' it's '\t,\u00a0,a (b)\n" = [.call "f_1" mixedArguments false] := by
  have hname : isWord "f_1".toList = true := by decide
  have hlead : Blank " ".toList := by decide
  have htrail : Blank "\n".toList := by decide
  have hstring : Argument.Written (.string " it's ") "' it's '".toList :=
    .string (show ',' ∉ " it's ".toList by decide) (by decide)
  have htexts : List.Forall₂ Argument.WrittenIn mixedArguments mixedTexts := by
    refine .cons ⟨" ".toList, "07".toList, [], by decide, .number (by decide), by decide, rfl⟩ ?_
    refine .cons ⟨[], "' it's '".toList, "\t".toList, by decide, hstring, by decide, rfl⟩ ?_
    refine .cons ⟨[], [], "\u00a0".toList, by decide, .blank, by decide, rfl⟩ ?_
    refine .cons ⟨[], "a (b".toList, [], by decide, .field (by decide) (by decide) (by decide)
      (by decide) (by decide) (by decide), by decide, rfl⟩ .nil
  have has : ArgumentsWritten mixedArguments ([','].intercalate mixedTexts) :=
    .many htexts (by decide)
  have hsource : String.ofList (" ".toList ++
      callSource "f_1".toList ([','].intercalate mixedTexts) ++ "\n".toList) =
        " f_1( 07,' it's '\t,\u00a0,a (b)\n" := by decide
  have hread := read?_written hname hlead has htrail
  rw [hsource] at hread
  exact ⟨hname, hlead, has, htrail, hread⟩

end LiveMarkup.Expression
