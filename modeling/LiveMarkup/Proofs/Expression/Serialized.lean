import LiveMarkup.Proofs.Decimal.Numerals
import LiveMarkup.Proofs.Expression.Called

/-!
The written form of compiled nodes. Each node in front of what may follow it is told by its text, so an
expression is identified by its written form.
-/

namespace LiveMarkup.Expression

open LiveMarkup.Text LiveMarkup.Decimal

variable {a b : Argument} {as bs : List Argument} {n n' : Node} {ns ns' : List Node} {c : Char}
  {cs ds rest rest' name name' : List Char} {t : Token}

/-- What is read between commas and before the parenthesis that closes. -/
def Argument.Readable : Argument → Prop
  | .number x => (decode x).Unsigned
  | .string s => ',' ∉ s.toList ∧ ')' ∉ s.toList
  | .field name => ',' ∉ name.toList ∧ ')' ∉ name.toList

def Node.Readable : Node → Prop
  | .call name arguments _ => isWord name.toList = true ∧ ∀ a ∈ arguments, a.Readable
  | .string s => '\x27' ∉ s.toList
  | .number x => (decode x).Unsigned
  | .field name _ => isWord name.toList = true
  | .logical _ => True
  | .comparison _ => True

theorem readable_argument (hcomma : ',' ∉ cs) (hclose : ')' ∉ cs) : (argument cs).Readable := by
  have hmem {c : Char} (hc : c ∉ cs) : c ∉ trim cs := by
    obtain ⟨lead, trail, _, _, hcs⟩ := exists_trim cs
    exact fun h => hc (hcs ▸ List.mem_append_left _ (List.mem_append_right _ h))
  have hunquoted {c : Char} (hc : c ∉ cs) : c ∉ ((trim cs).drop 1).dropLast := fun h =>
    hmem hc (List.mem_of_mem_drop (List.mem_of_mem_dropLast h))
  unfold argument
  dsimp only
  split
  · exact ⟨List.not_mem_nil, List.not_mem_nil⟩
  · split
    · exact unsigned_ofDigits _
    · split
      · simp only [Argument.Readable, String.toList_ofList]
        exact ⟨hunquoted hcomma, hunquoted hclose⟩
      · simp only [Argument.Readable, String.toList_ofList]
        exact ⟨hmem hcomma, hmem hclose⟩

theorem readable_arguments {text : String} (h : ')' ∉ text.toList) :
    ∀ a ∈ arguments text, a.Readable := by
  unfold arguments
  split
  · exact List.forall_mem_nil _
  · refine List.forall_mem_map.2 fun piece hpiece => readable_argument ?_ ?_
    · exact (of_mem_splitAll hpiece).1
    · exact fun hmem => h ((of_mem_splitAll hpiece).2 hmem)

theorem readable_nodesOf (h : t.Stands rest) : ∀ n ∈ nodesOf t, n.Readable := by
  obtain ⟨l, negated⟩ := t
  cases l with
  | call name text =>
    have hcall : isWord name.toList ∧ ')' ∉ text.toList := by cases negated <;> exact h
    exact List.forall_mem_singleton.2 ⟨hcall.1, readable_arguments hcall.2⟩
  | logical op => exact List.forall_mem_singleton.2 trivial
  | comparison op => exact List.forall_mem_singleton.2 trivial
  | quoted content =>
    cases negated with
    | true => exact h.elim
    | false => exact List.forall_mem_singleton.2 h
  | number digits =>
    have hnumber : Node.Readable (.number (ofDigits digits.toList)) := unsigned_ofDigits _
    cases negated with
    | true => exact List.forall_mem_cons.2 ⟨trivial, List.forall_mem_singleton.2 hnumber⟩
    | false => exact List.forall_mem_singleton.2 hnumber
  | word name =>
    have hword : isWord name.toList := by cases negated <;> exact h.1
    exact List.forall_mem_singleton.2 hword

theorem readable_parse (source : String) : ∀ n ∈ parse source, n.Readable := by
  intro n hn
  rw [parse_eq, build] at hn
  obtain ⟨t, ht, hn⟩ := List.mem_flatMap.1 hn
  obtain ⟨rest, hstands⟩ := stands_of_mem_tokensIn ht
  exact readable_nodesOf hstands n hn

def contextual (name : List Char) : List Char := "context.".toList ++ name

def negating (negated : Bool) : List Char := if negated then ['!'] else []

def argumentText (as : List Argument) : List Char := [','].intercalate (as.map (·.display.toList))

def called (name : List Char) (as : List Argument) : List Char :=
  contextual name ++ '(' :: argumentText as ++ [')']

def Node.printed : Node → List Char
  | .call name as negated => negating negated ++ called name.toList as
  | n => ' ' :: n.display.toList

theorem toList_negation (negated : Bool) : (negation negated).toList = negating negated := by
  cases negated <;> rfl

theorem toList_fieldText (name : String) : (fieldText name).toList = contextual name.toList :=
  String.toList_append

theorem toList_quoted (s : String) : (quoted s).toList = '\x27' :: (s.toList ++ ['\x27']) := by
  rw [quoted, String.toList_append, String.toList_append]
  rfl

theorem printed_string (s : String) : (Node.string s).printed = ' ' :: '\x27' :: (s.toList ++ ['\x27']) :=
  congrArg (' ' :: ·) (toList_quoted s)

theorem printed_number (x : Float) : (Node.number x).printed = ' ' :: Layout.display.text x :=
  congrArg (' ' :: ·) String.toList_ofList

theorem printed_field (name : String) (negated : Bool) :
    (Node.field name negated).printed = ' ' :: (negating negated ++ contextual name.toList) := by
  rw [← toList_negation, ← toList_fieldText, ← String.toList_append]
  rfl

theorem contextual_ne_nil (name : List Char) : contextual name ≠ [] :=
  List.append_ne_nil_of_left_ne_nil (by decide) name

theorem not_mem_contextual (hc : c ∉ "context.".toList) (h : c ∉ name) : c ∉ contextual name :=
  List.not_mem_append hc h

theorem contextual_append (name rest : List Char) :
    contextual name ++ rest = contextual (name ++ rest) :=
  List.append_assoc _ _ _

theorem toList_callText (name : String) (as : List Argument) :
    (callText name as).toList = called name.toList as := by
  simp only [callText, String.toList_append, toList_fieldText, String.toList_intercalate, List.map_map,
    called, List.append_assoc]
  rfl

theorem toList_serialize (ns : List Node) : (serialize ns).toList = ns.flatMap Node.printed := by
  induction ns with
  | nil => rfl
  | cons n ns ih =>
    cases n with
    | call name as negated =>
      simp only [serialize, Node.display, String.toList_append, toList_negation, toList_callText, ih]
      rfl
    | _ =>
      simp only [serialize, String.toList_append, ih]
      rfl

/-- Where another node begins, or nothing does. A call is not parted from the node in front of it. -/
inductive Begins : List Char → Prop
  | nothing : Begins []
  | parted (cs : List Char) : Begins (' ' :: cs)
  | call {name : List Char} (negated : Bool) (cs : List Char) : isWord name = true →
      Begins (negating negated ++ (contextual name ++ '(' :: cs))

theorem begins_printed (h : n.Readable) (rest : List Char) : Begins (n.printed ++ rest) := by
  cases n with
  | call name as negated =>
    have htext : (Node.call name as negated).printed ++ rest =
        negating negated ++ (contextual name.toList ++ '(' :: (argumentText as ++ ')' :: rest)) := by
      simp [Node.printed, called]
    exact htext ▸ .call negated _ h.1
  | _ => exact .parted _

theorem begins_flatMap (h : ∀ n ∈ ns, n.Readable) : Begins (ns.flatMap Node.printed) := by
  cases ns with
  | nil => exact .nothing
  | cons n ns => exact begins_printed (h n (List.mem_cons_self ..)) _

theorem Begins.head (h : Begins rest) : ∀ c ∈ rest.head?, c ∈ [' ', '!', 'c'] := by
  cases h with
  | nothing => nofun
  | parted cs =>
    rintro c ⟨⟩
    decide
  | call negated cs hname =>
    cases negated <;>
      · rintro c ⟨⟩
        decide

def EndsName (rest : List Char) : Prop := rest.head? = some '(' ∨ Begins rest

theorem EndsName.head (h : EndsName rest) : ∀ c ∈ rest.head?, c ∈ ['(', ' ', '!', 'c'] := by
  rcases h with h | h
  · rw [h]
    rintro c ⟨⟩
    decide
  · exact fun c hc => List.mem_cons_of_mem _ (h.head c hc)

theorem EndsName.context (h : EndsName rest) (hc : rest.head? = some 'c') :
    "context.".toList <+: rest := by
  rcases h with h | h
  · cases h.symm.trans hc
  · cases h with
    | nothing => cases hc
    | parted cs => cases hc
    | call negated cs hname =>
      cases negated with
      | true => cases hc
      | false => exact ⟨_, (List.append_assoc _ _ _).symm⟩

/-- A name cannot run on into `context.`: the rest of that would have to end the longer name. -/
theorem nothing_between (hcs : ∀ c ∈ cs, isWordChar c = true) (h : EndsName (cs ++ rest))
    (hrest : EndsName rest) : cs = [] := by
  cases cs with
  | nil => rfl
  | cons d cs =>
    have hd : isWordChar d = true := hcs d (List.mem_cons_self ..)
    have hcontext : d = 'c' := by
      have hmem := h.head d rfl
      simp only [List.mem_cons, List.not_mem_nil, or_false] at hmem
      rcases hmem with rfl | rfl | rfl | rfl
      · cases hd
      · cases hd
      · cases hd
      · rfl
    subst hcontext
    have hprefix := h.context rfl
    rcases List.prefix_or_prefix_of_prefix hprefix (List.prefix_append ('c' :: cs) rest) with hle | hle
    · have hpoint := hcs '.' (hle.subset (by decide))
      cases hpoint
    · obtain ⟨more, hmore⟩ := hle
      cases more with
      | nil =>
        rw [List.append_nil] at hmore
        have hpoint := hcs '.' (hmore ▸ by decide)
        cases hpoint
      | cons e more =>
        rw [← hmore, List.prefix_append_right_inj] at hprefix
        obtain ⟨tail, rfl⟩ := hprefix
        have hnone : ∀ e ∈ "ontext.".toList, e ∉ ['(', ' ', '!', 'c'] := by simp
        have hmem : e ∈ "ontext.".toList := by
          rw [show "ontext.".toList = cs ++ e :: more from (List.cons.inj hmore).2.symm]
          simp
        exact absurd (hrest.head e rfl) (hnone e hmem)

theorem name_cancel (hname : isWord name = true) (hname' : isWord name' = true) (hrest : EndsName rest)
    (hrest' : EndsName rest') (h : name ++ rest = name' ++ rest') : name = name' ∧ rest = rest' := by
  rcases List.append_eq_append_iff.1 h with ⟨more, rfl, rfl⟩ | ⟨more, rfl, rfl⟩
  · have hmore : ∀ c ∈ more, isWordChar c = true := fun _ hc =>
      isWordChar_of_mem hname' (List.mem_append_right _ hc)
    simp [nothing_between hmore hrest hrest']
  · have hmore : ∀ c ∈ more, isWordChar c = true := fun _ hc =>
      isWordChar_of_mem hname (List.mem_append_right _ hc)
    simp [nothing_between hmore hrest' hrest]

inductive Kind where
  | call
  | logical
  | comparison
  | string
  | number
  | field
  deriving DecidableEq, Repr

def Node.kind : Node → Kind
  | .call .. => .call
  | .logical _ => .logical
  | .comparison _ => .comparison
  | .string _ => .string
  | .number _ => .number
  | .field .. => .field

def Argument.kind : Argument → Kind
  | .number _ => .number
  | .string _ => .string
  | .field _ => .field

def namesField (cs : List Char) : Bool :=
  match behind? "context.".toList cs with
  | some rest => (rest.dropWhile isWordChar).head? ≠ some '('
  | none => false

/-- The kind of the node that a written form begins with. A `!` negates the name behind it unless the
name is called: then it is an operator in front of the call. -/
def firstKind : List Char → Kind
  | ' ' :: '!' :: cs =>
    if cs.head? = some '=' then .comparison else if namesField cs then .field else .logical
  | ' ' :: c :: _ =>
    if c = '\x27' then .string
    else if c ∈ ['&', '|'] then .logical
    else if c ∈ ['=', '<', '>'] then .comparison
    else if c = 'c' then .field
    else .number
  | _ => .call

theorem namesField_contextual (cs : List Char) :
    namesField (contextual cs) = decide ((cs.dropWhile isWordChar).head? ≠ some '(') := by
  have hbehind : behind? "context.".toList (contextual cs) = some cs := behind?_eq_some.2 rfl
  rw [namesField, hbehind]

theorem namesField_field (hname : isWord name = true) (hrest : Begins rest) :
    namesField (contextual (name ++ rest)) = true := by
  have hword : ∀ c ∈ name, isWordChar c = true := fun _ => isWordChar_of_mem hname
  rw [namesField_contextual, List.dropWhile_append_of_pos hword, decide_eq_true_iff]
  cases hrest with
  | nothing => nofun
  | parted cs => exact nofun
  | call negated cs _ => cases negated <;> exact nofun

theorem namesField_begins (hrest : Begins rest) : namesField rest = false := by
  cases hrest with
  | nothing => rfl
  | parted cs => rfl
  | @call name negated cs hname =>
    cases negated with
    | true => rfl
    | false =>
      have hopen : startsWord ('(' :: cs) = false := rfl
      have hdrop := (word_takeWhile_dropWhile hname hopen).2
      have htext : negating false ++ (contextual name ++ '(' :: cs) = contextual (name ++ '(' :: cs) :=
        contextual_append _ _
      rw [htext, namesField_contextual, hdrop]
      rfl

theorem firstKind_number (h : Numeral cs) (rest : List Char) :
    firstKind (' ' :: (cs ++ rest)) = .number := by
  obtain ⟨c, tail, rfl⟩ := List.exists_cons_of_ne_nil h.ne_nil
  have hc := h.all c (List.mem_cons_self ..)
  have hother : ∀ d ∈ ['!', '\x27', '&', '|', '=', '<', '>', 'c'], c ≠ d := by
    rintro d hd rfl
    have hnone : ∀ d ∈ ['!', '\x27', '&', '|', '=', '<', '>', 'c'], isNumeral d = false := by
      simp [isNumeral]
    cases (hnone c hd).symm.trans hc
  simp only [List.forall_mem_cons] at hother
  simp [firstKind, hother]

theorem firstKind_printed (h : n.Readable) (hrest : Begins rest) :
    firstKind (n.printed ++ rest) = n.kind := by
  cases n with
  | call name as negated => cases negated <;> rfl
  | logical op =>
    cases op with
    | and => rfl
    | or => rfl
    | not =>
      have hne : rest.head? ≠ some '=' := fun heq => absurd (hrest.head '=' heq) (by decide)
      have hkind : firstKind (' ' :: '!' :: rest) = .logical := by
        rw [firstKind, if_neg hne, namesField_begins hrest, if_neg Bool.false_ne_true]
      exact hkind
  | comparison op => cases op <;> rfl
  | string s =>
    rw [printed_string]
    rfl
  | number x =>
    rw [printed_number]
    exact firstKind_number (numeral_text _ h) rest
  | field name negated =>
    rw [printed_field]
    cases negated with
    | false => rfl
    | true =>
      have htext : ' ' :: (negating true ++ contextual name.toList) ++ rest =
          ' ' :: '!' :: contextual (name.toList ++ rest) :=
        congrArg (' ' :: '!' :: ·) (contextual_append _ _)
      rw [htext, firstKind, namesField_field h hrest]
      rfl

theorem firstKind_argument (h : a.Readable) : firstKind (' ' :: a.display.toList) = a.kind := by
  cases a with
  | number x =>
    rw [Argument.display, display, String.toList_ofList]
    rw [← List.append_nil (Layout.text _ x)]
    exact firstKind_number (numeral_text _ h) []
  | string s =>
    rw [Argument.display, toList_quoted]
    rfl
  | field name =>
    rw [Argument.display, toList_fieldText]
    rfl

theorem Argument.eq_of_display (ha : a.Readable) (hb : b.Readable)
    (heq : a.display.toList = b.display.toList) : a = b := by
  have hkind : a.kind = b.kind := by rw [← firstKind_argument ha, ← firstKind_argument hb, heq]
  cases a with
  | number x =>
    cases b with
    | number y => exact congrArg Argument.number (display_injective ha hb (String.toList_injective heq))
    | _ => cases hkind
  | string s =>
    cases b with
    | string s' =>
      rw [Argument.display, Argument.display, toList_quoted, toList_quoted, List.cons.injEq,
        List.append_cancel_right_eq] at heq
      exact congrArg Argument.string (String.toList_injective heq.2)
    | _ => cases hkind
  | field name =>
    cases b with
    | field name' =>
      rw [Argument.display, Argument.display, toList_fieldText, toList_fieldText] at heq
      exact congrArg Argument.field (String.toList_injective (List.append_cancel_left heq))
    | _ => cases hkind

theorem display_argument (h : a.Readable) :
    a.display.toList ≠ [] ∧ ',' ∉ a.display.toList ∧ ')' ∉ a.display.toList := by
  cases a with
  | number x =>
    have hnumeral := numeral_text Layout.display h
    rw [Argument.display, display, String.toList_ofList]
    refine ⟨hnumeral.ne_nil, fun hmem => ?_, fun hmem => ?_⟩
    · cases hnumeral.all _ hmem
    · cases hnumeral.all _ hmem
  | string s =>
    rw [Argument.display, toList_quoted]
    simp [h.1, h.2]
  | field name =>
    rw [Argument.display, toList_fieldText]
    refine ⟨contextual_ne_nil _, ?_, ?_⟩
    · exact not_mem_contextual (by decide) h.1
    · exact not_mem_contextual (by decide) h.2

theorem map_display_injective (has : ∀ a ∈ as, a.Readable) (hbs : ∀ b ∈ bs, b.Readable)
    (heq : as.map (·.display.toList) = bs.map (·.display.toList)) : as = bs := by
  induction as generalizing bs with
  | nil => exact (List.map_eq_nil_iff.1 heq.symm).symm
  | cons a as ih =>
    obtain ⟨ha, has⟩ := List.forall_mem_cons.1 has
    cases bs with
    | nil => cases heq
    | cons b bs =>
      obtain ⟨hb, hbs⟩ := List.forall_mem_cons.1 hbs
      obtain ⟨hdisplay, heq⟩ := List.cons.inj heq
      rw [Argument.eq_of_display ha hb hdisplay, ih has hbs heq]

theorem argumentText_eq_nil (has : ∀ a ∈ as, a.Readable) : argumentText as = [] ↔ as = [] := by
  cases as with
  | nil => simp [argumentText]
  | cons a as =>
    have hne := (display_argument (has a (List.mem_cons_self ..))).1
    cases as with
    | nil => simpa [argumentText] using hne
    | cons b as => simp [argumentText, List.intercalate_cons_cons]

theorem argumentText_injective (has : ∀ a ∈ as, a.Readable) (hbs : ∀ b ∈ bs, b.Readable)
    (heq : argumentText as = argumentText bs) : as = bs := by
  have hsplit {as : List Argument} (has : ∀ a ∈ as, a.Readable) (hne : as ≠ []) :
      splitAll ',' (argumentText as) = as.map (·.display.toList) :=
    splitAll_intercalate (mt List.map_eq_nil_iff.1 hne)
      (List.forall_mem_map.2 fun a ha => (display_argument (has a ha)).2.1)
  by_cases hne : as = []
  · have hnil : argumentText bs = [] := heq ▸ (argumentText_eq_nil has).2 hne
    rw [hne, (argumentText_eq_nil hbs).1 hnil]
  · have hne' : bs ≠ [] := fun hnil => hne <| by
      rw [← argumentText_eq_nil has, heq, argumentText_eq_nil hbs]
      exact hnil
    refine map_display_injective has hbs ?_
    rw [← hsplit has hne, ← hsplit hbs hne', heq]

theorem negation_cancel {negated negated' : Bool}
    (h : negating negated ++ contextual name = negating negated' ++ contextual name') :
    negated = negated' ∧ name = name' := by
  cases negated <;> cases negated'
  · exact ⟨rfl, List.append_cancel_left h⟩
  · cases h
  · cases h
  · exact ⟨rfl, List.append_cancel_left (List.cons.inj h).2⟩

theorem call_cancel {f g : String} {negated negated' : Bool} (hn : (Node.call f as negated).Readable)
    (hn' : (Node.call g bs negated').Readable)
    (h : (Node.call f as negated).printed ++ rest = (Node.call g bs negated').printed ++ rest') :
    Node.call f as negated = Node.call g bs negated' ∧ rest = rest' := by
  have htext (f : String) (as : List Argument) (negated : Bool) (rest : List Char) :
      (Node.call f as negated).printed ++ rest =
        negating negated ++ contextual (f.toList ++ '(' :: (argumentText as ++ ')' :: rest)) := by
    simp only [Node.printed, called, List.append_assoc, contextual_append, List.cons_append,
      List.nil_append]
  have hends (cs : List Char) : EndsName ('(' :: cs) := .inl rfl
  have hclosed {as : List Argument} (has : ∀ a ∈ as, a.Readable) : ')' ∉ argumentText as := by
    intro hmem
    rcases mem_intercalate hmem with hcomma | ⟨cs, hcs, hclose⟩
    · cases hcomma
    · obtain ⟨a, ha, rfl⟩ := List.mem_map.1 hcs
      exact (display_argument (has a ha)).2.2 hclose
  rw [htext, htext] at h
  obtain ⟨rfl, hname⟩ := negation_cancel h
  obtain ⟨hfg, hopen⟩ := name_cancel hn.1 hn'.1 (hends _) (hends _) hname
  obtain ⟨hargs, hrest⟩ := cut_cancel (hclosed hn.2) (hclosed hn'.2) (List.cons.inj hopen).2
  rw [String.toList_injective hfg, argumentText_injective hn.2 hn'.2 hargs]
  exact ⟨rfl, hrest⟩

theorem logical_cancel {op op' : LogicalOp} (h : op.text.toList ++ rest = op'.text.toList ++ rest') :
    op = op' ∧ rest = rest' := by
  have hhead := congrArg List.head? h
  have hop : op = op' := by
    cases op <;> cases op' <;> first | rfl | cases hhead
  subst hop
  exact ⟨rfl, List.append_cancel_left h⟩

theorem comparison_cancel {op op' : ComparisonOp} (hrest : Begins rest) (hrest' : Begins rest')
    (h : op.text.toList ++ rest = op'.text.toList ++ rest') : op = op' ∧ rest = rest' := by
  have hscan (op : ComparisonOp) {rest : List Char} (hrest : Begins rest) :
      scanComparison? (op.text.toList ++ rest) = some (.comparison op, rest) := by
    refine scanComparison?_of_stands (comparison_stands_of_head op fun heq => ?_)
    exact absurd (hrest.head '=' heq) (by decide)
  have heq := hscan op hrest
  rw [h, hscan op' hrest'] at heq
  cases heq
  exact ⟨rfl, rfl⟩

theorem number_cancel {x y : Float} (hx : (decode x).Unsigned) (hy : (decode y).Unsigned)
    (hrest : Begins rest) (hrest' : Begins rest')
    (h : Layout.display.text x ++ rest = Layout.display.text y ++ rest') : x = y ∧ rest = rest' := by
  have hends {rest : List Char} (hrest : Begins rest) : ∀ c ∈ rest.head?, isNumeral c = false := by
    intro c hc
    have hnone : ∀ c ∈ [' ', '!', 'c'], isNumeral c = false := by simp [isNumeral]
    exact hnone c (hrest.head c hc)
  obtain ⟨htext, hrest⟩ := run_cancel (numeral_text _ hx).all (numeral_text _ hy).all (hends hrest)
    (hends hrest') h
  exact ⟨text_injective _ hx hy htext, hrest⟩

theorem printed_cancel (hn : n.Readable) (hn' : n'.Readable) (hrest : Begins rest)
    (hrest' : Begins rest') (h : n.printed ++ rest = n'.printed ++ rest') : n = n' ∧ rest = rest' := by
  have hkind : n.kind = n'.kind := by
    rw [← firstKind_printed hn hrest, ← firstKind_printed hn' hrest', h]
  cases n with
  | call f as negated =>
    cases n' with
    | call g bs negated' => exact call_cancel hn hn' h
    | _ => cases hkind
  | logical op =>
    cases n' with
    | logical op' =>
      obtain ⟨rfl, hrest⟩ := logical_cancel (List.cons.inj h).2
      exact ⟨rfl, hrest⟩
    | _ => cases hkind
  | comparison op =>
    cases n' with
    | comparison op' =>
      obtain ⟨rfl, hrest⟩ := comparison_cancel hrest hrest' (List.cons.inj h).2
      exact ⟨rfl, hrest⟩
    | _ => cases hkind
  | string s =>
    cases n' with
    | string s' =>
      simp only [printed_string, List.cons_append, List.append_assoc, List.nil_append] at h
      obtain ⟨hs, hrest⟩ := cut_cancel hn hn' (List.cons.inj (List.cons.inj h).2).2
      rw [String.toList_injective hs]
      exact ⟨rfl, hrest⟩
    | _ => cases hkind
  | number x =>
    cases n' with
    | number y =>
      rw [printed_number, printed_number] at h
      obtain ⟨rfl, hrest⟩ := number_cancel hn hn' hrest hrest' (List.cons.inj h).2
      exact ⟨rfl, hrest⟩
    | _ => cases hkind
  | field f negated =>
    cases n' with
    | field g negated' =>
      simp only [printed_field, List.cons_append, List.append_assoc, contextual_append] at h
      obtain ⟨rfl, hname⟩ := negation_cancel (List.cons.inj h).2
      obtain ⟨hfg, hrest⟩ := name_cancel hn hn' (.inr hrest) (.inr hrest') hname
      rw [String.toList_injective hfg]
      exact ⟨rfl, hrest⟩
    | _ => cases hkind

theorem flatMap_printed_injective (hns : ∀ n ∈ ns, n.Readable) (hns' : ∀ n ∈ ns', n.Readable)
    (h : ns.flatMap Node.printed = ns'.flatMap Node.printed) : ns = ns' := by
  have hne (n : Node) (rest : List Char) : n.printed ++ rest ≠ [] := by
    cases n with
    | call f as negated => simp [Node.printed, called]
    | _ => exact List.cons_ne_nil _ _
  induction ns generalizing ns' with
  | nil =>
    cases ns' with
    | nil => rfl
    | cons n' ns' => exact absurd h.symm (hne n' _)
  | cons n ns ih =>
    cases ns' with
    | nil => exact absurd h (hne n _)
    | cons n' ns' =>
      obtain ⟨hn, htail⟩ := List.forall_mem_cons.1 hns
      obtain ⟨hn', htail'⟩ := List.forall_mem_cons.1 hns'
      rw [List.flatMap_cons, List.flatMap_cons] at h
      obtain ⟨hnode, hrest⟩ := printed_cancel hn hn' (begins_flatMap htail) (begins_flatMap htail') h
      rw [hnode, ih htail htail' hrest]

theorem parse_eq_of_serialize {source source' : String}
    (h : serialize (parse source) = serialize (parse source')) : parse source = parse source' := by
  refine flatMap_printed_injective (readable_parse source) (readable_parse source') ?_
  rw [← toList_serialize, ← toList_serialize, h]

/-- Sources whose compiled expressions are written alike have the same nodes, and with them everything
that is made of the nodes. Numbers need no care: different ones are written differently. -/
theorem nodes_eq_of_toSource {source source' : String}
    (h : (compileSource source).toSource = (compileSource source').toSource) :
    (compileSource source).nodes = (compileSource source').nodes ∧
      (compileSource source).isValid = (compileSource source').isValid ∧
      (compileSource source).reads = (compileSource source').reads ∧
      ∀ {m : Type → Type} [Monad m] (s : Scope m),
        (compileSource source).evaluate s = (compileSource source').evaluate s := by
  have hparse : parse source = parse source' := parse_eq_of_serialize h
  rw [compileSource, compileSource, hparse]
  exact ⟨rfl, rfl, rfl, fun _ => rfl⟩

def spacious : String := "f( a ,01) @ && !b"

def terse : String := "f(a,1)&&!b"

theorem nodes_eq_of_toSource_spacious :
    (compileSource spacious).toSource = "context.f(context.a,1) && !context.b" ∧
      (compileSource spacious).toSource = (compileSource terse).toSource ∧
      (compileSource spacious).nodes = (compileSource terse).nodes ∧
      (compileSource spacious).isValid = (compileSource terse).isValid ∧
      (compileSource spacious).reads = (compileSource terse).reads ∧
      ∀ {m : Type → Type} [Monad m] (s : Scope m),
        (compileSource spacious).evaluate s = (compileSource terse).evaluate s := by
  have hspacious : (compileSource spacious).toSource = "context.f(context.a,1) && !context.b" := by
    decide +kernel
  have hterse : (compileSource terse).toSource = "context.f(context.a,1) && !context.b" := by
    decide +kernel
  have h := hspacious.trans hterse.symm
  exact ⟨hspacious, h, nodes_eq_of_toSource h⟩

end LiveMarkup.Expression
