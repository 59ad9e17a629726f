import LiveMarkup.Markup.CharacterName

/-!
Character references and escapes. A reference is numeric, with or without a semicolon at its end, or
a name; a few names need no semicolon. An ampersand that begins no reference stands for itself.
-/

namespace LiveMarkup.Markup

open LiveMarkup.Text

namespace CharacterReference

def replacements : List Nat :=
  [0x20AC, 0x81, 0x201A, 0x192, 0x201E, 0x2026, 0x2020, 0x2021, 0x2C6, 0x2030, 0x160, 0x2039,
   0x152, 0x8D, 0x17D, 0x8F, 0x90, 0x2018, 0x2019, 0x201C, 0x201D, 0x2022, 0x2013, 0x2014,
   0x2DC, 0x2122, 0x161, 0x203A, 0x153, 0x9D, 0x17E, 0x178]

def ofNumber (n : Nat) : Char :=
  if 0x80 ≤ n ∧ n < 0xA0 then Char.ofNat (replacements.getD (n - 0x80) n)
  else if n = 0 ∨ ¬n.isValidChar then Char.ofNat 0xFFFD
  else Char.ofNat n

def isHexDigit (c : Char) : Bool :=
  c.isDigit || ('a' ≤ c && c ≤ 'f') || ('A' ≤ c && c ≤ 'F')

def dropSemicolon : List Char → List Char
  | ';' :: cs => cs
  | cs => cs

def numeric? (isDigit : Char → Bool) (value : List Char → Nat) (cs : List Char) :
    Option (List Char × List Char) :=
  let digits := cs.takeWhile isDigit
  if digits.isEmpty then none
  else some ([ofNumber (value digits)], dropSemicolon (cs.dropWhile isDigit))

def decimalNumber (cs : List Char) : Nat :=
  cs.foldl (fun n c => 10 * n + CharacterName.hexValue c) 0

def bare? (cs : List Char) : Option (List Char × List Char) :=
  (List.range 7).reverse.findSome? fun n =>
    if CharacterName.bareNames.contains (cs.take n) then
      (CharacterName.meaning? (cs.take n)).map fun meaning => (meaning, cs.drop n)
    else none

def named? (cs : List Char) : Option (List Char × List Char) :=
  let name := cs.takeWhile Char.isAlphanum
  match cs.dropWhile Char.isAlphanum with
  | ';' :: rest =>
    match CharacterName.meaning? name with
    | some meaning => some (meaning, rest)
    | none => bare? cs
  | _ => bare? cs

def read? : List Char → Option (List Char × List Char)
  | '#' :: 'x' :: cs => numeric? isHexDigit CharacterName.hexNumber cs
  | '#' :: 'X' :: cs => numeric? isHexDigit CharacterName.hexNumber cs
  | '#' :: cs => numeric? Char.isDigit decimalNumber cs
  | cs => named? cs

theorem length_dropSemicolon (cs : List Char) : (dropSemicolon cs).length ≤ cs.length := by
  unfold dropSemicolon
  split <;> simp

theorem numeric?_length {isDigit : Char → Bool} {value : List Char → Nat}
    {cs meaning rest : List Char} (h : numeric? isDigit value cs = some (meaning, rest)) :
    rest.length ≤ cs.length := by
  simp only [numeric?] at h
  split at h
  · simp at h
  · simp only [Option.some.injEq, Prod.mk.injEq] at h
    rw [← h.2]
    exact Nat.le_trans (length_dropSemicolon _) (List.dropWhile_sublist _).length_le

theorem bare?_length {cs meaning rest : List Char} (h : bare? cs = some (meaning, rest)) :
    rest.length ≤ cs.length := by
  obtain ⟨n, _, hn⟩ := List.exists_of_findSome?_eq_some h
  split at hn
  · obtain ⟨_, _, hm⟩ := Option.map_eq_some_iff.1 hn
    simp only [Prod.mk.injEq] at hm
    rw [← hm.2]
    simp
  · simp at hn

theorem named?_length {cs meaning rest : List Char} (h : named? cs = some (meaning, rest)) :
    rest.length ≤ cs.length := by
  have hlen := (List.dropWhile_sublist Char.isAlphanum (l := cs)).length_le
  simp only [named?] at h
  split at h
  · next tail ht =>
    rw [ht] at hlen
    split at h
    · simp only [Option.some.injEq, Prod.mk.injEq] at h
      rw [← h.2]
      simp only [List.length_cons] at hlen
      omega
    · exact bare?_length h
  · exact bare?_length h

theorem read?_length {cs meaning rest : List Char} (h : read? cs = some (meaning, rest)) :
    rest.length ≤ cs.length := by
  unfold read? at h
  split at h
  · have := numeric?_length h; simp; omega
  · have := numeric?_length h; simp; omega
  · have := numeric?_length h; simp; omega
  · exact named?_length h

end CharacterReference

def unescape : List Char → List Char
  | [] => []
  | c :: cs =>
    if c = '&' then
      match _h : CharacterReference.read? cs with
      | some (meaning, rest) => meaning ++ unescape rest
      | none => c :: unescape cs
    else c :: unescape cs
termination_by cs => cs.length
decreasing_by
  · have := CharacterReference.read?_length ‹_›
    simp
    omega
  · simp
  · simp

def escapeTextChar : Char → List Char
  | '&' => ['&', 'a', 'm', 'p', ';']
  | '<' => ['&', 'l', 't', ';']
  | '>' => ['&', 'g', 't', ';']
  | c => [c]

def escapeAttributeChar : Char → List Char
  | '"' => ['&', 'q', 'u', 'o', 't', ';']
  | c => escapeTextChar c

theorem unescape_cons_of_ne {c : Char} (h : c ≠ '&') (cs : List Char) :
    unescape (c :: cs) = c :: unescape cs := by
  rw [unescape, if_neg h]

theorem unescape_reference (cs : List Char) {meaning rest : List Char}
    (h : CharacterReference.read? cs = some (meaning, rest)) :
    unescape ('&' :: cs) = meaning ++ unescape rest := by
  rw [unescape, if_pos rfl]
  split
  · next h' =>
    rw [h] at h'
    simp only [Option.some.injEq, Prod.mk.injEq] at h'
    rw [h'.1, h'.2]
  · next h' => simp [h] at h'

theorem unescape_escapeTextChar (c : Char) (cs : List Char) :
    unescape (escapeTextChar c ++ cs) = c :: unescape cs := by
  unfold escapeTextChar
  split
  · exact unescape_reference ('a' :: 'm' :: 'p' :: ';' :: cs) rfl
  · exact unescape_reference ('l' :: 't' :: ';' :: cs) rfl
  · exact unescape_reference ('g' :: 't' :: ';' :: cs) rfl
  · next h _ _ => exact unescape_cons_of_ne h cs

theorem unescape_escapeAttributeChar (c : Char) (cs : List Char) :
    unescape (escapeAttributeChar c ++ cs) = c :: unescape cs := by
  unfold escapeAttributeChar
  split
  · exact unescape_reference ('q' :: 'u' :: 'o' :: 't' :: ';' :: cs) rfl
  · exact unescape_escapeTextChar c cs

def escapeText (cs : List Char) : List Char := cs.flatMap escapeTextChar

def escapeAttribute (cs : List Char) : List Char := cs.flatMap escapeAttributeChar

theorem unescape_escapeText (cs : List Char) : unescape (escapeText cs) = cs := by
  induction cs with
  | nil => simp [escapeText, unescape]
  | cons c cs ih =>
    rw [escapeText, List.flatMap_cons, unescape_escapeTextChar, ← escapeText, ih]

theorem unescape_escapeAttribute (cs : List Char) : unescape (escapeAttribute cs) = cs := by
  induction cs with
  | nil => simp [escapeAttribute, unescape]
  | cons c cs ih =>
    rw [escapeAttribute, List.flatMap_cons, unescape_escapeAttributeChar, ← escapeAttribute, ih]

end LiveMarkup.Markup
