import LiveMarkup.Text.Cut

/-!
Compound selectors: a tag name, then identifiers and classes, with no space in between.
-/

namespace LiveMarkup

open LiveMarkup.Text

structure Selector where
  tag : Option String
  id : Option String
  classes : List String
  deriving DecidableEq, Repr

namespace Selector

def isNameChar (c : Char) : Bool := isWordChar c || c == '-'

def parts (s : Selector) : List Char → Option Selector
  | [] => some s
  | c :: cs =>
    let name := cs.takeWhile isNameChar
    if name.isEmpty then none
    else if c = '#' then
      parts { s with id := some (String.ofList name) } (cs.dropWhile isNameChar)
    else if c = '.' then
      parts { s with classes := s.classes ++ [String.ofList name] } (cs.dropWhile isNameChar)
    else none
termination_by cs => cs.length
decreasing_by
  all_goals
    have := (List.dropWhile_sublist isNameChar (l := cs)).length_le
    simp
    omega

/-- Reads a selector; of several identifiers the last one counts. -/
def parse? (source : String) : Option Selector :=
  let cs := trim source.toList
  let tag := cs.takeWhile isNameChar
  if cs.isEmpty then none
  else
    parts ⟨if tag.isEmpty then none else some (String.ofList tag).asciiLower, none, []⟩
      (cs.dropWhile isNameChar)

def hasClass (list name : String) : Bool :=
  (spaceSeparated list.toList).contains name.toList

def matchesTag (s : Selector) (tag : String) : Bool :=
  match s.tag with
  | none => true
  | some expected => tag.asciiLower == expected.asciiLower

def matchesId (s : Selector) (id : Option String) : Bool :=
  match s.id with
  | none => true
  | some expected => id == some expected

def matchesClasses (s : Selector) (list : Option String) : Bool :=
  s.classes.all fun name =>
    match list with
    | none => false
    | some list => hasClass list name

def accepts (s : Selector) (tag : String) (id list : Option String) : Bool :=
  s.matchesTag tag && s.matchesId id && s.matchesClasses list

end Selector

end LiveMarkup
