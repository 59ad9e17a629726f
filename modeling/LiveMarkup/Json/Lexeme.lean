import LiveMarkup.Decimal.Read

/-!
The lexemes of JSON text. A string whose escapes leave a surrogate unpaired has no content; a number
is kept as written.
-/

namespace LiveMarkup.Json

open LiveMarkup.Text LiveMarkup.Decimal

structure NumberText where
  negative : Bool
  whole : List Char
  fraction : Option (List Char)
  exponent : Option (Bool × List Char)
  deriving DecidableEq, Repr

inductive Lexeme where
  | openArray
  | closeArray
  | openObject
  | closeObject
  | colon
  | comma
  | null
  | bool (b : Bool)
  | number (n : NumberText)
  | string (content : Option String)
  deriving DecidableEq, Repr

def isJsonSpace (c : Char) : Bool := c == ' ' || c == '\n' || c == '\t' || c == '\r'

def hexValue? (c : Char) : Option Nat :=
  if c.isDigit then some (c.toNat - '0'.toNat)
  else if 'a' ≤ c ∧ c ≤ 'f' then some (c.toNat - 'a'.toNat + 10)
  else if 'A' ≤ c ∧ c ≤ 'F' then some (c.toNat - 'A'.toNat + 10)
  else none

def hexUnit? (a b c d : Char) : Option Nat := do
  return ((← hexValue? a) * 16 + (← hexValue? b)) * 256 + ((← hexValue? c) * 16 + (← hexValue? d))

/-- One element of a string: a character, or a code unit written in hexadecimal. -/
inductive StringPart where
  | char (c : Char)
  | unit (n : Nat)
  deriving DecidableEq, Repr

def simpleEscape? : Char → Option Char
  | '"' => some '"'
  | '\\' => some '\\'
  | '/' => some '/'
  | 'b' => some '\x08'
  | 'f' => some '\x0c'
  | 'n' => some '\n'
  | 'r' => some '\r'
  | 't' => some '\t'
  | _ => none

def stringParts : List Char → Option (List StringPart × List Char)
  | [] => none
  | '"' :: rest => some ([], rest)
  | '\\' :: 'u' :: a :: b :: c :: d :: rest =>
    match hexUnit? a b c d with
    | some n => (stringParts rest).map fun p => (.unit n :: p.1, p.2)
    | none => none
  | '\\' :: e :: rest =>
    match simpleEscape? e with
    | some c => (stringParts rest).map fun p => (.char c :: p.1, p.2)
    | none => none
  | c :: rest =>
    if c = '\\' ∨ c.toNat < 32 then none
    else (stringParts rest).map fun p => (.char c :: p.1, p.2)

def isHighSurrogate (n : Nat) : Bool := 0xD800 ≤ n && n ≤ 0xDBFF

def isLowSurrogate (n : Nat) : Bool := 0xDC00 ≤ n && n ≤ 0xDFFF

/-- Joins surrogate pairs; an unpaired surrogate spoils the string. -/
def joinParts : List StringPart → Option (List Char)
  | [] => some []
  | .char c :: rest => (joinParts rest).map (c :: ·)
  | .unit n :: rest =>
    if isHighSurrogate n then
      match rest with
      | .unit m :: rest =>
        if isLowSurrogate m then
          (joinParts rest).map
            (Char.ofNat (0x10000 + (n - 0xD800) * 0x400 + (m - 0xDC00)) :: ·)
        else none
      | _ => none
    else if isLowSurrogate n then none
    else (joinParts rest).map (Char.ofNat n :: ·)

def fractionPart? : List Char → Option (Option (List Char) × List Char)
  | '.' :: rest =>
    let digits := rest.takeWhile Char.isDigit
    if digits.isEmpty then none else some (some digits, rest.dropWhile Char.isDigit)
  | rest => some (none, rest)

def exponentPart? : List Char → Option (Option (Bool × List Char) × List Char)
  | c :: rest =>
    if c = 'e' ∨ c = 'E' then
      let (negative, rest) := takeSign rest
      let digits := rest.takeWhile Char.isDigit
      if digits.isEmpty then none
      else some (some (negative, digits), rest.dropWhile Char.isDigit)
    else some (none, c :: rest)
  | [] => some (none, [])

def unsignedNumber? (negative : Bool) (cs : List Char) : Option (NumberText × List Char) := do
  let whole := cs.takeWhile Char.isDigit
  if whole.isEmpty || (1 < whole.length && whole.head? == some '0') then none
  else
    let (fraction, rest) ← fractionPart? (cs.dropWhile Char.isDigit)
    let (exponent, rest) ← exponentPart? rest
    return (⟨negative, whole, fraction, exponent⟩, rest)

def lexeme? : List Char → Option (Lexeme × List Char)
  | '[' :: rest => some (.openArray, rest)
  | ']' :: rest => some (.closeArray, rest)
  | '\x7b' :: rest => some (.openObject, rest)
  | '\x7d' :: rest => some (.closeObject, rest)
  | ':' :: rest => some (.colon, rest)
  | ',' :: rest => some (.comma, rest)
  | 'n' :: 'u' :: 'l' :: 'l' :: rest => some (.null, rest)
  | 't' :: 'r' :: 'u' :: 'e' :: rest => some (.bool true, rest)
  | 'f' :: 'a' :: 'l' :: 's' :: 'e' :: rest => some (.bool false, rest)
  | '"' :: rest => (stringParts rest).map fun p =>
      (.string ((joinParts p.1).map String.ofList), p.2)
  | '-' :: rest => (unsignedNumber? true rest).map fun p => (.number p.1, p.2)
  | cs => (unsignedNumber? false cs).map fun p => (.number p.1, p.2)

/-- All lexemes of a text. Every lexeme takes a character at least, so the length of the text is
enough fuel. -/
def lexemesWithin : Nat → List Char → Option (List Lexeme)
  | 0, cs => if (cs.dropWhile isJsonSpace).isEmpty then some [] else none
  | fuel + 1, cs =>
    match cs.dropWhile isJsonSpace with
    | [] => some []
    | c :: rest =>
      match lexeme? (c :: rest) with
      | none => none
      | some (l, rest) => (lexemesWithin fuel rest).map (l :: ·)

def lexemes? (cs : List Char) : Option (List Lexeme) := lexemesWithin cs.length cs

end LiveMarkup.Json
