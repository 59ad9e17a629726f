import LiveMarkup.Json.Basic
import LiveMarkup.Json.Lexeme

/-!
Reading JSON text in two steps: lexemes are gathered into a tree with a stack of open brackets, and
the tree is turned into a value. The second step refuses what the grammar lets pass: strings with
unpaired surrogates, numbers beyond the floats, and nesting beyond `maxDepth`.
-/

namespace LiveMarkup.Json

open LiveMarkup.Decimal

inductive Literal where
  | null
  | bool (b : Bool)
  | number (n : NumberText)
  | string (content : Option String)
  | array (items : List Literal)
  | object (entries : List (Option String × Literal))
  deriving Repr

/-- An open bracket with what was read inside it, last first. An object also has the key whose value
is being read. -/
inductive Frame where
  | array (items : List Literal)
  | object (entries : List (Option String × Literal)) (key : Option String)
  deriving Repr

inductive Expect where
  | value
  | valueOrClose
  | key (entries : List (Option String × Literal)) (mayClose : Bool)
  | colon (entries : List (Option String × Literal)) (key : Option String)
  | separator (last : Literal)
  deriving Repr

def scalar? : Lexeme → Option Literal
  | .null => some .null
  | .bool b => some (.bool b)
  | .number n => some (.number n)
  | .string s => some (.string s)
  | _ => none

def valueStep (frames : List Frame) (l : Lexeme) : Option (Expect × List Frame) :=
  match l with
  | .openArray => some (.valueOrClose, .array [] :: frames)
  | .openObject => some (.key [] true, frames)
  | l => (scalar? l).map fun v => (.separator v, frames)

def gatherStep : Expect → List Frame → Lexeme → Option (Expect × List Frame)
  | .value, frames, l => valueStep frames l
  | .valueOrClose, .array [] :: frames, .closeArray => some (.separator (.array []), frames)
  | .valueOrClose, frames, l => valueStep frames l
  | .key entries true, frames, .closeObject => some (.separator (.object entries.reverse), frames)
  | .key entries _, frames, .string key => some (.colon entries key, frames)
  | .colon entries key, frames, .colon => some (.value, .object entries key :: frames)
  | .separator v, .array items :: frames, .comma => some (.value, .array (v :: items) :: frames)
  | .separator v, .array items :: frames, .closeArray =>
    some (.separator (.array (v :: items).reverse), frames)
  | .separator v, .object entries key :: frames, .comma =>
    some (.key ((key, v) :: entries) false, frames)
  | .separator v, .object entries key :: frames, .closeObject =>
    some (.separator (.object ((key, v) :: entries).reverse), frames)
  | _, _, _ => none

def gather : Expect → List Frame → List Lexeme → Option Literal
  | .separator v, [], [] => some v
  | _, _, [] => none
  | expect, frames, l :: rest =>
    match gatherStep expect frames l with
    | some (expect, frames) => gather expect frames rest
    | none => none

def literal? (cs : List Char) : Option Literal := (lexemes? cs).bind (gather .value [])

/-- A significand of 64 bits: digits beyond it count in the exponent before the point and not at all
behind it. -/
structure Significand where
  value : Nat
  exponent : Int
  full : Bool
  deriving Repr

def Significand.addWhole (s : Significand) (c : Char) : Significand :=
  let next := 10 * s.value + (c.toNat - '0'.toNat)
  if s.full || pow2 64 ≤ next then { s with exponent := s.exponent + 1, full := true }
  else { s with value := next }

def Significand.addFraction (s : Significand) (c : Char) : Significand :=
  let next := 10 * s.value + (c.toNat - '0'.toNat)
  if s.full || pow2 64 ≤ next then { s with full := true }
  else { s with value := next, exponent := s.exponent - 1 }

def powerOfTen (n : Nat) : Float := nearest false (pow10 n) 1

/-- `m * 10 ^ e` with one rounding for the significand, one for the power and one for the product;
none if that is infinite. -/
def scaled? (m : Nat) (e : Int) : Option Float :=
  let x := nearest false m 1
  if m = 0 then some x
  else if 308 < e then none
  else if 0 ≤ e then
    let y := x * powerOfTen e.toNat
    if y.isInf then none else some y
  else if -308 ≤ e then some (x / powerOfTen (-e).toNat)
  else if -616 ≤ e then some (x / powerOfTen 308 / powerOfTen (-(e + 308)).toNat)
  else some (nearest false 0 1)

/-- The largest exponent that is kept; a greater one makes any number but zero too large or zero. -/
def maxExponent : Nat := pow2 31 - 1

def NumberText.value? (n : NumberText) : Option Json :=
  let s := n.whole.foldl Significand.addWhole ⟨0, 0, false⟩
  let signed (x : Float) : Json := .float (if n.negative then -x else x)
  match n.fraction, n.exponent with
  | none, none =>
    if s.full then (scaled? s.value s.exponent).map signed
    else if n.negative then
      if s.value = 0 ∨ pow2 63 < s.value then some (signed (nearest false s.value 1))
      else some (.int (-s.value))
    else some (.int s.value)
  | fraction, exponent =>
    let s := (fraction.getD []).foldl Significand.addFraction { s with full := false }
    let (negative, digits) := exponent.getD (false, [])
    let e := digitsValue digits
    if maxExponent < e then
      if s.value ≠ 0 ∧ !negative then none else some (signed (nearest false 0 1))
    else (scaled? s.value (if negative then s.exponent - e else s.exponent + e)).map signed

def maxDepth : Nat := 127

mutual

def Literal.value? (depth : Nat) : Literal → Option Json
  | .null => some .null
  | .bool b => some (.bool b)
  | .number n => n.value?
  | .string s => s.map .string
  | .array items => if depth = 0 then none else (itemValues? (depth - 1) items).map .array
  | .object entries =>
    if depth = 0 then none
    else (entryValues? (depth - 1) entries).map fun es => .object (Table.ofList es)

def itemValues? (depth : Nat) : List Literal → Option (List Json)
  | [] => some []
  | v :: vs =>
    match v.value? depth, itemValues? depth vs with
    | some j, some js => some (j :: js)
    | _, _ => none

def entryValues? (depth : Nat) : List (Option String × Literal) → Option (List (String × Json))
  | [] => some []
  | (k, v) :: es =>
    match k, v.value? depth, entryValues? depth es with
    | some k, some j, some js => some ((k, j) :: js)
    | _, _, _ => none

end

/-- The value of a JSON text; of equal keys in an object the last one counts. -/
def read? (s : String) : Option Json := (literal? s.toList).bind (Literal.value? maxDepth)

end LiveMarkup.Json
