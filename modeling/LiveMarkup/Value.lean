import LiveMarkup.Json.Basic
import LiveMarkup.Decimal.Read

/-!
Values of fields and expressions: undefined, null, booleans, numbers, strings, and arrays and
objects as data. Comparisons coerce as template authors expect of scripts.
-/

namespace LiveMarkup

inductive Value where
  | undefined
  | null
  | bool (b : Bool)
  | number (x : Float)
  | string (s : String)
  | data (json : Json)
  deriving Repr, Inhabited

mutual

def Json.display : Json → String
  | .null => "null"
  | .bool b => if b then "true" else "false"
  | .int n => Decimal.display (Decimal.ofInt n)
  | .float x => Decimal.display x
  | .string s => s
  | .array items => String.intercalate "," (Json.displayItems items)
  | .object _ => "[object Object]"

def Json.displayItems : List Json → List String
  | [] => []
  | .null :: vs => "" :: Json.displayItems vs
  | v :: vs => v.display :: Json.displayItems vs

end

namespace Value

def ofJson : Json → Value
  | .null => .null
  | .bool b => .bool b
  | .int n => .number (Decimal.ofInt n)
  | .float x => .number x
  | .string s => .string s
  | v => .data v

/-- Integers in this range stand for themselves as floats. -/
def maxSafeInteger : Nat := Decimal.pow2 53 - 1

def jsonOfNumber (x : Float) : Json :=
  match Decimal.integral? x with
  | some n => if n.natAbs ≤ maxSafeInteger then .int n else .float x
  | none => if x.isFinite then .float x else .null

def toJson : Value → Json
  | .undefined => .null
  | .null => .null
  | .bool b => .bool b
  | .number x => jsonOfNumber x
  | .string s => .string s
  | .data v => v

def typeName : Value → String
  | .undefined => "undefined"
  | .null => "null"
  | .bool _ => "boolean"
  | .number _ => "number"
  | .string _ => "string"
  | .data _ => "object"

def string? : Value → Option String
  | .string s => some s
  | _ => none

def number? : Value → Option Float
  | .number x => some x
  | _ => none

def bool? : Value → Option Bool
  | .bool b => some b
  | _ => none

def isNullish : Value → Bool
  | .undefined => true
  | .null => true
  | _ => false

def display : Value → String
  | .undefined => "undefined"
  | .null => "null"
  | .bool b => if b then "true" else "false"
  | .number x => Decimal.display x
  | .string s => s
  | .data v => v.display

def truthy : Value → Bool
  | .undefined => false
  | .null => false
  | .bool b => b
  | .number x => !(x == 0) && !x.isNaN
  | .string s => !s.isEmpty
  | .data _ => true

def ofBool (b : Bool) : Float := if b then 1 else 0

def toNumber : Value → Float
  | .undefined => Decimal.nan
  | .null => 0
  | .bool b => ofBool b
  | .number x => x
  | .string s => Decimal.ofText s.toList
  | .data v => Decimal.ofText v.display.toList

def strictEq : Value → Value → Bool
  | .undefined, .undefined => true
  | .null, .null => true
  | .bool a, .bool b => a == b
  | .number a, .number b => a == b
  | .string a, .string b => a == b
  | .data a, .data b => a.same b
  | _, _ => false

inductive Comparand where
  | number (x : Float)
  | text (s : String)
  | data (v : Json)
  deriving Repr

def comparand? : Value → Option Comparand
  | .undefined => none
  | .null => none
  | .bool b => some (.number (ofBool b))
  | .number x => some (.number x)
  | .string s => some (.text s)
  | .data v => some (.data v)

def Comparand.text? : Comparand → Option String
  | .number _ => none
  | .text s => some s
  | .data v => some v.display

def Comparand.toNumber : Comparand → Float
  | .number x => x
  | .text s => Decimal.ofText s.toList
  | .data v => Decimal.ofText v.display.toList

def Comparand.eq : Comparand → Comparand → Bool
  | .data a, .data b => a.same b
  | a, b =>
    match a.text?, b.text? with
    | some s, some t => s == t
    | _, _ => a.toNumber == b.toNumber

def looseEq (a b : Value) : Bool :=
  match comparand? a, comparand? b with
  | none, none => true
  | some a, some b => a.eq b
  | _, _ => false

def compareFloats (x y : Float) : Option Ordering :=
  if x < y then some .lt else if y < x then some .gt else if x == y then some .eq else none

def text? : Value → Option String
  | .string s => some s
  | .data v => some v.display
  | _ => none

/-- Order after coercion: of two texts by characters, else of numbers; none with a number that is
none. -/
def looseCmp (a b : Value) : Option Ordering :=
  match a.text?, b.text? with
  | some s, some t => some (compareOfLessAndEq s t)
  | _, _ => compareFloats a.toNumber b.toNumber

end Value

end LiveMarkup
