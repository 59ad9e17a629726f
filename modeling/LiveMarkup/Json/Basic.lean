import LiveMarkup.Table
import LiveMarkup.Decimal.Layout

/-!
JSON values. Whole numbers that fit 64 bits are kept apart from floats, so `1` and `1.0` differ;
the entries of an object that was read from text are in increasing order of keys.
-/

namespace LiveMarkup

inductive Json where
  | null
  | bool (b : Bool)
  | int (n : Int)
  | float (x : Float)
  | string (s : String)
  | array (items : List Json)
  | object (entries : List (String × Json))
  deriving Repr, Inhabited

namespace Json

mutual

def same : Json → Json → Bool
  | .null, .null => true
  | .bool a, .bool b => a == b
  | .int a, .int b => a == b
  | .float a, .float b => a == b
  | .string a, .string b => a == b
  | .array as, .array bs => sameItems as bs
  | .object as, .object bs => sameEntries as bs
  | _, _ => false

def sameItems : List Json → List Json → Bool
  | [], [] => true
  | a :: as, b :: bs => same a b && sameItems as bs
  | _, _ => false

def sameEntries : List (String × Json) → List (String × Json) → Bool
  | [], [] => true
  | (k, a) :: as, (l, b) :: bs => k == l && same a b && sameEntries as bs
  | _, _ => false

end

def field? (name : String) : Json → Option Json
  | .object entries => Table.find? name entries
  | _ => none

def string? : Json → Option String
  | .string s => some s
  | _ => none

def array? : Json → Option (List Json)
  | .array items => some items
  | _ => none

def nat? : Json → Option Nat
  | .int n => if 0 ≤ n then some n.toNat else none
  | _ => none

def hexDigit (n : Nat) : Char := Nat.digitChar (n % 16)

def escapeChar (c : Char) : List Char :=
  match c with
  | '"' => ['\\', '"']
  | '\\' => ['\\', '\\']
  | '\x08' => ['\\', 'b']
  | '\t' => ['\\', 't']
  | '\n' => ['\\', 'n']
  | '\x0c' => ['\\', 'f']
  | '\r' => ['\\', 'r']
  | c =>
    if c.toNat < 32 then ['\\', 'u', '0', '0', hexDigit (c.toNat / 16), hexDigit c.toNat] else [c]

def quote (s : String) : String :=
  String.ofList ('"' :: s.toList.foldr (fun c rest => escapeChar c ++ rest) ['"'])

def numberText (x : Float) : String := String.ofList (Decimal.Layout.data.text x)

mutual

def compact : Json → String
  | .null => "null"
  | .bool b => if b then "true" else "false"
  | .int n => toString n
  | .float x => numberText x
  | .string s => quote s
  | .array items => "[" ++ String.intercalate "," (compactItems items) ++ "]"
  | .object entries => "\x7b" ++ String.intercalate "," (compactEntries entries) ++ "\x7d"

def compactItems : List Json → List String
  | [] => []
  | v :: vs => compact v :: compactItems vs

def compactEntries : List (String × Json) → List String
  | [] => []
  | (k, v) :: es => (quote k ++ ":" ++ compact v) :: compactEntries es

end

def indentation (depth : Nat) : String := String.ofList (List.replicate (2 * depth) ' ')

def bracketed (opening closing : String) (depth : Nat) : List String → String
  | [] => opening ++ closing
  | items =>
    opening ++ "\n"
      ++ String.intercalate ",\n" (items.map (indentation (depth + 1) ++ ·))
      ++ "\n" ++ indentation depth ++ closing

mutual

def pretty (depth : Nat) : Json → String
  | .array items => bracketed "[" "]" depth (prettyItems (depth + 1) items)
  | .object entries => bracketed "\x7b" "\x7d" depth (prettyEntries (depth + 1) entries)
  | v => compact v

def prettyItems (depth : Nat) : List Json → List String
  | [] => []
  | v :: vs => pretty depth v :: prettyItems depth vs

def prettyEntries (depth : Nat) : List (String × Json) → List String
  | [] => []
  | (k, v) :: es => (quote k ++ ": " ++ pretty depth v) :: prettyEntries depth es

end

end Json

end LiveMarkup
