import LiveMarkup.Expression.Scan
import LiveMarkup.Decimal.Layout
import LiveMarkup.Decimal.Read

/-!
Nodes of expressions, in source order: operands with their arguments read, and operators. The written
form of a node names fields by their context.
-/

namespace LiveMarkup.Expression

open LiveMarkup.Text

inductive Argument where
  | number (x : Float)
  | string (s : String)
  | field (name : String)
  deriving DecidableEq, Repr

inductive Node where
  | call (name : String) (arguments : List Argument) (negated : Bool)
  | logical (op : LogicalOp)
  | comparison (op : ComparisonOp)
  | string (s : String)
  | number (x : Float)
  | field (name : String) (negated : Bool)
  deriving DecidableEq, Repr

def Node.isOperand : Node → Bool
  | .logical _ => false
  | .comparison _ => false
  | _ => true

def fieldText (name : String) : String := "context." ++ name

def quoted (s : String) : String := "'" ++ s ++ "'"

def Argument.display : Argument → String
  | .number x => Decimal.display x
  | .string s => quoted s
  | .field name => fieldText name

def negation (negated : Bool) : String := if negated then "!" else ""

def callText (name : String) (arguments : List Argument) : String :=
  fieldText name ++ "(" ++ String.intercalate "," (arguments.map Argument.display) ++ ")"

def Node.display : Node → String
  | .call name arguments negated => negation negated ++ callText name arguments
  | .logical op => op.text
  | .comparison op => op.text
  | .string s => quoted s
  | .number x => Decimal.display x
  | .field name negated => negation negated ++ fieldText name

/-- Reads one argument: nothing is the empty string, digits are a number, quotes make a string, and
anything else names a field. -/
def argument (cs : List Char) : Argument :=
  let cs := trim cs
  if cs.isEmpty then .string ""
  else if isInteger cs then .number (Decimal.ofDigits cs)
  else if isQuoted cs then .string (String.ofList (cs.drop 1).dropLast)
  else .field (String.ofList cs)

def arguments (text : String) : List Argument :=
  if (trim text.toList).isEmpty then [] else (splitAll ',' text.toList).map argument

def classify (t : Token) : Node :=
  match t.lexeme with
  | .call name text => .call name (arguments text) t.negated
  | .logical op => .logical op
  | .comparison op => .comparison op
  | .quoted content => .string content
  | .number digits => .number (Decimal.ofDigits digits.toList)
  | .word name => .field name t.negated

/-- A negated number has no place for its negation and becomes two nodes. -/
def nodesOf (t : Token) : List Node :=
  match t.lexeme with
  | .number _ => if t.negated then [.logical .not, classify t] else [classify t]
  | _ => [classify t]

def build (ts : List Token) : List Node := ts.flatMap nodesOf

def parse (source : String) : List Node := build ((tokenize source).map Located.item)

def serialize : List Node → String
  | [] => ""
  | n :: ns =>
    match n with
    | .call .. => n.display ++ serialize ns
    | _ => " " ++ n.display ++ serialize ns

end LiveMarkup.Expression
