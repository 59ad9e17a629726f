import LiveMarkup.Text.Cut

/-!
Lexical tokens of expressions. A token knows the text it was read from.
-/

namespace LiveMarkup.Expression

inductive LogicalOp where
  | and
  | or
  | not
  deriving DecidableEq, Repr

def LogicalOp.text : LogicalOp → String
  | .and => "&&"
  | .or => "||"
  | .not => "!"

inductive ComparisonOp where
  | looseEq
  | strictEq
  | looseNe
  | strictNe
  | lt
  | le
  | gt
  | ge
  deriving DecidableEq, Repr

def ComparisonOp.text : ComparisonOp → String
  | .looseEq => "=="
  | .strictEq => "==="
  | .looseNe => "!="
  | .strictNe => "!=="
  | .lt => "<"
  | .le => "<="
  | .gt => ">"
  | .ge => ">="

def ComparisonOp.longestFirst : List ComparisonOp :=
  [.strictEq, .strictNe, .looseEq, .looseNe, .le, .ge, .lt, .gt]

inductive Lexeme where
  | call (name arguments : String)
  | logical (op : LogicalOp)
  | comparison (op : ComparisonOp)
  | quoted (content : String)
  | number (digits : String)
  | word (name : String)
  deriving DecidableEq, Repr

def Lexeme.raw : Lexeme → List Char
  | .call name arguments => name.toList ++ '(' :: arguments.toList ++ [')']
  | .logical op => op.text.toList
  | .comparison op => op.text.toList
  | .quoted content => '\x27' :: content.toList ++ ['\x27']
  | .number digits => digits.toList
  | .word name => name.toList

structure Token where
  lexeme : Lexeme
  negated : Bool
  deriving DecidableEq, Repr

def Token.text (t : Token) : List Char := if t.negated then '!' :: t.lexeme.raw else t.lexeme.raw

def Lexeme.kindName : Lexeme → String
  | .call .. => "function"
  | .logical _ => "logical"
  | .comparison _ => "comparison"
  | .quoted _ => "string"
  | .number _ => "number"
  | .word _ => "variable"

end LiveMarkup.Expression
