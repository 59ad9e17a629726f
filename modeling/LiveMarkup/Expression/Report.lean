import LiveMarkup.Expression.Compiled
import LiveMarkup.Json.Basic

/-!
What becomes of the source of an expression: its tokens, the fragments left out, its nodes, and
what it may read. A report is shown as text or as JSON.
-/

namespace LiveMarkup.Expression

open LiveMarkup.Text

structure Report where
  expression : String
  tokens : List (Located Token)
  skipped : List (Located (List Char))
  compiled : Compiled
  deriving Repr

def inspect (expression : String) : Report :=
  let ts := tokenize expression
  ⟨expression, ts, Expression.skipped expression, compile (build (ts.map Located.item))⟩

namespace Report

def spanText (s : Span) : String := toString s.start ++ ".." ++ toString s.stop

def column (width : Nat) (s : String) : String :=
  s ++ String.ofList (List.replicate (width - s.length) ' ')

def tokenLine (t : Located Token) : String :=
  "  " ++ column 8 (spanText t.span) ++ " " ++ column 10 t.item.lexeme.kindName ++ " "
    ++ String.ofList t.item.lexeme.raw ++ (if t.item.negated then " (negated)" else "") ++ "\n"

def skippedLine (f : Located (List Char)) : String :=
  "skipped: " ++ spanText f.span ++ " \x60" ++ String.ofList f.item ++ "\x60\n"

def readsText : Reads → String
  | .any => "(any)"
  | .only [] => "(none)"
  | .only names => String.intercalate ", " names

def text (r : Report) : String :=
  "tokens:\n" ++ String.join (r.tokens.map tokenLine) ++ String.join (r.skipped.map skippedLine)
    ++ "nodes: " ++ String.intercalate " | " (r.compiled.nodes.map Node.display)
    ++ "\nsource: " ++ Compiled.trimStart r.compiled.toSource
    ++ "\nvalid: " ++ toString r.compiled.isValid
    ++ "\nreads: " ++ readsText r.compiled.reads ++ "\n"

def tagged (tag : String) (content : Json) : Json := .object [(tag, content)]

def numberJson (x : Float) : Json := if x.isFinite then .float x else .null

def natJson (n : Nat) : Json := .int n

def logicalJson : LogicalOp → Json
  | .and => tagged "Logical" (.string "And")
  | .or => tagged "Logical" (.string "Or")
  | .not => tagged "Logical" (.string "Not")

def comparisonName : ComparisonOp → String
  | .looseEq => "LooseEq"
  | .strictEq => "StrictEq"
  | .looseNe => "LooseNe"
  | .strictNe => "StrictNe"
  | .lt => "Lt"
  | .le => "Le"
  | .gt => "Gt"
  | .ge => "Ge"

def comparisonJson (op : ComparisonOp) : Json := tagged "Comparison" (.string (comparisonName op))

def lexemeJson : Lexeme → Json
  | .call name arguments =>
    tagged "Function" (.object [("name", .string name), ("arguments", .string arguments)])
  | .logical op => logicalJson op
  | .comparison op => comparisonJson op
  | .quoted _ => .string "String"
  | .number _ => .string "Number"
  | .word _ => .string "Variable"

def spanJson (s : Span) : Json := .object [("start", natJson s.start), ("end", natJson s.stop)]

def tokenJson (t : Located Token) : Json :=
  .object [("kind", lexemeJson t.item.lexeme), ("raw", .string (String.ofList t.item.lexeme.raw)),
    ("span", spanJson t.span), ("negated", .bool t.item.negated)]

def argumentJson : Argument → Json
  | .number x => tagged "Number" (numberJson x)
  | .string s => tagged "String" (.string s)
  | .field name => tagged "Field" (.string name)

def nodeJson : Node → Json
  | .call name arguments negated =>
    tagged "Function" (.object [("name", .string name),
      ("args", .array (arguments.map argumentJson)), ("negated", .bool negated)])
  | .logical op => logicalJson op
  | .comparison op => comparisonJson op
  | .string s => tagged "String" (.string s)
  | .number x => tagged "Number" (numberJson x)
  | .field name negated =>
    tagged "Variable" (.object [("field", .string name), ("negated", .bool negated)])

def readsJson : Reads → Json
  | .any => .null
  | .only names => .array (names.map Json.string)

def json (r : Report) : Json :=
  .object [("expression", .string r.expression), ("tokens", .array (r.tokens.map tokenJson)),
    ("skipped", .array (r.skipped.map fun f => spanJson f.span)),
    ("nodes", .array (r.compiled.nodes.map nodeJson)), ("source", .string r.compiled.toSource),
    ("valid", .bool r.compiled.isValid), ("reads", readsJson r.compiled.reads)]

end Report

end LiveMarkup.Expression
