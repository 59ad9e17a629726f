import LiveMarkup.Expression.Node
import LiveMarkup.Value

/-!
Expression trees. Negation binds tightest, then comparisons, then `&&`, then `||`; operators of one
level associate to the left. The nodes are read once, from left to right, with what is still open at
each level kept aside.
-/

namespace LiveMarkup.Expression

inductive Expr where
  | literal (v : Value)
  | field (name : String)
  | call (name : String) (arguments : List Argument)
  | not (e : Expr)
  | and (a b : Expr)
  | or (a b : Expr)
  | compare (op : ComparisonOp) (a b : Expr)
  deriving Repr

inductive Fault where
  | endOfExpression
  | notAnOperand (node : Node)
  | notAnOperator (node : Node)
  deriving DecidableEq, Repr

def Fault.message : Fault → String
  | .endOfExpression => "unexpected end of expression"
  | .notAnOperand node => "expected an operand, found `" ++ node.display ++ "`"
  | .notAnOperator node => "unexpected `" ++ node.display ++ "` after a complete operand"

def negateIf (negated : Bool) (e : Expr) : Expr := if negated then .not e else e

def operand? : Node → Option Expr
  | .call name arguments negated => some (negateIf negated (.call name arguments))
  | .field name negated => some (negateIf negated (.field name))
  | .string s => some (.literal (.string s))
  | .number x => some (.literal (.number x))
  | .logical _ => none
  | .comparison _ => none

/-- Left operands that wait for their right ones: of `||`, of `&&`, of a comparison; and how many
negations wait for an operand. -/
structure Open where
  disjunct : Option Expr
  conjunct : Option Expr
  comparand : Option (ComparisonOp × Expr)
  negations : Nat
  deriving Repr

def Open.none : Open := ⟨Option.none, Option.none, Option.none, 0⟩

def Open.closeComparison (o : Open) (e : Expr) : Expr :=
  let e := Nat.repeat Expr.not o.negations e
  match o.comparand with
  | some (op, left) => .compare op left e
  | Option.none => e

def Open.closeConjunction (o : Open) (e : Expr) : Expr :=
  match o.conjunct with
  | some left => .and left e
  | Option.none => e

def Open.closeDisjunction (o : Open) (e : Expr) : Expr :=
  match o.disjunct with
  | some left => .or left (o.closeConjunction e)
  | Option.none => o.closeConjunction e

mutual

def readOperand (o : Open) : List Node → Except Fault Expr
  | [] => .error .endOfExpression
  | .logical .not :: ns => readOperand { o with negations := o.negations + 1 } ns
  | n :: ns =>
    match operand? n with
    | some e => readOperator o (o.closeComparison e) ns
    | Option.none => .error (.notAnOperand n)

def readOperator (o : Open) (e : Expr) : List Node → Except Fault Expr
  | [] => .ok (o.closeDisjunction e)
  | .comparison op :: ns => readOperand ⟨o.disjunct, o.conjunct, some (op, e), 0⟩ ns
  | .logical .and :: ns => readOperand ⟨o.disjunct, some (o.closeConjunction e), Option.none, 0⟩ ns
  | .logical .or :: ns => readOperand ⟨some (o.closeDisjunction e), Option.none, Option.none, 0⟩ ns
  | n :: _ => .error (.notAnOperator n)

end

def Expr.ofNodes : List Node → Except Fault (Option Expr)
  | [] => .ok none
  | n :: ns => (readOperand .none (n :: ns)).map some

end LiveMarkup.Expression
