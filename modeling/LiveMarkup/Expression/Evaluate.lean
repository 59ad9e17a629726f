import LiveMarkup.Expression.Tree

/-!
Evaluation over live state. A scope reads fields and calls methods in any monad; only a call can
fail. Operands are evaluated from left to right, and not at all where the left one decides.
-/

namespace LiveMarkup.Expression

inductive EvalError where
  | invalid (expression message : String)
  | methodNotFound (name : String)
  | method (name message : String)
  deriving DecidableEq, Repr

def EvalError.message : EvalError → String
  | .invalid expression message => "invalid expression `" ++ expression ++ "`: " ++ message
  | .methodNotFound name => "method `" ++ name ++ "` is not defined"
  | .method name message => "method `" ++ name ++ "` failed: " ++ message

structure Scope (m : Type → Type) where
  field : String → m Value
  call : String → List Value → ExceptT EvalError m Value

variable {m : Type → Type} [Monad m]

def ComparisonOp.holds (op : ComparisonOp) (a b : Value) : Bool :=
  match op with
  | .strictEq => a.strictEq b
  | .strictNe => !a.strictEq b
  | .looseEq => a.looseEq b
  | .looseNe => !a.looseEq b
  | .lt => a.looseCmp b == some .lt
  | .le => a.looseCmp b == some .lt || a.looseCmp b == some .eq
  | .gt => a.looseCmp b == some .gt
  | .ge => a.looseCmp b == some .gt || a.looseCmp b == some .eq

def Scope.argument (s : Scope m) : Argument → m Value
  | .number x => pure (.number x)
  | .string t => pure (.string t)
  | .field name => s.field name

def Scope.arguments (s : Scope m) : List Argument → m (List Value)
  | [] => pure []
  | a :: as => do
    let v ← s.argument a
    let vs ← s.arguments as
    pure (v :: vs)

def Scope.invoke (s : Scope m) (name : String) (arguments : List Argument) :
    ExceptT EvalError m Value := do
  let values ← s.arguments arguments
  s.call name values

def Expr.eval (s : Scope m) : Expr → ExceptT EvalError m Value
  | .literal v => pure v
  | .field name => s.field name
  | .call name arguments => s.invoke name arguments
  | .not e => do
    let v ← e.eval s
    pure (.bool !v.truthy)
  | .and a b => do
    let v ← a.eval s
    if v.truthy then b.eval s else pure v
  | .or a b => do
    let v ← a.eval s
    if v.truthy then pure v else b.eval s
  | .compare op a b => do
    let v ← a.eval s
    let w ← b.eval s
    pure (.bool (op.holds v w))

end LiveMarkup.Expression
