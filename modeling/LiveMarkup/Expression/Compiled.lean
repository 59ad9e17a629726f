import LiveMarkup.Expression.Evaluate
import LiveMarkup.Expression.Reads

/-!
Compiled expressions and call expressions. Nodes that are no expression compile too, and fail
whenever they are evaluated.
-/

namespace LiveMarkup.Expression

open LiveMarkup.Text

structure Compiled where
  nodes : List Node
  tree : Except Fault (Option Expr)
  reads : Reads
  deriving Repr

def compile (nodes : List Node) : Compiled := ⟨nodes, Expr.ofNodes nodes, Reads.ofNodes nodes⟩

def compileSource (source : String) : Compiled := compile (parse source)

namespace Compiled

def toSource (c : Compiled) : String := serialize c.nodes

def isValid (c : Compiled) : Bool :=
  match c.tree with
  | .ok _ => true
  | .error _ => false

def trimStart (s : String) : String := String.ofList (Text.trimStart s.toList)

def evaluate {m : Type → Type} [Monad m] (c : Compiled) (s : Scope m) : ExceptT EvalError m Value :=
  match c.tree with
  | .ok (some e) => e.eval s
  | .ok none => pure .undefined
  | .error fault => throw (.invalid (trimStart c.toSource) fault.message)

end Compiled

structure Call where
  name : String
  arguments : List Argument
  deriving DecidableEq, Repr

namespace Call

/-- A bare word is a call without arguments; otherwise the text is one call token and no more. -/
def read? (source : String) : Option Call :=
  let cs := trim source.toList
  if isWord cs then some ⟨String.ofList cs, []⟩
  else
    match token? cs with
    | some (⟨.call name text, false⟩, []) => some ⟨name, Expression.arguments text⟩
    | _ => none

def read (source : String) : Except EvalError Call :=
  match read? source with
  | some c => .ok c
  | none => .error (.invalid source.trimmed "expected a method call")

def invoke {m : Type → Type} [Monad m] (c : Call) (s : Scope m) : ExceptT EvalError m Value :=
  s.invoke c.name c.arguments

end Call

end LiveMarkup.Expression
