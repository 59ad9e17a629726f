import LiveMarkup.Expression.Evaluate
import LiveMarkup.Table

/-!
What methods and observers do, as trees of requests to the store: each request waits for its answer
and goes on from there. A script also has a memory of its own, which nothing else looks at.
-/

namespace LiveMarkup

open LiveMarkup.Expression

structure Event where
  field : String
  value : Value
  deriving Repr

/-- A request and what is done with its answer; `σ` is the memory. -/
inductive Script (σ : Type) where
  | done (result : Except EvalError Value)
  | look (next : Table Value → Script σ)
  /-- Sets a field, and learns whether it changed or which observer failed. -/
  | write (field : String) (value : Value) (next : Except EvalError Bool → Script σ)
  | announce (field : String) (next : Except EvalError Unit → Script σ)
  | subscribe (body : Event → Script σ) (next : Nat → Script σ)
  | unsubscribe (id : Nat) (next : Bool → Script σ)
  | recall (next : σ → Script σ)
  | remember (memory : σ) (next : Script σ)

abbrev Methods (σ : Type) := Table (List Value → Script σ)

namespace Script

variable {σ : Type}

def give (v : Value) : Script σ := .done (.ok v)

def fail (e : EvalError) : Script σ := .done (.error e)

def fieldOf (fields : Table Value) (name : String) : Value := (fields.find? name).getD .undefined

def read (name : String) (next : Value → Script σ) : Script σ :=
  .look fun fields => next (fieldOf fields name)

def writeThen (field : String) (value v : Value) : Script σ :=
  .write field value fun
    | .ok _ => give v
    | .error e => fail e

def note (change : σ → σ) (next : Script σ) : Script σ :=
  .recall fun memory => .remember (change memory) next

end Script

namespace Methods

variable {σ : Type}

def extend (methods others : Methods σ) : Methods σ :=
  others.foldl (fun t e => Table.insert e.1 e.2 t) methods

end Methods

end LiveMarkup
