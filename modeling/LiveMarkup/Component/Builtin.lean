import LiveMarkup.Reactive.Script

/-!
The methods that every rendered template has. Each writes the field that its first argument names.
-/

namespace LiveMarkup.Builtin

open LiveMarkup.Expression

variable {σ : Type}

def fieldName? : List Value → Option String
  | .string name :: _ => if name.isEmpty then none else some name
  | _ => none

def withField (method : String) (arguments : List Value) (next : String → Script σ) : Script σ :=
  match fieldName? arguments with
  | some field => next field
  | none => .fail (.method method "expected a quoted field name as the first argument")

def toggle (arguments : List Value) : Script σ :=
  withField "toggle" arguments fun field =>
    .read field fun v => .writeThen field (.bool !v.truthy) (.bool !v.truthy)

def assign (arguments : List Value) : Script σ :=
  withField "assign" arguments fun field =>
    let value := arguments.getD 1 .undefined
    .writeThen field value value

/-- The number that a counter counts from; a missing field counts as zero. -/
def countOf : Value → Float
  | .undefined => 0
  | v => v.toNumber

def step (method : String) (sign : Float) (arguments : List Value) : Script σ :=
  withField method arguments fun field =>
    .read field fun v =>
      let amount := (arguments[1]?.map Value.toNumber).getD 1
      let next := Value.number (countOf v + sign * amount)
      .writeThen field next next

def methods : Methods σ :=
  Table.ofList [("toggle", toggle), ("assign", assign), ("increment", step "increment" 1),
    ("decrement", step "decrement" (-1))]

end LiveMarkup.Builtin
