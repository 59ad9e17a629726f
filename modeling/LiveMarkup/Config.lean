import LiveMarkup.Component.Options
import LiveMarkup.Json.Read

/-!
Configuration. It is read from JSON text key by key: what is not known is passed over, what is known
may stand there once and must be of its kind, and what is missing has a default. An object may also
be written as the array of its values.
-/

namespace LiveMarkup

open LiveMarkup.Json

structure Config where
  schema : Option String
  selector : String
  directives : DirectiveOptions
  tracked : Bool
  deriving DecidableEq, Repr

namespace Config

def default : Config := ⟨none, "#app", DirectiveOptions.default, false⟩

def string? : Literal → Option String
  | .string s => s
  | _ => none

def bool? : Literal → Option Bool
  | .bool b => some b
  | _ => none

def optionalString? : Literal → Option (Option String)
  | .null => some none
  | .string s => s.map some
  | _ => none

def delimiters? : Literal → Option (String × String)
  | .array [opening, closing] =>
    match string? opening, string? closing with
    | some opening, some closing => some (opening, closing)
    | _, _ => none
  | _ => none

/-- The values of known keys in their order, from an object or an array. A key that stands there
twice, a key without content, and a value too many are faults. -/
def values? (keys : List String) : Literal → Option (List (Option Literal))
  | .array items =>
    if items.length ≤ keys.length then some (items.map some) else none
  | .object entries =>
    if entries.any (·.1.isNone) then none
    else keys.mapM fun key =>
      match entries.filter (·.1 == some key) with
      | [] => some none
      | [(_, v)] => some (some v)
      | _ => none
  | _ => none

def at? {α : Type} (values : List (Option Literal)) (i : Nat) (missing : α)
    (read : Literal → Option α) : Option α :=
  match values[i]? with
  | some (some v) => read v
  | _ => some missing

def directives? (l : Literal) : Option DirectiveOptions := do
  let d := DirectiveOptions.default
  let values ← values? ["showIf", "onClick", "delimiters"] l
  let showIf ← at? values 0 d.showIf string?
  let onClick ← at? values 1 d.onClick string?
  let (opening, closing) ← at? values 2 (d.opening, d.closing) delimiters?
  return ⟨showIf, onClick, opening, closing⟩

def ofLiteral? (l : Literal) : Option Config := do
  let values ← values? ["$schema", "selector", "directives", "trackDependencies"] l
  let schema ← at? values 0 none optionalString?
  let selector ← at? values 1 default.selector string?
  let directives ← at? values 2 default.directives directives?
  let tracked ← at? values 3 default.tracked bool?
  return ⟨schema, selector, directives, tracked⟩

/-- The configuration that a text holds; one that is malformed counts as none. -/
def ofText (content : String) : Config :=
  ((literal? content.toList).bind ofLiteral?).getD default

def toJson (c : Config) : Json :=
  let d := c.directives
  .object ((c.schema.map fun s => ("$schema", Json.string s)).toList ++ [
    ("selector", .string c.selector),
    ("directives", .object [
      ("showIf", .string d.showIf),
      ("onClick", .string d.onClick),
      ("delimiters", .array [.string d.opening, .string d.closing])]),
    ("trackDependencies", .bool c.tracked)])

end Config

end LiveMarkup
