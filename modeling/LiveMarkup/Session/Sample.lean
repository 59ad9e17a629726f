import LiveMarkup.Session.Notes

/-!
Sample methods, for trying expressions out. Every call is noted before it runs.
-/

namespace LiveMarkup.Session.Sample

open LiveMarkup.Expression

variable {σ : Type}

def first (arguments : List Value) : Value := arguments.headD .undefined

def isEven (x : Float) : Bool :=
  match Decimal.integral? x with
  | some n => n % 2 == 0
  | none => false

def bump : Script σ :=
  .read "count" fun v =>
    let next := Value.number (v.toNumber + 1)
    .writeThen "count" next next

def check (x : Float) : Script σ :=
  if x == 13 then .fail (.method "check" "unlucky") else .give (.bool (0 < x))

def body? : String → Option (List Value → Script σ)
  | "echo" => some fun vs => .give (first vs)
  | "greet" => some fun vs => .give (.string ("Hello " ++ (first vs).display))
  | "is_even" => some fun vs => .give (.bool (isEven (first vs).toNumber))
  | "bump" => some fun _ => bump
  | "check" => some fun vs => check (first vs).toNumber
  | "mirror" => some fun vs => .writeThen "copy" (first vs) (.bool true)
  | "fail" => some fun vs => .fail (.method "fail" (first vs).display)
  | "argc" => some fun vs => .give (.number (Decimal.ofInt vs.length))
  | "types" => some fun vs => .give (.string (String.intercalate "," (vs.map Value.typeName)))
  | _ => none

/-- What a call does; unknown methods are noted too. -/
def run (name : String) (arguments : List Value) : Script Notes :=
  .note (Notes.add (.call name arguments)) <|
    match body? name with
    | some body => body arguments
    | none => .fail (.methodNotFound name)

def names : List String :=
  ["echo", "greet", "is_even", "bump", "check", "mirror", "fail", "argc", "types"]

def methods : Methods Notes := Table.ofList (names.map fun name => (name, run name))

end LiveMarkup.Session.Sample
