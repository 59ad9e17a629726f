import LiveMarkup.Json.Read
import LiveMarkup.Text.Cut
import LiveMarkup.Value

/-!
Steps: what is done to a page after it is mounted, written in one line each.
-/

namespace LiveMarkup

open LiveMarkup.Text

inductive Step where
  | set (field : String) (value : Value)
  | click (selector : String)
  | call (text : String)
  deriving Repr

namespace Step

inductive Fault where
  | noKind
  | unknownKind (kind : String)
  | noAssignment
  | fieldIsNoWord
  | valueIsNoJson
  | noElement
  deriving DecidableEq, Repr

def Fault.message : Fault → String
  | .noKind => "expected \x60set:\x60, \x60click:\x60 or \x60call:\x60"
  | .unknownKind kind => "unknown step kind \x60" ++ kind ++ "\x60"
  | .noAssignment => "expected \x60set:<field>=<json>\x60"
  | .fieldIsNoWord => "field name must be a bare word"
  | .valueIsNoJson => "not valid JSON"
  | .noElement => "no element matches"

def readSet (assignment : List Char) : Except Fault Step :=
  match splitFirst '=' assignment with
  | none => .error .noAssignment
  | some (field, json) =>
    let field := trim field
    if !isWord field then .error .fieldIsNoWord
    else
      match Json.read? (String.ofList json) with
      | some v => .ok (.set (String.ofList field) (Value.ofJson v))
      | none => .error .valueIsNoJson

def read (source : String) : Except Fault Step :=
  match splitFirst ':' source.toList with
  | none => .error .noKind
  | some (kind, rest) =>
    match String.ofList kind with
    | "set" => readSet rest
    | "click" => .ok (.click (String.ofList (trim rest)))
    | "call" => .ok (.call (String.ofList (trim rest)))
    | kind => .error (.unknownKind kind)

def display : Step → String
  | .set field value => "set:" ++ field ++ "=" ++ Json.compact value.toJson
  | .click selector => "click:" ++ selector
  | .call text => "call:" ++ text

end Step

end LiveMarkup
