import LiveMarkup.CommandLine.Arguments
import LiveMarkup.CommandLine.Files
import LiveMarkup.Config
import LiveMarkup.Expression.Report

/-!
Carrying out commands. Files are given by name; which ones a command reads is known before it runs.
-/

namespace LiveMarkup.CommandLine

inductive Failure where
  | unreadable (path : String) (reason : Unreadable)
  | invalidJson (path : String)
  | render (e : RenderError)
  | tooDeep
  deriving DecidableEq, Repr

def Failure.message : Failure → String
  | .unreadable path reason => "failed to read " ++ path ++ ": " ++ reason.message
  | .invalidJson path => "invalid JSON in " ++ path
  | .render e => e.message
  | .tooDeep => "changes are nested too deeply"

def readText (files : Files) (path : String) : Except Failure String :=
  (files path).mapError (Failure.unreadable path)

def readFields (files : Files) (path : String) : Except Failure (Table Value) := do
  let content ← readText files path
  match Json.read? content with
  | some data => return Store.fieldsOfJson data
  | none => throw (.invalidJson path)

def configFile : String := "que.config.json"

def readConfig (files : Files) (path : String) : Config :=
  match files path with
  | .ok s => Config.ofText s
  | .error _ => Config.default

def runRender (files : Files) (a : RenderArguments) : Except Failure String := do
  let config := readConfig files (a.config.getD configFile)
  let template ← readText files a.template
  let fields ← (a.data.map (readFields files)).getD (.ok [])
  match Render.template template fields (a.selector.getD config.selector) config.directives
    config.tracked a.steps with
  | some (.ok html, _) => return html ++ "\n"
  | some (.error e, _) => throw (.render e)
  | none => throw .tooDeep

def runInspect (expression : String) (json : Bool) : String :=
  let report := Expression.inspect expression
  if json then Json.pretty 0 report.json ++ "\n" else report.text

def runCommand (files : Files) : Command → Except Failure String
  | .render a => runRender files a
  | .inspect expression json => .ok (runInspect expression json)
  | .schema => .ok schema

structure Outcome where
  code : Nat
  output : String
  failure : Option String
  deriving DecidableEq, Repr

def stopOutcome : Stop → Outcome
  | .help topic => ⟨0, help topic, none⟩
  | .version => ⟨0, version, none⟩
  | .misuse => ⟨2, "", none⟩

def run (files : Files) (arguments : List String) : Outcome :=
  match read arguments with
  | .error stop => stopOutcome stop
  | .ok command =>
    match runCommand files command with
    | .ok output => ⟨0, output, none⟩
    | .error f => ⟨1, "", some f.message⟩

def Command.paths : Command → List String
  | .render a => a.template :: a.config.getD configFile :: a.data.toList
  | _ => []

def paths (arguments : List String) : List String :=
  match read arguments with
  | .error _ => []
  | .ok command => command.paths

end LiveMarkup.CommandLine
