import LiveMarkup.CommandLine.Texts
import LiveMarkup.Render

/-!
Reading the arguments of the command line, from left to right: whatever asks for help or is wrong first
decides.
-/

namespace LiveMarkup.CommandLine

structure RenderArguments where
  template : String
  data : Option String
  selector : Option String
  steps : List Step
  config : Option String
  deriving Repr

inductive Command where
  | render (a : RenderArguments)
  | inspect (expression : String) (json : Bool)
  | schema
  deriving Repr

inductive Stop where
  | help (topic : Topic)
  | version
  | misuse
  deriving DecidableEq, Repr

structure KnownOption where
  short : Option Char
  long : String
  takesValue : Bool
  deriving DecidableEq, Repr

inductive Occurrence where
  | flag (long : String)
  | option (long value : String)
  | operand (text : String)
  | misuse
  deriving DecidableEq, Repr

def isOptionLike : List Char → Bool
  | '-' :: _ :: _ => true
  | _ => false

def separateValue (long : String) : List String → Occurrence × List String
  | v :: rest => if isOptionLike v.toList then (.misuse, rest) else (.option long v, rest)
  | [] => (.misuse, [])

/-- Options of one letter each behind a hyphen; the first one with a value takes all that follows. -/
def shortOptions (known : List KnownOption) (rest : List String) :
    List Char → List Occurrence × List String
  | [] => ([], rest)
  | c :: cs =>
    match known.find? (·.short == some c) with
    | none => ([.misuse], rest)
    | some o =>
      if o.takesValue then
        match cs with
        | [] => let (first, rest) := separateValue o.long rest; ([first], rest)
        | '=' :: value => ([.option o.long (String.ofList value)], rest)
        | value => ([.option o.long (String.ofList value)], rest)
      else
        let (others, rest) := shortOptions known rest cs
        (.flag o.long :: others, rest)

def longOption (known : List KnownOption) (rest : List String) (cs : List Char) :
    Occurrence × List String :=
  let long := String.ofList (cs.takeWhile (· != '='))
  match known.find? (·.long == long), cs.dropWhile (· != '=') with
  | none, _ => (.misuse, rest)
  | some o, [] => if o.takesValue then separateValue o.long rest else (.flag o.long, rest)
  | some o, _ :: value =>
    (if o.takesValue then .option o.long (String.ofList value) else .misuse, rest)

def occurrences (known : List KnownOption) (argument : String) (rest : List String) :
    List Occurrence × List String :=
  match argument.toList with
  | '-' :: '-' :: cs =>
    if cs.isEmpty then (rest.map Occurrence.operand, [])
    else let (first, rest) := longOption known rest cs; ([first], rest)
  | '-' :: c :: cs => shortOptions known rest (c :: cs)
  | _ => ([.operand argument], rest)

def readAll {α : Type} (known : List KnownOption) (accept : α → Occurrence → Except Stop α) :
    Nat → α → List String → Except Stop α
  | _, a, [] => .ok a
  | 0, _, _ => .error .misuse
  | fuel + 1, a, argument :: rest => do
    let (os, rest) := occurrences known argument rest
    let a ← os.foldlM accept a
    readAll known accept fuel a rest

def helpOption : KnownOption := ⟨some 'h', "help", false⟩

def verboseOption : KnownOption := ⟨some 'v', "verbose", false⟩

def versionOption : KnownOption := ⟨some 'V', "version", false⟩

def renderOptions : List KnownOption :=
  [helpOption, verboseOption, ⟨some 'd', "data", true⟩, ⟨some 's', "selector", true⟩,
    ⟨none, "step", true⟩, ⟨some 'c', "config", true⟩]

def inspectOptions : List KnownOption := [helpOption, verboseOption, ⟨none, "json", false⟩]

def plainOptions : List KnownOption := [helpOption, verboseOption]

def once {α : Type} (old : Option α) (new : α) : Except Stop (Option α) :=
  match old with
  | none => .ok (some new)
  | some _ => .error .misuse

def oncePath (old : Option String) (new : String) : Except Stop (Option String) :=
  if new.isEmpty then .error .misuse else once old new

structure RenderDraft where
  template : Option String
  data : Option String
  selector : Option String
  steps : List Step
  config : Option String
  deriving Repr

def acceptRender (d : RenderDraft) : Occurrence → Except Stop RenderDraft
  | .flag "help" => .error (.help .render)
  | .flag _ => .ok d
  | .option "data" v => return { d with data := ← oncePath d.data v }
  | .option "selector" v => return { d with selector := ← once d.selector v }
  | .option "config" v => return { d with config := ← oncePath d.config v }
  | .option _ v =>
    match Step.read v with
    | .ok s => .ok { d with steps := d.steps ++ [s] }
    | .error _ => .error .misuse
  | .operand t => return { d with template := ← oncePath d.template t }
  | .misuse => .error .misuse

def readRender (arguments : List String) : Except Stop Command := do
  let d ← readAll renderOptions acceptRender arguments.length ⟨none, none, none, [], none⟩ arguments
  match d.template with
  | some template => return .render ⟨template, d.data, d.selector, d.steps, d.config⟩
  | none => throw .misuse

structure InspectDraft where
  expression : Option String
  json : Bool
  deriving Repr

def acceptInspect (d : InspectDraft) : Occurrence → Except Stop InspectDraft
  | .flag "help" => .error (.help .inspect)
  | .flag "json" => if d.json then .error .misuse else .ok { d with json := true }
  | .flag _ => .ok d
  | .operand t => return { d with expression := ← once d.expression t }
  | _ => .error .misuse

def readInspect (arguments : List String) : Except Stop Command := do
  let d ← readAll inspectOptions acceptInspect arguments.length ⟨none, false⟩ arguments
  match d.expression with
  | some expression => return .inspect expression d.json
  | none => throw .misuse

def acceptPlain (topic : Topic) (_ : Unit) : Occurrence → Except Stop Unit
  | .flag "help" => .error (.help topic)
  | .flag "version" => .error .version
  | .flag _ => .ok ()
  | _ => .error .misuse

def readSchema (arguments : List String) : Except Stop Command := do
  readAll plainOptions (acceptPlain .schema) arguments.length () arguments
  return .schema

def topic? : String → Option Topic
  | "render" => some .render
  | "inspect" => some .inspect
  | "schema" => some .schema
  | "help" => some .help
  | _ => none

def readHelp : List String → Stop
  | [] => .help .program
  | [name] => (topic? name).elim .misuse .help
  | _ => .misuse

def readCommand (name : String) (arguments : List String) : Except Stop Command :=
  match name with
  | "render" => readRender arguments
  | "inspect" => readInspect arguments
  | "schema" => readSchema arguments
  | "help" => .error (readHelp arguments)
  | _ => .error .misuse

def read : List String → Except Stop Command
  | [] => .error .misuse
  | argument :: rest =>
    if isOptionLike argument.toList then
      match (occurrences (versionOption :: plainOptions) argument []).1 with
      | [] => .error .misuse
      | os => do
        os.forM fun o => acceptPlain .program () o
        read rest
    else readCommand argument rest

end LiveMarkup.CommandLine
