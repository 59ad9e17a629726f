import LiveMarkup.Component.Builtin
import LiveMarkup.Component.Mount
import LiveMarkup.Step

/-!
Rendering: a template is mounted, steps are taken, and the document is printed.
-/

namespace LiveMarkup

open LiveMarkup.Expression

inductive RenderError where
  | eval (e : EvalError)
  | targetMissing (selector : String)
  | step (source : String) (fault : Step.Fault)
  deriving DecidableEq, Repr

def RenderError.message : RenderError → String
  | .eval e => e.message
  | .targetMissing selector => "no element matches \x60" ++ selector ++ "\x60"
  | .step source fault => "invalid step \x60" ++ source ++ "\x60: " ++ fault.message

def Step.readAll : List String → Except RenderError (List Step)
  | [] => .ok []
  | s :: ss =>
    match Step.read s with
    | .error fault => .error (.step s fault)
    | .ok step => (Step.readAll ss).map (step :: ·)

namespace Render

variable {σ α : Type}

def orFail (a : Act σ α) : ExceptT RenderError (Run σ) α := ExceptT.mk do
  match ← a.run with
  | .ok x => return .ok x
  | .error e => return .error (.eval e)

def take (emit : Emit σ) (c : Component σ) : Step → ExceptT RenderError (Run σ) Unit
  | .set field value => do
    let _ ← orFail (Run.setField emit field value)
  | .click selector => do
    let w ← ExceptT.lift get
    match w.document.query selector with
    | none => throw (.step (Step.click selector).display .noElement)
    | some element => do
      let _ ← orFail (c.click emit element)
  | .call text => do
    let _ ← orFail (c.dispatch emit text)

def takeAll (emit : Emit σ) (c : Component σ) : List Step → ExceptT RenderError (Run σ) Unit
  | [] => return ()
  | s :: ss => do
    take emit c s
    takeAll emit c ss

def printed : Run σ String := do
  return (← get).document.toHtml

def render (emit : Emit σ) (o : MountOptions σ) (steps : List Step) :
    Run σ (Except RenderError String) := do
  match ← (Component.mount emit o).run with
  | .error e => return .error (.eval e)
  | .ok none => return .error (.targetMissing o.selector)
  | .ok (some c) => do
    let r ← (takeAll emit c steps).run
    let html ← printed
    c.drop
    return r.map fun _ => html

def page (template : String) (fields : Table Value) : World Unit :=
  ⟨Store.ofFields fields, Document.parse template, #[], ()⟩

def template (source : String) (fields : Table Value) (selector : String) (o : DirectiveOptions)
    (tracked : Bool) (steps : List Step) :
    Option (Except RenderError String × World Unit) :=
  StateT.run (render (Run.emit) ⟨selector, Builtin.methods, o, tracked⟩ steps)
    (page source fields)

end Render

end LiveMarkup
