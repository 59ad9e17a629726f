import LiveMarkup.Component.Mirror
import LiveMarkup.Reactive.Broadcast

/-!
Components: a tree of elements kept in line with a store. Mounting runs every directive once and
subscribes it; a component that fails on the way is taken down again.
-/

namespace LiveMarkup

open LiveMarkup.Expression

structure Component (σ : Type) where
  root : Mirror
  methods : Methods σ
  directives : List Directive
  subscriptions : List Nat

structure MountOptions (σ : Type) where
  selector : String
  methods : Methods σ
  directives : DirectiveOptions
  /-- Directives hear only of fields they may read. -/
  tracked : Bool

variable {σ : Type}

namespace Component

def clicks (c : Component σ) : List (NodeId × Call) := c.root.clicks

def activate (emit : Emit σ) (methods : Methods σ) (tracked : Bool) :
    List Directive → Run σ (List Nat × Except EvalError Unit)
  | [] => return ([], .ok ())
  | d :: ds => do
    match ← (Run.update emit methods d).run with
    | .error e => return ([], .error e)
    | .ok () => do
      let id ← Run.subscribe (.directive methods tracked d)
      let (ids, r) ← activate emit methods tracked ds
      return (id :: ids, r)

def unsubscribeAll : List Nat → Run σ Unit
  | [] => return ()
  | id :: ids => do
    let _ ← Run.unsubscribe id
    unsubscribeAll ids

/-- Subscribes the directives of a mirror, or none of them. -/
def start (emit : Emit σ) (methods : Methods σ) (tracked : Bool) (root : Mirror) :
    Act σ (Component σ) := do
  let (ids, r) ← Act.ofRun (activate emit methods tracked root.directives)
  match r with
  | .ok () => return ⟨root, methods, root.directives, ids⟩
  | .error e => do
    Act.ofRun (unsubscribeAll ids)
    throw e

def prepare (o : DirectiveOptions) (root : Mirror) (w : World σ) : World σ :=
  { w with
    document := root.prepare o w.document
    presences := w.presences ++ (root.cells.map fun _ => Presence.attached).toArray }

def mount (emit : Emit σ) (o : MountOptions σ) : Act σ (Option (Component σ)) := do
  let w ← Act.world
  let root := (w.document.query o.selector).bind
    (Mirror.ofElement o.directives w.document w.presences.size)
  match root with
  | none => return none
  | some root => do
    Act.ofRun (modify (prepare o.directives root))
    let c ← start emit o.methods o.tracked root
    return some c

def dispatch (emit : Emit σ) (c : Component σ) (text : String) : Act σ Value := do
  let call ← Act.ofResult (Call.read text)
  call.invoke (Run.scope emit c.methods)

def click (emit : Emit σ) (c : Component σ) (element : NodeId) : Act σ (Option Value) := do
  match c.clicks.find? fun b => b.1 == element with
  | none => return none
  | some (_, call) => do
    let v ← call.invoke (Run.scope emit c.methods)
    return some v

def updateAll (emit : Emit σ) (methods : Methods σ) : List Directive → Act σ Unit
  | [] => return ()
  | d :: ds => do
    Run.update emit methods d
    updateAll emit methods ds

def render (emit : Emit σ) (c : Component σ) : Act σ Unit := updateAll emit c.methods c.directives

def drop (c : Component σ) : Run σ Unit := unsubscribeAll c.subscriptions

end Component

end LiveMarkup
