import LiveMarkup.Reactive.Store

/-!
Delivery of events. A write that changes a field is told to every observer in order before it
returns; observers may write in turn, and the inner delivery ends before the outer one goes on.

How deep deliveries may nest is bounded by a number. A run that needs more has no result, so what is
said of results holds for every bound.
-/

namespace LiveMarkup

open LiveMarkup.Expression

/-- A computation on a world that may go beyond its bound. -/
abbrev Run (σ : Type) := StateT (World σ) Option

/-- A run that may fail; what it did before failing stays done. -/
abbrev Act (σ : Type) := ExceptT EvalError (Run σ)

abbrev Emit (σ : Type) := Event → Act σ Unit

variable {σ α : Type}

namespace Act

def ofRun (r : Run σ α) : Act σ α := ExceptT.lift r

def ofResult (r : Except EvalError α) : Act σ α := ExceptT.mk (pure r)

def world : Act σ (World σ) := ofRun get

def attempt (a : Act σ α) : Act σ (Except EvalError α) := ofRun a.run

end Act

namespace Run

def getField (name : String) : Run σ Value := do
  return (← get).store.get name

def editDocument (f : Document → Document) : Run σ Unit :=
  modify fun w => { w with document := f w.document }

def subscribe (o : Observer σ) : Run σ Nat := do
  let w ← get
  set { w with store := w.store.subscribe o }
  return w.store.issued

def unsubscribe (id : Nat) : Run σ Bool := do
  let w ← get
  set { w with store := w.store.unsubscribe id }
  return w.store.isSubscribed id

def setField (emit : Emit σ) (field : String) (value : Value) : Act σ Bool := do
  let w ← Act.world
  if w.store.holds field value then return false
  else
    Act.ofRun (set { w with store := w.store.put field value })
    emit ⟨field, value⟩
    return true

def announce (emit : Emit σ) (field : String) : Act σ Unit := do
  let w ← Act.world
  emit ⟨field, w.store.get field⟩

end Run

def Script.run (emit : Emit σ) : Script σ → Act σ Value
  | .done result => Act.ofResult result
  | .look next => do
    let w ← Act.world
    (next w.store.fields).run emit
  | .write field value next => do
    let r ← Act.attempt (Run.setField emit field value)
    (next r).run emit
  | .announce field next => do
    let r ← Act.attempt (Run.announce emit field)
    (next r).run emit
  | .subscribe body next => do
    let id ← Act.ofRun (Run.subscribe (.script body))
    (next id).run emit
  | .unsubscribe id next => do
    let present ← Act.ofRun (Run.unsubscribe id)
    (next present).run emit
  | .recall next => do
    let w ← Act.world
    (next w.memory).run emit
  | .remember memory next => do
    Act.ofRun (modify fun w => { w with memory := memory })
    next.run emit

namespace Run

def scope (emit : Emit σ) (methods : Methods σ) : Scope (Run σ) where
  field := getField
  call name arguments :=
    match methods.find? name with
    | some method => (method arguments).run emit
    | none => throw (.methodNotFound name)

def refresh (i : Interpolation) : Run σ Unit := do
  let text ← i.template.render getField
  editDocument fun d => d.setText i.node text

def refreshUngated (i : Interpolation) : Run σ Unit := do
  if (← get).isGated i then pure () else refresh i

def refreshAll : List Interpolation → Run σ Unit
  | [] => pure ()
  | i :: is => do
    refreshUngated i
    refreshAll is

def detach (c : Conditional) : Run σ Unit := do
  editDocument fun d => d.removeChild c.anchor.parent c.element
  modify fun w => w.setPresence c.cell .detached

def attach (c : Conditional) : Run σ Unit := do
  modify fun w => w.setPresence c.cell .attached
  refreshAll c.inside
  editDocument (c.anchor.insert c.element)

def settle (c : Conditional) (visible : Bool) : Run σ Unit := do
  match visible, (← get).presence c.cell with
  | false, .attached => detach c
  | true, .detached => attach c
  | _, _ => pure ()

def update (emit : Emit σ) (methods : Methods σ) : Directive → Act σ Unit
  | .interpolation i => Act.ofRun (refreshUngated i)
  | .conditional c => do
    let v ← c.predicate.evaluate (scope emit methods)
    Act.ofRun (settle c v.truthy)

def receive (emit : Emit σ) (e : Event) : Observer σ → Act σ Unit
  | .script body => do
    let _ ← (body e).run emit
  | .directive methods tracked d =>
    if tracked && !d.dependsOn e.field then pure () else update emit methods d

def firstError : Except EvalError Unit → Except EvalError Unit → Except EvalError Unit
  | .error e, _ => .error e
  | .ok _, r => r

/-- Tells an event to each observer in order; failures stop none of them. -/
def deliver (emit : Emit σ) (e : Event) : List (Nat × Observer σ) → Act σ Unit
  | [] => pure ()
  | o :: os => do
    let first ← Act.attempt (receive emit e o.2)
    let others ← Act.attempt (deliver emit e os)
    Act.ofResult (firstError first others)

/-- Tells an event to those who observe when it happens, deliveries nesting up to a depth. -/
def broadcast : Nat → Emit σ
  | 0 => fun _ => Act.ofRun failure
  | depth + 1 => fun e => do
    let w ← Act.world
    deliver (broadcast depth) e w.store.observers

def maxDepth : Nat := 100000

def emit : Emit σ := broadcast maxDepth

end Run

end LiveMarkup
