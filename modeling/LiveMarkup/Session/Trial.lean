import LiveMarkup.Reactive.Broadcast
import LiveMarkup.Session.Sample

/-!
Trials of expressions, calls and templates over given fields, with the sample methods. Every read of a
field is noted; nothing observes the store.
-/

namespace LiveMarkup.Session

open LiveMarkup.Expression

def worldOf (fields : Table Value) (d : Document) : World Notes :=
  ⟨Store.ofFields fields, d, #[], Notes.empty⟩

namespace Trial

/-- Nothing observes, so no delivery happens inside another. -/
def emit : Emit Notes := Run.broadcast 1

def readField (name : String) : Run Notes Value := do
  modify fun w => { w with memory := w.memory.add (.read name) }
  Run.getField name

def scope : Scope (Run Notes) where
  field := readField
  call name arguments := (Sample.run name arguments).run emit

structure Outcome (α : Type) where
  result : α
  record : List Entry
  fields : Table Value

def run {α : Type} (fields : Table Value) (r : Run Notes α) : Option (Outcome α) :=
  (StateT.run r (worldOf fields Document.empty)).map fun (a, w) =>
    ⟨a, w.memory.record, w.store.fields⟩

def evaluate (c : Compiled) (fields : Table Value) : Option (Outcome (Except EvalError Value)) :=
  run fields (c.evaluate scope).run

def call (c : Call) (fields : Table Value) : Option (Outcome (Except EvalError Value)) :=
  run fields (c.invoke scope).run

def render (t : Template) (fields : Table Value) : Option (Outcome String) :=
  run fields (t.render readField)

end Trial

end LiveMarkup.Session
