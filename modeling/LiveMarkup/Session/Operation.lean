import LiveMarkup.Component.Builtin
import LiveMarkup.Component.Mount
import LiveMarkup.Session.Trial
import LiveMarkup.Session.Watcher

/-!
Sessions: a document, a store, and the components mounted on them, worked on by one operation after
another. Each operation gets an answer.
-/

namespace LiveMarkup

open LiveMarkup.Expression LiveMarkup.Markup

namespace Session

inductive Target where
  | number (id : NodeId)
  | selector (s : String)
  | none

inductive NodeOperation where
  | outer
  | inner
  | textContent
  | isAttached
  | kind
  | tag
  | attribute (name : String)
  | attributes
  | setAttribute (name value : String)
  | removeAttribute (name : String)
  | parent
  | children
  | elementChildren
  | text
  | setText (text : String)

inductive ChildOperation where
  | append
  | prepend
  | before (reference : Target)
  | after (reference : Target)
  | remove
  | unknown

inductive ComponentOperation where
  | call (text : String)
  | click (node : Target)
  | render
  | mirror
  | find (node : Target)
  | depends (field : String)
  | update (i : Nat)

inductive Operation where
  | html
  | root
  | query (selector : String)
  | createText (text : String)
  | createElement (tag : String)
  | node (node : Target) (o : NodeOperation)
  | child (node child : Target) (o : ChildOperation)
  | get (field : String)
  | contains (field : String)
  | set (field : String) (value : Value)
  | notify (field : String)
  | subscribe (w : Watcher)
  | unsubscribe (watcher : String)
  | subscribers
  | snapshot
  | toJson
  | mount (o : MountOptions Notes)
  | component (number : Nat) (o : ComponentOperation)
  | drop (number : Nat)

inductive Refusal where
  | noNode
  | noComponent
  | badRequest
  | failed (e : EvalError)

inductive Answer where
  | done
  | nothing
  | flag (b : Bool)
  | flags (bs : List Bool)
  | count (n : Nat)
  | node (id : NodeId)
  | nodes (ids : List NodeId)
  | text (s : String)
  | kind (k : Document.Kind)
  | attributes (as : Attributes)
  | value (v : Value)
  | fields (fs : Table Value)
  | mounted (number : Nat) (c : Component Notes)
  | mirror (m : Mirror) (presence : CellId → Presence)
  | refused (r : Refusal)

end Session

structure Session where
  world : World Session.Notes
  /-- In order of mounting; nothing is left of one that was dropped. -/
  components : List (Option (Component Session.Notes))

namespace Session

def ofDocument (d : Document) (fields : Table Value) : Session := ⟨worldOf fields d, []⟩

abbrev Step := ExceptT Refusal (StateT Session Option)

def current : Step Session := ExceptT.lift get

def document : Step Document := do
  let s ← current
  return s.world.document

def runWorld {α : Type} (r : Run Notes α) : Step α :=
  ExceptT.lift fun s => (StateT.run r s.world).map fun (a, w) => (a, { s with world := w })

def act {α : Type} (a : Act Notes α) : Step α := do
  match ← runWorld a.run with
  | .ok x => return x
  | .error e => throw (.failed e)

def edit (change : Document → Answer × Document) : Step Answer := do
  let (answer, d) := change (← document)
  runWorld (Run.editDocument fun _ => d)
  return answer

def create (f : Document → NodeId × Document) : Step Answer :=
  edit fun d => let (id, d) := f d; (.node id, d)

def find? (d : Document) : Target → Option NodeId
  | .number id => if id < d.nodes.size then some id else none
  | .selector s => d.query s
  | .none => none

def require (t : Target) (r : Refusal) : Step NodeId := do
  match find? (← document) t with
  | some id => return id
  | none => throw r

def optional {α : Type} (f : α → Answer) : Option α → Answer
  | some x => f x
  | none => .nothing

def onNode (id : NodeId) (d : Document) : NodeOperation → Answer × Document
  | .outer => (.text (d.outerHtml id), d)
  | .inner => (.text (d.innerHtml id), d)
  | .textContent => (.text (d.textContent id), d)
  | .isAttached => (.flag (d.isAttached id), d)
  | .kind => (.kind (d.node id).kind, d)
  | .tag => (optional .text (d.tag? id), d)
  | .attribute name => (optional .text (d.attribute? id name), d)
  | .attributes => (.attributes (d.node id).attributes, d)
  | .setAttribute name value => (.done, d.setAttribute id name value)
  | .removeAttribute name => (optional .text (d.attribute? id name), d.removeAttribute id name)
  | .parent => (optional .node (d.node id).parent, d)
  | .children => (.nodes (d.node id).children, d)
  | .elementChildren => (.nodes (d.elementChildren id), d)
  | .text => (optional .text (d.data? id), d)
  | .setText text => (.done, d.setText id text)

def onChild (id child : NodeId) : ChildOperation → Step Answer
  | .append => edit fun d => (.done, d.append id child)
  | .prepend => edit fun d => (.done, d.prepend id child)
  | .before reference => do
    let reference ← require reference .badRequest
    edit fun d => (.done, d.insertBefore id child reference)
  | .after reference => do
    let reference ← require reference .badRequest
    edit fun d => (.done, d.insertAfter id child reference)
  | .remove =>
    edit fun d => (.flag ((d.node id).children.contains child), d.removeChild id child)
  | .unknown => throw .badRequest

def componentAt (number : Nat) : Step (Component Notes) := do
  match (← current).components[number]? with
  | some (some c) => return c
  | _ => throw .noComponent

def onComponent (c : Component Notes) : ComponentOperation → Step Answer
  | .call text => return .value (← act (c.dispatch Run.emit text))
  | .click node => do
    let id ← require node .noNode
    return optional .value (← act (c.click Run.emit id))
  | .render => do
    act (c.render Run.emit)
    return .done
  | .mirror => do
    let s ← current
    return .mirror c.root s.world.presence
  | .find node => do
    let id ← require node .noNode
    return optional .node ((c.root.find? id).map Part.element)
  | .depends field => return .flags (c.directives.map (·.dependsOn field))
  | .update i => do
    match c.directives[i]? with
    | some d => do
      act (Run.update Run.emit c.methods d)
      return .done
    | none => return .nothing

def mount (o : MountOptions Notes) : Step Answer := do
  match ← act (Component.mount Run.emit o) with
  | none => return .nothing
  | some c => do
    let s ← current
    ExceptT.lift (modify fun s => { s with components := s.components ++ [some c] })
    return .mounted s.components.length c

def drop (number : Nat) : Step Answer := do
  match (← current).components[number]? with
  | some (some c) => do
    runWorld c.drop
    ExceptT.lift (modify fun s => { s with components := s.components.set number none })
    return .flag true
  | _ => return .flag false

def observerCount : Step Answer := do
  let s ← current
  return .count s.world.store.observers.length

def perform : Operation → Step Answer
  | .html => return .text (← document).toHtml
  | .root => return .node Document.root
  | .query selector => return optional .node ((← document).query selector)
  | .createText text => create fun d => d.createText text
  | .createElement tag => create fun d => d.createElement tag
  | .node node o => do
    let id ← require node .noNode
    edit fun d => onNode id d o
  | .child node child o => do
    let id ← require node .noNode
    let child ← require child .noNode
    onChild id child o
  | .get field => return .value ((← current).world.store.get field)
  | .contains field => return .flag ((← current).world.store.contains field)
  | .set field value => return .flag (← act (Run.setField Run.emit field value))
  | .notify field => do
    act (Run.announce Run.emit field)
    return .done
  | .subscribe w => do
    let _ ← act (w.subscribe.run Run.emit)
    observerCount
  | .unsubscribe watcher => do
    match (← current).world.memory.watchers.find? watcher with
    | some id => return .flag (← runWorld (Run.unsubscribe id))
    | none => return .nothing
  | .subscribers => observerCount
  | .snapshot => return .fields (← current).world.store.fields
  | .toJson => return .text (Json.compact (← current).world.store.toJson)
  | .mount o => mount o
  | .component number o => do
    let c ← componentAt number
    onComponent c o
  | .drop number => drop number

structure Report where
  answer : Answer
  record : List Entry
  journal : List Document.Mutation
  html : Option String

def step (o : Operation) (s : Session) : Option (Report × Session) :=
  (StateT.run (perform o).run s).map fun (r, s) =>
    let w := s.world
    let answer :=
      match r with
      | .ok a => a
      | .error refusal => .refused refusal
    let html := if w.document.journal.isEmpty then none else some w.document.toHtml
    (⟨answer, w.memory.record, w.document.journal, html⟩,
      { s with world :=
        { w with document := w.document.drained, memory := { w.memory with record := [] } } })

end Session

end LiveMarkup
