import LiveMarkup.Document
import LiveMarkup.Expression.Compiled
import LiveMarkup.Template

/-!
Directives of a mounted element. An interpolation writes a text node; a conditional takes its element
out of the document and puts it back.
-/

namespace LiveMarkup

open LiveMarkup.Expression

inductive Presence where
  | attached
  | detached
  deriving DecidableEq, Repr

abbrev CellId := Nat

/-- The place of a conditional element, and its neighbours among elements when it was mounted. -/
structure Anchor where
  parent : NodeId
  prev : Option NodeId
  next : Option NodeId
  deriving DecidableEq, Repr

structure Interpolation where
  template : Template
  node : NodeId
  gates : List CellId
  deriving DecidableEq, Repr

structure Conditional where
  predicate : Compiled
  element : NodeId
  anchor : Anchor
  cell : CellId
  inside : List Interpolation
  deriving Repr

inductive Directive where
  | interpolation (i : Interpolation)
  | conditional (c : Conditional)
  deriving Repr

namespace Directive

def reads : Directive → Reads
  | .interpolation i => i.template.reads
  | .conditional c => c.predicate.reads

def dependsOn (d : Directive) (field : String) : Bool := d.reads.includes field

end Directive

namespace Anchor

def insert (a : Anchor) (element : NodeId) (d : Document) : Document :=
  match a.next, a.prev with
  | some next, _ => d.insertBefore a.parent element next
  | none, some prev => d.insertAfter a.parent element prev
  | none, none => d.prepend a.parent element

end Anchor

end LiveMarkup
