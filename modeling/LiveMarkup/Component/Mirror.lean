import LiveMarkup.Component.Options
import LiveMarkup.Reactive.Directive

/-!
Mirrors of mounted elements. A mirror is planned from the tree under an element and says what the
element becomes: its directives, its click binding, and the text node that replaces its texts. The
plan is made first; the document is prepared after it.
-/

namespace LiveMarkup

open LiveMarkup.Markup LiveMarkup.Expression

structure Condition where
  predicate : Compiled
  anchor : Anchor
  cell : CellId
  deriving Repr

structure Part where
  element : NodeId
  parent : Option NodeId
  tag : String
  attributes : Attributes
  texts : List NodeId
  text : String
  click : Option Call
  condition : Option Condition
  interpolation : Option Interpolation
  deriving Repr

inductive Mirror where
  | mk (part : Part) (children : List Mirror)
  deriving Repr

structure Supply where
  node : NodeId
  cell : CellId
  deriving DecidableEq, Repr

namespace Mirror

def nextNode : StateM Supply NodeId := modifyGet fun s => (s.node, { s with node := s.node + 1 })

def nextCell : StateM Supply CellId := modifyGet fun s => (s.cell, { s with cell := s.cell + 1 })

def textOf : Branch NodeId → String
  | .text _ data => data
  | _ => ""

def isText : Branch NodeId → Bool
  | .text .. => true
  | _ => false

def condition (showIf : Option String) (anchor : Option Anchor) :
    StateM Supply (Option Condition) := do
  match showIf, anchor with
  | some source, some anchor => do
    let cell ← nextCell
    return some ⟨compileSource source, anchor, cell⟩
  | _, _ => return none

def interpolation (o : DirectiveOptions) (gates : List CellId) (text : String) :
    StateM Supply (Option Interpolation) := do
  match Template.ofText? o.opening o.closing text with
  | some template => do
    let node ← nextNode
    return some ⟨template, node, gates⟩
  | none => return none

def gatesWith (gates : List CellId) (c : Option Condition) : List CellId :=
  gates ++ (c.map Condition.cell).toList

/-- Plans one element. The click attribute is gone before any other is looked at. -/
def planPart (o : DirectiveOptions) (gates : List CellId) (parent : Option NodeId)
    (anchor : Option Anchor) (element : NodeId) (tag : String) (written : Attributes)
    (children : Forest NodeId) : StateM Supply Part := do
  let attributes := written.remove o.onClick
  let text := String.join (children.map textOf)
  let c ← condition (attributes.find? o.showIf) anchor
  let i ← interpolation o (gatesWith gates c) text
  return {
    element, parent, tag, attributes, text
    texts := (children.filter isText).map Branch.label
    click := (written.find? o.onClick).bind Call.read?
    condition := c
    interpolation := i }

def firstElement (f : Forest NodeId) : Option NodeId := (f.find? Branch.isElement).map Branch.label

mutual

def plan (o : DirectiveOptions) (gates : List CellId) (parent : Option NodeId)
    (anchor : Option Anchor) : Branch NodeId → StateM Supply (Option Mirror)
  | .element element tag written children => do
    let p ← planPart o gates parent anchor element tag written children
    let ms ← planForest o (gatesWith gates p.condition) element none children
    return some (.mk p ms)
  | .text .. => return none
  | .comment .. => return none

def planForest (o : DirectiveOptions) (gates : List CellId) (parent : NodeId)
    (prev : Option NodeId) : Forest NodeId → StateM Supply (List Mirror)
  | [] => return []
  | b :: bs => do
    let m ← plan o gates (some parent) (some ⟨parent, prev, firstElement bs⟩) b
    let ms ← planForest o gates parent (if b.isElement then some b.label else prev) bs
    return m.toList ++ ms

end

def part : Mirror → Part
  | .mk p _ => p

def children : Mirror → List Mirror
  | .mk _ ms => ms

mutual

def parts : Mirror → List Part
  | .mk p ms => p :: partsOfAll ms

def partsOfAll : List Mirror → List Part
  | [] => []
  | m :: ms => parts m ++ partsOfAll ms

end

def size (m : Mirror) : Nat := m.parts.length

def find? (m : Mirror) (element : NodeId) : Option Part :=
  m.parts.find? fun p => p.element == element

def interpolations (m : Mirror) : List Interpolation := m.parts.filterMap Part.interpolation

def cells (m : Mirror) : List CellId := m.parts.filterMap fun p => p.condition.map Condition.cell

def clicks (m : Mirror) : List (NodeId × Call) :=
  m.parts.filterMap fun p => p.click.map fun c => (p.element, c)

def ownDirectives (m : Mirror) : List Directive :=
  let p := m.part
  (p.condition.map fun c =>
    Directive.conditional ⟨c.predicate, p.element, c.anchor, c.cell, m.interpolations⟩).toList
    ++ (p.interpolation.map Directive.interpolation).toList

mutual

def directives : Mirror → List Directive
  | .mk p ms => ownDirectives (.mk p ms) ++ directivesOfAll ms

def directivesOfAll : List Mirror → List Directive
  | [] => []
  | m :: ms => directives m ++ directivesOfAll ms

end

end Mirror

namespace Part

/-- Replaces the texts of an element by one new text, where the first of them was. -/
def replaceTexts (p : Part) (d : Document) : Document :=
  let (node, d) := d.createText p.text
  let d :=
    match p.texts with
    | first :: _ => d.insertBefore p.element node first
    | [] => d.append p.element node
  p.texts.foldl (fun d old => d.removeChild p.element old) d

def prepare (o : DirectiveOptions) (p : Part) (d : Document) : Document :=
  let d := d.removeAttribute p.element o.onClick
  match p.interpolation with
  | some _ => p.replaceTexts d
  | none => d

end Part

def Mirror.prepare (o : DirectiveOptions) (m : Mirror) (d : Document) : Document :=
  m.parts.foldl (fun d p => p.prepare o d) d

def Anchor.of? (d : Document) (element : NodeId) : Option Anchor :=
  match (d.node element).parent with
  | none => none
  | some parent =>
    let siblings := d.elementChildren parent
    match siblings.idxOf? element with
    | none => none
    | some i =>
      some ⟨parent, if i = 0 then none else siblings[i - 1]?, siblings[i + 1]?⟩

def Mirror.ofElement (o : DirectiveOptions) (d : Document) (firstCell : CellId)
    (element : NodeId) : Option Mirror :=
  ((Mirror.plan o [] (d.node element).parent (Anchor.of? d element) (d.branch element)).run
    ⟨d.nodes.size, firstCell⟩).1

end LiveMarkup
