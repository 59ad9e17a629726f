import LiveMarkup.Markup.Tree
import LiveMarkup.Selector

/-!
Editable documents. The nodes are numbered, each knows its parent and its children, and every
insertion, removal and change of text is written to a journal. Node 0 holds what stands at the top.
-/

namespace LiveMarkup

open LiveMarkup.Markup

abbrev NodeId := Nat

namespace Document

inductive Kind where
  | element
  | text
  | comment
  deriving DecidableEq, Repr

structure Node where
  kind : Kind
  tag : String
  attributes : Attributes
  data : String
  parent : Option NodeId
  children : List NodeId
  deriving DecidableEq, Repr

def Node.element (tag : String) : Node := ⟨.element, tag, [], "", none, []⟩

def Node.text (data : String) : Node := ⟨.text, "", [], data, none, []⟩

inductive Mutation where
  | inserted (parent node : NodeId)
  | removed (parent node : NodeId)
  | textChanged (node : NodeId)
  deriving DecidableEq, Repr

end Document

structure Document where
  nodes : Array Document.Node
  journal : List Document.Mutation
  deriving Repr

namespace Document

def root : NodeId := 0

def numbersFrom {ι : Type} (start : NodeId) : Forest ι → List NodeId
  | [] => []
  | b :: bs => start :: numbersFrom (start + b.size) bs

mutual

def nodesOf {ι : Type} (parent start : NodeId) : Branch ι → List Node
  | .element _ tag attributes children =>
    ⟨.element, tag, attributes, "", some parent, numbersFrom (start + 1) children⟩
      :: nodesOfForest start (start + 1) children
  | .text _ data => [⟨.text, "", [], data, some parent, []⟩]
  | .comment _ data => [⟨.comment, "", [], data, some parent, []⟩]

def nodesOfForest {ι : Type} (parent start : NodeId) : Forest ι → List Node
  | [] => []
  | b :: bs => nodesOf parent start b ++ nodesOfForest parent (start + b.size) bs

end

def ofForest {ι : Type} (f : Forest ι) : Document :=
  let top : Node := { Node.element "" with children := numbersFrom 1 f }
  ⟨(top :: nodesOfForest root 1 f).toArray, []⟩

def empty : Document := ofForest ([] : Forest Unit)

def parse (source : String) : Document := ofForest (Forest.parse source)

def node (d : Document) (id : NodeId) : Node := d.nodes.getD id (Node.element "")

def isElement (d : Document) (id : NodeId) : Bool := (d.node id).kind == .element

def isText (d : Document) (id : NodeId) : Bool := (d.node id).kind == .text

def tag? (d : Document) (id : NodeId) : Option String :=
  if d.isElement id && id != root then some (d.node id).tag else none

def attribute? (d : Document) (id : NodeId) (name : String) : Option String :=
  (d.node id).attributes.find? name

def data? (d : Document) (id : NodeId) : Option String :=
  if d.isElement id then none else some (d.node id).data

def elementChildren (d : Document) (id : NodeId) : List NodeId :=
  (d.node id).children.filter d.isElement

def branchWithin (d : Document) : Nat → NodeId → Branch NodeId
  | 0, id => .element id (d.node id).tag (d.node id).attributes []
  | depth + 1, id =>
    let n := d.node id
    match n.kind with
    | .element => .element id n.tag n.attributes (n.children.map (d.branchWithin depth))
    | .text => .text id n.data
    | .comment => .comment id n.data

/-- The tree under a node; no tree is deeper than there are nodes. -/
def branch (d : Document) (id : NodeId) : Branch NodeId := d.branchWithin d.nodes.size id

def childForest (d : Document) (id : NodeId) : Forest NodeId :=
  (d.node id).children.map d.branch

def forest (d : Document) : Forest NodeId := d.childForest root

def innerHtml (d : Document) (id : NodeId) : String :=
  String.ofList (Forest.print (d.childForest id))

def outerHtml (d : Document) (id : NodeId) : String := String.ofList (Branch.print (d.branch id))

def toHtml (d : Document) : String := d.innerHtml root

def textContent (d : Document) (id : NodeId) : String := (d.branch id).textContent

def topmost (d : Document) : Nat → NodeId → NodeId
  | 0, id => id
  | steps + 1, id =>
    match (d.node id).parent with
    | some parent => d.topmost steps parent
    | none => id

def isAttached (d : Document) (id : NodeId) : Bool := d.topmost d.nodes.size id == root

def acceptedBy (s : Selector) (tag : String) (attributes : Attributes) : Bool :=
  s.accepts tag (attributes.find? "id") (attributes.find? "class")

mutual

def firstIn (s : Selector) : Branch NodeId → Option NodeId
  | .element id tag attributes children =>
    if acceptedBy s tag attributes then some id else firstInForest s children
  | .text _ _ => none
  | .comment _ _ => none

def firstInForest (s : Selector) : Forest NodeId → Option NodeId
  | [] => none
  | b :: bs =>
    match firstIn s b with
    | some id => some id
    | none => firstInForest s bs

end

def query (d : Document) (selector : String) : Option NodeId :=
  match Selector.parse? selector with
  | some s => firstInForest s d.forest
  | none => none

def update (d : Document) (id : NodeId) (f : Node → Node) : Document :=
  { d with nodes := d.nodes.modify id f }

def record (d : Document) (m : Mutation) : Document := { d with journal := d.journal ++ [m] }

def create (d : Document) (n : Node) : NodeId × Document :=
  (d.nodes.size, { d with nodes := d.nodes.push n })

def createText (d : Document) (data : String) : NodeId × Document := d.create (Node.text data)

def createElement (d : Document) (tag : String) : NodeId × Document :=
  d.create (Node.element tag.asciiLower)

def setAttribute (d : Document) (id : NodeId) (name value : String) : Document :=
  d.update id fun n => { n with attributes := n.attributes.set name value }

def removeAttribute (d : Document) (id : NodeId) (name : String) : Document :=
  d.update id fun n => { n with attributes := n.attributes.remove name }

def setText (d : Document) (id : NodeId) (data : String) : Document :=
  if (d.node id).data = data then d
  else (d.update id fun n => { n with data := data }).record (.textChanged id)

def removeChild (d : Document) (parent child : NodeId) : Document :=
  if (d.node parent).children.contains child then
    let d := d.update parent fun n => { n with children := n.children.erase child }
    let d := d.update child fun n => { n with parent := none }
    d.record (.removed parent child)
  else d

def detach (d : Document) (child : NodeId) : Document :=
  match (d.node child).parent with
  | some parent => d.removeChild parent child
  | none => d

def place (d : Document) (parent child : NodeId) (arrange : List NodeId → List NodeId) : Document :=
  let d := d.update parent fun n => { n with children := arrange n.children }
  let d := d.update child fun n => { n with parent := some parent }
  d.record (.inserted parent child)

/-- Puts `child` before the first `reference`, or at the end. -/
def beforeReference (child reference : NodeId) : List NodeId → List NodeId
  | [] => [child]
  | n :: ns => if n = reference then child :: n :: ns else n :: beforeReference child reference ns

def afterReference (child reference : NodeId) : List NodeId → List NodeId
  | [] => [child]
  | n :: ns => if n = reference then n :: child :: ns else n :: afterReference child reference ns

def append (d : Document) (parent child : NodeId) : Document :=
  (d.detach child).place parent child (· ++ [child])

def prepend (d : Document) (parent child : NodeId) : Document :=
  (d.detach child).place parent child (child :: ·)

def insertBefore (d : Document) (parent child reference : NodeId) : Document :=
  (d.detach child).place parent child (beforeReference child reference)

def insertAfter (d : Document) (parent child reference : NodeId) : Document :=
  (d.detach child).place parent child (afterReference child reference)

def drained (d : Document) : Document := { d with journal := [] }

end Document

end LiveMarkup
