import LiveMarkup.Proofs.Document.Acyclic

/-!
Edits in a row. Each keeps links in agreement and makes no cycle, if it hangs no node below itself and
leaves the root where it is; so do all documents that are made from nothing or from a text.
-/

namespace LiveMarkup.Document

open LiveMarkup.Markup

inductive Position where
  | last
  | first
  | before (reference : NodeId)
  | after (reference : NodeId)
  deriving DecidableEq, Repr

def Position.insert (d : Document) (parent child : NodeId) : Position → Document
  | .last => d.append parent child
  | .first => d.prepend parent child
  | .before reference => d.insertBefore parent child reference
  | .after reference => d.insertAfter parent child reference

def Position.arrange (child : NodeId) : Position → List NodeId → List NodeId
  | .last => (· ++ [child])
  | .first => (child :: ·)
  | .before reference => beforeReference child reference
  | .after reference => afterReference child reference

inductive Edit where
  | createText (data : String)
  | createElement (tag : String)
  | insert (position : Position) (parent child : NodeId)
  | removeChild (parent child : NodeId)
  | setText (id : NodeId) (data : String)
  | setAttribute (id : NodeId) (name value : String)
  | removeAttribute (id : NodeId) (name : String)
  deriving DecidableEq, Repr

def Edit.run (d : Document) : Edit → Document
  | .createText data => (d.createText data).2
  | .createElement tag => (d.createElement tag).2
  | .insert position parent child => position.insert d parent child
  | .removeChild parent child => d.removeChild parent child
  | .setText id data => d.setText id data
  | .setAttribute id name value => d.setAttribute id name value
  | .removeAttribute id name => d.removeAttribute id name

def Edit.relinks : Edit → Bool
  | .insert _ _ _ => true
  | .removeChild _ _ => true
  | _ => false

def Position.reference? : Position → Option NodeId
  | .before reference => some reference
  | .after reference => some reference
  | _ => none

/-- The edit is about nodes that exist, and hangs neither the root anywhere nor a node under itself or
one below it. -/
def Edit.Admissible (d : Document) : Edit → Prop
  | .createText _ => True
  | .createElement _ => True
  | .insert position parent child =>
    parent < d.nodes.size ∧ child < d.nodes.size ∧
      (∀ reference ∈ position.reference?, reference < d.nodes.size) ∧ child ≠ root ∧
        ¬d.Under child parent
  | .removeChild parent child => parent < d.nodes.size ∧ child < d.nodes.size
  | .setText id _ => id < d.nodes.size
  | .setAttribute id _ _ => id < d.nodes.size
  | .removeAttribute id _ => id < d.nodes.size

/-- Documents made from nothing or from a text by admissible edits. -/
inductive Made : Document → Prop
  | empty : Made .empty
  | parse (source : String) : Made (.parse source)
  | edit {d : Document} (e : Edit) : Made d → e.Admissible d → Made (e.run d)

variable {d : Document}

theorem Position.insert_eq_place (d : Document) (parent child : NodeId) (position : Position) :
    position.insert d parent child =
      (d.detach child).place parent child (position.arrange child) := by
  cases position <;> rfl

theorem Position.perm_arrange (child : NodeId) (position : Position) (ns : List NodeId) :
    (position.arrange child ns).Perm (child :: ns) := by
  cases position with
  | last => exact List.perm_append_singleton child ns
  | first => exact .refl _
  | before reference => exact perm_beforeReference child reference ns
  | after reference => exact perm_afterReference child reference ns

theorem Consistent.detach (h : d.Consistent) (child : NodeId) : (d.detach child).Consistent := by
  unfold Document.detach
  split
  · exact h.removeChild _ child
  · exact h

theorem attributes_links {f : Attributes → Attributes} (id n : NodeId) :
    ((d.update id fun n => { n with attributes := f n.attributes }).node n).parent =
        (d.node n).parent ∧
      ((d.update id fun n => { n with attributes := f n.attributes }).node n).children =
        (d.node n).children := by
  rw [node_update]
  split
  · exact ⟨rfl, rfl⟩
  · exact ⟨rfl, rfl⟩

theorem Edit.links_run {e : Edit} (h : e.relinks = false) (n : NodeId) :
    ((e.run d).node n).parent = (d.node n).parent ∧
      ((e.run d).node n).children = (d.node n).children := by
  cases e with
  | createText data => exact Consistent.node_create_links rfl rfl n
  | createElement tag => exact Consistent.node_create_links rfl rfl n
  | insert position parent child => cases h
  | removeChild parent child => cases h
  | setText id data =>
    rw [Edit.run, node_setText]
    split
    · exact ⟨rfl, rfl⟩
    · exact ⟨rfl, rfl⟩
  | setAttribute id name value => exact attributes_links id n
  | removeAttribute id name => exact attributes_links id n

theorem Edit.consistent_run {e : Edit} (hc : d.Consistent) (he : e.Admissible d) :
    (e.run d).Consistent := by
  cases e with
  | insert position parent child =>
    obtain ⟨hp, hn, -, hroot, -⟩ := he
    have hsize := (rewires_detach d child).size
    rw [Edit.run, Position.insert_eq_place]
    exact (hc.detach child).place (hsize ▸ hp) (hsize ▸ hn) hroot (hc.toMutual.parent_detach child)
      (position.perm_arrange child)
  | removeChild parent child => exact hc.removeChild parent child
  | _ => exact hc.congr (Edit.links_run rfl)

theorem Edit.acyclic_run {e : Edit} (hd : d.Acyclic) (he : e.Admissible d) :
    (e.run d).Acyclic := by
  cases e with
  | insert position parent child =>
    obtain ⟨-, -, -, -, hu⟩ := he
    have hless {n m : NodeId} (hm : m ∈ ((d.detach child).node n).children) :
        m ∈ (d.node n).children := mem_children_of_detach hm
    rw [Edit.run, Position.insert_eq_place]
    refine Acyclic.place (position.perm_arrange child) (hd.of_children fun _ _ => hless) ?_
    exact fun hback => hu (hback.of_children fun _ _ => hless)
  | removeChild parent child => exact hd.of_children fun _ _ => mem_children_of_removeChild
  | _ =>
    refine hd.of_children fun n m hm => ?_
    rwa [(Edit.links_run rfl n).2] at hm

theorem Made.consistent (h : d.Made) : d.Consistent := by
  induction h with
  | empty => exact consistent_ofForest _
  | parse source => exact consistent_parse source
  | edit e _ he ih => exact Edit.consistent_run ih he

theorem Made.acyclic (h : d.Made) : d.Acyclic := by
  induction h with
  | empty => exact acyclic_of_linked (linked_ofForest _)
  | parse source => exact acyclic_of_linked (linked_parse source)
  | edit e _ he ih => exact Edit.acyclic_run ih he

end LiveMarkup.Document
