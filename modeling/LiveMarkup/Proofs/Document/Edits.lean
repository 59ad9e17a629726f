import LiveMarkup.Document

/-!
What edits of a document do, node by node. Links between nodes and the texts of nodes are edited
apart: an edit of one kind leaves the other as it is.
-/

namespace LiveMarkup.Document

variable {d d' d'' : Document}

theorem node_of_le {n : NodeId} (h : d.nodes.size ≤ n) : d.node n = Node.element "" := by
  rw [node, Array.getD_eq_getD_getElem?, Array.getElem?_eq_none h, Option.getD_none]

theorem lt_of_children {n child : NodeId} (h : child ∈ (d.node n).children) :
    n < d.nodes.size := by
  refine Nat.lt_of_not_le fun hn => ?_
  rw [node_of_le hn] at h
  cases h

@[simp] theorem size_update (d : Document) (id : NodeId) (f : Node → Node) :
    (d.update id f).nodes.size = d.nodes.size := Array.size_modify ..

theorem node_update (d : Document) (id : NodeId) (f : Node → Node) (n : NodeId) :
    (d.update id f).node n = if n = id ∧ n < d.nodes.size then f (d.node n) else d.node n := by
  by_cases hn : n < d.nodes.size
  · have hget : d.nodes[n]? = some d.nodes[n] := Array.getElem?_eq_getElem hn
    simp only [node, update, Array.getD_eq_getD_getElem?, Array.getElem?_modify, hget, hn, and_true]
    by_cases h : n = id
    · simp [h]
    · simp [h, Ne.symm h]
  · have hn := Nat.le_of_not_lt hn
    have hu : (d.update id f).node n = Node.element "" := node_of_le ((size_update d id f).symm ▸ hn)
    rw [hu, node_of_le hn, if_neg fun h => Nat.not_lt.2 hn h.2]

theorem children_update (d : Document) (id : NodeId) {f : Node → Node}
    (hf : ∀ n : Node, (f n).children = n.children) (n : NodeId) :
    ((d.update id f).node n).children = (d.node n).children := by
  rw [node_update]
  split
  · exact hf _
  · rfl

theorem parent_update (d : Document) (id : NodeId) {f : Node → Node}
    (hf : ∀ n : Node, (f n).parent = n.parent) (n : NodeId) :
    ((d.update id f).node n).parent = (d.node n).parent := by
  rw [node_update]
  split
  · exact hf _
  · rfl

theorem node_record (d : Document) (m : Mutation) (n : NodeId) : (d.record m).node n = d.node n :=
  rfl

@[simp] theorem size_setText (d : Document) (id : NodeId) (data : String) :
    (d.setText id data).nodes.size = d.nodes.size := by
  unfold setText
  split
  · rfl
  · exact size_update ..

theorem node_setText (d : Document) (id : NodeId) (data : String) (n : NodeId) :
    (d.setText id data).node n =
      if n = id ∧ n < d.nodes.size then { d.node n with data := data } else d.node n := by
  unfold setText
  split
  · next h =>
    split
    · next hn => rw [hn.1, ← h]
    · rfl
  · rw [node_record, node_update]

theorem setText_of_data {id : NodeId} {data : String} (h : (d.node id).data = data) :
    d.setText id data = d := if_pos h

@[simp] theorem size_removeAttribute (d : Document) (id : NodeId) (name : String) :
    (d.removeAttribute id name).nodes.size = d.nodes.size := size_update ..

theorem node_removeAttribute (d : Document) (id : NodeId) (name : String) (n : NodeId) :
    (d.removeAttribute id name).node n =
      if n = id ∧ n < d.nodes.size then
        { d.node n with attributes := (d.node n).attributes.remove name }
      else d.node n := node_update ..

theorem parent_removeAttribute (d : Document) (id : NodeId) (name : String) (n : NodeId) :
    ((d.removeAttribute id name).node n).parent = (d.node n).parent :=
  parent_update d id (f := fun n => { n with attributes := n.attributes.remove name })
    (fun _ => rfl) n

theorem children_removeAttribute (d : Document) (id : NodeId) (name : String) (n : NodeId) :
    ((d.removeAttribute id name).node n).children = (d.node n).children :=
  children_update d id (f := fun n => { n with attributes := n.attributes.remove name })
    (fun _ => rfl) n

theorem node_create (d : Document) (n : Node) (m : NodeId) :
    (d.create n).2.node m = if m = d.nodes.size then n else d.node m := by
  rw [node, node, create, Array.getD_eq_getD_getElem?, Array.getD_eq_getD_getElem?,
    Array.getElem?_push]
  split <;> rfl

@[simp] theorem size_createText (d : Document) (data : String) :
    (d.createText data).2.nodes.size = d.nodes.size + 1 := Array.size_push ..

theorem node_createText (d : Document) (data : String) (n : NodeId) :
    (d.createText data).2.node n = if n = d.nodes.size then Node.text data else d.node n :=
  node_create ..

def Node.bare (n : Node) : Node := { n with parent := none, children := [] }

structure Rewires (d d' : Document) : Prop where
  size : d'.nodes.size = d.nodes.size
  bare : ∀ n, (d'.node n).bare = (d.node n).bare

namespace Rewires

theorem refl (d : Document) : d.Rewires d := ⟨rfl, fun _ => rfl⟩

theorem trans (h : d.Rewires d') (h' : d'.Rewires d'') : d.Rewires d'' :=
  ⟨h'.size.trans h.size, fun n => (h'.bare n).trans (h.bare n)⟩

theorem record (h : d.Rewires d') (m : Mutation) : d.Rewires (d'.record m) := ⟨h.size, h.bare⟩

theorem kind (h : d.Rewires d') (n : NodeId) : (d'.node n).kind = (d.node n).kind :=
  by
  have hb : (d'.node n).bare.kind = (d.node n).bare.kind := by rw [h.bare n]
  exact hb

theorem tag (h : d.Rewires d') (n : NodeId) : (d'.node n).tag = (d.node n).tag :=
  by
  have hb : (d'.node n).bare.tag = (d.node n).bare.tag := by rw [h.bare n]
  exact hb

theorem attributes (h : d.Rewires d') (n : NodeId) :
    (d'.node n).attributes = (d.node n).attributes := by
  have hb : (d'.node n).bare.attributes = (d.node n).bare.attributes := by rw [h.bare n]
  exact hb

theorem data (h : d.Rewires d') (n : NodeId) : (d'.node n).data = (d.node n).data :=
  by
  have hb : (d'.node n).bare.data = (d.node n).bare.data := by rw [h.bare n]
  exact hb

end Rewires

theorem rewires_update (d : Document) (id : NodeId) {f : Node → Node}
    (hf : ∀ n : Node, (f n).bare = n.bare) : d.Rewires (d.update id f) := by
  refine ⟨size_update .., fun n => ?_⟩
  rw [node_update]
  split
  · exact hf _
  · rfl

theorem rewires_removeChild (d : Document) (parent child : NodeId) :
    d.Rewires (d.removeChild parent child) := by
  unfold removeChild
  split
  · refine ((rewires_update d parent ?_).trans (rewires_update _ child ?_)).record _
    · exact fun _ => rfl
    · exact fun _ => rfl
  · exact .refl d

theorem rewires_detach (d : Document) (child : NodeId) : d.Rewires (d.detach child) := by
  unfold detach
  split
  · exact rewires_removeChild ..
  · exact .refl d

theorem rewires_place (d : Document) (parent child : NodeId) (arrange : List NodeId → List NodeId) :
    d.Rewires (d.place parent child arrange) := by
  refine ((rewires_update d parent ?_).trans (rewires_update _ child ?_)).record _
  · exact fun _ => rfl
  · exact fun _ => rfl

theorem detach_of_parent {child : NodeId} (h : (d.node child).parent = none) :
    d.detach child = d := by
  unfold detach
  rw [h]

theorem children_removeChild (d : Document) (parent child n : NodeId) :
    ((d.removeChild parent child).node n).children =
      if n = parent then (d.node n).children.erase child else (d.node n).children := by
  unfold removeChild
  split
  · next hc =>
    have hp : parent < d.nodes.size := lt_of_children (List.contains_iff_mem.1 hc)
    rw [node_record, children_update, node_update]
    · by_cases hn : n = parent
      · subst hn
        rw [if_pos rfl, if_pos ⟨rfl, hp⟩]
      · rw [if_neg hn, if_neg fun h => hn h.1]
    · exact fun _ => rfl
  · next hc =>
    split
    · next hn =>
      subst hn
      rw [List.erase_of_not_mem fun h => hc (List.contains_iff_mem.2 h)]
    · rfl

theorem parent_removeChild (d : Document) (parent child n : NodeId) :
    ((d.removeChild parent child).node n).parent =
      if n = child ∧ child ∈ (d.node parent).children then none else (d.node n).parent := by
  unfold removeChild
  by_cases hc : child ∈ (d.node parent).children
  · rw [if_pos (List.contains_iff_mem.2 hc), node_record, node_update, size_update]
    split
    · next hn => rw [if_pos ⟨hn.1, hc⟩]
    · next hn =>
      rw [parent_update]
      · split
        · next hs => rw [node_of_le (Nat.le_of_not_lt fun h => hn ⟨hs.1, h⟩)]; rfl
        · rfl
      · exact fun _ => rfl
  · rw [if_neg fun h => hc (List.contains_iff_mem.1 h), if_neg fun h => hc h.2]

theorem children_place (d : Document) (parent child : NodeId)
    (arrange : List NodeId → List NodeId) (n : NodeId) :
    ((d.place parent child arrange).node n).children =
      if n = parent ∧ n < d.nodes.size then arrange (d.node n).children
      else (d.node n).children := by
  rw [place, node_record, children_update, node_update]
  · split <;> rfl
  · exact fun _ => rfl

theorem parent_place (d : Document) (parent child : NodeId)
    (arrange : List NodeId → List NodeId) (n : NodeId) :
    ((d.place parent child arrange).node n).parent =
      if n = child ∧ n < d.nodes.size then some parent else (d.node n).parent := by
  rw [place, node_record, node_update, size_update]
  split
  · rfl
  · rw [parent_update]
    exact fun _ => rfl

end LiveMarkup.Document
