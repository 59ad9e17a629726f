import LiveMarkup.Proofs.Document.Tidy

/-!
Documents that differ in their texts only. They have the same skeleton, and the same edits keep them so.
-/

namespace LiveMarkup.Document

open LiveMarkup.Markup

/-- The node without its text; a comment keeps what it says. -/
def Node.outline (n : Node) : Node := { n with data := if n.kind = .comment then n.data else "" }

structure Matches (d d' : Document) : Prop where
  size : d'.nodes.size = d.nodes.size
  outline : ∀ n, (d'.node n).outline = (d.node n).outline

variable {d d' d'' : Document}

namespace Matches

theorem refl (d : Document) : d.Matches d := ⟨rfl, fun _ => rfl⟩

theorem trans (h : d.Matches d') (h' : d'.Matches d'') : d.Matches d'' :=
  ⟨h'.size.trans h.size, fun n => (h'.outline n).trans (h.outline n)⟩

theorem symm (h : d.Matches d') : d'.Matches d := ⟨h.size.symm, fun n => (h.outline n).symm⟩

theorem kind (h : d.Matches d') (n : NodeId) : (d'.node n).kind = (d.node n).kind := by
  have hn : (d'.node n).outline.kind = (d.node n).outline.kind := by rw [h.outline n]
  exact hn

theorem tag (h : d.Matches d') (n : NodeId) : (d'.node n).tag = (d.node n).tag := by
  have hn : (d'.node n).outline.tag = (d.node n).outline.tag := by rw [h.outline n]
  exact hn

theorem attributes (h : d.Matches d') (n : NodeId) :
    (d'.node n).attributes = (d.node n).attributes := by
  have hn : (d'.node n).outline.attributes = (d.node n).outline.attributes := by rw [h.outline n]
  exact hn

theorem parent (h : d.Matches d') (n : NodeId) : (d'.node n).parent = (d.node n).parent := by
  have hn : (d'.node n).outline.parent = (d.node n).outline.parent := by rw [h.outline n]
  exact hn

theorem children (h : d.Matches d') (n : NodeId) : (d'.node n).children = (d.node n).children := by
  have hn : (d'.node n).outline.children = (d.node n).outline.children := by rw [h.outline n]
  exact hn

theorem comment (h : d.Matches d') {n : NodeId} (hk : (d.node n).kind = .comment) :
    (d'.node n).data = (d.node n).data := by
  have hdata := congrArg Node.data (h.outline n)
  simp only [Node.outline, h.kind, hk, if_true] at hdata
  exact hdata

theorem record (h : d.Matches d') (m : Mutation) : (d.record m).Matches (d'.record m) :=
  ⟨h.size, h.outline⟩

theorem update (h : d.Matches d') (id : NodeId) {f : Node → Node}
    (hf : ∀ n : Node, (f n).outline = f n.outline) : (d.update id f).Matches (d'.update id f) := by
  refine ⟨by rw [size_update, size_update, h.size], fun n => ?_⟩
  rw [node_update, node_update, h.size]
  split
  · rw [hf, hf, h.outline n]
  · exact h.outline n

theorem removeChild (h : d.Matches d') (parent child : NodeId) :
    (d.removeChild parent child).Matches (d'.removeChild parent child) := by
  unfold Document.removeChild
  rw [h.children parent]
  split
  · refine ((h.update parent ?_).update child ?_).record _
    · exact fun _ => rfl
    · exact fun _ => rfl
  · exact h

theorem detach (h : d.Matches d') (child : NodeId) : (d.detach child).Matches (d'.detach child) := by
  unfold Document.detach
  rw [h.parent child]
  split
  · exact h.removeChild _ child
  · exact h

theorem place (h : d.Matches d') (parent child : NodeId) (arrange : List NodeId → List NodeId) :
    (d.place parent child arrange).Matches (d'.place parent child arrange) := by
  refine ((h.update parent ?_).update child ?_).record _
  · exact fun _ => rfl
  · exact fun _ => rfl

end Matches

theorem matches_setText {id : NodeId} (hid : (d.node id).kind ≠ .comment) (data : String) :
    d.Matches (d.setText id data) := by
  refine ⟨size_setText .., fun n => ?_⟩
  rw [node_setText]
  split
  · next heq => simp only [Node.outline, heq.1, if_neg hid]
  · rfl

theorem withoutTexts_map {f g : NodeId → Branch NodeId} (ns : List NodeId)
    (h : ∀ n, (g n).withoutTexts = (f n).withoutTexts) :
    Forest.withoutTexts (ns.map g) = Forest.withoutTexts (ns.map f) := by
  induction ns with
  | nil => rfl
  | cons n ns ih =>
    rw [List.map_cons, List.map_cons, Forest.withoutTexts, Forest.withoutTexts, h, ih]

theorem Matches.withoutTexts_branchWithin (h : d.Matches d') (depth : Nat) (n : NodeId) :
    (d'.branchWithin depth n).withoutTexts = (d.branchWithin depth n).withoutTexts := by
  induction depth generalizing n with
  | zero => rw [branchWithin, branchWithin, h.tag, h.attributes]
  | succ depth ih =>
    rw [branchWithin, branchWithin, h.kind, h.tag, h.attributes, h.children]
    cases hk : (d.node n).kind with
    | element =>
      simp only [Branch.withoutTexts]
      rw [withoutTexts_map _ ih]
    | text => rfl
    | comment =>
      simp only [Branch.withoutTexts]
      rw [h.comment hk]

theorem Matches.skeleton_eq (h : d.Matches d') : d'.skeleton = d.skeleton := by
  have hbranch (n : NodeId) : (d'.branch n).withoutTexts = (d.branch n).withoutTexts := by
    rw [branch, branch, h.size]
    exact h.withoutTexts_branchWithin _ n
  rw [skeleton, skeleton, Forest.withoutTexts_bare, Forest.withoutTexts_bare, forest, forest,
    childForest, childForest, h.children, withoutTexts_map _ hbranch]

end LiveMarkup.Document
