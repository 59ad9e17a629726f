import LiveMarkup.Proofs.Document.Numbering

/-!
Links under edits. Taking a child away, and giving a place to a new node that has none, keep a
document linked; what hangs under a node is all that its markup shows.
-/

namespace LiveMarkup.Document

open LiveMarkup.Markup

variable {d d' : Document}

theorem Linked.congr (h : d.Linked) (hs : d'.nodes.size = d.nodes.size)
    (hn : ∀ n, (d'.node n).parent = (d.node n).parent ∧
      (d'.node n).children = (d.node n).children) : d'.Linked := by
  refine ⟨?_, fun hc => ?_, fun hc => ?_, fun hc => ?_, fun n => ?_⟩
  · rw [(hn _).1]
    exact h.root
  · rw [(hn _).2] at hc
    rw [(hn _).1]
    exact h.parent hc
  · rw [(hn _).2] at hc
    exact h.after hc
  · rw [(hn _).2] at hc
    rw [hs]
    exact h.bound hc
  · rw [(hn _).2]
    exact h.nodup n

theorem Linked.removeAttribute (h : d.Linked) (id : NodeId) (name : String) :
    (d.removeAttribute id name).Linked := by
  refine h.congr (size_removeAttribute ..) fun n => ⟨?_, ?_⟩
  · exact parent_removeAttribute ..
  · exact children_removeAttribute ..

theorem Linked.createText (h : d.Linked) (data : String) : (d.createText data).2.Linked := by
  have hold {n child : NodeId} (hc : child ∈ ((d.createText data).2.node n).children) :
      child ∈ (d.node n).children := by
    rw [node_createText] at hc
    split at hc
    · cases hc
    · exact hc
  refine ⟨?_, fun hc => ?_, fun hc => h.after (hold hc), fun hc => ?_, fun n => ?_⟩
  · rw [node_createText]
    split
    · rfl
    · exact h.root
  · rw [node_createText, if_neg (Nat.ne_of_lt (h.bound (hold hc)))]
    exact h.parent (hold hc)
  · rw [size_createText]
    exact Nat.lt_succ_of_lt (h.bound (hold hc))
  · rw [node_createText]
    split
    · exact List.nodup_nil
    · exact h.nodup n

theorem mem_children_removeChild {parent child n m : NodeId} (h : d.Linked) :
    m ∈ ((d.removeChild parent child).node n).children ↔
      m ∈ (d.node n).children ∧ ¬(n = parent ∧ m = child) := by
  rw [children_removeChild]
  split
  · next hn => rw [(h.nodup n).mem_erase_iff, and_comm, and_congr_right_iff]; simp [hn]
  · next hn => simp [hn]

theorem Linked.removeChild (h : d.Linked) (parent child : NodeId) :
    (d.removeChild parent child).Linked := by
  have hs := (rewires_removeChild d parent child).size
  refine ⟨?_, fun hc => ?_, fun hc => ?_, fun hc => ?_, fun n => ?_⟩
  · rw [parent_removeChild]
    split
    · rfl
    · exact h.root
  · obtain ⟨hold, hne⟩ := (mem_children_removeChild h).1 hc
    rw [parent_removeChild, if_neg]
    · exact h.parent hold
    · rintro ⟨rfl, hp⟩
      exact hne ⟨h.eq_of_mem hold hp, rfl⟩
  · exact h.after ((mem_children_removeChild h).1 hc).1
  · rw [hs]
    exact h.bound ((mem_children_removeChild h).1 hc).1
  · rw [children_removeChild]
    split
    · exact (h.nodup n).erase child
    · exact h.nodup n

theorem Linked.place (h : d.Linked) {parent child : NodeId} {arrange : List NodeId → List NodeId}
    (hlt : parent < child) (hc : child < d.nodes.size)
    (hfree : ∀ n, child ∉ (d.node n).children)
    (hperm : (arrange (d.node parent).children).Perm (child :: (d.node parent).children)) :
    (d.place parent child arrange).Linked := by
  have hs := (rewires_place d parent child arrange).size
  have hp : parent < d.nodes.size := Nat.lt_trans hlt hc
  have hmem {n m : NodeId} (hm : m ∈ ((d.place parent child arrange).node n).children) :
      (n = parent ∧ m = child) ∨ m ∈ (d.node n).children := by
    rw [children_place] at hm
    split at hm
    · next hn =>
      rw [hn.1, hperm.mem_iff] at hm
      rcases List.mem_cons.1 hm with rfl | hm
      · exact .inl ⟨hn.1, rfl⟩
      · exact .inr (hn.1 ▸ hm)
    · exact .inr hm
  refine ⟨?_, fun {n m} hm => ?_, fun {n m} hm => ?_, fun {n m} hm => ?_, fun n => ?_⟩
  · rw [parent_place, if_neg]
    · exact h.root
    · rintro ⟨rfl, -⟩
      exact Nat.not_lt_zero _ hlt
  · rw [parent_place]
    rcases hmem hm with ⟨rfl, rfl⟩ | hold
    · rw [if_pos ⟨rfl, hc⟩]
    · rw [if_neg]
      · exact h.parent hold
      · rintro ⟨rfl, -⟩
        exact hfree n hold
  · rcases hmem hm with ⟨rfl, rfl⟩ | hm
    · exact hlt
    · exact h.after hm
  · rw [hs]
    rcases hmem hm with ⟨-, rfl⟩ | hm
    · exact hc
    · exact h.bound hm
  · rw [children_place]
    split
    · next hn =>
      rw [hn.1]
      exact hperm.nodup_iff.2 (List.nodup_cons.2 ⟨hfree parent, h.nodup parent⟩)
    · exact h.nodup n

theorem perm_beforeReference (child reference : NodeId) (ns : List NodeId) :
    (beforeReference child reference ns).Perm (child :: ns) := by
  induction ns with
  | nil => exact .refl _
  | cons n ns ih =>
    rw [beforeReference]
    split
    · exact .refl _
    · exact (ih.cons n).trans (.swap child n ns)

inductive Under (d : Document) (top : NodeId) : NodeId → Prop
  | self : Under d top top
  | child {n m : NodeId} : Under d top n → m ∈ (d.node n).children → Under d top m

theorem Under.trans {top middle n : NodeId} (h : d.Under top middle) (h' : d.Under middle n) :
    d.Under top n := by
  induction h' with
  | self => exact h
  | child _ hm ih => exact .child ih hm

def Node.seen (n : Node) : Node := { n with parent := none }

theorem branchWithin_congr {top : NodeId}
    (h : ∀ n, d.Under top n → (d'.node n).seen = (d.node n).seen) (depth : Nat) {n : NodeId}
    (hn : d.Under top n) : d'.branchWithin depth n = d.branchWithin depth n := by
  have hfields {n : NodeId} (hn : d.Under top n) : (d'.node n).kind = (d.node n).kind ∧
      (d'.node n).tag = (d.node n).tag ∧ (d'.node n).attributes = (d.node n).attributes ∧
      (d'.node n).data = (d.node n).data ∧ (d'.node n).children = (d.node n).children := by
    have hs := h n hn
    simp only [Node.seen, Node.mk.injEq, true_and] at hs
    exact hs
  induction depth generalizing n with
  | zero =>
    obtain ⟨-, htag, hattributes, -⟩ := hfields hn
    rw [branchWithin, branchWithin, htag, hattributes]
  | succ depth ih =>
    obtain ⟨hkind, htag, hattributes, hdata, hchildren⟩ := hfields hn
    have hmap : (d.node n).children.map (d'.branchWithin depth) =
        (d.node n).children.map (d.branchWithin depth) :=
      List.map_congr_left fun m hm => ih (.child hn hm)
    rw [branchWithin, branchWithin, hkind, htag, hattributes, hdata, hchildren, hmap]

theorem toHtml_congr (hs : d'.nodes.size = d.nodes.size)
    (h : ∀ n, d.Under root n → (d'.node n).seen = (d.node n).seen) : d'.toHtml = d.toHtml := by
  have hroot : (d'.node root).children = (d.node root).children := by
    have hs := h root .self
    simp only [Node.seen, Node.mk.injEq] at hs
    exact hs.2.2.2.2.2
  have hmap : (d.node root).children.map d'.branch = (d.node root).children.map d.branch := by
    refine List.map_congr_left fun m hm => ?_
    rw [branch, branch, hs]
    exact branchWithin_congr h _ (.child .self hm)
  rw [toHtml, toHtml, innerHtml, innerHtml, childForest, childForest, hroot, hmap]

end LiveMarkup.Document
