import LiveMarkup.Proofs.Document.Acyclic
import LiveMarkup.Proofs.Markup.Textless

/-!
Tidy documents. Names and comments are as the scanner finds them, no attribute name holds an equals
sign, and nothing stands under a void element; so all but the texts is read back from the printed form.
Edits that put nothing under a void element keep a document tidy.
-/

namespace LiveMarkup

open LiveMarkup.Markup

def Markup.Attributes.EqualsFree (as : Attributes) : Prop := ∀ a ∈ as, '=' ∉ a.1.toList

def Markup.Branch.EqualsFree {ι : Type} : Branch ι → Prop
  | .element _ _ attributes _ => attributes.EqualsFree
  | .text _ _ => True
  | .comment _ _ => True

instance {ι : Type} : DecidablePred (Branch.EqualsFree (ι := ι))
  | .element _ _ attributes _ => inferInstanceAs (Decidable (∀ a ∈ attributes, _))
  | .text _ _ => inferInstanceAs (Decidable True)
  | .comment _ _ => inferInstanceAs (Decidable True)

theorem Markup.Attributes.EqualsFree.apart {as : Attributes} (h : as.EqualsFree) : as.Apart := by
  refine (List.pairwise_of_forall_mem_list fun _ _ b hb _ heq => ?_).isChain
  exact h b hb (List.mem_of_mem_head? heq)

namespace Document

structure Node.Tidy (n : Node) : Prop where
  tag : n.kind = .element → isTagName n.tag.toList = true
  attributes : n.kind = .element → n.attributes.Named ∧ n.attributes.EqualsFree
  void : isVoid n.tag = true → n.children = []
  comment : n.kind = .comment → ¬commentEnd <:+: n.data.toList

structure Tidy (d : Document) : Prop where
  top : isVoid (d.node root).tag = false
  node : ∀ n < d.nodes.size, n ≠ root → (d.node n).Tidy
  child : ∀ {n m}, m ∈ (d.node n).children → n < m ∧ m < d.nodes.size

variable {d d' : Document}

theorem Tidy.not_void (h : d.Tidy) {n m : NodeId} (hm : m ∈ (d.node n).children) :
    isVoid (d.node n).tag = false := by
  by_cases hn : n = Document.root
  · exact hn ▸ h.top
  · refine Bool.eq_false_iff.2 fun hv => ?_
    rw [(h.node n (lt_of_children hm) hn).void hv] at hm
    cases hm

mutual

theorem tidy_nodesOf {ι : Type} (parent start : NodeId) {b : Branch ι} (hs : b.Every Branch.Scanned)
    (he : b.Every Branch.EqualsFree) : ∀ n ∈ nodesOf parent start b, n.Tidy := by
  match b, hs, he with
  | .element _ tag attributes children, ⟨⟨htag, hnamed, hvoid⟩, hchildren⟩, ⟨hfree, hchildren'⟩ =>
    rw [nodesOf]
    refine List.forall_mem_cons.2 ⟨⟨fun _ => htag, fun _ => ⟨hnamed, hfree⟩, fun hv => ?_, nofun⟩, ?_⟩
    · rw [hvoid hv]
      rfl
    · exact tidy_nodesOfForest _ _ hchildren hchildren'
  | .text _ data, _, _ =>
    rw [nodesOf]
    exact List.forall_mem_singleton.2 ⟨nofun, nofun, fun _ => rfl, nofun⟩
  | .comment _ data, hcomment, _ =>
    rw [nodesOf]
    exact List.forall_mem_singleton.2 ⟨nofun, nofun, fun _ => rfl, fun _ => hcomment⟩

theorem tidy_nodesOfForest {ι : Type} (parent start : NodeId) {f : Forest ι}
    (hs : Forest.Every Branch.Scanned f) (he : Forest.Every Branch.EqualsFree f) :
    ∀ n ∈ nodesOfForest parent start f, n.Tidy := by
  match f, hs, he with
  | [], _, _ => nofun
  | b :: bs, ⟨hb, hbs⟩, ⟨hb', hbs'⟩ =>
    rw [nodesOfForest]
    intro n hn
    rcases List.mem_append.1 hn with hn | hn
    · exact tidy_nodesOf _ _ hb hb' n hn
    · exact tidy_nodesOfForest _ _ hbs hbs' n hn

end

theorem tidy_parse {source : String}
    (h : Forest.Every Branch.EqualsFree (Forest.parse source)) : (parse source).Tidy where
  top := rfl
  node n hn hne := by
    have hall := tidy_nodesOfForest root 1 (Forest.scanned_parse source) h
    obtain ⟨k, rfl⟩ := Nat.exists_eq_succ_of_ne_zero hne
    have hlen : k < (nodesOfForest root 1 (Forest.parse source)).length := Nat.lt_of_succ_lt_succ hn
    have hnode : (parse source).node (k + 1) = (nodesOfForest root 1 (Forest.parse source))[k] := by
      rw [node, Array.getD_eq_getD_getElem?, Array.getElem?_eq_getElem hn]
      rfl
    rw [hnode]
    exact hall _ (List.getElem_mem hlen)
  child hm := ⟨(linked_parse source).after hm, (linked_parse source).bound hm⟩

/-- Numbers grow downwards, so no branch is cut off before its leaves. -/
theorem Tidy.every_branchWithin (h : d.Tidy) (depth : Nat) {n : NodeId} (hn : n < d.nodes.size)
    (hne : n ≠ root) (hdepth : d.nodes.size ≤ depth + n) :
    (d.branchWithin depth n).Every Branch.Scanned ∧ (d.branchWithin depth n).Every Branch.Apart := by
  induction depth generalizing n with
  | zero => exact absurd hn (Nat.not_lt.2 (Nat.zero_add n ▸ hdepth))
  | succ depth ih =>
    obtain ⟨htag, hattributes, hvoid, hcomment⟩ := h.node n hn hne
    rw [branchWithin]
    cases hk : (d.node n).kind with
    | element =>
      have hchildren (m) (hm : m ∈ (d.node n).children) :
          (d.branchWithin depth m).Every Branch.Scanned ∧
            (d.branchWithin depth m).Every Branch.Apart := by
        obtain ⟨hlt, hbound⟩ := h.child hm
        have hrest : d.nodes.size ≤ depth + m := calc
          d.nodes.size ≤ depth + (1 + n) := Nat.add_assoc .. ▸ hdepth
          _ ≤ depth + m := Nat.add_le_add_left (Nat.one_add n ▸ hlt) depth
        exact ih hbound (Nat.ne_of_gt (Nat.zero_lt_of_lt hlt)) hrest
      refine ⟨⟨⟨htag hk, (hattributes hk).1, fun hv => ?_⟩, ?_⟩, (hattributes hk).2.apart, ?_⟩
      · rw [hvoid hv]
        rfl
      · exact Forest.every_iff.2 (List.forall_mem_map.2 fun m hm => (hchildren m hm).1)
      · exact Forest.every_iff.2 (List.forall_mem_map.2 fun m hm => (hchildren m hm).2)
    | text => exact ⟨trivial, trivial⟩
    | comment => exact ⟨hcomment hk, trivial⟩

theorem Tidy.every_forest (h : d.Tidy) :
    Forest.Every Branch.Scanned d.forest ∧ Forest.Every Branch.Apart d.forest := by
  have hchildren (m) (hm : m ∈ (d.node root).children) :
      (d.branch m).Every Branch.Scanned ∧ (d.branch m).Every Branch.Apart := by
    obtain ⟨hlt, hbound⟩ := h.child hm
    exact h.every_branchWithin _ hbound (Nat.ne_of_gt hlt) (Nat.le_add_right _ _)
  exact ⟨Forest.every_iff.2 (List.forall_mem_map.2 fun m hm => (hchildren m hm).1),
    Forest.every_iff.2 (List.forall_mem_map.2 fun m hm => (hchildren m hm).2)⟩

def skeleton (d : Document) : Forest Unit := Forest.withoutTexts (Forest.bare d.forest)

theorem Tidy.skeleton_parse (h : d.Tidy) : (parse d.toHtml).skeleton = d.skeleton := by
  obtain ⟨hscanned, hapart⟩ := h.every_forest
  rw [skeleton, skeleton, forest_parse, Forest.withoutTexts_bare]
  exact Forest.withoutTexts_parse_print hscanned hapart

theorem Tidy.setText (h : d.Tidy) {id : NodeId} (hid : (d.node id).kind ≠ .comment) (data : String) :
    (d.setText id data).Tidy where
  top := by
    rw [node_setText]
    split <;> exact h.top
  node n hn hne := by
    rw [size_setText] at hn
    obtain ⟨htag, hattributes, hvoid, hcomment⟩ := h.node n hn hne
    rw [node_setText]
    split
    · next heq => exact ⟨htag, hattributes, hvoid, fun hk => absurd (heq.1 ▸ hk) hid⟩
    · exact ⟨htag, hattributes, hvoid, hcomment⟩
  child hm := by
    rw [size_setText]
    refine h.child ?_
    rw [node_setText] at hm
    split at hm <;> exact hm

theorem Tidy.rewire (h : d.Tidy) (hr : d.Rewires d')
    (hchild : ∀ n m, m ∈ (d'.node n).children → m ∈ (d.node n).children ∨
      isVoid (d.node n).tag = false ∧ n < m ∧ m < d.nodes.size) : d'.Tidy where
  top := by rw [hr.tag, h.top]
  node n hn hne := by
    rw [hr.size] at hn
    obtain ⟨htag, hattributes, hvoid, hcomment⟩ := h.node n hn hne
    refine ⟨?_, ?_, fun hv => ?_, ?_⟩
    · rwa [hr.kind, hr.tag]
    · rwa [hr.kind, hr.attributes]
    · rw [hr.tag] at hv
      refine List.eq_nil_iff_forall_not_mem.2 fun m hm => ?_
      rcases hchild n m hm with hold | ⟨hnot, -⟩
      · rw [hvoid hv] at hold
        cases hold
      · rw [hv] at hnot
        cases hnot
    · rwa [hr.kind, hr.data]
  child {n m} hm := by
    rw [hr.size]
    rcases hchild n m hm with hold | ⟨-, hnew⟩
    · exact h.child hold
    · exact hnew

theorem Tidy.removeChild (h : d.Tidy) (parent child : NodeId) : (d.removeChild parent child).Tidy :=
  h.rewire (rewires_removeChild ..) fun _ _ hm => .inl (mem_children_of_removeChild hm)

theorem Tidy.detach (h : d.Tidy) (child : NodeId) : (d.detach child).Tidy :=
  h.rewire (rewires_detach ..) fun _ _ hm => .inl (mem_children_of_detach hm)

theorem Tidy.place (h : d.Tidy) {parent child : NodeId} {arrange : List NodeId → List NodeId}
    (hperm : ∀ ns, (arrange ns).Perm (child :: ns)) (hvoid : isVoid (d.node parent).tag = false)
    (hlt : parent < child) (hbound : child < d.nodes.size) : (d.place parent child arrange).Tidy := by
  refine h.rewire (rewires_place ..) fun n m hm => ?_
  rcases mem_children_of_place hperm hm with hold | ⟨rfl, rfl⟩
  · exact .inl hold
  · exact .inr ⟨hvoid, hlt, hbound⟩

theorem Tidy.removeAttribute (h : d.Tidy) (id : NodeId) (name : String) :
    (d.removeAttribute id name).Tidy where
  top := by
    rw [node_removeAttribute]
    split <;> exact h.top
  node n hn hne := by
    rw [size_removeAttribute] at hn
    obtain ⟨htag, hattributes, hvoid, hcomment⟩ := h.node n hn hne
    rw [node_removeAttribute]
    split
    · refine ⟨htag, fun hk => ?_, hvoid, hcomment⟩
      obtain ⟨hnamed, hfree⟩ := hattributes hk
      have hsub : ((d.node n).attributes.remove name).Sublist (d.node n).attributes :=
        List.eraseP_sublist
      exact ⟨⟨fun a ha => hnamed.names a (hsub.subset ha), (hsub.map _).nodup hnamed.nodup⟩,
        fun a ha => hfree a (hsub.subset ha)⟩
    · exact ⟨htag, hattributes, hvoid, hcomment⟩
  child {n m} hm := by
    rw [children_removeAttribute] at hm
    rw [size_removeAttribute]
    exact h.child hm

theorem Tidy.createText (h : d.Tidy) (data : String) : (d.createText data).2.Tidy := by
  refine ⟨?_, fun n hn hne => ?_, fun {n m} hm => ?_⟩
  · rw [node_createText]
    split
    · rfl
    · exact h.top
  · rw [node_createText]
    split
    · exact ⟨nofun, nofun, fun _ => rfl, nofun⟩
    · next hlast =>
      rw [size_createText] at hn
      exact h.node n (Nat.lt_of_le_of_ne (Nat.le_of_lt_succ hn) hlast) hne
  · rw [node_createText] at hm
    split at hm
    · cases hm
    · obtain ⟨hlt, hbound⟩ := h.child hm
      rw [size_createText]
      exact ⟨hlt, Nat.lt_succ_of_lt hbound⟩

end Document

end LiveMarkup
