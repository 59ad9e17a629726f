import LiveMarkup.Proofs.Document.Links
import Mathlib.Data.List.Nodup

/-!
Documents whose links agree: a node is a child of another exactly when that one is its parent, and then
once. Nodes may stand in any order. What can be reached from the root is then a tree.
-/

namespace LiveMarkup.Document

open LiveMarkup.Markup

variable {d d' : Document}

/-- Links agree, whatever hangs below itself. -/
structure Mutual (d : Document) : Prop where
  links : ∀ n m, m ∈ (d.node n).children ↔ (d.node m).parent = some n
  nodup : ∀ n, (d.node n).children.Nodup

structure Consistent (d : Document) : Prop where
  root : (d.node root).parent = none
  links : ∀ n m, m ∈ (d.node n).children ↔ (d.node m).parent = some n
  nodup : ∀ n, (d.node n).children.Nodup

namespace Mutual

theorem eq_of_mem (h : d.Mutual) {n n' m : NodeId} (hm : m ∈ (d.node n).children)
    (hm' : m ∈ (d.node n').children) : n = n' :=
  Option.some.inj (((h.links n m).1 hm).symm.trans ((h.links n' m).1 hm'))

theorem not_mem_of_parent (h : d.Mutual) {m : NodeId} (hm : (d.node m).parent = none)
    (n : NodeId) : m ∉ (d.node n).children := by
  intro hn
  rw [(h.links n m).1 hn] at hm
  cases hm

theorem congr (h : d.Mutual) (hn : ∀ n, (d'.node n).parent = (d.node n).parent ∧
    (d'.node n).children = (d.node n).children) : d'.Mutual where
  links n m := by
    rw [(hn n).2, (hn m).1]
    exact h.links n m
  nodup n := by
    rw [(hn n).2]
    exact h.nodup n

theorem removeChild (h : d.Mutual) (parent child : NodeId) :
    (d.removeChild parent child).Mutual where
  links n m := by
    rw [children_removeChild, parent_removeChild]
    by_cases hm : m = child ∧ child ∈ (d.node parent).children
    · obtain ⟨rfl, hp⟩ := hm
      have hgone : (if m = m ∧ m ∈ (d.node parent).children then none else (d.node m).parent) =
          none := if_pos ⟨rfl, hp⟩
      rw [hgone]
      refine iff_of_false (fun hn => ?_) nofun
      by_cases hnp : n = parent
      · rw [if_pos hnp, hnp] at hn
        exact (h.nodup parent).not_mem_erase hn
      · rw [if_neg hnp] at hn
        exact hnp (h.eq_of_mem hn hp)
    · have hkept : (if m = child ∧ child ∈ (d.node parent).children then none
          else (d.node m).parent) = (d.node m).parent := if_neg hm
      rw [hkept, ← h.links n m]
      by_cases hnp : n = parent
      · subst hnp
        rw [if_pos rfl]
        by_cases heq : m = child
        · have hnone : child ∉ (d.node n).children := fun hc => hm ⟨heq, hc⟩
          rw [List.erase_of_not_mem hnone]
        · exact List.mem_erase_of_ne heq
      · rw [if_neg hnp]
  nodup n := by
    rw [children_removeChild]
    split
    · exact (h.nodup n).erase child
    · exact h.nodup n

theorem detach (h : d.Mutual) (child : NodeId) : (d.detach child).Mutual := by
  unfold Document.detach
  split
  · exact h.removeChild _ child
  · exact h

theorem parent_detach (h : d.Mutual) (child : NodeId) :
    ((d.detach child).node child).parent = none := by
  unfold Document.detach
  split
  · next parent hp =>
    rw [parent_removeChild, if_pos ⟨rfl, (h.links parent child).2 hp⟩]
  · next hp => exact hp

theorem place (h : d.Mutual) {parent child : NodeId} {arrange : List NodeId → List NodeId}
    (hp : parent < d.nodes.size) (hc : child < d.nodes.size)
    (hfree : (d.node child).parent = none)
    (hperm : ∀ ns, (arrange ns).Perm (child :: ns)) : (d.place parent child arrange).Mutual where
  links n m := by
    rw [children_place, parent_place]
    by_cases hm : m = child
    · subst hm
      have hplaced : (if m = m ∧ m < d.nodes.size then some parent else (d.node m).parent) =
          some parent := if_pos ⟨rfl, hc⟩
      rw [hplaced]
      by_cases hn : n = parent
      · rw [if_pos ⟨hn, hn ▸ hp⟩, (hperm _).mem_iff, hn]
        exact iff_of_true (List.mem_cons_self ..) rfl
      · rw [if_neg fun hnp => hn hnp.1]
        exact iff_of_false (h.not_mem_of_parent hfree n) fun heq => hn (Option.some.inj heq).symm
    · have hkept : (if m = child ∧ m < d.nodes.size then some parent else (d.node m).parent) =
          (d.node m).parent := if_neg fun hn => hm hn.1
      rw [hkept, ← h.links n m]
      split
      · rw [(hperm _).mem_iff, List.mem_cons]
        exact ⟨fun hn => hn.resolve_left hm, .inr⟩
      · exact Iff.rfl
  nodup n := by
    rw [children_place]
    split
    · exact (hperm _).nodup_iff.2 (List.nodup_cons.2 ⟨h.not_mem_of_parent hfree n, h.nodup n⟩)
    · exact h.nodup n

end Mutual

namespace Consistent

theorem toMutual (h : d.Consistent) : d.Mutual := ⟨h.links, h.nodup⟩

theorem of_mutual (h : d.Mutual) (hroot : (d.node Document.root).parent = none) : d.Consistent :=
  ⟨hroot, h.links, h.nodup⟩

theorem lt_of_parent {n m : NodeId} (h : (d.node m).parent = some n) : m < d.nodes.size := by
  refine Nat.lt_of_not_le fun hm => ?_
  rw [node_of_le hm] at h
  cases h

theorem child_lt (h : d.Consistent) {n m : NodeId} (hm : m ∈ (d.node n).children) :
    m < d.nodes.size := lt_of_parent ((h.links n m).1 hm)

theorem eq_of_mem (h : d.Consistent) {n n' m : NodeId} (hm : m ∈ (d.node n).children)
    (hm' : m ∈ (d.node n').children) : n = n' := h.toMutual.eq_of_mem hm hm'

theorem ne_root (h : d.Consistent) {n m : NodeId} (hm : m ∈ (d.node n).children) :
    m ≠ Document.root := by
  rintro rfl
  have hp := (h.links n _).1 hm
  rw [h.root] at hp
  cases hp

theorem not_mem_of_parent (h : d.Consistent) {m : NodeId} (hm : (d.node m).parent = none)
    (n : NodeId) : m ∉ (d.node n).children := h.toMutual.not_mem_of_parent hm n

theorem count (h : d.Consistent) (n m : NodeId) :
    (d.node n).children.count m = if (d.node m).parent = some n then 1 else 0 := by
  rw [(h.nodup n).count]
  exact if_congr (h.links n m) rfl rfl

theorem congr (h : d.Consistent) (hn : ∀ n, (d'.node n).parent = (d.node n).parent ∧
    (d'.node n).children = (d.node n).children) : d'.Consistent :=
  of_mutual (h.toMutual.congr hn) ((hn _).1.trans h.root)

theorem removeAttribute (h : d.Consistent) (id : NodeId) (name : String) :
    (d.removeAttribute id name).Consistent :=
  h.congr fun _ => ⟨parent_removeAttribute .., children_removeAttribute ..⟩

theorem setText (h : d.Consistent) (id : NodeId) (data : String) :
    (d.setText id data).Consistent := by
  refine h.congr fun n => ?_
  rw [node_setText]
  split
  · exact ⟨rfl, rfl⟩
  · exact ⟨rfl, rfl⟩

theorem node_create_links {n : Node} (hp : n.parent = none) (hc : n.children = []) (m : NodeId) :
    ((d.create n).2.node m).parent = (d.node m).parent ∧
      ((d.create n).2.node m).children = (d.node m).children := by
  rw [node_create]
  split
  · next hm =>
    rw [hm, node_of_le (Nat.le_refl _), hp, hc]
    exact ⟨rfl, rfl⟩
  · exact ⟨rfl, rfl⟩

theorem create (h : d.Consistent) {n : Node} (hp : n.parent = none) (hc : n.children = []) :
    (d.create n).2.Consistent := h.congr (node_create_links hp hc)

theorem removeChild (h : d.Consistent) (parent child : NodeId) :
    (d.removeChild parent child).Consistent := by
  refine of_mutual (h.toMutual.removeChild parent child) ?_
  rw [parent_removeChild]
  split
  · rfl
  · exact h.root

theorem place (h : d.Consistent) {parent child : NodeId} {arrange : List NodeId → List NodeId}
    (hp : parent < d.nodes.size) (hc : child < d.nodes.size) (hroot : child ≠ Document.root)
    (hfree : (d.node child).parent = none)
    (hperm : ∀ ns, (arrange ns).Perm (child :: ns)) : (d.place parent child arrange).Consistent := by
  refine of_mutual (h.toMutual.place hp hc hfree hperm) ?_
  rw [parent_place, if_neg fun hn => hroot hn.1.symm]
  exact h.root

theorem under_or_under (h : d.Consistent) {a b n : NodeId} (ha : d.Under a n) (hb : d.Under b n) :
    d.Under a b ∨ d.Under b a := by
  induction ha with
  | self => exact .inr hb
  | child ha hm ih =>
    cases hb with
    | self => exact .inl (.child ha hm)
    | child hb hm' =>
      cases h.eq_of_mem hm hm'
      exact ih hb

theorem not_under_child (h : d.Consistent) {n m : NodeId} (hn : d.Under Document.root n)
    (hm : m ∈ (d.node n).children) : ¬d.Under m n := by
  -- a cycle below some node would go through the nodes above it, up to the root
  induction hn generalizing m with
  | self =>
    intro hu
    cases hu with
    | self => exact h.ne_root hm rfl
    | child hu hr => exact h.ne_root hr rfl
  | child hk hn ih =>
    intro hu
    cases hu with
    | self =>
      cases h.eq_of_mem hm hn
      exact ih hn .self
    | child hu hn' =>
      cases h.eq_of_mem hn' hn
      exact ih hn (Under.trans (.child .self hm) hu)

theorem not_under_sibling (h : d.Consistent) {n a b : NodeId} (hn : d.Under Document.root n)
    (ha : a ∈ (d.node n).children) (hb : b ∈ (d.node n).children) (hne : a ≠ b) :
    ¬d.Under a b := by
  intro hu
  cases hu with
  | self => exact hne rfl
  | child hu hm =>
    cases h.eq_of_mem hm hb
    exact h.not_under_child hn ha hu

end Consistent

/-- Nodes in a row, the first being number `start`: the parent of each is outside and has it among
`numbers`, or is one of them and has it among its children. -/
def Claimed (outer : NodeId) (numbers : List NodeId) (start : Nat) (ns : List Node) : Prop :=
  ∀ j n p, ns[j]? = some n → n.parent = some p → (p = outer ∧ start + j ∈ numbers) ∨
    ∃ k m, p = start + k ∧ ns[k]? = some m ∧ start + j ∈ m.children

theorem Claimed.append {outer : NodeId} {numbers numbers' : List NodeId} {start : Nat}
    {ns ms : List Node} (h : Claimed outer numbers start ns)
    (h' : Claimed outer numbers' (start + ns.length) ms) :
    Claimed outer (numbers ++ numbers') start (ns ++ ms) := by
  intro j n p hj hp
  by_cases hlt : j < ns.length
  · rw [List.getElem?_append_left hlt] at hj
    rcases h j n p hj hp with ⟨rfl, hmem⟩ | ⟨k, m, rfl, hm, hmem⟩
    · exact .inl ⟨rfl, List.mem_append_left _ hmem⟩
    · have hlen := (List.getElem?_eq_some_iff.1 hm).1
      exact .inr ⟨k, m, rfl, (List.getElem?_append_left hlen).trans hm, hmem⟩
  · have hle := Nat.le_of_not_lt hlt
    rw [List.getElem?_append_right hle] at hj
    have hindex : start + ns.length + (j - ns.length) = start + j := by omega
    rcases h' _ n p hj hp with ⟨rfl, hmem⟩ | ⟨k, m, rfl, hm, hmem⟩
    · rw [hindex] at hmem
      exact .inl ⟨rfl, List.mem_append_right _ hmem⟩
    · rw [hindex] at hmem
      refine .inr ⟨ns.length + k, m, Nat.add_assoc .., ?_, hmem⟩
      rw [List.getElem?_append_right (Nat.le_add_right ..), Nat.add_sub_cancel_left]
      exact hm

theorem Claimed.cons {outer start : Nat} {n : Node} {ns : List Node}
    (hn : n.parent = none ∨ n.parent = some outer)
    (h : Claimed start n.children (start + 1) ns) : Claimed outer [start] start (n :: ns) := by
  intro j m p hj hp
  cases j with
  | zero =>
    cases hj
    rcases hn with hn | hn
    · rw [hn] at hp
      cases hp
    · rw [hn] at hp
      cases hp
      exact .inl ⟨rfl, List.mem_singleton_self _⟩
  | succ j =>
    have hindex : start + 1 + j = start + (j + 1) := by omega
    rcases h j m p hj hp with ⟨rfl, hmem⟩ | ⟨k, m', rfl, hm, hmem⟩
    · exact .inr ⟨0, n, rfl, rfl, hindex ▸ hmem⟩
    · exact .inr ⟨k + 1, m', Nat.add_right_comm start 1 k, hm, hindex ▸ hmem⟩

mutual

theorem claimed_nodesOf {ι : Type} (parent start : NodeId) (b : Branch ι) :
    Claimed parent [start] start (nodesOf parent start b) := by
  cases b with
  | element label tag attributes children =>
    exact .cons (.inr rfl) (claimed_nodesOfForest start _ children)
  | text label data => exact .cons (.inr rfl) nofun
  | comment label data => exact .cons (.inr rfl) nofun

theorem claimed_nodesOfForest {ι : Type} (parent start : NodeId) (f : Forest ι) :
    Claimed parent (numbersFrom start f) start (nodesOfForest parent start f) := by
  cases f with
  | nil => nofun
  | cons b bs =>
    refine (claimed_nodesOf parent start b).append ?_
    rw [length_nodesOf]
    exact claimed_nodesOfForest parent _ bs

end

theorem consistent_ofForest {ι : Type} (f : Forest ι) : (ofForest f).Consistent := by
  have hlinked := linked_ofForest f
  have hclaimed : Claimed root [0] 0 (ofForest f).nodes.toList :=
    .cons (.inl rfl) (claimed_nodesOfForest root 1 f)
  have hnode {n : NodeId} {m : Node} (h : (ofForest f).nodes.toList[n]? = some m) :
      (ofForest f).node n = m := by
    rw [Array.getElem?_toList] at h
    rw [node, Array.getD_eq_getD_getElem?, h]
    rfl
  refine ⟨rfl, fun n m => ⟨hlinked.parent, fun hp => ?_⟩, hlinked.nodup⟩
  have hlt := Consistent.lt_of_parent hp
  have hget : (ofForest f).nodes.toList[m]? = some ((ofForest f).node m) := by
    obtain ⟨m', hm⟩ : ∃ m', (ofForest f).nodes.toList[m]? = some m' :=
      ⟨_, List.getElem?_eq_getElem hlt⟩
    rw [hm, hnode hm]
  rcases hclaimed m _ n hget hp with ⟨-, hmem⟩ | ⟨k, m', rfl, hk, hmem⟩
  · rw [Nat.zero_add, List.mem_singleton] at hmem
    rw [hmem] at hp
    cases hlinked.root.symm.trans hp
  · rw [Nat.zero_add] at hmem ⊢
    rwa [hnode hk]

theorem consistent_parse (source : String) : (parse source).Consistent := consistent_ofForest _

theorem perm_afterReference (child reference : NodeId) (ns : List NodeId) :
    (afterReference child reference ns).Perm (child :: ns) := by
  induction ns with
  | nil => exact .refl _
  | cons n ns ih =>
    rw [afterReference]
    split
    · exact .swap child n ns
    · exact (ih.cons n).trans (.swap child n ns)

end LiveMarkup.Document
