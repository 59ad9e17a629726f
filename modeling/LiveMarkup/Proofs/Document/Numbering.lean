import LiveMarkup.Proofs.Document.Edits

/-!
Numbers of nodes. In a document read from trees every child knows its parent, stands once among the
children, and has a greater number.
-/

namespace LiveMarkup.Document

open LiveMarkup.Markup

variable {ι : Type}

structure Linked (d : Document) : Prop where
  root : (d.node root).parent = none
  parent : ∀ {n child}, child ∈ (d.node n).children → (d.node child).parent = some n
  after : ∀ {n child}, child ∈ (d.node n).children → n < child
  bound : ∀ {n child}, child ∈ (d.node n).children → child < d.nodes.size
  nodup : ∀ n, (d.node n).children.Nodup

theorem Linked.eq_of_mem {d : Document} (h : d.Linked) {n m child : NodeId}
    (hn : child ∈ (d.node n).children) (hm : child ∈ (d.node m).children) : n = m :=
  Option.some.inj ((h.parent hn).symm.trans (h.parent hm))

theorem Linked.ne_root {d : Document} (h : d.Linked) {n child : NodeId}
    (hc : child ∈ (d.node n).children) : child ≠ Document.root := by
  rintro rfl
  have hp := h.parent hc
  rw [h.root] at hp
  cases hp

theorem size_pos (b : Branch ι) : 0 < b.size := by
  cases b with
  | element label tag attributes children =>
    rw [Branch.size]
    omega
  | text label data => exact Nat.one_pos
  | comment label data => exact Nat.one_pos

theorem le_of_mem_numbersFrom {start n : Nat} {f : Forest ι} (h : n ∈ numbersFrom start f) :
    start ≤ n := by
  induction f generalizing start with
  | nil => cases h
  | cons b bs ih =>
    rcases List.mem_cons.1 h with rfl | h
    · exact Nat.le_refl _
    · exact Nat.le_trans (Nat.le_add_right _ _) (ih h)

theorem nodup_numbersFrom (start : Nat) (f : Forest ι) : (numbersFrom start f).Nodup := by
  induction f generalizing start with
  | nil => exact List.nodup_nil
  | cons b bs ih =>
    refine List.nodup_cons.2 ⟨fun h => ?_, ih _⟩
    have hle := le_of_mem_numbersFrom h
    have hpos := size_pos b
    omega

mutual

theorem length_nodesOf (parent start : NodeId) (b : Branch ι) :
    (nodesOf parent start b).length = b.size := by
  cases b with
  | element label tag attributes children =>
    rw [nodesOf, List.length_cons, length_nodesOfForest start _ children, Branch.size, Nat.add_comm]
  | text label data => rfl
  | comment label data => rfl

theorem length_nodesOfForest (parent start : NodeId) (f : Forest ι) :
    (nodesOfForest parent start f).length = Forest.size f := by
  cases f with
  | nil => rfl
  | cons b bs =>
    rw [nodesOfForest, List.length_append, length_nodesOf parent start b,
      length_nodesOfForest parent _ bs, Forest.size]

end

/-- Nodes in a row, the first being number `start`: children come later and know their parents. -/
def Numbered (start : Nat) (ns : List Node) : Prop :=
  ∀ j n, ns[j]? = some n → n.children.Nodup ∧
    ∀ c ∈ n.children, ∃ k m, c = start + k ∧ j < k ∧ ns[k]? = some m ∧ m.parent = some (start + j)

def Rooted (parent start : Nat) (numbers : List NodeId) (ns : List Node) : Prop :=
  ∀ c ∈ numbers, ∃ k m, c = start + k ∧ ns[k]? = some m ∧ m.parent = some parent

theorem Numbered.append {start : Nat} {ns ms : List Node} (h : Numbered start ns)
    (h' : Numbered (start + ns.length) ms) : Numbered start (ns ++ ms) := by
  intro j n hj
  by_cases hlt : j < ns.length
  · rw [List.getElem?_append_left hlt] at hj
    obtain ⟨hn, hc⟩ := h j n hj
    refine ⟨hn, fun c hmem => ?_⟩
    obtain ⟨k, m, rfl, hk, hm, hp⟩ := hc c hmem
    have hlen := (List.getElem?_eq_some_iff.1 hm).1
    exact ⟨k, m, rfl, hk, (List.getElem?_append_left hlen).trans hm, hp⟩
  · have hle := Nat.le_of_not_lt hlt
    rw [List.getElem?_append_right hle] at hj
    obtain ⟨hn, hc⟩ := h' _ n hj
    refine ⟨hn, fun c hmem => ?_⟩
    obtain ⟨k, m, rfl, hk, hm, hp⟩ := hc c hmem
    refine ⟨ns.length + k, m, Nat.add_assoc .., by omega, ?_, ?_⟩
    · rw [List.getElem?_append_right (Nat.le_add_right ..), Nat.add_sub_cancel_left]
      exact hm
    · rw [hp, Nat.add_assoc, Nat.add_sub_cancel' hle]

theorem Numbered.cons {start : Nat} {n : Node} {ns : List Node} (hn : n.children.Nodup)
    (hr : Rooted start (start + 1) n.children ns) (h : Numbered (start + 1) ns) :
    Numbered start (n :: ns) := by
  intro j m hj
  cases j with
  | zero =>
    cases hj
    refine ⟨hn, fun c hc => ?_⟩
    obtain ⟨k, m, rfl, hm, hp⟩ := hr c hc
    exact ⟨k + 1, m, by omega, Nat.succ_pos k, hm, hp⟩
  | succ j =>
    obtain ⟨hnodup, hc⟩ := h j m hj
    refine ⟨hnodup, fun c hmem => ?_⟩
    obtain ⟨k, m, rfl, hk, hm, hp⟩ := hc c hmem
    exact ⟨k + 1, m, by omega, Nat.succ_lt_succ hk, hm, by rw [hp]; congr 1; omega⟩

theorem Rooted.append {parent start : Nat} {numbers numbers' : List NodeId} {ns ms : List Node}
    (h : Rooted parent start numbers ns) (h' : Rooted parent (start + ns.length) numbers' ms) :
    Rooted parent start (numbers ++ numbers') (ns ++ ms) := by
  intro c hc
  rcases List.mem_append.1 hc with hc | hc
  · obtain ⟨k, m, rfl, hm, hp⟩ := h c hc
    have hlen := (List.getElem?_eq_some_iff.1 hm).1
    exact ⟨k, m, rfl, (List.getElem?_append_left hlen).trans hm, hp⟩
  · obtain ⟨k, m, rfl, hm, hp⟩ := h' c hc
    refine ⟨ns.length + k, m, Nat.add_assoc .., ?_, hp⟩
    rw [List.getElem?_append_right (Nat.le_add_right ..), Nat.add_sub_cancel_left]
    exact hm

theorem head_nodesOf (parent start : NodeId) (b : Branch ι) :
    ∃ n ns, nodesOf parent start b = n :: ns ∧ n.parent = some parent := by
  cases b with
  | element label tag attributes children => exact ⟨_, _, rfl, rfl⟩
  | text label data => exact ⟨_, _, rfl, rfl⟩
  | comment label data => exact ⟨_, _, rfl, rfl⟩

theorem rooted_nodesOfForest (parent start : NodeId) (f : Forest ι) :
    Rooted parent start (numbersFrom start f) (nodesOfForest parent start f) := by
  induction f generalizing start with
  | nil => nofun
  | cons b bs ih =>
    have hb : Rooted parent start [start] (nodesOf parent start b) := by
      intro c hc
      obtain ⟨n, ns, hns, hp⟩ := head_nodesOf parent start b
      cases List.mem_singleton.1 hc
      exact ⟨0, n, rfl, by rw [hns]; rfl, hp⟩
    refine hb.append ?_
    rw [length_nodesOf]
    exact ih _

mutual

theorem numbered_nodesOf (parent start : NodeId) (b : Branch ι) :
    Numbered start (nodesOf parent start b) := by
  cases b with
  | element label tag attributes children =>
    exact .cons (nodup_numbersFrom _ children) (rooted_nodesOfForest start _ children)
      (numbered_nodesOfForest start _ children)
  | text label data => exact .cons List.nodup_nil nofun nofun
  | comment label data => exact .cons List.nodup_nil nofun nofun

theorem numbered_nodesOfForest (parent start : NodeId) (f : Forest ι) :
    Numbered start (nodesOfForest parent start f) := by
  cases f with
  | nil => nofun
  | cons b bs =>
    refine (numbered_nodesOf parent start b).append ?_
    rw [length_nodesOf]
    exact numbered_nodesOfForest parent _ bs

end

theorem linked_ofForest (f : Forest ι) : (ofForest f).Linked := by
  have hnum : Numbered 0 (ofForest f).nodes.toList :=
    .cons (nodup_numbersFrom 1 f) (rooted_nodesOfForest root 1 f) (numbered_nodesOfForest root 1 f)
  have hnode {n : NodeId} {m : Node} (h : (ofForest f).nodes.toList[n]? = some m) :
      (ofForest f).node n = m ∧ n < (ofForest f).nodes.size := by
    have hlen := (List.getElem?_eq_some_iff.1 h).1
    rw [Array.getElem?_toList] at h
    rw [node, Array.getD_eq_getD_getElem?, h]
    exact ⟨rfl, hlen⟩
  have hget {n : NodeId} (h : n < (ofForest f).nodes.size) :
      (ofForest f).nodes.toList[n]? = some ((ofForest f).node n) := by
    obtain ⟨m, hm⟩ : ∃ m, (ofForest f).nodes.toList[n]? = some m := ⟨_, List.getElem?_eq_getElem h⟩
    rw [hm, (hnode hm).1]
  have hchild {n child : NodeId} (h : child ∈ ((ofForest f).node n).children) :
      n < child ∧ child < (ofForest f).nodes.size ∧ ((ofForest f).node child).parent = some n := by
    obtain ⟨k, m, hk, hlt, hm, hp⟩ := (hnum n _ (hget (lt_of_children h))).2 child h
    rw [Nat.zero_add] at hk hp
    subst hk
    obtain ⟨hm, hbound⟩ := hnode hm
    exact ⟨hlt, hbound, hm ▸ hp⟩
  refine ⟨rfl, fun h => (hchild h).2.2, fun h => (hchild h).1, fun h => (hchild h).2.1, fun n => ?_⟩
  by_cases hn : n < (ofForest f).nodes.size
  · exact (hnum n _ (hget hn)).1
  · rw [node_of_le (Nat.le_of_not_lt hn)]
    exact List.nodup_nil

theorem linked_parse (source : String) : (parse source).Linked := linked_ofForest _

end LiveMarkup.Document
