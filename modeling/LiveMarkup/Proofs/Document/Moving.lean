import LiveMarkup.Proofs.Document.Editing
import LiveMarkup.Proofs.Document.Siblings

/-!
Where a node comes to stand. It is taken from where it was before its place is looked up, so the place is
one among the other children of its parent; these keep their order, and so do all other nodes.
-/

namespace LiveMarkup.Document

variable {d : Document} {parent child : NodeId}

def insertAt (child : NodeId) (index : Option Nat) (ns : List NodeId) : List NodeId :=
  match index with
  | some i => ns.insertIdx i child
  | none => ns ++ [child]

def Position.index? (ns : List NodeId) : Position → Option Nat
  | .last => none
  | .first => some 0
  | .before reference => ns.idxOf? reference
  | .after reference => (ns.idxOf? reference).map (· + 1)

theorem insertAt_cons (index : Option Nat) (n : NodeId) (ns : List NodeId) :
    insertAt child (index.map (· + 1)) (n :: ns) = n :: insertAt child index ns := by
  cases index with
  | none => rfl
  | some i => exact List.insertIdx_succ_cons

theorem beforeReference_eq_insertAt (reference : NodeId) (ns : List NodeId) :
    beforeReference child reference ns = insertAt child (ns.idxOf? reference) ns := by
  induction ns with
  | nil => rfl
  | cons n ns ih =>
    rw [beforeReference, List.idxOf?_cons]
    by_cases hn : n = reference
    · simp [hn, insertAt]
    · rw [if_neg hn, if_neg (by simpa using hn), insertAt_cons, ih]

theorem afterReference_eq_insertAt (reference : NodeId) (ns : List NodeId) :
    afterReference child reference ns =
      insertAt child ((ns.idxOf? reference).map (· + 1)) ns := by
  induction ns with
  | nil => rfl
  | cons n ns ih =>
    rw [afterReference, List.idxOf?_cons]
    by_cases hn : n = reference
    · simp [hn, insertAt]
    · rw [if_neg hn, if_neg (by simpa using hn), insertAt_cons, ih]

theorem Position.arrange_eq_insertAt (position : Position) (ns : List NodeId) :
    position.arrange child ns = insertAt child (position.index? ns) ns := by
  cases position with
  | last => rfl
  | first => exact List.insertIdx_zero.symm
  | before reference => exact beforeReference_eq_insertAt reference ns
  | after reference => exact afterReference_eq_insertAt reference ns

def Position.Puts (child : NodeId) (ns ns' : List NodeId) : Position → Prop
  | .last => ns' = ns ++ [child]
  | .first => ns' = child :: ns
  | .before reference =>
    (∀ l r, ns = l ++ reference :: r → ns' = l ++ child :: reference :: r) ∧
      (reference ∉ ns → ns' = ns ++ [child])
  | .after reference =>
    (∀ l r, ns = l ++ reference :: r → ns' = l ++ reference :: child :: r) ∧
      (reference ∉ ns → ns' = ns ++ [child])

theorem not_mem_left_of_nodup {l r ns : List NodeId} {n : NodeId} (hnodup : ns.Nodup)
    (hns : ns = l ++ n :: r) : n ∉ l := by
  rw [hns] at hnodup
  exact fun hn => (List.nodup_append.1 hnodup).2.2 n hn n (List.mem_cons_self ..) rfl

theorem Position.puts_arrange {ns : List NodeId} (hnodup : ns.Nodup) (position : Position) :
    position.Puts child ns (position.arrange child ns) := by
  cases position with
  | last => rfl
  | first => rfl
  | before reference =>
    refine ⟨fun l r hns => ?_, beforeReference_of_not_mem⟩
    have hl := not_mem_left_of_nodup hnodup hns
    rw [hns]
    exact beforeReference_append hl
  | after reference =>
    refine ⟨fun l r hns => ?_, afterReference_of_not_mem⟩
    have hl := not_mem_left_of_nodup hnodup hns
    rw [hns]
    exact afterReference_append hl

def others (d : Document) (n child : NodeId) : List NodeId :=
  (d.node n).children.filter (· != child)

structure Moved (d : Document) (position : Position) (parent child : NodeId) (d' : Document) :
    Prop where
  placed : position.Puts child (d.others parent child) (d'.node parent).children
  index : (d'.node parent).children =
    insertAt child (position.index? (d.others parent child)) (d.others parent child)
  former : ∀ p, (d.node child).parent = some p → p ≠ parent →
    (d'.node p).children = d.others p child
  rest : ∀ n, n ≠ parent → (d.node child).parent ≠ some n →
    (d'.node n).children = (d.node n).children
  parents : ∀ n, (d'.node n).parent = if n = child then some parent else (d.node n).parent
  contents : d.Rewires d'

theorem Mutual.children_detach (h : d.Mutual) (child n : NodeId) :
    ((d.detach child).node n).children = d.others n child := by
  have herase : d.others n child = (d.node n).children.erase child :=
    ((h.nodup n).erase_eq_filter child).symm
  rw [herase]
  unfold Document.detach
  cases hp : (d.node child).parent with
  | none => rw [List.erase_of_not_mem (h.not_mem_of_parent hp n)]
  | some p =>
    rw [children_removeChild]
    split
    · rfl
    · next hn =>
      refine (List.erase_of_not_mem fun hmem => hn ?_).symm
      exact h.eq_of_mem hmem ((h.links p child).2 hp)

theorem Mutual.others_of_parent (h : d.Mutual) {n : NodeId} (hn : (d.node child).parent ≠ some n) :
    d.others n child = (d.node n).children := by
  refine List.filter_eq_self.2 fun m hm => bne_iff_ne.2 ?_
  rintro rfl
  exact hn ((h.links n m).1 hm)

theorem parent_detach_of_ne {n : NodeId} (hn : n ≠ child) :
    ((d.detach child).node n).parent = (d.node n).parent := by
  unfold Document.detach
  split
  · rw [parent_removeChild, if_neg fun hc => hn hc.1]
  · rfl

theorem Mutual.insert_moves (h : d.Mutual) (hp : parent < d.nodes.size) (hc : child < d.nodes.size)
    (position : Position) : d.Moved position parent child (position.insert d parent child) := by
  have hsize := (rewires_detach d child).size
  have hchildren (n : NodeId) : ((position.insert d parent child).node n).children =
      if n = parent then position.arrange child (d.others n child) else d.others n child := by
    rw [Position.insert_eq_place, children_place, hsize, h.children_detach]
    by_cases hn : n = parent
    · rw [if_pos hn, if_pos ⟨hn, hn ▸ hp⟩]
    · rw [if_neg hn, if_neg fun hnp => hn hnp.1]
  have hparent : ((position.insert d parent child).node parent).children =
      position.arrange child (d.others parent child) := (hchildren parent).trans (if_pos rfl)
  refine ⟨?_, ?_, fun p _ hne => ?_, fun n hne hn => ?_, fun n => ?_, ?_⟩
  · rw [hparent]
    exact position.puts_arrange ((h.nodup parent).filter _)
  · rw [hparent, Position.arrange_eq_insertAt]
  · rw [hchildren, if_neg hne]
  · rw [hchildren, if_neg hne, h.others_of_parent hn]
  · rw [Position.insert_eq_place, parent_place, hsize]
    by_cases hn : n = child
    · rw [if_pos ⟨hn, hn ▸ hc⟩, if_pos hn]
    · rw [if_neg fun hnc => hn hnc.1, if_neg hn, parent_detach_of_ne hn]
  · rw [Position.insert_eq_place]
    exact (rewires_detach d child).trans (rewires_place ..)

/-- The first item goes behind its neighbour, where the reference has moved up. -/
theorem Mutual.insert_moves_neighbour :
    let d := Document.parse "<ul><li>a</li><li>b</li><li>c</li></ul>"
    d.Mutual ∧ 1 < d.nodes.size ∧ 2 < d.nodes.size ∧
      d.Moved (.after 4) 1 2 (d.insertAfter 1 2 4) ∧
        ((d.insertAfter 1 2 4).node 1).children = [4, 2, 6] := by
  intro d
  have hd : d.Mutual := (consistent_parse _).toMutual
  have hsize : 1 < d.nodes.size ∧ 2 < d.nodes.size := by decide +kernel
  have hmoved := Mutual.insert_moves hd hsize.1 hsize.2 (.after 4)
  have hothers : d.others 1 2 = [] ++ 4 :: [6] := by decide +kernel
  exact ⟨hd, hsize.1, hsize.2, hmoved, hmoved.placed.1 [] [6] hothers⟩

end LiveMarkup.Document
