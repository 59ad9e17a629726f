import LiveMarkup.Proofs.Document.Edits

/-!
What the journal says of one node: each time it is put somewhere or taken away, one entry is added.
Other edits add no entry about it.
-/

namespace LiveMarkup

theorem append_eq_mid {α : Type} {J ms pre post : List α} {m : α} (h : J ++ ms = pre ++ m :: post) :
    (∃ mid, J = pre ++ m :: mid ∧ post = mid ++ ms) ∨ ∃ mid, pre = J ++ mid ∧ ms = mid ++ m :: post := by
  rcases List.append_eq_append_iff.1 h with ⟨mid, hpre, hms⟩ | ⟨_ | ⟨n, mid⟩, hJ, hpost⟩
  · exact .inr ⟨mid, hpre, hms⟩
  · exact .inr ⟨[], by rw [hJ, List.append_nil, List.append_nil], hpost.symm⟩
  · obtain ⟨rfl, rfl⟩ := List.cons.inj hpost
    exact .inl ⟨mid, hJ, rfl⟩

namespace Document

def Mutation.moves (n : NodeId) : Mutation → Bool
  | .inserted _ node => node == n
  | .removed _ node => node == n
  | .textChanged _ => false

def moves (d : Document) (n : NodeId) : List Mutation := d.journal.filter (Mutation.moves n)

variable (d : Document)

theorem moves_setText (id : NodeId) (data : String) (n : NodeId) :
    (d.setText id data).moves n = d.moves n := by
  unfold setText
  split
  · rfl
  · simp [moves, record, update, Mutation.moves]

theorem moves_removeChild (parent child n : NodeId) :
    (d.removeChild parent child).moves n = d.moves n ++
      if child = n ∧ child ∈ (d.node parent).children then [.removed parent child] else [] := by
  unfold removeChild
  by_cases hc : child ∈ (d.node parent).children
  · rw [if_pos (List.contains_iff_mem.2 hc)]
    by_cases hn : child = n
    · simp [moves, record, update, Mutation.moves, hn, hn ▸ hc]
    · simp [moves, record, update, Mutation.moves, hn]
  · rw [if_neg fun h => hc (List.contains_iff_mem.1 h), if_neg fun h => hc h.2, List.append_nil]

theorem moves_place (parent child : NodeId) (arrange : List NodeId → List NodeId) (n : NodeId) :
    (d.place parent child arrange).moves n = d.moves n ++
      if child = n then [.inserted parent child] else [] := by
  by_cases hn : child = n
  · simp [moves, place, record, update, Mutation.moves, hn]
  · simp [moves, place, record, update, Mutation.moves, hn]

theorem moves_create (n : Node) (m : NodeId) : (d.create n).2.moves m = d.moves m := rfl

theorem moves_removeAttribute (id : NodeId) (name : String) (n : NodeId) :
    (d.removeAttribute id name).moves n = d.moves n := rfl

end Document

end LiveMarkup
