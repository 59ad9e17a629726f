import LiveMarkup.Proofs.Component.Turns
import LiveMarkup.Proofs.Document.Siblings

/-!
What directives write into the journal: a refreshed text at most one entry, an element that is taken out
one, and an element that comes back the entries of the texts inside it and then its own.
-/

namespace LiveMarkup

open LiveMarkup.Expression Document

variable {σ : Type} {d : Document} {c : Conditional} {w : World σ}

theorem Anchor.insert_eq_putBack {a : Anchor} {element : NodeId}
    (h : (d.node element).parent = none) :
    a.insert element d = d.place a.parent element (putBack a.prev a.next element) := by
  unfold Anchor.insert putBack
  cases a.next with
  | some next => simp only [insertBefore, detach_of_parent h]
  | none => cases a.prev <;> simp only [insertAfter, prepend, detach_of_parent h]

namespace World

theorem refreshed_eq_or (w : World σ) (i : Interpolation) :
    w.refreshed i = w ∨ w.isGated i = false ∧
      (w.refreshed i).document.journal = w.document.journal ++ [.textChanged i.node] := by
  by_cases hg : w.isGated i = true
  · exact .inl (if_pos hg)
  · have hr : w.refreshed i = w.edit fun d => d.setText i.node (i.template.filled w.store.get) :=
      if_neg hg
    rw [hr]
    simp only [edit, setText]
    split
    · exact .inl rfl
    · exact .inr ⟨Bool.not_eq_true _ ▸ hg, rfl⟩

theorem journal_refreshed (w : World σ) (i : Interpolation) :
    ∃ ms, (w.refreshed i).document.journal = w.document.journal ++ ms ∧
      (∀ m ∈ ms, m = .textChanged i.node ∧ w.isGated i = false) ∧
      ∀ n, ((w.refreshed i).document.node n).data ≠ (w.document.node n).data → .textChanged n ∈ ms := by
  rcases w.refreshed_eq_or i with hsame | ⟨hg, hms⟩
  · rw [hsame]
    exact ⟨[], (List.append_nil _).symm, nofun, fun n hn => absurd rfl hn⟩
  · refine ⟨[.textChanged i.node], hms, fun m hm => ⟨List.mem_singleton.1 hm, hg⟩, fun n hn => ?_⟩
    have honly : n = i.node := by_contra fun h => hn (data_refreshed_of_ne h)
    exact honly ▸ List.mem_singleton_self _

theorem journal_refreshAll (w : World σ) (is : List Interpolation) :
    ∃ ms, (is.foldl refreshed w).document.journal = w.document.journal ++ ms ∧
      (∀ m ∈ ms, ∃ i ∈ is, w.isGated i = false ∧ m = .textChanged i.node) ∧
      ∀ n, ((is.foldl refreshed w).document.node n).data ≠ (w.document.node n).data →
        .textChanged n ∈ ms := by
  induction is generalizing w with
  | nil => exact ⟨[], (List.append_nil _).symm, nofun, fun n hn => absurd rfl hn⟩
  | cons i is ih =>
    obtain ⟨ms, hms, htexts, hfirst⟩ := w.journal_refreshed i
    obtain ⟨ns, hns, htexts', hrest⟩ := ih (w.refreshed i)
    refine ⟨ms ++ ns, by rw [List.foldl_cons, hns, hms, List.append_assoc], fun m hm => ?_,
      fun n hn => ?_⟩
    · rcases List.mem_append.1 hm with hm | hm
      · obtain ⟨rfl, hg⟩ := htexts m hm
        exact ⟨i, List.mem_cons_self .., hg, rfl⟩
      · obtain ⟨j, hj, hg, rfl⟩ := htexts' m hm
        exact ⟨j, List.mem_cons_of_mem _ hj, isGated_refreshed w i j ▸ hg, rfl⟩
    · by_cases hsame : ((w.refreshed i).document.node n).data = (w.document.node n).data
      · exact List.mem_append_right _ (hrest n fun h => hn (h.trans hsame))
      · exact List.mem_append_left _ (hfirst n hsame)

theorem journal_withdrawn (h : c.element ∈ (w.document.node c.anchor.parent).children) :
    (w.withdrawn c).document.journal =
      w.document.journal ++ [.removed c.anchor.parent c.element] := by
  have hdoc : (w.withdrawn c).document = w.document.removeChild c.anchor.parent c.element := rfl
  rw [hdoc, removeChild, if_pos (List.contains_iff_mem.2 h)]
  rfl

def readied (w : World σ) (c : Conditional) : World σ :=
  c.inside.foldl refreshed (w.setPresence c.cell .attached)

theorem spares_readied (w : World σ) (c : Conditional) (keep : NodeId → Prop) :
    w.document.Spares keep (w.readied c).document :=
  (w.setPresence c.cell .attached).spares_refreshAll c.inside keep

theorem restored_eq_place (hf : c.Fits w)
    (hp : (w.document.node c.element).parent = none) :
    (w.restored c).document = (w.readied c).document.place c.anchor.parent c.element
      (putBack c.anchor.prev c.anchor.next c.element) := by
  refine Anchor.insert_eq_putBack ?_
  exact ((w.spares_readied c fun _ => True).parent c.element trivial hf.element).trans hp

theorem journal_readied (w : World σ) (c : Conditional) :
    ∃ ms, (w.readied c).document.journal = w.document.journal ++ ms ∧
      (∀ m ∈ ms, ∃ i ∈ c.inside, (w.setPresence c.cell .attached).isGated i = false ∧
        m = .textChanged i.node) ∧
      ∀ n, ((w.readied c).document.node n).data ≠ (w.document.node n).data → .textChanged n ∈ ms :=
  (w.setPresence c.cell .attached).journal_refreshAll c.inside

theorem journal_restored (hf : c.Fits w) (hp : (w.document.node c.element).parent = none) :
    (w.restored c).document.journal =
      (w.readied c).document.journal ++ [.inserted c.anchor.parent c.element] := by
  rw [restored_eq_place hf hp]
  rfl

end World

end LiveMarkup
