import LiveMarkup.Proofs.Document.Numbering
import LiveMarkup.Proofs.Markup.Reread

/-!
The tree that a document was made from can be read off its nodes again, and so the tree of a
well-formed document survives being printed and parsed.
-/

namespace LiveMarkup.Document

open LiveMarkup.Markup

variable {ι : Type} {d : Document}

def Holds (d : Document) (start : NodeId) (ns : List Node) : Prop :=
  ∀ i n, ns[i]? = some n → d.node (start + i) = n

theorem Holds.left {start : NodeId} {ns ms : List Node} (h : d.Holds start (ns ++ ms)) :
    d.Holds start ns := by
  intro i n hn
  have hlen := (List.getElem?_eq_some_iff.1 hn).1
  exact h i n ((List.getElem?_append_left hlen).trans hn)

theorem Holds.right {start : NodeId} {ns ms : List Node} (h : d.Holds start (ns ++ ms)) :
    d.Holds (start + ns.length) ms := by
  intro i n hn
  rw [Nat.add_assoc]
  refine h _ n ?_
  rw [List.getElem?_append_right (Nat.le_add_right ..), Nat.add_sub_cancel_left]
  exact hn

theorem Holds.head {start : NodeId} {n : Node} {ns : List Node} (h : d.Holds start (n :: ns)) :
    d.node start = n := h 0 n rfl

theorem Holds.tail {start : NodeId} {n : Node} {ns : List Node} (h : d.Holds start (n :: ns)) :
    d.Holds (start + 1) ns := by
  have hsplit : d.Holds start ([n] ++ ns) := h
  exact hsplit.right

mutual

theorem Holds.bare_branchWithin {parent start : NodeId} {b : Branch ι} {depth : Nat}
    (h : d.Holds start (nodesOf parent start b)) (hd : b.size ≤ depth) :
    (d.branchWithin depth start).bare = b.bare := by
  cases depth with
  | zero => exact absurd (size_pos b) (by omega)
  | succ depth =>
    match b with
    | .element _ tag attributes children =>
      rw [Branch.size] at hd
      rw [nodesOf] at h
      have hdepth : Forest.size children ≤ depth := by omega
      have hchildren := h.tail.bare_branchWithin_numbersFrom hdepth
      simp only [branchWithin, h.head, Branch.bare, hchildren]
    | .text _ data =>
      rw [nodesOf] at h
      simp only [branchWithin, h.head, Branch.bare]
    | .comment _ data =>
      rw [nodesOf] at h
      simp only [branchWithin, h.head, Branch.bare]

theorem Holds.bare_branchWithin_numbersFrom {parent start : NodeId} {f : Forest ι} {depth : Nat}
    (h : d.Holds start (nodesOfForest parent start f)) (hd : Forest.size f ≤ depth) :
    Forest.bare ((numbersFrom start f).map (d.branchWithin depth)) = Forest.bare f := by
  match f with
  | [] => rfl
  | b :: bs =>
    rw [nodesOfForest] at h
    rw [Forest.size] at hd
    have hrest := h.right
    rw [length_nodesOf] at hrest
    rw [numbersFrom, List.map_cons, Forest.bare, h.left.bare_branchWithin (by omega),
      hrest.bare_branchWithin_numbersFrom (by omega), Forest.bare]

end

theorem holds_ofForest (f : Forest ι) :
    (ofForest f).Holds 0 ((ofForest f).nodes.toList) := by
  intro i n hn
  rw [Array.getElem?_toList] at hn
  rw [Nat.zero_add, node, Array.getD_eq_getD_getElem?, hn]
  rfl

theorem forest_ofForest (f : Forest ι) : Forest.bare (ofForest f).forest = Forest.bare f := by
  have hsize : Forest.size f ≤ (ofForest f).nodes.size := by
    simp [ofForest, length_nodesOfForest]
  exact (holds_ofForest f).tail.bare_branchWithin_numbersFrom hsize

theorem forest_parse (source : String) :
    Forest.bare (parse source).forest = Forest.parse source := by
  rw [parse, forest_ofForest, Forest.bare_eq]

structure Regular (as : Attributes) : Prop where
  names : ∀ a ∈ as, a.1 ≠ "" ∧ ∀ c ∈ a.1.toList, isPlainChar c = true ∧ c ≠ '='
  nodup : (as.map Prod.fst).Nodup

instance : DecidablePred Regular := fun as =>
  decidable_of_iff ((∀ a ∈ as, a.1 ≠ "" ∧ a.1.toList.all (fun c => isPlainChar c && c != '=') = true) ∧
    (as.map Prod.fst).Nodup) (by
      simp only [List.all_eq_true, Bool.and_eq_true, bne_iff_ne]
      exact ⟨fun h => ⟨h.1, h.2⟩, fun h => ⟨h.names, h.nodup⟩⟩)

theorem Regular.legible {as : Attributes} (h : Regular as) : as.Legible where
  names a ha := by
    obtain ⟨hne, hplain⟩ := h.names a ha
    cases hcs : a.1.toList with
    | nil => exact absurd (String.toList_inj.1 hcs) hne
    | cons c cs =>
      rw [hcs] at hplain
      simp only [isWrittenName, Bool.and_eq_true, List.all_eq_true, bne_iff_ne]
      exact ⟨(hplain c (List.mem_cons_self ..)).1, fun c hc => hplain c (List.mem_cons_of_mem _ hc)⟩
  nodup := h.nodup
  apart := by
    refine (List.pairwise_of_forall_mem_list fun _ _ b hb _ hc => ?_).isChain
    exact ((h.names b hb).2 _ (List.mem_of_mem_head? hc)).2 rfl

theorem parse_toHtml {d : Document} (h : Forest.WellFormed Regular d.forest) :
    Forest.bare (parse d.toHtml).forest = Forest.bare d.forest := by
  rw [forest_parse]
  exact Forest.parse_print (h.imp fun _ => Regular.legible)

/-- Values that look like markup, a void element, and a comment that ends in hyphens. -/
theorem parse_toHtml_nested :
    let d := ofForest [.element () "p" [("title", "a\" =b>'"), ("hidden", "")]
      [.text () "1 < 2 &amp;", .element () "br" [] [], .text () "=", .comment () "<p>--"]]
    Forest.WellFormed Regular d.forest ∧
      Forest.bare (parse d.toHtml).forest = Forest.bare d.forest := by
  intro d
  have h : Forest.WellFormed Regular d.forest := by decide +kernel
  exact ⟨h, parse_toHtml h⟩

end LiveMarkup.Document
