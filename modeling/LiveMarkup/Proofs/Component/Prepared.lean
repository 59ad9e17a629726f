import LiveMarkup.Proofs.Component.Apart
import LiveMarkup.Proofs.Component.Follows

/-!
Prepared documents. Preparing a part puts one new text among the children of its element and takes the
old ones away; all other children stay where they are.
-/

namespace LiveMarkup

open LiveMarkup.Markup LiveMarkup.Expression

variable {d : Document} {p : Part}

section Remove

variable (parent : NodeId) (olds : List NodeId)

theorem linked_foldl_removeChild (hd : d.Linked) :
    (olds.foldl (fun d old => d.removeChild parent old) d).Linked := by
  induction olds generalizing d with
  | nil => exact hd
  | cons old olds ih => exact ih (hd.removeChild parent old)

theorem children_foldl_removeChild_of_ne {n : NodeId} (hn : n ≠ parent) :
    ((olds.foldl (fun d old => d.removeChild parent old) d).node n).children =
      (d.node n).children := by
  induction olds generalizing d with
  | nil => rfl
  | cons old olds ih =>
    rw [List.foldl_cons, ih, Document.children_removeChild, if_neg hn]

theorem mem_children_foldl_removeChild (hd : d.Linked) {n x : NodeId}
    (hx : x ∈ (d.node n).children) (hold : x ∉ olds) :
    x ∈ ((olds.foldl (fun d old => d.removeChild parent old) d).node n).children := by
  induction olds generalizing d with
  | nil => exact hx
  | cons old olds ih =>
    obtain ⟨hne, hold⟩ := List.ne_and_not_mem_of_not_mem_cons hold
    refine ih (hd.removeChild parent old) ?_ hold
    exact (Document.mem_children_removeChild hd).2 ⟨hx, fun h => hne h.2⟩

end Remove

namespace Part

def inserted (p : Part) (d : Document) : Document :=
  match p.texts with
  | first :: _ => (d.createText p.text).2.insertBefore p.element d.nodes.size first
  | [] => (d.createText p.text).2.append p.element d.nodes.size

theorem inserted_eq_place (p : Part) (d : Document) :
    ∃ arrange : List NodeId → List NodeId,
      p.inserted d = (d.createText p.text).2.place p.element d.nodes.size arrange ∧
        ∀ ns, (arrange ns).Perm (d.nodes.size :: ns) := by
  have hfree : ((d.createText p.text).2.node d.nodes.size).parent = none := by
    rw [Document.node_createText, if_pos rfl]
    rfl
  have hdetach := Document.detach_of_parent hfree
  unfold inserted
  split
  · next first rest _ =>
    refine ⟨Document.beforeReference d.nodes.size first, ?_, Document.perm_beforeReference _ _⟩
    rw [Document.insertBefore, hdetach]
  · refine ⟨(· ++ [d.nodes.size]), ?_, fun ns => List.perm_append_singleton _ ns⟩
    rw [Document.append, hdetach]

theorem children_createText (d : Document) (data : String) (n : NodeId) :
    ((d.createText data).2.node n).children = (d.node n).children := by
  rw [Document.node_createText]
  split
  · next hn => rw [hn, Document.node_of_le (Nat.le_refl _)]; rfl
  · rfl

theorem linked_inserted (hd : d.Linked) (hp : p.element < d.nodes.size) : (p.inserted d).Linked := by
  obtain ⟨arrange, heq, hperm⟩ := p.inserted_eq_place d
  rw [heq]
  refine (hd.createText p.text).place hp (d.size_createText p.text ▸ Nat.lt_succ_self _) (fun n hn => ?_) (hperm _)
  rw [children_createText] at hn
  exact Nat.lt_irrefl _ (hd.bound hn)

theorem children_inserted_of_ne {n : NodeId} (hn : n ≠ p.element) :
    ((p.inserted d).node n).children = (d.node n).children := by
  obtain ⟨arrange, heq, -⟩ := p.inserted_eq_place d
  rw [heq, Document.children_place, if_neg fun h => hn h.1, children_createText]

theorem mem_children_inserted (hp : p.element < d.nodes.size) {x : NodeId} :
    x ∈ ((p.inserted d).node p.element).children ↔
      x = d.nodes.size ∨ x ∈ (d.node p.element).children := by
  obtain ⟨arrange, heq, hperm⟩ := p.inserted_eq_place d
  have hbound : p.element < (d.createText p.text).2.nodes.size := by
    rw [Document.size_createText]
    exact Nat.lt_succ_of_lt hp
  rw [heq, Document.children_place, if_pos ⟨rfl, hbound⟩,
    (hperm _).mem_iff, List.mem_cons, children_createText]

section Prepare

variable (o : DirectiveOptions)

theorem prepare_of_none (d : Document) (hi : p.interpolation = none) :
    p.prepare o d = d.removeAttribute p.element o.onClick := by
  rw [prepare, hi]

theorem prepare_of_some (d : Document) {i : Interpolation} (hi : p.interpolation = some i) :
    p.prepare o d = p.texts.foldl (fun d old => d.removeChild p.element old)
      (p.inserted (d.removeAttribute p.element o.onClick)) := by
  rw [prepare, hi]
  rfl

theorem linked_prepare (hd : d.Linked) (hp : p.interpolation ≠ none → p.element < d.nodes.size) :
    (p.prepare o d).Linked := by
  have ha := hd.removeAttribute p.element o.onClick
  cases hi : p.interpolation with
  | none =>
    rw [prepare_of_none o d hi]
    exact ha
  | some i =>
    rw [hi] at hp
    have hs : (d.removeAttribute p.element o.onClick).nodes.size = d.nodes.size :=
      Document.size_removeAttribute ..
    rw [prepare_of_some o d hi]
    exact linked_foldl_removeChild _ _ (linked_inserted ha (hs ▸ hp nofun))

theorem children_prepare_of_ne {n : NodeId} (hn : p.interpolation ≠ none → p.element ≠ n) :
    ((p.prepare o d).node n).children = (d.node n).children := by
  cases hi : p.interpolation with
  | none =>
    rw [prepare_of_none o d hi]
    exact Document.children_removeAttribute ..
  | some i =>
    rw [hi] at hn
    have hne : n ≠ p.element := Ne.symm (hn nofun)
    rw [prepare_of_some o d hi, children_foldl_removeChild_of_ne _ _ hne, children_inserted_of_ne hne,
      Document.children_removeAttribute]

theorem mem_children_prepare (hd : d.Linked) (hp : p.interpolation ≠ none → p.element < d.nodes.size)
    {n x : NodeId} (hx : x ∈ (d.node n).children) (hold : x ∉ p.texts) :
    x ∈ ((p.prepare o d).node n).children := by
  by_cases hn : p.interpolation ≠ none → p.element ≠ n
  · rw [children_prepare_of_ne o hn]
    exact hx
  · obtain ⟨hi, heq⟩ : p.interpolation ≠ none ∧ p.element = n := by
      refine ⟨fun h => hn fun h' => absurd h h', ?_⟩
      by_contra hne
      exact hn fun _ => hne
    subst heq
    have hs : (d.removeAttribute p.element o.onClick).nodes.size = d.nodes.size :=
      Document.size_removeAttribute ..
    have ha := hd.removeAttribute p.element o.onClick
    obtain ⟨i, hi'⟩ := Option.ne_none_iff_exists'.1 hi
    rw [prepare_of_some o d hi']
    refine mem_children_foldl_removeChild _ _ (linked_inserted ha (hs ▸ hp hi)) ?_ hold
    refine (mem_children_inserted (hs ▸ hp hi)).2 (.inr ?_)
    rw [Document.children_removeAttribute]
    exact hx

theorem new_mem_children_prepare (hd : d.Linked) (hi : p.interpolation ≠ none)
    (hp : p.element < d.nodes.size) (htexts : ∀ t ∈ p.texts, t < d.nodes.size) :
    d.nodes.size ∈ ((p.prepare o d).node p.element).children := by
  have hs : (d.removeAttribute p.element o.onClick).nodes.size = d.nodes.size :=
    Document.size_removeAttribute ..
  have ha := hd.removeAttribute p.element o.onClick
  obtain ⟨i, hi'⟩ := Option.ne_none_iff_exists'.1 hi
  rw [prepare_of_some o d hi']
  refine mem_children_foldl_removeChild _ _ (linked_inserted ha (hs ▸ hp)) ?_ fun h => ?_
  · exact (mem_children_inserted (hs ▸ hp)).2 (.inl hs.symm)
  · exact Nat.lt_irrefl _ (htexts _ h)

end Prepare

end Part

section All

variable (o : DirectiveOptions)

theorem linked_prepareAll {ps : List Part} (hd : d.Linked)
    (hps : ∀ p ∈ ps, p.interpolation ≠ none → p.element < d.nodes.size) :
    (ps.foldl (fun d p => p.prepare o d) d).Linked := by
  induction ps generalizing d with
  | nil => exact hd
  | cons p ps ih =>
    refine ih (Part.linked_prepare o hd (hps p (List.mem_cons_self ..))) fun q hq hi => ?_
    rw [p.size_prepare]
    exact Nat.lt_add_right _ (hps q (List.mem_cons_of_mem _ hq) hi)

theorem children_prepareAll_of_ne {ps : List Part} {n : NodeId}
    (hn : ∀ p ∈ ps, p.interpolation ≠ none → p.element ≠ n) :
    ((ps.foldl (fun d p => p.prepare o d) d).node n).children = (d.node n).children := by
  induction ps generalizing d with
  | nil => rfl
  | cons p ps ih =>
    rw [List.foldl_cons, ih fun q hq => hn q (List.mem_cons_of_mem _ hq),
      Part.children_prepare_of_ne o (hn p (List.mem_cons_self ..))]

theorem mem_children_prepareAll {ps : List Part} (hd : d.Linked)
    (hps : ∀ p ∈ ps, p.interpolation ≠ none → p.element < d.nodes.size) {n x : NodeId}
    (hx : x ∈ (d.node n).children) (hold : ∀ p ∈ ps, x ∉ p.texts) :
    x ∈ ((ps.foldl (fun d p => p.prepare o d) d).node n).children := by
  induction ps generalizing d with
  | nil => exact hx
  | cons p ps ih =>
    have hp := hps p (List.mem_cons_self ..)
    refine ih (Part.linked_prepare o hd hp) (fun q hq hi => ?_)
      (Part.mem_children_prepare o hd hp hx (hold p (List.mem_cons_self ..)))
      fun q hq => hold q (List.mem_cons_of_mem _ hq)
    rw [p.size_prepare]
    exact Nat.lt_add_right _ (hps q (List.mem_cons_of_mem _ hq) hi)

theorem node_mem_prepareAll {ps : List Part} (hd : d.Linked)
    (hps : ∀ p ∈ ps, p.interpolation ≠ none → p.element < d.nodes.size)
    (htexts : ∀ p ∈ ps, ∀ t ∈ p.texts, t < d.nodes.size)
    (hnodes : (ps.filterMap Part.interpolation).map Interpolation.node =
      List.range' d.nodes.size (ps.filterMap Part.interpolation).length) {i : Interpolation}
    (hp : p ∈ ps) (hi : p.interpolation = some i) :
    i.node ∈ ((ps.foldl (fun d p => p.prepare o d) d).node p.element).children := by
  induction ps generalizing d with
  | nil => cases hp
  | cons q qs ih =>
    have hq := hps q (List.mem_cons_self ..)
    have hsize := q.size_prepare o d
    have hqs (r) (hr : r ∈ qs) (hri : r.interpolation ≠ none) :
        r.element < (q.prepare o d).nodes.size := by
      rw [hsize]
      exact Nat.lt_add_right _ (hps r (List.mem_cons_of_mem _ hr) hri)
    have hlinked := Part.linked_prepare o hd hq
    have hnodes' : (qs.filterMap Part.interpolation).map Interpolation.node =
        List.range' (q.prepare o d).nodes.size (qs.filterMap Part.interpolation).length := by
      rw [List.filterMap_cons] at hnodes
      cases hqi : q.interpolation with
      | none =>
        rw [hqi] at hnodes hsize
        rw [hsize]
        exact hnodes
      | some j =>
        rw [hqi] at hnodes hsize
        rw [hsize]
        exact (List.cons.inj hnodes).2
    rcases List.mem_cons.1 hp with rfl | hp
    · have hnode : i.node = d.nodes.size := by
        rw [List.filterMap_cons, hi] at hnodes
        exact (List.cons.inj hnodes).1
      have hpi : p.interpolation ≠ none := hi ▸ nofun
      have hnew := Part.new_mem_children_prepare o hd hpi (hq hpi) (htexts p hp)
      rw [hnode]
      refine mem_children_prepareAll o hlinked hqs hnew fun r hr hmem => ?_
      exact Nat.lt_irrefl _ (htexts r (List.mem_cons_of_mem _ hr) _ hmem)
    · refine ih hlinked hqs (fun r hr t ht => ?_) hnodes' hp
      rw [hsize]
      exact Nat.lt_add_right _ (htexts r (List.mem_cons_of_mem _ hr) t ht)

end All

end LiveMarkup
