import LiveMarkup.Proofs.Component.Prepared
import LiveMarkup.Proofs.Component.Standing

/-!
The ground of a mirror. Where each conditional element is the only one among its siblings, and these
are all elements, the prepared document is one in which directives keep their standing.
-/

namespace LiveMarkup

open LiveMarkup.Markup LiveMarkup.Expression

namespace Document

variable {o : DirectiveOptions} {d : Document}

/-- Where an element is conditional, its condition calls nothing, and among its siblings there are
elements only, no second one conditional. -/
def PlainAt (o : DirectiveOptions) (d : Document) (n : NodeId) : Prop :=
  ∀ source ∈ d.showIf? o n, (∀ a ∈ Expression.parse source, a.isCall = false) ∧
    ∀ parent ∈ (d.node n).parent, ∀ m ∈ (d.node parent).children,
      d.isElement m = true ∧ (d.showIf? o m ≠ none → m = n)

def Plain (o : DirectiveOptions) (d : Document) (top : NodeId) : Prop :=
  ∀ n, d.Under top n → d.PlainAt o n

instance (n : NodeId) : Decidable (d.PlainAt o n) :=
  inferInstanceAs (Decidable (∀ source ∈ d.showIf? o n, _ ∧ _))

theorem forall_showIf {P : NodeId → String → Prop}
    (h : ∀ n < d.nodes.size, ∀ source ∈ d.showIf? o n, P n source) (n : NodeId) :
    ∀ source ∈ d.showIf? o n, P n source := by
  by_cases hn : n < d.nodes.size
  · exact h n hn
  · have hnone : d.showIf? o n = none := by
      rw [showIf?, node_of_le (Nat.le_of_not_lt hn)]
      rfl
    rw [hnone]
    exact nofun

theorem plain_of_nodes (h : ∀ n < d.nodes.size, d.PlainAt o n) (top : NodeId) : d.Plain o top :=
  fun n _ => forall_showIf h n

end Document

namespace Mirror

variable {o : DirectiveOptions} {d : Document} {m : Mirror} {firstCell : CellId}

theorem not_isElement_of_isText {n : NodeId} (h : d.isText n = true) : d.isElement n ≠ true := by
  rw [Document.isText, beq_iff_eq] at h
  rw [Document.isElement, h]
  decide

section Prepare

variable (hd : d.Linked) (hf : m.Follows o d)

include hf in
theorem element_lt {p : Part} (hp : p ∈ m.parts) (hi : p.interpolation ≠ none) :
    p.element < d.nodes.size := by
  have hr := hf.reads p hp
  obtain ⟨t, ht⟩ := List.exists_mem_of_ne_nil _ (hr.interpolation hi)
  exact Document.lt_of_children (hr.texts t ht).1

include hd hf

theorem text_lt {p : Part} (hp : p ∈ m.parts) {t : NodeId} (ht : t ∈ p.texts) :
    t < d.nodes.size := hd.bound ((hf.reads p hp).texts t ht).1

theorem linked_prepare : (m.prepare o d).Linked :=
  linked_prepareAll o hd fun _ hp hi => element_lt hf hp hi

theorem element_mem_prepare {n c : NodeId} (hc : c ∈ (d.node n).children)
    (he : d.isElement c = true) : c ∈ ((m.prepare o d).node n).children := by
  refine mem_children_prepareAll o hd (fun _ hp hi => element_lt hf hp hi) hc fun p hp ht => ?_
  exact not_isElement_of_isText ((hf.reads p hp).texts c ht).2 he

omit hd in
theorem children_prepare {n : NodeId} (hn : ∀ c ∈ (d.node n).children, d.isElement c = true) :
    ((m.prepare o d).node n).children = (d.node n).children := by
  refine children_prepareAll_of_ne o fun p hp hi heq => ?_
  have hr := hf.reads p hp
  obtain ⟨t, ht⟩ := List.exists_mem_of_ne_nil _ (hr.interpolation hi)
  have hmem := (hr.texts t ht).1
  rw [heq] at hmem
  exact not_isElement_of_isText (hr.texts t ht).2 (hn t hmem)

end Prepare

section Conditional

variable (hd : d.Linked) (hf : m.Follows o d) (hplain : d.Plain o m.part.element)
  {c : Conditional} (hc : c ∈ conditionalsOf [m])

include hd hf hplain hc

theorem siblings_of_conditional :
    (∃ before after, (d.node c.anchor.parent).children = before ++ c.element :: after ∧
      c.anchor.prev = before.getLast? ∧ c.anchor.next = after.head?) ∧
    (∃ source, d.showIf? o c.element = some source ∧ c.predicate = compileSource source ∧
      ∀ a ∈ Expression.parse source, a.isCall = false) ∧
    ∀ n ∈ (d.node c.anchor.parent).children,
      d.isElement n = true ∧ (d.showIf? o n ≠ none → n = c.element) := by
  obtain ⟨p, inner, cond, hsub, hparts, hcond, rfl⟩ := hf.conditional hc
  have hp : p ∈ m.parts := hparts p (List.mem_cons_self ..)
  obtain ⟨hmarks, source, hsource, hpred⟩ := (hf.reads p hp).condition cond hcond
  have hmem := hmarks.mem
  obtain ⟨before, after, hbetween, hprev, hnext⟩ := hmarks
  obtain ⟨hcalls, hsiblings⟩ := hplain p.element (hf.under_self hp) source hsource
  have hall := hsiblings cond.anchor.parent (hd.parent hmem)
  have hchildren : d.elementChildren cond.anchor.parent =
      (d.node cond.anchor.parent).children :=
    List.filter_eq_self.2 fun n hn => (hall n hn).1
  rw [hchildren] at hbetween
  exact ⟨⟨before, after, hbetween, hprev, hnext⟩, ⟨source, hsource, hpred, hcalls⟩, hall⟩

theorem eq_of_parent_eq (hsep : Separate m.directives) {c' : Conditional}
    (hc' : c' ∈ conditionalsOf [m]) (heq : c.anchor.parent = c'.anchor.parent) : c = c' := by
  obtain ⟨-, -, hall⟩ := siblings_of_conditional hd hf hplain hc
  obtain ⟨⟨before, after, hb, -⟩, ⟨source, hsource, -⟩, -⟩ :=
    siblings_of_conditional hd hf hplain hc'
  have hmem : c'.element ∈ (d.node c.anchor.parent).children := by
    rw [heq, hb]
    exact List.mem_append_right _ (List.mem_cons_self ..)
  have helement : c'.element = c.element := by
    refine (hall _ hmem).2 ?_
    rw [hsource]
    exact nofun
  have hdir {c : Conditional} (hc : c ∈ conditionalsOf [m]) : .conditional c ∈ m.directives := by
    rw [← directivesOfAll_singleton]
    exact (mem_conditionalsOf _).2 hc
  refine hsep.cell_inj (hdir hc) (hdir hc') ?_
  obtain ⟨p, inner, cond, -, hparts, hcond, rfl⟩ := hf.conditional hc
  obtain ⟨q, inner', cond', -, hparts', hcond', rfl⟩ := hf.conditional hc'
  have hpq : q = p := hf.part_eq hd (hparts' q (List.mem_cons_self ..))
    (hparts p (List.mem_cons_self ..)) helement
  subst hpq
  rw [hcond] at hcond'
  cases hcond'
  rfl

end Conditional

theorem ground_prepare (hd : d.Linked) {element : NodeId} (hbound : element < d.nodes.size)
    (hplain : d.Plain o element) (hm : ofElement o d firstCell element = some m) :
    Ground m.directives (m.prepare o d) := by
  obtain ⟨s', hlaid⟩ := laid_ofElement hm
  obtain ⟨hf, rfl⟩ := follows_ofElement hd hbound hm
  have hsep := separate_of_laid hlaid
  have hcond (c) : .conditional c ∈ m.directives ↔ c ∈ conditionalsOf [m] := by
    rw [← directivesOfAll_singleton, mem_conditionalsOf]
  refine ⟨linked_prepare hd hf, hsep, fun hc => ?_, fun hc hc' heq => ?_, fun {c i} hc hi => ?_,
    fun {i} hi g hg => ?_⟩
  · obtain ⟨hbetween, -, hall⟩ := siblings_of_conditional hd hf hplain ((hcond _).1 hc)
    rw [children_prepare hf fun n hn => (hall n hn).1]
    exact hbetween
  · exact eq_of_parent_eq hd hf hplain ((hcond _).1 hc) hsep ((hcond _).1 hc') heq
  · obtain ⟨p, inner, cond, hsub, hparts, -, rfl⟩ := hf.conditional ((hcond _).1 hc)
    obtain ⟨q, hq, hqi⟩ := List.mem_filterMap.1 hi
    have hunder := hsub.under (fun n x hx he => element_mem_prepare hd hf hx he) q hq
    refine .child hunder ?_
    refine node_mem_prepareAll o hd (fun _ hp hi => element_lt hf hp hi)
      (fun p hp t ht => text_lt hd hf hp ht) ?_ (hparts q hq) hqi
    have hnodes := hlaid.nodes
    rw [interpolationsOf_singleton] at hnodes
    exact hnodes
  · exact exists_of_mem_gates hlaid hi hg

end Mirror

end LiveMarkup
