import LiveMarkup.Proofs.Component.Plan
import LiveMarkup.Proofs.Document.Acyclic

/-!
Mirrors follow the document they are planned from: each part is an element with its texts, the parts
inside it are elements among its children, and an anchor names the neighbours of its element.
-/

namespace LiveMarkup

open LiveMarkup.Markup LiveMarkup.Expression

/-- The attribute that makes an element conditional, if it has one and its click attribute is gone. -/
def Document.showIf? (o : DirectiveOptions) (d : Document) (n : NodeId) : Option String :=
  ((d.node n).attributes.remove o.onClick).find? o.showIf

def Anchor.Marks (a : Anchor) (d : Document) (element : NodeId) : Prop :=
  ∃ before after, d.elementChildren a.parent = before ++ element :: after ∧
    a.prev = before.getLast? ∧ a.next = after.head?

theorem Anchor.Marks.mem {d : Document} {a : Anchor} {n : NodeId} (h : a.Marks d n) :
    n ∈ (d.node a.parent).children := by
  obtain ⟨before, after, hbetween, -⟩ := h
  have hin : n ∈ d.elementChildren a.parent :=
    hbetween ▸ List.mem_append_right _ (List.mem_cons_self ..)
  exact (List.mem_filter.1 hin).1

structure Part.Reads (o : DirectiveOptions) (d : Document) (p : Part) : Prop where
  element : d.isElement p.element = true
  texts : ∀ t ∈ p.texts, t ∈ (d.node p.element).children ∧ d.isText t = true
  interpolation : p.interpolation ≠ none → p.texts ≠ []
  condition : ∀ c, p.condition = some c → c.anchor.Marks d p.element ∧
    ∃ source, d.showIf? o p.element = some source ∧ c.predicate = compileSource source

namespace Mirror

inductive Follows (o : DirectiveOptions) (d : Document) : Mirror → Prop
  | mk (p : Part) (ms : List Mirror) (reads : p.Reads o d)
    (inner : (ms.map fun m => m.part.element).Sublist (d.node p.element).children)
    (follows : ∀ m ∈ ms, Follows o d m) : Follows o d (.mk p ms)

variable {o : DirectiveOptions} {d : Document}

theorem isElement_branchWithin (d : Document) (depth : Nat) (n : NodeId) :
    (d.branchWithin (depth + 1) n).isElement = d.isElement n := by
  rw [Document.branchWithin, Document.isElement]
  cases (d.node n).kind <;> rfl

theorem isText_branchWithin (d : Document) (depth : Nat) (n : NodeId) :
    isText (d.branchWithin (depth + 1) n) = d.isText n := by
  rw [Document.branchWithin, Document.isText]
  cases (d.node n).kind <;> rfl

theorem label_branchWithin (d : Document) (depth : Nat) (n : NodeId) :
    (d.branchWithin depth n).label = n := by
  cases depth with
  | zero => rfl
  | succ depth =>
    rw [Document.branchWithin]
    cases (d.node n).kind <;> rfl

theorem firstElement_branches (d : Document) (depth : Nat) (ns : List NodeId) :
    firstElement (ns.map (d.branchWithin (depth + 1))) = (ns.filter d.isElement).head? := by
  induction ns with
  | nil => rfl
  | cons n ns ih =>
    rw [firstElement, List.map_cons, List.find?_cons, isElement_branchWithin, List.filter_cons]
    cases d.isElement n with
    | true => exact congrArg some (label_branchWithin d _ n)
    | false => exact ih

theorem texts_branches (d : Document) (depth : Nat) (ns : List NodeId) :
    ((ns.map (d.branchWithin (depth + 1))).filter isText).map Branch.label =
      ns.filter d.isText := by
  induction ns with
  | nil => rfl
  | cons n ns ih =>
    rw [List.map_cons, List.filter_cons, List.filter_cons, isText_branchWithin]
    cases d.isText n with
    | true =>
      rw [if_pos rfl, if_pos rfl, List.map_cons, ih, label_branchWithin]
    | false => exact ih

theorem ofText?_empty (opening closing : String) : Template.ofText? opening closing "" = none := by
  rw [Template.ofText?, TemplatePart.hasPlaceholder, TemplatePart.split]
  split
  · rfl
  · rw [if_neg]
    rw [show ("" : String).toList = [] from rfl, TemplatePart.scan]
    exact Bool.false_ne_true

theorem join_texts_eq_empty {f : Forest NodeId} (h : f.filter isText = []) :
    String.join (f.map textOf) = "" := by
  induction f with
  | nil => rfl
  | cons b bs ih =>
    rw [List.filter_cons] at h
    cases b with
    | text label data => cases h
    | element label tag attributes children => exact ih h
    | comment label data => exact ih h

theorem texts_ne_nil {gates : List CellId} {f : Forest NodeId} {s s' : Supply} {i : Interpolation}
    (h : (interpolation o gates (String.join (f.map textOf))).run s = (some i, s')) :
    (f.filter isText).map Branch.label ≠ [] := by
  intro hnil
  rw [join_texts_eq_empty (List.map_eq_nil_iff.1 hnil), interpolation, ofText?_empty] at h
  cases h

section Plan

variable {gates : List CellId} {anchor : Option Anchor} {n : NodeId} {s s' : Supply}

theorem reads_planPart {parent : Option NodeId} {depth : Nat} {p : Part}
    (hn : d.isElement n = true) (ha : ∀ a, anchor = some a → a.Marks d n)
    (h : (planPart o gates parent anchor n (d.node n).tag (d.node n).attributes
      ((d.node n).children.map (d.branchWithin (depth + 1)))).run s = (p, s')) :
    p.Reads o d ∧ p.element = n := by
  obtain ⟨s₁, hc, hi⟩ := run_planPart _ _ _ _ _ _ _ _ _ h
  have hp : p.element = n ∧ p.texts = (d.node n).children.filter d.isText := by
    rw [← texts_branches d depth]
    cases h
    exact ⟨rfl, rfl⟩
  obtain ⟨rfl, htexts⟩ := hp
  refine ⟨⟨hn, fun t ht => ?_, fun hsome => ?_, fun c hpc => ?_⟩, rfl⟩
  · rw [htexts] at ht
    exact List.mem_filter.1 ht
  · obtain ⟨i, hpi⟩ := Option.ne_none_iff_exists'.1 hsome
    rw [hpi] at hi
    rw [htexts, ← texts_branches d depth]
    exact texts_ne_nil hi
  · rcases run_condition ((d.node p.element).attributes.remove o.onClick |>.find? o.showIf) anchor s
      with ⟨source, a, hsource, hanchor, hr⟩ | hr
    · have hcond := (Prod.mk.inj (hc.symm.trans hr)).1
      rw [hpc] at hcond
      cases hcond
      exact ⟨ha a hanchor, source, hsource, rfl⟩
    · have hcond := (Prod.mk.inj (hc.symm.trans hr)).1
      rw [hpc] at hcond
      cases hcond

def Plans (o : DirectiveOptions) (d : Document) (depth : Nat) : Prop :=
  ∀ n gates parent anchor s m s', Document.Deep d.IsChild depth n →
    (d.isElement n = true → ∀ a, anchor = some a → a.Marks d n) →
    (plan o gates parent anchor (d.branchWithin depth n)).run s = (some m, s') →
    m.Follows o d ∧ m.part.element = n

theorem marks_between {depth : Nat} {parent : NodeId} {before after : List NodeId}
    (hc : (d.node parent).children = before ++ n :: after) (hn : d.isElement n = true) :
    Anchor.Marks ⟨parent, (before.filter d.isElement).getLast?,
      firstElement (after.map (d.branchWithin (depth + 1)))⟩ d n := by
  refine ⟨before.filter d.isElement, after.filter d.isElement, ?_, rfl, firstElement_branches ..⟩
  rw [Document.elementChildren, hc, List.filter_append, List.filter_cons, if_pos hn]

theorem follows_planForest {depth : Nat} (hplan : Plans o d (depth + 1)) {parent : NodeId}
    {before ns : List NodeId} (hc : (d.node parent).children = before ++ ns)
    (hns : ∀ n ∈ ns, Document.Deep d.IsChild (depth + 1) n) {ms : List Mirror}
    (h : (planForest o gates parent (before.filter d.isElement).getLast?
      (ns.map (d.branchWithin (depth + 1)))).run s = (ms, s')) :
    (ms.map fun m => m.part.element).Sublist ns ∧ ∀ m ∈ ms, m.Follows o d := by
  -- `before` grows as children are taken, and its last element is the neighbour
  induction ns generalizing before s ms with
  | nil =>
    cases h
    exact ⟨.slnil, nofun⟩
  | cons n ns ih =>
    have hdepth := hns n (List.mem_cons_self ..)
    have hprev : (if (d.branchWithin (depth + 1) n).isElement then
        some (d.branchWithin (depth + 1) n).label else (before.filter d.isElement).getLast?) =
        ((before ++ [n]).filter d.isElement).getLast? := by
      rw [isElement_branchWithin, label_branchWithin, List.filter_append, List.filter_cons]
      cases d.isElement n with
      | true => simp
      | false => simp
    obtain ⟨m, s₁, rest, hm, hrest, rfl⟩ : ∃ m s₁ rest,
        (plan o gates (some parent) (some ⟨parent, (before.filter d.isElement).getLast?,
          firstElement (ns.map (d.branchWithin (depth + 1)))⟩)
          (d.branchWithin (depth + 1) n)).run s = (m, s₁) ∧
        (planForest o gates parent (if (d.branchWithin (depth + 1) n).isElement then
          some (d.branchWithin (depth + 1) n).label else (before.filter d.isElement).getLast?)
          (ns.map (d.branchWithin (depth + 1)))).run s₁ = (rest, s') ∧ ms = m.toList ++ rest := by
      cases h
      exact ⟨_, _, _, rfl, rfl, rfl⟩
    rw [hprev] at hrest
    have hc' : (d.node parent).children = (before ++ [n]) ++ ns := by
      rw [hc, List.append_assoc]
      rfl
    obtain ⟨hsub, hfollows⟩ := ih hc' (fun m hm => hns m (List.mem_cons_of_mem _ hm)) hrest
    cases m with
    | none => exact ⟨hsub.cons n, hfollows⟩
    | some m =>
      obtain ⟨hm, helement⟩ := hplan _ _ _ _ _ _ _ hdepth
        (fun hn a ha => by cases ha; exact marks_between hc hn) hm
      refine ⟨?_, fun m' hm' => ?_⟩
      · rw [Option.toList_some, List.singleton_append, List.map_cons, helement]
        exact hsub.cons_cons n
      · rcases List.mem_cons.1 hm' with rfl | hm'
        · exact hm
        · exact hfollows m' hm'

theorem plans (o : DirectiveOptions) (d : Document) (depth : Nat) : Plans o d depth := by
  -- no way is longer than the depth, so no branch is cut off before its leaves
  induction depth with
  | zero =>
    intro n gates parent anchor s m s' hdepth
    exact absurd hdepth.pos (Nat.lt_irrefl 0)
  | succ depth ih =>
    intro n gates parent anchor s m s' hdepth ha h
    rw [Document.branchWithin] at h
    cases hk : (d.node n).kind with
    | element =>
      simp only [hk] at h
      have hn : d.isElement n = true := by
        rw [Document.isElement, hk]
        rfl
      obtain ⟨p, s₁, ms, hp, hms, rfl⟩ := run_plan_element o gates parent anchor n _ _ _ h
      cases depth with
      | zero =>
        have hnil : (d.node n).children = [] := by
          refine List.eq_nil_iff_forall_not_mem.2 fun c hc => ?_
          exact absurd (hdepth.step hc).pos (Nat.lt_irrefl 0)
        rw [hnil] at hms
        cases hms
        have hp' : (planPart o gates parent anchor n (d.node n).tag (d.node n).attributes
            ((d.node n).children.map (d.branchWithin 1))).run s = (p, s') := by
          rw [hnil] at hp ⊢
          exact hp
        obtain ⟨hreads, rfl⟩ := reads_planPart hn (ha hn) hp'
        have hnone : ∀ m ∈ ([] : List Mirror), m.Follows o d := by
          intro m' hm'
          cases hm'
        exact ⟨.mk p [] hreads (List.nil_sublist _) hnone, rfl⟩
      | succ depth =>
        obtain ⟨hreads, rfl⟩ := reads_planPart hn (ha hn) hp
        have hns (c) (hc : c ∈ (d.node p.element).children) :
            Document.Deep d.IsChild (depth + 1) c := hdepth.step hc
        have hnil : (d.node p.element).children = [] ++ (d.node p.element).children := rfl
        obtain ⟨hsub, hfollows⟩ := follows_planForest ih hnil hns hms
        exact ⟨.mk p ms hreads hsub hfollows, rfl⟩
    | text =>
      simp only [hk] at h
      cases h
    | comment =>
      simp only [hk] at h
      cases h

end Plan

theorem mem_partsOfAll {p : Part} {ms : List Mirror} :
    p ∈ partsOfAll ms ↔ ∃ m ∈ ms, p ∈ m.parts := by
  induction ms with
  | nil => simp [partsOfAll]
  | cons m ms ih => simp [partsOfAll, ih]

theorem mem_parts_mk {p q : Part} {ms : List Mirror} :
    q ∈ parts (.mk p ms) ↔ q = p ∨ ∃ m ∈ ms, q ∈ m.parts := by
  rw [parts, List.mem_cons, mem_partsOfAll]

theorem mem_conditionalsOf_iff {c : Conditional} {ms : List Mirror} :
    c ∈ conditionalsOf ms ↔ ∃ m ∈ ms, c ∈ conditionalsOf [m] := by
  induction ms with
  | nil => exact ⟨nofun, nofun⟩
  | cons m ms ih =>
    rw [← List.singleton_append, conditionalsOf_append, List.mem_append, ih]
    simp

variable {m : Mirror}

theorem Follows.reads (h : m.Follows o d) : ∀ p ∈ m.parts, p.Reads o d := by
  induction h with
  | mk p ms reads inner follows ih =>
    intro q hq
    rcases mem_parts_mk.1 hq with rfl | ⟨m, hm, hq⟩
    · exact reads
    · exact ih m hm q hq

theorem Follows.under (h : m.Follows o d) {d' : Document}
    (hkeep : ∀ n c, c ∈ (d.node n).children → d.isElement c = true → c ∈ (d'.node n).children) :
    ∀ p ∈ m.parts, d'.Under m.part.element p.element := by
  induction h with
  | mk p ms reads inner follows ih =>
    intro q hq
    rcases mem_parts_mk.1 hq with rfl | ⟨m, hm, hq⟩
    · exact .self
    · have hmem : m.part.element ∈ (d.node p.element).children :=
        inner.subset (List.mem_map_of_mem hm)
      have htop : m.part ∈ m.parts := by
        cases m
        exact List.mem_cons_self ..
      have helement := ((follows m hm).reads _ htop).element
      exact (Document.Under.child .self (hkeep _ _ hmem helement)).trans (ih m hm q hq)

theorem Follows.conditional (h : m.Follows o d) {c : Conditional} (hc : c ∈ conditionalsOf [m]) :
    ∃ p inner cond, (Mirror.mk p inner).Follows o d ∧ (∀ q ∈ parts (.mk p inner), q ∈ m.parts) ∧
      p.condition = some cond ∧
      c = ⟨cond.predicate, p.element, cond.anchor, cond.cell, interpolations (.mk p inner)⟩ := by
  induction h with
  | mk p ms reads inner follows ih =>
    rw [conditionalsOf_mk] at hc
    rcases List.mem_append.1 hc with hc | hc
    · rw [Option.mem_toList, conditionalOf] at hc
      obtain ⟨cond, hcond, rfl⟩ := Option.map_eq_some_iff.1 hc
      exact ⟨p, ms, cond, .mk p ms reads inner follows, fun _ hq => hq, hcond, rfl⟩
    · obtain ⟨m, hm, hc⟩ := mem_conditionalsOf_iff.1 hc
      obtain ⟨q, inside, cond, hf, hsub, hcond, hceq⟩ := ih m hm hc
      refine ⟨q, inside, cond, hf, fun r hr => ?_, hcond, hceq⟩
      exact mem_parts_mk.2 (.inr ⟨m, hm, hsub r hr⟩)

end Mirror

namespace Document

variable {d : Document}

theorem Linked.le_of_under (hd : d.Linked) {a n : NodeId} (h : d.Under a n) : a ≤ n := by
  induction h with
  | self => exact Nat.le_refl _
  | child _ hm ih => exact Nat.le_trans ih (Nat.le_of_lt (hd.after hm))

theorem Linked.under_or_under (hd : d.Linked) {a b n : NodeId} (ha : d.Under a n)
    (hb : d.Under b n) : d.Under a b ∨ d.Under b a := by
  induction ha with
  | self => exact .inr hb
  | child ha hm ih =>
    cases hb with
    | self => exact .inl (.child ha hm)
    | child hb hm' =>
      cases hd.eq_of_mem hm hm'
      exact ih hb

theorem Linked.not_under_sibling (hd : d.Linked) {parent a b : NodeId}
    (ha : a ∈ (d.node parent).children) (hb : b ∈ (d.node parent).children) (hne : a ≠ b) :
    ¬d.Under a b := by
  intro h
  cases h with
  | self => exact hne rfl
  | child h hm =>
    cases hd.eq_of_mem hm hb
    exact Nat.not_le.2 (hd.after ha) (hd.le_of_under h)

end Document

namespace Mirror

variable {o : DirectiveOptions} {d : Document} {m : Mirror}

theorem Follows.under_self (h : m.Follows o d) {p : Part} (hp : p ∈ m.parts) :
    d.Under m.part.element p.element := h.under (fun _ _ hc _ => hc) p hp

theorem Follows.part_eq (hd : d.Linked) (h : m.Follows o d) {p q : Part} (hp : p ∈ m.parts)
    (hq : q ∈ m.parts) (heq : p.element = q.element) : p = q := by
  induction h with
  | mk r ms reads inner follows ih =>
    have hchild {m : Mirror} (hm : m ∈ ms) : m.part.element ∈ (d.node r.element).children :=
      inner.subset (List.mem_map_of_mem hm)
    have hbelow {m : Mirror} (hm : m ∈ ms) {q : Part} (hq : q ∈ m.parts) : r.element ≠ q.element := by
      have hlt := Nat.lt_of_lt_of_le (hd.after (hchild hm))
        (hd.le_of_under ((follows m hm).under_self hq))
      exact Nat.ne_of_lt hlt
    rcases mem_parts_mk.1 hp with rfl | ⟨m, hm, hpm⟩
    · rcases mem_parts_mk.1 hq with rfl | ⟨m', hm', hqm⟩
      · rfl
      · exact absurd heq (hbelow hm' hqm)
    · rcases mem_parts_mk.1 hq with rfl | ⟨m', hm', hqm⟩
      · exact absurd heq.symm (hbelow hm hpm)
      · have hup := (follows m hm).under_self hpm
        have huq := (follows m' hm').under_self hqm
        rw [← heq] at huq
        by_cases hne : m.part.element = m'.part.element
        · have hnodup := inner.nodup (hd.nodup r.element)
          have hmm : m = m' := List.inj_on_of_nodup_map hnodup hm hm' hne
          subst hmm
          exact ih m hm hpm hqm
        · rcases hd.under_or_under hup huq with hu | hu
          · exact absurd hu (hd.not_under_sibling (hchild hm) (hchild hm') hne)
          · exact absurd hu (hd.not_under_sibling (hchild hm') (hchild hm) (Ne.symm hne))

theorem marks_of? {a : Anchor} {element : NodeId} (h : Anchor.of? d element = some a) :
    a.Marks d element := by
  rw [Anchor.of?] at h
  cases hp : (d.node element).parent with
  | none =>
    rw [hp] at h
    cases h
  | some parent =>
    simp only [hp] at h
    cases hi : (d.elementChildren parent).idxOf? element with
    | none =>
      rw [hi] at h
      cases h
    | some i =>
      simp only [hi, Option.some.injEq] at h
      obtain ⟨before, after, hsiblings, rfl⟩ : ∃ before after,
          d.elementChildren parent = before ++ element :: after ∧ before.length = i := by
        obtain ⟨hlt, hget, -⟩ := List.idxOf?_eq_some_iff.1 hi
        refine ⟨_, (d.elementChildren parent).drop (i + 1), ?_,
          List.length_take_of_le (Nat.le_of_lt hlt)⟩
        rw [← hget, ← List.drop_eq_getElem_cons hlt, List.take_append_drop]
      subst h
      refine ⟨before, after, hsiblings, ?_, ?_⟩
      · rw [hsiblings, List.getLast?_eq_getElem?]
        cases before with
        | nil => rfl
        | cons b bs => exact List.getElem?_append_left (Nat.lt_succ_self _)
      · rw [hsiblings, List.head?_eq_getElem?, List.getElem?_append_right (Nat.le_succ _),
          Nat.succ_sub (Nat.le_refl _), Nat.sub_self]
        rfl

theorem follows_of_deep {firstCell : CellId} {element : NodeId}
    (hdeep : Document.Deep d.IsChild d.nodes.size element)
    (h : ofElement o d firstCell element = some m) : m.Follows o d ∧ m.part.element = element := by
  obtain ⟨s', hrun⟩ := run_of_ofElement h
  exact plans o d d.nodes.size element _ _ _ _ _ _ hdeep (fun _ a ha => marks_of? ha) hrun

theorem follows_ofElement (hd : d.Linked) {firstCell : CellId} {element : NodeId}
    (hbound : element < d.nodes.size) (h : ofElement o d firstCell element = some m) :
    m.Follows o d ∧ m.part.element = element := by
  refine follows_of_deep ?_ h
  exact (Document.acyclic_of_linked hd).deep_children (fun _ _ => hd.bound) hbound

end Mirror

end LiveMarkup
