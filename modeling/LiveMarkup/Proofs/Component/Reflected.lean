import LiveMarkup.Proofs.Component.Presence
import Mathlib.Data.Set.Card

/-!
Mirrors reflect the elements below their element: one for each of them, nested and ordered as they are,
with what is read off the element.
-/

namespace LiveMarkup

open LiveMarkup.Markup LiveMarkup.Expression

namespace Document

inductive ElementUnder (d : Document) (top : NodeId) : NodeId → Prop
  | self (h : d.isElement top = true) : ElementUnder d top top
  | child {n m : NodeId} (h : ElementUnder d top n) (hm : m ∈ d.elementChildren n) :
    ElementUnder d top m

def ownTexts (d : Document) (n : NodeId) : List NodeId := (d.node n).children.filter d.isText

def ownText (d : Document) (n : NodeId) : String :=
  String.join ((d.ownTexts n).map fun t => (d.node t).data)

variable {d : Document} {top n m : NodeId}

theorem mem_elementChildren : m ∈ d.elementChildren n ↔
    m ∈ (d.node n).children ∧ d.isElement m = true := List.mem_filter

theorem mem_ownTexts : m ∈ d.ownTexts n ↔ m ∈ (d.node n).children ∧ d.isText m = true :=
  List.mem_filter

theorem ElementUnder.under (h : d.ElementUnder top n) : d.Under top n := by
  induction h with
  | self => exact .self
  | child _ hm ih => exact .child ih (mem_elementChildren.1 hm).1

theorem ElementUnder.lt (hd : d.Consistent) (htop : top < d.nodes.size) (h : d.ElementUnder top n) :
    n < d.nodes.size := by
  cases h with
  | self => exact htop
  | child _ hm => exact hd.child_lt (mem_elementChildren.1 hm).1

theorem ElementUnder.trans {a b c : NodeId} (h : d.ElementUnder a b) (h' : d.ElementUnder b c) :
    d.ElementUnder a c := by
  induction h' with
  | self => exact h
  | child _ hm ih => exact .child ih hm

theorem isElement_of_firstIn {s : Selector} {depth : Nat} (hdeep : Deep d.IsChild depth n)
    (h : firstIn s (d.branchWithin depth n) = some m) : d.isElement m = true := by
  induction depth generalizing n with
  | zero => exact absurd hdeep.pos (Nat.lt_irrefl 0)
  | succ depth ih =>
    rw [branchWithin] at h
    cases hk : (d.node n).kind with
    | element =>
      simp only [hk, firstIn] at h
      split at h
      · obtain rfl := Option.some.inj h
        rw [isElement, hk]
        rfl
      · obtain ⟨b, hb, h⟩ := exists_of_firstInForest h
        obtain ⟨child, hchild, rfl⟩ := List.mem_map.1 hb
        exact ih (hdeep.step hchild) h
    | text =>
      simp only [hk, firstIn] at h
      cases h
    | comment =>
      simp only [hk, firstIn] at h
      cases h

theorem isElement_of_query (hd : d.Consistent) {selector : String}
    (h : d.query selector = some m) : d.isElement m = true := by
  rw [query] at h
  split at h
  · obtain ⟨b, hb, h⟩ := exists_of_firstInForest h
    obtain ⟨top, htop, rfl⟩ := List.mem_map.1 hb
    exact isElement_of_firstIn (hd.deep_children (.child .self htop) (hd.child_lt htop)) h
  · cases h

end Document

structure Part.Copies (o : DirectiveOptions) (d : Document) (p : Part) : Prop where
  element : d.isElement p.element = true
  tag : p.tag = (d.node p.element).tag
  attributes : p.attributes = (d.node p.element).attributes.remove o.onClick
  texts : p.texts = d.ownTexts p.element
  text : p.text = d.ownText p.element
  template : p.interpolation.map Interpolation.template =
    Template.ofText? o.opening o.closing (d.ownText p.element)

namespace Mirror

inductive Reflects (o : DirectiveOptions) (d : Document) : Mirror → Prop
  | mk (p : Part) (ms : List Mirror) (copies : p.Copies o d)
    (inner : ms.map (fun m => m.part.element) = d.elementChildren p.element)
    (each : ∀ m ∈ ms, Reflects o d m) : Reflects o d (.mk p ms)

variable {o : DirectiveOptions} {d : Document}

section Plan

variable {gates : List CellId} {parent : Option NodeId} {anchor : Option Anchor} {n : NodeId}
  {s s' : Supply} {depth : Nat} {ns : List NodeId}

theorem textOf_branchWithin (d : Document) (depth : Nat) (n : NodeId) :
    textOf (d.branchWithin (depth + 1) n) = if d.isText n then (d.node n).data else "" := by
  rw [Document.branchWithin, Document.isText]
  cases (d.node n).kind <;> rfl

theorem join_branches (d : Document) (depth : Nat) (ns : List NodeId) :
    String.join ((ns.map (d.branchWithin (depth + 1))).map textOf) =
      String.join ((ns.filter d.isText).map fun t => (d.node t).data) := by
  induction ns with
  | nil => rfl
  | cons n ns ih =>
    rw [List.map_cons, List.map_cons, String.join_cons, ih, textOf_branchWithin, List.filter_cons]
    cases d.isText n with
    | true => rw [if_pos rfl, if_pos rfl, List.map_cons, String.join_cons]
    | false => rw [if_neg Bool.false_ne_true, if_neg Bool.false_ne_true, String.empty_append]

theorem template_interpolation {text : String} {i : Option Interpolation}
    (h : (interpolation o gates text).run s = (i, s')) :
    i.map Interpolation.template = Template.ofText? o.opening o.closing text := by
  rw [interpolation] at h
  cases ht : Template.ofText? o.opening o.closing text with
  | none =>
    rw [ht] at h
    cases h
    rfl
  | some t =>
    rw [ht] at h
    cases h
    rfl

theorem copies_planPart {p : Part} (hn : d.isElement n = true)
    (hdepth : ∀ m ∈ (d.node n).children, 0 < depth)
    (h : (planPart o gates parent anchor n (d.node n).tag (d.node n).attributes
      ((d.node n).children.map (d.branchWithin depth))).run s = (p, s')) :
    p.Copies o d ∧ p.element = n := by
  have htexts : (((d.node n).children.map (d.branchWithin depth)).filter isText).map Branch.label =
      d.ownTexts n ∧
      String.join (((d.node n).children.map (d.branchWithin depth)).map textOf) = d.ownText n := by
    rw [Document.ownText, Document.ownTexts]
    cases hc : (d.node n).children with
    | nil => exact ⟨rfl, rfl⟩
    | cons m ns =>
      obtain ⟨k, rfl⟩ := Nat.exists_eq_add_of_lt (hdepth m (hc ▸ List.mem_cons_self ..))
      rw [Nat.zero_add]
      exact ⟨texts_branches d k _, join_branches d k _⟩
  obtain ⟨s₁, -, hi⟩ := run_planPart _ _ _ _ _ _ _ _ _ h
  have htemplate := template_interpolation hi
  rw [htexts.2] at htemplate
  cases h
  exact ⟨⟨hn, rfl, rfl, htexts.1, htexts.2, htemplate⟩, rfl⟩

def Mirrored (o : DirectiveOptions) (d : Document) (n : NodeId) (m : Option Mirror) : Prop :=
  m.toList.map (fun m => m.part.element) = [n].filter d.isElement ∧ ∀ m' ∈ m, m'.Reflects o d

theorem mirrored_none (hn : ¬d.isElement n = true) : Mirrored o d n none := by
  rw [Mirrored, List.filter_cons_of_neg hn]
  exact ⟨rfl, nofun⟩

theorem reflects_planForest
    (hplan : ∀ n ∈ ns, ∀ {gates parent anchor s m s'},
      (plan o gates parent anchor (d.branchWithin depth n)).run s = (m, s') → Mirrored o d n m)
    {parent : NodeId} {prev : Option NodeId} {ms : List Mirror}
    (h : (planForest o gates parent prev (ns.map (d.branchWithin depth))).run s = (ms, s')) :
    ms.map (fun m => m.part.element) = ns.filter d.isElement ∧ ∀ m ∈ ms, m.Reflects o d := by
  induction ns generalizing prev s ms with
  | nil =>
    cases h
    exact ⟨rfl, nofun⟩
  | cons n ns ih =>
    cases h
    obtain ⟨helement, hreflects⟩ := hplan n (List.mem_cons_self ..) rfl
    obtain ⟨helements, hrest⟩ := ih (fun m hm => hplan m (List.mem_cons_of_mem _ hm)) rfl
    refine ⟨?_, fun m hm => ?_⟩
    · rw [List.map_append, ← List.singleton_append, List.filter_append]
      exact congrArg₂ (· ++ ·) helement helements
    · rcases List.mem_append.1 hm with hm | hm
      · exact hreflects m (Option.mem_toList.1 hm)
      · exact hrest m hm

theorem reflects_plan {m : Option Mirror} (hdeep : Document.Deep d.IsChild depth n)
    (h : (plan o gates parent anchor (d.branchWithin depth n)).run s = (m, s')) :
    Mirrored o d n m := by
  -- no way is longer than the depth, so no branch is cut off before its leaves
  induction depth generalizing n gates parent anchor s m s' with
  | zero => exact absurd hdeep.pos (Nat.lt_irrefl 0)
  | succ depth ih =>
    have hstep (c : NodeId) (hc : c ∈ (d.node n).children) : Document.Deep d.IsChild depth c :=
      hdeep.step hc
    rw [Document.branchWithin] at h
    cases hk : (d.node n).kind with
    | element =>
      simp only [hk] at h
      have hn : d.isElement n = true := by
        rw [Document.isElement, hk]
        rfl
      obtain ⟨m, rfl⟩ : ∃ m', m = some m' := by
        cases h
        exact ⟨_, rfl⟩
      obtain ⟨p, s₁, ms, hp, hms, rfl⟩ := run_plan_element o gates parent anchor n _ _ _ h
      obtain ⟨hcopies, rfl⟩ := copies_planPart hn (fun c hc => (hstep c hc).pos) hp
      obtain ⟨helements, heach⟩ := reflects_planForest (fun c hc => ih (hstep c hc)) hms
      rw [Mirrored, List.filter_cons_of_pos hn]
      refine ⟨rfl, fun m hm => ?_⟩
      obtain rfl := Option.some.inj hm
      exact .mk p ms hcopies helements heach
    | text =>
      simp only [hk] at h
      cases h
      refine mirrored_none ?_
      rw [Document.isElement, hk]
      exact Bool.false_ne_true
    | comment =>
      simp only [hk] at h
      cases h
      refine mirrored_none ?_
      rw [Document.isElement, hk]
      exact Bool.false_ne_true

theorem exists_ofElement (hdeep : Document.Deep d.IsChild d.nodes.size n) (hn : d.isElement n = true)
    (firstCell : CellId) :
    ∃ m, ofElement o d firstCell n = some m ∧ m.part.element = n ∧ m.Reflects o d := by
  have hmirrored : Mirrored o d n (ofElement o d firstCell n) := reflects_plan hdeep rfl
  rw [Mirrored, List.filter_cons_of_pos hn] at hmirrored
  obtain ⟨helement, hreflects⟩ := hmirrored
  cases hm : ofElement o d firstCell n with
  | none =>
    rw [hm] at helement
    cases helement
  | some m =>
    rw [hm] at helement
    exact ⟨m, rfl, (List.cons.inj helement).1, hreflects m hm⟩

end Plan

variable {m : Mirror} {p q : Part} {n c : NodeId}

theorem part_mem_parts (m : Mirror) : m.part ∈ m.parts := by
  cases m
  exact List.mem_cons_self ..

theorem Reflects.copies (h : m.Reflects o d) : ∀ p ∈ m.parts, p.Copies o d := by
  induction h with
  | mk p ms copies inner each ih =>
    intro q hq
    rcases mem_parts_mk.1 hq with rfl | ⟨m, hm, hq⟩
    · exact copies
    · exact ih m hm q hq

theorem Reflects.elementUnder (h : m.Reflects o d) :
    ∀ p ∈ m.parts, d.ElementUnder m.part.element p.element := by
  induction h with
  | mk p ms copies inner each ih =>
    intro q hq
    rcases mem_parts_mk.1 hq with rfl | ⟨m, hm, hq⟩
    · exact .self copies.element
    · have hchild : m.part.element ∈ d.elementChildren p.element :=
        inner ▸ List.mem_map_of_mem hm
      exact (Document.ElementUnder.child (.self copies.element) hchild).trans (ih m hm q hq)

theorem Reflects.exists_child (h : m.Reflects o d) (hp : p ∈ m.parts)
    (hc : c ∈ d.elementChildren p.element) : ∃ q ∈ m.parts, q.element = c := by
  induction h with
  | mk r ms copies inner each ih =>
    rcases mem_parts_mk.1 hp with rfl | ⟨m, hm, hp⟩
    · rw [← inner] at hc
      obtain ⟨m, hm, rfl⟩ := List.mem_map.1 hc
      exact ⟨m.part, mem_parts_mk.2 (.inr ⟨m, hm, m.part_mem_parts⟩), rfl⟩
    · obtain ⟨q, hq, rfl⟩ := ih m hm hp
      exact ⟨q, mem_parts_mk.2 (.inr ⟨m, hm, hq⟩), rfl⟩

theorem Reflects.exists_part_iff (h : m.Reflects o d) :
    (∃ p ∈ m.parts, p.element = n) ↔ d.ElementUnder m.part.element n := by
  constructor
  · rintro ⟨p, hp, rfl⟩
    exact h.elementUnder p hp
  · intro hn
    induction hn with
    | self => exact ⟨m.part, m.part_mem_parts, rfl⟩
    | child _ hc ih =>
      obtain ⟨p, hp, rfl⟩ := ih
      exact h.exists_child hp hc

theorem partsOfAll_eq_flatMap (ms : List Mirror) : partsOfAll ms = ms.flatMap parts := by
  induction ms with
  | nil => rfl
  | cons m ms ih => rw [partsOfAll, ih, List.flatMap_cons]

theorem Reflects.nodup (hd : d.Consistent) (h : m.Reflects o d)
    (hroot : d.Under Document.root m.part.element) : (m.parts.map Part.element).Nodup := by
  induction h with
  | mk p ms copies inner each ih =>
    have hchild {m : Mirror} (hm : m ∈ ms) : m.part.element ∈ (d.node p.element).children := by
      have hmem : m.part.element ∈ d.elementChildren p.element := inner ▸ List.mem_map_of_mem hm
      exact (Document.mem_elementChildren.1 hmem).1
    have hunder {m : Mirror} (hm : m ∈ ms) {n : NodeId} (hn : n ∈ m.parts.map Part.element) :
        d.Under m.part.element n := by
      obtain ⟨q, hq, rfl⟩ := List.mem_map.1 hn
      exact ((each m hm).elementUnder q hq).under
    rw [parts, List.map_cons, List.nodup_cons, partsOfAll_eq_flatMap, List.map_flatMap]
    constructor
    · intro hself
      obtain ⟨m, hm, hn⟩ := List.mem_flatMap.1 hself
      exact hd.not_under_child hroot (hchild hm) (hunder hm hn)
    · refine List.nodup_flatMap.2 ⟨fun m hm => ih m hm (.child hroot (hchild hm)), ?_⟩
      have hnodup : (ms.map fun m => m.part.element).Nodup :=
        inner ▸ (hd.nodup p.element).filter d.isElement
      refine (List.pairwise_map.1 hnodup).imp_of_mem fun {a b} ha hb hne n hna hnb => ?_
      rcases hd.under_or_under (hunder ha hna) (hunder hb hnb) with hu | hu
      · exact hd.not_under_sibling hroot (hchild ha) (hchild hb) hne hu
      · exact hd.not_under_sibling hroot (hchild hb) (hchild ha) (Ne.symm hne) hu

theorem Reflects.size (hd : d.Consistent) (h : m.Reflects o d)
    (hroot : d.Under Document.root m.part.element) :
    m.size = {n | d.ElementUnder m.part.element n}.ncard := by
  have hset : {n | d.ElementUnder m.part.element n} =
      ((m.parts.map Part.element).toFinset : Set NodeId) := by
    ext n
    rw [List.coe_toFinset, Set.mem_ofPred_eq, Set.mem_ofPred_eq, ← h.exists_part_iff, List.mem_map]
  rw [hset, Set.ncard_coe_finset, List.toFinset_card_of_nodup (h.nodup hd hroot), List.length_map]
  rfl

theorem Reflects.find?_iff (h : m.Reflects o d) :
    (∃ p, m.find? n = some p ∧ p.element = n) ↔ d.ElementUnder m.part.element n := by
  rw [← h.exists_part_iff, find?]
  constructor
  · rintro ⟨p, hp, heq⟩
    exact ⟨p, List.mem_of_find?_eq_some hp, heq⟩
  · rintro ⟨p, hp, heq⟩
    have hsome : (m.parts.find? fun q => q.element == n).isSome = true :=
      List.find?_isSome.2 ⟨p, hp, beq_iff_eq.2 heq⟩
    obtain ⟨q, hq⟩ := Option.isSome_iff_exists.1 hsome
    have helement := List.find?_some (p := fun q : Part => q.element == n) hq
    exact ⟨q, hq, beq_iff_eq.1 helement⟩

end Mirror

end LiveMarkup
