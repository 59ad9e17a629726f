import LiveMarkup.Proofs.Component.Prepared
import LiveMarkup.Proofs.Document.Consistent
import LiveMarkup.Proofs.Document.Journal

/-!
The places of conditional elements. In a document whose links agree, planning finds each conditional
element once, and its anchor names the parent that it has; preparing the document moves none of them.
-/

namespace LiveMarkup

open LiveMarkup.Markup LiveMarkup.Expression

namespace Markup

variable {ι : Type}

mutual

def Branch.subs : Branch ι → List (Branch ι)
  | .element label tag attributes children =>
    .element label tag attributes children :: Forest.subs children
  | .text label data => [.text label data]
  | .comment label data => [.comment label data]

def Forest.subs : Forest ι → List (Branch ι)
  | [] => []
  | b :: bs => Branch.subs b ++ Forest.subs bs

end

theorem Forest.subs_eq_flatMap (f : Forest ι) : Forest.subs f = f.flatMap Branch.subs := by
  induction f with
  | nil => rfl
  | cons b bs ih => rw [Forest.subs, ih, List.flatMap_cons]

theorem Branch.self_mem_subs (b : Branch ι) : b ∈ b.subs := by
  cases b with
  | element label tag attributes children => exact List.mem_cons_self ..
  | text label data => exact List.mem_singleton_self _
  | comment label data => exact List.mem_singleton_self _

theorem Forest.mem_subs {b : Branch ι} {f : Forest ι} (h : b ∈ f) : b ∈ Forest.subs f := by
  rw [Forest.subs_eq_flatMap]
  exact List.mem_flatMap.2 ⟨b, h, b.self_mem_subs⟩

mutual

theorem Branch.mem_subs_of_child {label : ι} {tag : String} {attributes : Attributes}
    {children : Forest ι} {c : Branch ι} (hc : c ∈ children) :
    {b : Branch ι} → .element label tag attributes children ∈ b.subs → c ∈ b.subs
  | .element _ _ _ _, h => by
    refine List.mem_cons_of_mem _ ?_
    rcases List.mem_cons.1 h with h | h
    · cases h
      exact Forest.mem_subs hc
    · exact Forest.mem_subs_of_child hc h
  | .text _ _, h => by cases List.mem_singleton.1 h
  | .comment _ _, h => by cases List.mem_singleton.1 h

theorem Forest.mem_subs_of_child {label : ι} {tag : String} {attributes : Attributes}
    {children : Forest ι} {c : Branch ι} (hc : c ∈ children) :
    {f : Forest ι} → .element label tag attributes children ∈ Forest.subs f → c ∈ Forest.subs f
  | [], h => by cases h
  | _ :: _, h => (List.mem_append.1 h).elim
    (fun h => List.mem_append_left _ (Branch.mem_subs_of_child hc h))
    fun h => List.mem_append_right _ (Forest.mem_subs_of_child hc h)

end

end Markup

namespace Document

variable {d : Document}

theorem under_of_mem_subs {depth : Nat} {n : NodeId} {b : Branch NodeId}
    (h : b ∈ (d.branchWithin depth n).subs) :
    ∃ depth' m, b = d.branchWithin depth' m ∧ d.Under n m := by
  induction depth generalizing n with
  | zero =>
    rw [branchWithin] at h
    cases List.mem_singleton.1 h
    exact ⟨0, n, rfl, .self⟩
  | succ depth ih =>
    by_cases hself : b = d.branchWithin (depth + 1) n
    · exact ⟨_, n, hself, .self⟩
    · have hbelow : b ∈ Forest.subs ((d.node n).children.map (d.branchWithin depth)) := by
        rw [branchWithin] at h hself
        cases hk : (d.node n).kind with
        | element =>
          simp only [hk] at h hself
          exact (List.mem_cons.1 h).resolve_left hself
        | text =>
          simp only [hk] at h hself
          exact absurd (List.mem_singleton.1 h) hself
        | comment =>
          simp only [hk] at h hself
          exact absurd (List.mem_singleton.1 h) hself
      rw [Forest.subs_eq_flatMap] at hbelow
      obtain ⟨c, hc, hb⟩ := List.mem_flatMap.1 hbelow
      obtain ⟨m, hm, rfl⟩ := List.mem_map.1 hc
      obtain ⟨depth', k, hbk, hk⟩ := ih hb
      exact ⟨depth', k, hbk, (Under.child .self hm).trans hk⟩

theorem label_mem_subs {depth : Nat} {n : NodeId} {b : Branch NodeId}
    (h : b ∈ (d.branchWithin depth n).subs) : d.Under n b.label := by
  obtain ⟨depth', m, rfl, hm⟩ := under_of_mem_subs h
  rwa [Mirror.label_branchWithin]

theorem Consistent.nodup_subs (hd : d.Consistent) (depth : Nat) {n : NodeId}
    (hn : d.Under Document.root n) : ((d.branchWithin depth n).subs.map Branch.label).Nodup := by
  induction depth generalizing n with
  | zero => exact List.nodup_singleton _
  | succ depth ih =>
    rw [branchWithin]
    cases hk : (d.node n).kind with
    | element =>
      simp only [Branch.subs, List.map_cons, Branch.label, List.nodup_cons, List.mem_map, not_exists]
      rw [Forest.subs_eq_flatMap, List.flatMap_map, List.map_flatMap]
      constructor
      · rintro b ⟨hb, hlabel⟩
        obtain ⟨c, hc, hb⟩ := List.mem_flatMap.1 hb
        exact hd.not_under_child hn hc (hlabel ▸ label_mem_subs hb)
      · refine List.nodup_flatMap.2 ⟨fun c hc => ih (.child hn hc), ?_⟩
        -- a node under two children would put one of them under the other
        refine (hd.nodup n).imp_of_mem fun {a b} ha hb hne => ?_
        intro x hxa hxb
        obtain ⟨s, hs, rfl⟩ := List.mem_map.1 hxa
        obtain ⟨t, ht, hst⟩ := List.mem_map.1 hxb
        have hua := label_mem_subs hs
        have hub := hst ▸ label_mem_subs ht
        rcases hd.under_or_under hua hub with hu | hu
        · exact hd.not_under_sibling hn ha hb hne hu
        · exact hd.not_under_sibling hn hb ha (Ne.symm hne) hu
    | text => exact List.nodup_singleton _
    | comment => exact List.nodup_singleton _

mutual

theorem firstIn_mem {s : Selector} {n : NodeId} :
    {b : Branch NodeId} → firstIn s b = some n → n ∈ b.subs.map Branch.label
  | .element label tag attributes children, h => by
    rw [firstIn] at h
    split at h
    · cases h
      exact List.mem_cons_self ..
    · exact List.mem_cons_of_mem _ (firstInForest_mem h)
  | .text _ _, h => by cases h
  | .comment _ _, h => by cases h

theorem firstInForest_mem {s : Selector} {n : NodeId} :
    {f : Forest NodeId} → firstInForest s f = some n → n ∈ (Forest.subs f).map Branch.label
  | [], h => by cases h
  | b :: bs, h => by
    rw [firstInForest] at h
    rw [Forest.subs, List.map_append]
    split at h
    · next id hid => exact List.mem_append_left _ (firstIn_mem (hid.trans h))
    · exact List.mem_append_right _ (firstInForest_mem h)

end

theorem under_of_query {selector : String} {element : NodeId}
    (h : d.query selector = some element) :
    ∃ top ∈ (d.node root).children, d.Under top element := by
  rw [query] at h
  split at h
  · next s _ =>
    have hmem := firstInForest_mem h
    rw [Forest.subs_eq_flatMap] at hmem
    obtain ⟨b, hb, rfl⟩ := List.mem_map.1 hmem
    obtain ⟨c, hc, hb⟩ := List.mem_flatMap.1 hb
    obtain ⟨top, htop, rfl⟩ := List.mem_map.1 hc
    exact ⟨top, htop, label_mem_subs hb⟩
  · cases h

end Document

namespace Mirror

/-- What mirrors draw from some branches: each element at most once, with its texts, and an anchor at
the element above it, or one that is given from outside. -/
structure Drawn (subs : List (Branch NodeId)) (outside : Anchor → NodeId → Prop)
    (ms : List Mirror) : Prop where
  elements : ((conditionalsOf ms).map Conditional.element).Sublist (subs.map Branch.label)
  parts : ∀ p ∈ partsOfAll ms, ∃ tag attributes children,
    .element p.element tag attributes children ∈ subs ∧
      p.texts = (children.filter isText).map Branch.label
  anchors : ∀ c ∈ conditionalsOf ms, outside c.anchor c.element ∨ ∃ tag attributes children,
    .element c.anchor.parent tag attributes children ∈ subs ∧
      c.element ∈ children.map Branch.label

namespace Drawn

variable {subs subs' : List (Branch NodeId)} {outside outside' : Anchor → NodeId → Prop}
  {ms ms' : List Mirror}

theorem nil (subs : List (Branch NodeId)) (outside : Anchor → NodeId → Prop) :
    Drawn subs outside [] :=
  ⟨List.nil_sublist _, fun _ hp => (List.not_mem_nil hp).elim, fun _ hc => (List.not_mem_nil hc).elim⟩

theorem imp (h : Drawn subs outside ms) (ho : ∀ a n, outside a n → outside' a n) :
    Drawn subs outside' ms :=
  ⟨h.elements, h.parts, fun c hc => (h.anchors c hc).imp_left (ho _ _)⟩

theorem append (h : Drawn subs outside ms) (h' : Drawn subs' outside ms') :
    Drawn (subs ++ subs') outside (ms ++ ms') where
  elements := by
    rw [conditionalsOf_append, List.map_append, List.map_append]
    exact h.elements.append h'.elements
  parts p hp := by
    rw [partsOfAll_append] at hp
    rcases List.mem_append.1 hp with hp | hp
    · obtain ⟨tag, attributes, children, hmem, ht⟩ := h.parts p hp
      exact ⟨tag, attributes, children, List.mem_append_left _ hmem, ht⟩
    · obtain ⟨tag, attributes, children, hmem, ht⟩ := h'.parts p hp
      exact ⟨tag, attributes, children, List.mem_append_right _ hmem, ht⟩
  anchors c hc := by
    rw [conditionalsOf_append] at hc
    rcases List.mem_append.1 hc with hc | hc
    · refine (h.anchors c hc).imp_right fun ⟨tag, attributes, children, hmem, ht⟩ => ?_
      exact ⟨tag, attributes, children, List.mem_append_left _ hmem, ht⟩
    · refine (h'.anchors c hc).imp_right fun ⟨tag, attributes, children, hmem, ht⟩ => ?_
      exact ⟨tag, attributes, children, List.mem_append_right _ hmem, ht⟩

theorem element {p : Part} {tag : String} {attributes : Attributes} {children : Forest NodeId}
    (ht : p.texts = (children.filter isText).map Branch.label)
    (ho : ∀ c, p.condition = some c → outside c.anchor p.element)
    (h : Drawn (Forest.subs children) (fun a n => a.parent = p.element ∧ n ∈ children.map Branch.label)
      ms) :
    Drawn (Branch.element p.element tag attributes children).subs outside [.mk p ms] where
  elements := by
    rw [conditionalsOf_mk, List.map_append, Branch.subs, List.map_cons, Branch.label]
    cases hc : p.condition with
    | none =>
      simp only [conditionalOf, hc, Option.map_none, Option.toList_none, List.map_nil,
        List.nil_append]
      exact h.elements.cons _
    | some c =>
      simp only [conditionalOf, hc, Option.map_some, Option.toList_some, List.map_cons, List.map_nil,
        List.singleton_append]
      exact h.elements.cons_cons _
  parts q hq := by
    have hnil : partsOfAll [] = [] := rfl
    rw [partsOfAll_mk, hnil, List.append_nil] at hq
    rcases List.mem_cons.1 hq with rfl | hq
    · exact ⟨tag, attributes, children, List.mem_cons_self .., ht⟩
    · obtain ⟨tag', attributes', children', hmem, ht'⟩ := h.parts q hq
      exact ⟨tag', attributes', children', List.mem_cons_of_mem _ hmem, ht'⟩
  anchors c hc := by
    rw [conditionalsOf_mk] at hc
    rcases List.mem_append.1 hc with hc | hc
    · rw [Option.mem_toList, conditionalOf] at hc
      obtain ⟨cond, hcond, rfl⟩ := Option.map_eq_some_iff.1 hc
      exact .inl (ho cond hcond)
    · refine .inr ?_
      rcases h.anchors c hc with ⟨hparent, hmem⟩ | ⟨tag', attributes', children', hmem, hc'⟩
      · exact ⟨tag, attributes, children, hparent ▸ List.mem_cons_self .., hmem⟩
      · exact ⟨tag', attributes', children', List.mem_cons_of_mem _ hmem, hc'⟩

end Drawn

theorem anchor_of_planPart {o : DirectiveOptions} {gates : List CellId} {parent : Option NodeId}
    {anchor : Option Anchor} {element : NodeId} {tag : String} {written : Attributes}
    {children : Forest NodeId} {s s' : Supply} {p : Part}
    (h : (planPart o gates parent anchor element tag written children).run s = (p, s')) :
    p.element = element ∧ p.texts = (children.filter isText).map Branch.label ∧
      ∀ c, p.condition = some c → anchor = some c.anchor := by
  obtain ⟨s₁, hc, -⟩ := run_planPart _ _ _ _ _ _ _ _ _ h
  refine ⟨by cases h; rfl, by cases h; rfl, fun c hpc => ?_⟩
  rcases run_condition ((written.remove o.onClick).find? o.showIf) anchor s with
    ⟨source, a, -, ha, hr⟩ | hr
  · have hcond := (Prod.mk.inj (hc.symm.trans hr)).1
    rw [hpc] at hcond
    cases hcond
    exact ha
  · have hcond := (Prod.mk.inj (hc.symm.trans hr)).1
    rw [hpc] at hcond
    cases hcond

mutual

theorem drawn_plan (o : DirectiveOptions) (gates : List CellId) (parent : Option NodeId)
    (anchor : Option Anchor) (b : Branch NodeId) {s s' : Supply} {m : Option Mirror}
    (h : (plan o gates parent anchor b).run s = (m, s')) :
    Drawn b.subs (fun a n => anchor = some a ∧ n = b.label) m.toList := by
  cases b with
  | element element tag written children =>
    obtain ⟨m, rfl⟩ : ∃ m', m = some m' := by
      cases h
      exact ⟨_, rfl⟩
    obtain ⟨p, s₁, ms, hp, hms, rfl⟩ := run_plan_element o gates parent anchor element tag written
      children h
    obtain ⟨rfl, htexts, hanchor⟩ := anchor_of_planPart hp
    exact .element htexts (fun c hc => ⟨hanchor c hc, rfl⟩)
      (drawn_planForest o _ p.element none children hms)
  | text label data =>
    cases h
    exact .nil _ _
  | comment label data =>
    cases h
    exact .nil _ _

theorem drawn_planForest (o : DirectiveOptions) (gates : List CellId) (parent : NodeId)
    (prev : Option NodeId) (f : Forest NodeId) {s s' : Supply} {ms : List Mirror}
    (h : (planForest o gates parent prev f).run s = (ms, s')) :
    Drawn (Forest.subs f) (fun a n => a.parent = parent ∧ n ∈ f.map Branch.label) ms := by
  cases f with
  | nil =>
    cases h
    exact .nil _ _
  | cons b bs =>
    cases h
    refine Drawn.append ((drawn_plan o gates (some parent) _ b rfl).imp ?_)
      ((drawn_planForest o gates parent _ bs rfl).imp ?_)
    · rintro a n ⟨ha, rfl⟩
      cases ha
      exact ⟨rfl, List.mem_cons_self ..⟩
    · exact fun a n ha => ⟨ha.1, List.mem_cons_of_mem _ ha.2⟩

end

end Mirror

/-- Where the conditional elements of a component stand: each under the parent that its anchor names,
and no two conditionals have one element. -/
structure Places (cs : List Conditional) (d : Document) : Prop where
  parent : ∀ c ∈ cs, (d.node c.element).parent = some c.anchor.parent
  nodup : (cs.map Conditional.element).Nodup

namespace Mirror

variable {o : DirectiveOptions} {d : Document} {m : Mirror} {element : NodeId}

theorem parent_of_mem_subs (hd : d.Consistent) {depth : Nat} {n label : NodeId} {tag : String}
    {attributes : Attributes} {children : Forest NodeId}
    (h : .element label tag attributes children ∈ (d.branchWithin depth n).subs) {c : NodeId}
    (hc : c ∈ children.map Branch.label) : (d.node c).parent = some label := by
  obtain ⟨depth', k, hb, -⟩ := Document.under_of_mem_subs h
  have hlabel : label = k := (congrArg Branch.label hb).trans (label_branchWithin d depth' k)
  subst hlabel
  cases depth' with
  | zero =>
    rw [Document.branchWithin] at hb
    cases hb
    cases hc
  | succ depth' =>
    rw [Document.branchWithin] at hb
    cases hk : (d.node label).kind with
    | element =>
      simp only [hk, Branch.element.injEq] at hb
      rw [hb.2.2.2, List.map_map] at hc
      obtain ⟨x, hx, rfl⟩ := List.mem_map.1 hc
      rw [Function.comp_apply, label_branchWithin]
      exact (hd.links label x).1 hx
    | text =>
      simp only [hk] at hb
      cases hb
    | comment =>
      simp only [hk] at hb
      cases hb

theorem parent_of_anchor (hd : d.Consistent) {a : Anchor} (h : Anchor.of? d element = some a) :
    (d.node element).parent = some a.parent := (hd.links _ _).1 (marks_of? h).mem

theorem drawn_ofElement {firstCell : CellId} (h : ofElement o d firstCell element = some m) :
    Drawn (d.branch element).subs
      (fun a n => Anchor.of? d element = some a ∧ n = (d.branch element).label) [m] := by
  obtain ⟨s', hrun⟩ := run_of_ofElement h
  exact drawn_plan o [] _ _ _ hrun

theorem places_ofElement (hd : d.Consistent) (hroot : d.Under Document.root element)
    {firstCell : CellId} (h : ofElement o d firstCell element = some m) :
    Places (conditionalsOf [m]) d where
  parent c hc := by
    rcases (drawn_ofElement h).anchors c hc with ⟨ha, hn⟩ | ⟨tag, attributes, children, hmem, hc⟩
    · rw [hn, Document.branch, label_branchWithin]
      exact parent_of_anchor hd ha
    · exact parent_of_mem_subs hd hmem hc
  nodup := (drawn_ofElement h).elements.nodup (hd.nodup_subs _ hroot)

theorem exists_part {ms : List Mirror} {c : Conditional} (h : c ∈ conditionalsOf ms) :
    ∃ p ∈ partsOfAll ms, p.element = c.element := by
  induction ms using forest_induction with
  | nil => cases h
  | mk p inner rest ihi ihr =>
    rw [partsOfAll_mk]
    rw [← List.singleton_append, conditionalsOf_append, conditionalsOf_mk] at h
    rcases List.mem_append.1 h with h | h
    · rcases List.mem_append.1 h with h | h
      · rw [Option.mem_toList, conditionalOf] at h
        obtain ⟨cond, -, rfl⟩ := Option.map_eq_some_iff.1 h
        exact ⟨p, List.mem_cons_self .., rfl⟩
      · obtain ⟨q, hq, heq⟩ := ihi h
        exact ⟨q, List.mem_cons_of_mem _ (List.mem_append_left _ hq), heq⟩
    · obtain ⟨q, hq, heq⟩ := ihr h
      exact ⟨q, List.mem_cons_of_mem _ (List.mem_append_right _ hq), heq⟩

theorem not_mem_texts (hd : d.Consistent) (hroot : d.Under Document.root element)
    {firstCell : CellId} (h : ofElement o d firstCell element = some m) {c : Conditional}
    (hc : c ∈ conditionalsOf [m]) {p : Part} (hp : p ∈ partsOfAll [m]) : c.element ∉ p.texts := by
  intro ht
  have hdrawn := drawn_ofElement h
  obtain ⟨q, hq, hqc⟩ := exists_part hc
  obtain ⟨tag, attributes, inner, hmem, -⟩ := hdrawn.parts q hq
  obtain ⟨tag', attributes', children, hmem', htexts⟩ := hdrawn.parts p hp
  rw [htexts] at ht
  obtain ⟨b, hb, hlabel⟩ := List.mem_map.1 ht
  obtain ⟨hb, htext⟩ := List.mem_filter.1 hb
  have heq : b = .element q.element tag attributes inner :=
    List.inj_on_of_nodup_map (hd.nodup_subs _ hroot) (Branch.mem_subs_of_child hb hmem') hmem
      (hlabel.trans hqc.symm)
  rw [heq] at htext
  cases htext

theorem part_lt (hd : d.Consistent) {parent : NodeId} (hparent : (d.node element).parent = some parent)
    {firstCell : CellId} (h : ofElement o d firstCell element = some m) {p : Part}
    (hp : p ∈ partsOfAll [m]) : p.element < d.nodes.size := by
  obtain ⟨tag, attributes, children, hmem, -⟩ := (drawn_ofElement h).parts p hp
  have hunder : d.Under element p.element := Document.label_mem_subs hmem
  cases hunder with
  | self => exact Document.Consistent.lt_of_parent hparent
  | child _ hn => exact hd.child_lt hn

end Mirror

structure Document.Spares (keep : NodeId → Prop) (d d' : Document) : Prop where
  consistent : d.Consistent → d'.Consistent
  size : d.nodes.size ≤ d'.nodes.size
  parent : ∀ n, keep n → n < d.nodes.size → (d'.node n).parent = (d.node n).parent
  moves : ∀ n, keep n → n < d.nodes.size → d'.moves n = d.moves n

namespace Document.Spares

variable {keep : NodeId → Prop} {d d' d'' : Document}

theorem refl (d : Document) : Spares keep d d :=
  ⟨id, Nat.le_refl _, fun _ _ _ => rfl, fun _ _ _ => rfl⟩

theorem trans (h : Spares keep d d') (h' : Spares keep d' d'') : Spares keep d d'' where
  consistent hd := h'.consistent (h.consistent hd)
  size := Nat.le_trans h.size h'.size
  parent n hn hlt := (h'.parent n hn (Nat.lt_of_lt_of_le hlt h.size)).trans (h.parent n hn hlt)
  moves n hn hlt := (h'.moves n hn (Nat.lt_of_lt_of_le hlt h.size)).trans (h.moves n hn hlt)

theorem removeAttribute (d : Document) (id : NodeId) (name : String) :
    Spares keep d (d.removeAttribute id name) where
  consistent hd := hd.removeAttribute id name
  size := Nat.le_of_eq (size_removeAttribute ..).symm
  parent _ _ _ := parent_removeAttribute ..
  moves n _ _ := moves_removeAttribute d id name n

theorem setText (d : Document) (id : NodeId) (data : String) :
    Spares keep d (d.setText id data) where
  consistent hd := hd.setText id data
  size := Nat.le_of_eq (size_setText ..).symm
  parent n _ _ := by
    rw [node_setText]
    split <;> rfl
  moves n _ _ := moves_setText d id data n

theorem removeChild (d : Document) (parent child : NodeId) (h : ¬keep child) :
    Spares keep d (d.removeChild parent child) where
  consistent hd := hd.removeChild parent child
  size := Nat.le_of_eq (rewires_removeChild d parent child).size.symm
  parent n hn _ := by
    rw [parent_removeChild, if_neg]
    rintro ⟨rfl, -⟩
    exact h hn
  moves n hn _ := by
    rw [moves_removeChild, if_neg, List.append_nil]
    rintro ⟨rfl, -⟩
    exact h hn

theorem removeAll (d : Document) (parent : NodeId) {olds : List NodeId} (h : ∀ n ∈ olds, ¬keep n) :
    Spares keep d (olds.foldl (fun d old => d.removeChild parent old) d) := by
  induction olds generalizing d with
  | nil => exact refl d
  | cons old olds ih =>
    exact (removeChild d parent old (h old (List.mem_cons_self ..))).trans
      (ih _ fun n hn => h n (List.mem_cons_of_mem _ hn))

theorem inserted {p : Part} (hp : p.element < d.nodes.size) (hpos : 0 < d.nodes.size) :
    Spares keep d (p.inserted d) := by
  obtain ⟨arrange, heq, hperm⟩ := p.inserted_eq_place d
  have hlinks := Consistent.node_create_links (d := d) (n := Node.text p.text) rfl rfl
  have hfree : ((d.createText p.text).2.node d.nodes.size).parent = none := by
    rw [createText, (hlinks _).1, node_of_le (Nat.le_refl _)]
    rfl
  rw [heq]
  refine ⟨fun hd => ?_, ?_, fun n _ hlt => ?_, fun n _ hlt => ?_⟩
  · have hcreate : (d.createText p.text).2.Consistent := hd.create rfl rfl
    refine hcreate.place ?_ ?_ (Nat.ne_of_gt hpos) hfree hperm
    · rw [size_createText]
      exact Nat.lt_succ_of_lt hp
    · rw [size_createText]
      exact Nat.lt_succ_self _
  · rw [(rewires_place ..).size, size_createText]
    exact Nat.le_succ _
  · rw [parent_place, if_neg fun h => Nat.ne_of_lt hlt h.1]
    exact (hlinks n).1
  · rw [moves_place, if_neg (Nat.ne_of_gt hlt), List.append_nil]
    exact moves_create ..

theorem prepare (o : DirectiveOptions) {p : Part} (hp : p.element < d.nodes.size)
    (htexts : ∀ t ∈ p.texts, ¬keep t) : Spares keep d (p.prepare o d) := by
  have hattribute : Spares keep d (d.removeAttribute p.element o.onClick) := removeAttribute ..
  cases hi : p.interpolation with
  | none => rwa [Part.prepare_of_none o d hi]
  | some i =>
    have hlt := Nat.lt_of_lt_of_le hp hattribute.size
    rw [Part.prepare_of_some o d hi]
    exact hattribute.trans ((inserted hlt (Nat.zero_lt_of_lt hlt)).trans (removeAll _ _ htexts))

theorem prepareAll (o : DirectiveOptions) {ps : List Part}
    (hps : ∀ p ∈ ps, p.element < d.nodes.size ∧ ∀ t ∈ p.texts, ¬keep t) :
    Spares keep d (ps.foldl (fun d p => p.prepare o d) d) := by
  induction ps generalizing d with
  | nil => exact refl d
  | cons p ps ih =>
    obtain ⟨hp, htexts⟩ := hps p (List.mem_cons_self ..)
    have h := prepare o hp htexts
    refine h.trans (ih fun q hq => ?_)
    obtain ⟨hlt, hq⟩ := hps q (List.mem_cons_of_mem _ hq)
    exact ⟨Nat.lt_of_lt_of_le hlt h.size, hq⟩

end Document.Spares

end LiveMarkup
