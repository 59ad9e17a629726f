import LiveMarkup.Proofs.Component.Activation

/-!
Gates and refresh lists. Gates are handed down to the interpolations, refresh lists are collected from them;
both say which conditional elements an interpolation stands in.
-/

namespace LiveMarkup

open LiveMarkup.Markup LiveMarkup.Expression

namespace Mirror

variable {o : DirectiveOptions} {d : Document} {m s : Mirror} {ms : List Mirror}

theorem pairwise_gatesWith {gates : List CellId} {c : Option Condition} {s : Supply}
    (hg : gates.Pairwise (· < ·)) (hlt : ∀ g ∈ gates, g < s.cell)
    (hc : ∀ c' ∈ c, c'.cell = s.cell) : (gatesWith gates c).Pairwise (· < ·) := by
  cases c with
  | none =>
    rw [gatesWith, Option.map_none, Option.toList_none, List.append_nil]
    exact hg
  | some c =>
    refine List.pairwise_append.2 ⟨hg, List.pairwise_singleton .., fun g hmem g' hmem' => ?_⟩
    rw [List.mem_singleton.1 hmem', hc c rfl]
    exact hlt g hmem

theorem gates_planPart {gates : List CellId} {parent : Option NodeId} {anchor : Option Anchor}
    {element : NodeId} {tag : String} {written : Attributes} {children : Forest NodeId}
    {s s₁ : Supply} {p : Part}
    (hg : gates.Pairwise (· < ·)) (hlt : ∀ g ∈ gates, g < s.cell)
    (h : (planPart o gates parent anchor element tag written children).run s = (p, s₁)) :
    (gatesWith gates p.condition).Pairwise (· < ·) ∧
      (∀ g ∈ gatesWith gates p.condition, g < s₁.cell) ∧
      ∀ i ∈ p.interpolation, i.gates = gatesWith gates p.condition := by
  obtain ⟨s₂, hc, hi⟩ := run_planPart _ _ _ _ _ _ _ _ _ h
  have hcell : s₁.cell = s₂.cell ∧ ∀ i ∈ p.interpolation, i.gates = gatesWith gates p.condition := by
    rcases run_interpolation o (gatesWith gates p.condition) (String.join (children.map textOf)) s₂
      with ⟨t, -, ht⟩ | ht
    · obtain ⟨hpi, rfl⟩ := Prod.mk.inj (hi.symm.trans ht)
      rw [hpi]
      refine ⟨rfl, fun i hi => ?_⟩
      cases hi
      rfl
    · obtain ⟨hpi, rfl⟩ := Prod.mk.inj (hi.symm.trans ht)
      rw [hpi]
      exact ⟨rfl, nofun⟩
  rw [hcell.1]
  rcases run_condition ((written.remove o.onClick).find? o.showIf) anchor s with
    ⟨source, a, -, -, hr⟩ | hr
  · obtain ⟨hpc, rfl⟩ := Prod.mk.inj (hc.symm.trans hr)
    refine ⟨pairwise_gatesWith hg hlt fun c hmem => ?_, ?_, hcell.2⟩
    · rw [hpc] at hmem
      cases hmem
      rfl
    · rw [hpc]
      exact gates_lt_of_condition hlt
  · obtain ⟨hpc, rfl⟩ := Prod.mk.inj (hc.symm.trans hr)
    refine ⟨pairwise_gatesWith hg hlt fun c hmem => ?_, ?_, hcell.2⟩
    · rw [hpc] at hmem
      cases hmem
    · rw [hpc, gatesWith, Option.map_none, Option.toList_none, List.append_nil]
      exact hlt

mutual

theorem gates_plan (o : DirectiveOptions) {gates : List CellId} (parent : Option NodeId)
    (anchor : Option Anchor) (b : Branch NodeId) {s s' : Supply} {m : Option Mirror}
    (hg : gates.Pairwise (· < ·)) (hlt : ∀ g ∈ gates, g < s.cell)
    (h : (plan o gates parent anchor b).run s = (m, s')) :
    ∀ i ∈ interpolationsOf m.toList, i.gates.Pairwise (· < ·) := by
  cases b with
  | element element tag written children =>
    obtain ⟨m, rfl⟩ : ∃ m', m = some m' := by
      cases h
      exact ⟨_, rfl⟩
    obtain ⟨p, s₁, ms, hp, hms, rfl⟩ := run_plan_element o gates parent anchor element tag written
      children h
    obtain ⟨hpairwise, hlt', hown⟩ := gates_planPart hg hlt hp
    have hinner := gates_planForest o element none children hpairwise hlt' hms
    intro i hi
    rw [Option.toList_some, interpolationsOf_singleton, interpolations_mk] at hi
    rcases List.mem_append.1 hi with hi | hi
    · rw [hown i (Option.mem_toList.1 hi)]
      exact hpairwise
    · exact hinner i hi
  | text label data =>
    cases h
    exact fun i hi => absurd hi List.not_mem_nil
  | comment label data =>
    cases h
    exact fun i hi => absurd hi List.not_mem_nil

theorem gates_planForest (o : DirectiveOptions) {gates : List CellId} (parent : NodeId)
    (prev : Option NodeId) (f : Forest NodeId) {s s' : Supply} {ms : List Mirror}
    (hg : gates.Pairwise (· < ·)) (hlt : ∀ g ∈ gates, g < s.cell)
    (h : (planForest o gates parent prev f).run s = (ms, s')) :
    ∀ i ∈ interpolationsOf ms, i.gates.Pairwise (· < ·) := by
  cases f with
  | nil =>
    cases h
    exact fun i hi => absurd hi List.not_mem_nil
  | cons b bs =>
    cases h
    have hle := (laid_plan o gates (some parent) (some ⟨parent, prev, firstElement bs⟩) b s hlt
      rfl).cell_le
    intro i hi
    rw [interpolationsOf_append] at hi
    rcases List.mem_append.1 hi with hi | hi
    · exact gates_plan o (some parent) _ b hg hlt rfl i hi
    · exact gates_planForest o parent _ bs hg (fun g hmem => Nat.lt_of_lt_of_le (hlt g hmem) hle) rfl
        i hi

end

theorem within_sublist_all (h : s ∈ withinAll ms) : s.within.Sublist (withinAll ms) := by
  induction ms using forest_induction with
  | nil => cases h
  | mk p inner rest ihi ihr =>
    rw [withinAll_mk] at h ⊢
    rcases List.mem_cons.1 h with rfl | h
    · rw [within, ← List.cons_append]
      exact List.sublist_append_left ..
    · refine List.Sublist.cons _ ?_
      rcases List.mem_append.1 h with h | h
      · exact (ihi h).trans (List.sublist_append_left ..)
      · exact (ihr h).trans (List.sublist_append_right ..)

theorem within_sublist (h : s ∈ m.within) : s.within.Sublist m.within := by
  rw [← withinAll_singleton m] at h ⊢
  exact within_sublist_all h

theorem parts_sublist (h : s ∈ m.within) : s.parts.Sublist m.parts := by
  rw [parts_eq_map, parts_eq_map]
  exact (within_sublist h).map part

theorem mem_conditional_iff {c : Conditional} :
    .conditional c ∈ m.directives ↔ ∃ s ∈ m.within, s.own.conditional = some c := by
  rw [directives_eq_flatMap, List.mem_flatMap]
  refine exists_congr fun s => and_congr_right fun _ => ?_
  simp [ownDirectives_eq, Own.directives]

theorem mem_interpolation_iff {i : Interpolation} :
    .interpolation i ∈ m.directives ↔ ∃ p ∈ m.parts, p.interpolation = some i := by
  rw [← directivesOfAll_singleton, mem_interpolationsOf, interpolationsOf_singleton, interpolations,
    List.mem_filterMap]

theorem Reflects.part_eq (hd : d.Consistent) (h : m.Reflects o d)
    (hroot : d.Under Document.root m.part.element) {p q : Part} (hp : p ∈ m.parts) (hq : q ∈ m.parts)
    (heq : p.element = q.element) : p = q :=
  List.inj_on_of_nodup_map (h.nodup hd hroot) hp hq heq

theorem mem_interpolations_iff (hd : d.Consistent) (h : m.Reflects o d)
    (hroot : d.Under Document.root m.part.element) {d' : Document} (hd' : d'.Consistent)
    (hmerges : ∀ p ∈ m.parts, ∀ i ∈ p.interpolation, d.Merges d' p.element i.node) {p : Part}
    (hp : p ∈ m.parts) {i : Interpolation} (hi : p.interpolation = some i) (hs : s ∈ m.within) :
    i ∈ s.interpolations ↔ d.ElementUnder s.part.element p.element := by
  have hparts {q : Part} (hq : q ∈ s.parts) : q ∈ m.parts := (parts_sublist hs).subset hq
  rw [← (h.within s hs).exists_part_iff]
  constructor
  · intro hmem
    obtain ⟨q, hq, hqi⟩ := List.mem_filterMap.1 hmem
    exact ⟨q, hq, hd'.eq_of_mem (hmerges q (hparts hq) i hqi).mem_children
      (hmerges p hp i hi).mem_children⟩
  · rintro ⟨q, hq, heq⟩
    obtain rfl := h.part_eq hd hroot (hparts hq) hp heq
    exact List.mem_filterMap.2 ⟨q, hq, hi⟩

end Mirror

namespace Component

open Document

variable {σ : Type} {w : World σ} {o : MountOptions σ} {target : NodeId}

structure Dual (o : DirectiveOptions) (w : World σ) (target : NodeId) (root : Mirror) : Prop where
  gated : ∀ i c, .interpolation i ∈ root.directives → .conditional c ∈ root.directives →
    (i ∈ c.inside ↔ c.cell ∈ i.gates)
  stands : ∀ i, .interpolation i ∈ root.directives → ∃ n, w.document.ElementUnder target n ∧
    w.document.Merges (prepare o root w).document n i.node ∧
      ∀ c, .conditional c ∈ root.directives → (i ∈ c.inside ↔ w.document.ElementUnder c.element n)
  cells : ∀ c c', .conditional c ∈ root.directives → .conditional c' ∈ root.directives →
    c.cell = c'.cell → c = c'
  gates : ∀ i, .interpolation i ∈ root.directives → i.gates.Nodup ∧
    ∀ g ∈ i.gates, ∃ c, .conditional c ∈ root.directives ∧ c.cell = g
  inside : ∀ c, .conditional c ∈ root.directives → c.inside.Nodup ∧
    ∀ i ∈ c.inside, .interpolation i ∈ root.directives
  order : ∀ c, .conditional c ∈ root.directives → ∃ walk owns,
    w.document.ElementWalk [c.element] walk ∧
      List.Forall₂ (Own.Of o w.document (prepare o root w).document) walk owns ∧
      c.inside = owns.filterMap Own.interpolation

theorem dual_of_ofElement (hd : w.document.Consistent)
    (hquery : w.document.query o.selector = some target) {root : Mirror}
    (hm : Mirror.ofElement o.directives w.document w.presences.size target = some root) :
    Dual o.directives w target root := by
  obtain ⟨hroot, parent, hparent⟩ := parent_of_query hd hquery
  have hlt := Consistent.lt_of_parent hparent
  have hn := isElement_of_query hd hquery
  obtain ⟨root', hm', rfl, hreflects⟩ := Mirror.exists_ofElement (o := o.directives)
    (hd.deep_children hroot hlt) hn w.presences.size
  obtain rfl := Option.some.inj (hm.symm.trans hm')
  obtain ⟨s', hlaid⟩ := Mirror.laid_ofElement hm
  have hsep := Mirror.separate_of_laid hlaid
  have hown {s : Mirror} (hs : s ∈ root.within) :=
    Mirror.own_of_within hd hroot hparent hn hm hs
  have hmerges (p : Part) (hp : p ∈ root.parts) (i : Interpolation) (hi : i ∈ p.interpolation) :
      w.document.Merges (prepare o.directives root w).document p.element i.node := by
    rw [Mirror.parts_eq_map] at hp
    obtain ⟨s, hs, rfl⟩ := List.mem_map.1 hp
    exact (hown hs).interpolation i hi
  have hd' := (mirrors_of_reflects hd hroot hlt rfl hreflects).rewrites.consistent
  have hconditional {c : Conditional} (hc : .conditional c ∈ root.directives) :
      ∃ s ∈ root.within, c.element = s.part.element ∧ c.inside = s.interpolations := by
    obtain ⟨s, hs, hsc⟩ := Mirror.mem_conditional_iff.1 hc
    obtain ⟨cond, -, rfl⟩ := Option.map_eq_some_iff.1 hsc
    exact ⟨s, hs, rfl, rfl⟩
  refine ⟨fun i c hi hc => (hsep.gated hi hc).symm, fun i hi => ?_,
    fun c c' hc hc' heq => hsep.cell_inj hc hc' heq, fun i hi => ⟨?_, fun g hg => ?_⟩,
    fun c hc => ⟨?_, fun i => hsep.inside hc i⟩, fun c hc => ?_⟩
  · obtain ⟨p, hp, hpi⟩ := Mirror.mem_interpolation_iff.1 hi
    refine ⟨p.element, hreflects.elementUnder p hp, hmerges p hp i hpi, fun c hc => ?_⟩
    obtain ⟨s, hs, helement, hinside⟩ := hconditional hc
    rw [helement, hinside]
    exact Mirror.mem_interpolations_iff hd hreflects hroot hd' hmerges hp hpi hs
  · obtain ⟨s', hrun⟩ := Mirror.run_of_ofElement hm
    rw [← Mirror.directivesOfAll_singleton, Mirror.mem_interpolationsOf] at hi
    exact (Mirror.gates_plan _ _ _ _ .nil nofun hrun i hi).imp Nat.ne_of_lt
  · exact Mirror.exists_of_mem_gates hlaid hi hg
  · obtain ⟨s, hs, -, hinside⟩ := hconditional hc
    have hnodes := hlaid.nodes
    rw [Mirror.interpolationsOf_singleton] at hnodes
    have hnodup : (root.interpolations.map Interpolation.node).Nodup := hnodes ▸ List.nodup_range'
    rw [hinside]
    exact hnodup.of_map.sublist ((Mirror.parts_sublist hs).filterMap _)
  · obtain ⟨s, hs, helement, hinside⟩ := hconditional hc
    refine ⟨s.parts.map Part.element, s.within.map Mirror.own, ?_, ?_, ?_⟩
    · rw [helement]
      exact (hreflects.within s hs).elementWalk
    · rw [Mirror.parts_eq_map, List.map_map, List.forall₂_map_left_iff, List.forall₂_map_right_iff,
        List.forall₂_same]
      exact fun s' hs' => hown ((Mirror.within_sublist hs).subset hs')
    · rw [hinside, Mirror.interpolations, Mirror.parts_eq_map, List.filterMap_map, List.filterMap_map]
      rfl

/-- An interpolation is listed by a conditional exactly when the cell of this is a gate of it, and exactly when it
stands in its element. -/
theorem mount_dual (hd : w.document.Consistent)
    (hquery : w.document.query o.selector = some target) :
    ∃ root, Dual o.directives w target root ∧
      (∀ emit r w', Act.Ends (mount emit o) w r w' ↔
        Act.Ends (start emit o.methods o.tracked root >>= fun c => pure (some c))
          (prepare o.directives root w) r w') ∧
      ∀ emit c w', Act.Ends (mount emit o) w (.ok (some c)) w' → c.directives = root.directives := by
  obtain ⟨root, hm, hmount⟩ := exists_root hd hquery
  refine ⟨root, dual_of_ofElement hd hquery hm, fun emit => (hmount emit).1,
    fun emit c w' hc => ?_⟩
  obtain ⟨ids, -, rfl⟩ := (hmount emit).2 c w' hc
  rfl

theorem mount_dual_nested :
    nested.document.query "div" = some 1 ∧
    ∃ root c w, Act.Ends (mount (Run.broadcast 1) nestedOptions) nested (.ok (some c)) w ∧
      Dual .default nested 1 root ∧ c.directives = root.directives ∧
      (c.directives.map fun
        | .conditional c => (c.cell, c.inside.map Interpolation.node)
        | .interpolation i => (i.node, i.gates)) =
          [(0, [6, 7]), (6, [0]), (1, [7]), (7, [0, 1])] := by
  have hquery : nested.document.query "div" = some 1 := by decide +kernel
  have hrun : (Act.found? (mount (Run.broadcast 1) nestedOptions) nested).map
      (fun r => r.1.directives.map fun
        | .conditional c => (c.cell, c.inside.map Interpolation.node)
        | .interpolation i => (i.node, i.gates)) =
      some [(0, [6, 7]), (6, [0]), (1, [7]), (7, [0, 1])] := by
    decide +kernel
  obtain ⟨⟨c, w⟩, hfound, hlists⟩ := Option.map_eq_some_iff.1 hrun
  have h := Act.ends_of_found? hfound
  have hd : nested.document.Consistent := Document.consistent_ofForest _
  obtain ⟨root, hdual, -, hroot⟩ := mount_dual (o := nestedOptions) hd hquery
  exact ⟨hquery, root, c, w, h, hdual, hroot _ c w h, hlists⟩

end Component

end LiveMarkup
