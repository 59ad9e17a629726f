import LiveMarkup.Component.Mirror

/-!
What planning gives: new nodes and cells are numbered in document order, each directive gets its own,
and the gates of an interpolation are the cells of the conditionals that hold it.
-/

namespace LiveMarkup

open LiveMarkup.Markup LiveMarkup.Expression

namespace Mirror

def interpolationsOf (ms : List Mirror) : List Interpolation :=
  (partsOfAll ms).filterMap Part.interpolation

def Directive.conditional? : Directive → Option Conditional
  | .conditional c => some c
  | .interpolation _ => none

def conditionalsOf (ms : List Mirror) : List Conditional :=
  (directivesOfAll ms).filterMap Directive.conditional?

theorem partsOfAll_append (ms ns : List Mirror) :
    partsOfAll (ms ++ ns) = partsOfAll ms ++ partsOfAll ns := by
  induction ms with
  | nil => rfl
  | cons m ms ih => simp only [List.cons_append, partsOfAll, ih, List.append_assoc]

theorem directivesOfAll_append (ms ns : List Mirror) :
    directivesOfAll (ms ++ ns) = directivesOfAll ms ++ directivesOfAll ns := by
  induction ms with
  | nil => rfl
  | cons m ms ih => simp only [List.cons_append, directivesOfAll, ih, List.append_assoc]

theorem interpolationsOf_append (ms ns : List Mirror) :
    interpolationsOf (ms ++ ns) = interpolationsOf ms ++ interpolationsOf ns := by
  rw [interpolationsOf, partsOfAll_append, List.filterMap_append]
  rfl

theorem conditionalsOf_append (ms ns : List Mirror) :
    conditionalsOf (ms ++ ns) = conditionalsOf ms ++ conditionalsOf ns := by
  rw [conditionalsOf, directivesOfAll_append, List.filterMap_append]
  rfl

theorem interpolationsOf_singleton (m : Mirror) : interpolationsOf [m] = m.interpolations := by
  simp only [interpolationsOf, partsOfAll, List.append_nil]
  rfl

theorem interpolations_mk (p : Part) (ms : List Mirror) :
    interpolations (.mk p ms) = p.interpolation.toList ++ interpolationsOf ms := by
  simp only [interpolations, parts, List.filterMap_cons, interpolationsOf]
  cases p.interpolation <;> rfl

def conditionalOf (p : Part) (inside : List Interpolation) : Option Conditional :=
  p.condition.map fun c => ⟨c.predicate, p.element, c.anchor, c.cell, inside⟩

theorem conditionalsOf_mk (p : Part) (ms : List Mirror) :
    conditionalsOf [.mk p ms] =
      (conditionalOf p (interpolations (.mk p ms))).toList ++ conditionalsOf ms := by
  have h : (ownDirectives (.mk p ms)).filterMap Directive.conditional? =
      (conditionalOf p (interpolations (.mk p ms))).toList := by
    simp only [ownDirectives, part, conditionalOf, List.filterMap_append]
    cases p.condition <;> cases p.interpolation <;> rfl
  simp only [conditionalsOf, directivesOfAll, directives, List.append_nil, List.filterMap_append, h]

structure Laid (gates : List CellId) (s s' : Supply) (is : List Interpolation)
    (cs : List Conditional) : Prop where
  nodes : is.map Interpolation.node = List.range' s.node is.length
  node_eq : s'.node = s.node + is.length
  cells : cs.map Conditional.cell = List.range' s.cell cs.length
  cell_eq : s'.cell = s.cell + cs.length
  gates_sub : ∀ i ∈ is, ∀ g ∈ gates, g ∈ i.gates
  gates_mem : ∀ i ∈ is, ∀ g ∈ i.gates, g ∈ gates ∨ s.cell ≤ g ∧ g < s'.cell
  gated : ∀ i ∈ is, ∀ c ∈ cs, c.cell ∈ i.gates ↔ i ∈ c.inside
  inside : ∀ c ∈ cs, ∀ i ∈ c.inside, i ∈ is
  compiled : ∀ c ∈ cs, ∃ ns, c.predicate = compile ns

theorem within_mono {a b c d x : Nat} (hca : c ≤ a) (hbd : b ≤ d) (h : a ≤ x ∧ x < b) :
    c ≤ x ∧ x < d := ⟨Nat.le_trans hca h.1, Nat.lt_of_lt_of_le h.2 hbd⟩

namespace Laid

variable {gates : List CellId} {s s₁ s' : Supply} {is is' : List Interpolation}
  {cs cs' : List Conditional}

theorem cell_mem (h : Laid gates s s' is cs) {c : Conditional} (hc : c ∈ cs) :
    s.cell ≤ c.cell ∧ c.cell < s'.cell := by
  have hm := List.mem_map_of_mem (f := Conditional.cell) hc
  rw [h.cells, List.mem_range'_1] at hm
  exact ⟨hm.1, h.cell_eq ▸ hm.2⟩

theorem node_mem (h : Laid gates s s' is cs) {i : Interpolation} (hi : i ∈ is) :
    s.node ≤ i.node ∧ i.node < s'.node := by
  have hm := List.mem_map_of_mem (f := Interpolation.node) hi
  rw [h.nodes, List.mem_range'_1] at hm
  exact ⟨hm.1, h.node_eq ▸ hm.2⟩

theorem cell_le (h : Laid gates s s' is cs) : s.cell ≤ s'.cell :=
  h.cell_eq ▸ Nat.le_add_right _ _

theorem nil (gates : List CellId) (s : Supply) : Laid gates s s [] [] :=
  ⟨rfl, rfl, rfl, rfl, nofun, nofun, nofun, nofun, nofun⟩

theorem append (hg : ∀ g ∈ gates, g < s.cell) (h : Laid gates s s₁ is cs)
    (h' : Laid gates s₁ s' is' cs') : Laid gates s s' (is ++ is') (cs ++ cs') where
  nodes := by
    rw [List.map_append, h.nodes, h'.nodes, h.node_eq, List.length_append, List.range'_append_1]
  node_eq := by rw [h'.node_eq, h.node_eq, List.length_append, Nat.add_assoc]
  cells := by
    rw [List.map_append, h.cells, h'.cells, h.cell_eq, List.length_append, List.range'_append_1]
  cell_eq := by rw [h'.cell_eq, h.cell_eq, List.length_append, Nat.add_assoc]
  gates_sub i hi := by
    rcases List.mem_append.1 hi with hi | hi
    · exact h.gates_sub i hi
    · exact h'.gates_sub i hi
  gates_mem i hi g hgi := by
    rcases List.mem_append.1 hi with hi | hi
    · exact (h.gates_mem i hi g hgi).imp_right (within_mono (Nat.le_refl _) h'.cell_le)
    · exact (h'.gates_mem i hi g hgi).imp_right (within_mono h.cell_le (Nat.le_refl _))
  gated i hi c hc := by
    rcases List.mem_append.1 hi with hi | hi <;> rcases List.mem_append.1 hc with hc | hc
    · exact h.gated i hi c hc
    · have hcell := h'.cell_mem hc
      refine iff_of_false (fun hm => ?_) fun hm => ?_
      · rcases h.gates_mem i hi _ hm with hm | hm
        · exact Nat.not_lt.2 (Nat.le_trans h.cell_le hcell.1) (hg _ hm)
        · exact Nat.not_lt.2 hcell.1 hm.2
      · exact Nat.not_lt.2 (h'.node_mem (h'.inside c hc i hm)).1 (h.node_mem hi).2
    · have hcell := h.cell_mem hc
      refine iff_of_false (fun hm => ?_) fun hm => ?_
      · rcases h'.gates_mem i hi _ hm with hm | hm
        · exact Nat.not_lt.2 hcell.1 (hg _ hm)
        · exact Nat.not_lt.2 hm.1 hcell.2
      · exact Nat.not_lt.2 (h'.node_mem hi).1 (h.node_mem (h.inside c hc i hm)).2
    · exact h'.gated i hi c hc
  inside c hc i hi := by
    rcases List.mem_append.1 hc with hc | hc
    · exact List.mem_append_left _ (h.inside c hc i hi)
    · exact List.mem_append_right _ (h'.inside c hc i hi)
  compiled c hc := by
    rcases List.mem_append.1 hc with hc | hc
    · exact h.compiled c hc
    · exact h'.compiled c hc

theorem text (s : Supply) {i : Interpolation} (hn : i.node = s.node) (hi : i.gates = gates) :
    Laid gates s { s with node := s.node + 1 } [i] [] where
  nodes := by simp [hn]
  node_eq := rfl
  cells := rfl
  cell_eq := rfl
  gates_sub j hj := by
    rw [List.mem_singleton.1 hj, hi]
    exact fun _ => id
  gates_mem j hj := by
    rw [List.mem_singleton.1 hj, hi]
    exact fun _ => .inl
  gated := nofun
  inside := nofun
  compiled := nofun

theorem conditional (s : Supply) {c : Conditional} (hc : c.cell = s.cell) (hi : c.inside = is)
    (hp : ∃ ns, c.predicate = compile ns)
    (h : Laid (gates ++ [s.cell]) { s with cell := s.cell + 1 } s' is cs) :
    Laid gates s s' is (c :: cs) where
  nodes := h.nodes
  node_eq := h.node_eq
  cells := by rw [List.map_cons, h.cells, hc, List.length_cons, List.range'_succ]
  cell_eq := by rw [h.cell_eq, List.length_cons, Nat.add_assoc, Nat.add_comm 1]
  gates_sub i hi g hg := h.gates_sub i hi g (List.mem_append_left _ hg)
  gates_mem i hi g hg := by
    have hlt : s.cell < s'.cell := h.cell_le
    rcases h.gates_mem i hi g hg with hm | hm
    · rcases List.mem_append.1 hm with hm | hm
      · exact .inl hm
      · cases List.mem_singleton.1 hm
        exact .inr ⟨Nat.le_refl _, hlt⟩
    · exact .inr (within_mono (Nat.le_succ _) (Nat.le_refl _) hm)
  gated i hi' d hd := by
    rcases List.mem_cons.1 hd with rfl | hd
    · refine iff_of_true ?_ (hi ▸ hi')
      rw [hc]
      exact h.gates_sub i hi' _ (List.mem_append_right _ (List.mem_singleton_self _))
    · exact h.gated i hi' d hd
  inside d hd i hi' := by
    rcases List.mem_cons.1 hd with rfl | hd
    · exact hi ▸ hi'
    · exact h.inside d hd i hi'
  compiled d hd := by
    rcases List.mem_cons.1 hd with rfl | hd
    · exact hp
    · exact h.compiled d hd

end Laid

theorem run_condition (showIf : Option String) (anchor : Option Anchor) (s : Supply) :
    (∃ source a, showIf = some source ∧ anchor = some a ∧
      (condition showIf anchor).run s =
        (some ⟨compileSource source, a, s.cell⟩, { s with cell := s.cell + 1 })) ∨
    (condition showIf anchor).run s = (none, s) := by
  cases showIf with
  | none => exact .inr rfl
  | some source =>
    cases anchor with
    | none => exact .inr rfl
    | some a => exact .inl ⟨source, a, rfl, rfl, rfl⟩

theorem run_interpolation (o : DirectiveOptions) (gates : List CellId) (text : String)
    (s : Supply) :
    (∃ t, Template.ofText? o.opening o.closing text = some t ∧
      (interpolation o gates text).run s = (some ⟨t, s.node, gates⟩, { s with node := s.node + 1 })) ∨
    (interpolation o gates text).run s = (none, s) := by
  unfold interpolation
  cases Template.ofText? o.opening o.closing text with
  | none => exact .inr rfl
  | some t => exact .inl ⟨t, rfl, rfl⟩

theorem gates_lt_of_condition {gates : List CellId} {s : Supply} (h : ∀ g ∈ gates, g < s.cell) :
    ∀ g ∈ gates ++ [s.cell], g < s.cell + 1 := by
  intro g hg
  rcases List.mem_append.1 hg with hg | hg
  · exact Nat.lt_succ_of_lt (h g hg)
  · exact List.mem_singleton.1 hg ▸ Nat.lt_succ_self _

section Part

variable (o : DirectiveOptions) (gates : List CellId) (parent : Option NodeId)
  (anchor : Option Anchor) (element : NodeId) (tag : String) (written : Attributes)
  (children : Forest NodeId)

theorem run_planPart (s : Supply) {p : Part} {s' : Supply}
    (h : (planPart o gates parent anchor element tag written children).run s = (p, s')) :
    ∃ s₁, (condition ((written.remove o.onClick).find? o.showIf) anchor).run s = (p.condition, s₁) ∧
      (interpolation o (gatesWith gates p.condition)
        (String.join (children.map textOf))).run s₁ = (p.interpolation, s') := by
  cases h
  exact ⟨_, rfl, rfl⟩

theorem run_plan_element {s s' : Supply} {m : Mirror}
    (h : (plan o gates parent anchor (.element element tag written children)).run s =
      (some m, s')) :
    ∃ p s₁ ms, (planPart o gates parent anchor element tag written children).run s = (p, s₁) ∧
      (planForest o (gatesWith gates p.condition) element none children).run s₁ = (ms, s') ∧
      m = .mk p ms := by
  cases h
  exact ⟨_, _, _, rfl, rfl, rfl⟩

theorem laid_planPart (s : Supply) (hg : ∀ g ∈ gates, g < s.cell) {p : Part} {s₁ s' : Supply}
    {ms : List Mirror}
    (hp : (planPart o gates parent anchor element tag written children).run s = (p, s₁))
    (hms : (∀ g ∈ gatesWith gates p.condition, g < s₁.cell) →
      Laid (gatesWith gates p.condition) s₁ s' (interpolationsOf ms) (conditionalsOf ms)) :
    Laid gates s s' (interpolationsOf [.mk p ms]) (conditionalsOf [.mk p ms]) := by
  obtain ⟨s₂, hc, hi⟩ := run_planPart o gates parent anchor element tag written children s hp
  rw [interpolationsOf_singleton, conditionalsOf_mk]
  have htext (hg₂ : ∀ g ∈ gatesWith gates p.condition, g < s₂.cell) :
      Laid (gatesWith gates p.condition) s₂ s' (interpolations (.mk p ms)) (conditionalsOf ms) := by
    rw [interpolations_mk]
    rcases run_interpolation o (gatesWith gates p.condition) (String.join (children.map textOf)) s₂
      with ⟨t, -, ht⟩ | ht
    · obtain ⟨hpi, rfl⟩ := Prod.mk.inj (hi.symm.trans ht)
      rw [hpi]
      have ht : Laid (gatesWith gates p.condition) s₂ _ [⟨t, s₂.node, gatesWith gates p.condition⟩]
          [] := .text s₂ rfl rfl
      exact ht.append hg₂ (hms hg₂)
    · obtain ⟨hpi, rfl⟩ := Prod.mk.inj (hi.symm.trans ht)
      rw [hpi]
      exact hms hg₂
  rcases run_condition ((written.remove o.onClick).find? o.showIf) anchor s with
    ⟨source, a, -, -, hr⟩ | hr
  · obtain ⟨hpc, rfl⟩ := Prod.mk.inj (hc.symm.trans hr)
    rw [hpc] at htext
    simp only [conditionalOf, hpc]
    exact Laid.conditional s rfl rfl ⟨_, rfl⟩ (htext (gates_lt_of_condition hg))
  · obtain ⟨hpc, rfl⟩ := Prod.mk.inj (hc.symm.trans hr)
    rw [hpc] at htext
    simp only [conditionalOf, hpc]
    simpa [gatesWith] using htext (by simpa [gatesWith] using hg)

end Part

mutual

theorem laid_plan (o : DirectiveOptions) (gates : List CellId) (parent : Option NodeId)
    (anchor : Option Anchor) (b : Branch NodeId) (s : Supply) (hg : ∀ g ∈ gates, g < s.cell)
    {m : Option Mirror} {s' : Supply} (h : (plan o gates parent anchor b).run s = (m, s')) :
    Laid gates s s' (interpolationsOf m.toList) (conditionalsOf m.toList) := by
  cases b with
  | element element tag written children =>
    cases h
    exact laid_planPart o gates parent anchor element tag written children s hg rfl fun hg₁ =>
      laid_planForest o _ element none children _ hg₁ rfl
  | text label data =>
    cases h
    exact .nil gates s
  | comment label data =>
    cases h
    exact .nil gates s

theorem laid_planForest (o : DirectiveOptions) (gates : List CellId) (parent : NodeId)
    (prev : Option NodeId) (f : Forest NodeId) (s : Supply) (hg : ∀ g ∈ gates, g < s.cell)
    {ms : List Mirror} {s' : Supply} (h : (planForest o gates parent prev f).run s = (ms, s')) :
    Laid gates s s' (interpolationsOf ms) (conditionalsOf ms) := by
  cases f with
  | nil =>
    cases h
    exact .nil gates s
  | cons b bs =>
    cases h
    have hb := laid_plan o gates (some parent) (some ⟨parent, prev, firstElement bs⟩) b s hg rfl
    rw [interpolationsOf_append, conditionalsOf_append]
    exact hb.append hg (laid_planForest o gates parent _ bs _
      (fun g h => Nat.lt_of_lt_of_le (hg g h) hb.cell_le) rfl)

end

theorem run_of_ofElement {o : DirectiveOptions} {d : Document} {firstCell : CellId}
    {element : NodeId} {m : Mirror} (h : ofElement o d firstCell element = some m) :
    ∃ s', (plan o [] (d.node element).parent (Anchor.of? d element) (d.branch element)).run
      ⟨d.nodes.size, firstCell⟩ = (some m, s') := ⟨_, Prod.ext h rfl⟩

end Mirror

end LiveMarkup
