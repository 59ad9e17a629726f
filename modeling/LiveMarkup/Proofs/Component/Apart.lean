import LiveMarkup.Component.Mount
import LiveMarkup.Proofs.Component.InStep
import LiveMarkup.Proofs.Component.Plan
import Mathlib.Data.List.Nodup

/-!
The directives of a planned mirror are kept apart, and preparing the document makes room for them.
-/

namespace LiveMarkup

open LiveMarkup.Markup LiveMarkup.Expression

namespace Mirror

theorem forest_induction {P : List Mirror → Prop} (nil : P [])
    (mk : ∀ p inner rest, P inner → P rest → P (.mk p inner :: rest)) : ∀ ms, P ms
  | [] => nil
  | .mk p inner :: rest =>
    mk p inner rest (forest_induction nil mk inner) (forest_induction nil mk rest)

theorem partsOfAll_mk (p : Part) (inner rest : List Mirror) :
    partsOfAll (.mk p inner :: rest) = p :: (partsOfAll inner ++ partsOfAll rest) := rfl

theorem directivesOfAll_mk (p : Part) (inner rest : List Mirror) :
    directivesOfAll (.mk p inner :: rest) =
      ownDirectives (.mk p inner) ++ directivesOfAll inner ++ directivesOfAll rest := rfl

theorem mem_ownDirectives {p : Part} {inner : List Mirror} {i : Interpolation} :
    .interpolation i ∈ ownDirectives (.mk p inner) ↔ p.interpolation = some i := by
  simp only [ownDirectives, part, List.mem_append, Option.mem_toList, Option.map_eq_some_iff,
    reduceCtorEq, and_false, exists_false, false_or, Directive.interpolation.injEq,
    exists_eq_right]

theorem mem_interpolationsOf {i : Interpolation} (ms : List Mirror) :
    .interpolation i ∈ directivesOfAll ms ↔ i ∈ interpolationsOf ms := by
  induction ms using forest_induction with
  | nil => exact ⟨nofun, nofun⟩
  | mk p inner rest ihi ihr =>
    have hp : i ∈ p.interpolation.toList ↔ p.interpolation = some i := Option.mem_toList
    rw [directivesOfAll_mk, List.mem_append, List.mem_append, mem_ownDirectives, ihi, ihr, ← hp,
      ← List.singleton_append, interpolationsOf_append, interpolationsOf_singleton,
      interpolations_mk, List.mem_append, List.mem_append]

theorem mem_conditionalsOf {c : Conditional} (ms : List Mirror) :
    .conditional c ∈ directivesOfAll ms ↔ c ∈ conditionalsOf ms := by
  rw [conditionalsOf, List.mem_filterMap]
  constructor
  · intro h
    exact ⟨_, h, rfl⟩
  · rintro ⟨d, hd, hc⟩
    cases d with
    | interpolation i => cases hc
    | conditional c' =>
      cases hc
      exact hd

theorem directivesOfAll_singleton (m : Mirror) : directivesOfAll [m] = m.directives := by
  simp only [directivesOfAll, List.append_nil]

theorem map_cell_conditionalsOf (ms : List Mirror) :
    (conditionalsOf ms).map Conditional.cell =
      (partsOfAll ms).filterMap fun p => p.condition.map Condition.cell := by
  induction ms using forest_induction with
  | nil => rfl
  | mk p inner rest ihi ihr =>
    rw [← List.singleton_append, conditionalsOf_append, conditionalsOf_mk, partsOfAll_append,
      partsOfAll_mk, List.map_append, List.map_append, List.filterMap_append, ihi, ihr]
    simp only [partsOfAll, List.append_nil, List.filterMap_cons, conditionalOf]
    cases p.condition <;> rfl

section Laid

variable {m : Mirror} {s s' : Supply}
  (h : Laid [] s s' (interpolationsOf [m]) (conditionalsOf [m]))

include h

theorem separate_of_laid : Separate m.directives := by
  have hi (i) : .interpolation i ∈ m.directives ↔ i ∈ interpolationsOf [m] := by
    rw [← directivesOfAll_singleton, mem_interpolationsOf]
  have hc (c) : .conditional c ∈ m.directives ↔ c ∈ conditionalsOf [m] := by
    rw [← directivesOfAll_singleton, mem_conditionalsOf]
  have hnodes : ((interpolationsOf [m]).map Interpolation.node).Nodup := by
    rw [h.nodes]
    exact List.nodup_range'
  have hcells : ((conditionalsOf [m]).map Conditional.cell).Nodup := by
    rw [h.cells]
    exact List.nodup_range'
  constructor
  · intro i j hmi hmj heq
    exact List.inj_on_of_nodup_map hnodes ((hi i).1 hmi) ((hi j).1 hmj) heq
  · intro c c' hmc hmc' heq
    exact List.inj_on_of_nodup_map hcells ((hc c).1 hmc) ((hc c').1 hmc') heq
  · intro i c hmi hmc
    exact h.gated i ((hi i).1 hmi) c ((hc c).1 hmc)
  · intro c hmc i hmi
    exact (hi i).2 (h.inside c ((hc c).1 hmc) i hmi)
  · intro c hmc
    exact h.compiled c ((hc c).1 hmc)

theorem sized_of_laid {d : Document} {presences : Array Presence}
    (hd : s.node + m.interpolations.length ≤ d.nodes.size)
    (hp : s.cell + m.cells.length ≤ presences.size) : Sized m.directives d presences := by
  constructor
  · intro i hi
    rw [← directivesOfAll_singleton, mem_interpolationsOf] at hi
    have hlt := (h.node_mem hi).2
    rw [h.node_eq, interpolationsOf_singleton] at hlt
    exact Nat.lt_of_lt_of_le hlt hd
  · intro c hc
    rw [← directivesOfAll_singleton, mem_conditionalsOf] at hc
    have hlt := (h.cell_mem hc).2
    have hlen : (conditionalsOf [m]).length = m.cells.length := by
      rw [← List.length_map Conditional.cell, map_cell_conditionalsOf]
      simp only [partsOfAll, List.append_nil, cells]
    rw [h.cell_eq, hlen] at hlt
    exact Nat.lt_of_lt_of_le hlt hp

theorem exists_of_mem_gates {i : Interpolation} (hi : .interpolation i ∈ m.directives) {g : CellId}
    (hg : g ∈ i.gates) : ∃ c, .conditional c ∈ m.directives ∧ c.cell = g := by
  rw [← directivesOfAll_singleton, mem_interpolationsOf] at hi
  have hrange := (h.gates_mem i hi g hg).resolve_left List.not_mem_nil
  rw [h.cell_eq, ← List.mem_range'_1, ← h.cells] at hrange
  obtain ⟨c, hc, hcell⟩ := List.mem_map.1 hrange
  refine ⟨c, ?_, hcell⟩
  rwa [← directivesOfAll_singleton, mem_conditionalsOf]

end Laid

theorem laid_ofElement {o : DirectiveOptions} {d : Document} {firstCell : CellId}
    {element : NodeId} {m : Mirror} (h : Mirror.ofElement o d firstCell element = some m) :
    ∃ s', Laid [] ⟨d.nodes.size, firstCell⟩ s' (interpolationsOf [m]) (conditionalsOf [m]) := by
  obtain ⟨s', hrun⟩ := run_of_ofElement h
  exact ⟨s', laid_plan o [] (d.node element).parent (Anchor.of? d element) (d.branch element)
    ⟨d.nodes.size, firstCell⟩ nofun hrun⟩

end Mirror

theorem rewires_foldl_removeChild (parent : NodeId) (olds : List NodeId) (d : Document) :
    d.Rewires (olds.foldl (fun d old => d.removeChild parent old) d) := by
  induction olds generalizing d with
  | nil => exact .refl d
  | cons old olds ih => exact (Document.rewires_removeChild ..).trans (ih _)

theorem Part.size_replaceTexts (p : Part) (d : Document) :
    (p.replaceTexts d).nodes.size = d.nodes.size + 1 := by
  simp only [replaceTexts]
  rw [(rewires_foldl_removeChild ..).size, ← d.size_createText p.text]
  split
  · exact ((Document.rewires_detach ..).trans (Document.rewires_place ..)).size
  · exact ((Document.rewires_detach ..).trans (Document.rewires_place ..)).size

theorem Part.size_prepare (o : DirectiveOptions) (p : Part) (d : Document) :
    (p.prepare o d).nodes.size = d.nodes.size + p.interpolation.toList.length := by
  unfold prepare
  cases p.interpolation with
  | none => exact Document.size_removeAttribute ..
  | some i => exact (p.size_replaceTexts _).trans (congrArg (· + 1) (Document.size_removeAttribute ..))

theorem Mirror.size_prepare (o : DirectiveOptions) (m : Mirror) (d : Document) :
    (m.prepare o d).nodes.size = d.nodes.size + m.interpolations.length := by
  unfold prepare interpolations
  induction m.parts generalizing d with
  | nil => rfl
  | cons p ps ih =>
    rw [List.foldl_cons, ih, p.size_prepare, List.filterMap_cons]
    cases p.interpolation with
    | none => rfl
    | some i => exact Nat.add_right_comm _ 1 _

theorem Component.sized_prepare {σ : Type} {o : DirectiveOptions} {m : Mirror} {w : World σ}
    {element : NodeId} (h : Mirror.ofElement o w.document w.presences.size element = some m) :
    Sized m.directives (prepare o m w).document (prepare o m w).presences := by
  obtain ⟨s', hl⟩ := Mirror.laid_ofElement h
  refine Mirror.sized_of_laid hl (Nat.le_of_eq (m.size_prepare o w.document).symm) ?_
  simp only [prepare, Array.size_append, List.size_toArray, List.length_map, Nat.le_refl]

end LiveMarkup
