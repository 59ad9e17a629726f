import LiveMarkup.Proofs.Component.Hosted
import LiveMarkup.Proofs.Component.Mirrored
import LiveMarkup.Proofs.Component.Neighbours

/-!
A component that comes to a page where it is alone, and to the same page where others are mounted already.
On both it starts alike, if the others have left its tree as it was.
-/

namespace LiveMarkup.Component

open LiveMarkup.Expression Relation

variable {σ : Type} {o : MountOptions σ} {m : Mirror} {target : NodeId} {w₀ w w' : World σ}
  {k : Shift} {t : Territory}

theorem length_conditionalsOf (m : Mirror) :
    (Mirror.conditionalsOf [m]).length = m.cells.length := by
  rw [← List.length_map Conditional.cell, Mirror.map_cell_conditionalsOf]
  simp only [Mirror.partsOfAll, List.append_nil, Mirror.cells]

structure Plans (o : MountOptions σ) (w₀ : World σ) (target : NodeId) (m : Mirror) : Prop where
  consistent : w₀.document.Consistent
  query : w₀.document.query o.selector = some target
  mirrored : Mirror.ofElement o.directives w₀.document w₀.presences.size target = some m
  plain : w₀.document.showIf? o.directives target = none
  functional : ∀ d ∈ m.directives, d.Calls o.methods.FunctionalAt

def supply (w : World σ) : Supply := ⟨w.document.nodes.size, w.presences.size⟩

def territory (w₀ : World σ) (target : NodeId) (m : Mirror) : Territory where
  nodes := {n | w₀.document.Under target n ∨ (w₀.document.nodes.size ≤ n ∧
    n < w₀.document.nodes.size + m.interpolations.length)}
  cells := {g | w₀.presences.size ≤ g ∧ g < w₀.presences.size + m.cells.length}

namespace Plans

theorem rooted (h : Plans o w₀ target m) : w₀.document.Under Document.root target :=
  (parent_of_query h.consistent h.query).1

theorem lt (h : Plans o w₀ target m) : target < w₀.document.nodes.size := by
  obtain ⟨-, parent, hparent⟩ := parent_of_query h.consistent h.query
  exact Document.Consistent.lt_of_parent hparent

theorem deep (h : Plans o w₀ target m) :
    Document.Deep w₀.document.IsChild w₀.document.nodes.size target :=
  h.consistent.deep_children h.rooted h.lt

theorem follows (h : Plans o w₀ target m) :
    m.Follows o.directives w₀.document ∧ m.part.element = target :=
  Mirror.follows_of_deep h.deep h.mirrored

theorem under_lt (h : Plans o w₀ target m) {n : NodeId} (hn : w₀.document.Under target n) :
    n < w₀.document.nodes.size := by
  cases hn with
  | self => exact h.lt
  | child _ hm => exact h.consistent.child_lt hm

theorem separate (h : Plans o w₀ target m) : Separate m.directives := by
  obtain ⟨s', hlaid⟩ := Mirror.laid_ofElement h.mirrored
  exact Mirror.separate_of_laid hlaid

theorem holdsText (h : Plans o w₀ target m) {i : Interpolation}
    (hi : .interpolation i ∈ m.directives) : (territory w₀ target m).HoldsText i := by
  obtain ⟨s', hlaid⟩ := Mirror.laid_ofElement h.mirrored
  rw [← Mirror.directivesOfAll_singleton, Mirror.mem_interpolationsOf] at hi
  refine ⟨.inr ?_, fun g hg => ?_⟩
  · have hnode := hlaid.node_mem hi
    rwa [hlaid.node_eq, Mirror.interpolationsOf_singleton] at hnode
  · have hgate := (hlaid.gates_mem i hi g hg).resolve_left List.not_mem_nil
    rwa [hlaid.cell_eq, length_conditionalsOf] at hgate

theorem holdsElement (h : Plans o w₀ target m) {c : Conditional}
    (hc : .conditional c ∈ m.directives) : (territory w₀ target m).HoldsElement c := by
  obtain ⟨hf, helement⟩ := h.follows
  obtain ⟨hmem, hunder, source, hsource, -⟩ := hf.part_of_conditional hc
  rw [helement] at hunder
  refine ⟨.inl hunder, ?_, ?_, fun i hi => h.holdsText (h.separate.inside hc i hi)⟩
  · cases hunder with
    | self =>
      rw [h.plain] at hsource
      cases hsource
    | child hn hm =>
      cases h.consistent.eq_of_mem hm hmem
      exact .inl hn
  · obtain ⟨s', hlaid⟩ := Mirror.laid_ofElement h.mirrored
    rw [← Mirror.directivesOfAll_singleton, Mirror.mem_conditionalsOf] at hc
    have hcell := hlaid.cell_mem hc
    rwa [hlaid.cell_eq, length_conditionalsOf] at hcell

theorem holds (h : Plans o w₀ target m) :
    ∀ d ∈ m.directives, (territory w₀ target m).Holds d := by
  intro d hd
  cases d with
  | interpolation i => exact h.holdsText hd
  | conditional c => exact h.holdsElement hd

theorem holdsPart (h : Plans o w₀ target m) {p : Part} (hp : p ∈ m.parts) :
    p.element ∈ (territory w₀ target m).nodes ∧
      ∀ t ∈ p.texts, t ∈ (territory w₀ target m).nodes := by
  obtain ⟨hf, helement⟩ := h.follows
  have hunder := helement ▸ hf.under_self hp
  exact ⟨.inl hunder, fun t ht => .inl (.child hunder ((hf.reads p hp).texts t ht).1)⟩

def party (h : Plans o w₀ target m) (k : Shift) (hk : k.first = supply w₀) : Party σ where
  methods := o.methods
  tracked := o.tracked
  directives := m.directives
  base := w₀.document
  top := target
  territory := territory w₀ target m
  shift := k
  functional := h.functional
  separate := h.separate
  unshared := (placed_prepare h.consistent h.query h.mirrored).2
  holds := h.holds
  consistent := h.consistent
  rooted := h.rooted
  bound := h.lt
  node_iff _ hn := or_iff_left fun hnew => Nat.not_lt.2 hnew.1 hn
  first := congrArg Supply.node hk

end Plans

/-- The tree under an element, as it is before it is prepared and as it is then. -/
def own (o : DirectiveOptions) (root : Mirror) (w : World σ) : Set NodeId :=
  {n | w.document.Under root.part.element n ∨
    (prepare o root w).document.Under root.part.element n}

section Activate

variable {x : Party σ} {p p' p₁ w₁ : World σ} {d : Directive} {ds : List Directive} (depth : Nat)

structure Joins (x : Party σ) (ds : List Directive) (p w p' w' : World σ) : Prop where
  lives : x.Lives p' w'
  changes : w.ChangesIn x.image w'
  size : w'.document.nodes.size + p.document.nodes.size =
    w.document.nodes.size + p'.document.nodes.size
  left : p'.store.observers.map Prod.snd = p.store.observers.map Prod.snd ++ ds.map x.observer
  right : w'.store.observers.map Prod.snd =
    w.store.observers.map Prod.snd ++ ds.map fun d => x.observer (d.rename x.shift)

theorem Joins.subscribe (h : x.Advances p w p₁ w₁) (d : Directive) :
    Joins x [d] p w { p₁ with store := p₁.store.subscribe (x.observer d) }
      { w₁ with store := w₁.store.subscribe (x.observer (d.rename x.shift)) } := by
  have hshown : w₁.ChangesIn x.image
      { w₁ with store := w₁.store.subscribe (x.observer (d.rename x.shift)) } :=
    .of_shown rfl rfl rfl
  refine ⟨h.lives.of_shown rfl rfl rfl rfl h.lives.tied.fields, h.changes.trans hshown, ?_, ?_, ?_⟩
  · rw [h.sizeLeft, h.sizeRight]
  · rw [Store.subscribe, List.map_append, h.left]
    rfl
  · rw [Store.subscribe, List.map_append, h.right]
    rfl

theorem Joins.trans {ds' : List Directive} (h : Joins x ds p w p₁ w₁)
    (h' : Joins x ds' p₁ w₁ p' w') : Joins x (ds ++ ds') p w p' w' := by
  refine ⟨h'.lives, h.changes.trans h'.changes, ?_, ?_, ?_⟩
  · have hfirst := h.size
    have hsecond := h'.size
    omega
  · rw [h'.left, h.left, List.append_assoc, List.map_append]
  · rw [h'.right, h.right, List.append_assoc, List.map_append]

theorem joins_activate (hds : ∀ d ∈ ds, d ∈ x.directives) (h : x.Lives p w) :
    ∃ r ids ids' p' w',
      Run.Ends (activate (Run.broadcast depth) x.methods x.tracked ds) p (ids, r) p' ∧
      Run.Ends (activate (Run.broadcast depth) x.methods x.tracked
        (ds.map (Directive.rename x.shift))) w (ids', r) w' ∧
      (r = .ok () → Joins x ds p w p' w') := by
  induction ds generalizing p w with
  | nil =>
    exact ⟨.ok (), [], [], p, w, Run.ends_pure.2 ⟨rfl, rfl⟩, Run.ends_pure.2 ⟨rfl, rfl⟩,
      fun _ => ⟨h, .refl _ _, rfl, (List.append_nil _).symm, (List.append_nil _).symm⟩⟩
  | cons d ds ih =>
    obtain ⟨r, p₁, w₁, hp, hw, h₁⟩ := h.update depth (hds d (List.mem_cons_self ..))
    cases r with
    | error e =>
      exact ⟨.error e, [], [], p₁, w₁,
        Run.ends_bind.2 ⟨_, p₁, hp, Run.ends_pure.2 ⟨rfl, rfl⟩⟩,
        Run.ends_bind.2 ⟨_, w₁, hw, Run.ends_pure.2 ⟨rfl, rfl⟩⟩, nofun⟩
    | ok u =>
      have h₂ := Joins.subscribe h₁ d
      obtain ⟨r, ids, ids', p', w', hrest, hrest', hjoins⟩ :=
        ih (fun d hd => hds d (List.mem_cons_of_mem _ hd)) h₂.lives
      refine ⟨r, p₁.store.issued :: ids, w₁.store.issued :: ids', p', w', ?_, ?_,
        fun hr => h₂.trans (hjoins hr)⟩
      · exact Run.ends_bind.2 ⟨_, p₁, hp, Run.ends_bind.2 ⟨_, _, Run.ends_subscribe.2 ⟨rfl, rfl⟩,
          Run.ends_bind.2 ⟨_, p', hrest, Run.ends_pure.2 ⟨rfl, rfl⟩⟩⟩⟩
      · exact Run.ends_bind.2 ⟨_, w₁, hw, Run.ends_bind.2 ⟨_, _, Run.ends_subscribe.2 ⟨rfl, rfl⟩,
          Run.ends_bind.2 ⟨_, w', hrest', Run.ends_pure.2 ⟨rfl, rfl⟩⟩⟩⟩

theorem ends_start_of_activate {emit : Emit σ} {methods : Methods σ} {tracked : Bool} {root : Mirror}
    {ids : List Nat} {r : Except EvalError Unit}
    (h : Run.Ends (activate emit methods tracked root.directives) w (ids, r) w') :
    ∃ w₁, Act.Ends (start emit methods tracked root) w
      (r.map fun _ => ⟨root, methods, root.directives, ids⟩) w₁ ∧ (r = .ok () → w₁ = w') := by
  cases r with
  | ok u => exact ⟨w', ends_start_ok.2 ⟨ids, h, rfl⟩, fun _ => rfl⟩
  | error e =>
    refine ⟨w'.without ids, Act.ends_ofRun_bind.2 ⟨_, w', h, ?_⟩, nofun⟩
    exact Act.ends_ofRun_bind.2 ⟨(), _, ends_unsubscribeAll.2 rfl, Act.ends_throw.2 ⟨rfl, rfl⟩⟩

end Activate

theorem presence_of_le {g : CellId} (h : w.presences.size ≤ g) : w.presence g = .attached := by
  rw [World.presence, Array.getD_eq_getD_getElem?, Array.getElem?_eq_none h]
  rfl

theorem presence_prepare (o : DirectiveOptions) (m : Mirror) (w : World σ) (g : CellId) :
    (prepare o m w).presence g = w.presence g := by
  simp only [prepare, World.presence, Array.getD_eq_getD_getElem?]
  by_cases hg : g < w.presences.size
  · rw [Array.getElem?_append_left hg]
  · have hg := Nat.le_of_not_lt hg
    rw [Array.getElem?_append_right hg, Array.getElem?_eq_none hg, List.getElem?_toArray,
      List.getElem?_map]
    cases m.cells[g - w.presences.size]? <;> rfl

theorem size_prepare (o : DirectiveOptions) (m : Mirror) (w : World σ) :
    (prepare o m w).presences.size = w.presences.size + m.cells.length := by
  simp only [prepare, Array.size_append, List.size_toArray, List.length_map]

namespace Plans

theorem tied (h : Plans o w₀ target m) (hk : k.first = supply w₀)
    (hsupply : k.supply (supply w₀) = supply w) (hc : w₀.ChangesIn t w)
    (hfree : ∀ n, w₀.document.Under target n → n ∉ t.nodes) :
    w₀.Tied k (territory w₀ target m) w := by
  have hfirst : k.first.node = w₀.document.nodes.size := congrArg Supply.node hk
  have hnode : k.node w₀.document.nodes.size = w.document.nodes.size :=
    congrArg Supply.node hsupply
  have hcell : k.cell w₀.presences.size = w.presences.size := congrArg Supply.cell hsupply
  have hold {n : NodeId} (hn : n < w₀.document.nodes.size) : k.node n = n :=
    Shift.node_old (hfirst ▸ hn)
  have hnew {n : NodeId} (hn : w₀.document.nodes.size ≤ n) :
      k.node n = w.document.nodes.size + (n - w₀.document.nodes.size) := by
    rw [← hnode, Shift.node_after (Nat.le_of_eq hfirst) hn]
  have hfirst' : k.first.cell = w₀.presences.size := congrArg Supply.cell hk
  have hcells {g : CellId} (hg : w₀.presences.size ≤ g) : w.presences.size ≤ k.cell g := by
    rw [Shift.cell_after (Nat.le_of_eq hfirst') hg, hcell]
    exact Nat.le_add_right ..
  refine ⟨⟨⟨fun n hn => ?_, fun n _ hlt => ?_, fun n _ => hnew⟩, fun n hn c hc => ?_⟩,
    fun g hg => ?_, fun g hg => ?_, hc.fields⟩
  · rcases hn with hn | ⟨hle, -⟩
    · have hlt := h.under_lt hn
      rw [hold hlt, hc.document.node n (hfree n hn), Document.Node.rename_of_fixed]
      · exact fun p hp => hold (Document.lt_of_children ((h.consistent.links p n).2 hp))
      · exact fun c hc => hold (h.consistent.child_lt hc)
    · rw [hnew hle, Document.node_of_le (Nat.le_add_right ..), Document.node_of_le hle]
      rfl
  · rw [hold hlt]
    exact Nat.lt_of_lt_of_le hlt hc.document.size
  · rcases hn with hn | ⟨hle, -⟩
    · exact .inl (.child hn hc)
    · rw [Document.node_of_le hle] at hc
      cases hc
  · rw [presence_of_le hg.1, presence_of_le (hcells hg.1)]
  · exact iff_of_false (Nat.not_lt.2 (hcells hg.1)) (Nat.not_lt.2 hg.1)

theorem joins_prepare (h : Plans o w₀ target m) (hk : k.first = supply w₀)
    (hw : w₀.Tied k (territory w₀ target m) w)
    (hsupply : k.supply (supply w₀) = supply w) :
    Joins (h.party k hk) [] w₀ w (prepare o.directives m w₀)
      (prepare o.directives (m.rename k) w) := by
  have hboth := Mirror.both_prepare o.directives (fun p hp => h.holdsPart hp) hw.document
    fun n hle hlt => .inr ⟨hle, hlt⟩
  obtain ⟨htied, hleft, hright⟩ := hw.document.edits k.node_injective hboth
  have hcell : w.presences.size = k.cell w₀.presences.size :=
    (congrArg Supply.cell hsupply).symm
  have hfirst : k.first.cell = w₀.presences.size := congrArg Supply.cell hk
  refine ⟨⟨?_, ⟨htied, fun g hg => ?_, fun g hg => ?_, hw.fields⟩, hleft, fun n hn => ?_,
    fun g hg => ?_⟩, ⟨hright, fun g _ => presence_prepare .., ?_, rfl⟩, ?_,
    (List.append_nil _).symm, (List.append_nil _).symm⟩
  · exact (placed_prepare h.consistent h.query h.mirrored).1
  · rw [presence_prepare, presence_prepare]
    exact hw.presence g hg
  · have hshift : (h.party k hk).shift.cell g = g + k.step.cell :=
      Shift.cell_new (Nat.le_trans (Nat.le_of_eq hfirst) hg.1)
    rw [size_prepare, size_prepare, Mirror.cells_rename, List.length_map, hcell, hshift,
      Shift.cell_new (Nat.le_of_eq hfirst), Nat.add_right_comm]
    exact Nat.add_lt_add_iff_right
  · rw [prepare, Mirror.size_prepare]
    rcases hn with hn | hn
    · exact Nat.lt_of_lt_of_le (h.under_lt hn) (Nat.le_add_right ..)
    · exact hn.2
  · rw [size_prepare]
    exact hg.2
  · rw [size_prepare]
    exact Nat.le_add_right ..
  · rw [prepare, prepare, Mirror.size_prepare, Mirror.size_prepare, Mirror.interpolations_rename,
      List.length_map]
    omega

theorem mirrors (h : Plans o w₀ target m) : Mirrors o.directives w₀ target m := by
  obtain ⟨m', hm, helement, hreflects⟩ := Mirror.exists_ofElement h.deep
    (Document.isElement_of_query h.consistent h.query) w₀.presences.size
  cases h.mirrored.symm.trans hm
  exact mirrors_of_reflects h.consistent h.rooted h.lt helement hreflects

theorem under_prepare (h : Plans o w₀ target m) {n : NodeId}
    (hn : w₀.document.ElementUnder target n) :
    (prepare o.directives m w₀).document.Under target n := by
  induction hn with
  | self => exact .self
  | child _ hm ih =>
    obtain ⟨hmem, helement⟩ := Document.mem_elementChildren.1 hm
    refine .child ih ((h.mirrors.rewrites.mem_children_iff (h.consistent.child_lt hmem)).2
      ⟨hmem, fun ⟨_, _, htext⟩ => ?_⟩)
    rw [Document.isElement, beq_iff_eq] at helement
    rw [Document.isText, helement] at htext
    cases htext

theorem own_rename (h : Plans o w₀ target m) (hk : k.first = supply w₀)
    (hw : w₀.Tied k (territory w₀ target m) w) (hsupply : k.supply (supply w₀) = supply w) :
    own o.directives (m.rename k) w = (h.party k hk).image.nodes := by
  have htop : target ∈ (territory w₀ target m).nodes := .inl .self
  have hprepared : (prepare o.directives m w₀).document.Tied k.node (territory w₀ target m).nodes
      (prepare o.directives (m.rename k) w).document :=
    (h.joins_prepare hk hw hsupply).lives.tied.document
  have helement : (m.rename k).part.element = k.node target := by
    rw [← h.follows.2]
    cases m
    rfl
  have hown (n : NodeId) : n ∈ own o.directives (m.rename k) w ↔
      (∃ j, w₀.document.Under target j ∧ k.node j = n) ∨
        ∃ j, (prepare o.directives m w₀).document.Under target j ∧ k.node j = n := by
    rw [← hw.document.under_iff htop, ← hprepared.under_iff htop, ← helement]
    rfl
  ext n
  rw [hown]
  constructor
  · rintro (⟨j, hj, rfl⟩ | ⟨j, hj, rfl⟩)
    · exact Set.mem_image_of_mem _ (hw.document.closed.under htop hj)
    · exact Set.mem_image_of_mem _ (hprepared.closed.under htop hj)
  · rintro ⟨j, hj | ⟨hle, hlt⟩, rfl⟩
    · exact .inl ⟨j, hj, rfl⟩
    · obtain ⟨p, hp, -, hmem⟩ := h.mirrors.rewrites.fresh j hle
        (by rwa [prepare, Mirror.size_prepare])
      exact .inr ⟨j, .child (h.under_prepare hp) hmem, rfl⟩

structure Comes (h : Plans o w₀ target m) (hk : k.first = supply w₀) (c : Component σ)
    (w p' w' : World σ) : Prop where
  root : c.root = m.rename k
  mounted : (h.party k hk).Mounted c
  joins : Joins (h.party k hk) m.directives w₀ w p' w'

section Mount

variable (h : Plans o w₀ target m) (hk : k.first = supply w₀)
  (hsupply : k.supply (supply w₀) = supply w) (hc : w₀.ChangesIn t w)
  (hfree : ∀ n, w₀.document.Under target n → n ∉ t.nodes)
  (hquery : w.document.query o.selector = some target) {depth : Nat} {c c' : Component σ}
  {p' : World σ}

include hsupply hc hfree hquery

theorem comes_mount (depth : Nat) :
    ∃ (r : Except EvalError Unit) (c c' : Component σ) (p' w' : World σ),
      Act.Ends (mount (Run.broadcast depth) o) w₀ (r.map fun _ => some c) p' ∧
      Act.Ends (mount (Run.broadcast depth) o) w (r.map fun _ => some c') w' ∧
      (r = .ok () → h.Comes hk c' w p' w') := by
  have hw := h.tied hk hsupply hc hfree
  have htop : k.node target = target := (h.party k hk).node_top
  have hcovers : k.Covers (supply w₀) := hk ▸ ⟨Nat.le_refl _, Nat.le_refl _⟩
  have hrenamed := Mirror.ofElement_rename hw.document (.inl .self) h.deep hc.document.size h.plain
    hcovers hsupply
  rw [htop, h.mirrored] at hrenamed
  have hplan : planned o w₀ = some m := Option.bind_eq_some_iff.2 ⟨target, h.query, h.mirrored⟩
  have hplan' : planned o w = some (m.rename k) :=
    Option.bind_eq_some_iff.2 ⟨target, hquery, hrenamed⟩
  have hprepared := h.joins_prepare hk hw hsupply
  obtain ⟨r, ids, ids', p₁, w₁, hp, hw, hjoins⟩ :=
    joins_activate depth (fun _ => id) hprepared.lives
  have hw : Run.Ends (activate (Run.broadcast depth) o.methods o.tracked (m.rename k).directives)
      (prepare o.directives (m.rename k) w) (ids', r) w₁ := by
    rw [Mirror.directives_rename]
    exact hw
  obtain ⟨p', hstart, hp'⟩ := ends_start_of_activate hp
  obtain ⟨w', hstart', hw'⟩ := ends_start_of_activate hw
  have hmount := ends_mount_of_start hplan hstart
  have hmount' := ends_mount_of_start hplan' hstart'
  refine ⟨r, ⟨m, o.methods, m.directives, ids⟩,
    ⟨m.rename k, o.methods, (m.rename k).directives, ids'⟩, p', w', ?_, ?_, fun hr => ⟨rfl, ?_, ?_⟩⟩
  · cases r <;> exact hmount
  · cases r <;> exact hmount'
  · exact ⟨rfl, Mirror.directives_rename m⟩
  · rw [hp' hr, hw' hr]
    exact hprepared.trans (hjoins hr)

theorem comes_of_alone (hmount : Act.Ends (mount (Run.broadcast depth) o) w₀ (.ok (some c)) p') :
    ∃ c' w', Act.Ends (mount (Run.broadcast depth) o) w (.ok (some c')) w' ∧
      h.Comes hk c' w p' w' := by
  obtain ⟨r, c₁, c', p₁, w', hleft, hright, hcomes⟩ :=
    h.comes_mount hk hsupply hc hfree hquery depth
  obtain ⟨hr, rfl⟩ := Run.ends_det hleft hmount
  cases r with
  | error e => cases hr
  | ok u => exact ⟨c', w', hright, hcomes rfl⟩

theorem comes_of_among (hmount : Act.Ends (mount (Run.broadcast depth) o) w (.ok (some c')) w') :
    ∃ c p', Act.Ends (mount (Run.broadcast depth) o) w₀ (.ok (some c)) p' ∧
      h.Comes hk c' w p' w' := by
  obtain ⟨r, c, c₁, p', w₁, hleft, hright, hcomes⟩ :=
    h.comes_mount hk hsupply hc hfree hquery depth
  obtain ⟨hr, rfl⟩ := Run.ends_det hright hmount
  cases r with
  | error e => cases hr
  | ok u =>
    cases hr
    exact ⟨c, p', hleft, hcomes rfl⟩

end Mount

end Plans

end LiveMarkup.Component
