import LiveMarkup.Proofs.Component.Territory

/-!
Parties: components that share a page. A party is followed in two worlds, one where it was mounted alone
and one where others are mounted too. Each of its directives does the same in both, and what others do
elsewhere makes no difference to it.
-/

namespace LiveMarkup

open LiveMarkup.Expression

variable {σ : Type}

/-- The method asks nothing of the store but its fields, and answers by its arguments and the fields. -/
structure Methods.FunctionalAt (methods : Methods σ) (name : String) : Prop where
  quiet : methods.QuietAt name
  readOnly : methods.ReadOnlyAt name

theorem Methods.evaluate_functional {methods : Methods σ} {c : Compiled}
    (hc : c.Calls methods.FunctionalAt) (depth : Nat) {p w : World σ}
    (hf : w.store.fields = p.store.fields) :
    ∃ r m m', Act.Ends (c.evaluate (Run.scope (Run.broadcast depth) methods)) p r
        { p with memory := m } ∧
      Act.Ends (c.evaluate (Run.scope (Run.broadcast depth) methods)) w r
        { w with memory := m' } := by
  obtain ⟨q, hq⟩ := consults_evaluate (Run.broadcast depth) (hc.mono fun _ h => h.quiet)
  have hagree : Act.Agree (World.BothHold p.store.fields)
      (c.evaluate (Run.scope (Run.broadcast depth) methods))
      (c.evaluate (Run.scope (Run.broadcast depth) methods)) := by
    refine (agreeing _).evaluate_tree (fun name _ => Run.agree_field methods fun hP => ?_)
      (fun name vs h => Run.agree_call h.readOnly p.store.fields depth depth vs) hc
    rw [Store.get, Store.get, hP.1, hP.2]
  have hp := (hq p _ _).2 ⟨rfl, rfl⟩
  have hw := (hq w _ _).2 ⟨rfl, rfl⟩
  obtain ⟨hr, -⟩ := hagree ⟨rfl, hf⟩ hp hw
  exact ⟨_, _, _, hp, hr ▸ hw⟩

/-- A component as it is planned alone on a document, with the names under which it stands where others
are mounted before it. It has the tree under one node of the document, and new nodes. -/
structure Party (σ : Type) where
  methods : Methods σ
  tracked : Bool
  directives : List Directive
  base : Document
  top : NodeId
  territory : Territory
  shift : Shift
  functional : ∀ d ∈ directives, d.Calls methods.FunctionalAt
  separate : Separate directives
  unshared : Unshared directives
  holds : ∀ d ∈ directives, territory.Holds d
  consistent : base.Consistent
  rooted : base.Under Document.root top
  bound : top < base.nodes.size
  node_iff : ∀ n < base.nodes.size, n ∈ territory.nodes ↔ base.Under top n
  first : shift.first.node = base.nodes.size

namespace Party

variable {x y : Party σ} {p p' q w w' : World σ} {t : Territory}

def image (x : Party σ) : Territory := x.territory.image x.shift

def named (x : Party σ) (k : Shift) (h : k.first.node = x.base.nodes.size) : Party σ :=
  { x with shift := k, first := h }

def observer (x : Party σ) (d : Directive) : Observer σ := .directive x.methods x.tracked d

def alone (x : Party σ) : List (Observer σ) := x.directives.map x.observer

def together (x : Party σ) : List (Observer σ) :=
  x.directives.map fun d => x.observer (d.rename x.shift)

structure Mounted (x : Party σ) (c : Component σ) : Prop where
  methods : c.methods = x.methods
  directives : c.directives = x.directives.map (Directive.rename x.shift)

/-- The party is mounted alone in `p` and with others in `w`. -/
structure Lives (x : Party σ) (p w : World σ) : Prop where
  placed : p.Placed x.directives x.base
  tied : p.Tied x.shift x.territory w
  changes : x.base.ChangesIn x.territory.nodes p.document
  nodes : ∀ n ∈ x.territory.nodes, n < p.document.nodes.size
  cells : ∀ g ∈ x.territory.cells, g < p.presences.size

structure Advances (x : Party σ) (p w p' w' : World σ) : Prop where
  lives : x.Lives p' w'
  left : p'.store = p.store
  right : w'.store = w.store
  sizeLeft : p'.document.nodes.size = p.document.nodes.size
  sizeRight : w'.document.nodes.size = w.document.nodes.size
  changes : w.ChangesIn x.image w'

theorem Lives.carry (h : x.Lives p w) (hc : World.Carries x.shift x.territory (p, w) (p', w'))
    (hp : p'.Placed x.directives x.base) : x.Lives p' w' ∧ w.ChangesIn x.image w' := by
  obtain ⟨htied, hleft, hright⟩ := hc h.tied
  exact ⟨⟨hp, htied, h.changes.trans hleft.document,
    fun n hn => Nat.lt_of_lt_of_le (h.nodes n hn) hleft.document.size,
    fun g hg => Nat.lt_of_lt_of_le (h.cells g hg) hleft.size⟩, hright⟩

theorem Lives.of_shown (h : x.Lives p w) (hpd : p'.document = p.document)
    (hpp : p'.presences = p.presences) (hwd : w'.document = w.document)
    (hwp : w'.presences = w.presences) (hf : w'.store.fields = p'.store.fields) :
    x.Lives p' w' := by
  refine ⟨(upheld_placed x.separate x.unshared x.base).shown hpd hpp h.placed,
    ⟨?_, fun g hg => ?_, ?_, hf⟩, ?_, ?_, ?_⟩
  · rw [hpd, hwd]
    exact h.tied.document
  · rw [World.presence_congr hwp, World.presence_congr hpp, h.tied.presence g hg]
  · rw [hwp, hpp]
    exact h.tied.bound
  · rw [hpd]
    exact h.changes
  · rw [hpd]
    exact h.nodes
  · rw [hpp]
    exact h.cells

theorem Lives.other (h : x.Lives p w) (hc : w.ChangesIn t w')
    (hnodes : ∀ n ∈ x.image.nodes, n ∉ t.nodes) (hcells : ∀ g ∈ x.image.cells, g ∉ t.cells) :
    x.Lives p w' := by
  have hnode (n : NodeId) (hn : n ∈ x.territory.nodes) : x.shift.node n ∉ t.nodes :=
    hnodes _ (Set.mem_image_of_mem _ hn)
  have hcell (g : CellId) (hg : g ∈ x.territory.cells) : x.shift.cell g ∉ t.cells :=
    hcells _ (Set.mem_image_of_mem _ hg)
  refine ⟨h.placed, ⟨⟨h.tied.document.image.other hc.document hnode h.nodes,
    h.tied.document.closed⟩, fun g hg => ?_, fun g hg => ?_, hc.fields.trans h.tied.fields⟩,
    h.changes, h.nodes, h.cells⟩
  · rw [hc.presence _ (hcell g hg), h.tied.presence g hg]
  · have hlt := (h.tied.bound g hg).2 (h.cells g hg)
    exact iff_of_true (Nat.lt_of_lt_of_le hlt hc.size) (h.cells g hg)

section Update

variable {d : Directive} (depth : Nat)

theorem Lives.refreshed (h : x.Lives p w) {i : Interpolation}
    (hi : .interpolation i ∈ x.directives) :
    x.Advances p w (p.refreshed i) (w.refreshed (i.rename x.shift)) := by
  obtain ⟨hlives, hchanges⟩ := h.carry (World.carries_refreshed (x.holds _ hi) p w)
    (h.placed.refreshed i)
  have hp := p.reshapes_refreshed i
  have hw := w.reshapes_refreshed (i.rename x.shift)
  exact ⟨hlives, hp.store, hw.store, hp.size, hw.size, hchanges⟩

theorem Lives.settled (h : x.Lives p w) {c : Conditional} (hc : .conditional c ∈ x.directives)
    (visible : Bool) :
    x.Advances p w (p.settled c visible) (w.settled (c.rename x.shift) visible) := by
  have hfree (hp : p.presence c.cell = .detached) : (p.document.node c.element).parent = none := by
    rw [h.placed.parent hc, hp]
    rfl
  have hplaced := (upheld_placed x.separate x.unshared x.base).settled p c visible hc h.placed
  obtain ⟨hlives, hchanges⟩ := h.carry
    (World.carries_settled (x.holds _ hc) (h.placed.fits hc).element hfree visible w) hplaced
  have hp := p.reshapes_settled c visible
  have hw := w.reshapes_settled (c.rename x.shift) visible
  exact ⟨hlives, hp.store, hw.store, hp.size, hw.size, hchanges⟩

theorem Lives.update (h : x.Lives p w) (hd : d ∈ x.directives) :
    ∃ r p' w', Act.Ends (Run.update (Run.broadcast depth) x.methods d) p r p' ∧
      Act.Ends (Run.update (Run.broadcast depth) x.methods (d.rename x.shift)) w r w' ∧
      x.Advances p w p' w' := by
  cases d with
  | interpolation i =>
    exact ⟨.ok (), _, _, Act.ends_ofRun.2 ⟨(), rfl, Run.ends_refreshUngated.2 rfl⟩,
      Act.ends_ofRun.2 ⟨(), rfl, Run.ends_refreshUngated.2 rfl⟩, h.refreshed hd⟩
  | conditional c =>
    obtain ⟨r, m, m', hp, hw⟩ := Methods.evaluate_functional (x.functional _ hd) depth h.tied.fields
    have h₁ : x.Lives { p with memory := m } { w with memory := m' } :=
      h.of_shown rfl rfl rfl rfl h.tied.fields
    cases r with
    | error e =>
      exact ⟨.error e, _, _, Act.ends_bind.2 (.inl ⟨e, hp, rfl⟩),
        Act.ends_bind.2 (.inl ⟨e, hw, rfl⟩), h₁, rfl, rfl, rfl, rfl, .of_shown rfl rfl rfl⟩
    | ok v =>
      obtain ⟨hlives, hleft, hright, hsize, hsize', hchanges⟩ := h₁.settled hd v.truthy
      have hshown : w.ChangesIn x.image { w with memory := m' } := .of_shown rfl rfl rfl
      exact ⟨.ok (), _, _,
        Act.ends_bind.2 (.inr ⟨v, _, hp, Act.ends_ofRun.2 ⟨(), rfl, Run.ends_settle.2 rfl⟩⟩),
        Act.ends_bind.2 (.inr ⟨v, _, hw, Act.ends_ofRun.2 ⟨(), rfl, Run.ends_settle.2 rfl⟩⟩),
        hlives, hleft, hright, hsize, hsize', hshown.trans hchanges⟩

theorem Advances.refl (h : x.Lives p w) : x.Advances p w p w :=
  ⟨h, rfl, rfl, rfl, rfl, .refl _ _⟩

theorem calls_rename {call : String → Prop} {d : Directive} {k : Shift} :
    (d.rename k).Calls call ↔ d.Calls call := by
  cases d <;> rfl

theorem dependsOn_rename (k : Shift) (d : Directive) (field : String) :
    (d.rename k).dependsOn field = d.dependsOn field := by
  cases d <;> rfl

theorem Lives.receive (h : x.Lives p w) (hd : d ∈ x.directives) (e : Event) :
    ∃ r p' w', Act.Ends (Run.receive (Run.broadcast depth) e (x.observer d)) p r p' ∧
      Act.Ends (Run.receive (Run.broadcast depth) e (x.observer (d.rename x.shift))) w r w' ∧
      x.Advances p w p' w' := by
  simp only [observer, Run.receive, dependsOn_rename]
  split
  · exact ⟨.ok (), p, w, Act.ends_pure.2 ⟨rfl, rfl⟩, Act.ends_pure.2 ⟨rfl, rfl⟩, .refl h⟩
  · exact h.update depth hd

end Update

theorem node_old (x : Party σ) {n : NodeId} (hn : n < x.base.nodes.size) : x.shift.node n = n :=
  Shift.node_old (x.first ▸ hn)

theorem node_top (x : Party σ) : x.shift.node x.top = x.top := x.node_old x.bound

theorem not_mem_image (x : Party σ) {n : NodeId} (hlt : n < x.base.nodes.size)
    (hn : n ∉ x.territory.nodes) : n ∉ x.image.nodes := by
  rintro ⟨m, hm, rfl⟩
  by_cases hold : m < x.base.nodes.size
  · rw [x.node_old hold] at hn
    exact hn hm
  · rw [Shift.node_new (x.first ▸ Nat.le_of_not_lt hold)] at hlt
    exact hold (Nat.lt_of_le_of_lt (Nat.le_add_right ..) hlt)

theorem top_mem (x : Party σ) : x.top ∈ x.territory.nodes := (x.node_iff _ x.bound).2 .self

theorem Lives.size_le (h : x.Lives p w) (hbase : x.base.nodes.size ≤ w.document.nodes.size) :
    p.document.nodes.size ≤ w.document.nodes.size := by
  -- a node of the number that comes next among others would be one that is there already
  refine Nat.le_of_not_lt fun hlt => ?_
  have hmem := h.changes.fresh _ hbase hlt
  have hbound := (h.tied.document.image.lt_iff hmem).2 hlt
  rw [Shift.node_new (x.first ▸ hbase)] at hbound
  exact Nat.not_lt.2 (Nat.le_add_right ..) hbound

theorem Lives.outerHtml (h : x.Lives p w)
    (hbase : x.base.nodes.size ≤ w.document.nodes.size) :
    w.document.outerHtml x.top = p.document.outerHtml x.top := by
  have hroot := h.changes.under_root x.consistent
    (fun n hn hlt => (x.node_iff n hlt).1 hn) x.rooted
  have hdeep := h.placed.consistent.deep_children hroot (h.nodes _ x.top_mem)
  have hhtml := h.tied.document.outerHtml x.top_mem hdeep (h.size_le hbase)
  rwa [x.node_top] at hhtml

end Party

end LiveMarkup
