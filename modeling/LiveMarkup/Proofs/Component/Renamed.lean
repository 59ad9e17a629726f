import LiveMarkup.Proofs.Component.Prepared
import LiveMarkup.Proofs.Document.Relabelled

/-!
Mirrors under other names. A tree that is planned with later numbers for new nodes and cells gives the same
mirror under the names of these numbers, and the document is prepared for both by the same edits.
-/

namespace LiveMarkup

open LiveMarkup.Markup LiveMarkup.Expression

/-- Numbers that are new, those from `first` on, are moved up; old ones stay. -/
structure Shift where
  first : Supply
  step : Supply
  deriving DecidableEq, Repr

namespace Shift

def node (k : Shift) (n : NodeId) : NodeId := if n < k.first.node then n else n + k.step.node

def cell (k : Shift) (g : CellId) : CellId := if g < k.first.cell then g else g + k.step.cell

def supply (k : Shift) (s : Supply) : Supply := ⟨k.node s.node, k.cell s.cell⟩

def idle (first : Supply) : Shift := ⟨first, ⟨0, 0⟩⟩

def upTo (first last : Supply) : Shift := ⟨first, ⟨last.node - first.node, last.cell - first.cell⟩⟩

variable {k : Shift}

theorem moved_injective (first step : Nat) :
    Function.Injective fun n => if n < first then n else n + step := by
  intro n m h
  simp only at h
  split at h <;> split at h <;> omega

theorem node_injective (k : Shift) : k.node.Injective := moved_injective _ _

theorem cell_injective (k : Shift) : k.cell.Injective := moved_injective _ _

theorem node_old {n : NodeId} (h : n < k.first.node) : k.node n = n := if_pos h

theorem node_new {n : NodeId} (h : k.first.node ≤ n) : k.node n = n + k.step.node :=
  if_neg (Nat.not_lt.2 h)

theorem cell_new {g : CellId} (h : k.first.cell ≤ g) : k.cell g = g + k.step.cell :=
  if_neg (Nat.not_lt.2 h)

theorem moved_after {first step n m : Nat} (hn : first ≤ n) (hm : n ≤ m) :
    (if m < first then m else m + step) = (if n < first then n else n + step) + (m - n) := by
  rw [if_neg (Nat.not_lt.2 (Nat.le_trans hn hm)), if_neg (Nat.not_lt.2 hn)]
  omega

theorem node_after {n m : NodeId} (hn : k.first.node ≤ n) (hm : n ≤ m) :
    k.node m = k.node n + (m - n) := moved_after hn hm

theorem cell_after {g g' : CellId} (hg : k.first.cell ≤ g) (hg' : g ≤ g') :
    k.cell g' = k.cell g + (g' - g) := moved_after hg hg'

theorem node_idle (first : Supply) : (idle first).node = id := funext fun _ => ite_self _

theorem cell_idle (first : Supply) : (idle first).cell = id := funext fun _ => ite_self _

theorem supply_idle (first : Supply) : (idle first).supply first = first := by
  rw [supply, node_idle, cell_idle]
  rfl

theorem supply_upTo {first last : Supply} (hnode : first.node ≤ last.node)
    (hcell : first.cell ≤ last.cell) : (upTo first last).supply first = last := by
  have hn : (upTo first last).node first.node = last.node :=
    (node_new (Nat.le_refl _)).trans (Nat.add_sub_cancel' hnode)
  have hc : (upTo first last).cell first.cell = last.cell :=
    (cell_new (Nat.le_refl _)).trans (Nat.add_sub_cancel' hcell)
  rw [supply, hn, hc]

theorem le_moved_upTo {first last n : Nat} (h : first ≤ n) :
    last ≤ if n < first then n else n + (last - first) := by
  rw [if_neg (Nat.not_lt.2 h)]
  omega

theorem le_node_upTo {first last : Supply} {n : NodeId} (h : first.node ≤ n) :
    last.node ≤ (upTo first last).node n := le_moved_upTo h

theorem le_cell_upTo {first last : Supply} {g : CellId} (h : first.cell ≤ g) :
    last.cell ≤ (upTo first last).cell g := le_moved_upTo h

end Shift

section Rename

variable (k : Shift)

def Anchor.rename (a : Anchor) : Anchor := ⟨k.node a.parent, a.prev.map k.node, a.next.map k.node⟩

def Interpolation.rename (i : Interpolation) : Interpolation :=
  ⟨i.template, k.node i.node, i.gates.map k.cell⟩

def Conditional.rename (c : Conditional) : Conditional :=
  ⟨c.predicate, k.node c.element, c.anchor.rename k, k.cell c.cell, c.inside.map (·.rename k)⟩

def Directive.rename : Directive → Directive
  | .interpolation i => .interpolation (i.rename k)
  | .conditional c => .conditional (c.rename k)

def Condition.rename (c : Condition) : Condition :=
  ⟨c.predicate, c.anchor.rename k, k.cell c.cell⟩

def Part.rename (p : Part) : Part :=
  { p with
    element := k.node p.element
    parent := p.parent.map k.node
    texts := p.texts.map k.node
    condition := p.condition.map (·.rename k)
    interpolation := p.interpolation.map (·.rename k) }

mutual

def Mirror.rename : Mirror → Mirror
  | .mk p ms => .mk (p.rename k) (Mirror.renameAll ms)

def Mirror.renameAll : List Mirror → List Mirror
  | [] => []
  | m :: ms => Mirror.rename m :: Mirror.renameAll ms

end

end Rename

namespace Mirror

variable {k : Shift}

theorem partsOfAll_renameAll (ms : List Mirror) :
    partsOfAll (renameAll k ms) = (partsOfAll ms).map (Part.rename k) := by
  induction ms using forest_induction with
  | nil => rfl
  | mk p inner rest ihi ihr =>
    rw [renameAll, rename, partsOfAll_mk, partsOfAll_mk, ihi, ihr, List.map_cons, List.map_append]

theorem interpolationsOf_renameAll (ms : List Mirror) :
    interpolationsOf (renameAll k ms) = (interpolationsOf ms).map (Interpolation.rename k) := by
  rw [interpolationsOf, interpolationsOf, partsOfAll_renameAll, List.filterMap_map,
    List.map_filterMap]
  rfl

theorem parts_rename (m : Mirror) : (m.rename k).parts = m.parts.map (Part.rename k) := by
  have h := partsOfAll_renameAll (k := k) [m]
  simpa only [renameAll, partsOfAll, List.append_nil] using h

theorem interpolations_rename (m : Mirror) :
    (m.rename k).interpolations = m.interpolations.map (Interpolation.rename k) := by
  have h := interpolationsOf_renameAll (k := k) [m]
  rwa [renameAll, renameAll, interpolationsOf_singleton, interpolationsOf_singleton] at h

theorem cells_rename (m : Mirror) : (m.rename k).cells = m.cells.map k.cell := by
  rw [cells, cells, parts_rename, List.filterMap_map, List.map_filterMap]
  refine List.filterMap_congr fun p _ => ?_
  simp only [Function.comp_apply, Part.rename, Option.map_map]
  rfl

theorem ownDirectives_rename (p : Part) (ms : List Mirror) :
    ownDirectives (.mk (p.rename k) (renameAll k ms)) =
      (ownDirectives (.mk p ms)).map (Directive.rename k) := by
  have hinside := interpolations_rename (k := k) (.mk p ms)
  rw [rename] at hinside
  simp only [ownDirectives, hinside, List.map_append]
  simp only [part, Part.rename]
  cases p.condition <;> cases p.interpolation <;> rfl

theorem directivesOfAll_renameAll (ms : List Mirror) :
    directivesOfAll (renameAll k ms) = (directivesOfAll ms).map (Directive.rename k) := by
  induction ms using forest_induction with
  | nil => rfl
  | mk p inner rest ihi ihr =>
    rw [renameAll, rename, directivesOfAll_mk, directivesOfAll_mk, ihi, ihr, ownDirectives_rename,
      List.map_append, List.map_append]

theorem directives_rename (m : Mirror) :
    (m.rename k).directives = m.directives.map (Directive.rename k) := by
  have h := directivesOfAll_renameAll (k := k) [m]
  rwa [renameAll, renameAll, directivesOfAll_singleton, directivesOfAll_singleton] at h

end Mirror

namespace Shift

def Covers (k : Shift) (s : Supply) : Prop := k.first.node ≤ s.node ∧ k.first.cell ≤ s.cell

variable {α β γ δ : Type} {k : Shift}

/-- From moved numbers, the second computation gives what the first gives, renamed. -/
def Renames (k : Shift) (f : α → β) (x : StateM Supply α) (y : StateM Supply β) : Prop :=
  ∀ s, k.Covers s → y.run (k.supply s) = Prod.map f k.supply (x.run s) ∧ k.Covers (x.run s).2

theorem renames_pure {f : α → β} {a : α} {b : β} (h : b = f a) :
    k.Renames f (pure a) (pure b) := fun _ hs => ⟨h ▸ rfl, hs⟩

theorem Renames.bind {f : α → β} {g : γ → δ} {x : StateM Supply α} {y : StateM Supply β}
    {u : α → StateM Supply γ} {v : β → StateM Supply δ} (hx : k.Renames f x y)
    (huv : ∀ a, k.Renames g (u a) (v (f a))) : k.Renames g (x >>= u) (y >>= v) := by
  intro s hs
  obtain ⟨hy, hs'⟩ := hx s hs
  obtain ⟨hv, hs''⟩ := huv (x.run s).1 (x.run s).2 hs'
  refine ⟨?_, hs''⟩
  rw [StateT.run_bind, hy]
  exact hv

end Shift

namespace Mirror

variable {k : Shift} (o : DirectiveOptions)

theorem renames_nextNode : k.Renames k.node nextNode nextNode := by
  intro s hs
  have hnext : k.node (s.node + 1) = k.node s.node + 1 := by
    rw [Shift.node_new hs.1, Shift.node_new (Nat.le_succ_of_le hs.1), Nat.add_right_comm]
  refine ⟨Prod.ext rfl ?_, Nat.le_succ_of_le hs.1, hs.2⟩
  exact congrArg (Supply.mk · _) hnext.symm

theorem renames_nextCell : k.Renames k.cell nextCell nextCell := by
  intro s hs
  have hnext : k.cell (s.cell + 1) = k.cell s.cell + 1 := by
    rw [Shift.cell_new hs.2, Shift.cell_new (Nat.le_succ_of_le hs.2), Nat.add_right_comm]
  refine ⟨Prod.ext rfl ?_, hs.1, Nat.le_succ_of_le hs.2⟩
  exact congrArg (Supply.mk _ ·) hnext.symm

theorem renames_condition (showIf : Option String) (anchor : Option Anchor) :
    k.Renames (Option.map (Condition.rename k)) (condition showIf anchor)
      (condition showIf (anchor.map (Anchor.rename k))) := by
  cases showIf with
  | none => exact Shift.renames_pure rfl
  | some source =>
    cases anchor with
    | none => exact Shift.renames_pure rfl
    | some a => exact renames_nextCell.bind fun cell => Shift.renames_pure rfl

theorem renames_interpolation (gates : List CellId) (text : String) :
    k.Renames (Option.map (Interpolation.rename k)) (interpolation o gates text)
      (interpolation o (gates.map k.cell) text) := by
  unfold interpolation
  cases Template.ofText? o.opening o.closing text with
  | none => exact Shift.renames_pure rfl
  | some t => exact renames_nextNode.bind fun node => Shift.renames_pure rfl

theorem gatesWith_rename (gates : List CellId) (c : Option Condition) :
    gatesWith (gates.map k.cell) (c.map (Condition.rename k)) =
      (gatesWith gates c).map k.cell := by
  rw [gatesWith, gatesWith, List.map_append]
  cases c <;> rfl

theorem textOf_relabel {f : NodeId → NodeId} (b : Branch NodeId) :
    textOf (b.relabel f) = textOf b := by
  cases b <;> rfl

theorem isText_relabel {f : NodeId → NodeId} (b : Branch NodeId) :
    isText (b.relabel f) = isText b := by
  cases b <;> rfl

theorem isElement_relabel {f : NodeId → NodeId} (b : Branch NodeId) :
    (b.relabel f).isElement = b.isElement := by
  cases b <;> rfl

theorem label_relabel {f : NodeId → NodeId} (b : Branch NodeId) :
    (b.relabel f).label = f b.label := by
  cases b <;> rfl

theorem texts_relabel {f : NodeId → NodeId} (bs : Forest NodeId) :
    ((Forest.relabel f bs).filter isText).map Branch.label =
      ((bs.filter isText).map Branch.label).map f := by
  have htext : isText ∘ Branch.relabel f = isText := funext isText_relabel
  rw [Forest.relabel_eq_map, List.filter_map, htext, List.map_map, List.map_map]
  exact List.map_congr_left fun b _ => label_relabel b

theorem join_relabel {f : NodeId → NodeId} (bs : Forest NodeId) :
    String.join ((Forest.relabel f bs).map textOf) = String.join (bs.map textOf) := by
  rw [Forest.relabel_eq_map, List.map_map]
  exact congrArg String.join (List.map_congr_left fun b _ => textOf_relabel b)

theorem firstElement_relabel {f : NodeId → NodeId} (bs : Forest NodeId) :
    firstElement (Forest.relabel f bs) = (firstElement bs).map f := by
  have helement : Branch.isElement ∘ Branch.relabel f = Branch.isElement :=
    funext isElement_relabel
  rw [firstElement, firstElement, Forest.relabel_eq_map, List.find?_map, helement, Option.map_map,
    Option.map_map]
  exact congrArg (Option.map · _) (funext label_relabel)

theorem renames_planPart (gates : List CellId) (parent : Option NodeId) (anchor : Option Anchor)
    (element : NodeId) (tag : String) (written : Attributes) (children : Forest NodeId) :
    k.Renames (Part.rename k) (planPart o gates parent anchor element tag written children)
      (planPart o (gates.map k.cell) (parent.map k.node) (anchor.map (Anchor.rename k))
        (k.node element) tag written (Forest.relabel k.node children)) := by
  simp only [planPart, join_relabel, texts_relabel]
  refine (renames_condition _ anchor).bind fun c => ?_
  rw [gatesWith_rename]
  exact (renames_interpolation o _ _).bind fun i => Shift.renames_pure rfl

mutual

theorem renames_plan (gates : List CellId) (parent : Option NodeId) (anchor : Option Anchor)
    (b : Branch NodeId) :
    k.Renames (Option.map (Mirror.rename k)) (plan o gates parent anchor b)
      (plan o (gates.map k.cell) (parent.map k.node) (anchor.map (Anchor.rename k))
        (b.relabel k.node)) := by
  cases b with
  | element element tag written children =>
    simp only [plan, Branch.relabel]
    refine (renames_planPart o gates parent anchor element tag written children).bind fun p => ?_
    have hgates : gatesWith (gates.map k.cell) (p.rename k).condition =
        (gatesWith gates p.condition).map k.cell := gatesWith_rename gates p.condition
    rw [hgates]
    exact (renames_planForest _ element none children).bind fun ms => Shift.renames_pure rfl
  | text label data => exact Shift.renames_pure rfl
  | comment label data => exact Shift.renames_pure rfl

theorem renames_planForest (gates : List CellId) (parent : NodeId) (prev : Option NodeId)
    (bs : Forest NodeId) :
    k.Renames (renameAll k) (planForest o gates parent prev bs)
      (planForest o (gates.map k.cell) (k.node parent) (prev.map k.node)
        (Forest.relabel k.node bs)) := by
  cases bs with
  | nil => exact Shift.renames_pure rfl
  | cons b bs =>
    have hprev : (if (b.relabel k.node).isElement then some (b.relabel k.node).label
        else prev.map k.node) = (if b.isElement then some b.label else prev).map k.node := by
      rw [isElement_relabel, label_relabel]
      split <;> rfl
    simp only [planForest, Forest.relabel, firstElement_relabel, hprev]
    refine (renames_plan gates (some parent) (some ⟨parent, prev, firstElement bs⟩) b).bind
      fun m => (renames_planForest gates parent _ bs).bind fun ms => Shift.renames_pure ?_
    cases m <;> rfl

end

section Image

variable {S : Set NodeId} {d e : Document} {n : NodeId}

theorem plan_without_anchor (h : d.showIf? o n = none) (gates : List CellId)
    (parent : Option NodeId) (anchor : Option Anchor) (depth : Nat) :
    plan o gates parent anchor (d.branchWithin depth n) =
      plan o gates parent none (d.branchWithin depth n) := by
  have helement (children : Forest NodeId) :
      plan o gates parent anchor (.element n (d.node n).tag (d.node n).attributes children) =
        plan o gates parent none (.element n (d.node n).tag (d.node n).attributes children) := by
    rw [Document.showIf?] at h
    simp only [plan, planPart, h]
    rfl
  cases depth with
  | zero => exact helement []
  | succ depth =>
    rw [Document.branchWithin_succ, Document.branchOf]
    cases (d.node n).kind with
    | element => exact helement _
    | text => rfl
    | comment => rfl

theorem ofElement_rename {o : DirectiveOptions} (h : d.Tied k.node S e) (hn : n ∈ S)
    (hdeep : Document.Deep d.IsChild d.nodes.size n) (hle : d.nodes.size ≤ e.nodes.size)
    (hshow : d.showIf? o n = none) {cell cell' : CellId} (hk : k.Covers ⟨d.nodes.size, cell⟩)
    (hsupply : k.supply ⟨d.nodes.size, cell⟩ = ⟨e.nodes.size, cell'⟩) :
    ofElement o e cell' (k.node n) = (ofElement o d cell n).map (Mirror.rename k) := by
  have hshow' : e.showIf? o (k.node n) = none := by
    rw [Document.showIf?, h.image.node n hn]
    exact hshow
  have hbranch : e.branch (k.node n) = (d.branch n).relabel k.node := by
    rw [Document.branch, Document.branch, h.branchWithin _ hn, hdeep.branchWithin_eq hle]
  obtain ⟨hrun, -⟩ := renames_plan o [] (d.node n).parent none (d.branch n) _ hk
  rw [ofElement, ofElement, Document.branch, plan_without_anchor o hshow', ← Document.branch,
    hbranch, h.image.parent hn, ← hsupply, Document.branch, plan_without_anchor o hshow,
    ← Document.branch]
  exact congrArg Prod.fst hrun

end Image

end Mirror

section Prepare

open Document Relation

variable {k : Shift} {S : Set NodeId} {d e : Document} {p : Part}

theorem both_removeAll {parent : NodeId} (hp : parent ∈ S) {olds : List NodeId}
    (holds : ∀ n ∈ olds, n ∈ S) (d e : Document) :
    ReflTransGen (Edit.Both k.node S) (d, e)
      (olds.foldl (fun d old => d.removeChild parent old) d,
        (olds.map k.node).foldl (fun e old => e.removeChild (k.node parent) old) e) := by
  induction olds generalizing d e with
  | nil => exact .refl
  | cons old olds ih =>
    have hfirst : Edit.Both k.node S (d, e)
        (d.removeChild parent old, e.removeChild (k.node parent) (k.node old)) :=
      ⟨.removeChild parent old, ⟨hp, holds old (List.mem_cons_self ..)⟩, rfl⟩
    exact .head hfirst (ih (fun n hn => holds n (List.mem_cons_of_mem _ hn)) _ _)

namespace Part

def position (p : Part) : Position :=
  match p.texts with
  | first :: _ => .before first
  | [] => .last

theorem inserted_eq_run (p : Part) (d : Document) :
    p.inserted d =
      Edit.run (d.createText p.text).2 (.insert p.position p.element d.nodes.size) := by
  unfold inserted position
  cases p.texts <;> rfl

theorem position_rename (p : Part) : (p.rename k).position = p.position.rename k.node := by
  unfold position rename
  cases p.texts <;> rfl

theorem both_inserted (hp : p.element ∈ S) (h : d.Image k.node S e) (hnew : d.nodes.size ∈ S) :
    ReflTransGen (Edit.Both k.node S) (d, e) (p.inserted d, (p.rename k).inserted e) := by
  have hcreate : Edit.Both k.node S (d, e) ((d.createText p.text).2, (e.createText p.text).2) :=
    ⟨.createText p.text, hnew, rfl⟩
  refine .tail (.single hcreate) ⟨.insert p.position p.element d.nodes.size, ⟨hp, hnew, ?_⟩, ?_⟩
  · rw [node_createText, if_pos rfl]
    rfl
  · rw [inserted_eq_run, inserted_eq_run, position_rename, ← h.size_eq hnew]
    rfl

theorem both_prepare (o : DirectiveOptions) (hp : p.element ∈ S) (htexts : ∀ t ∈ p.texts, t ∈ S)
    (h : d.Tied k.node S e) (hnew : p.interpolation ≠ none → d.nodes.size ∈ S) :
    ReflTransGen (Edit.Both k.node S) (d, e) (p.prepare o d, (p.rename k).prepare o e) := by
  have hattribute : Edit.Both k.node S (d, e) (d.removeAttribute p.element o.onClick,
      e.removeAttribute (k.node p.element) o.onClick) :=
    ⟨.removeAttribute p.element o.onClick, hp, rfl⟩
  cases hi : p.interpolation with
  | none =>
    have hi' : (p.rename k).interpolation = none := congrArg (Option.map _) hi
    rw [prepare_of_none o d hi, prepare_of_none o e hi']
    exact .single hattribute
  | some i =>
    have hi' : (p.rename k).interpolation = some (i.rename k) := congrArg (Option.map _) hi
    have hs : (d.removeAttribute p.element o.onClick).nodes.size ∈ S := by
      rw [size_removeAttribute]
      exact hnew (hi ▸ nofun)
    obtain ⟨htied, -⟩ := h.edits k.node_injective (.single hattribute)
    rw [prepare_of_some o d hi, prepare_of_some o e hi']
    exact .head hattribute ((both_inserted hp htied.image hs).trans (both_removeAll hp htexts _ _))

end Part

theorem both_prepareAll (o : DirectiveOptions) {ps : List Part}
    (hps : ∀ p ∈ ps, p.element ∈ S ∧ ∀ t ∈ p.texts, t ∈ S) (h : d.Tied k.node S e)
    (hnew : ∀ n, d.nodes.size ≤ n →
      n < d.nodes.size + (ps.filterMap Part.interpolation).length → n ∈ S) :
    ReflTransGen (Edit.Both k.node S) (d, e)
      (ps.foldl (fun d p => p.prepare o d) d,
        (ps.map (Part.rename k)).foldl (fun e p => p.prepare o e) e) := by
  induction ps generalizing d e with
  | nil => exact .refl
  | cons p ps ih =>
    obtain ⟨helement, htexts⟩ := hps p (List.mem_cons_self ..)
    have hlength : ((p :: ps).filterMap Part.interpolation).length =
        p.interpolation.toList.length + (ps.filterMap Part.interpolation).length := by
      rw [List.filterMap_cons]
      cases p.interpolation with
      | none => exact (Nat.zero_add _).symm
      | some i => exact Nat.add_comm ..
    have hsize := p.size_prepare o d
    have hfirst := Part.both_prepare o helement htexts h fun hi => by
      obtain ⟨i, hi⟩ := Option.ne_none_iff_exists'.1 hi
      refine hnew _ (Nat.le_refl _) ?_
      rw [hlength, hi, Option.toList_some, List.length_singleton]
      omega
    obtain ⟨htied, -⟩ := h.edits k.node_injective hfirst
    refine hfirst.trans (ih (fun q hq => hps q (List.mem_cons_of_mem _ hq)) htied fun n hle hlt => ?_)
    rw [hsize] at hle hlt
    refine hnew n (Nat.le_trans (Nat.le_add_right ..) hle) ?_
    rwa [hlength, ← Nat.add_assoc]

theorem Mirror.both_prepare (o : DirectiveOptions) {m : Mirror}
    (hps : ∀ p ∈ m.parts, p.element ∈ S ∧ ∀ t ∈ p.texts, t ∈ S) (h : d.Tied k.node S e)
    (hnew : ∀ n, d.nodes.size ≤ n → n < d.nodes.size + m.interpolations.length → n ∈ S) :
    ReflTransGen (Edit.Both k.node S) (d, e) (m.prepare o d, (m.rename k).prepare o e) := by
  rw [prepare, prepare, parts_rename]
  exact both_prepareAll o hps h hnew

end Prepare

end LiveMarkup
