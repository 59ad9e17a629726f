import LiveMarkup.Proofs.Component.Hosted
import LiveMarkup.Proofs.Component.Scratch
import LiveMarkup.Proofs.Reactive.Pure

/-!
What fields can reach. Two worlds whose documents differ in texts only stay so while directives that
call nothing are activated on different fields, as long as the conditions hold on both or on neither.
-/

namespace LiveMarkup

open LiveMarkup.Expression

variable {σ : Type} {ds : List Directive}

namespace World

structure Confined (ds : List Directive) (w u : World σ) : Prop where
  left : w.document.Hosts ds
  right : u.document.Hosts ds
  document : w.document.Matches u.document
  presences : u.presences = w.presences

variable {w u : World σ}

theorem Confined.setText (h : Confined ds w u) {i : Interpolation} (hi : .interpolation i ∈ ds)
    (text text' : String) : Confined ds (w.edit fun d => d.setText i.node text)
      (u.edit fun d => d.setText i.node text') where
  left := h.left.setText hi text
  right := h.right.setText hi text'
  document := (Document.matches_setText (h.left.text hi) text).symm.trans
    (h.document.trans (Document.matches_setText (h.right.text hi) text'))
  presences := h.presences

theorem Confined.refreshed (h : Confined ds w u) {i : Interpolation} (hi : .interpolation i ∈ ds) :
    Confined ds (w.refreshed i) (u.refreshed i) := by
  have hgated : u.isGated i = w.isGated i := isGated_congr fun cell _ => presence_congr h.presences cell
  unfold World.refreshed
  rw [hgated]
  split
  · exact h
  · exact h.setText hi _ _

theorem Confined.refreshAll (h : Confined ds w u) {is : List Interpolation}
    (his : ∀ i ∈ is, .interpolation i ∈ ds) :
    Confined ds (is.foldl World.refreshed w) (is.foldl World.refreshed u) := by
  induction is generalizing w u with
  | nil => exact h
  | cons i is ih =>
    exact ih (h.refreshed (his i (List.mem_cons_self ..))) fun j hj =>
      his j (List.mem_cons_of_mem _ hj)

theorem Confined.setPresence (h : Confined ds w u) (cell : CellId) (p : Presence) :
    Confined ds (w.setPresence cell p) (u.setPresence cell p) where
  left := h.left
  right := h.right
  document := h.document
  presences := by rw [World.setPresence, World.setPresence, h.presences]

theorem Confined.setStore (h : Confined ds w u) (store store' : Store σ) :
    Confined ds { w with store := store } { u with store := store' } :=
  ⟨h.left, h.right, h.document, h.presences⟩

theorem Confined.withdrawn (h : Confined ds w u) (c : Conditional) :
    Confined ds (w.withdrawn c) (u.withdrawn c) := by
  have hhosts {d : Document} (hd : d.Hosts ds) : (d.removeChild c.anchor.parent c.element).Hosts ds :=
    hd.rewire (Document.rewires_removeChild ..) (hd.tidy.removeChild ..)
  have hremoved : Confined ds (w.edit fun d => d.removeChild c.anchor.parent c.element)
      (u.edit fun d => d.removeChild c.anchor.parent c.element) :=
    ⟨hhosts h.left, hhosts h.right, h.document.removeChild .., h.presences⟩
  exact hremoved.setPresence c.cell .detached

theorem Confined.restored (h : Confined ds w u) (hds : Separate ds) {c : Conditional}
    (hc : .conditional c ∈ ds) : Confined ds (w.restored c) (u.restored c) := by
  have hinside := (h.setPresence c.cell .attached).refreshAll (hds.inside hc)
  have hinsert {d : Document} (hd : d.Hosts ds) : (c.anchor.insert c.element d).Hosts ds :=
    hd.rewire (rewires_insert ..)
      (hd.tidy.insert (hd.parent hc) (hd.element hc).1 (hd.element hc).2)
  exact ⟨hinsert hinside.left, hinsert hinside.right, hinside.document.insert c.anchor c.element,
    hinside.presences⟩

theorem Confined.settled (h : Confined ds w u) (hds : Separate ds) {c : Conditional}
    (hc : .conditional c ∈ ds) (visible : Bool) :
    Confined ds (w.settled c visible) (u.settled c visible) := by
  have hpresence : u.presence c.cell = w.presence c.cell := presence_congr h.presences c.cell
  unfold World.settled
  rw [hpresence]
  split
  · exact h.withdrawn c
  · exact h.restored hds hc
  · exact h

end World

namespace Expression.Compiled

def truthOn (c : Compiled) (fields : Table Value) : Except EvalError Bool :=
  (c.valueOn fields).map Value.truthy

end Expression.Compiled

namespace Document

variable {o : DirectiveOptions} {d : Document} {fields fields' : Table Value}

/-- Where an element is conditional, its condition calls nothing, and holds on both fields or on
neither. -/
def AgreesAt (o : DirectiveOptions) (fields fields' : Table Value) (d : Document) (n : NodeId) :
    Prop :=
  ∀ source ∈ d.showIf? o n, (∀ a ∈ Expression.parse source, a.isCall = false) ∧
    (compileSource source).truthOn fields = (compileSource source).truthOn fields'

def Agrees (o : DirectiveOptions) (fields fields' : Table Value) (d : Document) (top : NodeId) :
    Prop :=
  ∀ n, d.Under top n → d.AgreesAt o fields fields' n

instance (n : NodeId) : Decidable (d.AgreesAt o fields fields' n) :=
  inferInstanceAs (Decidable (∀ source ∈ d.showIf? o n, _ ∧ _))

theorem agrees_of_nodes (h : ∀ n < d.nodes.size, d.AgreesAt o fields fields' n) (top : NodeId) :
    d.Agrees o fields fields' top := fun n _ => forall_showIf h n

end Document

namespace Directive

def Agrees (fields fields' : Table Value) : Directive → Prop
  | .interpolation _ => True
  | .conditional c => c.predicate.truthOn fields = c.predicate.truthOn fields'

/-- What an update does that calls nothing and does not fail. -/
inductive Writes : Directive → World σ → World σ → Prop
  | interpolation (i : Interpolation) (w : World σ) : Writes (.interpolation i) w (w.refreshed i)
  | conditional (c : Conditional) (w : World σ) {visible : Bool}
    (truth : c.predicate.truthOn w.store.fields = .ok visible) :
    Writes (.conditional c) w (w.settled c visible)

variable {d : Directive} {w w' u u' : World σ}

theorem Writes.store (h : d.Writes w w') : w'.store = w.store := by
  cases h with
  | interpolation i => exact (w.reshapes_refreshed i).store
  | conditional c => exact (w.reshapes_settled c _).store

theorem CallFree.writes_of_update {emit : Emit σ} {methods : Methods σ} (hds : Separate ds)
    (hd : d ∈ ds) (hfree : d.CallFree)
    (h : Act.Ends (Run.update emit methods d) w (.ok ()) w') : d.Writes w w' := by
  cases d with
  | interpolation i =>
    obtain ⟨_, -, hrun⟩ := Act.ends_ofRun.1 h
    rw [Run.ends_refreshUngated.1 hrun]
    exact .interpolation i w
  | conditional c =>
    obtain ⟨ns, hns⟩ := hds.compiled hd
    simp only [CallFree, hns] at hfree
    rcases Act.ends_bind.1 h with ⟨e, -, he⟩ | ⟨v, w₁, hv, hsettle⟩
    · cases he
    · rw [hns] at hv
      obtain ⟨hvalue, rfl⟩ := Run.ends_det (hfree.ends_value emit methods w) hv
      obtain ⟨_, -, hrun⟩ := Act.ends_ofRun.1 hsettle
      rw [Run.ends_settle.1 hrun]
      refine .conditional c w ?_
      rw [Compiled.truthOn, hns, hvalue]
      rfl

end Directive

namespace World.Confined

variable {w w' u u' : World σ} {d : Directive}

theorem write (h : Confined ds w u) (hds : Separate ds) (hd : d ∈ ds)
    (hagree : d.Agrees w.store.fields u.store.fields) (hw : d.Writes w w') (hu : d.Writes u u') :
    Confined ds w' u' := by
  cases hw with
  | interpolation i =>
    cases hu
    exact h.refreshed hd
  | conditional c _ htruth =>
    cases hu with
    | conditional _ _ htruth' =>
      have hvisible := htruth.symm.trans (Eq.trans hagree htruth')
      cases hvisible
      exact h.settled hds hd _

end World.Confined

theorem Mirror.agrees_of_document {o : DirectiveOptions} {d : Document} {m : Mirror}
    {fields fields' : Table Value} (hf : m.Follows o d)
    (h : d.Agrees o fields fields' m.part.element) :
    (∀ a ∈ m.directives, a.CallFree) ∧ ∀ a ∈ m.directives, a.Agrees fields fields' := by
  have hcond {c : Conditional} (hc : .conditional c ∈ m.directives) :
      c.predicate.CallFree ∧ c.predicate.truthOn fields = c.predicate.truthOn fields' := by
    obtain ⟨-, hunder, source, hsource, hpred⟩ := hf.part_of_conditional hc
    obtain ⟨hcalls, htruth⟩ := h c.element hunder source hsource
    rw [hpred]
    exact ⟨Compiled.callFree_of_no_call hcalls, htruth⟩
  constructor
  · intro a ha
    cases a with
    | interpolation i => trivial
    | conditional c => exact (hcond ha).1
  · intro a ha
    cases a with
    | interpolation i => trivial
    | conditional c => exact (hcond ha).2

namespace Component

section Start

variable {emit emit' : Emit σ} {methods methods' : Methods σ} {tracked tracked' : Bool}
  {w w' u u' : World σ} {fields fields' : Table Value}

theorem activate_confined (hds : Separate ds) (hfree : ∀ d ∈ ds, d.CallFree)
    (hagree : ∀ d ∈ ds, d.Agrees fields fields') {ds' : List Directive} (hsub : ∀ d ∈ ds', d ∈ ds)
    {ids ids' : List Nat} (h : World.Confined ds w u) (hw : w.store.fields = fields)
    (hu : u.store.fields = fields')
    (hleft : Run.Ends (activate emit methods tracked ds') w (ids, .ok ()) w')
    (hright : Run.Ends (activate emit' methods' tracked' ds') u (ids', .ok ()) u') :
    World.Confined ds w' u' := by
  induction ds' generalizing w u ids ids' with
  | nil =>
    obtain ⟨-, rfl⟩ := Run.ends_pure.1 hleft
    obtain ⟨-, rfl⟩ := Run.ends_pure.1 hright
    exact h
  | cons d ds' ih =>
    have hd : d ∈ ds := hsub d (List.mem_cons_self ..)
    obtain ⟨w₁, is, hwrite, hrest, -⟩ := ends_activate_cons.1 hleft
    obtain ⟨u₁, is', hwrite', hrest', -⟩ := ends_activate_cons.1 hright
    have hw₁ := (hfree d hd).writes_of_update hds hd hwrite
    have hu₁ := (hfree d hd).writes_of_update hds hd hwrite'
    have hfields : w₁.store.fields = fields := (congrArg Store.fields hw₁.store).trans hw
    have hfields' : u₁.store.fields = fields' := (congrArg Store.fields hu₁.store).trans hu
    have hd' : d.Agrees w.store.fields u.store.fields := by
      rw [hw, hu]
      exact hagree d hd
    have hstep := (h.write hds hd hd' hw₁ hu₁).setStore
      (w₁.store.subscribe (.directive methods tracked d))
      (u₁.store.subscribe (.directive methods' tracked' d))
    exact ih (fun d' hd' => hsub d' (List.mem_cons_of_mem _ hd')) hstep hfields hfields' hrest hrest'

theorem mount_confined {o : MountOptions σ} {c c' : Component σ}
    (hleft : Act.Ends (mount emit o) w (.ok (some c)) w')
    (hright : Act.Ends (mount emit' o) u (.ok (some c')) u') (hd : w.document.Linked)
    (ht : w.document.Tidy) (hdocument : u.document = w.document)
    (hpresences : u.presences = w.presences)
    (hagree : ∀ element, w.document.query o.selector = some element →
      w.document.Agrees o.directives w.store.fields u.store.fields element) :
    World.Confined c.directives w' u' := by
  obtain ⟨root, hplan, hstart⟩ := ends_mount_some hleft
  obtain ⟨root', hplan', hstart'⟩ := ends_mount_some hright
  rw [planned, hdocument, hpresences, ← planned, hplan] at hplan'
  cases hplan'
  obtain ⟨element, hquery, hm⟩ := ofElement_of_planned hplan
  obtain ⟨parent, hparent⟩ := Document.mem_children_of_query hquery
  have hbound := hd.bound hparent
  obtain ⟨s', hlaid⟩ := Mirror.laid_ofElement hm
  obtain ⟨hfollows, rfl⟩ := Mirror.follows_ofElement hd hbound hm
  obtain ⟨hfree, halike⟩ := Mirror.agrees_of_document hfollows (hagree _ hquery)
  have hhosts := Mirror.hosts_prepare hd ht hbound hm
  have hprepared : World.Confined root.directives (prepare o.directives root w)
      (prepare o.directives root u) := by
    refine ⟨hhosts, ?_, ?_, ?_⟩
    · rw [prepare, hdocument]
      exact hhosts
    · rw [prepare, prepare, hdocument]
      exact .refl _
    · rw [prepare, prepare, hpresences]
  obtain ⟨ids, hids, rfl⟩ := ends_start_ok.1 hstart
  obtain ⟨ids', hids', -⟩ := ends_start_ok.1 hstart'
  exact activate_confined (Mirror.separate_of_laid hlaid) hfree halike (fun _ => id) hprepared rfl
    rfl hids hids'

end Start

end Component

end LiveMarkup
