import LiveMarkup.Proofs.Component.Calls
import LiveMarkup.Proofs.Component.LoneConditionals
import LiveMarkup.Proofs.Component.Standing

/-!
Where the conditional elements call nothing and each is the only one among its siblings, calls leave
the markup that mounting on the same fields would have given at once.
-/

namespace LiveMarkup

open LiveMarkup.Markup LiveMarkup.Expression

variable {σ : Type}

namespace Document

variable {s : Selector}

theorem exists_of_firstInForest {f : Forest NodeId} {element : NodeId}
    (h : firstInForest s f = some element) : ∃ b ∈ f, firstIn s b = some element := by
  induction f with
  | nil => cases h
  | cons b bs ih =>
    rw [firstInForest] at h
    split at h
    · next id hid => exact ⟨b, List.mem_cons_self .., hid.trans h⟩
    · obtain ⟨b', hb', h'⟩ := ih h
      exact ⟨b', List.mem_cons_of_mem _ hb', h'⟩

theorem firstIn_branchWithin (d : Document) (depth : Nat) {n element : NodeId}
    (h : firstIn s (d.branchWithin depth n) = some element) :
    element = n ∨ ∃ parent, element ∈ (d.node parent).children := by
  induction depth generalizing n with
  | zero =>
    rw [branchWithin, firstIn] at h
    split at h
    · exact .inl (Option.some.inj h).symm
    · cases h
  | succ depth ih =>
    simp only [branchWithin] at h
    cases hk : (d.node n).kind with
    | element =>
      simp only [hk, firstIn] at h
      split at h
      · exact .inl (Option.some.inj h).symm
      · obtain ⟨b, hb, h⟩ := exists_of_firstInForest h
        obtain ⟨child, hchild, rfl⟩ := List.mem_map.1 hb
        rcases ih h with rfl | hparent
        · exact .inr ⟨n, hchild⟩
        · exact .inr hparent
    | text =>
      simp only [hk, firstIn] at h
      cases h
    | comment =>
      simp only [hk, firstIn] at h
      cases h

theorem mem_children_of_query {d : Document} {selector : String} {element : NodeId}
    (h : d.query selector = some element) : ∃ parent, element ∈ (d.node parent).children := by
  rw [query] at h
  split at h
  · obtain ⟨b, hb, h⟩ := exists_of_firstInForest h
    obtain ⟨child, hchild, rfl⟩ := List.mem_map.1 hb
    rcases firstIn_branchWithin d _ h with rfl | hparent
    · exact ⟨root, hchild⟩
    · exact hparent
  · cases h

end Document

theorem Expression.Compiled.callFree_of_no_call {ns : List Node}
    (h : ∀ n ∈ ns, n.isCall = false) : (compile ns).CallFree := by
  intro n hn
  cases n with
  | call name arguments negated => cases h _ hn
  | field name negated => trivial
  | _ => trivial

def Directive.CallFree : Directive → Prop
  | .interpolation _ => True
  | .conditional c => c.predicate.CallFree

theorem Mirror.callFree_of_plain {o : DirectiveOptions} {d : Document} {m : Mirror}
    (hd : d.Linked) (hf : m.Follows o d) (hplain : d.Plain o m.part.element) :
    ∀ a ∈ m.directives, a.CallFree := by
  intro a ha
  cases a with
  | interpolation i => trivial
  | conditional c =>
    rw [← directivesOfAll_singleton] at ha
    obtain ⟨-, ⟨source, -, hpred, hcalls⟩, -⟩ :=
      siblings_of_conditional hd hf hplain ((mem_conditionalsOf _).1 ha)
    have hfree := Compiled.callFree_of_no_call hcalls
    show c.predicate.CallFree
    rw [hpred]
    exact hfree

section InStep

variable {methods : Methods σ} {ds : List Directive} {d₀ : Document} {w u : World σ}

theorem World.presence_eq_of_presents {c : Conditional} (hds : Separate ds)
    (hc : .conditional c ∈ ds) (hfree : c.predicate.CallFree)
    (hv : c.predicate.isValid = true) (hf : u.store.fields = w.store.fields)
    (h : w.Presents methods c) (h' : u.Presents methods c) :
    u.presence c.cell = w.presence c.cell := by
  obtain ⟨ns, hns⟩ := hds.compiled hc
  rw [hns] at hfree hv
  obtain ⟨v, hev⟩ := hfree.ends (Run.broadcast 0) methods hv w
  have hro : c.predicate.ReadOnly methods := hns ▸ hfree.readOnly methods
  rw [← hns] at hev
  have hw := h hro 0 w v w rfl hev
  have hu := h' hro 0 w v w hf.symm hev
  have hiff : u.presence c.cell = .attached ↔ w.presence c.cell = .attached := hu.trans hw.symm
  cases hpu : u.presence c.cell with
  | attached => exact (hiff.1 hpu).symm
  | detached =>
    cases hpw : w.presence c.cell with
    | attached =>
      rw [hiff.2 hpw] at hpu
      cases hpu
    | detached => rfl

theorem World.toHtml_eq_of_inStep (hg : Ground ds d₀) (hfree : ∀ d ∈ ds, d.CallFree)
    (hvalid : ∀ d ∈ ds, d.Valid) (h : Standing ds d₀ w.document w.presences)
    (h' : Standing ds d₀ u.document u.presences) (hf : u.store.fields = w.store.fields)
    (hs : ∀ d ∈ ds, w.InStep methods d) (hs' : ∀ d ∈ ds, u.InStep methods d) :
    u.document.toHtml = w.document.toHtml := by
  have hpresence {c : Conditional} (hc : .conditional c ∈ ds) :
      u.presence c.cell = w.presence c.cell := by
    have hfree : c.predicate.CallFree := hfree _ hc
    exact presence_eq_of_presents hg.separate hc hfree (hvalid _ hc) hf (hs _ hc) (hs' _ hc)
  refine h.toHtml_eq hg h' (fun c hc => hpresence hc) fun i hi hgates => ?_
  have hshows : w.Shows i := hs _ hi
  have hshows' : u.Shows i := hs' _ hi
  have hw : w.isGated i = false := World.isGated_eq_false.2 hgates
  have hu : u.isGated i = false := by
    refine World.isGated_eq_false.2 fun g hgate => ?_
    obtain ⟨c, hc, rfl⟩ := hg.gates hi g hgate
    rw [hpresence hc]
    exact hgates _ hgate
  have hget : u.store.get = w.store.get := by
    funext name
    rw [Store.get, Store.get, hf]
  rw [hshows hw, hshows' hu, hget]

end InStep

namespace Component

section Plain

variable (emit : Emit σ) (methods : Methods σ) {ds : List Directive}

theorem ends_update_of_callFree (hds : Separate ds) {d : Directive} (hd : d ∈ ds)
    (hfree : d.CallFree) (hv : d.Valid) (w : World σ) :
    ∃ w', Act.Ends (Run.update emit methods d) w (.ok ()) w' ∧ w'.store = w.store := by
  cases d with
  | interpolation i =>
    have hr := w.reshapes_refreshed i
    exact ⟨w.refreshed i, Act.ends_ofRun.2 ⟨(), rfl, Run.ends_refreshUngated.2 rfl⟩, hr.store⟩
  | conditional c =>
    obtain ⟨ns, hns⟩ := hds.compiled hd
    simp only [Directive.CallFree, Directive.Valid, hns] at hfree hv
    obtain ⟨v, hev⟩ := hfree.ends emit methods hv w
    rw [← hns] at hev
    have hr := w.reshapes_settled c v.truthy
    refine ⟨w.settled c v.truthy, Act.ends_bind.2 (.inr ⟨v, w, hev, ?_⟩), hr.store⟩
    exact Act.ends_ofRun.2 ⟨(), rfl, Run.ends_settle.2 rfl⟩

theorem ends_activate_of_callFree (tracked : Bool) (hds : Separate ds) {ds' : List Directive}
    (hsub : ∀ d ∈ ds', d ∈ ds) (hfree : ∀ d ∈ ds, d.CallFree) (hv : ∀ d ∈ ds, d.Valid)
    (w : World σ) : ∃ ids w', Run.Ends (activate emit methods tracked ds') w (ids, .ok ()) w' ∧
      w'.store.fields = w.store.fields := by
  induction ds' generalizing w with
  | nil => exact ⟨[], w, Run.ends_pure.2 ⟨rfl, rfl⟩, rfl⟩
  | cons d ds' ih =>
    have hd : d ∈ ds := hsub d (List.mem_cons_self ..)
    obtain ⟨w₁, hupdate, hstore⟩ :=
      ends_update_of_callFree emit methods hds hd (hfree d hd) (hv d hd) w
    obtain ⟨ids, w', hrest, hfields⟩ := ih (fun d' hd' => hsub d' (List.mem_cons_of_mem _ hd'))
      { w₁ with store := w₁.store.subscribe (.directive methods tracked d) }
    have hfields₁ : w₁.store.fields = w.store.fields := congrArg Store.fields hstore
    exact ⟨_, w', ends_activate_cons.2 ⟨w₁, ids, hupdate, hrest, rfl⟩, hfields.trans hfields₁⟩

theorem ends_start_of_callFree (tracked : Bool) {root : Mirror} (hds : Separate root.directives)
    (hfree : ∀ d ∈ root.directives, d.CallFree) (hv : ∀ d ∈ root.directives, d.Valid)
    (w : World σ) : ∃ c w', Act.Ends (start emit methods tracked root) w (.ok c) w' ∧
      w'.store.fields = w.store.fields := by
  obtain ⟨ids, w', h, hfields⟩ :=
    ends_activate_of_callFree emit methods tracked hds (fun _ => id) hfree hv w
  exact ⟨_, w', ends_start_ok.2 ⟨ids, h, rfl⟩, hfields⟩

end Plain

section Scratch

variable {keeps : σ → Nat → Prop} {o : MountOptions σ} {root : Mirror} {w₀ w₁ w : World σ}
  {depth : Nat} {calls : List Call} {c : Component σ}
  {rs : List (Except EvalError (Option Value))}

theorem apt_standing {methods : Methods σ} {d₀ : Document} (ho : w₀.Outer keeps methods)
    (hg : Ground root.directives d₀) :
    (setting keeps methods root w₀ (Standing root.directives d₀)).Apt := by
  refine apt_setting ho hg.separate Standing.sized (fun w i hi h => ?_)
    fun w c visible hc h => h.settled hg hc visible
  rw [w.presences_refreshed i]
  exact h.fill (fills_refreshed hi w)

theorem attached_prepare {element : NodeId} {c : Conditional}
    (hm : Mirror.ofElement o.directives w₀.document w₀.presences.size element = some root)
    (hc : .conditional c ∈ root.directives) :
    (prepare o.directives root w₀).presences.getD c.cell .attached = .attached := by
  obtain ⟨s', hlaid⟩ := Mirror.laid_ofElement hm
  rw [← Mirror.directivesOfAll_singleton, Mirror.mem_conditionalsOf] at hc
  have hcell : w₀.presences.size ≤ c.cell := (hlaid.cell_mem hc).1
  simp only [prepare, Array.getD_eq_getD_getElem?, Array.getElem?_append_right hcell,
    List.getElem?_toArray, List.getElem?_map]
  cases root.cells[c.cell - w₀.presences.size]? <;> rfl

theorem standing_prepare {element : NodeId}
    (hm : Mirror.ofElement o.directives w₀.document w₀.presences.size element = some root) :
    Standing root.directives (root.prepare o.directives w₀.document)
      (prepare o.directives root w₀).document (prepare o.directives root w₀).presences where
  size := rfl
  sized := sized_prepare hm
  shell _ := rfl
  data _ _ := rfl
  children hc := (if_pos (attached_prepare hm hc)).symm
  others _ _ := rfl
  free hc hd := by
    rw [attached_prepare hm hc] at hd
    cases hd

theorem standing_of_performAll {element : NodeId} (ho : w₀.Outer keeps o.methods)
    (hg : Ground root.directives (root.prepare o.directives w₀.document))
    (hm : Mirror.ofElement o.directives w₀.document w₀.presences.size element = some root)
    (hstart : Act.Ends (start (Run.broadcast depth) o.methods o.tracked root)
      (prepare o.directives root w₀) (.ok c) w₁)
    (hcalls : Run.Ends (performAll (Run.broadcast depth) c calls) w₁ rs w) :
    Standing root.directives (root.prepare o.directives w₀.document) w.document w.presences ∧
      ∀ d ∈ root.directives, w.InStep o.methods d := by
  have hapt := apt_standing ho hg
  have horderly : (setting keeps o.methods root w₀ (Standing root.directives
      (root.prepare o.directives w₀.document))).Orderly (prepare o.directives root w₀) :=
    orderly_setting ho rfl rfl (standing_prepare hm)
  obtain ⟨-, hmethods, hdirectives, hw₁, hs₁⟩ := Setting.start_in_step hapt rfl horderly hstart
  obtain ⟨hw, -, htends⟩ :=
    Setting.performAll_outward hapt hmethods hdirectives calls _ _ _ hcalls hw₁
  exact ⟨hw.shaped, fun d hd => (htends.inStep_all hs₁ d hd).2⟩

/-- Mounting on the fields that calls leave gives a component, and the same markup. -/
theorem mount_scratch (ho : w₀.Outer keeps o.methods) (hd : w₀.document.Linked)
    (hplain : ∀ element, w₀.document.query o.selector = some element →
      w₀.document.Plain o.directives element)
    (hmount : Act.Ends (mount (Run.broadcast depth) o) w₀ (.ok (some c)) w₁)
    (hcalls : Run.Ends (performAll (Run.broadcast depth) c calls) w₁ rs w)
    {u₀ : World σ} (hu : u₀.Outer keeps o.methods) (hdocument : u₀.document = w₀.document)
    (hpresences : u₀.presences = w₀.presences) (hfields : u₀.store.fields = w.store.fields) :
    ∃ c' u, Act.Ends (mount (Run.broadcast depth) o) u₀ (.ok (some c')) u ∧
      u.document.toHtml = w.document.toHtml := by
  obtain ⟨root, hplan, hstart⟩ := ends_mount_some hmount
  obtain ⟨element, hquery, hm⟩ := ofElement_of_planned hplan
  obtain ⟨parent, hparent⟩ := Document.mem_children_of_query hquery
  have hbound := hd.bound hparent
  have hg := Mirror.ground_prepare hd hbound (hplain element hquery) hm
  obtain ⟨hfollows, rfl⟩ := Mirror.follows_ofElement hd hbound hm
  have hfree := Mirror.callFree_of_plain hd hfollows (hplain _ hquery)
  have hvalid := valid_of_start hstart
  obtain ⟨hstanding, hs⟩ := standing_of_performAll ho hg hm hstart hcalls
  obtain ⟨c', u, hstart', hsame⟩ := ends_start_of_callFree (Run.broadcast depth) o.methods
    o.tracked hg.separate hfree hvalid (prepare o.directives root u₀)
  have hplan' : planned o u₀ = some root := by
    rw [← hplan, planned, planned, hdocument, hpresences]
  rw [← hdocument, ← hpresences] at hm
  rw [← hdocument] at hg
  have hnone : Run.Ends (performAll (Run.broadcast depth) c' []) u [] u :=
    Run.ends_pure.2 ⟨rfl, rfl⟩
  obtain ⟨hstanding', hs'⟩ := standing_of_performAll hu hg hm hstart' hnone
  rw [hdocument] at hg hstanding'
  refine ⟨c', u, ends_mount_of_start hplan' hstart', ?_⟩
  exact World.toHtml_eq_of_inStep hg hfree hvalid hstanding hstanding' (hsame.trans hfields) hs hs'

end Scratch

end Component

end LiveMarkup
