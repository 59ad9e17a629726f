import LiveMarkup.Proofs.Component.Checked
import LiveMarkup.Proofs.Component.Scratch
import LiveMarkup.Proofs.Component.Turns

/-!
Presences of a mounted component. In every state between two updates, however deep they nest, the
presence of a conditional element is the truth about the tree, and the journal tells how it came.
-/

namespace LiveMarkup

open LiveMarkup.Expression

variable {σ : Type} {methods : Methods σ} {ds : List Directive} {d₀ : Document} {c : Conditional}
  {w : World σ}

/-- The presence of a conditional element tells where the element is, and each change of presence since
the document was `d₀` has its one entry in the journal. -/
structure Conditional.Truthful (c : Conditional) (d₀ : Document) (w : World σ) : Prop where
  attached : w.presence c.cell = .attached →
    (w.document.node c.element).parent = some c.anchor.parent ∧
      (w.document.node c.anchor.parent).children.count c.element = 1
  detached : w.presence c.cell = .detached →
    (w.document.node c.element).parent = none ∧ ∀ n, c.element ∉ (w.document.node n).children
  told : c.Told d₀ w.document (w.presence c.cell)

/-- Presences are true, and whichever conditional is updated from here is settled as it should be. A
failing update that tells no event changes nothing that is shown. -/
structure World.Faithful (methods : Methods σ) (ds : List Directive) (d₀ : Document)
    (w : World σ) : Prop where
  truthful : ∀ c, .conditional c ∈ ds → c.Truthful d₀ w
  settles : ∀ c, .conditional c ∈ ds → ∀ depth, c.Settles (Run.broadcast depth) methods w
  untouched : ∀ c, .conditional c ∈ ds → ∀ e w',
    Act.Ends (Run.update Run.endless methods (.conditional c)) w (.error e) w' →
      w'.document = w.document ∧ w'.presences = w.presences

theorem World.Placed.truthful (h : w.Placed ds d₀) (hc : .conditional c ∈ ds) : c.Truthful d₀ w where
  attached hp := by
    have hparent : (w.document.node c.element).parent = some c.anchor.parent := by
      rw [h.parent hc, hp]
      rfl
    exact ⟨hparent, by rw [h.consistent.count, if_pos hparent]⟩
  detached hp := by
    have hparent : (w.document.node c.element).parent = none := by
      rw [h.parent hc, hp]
      rfl
    exact ⟨hparent, h.consistent.not_mem_of_parent hparent⟩
  told := h.told hc

theorem faithful_of_kept (hsep : Separate ds) (hinj : Unshared ds)
    (hw : w.Kept methods ds (World.Placed ds d₀)) : w.Faithful methods ds d₀ where
  truthful c hc := hw.holds.truthful hc
  settles c hc depth := by
    have hemit : Concur methods ds (World.Placed ds d₀) (Run.broadcast depth)
        (Run.broadcastChecked (fun _ => True) Run.endless depth) := by
      rw [Run.broadcast_eq_over]
      exact concur_broadcast (upheld_placed hsep hinj d₀) (fun _ => trivial)
        Run.idle_endless.concur depth
    exact settles_of_kept hsep hinj hemit.self hw hc
  untouched c hc e w' h := by
    have hshown : Shown fun v : World σ => v.document = w.document ∧ v.presences = w.presences :=
      fun hd hp h => ⟨hd.trans h.1, hp.trans h.2⟩
    have hfailed := (settles_of_kept hsep hinj Run.idle_endless.concur hw hc).failed.1 h
    exact (upholding_evaluate hshown Run.idle_endless.concur c.predicate _ _ _ ⟨hw.among, rfl, rfl⟩
      hfailed).2.holds

namespace Component

variable {o : MountOptions σ} {root : Mirror} {element : NodeId}

theorem parent_of_query {selector : String} (hd : d₀.Consistent)
    (h : d₀.query selector = some element) :
    d₀.Under Document.root element ∧ ∃ parent, (d₀.node element).parent = some parent := by
  obtain ⟨top, htop, hunder⟩ := Document.under_of_query h
  refine ⟨(Document.Under.child .self htop).trans hunder, ?_⟩
  cases hunder with
  | self => exact ⟨_, (hd.links _ _).1 htop⟩
  | child _ hn => exact ⟨_, (hd.links _ _).1 hn⟩

theorem placed_prepare (hd : w.document.Consistent) {selector : String}
    (hquery : w.document.query selector = some element)
    (hm : Mirror.ofElement o.directives w.document w.presences.size element = some root) :
    (prepare o.directives root w).Placed root.directives w.document ∧ Unshared root.directives := by
  obtain ⟨hunder, parent, hparent⟩ := parent_of_query hd hquery
  have hplaces := Mirror.places_ofElement hd hunder hm
  have hmem {c : Conditional} (hc : .conditional c ∈ root.directives) :
      c ∈ Mirror.conditionalsOf [root] := by
    rwa [← Mirror.mem_conditionalsOf, Mirror.directivesOfAll_singleton]
  have hparts : Mirror.partsOfAll [root] = root.parts := List.append_nil _
  let keep (n : NodeId) : Prop := ∃ c ∈ Mirror.conditionalsOf [root], c.element = n
  have hs : w.document.Spares keep (root.prepare o.directives w.document) := by
    refine .prepareAll o.directives fun p hp => ⟨Mirror.part_lt hd hparent hm (hparts ▸ hp), ?_⟩
    rintro t ht ⟨c, hc, rfl⟩
    exact Mirror.not_mem_texts hd hunder hm hc (hparts ▸ hp) ht
  have hkept {c : Conditional} (hc : .conditional c ∈ root.directives) :
      keep c.element ∧ c.element < w.document.nodes.size := by
    have hp := hplaces.parent c (hmem hc)
    exact ⟨⟨c, hmem hc, rfl⟩, Document.Consistent.lt_of_parent hp⟩
  refine ⟨⟨hs.consistent hd, fun {c} hc => ?_, fun {c} hc => ?_, fun {c} hc => ?_⟩, ?_⟩
  · have hchild := (hd.links _ _).2 (hplaces.parent c (hmem hc))
    exact ⟨(sized_prepare hm).cell hc,
      Nat.lt_of_lt_of_le (Document.lt_of_children hchild) hs.size,
      Nat.lt_of_lt_of_le (hkept hc).2 hs.size, hd.ne_root hchild⟩
  · have hpres : (prepare o.directives root w).presence c.cell = .attached := attached_prepare hm hc
    rw [hpres]
    exact (hs.parent _ (hkept hc).1 (hkept hc).2).trans (hplaces.parent c (hmem hc))
  · have hpres : (prepare o.directives root w).presence c.cell = .attached := attached_prepare hm hc
    rw [hpres]
    exact .start (hs.moves _ (hkept hc).1 (hkept hc).2)
  · exact fun hc hc' heq => List.inj_on_of_nodup_map hplaces.nodup (hmem hc) (hmem hc') heq

/-- What is shown of a component is true between any two updates: before and after each observer is
told of an event, however deep deliveries nest, after each of the updates that mount it, and wherever
it gets to then. With `Run.endless` beyond the depth these are the runs that end; with `Run.untold`
those that never end are followed as deep as one likes. -/
theorem mounted_faithful {beyond : Emit σ} (hb : Run.Idle beyond) {w₀ : World σ}
    (hd : w₀.document.Consistent)
    (hs : ∀ o ∈ w₀.store.observers, ∃ body, o.2 = .script body) {depth : Nat}
    {c : Component σ} {w₁ w : World σ}
    (hmount : Act.Ends (mount (Run.broadcastOver beyond depth) o) w₀ (.ok (some c)) w₁)
    (h : Reaches (Run.broadcastOver beyond depth) c w₁ w) :
    Act.Ends (mount (Run.broadcastChecked (World.Faithful c.methods c.directives w₀.document)
      beyond depth) o) w₀ (.ok (some c)) w₁ ∧
    (∀ n r w', Run.Ends (activate (Run.broadcastOver beyond depth) c.methods o.tracked
        (c.directives.take n)) (prepare o.directives c.root w₀) r w' →
      w'.Faithful c.methods c.directives w₀.document) ∧
    Reaches (Run.broadcastChecked (World.Faithful c.methods c.directives w₀.document) beyond depth)
      c w₁ w ∧
    w.Faithful c.methods c.directives w₀.document := by
  obtain ⟨root, hplan, hstart⟩ := ends_mount_some hmount
  obtain ⟨element, hquery, hm⟩ := ofElement_of_planned hplan
  obtain ⟨s', hlaid⟩ := Mirror.laid_ofElement hm
  have hsep := Mirror.separate_of_laid hlaid
  obtain ⟨hplaced, hinj⟩ := placed_prepare hd hquery hm
  have hP := upheld_placed (σ := σ) hsep hinj w₀.document
  have hfaithful {w : World σ}
      (hw : w.Kept o.methods root.directives (World.Placed root.directives w₀.document)) :
      w.Faithful o.methods root.directives w₀.document := faithful_of_kept hsep hinj hw
  have hemit := concur_broadcast hP hfaithful hb.concur depth
  have hkept : World.Kept o.methods root.directives
      (World.Placed root.directives w₀.document) (prepare o.directives root w₀) := by
    refine ⟨fun ob hob => ?_, hplaced⟩
    obtain ⟨body, hbody⟩ := hs ob hob
    rw [hbody]
    trivial
  obtain ⟨hstart', hw₁⟩ := start_upheld hP hemit rfl hkept hstart
  obtain ⟨ids, -, rfl⟩ := ends_start_ok.1 hstart
  obtain ⟨hreach, hw⟩ := h.upheld hP hemit rfl rfl hw₁
  refine ⟨ends_mount_of_start hplan hstart', fun n r w' hr => hfaithful ?_, hreach, hfaithful hw⟩
  have htake : ∀ d ∈ root.directives.take n, d ∈ root.directives := fun _ => List.mem_of_mem_take
  exact (upholding_activate hP hemit o.tracked htake _ _ _ hkept hr).2

/-- An element that is there while it is calm. If it is not, its predicate first writes that it was asked,
and then fails. -/
def moody : World Unit where
  store := Store.ofFields [("asked", .bool false), ("calm", .bool true)]
  document := Document.ofForest
    [.element () "p" [("show-if", "calm || !asked && ask() && fail()")] [.text () "x"]]
  presences := #[]
  memory := ()

def moodyOptions : MountOptions Unit where
  selector := "p"
  methods := [("ask", fun _ => .writeThen "asked" (.bool true) (.bool true)),
    ("fail", fun _ => .fail (.method "fail" ""))]
  directives := .default
  tracked := true

theorem mounted_faithful_moody :
    ∃ c w₁ w, Act.Ends (mount (Run.broadcastOver Run.endless 3) moodyOptions) moody
        (.ok (some c)) w₁ ∧
      Reaches (Run.broadcastOver Run.endless 3) c w₁ w ∧
      Reaches (Run.broadcastChecked (World.Faithful c.methods c.directives moody.document)
        Run.endless 3) c w₁ w ∧
      w.Faithful c.methods c.directives moody.document := by
  have hsome : (Act.found? (session (Run.broadcastOver Run.endless 3) moodyOptions
      [.set "calm" (.bool false)]) moody).isSome = true := by
    decide +kernel
  obtain ⟨⟨⟨c, rs⟩, w⟩, hfound⟩ := Option.isSome_iff_exists.1 hsome
  obtain ⟨w₁, hmount, hcalls⟩ := ends_session (Act.ends_of_found? hfound)
  have hreach := Reaches.mounted.performAll hcalls
  have hs : ∀ o ∈ moody.store.observers, ∃ body, o.2 = .script body := nofun
  obtain ⟨-, -, hchecked, hw⟩ := mounted_faithful Run.idle_endless
    (Document.consistent_ofForest _) hs hmount hreach
  exact ⟨c, w₁, w, hmount, hreach, hchecked, hw⟩

def moodyFailure :
    Option (Component Unit × World Unit × Conditional × EvalError × World Unit) :=
  (StateT.run (ExceptT.run (mount (Run.broadcast 3) moodyOptions)) moody).bind fun
    | (.ok (some c), w₁) => c.directives.findSome? fun
      | .conditional cond =>
        (StateT.run (ExceptT.run (Run.update (Run.broadcast 3) c.methods (.conditional cond)))
          { w₁ with store := w₁.store.put "calm" (.bool false) }).bind fun
        | (.error e, w) => if w₁.presence cond.cell = .attached ∧
            w.presence cond.cell = .detached ∧ w.document.toHtml ≠ w₁.document.toHtml
          then some (c, w₁, cond, e, w) else none
        | _ => none
      | _ => none
    | _ => none

/-- In the world that a write hands to the first observer, the update fails; but the evaluation told of
a write of its own, and the update that heard of it took the element out. -/
theorem update_failed_moody :
    ∃ c w₁ cond e w, Act.Ends (mount (Run.broadcast 3) moodyOptions) moody (.ok (some c)) w₁ ∧
      .conditional cond ∈ c.directives ∧
      Act.Ends (Run.update (Run.broadcast 3) c.methods (.conditional cond))
        { w₁ with store := w₁.store.put "calm" (.bool false) } (.error e) w ∧
      w₁.presence cond.cell = .attached ∧ w.presence cond.cell = .detached ∧
      w.document.toHtml ≠ w₁.document.toHtml := by
  have h : moodyFailure.isSome = true := by decide +kernel
  obtain ⟨⟨c, w₁, cond, e, w⟩, h⟩ := Option.isSome_iff_exists.1 h
  obtain ⟨⟨r, u⟩, hmount, h⟩ := Option.bind_eq_some_iff.1 h
  rcases r with e' | _ | c'
  · cases h
  · cases h
  · obtain ⟨d, hd, h⟩ := List.exists_of_findSome?_eq_some h
    cases d with
    | interpolation i => cases h
    | conditional cond' =>
      obtain ⟨⟨r', v⟩, hup, h⟩ := Option.bind_eq_some_iff.1 h
      cases r' with
      | ok _ => cases h
      | error e' =>
        obtain ⟨hcond, h⟩ := Option.ite_none_right_eq_some.1 h
        cases h
        exact ⟨c, w₁, cond, e, w, hmount, hd, hup, hcond⟩

end Component

end LiveMarkup
