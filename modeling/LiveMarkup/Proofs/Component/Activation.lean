import LiveMarkup.Proofs.Component.Mirrored
import LiveMarkup.Proofs.Component.Subscribers

/-!
The order in which directives are activated. It is the pre-order of the elements, each bringing its
conditional before its interpolation. Building the list with a slot that is reserved for the conditional and
filled behind the rest of its element comes to the same.
-/

namespace LiveMarkup

open LiveMarkup.Markup LiveMarkup.Expression

namespace Document

inductive ElementWalk (d : Document) : List NodeId → List NodeId → Prop
  | nil : ElementWalk d [] []
  | cons {n ns inner rest} : ElementWalk d (d.elementChildren n) inner → ElementWalk d ns rest →
    ElementWalk d (n :: ns) (n :: (inner ++ rest))

end Document

namespace Mirror

mutual

def within : Mirror → List Mirror
  | .mk p ms => .mk p ms :: withinAll ms

def withinAll : List Mirror → List Mirror
  | [] => []
  | m :: ms => within m ++ withinAll ms

end

variable {o : DirectiveOptions} {d : Document} {m s : Mirror} {ms : List Mirror}

theorem withinAll_mk (p : Part) (inner rest : List Mirror) :
    withinAll (.mk p inner :: rest) = .mk p inner :: (withinAll inner ++ withinAll rest) := rfl

theorem withinAll_singleton (m : Mirror) : withinAll [m] = m.within := List.append_nil _

theorem mem_withinAll : s ∈ withinAll ms ↔ ∃ m ∈ ms, s ∈ m.within := by
  induction ms with
  | nil => exact ⟨nofun, nofun⟩
  | cons m ms ih => simp [withinAll, ih]

theorem mem_within_mk {p : Part} : s ∈ within (.mk p ms) ↔ s = .mk p ms ∨ ∃ m ∈ ms, s ∈ m.within := by
  rw [within, List.mem_cons, mem_withinAll]

theorem partsOfAll_eq_map (ms : List Mirror) : partsOfAll ms = (withinAll ms).map part := by
  induction ms using forest_induction with
  | nil => rfl
  | mk p inner rest ihi ihr =>
    rw [partsOfAll_mk, withinAll_mk, List.map_cons, List.map_append, ihi, ihr]
    rfl

theorem directivesOfAll_eq_flatMap (ms : List Mirror) :
    directivesOfAll ms = (withinAll ms).flatMap ownDirectives := by
  induction ms using forest_induction with
  | nil => rfl
  | mk p inner rest ihi ihr =>
    rw [directivesOfAll_mk, withinAll_mk, List.flatMap_cons, List.flatMap_append, ihi, ihr,
      List.append_assoc]

theorem parts_eq_map (m : Mirror) : m.parts = m.within.map part := by
  have h := partsOfAll_eq_map [m]
  rw [withinAll_singleton] at h
  rw [← h]
  exact (List.append_nil _).symm

theorem directives_eq_flatMap (m : Mirror) : m.directives = m.within.flatMap ownDirectives := by
  rw [← directivesOfAll_singleton, directivesOfAll_eq_flatMap, withinAll_singleton]

theorem part_mem_of_within (h : s ∈ m.within) : s.part ∈ m.parts := by
  rw [parts_eq_map]
  exact List.mem_map_of_mem h

theorem Reflects.within (h : m.Reflects o d) : ∀ s ∈ m.within, s.Reflects o d := by
  induction h with
  | mk p ms copies inner each ih =>
    intro s hs
    rcases mem_within_mk.1 hs with rfl | ⟨m, hm, hs⟩
    · exact .mk p ms copies inner each
    · exact ih m hm s hs

theorem elementWalk_of_reflects (h : ∀ m ∈ ms, m.Reflects o d) :
    d.ElementWalk (ms.map fun m => m.part.element) ((partsOfAll ms).map Part.element) := by
  induction ms using forest_induction with
  | nil => exact .nil
  | mk p inner rest ihi ihr =>
    cases h _ (List.mem_cons_self ..) with
    | mk _ _ copies hinner each =>
      have hbelow := ihi each
      rw [hinner] at hbelow
      rw [partsOfAll_mk, List.map_cons, List.map_cons, List.map_append]
      exact .cons hbelow (ihr fun m hm => h m (List.mem_cons_of_mem _ hm))

theorem Reflects.elementWalk (h : m.Reflects o d) :
    d.ElementWalk [m.part.element] (m.parts.map Part.element) := by
  have hall : ∀ m' ∈ [m], m'.Reflects o d := fun m' hm' => List.mem_singleton.1 hm' ▸ h
  have hwalk := elementWalk_of_reflects hall
  simpa only [partsOfAll, List.append_nil, List.map_cons, List.map_nil] using hwalk

/-- Directives in the making; a slot is empty from when it is reserved until it is filled. -/
abbrev Slots := List (Option Directive)

def reserve : Option Condition → StateM Slots (Option Nat)
  | none => return none
  | some _ => modifyGet fun slots => (some slots.length, slots ++ [none])

def push (i : Option Interpolation) : StateM Slots Unit :=
  modify fun slots => slots ++ i.toList.map fun i => some (.interpolation i)

def fill (slot : Option Nat) (c : Option Conditional) : StateM Slots Unit :=
  match slot, c with
  | some k, some c => modify fun slots => slots.set k (some (.conditional c))
  | _, _ => pure ()

mutual

def build : Mirror → StateM Slots (List Interpolation)
  | .mk p ms => do
    let slot ← reserve p.condition
    push p.interpolation
    let inner ← buildAll ms
    let inside := p.interpolation.toList ++ inner
    fill slot (conditionalOf p inside)
    return inside

def buildAll : List Mirror → StateM Slots (List Interpolation)
  | [] => return []
  | m :: ms => do
    let is ← build m
    let js ← buildAll ms
    return is ++ js

end

theorem directives_mk (p : Part) (ms : List Mirror) :
    directives (.mk p ms) =
      ((conditionalOf p (interpolations (.mk p ms))).map Directive.conditional).toList ++
        (p.interpolation.map Directive.interpolation).toList ++ directivesOfAll ms := by
  rw [directives, ownDirectives, part, conditionalOf, Option.map_map]
  rfl

/-- The slot that was reserved is filled with the conditional of the very element, wherever the list has grown
to meanwhile. -/
theorem run_build_mk (p : Part) (slots : Slots)
    (hms : ∀ slots, (buildAll ms).run slots =
      (interpolationsOf ms, slots ++ (directivesOfAll ms).map some)) :
    (build (.mk p ms)).run slots =
      (interpolations (.mk p ms), slots ++ (directives (.mk p ms)).map some) := by
  have hrun : (build (.mk p ms)).run slots =
      (let reserved := (reserve p.condition).run slots
      let built := (buildAll ms).run ((push p.interpolation).run reserved.2).2
      let inside := p.interpolation.toList ++ built.1
      (inside, ((fill reserved.1 (conditionalOf p inside)).run built.2).2)) := rfl
  have hpush (slots : Slots) : ((push p.interpolation).run slots).2 =
      slots ++ (p.interpolation.map Directive.interpolation).toList.map some := by
    cases p.interpolation <;> rfl
  rw [hrun, directives_mk]
  simp only [hpush, hms, ← interpolations_mk, List.map_append]
  cases hc : p.condition with
  | none =>
    have hnone : conditionalOf p (interpolations (.mk p ms)) = none := by
      rw [conditionalOf, hc]
      rfl
    rw [hnone, List.append_assoc]
    rfl
  | some cond =>
    obtain ⟨c, hsome⟩ : ∃ c, conditionalOf p (interpolations (.mk p ms)) = some c := by
      rw [conditionalOf, hc]
      exact ⟨_, rfl⟩
    rw [hsome]
    have hfill (later : Slots) : (slots ++ [none] ++ later).set slots.length (some (.conditional c)) =
        slots ++ some (.conditional c) :: later := by
      rw [List.append_assoc, List.set_append_right _ _ (Nat.le_refl _), Nat.sub_self]
      rfl
    rw [List.append_assoc, List.append_assoc]
    exact congrArg (Prod.mk _) (hfill _)

theorem run_buildAll (ms : List Mirror) (slots : Slots) : (buildAll ms).run slots =
    (interpolationsOf ms, slots ++ (directivesOfAll ms).map some) := by
  induction ms using forest_induction generalizing slots with
  | nil => exact congrArg (Prod.mk []) (List.append_nil _).symm
  | mk p inner rest ihi ihr =>
    have hrun : (buildAll (.mk p inner :: rest)).run slots =
        (let first := (build (.mk p inner)).run slots
        let others := (buildAll rest).run first.2
        (first.1 ++ others.1, others.2)) := rfl
    have hcons : directivesOfAll (.mk p inner :: rest) =
        directives (.mk p inner) ++ directivesOfAll rest := rfl
    rw [hrun]
    simp only [run_build_mk p _ ihi, ihr, hcons, List.map_append, List.append_assoc]
    rw [← List.singleton_append, interpolationsOf_append, interpolationsOf_singleton]

theorem run_build (m : Mirror) (slots : Slots) :
    m.build.run slots = (m.interpolations, slots ++ m.directives.map some) := by
  obtain ⟨p, ms⟩ := m
  exact run_build_mk p slots (run_buildAll ms)

mutual

theorem condition_plan (o : DirectiveOptions) (gates : List CellId) (parent : Option NodeId)
    (a : Anchor) (b : Branch NodeId) {s s' : Supply} {m : Option Mirror}
    (h : (plan o gates parent (some a) b).run s = (m, s')) :
    ∀ p ∈ partsOfAll m.toList, p.condition.map Condition.predicate =
      (p.attributes.find? o.showIf).map compileSource := by
  cases b with
  | element element tag written children =>
    obtain ⟨m, rfl⟩ : ∃ m', m = some m' := by
      cases h
      exact ⟨_, rfl⟩
    obtain ⟨p, s₁, ms, hp, hms, rfl⟩ := run_plan_element o gates parent (some a) element tag written
      children h
    have hinner := condition_planForest o _ element none children hms
    have hown : p.condition.map Condition.predicate =
        (p.attributes.find? o.showIf).map compileSource := by
      obtain ⟨s₂, hc, -⟩ := run_planPart _ _ _ _ _ _ _ _ _ hp
      have hattributes : p.attributes = written.remove o.onClick := by
        cases hp
        rfl
      rw [hattributes]
      cases hsource : (written.remove o.onClick).find? o.showIf with
      | none =>
        rw [hsource] at hc
        rw [← (Prod.mk.inj hc).1]
        rfl
      | some source =>
        rw [hsource] at hc
        rw [← (Prod.mk.inj hc).1]
        rfl
    intro q hq
    rw [Option.toList_some, partsOfAll_mk, show partsOfAll [] = [] from rfl, List.append_nil] at hq
    rcases List.mem_cons.1 hq with rfl | hq
    · exact hown
    · exact hinner q hq
  | text label data =>
    cases h
    exact fun p hp => absurd hp List.not_mem_nil
  | comment label data =>
    cases h
    exact fun p hp => absurd hp List.not_mem_nil

theorem condition_planForest (o : DirectiveOptions) (gates : List CellId) (parent : NodeId)
    (prev : Option NodeId) (f : Forest NodeId) {s s' : Supply} {ms : List Mirror}
    (h : (planForest o gates parent prev f).run s = (ms, s')) :
    ∀ p ∈ partsOfAll ms, p.condition.map Condition.predicate =
      (p.attributes.find? o.showIf).map compileSource := by
  cases f with
  | nil =>
    cases h
    exact fun p hp => absurd hp List.not_mem_nil
  | cons b bs =>
    cases h
    intro p hp
    rw [partsOfAll_append] at hp
    rcases List.mem_append.1 hp with hp | hp
    · exact condition_plan o gates (some parent) _ b rfl p hp
    · exact condition_planForest o gates parent _ bs rfl p hp

end

theorem exists_anchor (hd : d.Consistent) {n parent : NodeId} (hn : d.isElement n = true)
    (hp : (d.node n).parent = some parent) : ∃ a, Anchor.of? d n = some a := by
  have hmem : n ∈ d.elementChildren parent :=
    Document.mem_elementChildren.2 ⟨(hd.links _ _).2 hp, hn⟩
  obtain ⟨i, hi⟩ := Option.isSome_iff_exists.1 (List.isSome_idxOf?.2 hmem)
  refine ⟨⟨parent, if i = 0 then none else (d.elementChildren parent)[i - 1]?,
    (d.elementChildren parent)[i + 1]?⟩, ?_⟩
  rw [Anchor.of?, hp]
  simp only [hi]

end Mirror

section Texts

open Document

variable {o : DirectiveOptions} {d : Document} {ps : List Part} {p : Part} {i : Interpolation}

theorem merges_prepareAll (hd : d.Consistent) (hps : ∀ p ∈ ps, p.Copies o d ∧ p.element < d.nodes.size)
    (hnodup : (ps.map Part.element).Nodup)
    (hnodes : (ps.filterMap Part.interpolation).map Interpolation.node =
      List.range' d.nodes.size (ps.filterMap Part.interpolation).length)
    (hp : p ∈ ps) (hi : p.interpolation = some i) :
    d.Merges (ps.foldl (fun d p => p.prepare o d) d) p.element i.node := by
  induction ps generalizing d with
  | nil => cases hp
  | cons q qs ih =>
    obtain ⟨hcopies, hlt⟩ := hps q (List.mem_cons_self ..)
    obtain ⟨hnot, hapart⟩ := List.nodup_cons.1 hnodup
    have hq := hcopies.prepares hd hlt
    have hne {r : Part} (hr : r ∈ qs) : r.element ≠ q.element := fun heq =>
      hnot (heq ▸ List.mem_map_of_mem hr)
    have hqs (r : Part) (hr : r ∈ qs) :
        r.Copies o (q.prepare o d) ∧ r.element < (q.prepare o d).nodes.size := by
      obtain ⟨hr', hltr⟩ := hps r (List.mem_cons_of_mem _ hr)
      exact ⟨hr'.rewrites hd hq hltr (hne hr), Nat.lt_of_lt_of_le hltr hq.size⟩
    have hsize := q.size_prepare o d
    rw [List.filterMap_cons] at hnodes
    rcases List.mem_cons.1 hp with rfl | hp
    · rw [hi] at hnodes
      have hnode : i.node = d.nodes.size := (List.cons.inj hnodes).1
      have hrest := rewrites_prepareAll hq.consistent hqs hapart
      rw [hnode, List.foldl_cons]
      refine hrest.merges_later hq.consistent hnot (fun hmem => ?_)
        (Part.merges_prepare hd hcopies hlt hi)
      obtain ⟨r, hr, heq⟩ := List.mem_map.1 hmem
      exact Nat.ne_of_lt (hps r (List.mem_cons_of_mem _ hr)).2 heq
    · have hnodes' : (qs.filterMap Part.interpolation).map Interpolation.node =
          List.range' (q.prepare o d).nodes.size (qs.filterMap Part.interpolation).length := by
        cases hqi : q.interpolation with
        | none =>
          rw [hqi] at hnodes hsize
          rw [hsize]
          exact hnodes
        | some j =>
          rw [hqi] at hnodes hsize
          rw [hsize]
          exact (List.cons.inj hnodes).2
      exact hq.merges_earlier hd (hne hp) (ih hq.consistent hqs hapart hnodes' hp)

end Texts

structure Own where
  conditional : Option Conditional
  interpolation : Option Interpolation

def Own.directives (own : Own) : List Directive :=
  (own.conditional.map Directive.conditional).toList ++
    (own.interpolation.map Directive.interpolation).toList

/-- An element has a conditional if it is written so, and an interpolation if its texts hold a placeholder;
this one writes the text that stands for them in the prepared document. -/
structure Own.Of (o : DirectiveOptions) (d d' : Document) (n : NodeId) (own : Own) : Prop where
  predicate : own.conditional.map Conditional.predicate = (d.showIf? o n).map compileSource
  conditional : ∀ c ∈ own.conditional, c.element = n ∧ c.anchor.Marks d n
  template : own.interpolation.map Interpolation.template =
    Template.ofText? o.opening o.closing (d.ownText n)
  interpolation : ∀ i ∈ own.interpolation, d.Merges d' n i.node

namespace Mirror

def own (m : Mirror) : Own := ⟨conditionalOf m.part m.interpolations, m.part.interpolation⟩

theorem ownDirectives_eq (m : Mirror) : m.ownDirectives = m.own.directives := by
  rw [ownDirectives, Own.directives, own, conditionalOf, Option.map_map]
  rfl

variable {o : DirectiveOptions} {d : Document} {m s : Mirror} {firstCell : CellId} {element : NodeId}

theorem own_of_within (hd : d.Consistent) (hroot : d.Under Document.root element) {parent : NodeId}
    (hparent : (d.node element).parent = some parent) (hn : d.isElement element = true)
    (hm : ofElement o d firstCell element = some m) (hs : s ∈ m.within) :
    s.own.Of o d (m.prepare o d) s.part.element := by
  have hlt := Document.Consistent.lt_of_parent hparent
  have hdeep := hd.deep_children hroot hlt
  obtain ⟨m', hm', helement, hreflects⟩ := exists_ofElement hdeep hn firstCell
  obtain rfl := Option.some.inj (hm.symm.trans hm')
  obtain ⟨hfollows, -⟩ := follows_of_deep hdeep hm
  have hp := part_mem_of_within hs
  have hcopies := hreflects.copies _ hp
  refine ⟨?_, fun c hc => ?_, hcopies.template, fun i hi => ?_⟩
  · obtain ⟨a, ha⟩ := exists_anchor hd hn hparent
    obtain ⟨s', hrun⟩ := run_of_ofElement hm
    rw [ha] at hrun
    have hmem : s.part ∈ partsOfAll (some m).toList := List.mem_append_left _ hp
    have hcondition := condition_plan o [] _ a _ hrun _ hmem
    rw [hcopies.attributes] at hcondition
    rw [own, conditionalOf, Option.map_map]
    exact hcondition
  · obtain ⟨cond, hcond, rfl⟩ := Option.map_eq_some_iff.1 (Option.mem_def.1 hc)
    exact ⟨rfl, ((hfollows.reads _ hp).condition cond hcond).1⟩
  · obtain ⟨s', hlaid⟩ := laid_ofElement hm
    have hnodes := hlaid.nodes
    rw [interpolationsOf_singleton] at hnodes
    refine merges_prepareAll hd (fun p hp => ⟨hreflects.copies p hp, ?_⟩)
      (hreflects.nodup hd (helement.symm ▸ hroot)) hnodes hp hi
    exact (hreflects.elementUnder p hp).lt hd (helement.symm ▸ hlt)

end Mirror

namespace Component

open Document

variable {σ : Type} {w : World σ} {o : MountOptions σ} {target : NodeId}

/-- The directives of a mirror are those that its elements bring, one element after the other in pre-order.
With slots, none stays empty and each holds what belongs there. -/
structure Activates (o : DirectiveOptions) (w : World σ) (target : NodeId) (root : Mirror) : Prop where
  walk : ∃ walk owns, w.document.ElementWalk [target] walk ∧
    List.Forall₂ (Own.Of o w.document (prepare o root w).document) walk owns ∧
      root.directives = owns.flatMap Own.directives
  built : root.build.run [] = (root.interpolations, root.directives.map some)

theorem activates_of_ofElement (hd : w.document.Consistent)
    (hquery : w.document.query o.selector = some target) {root : Mirror}
    (hm : Mirror.ofElement o.directives w.document w.presences.size target = some root) :
    Activates o.directives w target root := by
  obtain ⟨hroot, parent, hparent⟩ := parent_of_query hd hquery
  have hn := isElement_of_query hd hquery
  obtain ⟨root', hm', rfl, hreflects⟩ := Mirror.exists_ofElement (o := o.directives)
    (hd.deep_children hroot (Consistent.lt_of_parent hparent)) hn w.presences.size
  obtain rfl := Option.some.inj (hm.symm.trans hm')
  refine ⟨⟨root.parts.map Part.element, root.within.map Mirror.own, hreflects.elementWalk, ?_, ?_⟩,
    root.run_build []⟩
  · rw [Mirror.parts_eq_map, List.map_map, List.forall₂_map_left_iff, List.forall₂_map_right_iff,
      List.forall₂_same]
    exact fun s hs => Mirror.own_of_within hd hroot hparent hn hm hs
  · rw [Mirror.directives_eq_flatMap, List.flatMap_map]
    exact List.flatMap_congr fun s _ => s.ownDirectives_eq

theorem exists_root (hd : w.document.Consistent)
    (hquery : w.document.query o.selector = some target) :
    ∃ root, Mirror.ofElement o.directives w.document w.presences.size target = some root ∧
      ∀ emit, (∀ r w', Act.Ends (mount emit o) w r w' ↔
        Act.Ends (start emit o.methods o.tracked root >>= fun c => pure (some c))
          (prepare o.directives root w) r w') ∧
        ∀ c w', Act.Ends (mount emit o) w (.ok (some c)) w' →
          ∃ ids, Run.Ends (activate emit o.methods o.tracked root.directives)
            (prepare o.directives root w) (ids, .ok ()) w' ∧
              c = ⟨root, o.methods, root.directives, ids⟩ := by
  obtain ⟨hroot, parent, hparent⟩ := parent_of_query hd hquery
  obtain ⟨root, hm, -, -⟩ := Mirror.exists_ofElement
    (hd.deep_children hroot (Consistent.lt_of_parent hparent)) (isElement_of_query hd hquery)
    w.presences.size
  have hplan : planned o w = some root := Option.bind_eq_some_iff.2 ⟨target, hquery, hm⟩
  refine ⟨root, hm, fun emit => ⟨fun r w' => ?_, fun c w' hc => ?_⟩⟩
  · rw [ends_mount, hplan]
  · obtain ⟨root', hplan', hstart⟩ := ends_mount_some hc
    obtain rfl := Option.some.inj (hplan'.symm.trans hplan)
    exact ends_start_ok.1 hstart

/-- Mounting activates the directives of the elements in pre-order, each conditional before the interpolation
of its element, and subscribes them in this order. -/
theorem mount_preorder (hd : w.document.Consistent)
    (hquery : w.document.query o.selector = some target) :
    ∃ root, Activates o.directives w target root ∧
      (∀ emit r w', Act.Ends (mount emit o) w r w' ↔
        Act.Ends (start emit o.methods o.tracked root >>= fun c => pure (some c))
          (prepare o.directives root w) r w') ∧
      ∀ depth c w', Act.Ends (mount (Run.broadcast depth) o) w (.ok (some c)) w' →
        c.directives = root.directives ∧
          Run.Ends (activate (Run.broadcast depth) o.methods o.tracked root.directives)
            (prepare o.directives root w) (c.subscriptions, .ok ()) w' ∧
          c.subscriptions.length = root.directives.length ∧ c.subscriptions.Pairwise (· < ·) ∧
          ∃ l, w.Gains l
            (c.subscriptions.zip (root.directives.map (.directive o.methods o.tracked))) w' := by
  obtain ⟨root, hm, hmount⟩ := exists_root hd hquery
  refine ⟨root, activates_of_ofElement hd hquery hm, fun emit => (hmount emit).1,
    fun depth c w' hc => ?_⟩
  obtain ⟨l, ⟨hgains, hactivated⟩, -⟩ := mount_gains hc
  obtain ⟨ids, hids, rfl⟩ := (hmount _).2 c w' hc
  have hone := hactivated _ (List.mem_singleton_self _)
  rw [Resident.ofMount, List.flatMap_singleton] at hgains
  exact ⟨rfl, hids, hone.length, hone.increasing, l, hgains⟩

def nested : World Unit where
  store := Store.ofFields [("open", .bool true), ("more", .bool true)]
  document := Document.ofForest [.element () "div" [("show-if", "open")] [.text () "\x7b\x7btitle\x7d\x7d",
    .element () "section" [("show-if", "more")] [.element () "p" [] [.text () "\x7b\x7bbody\x7d\x7d"]]]]
  presences := #[]
  memory := ()

def nestedOptions : MountOptions Unit where
  selector := "div"
  methods := []
  directives := .default
  tracked := true

theorem mount_preorder_nested :
    nested.document.query "div" = some 1 ∧
    ∃ root c w, Act.Ends (mount (Run.broadcast 1) nestedOptions) nested (.ok (some c)) w ∧
      Activates .default nested 1 root ∧ c.directives = root.directives ∧
      (c.directives.map fun
        | .conditional c => c.element
        | .interpolation i => i.node) = [1, 6, 3, 7] ∧ c.subscriptions = [0, 1, 2, 3] := by
  have hquery : nested.document.query "div" = some 1 := by decide +kernel
  have hrun : (Act.found? (mount (Run.broadcast 1) nestedOptions) nested).map
      (fun r => (r.1.directives.map fun
        | .conditional c => c.element
        | .interpolation i => i.node, r.1.subscriptions)) = some ([1, 6, 3, 7], [0, 1, 2, 3]) := by
    decide +kernel
  obtain ⟨⟨c, w⟩, hfound, heq⟩ := Option.map_eq_some_iff.1 hrun
  have h := Act.ends_of_found? hfound
  have hd : nested.document.Consistent := Document.consistent_ofForest _
  obtain ⟨root, hactivates, -, hroot⟩ := mount_preorder (o := nestedOptions) hd hquery
  obtain ⟨horder, hids⟩ := Prod.mk.inj heq
  exact ⟨hquery, root, c, w, h, hactivates, (hroot 1 c w h).1, horder, hids⟩

end Component

end LiveMarkup
