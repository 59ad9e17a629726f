import LiveMarkup.Proofs.Component.Calls
import LiveMarkup.Proofs.Reactive.Quiet

/-!
A mounted component at rest: between calls its texts and its conditional elements are as the store
says.
-/

namespace LiveMarkup

open LiveMarkup.Expression

namespace Component

variable {σ : Type} {keeps : σ → Nat → Prop} {o : MountOptions σ} {w₀ w : World σ} {depth : Nat}
  {calls : List Call} {c : Component σ} {rs : List (Except EvalError (Option Value))}

theorem in_step_of_session (ho : w₀.Outer keeps o.methods)
    (h : Act.Ends (session (Run.broadcast depth) o calls) w₀ (.ok (some (c, rs))) w) :
    ∀ d ∈ c.directives, w.InStep o.methods d := by
  obtain ⟨w₁, hmount, hcalls⟩ := ends_session h
  obtain ⟨root, hplan, hstart⟩ := ends_mount_some hmount
  obtain ⟨element, -, hroot⟩ := ofElement_of_planned hplan
  obtain ⟨s', hlaid⟩ := Mirror.laid_ofElement hroot
  have hapt := apt_sized ho (Mirror.separate_of_laid hlaid)
  have horderly : (setting keeps o.methods root w₀ (Sized root.directives)).Orderly
      (prepare o.directives root w₀) := orderly_setting ho rfl rfl (sized_prepare hroot)
  obtain ⟨-, hm, hd, hw₁, hs₁⟩ := Setting.start_in_step hapt rfl horderly hstart
  have htends := (Setting.performAll_outward hapt hm hd calls _ _ _ hcalls hw₁).2.2
  intro d hmem
  rw [hd] at hmem
  exact (htends.inStep_all hs₁ d hmem).2

/-- After mounting, and after any calls, failed or not, each text that is not gated is its template
filled in, and each element whose predicate only reads is attached just when it has a truthy value. -/
theorem quiescent_in_step (ho : w₀.Outer keeps o.methods)
    (h : Act.Ends (session (Run.broadcast depth) o calls) w₀ (.ok (some (c, rs))) w) :
    (∀ i, .interpolation i ∈ c.directives →
      (∀ cell ∈ i.gates, w.presence cell = .attached) →
      Run.Ends (i.template.render Run.getField) w (w.document.node i.node).data w) ∧
    ∀ cond, .conditional cond ∈ c.directives → cond.predicate.ReadOnly o.methods →
      ∀ v w', Act.Ends (cond.predicate.evaluate (Run.scope (Run.broadcast depth) o.methods)) w
        (.ok v) w' → (w.presence cond.cell = .attached ↔ v.truthy = true) := by
  have hs := in_step_of_session ho h
  constructor
  · intro i hi hg
    have hshows : w.Shows i := hs _ hi
    exact Run.ends_render.2 ⟨hshows (World.isGated_eq_false.2 hg), rfl⟩
  · intro cond hc hro v w' hv
    have hp : w.Presents o.methods cond := hs _ hc
    exact hp hro depth w v w' rfl hv

def lamp : World Unit where
  store := (Store.ofFields []).subscribe (.script fun e =>
    if e.field = "by" then .write "lit" (.bool true) fun _ => .give .undefined else .give .undefined)
  document := Document.parse "<div><p show-if=\"lit\">\x7b\x7bby\x7d\x7d</p></div>"
  presences := #[]
  memory := ()

theorem outer_lamp (keeps : Unit → Nat → Prop) (h : ∀ id, ¬keeps () id) :
    lamp.Outer keeps ([] : Methods Unit) where
  issued := by
    intro o ho
    cases List.mem_singleton.1 ho
    decide
  kept := by
    intro id hid
    exact (h id hid).elim
  scripts := by
    intro o ho
    cases List.mem_singleton.1 ho
    refine ⟨_, rfl, fun e => ?_⟩
    split
    · intro r
      trivial
    · trivial
  methods := by
    intro name method hm
    cases hm

def lampOptions : MountOptions Unit := ⟨"div", [], .default, true⟩

theorem quiescent_in_step_lit :
    ∃ c rs w, Act.Ends (session (Run.broadcast 3) lampOptions
        [.set "by" (.string "sun"), .dispatch "dim()"]) lamp (.ok (some (c, rs))) w ∧
      (∀ i, .interpolation i ∈ c.directives →
        (∀ cell ∈ i.gates, w.presence cell = .attached) →
        Run.Ends (i.template.render Run.getField) w (w.document.node i.node).data w) ∧
      ∀ cond, .conditional cond ∈ c.directives → cond.predicate.ReadOnly lampOptions.methods →
        ∀ v w', Act.Ends (cond.predicate.evaluate
            (Run.scope (Run.broadcast 3) lampOptions.methods)) w (.ok v) w' →
          (w.presence cond.cell = .attached ↔ v.truthy = true) := by
  have hsome : (Act.found? (session (Run.broadcast 3) lampOptions
      [.set "by" (.string "sun"), .dispatch "dim()"]) lamp).isSome = true := by decide +kernel
  have ho : lamp.Outer (fun _ _ => False) lampOptions.methods := outer_lamp _ fun _ => id
  obtain ⟨⟨⟨c, rs⟩, w⟩, hfound⟩ := Option.isSome_iff_exists.1 hsome
  have h := Act.ends_of_found? hfound
  exact ⟨c, rs, w, h, quiescent_in_step ho h⟩

def asked : World Unit where
  store := (Store.ofFields []).subscribe (.script fun e =>
    if e.field = "ask" then .writeThen "seen" (.bool true) .null else .give .null)
  document := Document.ofForest
    [.element () "div" [] [.element () "p" [("show-if", "go && !seen && ask()")] []]]
  presences := #[]
  memory := ()

def askMethods : Methods Unit := [("ask", fun _ => .announce "ask" fun _ => .give (.bool true))]

/-- A conditional of the component that is attached in `w`, while its predicate is false. -/
def liar? (c : Component Unit) (w : World Unit) : Option (Conditional × Value × World Unit) :=
  c.directives.findSome? fun
    | .conditional cond =>
      (StateT.run (ExceptT.run (cond.predicate.evaluate
        (Run.scope (Run.broadcast 4) askMethods))) w).bind fun
      | (.ok v, w') => if w.presence cond.cell = .attached ∧ v.truthy = false
        then some (cond, v, w') else none
      | (.error _, _) => none
    | .interpolation _ => none

theorem exists_of_liar? {c : Component Unit} {w : World Unit} (h : (liar? c w).isSome = true) :
    ∃ cond v w', .conditional cond ∈ c.directives ∧
      Act.Ends (cond.predicate.evaluate (Run.scope (Run.broadcast 4) askMethods)) w (.ok v) w' ∧
      w.presence cond.cell = .attached ∧ v.truthy = false := by
  obtain ⟨⟨cond, v, w'⟩, h⟩ := Option.isSome_iff_exists.1 h
  obtain ⟨d, hd, h⟩ := List.exists_of_findSome?_eq_some h
  cases d with
  | interpolation i => cases h
  | conditional cond' =>
    obtain ⟨⟨r, w₁⟩, hev, h⟩ := Option.bind_eq_some_iff.1 h
    cases r with
    | error e => cases h
    | ok v' =>
      obtain ⟨hcond, h⟩ := Option.ite_none_right_eq_some.1 h
      cases h
      exact ⟨cond, v, w', hd, hev, hcond⟩

/-- An element stays attached though its predicate is false, where a method that it calls announces
something: an observer writes a field meanwhile that was looked at before. -/
theorem attached_though_false :
    (∀ name method, askMethods.find? name = some method →
      ∀ vs, (method vs).Sparing ∧ (method vs).Answers) ∧
    asked.Outer (fun _ _ => False) askMethods ∧
    ∃ c rs w cond v w', Act.Ends (session (Run.broadcast 4) ⟨"div", askMethods, .default, true⟩
        [.set "go" (.bool true)]) asked (.ok (some (c, rs))) w ∧
      .conditional cond ∈ c.directives ∧
      Act.Ends (cond.predicate.evaluate (Run.scope (Run.broadcast 4) askMethods)) w (.ok v) w' ∧
      w.presence cond.cell = .attached ∧ v.truthy = false := by
  have hmethods (name : String) (method) (hm : askMethods.find? name = some method) (vs) :
      (method vs).Sparing ∧ (method vs).Answers := by
    cases List.mem_singleton.1 (Table.mem_of_find? hm)
    have hgives : Script.Gives (.ok (.bool true))
        (.announce "ask" fun _ => .give (.bool true) : Script Unit) := fun _ => rfl
    exact ⟨⟨rfl, fun _ => trivial⟩, hgives.answers⟩
  refine ⟨hmethods, ?_, ?_⟩
  · refine ⟨fun o ho => ?_, fun _ => False.elim, fun o ho => ?_, fun name method hm vs => ?_⟩
    · cases List.mem_singleton.1 ho
      decide
    · cases List.mem_singleton.1 ho
      refine ⟨_, rfl, fun e => ?_⟩
      split
      · intro r
        cases r <;> trivial
      · trivial
    · exact (hmethods name method hm vs).1.honest _
  · have hrun : (Act.found? (session (Run.broadcast 4) ⟨"div", askMethods, .default, true⟩
        [.set "go" (.bool true)]) asked).map (fun r => (liar? r.1.1 r.2).isSome) = some true := by
      decide +kernel
    obtain ⟨⟨⟨c, rs⟩, w⟩, hfound, hliar⟩ := Option.map_eq_some_iff.1 hrun
    obtain ⟨cond, v, w', h⟩ := exists_of_liar? hliar
    exact ⟨c, rs, w, cond, v, w', Act.ends_of_found? hfound, h⟩

end Component

end LiveMarkup
