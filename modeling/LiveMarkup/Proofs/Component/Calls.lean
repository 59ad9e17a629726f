import LiveMarkup.Proofs.Component.Apart
import LiveMarkup.Proofs.Component.Delivery

/-!
Calls to a store and its component, one after another. Mounting puts every directive in step, and
each call, whether it fails or not, leaves all of them in step.
-/

namespace LiveMarkup

open LiveMarkup.Expression

variable {σ α : Type}

def World.without (w : World σ) (ids : List Nat) : World σ :=
  { w with store :=
    { w.store with observers := w.store.observers.filter fun o => !ids.contains o.1 } }

namespace World

theorem without_nil (w : World σ) : w.without [] = w := by
  have h : w.store.observers.filter (fun o => !([] : List Nat).contains o.1) = w.store.observers :=
    List.filter_eq_self.2 fun _ _ => rfl
  rw [without, h]

theorem without_cons (w : World σ) (id : Nat) (ids : List Nat) :
    World.without { w with store := w.store.unsubscribe id } ids = w.without (id :: ids) := by
  have h : (w.store.observers.filter (·.1 != id)).filter (fun o => !ids.contains o.1) =
      w.store.observers.filter fun o => !(id :: ids).contains o.1 := by
    rw [List.filter_filter]
    refine List.filter_congr fun o _ => ?_
    rw [List.contains_cons, Bool.not_or, Bool.and_comm]
    rfl
  rw [without, without, ← h]
  rfl

end World

namespace Component

inductive Call where
  | set (field : String) (value : Value)
  | notify (field : String)
  | dispatch (text : String)
  | click (element : NodeId)
  | render

def perform (emit : Emit σ) (c : Component σ) : Call → Act σ (Option Value)
  | .set field value => do
    let changed ← Run.setField emit field value
    return some (.bool changed)
  | .notify field => do
    Run.announce emit field
    return none
  | .dispatch text => do
    let v ← c.dispatch emit text
    return some v
  | .click element => c.click emit element
  | .render => do
    c.render emit
    return none

def performAll (emit : Emit σ) (c : Component σ) :
    List Call → Run σ (List (Except EvalError (Option Value)))
  | [] => return []
  | a :: as => do
    let r ← (perform emit c a).run
    let rs ← performAll emit c as
    return r :: rs

def session (emit : Emit σ) (o : MountOptions σ) (calls : List Call) :
    Act σ (Option (Component σ × List (Except EvalError (Option Value)))) := do
  match ← mount emit o with
  | none => return none
  | some c => do
    let rs ← Act.ofRun (performAll emit c calls)
    return some (c, rs)

section Start

variable {emit : Emit σ} {methods : Methods σ} {tracked : Bool} {w w' : World σ}

theorem ends_activate_cons {d : Directive} {ds : List Directive} {ids : List Nat} :
    Run.Ends (activate emit methods tracked (d :: ds)) w (ids, .ok ()) w' ↔
      ∃ w₁ ids', Act.Ends (Run.update emit methods d) w (.ok ()) w₁ ∧
        Run.Ends (activate emit methods tracked ds)
          { w₁ with store := w₁.store.subscribe (.directive methods tracked d) } (ids', .ok ()) w' ∧
        ids = w₁.store.issued :: ids' := by
  constructor
  · intro h
    obtain ⟨r, w₁, hr, h⟩ := Run.ends_bind.1 h
    cases r with
    | error e =>
      obtain ⟨hres, -⟩ := Run.ends_pure.1 h
      cases (Prod.mk.inj hres).2
    | ok _ =>
      obtain ⟨id, w₂, hid, h⟩ := Run.ends_bind.1 h
      obtain ⟨rfl, rfl⟩ := Run.ends_subscribe.1 hid
      obtain ⟨⟨ids', r'⟩, w₃, hrest, h⟩ := Run.ends_bind.1 h
      obtain ⟨hres, rfl⟩ := Run.ends_pure.1 h
      obtain ⟨hids, hok⟩ := Prod.mk.inj hres
      rw [← hok] at hrest
      exact ⟨w₁, ids', hr, hrest, hids⟩
  · rintro ⟨w₁, ids', hr, hrest, rfl⟩
    exact Run.ends_bind.2 ⟨_, w₁, hr, Run.ends_bind.2 ⟨_, _, Run.ends_subscribe.2 ⟨rfl, rfl⟩,
      Run.ends_bind.2 ⟨_, w', hrest, Run.ends_pure.2 ⟨rfl, rfl⟩⟩⟩⟩

theorem ends_start_ok {root : Mirror} {c : Component σ} :
    Act.Ends (start emit methods tracked root) w (.ok c) w' ↔
      ∃ ids, Run.Ends (activate emit methods tracked root.directives) w (ids, .ok ()) w' ∧
        c = ⟨root, methods, root.directives, ids⟩ := by
  constructor
  · intro h
    obtain ⟨⟨ids, r⟩, w₁, hids, h⟩ := Act.ends_ofRun_bind.1 h
    cases r with
    | error e =>
      obtain ⟨_, w₂, -, h⟩ := Act.ends_ofRun_bind.1 h
      cases (Act.ends_throw.1 h).1
    | ok _ =>
      obtain ⟨hc, rfl⟩ := Act.ends_pure.1 h
      exact ⟨ids, hids, Except.ok.inj hc⟩
  · rintro ⟨ids, hids, rfl⟩
    exact Act.ends_ofRun_bind.2 ⟨_, w', hids, Act.ends_pure.2 ⟨rfl, rfl⟩⟩

theorem ends_unsubscribeAll {ids : List Nat} {u : Unit} :
    Run.Ends (unsubscribeAll ids) w u w' ↔ w' = w.without ids := by
  induction ids generalizing w with
  | nil =>
    rw [World.without_nil]
    exact Run.ends_pure.trans (and_iff_right rfl)
  | cons id ids ih =>
    rw [← World.without_cons, ← ih]
    refine Run.ends_bind.trans ⟨?_, fun h => ⟨_, _, Run.ends_unsubscribe.2 ⟨rfl, rfl⟩, h⟩⟩
    rintro ⟨b, w₁, hid, h⟩
    obtain ⟨-, rfl⟩ := Run.ends_unsubscribe.1 hid
    exact h

end Start

end Component

namespace Setting

def InStep (k : Setting σ) (w : World σ) : Prop :=
  ∀ d ∈ k.directives, (∃ tracked, w.Directs tracked d) ∧ w.InStep k.methods d

variable {k : Setting σ} {w w' : World σ} {depth : Nat} {c : Component σ}

theorem Tends.inStep_all {told : Directive → Prop} (h : k.Tends told w w') (hs : k.InStep w) :
    k.InStep w' := by
  intro d hd
  obtain ⟨⟨tracked, hdir⟩, hin⟩ := hs d hd
  exact ⟨⟨tracked, h.directs tracked d hdir⟩, h.inStep tracked d hdir (.inr hin)⟩

theorem map_outward {a : Act σ α} (f : α → Option Value)
    (ha : Act.Keeps (k.Outward (k.Tends NoneTold)) a) :
    Act.Keeps (k.Outward (k.Tends NoneTold)) (a >>= fun x => pure (f x)) := by
  have hO := k.steady_calm
  exact Act.keeps_bind hO ha fun x => Act.keeps_pure hO (f x)

section Perform

variable (hk : k.Apt)

include hk

theorem invoke_outward (call : Expression.Call) :
    Act.Keeps (k.Outward (k.Tends NoneTold))
      (call.invoke (Run.scope (Run.broadcast depth) k.methods)) :=
  Scope.keeps_invoke k.steady_calm (k.field_outward depth)
    (call_outward hk (calm hk depth)) call.name call.arguments

theorem dispatch_outward (hm : c.methods = k.methods) (text : String) :
    Act.Keeps (k.Outward (k.Tends NoneTold)) (c.dispatch (Run.broadcast depth) text) := by
  have hO := k.steady_calm
  refine Act.keeps_bind hO ?_ fun call => ?_
  · intro w r w' h
    obtain ⟨-, rfl⟩ := Act.ends_ofResult.1 h
    exact outward_refl w'
  · rw [hm]
    exact invoke_outward hk call

theorem click_outward (hm : c.methods = k.methods) (element : NodeId) :
    Act.Keeps (k.Outward (k.Tends NoneTold)) (c.click (Run.broadcast depth) element) := by
  unfold Component.click
  split
  · exact Act.keeps_pure k.steady_calm _
  · next element call _ =>
    rw [hm]
    exact map_outward some (invoke_outward hk call)

theorem updateAll_outward {ds : List Directive} (hds : ∀ d ∈ ds, d ∈ k.directives) :
    Act.Keeps (k.Outward (k.Tends NoneTold))
      (Component.updateAll (Run.broadcast depth) k.methods ds) := by
  have hO := k.steady_calm
  induction ds with
  | nil => exact Act.keeps_pure hO ()
  | cons d ds ih =>
    refine Act.keeps_bind hO (fun w r w' h => ?_)
      fun _ => ih fun d' hd' => hds d' (List.mem_cons_of_mem _ hd')
    exact (update_outward hk (calm hk depth) (hds d (List.mem_cons_self ..)) h).1

theorem perform_outward (hm : c.methods = k.methods) (hd : c.directives = k.directives)
    (call : Component.Call) :
    Act.Keeps (k.Outward (k.Tends NoneTold)) (c.perform (Run.broadcast depth) call) := by
  cases call with
  | set field value => exact map_outward _ ((calm hk depth).set field value)
  | notify field => exact map_outward _ ((calm hk depth).announce field)
  | dispatch text => exact map_outward _ (dispatch_outward hk hm text)
  | click element => exact click_outward hk hm element
  | render =>
    refine map_outward (fun _ => none) ?_
    unfold Component.render
    rw [hm, hd]
    exact updateAll_outward hk fun _ => id

theorem performAll_outward (hm : c.methods = k.methods) (hd : c.directives = k.directives)
    (calls : List Component.Call) :
    Run.Keeps (k.Outward (k.Tends NoneTold)) (c.performAll (Run.broadcast depth) calls) := by
  have hO := k.steady_calm
  induction calls with
  | nil => exact Run.keeps_pure hO []
  | cons call calls ih =>
    exact Run.keeps_bind hO (perform_outward hk hm hd call) fun r =>
      Run.keeps_bind hO ih fun rs => Run.keeps_pure hO (r :: rs)

theorem activate_in_step {tracked : Bool} {ds : List Directive}
    (hds : ∀ d ∈ ds, d ∈ k.directives) {ids : List Nat} (hw : k.Orderly w)
    (h : Run.Ends (Component.activate (Run.broadcast depth) k.methods tracked ds) w
      (ids, .ok ()) w') :
    k.Outward (k.Tends NoneTold) w w' ∧
      ∀ d ∈ ds, w'.Directs tracked d ∧ w'.InStep k.methods d := by
  have hO := k.steady_calm
  -- each directive is in step when it begins to observe, and stays so
  induction ds generalizing w ids with
  | nil =>
    obtain ⟨-, rfl⟩ := Run.ends_pure.1 h
    exact ⟨outward_refl w', nofun⟩
  | cons d ds ih =>
    have hd : d ∈ k.directives := hds d (List.mem_cons_self ..)
    obtain ⟨w₁, ids', hr, hrest, -⟩ := Component.ends_activate_cons.1 h
    obtain ⟨h₁, hs⟩ := update_outward hk (calm hk depth) hd hr
    let w₂ := { w₁ with store := w₁.store.subscribe (.directive k.methods tracked d) }
    have ho₁ : k.Orderly w₁ := (h₁ hw).1
    have ho₂ : k.Orderly w₂ := ho₁.activate tracked hd
    have hsub : w₁.Alike w₂ := w₁.alike_subscribe _
    have hdir : w₂.Directs tracked d :=
      ⟨_, _, List.mem_append_right _ (List.mem_singleton_self _)⟩
    have h₂ : k.Outward (k.Tends NoneTold) w₁ w₂ := by
      intro _
      exact ⟨ho₂, fun id hid => Store.foreign_subscribe_directive hid, k.course_tends.alike hsub⟩
    obtain ⟨h₃, hall⟩ := ih (fun d' hd' => hds d' (List.mem_cons_of_mem _ hd')) ho₂ hrest
    have ht := (h₃ ho₂).2.2
    refine ⟨hO.trans h₁ (hO.trans h₂ h₃), fun d' hd' => ?_⟩
    rcases List.mem_cons.1 hd' with rfl | hd'
    · have hin : w₂.InStep k.methods d' := World.inStep_alike hsub (hs hw)
      exact ⟨ht.directs tracked d' hdir, ht.inStep tracked d' hdir (.inr hin)⟩
    · exact hall d' hd'

theorem start_in_step {root : Mirror} (hd : k.directives = root.directives) {tracked : Bool}
    (hw : k.Orderly w)
    (h : Act.Ends (Component.start (Run.broadcast depth) k.methods tracked root) w (.ok c) w') :
    c.root = root ∧ c.methods = k.methods ∧ c.directives = k.directives ∧
      k.Orderly w' ∧ k.InStep w' := by
  obtain ⟨ids, hids, rfl⟩ := Component.ends_start_ok.1 h
  rw [← hd] at hids
  obtain ⟨ho, hs⟩ := activate_in_step hk (fun _ => id) hw hids
  exact ⟨rfl, rfl, hd.symm, (ho hw).1, fun d hd => ⟨⟨tracked, (hs d hd).1⟩, (hs d hd).2⟩⟩

end Perform

end Setting

def Directive.Valid : Directive → Prop
  | .interpolation _ => True
  | .conditional c => c.predicate.isValid = true

/-- Before a component is mounted: no directive observes, and nothing outside holds numbers that are
not given out yet. -/
structure World.Outer (keeps : σ → Nat → Prop) (methods : Methods σ) (w : World σ) : Prop where
  issued : ∀ o ∈ w.store.observers, o.1 < w.store.issued
  kept : ∀ id, keeps w.memory id → id < w.store.issued
  scripts : ∀ o ∈ w.store.observers, ∃ body, o.2 = .script body ∧
    ∀ e, (body e).Honest keeps (· < w.store.issued)
  methods : ∀ name method, methods.find? name = some method →
    ∀ vs, (method vs).Honest keeps (· < w.store.issued)

namespace Component

theorem valid_of_update {emit : Emit σ} {methods : Methods σ} {d : Directive} {w w' : World σ}
    (h : Act.Ends (Run.update emit methods d) w (.ok ()) w') : d.Valid := by
  cases d with
  | interpolation i => trivial
  | conditional c =>
    rcases Act.ends_bind.1 h with ⟨e, -, he⟩ | ⟨v, w₁, hv, -⟩
    · cases he
    · exact Compiled.isValid_of_ends hv

theorem valid_of_activate {emit : Emit σ} {methods : Methods σ} {tracked : Bool}
    {ds : List Directive} {w w' : World σ} {ids : List Nat}
    (h : Run.Ends (activate emit methods tracked ds) w (ids, .ok ()) w') :
    ∀ d ∈ ds, d.Valid := by
  induction ds generalizing w ids with
  | nil => exact nofun
  | cons d ds ih =>
    obtain ⟨w₁, ids', hr, hrest, -⟩ := ends_activate_cons.1 h
    intro d' hd'
    rcases List.mem_cons.1 hd' with rfl | hd'
    · exact valid_of_update hr
    · exact ih hrest d' hd'

theorem valid_of_start {emit : Emit σ} {methods : Methods σ} {tracked : Bool} {root : Mirror}
    {c : Component σ} {w w' : World σ}
    (h : Act.Ends (start emit methods tracked root) w (.ok c) w') :
    ∀ d ∈ root.directives, d.Valid := by
  obtain ⟨ids, hids, -⟩ := ends_start_ok.1 h
  exact valid_of_activate hids

def setting (keeps : σ → Nat → Prop) (methods : Methods σ) (root : Mirror) (w : World σ)
    (shape : Document → Array Presence → Prop) : Setting σ :=
  ⟨keeps, (· < w.store.issued), methods, root.directives, shape⟩

variable {keeps : σ → Nat → Prop} {methods : Methods σ} {root : Mirror} {w w' : World σ}
  {shape : Document → Array Presence → Prop}

theorem orderly_setting (ho : w.Outer keeps methods) (hs : w'.store = w.store)
    (hm : w'.memory = w.memory) (hshape : shape w'.document w'.presences) :
    (setting keeps methods root w shape).Orderly w' := by
  have hforeign (id) (hid : id < w.store.issued) : w'.store.Foreign id := by
    rw [hs]
    refine ⟨hid, fun o hmem => ?_⟩
    obtain ⟨body, hb, -⟩ := ho.scripts _ hmem
    exact ⟨body, hb⟩
  refine ⟨?_, fun id hid => ?_, hforeign, fun id body hmem e => ?_, fun id ms t d hmem => ?_, hshape⟩
  · rw [hs]
    exact ho.issued
  · rw [hm] at hid
    exact hforeign id (ho.kept id hid)
  · rw [hs] at hmem
    obtain ⟨body', hb, hhonest⟩ := ho.scripts _ hmem
    cases hb
    exact (hhonest e).mono hforeign
  · rw [hs] at hmem
    obtain ⟨body, hb, -⟩ := ho.scripts _ hmem
    cases hb

theorem apt_setting (ho : w.Outer keeps methods) (hsep : Separate root.directives)
    (hsized : ∀ {d ps}, shape d ps → Sized root.directives d ps)
    (hrefreshed : ∀ (w : World σ) {i}, .interpolation i ∈ root.directives →
      shape w.document w.presences → shape (w.refreshed i).document (w.refreshed i).presences)
    (hsettled : ∀ (w : World σ) {c} (visible), .conditional c ∈ root.directives →
      shape w.document w.presences →
      shape (w.settled c visible).document (w.settled c visible).presences) :
    (setting keeps methods root w shape).Apt :=
  ⟨ho.methods, hsep, hsized, hrefreshed, hsettled⟩

theorem apt_sized (ho : w.Outer keeps methods) (hsep : Separate root.directives) :
    (setting keeps methods root w (Sized root.directives)).Apt := by
  refine apt_setting ho hsep id (fun w i _ h => ?_) fun w c visible _ h => ?_
  · have hr := w.reshapes_refreshed i
    exact ⟨fun hi => hr.size ▸ h.node hi, fun hc => hr.presences ▸ h.cell hc⟩
  · have hr := w.reshapes_settled c visible
    exact ⟨fun hi => hr.size ▸ h.node hi, fun hc => hr.presences ▸ h.cell hc⟩

def planned (o : MountOptions σ) (w : World σ) : Option Mirror :=
  (w.document.query o.selector).bind (Mirror.ofElement o.directives w.document w.presences.size)

theorem ends_mount {emit : Emit σ} {o : MountOptions σ}
    {r : Except EvalError (Option (Component σ))} :
    Act.Ends (mount emit o) w r w' ↔
      match planned o w with
      | none => r = .ok none ∧ w' = w
      | some root => Act.Ends (start emit o.methods o.tracked root >>= fun c => pure (some c))
          (prepare o.directives root w) r w' := by
  rw [mount, Act.ends_world_bind, ← planned]
  cases planned o w with
  | none => exact Act.ends_pure
  | some root =>
    refine Act.ends_ofRun_bind.trans ?_
    constructor
    · rintro ⟨_, w₁, hprep, h⟩
      rw [Run.ends_modify.1 hprep] at h
      exact h
    · intro h
      exact ⟨(), _, Run.ends_modify.2 rfl, h⟩

theorem ends_mount_of_start {emit : Emit σ} {o : MountOptions σ}
    {r : Except EvalError (Component σ)} (hroot : planned o w = some root)
    (h : Act.Ends (start emit o.methods o.tracked root) (prepare o.directives root w) r w') :
    Act.Ends (mount emit o) w (r.map some) w' := by
  refine ends_mount.2 ?_
  rw [hroot]
  cases r with
  | error e => exact Act.ends_bind.2 (.inl ⟨e, h, rfl⟩)
  | ok c => exact Act.ends_bind.2 (.inr ⟨c, w', h, Act.ends_pure.2 ⟨rfl, rfl⟩⟩)

theorem ends_mount_some {emit : Emit σ} {o : MountOptions σ} {c : Component σ}
    (h : Act.Ends (mount emit o) w (.ok (some c)) w') :
    ∃ root, planned o w = some root ∧
      Act.Ends (start emit o.methods o.tracked root) (prepare o.directives root w) (.ok c) w' := by
  have h := ends_mount.1 h
  split at h
  · cases h.1
  · next root hroot =>
    refine ⟨root, hroot, ?_⟩
    rcases Act.ends_bind.1 h with ⟨e, -, he⟩ | ⟨c', w₂, hc, hpure⟩
    · cases he
    · obtain ⟨hc', rfl⟩ := Act.ends_pure.1 hpure
      cases hc'
      exact hc

theorem ofElement_of_planned {o : MountOptions σ} (h : planned o w = some root) :
    ∃ element, w.document.query o.selector = some element ∧
      Mirror.ofElement o.directives w.document w.presences.size element = some root :=
  Option.bind_eq_some_iff.1 h

theorem ends_session {emit : Emit σ} {o : MountOptions σ} {calls : List Call} {c : Component σ}
    {rs : List (Except EvalError (Option Value))}
    (h : Act.Ends (session emit o calls) w (.ok (some (c, rs))) w') :
    ∃ w₁, Act.Ends (mount emit o) w (.ok (some c)) w₁ ∧
      Run.Ends (performAll emit c calls) w₁ rs w' := by
  rcases Act.ends_bind.1 h with ⟨e, -, he⟩ | ⟨m, w₁, hm, h⟩
  · cases he
  · cases m with
    | none => cases (Act.ends_pure.1 h).1
    | some c' =>
      obtain ⟨rs', w₂, hrs, h⟩ := Act.ends_ofRun_bind.1 h
      obtain ⟨hc, rfl⟩ := Act.ends_pure.1 h
      cases hc
      exact ⟨w₁, hm, hrs⟩

end Component

end LiveMarkup
