import LiveMarkup.Proofs.Component.Scratch
import LiveMarkup.Render

/-!
Rendered templates. Steps are calls to the component; what is printed after them is what the final
fields would have given without any steps.
-/

namespace LiveMarkup

open LiveMarkup.Expression

variable {σ α β : Type}

namespace Builtin

variable {keeps : σ → Nat → Prop} {given : Nat → Prop}

theorem honest_writeThen (field : String) (value v : Value) :
    (Script.writeThen field value v).Honest keeps given := by
  intro r
  cases r with
  | ok _ => trivial
  | error _ => trivial

theorem honest_withField (method : String) (arguments : List Value) {next : String → Script σ}
    (h : ∀ field, (next field).Honest keeps given) :
    (withField method arguments next).Honest keeps given := by
  unfold withField
  split
  · next field _ => exact h field
  · trivial

theorem honest_step (method : String) (sign : Float) (arguments : List Value) :
    (step method sign arguments : Script σ).Honest keeps given := by
  refine honest_withField _ _ fun field => ?_
  intro fields
  exact honest_writeThen field _ _

theorem honest_methods {name : String} {method : List Value → Script σ}
    (h : methods.find? name = some method) (vs : List Value) : (method vs).Honest keeps given := by
  have hmem := Table.mem_ofList (Table.mem_of_find? h)
  simp only [List.mem_cons, Prod.mk.injEq, List.not_mem_nil, or_false] at hmem
  rcases hmem with ⟨-, rfl⟩ | ⟨-, rfl⟩ | ⟨-, rfl⟩ | ⟨-, rfl⟩
  · refine honest_withField _ _ fun field => ?_
    intro fields
    exact honest_writeThen field _ _
  · exact honest_withField _ _ fun field => honest_writeThen field _ _
  · exact honest_step _ _ vs
  · exact honest_step _ _ vs

end Builtin

namespace Render

theorem ends_bind_ok {a : ExceptT RenderError (Run σ) α} {f : α → ExceptT RenderError (Run σ) β}
    {w w' : World σ} {y : β} (h : Run.Ends (a >>= f).run w (.ok y) w') :
    ∃ x w₁, Run.Ends a.run w (.ok x) w₁ ∧ Run.Ends (f x).run w₁ (.ok y) w' := by
  obtain ⟨r, w₁, hr, h⟩ := Run.ends_bind.1 h
  cases r with
  | error e =>
    obtain ⟨he, -⟩ := Run.ends_pure.1 h
    cases he
  | ok x => exact ⟨x, w₁, hr, h⟩

theorem ends_orFail_ok {a : Act σ α} {w w' : World σ} {x : α}
    (h : Run.Ends (orFail a).run w (.ok x) w') : Act.Ends a w (.ok x) w' := by
  obtain ⟨r, w₁, hr, h⟩ := Run.ends_bind.1 h
  cases r with
  | error e =>
    obtain ⟨he, -⟩ := Run.ends_pure.1 h
    cases he
  | ok y =>
    obtain ⟨hy, rfl⟩ := Run.ends_pure.1 h
    cases hy
    exact hr

variable {emit : Emit σ} {c : Component σ} {w w' : World σ}

theorem perform_of_take {s : Step} (htake : Run.Ends (take emit c s).run w (.ok ()) w') :
    ∃ call r, Act.Ends (c.perform emit call) w (.ok r) w' := by
  cases s with
  | set field value =>
    obtain ⟨changed, w₁, hset, hnext⟩ := ends_bind_ok htake
    obtain ⟨-, rfl⟩ := Run.ends_pure.1 hnext
    have hset := ends_orFail_ok hset
    exact ⟨.set field value, _, Act.ends_bind.2 (.inr ⟨_, w', hset, Act.ends_pure.2 ⟨rfl, rfl⟩⟩)⟩
  | click selector =>
    obtain ⟨v, w₁, hlook, hnext⟩ := ends_bind_ok htake
    rw [ExceptT.run_lift, map_eq_pure_bind] at hlook
    obtain ⟨v', w₂, hget, hv⟩ := Run.ends_bind.1 hlook
    obtain ⟨hv, rfl⟩ := Run.ends_pure.1 hv
    obtain ⟨-, rfl⟩ := Run.ends_get.1 hget
    cases hv
    cases hquery : v.document.query selector with
    | none =>
      rw [hquery] at hnext
      obtain ⟨he, -⟩ := Run.ends_pure.1 hnext
      cases he
    | some element =>
      rw [hquery] at hnext
      obtain ⟨r, w₁, hclick, hdone⟩ := ends_bind_ok hnext
      obtain ⟨-, rfl⟩ := Run.ends_pure.1 hdone
      exact ⟨.click element, r, ends_orFail_ok hclick⟩
  | call text =>
    obtain ⟨v, w₁, hcall, hnext⟩ := ends_bind_ok htake
    obtain ⟨-, rfl⟩ := Run.ends_pure.1 hnext
    have hcall := ends_orFail_ok hcall
    exact ⟨.dispatch text, _, Act.ends_bind.2 (.inr ⟨_, w', hcall, Act.ends_pure.2 ⟨rfl, rfl⟩⟩)⟩

theorem performAll_of_takeAll {steps : List Step}
    (h : Run.Ends (takeAll emit c steps).run w (.ok ()) w') :
    ∃ calls rs, Run.Ends (c.performAll emit calls) w rs w' := by
  induction steps generalizing w with
  | nil =>
    obtain ⟨-, rfl⟩ := Run.ends_pure.1 h
    exact ⟨[], [], Run.ends_pure.2 ⟨rfl, rfl⟩⟩
  | cons s steps ih =>
    obtain ⟨_, w₁, htake, h⟩ := ends_bind_ok h
    obtain ⟨call, r, hcall⟩ := perform_of_take htake
    obtain ⟨calls, rs, hcalls⟩ := ih h
    refine ⟨call :: calls, .ok r :: rs, ?_⟩
    exact Run.ends_bind.2 ⟨_, w₁, hcall,
      Run.ends_bind.2 ⟨rs, w', hcalls, Run.ends_pure.2 ⟨rfl, rfl⟩⟩⟩

variable {o : MountOptions σ} {html : String}

theorem ends_printed {text : String} :
    Run.Ends printed w text w' ↔ text = w.document.toHtml ∧ w' = w := by
  constructor
  · intro h
    obtain ⟨v, w₁, hget, h⟩ := Run.ends_bind.1 h
    obtain ⟨rfl, rfl⟩ := Run.ends_get.1 hget
    exact Run.ends_pure.1 h
  · rintro ⟨rfl, rfl⟩
    exact Run.ends_bind.2 ⟨w', w', Run.ends_get.2 ⟨rfl, rfl⟩, Run.ends_pure.2 ⟨rfl, rfl⟩⟩

theorem ends_render_ok {steps : List Step}
    (h : Run.Ends (render emit o steps) w (.ok html) w') :
    ∃ c w₁ calls rs w₂, Act.Ends (Component.mount emit o) w (.ok (some c)) w₁ ∧
      Run.Ends (c.performAll emit calls) w₁ rs w₂ ∧ html = w₂.document.toHtml ∧
      w'.store.fields = w₂.store.fields := by
  obtain ⟨r, w₁, hmount, h⟩ := Run.ends_bind.1 h
  rcases r with e | _ | c
  · obtain ⟨he, -⟩ := Run.ends_pure.1 h
    cases he
  · obtain ⟨he, -⟩ := Run.ends_pure.1 h
    cases he
  · obtain ⟨q, w₂, htake, h⟩ := Run.ends_bind.1 h
    obtain ⟨text, w₃, hprint, h⟩ := Run.ends_bind.1 h
    obtain ⟨htext, hw⟩ := ends_printed.1 hprint
    rw [htext, hw] at h
    obtain ⟨_, w₄, hdrop, h⟩ := Run.ends_bind.1 h
    obtain ⟨hq, rfl⟩ := Run.ends_pure.1 h
    obtain rfl := Component.ends_unsubscribeAll.1 hdrop
    cases q with
    | error e => cases hq
    | ok _ =>
      cases hq
      obtain ⟨calls, rs, hcalls⟩ := performAll_of_takeAll htake
      exact ⟨c, w₁, calls, rs, w₂, hmount, hcalls, rfl, rfl⟩

theorem ends_render_nil {w₁ : World σ}
    (h : Act.Ends (Component.mount emit o) w (.ok (some c)) w₁) :
    ∃ w', Run.Ends (render emit o []) w (.ok w₁.document.toHtml) w' := by
  have hdrop : Run.Ends c.drop w₁ () (w₁.without c.subscriptions) :=
    Component.ends_unsubscribeAll.2 rfl
  have hnone : Run.Ends (takeAll emit c []).run w₁ (.ok ()) w₁ := Run.ends_pure.2 ⟨rfl, rfl⟩
  refine ⟨w₁.without c.subscriptions,
    Run.ends_bind.2 ⟨_, w₁, h, Run.ends_bind.2 ⟨_, w₁, hnone, ?_⟩⟩⟩
  exact Run.ends_bind.2 ⟨_, w₁, ends_printed.2 ⟨rfl, rfl⟩,
    Run.ends_bind.2 ⟨(), _, hdrop, Run.ends_pure.2 ⟨rfl, rfl⟩⟩⟩

theorem outer_page (source : String) (fields : Table Value) :
    (page source fields).Outer (fun _ _ => False) Builtin.methods where
  issued := nofun
  kept _ := False.elim
  scripts := nofun
  methods _ _ hm vs := Builtin.honest_methods hm vs

/-- Where the conditional elements call nothing, and each has only elements that are not conditional
beside it, steps lead to what the final fields give at once. -/
theorem template_from_scratch {source : String} {fields : Table Value} {selector : String}
    {o : DirectiveOptions} {tracked : Bool} {steps : List Step} {html : String} {w : World Unit}
    (hplain : ∀ element, (Document.parse source).query selector = some element →
      (Document.parse source).Plain o element)
    (h : template source fields selector o tracked steps = some (.ok html, w)) :
    ∃ w', template source w.store.fields selector o tracked [] = some (.ok html, w') := by
  let options : MountOptions Unit := ⟨selector, Builtin.methods, o, tracked⟩
  have hrender : Run.Ends (render (Run.broadcast Run.maxDepth) options steps) (page source fields)
      (.ok html) w := h
  obtain ⟨c, w₁, calls, rs, w₂, hmount, hcalls, rfl, hfields⟩ := ends_render_ok hrender
  have hplain : ∀ element, (page source fields).document.query options.selector = some element →
      (page source fields).document.Plain options.directives element := hplain
  obtain ⟨c', u, hmount', hhtml⟩ := Component.mount_scratch (outer_page source fields)
    (Document.linked_parse source) hplain hmount hcalls (outer_page source w.store.fields) rfl rfl
    hfields
  obtain ⟨w', hw'⟩ := ends_render_nil hmount'
  rw [hhtml] at hw'
  exact ⟨w', hw'⟩

def switch : String :=
  "<div id=\"app\"><button on-click=\"toggle('open')\">?</button>" ++
    "<p show-if=\"open\"><em show-if=\"n\">\x7b\x7bn\x7d\x7d</em></p></div>"

theorem template_from_scratch_switch :
    ∃ html w w', template switch [] "#app" .default true
        [.click "button", .set "n" (.string "one")] = some (.ok html, w) ∧
      template switch w.store.fields "#app" .default true [] = some (.ok html, w') := by
  have hsome : ((template switch [] "#app" .default true
      [.click "button", .set "n" (.string "one")]).bind fun r => r.1.toOption).isSome = true := by
    decide +kernel
  have hplain : ∀ n < (Document.parse switch).nodes.size,
      (Document.parse switch).PlainAt .default n := by decide +kernel
  obtain ⟨html, hhtml⟩ := Option.isSome_iff_exists.1 hsome
  obtain ⟨⟨r, w⟩, h, hr⟩ := Option.bind_eq_some_iff.1 hhtml
  cases r with
  | error e => cases hr
  | ok html' =>
    obtain ⟨w', hw'⟩ := template_from_scratch
      (fun element _ => Document.plain_of_nodes hplain element) h
    exact ⟨html', w, w', h, hw'⟩

end Render

end LiveMarkup
