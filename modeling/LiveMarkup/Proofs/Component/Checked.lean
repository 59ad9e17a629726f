import LiveMarkup.Proofs.Component.Calls
import LiveMarkup.Proofs.Reactive.Checked

/-!
Components under a check. What the directives of a component uphold from the moment it is prepared
holds before and after each observer is told, and whenever the component has been worked on.
-/

namespace LiveMarkup.Component

open LiveMarkup.Expression

variable {σ : Type} {methods : Methods σ} {ds : List Directive} {P : World σ → Prop}
  {emit emit' : Emit σ} {c : Component σ} {w w' : World σ}

section Steps

variable (hP : Upheld ds P) (hemit : Concur methods ds P emit emit')

include hP hemit

theorem upholding_activate (tracked : Bool) {ds' : List Directive} (hds : ∀ d ∈ ds', d ∈ ds) :
    (upholding methods ds P).Rel (activate emit methods tracked ds')
      (activate emit' methods tracked ds') := by
  induction ds' with
  | nil => exact Pairing.pure _ _
  | cons d ds' ih =>
    have hd : d ∈ ds := hds d (List.mem_cons_self ..)
    have hrest := ih fun d' hd' => hds d' (List.mem_cons_of_mem _ hd')
    refine Pairing.bind _ (upholding_update hP hemit hd) fun r => ?_
    cases r with
    | error e => exact Pairing.pure _ _
    | ok _ =>
      refine Pairing.bind _ (fun w id w' hw h => ⟨h, ?_⟩) fun id =>
        Pairing.bind _ hrest fun r => Pairing.pure _ _
      rw [(Run.ends_subscribe.1 h).2]
      exact hw.subscribe hP.shown ⟨rfl, hd⟩

theorem upholding_updateAll {ds' : List Directive} (hds : ∀ d ∈ ds', d ∈ ds) :
    (upholding methods ds P).Acts (updateAll emit methods ds') (updateAll emit' methods ds') := by
  induction ds' with
  | nil => exact Pairing.acts_pure _ ()
  | cons d ds' ih =>
    exact Pairing.acts_bind _ (upholding_update hP hemit (hds d (List.mem_cons_self ..))) fun _ =>
      ih fun d' hd' => hds d' (List.mem_cons_of_mem _ hd')

theorem upholding_click (hm : c.methods = methods) (element : NodeId) :
    (upholding methods ds P).Acts (c.click emit element) (c.click emit' element) := by
  unfold click
  cases c.clicks.find? fun b => b.1 == element with
  | none => exact Pairing.acts_pure _ none
  | some b =>
    rw [hm]
    exact Pairing.acts_bind _ (upholding_invoke hP.shown hemit b.2) fun v =>
      Pairing.acts_pure _ (some v)

theorem upholding_perform (hm : c.methods = methods) (hd : c.directives = ds) (call : Call) :
    (upholding methods ds P).Acts (c.perform emit call) (c.perform emit' call) := by
  cases call with
  | set field value =>
    exact Pairing.acts_bind _ (upholding_setField hP.shown hemit field value) fun _ =>
      Pairing.acts_pure _ _
  | notify field =>
    exact Pairing.acts_bind _ (upholding_announce hemit field) fun _ => Pairing.acts_pure _ none
  | dispatch text =>
    refine Pairing.acts_bind _ ?_ fun v => Pairing.acts_pure _ (some v)
    unfold Component.dispatch
    rw [hm]
    exact Pairing.acts_bind _ (Pairing.acts_ofResult _ _) fun call =>
      upholding_invoke hP.shown hemit call
  | click element => exact upholding_click hP hemit hm element
  | render =>
    refine Pairing.acts_bind _ ?_ fun _ => Pairing.acts_pure _ none
    unfold Component.render
    rw [hm, hd]
    exact upholding_updateAll hP hemit fun _ => id

end Steps

/-- Where a component gets to, from where it was mounted: it is called, directives are updated one at a
time, and others write, announce, begin to observe and stop. -/
inductive Reaches (emit : Emit σ) (c : Component σ) (w : World σ) : World σ → Prop
  | mounted : Reaches emit c w w
  | perform {call r u v} : Reaches emit c w u → Act.Ends (c.perform emit call) u r v →
    Reaches emit c w v
  | update {d r u v} : Reaches emit c w u → d ∈ c.directives →
    Act.Ends (Run.update emit c.methods d) u r v → Reaches emit c w v
  | script {s : Script σ} {r u v} : Reaches emit c w u → Act.Ends (s.run emit) u r v →
    Reaches emit c w v

theorem Reaches.performAll {u : World σ} {calls : List Call}
    {rs : List (Except EvalError (Option Value))} (hu : Reaches emit c w u)
    (h : Run.Ends (c.performAll emit calls) u rs w') : Reaches emit c w w' := by
  induction calls generalizing u rs with
  | nil =>
    obtain ⟨-, rfl⟩ := Run.ends_pure.1 h
    exact hu
  | cons call calls ih =>
    obtain ⟨r, v, hcall, h⟩ := Run.ends_bind.1 h
    obtain ⟨rs', v', hcalls, h⟩ := Run.ends_bind.1 h
    obtain ⟨-, rfl⟩ := Run.ends_pure.1 h
    exact ih (.perform hu hcall) hcalls

section Upheld

variable (hP : Upheld ds P) (hemit : Concur methods ds P emit emit')

include hP hemit

theorem Reaches.upheld (hm : c.methods = methods) (hd : c.directives = ds)
    (hw : w.Kept methods ds P) (h : Reaches emit c w w') :
    Reaches emit' c w w' ∧ w'.Kept methods ds P := by
  induction h with
  | mounted => exact ⟨.mounted, hw⟩
  | perform _ hcall ih =>
    obtain ⟨hcall', hv⟩ := upholding_perform hP hemit hm hd _ _ _ _ ih.2 hcall
    exact ⟨.perform ih.1 hcall', hv⟩
  | update _ hmem hup ih =>
    rw [hm] at hup
    obtain ⟨hup', hv⟩ := upholding_update hP hemit (hd ▸ hmem) _ _ _ ih.2 hup
    exact ⟨.update ih.1 hmem (hm ▸ hup'), hv⟩
  | script _ hs ih =>
    obtain ⟨hs', hv⟩ := upholding_script hP.shown hemit _ _ _ _ ih.2 hs
    exact ⟨.script ih.1 hs', hv⟩

theorem start_upheld {root : Mirror} (hroot : root.directives = ds) {tracked : Bool}
    (hw : w.Kept methods ds P)
    (h : Act.Ends (start emit methods tracked root) w (.ok c) w') :
    Act.Ends (start emit' methods tracked root) w (.ok c) w' ∧ w'.Kept methods ds P := by
  obtain ⟨ids, hids, hc⟩ := ends_start_ok.1 h
  obtain ⟨hids', hw'⟩ := upholding_activate hP hemit tracked (fun _ => hroot ▸ id) _ _ _ hw hids
  exact ⟨ends_start_ok.2 ⟨ids, hids', hc⟩, hw'⟩

end Upheld

end LiveMarkup.Component
