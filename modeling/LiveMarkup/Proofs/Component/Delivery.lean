import LiveMarkup.Proofs.Component.InStep

/-!
What a delivery does to directives, however deep deliveries nest. Directives that are in step when it
begins are in step when it ends; so are those that it told and that depend on the field.
-/

namespace LiveMarkup

open LiveMarkup.Expression

variable {σ : Type}

theorem Run.ends_setField {emit : Emit σ} {field : String} {value : Value} {w w' : World σ}
    {r : Except EvalError Bool} :
    Act.Ends (setField emit field value) w r w' ↔
      if w.store.holds field value then r = .ok false ∧ w' = w
      else Act.Ends (emit ⟨field, value⟩ >>= fun _ => pure true)
        { w with store := w.store.put field value } r w' := by
  rw [setField, Act.ends_world_bind]
  split
  · exact Act.ends_pure
  · rw [Act.ends_ofRun_bind]
    constructor
    · rintro ⟨_, w₁, hset, h⟩
      rwa [← Run.ends_set.1 hset]
    · intro h
      exact ⟨(), _, Run.ends_set.2 rfl, h⟩

theorem Run.ends_deliver_cons {emit : Emit σ} {e : Event} {o : Nat × Observer σ}
    {os : List (Nat × Observer σ)} {w w' : World σ} {r : Except EvalError Unit} :
    Act.Ends (deliver emit e (o :: os)) w r w' ↔ ∃ x w₁ y,
      Act.Ends (receive emit e o.2) w x w₁ ∧ Act.Ends (deliver emit e os) w₁ y w' ∧
        r = firstError x y := by
  rw [deliver, Act.ends_attempt_bind]
  constructor
  · rintro ⟨x, w₁, hx, h⟩
    obtain ⟨y, w₂, hy, h⟩ := Act.ends_attempt_bind.1 h
    obtain ⟨hr, rfl⟩ := Act.ends_ofResult.1 h
    exact ⟨x, w₁, y, hx, hy, hr⟩
  · rintro ⟨x, w₁, y, hx, hy, hr⟩
    exact ⟨x, w₁, hx, Act.ends_attempt_bind.2 ⟨y, w', hy, Act.ends_ofResult.2 ⟨hr, rfl⟩⟩⟩

namespace Setting

structure Apt (k : Setting σ) : Prop where
  honest : k.Honest
  separate : Separate k.directives
  sized : ∀ {d ps}, k.shape d ps → Sized k.directives d ps
  refreshed : ∀ (w : World σ) {i}, .interpolation i ∈ k.directives →
    k.shape w.document w.presences → k.shape (w.refreshed i).document (w.refreshed i).presences
  settled : ∀ (w : World σ) {c} (visible), .conditional c ∈ k.directives →
    k.shape w.document w.presences →
    k.shape (w.settled c visible).document (w.settled c visible).presences

structure Tends (k : Setting σ) (told : Directive → Prop) (w w' : World σ) : Prop where
  directs : ∀ tracked d, w.Directs tracked d → w'.Directs tracked d
  inStep : ∀ tracked d, w.Directs tracked d → told d ∨ w.InStep k.methods d →
    w'.InStep k.methods d

def NoneTold : Directive → Prop := fun _ => False

variable {k : Setting σ} {told told' : Directive → Prop} {u v w w' : World σ}

theorem Orderly.reshape (h : k.Orderly w) (hr : w.Reshapes w')
    (hs : k.shape w'.document w'.presences) : k.Orderly w' := by
  refine ⟨?_, ?_, ?_, ?_, ?_, hs⟩
  · rw [hr.store]
    exact h.issued
  · rw [hr.store, hr.memory]
    exact h.kept
  · rw [hr.store]
    exact h.given
  · rw [hr.store]
    exact h.scripts
  · rw [hr.store]
    exact h.own

theorem directs_reshape (hr : w.Reshapes w') {tracked : Bool} {d : Directive} :
    w'.Directs tracked d ↔ w.Directs tracked d := by rw [World.Directs, hr.store, World.Directs]

theorem Orderly.mem_of_directs (h : k.Orderly w) {tracked : Bool} {d : Directive}
    (hd : w.Directs tracked d) : d ∈ k.directives := by
  obtain ⟨id, methods, hmem⟩ := hd
  exact (h.own id methods tracked d hmem).2

theorem Tends.mono (h : k.Tends told w w') (ht : ∀ d, told' d → told d) : k.Tends told' w w' :=
  ⟨h.directs, fun tracked d hd hs => h.inStep tracked d hd (hs.imp_left (ht d))⟩

theorem Tends.trans (h : k.Tends told u v) (h' : k.Tends told' v w) :
    k.Tends (fun d => told d ∨ told' d) u w where
  directs tracked d hd := h'.directs tracked d (h.directs tracked d hd)
  inStep tracked d hd hs := by
    have hv := h.directs tracked d hd
    rcases hs with (ht | ht) | hs
    · exact h'.inStep tracked d hv (.inr (h.inStep tracked d hd (.inl ht)))
    · exact h'.inStep tracked d hv (.inl ht)
    · exact h'.inStep tracked d hv (.inr (h.inStep tracked d hd (.inr hs)))

theorem course_tends (k : Setting σ) : Course (k.Tends NoneTold) where
  refl _ := ⟨fun _ _ hd => hd, fun _ _ _ hs => hs.resolve_left id⟩
  trans h h' := (h.trans h').mono fun _ => False.elim
  alike ha := ⟨ha.directs, fun _ _ _ hs => World.inStep_alike ha (hs.resolve_left id)⟩

theorem steady_calm (k : Setting σ) : Steady (k.Outward (k.Tends NoneTold)) :=
  steady_outward k.course_tends.toSteady

theorem outward_trans (h : k.Outward (k.Tends told) u v) (h' : k.Outward (k.Tends told') v w) :
    k.Outward (k.Tends fun d => told d ∨ told' d) u w := by
  intro hu
  obtain ⟨hv, hf, ht⟩ := h hu
  obtain ⟨hw, hf', ht'⟩ := h' hv
  exact ⟨hw, fun id hid => hf' id (hf id hid), ht.trans ht'⟩

theorem outward_refl (w : World σ) : k.Outward (k.Tends NoneTold) w w :=
  k.steady_calm.refl w

theorem refreshed_outward (hk : k.Apt) {i : Interpolation} (hi : .interpolation i ∈ k.directives)
    (w : World σ) : k.Outward (k.Tends NoneTold) w (w.refreshed i) := by
  intro hw
  have hr := w.reshapes_refreshed i
  have hsized := hk.sized hw.shaped
  refine ⟨hw.reshape hr (hk.refreshed w hi hw.shaped), fun id hid => ?_, ?_, ?_⟩
  · rwa [hr.store]
  · exact fun tracked d => (directs_reshape hr).2
  · intro tracked d hd hs
    have hmem := hw.mem_of_directs hd
    exact World.inStep_refreshed hk.separate hi hmem hsized (hs.resolve_left id)

theorem settled_outward (hk : k.Apt) {c : Conditional} (hc : .conditional c ∈ k.directives)
    (w : World σ) (visible : Bool) (hp : (w.settled c visible).Presents k.methods c) :
    k.Outward (k.Tends NoneTold) w (w.settled c visible) := by
  intro hw
  have hr := w.reshapes_settled c visible
  have hsized := hk.sized hw.shaped
  refine ⟨hw.reshape hr (hk.settled w visible hc hw.shaped), fun id hid => ?_, ?_, ?_⟩
  · rwa [hr.store]
  · exact fun tracked d => (directs_reshape hr).2
  · intro tracked d hd hs
    have hmem := hw.mem_of_directs hd
    by_cases hne : d = .conditional c
    · rw [hne]
      exact hp
    · exact World.inStep_settled hk.separate hc hmem hsized visible hne (hs.resolve_left id)

section Depth

variable {depth : Nat}

structure Calm (k : Setting σ) (depth : Nat) : Prop where
  set : ∀ field value,
    Act.Keeps (k.Outward (k.Tends NoneTold)) (Run.setField (Run.broadcast depth) field value)
  announce : ∀ field,
    Act.Keeps (k.Outward (k.Tends NoneTold)) (Run.announce (Run.broadcast depth) field)

theorem field_outward (k : Setting σ) (depth : Nat) (name : String) :
    Run.Keeps (k.Outward (k.Tends NoneTold))
      ((Run.scope (Run.broadcast depth) k.methods).field name) :=
  Run.scope_field_keeps k.steady_calm k.methods name

variable (hk : k.Apt) (hcalm : k.Calm depth)

include hk hcalm

theorem call_outward (name : String) (vs : List Value) :
    Act.Keeps (k.Outward (k.Tends NoneTold))
      ((Run.scope (Run.broadcast depth) k.methods).call name vs) :=
  Run.scope_call_outward hk.honest k.course_tends hcalm.set hcalm.announce name vs

theorem evaluate_outward (c : Compiled) :
    Act.Keeps (k.Outward (k.Tends NoneTold))
      (c.evaluate (Run.scope (Run.broadcast depth) k.methods)) :=
  c.keeps_evaluate k.steady_calm (k.field_outward depth)
    (call_outward hk hcalm)

theorem update_outward {d : Directive} (hd : d ∈ k.directives) {r : Except EvalError Unit}
    (h : Act.Ends (Run.update (Run.broadcast depth) k.methods d) w r w') :
    k.Outward (k.Tends NoneTold) w w' ∧ (k.Orderly w → w'.InStep k.methods d) := by
  cases d with
  | interpolation i =>
    obtain ⟨u, -, hi⟩ := Act.ends_ofRun.1 h
    rw [Run.ends_refreshUngated.1 hi]
    refine ⟨refreshed_outward hk hd w, fun hw => ?_⟩
    exact World.shows_refreshed_self ((hk.sized hw.shaped).node hd)
  | conditional c =>
    obtain ⟨ns, hc⟩ := hk.separate.compiled hd
    rcases Act.ends_bind.1 h with ⟨e, he, -⟩ | ⟨v, w₁, hv, hs⟩
    · exact ⟨evaluate_outward hk hcalm _ _ _ _ he, fun _ => World.presents_of_error hc he⟩
    · obtain ⟨u, -, hs⟩ := Act.ends_ofRun.1 hs
      rw [Run.ends_settle.1 hs]
      have h₁ := evaluate_outward hk hcalm _ _ _ _ hv
      have hp (hw : k.Orderly w) : (w₁.settled c v.truthy).Presents k.methods c :=
        World.presents_settled hc hv ((hk.sized (h₁ hw).1.shaped).cell hd)
      refine ⟨fun hw => ?_, hp⟩
      have h₂ := settled_outward hk hd w₁ v.truthy (hp hw)
      exact k.steady_calm.trans h₁ h₂ hw

end Depth

def Admits (k : Setting σ) (w : World σ) : Observer σ → Prop
  | .script body => ∀ e, (body e).Honest k.keeps w.store.Foreign
  | .directive methods _ d => methods = k.methods ∧ d ∈ k.directives

theorem Orderly.admits (h : k.Orderly w) {o : Nat × Observer σ} (ho : o ∈ w.store.observers) :
    k.Admits w o.2 := by
  obtain ⟨id, body | ⟨methods, tracked, d⟩⟩ := o
  · exact h.scripts id body ho
  · exact h.own id methods tracked d ho

theorem Admits.mono {o : Observer σ} (h : k.Admits w o)
    (hf : ∀ id, w.store.Foreign id → w'.store.Foreign id) : k.Admits w' o := by
  cases o with
  | script body => exact fun e => (h e).mono hf
  | directive methods tracked d => exact h

def Told (field : String) (os : List (Nat × Observer σ)) (d : Directive) : Prop :=
  d.dependsOn field = true ∧ ∃ id methods tracked, (id, .directive methods tracked d) ∈ os

theorem receive_outward {depth : Nat} (hk : k.Apt) (hcalm : k.Calm depth) {e : Event}
    {o : Nat × Observer σ} (ho : k.Admits w o.2) {r : Except EvalError Unit}
    (h : Act.Ends (Run.receive (Run.broadcast depth) e o.2) w r w') :
    k.Outward (k.Tends (Told e.field [o])) w w' := by
  obtain ⟨id, body | ⟨methods, tracked, d⟩⟩ := o
  · have hrun : k.Outward (k.Tends NoneTold) w w' := by
      intro hw
      have hs (r' w₁) (hb : Act.Ends ((body e).run (Run.broadcast depth)) w r' w₁) :
          k.Outward (k.Tends NoneTold) w w₁ :=
        Script.run_outward k.course_tends hcalm.set hcalm.announce (ho e) hw (fun _ hid => hid) hb
      rcases Act.ends_bind.1 h with ⟨e', he, -⟩ | ⟨v, w₁, hv, hpure⟩
      · exact hs _ _ he hw
      · obtain ⟨-, rfl⟩ := Act.ends_pure.1 hpure
        exact hs _ _ hv hw
    refine outward_mono (fun _ _ ht => ht.mono fun d hd => ?_) hrun
    obtain ⟨-, _, _, _, hmem⟩ := hd
    cases List.mem_singleton.1 hmem
  · obtain ⟨rfl, hd⟩ := ho
    have hself (d') (hd' : Told e.field [(id, Observer.directive k.methods tracked d)] d') :
        d' = d := by
      obtain ⟨-, _, _, _, hmem⟩ := hd'
      cases List.mem_singleton.1 hmem
      rfl
    simp only [Run.receive] at h
    split at h
    · next hskip =>
      obtain ⟨-, rfl⟩ := Act.ends_pure.1 h
      refine outward_mono (fun _ _ ht => ht.mono fun d' hd' => ?_) (outward_refl w')
      have hdep := hd'.1
      rw [hself d' hd'] at hdep
      simp [hdep] at hskip
    · obtain ⟨ho, hs⟩ := update_outward hk hcalm hd h
      intro hw
      obtain ⟨hw', hf, ht⟩ := ho hw
      refine ⟨hw', hf, ht.directs, fun tracked' d' hd' hin => ?_⟩
      rcases hin with htold | hin
      · rw [hself d' htold]
        exact hs hw
      · exact ht.inStep tracked' d' hd' (.inr hin)

theorem deliver_outward {depth : Nat} (hk : k.Apt) (hcalm : k.Calm depth) {e : Event}
    {os : List (Nat × Observer σ)} (hos : ∀ o ∈ os, k.Admits w o.2) {r : Except EvalError Unit}
    (h : Act.Ends (Run.deliver (Run.broadcast depth) e os) w r w') :
    k.Outward (k.Tends (Told e.field os)) w w' := by
  -- each observer leaves in step what those before it left so
  induction os generalizing w r with
  | nil =>
    obtain ⟨-, rfl⟩ := Act.ends_pure.1 h
    refine outward_mono (fun _ _ ht => ht.mono fun d hd => ?_) (outward_refl w')
    obtain ⟨-, _, _, _, hmem⟩ := hd
    cases hmem
  | cons o os ih =>
    obtain ⟨x, w₁, y, hx, hy, -⟩ := Run.ends_deliver_cons.1 h
    have h₁ := receive_outward hk hcalm (hos o (List.mem_cons_self ..)) hx
    intro hw
    have hos₁ (o') (ho' : o' ∈ os) : k.Admits w₁ o'.2 :=
      (hos o' (List.mem_cons_of_mem _ ho')).mono (h₁ hw).2.1
    refine outward_mono (fun _ _ ht => ht.mono fun d hd => ?_)
      (outward_trans h₁ (ih hos₁ hy)) hw
    obtain ⟨hdep, id, methods, tracked, hmem⟩ := hd
    rcases List.mem_cons.1 hmem with hmem | hmem
    · exact .inl ⟨hdep, id, methods, tracked, hmem ▸ List.mem_singleton_self _⟩
    · exact .inr ⟨hdep, id, methods, tracked, hmem⟩

theorem broadcast_outward {depth : Nat} (hk : k.Apt) (hcalm : k.Calm depth) {e : Event}
    {r : Except EvalError Unit} (h : Act.Ends (Run.broadcast (depth + 1) e) w r w') :
    k.Outward (k.Tends fun d => d.dependsOn e.field = true) w w' := by
  intro hw
  obtain ⟨hw', hf, ht⟩ := deliver_outward hk hcalm (fun o ho => hw.admits ho)
    (Act.ends_world_bind.1 h) hw
  refine ⟨hw', hf, ht.directs, fun tracked d hd hs => ht.inStep tracked d hd ?_⟩
  rcases hs with hdep | hs
  · obtain ⟨id, methods, hmem⟩ := hd
    exact .inl ⟨hdep, id, methods, tracked, hmem⟩
  · exact .inr hs

theorem calm_of_broadcast (hk : k.Apt) {depth : Nat}
    (h : ∀ e w r w', Act.Ends (Run.broadcast depth e) w r w' →
      k.Outward (k.Tends fun d => d.dependsOn e.field = true) w w') : k.Calm depth where
  set field value := by
    intro w r w' hset hw
    have hset := Run.ends_setField.1 hset
    split at hset
    · obtain ⟨-, rfl⟩ := hset
      exact outward_refl w' hw
    · have hemit : k.Outward (k.Tends fun d => d.dependsOn field = true)
          { w with store := w.store.put field value } w' := by
        rcases Act.ends_bind.1 hset with ⟨e, he, -⟩ | ⟨_, w₂, he, hpure⟩
        · exact h _ _ _ _ he
        · obtain ⟨-, rfl⟩ := Act.ends_pure.1 hpure
          exact h _ _ _ _ he
      obtain ⟨hw', hf, ht⟩ := hemit (hw.write field value)
      refine ⟨hw', hf, ht.directs, fun tracked d hd hs => ht.inStep tracked d hd ?_⟩
      cases hdep : d.dependsOn field with
      | true => exact .inl rfl
      | false =>
        have hmem := hw.mem_of_directs hd
        exact .inr (World.inStep_put hk.separate hmem hdep (hs.resolve_left id))
  announce field := by
    intro w r w' hann
    exact outward_mono (fun _ _ ht => ht.mono fun _ => False.elim)
      (h _ _ _ _ (Act.ends_world_bind.1 hann))

theorem calm (hk : k.Apt) (depth : Nat) : k.Calm depth := by
  induction depth with
  | zero =>
    refine calm_of_broadcast hk fun e w r w' h => ?_
    obtain ⟨_, -, h⟩ := Act.ends_ofRun.1 h
    cases h
  | succ depth ih => exact calm_of_broadcast hk fun e w r w' => broadcast_outward hk ih

end Setting

end LiveMarkup
