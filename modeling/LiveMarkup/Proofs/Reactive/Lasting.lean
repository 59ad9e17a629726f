import LiveMarkup.Proofs.Component.Delivery

/-!
Relations between worlds that last: each thing that outside code or a directive can do to a world
respects them, so everything does that is made of such things, however deep deliveries nest.
-/

namespace LiveMarkup

open LiveMarkup.Expression

variable {σ : Type}

structure Scripted (R : World σ → World σ → Prop) : Prop extends Steady R where
  put : ∀ w field value, R w { w with store := w.store.put field value }
  subscribe : ∀ w body, R w { w with store := w.store.subscribe (.script body) }
  unsubscribe : ∀ w id, R w { w with store := w.store.unsubscribe id }
  remember : ∀ w memory, R w { w with memory := memory }

structure Lasting (R : World σ → World σ → Prop) : Prop extends Scripted R where
  reshape : ∀ {w w'}, w.Reshapes w' → R w w'

namespace Scripted

variable {R : World σ → World σ → Prop} (hR : Scripted R) {emit : Emit σ}
  (hemit : ∀ e, Act.Keeps R (emit e))

include hR hemit

theorem keeps_setField (field : String) (value : Value) :
    Act.Keeps R (Run.setField emit field value) := by
  intro w r w' h
  have h := Run.ends_setField.1 h
  split at h
  · obtain ⟨-, rfl⟩ := h
    exact hR.refl w'
  · refine hR.trans (hR.put w field value) ?_
    exact Act.keeps_bind hR.toSteady (hemit _) (fun _ => Act.keeps_pure hR.toSteady _) _ _ _ h

omit hR in
theorem keeps_announce (field : String) : Act.Keeps R (Run.announce emit field) :=
  fun w r w' h => hemit _ w r w' (Act.ends_world_bind.1 h)

theorem keeps_script (s : Script σ) : Act.Keeps R (s.run emit) := by
  intro w r w' h
  induction s generalizing w with
  | done result =>
    obtain ⟨-, rfl⟩ := Act.ends_ofResult.1 h
    exact hR.refl w'
  | look next ih => exact ih _ w (Act.ends_world_bind.1 h)
  | write field value next ih =>
    obtain ⟨x, w₁, hx, hn⟩ := Act.ends_attempt_bind.1 h
    exact hR.trans (hR.keeps_setField hemit field value w x w₁ hx) (ih x w₁ hn)
  | announce field next ih =>
    obtain ⟨x, w₁, hx, hn⟩ := Act.ends_attempt_bind.1 h
    exact hR.trans (keeps_announce hemit field w x w₁ hx) (ih x w₁ hn)
  | subscribe body next _ ih =>
    obtain ⟨id, w₁, hid, hn⟩ := Act.ends_ofRun_bind.1 h
    obtain ⟨-, rfl⟩ := Run.ends_subscribe.1 hid
    exact hR.trans (hR.subscribe w body) (ih id _ hn)
  | unsubscribe id next ih =>
    obtain ⟨b, w₁, hid, hn⟩ := Act.ends_ofRun_bind.1 h
    obtain ⟨-, rfl⟩ := Run.ends_unsubscribe.1 hid
    exact hR.trans (hR.unsubscribe w id) (ih b _ hn)
  | «recall» next ih => exact ih _ w (Act.ends_world_bind.1 h)
  | remember memory next ih =>
    obtain ⟨_, w₁, hm, hn⟩ := Act.ends_ofRun_bind.1 h
    rw [Run.ends_modify.1 hm] at hn
    exact hR.trans (hR.remember w memory) (ih _ hn)

end Scripted

namespace Lasting

variable {R : World σ → World σ → Prop} (hR : Lasting R)

section Emit

variable {emit : Emit σ} (hemit : ∀ e, Act.Keeps R (emit e))

include hR hemit

theorem keeps_call (methods : Methods σ) (name : String) (vs : List Value) :
    Act.Keeps R ((Run.scope emit methods).call name vs) := by
  simp only [Run.scope]
  cases methods.find? name with
  | none => exact Act.keeps_throw hR.toSteady _
  | some method => exact hR.toScripted.keeps_script hemit (method vs)

theorem keeps_update (methods : Methods σ) (d : Directive) :
    Act.Keeps R (Run.update emit methods d) := by
  cases d with
  | interpolation i =>
    intro w r w' h
    obtain ⟨_, -, h⟩ := Act.ends_ofRun.1 h
    exact Run.ends_refreshUngated.1 h ▸ hR.reshape (w.reshapes_refreshed i)
  | conditional c =>
    refine Act.keeps_bind hR.toSteady (c.predicate.keeps_evaluate hR.toSteady
      (Run.scope_field_keeps hR.toSteady methods) (hR.keeps_call hemit methods)) fun v w r w' h => ?_
    obtain ⟨_, -, h⟩ := Act.ends_ofRun.1 h
    exact Run.ends_settle.1 h ▸ hR.reshape (w.reshapes_settled c v.truthy)

theorem keeps_receive (e : Event) (o : Observer σ) : Act.Keeps R (Run.receive emit e o) := by
  cases o with
  | script body =>
    exact Act.keeps_bind hR.toSteady (hR.toScripted.keeps_script hemit (body e)) fun _ =>
      Act.keeps_pure hR.toSteady _
  | directive methods tracked d =>
    simp only [Run.receive]
    split
    · exact Act.keeps_pure hR.toSteady _
    · exact hR.keeps_update hemit methods d

theorem keeps_deliver (e : Event) (os : List (Nat × Observer σ)) :
    Act.Keeps R (Run.deliver emit e os) := by
  intro w r w' h
  induction os generalizing w r with
  | nil =>
    obtain ⟨-, rfl⟩ := Act.ends_pure.1 h
    exact hR.refl w'
  | cons o os ih =>
    obtain ⟨x, w₁, y, hx, hy, -⟩ := Run.ends_deliver_cons.1 h
    exact hR.trans (hR.keeps_receive hemit e o.2 w x w₁ hx) (ih _ _ hy)

end Emit

include hR in
theorem keeps_broadcast (depth : Nat) (e : Event) :
    Act.Keeps R (Run.broadcast depth e : Act σ Unit) := by
  induction depth generalizing e with
  | zero =>
    intro w r w' h
    obtain ⟨_, -, h⟩ := Act.ends_ofRun.1 h
    cases h
  | succ depth ih =>
    intro w r w' h
    exact hR.keeps_deliver ih e w.store.observers w r w' (Act.ends_world_bind.1 h)

end Lasting

/-- Scripts join, under numbers that were not given before. Whoever else observes did so all along. -/
structure World.Joined (w w' : World σ) : Prop where
  issued : w.store.issued ≤ w'.store.issued
  observers : ∀ o ∈ w'.store.observers,
    o ∈ w.store.observers ∨ w.store.issued ≤ o.1 ∧ ∃ body, o.2 = .script body

namespace World

variable {w w' : World σ}

theorem steady_joined : Steady (Joined (σ := σ)) where
  refl w := ⟨Nat.le_refl _, fun _ => .inl⟩
  trans h h' := by
    refine ⟨Nat.le_trans h.issued h'.issued, fun o ho => ?_⟩
    rcases h'.observers o ho with ho | ⟨hid, hbody⟩
    · exact h.observers o ho
    · exact .inr ⟨Nat.le_trans h.issued hid, hbody⟩

theorem joined_of_store (hs : w'.store = w.store) : w.Joined w' :=
  ⟨Nat.le_of_eq (hs ▸ rfl), fun _ ho => .inl (hs ▸ ho)⟩

theorem lasting_joined : Lasting (Joined (σ := σ)) where
  toSteady := steady_joined
  put _ _ _ := ⟨Nat.le_refl _, fun _ => .inl⟩
  subscribe w body := by
    refine ⟨Nat.le_succ _, fun o ho => ?_⟩
    rcases List.mem_append.1 ho with ho | ho
    · exact .inl ho
    · cases List.mem_singleton.1 ho
      exact .inr ⟨Nat.le_refl _, body, rfl⟩
  unsubscribe _ _ := ⟨Nat.le_refl _, fun _ ho => .inl (List.mem_filter.1 ho).1⟩
  remember _ _ := joined_of_store rfl
  reshape h := joined_of_store h.store

end World

end LiveMarkup
