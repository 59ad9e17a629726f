import LiveMarkup.Proofs.Component.Tracking
import LiveMarkup.Proofs.Document.Renamed
import LiveMarkup.Proofs.Reactive.Signals

/-!
What may happen on a page: directives of its components are updated, and anything may happen to the
store and to memory. Signals bring about nothing else.
-/

namespace LiveMarkup

open LiveMarkup.Expression Relation

variable {σ : Type}

namespace Component

def Updates (c : Component σ) (w w' : World σ) : Prop :=
  ∃ d ∈ c.directives, ∃ depth r, Act.Ends (Run.update (Run.broadcast depth) c.methods d) w r w'

/-- A directive of one of the components is updated, or something happens to the store or to memory. -/
def Stirs (cs : List (Component σ)) (w w' : World σ) : Prop :=
  (∃ c ∈ cs, c.Updates w w') ∨ w'.document = w.document ∧ w'.presences = w.presences

/-- Whatever happens from `w` on, the component's directives change nothing outside. -/
def KeepsTo (c : Component σ) (S : Set NodeId) (cs : List (Component σ)) (w : World σ) : Prop :=
  ∀ u u', ReflTransGen (Stirs cs) w u → c.Updates u u' → u.document.ChangesIn S u'.document

end Component

def Observer.Serves (cs : List (Component σ)) : Observer σ → Prop
  | .script _ => True
  | .directive methods _ d => ∃ c ∈ cs, c.methods = methods ∧ d ∈ c.directives

theorem Observer.Impartial.serves {cs : List (Component σ)} {o : Observer σ} (h : o.Impartial) :
    o.Serves cs := by
  cases o with
  | script body => trivial
  | directive methods tracked d => exact h.elim

namespace Component

def Served (cs : List (Component σ)) (w : World σ) : Prop := ∀ o ∈ w.store.observers, o.2.Serves cs

def Stirring (cs : List (Component σ)) (w w' : World σ) : Prop :=
  Served cs w → Served cs w' ∧ ReflTransGen (Stirs cs) w w'

variable {cs : List (Component σ)} {w w' : World σ}

theorem stirring_of_shown (hd : w'.document = w.document) (hp : w'.presences = w.presences)
    (ho : ∀ o ∈ w'.store.observers, o ∈ w.store.observers ∨ o.2.Serves cs) : Stirring cs w w' :=
  fun hw => ⟨fun o hmem => (ho o hmem).elim (hw o) id, .single (.inr ⟨hd, hp⟩)⟩

theorem scripted_stirring (cs : List (Component σ)) : Scripted (Stirring cs) where
  refl w hw := ⟨hw, .refl⟩
  trans h h' hw := by
    obtain ⟨hv, hstirs⟩ := h hw
    obtain ⟨hw', hstirs'⟩ := h' hv
    exact ⟨hw', hstirs.trans hstirs'⟩
  put w field value := stirring_of_shown rfl rfl fun _ => .inl
  subscribe w body := by
    refine stirring_of_shown rfl rfl fun o ho => (List.mem_append.1 ho).imp_right fun ho => ?_
    cases List.mem_singleton.1 ho
    trivial
  unsubscribe w id := stirring_of_shown rfl rfl fun o ho => .inl (List.mem_filter.1 ho).1
  remember w memory := stirring_of_shown rfl rfl fun _ => .inl

section Signals

variable (hq : ∀ c ∈ cs, ∀ d ∈ c.directives, d.Calls c.methods.QuietAt) {depth : Nat} {e : Event}

include hq

theorem stirring_update {c : Component σ} (hc : c ∈ cs) {d : Directive} (hd : d ∈ c.directives) :
    Act.Keeps (Stirring cs) (Run.update (Run.broadcast depth) c.methods d) := by
  intro w r w' h hw
  obtain ⟨_, _, hends, -, hstore⟩ := Run.twin_update (Run.broadcast depth) (hq c hc d hd) w
  obtain ⟨-, rfl⟩ := Run.ends_det h hends
  exact ⟨fun o ho => hw o (hstore ▸ ho), .single (.inl ⟨c, hc, d, hd, depth, r, h⟩)⟩

theorem stirring_receive (hemit : ∀ e, Act.Keeps (Stirring cs) (Run.broadcast depth e))
    {o : Observer σ} (ho : o.Serves cs) :
    Act.Keeps (Stirring cs) (Run.receive (Run.broadcast depth) e o) := by
  have hR := scripted_stirring cs
  cases o with
  | script body =>
    exact Act.keeps_bind hR.toSteady (hR.keeps_script hemit (body e)) fun _ =>
      Act.keeps_pure hR.toSteady ()
  | directive methods tracked d =>
    obtain ⟨c, hc, rfl, hd⟩ := ho
    simp only [Run.receive]
    split
    · exact Act.keeps_pure hR.toSteady ()
    · exact stirring_update hq hc hd

theorem stirring_deliver (hemit : ∀ e, Act.Keeps (Stirring cs) (Run.broadcast depth e))
    {os : List (Nat × Observer σ)} (hos : ∀ o ∈ os, o.2.Serves cs) :
    Act.Keeps (Stirring cs) (Run.deliver (Run.broadcast depth) e os) := by
  have hR := scripted_stirring cs
  intro w r w' h
  induction os generalizing w r with
  | nil =>
    obtain ⟨-, rfl⟩ := Act.ends_pure.1 h
    exact hR.refl w'
  | cons o os ih =>
    obtain ⟨x, w₁, y, hx, hy, -⟩ := Run.ends_deliver_cons.1 h
    exact hR.trans (stirring_receive hq hemit (hos o (List.mem_cons_self ..)) w x w₁ hx)
      (ih (fun o ho => hos o (List.mem_cons_of_mem _ ho)) w₁ y hy)

theorem stirring_broadcast (depth : Nat) (e : Event) :
    Act.Keeps (Stirring cs) (Run.broadcast depth e) := by
  induction depth generalizing e with
  | zero =>
    intro w r w' h
    obtain ⟨_, -, h⟩ := Act.ends_ofRun.1 h
    cases h
  | succ depth ih =>
    intro w r w' h hw
    exact stirring_deliver hq ih hw w r w' (Act.ends_world_bind.1 h) hw

theorem stirs_sendAll {ss : List Signal} (hw : Served cs w)
    (h : Run.Ends (Signal.sendAll (Run.broadcast depth) ss) w () w') :
    ReflTransGen (Stirs cs) w w' :=
  (Signal.keeps_sendAll (scripted_stirring cs) (stirring_broadcast hq depth) ss w () w' h hw).2

end Signals

end Component

end LiveMarkup
