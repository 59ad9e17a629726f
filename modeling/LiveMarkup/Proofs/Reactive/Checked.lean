import LiveMarkup.Proofs.Component.Delivery
import LiveMarkup.Proofs.Reactive.Paired

/-!
Deliveries under a check. A check lets nothing go on unless a condition holds before and after each
observer is told. Where the directives uphold the condition, no check ever stops a run.
-/

namespace LiveMarkup

open LiveMarkup.Expression

variable {σ : Type}

namespace Run

open Classical in
noncomputable def check (P : World σ → Prop) : Run σ Unit := do
  let w ← get
  if P w then pure () else failure

noncomputable def deliverChecked (P : World σ → Prop) (emit : Emit σ) (e : Event) :
    List (Nat × Observer σ) → Act σ Unit
  | [] => pure ()
  | o :: os => do
    Act.ofRun (check P)
    let first ← Act.attempt (receive emit e o.2)
    Act.ofRun (check P)
    let others ← Act.attempt (deliverChecked P emit e os)
    Act.ofResult (firstError first others)

/-- Tells events as `broadcast` does, but those that nest too deep as `beyond` does. -/
def broadcastOver (beyond : Emit σ) : Nat → Emit σ
  | 0 => beyond
  | depth + 1 => fun e => do
    let w ← Act.world
    deliver (broadcastOver beyond depth) e w.store.observers

noncomputable def broadcastChecked (P : World σ → Prop) (beyond : Emit σ) : Nat → Emit σ
  | 0 => beyond
  | depth + 1 => fun e => do
    let w ← Act.world
    deliverChecked P (broadcastChecked P beyond depth) e w.store.observers

/-- A run that comes here has no end. -/
def endless : Emit σ := fun _ => Act.ofRun failure

def untold : Emit σ := fun _ => pure ()

def Idle (emit : Emit σ) : Prop := ∀ e w r w', Act.Ends (emit e) w r w' → w' = w

theorem idle_endless : Idle (endless : Emit σ) := by
  intro e w r w' h
  obtain ⟨_, -, h⟩ := Act.ends_ofRun.1 h
  cases h

theorem idle_untold : Idle (untold : Emit σ) := fun _ _ _ _ h => (Act.ends_pure.1 h).2

theorem broadcast_eq_over (depth : Nat) : (broadcast depth : Emit σ) = broadcastOver endless depth := by
  induction depth with
  | zero => rfl
  | succ depth ih => rw [broadcast, broadcastOver, ih]

theorem ends_check {P : World σ → Prop} {w : World σ} (h : P w) : Ends (check P) w () w :=
  ends_bind.2 ⟨w, w, ends_get.2 ⟨rfl, rfl⟩, by rw [if_pos h]; exact ends_pure.2 ⟨rfl, rfl⟩⟩

end Run

def Observer.Among (methods : Methods σ) (ds : List Directive) : Observer σ → Prop
  | .script _ => True
  | .directive methods' _ d => methods' = methods ∧ d ∈ ds

structure World.Kept (methods : Methods σ) (ds : List Directive) (P : World σ → Prop)
    (w : World σ) : Prop where
  among : ∀ o ∈ w.store.observers, o.2.Among methods ds
  holds : P w

def Shown (P : World σ → Prop) : Prop :=
  ∀ {w w' : World σ}, w'.document = w.document → w'.presences = w.presences → P w → P w'

structure Upheld (ds : List Directive) (P : World σ → Prop) : Prop where
  shown : Shown P
  refreshed : ∀ w i, .interpolation i ∈ ds → P w → P (w.refreshed i)
  settled : ∀ w c visible, .conditional c ∈ ds → P w → P (w.settled c visible)

namespace World.Kept

variable {methods : Methods σ} {ds : List Directive} {P : World σ → Prop} {w : World σ}

theorem of_shown (h : w.Kept methods ds P) (hP : Shown P) {w' : World σ}
    (hs : ∀ o ∈ w'.store.observers, o ∈ w.store.observers ∨ o.2.Among methods ds)
    (hd : w'.document = w.document) (hp : w'.presences = w.presences) : w'.Kept methods ds P :=
  ⟨fun o ho => (hs o ho).elim (h.among o) id, hP hd hp h.holds⟩

theorem put (h : w.Kept methods ds P) (hP : Shown P) (field : String) (value : Value) :
    World.Kept methods ds P { w with store := w.store.put field value } :=
  h.of_shown hP (fun _ => .inl) rfl rfl

theorem remember (h : w.Kept methods ds P) (hP : Shown P) (memory : σ) :
    World.Kept methods ds P { w with memory := memory } := h.of_shown hP (fun _ => .inl) rfl rfl

theorem subscribe (h : w.Kept methods ds P) (hP : Shown P) {o : Observer σ}
    (ho : o.Among methods ds) : World.Kept methods ds P { w with store := w.store.subscribe o } := by
  refine h.of_shown hP (fun o' ho' => ?_) rfl rfl
  rcases List.mem_append.1 ho' with ho' | ho'
  · exact .inl ho'
  · cases List.mem_singleton.1 ho'
    exact .inr ho

theorem unsubscribe (h : w.Kept methods ds P) (hP : Shown P) (id : Nat) :
    World.Kept methods ds P { w with store := w.store.unsubscribe id } :=
  h.of_shown hP (fun _ ho => .inl (List.mem_filter.1 ho).1) rfl rfl

end World.Kept

/-- From where the directives and `P` are kept, the second run ends as the first one does, and they are
kept there. -/
def upholding (methods : Methods σ) (ds : List Directive) (P : World σ → Prop) : Pairing σ σ where
  Rel a b := ∀ w x w', w.Kept methods ds P → Run.Ends a w x w' →
    Run.Ends b w x w' ∧ w'.Kept methods ds P
  pure x := by
    intro w y w' hw h
    obtain ⟨rfl, rfl⟩ := Run.ends_pure.1 h
    exact ⟨h, hw⟩
  bind hab hfg := by
    intro w y w' hw h
    obtain ⟨x, w₁, hx, hy⟩ := Run.ends_bind.1 h
    obtain ⟨hb, hw₁⟩ := hab w x w₁ hw hx
    obtain ⟨hg, hw'⟩ := hfg x w₁ y w' hw₁ hy
    exact ⟨Run.ends_bind.2 ⟨x, w₁, hb, hg⟩, hw'⟩

def Concur (methods : Methods σ) (ds : List Directive) (P : World σ → Prop)
    (emit emit' : Emit σ) : Prop := ∀ e, (upholding methods ds P).Acts (emit e) (emit' e)

section Emit

variable {methods : Methods σ} {ds : List Directive} {P : World σ → Prop} {emit emit' : Emit σ}

theorem Concur.self (h : Concur methods ds P emit emit') : Concur methods ds P emit emit :=
  fun e w r w' hw ht => ⟨ht, (h e w r w' hw ht).2⟩

theorem upholding_get : (upholding methods ds P).Rel (get : Run σ (World σ)) get := by
  intro w x w' hw h
  obtain ⟨-, rfl⟩ := Run.ends_get.1 h
  exact ⟨h, hw⟩

theorem upholding_getField (name : String) :
    (upholding methods ds P).Rel (Run.getField name) (Run.getField name) := by
  intro w x w' hw h
  obtain ⟨-, rfl⟩ := Run.ends_getField.1 h
  exact ⟨h, hw⟩

theorem Run.Idle.concur {beyond : Emit σ} (h : Idle beyond) : Concur methods ds P beyond beyond := by
  intro e w r w' hw ht
  rw [h e w r w' ht]
  exact ⟨h e w r w' ht ▸ ht, hw⟩

section Scripts

variable (hP : Shown P) (hemit : Concur methods ds P emit emit')

include hP hemit

theorem upholding_setField (field : String) (value : Value) :
    (upholding methods ds P).Acts (Run.setField emit field value)
      (Run.setField emit' field value) := by
  intro w r w' hw h
  have h := Run.ends_setField.1 h
  by_cases hholds : w.store.holds field value = true
  · rw [if_pos hholds] at h
    obtain ⟨rfl, rfl⟩ := h
    exact ⟨Run.ends_setField.2 (by rw [if_pos hholds]; exact ⟨rfl, rfl⟩), hw⟩
  · rw [if_neg hholds] at h
    have htell := Pairing.acts_bind _ (hemit ⟨field, value⟩) fun _ => Pairing.acts_pure _ true
    obtain ⟨h', hw'⟩ := htell _ _ _ (hw.put hP field value) h
    exact ⟨Run.ends_setField.2 (by rw [if_neg hholds]; exact h'), hw'⟩

omit hP in
theorem upholding_announce (field : String) :
    (upholding methods ds P).Acts (Run.announce emit field) (Run.announce emit' field) :=
  Pairing.acts_bind _ (Pairing.acts_ofRun _ upholding_get) fun _ => hemit _

theorem upholding_script (s : Script σ) :
    (upholding methods ds P).Acts (s.run emit) (s.run emit') := by
  have hget : (upholding methods ds P).Acts Act.world Act.world := Pairing.acts_ofRun _ upholding_get
  induction s with
  | done result => exact Pairing.acts_ofResult _ result
  | look next ih => exact Pairing.acts_bind _ hget fun w => ih w.store.fields
  | write field value next ih =>
    have hset := upholding_setField hP hemit field value
    exact Pairing.acts_bind _ (Pairing.acts_attempt _ hset) ih
  | announce field next ih =>
    have htell := upholding_announce hemit field
    exact Pairing.acts_bind _ (Pairing.acts_attempt _ htell) ih
  | subscribe body next _ ih =>
    refine Pairing.acts_bind _ (Pairing.acts_ofRun _ fun w id w' hw h => ⟨h, ?_⟩) ih
    rw [(Run.ends_subscribe.1 h).2]
    exact hw.subscribe hP trivial
  | unsubscribe id next ih =>
    refine Pairing.acts_bind _ (Pairing.acts_ofRun _ fun w present w' hw h => ⟨h, ?_⟩) ih
    rw [(Run.ends_unsubscribe.1 h).2]
    exact hw.unsubscribe hP id
  | «recall» next ih => exact Pairing.acts_bind _ hget fun w => ih w.memory
  | remember memory next ih =>
    refine Pairing.acts_bind _ (Pairing.acts_ofRun _ fun w _ w' hw h => ⟨h, ?_⟩) fun _ => ih
    rw [Run.ends_modify.1 h]
    exact hw.remember hP memory

theorem upholding_call (name : String) (vs : List Value) :
    (upholding methods ds P).Acts ((Run.scope emit methods).call name vs)
      ((Run.scope emit' methods).call name vs) := by
  simp only [Run.scope]
  cases methods.find? name with
  | none => exact Pairing.acts_throw _ _
  | some method => exact upholding_script hP hemit (method vs)

theorem upholding_evaluate (c : Compiled) :
    (upholding methods ds P).Acts (c.evaluate (Run.scope emit methods))
      (c.evaluate (Run.scope emit' methods)) :=
  Pairing.evaluate _ upholding_getField (upholding_call hP hemit) c

theorem upholding_invoke (call : Call) :
    (upholding methods ds P).Acts (call.invoke (Run.scope emit methods))
      (call.invoke (Run.scope emit' methods)) :=
  Pairing.invoke _ upholding_getField (upholding_call hP hemit) call.name call.arguments

end Scripts

section Directives

variable (hP : Upheld ds P) (hemit : Concur methods ds P emit emit')

include hP hemit

theorem upholding_update {d : Directive} (hd : d ∈ ds) :
    (upholding methods ds P).Acts (Run.update emit methods d) (Run.update emit' methods d) := by
  cases d with
  | interpolation i =>
    refine Pairing.acts_ofRun _ fun w _ w' hw h => ⟨h, ?_⟩
    rw [Run.ends_refreshUngated.1 h]
    have hr := w.reshapes_refreshed i
    exact ⟨hr.store ▸ hw.among, hP.refreshed w i hd hw.holds⟩
  | conditional c =>
    refine Pairing.acts_bind _ (upholding_evaluate hP.shown hemit c.predicate) fun v => ?_
    refine Pairing.acts_ofRun _ fun w _ w' hw h => ⟨h, ?_⟩
    rw [Run.ends_settle.1 h]
    have hr := w.reshapes_settled c v.truthy
    exact ⟨hr.store ▸ hw.among, hP.settled w c v.truthy hd hw.holds⟩

theorem upholding_receive (e : Event) {o : Observer σ} (ho : o.Among methods ds) :
    (upholding methods ds P).Acts (Run.receive emit e o) (Run.receive emit' e o) := by
  cases o with
  | script body =>
    exact Pairing.acts_bind _ (upholding_script hP.shown hemit (body e)) fun _ =>
      Pairing.acts_pure _ ()
  | directive methods' tracked d =>
    obtain ⟨rfl, hd⟩ := ho
    simp only [Run.receive]
    split
    · exact Pairing.acts_pure _ ()
    · exact upholding_update hP hemit hd

variable {Q : World σ → Prop} (hQ : ∀ {w}, w.Kept methods ds P → Q w)

include hQ

omit hP hemit in
theorem acts_check {α : Type} {a b : Act σ α} (h : (upholding methods ds P).Acts a b) :
    (upholding methods ds P).Acts a (Act.ofRun (Run.check Q) >>= fun _ => b) := by
  intro w r w' hw ha
  obtain ⟨hb, hw'⟩ := h w r w' hw ha
  exact ⟨Act.ends_ofRun_bind.2 ⟨(), w, Run.ends_check (hQ hw), hb⟩, hw'⟩

theorem upholding_deliver (e : Event) {os : List (Nat × Observer σ)}
    (hos : ∀ o ∈ os, o.2.Among methods ds) :
    (upholding methods ds P).Acts (Run.deliver emit e os) (Run.deliverChecked Q emit' e os) := by
  -- an observer that was taken off meanwhile is told all the same
  induction os with
  | nil => exact Pairing.acts_pure _ ()
  | cons o os ih =>
    have hfirst := upholding_receive hP hemit e (hos o (List.mem_cons_self ..))
    have hothers := ih fun o' ho' => hos o' (List.mem_cons_of_mem _ ho')
    refine acts_check hQ (Pairing.acts_bind _ (Pairing.acts_attempt _ hfirst) fun first => ?_)
    refine acts_check hQ (Pairing.acts_bind _ (Pairing.acts_attempt _ hothers) fun others => ?_)
    exact Pairing.acts_ofResult _ _

end Directives

theorem concur_broadcast (hP : Upheld ds P) {Q : World σ → Prop}
    (hQ : ∀ {w}, w.Kept methods ds P → Q w) {beyond : Emit σ} (hb : Concur methods ds P beyond beyond) (depth : Nat) :
    Concur methods ds P (Run.broadcastOver beyond depth) (Run.broadcastChecked Q beyond depth) := by
  induction depth with
  | zero => exact hb
  | succ depth ih =>
    intro e w r w' hw h
    obtain ⟨h', hw'⟩ := upholding_deliver hP ih hQ e hw.among w r w' hw (Act.ends_world_bind.1 h)
    exact ⟨Act.ends_world_bind.2 h', hw'⟩

end Emit

end LiveMarkup
