import LiveMarkup.Proofs.Component.Delivery
import LiveMarkup.Proofs.Reactive.Logged

/-!
No notification is lost, told twice or told out of order, however deep writes nest in deliveries. The
rules below say what a log may be; the log of every run that ends is made by them.
-/

namespace LiveMarkup

open LiveMarkup.Expression

variable {σ : Type}

structure Register where
  fields : Table Value
  ids : List Nat
  issued : Nat

namespace Register

def get (g : Register) (field : String) : Value := (g.fields.find? field).getD .undefined

def holds (g : Register) (field : String) (value : Value) : Bool := (g.get field).strictEq value

def put (g : Register) (field : String) (value : Value) : Register :=
  { g with fields := g.fields.insert field value }

def subscribe (g : Register) : Register :=
  { g with ids := g.ids ++ [g.issued], issued := g.issued + 1 }

def unsubscribe (g : Register) (id : Nat) : Register := { g with ids := g.ids.filter (· != id) }

end Register

def outcome : List (Except EvalError Unit) → Except EvalError Unit
  | [] => .ok ()
  | .error e :: _ => .error e
  | .ok _ :: rs => outcome rs

mutual

inductive Record : Register → Log → Register → Prop
  | nil (g) : Record g [] g
  | append {g l g₁ l₁ g₂} : Record g l g₁ → Record g₁ l₁ g₂ → Record g (l ++ l₁) g₂
  /-- A write of the value that is there tells nobody and changes nothing. -/
  | kept {g field value} : g.holds field value = true →
    Record g [.write field value, .answer (.ok false)] g
  /-- Any other write stores the value, then tells of it, and is answered when all have heard. -/
  | changed {g field value l r g₁} : g.holds field value = false →
    Telling ⟨field, value⟩ (g.put field value) l r g₁ →
    Record g (.write field value :: (l ++ [.answer (r.map fun _ => true)])) g₁
  | announced {g field l r g₁} : Telling ⟨field, g.get field⟩ g l r g₁ →
    Record g (.announce field :: (l ++ [.announced r])) g₁
  | subscribed (g) : Record g [.subscribed g.issued] g.subscribe
  | unsubscribed (g id) : Record g [.unsubscribed id (g.ids.contains id)] (g.unsubscribe id)

inductive Telling : Event → Register → Log → Except EvalError Unit → Register → Prop
  | mk {e g l rs g₁} : Round e g.ids g l rs g₁ →
    Telling e g (.opened e g.ids :: (l ++ [.closed (outcome rs)])) (outcome rs) g₁

/-- What is noted while an event is told to some observers, one after another. Whatever an observer
does is over when the next one is told. -/
inductive Round : Event → List Nat → Register → Log → List (Except EvalError Unit) → Register → Prop
  | nil (e g) : Round e [] g [] [] g
  | cons {e id ids g l r g₁ l₁ rs g₂} : Record g l g₁ → Round e ids g₁ l₁ rs g₂ →
    Round e (id :: ids) g (.told id e g.fields :: (l ++ .heard id r :: l₁)) (r :: rs) g₂

end

def World.register (w : World σ) : Register := ⟨w.store.fields, w.ids, w.store.issued⟩

namespace World

variable {w w' : World σ}

theorem register_of_store (h : w'.store = w.store) : w'.register = w.register := by
  rw [register, register, ids, ids, h]

theorem register_subscribe (w : World σ) (o : Observer σ) :
    World.register { w with store := w.store.subscribe o } = w.register.subscribe := by
  simp [register, ids, Store.subscribe, Register.subscribe]

theorem register_unsubscribe (w : World σ) (id : Nat) :
    World.register { w with store := w.store.unsubscribe id } = w.register.unsubscribe id := by
  simp [register, ids, Store.unsubscribe, Register.unsubscribe, List.filter_map, Function.comp_def]

end World

theorem outcome_cons (r : Except EvalError Unit) (rs : List (Except EvalError Unit)) :
    outcome (r :: rs) = Run.firstError r (outcome rs) := by cases r <;> rfl

def recorded (σ : Type) : Pairing σ (σ × Log) where
  Rel a b := ∀ w x w', Run.Ends a w x w' → ∃ l, Record w.register l w'.register ∧
    ∀ log, Run.Ends b (w.logged log) x (w'.logged (log ++ l))
  pure x := by
    intro w y w' h
    obtain ⟨rfl, rfl⟩ := Run.ends_pure.1 h
    exact ⟨[], .nil _, fun log => Run.ends_pure.2 ⟨rfl, by rw [List.append_nil]⟩⟩
  bind hab hfg := by
    intro w y w' h
    obtain ⟨x, w₁, hx, hy⟩ := Run.ends_bind.1 h
    obtain ⟨l, hl, hb⟩ := hab w x w₁ hx
    obtain ⟨l₁, hl₁, hg⟩ := hfg x w₁ y w' hy
    refine ⟨l ++ l₁, hl.append hl₁, fun log => Run.ends_bind.2 ⟨x, _, hb log, ?_⟩⟩
    rw [← List.append_assoc]
    exact hg _

def Tells (emit : Emit σ) (emitLogged : Emit (σ × Log)) : Prop :=
  ∀ e w r w', Act.Ends (emit e) w r w' → ∃ l, Telling e w.register l r w'.register ∧
    ∀ log, Act.Ends (emitLogged e) (w.logged log) r (w'.logged (log ++ l))

section Emit

variable {emit : Emit σ} {emitLogged : Emit (σ × Log)} (hemit : Tells emit emitLogged)

include hemit

theorem Tells.setField {field : String} {value : Value} {w w' : World σ} {r : Except EvalError Bool}
    (h : Act.Ends (Run.setField emit field value) w r w') :
    ∃ l, Record w.register (.write field value :: (l ++ [.answer r])) w'.register ∧
      ∀ log, Act.Ends (Run.setField emitLogged field value) (w.logged log) r
        (w'.logged (log ++ l)) := by
  have h := Run.ends_setField.1 h
  split at h
  · next hholds =>
    obtain ⟨rfl, rfl⟩ := h
    refine ⟨[], .kept hholds, fun log => Run.ends_setField.2 ?_⟩
    have hlogged : (w'.logged log).store.holds field value = true := hholds
    rw [if_pos hlogged, List.append_nil]
    exact ⟨rfl, rfl⟩
  · next hholds =>
    have hlogged (log : Log) : ¬(w.logged log).store.holds field value = true := hholds
    have hput : Register.holds w.register field value = false := Bool.eq_false_iff.2 hholds
    rcases Act.ends_bind.1 h with ⟨e, he, rfl⟩ | ⟨u, w₁, he, hpure⟩
    · obtain ⟨l, hl, hb⟩ := hemit _ _ _ _ he
      refine ⟨l, .changed hput hl, fun log => Run.ends_setField.2 ?_⟩
      rw [if_neg (hlogged log)]
      exact Act.ends_bind.2 (.inl ⟨e, hb log, rfl⟩)
    · obtain ⟨rfl, rfl⟩ := Act.ends_pure.1 hpure
      obtain ⟨l, hl, hb⟩ := hemit _ _ _ _ he
      refine ⟨l, .changed hput hl, fun log => Run.ends_setField.2 ?_⟩
      rw [if_neg (hlogged log)]
      exact Act.ends_bind.2 (.inr ⟨u, _, hb log, Act.ends_pure.2 ⟨rfl, rfl⟩⟩)

theorem Tells.announce {field : String} {w w' : World σ} {r : Except EvalError Unit}
    (h : Act.Ends (Run.announce emit field) w r w') :
    ∃ l, Record w.register (.announce field :: (l ++ [.announced r])) w'.register ∧
      ∀ log, Act.Ends (Run.announce emitLogged field) (w.logged log) r (w'.logged (log ++ l)) := by
  obtain ⟨l, hl, hb⟩ := hemit _ _ _ _ (Act.ends_world_bind.1 h)
  exact ⟨l, .announced hl, fun log => Act.ends_world_bind.2 (hb log)⟩

theorem Script.run_recorded {s : Script σ} {w w' : World σ} {r : Except EvalError Value}
    (h : Act.Ends (s.run emit) w r w') : ∃ l, Record w.register l w'.register ∧
      ∀ log, Act.Ends (s.logged.run emitLogged) (w.logged log) r (w'.logged (log ++ l)) := by
  induction s generalizing w with
  | done result =>
    obtain ⟨rfl, rfl⟩ := Act.ends_ofResult.1 h
    exact ⟨[], .nil _, fun log => Act.ends_ofResult.2 ⟨rfl, by rw [List.append_nil]⟩⟩
  | look next ih =>
    obtain ⟨l, hl, hb⟩ := ih _ (Act.ends_world_bind.1 h)
    exact ⟨l, hl, fun log => Act.ends_world_bind.2 (hb log)⟩
  | write field value next ih =>
    obtain ⟨x, w₁, hx, hn⟩ := Act.ends_attempt_bind.1 h
    obtain ⟨l, hl, hb⟩ := hemit.setField hx
    obtain ⟨l₁, hl₁, hnext⟩ := ih x hn
    refine ⟨_, hl.append hl₁, fun log => ends_mark.2 (Act.ends_attempt_bind.2 ⟨x, _, hb _, ?_⟩)⟩
    have hrest := hnext (log ++ [.write field value] ++ l ++ [.answer x])
    refine ends_mark.2 ?_
    simpa using hrest
  | announce field next ih =>
    obtain ⟨x, w₁, hx, hn⟩ := Act.ends_attempt_bind.1 h
    obtain ⟨l, hl, hb⟩ := hemit.announce hx
    obtain ⟨l₁, hl₁, hnext⟩ := ih x hn
    refine ⟨_, hl.append hl₁, fun log => ends_mark.2 (Act.ends_attempt_bind.2 ⟨x, _, hb _, ?_⟩)⟩
    have hrest := hnext (log ++ [.announce field] ++ l ++ [.announced x])
    refine ends_mark.2 ?_
    simpa using hrest
  | subscribe body next _ ih =>
    obtain ⟨id, w₁, hid, hn⟩ := Act.ends_ofRun_bind.1 h
    obtain ⟨rfl, rfl⟩ := Run.ends_subscribe.1 hid
    obtain ⟨l, hl, hb⟩ := ih _ hn
    rw [World.register_subscribe] at hl
    refine ⟨_, (Record.subscribed w.register).append hl, fun log => ?_⟩
    refine Act.ends_ofRun_bind.2 ⟨_, _, Run.ends_subscribe.2 ⟨rfl, rfl⟩, ?_⟩
    have hjoined := w.logged_subscribe log (.script body)
    rw [Observer.logged] at hjoined
    rw [← hjoined, ← List.append_assoc]
    exact ends_mark.2 (hb _)
  | unsubscribe id next ih =>
    obtain ⟨present, w₁, hid, hn⟩ := Act.ends_ofRun_bind.1 h
    obtain ⟨rfl, rfl⟩ := Run.ends_unsubscribe.1 hid
    obtain ⟨l, hl, hb⟩ := ih _ hn
    rw [World.register_unsubscribe] at hl
    have hpresent : w.store.isSubscribed id = w.register.ids.contains id := w.isSubscribed_eq id
    rw [hpresent] at hb
    refine ⟨_, (Record.unsubscribed w.register id).append hl, fun log => ?_⟩
    refine Act.ends_ofRun_bind.2 ⟨_, _, Run.ends_unsubscribe.2 ⟨rfl, rfl⟩, ?_⟩
    rw [← World.logged_unsubscribe, World.isSubscribed_logged, hpresent, ← List.append_assoc]
    exact ends_mark.2 (hb _)
  | «recall» next ih =>
    obtain ⟨l, hl, hb⟩ := ih _ (Act.ends_world_bind.1 h)
    exact ⟨l, hl, fun log => Act.ends_world_bind.2 (hb log)⟩
  | remember memory next ih =>
    obtain ⟨_, w₁, hm, hn⟩ := Act.ends_ofRun_bind.1 h
    rw [Run.ends_modify.1 hm] at hn
    obtain ⟨l, hl, hb⟩ := ih hn
    exact ⟨l, hl, fun log => ends_note.2 (hb log)⟩

theorem Run.scope_recorded (methods : Methods σ) (name : String) (vs : List Value) :
    (recorded σ).Acts ((Run.scope emit methods).call name vs)
      ((Run.scope emitLogged methods.logged).call name vs) := by
  simp only [Run.scope, Methods.logged, Table.find?_mapValues]
  cases methods.find? name with
  | none => exact (recorded σ).acts_throw _
  | some method => exact fun w r w' h => Script.run_recorded hemit h

omit hemit in
theorem Run.field_recorded (methods : Methods σ) (name : String) :
    (recorded σ).Rel ((Run.scope emit methods).field name)
      ((Run.scope emitLogged methods.logged).field name) := by
  intro w v w' h
  obtain ⟨rfl, rfl⟩ := Run.ends_getField.1 h
  exact ⟨[], .nil _, fun log => Run.ends_getField.2 ⟨rfl, by rw [List.append_nil]⟩⟩

omit hemit in
theorem recorded_of_map {a : Run σ Unit} {b : Run (σ × Log) Unit} {f : World σ → World σ}
    {g : World (σ × Log) → World (σ × Log)} (ha : ∀ w u w', Run.Ends a w u w' → w' = f w)
    (hb : ∀ w u, Run.Ends b w u (g w)) (hstore : ∀ w, (f w).store = w.store)
    (hlogged : ∀ w log, (f w).logged log = g (w.logged log)) : (recorded σ).Rel a b := by
  intro w u w' h
  rw [ha w u w' h]
  refine ⟨[], ?_, fun log => ?_⟩
  · rw [World.register_of_store (hstore w)]
    exact .nil _
  · rw [List.append_nil, hlogged]
    exact hb _ u

theorem Run.update_recorded (methods : Methods σ) (d : Directive) :
    (recorded σ).Acts (Run.update emit methods d) (Run.update emitLogged methods.logged d) := by
  cases d with
  | interpolation i =>
    refine (recorded σ).acts_ofRun (recorded_of_map (fun _ _ _ => Run.ends_refreshUngated.1)
      (fun w u => Run.ends_refreshUngated.2 rfl) (fun w => (w.reshapes_refreshed i).store) ?_)
    exact fun w log => w.logged_refreshed log i
  | conditional c =>
    refine (recorded σ).acts_bind ((recorded σ).evaluate (Run.field_recorded methods)
      (Run.scope_recorded hemit methods) c.predicate) fun v => ?_
    refine (recorded σ).acts_ofRun (recorded_of_map (fun _ _ _ => Run.ends_settle.1)
      (fun w u => Run.ends_settle.2 rfl) (fun w => (w.reshapes_settled c v.truthy).store) ?_)
    exact fun w log => w.logged_settled log c v.truthy

theorem Run.receive_recorded (e : Event) (o : Observer σ) :
    (recorded σ).Acts (Run.receive emit e o) (Run.receive emitLogged e o.logged) := by
  cases o with
  | script body =>
    exact (recorded σ).acts_bind (fun w r w' h => Script.run_recorded hemit h)
      fun _ => (recorded σ).acts_pure ()
  | directive methods tracked d =>
    simp only [Run.receive, Observer.logged]
    split
    · exact (recorded σ).acts_pure ()
    · exact Run.update_recorded hemit methods d

theorem Run.deliver_recorded {e : Event} {os : List (Nat × Observer σ)} {w w' : World σ}
    {r : Except EvalError Unit} (h : Act.Ends (Run.deliver emit e os) w r w') :
    ∃ l rs, Round e (os.map Prod.fst) w.register l rs w'.register ∧ r = outcome rs ∧
      ∀ log, Act.Ends (Run.deliverLogged emitLogged e (os.map fun o => (o.1, o.2.logged)))
        (w.logged log) r (w'.logged (log ++ l)) := by
  induction os generalizing w r with
  | nil =>
    obtain ⟨rfl, rfl⟩ := Act.ends_pure.1 h
    exact ⟨[], [], .nil _ _, rfl, fun log => Act.ends_pure.2 ⟨rfl, by rw [List.append_nil]⟩⟩
  | cons o os ih =>
    obtain ⟨x, w₁, y, hx, hy, rfl⟩ := Run.ends_deliver_cons.1 h
    obtain ⟨l, hl, hb⟩ := Run.receive_recorded hemit e o.2 w x w₁ hx
    obtain ⟨l₁, rs, hround, rfl, hrest⟩ := ih hy
    refine ⟨_, _, .cons (r := x) hl hround, (outcome_cons x rs).symm, fun log => ?_⟩
    refine Act.ends_world_bind.2 (Act.ends_mark_bind.2 (Act.ends_attempt_bind.2 ⟨x, _, hb _, ?_⟩))
    refine Act.ends_mark_bind.2 (Act.ends_attempt_bind.2 ⟨_, _, hrest _, ?_⟩)
    refine Act.ends_ofResult.2 ⟨rfl, ?_⟩
    simp
    rfl

end Emit

theorem tells_broadcast (depth : Nat) :
    Tells (Run.broadcast depth : Emit σ) (Run.broadcastLogged depth) := by
  induction depth with
  | zero =>
    intro e w r w' h
    obtain ⟨_, -, h⟩ := Act.ends_ofRun.1 h
    cases h
  | succ depth ih =>
    intro e w r w' h
    obtain ⟨l, rs, hround, rfl, hb⟩ := Run.deliver_recorded ih (Act.ends_world_bind.1 h)
    refine ⟨_, .mk hround, fun log => ?_⟩
    refine Act.ends_world_bind.2 (Act.ends_mark_bind.2 (Act.ends_attempt_bind.2 ⟨_, _, hb _, ?_⟩))
    refine Act.ends_mark_bind.2 (Act.ends_ofResult.2 ⟨rfl, ?_⟩)
    rw [World.ids_logged]
    simp
    rfl

/-- The first observer writes another field, takes the second one off and puts on a new one; the second
one fails all the same. -/
def crowded : World Unit where
  store := ⟨[], [
    (0, .script fun e =>
      if e.field = "a" then
        .write "b" e.value fun _ => .unsubscribe 1 fun _ =>
          .subscribe (fun _ => .give .null) fun _ => .give .null
      else .give .null),
    (1, .script fun _ => .fail (.method "second" "no"))], 2⟩
  document := .empty
  presences := #[]
  memory := ()

end LiveMarkup
