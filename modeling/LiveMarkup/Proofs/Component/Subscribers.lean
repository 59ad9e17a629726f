import LiveMarkup.Proofs.Component.Listed

/-!
Who observes a store. Outside code subscribes and unsubscribes, components are mounted, called and
dropped, in any order; the observers are those outside that were not taken off, and the directives of
the components that are alive.
-/

namespace LiveMarkup

open LiveMarkup.Expression
open World (steady_joined lasting_joined)

variable {σ α : Type} {w w' : World σ} {own : List (Nat × Observer σ)} {log l : Log} {depth : Nat}

/-- Every end of the first run is an end of the second one, but for a log, and on the way there only
outside code was at work on the observers. -/
def passing (σ : Type) : Pairing σ (σ × Log) where
  Rel a b := ∀ w x w', Run.Ends a w x w' → ∃ l, (w.register.Passes l w'.register ∧ w.Joined w') ∧
    ∀ log, Run.Ends b (w.logged log) x (w'.logged (log ++ l))
  pure x := by
    intro w y w' h
    obtain ⟨rfl, rfl⟩ := Run.ends_pure.1 h
    exact ⟨[], ⟨.refl _, steady_joined.refl _⟩,
      fun log => Run.ends_pure.2 ⟨rfl, by rw [List.append_nil]⟩⟩
  bind hab hfg := by
    intro w y w' h
    obtain ⟨x, w₁, hx, hy⟩ := Run.ends_bind.1 h
    obtain ⟨l, ⟨hl, hj⟩, hb⟩ := hab w x w₁ hx
    obtain ⟨l₁, ⟨hl₁, hj₁⟩, hg⟩ := hfg x w₁ y w' hy
    refine ⟨l ++ l₁, ⟨hl.append hl₁, steady_joined.trans hj hj₁⟩,
      fun log => Run.ends_bind.2 ⟨x, _, hb log, ?_⟩⟩
    rw [← List.append_assoc]
    exact hg _

theorem passing_of_recorded {a : Act σ α} {b : Act (σ × Log) α} (h : (recorded σ).Acts a b)
    (hj : Act.Keeps World.Joined a) : (passing σ).Acts a b := by
  intro w x w' hx
  obtain ⟨l, hl, hb⟩ := h w x w' hx
  exact ⟨l, ⟨hl.passes, hj w x w' hx⟩, hb⟩

theorem passing_script (depth : Nat) (s : Script σ) :
    (passing σ).Acts (s.run (Run.broadcast depth)) (s.logged.run (Run.broadcastLogged depth)) :=
  passing_of_recorded (fun _ _ _ h => Script.run_recorded (tells_broadcast depth) h)
    (lasting_joined.toScripted.keeps_script (lasting_joined.keeps_broadcast depth) s)

theorem passing_update (depth : Nat) (methods : Methods σ) (d : Directive) :
    (passing σ).Acts (Run.update (Run.broadcast depth) methods d)
      (Run.update (Run.broadcastLogged depth) methods.logged d) :=
  passing_of_recorded (Run.update_recorded (tells_broadcast depth) methods d)
    (lasting_joined.keeps_update (lasting_joined.keeps_broadcast depth) methods d)

theorem passing_setField (depth : Nat) (field : String) (value : Value) :
    (passing σ).Acts (Run.setField (Run.broadcast depth) field value)
      (Run.setField (Run.broadcastLogged depth) field value) := by
  intro w r w' h
  obtain ⟨l, hl, hb⟩ := (tells_broadcast depth).setField h
  have hj := lasting_joined.toScripted.keeps_setField (lasting_joined.keeps_broadcast depth) field
    value w r w' h
  exact ⟨l, ⟨.of_noted rfl (.of_note rfl hl.passes), hj⟩, hb⟩

theorem passing_announce (depth : Nat) (field : String) :
    (passing σ).Acts (Run.announce (Run.broadcast depth) field)
      (Run.announce (Run.broadcastLogged depth) field) := by
  intro w r w' h
  obtain ⟨l, hl, hb⟩ := (tells_broadcast depth).announce h
  have hj := Scripted.keeps_announce (lasting_joined.keeps_broadcast depth) field w r w' h
  exact ⟨l, ⟨.of_noted rfl (.of_note rfl hl.passes), hj⟩, hb⟩

theorem passing_invoke (depth : Nat) (methods : Methods σ) (call : Call) :
    (passing σ).Acts (call.invoke (Run.scope (Run.broadcast depth) methods))
      (call.invoke (Run.scope (Run.broadcastLogged depth) methods.logged)) := by
  refine (passing σ).invoke (fun name w v w' h => ?_) (fun name vs => ?_) call.name call.arguments
  · obtain ⟨l, hl, hb⟩ := Run.field_recorded methods name w v w' h
    exact ⟨l, ⟨hl.passes, Run.scope_field_keeps steady_joined methods name w v w' h⟩, hb⟩
  · exact passing_of_recorded (Run.scope_recorded (tells_broadcast depth) methods name vs)
      (lasting_joined.keeps_call (lasting_joined.keeps_broadcast depth) methods name vs)

def MountOptions.logged (o : MountOptions σ) : MountOptions (σ × Log) :=
  ⟨o.selector, o.methods.logged, o.directives, o.tracked⟩

namespace Component

def logged (c : Component σ) : Component (σ × Log) :=
  ⟨c.root, c.methods.logged, c.directives, c.subscriptions⟩

theorem passing_updateAll (depth : Nat) (methods : Methods σ) (ds : List Directive) :
    (passing σ).Acts (updateAll (Run.broadcast depth) methods ds)
      (updateAll (Run.broadcastLogged depth) methods.logged ds) := by
  induction ds with
  | nil => exact (passing σ).acts_pure ()
  | cons d ds ih => exact (passing σ).acts_bind (passing_update depth methods d) fun _ => ih

theorem passing_click (depth : Nat) (c : Component σ) (element : NodeId) :
    (passing σ).Acts (c.click (Run.broadcast depth) element)
      (c.logged.click (Run.broadcastLogged depth) element) := by
  have hclicks : c.logged.clicks = c.clicks := rfl
  unfold click
  rw [hclicks]
  cases c.clicks.find? fun b => b.1 == element with
  | none => exact (passing σ).acts_pure none
  | some b =>
    exact (passing σ).acts_bind (passing_invoke depth c.methods b.2) fun v =>
      (passing σ).acts_pure (some v)

theorem passing_perform (depth : Nat) (c : Component σ) (call : Call) :
    (passing σ).Acts (c.perform (Run.broadcast depth) call)
      (c.logged.perform (Run.broadcastLogged depth) call) := by
  cases call with
  | set field value =>
    exact (passing σ).acts_bind (passing_setField depth field value) fun _ =>
      (passing σ).acts_pure _
  | notify field =>
    exact (passing σ).acts_bind (passing_announce depth field) fun _ => (passing σ).acts_pure none
  | dispatch text =>
    refine (passing σ).acts_bind ?_ fun v => (passing σ).acts_pure (some v)
    exact (passing σ).acts_bind ((passing σ).acts_ofResult _) fun call =>
      passing_invoke depth c.methods call
  | click element => exact passing_click depth c element
  | render =>
    exact (passing σ).acts_bind (passing_updateAll depth c.methods c.directives) fun _ =>
      (passing σ).acts_pure none

end Component

/-- From one world to another `new` directives join, while outside code does what the log tells. -/
structure World.Gains (w : World σ) (l : Log) (new : List (Nat × Observer σ)) (w' : World σ) : Prop where
  issued : w.store.issued ≤ w'.store.issued
  stayed : ∀ o ∈ w'.store.observers, o ∈ w.store.observers ∨ w.store.issued ≤ o.1
  increasing : (new.map Prod.fst).Pairwise (· < ·)
  fresh : ∀ id ∈ new.map Prod.fst, w.store.issued ≤ id ∧ id < w'.store.issued
  listed : ∀ {own log}, w.Listed own log → Log.Honest (log ++ l) →
    w'.Listed (own ++ new) (log ++ l)

namespace World.Gains

theorem of_passes (hl : w.register.Passes l w'.register) (hj : w.Joined w') : w.Gains l [] w' where
  issued := hj.issued
  stayed o ho := (hj.observers o ho).imp_right And.left
  increasing := .nil
  fresh _ h := absurd h List.not_mem_nil
  listed {own log} h hh := by
    rw [List.append_nil]
    exact h.passes hl hj hh

theorem of_store (hs : w'.store = w.store) : w.Gains [] [] w' :=
  of_passes (World.register_of_store hs ▸ .refl _) (World.joined_of_store hs)

theorem trans {l₁ : Log} {new new₁ : List (Nat × Observer σ)} {w₁ : World σ}
    (h : w.Gains l new w₁) (h₁ : w₁.Gains l₁ new₁ w') : w.Gains (l ++ l₁) (new ++ new₁) w' where
  issued := Nat.le_trans h.issued h₁.issued
  stayed o ho := by
    rcases h₁.stayed o ho with ho | hid
    · exact h.stayed o ho
    · exact .inr (Nat.le_trans h.issued hid)
  increasing := by
    rw [List.map_append]
    refine List.pairwise_append.2 ⟨h.increasing, h₁.increasing, fun id hid id₁ hid₁ => ?_⟩
    exact Nat.lt_of_lt_of_le (h.fresh id hid).2 (h₁.fresh id₁ hid₁).1
  fresh id hid := by
    rw [List.map_append] at hid
    rcases List.mem_append.1 hid with hid | hid
    · exact ⟨(h.fresh id hid).1, Nat.lt_of_lt_of_le (h.fresh id hid).2 h₁.issued⟩
    · exact ⟨Nat.le_trans h.issued (h₁.fresh id hid).1, (h₁.fresh id hid).2⟩
  listed {own log} hw hh := by
    rw [← List.append_assoc] at hh
    rw [← List.append_assoc, ← List.append_assoc]
    exact h₁.listed (h.listed hw hh.left) hh

theorem subscribe (w : World σ) (methods : Methods σ) (tracked : Bool) (d : Directive) :
    w.Gains [] [(w.store.issued, .directive methods tracked d)]
      { w with store := w.store.subscribe (.directive methods tracked d) } where
  issued := Nat.le_succ _
  stayed o ho := (List.mem_append.1 ho).imp_right fun ho =>
    Nat.le_of_eq (congrArg Prod.fst (List.mem_singleton.1 ho)).symm
  increasing := List.pairwise_singleton ..
  fresh id hid := List.mem_singleton.1 hid ▸ ⟨Nat.le_refl _, Nat.lt_succ_self _⟩
  listed {own log} h _ := by
    rw [List.append_nil]
    exact h.subscribe methods tracked d

theorem undone {new : List (Nat × Observer σ)} (h : w.Gains l new w') :
    w.Gains l [] (w'.without (new.map Prod.fst)) where
  issued := h.issued
  stayed o ho := h.stayed o (List.mem_filter.1 ho).1
  increasing := .nil
  fresh _ hid := absurd hid List.not_mem_nil
  listed {own log} hw hh := by
    have hall := h.listed hw hh
    rw [← List.append_nil (own ++ new)] at hall
    exact hall.without_mid

end World.Gains

structure Resident (σ : Type) where
  component : Component σ
  tracked : Bool

namespace Resident

def logged (m : Resident σ) : Resident (σ × Log) := ⟨m.component.logged, m.tracked⟩

def observers (m : Resident σ) : List (Observer σ) :=
  m.component.directives.map (.directive m.component.methods m.tracked)

def entries (m : Resident σ) : List (Nat × Observer σ) :=
  m.component.subscriptions.zip m.observers

structure Activated (m : Resident σ) : Prop where
  increasing : m.component.subscriptions.Pairwise (· < ·)
  length : m.component.subscriptions.length = m.component.directives.length

theorem Activated.entries_ids {m : Resident σ} (h : m.Activated) :
    m.entries.map Prod.fst = m.component.subscriptions := by
  refine List.map_fst_zip (Nat.le_of_eq ?_)
  rw [observers, List.length_map, h.length]

def ofMount (tracked : Bool) : Except EvalError (Option (Component σ)) → List (Resident σ)
  | .ok (some c) => [⟨c, tracked⟩]
  | _ => []

end Resident

namespace Component

variable {methods : Methods σ} {tracked : Bool}

theorem activate_gains {ds : List Directive} {ids : List Nat} {r : Except EvalError Unit}
    (h : Run.Ends (activate (Run.broadcast depth) methods tracked ds) w (ids, r) w') :
    ∃ l new, w.Gains l new w' ∧ new.map Prod.fst = ids ∧
      (r = .ok () → new.map Prod.snd = ds.map (.directive methods tracked)) ∧
      ∀ log, Run.Ends (activate (Run.broadcastLogged depth) methods.logged tracked ds)
        (w.logged log) (ids, r) (w'.logged (log ++ l)) := by
  induction ds generalizing w ids r with
  | nil =>
    obtain ⟨hres, rfl⟩ := Run.ends_pure.1 h
    obtain ⟨rfl, rfl⟩ := Prod.mk.inj hres
    refine ⟨[], [], .of_store rfl, rfl, fun _ => rfl, fun log => Run.ends_pure.2 ⟨rfl, ?_⟩⟩
    rw [List.append_nil]
  | cons d ds ih =>
    obtain ⟨r₁, w₁, hr₁, h⟩ := Run.ends_bind.1 h
    obtain ⟨l₁, ⟨hl₁, hj₁⟩, hb₁⟩ := passing_update depth methods d w r₁ w₁ hr₁
    have hg₁ : w.Gains l₁ [] w₁ := .of_passes hl₁ hj₁
    cases r₁ with
    | error e =>
      obtain ⟨hres, rfl⟩ := Run.ends_pure.1 h
      obtain ⟨rfl, rfl⟩ := Prod.mk.inj hres
      exact ⟨l₁, [], hg₁, rfl, nofun, fun log =>
        Run.ends_bind.2 ⟨_, _, hb₁ log, Run.ends_pure.2 ⟨rfl, rfl⟩⟩⟩
    | ok _ =>
      obtain ⟨id, w₂, hid, h⟩ := Run.ends_bind.1 h
      obtain ⟨rfl, rfl⟩ := Run.ends_subscribe.1 hid
      obtain ⟨⟨ids', r'⟩, w₃, hrest, h⟩ := Run.ends_bind.1 h
      obtain ⟨hres, rfl⟩ := Run.ends_pure.1 h
      obtain ⟨rfl, rfl⟩ := Prod.mk.inj hres
      obtain ⟨l, new, hg, hids, hobs, hb⟩ := ih hrest
      have hjoin := World.Gains.subscribe w₁ methods tracked d
      refine ⟨l₁ ++ ([] ++ l), _, hg₁.trans (hjoin.trans hg), congrArg (w₁.store.issued :: ·) hids,
        fun hr => congrArg (Observer.directive methods tracked d :: ·) (hobs hr), fun log => ?_⟩
      refine Run.ends_bind.2 ⟨_, _, hb₁ log, Run.ends_bind.2 ⟨_, _, Run.ends_subscribe.2 ⟨rfl, rfl⟩,
        Run.ends_bind.2 ⟨(ids', r), _, ?_, Run.ends_pure.2 ⟨rfl, rfl⟩⟩⟩⟩
      have hjoined := w₁.logged_subscribe (log ++ l₁) (.directive methods tracked d)
      rw [Observer.logged] at hjoined
      rw [← hjoined, List.nil_append, ← List.append_assoc]
      exact hb (log ++ l₁)

theorem start_gains {root : Mirror} {r : Except EvalError (Component σ)}
    (h : Act.Ends (start (Run.broadcast depth) methods tracked root) w r w') :
    ∃ l, (w.Gains l ((Resident.ofMount tracked (r.map some)).flatMap Resident.entries) w' ∧
        ∀ m ∈ Resident.ofMount tracked (r.map some), m.Activated) ∧
      ∀ log, Act.Ends (start (Run.broadcastLogged depth) methods.logged tracked root)
        (w.logged log) (r.map logged) (w'.logged (log ++ l)) := by
  obtain ⟨⟨ids, r₁⟩, w₁, hids, h⟩ := Act.ends_ofRun_bind.1 h
  obtain ⟨l, new, hg, rfl, hobs, hb⟩ := activate_gains hids
  cases r₁ with
  | error e =>
    obtain ⟨_, w₂, hoff, h⟩ := Act.ends_ofRun_bind.1 h
    obtain rfl := ends_unsubscribeAll.1 hoff
    obtain ⟨rfl, rfl⟩ := Act.ends_throw.1 h
    refine ⟨l, ⟨hg.undone, fun m hm => absurd hm List.not_mem_nil⟩, fun log => ?_⟩
    refine Act.ends_ofRun_bind.2 ⟨_, _, hb log, Act.ends_ofRun_bind.2 ⟨(), _, ?_,
      Act.ends_throw.2 ⟨rfl, rfl⟩⟩⟩
    exact ends_unsubscribeAll.2 (w₁.logged_without _ _)
  | ok _ =>
    obtain ⟨rfl, rfl⟩ := Act.ends_pure.1 h
    have hentries : Resident.entries ⟨⟨root, methods, root.directives, new.map Prod.fst⟩, tracked⟩ =
        new := (List.zip_of_prod rfl (hobs rfl)).symm
    have hlength : (new.map Prod.fst).length = root.directives.length := by
      have hsame := congrArg List.length (hobs rfl)
      simpa using hsame
    refine ⟨l, ⟨?_, fun m hm => ?_⟩, fun log =>
      Act.ends_ofRun_bind.2 ⟨_, _, hb log, Act.ends_pure.2 ⟨rfl, rfl⟩⟩⟩
    · rw [Except.map, Resident.ofMount, List.flatMap_singleton, hentries]
      exact hg
    · cases List.mem_singleton.1 hm
      exact ⟨hg.increasing, hlength⟩

theorem mount_gains {o : MountOptions σ} {r : Except EvalError (Option (Component σ))}
    (h : Act.Ends (mount (Run.broadcast depth) o) w r w') :
    ∃ l, (w.Gains l ((Resident.ofMount o.tracked r).flatMap Resident.entries) w' ∧
        ∀ m ∈ Resident.ofMount o.tracked r, m.Activated) ∧
      ∀ log, Act.Ends (mount (Run.broadcastLogged depth) o.logged) (w.logged log)
        (r.map (Option.map logged)) (w'.logged (log ++ l)) := by
  have hend := ends_mount.1 h
  cases hroot : planned o w with
  | none =>
    rw [hroot] at hend
    obtain ⟨rfl, rfl⟩ := hend
    refine ⟨[], ⟨.of_store rfl, fun m hm => absurd hm List.not_mem_nil⟩, fun log => ?_⟩
    have hlogged : planned o.logged (w'.logged log) = none := hroot
    refine ends_mount.2 ?_
    rw [hlogged, List.append_nil]
    exact ⟨rfl, rfl⟩
  | some root =>
    rw [hroot] at hend
    have hstart : ∃ r₀, Act.Ends (start (Run.broadcast depth) o.methods o.tracked root)
        (prepare o.directives root w) r₀ w' ∧ r = r₀.map some := by
      rcases Act.ends_bind.1 hend with ⟨e, he, rfl⟩ | ⟨c, w₁, hc, hp⟩
      · exact ⟨.error e, he, rfl⟩
      · obtain ⟨rfl, rfl⟩ := Act.ends_pure.1 hp
        exact ⟨.ok c, hc, rfl⟩
    obtain ⟨r₀, hstart, rfl⟩ := hstart
    obtain ⟨l, ⟨hg, hall⟩, hb⟩ := start_gains hstart
    have hprep : w.Gains [] [] (prepare o.directives root w) := .of_store rfl
    refine ⟨l, ⟨hprep.trans hg, hall⟩, fun log => ?_⟩
    have hlogged : planned o.logged (w.logged log) = some root := hroot
    have hmount := ends_mount_of_start hlogged (hb log)
    cases r₀ <;> exact hmount

end Component

end LiveMarkup
