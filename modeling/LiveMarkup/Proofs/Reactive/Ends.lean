import LiveMarkup.Proofs.Expression.Lockstep
import LiveMarkup.Reactive.Broadcast

/-!
How runs end. A run that goes beyond its bound has no end; an act may end in a failure. A relation
between worlds that every end respects is kept.
-/

namespace LiveMarkup

open LiveMarkup.Expression

variable {σ α β : Type}

structure Steady (R : World σ → World σ → Prop) : Prop where
  refl : ∀ w, R w w
  trans : ∀ {u v w}, R u v → R v w → R u w

namespace Run

def Ends (r : Run σ α) (w : World σ) (x : α) (w' : World σ) : Prop := StateT.run r w = some (x, w')

variable {w w' : World σ} {x : α} {y : β}

theorem ends_det {x' : α} {w'' : World σ} {r : Run σ α} (h : Ends r w x w') (h' : Ends r w x' w'') :
    x = x' ∧ w' = w'' := by
  have he : some (x, w') = some (x', w'') := h.symm.trans h'
  simpa using he

theorem ends_pure {z : α} : Ends (pure z : Run σ α) w x w' ↔ x = z ∧ w' = w := by
  simp only [Ends, StateT.run_pure, Option.pure_def, Option.some.injEq, Prod.mk.injEq]
  exact ⟨fun ⟨h, h'⟩ => ⟨h.symm, h'.symm⟩, fun ⟨h, h'⟩ => ⟨h.symm, h'.symm⟩⟩

theorem ends_bind {r : Run σ α} {f : α → Run σ β} :
    Ends (r >>= f) w y w' ↔ ∃ x w₁, Ends r w x w₁ ∧ Ends (f x) w₁ y w' := by
  simp only [Ends, StateT.run_bind, Option.bind_eq_bind, Option.bind_eq_some_iff, Prod.exists]

theorem ends_get {v : World σ} : Ends (get : Run σ (World σ)) w v w' ↔ v = w ∧ w' = w := by
  simp only [Ends, StateT.run_get, Option.pure_def, Option.some.injEq, Prod.mk.injEq]
  exact ⟨fun ⟨h, h'⟩ => ⟨h.symm, h'.symm⟩, fun ⟨h, h'⟩ => ⟨h.symm, h'.symm⟩⟩

theorem ends_set {v : World σ} {u : Unit} : Ends (set v : Run σ Unit) w u w' ↔ w' = v := by
  simp only [Ends, StateT.run_set, Option.pure_def, Option.some.injEq, Prod.mk.injEq, true_and]
  exact eq_comm

theorem ends_modify {f : World σ → World σ} {u : Unit} :
    Ends (modify f : Run σ Unit) w u w' ↔ w' = f w := by
  simp only [Ends, StateT.run_modify, Option.pure_def, Option.some.injEq, Prod.mk.injEq, true_and]
  exact eq_comm

theorem ends_getField {name : String} {v : Value} :
    Ends (getField name) w v w' ↔ v = w.store.get name ∧ w' = w := by
  simp only [getField, ends_bind, ends_get, ends_pure]
  exact ⟨fun ⟨_, _, ⟨rfl, rfl⟩, h⟩ => h, fun h => ⟨w, w, ⟨rfl, rfl⟩, h⟩⟩

theorem ends_editDocument {f : Document → Document} {u : Unit} :
    Ends (editDocument f) w u w' ↔ w' = { w with document := f w.document } := ends_modify

theorem ends_subscribe {o : Observer σ} {id : Nat} :
    Ends (subscribe o) w id w' ↔
      id = w.store.issued ∧ w' = { w with store := w.store.subscribe o } := by
  simp only [subscribe, ends_bind, ends_get, ends_set, ends_pure]
  constructor
  · rintro ⟨_, _, ⟨rfl, rfl⟩, _, _, rfl, rfl, rfl⟩
    exact ⟨rfl, rfl⟩
  · rintro ⟨rfl, rfl⟩
    exact ⟨w, w, ⟨rfl, rfl⟩, (), _, rfl, rfl, rfl⟩

theorem ends_unsubscribe {id : Nat} {b : Bool} :
    Ends (unsubscribe id) w b w' ↔
      b = w.store.isSubscribed id ∧ w' = { w with store := w.store.unsubscribe id } := by
  simp only [unsubscribe, ends_bind, ends_get, ends_set, ends_pure]
  constructor
  · rintro ⟨_, _, ⟨rfl, rfl⟩, _, _, rfl, rfl, rfl⟩
    exact ⟨rfl, rfl⟩
  · rintro ⟨rfl, rfl⟩
    exact ⟨w, w, ⟨rfl, rfl⟩, (), _, rfl, rfl, rfl⟩

def Keeps (R : World σ → World σ → Prop) (r : Run σ α) : Prop := ∀ w x w', Ends r w x w' → R w w'

theorem keeps_pure {R : World σ → World σ → Prop} (hR : Steady R) (z : α) :
    Keeps R (pure z : Run σ α) := by
  intro w x w' h
  obtain ⟨-, rfl⟩ := ends_pure.1 h
  exact hR.refl w'

theorem keeps_bind {R : World σ → World σ → Prop} (hR : Steady R) {r : Run σ α} {f : α → Run σ β}
    (hr : Keeps R r) (hf : ∀ x, Keeps R (f x)) : Keeps R (r >>= f) := by
  intro w y w' h
  obtain ⟨x, w₁, hx, hy⟩ := ends_bind.1 h
  exact hR.trans (hr _ _ _ hx) (hf x _ _ _ hy)

end Run

namespace Act

def Ends (a : Act σ α) (w : World σ) (x : Except EvalError α) (w' : World σ) : Prop :=
  Run.Ends (ExceptT.run a) w x w'

variable {w w' : World σ} {x : Except EvalError α} {y : Except EvalError β}

theorem ends_pure {z : α} : Ends (pure z : Act σ α) w x w' ↔ x = .ok z ∧ w' = w := Run.ends_pure

theorem ends_throw {e : EvalError} : Ends (throw e : Act σ α) w x w' ↔ x = .error e ∧ w' = w :=
  Run.ends_pure

theorem ends_bind {a : Act σ α} {f : α → Act σ β} :
    Ends (a >>= f) w y w' ↔ (∃ e, Ends a w (.error e) w' ∧ y = .error e) ∨
      ∃ x w₁, Ends a w (.ok x) w₁ ∧ Ends (f x) w₁ y w' := by
  simp only [Ends, ExceptT.run_bind, Run.ends_bind]
  constructor
  · rintro ⟨x | x, w₁, ha, hf⟩
    · obtain ⟨rfl, rfl⟩ := Run.ends_pure.1 hf
      exact .inl ⟨x, ha, rfl⟩
    · exact .inr ⟨x, w₁, ha, hf⟩
  · rintro (⟨e, ha, rfl⟩ | ⟨x, w₁, ha, hf⟩)
    · exact ⟨_, w', ha, Run.ends_pure.2 ⟨rfl, rfl⟩⟩
    · exact ⟨_, w₁, ha, hf⟩

theorem ends_lift {r : Run σ α} :
    Ends (ExceptT.lift r) w x w' ↔ ∃ z, x = .ok z ∧ Run.Ends r w z w' := by
  simp only [Ends, ExceptT.run_lift, map_eq_pure_bind, Run.ends_bind, Run.ends_pure]
  constructor
  · rintro ⟨z, _, h, rfl, rfl⟩
    exact ⟨z, rfl, h⟩
  · rintro ⟨z, rfl, h⟩
    exact ⟨z, w', h, rfl, rfl⟩

theorem ends_ofRun {r : Run σ α} :
    Ends (ofRun r) w x w' ↔ ∃ z, x = .ok z ∧ Run.Ends r w z w' := ends_lift

theorem ends_ofResult {r : Except EvalError α} : Ends (ofResult r) w x w' ↔ x = r ∧ w' = w :=
  Run.ends_pure

theorem ends_world {v : Except EvalError (World σ)} : Ends world w v w' ↔ v = .ok w ∧ w' = w := by
  simp only [world, ends_ofRun, Run.ends_get]
  exact ⟨fun ⟨_, h, rfl, h'⟩ => ⟨h, h'⟩, fun ⟨h, h'⟩ => ⟨w, h, rfl, h'⟩⟩

theorem ends_world_bind {f : World σ → Act σ β} :
    Ends (world >>= f) w y w' ↔ Ends (f w) w y w' := by
  simp only [ends_bind, ends_world, and_assoc]
  simp

theorem ends_ofRun_bind {r : Run σ α} {f : α → Act σ β} :
    Ends (ofRun r >>= f) w y w' ↔ ∃ x w₁, Run.Ends r w x w₁ ∧ Ends (f x) w₁ y w' := by
  simp [ends_bind, ends_ofRun]

theorem ends_attempt_bind {a : Act σ α} {f : Except EvalError α → Act σ β} :
    Ends (attempt a >>= f) w y w' ↔ ∃ x w₁, Ends a w x w₁ ∧ Ends (f x) w₁ y w' := ends_ofRun_bind

/-- What the act finds, with the world that it ends in; nothing if it fails. -/
def found? (a : Act σ (Option α)) (w : World σ) : Option (α × World σ) :=
  (StateT.run (ExceptT.run a) w).bind fun r => r.1.toOption.join.map fun z => (z, r.2)

theorem ends_of_found? {a : Act σ (Option α)} {z : α} (h : found? a w = some (z, w')) :
    Ends a w (.ok (some z)) w' := by
  obtain ⟨⟨r, w₁⟩, hends, hr⟩ := Option.bind_eq_some_iff.1 h
  rcases r with e | _ | z'
  · cases hr
  · cases hr
  · cases hr
    exact hends

def Keeps (R : World σ → World σ → Prop) (a : Act σ α) : Prop := ∀ w x w', Ends a w x w' → R w w'

theorem keeps_pure {R : World σ → World σ → Prop} (hR : Steady R) (z : α) :
    Keeps R (pure z : Act σ α) := by
  intro w x w' h
  obtain ⟨-, rfl⟩ := ends_pure.1 h
  exact hR.refl w'

theorem keeps_throw {R : World σ → World σ → Prop} (hR : Steady R) (e : EvalError) :
    Keeps R (throw e : Act σ α) := by
  intro w x w' h
  obtain ⟨-, rfl⟩ := ends_throw.1 h
  exact hR.refl w'

theorem keeps_bind {R : World σ → World σ → Prop} (hR : Steady R) {a : Act σ α} {f : α → Act σ β}
    (ha : Keeps R a) (hf : ∀ x, Keeps R (f x)) : Keeps R (a >>= f) := by
  intro w y w' h
  rcases ends_bind.1 h with ⟨e, he, -⟩ | ⟨x, w₁, hx, hy⟩
  · exact ha _ _ _ he
  · exact hR.trans (ha _ _ _ hx) (hf x _ _ _ hy)

end Act

namespace Expression

variable {R : World σ → World σ → Prop} {s : Scope (Run σ)}

def keeping (hR : Steady R) : Lockstep (Run σ) (Run σ) where
  Rel a _ := Run.Keeps R a
  pure x := Run.keeps_pure hR x
  bind ha hf := Run.keeps_bind hR ha hf

theorem Scope.keeps_invoke (hR : Steady R) (hfield : ∀ name, Run.Keeps R (s.field name))
    (hcall : ∀ name vs, Act.Keeps R (s.call name vs)) (name : String) (as : List Argument) :
    Act.Keeps R (s.invoke name as) :=
  (keeping hR).invoke_all (t := s) hfield hcall name as

theorem Compiled.keeps_evaluate (hR : Steady R) (hfield : ∀ name, Run.Keeps R (s.field name))
    (hcall : ∀ name vs, Act.Keeps R (s.call name vs)) (c : Compiled) :
    Act.Keeps R (c.evaluate s) :=
  (keeping hR).evaluate_all (t := s) hfield hcall c

end Expression

end LiveMarkup
