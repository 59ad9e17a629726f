import LiveMarkup.Proofs.Reactive.Ends

/-!
Methods that only read: however one is run, the fields stay as they are, and what it answers depends on
its arguments and the fields alone. Two runs of an expression that calls no other methods agree, as
long as the fields do. An expression that calls nothing always has a value and does nothing.
-/

namespace LiveMarkup

open LiveMarkup.Expression

variable {σ α : Type} {P : World σ → World σ → Prop}

def Run.Agree (P : World σ → World σ → Prop) (a b : Run σ α) : Prop :=
  ∀ ⦃w x w' u y u'⦄, P w u → Run.Ends a w x w' → Run.Ends b u y u' → x = y ∧ P w' u'

def Act.Agree (P : World σ → World σ → Prop) (a b : Act σ α) : Prop :=
  ∀ ⦃w r w' u q u'⦄, P w u → Act.Ends a w r w' → Act.Ends b u q u' → r = q ∧ P w' u'

def agreeing (P : World σ → World σ → Prop) : Lockstep (Run σ) (Run σ) where
  Rel := Run.Agree P
  pure x := by
    intro w y w' u z u' hP hw hu
    obtain ⟨rfl, rfl⟩ := Run.ends_pure.1 hw
    obtain ⟨rfl, rfl⟩ := Run.ends_pure.1 hu
    exact ⟨rfl, hP⟩
  bind hab hfg := by
    intro w y w' u z u' hP hw hu
    obtain ⟨x, w₁, hx, hy⟩ := Run.ends_bind.1 hw
    obtain ⟨x', u₁, hx', hz⟩ := Run.ends_bind.1 hu
    obtain ⟨rfl, hP₁⟩ := hab hP hx hx'
    exact hfg x hP₁ hy hz

theorem Expression.Compiled.evaluate_agree {s t : Scope (Run σ)} {call field : String → Prop}
    (hfield : ∀ name, field name → Run.Agree P (s.field name) (t.field name))
    (hcall : ∀ name vs, call name → Act.Agree P (s.call name vs) (t.call name vs))
    {ns : List Node} (hns : ∀ n ∈ ns, n.Within call field) :
    Act.Agree P ((compile ns).evaluate s) ((compile ns).evaluate t) :=
  (agreeing P).evaluate hfield hcall hns

theorem Run.agree_field {emit emit' : Emit σ} (methods : Methods σ) {name : String}
    (h : ∀ {w u}, P w u → w.store.get name = u.store.get name) :
    Run.Agree P ((scope emit methods).field name) ((scope emit' methods).field name) := by
  intro w x w' u y u' hP hw hu
  obtain ⟨rfl, rfl⟩ := Run.ends_getField.1 hw
  obtain ⟨rfl, rfl⟩ := Run.ends_getField.1 hu
  exact ⟨h hP, hP⟩

/-- However it is run, it leaves the fields alone, and its result depends on nothing else. -/
structure Script.ReadOnly (s : Script σ) : Prop where
  fields : ∀ {depth w r w'}, Act.Ends (s.run (Run.broadcast depth)) w r w' →
    w'.store.fields = w.store.fields
  result : ∀ {depth depth' w r w' u q u'}, u.store.fields = w.store.fields →
    Act.Ends (s.run (Run.broadcast depth)) w r w' →
    Act.Ends (s.run (Run.broadcast depth')) u q u' → r = q

/-- Its result depends on nothing but the fields that are there in the end. -/
def Script.Answers (s : Script σ) : Prop :=
  ∃ f : Table Value → Except EvalError Value, ∀ depth w r w',
    Act.Ends (s.run (Run.broadcast depth)) w r w' → r = f w'.store.fields

/-- Whatever it learns on its way, that is its result. -/
def Script.Gives (r : Except EvalError Value) : Script σ → Prop
  | .done r' => r' = r
  | .look next => ∀ fields, (next fields).Gives r
  | .write _ _ next => ∀ b, (next b).Gives r
  | .announce _ next => ∀ u, (next u).Gives r
  | .subscribe _ next => ∀ id, (next id).Gives r
  | .unsubscribe _ next => ∀ b, (next b).Gives r
  | .recall next => ∀ memory, (next memory).Gives r
  | .remember _ next => next.Gives r

theorem Script.Gives.ends {s : Script σ} {r q : Except EvalError Value} {emit : Emit σ}
    {w w' : World σ} (hs : s.Gives r) (h : Act.Ends (s.run emit) w q w') : q = r := by
  induction s generalizing w with
  | done r' => exact (Act.ends_ofResult.1 h).1.trans hs
  | look next ih => exact ih _ (hs _) (Act.ends_world_bind.1 h)
  | «recall» next ih => exact ih _ (hs _) (Act.ends_world_bind.1 h)
  | remember memory next ih =>
    obtain ⟨_, _, -, h⟩ := Act.ends_ofRun_bind.1 h
    exact ih hs h
  | write field value next ih =>
    obtain ⟨_, _, -, h⟩ := Act.ends_attempt_bind.1 h
    exact ih _ (hs _) h
  | announce field next ih =>
    obtain ⟨_, _, -, h⟩ := Act.ends_attempt_bind.1 h
    exact ih _ (hs _) h
  | subscribe body next ihb ihn =>
    obtain ⟨_, _, -, h⟩ := Act.ends_ofRun_bind.1 h
    exact ihn _ (hs _) h
  | unsubscribe id next ih =>
    obtain ⟨_, _, -, h⟩ := Act.ends_ofRun_bind.1 h
    exact ih _ (hs _) h

theorem Script.Gives.answers {s : Script σ} {r : Except EvalError Value} (hs : s.Gives r) :
    s.Answers :=
  ⟨fun _ => r, fun _ _ _ _ h => hs.ends h⟩

def Methods.ReadOnlyAt (methods : Methods σ) (name : String) : Prop :=
  ∀ method, methods.find? name = some method → ∀ vs, (method vs).ReadOnly

def World.BothHold (fields : Table Value) (w u : World σ) : Prop :=
  w.store.fields = fields ∧ u.store.fields = fields

theorem Run.agree_call {methods : Methods σ} {name : String} (h : methods.ReadOnlyAt name)
    (fields : Table Value) (depth depth' : Nat) (vs : List Value) :
    Act.Agree (World.BothHold fields) ((scope (broadcast depth) methods).call name vs)
      ((scope (broadcast depth') methods).call name vs) := by
  simp only [scope]
  cases hm : methods.find? name with
  | none => exact (agreeing _).acts_throw _
  | some method =>
    have hs := h method hm vs
    intro w r w' u q u' hP hw hu
    exact ⟨hs.result (hP.2.trans hP.1.symm) hw hu,
      (hs.fields hw).trans hP.1, (hs.fields hu).trans hP.2⟩

namespace Expression.Compiled

variable {methods : Methods σ} {ns : List Node}

/-- Calls only methods that only read; a name without a method is no method. -/
def ReadOnly (methods : Methods σ) (c : Compiled) : Prop :=
  ∀ n ∈ c.nodes, n.Within methods.ReadOnlyAt fun _ => True

theorem ReadOnly.evaluate_agree (h : (compile ns).ReadOnly methods) (fields : Table Value)
    (depth depth' : Nat) :
    Act.Agree (World.BothHold fields)
      ((compile ns).evaluate (Run.scope (Run.broadcast depth) methods))
      ((compile ns).evaluate (Run.scope (Run.broadcast depth') methods)) := by
  refine Compiled.evaluate_agree (fun name _ => Run.agree_field methods fun hP => ?_)
    (fun name vs hc => Run.agree_call hc fields depth depth' vs) h
  rw [Store.get, Store.get, hP.1, hP.2]

def CallFree (c : Compiled) : Prop := ∀ n ∈ c.nodes, n.Within (fun _ => False) fun _ => True

theorem CallFree.readOnly {c : Compiled} (h : c.CallFree) (methods : Methods σ) :
    c.ReadOnly methods := by
  intro n hn
  have hw := h n hn
  cases n with
  | call name as negated => exact hw.1.elim
  | field name negated => trivial
  | _ => trivial

theorem callFree_of_not_includes {field : String}
    (h : (compile ns).reads.includes field = false) : (compile ns).CallFree := by
  intro n hn
  have hw := Reads.within_of_not_includes h n hn
  cases n with
  | call name as negated => exact hw.1.elim
  | field name negated => trivial
  | _ => trivial

end Expression.Compiled

section CallFree

variable (emit : Emit σ) (methods : Methods σ)

theorem Expression.Expr.ends_callFree {e : Expr} (he : e.Within (fun _ => False) fun _ => True)
    (w : World σ) : ∃ v, Act.Ends (e.eval (Run.scope emit methods)) w (.ok v) w := by
  induction e with
  | literal v => exact ⟨v, Act.ends_pure.2 ⟨rfl, rfl⟩⟩
  | field name => exact ⟨_, Act.ends_lift.2 ⟨_, rfl, Run.ends_getField.2 ⟨rfl, rfl⟩⟩⟩
  | call name as => exact he.1.elim
  | not e ih =>
    obtain ⟨v, hv⟩ := ih he
    exact ⟨_, Act.ends_bind.2 (.inr ⟨v, w, hv, Act.ends_pure.2 ⟨rfl, rfl⟩⟩)⟩
  | and a b iha ihb =>
    obtain ⟨v, hv⟩ := iha he.1
    obtain ⟨v', hv'⟩ := ihb he.2
    by_cases ht : v.truthy = true
    · exact ⟨v', Act.ends_bind.2 (.inr ⟨v, w, hv, by rwa [if_pos ht]⟩)⟩
    · refine ⟨v, Act.ends_bind.2 (.inr ⟨v, w, hv, ?_⟩)⟩
      rw [if_neg ht]
      exact Act.ends_pure.2 ⟨rfl, rfl⟩
  | or a b iha ihb =>
    obtain ⟨v, hv⟩ := iha he.1
    obtain ⟨v', hv'⟩ := ihb he.2
    by_cases ht : v.truthy = true
    · refine ⟨v, Act.ends_bind.2 (.inr ⟨v, w, hv, ?_⟩)⟩
      rw [if_pos ht]
      exact Act.ends_pure.2 ⟨rfl, rfl⟩
    · exact ⟨v', Act.ends_bind.2 (.inr ⟨v, w, hv, by rwa [if_neg ht]⟩)⟩
  | compare op a b iha ihb =>
    obtain ⟨v, hv⟩ := iha he.1
    obtain ⟨v', hv'⟩ := ihb he.2
    exact ⟨_, Act.ends_bind.2 (.inr ⟨v, w, hv,
      Act.ends_bind.2 (.inr ⟨v', w, hv', Act.ends_pure.2 ⟨rfl, rfl⟩⟩)⟩)⟩

variable {ns : List Node}

theorem Expression.Compiled.CallFree.ends (h : (compile ns).CallFree)
    (hv : (compile ns).isValid = true) (w : World σ) :
    ∃ v, Act.Ends ((compile ns).evaluate (Run.scope emit methods)) w (.ok v) w := by
  unfold evaluate
  cases ht : (compile ns).tree with
  | error f =>
    rw [isValid, ht] at hv
    cases hv
  | ok o =>
    cases o with
    | none => exact ⟨_, Act.ends_pure.2 ⟨rfl, rfl⟩⟩
    | some e => exact Expr.ends_callFree emit methods (ofNodes_within h ht) w

variable {emit methods}

theorem Expression.Compiled.isValid_of_ends {c : Compiled} {w w' : World σ} {v : Value}
    (h : Act.Ends (c.evaluate (Run.scope emit methods)) w (.ok v) w') : c.isValid = true := by
  unfold evaluate at h
  cases ht : c.tree with
  | error f =>
    rw [ht] at h
    cases (Act.ends_throw.1 h).1
  | ok o => rw [isValid, ht]

theorem Expression.Compiled.value_of_not_includes {emit' : Emit σ} {field : String}
    (h : (compile ns).reads.includes field = false) {w w' u u' : World σ} {v v' : Value}
    (hget : ∀ name, name ≠ field → w.store.get name = u.store.get name)
    (hw : Act.Ends ((compile ns).evaluate (Run.scope emit methods)) w (.ok v) w')
    (hu : Act.Ends ((compile ns).evaluate (Run.scope emit' methods)) u (.ok v') u') : v = v' := by
  have ha : Act.Agree (fun w u => ∀ name, name ≠ field → w.store.get name = u.store.get name)
      ((compile ns).evaluate (Run.scope emit methods))
      ((compile ns).evaluate (Run.scope emit' methods)) :=
    Compiled.evaluate_agree (fun name hn => Run.agree_field methods fun hP => hP name hn)
      (fun _ _ hc => hc.elim) (Reads.within_of_not_includes h)
  exact Except.ok.inj (ha hget hw hu).1

end CallFree

end LiveMarkup
