import LiveMarkup.Proofs.Expression.Within

/-!
Computations in lockstep. A relation between two monads that respects sequence relates two evaluations
of one expression, if it relates the reads and calls of their scopes that are in sight.
-/

namespace LiveMarkup

open LiveMarkup.Expression

variable {m n : Type → Type} [Monad m] [Monad n]

structure Lockstep (m n : Type → Type) [Monad m] [Monad n] where
  Rel : ∀ {α : Type}, m α → n α → Prop
  pure : ∀ {α : Type} (x : α), Rel (pure x) (pure x)
  bind : ∀ {α β : Type} {a : m α} {b : n α} {f : α → m β} {g : α → n β},
    Rel a b → (∀ x, Rel (f x) (g x)) → Rel (a >>= f) (b >>= g)

namespace Lockstep

variable {α β : Type} (P : Lockstep m n)

def Acts (a : ExceptT EvalError m α) (b : ExceptT EvalError n α) : Prop := P.Rel a.run b.run

theorem acts_pure (x : α) : P.Acts (Pure.pure x) (Pure.pure x) :=
  P.pure (Except.ok x : Except EvalError α)

theorem acts_throw (e : EvalError) : P.Acts (throw e : ExceptT EvalError m α) (throw e) :=
  P.pure (Except.error e : Except EvalError α)

theorem acts_bind {a : ExceptT EvalError m α} {b : ExceptT EvalError n α}
    {f : α → ExceptT EvalError m β} {g : α → ExceptT EvalError n β} (h : P.Acts a b)
    (hf : ∀ x, P.Acts (f x) (g x)) : P.Acts (a >>= f) (b >>= g) := by
  refine P.bind h fun r => ?_
  cases r with
  | error e => exact P.pure _
  | ok x => exact hf x

theorem acts_lift [LawfulMonad m] [LawfulMonad n] {a : m α} {b : n α} (h : P.Rel a b) :
    P.Acts (ExceptT.lift a) (ExceptT.lift b) := by
  rw [Acts, ExceptT.run_lift, ExceptT.run_lift, map_eq_pure_bind, map_eq_pure_bind]
  exact P.bind h fun x => P.pure (Except.ok x : Except EvalError α)

theorem renderParts {f : String → m Value} {g : String → n Value} {parts : List TemplatePart}
    (hfield : ∀ name, .field name ∈ parts → P.Rel (f name) (g name)) :
    P.Rel (Template.renderParts f parts) (Template.renderParts g parts) := by
  induction parts with
  | nil => exact P.pure ""
  | cons p parts ih =>
    have ih := ih fun name h => hfield name (List.mem_cons_of_mem _ h)
    cases p with
    | text t => exact P.bind ih fun rest => P.pure (t ++ rest)
    | field name =>
      exact P.bind (hfield name (List.mem_cons_self ..)) fun v =>
        P.bind ih fun rest => P.pure (v.display ++ rest)

section Evaluate

variable {s : Scope m} {t : Scope n} {call field : String → Prop}

theorem arguments (hfield : ∀ name, field name → P.Rel (s.field name) (t.field name))
    {as : List Argument} (has : ∀ a ∈ as, a.Within field) :
    P.Rel (s.arguments as) (t.arguments as) := by
  induction as with
  | nil => exact P.pure []
  | cons a as ih =>
    have ha : P.Rel (s.argument a) (t.argument a) := by
      cases a with
      | field name => exact hfield name (has _ (List.mem_cons_self ..))
      | number x => exact P.pure _
      | string v => exact P.pure _
    have ih := ih fun b hb => has b (List.mem_cons_of_mem _ hb)
    exact P.bind ha fun v => P.bind ih fun vs => P.pure (v :: vs)

variable [LawfulMonad m] [LawfulMonad n]
  (hfield : ∀ name, field name → P.Rel (s.field name) (t.field name))
  (hcall : ∀ name vs, call name → P.Acts (s.call name vs) (t.call name vs))

include hfield hcall

theorem invoke {name : String} {as : List Argument} (hname : call name)
    (has : ∀ a ∈ as, a.Within field) : P.Acts (s.invoke name as) (t.invoke name as) :=
  P.acts_bind (P.acts_lift (P.arguments hfield has)) fun vs => hcall name vs hname

theorem eval {e : Expr} (he : e.Within call field) : P.Acts (e.eval s) (e.eval t) := by
  induction e with
  | literal v => exact P.acts_pure v
  | field name => exact P.acts_lift (hfield name he)
  | call name as => exact P.invoke hfield hcall he.1 he.2
  | not e ih => exact P.acts_bind (ih he) fun v => P.acts_pure _
  | and a b iha ihb =>
    refine P.acts_bind (iha he.1) fun v => ?_
    split
    · exact ihb he.2
    · exact P.acts_pure v
  | or a b iha ihb =>
    refine P.acts_bind (iha he.1) fun v => ?_
    split
    · exact P.acts_pure v
    · exact ihb he.2
  | compare op a b iha ihb =>
    exact P.acts_bind (iha he.1) fun v => P.acts_bind (ihb he.2) fun v' => P.acts_pure _

theorem evaluate_tree {c : Compiled} (hc : ∀ e, c.tree = .ok (some e) → e.Within call field) :
    P.Acts (c.evaluate s) (c.evaluate t) := by
  unfold Compiled.evaluate
  cases ht : c.tree with
  | error f => exact P.acts_throw _
  | ok o =>
    cases o with
    | none => exact P.acts_pure _
    | some e => exact P.eval hfield hcall (hc e ht)

theorem evaluate {ns : List Node} (hns : ∀ n ∈ ns, n.Within call field) :
    P.Acts ((compile ns).evaluate s) ((compile ns).evaluate t) :=
  P.evaluate_tree hfield hcall fun _ ht => ofNodes_within hns ht

end Evaluate

section All

variable [LawfulMonad m] [LawfulMonad n] {s : Scope m} {t : Scope n}
  (hfield : ∀ name, P.Rel (s.field name) (t.field name))
  (hcall : ∀ name vs, P.Acts (s.call name vs) (t.call name vs))

include hfield hcall

theorem invoke_all (name : String) (as : List Argument) :
    P.Acts (s.invoke name as) (t.invoke name as) :=
  P.invoke (fun name (_ : True) => hfield name) (fun name vs (_ : True) => hcall name vs) trivial
    fun a _ => a.within_all

theorem evaluate_all (c : Compiled) : P.Acts (c.evaluate s) (c.evaluate t) :=
  P.evaluate_tree (fun name (_ : True) => hfield name) (fun name vs (_ : True) => hcall name vs)
    fun e _ => e.within_all

end All

end Lockstep

end LiveMarkup
