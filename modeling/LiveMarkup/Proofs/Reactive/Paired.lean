import LiveMarkup.Proofs.Reactive.Ends

/-!
Runs in pairs. A relation between runs that respects sequence relates two evaluations of one
expression, if it relates what their scopes do.
-/

namespace LiveMarkup

open LiveMarkup.Expression

variable {σ τ : Type}

structure Pairing (σ τ : Type) where
  Rel : ∀ {α : Type}, Run σ α → Run τ α → Prop
  pure : ∀ {α : Type} (x : α), Rel (pure x) (pure x)
  bind : ∀ {α β : Type} {a : Run σ α} {b : Run τ α} {f : α → Run σ β} {g : α → Run τ β},
    Rel a b → (∀ x, Rel (f x) (g x)) → Rel (a >>= f) (b >>= g)

namespace Pairing

variable {α β : Type} (P : Pairing σ τ)

def Acts (a : Act σ α) (b : Act τ α) : Prop := P.Rel (ExceptT.run a) (ExceptT.run b)

theorem acts_ofResult (r : Except EvalError α) : P.Acts (Act.ofResult r) (Act.ofResult r) :=
  P.pure r

def lockstep : Lockstep (Run σ) (Run τ) where
  Rel := P.Rel
  pure := P.pure
  bind := P.bind

theorem acts_pure (x : α) : P.Acts (Pure.pure x) (Pure.pure x) := P.lockstep.acts_pure x

theorem acts_throw (e : EvalError) : P.Acts (throw e : Act σ α) (throw e) := P.lockstep.acts_throw e

theorem acts_bind {a : Act σ α} {b : Act τ α} {f : α → Act σ β} {g : α → Act τ β}
    (h : P.Acts a b) (hf : ∀ x, P.Acts (f x) (g x)) : P.Acts (a >>= f) (b >>= g) :=
  P.lockstep.acts_bind h hf

theorem acts_ofRun {a : Run σ α} {b : Run τ α} (h : P.Rel a b) :
    P.Acts (Act.ofRun a) (Act.ofRun b) := P.lockstep.acts_lift h

theorem acts_attempt {a : Act σ α} {b : Act τ α} (h : P.Acts a b) :
    P.Acts (Act.attempt a) (Act.attempt b) := P.acts_ofRun h

section Evaluate

variable {s : Scope (Run σ)} {t : Scope (Run τ)}
  (hfield : ∀ name, P.Rel (s.field name) (t.field name))
  (hcall : ∀ name vs, P.Acts (s.call name vs) (t.call name vs))

include hfield hcall

theorem invoke (name : String) (as : List Argument) : P.Acts (s.invoke name as) (t.invoke name as) :=
  P.lockstep.invoke_all hfield hcall name as

theorem evaluate (c : Compiled) : P.Acts (c.evaluate s) (c.evaluate t) :=
  P.lockstep.evaluate_all hfield hcall c

end Evaluate

end Pairing

end LiveMarkup
