import LiveMarkup.Proofs.Reactive.ReadOnly

/-!
Values of expressions on fields alone. An expression that calls nothing has the same value on a page as
on the fields of the page, and evaluating it leaves the page as it is.
-/

namespace LiveMarkup

open LiveMarkup.Expression

variable {σ : Type}

namespace Expression

def fieldScope (fields : Table Value) : Scope Id where
  field := Script.fieldOf fields
  call name _ := throw (.methodNotFound name)

def Compiled.valueOn (c : Compiled) (fields : Table Value) : Except EvalError Value :=
  (c.evaluate (fieldScope fields)).run

end Expression

def giving (w : World σ) : Lockstep (Run σ) Id where
  Rel a x := Run.Ends a w x.run w
  pure _ := Run.ends_pure.2 ⟨rfl, rfl⟩
  bind h hfg := Run.ends_bind.2 ⟨_, w, h, hfg _⟩

theorem Expression.Compiled.CallFree.ends_value (emit : Emit σ) (methods : Methods σ) {ns : List Node}
    (h : (compile ns).CallFree) (w : World σ) :
    Act.Ends ((compile ns).evaluate (Run.scope emit methods)) w
      ((compile ns).valueOn w.store.fields) w := by
  have hfield (name : String) (_ : True) : (giving w).Rel ((Run.scope emit methods).field name)
      ((fieldScope w.store.fields).field name) := Run.ends_getField.2 ⟨rfl, rfl⟩
  exact (giving w).evaluate hfield (fun _ _ hcall => hcall.elim) h

end LiveMarkup
