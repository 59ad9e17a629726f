import LiveMarkup.Proofs.Component.Delivery
import LiveMarkup.Proofs.Reactive.Quiet

/-!
Runs abreast. In two worlds one run ends exactly where another does, and the worlds they end in are
related; what they result in, or whether they fail, does not matter. Scripts run abreast that ask the
same of the store, whatever they remember.
-/

namespace LiveMarkup

open LiveMarkup.Expression

variable {σ α β γ δ : Type} {R : World σ → World σ → Prop} {p p' w w' : World σ}

/-- One ends exactly where the other does, in worlds that are related. -/
structure Run.Abreast (R : World σ → World σ → Prop) (a : Run σ α) (b : Run σ β) (p w : World σ) :
    Prop where
  forth : ∀ {x p'}, Run.Ends a p x p' → ∃ y w', Run.Ends b w y w' ∧ R p' w'
  back : ∀ {y w'}, Run.Ends b w y w' → ∃ x p', Run.Ends a p x p' ∧ R p' w'

namespace Run.Abreast

variable {a : Run σ α} {b : Run σ β}

theorem of_ends {x : α} {y : β} (ha : Run.Ends a p x p') (hb : Run.Ends b w y w') (hR : R p' w') :
    Abreast R a b p w := by
  constructor
  · intro x' p'' h
    obtain ⟨rfl, rfl⟩ := Run.ends_det h ha
    exact ⟨y, w', hb, hR⟩
  · intro y' w'' h
    obtain ⟨rfl, rfl⟩ := Run.ends_det h hb
    exact ⟨x, p', ha, hR⟩

theorem of_endless (ha : ∀ x p', ¬Run.Ends a p x p') (hb : ∀ y w', ¬Run.Ends b w y w') :
    Abreast R a b p w := ⟨fun h => absurd h (ha _ _), fun h => absurd h (hb _ _)⟩

theorem pure (x : α) (y : β) (h : R p w) : Abreast R (Pure.pure x) (Pure.pure y) p w :=
  of_ends (Run.ends_pure.2 ⟨rfl, rfl⟩) (Run.ends_pure.2 ⟨rfl, rfl⟩) h

theorem ends_iff (h : Abreast R a b p w) :
    (∃ x p', Run.Ends a p x p') ↔ ∃ y w', Run.Ends b w y w' := by
  constructor
  · rintro ⟨x, p', hx⟩
    obtain ⟨y, w', hy, -⟩ := h.forth hx
    exact ⟨y, w', hy⟩
  · rintro ⟨y, w', hy⟩
    obtain ⟨x, p', hx, -⟩ := h.back hy
    exact ⟨x, p', hx⟩

theorem symm (h : Abreast R a b p w) : Abreast (fun w p => R p w) b a w p := ⟨h.back, h.forth⟩

theorem bind {f : α → Run σ γ} {g : β → Run σ δ} (h : Abreast R a b p w)
    (hfg : ∀ x y {p w}, R p w → Abreast R (f x) (g y) p w) :
    Abreast R (a >>= f) (b >>= g) p w := by
  constructor
  · intro z p' hz
    obtain ⟨x, p₁, hx, hz⟩ := Run.ends_bind.1 hz
    obtain ⟨y, w₁, hy, hR⟩ := h.forth hx
    obtain ⟨z', w', hz', hR'⟩ := (hfg x y hR).forth hz
    exact ⟨z', w', Run.ends_bind.2 ⟨y, w₁, hy, hz'⟩, hR'⟩
  · intro z' w' hz'
    obtain ⟨y, w₁, hy, hz'⟩ := Run.ends_bind.1 hz'
    obtain ⟨x, p₁, hx, hR⟩ := h.back hy
    obtain ⟨z, p', hz, hR'⟩ := (hfg x y hR).back hz'
    exact ⟨z, p', Run.ends_bind.2 ⟨x, p₁, hx, hz⟩, hR'⟩

theorem left {first : Run σ γ} {f : γ → Run σ α} {x : γ} {p₁ : World σ}
    (hfirst : Run.Ends first p x p₁) (h : Abreast R (f x) b p₁ w) :
    Abreast R (first >>= f) b p w := by
  constructor
  · intro z p' hz
    obtain ⟨x', p₂, hx, hz⟩ := Run.ends_bind.1 hz
    obtain ⟨rfl, rfl⟩ := Run.ends_det hx hfirst
    exact h.forth hz
  · intro y w' hy
    obtain ⟨z, p', hz, hR⟩ := h.back hy
    exact ⟨z, p', Run.ends_bind.2 ⟨x, p₁, hfirst, hz⟩, hR⟩

theorem right {first : Run σ γ} {f : γ → Run σ β} {y : γ} {w₁ : World σ}
    (hfirst : Run.Ends first w y w₁) (h : Abreast R a (f y) p w₁) :
    Abreast R a (first >>= f) p w := (h.symm.left hfirst).symm

end Run.Abreast

def Act.Abreast (R : World σ → World σ → Prop) (a : Act σ α) (b : Act σ β) (p w : World σ) : Prop :=
  Run.Abreast R (ExceptT.run a : Run σ (Except EvalError α))
    (ExceptT.run b : Run σ (Except EvalError β)) p w

namespace Act

theorem run_ofRun_bind (r : Run σ α) (f : α → Act σ β) :
    (ExceptT.run (ofRun r >>= f) : Run σ (Except EvalError β)) =
      r >>= fun x => ExceptT.run (f x) := ExceptT.run_bind_lift r f

namespace Abreast

variable {a : Act σ α} {b : Act σ β}

theorem of_ends {r : Except EvalError α} {s : Except EvalError β} (ha : Act.Ends a p r p')
    (hb : Act.Ends b w s w') (hR : R p' w') : Abreast R a b p w := Run.Abreast.of_ends ha hb hR

theorem attempt {f : Except EvalError α → Act σ γ} {g : Except EvalError β → Act σ δ}
    (h : Abreast R a b p w) (hfg : ∀ r s {p w}, R p w → Abreast R (f r) (g s) p w) :
    Abreast R (Act.attempt a >>= f) (Act.attempt b >>= g) p w := by
  rw [Abreast, Act.attempt, Act.attempt, run_ofRun_bind, run_ofRun_bind]
  exact Run.Abreast.bind h hfg

theorem left {first : Run σ γ} {f : γ → Act σ α} {x : γ} {p₁ : World σ}
    (hfirst : Run.Ends first p x p₁) (h : Abreast R (f x) b p₁ w) :
    Abreast R (Act.ofRun first >>= f) b p w := by
  rw [Abreast, run_ofRun_bind]
  exact Run.Abreast.left hfirst h

theorem right {first : Run σ γ} {f : γ → Act σ β} {y : γ} {w₁ : World σ}
    (hfirst : Run.Ends first w y w₁) (h : Abreast R a (f y) p w₁) :
    Abreast R a (Act.ofRun first >>= f) p w := by
  rw [Abreast, run_ofRun_bind]
  exact Run.Abreast.right hfirst h

theorem map (h : Abreast R a b p w) (f : α → γ) (g : β → δ) :
    Abreast R (a >>= fun x => pure (f x)) (b >>= fun y => pure (g y)) p w := by
  rw [Abreast, ExceptT.run_bind, ExceptT.run_bind]
  refine Run.Abreast.bind h fun r s {p w} hR => ?_
  rcases r with e | x <;> rcases s with e' | y <;> exact Run.Abreast.pure _ _ hR

end Abreast

end Act

section Deliver

variable {emit emit' : Emit σ} {e : Event} {o o' : Nat × Observer σ} {os os' : List (Nat × Observer σ)}

theorem Run.abreast_deliver_cons
    (ho : Act.Abreast R (receive emit e o.2) (receive emit' e o'.2) p w)
    (hos : ∀ {p w}, R p w → Act.Abreast R (deliver emit e os) (deliver emit' e os') p w) :
    Act.Abreast R (deliver emit e (o :: os)) (deliver emit' e (o' :: os')) p w := by
  rw [deliver, deliver]
  refine ho.attempt fun r s {p w} h => (hos h).attempt fun r' s' {p w} h => ?_
  exact .of_ends (Act.ends_ofResult.2 ⟨rfl, rfl⟩) (Act.ends_ofResult.2 ⟨rfl, rfl⟩) h

theorem Run.abreast_deliver_other {r : Except EvalError Unit} {w₁ : World σ}
    (ho : Act.Ends (receive emit' e o'.2) w r w₁)
    (hos : Act.Abreast R (deliver emit e os) (deliver emit' e os') p w₁) :
    Act.Abreast R (deliver emit e os) (deliver emit' e (o' :: os')) p w := by
  constructor
  · intro x p' hx
    obtain ⟨y, w', hy, hR⟩ := hos.forth hx
    exact ⟨_, w', Run.ends_deliver_cons.2 ⟨r, w₁, y, ho, hy, rfl⟩, hR⟩
  · intro y w' hy
    obtain ⟨r', w₂, s, hr', hs, -⟩ := Run.ends_deliver_cons.1 hy
    obtain ⟨-, rfl⟩ := Run.ends_det hr' ho
    exact hos.back hs

end Deliver

/-- Both ask the same of the store, fields apart that only one of them looks at. Neither subscribes or
unsubscribes, and what is remembered or fails makes no difference. -/
inductive Script.Alike : Script σ → Script σ → Prop
  | done (r s : Except EvalError Value) : Alike (.done r) (.done s)
  | look {next next' : Table Value → Script σ} (h : ∀ fields, Alike (next fields) (next' fields)) :
    Alike (.look next) (.look next')
  | write {field : String} {value : Value} {next next' : Except EvalError Bool → Script σ}
    (h : ∀ r s, Alike (next r) (next' s)) :
    Alike (.write field value next) (.write field value next')
  | announce {field : String} {next next' : Except EvalError Unit → Script σ}
    (h : ∀ r s, Alike (next r) (next' s)) : Alike (.announce field next) (.announce field next')
  | lookLeft {next : Table Value → Script σ} {t : Script σ} (h : ∀ fields, Alike (next fields) t) :
    Alike (.look next) t
  | lookRight {s : Script σ} {next : Table Value → Script σ} (h : ∀ fields, Alike s (next fields)) :
    Alike s (.look next)
  | recallLeft {next : σ → Script σ} {t : Script σ} (h : ∀ memory, Alike (next memory) t) :
    Alike (.recall next) t
  | recallRight {s : Script σ} {next : σ → Script σ} (h : ∀ memory, Alike s (next memory)) :
    Alike s (.recall next)
  | rememberLeft {memory : σ} {s t : Script σ} (h : Alike s t) : Alike (.remember memory s) t
  | rememberRight {memory : σ} {s t : Script σ} (h : Alike s t) : Alike s (.remember memory t)

theorem Script.Quiet.alike {s t : Script σ} (hs : s.Quiet) (ht : t.Quiet) : s.Alike t := by
  induction s with
  | done r =>
    induction t with
    | done s => exact .done r s
    | look next ih => exact .lookRight fun fields => ih fields (ht fields)
    | «recall» next ih => exact .recallRight fun memory => ih memory (ht memory)
    | remember memory next ih => exact .rememberRight (ih ht)
    | write field value next ih => exact ht.1.elim
    | announce field next ih => exact ht.1.elim
    | subscribe body next ihb ihn => exact ht.1.elim
    | unsubscribe id next ih => exact ht.1.elim
  | look next ih => exact .lookLeft fun fields => ih fields (hs fields)
  | «recall» next ih => exact .recallLeft fun memory => ih memory (hs memory)
  | remember memory next ih => exact .rememberLeft (ih hs)
  | write field value next ih => exact hs.1.elim
  | announce field next ih => exact hs.1.elim
  | subscribe body next ihb ihn => exact hs.1.elim
  | unsubscribe id next ih => exact hs.1.elim

namespace Observer

/-- A script that asks of the store what the event and the fields tell it to. -/
def Impartial : Observer σ → Prop
  | .script body => ∀ e, (body e).Alike (body e)
  | .directive _ _ _ => False

end Observer

structure Bearing (R : World σ → World σ → Prop) : Prop where
  fields : ∀ {p w}, R p w → w.store.fields = p.store.fields
  put : ∀ {p w} field value, R p w →
    R { p with store := p.store.put field value } { w with store := w.store.put field value }
  left : ∀ {p w} memory, R p w → R { p with memory := memory } w
  right : ∀ {p w} memory, R p w → R p { w with memory := memory }

namespace Bearing

variable {emit : Emit σ} (hR : Bearing R)
  (hemit : ∀ e {p w}, R p w → Act.Abreast R (emit e) (emit e) p w)

include hR

theorem get (h : R p w) : w.store.get = p.store.get := by
  funext field
  rw [Store.get, Store.get, hR.fields h]

include hemit

theorem setField (h : R p w) (field : String) (value : Value) :
    Act.Abreast R (Run.setField emit field value) (Run.setField emit field value) p w := by
  refine .left (Run.ends_get.2 ⟨rfl, rfl⟩) (.right (Run.ends_get.2 ⟨rfl, rfl⟩) ?_)
  rw [Store.holds, Store.holds, hR.get h]
  split
  · exact .of_ends (Act.ends_pure.2 ⟨rfl, rfl⟩) (Act.ends_pure.2 ⟨rfl, rfl⟩) h
  · have hput := hemit ⟨field, value⟩ (hR.put field value h)
    exact .left (x := ()) (Run.ends_set.2 rfl) (.right (y := ()) (Run.ends_set.2 rfl)
      (hput.map (fun _ => true) fun _ => true))

theorem announce (h : R p w) (field : String) :
    Act.Abreast R (Run.announce emit field) (Run.announce emit field) p w := by
  refine .left (Run.ends_get.2 ⟨rfl, rfl⟩) (.right (Run.ends_get.2 ⟨rfl, rfl⟩) ?_)
  rw [hR.get h]
  exact hemit _ h

theorem script {s t : Script σ} (hst : s.Alike t) (h : R p w) :
    Act.Abreast R (s.run emit) (t.run emit) p w := by
  induction hst generalizing p w with
  | done r s => exact .of_ends (Act.ends_ofResult.2 ⟨rfl, rfl⟩) (Act.ends_ofResult.2 ⟨rfl, rfl⟩) h
  | look _ ih =>
    refine .left (Run.ends_get.2 ⟨rfl, rfl⟩) (.right (Run.ends_get.2 ⟨rfl, rfl⟩) ?_)
    rw [hR.fields h]
    exact ih _ h
  | write _ ih => exact (hR.setField hemit h _ _).attempt fun r s _ _ => ih r s
  | announce _ ih => exact (hR.announce hemit h _).attempt fun r s _ _ => ih r s
  | lookLeft _ ih => exact .left (Run.ends_get.2 ⟨rfl, rfl⟩) (ih _ h)
  | lookRight _ ih => exact .right (Run.ends_get.2 ⟨rfl, rfl⟩) (ih _ h)
  | recallLeft _ ih => exact .left (Run.ends_get.2 ⟨rfl, rfl⟩) (ih _ h)
  | recallRight _ ih => exact .right (Run.ends_get.2 ⟨rfl, rfl⟩) (ih _ h)
  | rememberLeft _ ih => exact .left (x := ()) (Run.ends_modify.2 rfl) (ih (hR.left _ h))
  | rememberRight _ ih => exact .right (y := ()) (Run.ends_modify.2 rfl) (ih (hR.right _ h))

theorem receive {o : Observer σ} (ho : o.Impartial) (h : R p w) (e : Event) :
    Act.Abreast R (Run.receive emit e o) (Run.receive emit e o) p w := by
  cases o with
  | script body => exact (hR.script hemit (ho e) h).map (fun _ => ()) fun _ => ()
  | directive methods tracked d => exact ho.elim

end Bearing

end LiveMarkup
