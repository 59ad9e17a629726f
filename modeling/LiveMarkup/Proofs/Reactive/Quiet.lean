import LiveMarkup.Proofs.Reactive.Outside
import Mathlib.Tactic.Choose

/-!
What scripts ask of their store. Quiet ones ask for nothing but what the fields are: whatever is built from
them always ends, and what it does is known from the fields and the memory.
-/

namespace LiveMarkup

open LiveMarkup.Expression

variable {σ α β : Type}

inductive Request where
  | write
  | announce
  | subscribe
  | unsubscribe

namespace Script

/-- Besides looking at the fields, the script asks only for what is allowed. Nothing is said of what it
subscribes. -/
def AsksOnly (allowed : Request → Prop) : Script σ → Prop
  | .done _ => True
  | .look next => ∀ fields, (next fields).AsksOnly allowed
  | .write _ _ next => allowed .write ∧ ∀ r, (next r).AsksOnly allowed
  | .announce _ next => allowed .announce ∧ ∀ r, (next r).AsksOnly allowed
  | .subscribe _ next => allowed .subscribe ∧ ∀ id, (next id).AsksOnly allowed
  | .unsubscribe _ next => allowed .unsubscribe ∧ ∀ b, (next b).AsksOnly allowed
  | .recall next => ∀ memory, (next memory).AsksOnly allowed
  | .remember _ next => next.AsksOnly allowed

def NeverWrites (s : Script σ) : Prop := s.AsksOnly (· ≠ .write)

/-- It may announce, but sets no field and lets all observers be. -/
def Sparing (s : Script σ) : Prop := s.AsksOnly (· = .announce)

def Quiet (s : Script σ) : Prop := s.AsksOnly fun _ => False

variable {allowed : Request → Prop} {s : Script σ}

theorem AsksOnly.mono {allowed' : Request → Prop} (h : s.AsksOnly allowed)
    (ha : ∀ r, allowed r → allowed' r) : s.AsksOnly allowed' := by
  induction s with
  | done r => trivial
  | look next ih => exact fun fields => ih fields (h fields)
  | write field value next ih => exact ⟨ha _ h.1, fun r => ih r (h.2 r)⟩
  | announce field next ih => exact ⟨ha _ h.1, fun r => ih r (h.2 r)⟩
  | subscribe body next ihb ihn => exact ⟨ha _ h.1, fun id => ihn id (h.2 id)⟩
  | unsubscribe id next ih => exact ⟨ha _ h.1, fun b => ih b (h.2 b)⟩
  | «recall» next ih => exact fun memory => ih memory (h memory)
  | remember memory next ih => exact ih h

theorem Sparing.honest (h : s.Sparing) (given : Nat → Prop) :
    s.Honest (fun _ _ => False) given := by
  induction s generalizing given with
  | done r => trivial
  | look next ih =>
    intro fields
    exact ih fields (h fields) given
  | «recall» next ih =>
    intro memory
    exact ih memory (h memory) _
  | remember memory next ih => exact ⟨fun _ => False.elim, ih h given⟩
  | announce field next ih =>
    intro r
    exact ih r (h.2 r) given
  | write field value next ih => cases h.1
  | subscribe body next ihb ihn => cases h.1
  | unsubscribe id next ih => cases h.1

end Script

namespace Methods

def QuietAt (methods : Methods σ) (name : String) : Prop :=
  ∀ method, methods.find? name = some method → ∀ vs, (method vs).Quiet

end Methods

namespace Act

/-- It always ends; the fields and the memory tell how, and nothing but the memory changes. -/
def Consults (a : Act σ α) : Prop :=
  ∃ q : Table Value → σ → Except EvalError α × σ, ∀ w r w',
    Ends a w r w' ↔ r = (q w.store.fields w.memory).1 ∧
      w' = { w with memory := (q w.store.fields w.memory).2 }

theorem consults_pure (x : α) : Consults (pure x : Act σ α) :=
  ⟨fun _ memory => (.ok x, memory), fun _ _ _ => ends_pure⟩

theorem consults_throw (e : EvalError) : Consults (throw e : Act σ α) :=
  ⟨fun _ memory => (.error e, memory), fun _ _ _ => ends_throw⟩

theorem consults_bind {a : Act σ α} {f : α → Act σ β} (ha : Consults a)
    (hf : ∀ x, Consults (f x)) : Consults (a >>= f) := by
  obtain ⟨q, hq⟩ := ha
  choose g hg using hf
  refine ⟨fun fields memory => match q fields memory with
    | (.error e, memory) => (.error e, memory)
    | (.ok x, memory) => g x fields memory, fun w r w' => ?_⟩
  simp only [ends_bind, hq w]
  rcases q w.store.fields w.memory with ⟨e | x, memory⟩
  · simp only [Except.error.injEq, reduceCtorEq, false_and, exists_false, or_false]
    constructor
    · rintro ⟨_, ⟨rfl, rfl⟩, rfl⟩
      exact ⟨rfl, rfl⟩
    · rintro ⟨rfl, rfl⟩
      exact ⟨e, ⟨rfl, rfl⟩, rfl⟩
  · simp only [reduceCtorEq, false_and, exists_false, Except.ok.injEq, false_or]
    constructor
    · rintro ⟨_, _, ⟨rfl, rfl⟩, h⟩
      exact (hg _ _ _ _).1 h
    · intro h
      exact ⟨x, _, ⟨rfl, rfl⟩, (hg x _ _ _).2 h⟩

theorem consults_field (emit : Emit σ) (methods : Methods σ) (name : String) :
    Consults (ExceptT.lift ((Run.scope emit methods).field name)) := by
  refine ⟨fun fields memory => (.ok (Script.fieldOf fields name), memory), fun w r w' => ?_⟩
  rw [ends_lift]
  constructor
  · rintro ⟨v, rfl, hv⟩
    obtain ⟨rfl, rfl⟩ := Run.ends_getField.1 hv
    exact ⟨rfl, rfl⟩
  · rintro ⟨rfl, rfl⟩
    exact ⟨_, rfl, Run.ends_getField.2 ⟨rfl, rfl⟩⟩

end Act

theorem Script.consults_run {s : Script σ} (hs : s.Quiet) (emit : Emit σ) :
    Act.Consults (s.run emit) := by
  induction s with
  | done result => exact ⟨fun _ memory => (result, memory), fun _ _ _ => Act.ends_ofResult⟩
  | look next ih =>
    choose q hq using fun fields => ih fields (hs fields)
    refine ⟨fun fields memory => q fields fields memory, fun w r w' => ?_⟩
    exact Act.ends_world_bind.trans (hq w.store.fields w r w')
  | «recall» next ih =>
    choose q hq using fun memory => ih memory (hs memory)
    refine ⟨fun fields memory => q memory fields memory, fun w r w' => ?_⟩
    exact Act.ends_world_bind.trans (hq w.memory w r w')
  | remember memory next ih =>
    obtain ⟨q, hq⟩ := ih hs
    refine ⟨fun fields _ => q fields memory, fun w r w' => ?_⟩
    refine Act.ends_ofRun_bind.trans ?_
    simp only [Run.ends_modify, exists_const, exists_eq_left]
    exact hq { w with memory := memory } r w'
  | write field value next ih => exact hs.1.elim
  | announce field next ih => exact hs.1.elim
  | subscribe body next ihb ihn => exact hs.1.elim
  | unsubscribe id next ih => exact hs.1.elim

section Evaluate

variable (emit : Emit σ) {methods : Methods σ}

theorem consults_call {name : String} (h : methods.QuietAt name) (vs : List Value) :
    Act.Consults ((Run.scope emit methods).call name vs) := by
  simp only [Run.scope]
  cases hm : methods.find? name with
  | none => exact Act.consults_throw _
  | some method => exact Script.consults_run (h method hm vs) emit

theorem consults_arguments (methods : Methods σ) (as : List Argument) :
    Act.Consults (ExceptT.lift ((Run.scope emit methods).arguments as)) := by
  induction as with
  | nil => exact Act.consults_pure _
  | cons a as ih =>
    have ha : Act.Consults (ExceptT.lift ((Run.scope emit methods).argument a)) := by
      cases a with
      | field name => exact Act.consults_field emit methods name
      | number x => exact Act.consults_pure _
      | string t => exact Act.consults_pure _
    simp only [Scope.arguments, ExceptT.lift_bind]
    exact Act.consults_bind ha fun v => Act.consults_bind ih fun vs => Act.consults_pure (v :: vs)

theorem consults_eval {e : Expr} (he : e.Within methods.QuietAt fun _ => True) :
    Act.Consults (e.eval (Run.scope emit methods)) := by
  induction e with
  | literal v => exact Act.consults_pure v
  | field name => exact Act.consults_field emit methods name
  | call name as =>
    exact Act.consults_bind (consults_arguments emit methods as) (consults_call emit he.1)
  | not e ih => exact Act.consults_bind (ih he) fun v => Act.consults_pure _
  | and a b iha ihb =>
    refine Act.consults_bind (iha he.1) fun v => ?_
    split
    · exact ihb he.2
    · exact Act.consults_pure v
  | or a b iha ihb =>
    refine Act.consults_bind (iha he.1) fun v => ?_
    split
    · exact Act.consults_pure v
    · exact ihb he.2
  | compare op a b iha ihb =>
    exact Act.consults_bind (iha he.1) fun v =>
      Act.consults_bind (ihb he.2) fun w => Act.consults_pure _

theorem consults_evaluate {c : Compiled} (hc : c.Calls methods.QuietAt) :
    Act.Consults (c.evaluate (Run.scope emit methods)) := by
  unfold Compiled.evaluate
  split
  · next e he => exact consults_eval emit (hc e he)
  · exact Act.consults_pure _
  · exact Act.consults_throw _

end Evaluate

end LiveMarkup
