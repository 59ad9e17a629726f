import LiveMarkup.Reactive.Directive

/-!
What an expression can reach: the methods it may call and the fields it may read. The reads of a
compiled expression or template name them all.
-/

namespace LiveMarkup.Expression

def Argument.Within (field : String → Prop) : Argument → Prop
  | .field name => field name
  | _ => True

def Node.Within (call field : String → Prop) : Node → Prop
  | .call name as _ => call name ∧ ∀ a ∈ as, a.Within field
  | .field name _ => field name
  | _ => True

def Node.isCall : Node → Bool
  | .call .. => true
  | _ => false

def Expr.Within (call field : String → Prop) : Expr → Prop
  | .literal _ => True
  | .field name => field name
  | .call name as => call name ∧ ∀ a ∈ as, a.Within field
  | .not e => e.Within call field
  | .and a b => a.Within call field ∧ b.Within call field
  | .or a b => a.Within call field ∧ b.Within call field
  | .compare _ a b => a.Within call field ∧ b.Within call field

variable {call field : String → Prop}

instance [DecidablePred field] (a : Argument) : Decidable (a.Within field) :=
  match a with
  | .field name => inferInstanceAs (Decidable (field name))
  | .number _ => .isTrue trivial
  | .string _ => .isTrue trivial

instance Expr.decidableWithin [DecidablePred call] [DecidablePred field] :
    (e : Expr) → Decidable (e.Within call field)
  | .literal _ => .isTrue trivial
  | .field name => inferInstanceAs (Decidable (field name))
  | .call name as => inferInstanceAs (Decidable (call name ∧ ∀ a ∈ as, a.Within field))
  | .not e => decidableWithin e
  | .and a b | .or a b | .compare _ a b =>
    haveI := decidableWithin a
    haveI := decidableWithin b
    inferInstanceAs (Decidable (a.Within call field ∧ b.Within call field))

theorem Argument.within_all (a : Argument) : a.Within fun _ => True := by cases a <;> trivial

theorem Expr.within_all (e : Expr) : e.Within (fun _ => True) fun _ => True := by
  induction e with
  | literal v => trivial
  | field name => trivial
  | call name as => exact ⟨trivial, fun a _ => a.within_all⟩
  | not e ih => exact ih
  | and a b iha ihb => exact ⟨iha, ihb⟩
  | or a b iha ihb => exact ⟨iha, ihb⟩
  | compare op a b iha ihb => exact ⟨iha, ihb⟩

theorem operand?_within {n : Node} {e : Expr} (hn : n.Within call field)
    (h : operand? n = some e) : e.Within call field := by
  cases n with
  | call name as negated =>
    cases h
    cases negated <;> exact hn
  | field name negated =>
    cases h
    cases negated <;> exact hn
  | string s =>
    cases h
    trivial
  | number x =>
    cases h
    trivial
  | _ => cases h

structure Open.Within (call field : String → Prop) (o : Open) : Prop where
  disjunct : ∀ e, o.disjunct = some e → e.Within call field
  conjunct : ∀ e, o.conjunct = some e → e.Within call field
  comparand : ∀ op e, o.comparand = some (op, e) → e.Within call field

theorem repeat_not_within (k : Nat) {e : Expr} (h : e.Within call field) :
    (Nat.repeat Expr.not k e).Within call field := by
  induction k with
  | zero => exact h
  | succ k ih => exact ih

variable {o : Open} {e : Expr}

theorem Open.Within.closeComparison (ho : o.Within call field) (he : e.Within call field) :
    (o.closeComparison e).Within call field := by
  have hn := repeat_not_within o.negations he
  simp only [Open.closeComparison]
  cases hc : o.comparand with
  | none => exact hn
  | some c => exact ⟨ho.comparand c.1 c.2 hc, hn⟩

theorem Open.Within.closeConjunction (ho : o.Within call field) (he : e.Within call field) :
    (o.closeConjunction e).Within call field := by
  simp only [Open.closeConjunction]
  cases hc : o.conjunct with
  | none => exact he
  | some left => exact ⟨ho.conjunct left hc, he⟩

theorem Open.Within.closeDisjunction (ho : o.Within call field) (he : e.Within call field) :
    (o.closeDisjunction e).Within call field := by
  simp only [Open.closeDisjunction]
  cases hc : o.disjunct with
  | none => exact ho.closeConjunction he
  | some left => exact ⟨ho.disjunct left hc, ho.closeConjunction he⟩

theorem read_within (ns : List Node) (hns : ∀ n ∈ ns, n.Within call field) {t : Expr} :
    (∀ o : Open, o.Within call field → readOperand o ns = .ok t → t.Within call field) ∧
    (∀ (o : Open) e, o.Within call field → e.Within call field →
      readOperator o e ns = .ok t → t.Within call field) := by
  induction ns with
  | nil =>
    refine ⟨fun o ho h => by simp [readOperand] at h, fun o e ho he h => ?_⟩
    rw [readOperator] at h
    cases h
    exact ho.closeDisjunction he
  | cons n ns ih =>
    have hn := hns n (List.mem_cons_self ..)
    have ih := ih fun m hm => hns m (List.mem_cons_of_mem _ hm)
    refine ⟨fun o ho h => ?_, fun o e ho he h => ?_⟩
    · by_cases hnot : n = .logical .not
      · subst hnot
        rw [readOperand] at h
        refine ih.1 _ ?_ h
        exact ⟨ho.disjunct, ho.conjunct, ho.comparand⟩
      · rw [readOperand] at h
        · split at h
          · next e he => exact ih.2 o _ ho (ho.closeComparison (operand?_within hn he)) h
          · cases h
        · exact hnot
    · cases n with
      | comparison op =>
        rw [readOperator] at h
        refine ih.1 _ ?_ h
        refine ⟨ho.disjunct, ho.conjunct, ?_⟩
        rintro _ _ ⟨⟩
        exact he
      | logical op =>
        cases op with
        | and =>
          rw [readOperator] at h
          refine ih.1 _ ?_ h
          refine ⟨ho.disjunct, ?_, nofun⟩
          rintro _ ⟨⟩
          exact ho.closeConjunction he
        | or =>
          rw [readOperator] at h
          refine ih.1 _ ?_ h
          refine ⟨?_, nofun, nofun⟩
          rintro _ ⟨⟩
          exact ho.closeDisjunction he
        | not => simp [readOperator] at h
      | _ => simp [readOperator] at h

theorem ofNodes_within {ns : List Node} (hns : ∀ n ∈ ns, n.Within call field)
    (h : Expr.ofNodes ns = .ok (some e)) : e.Within call field := by
  cases ns with
  | nil => cases h
  | cons n ns =>
    rw [Expr.ofNodes] at h
    cases hr : readOperand .none (n :: ns) with
    | error f =>
      rw [hr] at h
      cases h
    | ok t =>
      rw [hr] at h
      cases h
      exact (read_within _ hns).1 .none ⟨nofun, nofun, nofun⟩ hr

def Compiled.Calls (call : String → Prop) (c : Compiled) : Prop :=
  ∀ e, c.tree = .ok (some e) → e.Within call fun _ => True

instance [DecidablePred call] (c : Compiled) : Decidable (c.Calls call) :=
  match h : c.tree with
  | .ok (some e) =>
    decidable_of_iff (e.Within call fun _ => True)
      ⟨fun he _ ht => Option.some.inj (Except.ok.inj (h.symm.trans ht)) ▸ he, fun hc => hc e h⟩
  | .ok none => .isTrue fun _ ht => nomatch h.symm.trans ht
  | .error _ => .isTrue fun _ ht => nomatch h.symm.trans ht

theorem Expr.Within.mono {call' : String → Prop} (h : e.Within call field)
    (hc : ∀ name, call name → call' name) : e.Within call' field := by
  induction e with
  | literal v => trivial
  | field name => exact h
  | call name as => exact ⟨hc name h.1, h.2⟩
  | not e ih => exact ih h
  | and a b iha ihb => exact ⟨iha h.1, ihb h.2⟩
  | or a b iha ihb => exact ⟨iha h.1, ihb h.2⟩
  | compare op a b iha ihb => exact ⟨iha h.1, ihb h.2⟩

theorem Compiled.Calls.mono {call' : String → Prop} {c : Compiled} (h : c.Calls call)
    (hc : ∀ name, call name → call' name) : c.Calls call' := fun e he => (h e he).mono hc

namespace Reads

theorem foldl_any (ns : List Node) : ns.foldl addNode .any = .any := by
  induction ns with
  | nil => rfl
  | cons n ns ih => cases n <;> exact ih

theorem includes_foldl {r : Reads} {name : String} (h : r.includes name = true) (ns : List Node) :
    (ns.foldl addNode r).includes name = true := by
  induction ns generalizing r with
  | nil => exact h
  | cons n ns ih =>
    refine ih ?_
    cases n with
    | call name as negated => rfl
    | field other negated => simp [addNode, includes_insert, h]
    | _ => exact h

theorem within_of_foldl {r : Reads} {ns : List Node} {name : String}
    (h : (ns.foldl addNode r).includes name = false) :
    ∀ n ∈ ns, n.Within (fun _ => False) (· ≠ name) := by
  induction ns generalizing r with
  | nil => nofun
  | cons n ns ih =>
    rintro m (_ | ⟨_, hm⟩)
    · cases n with
      | call other as negated =>
        simp [addNode, foldl_any, includes] at h
      | field other negated =>
        rintro rfl
        rw [List.foldl_cons, includes_foldl] at h
        · cases h
        · simp [addNode, includes_insert]
      | _ => trivial
    · exact ih h m hm

theorem within_of_not_includes {ns : List Node} {name : String}
    (h : (ofNodes ns).includes name = false) : ∀ n ∈ ns, n.Within (fun _ => False) (· ≠ name) :=
  within_of_foldl h

end Reads

end LiveMarkup.Expression

namespace LiveMarkup.Directive

def Calls (call : String → Prop) : Directive → Prop
  | .interpolation _ => True
  | .conditional c => c.predicate.Calls call

instance (call : String → Prop) [DecidablePred call] (d : Directive) : Decidable (d.Calls call) :=
  match d with
  | .interpolation _ => .isTrue trivial
  | .conditional c => inferInstanceAs (Decidable (c.predicate.Calls call))

theorem Calls.mono {call call' : String → Prop} {d : Directive} (h : d.Calls call)
    (hc : ∀ name, call name → call' name) : d.Calls call' := by
  cases d with
  | interpolation i => trivial
  | conditional c => exact Expression.Compiled.Calls.mono h hc

end LiveMarkup.Directive

namespace LiveMarkup.Template

open LiveMarkup.Expression

def filled (t : Template) (field : String → Value) : String :=
  Id.run (t.render fun name => pure (field name))

theorem includes_addReads {r : Reads} {name : String} (h : r.includes name = true)
    (parts : List TemplatePart) : (parts.foldl addReads r).includes name = true := by
  induction parts generalizing r with
  | nil => exact h
  | cons p parts ih =>
    refine ih ?_
    cases p with
    | text s => exact h
    | field other => simp [addReads, Reads.includes_insert, h]

theorem includes_of_mem {t : Template} {name : String} (h : .field name ∈ t.parts) :
    t.reads.includes name = true := by
  obtain ⟨before, after, hp⟩ := List.append_of_mem h
  rw [reads, hp, List.foldl_append, List.foldl_cons]
  exact includes_addReads (by simp [addReads, Reads.includes_insert]) after

theorem renderParts_congr {f f' : String → Id Value} {parts : List TemplatePart}
    (h : ∀ name, .field name ∈ parts → f name = f' name) :
    renderParts f parts = renderParts f' parts := by
  induction parts with
  | nil => rfl
  | cons p parts ih =>
    have ih := ih fun name hn => h name (List.mem_cons_of_mem _ hn)
    cases p with
    | text s => rw [renderParts, renderParts, ih]
    | field name => rw [renderParts, renderParts, h name (List.mem_cons_self ..), ih]

theorem filled_congr {t : Template} {f f' : String → Value}
    (h : ∀ name, t.reads.includes name = true → f name = f' name) : t.filled f = t.filled f' :=
  renderParts_congr fun name hn => h name (includes_of_mem hn)

end LiveMarkup.Template
