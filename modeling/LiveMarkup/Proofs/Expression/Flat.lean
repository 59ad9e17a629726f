import LiveMarkup.Expression.Compiled

/-!
Evaluation of node lists without a tree. A list is cut at its operators, loosest first, and the pieces
are evaluated in order; compiled expressions do the same.
-/

namespace LiveMarkup.Expression

/-- The nodes before the first separator, and after each separator those up to the next. -/
def cutAt {α : Type} (separator : Node → Option α) : List Node → List Node × List (α × List Node)
  | [] => ([], [])
  | n :: ns =>
    match separator n with
    | some a => ([], (a, (cutAt separator ns).1) :: (cutAt separator ns).2)
    | none => (n :: (cutAt separator ns).1, (cutAt separator ns).2)

def Node.or? : Node → Option Unit
  | .logical .or => some ()
  | _ => none

def Node.and? : Node → Option Unit
  | .logical .and => some ()
  | _ => none

def Node.comparison? : Node → Option ComparisonOp
  | .comparison op => some op
  | _ => none

def Node.isBinary (n : Node) : Bool := n.or?.isSome || n.and?.isSome || n.comparison?.isSome

/-- The first node out of place, if the list is no expression; `behind` an operand an operator
follows. -/
def fault? (behind : Bool) : List Node → Option Fault
  | [] => if behind then none else some .endOfExpression
  | n :: ns =>
    if behind then if n.isBinary then fault? false ns else some (.notAnOperator n)
    else if n = .logical .not then fault? false ns
    else if n.isOperand then fault? true ns
    else some (.notAnOperand n)

namespace Flat

variable {m : Type → Type} [Monad m]

def arguments (s : Scope m) (as : List Argument) : m (List Value) :=
  as.mapM fun
    | .number x => pure (.number x)
    | .string t => pure (.string t)
    | .field name => s.field name

def negateIf (negated : Bool) (v : Value) : Value := if negated then .bool !v.truthy else v

def node (s : Scope m) : Node → ExceptT EvalError m Value
  | .string t => pure (.string t)
  | .number x => pure (.number x)
  | .field name negated => do
    let v ← s.field name
    pure (negateIf negated v)
  | .call name as negated => do
    let vs ← (arguments s as : m (List Value))
    let v ← s.call name vs
    pure (negateIf negated v)
  | .logical _ => pure .undefined
  | .comparison _ => pure .undefined

def operand (s : Scope m) : List Node → ExceptT EvalError m Value
  | [] => pure .undefined
  | .logical .not :: ns => do
    let v ← operand s ns
    pure (negateIf true v)
  | n :: _ => node s n

def compareWith (s : Scope m) (v : Value) (right : ComparisonOp × List Node) :
    ExceptT EvalError m Value := do
  let w ← operand s right.2
  pure (.bool (right.1.holds v w))

def comparisons (s : Scope m) (ns : List Node) : ExceptT EvalError m Value := do
  let v ← operand s (cutAt Node.comparison? ns).1
  (cutAt Node.comparison? ns).2.foldlM (compareWith s) v

def firstThat (decides : Value → Bool) (first : ExceptT EvalError m Value) :
    List (ExceptT EvalError m Value) → ExceptT EvalError m Value
  | [] => first
  | e :: es => do
    let v ← first
    if decides v then pure v else firstThat decides e es

def conjunction (s : Scope m) (ns : List Node) : ExceptT EvalError m Value :=
  firstThat (fun v => !v.truthy) (comparisons s (cutAt Node.and? ns).1)
    ((cutAt Node.and? ns).2.map fun piece => comparisons s piece.2)

def disjunction (s : Scope m) (ns : List Node) : ExceptT EvalError m Value :=
  firstThat Value.truthy (conjunction s (cutAt Node.or? ns).1)
    ((cutAt Node.or? ns).2.map fun piece => conjunction s piece.2)

def evaluate (s : Scope m) (ns : List Node) : ExceptT EvalError m Value :=
  if ns.isEmpty then pure .undefined
  else
    match fault? false ns with
    | some fault => throw (.invalid (Compiled.trimStart (serialize ns)) fault.message)
    | none => disjunction s ns

end Flat

def operandTree : List Node → Expr
  | [] => .literal .undefined
  | .logical .not :: ns => .not (operandTree ns)
  | n :: _ => (operand? n).getD (.literal .undefined)

def compareAll (first : Expr) (rest : List (ComparisonOp × List Node)) : Expr :=
  rest.foldl (fun left right => .compare right.1 left (operandTree right.2)) first

def comparisonTree (ns : List Node) : Expr :=
  compareAll (operandTree (cutAt Node.comparison? ns).1) (cutAt Node.comparison? ns).2

def joinAll (join : Expr → Expr → Expr) (tree : List Node → Expr) (first : Expr)
    (rest : List (Unit × List Node)) : Expr :=
  rest.foldl (fun left right => join left (tree right.2)) first

def conjunctionTree (ns : List Node) : Expr :=
  joinAll .and comparisonTree (comparisonTree (cutAt Node.and? ns).1) (cutAt Node.and? ns).2

def disjunctionTree (ns : List Node) : Expr :=
  joinAll .or conjunctionTree (conjunctionTree (cutAt Node.or? ns).1) (cutAt Node.or? ns).2

def Open.joinDisjunct (o : Open) (e : Expr) : Expr :=
  match o.disjunct with
  | some left => .or left e
  | .none => e

theorem Open.closeDisjunction_eq (o : Open) (e : Expr) :
    o.closeDisjunction e = o.joinDisjunct (o.closeConjunction e) := by
  unfold closeDisjunction joinDisjunct
  cases o.disjunct <;> rfl

def Open.complete (o : Open) (e : Expr) (ns : List Node) : Expr :=
  let disjuncts := cutAt Node.or? ns
  let conjuncts := cutAt Node.and? disjuncts.1
  let comparisons := (cutAt Node.comparison? conjuncts.1).2
  joinAll .or conjunctionTree
    (o.joinDisjunct (joinAll .and comparisonTree
      (o.closeConjunction (compareAll e comparisons)) conjuncts.2)) disjuncts.2

theorem repeat_not (k : Nat) (e : Expr) :
    Nat.repeat Expr.not (k + 1) e = Nat.repeat Expr.not k (.not e) := by
  induction k with
  | zero => rfl
  | succ k ih => rw [Nat.repeat, ih]; rfl

def leading (ns : List Node) : List Node :=
  (cutAt Node.comparison? (cutAt Node.and? (cutAt Node.or? ns).1).1).1

theorem leading_cons_not (ns : List Node) :
    leading (.logical .not :: ns) = .logical .not :: leading ns := rfl

theorem leading_cons_operand {n : Node} (h : n.isOperand) (ns : List Node) :
    leading (n :: ns) = n :: leading ns := by
  cases n <;> first | rfl | simp [Node.isOperand] at h

theorem Open.complete_cons_not (o : Open) (e : Expr) (ns : List Node) :
    o.complete e (.logical .not :: ns) = o.complete e ns := rfl

theorem Open.complete_cons_operand (o : Open) (e : Expr) {n : Node} (h : n.isOperand)
    (ns : List Node) : o.complete e (n :: ns) = o.complete e ns := by
  cases n <;> first | rfl | simp [Node.isOperand] at h

theorem operandTree_cons_operand {n : Node} {e : Expr} (h : operand? n = some e)
    (ns : List Node) : operandTree (n :: ns) = e := by
  cases n <;> simp_all [operand?, operandTree]

theorem operand?_isSome {n : Node} (h : n.isOperand) : ∃ e, operand? n = some e := by
  cases n <;> simp_all [operand?, Node.isOperand]

theorem fault?_operator_cons {n : Node} {ns : List Node} (h : fault? true (n :: ns) = none) :
    n.isBinary = true ∧ fault? false ns = none := by
  simp only [fault?, if_true] at h
  split at h
  · next hn => exact ⟨hn, h⟩
  · simp at h

/-- Both modes of the reader at once: the list splits where the reader closes what is open. -/
theorem read_of_no_fault (ns : List Node) :
    (∀ o, fault? false ns = none →
      readOperand o ns = .ok (o.complete (o.closeComparison (operandTree (leading ns))) ns)) ∧
    (∀ o e, fault? true ns = none → readOperator o e ns = .ok (o.complete e ns)) := by
  induction ns with
  | nil =>
    refine ⟨fun o h => by simp [fault?] at h, fun o e _ => ?_⟩
    rw [readOperator, Open.closeDisjunction_eq]
    rfl
  | cons n ns ih =>
    refine ⟨fun o h => ?_, fun o e h => ?_⟩
    · by_cases hnot : n = .logical .not
      · subst hnot
        have hns : fault? false ns = none := by simpa [fault?] using h
        rw [readOperand, ih.1 _ hns, leading_cons_not, Open.complete_cons_not]
        simp only [operandTree, Open.closeComparison, repeat_not]
        rfl
      · by_cases hn : n.isOperand
        · have hns : fault? true ns = none := by simpa [fault?, hnot, hn] using h
          obtain ⟨e, he⟩ := operand?_isSome hn
          rw [leading_cons_operand hn, operandTree_cons_operand he, Open.complete_cons_operand _ _ hn,
            ← ih.2 _ _ hns]
          cases n <;> simp_all [readOperand, operand?, Node.isOperand]
        · simp [fault?, hnot, hn] at h
    · obtain ⟨hn, hns⟩ := fault?_operator_cons h
      cases n with
      | comparison op =>
        rw [readOperator, ih.1 _ hns]
        rfl
      | logical op =>
        cases op with
        | and =>
          rw [readOperator, ih.1 _ hns]
          rfl
        | or =>
          rw [readOperator, ih.1 _ hns, Open.closeDisjunction_eq]
          rfl
        | not => simp [Node.isBinary, Node.or?, Node.and?, Node.comparison?] at hn
      | _ => simp [Node.isBinary, Node.or?, Node.and?, Node.comparison?] at hn

theorem fault?_behind_cons {n : Node} {ns : List Node} {f : Fault}
    (h : fault? true (n :: ns) = some f) :
    (n.isBinary = true ∧ fault? false ns = some f) ∨
      (n.isBinary = false ∧ f = .notAnOperator n) := by
  simp only [fault?, if_true] at h
  split at h
  · next hn => exact .inl ⟨hn, h⟩
  · next hn => exact .inr ⟨by simpa using hn, by simpa using h.symm⟩

theorem read_of_fault (ns : List Node) (f : Fault) :
    (∀ o, fault? false ns = some f → readOperand o ns = .error f) ∧
    (∀ o e, fault? true ns = some f → readOperator o e ns = .error f) := by
  induction ns with
  | nil =>
    refine ⟨fun o h => ?_, fun o e h => by simp [fault?] at h⟩
    have hf : f = .endOfExpression := by simpa [fault?] using h.symm
    rw [readOperand, hf]
  | cons n ns ih =>
    refine ⟨fun o h => ?_, fun o e h => ?_⟩
    · by_cases hnot : n = .logical .not
      · subst hnot
        rw [readOperand, ih.1 _ (by simpa [fault?] using h)]
      · by_cases hn : n.isOperand
        · rw [← ih.2 o (o.closeComparison ((operand? n).getD (.literal .undefined)))
            (by simpa [fault?, hnot, hn] using h)]
          cases n <;> simp_all [readOperand, operand?, Node.isOperand]
        · have hf : f = .notAnOperand n := by simpa [fault?, hnot, hn] using h.symm
          cases n <;> simp_all [readOperand, operand?, Node.isOperand]
    · rcases fault?_behind_cons h with ⟨hn, hns⟩ | ⟨hn, rfl⟩
      · cases n with
        | comparison op => rw [readOperator, ih.1 _ hns]
        | logical op =>
          cases op with
          | and => rw [readOperator, ih.1 _ hns]
          | or => rw [readOperator, ih.1 _ hns]
          | not => simp [Node.isBinary, Node.or?, Node.and?, Node.comparison?] at hn
        | _ => simp [Node.isBinary, Node.or?, Node.and?, Node.comparison?] at hn
      · cases n with
        | logical op =>
          cases op <;> first | rfl | simp [Node.isBinary, Node.or?, Node.and?] at hn
        | comparison op => simp [Node.isBinary, Node.comparison?] at hn
        | _ => rfl

theorem ofNodes_eq {ns : List Node} (h : ns ≠ []) :
    Expr.ofNodes ns =
      match fault? false ns with
      | some f => .error f
      | none => .ok (some (disjunctionTree ns)) := by
  cases ns with
  | nil => exact absurd rfl h
  | cons n ns =>
    rw [Expr.ofNodes]
    split
    · next f hf => rw [(read_of_fault _ f).1 _ hf]; rfl
    · next hf => rw [(read_of_no_fault _).1 _ hf]; rfl

namespace Flat

variable {m : Type → Type} [Monad m] [LawfulMonad m]

theorem arguments_eq (s : Scope m) (as : List Argument) : s.arguments as = arguments s as := by
  induction as with
  | nil => rfl
  | cons a as ih =>
    rw [Scope.arguments, ih]
    simp only [arguments, List.mapM_cons]
    cases a <;> rfl

theorem eval_negateIf (s : Scope m) (negated : Bool) (e : Expr) :
    (Expression.negateIf negated e).eval s = e.eval s >>= fun v => pure (negateIf negated v) := by
  cases negated
  · simp [Expression.negateIf, negateIf]
  · simp [Expression.negateIf, negateIf, Expr.eval]

theorem eval_node (s : Scope m) (n : Node) :
    ((operand? n).getD (.literal .undefined)).eval s = node s n := by
  cases n with
  | call name as negated =>
    simp [operand?, node, eval_negateIf, Expr.eval, Scope.invoke, arguments_eq]
  | field name negated =>
    simp [operand?, node, eval_negateIf, Expr.eval]
  | _ => rfl

theorem eval_operandTree (s : Scope m) (ns : List Node) :
    (operandTree ns).eval s = operand s ns := by
  induction ns with
  | nil => rfl
  | cons n ns ih =>
    by_cases hnot : n = .logical .not
    · subst hnot
      simp [operandTree, operand, Expr.eval, ih, negateIf]
    · rw [operandTree, operand, eval_node]
      · exact hnot
      · exact hnot

theorem eval_compareAll (s : Scope m) (first : Expr) (rest : List (ComparisonOp × List Node)) :
    (compareAll first rest).eval s = first.eval s >>= rest.foldlM (compareWith s) := by
  induction rest generalizing first with
  | nil => simp [compareAll]
  | cons right rest ih =>
    have h := ih (.compare right.1 first (operandTree right.2))
    simp only [compareAll, List.foldl_cons] at h ⊢
    simp [h, Expr.eval, eval_operandTree, compareWith]

theorem firstThat_cons (decides : Value → Bool) (a b : ExceptT EvalError m Value)
    (es : List (ExceptT EvalError m Value)) :
    firstThat decides a (b :: es) =
      firstThat decides (a >>= fun v => if decides v then pure v else b) es := by
  cases es with
  | nil => rfl
  | cons e es =>
    simp only [firstThat, bind_assoc]
    refine bind_congr fun v => ?_
    cases hv : decides v <;> simp [hv]

theorem eval_joinAll (s : Scope m) (join : Expr → Expr → Expr) (decides : Value → Bool)
    (hjoin : ∀ a b : Expr, (join a b).eval s =
      a.eval s >>= fun v => if decides v then pure v else b.eval s)
    (tree : List Node → Expr) (first : Expr) (rest : List (Unit × List Node)) :
    (joinAll join tree first rest).eval s =
      firstThat decides (first.eval s) (rest.map fun piece => (tree piece.2).eval s) := by
  induction rest generalizing first with
  | nil => rfl
  | cons piece rest ih =>
    rw [List.map_cons, firstThat_cons, ← hjoin, ← ih]
    rfl

theorem eval_comparisonTree (s : Scope m) (ns : List Node) :
    (comparisonTree ns).eval s = comparisons s ns := by
  rw [comparisonTree, eval_compareAll, eval_operandTree]
  rfl

theorem eval_conjunctionTree (s : Scope m) (ns : List Node) :
    (conjunctionTree ns).eval s = conjunction s ns := by
  have hjoin (a b : Expr) : (Expr.and a b).eval s =
      a.eval s >>= fun v => if !v.truthy then pure v else b.eval s := by
    rw [Expr.eval]
    refine bind_congr fun v => ?_
    cases v.truthy <;> rfl
  rw [conjunctionTree, eval_joinAll s .and (fun v => !v.truthy) hjoin]
  simp only [eval_comparisonTree]
  rfl

theorem eval_disjunctionTree (s : Scope m) (ns : List Node) :
    (disjunctionTree ns).eval s = disjunction s ns := by
  rw [disjunctionTree, eval_joinAll s .or Value.truthy (fun _ _ => rfl)]
  simp only [eval_conjunctionTree]
  rfl

theorem evaluate_compile (s : Scope m) (ns : List Node) :
    (compile ns).evaluate s = evaluate s ns := by
  cases ns with
  | nil => rfl
  | cons n ns =>
    have h : (compile (n :: ns)).tree = _ := ofNodes_eq (List.cons_ne_nil n ns)
    rw [Compiled.evaluate, h, evaluate, if_neg (by simp)]
    cases fault? false (n :: ns) with
    | some f => rfl
    | none => exact eval_disjunctionTree s (n :: ns)

end Flat

inductive Access where
  | read (field : String)
  | call (name : String) (arguments : List Value)
  deriving Repr

variable {m : Type → Type} [Monad m]

def Scope.noting (s : Scope m) : Scope (StateT (List Access) m) where
  field name := do
    modify (· ++ [.read name])
    s.field name
  call name vs := ExceptT.mk do
    modify (· ++ [.call name vs])
    (s.call name vs).run

/-- As computations, so with the same effects in the same order; over a noting scope the notes are
among the effects. -/
theorem Compiled.evaluate_eq_flat [LawfulMonad m] (s : Scope m) (ns : List Node) :
    (compile ns).evaluate s = Flat.evaluate s ns ∧
      (compile ns).evaluate s.noting = Flat.evaluate s.noting ns :=
  ⟨Flat.evaluate_compile s ns, Flat.evaluate_compile s.noting ns⟩

def countingReads : Scope (StateM Nat) where
  field name := do
    modify (· + 1)
    pure (.string name)
  call name _ := throw (.method name "refused")

def orAfterCall : List Node :=
  [.field "a" false, .logical .and, .logical .not, .call "f" [.field "b", .string "x"] true,
    .logical .or, .field "c" false]

theorem Compiled.evaluate_stops_at_failure :
    (((compile orAfterCall).evaluate countingReads.noting).run.run []).run 0 =
      ((.error (.method "f" "refused"),
        [.read "a", .read "b", .call "f" [.string "b", .string "x"]]), 2) := by
  rw [(Compiled.evaluate_eq_flat countingReads orAfterCall).2]
  rfl

end LiveMarkup.Expression
