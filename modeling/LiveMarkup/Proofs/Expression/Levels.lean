import LiveMarkup.Proofs.Expression.Flat

/-!
Levels of operators. A tree keeps the levels if looser operators stand above tighter ones and chains of
one level lean to the left; the nodes of such a tree, read from left to right, give the tree back, and
every tree that is read keeps the levels.
-/

namespace LiveMarkup.Expression

def Node.spelled : Node → List Node
  | .call name as true => [.logical .not, .call name as false]
  | .field name true => [.logical .not, .field name false]
  | n => [n]

def spelled (ns : List Node) : List Node := ns.flatMap Node.spelled

def literalNodes : Value → List Node
  | .string s => [.string s]
  | .number x => [.number x]
  | _ => []

def Expr.reading : Expr → List Node
  | .literal v => literalNodes v
  | .field name => [.field name false]
  | .call name as => [.call name as false]
  | .not e => .logical .not :: e.reading
  | .and a b => a.reading ++ .logical .and :: b.reading
  | .or a b => a.reading ++ .logical .or :: b.reading
  | .compare op a b => a.reading ++ .comparison op :: b.reading

/-- How loosely the topmost operator binds; operands and negations bind tightest. -/
def Expr.level : Expr → Nat
  | .or _ _ => 3
  | .and _ _ => 2
  | .compare _ _ _ => 1
  | _ => 0

def Expr.right? : Expr → Option Expr
  | .or _ b => some b
  | .and _ b => some b
  | .compare _ _ b => some b
  | _ => none

def Expr.parts : Expr → List Expr
  | .not e => .not e :: e.parts
  | .and a b => .and a b :: (a.parts ++ b.parts)
  | .or a b => .or a b :: (a.parts ++ b.parts)
  | .compare op a b => .compare op a b :: (a.parts ++ b.parts)
  | e => [e]

structure Expr.KeepsLevels (e : Expr) : Prop where
  literal : ∀ v, .literal v ∈ e.parts → literalNodes v ≠ []
  not : ∀ a, .not a ∈ e.parts → a.level = 0
  compare : ∀ op a b, .compare op a b ∈ e.parts → ∀ c ∈ a.parts ++ b.parts, c.level ≤ 1
  and : ∀ a b, .and a b ∈ e.parts → ∀ c ∈ a.parts ++ b.parts, c.level ≤ 2
  right : ∀ t ∈ e.parts, ∀ b ∈ t.right?, b.level ≠ t.level

def Expr.Leveled : Expr → Prop
  | .literal v => literalNodes v ≠ []
  | .field _ => True
  | .call _ _ => True
  | .not e => e.level = 0 ∧ e.Leveled
  | .compare _ a b => a.level ≤ 1 ∧ b.level < 1 ∧ a.Leveled ∧ b.Leveled
  | .and a b => a.level ≤ 2 ∧ b.level < 2 ∧ a.Leveled ∧ b.Leveled
  | .or a b => b.level < 3 ∧ a.Leveled ∧ b.Leveled

theorem Expr.mem_parts_self (e : Expr) : e ∈ e.parts := by
  cases e <;> exact List.mem_cons_self ..

theorem Expr.level_le (e : Expr) : e.level ≤ 3 := by cases e <;> simp [level]

theorem Expr.forall_parts {P : Expr → Prop} {e a b : Expr} (he : P e) (ha : ∀ c ∈ a.parts, P c)
    (hb : ∀ c ∈ b.parts, P c) : ∀ c ∈ e :: (a.parts ++ b.parts), P c :=
  List.forall_mem_cons.2 ⟨he, List.forall_mem_append.2 ⟨ha, hb⟩⟩

theorem Expr.Leveled.level_le_of_mem {e : Expr} (h : e.Leveled) :
    ∀ c ∈ e.parts, c.level ≤ e.level := by
  induction e with
  | not a ih =>
    have hle := ih h.2
    rw [h.1] at hle
    exact List.forall_mem_cons.2 ⟨Nat.le_refl _, hle⟩
  | compare op a b iha ihb =>
    obtain ⟨hla, hlb, ha, hb⟩ := h
    refine forall_parts (Nat.le_refl _) (fun c hc => ?_) fun c hc => ?_
    · exact Nat.le_trans (iha ha c hc) hla
    · exact Nat.le_trans (ihb hb c hc) (Nat.le_of_lt hlb)
  | and a b iha ihb =>
    obtain ⟨hla, hlb, ha, hb⟩ := h
    refine forall_parts (Nat.le_refl _) (fun c hc => ?_) fun c hc => ?_
    · exact Nat.le_trans (iha ha c hc) hla
    · exact Nat.le_trans (ihb hb c hc) (Nat.le_of_lt hlb)
  | or a b iha ihb => exact fun c _ => c.level_le
  | _ => exact List.forall_mem_singleton.2 (Nat.le_refl _)

theorem Expr.Leveled.of_mem {e : Expr} (h : e.Leveled) : ∀ c ∈ e.parts, c.Leveled := by
  induction e with
  | not a ih => exact List.forall_mem_cons.2 ⟨h, ih h.2⟩
  | compare op a b iha ihb => exact forall_parts h (iha h.2.2.1) (ihb h.2.2.2)
  | and a b iha ihb => exact forall_parts h (iha h.2.2.1) (ihb h.2.2.2)
  | or a b iha ihb => exact forall_parts h (iha h.2.1) (ihb h.2.2)
  | _ => exact List.forall_mem_singleton.2 h

theorem Expr.Leveled.keepsLevels {e : Expr} (h : e.Leveled) : e.KeepsLevels where
  literal _ hv := h.of_mem _ hv
  not _ ha := (h.of_mem _ ha).1
  compare _ _ _ hab c hc := (h.of_mem _ hab).level_le_of_mem c (List.mem_cons_of_mem _ hc)
  and _ _ hab c hc := (h.of_mem _ hab).level_le_of_mem c (List.mem_cons_of_mem _ hc)
  right t ht b hb := by
    have hlt := h.of_mem t ht
    cases t with
    | or a b =>
      cases hb
      exact Nat.ne_of_lt hlt.1
    | and a b =>
      cases hb
      exact Nat.ne_of_lt hlt.2.1
    | compare op a b =>
      cases hb
      exact Nat.ne_of_lt hlt.2.1
    | _ => cases hb

theorem Expr.KeepsLevels.of_parts {e c : Expr} (h : e.KeepsLevels)
    (hc : ∀ x ∈ c.parts, x ∈ e.parts) : c.KeepsLevels where
  literal v hv := h.literal v (hc _ hv)
  not a ha := h.not a (hc _ ha)
  compare op a b hab := h.compare op a b (hc _ hab)
  and a b hab := h.and a b (hc _ hab)
  right t ht := h.right t (hc t ht)

theorem Expr.KeepsLevels.operands {e a b : Expr} (h : e.KeepsLevels)
    (he : e.parts = e :: (a.parts ++ b.parts)) : a.KeepsLevels ∧ b.KeepsLevels := by
  constructor
  · refine h.of_parts fun x hx => ?_
    rw [he]
    exact List.mem_cons_of_mem _ (List.mem_append_left _ hx)
  · refine h.of_parts fun x hx => ?_
    rw [he]
    exact List.mem_cons_of_mem _ (List.mem_append_right _ hx)

theorem Expr.KeepsLevels.leveled {e : Expr} (h : e.KeepsLevels) : e.Leveled := by
  induction e with
  | literal v => exact h.literal v (List.mem_singleton_self _)
  | field name => trivial
  | call name as => trivial
  | not a ih =>
    exact ⟨h.not a (mem_parts_self _), ih (h.of_parts fun _ => List.mem_cons_of_mem _)⟩
  | compare op a b iha ihb =>
    obtain ⟨ha, hb⟩ := h.operands rfl
    have hle := h.compare op a b (mem_parts_self _)
    have hlb := hle b (List.mem_append_right _ b.mem_parts_self)
    have hne := h.right _ (mem_parts_self _) b rfl
    exact ⟨hle a (List.mem_append_left _ a.mem_parts_self), Nat.lt_of_le_of_ne hlb hne, iha ha, ihb hb⟩
  | and a b iha ihb =>
    obtain ⟨ha, hb⟩ := h.operands rfl
    have hle := h.and a b (mem_parts_self _)
    have hlb := hle b (List.mem_append_right _ b.mem_parts_self)
    have hne := h.right _ (mem_parts_self _) b rfl
    exact ⟨hle a (List.mem_append_left _ a.mem_parts_self), Nat.lt_of_le_of_ne hlb hne, iha ha, ihb hb⟩
  | or a b iha ihb =>
    obtain ⟨ha, hb⟩ := h.operands rfl
    have hne := h.right _ (mem_parts_self _) b rfl
    exact ⟨Nat.lt_of_le_of_ne b.level_le hne, iha ha, ihb hb⟩

theorem readOperator_congr (o' o : Open) (e : Expr) (ns : List Node)
    (hd : o'.disjunct = o.disjunct) (hc : o'.conjunct = o.conjunct) :
    readOperator o' e ns = readOperator o e ns := by
  have hconjunction : o'.closeConjunction e = o.closeConjunction e := by
    simp only [Open.closeConjunction, hc]
  have hdisjunction : o'.closeDisjunction e = o.closeDisjunction e := by
    simp only [Open.closeDisjunction, hd, hconjunction]
  cases ns with
  | nil => rw [readOperator, readOperator, hdisjunction]
  | cons n ns =>
    cases n with
    | comparison op => rw [readOperator, readOperator, hd, hc]
    | logical op =>
      cases op with
      | and => rw [readOperator, readOperator, hd, hconjunction]
      | or => rw [readOperator, readOperator, hdisjunction]
      | not => rw [readOperator, readOperator] <;> simp
    | _ => rw [readOperator, readOperator] <;> simp

theorem closeComparison_not (o : Open) (e : Expr) :
    Open.closeComparison { o with negations := o.negations + 1 } e =
      o.closeComparison (.not e) := by
  simp only [Open.closeComparison, repeat_not]

theorem literal_of_leveled {v : Value} (h : literalNodes v ≠ []) :
    ∃ n, literalNodes v = [n] ∧ operand? n = some (.literal v) := by
  cases v with
  | string s => exact ⟨_, rfl, rfl⟩
  | number x => exact ⟨_, rfl, rfl⟩
  | _ => exact absurd rfl h

theorem readOperand_of_operand {n : Node} {e : Expr} (h : operand? n = some e) (o : Open)
    (ns : List Node) : readOperand o (n :: ns) = readOperator o (o.closeComparison e) ns := by
  have hnot : n ≠ .logical .not := by
    rintro rfl
    cases h
  rw [readOperand, h]
  exact hnot

theorem readOperand_unary {e : Expr} (h : e.Leveled) (hl : e.level = 0) (o : Open)
    (ns : List Node) :
    readOperand o (e.reading ++ ns) = readOperator o (o.closeComparison e) ns := by
  induction e generalizing o with
  | literal v =>
    obtain ⟨n, hn, hoperand⟩ := literal_of_leveled h
    rw [Expr.reading, hn, List.singleton_append, readOperand_of_operand hoperand]
  | field name => exact readOperand_of_operand rfl o ns
  | call name as => exact readOperand_of_operand rfl o ns
  | not a ih =>
    rw [Expr.reading, List.cons_append, readOperand, ih h.2 h.1, closeComparison_not]
    exact readOperator_congr { o with negations := o.negations + 1 } o _ ns rfl rfl
  | _ => cases hl

theorem readOperand_comparison {e : Expr} (h : e.Leveled) (hl : e.level ≤ 1)
    (disjunct conjunct : Option Expr) (ns : List Node) :
    readOperand ⟨disjunct, conjunct, none, 0⟩ (e.reading ++ ns) =
      readOperator ⟨disjunct, conjunct, none, 0⟩ e ns := by
  induction e generalizing ns with
  | compare op a b iha ihb =>
    obtain ⟨hla, hlb, ha, hb⟩ := h
    rw [Expr.reading, List.append_assoc, iha ha hla, List.cons_append, readOperator,
      readOperand_unary hb (Nat.lt_one_iff.1 hlb)]
    exact readOperator_congr ⟨disjunct, conjunct, some (op, a), 0⟩ ⟨disjunct, conjunct, none, 0⟩ _ ns rfl rfl
  | and a b => exact absurd hl (by simp [Expr.level])
  | or a b => exact absurd hl (by simp [Expr.level])
  | _ => rw [readOperand_unary h rfl]; rfl

def EndsComparison : List Node → Prop
  | .comparison _ :: _ => False
  | _ => True

theorem readOperator_and (disjunct : Option Expr) (a b : Expr) {ns : List Node}
    (hns : EndsComparison ns) :
    readOperator ⟨disjunct, some a, none, 0⟩ b ns =
      readOperator ⟨disjunct, none, none, 0⟩ (.and a b) ns := by
  have hdisjunction : (⟨disjunct, some a, none, 0⟩ : Open).closeDisjunction b =
      (⟨disjunct, none, none, 0⟩ : Open).closeDisjunction (.and a b) := by
    cases disjunct <;> rfl
  cases ns with
  | nil => rw [readOperator, readOperator, hdisjunction]
  | cons n ns =>
    cases n with
    | comparison op => exact hns.elim
    | logical op =>
      cases op with
      | and => rw [readOperator, readOperator]; rfl
      | or => rw [readOperator, readOperator, hdisjunction]
      | not => rw [readOperator, readOperator] <;> simp
    | _ => rw [readOperator, readOperator] <;> simp

theorem readOperand_conjunction {e : Expr} (h : e.Leveled) (hl : e.level ≤ 2)
    (disjunct : Option Expr) {ns : List Node} (hns : EndsComparison ns) :
    readOperand ⟨disjunct, none, none, 0⟩ (e.reading ++ ns) =
      readOperator ⟨disjunct, none, none, 0⟩ e ns := by
  induction e generalizing ns with
  | and a b iha ihb =>
    obtain ⟨hla, hlb, ha, hb⟩ := h
    have hmark : EndsComparison (.logical .and :: (b.reading ++ ns)) := trivial
    rw [Expr.reading, List.append_assoc, List.cons_append, iha ha hla hmark, readOperator,
      readOperand_comparison hb (Nat.le_of_lt_succ hlb)]
    exact readOperator_and disjunct a b hns
  | or a b => exact absurd hl (by simp [Expr.level])
  | compare op a b => exact readOperand_comparison h (Nat.le_refl 1) disjunct none ns
  | _ => exact readOperand_comparison h (Nat.zero_le 1) disjunct none ns

theorem readOperand_disjunction {e : Expr} (h : e.Leveled) {ns : List Node}
    (hns : ns = [] ∨ ns.head? = some (.logical .or)) :
    readOperand .none (e.reading ++ ns) = readOperator .none e ns := by
  have hends : EndsComparison ns := by
    rcases hns with rfl | hns
    · trivial
    · obtain ⟨rest, rfl⟩ := List.head?_eq_some_iff.1 hns
      trivial
  induction e generalizing ns with
  | or a b iha ihb =>
    obtain ⟨hlb, ha, hb⟩ := h
    have hmark : (.logical .or :: (b.reading ++ ns)).head? = some (Node.logical .or) := rfl
    rw [Expr.reading, List.append_assoc, List.cons_append, iha ha (.inr hmark) trivial, readOperator,
      readOperand_conjunction hb (Nat.le_of_lt_succ hlb) _ hends]
    rcases hns with rfl | hns
    · rw [readOperator, readOperator]
      rfl
    · obtain ⟨rest, rfl⟩ := List.head?_eq_some_iff.1 hns
      rw [readOperator, readOperator]
      rfl
  | and a b => exact readOperand_conjunction h (Nat.le_refl 2) none hends
  | compare op a b => exact readOperand_conjunction h (by simp [Expr.level]) none hends
  | _ => exact readOperand_conjunction h (Nat.zero_le 2) none hends

theorem ofNodes_reading {e : Expr} (h : e.Leveled) : Expr.ofNodes e.reading = .ok (some e) := by
  have hread : readOperand .none e.reading = .ok e := by
    have hread := readOperand_disjunction h (.inl rfl)
    rw [List.append_nil] at hread
    rw [hread, readOperator]
    rfl
  cases hns : e.reading with
  | nil =>
    rw [hns, readOperand] at hread
    cases hread
  | cons n ns => rw [Expr.ofNodes, ← hns, hread]; rfl

def openedReading (mark : Node) : Option Expr → List Node
  | some e => e.reading ++ [mark]
  | none => []

def Open.outerReading (o : Open) : List Node :=
  openedReading (.logical .or) o.disjunct ++ openedReading (.logical .and) o.conjunct

def Open.innerReading (o : Open) : List Node :=
  (match o.comparand with
    | some (op, e) => e.reading ++ [.comparison op]
    | Option.none => []) ++ List.replicate o.negations (.logical .not)

structure Open.Leveled (o : Open) : Prop where
  disjunct : ∀ e ∈ o.disjunct, e.Leveled
  conjunct : ∀ e ∈ o.conjunct, e.Leveled ∧ e.level ≤ 2
  comparand : ∀ c ∈ o.comparand, c.2.Leveled ∧ c.2.level ≤ 1

variable {o : Open} {e : Expr}

theorem operand?_leveled {n : Node} (h : operand? n = some e) :
    e.Leveled ∧ e.level = 0 ∧ e.reading = n.spelled := by
  cases n with
  | call name as negated =>
    cases h
    cases negated
    · exact ⟨trivial, rfl, rfl⟩
    · exact ⟨⟨rfl, trivial⟩, rfl, rfl⟩
  | field name negated =>
    cases h
    cases negated
    · exact ⟨trivial, rfl, rfl⟩
    · exact ⟨⟨rfl, trivial⟩, rfl, rfl⟩
  | string s =>
    cases h
    exact ⟨List.cons_ne_nil _ _, rfl, rfl⟩
  | number x =>
    cases h
    exact ⟨List.cons_ne_nil _ _, rfl, rfl⟩
  | _ => cases h

theorem repeat_not_leveled (k : Nat) (he : e.Leveled) (hl : e.level = 0) :
    (Nat.repeat Expr.not k e).Leveled ∧ (Nat.repeat Expr.not k e).level = 0 ∧
      (Nat.repeat Expr.not k e).reading = List.replicate k (.logical .not) ++ e.reading := by
  induction k with
  | zero => exact ⟨he, hl, rfl⟩
  | succ k ih =>
    obtain ⟨hk, hlevel, hreading⟩ := ih
    refine ⟨⟨hlevel, hk⟩, rfl, ?_⟩
    rw [Nat.repeat, Expr.reading, hreading, List.replicate_succ, List.cons_append]

theorem Open.Leveled.closeComparison (ho : o.Leveled) (he : e.Leveled) (hl : e.level = 0) :
    (o.closeComparison e).Leveled ∧ (o.closeComparison e).level ≤ 1 ∧
      (o.closeComparison e).reading = o.innerReading ++ e.reading := by
  obtain ⟨hk, hlevel, hreading⟩ := repeat_not_leveled o.negations he hl
  simp only [Open.closeComparison, Open.innerReading]
  cases hc : o.comparand with
  | none => exact ⟨hk, by rw [hlevel]; exact Nat.zero_le 1, hreading⟩
  | some c =>
    obtain ⟨ha, hla⟩ := ho.comparand c hc
    refine ⟨⟨hla, by rw [hlevel]; exact Nat.one_pos, ha, hk⟩, Nat.le_refl 1, ?_⟩
    simp only [Expr.reading, hreading, List.append_assoc, List.cons_append, List.nil_append]

theorem Open.Leveled.closeConjunction (ho : o.Leveled) (he : e.Leveled) (hl : e.level ≤ 1) :
    (o.closeConjunction e).Leveled ∧ (o.closeConjunction e).level ≤ 2 ∧
      (o.closeConjunction e).reading = openedReading (.logical .and) o.conjunct ++ e.reading := by
  simp only [Open.closeConjunction]
  cases hc : o.conjunct with
  | none => exact ⟨he, Nat.le_succ_of_le hl, rfl⟩
  | some a =>
    obtain ⟨ha, hla⟩ := ho.conjunct a hc
    refine ⟨⟨hla, Nat.lt_succ_of_le hl, ha, he⟩, Nat.le_refl 2, ?_⟩
    simp only [Expr.reading, openedReading, List.append_assoc, List.singleton_append]

theorem Open.Leveled.closeDisjunction (ho : o.Leveled) (he : e.Leveled) (hl : e.level ≤ 1) :
    (o.closeDisjunction e).Leveled ∧ (o.closeDisjunction e).reading = o.outerReading ++ e.reading := by
  obtain ⟨hc, hlevel, hreading⟩ := ho.closeConjunction he hl
  simp only [Open.closeDisjunction, Open.outerReading]
  cases hd : o.disjunct with
  | none => exact ⟨hc, hreading⟩
  | some a =>
    refine ⟨⟨Nat.lt_succ_of_le hlevel, ho.disjunct a hd, hc⟩, ?_⟩
    rw [Expr.reading, hreading]
    simp only [openedReading, List.append_assoc, List.cons_append, List.nil_append]

theorem spelled_cons (n : Node) (ns : List Node) : spelled (n :: ns) = n.spelled ++ spelled ns :=
  List.flatMap_cons ..

def Open.reading (o : Open) : List Node := o.outerReading ++ o.innerReading

theorem Open.Leveled.negate (ho : o.Leveled) :
    Open.Leveled { o with negations := o.negations + 1 } ∧
      Open.reading { o with negations := o.negations + 1 } = o.reading ++ [.logical .not] := by
  refine ⟨⟨ho.disjunct, ho.conjunct, ho.comparand⟩, ?_⟩
  simp [Open.reading, Open.outerReading, Open.innerReading, List.replicate_succ']

theorem Open.Leveled.compare (op : ComparisonOp) (ho : o.Leveled) (he : e.Leveled)
    (hl : e.level ≤ 1) : Open.Leveled ⟨o.disjunct, o.conjunct, some (op, e), 0⟩ ∧
      Open.reading ⟨o.disjunct, o.conjunct, some (op, e), 0⟩ =
        o.outerReading ++ e.reading ++ [.comparison op] := by
  refine ⟨⟨ho.disjunct, ho.conjunct, ?_⟩, ?_⟩
  · rintro _ ⟨⟩
    exact ⟨he, hl⟩
  · simp [Open.reading, Open.outerReading, Open.innerReading]

theorem Open.Leveled.conjoin (ho : o.Leveled) (he : e.Leveled) (hl : e.level ≤ 1) :
    Open.Leveled ⟨o.disjunct, some (o.closeConjunction e), Option.none, 0⟩ ∧
      Open.reading ⟨o.disjunct, some (o.closeConjunction e), Option.none, 0⟩ =
        o.outerReading ++ e.reading ++ [.logical .and] := by
  obtain ⟨hclosed, hlevel, hreading⟩ := ho.closeConjunction he hl
  refine ⟨⟨ho.disjunct, ?_, nofun⟩, ?_⟩
  · rintro _ ⟨⟩
    exact ⟨hclosed, hlevel⟩
  · simp [Open.reading, Open.outerReading, Open.innerReading, openedReading, hreading]

theorem Open.Leveled.disjoin (ho : o.Leveled) (he : e.Leveled) (hl : e.level ≤ 1) :
    Open.Leveled ⟨some (o.closeDisjunction e), Option.none, Option.none, 0⟩ ∧
      Open.reading ⟨some (o.closeDisjunction e), Option.none, Option.none, 0⟩ =
        o.outerReading ++ e.reading ++ [.logical .or] := by
  obtain ⟨hclosed, hreading⟩ := ho.closeDisjunction he hl
  refine ⟨⟨?_, nofun, nofun⟩, ?_⟩
  · rintro _ ⟨⟩
    exact hclosed
  · simp [Open.reading, Open.outerReading, Open.innerReading, openedReading, hreading]

theorem read_leveled (ns : List Node) {t : Expr} :
    (∀ o : Open, o.Leveled → readOperand o ns = .ok t →
      t.Leveled ∧ t.reading = o.reading ++ spelled ns) ∧
    (∀ (o : Open) e, o.Leveled → e.Leveled → e.level ≤ 1 → readOperator o e ns = .ok t →
      t.Leveled ∧ t.reading = o.outerReading ++ e.reading ++ spelled ns) := by
  induction ns with
  | nil =>
    refine ⟨fun o _ h => by simp [readOperand] at h, fun o e ho he hl h => ?_⟩
    rw [readOperator] at h
    cases h
    obtain ⟨hd, hreading⟩ := ho.closeDisjunction he hl
    exact ⟨hd, by rw [hreading, spelled, List.flatMap_nil, List.append_nil]⟩
  | cons n ns ih =>
    obtain ⟨ihOperand, ihOperator⟩ := ih
    -- behind a node that only opens something, the rest is read as an operand
    have hopens {o : Open} {ms : List Node} (ho : o.Leveled ∧ o.reading = ms ++ [n])
        (hn : n.spelled = [n]) (h : readOperand o ns = .ok t) :
        t.Leveled ∧ t.reading = ms ++ spelled (n :: ns) := by
      obtain ⟨ht, htree⟩ := ihOperand o ho.1 h
      refine ⟨ht, ?_⟩
      rw [htree, ho.2, spelled_cons, hn, List.append_assoc]
    refine ⟨fun o ho h => ?_, fun o e ho he hl h => ?_⟩
    · by_cases hnot : n = .logical .not
      · subst hnot
        rw [readOperand] at h
        exact hopens ho.negate rfl h
      · rw [readOperand] at h
        · split at h
          · next e hn =>
            obtain ⟨he, hl, hspelled⟩ := operand?_leveled hn
            obtain ⟨hclosed, hlevel, hreading⟩ := ho.closeComparison he hl
            obtain ⟨ht, htree⟩ := ihOperator o _ ho hclosed hlevel h
            refine ⟨ht, ?_⟩
            rw [htree, hreading, hspelled, spelled_cons, Open.reading]
            simp only [List.append_assoc]
          · cases h
        · exact hnot
    · cases n with
      | comparison op =>
        rw [readOperator] at h
        exact hopens (ho.compare op he hl) rfl h
      | logical op =>
        cases op with
        | and =>
          rw [readOperator] at h
          exact hopens (ho.conjoin he hl) rfl h
        | or =>
          rw [readOperator] at h
          exact hopens (ho.disjoin he hl) rfl h
        | not => simp [readOperator] at h
      | _ => simp [readOperator] at h

theorem Open.leveled_none : Open.none.Leveled where
  disjunct _ he := by cases he
  conjunct _ he := by cases he
  comparand _ hc := by cases hc

theorem ofNodes_leveled {ns : List Node} (h : Expr.ofNodes ns = .ok (some e)) :
    e.Leveled ∧ e.reading = spelled ns := by
  cases ns with
  | nil => cases h
  | cons n ns =>
    rw [Expr.ofNodes] at h
    cases hr : readOperand .none (n :: ns) with
    | error f =>
      rw [hr] at h
      cases h
    | ok t =>
      rw [hr] at h
      cases h
      exact (read_leveled _).1 .none Open.leveled_none hr

end LiveMarkup.Expression
