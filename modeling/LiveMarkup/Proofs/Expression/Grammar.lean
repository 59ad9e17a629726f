import LiveMarkup.Proofs.Expression.Levels

/-!
The grammar of expressions. A list of nodes compiles if, with its negations spelled out, it is a
sentence, and then to the one tree that keeps the levels and reads as the list.
-/

namespace LiveMarkup.Expression

inductive Operand : List Node → Prop
  | plain {n : Node} : n.isOperand → Operand [n]
  | not {ns : List Node} : Operand ns → Operand (.logical .not :: ns)

inductive Sentence : List Node → Prop
  | operand {ns : List Node} : Operand ns → Sentence ns
  | binary {ns ms : List Node} {n : Node} :
      Operand ns → n.isBinary → Sentence ms → Sentence (ns ++ n :: ms)

theorem Sentence.not {ns : List Node} (h : Sentence ns) : Sentence (.logical .not :: ns) := by
  cases h with
  | operand hns => exact .operand hns.not
  | binary hns hn hms => exact .binary hns.not hn hms

theorem Node.ne_not_of_isOperand {n : Node} (h : n.isOperand) : n ≠ .logical .not := by
  rintro rfl
  cases h

theorem fault?_operand {ns : List Node} (h : Operand ns) (ms : List Node) :
    fault? false (ns ++ ms) = fault? true ms := by
  induction h with
  | plain hn => simp [fault?, hn, Node.ne_not_of_isOperand hn]
  | not _ ih => simpa [fault?] using ih

theorem fault?_sentence {ns : List Node} (h : Sentence ns) : fault? false ns = none := by
  induction h with
  | operand hns => simpa [fault?] using fault?_operand hns []
  | binary hns hn _ ih =>
    rw [fault?_operand hns]
    simp [fault?, hn, ih]

theorem sentence_of_no_fault (ns : List Node) :
    (fault? false ns = none → Sentence ns) ∧
    (fault? true ns = none → ns = [] ∨ ∃ n ms, ns = n :: ms ∧ n.isBinary ∧ Sentence ms) := by
  induction ns with
  | nil => exact ⟨fun h => by simp [fault?] at h, fun _ => .inl rfl⟩
  | cons n ns ih =>
    refine ⟨fun h => ?_, fun h => ?_⟩
    · by_cases hnot : n = .logical .not
      · subst hnot
        have hns : fault? false ns = none := by simpa [fault?] using h
        exact (ih.1 hns).not
      · by_cases hn : n.isOperand
        · have hns : fault? true ns = none := by simpa [fault?, hnot, hn] using h
          rcases ih.2 hns with rfl | ⟨op, ms, rfl, hop, hms⟩
          · exact .operand (.plain hn)
          · exact .binary (.plain hn) hop hms
        · simp [fault?, hnot, hn] at h
    · obtain ⟨hn, hns⟩ := fault?_operator_cons h
      exact .inr ⟨n, ns, rfl, hn, ih.1 hns⟩

theorem no_fault_iff {ns : List Node} : fault? false ns = none ↔ Sentence ns :=
  ⟨(sentence_of_no_fault ns).1, fault?_sentence⟩

theorem isNone_fault?_spelled (behind : Bool) (ns : List Node) :
    (fault? behind (spelled ns)).isNone = (fault? behind ns).isNone := by
  induction ns generalizing behind with
  | nil => rfl
  | cons n ns ih =>
    rw [spelled_cons]
    cases n with
    | call name as negated =>
      cases negated <;> cases behind <;>
        simp [Node.spelled, fault?, Node.isOperand, Node.isBinary, Node.or?, Node.and?,
          Node.comparison?, ih]
    | field name negated =>
      cases negated <;> cases behind <;>
        simp [Node.spelled, fault?, Node.isOperand, Node.isBinary, Node.or?, Node.and?,
          Node.comparison?, ih]
    | logical op =>
      cases op <;> cases behind <;>
        simp [Node.spelled, fault?, Node.isOperand, Node.isBinary, Node.or?, Node.and?,
          Node.comparison?, ih]
    | _ =>
      cases behind <;>
        simp [Node.spelled, fault?, Node.isOperand, Node.isBinary, Node.or?, Node.and?,
          Node.comparison?, ih]

def Lexeme.isWord : Lexeme → Bool
  | .call .. => true
  | .number _ => true
  | .word _ => true
  | _ => false

/-- The tokens that are there once a space follows the `!` of a negated word. -/
def Token.detached (t : Token) : List Token :=
  if t.negated && t.lexeme.isWord then [⟨.logical .not, false⟩, ⟨t.lexeme, false⟩] else [t]

theorem spelled_append (ns ms : List Node) : spelled (ns ++ ms) = spelled ns ++ spelled ms :=
  List.flatMap_append

theorem spelled_nodesOf_detached (t : Token) :
    spelled (t.detached.flatMap nodesOf) = spelled (nodesOf t) := by
  obtain ⟨l, negated⟩ := t
  cases negated with
  | false => simp [Token.detached]
  | true => cases l <;> simp [Token.detached, Lexeme.isWord, nodesOf, classify, spelled, Node.spelled]

theorem spelled_build_detached (ts : List Token) :
    spelled (build (ts.flatMap Token.detached)) = spelled (build ts) := by
  induction ts with
  | nil => rfl
  | cons t ts ih =>
    simp only [build, List.flatMap_cons, List.flatMap_append, spelled_append] at ih ⊢
    rw [spelled_nodesOf_detached, ih]

variable {ns : List Node}

theorem isValid_compile : (compile ns).isValid ↔ ns = [] ∨ Sentence (spelled ns) := by
  have hsentence : (fault? false ns).isNone ↔ Sentence (spelled ns) := by
    rw [← no_fault_iff, ← Option.isNone_iff_eq_none, isNone_fault?_spelled]
  cases ns with
  | nil => simp [compile, Compiled.isValid, Expr.ofNodes]
  | cons n ns =>
    have htree : (compile (n :: ns)).tree = _ := ofNodes_eq (List.cons_ne_nil n ns)
    rw [← hsentence, Compiled.isValid, htree]
    cases fault? false (n :: ns) <;> simp

theorem tree_of_isValid (h : (compile ns).isValid) (hns : ns ≠ []) :
    ∃ e, (compile ns).tree = .ok (some e) := by
  have htree : (compile ns).tree = _ := ofNodes_eq hns
  rw [Compiled.isValid, htree] at h
  cases hf : fault? false ns with
  | some f => simp [hf] at h
  | none => exact ⟨disjunctionTree ns, by rw [htree, hf]⟩

theorem spelled_spelled (ns : List Node) : spelled (spelled ns) = spelled ns := by
  induction ns with
  | nil => rfl
  | cons n ns ih =>
    have hn : spelled n.spelled = n.spelled := by
      cases n with
      | call name as negated => cases negated <;> rfl
      | field name negated => cases negated <;> rfl
      | _ => rfl
    rw [spelled_cons, spelled_append, ih, hn]

/-- Soundness gives the first direction. In the other the tree is read back from its own nodes, so the
list spelled out compiles, and with it the list itself. -/
theorem tree_eq_iff {e : Expr} :
    (compile ns).tree = .ok (some e) ↔ e.KeepsLevels ∧ e.reading = spelled ns := by
  refine ⟨fun h => ?_, fun ⟨hlevels, hreading⟩ => ?_⟩
  · obtain ⟨hleveled, hreading⟩ := ofNodes_leveled h
    exact ⟨hleveled.keepsLevels, hreading⟩
  · have hspelled : (compile (spelled ns)).tree = .ok (some e) := by
      rw [← hreading]
      exact ofNodes_reading hlevels.leveled
    have hne : ns ≠ [] := by
      rintro rfl
      cases hspelled
    have hvalid : (compile ns).isValid := by
      have hsentence := isValid_compile.1 (show (compile (spelled ns)).isValid by
        rw [Compiled.isValid, hspelled])
      rw [spelled_spelled] at hsentence
      refine isValid_compile.2 (hsentence.imp (fun hnil => ?_) id)
      rw [hnil] at hspelled
      cases hspelled
    obtain ⟨t, ht⟩ := tree_of_isValid hvalid hne
    obtain ⟨hleveled, htree⟩ := ofNodes_leveled ht
    have hback : (compile (spelled ns)).tree = .ok (some t) := by
      rw [← htree]
      exact ofNodes_reading hleveled
    rw [hspelled] at hback
    cases hback
    exact ht

def Compiled.tree? (c : Compiled) : Option Expr := c.tree.toOption.join

theorem tree?_eq_some {e : Expr} :
    (compile ns).tree? = some e ↔ e.KeepsLevels ∧ e.reading = spelled ns := by
  rw [← tree_eq_iff, Compiled.tree?]
  rcases (compile ns).tree with fault | _ | t <;> simp [Except.toOption]

theorem spelled_eq_nil : spelled ns = [] ↔ ns = [] := by
  cases ns with
  | nil => exact Iff.rfl
  | cons n ns =>
    rw [spelled_cons]
    rcases n with ⟨_, _, _ | _⟩ | _ | _ | _ | _ | ⟨_, _ | _⟩ <;> simp [Node.spelled]

theorem compile_congr {ms : List Node} (h : spelled ms = spelled ns) :
    (compile ms).isValid = (compile ns).isValid ∧ (compile ms).tree? = (compile ns).tree? := by
  refine ⟨?_, Option.ext fun e => ?_⟩
  · rw [Bool.eq_iff_iff, isValid_compile, isValid_compile, h, ← spelled_eq_nil, h, spelled_eq_nil]
  · rw [tree?_eq_some, tree?_eq_some, h]

/-- The nodes compile if they are none or a sentence; the tree is the one that keeps the levels and
reads as the nodes, and it is the same for a `!` that touches its word and for one that does not. -/
theorem compile_grammar (ns : List Node) :
    ((compile ns).isValid ↔ ns = [] ∨ Sentence (spelled ns)) ∧
      ((compile ns).isValid → ns ≠ [] → ∃ e, (compile ns).tree = .ok (some e) ∧
        e.reading = spelled ns ∧ e.KeepsLevels ∧
        ∀ t : Expr, t.reading = spelled ns → t.KeepsLevels → t = e) ∧
      (∀ ms, spelled ms = spelled ns →
        (compile ms).isValid = (compile ns).isValid ∧ (compile ms).tree? = (compile ns).tree?) ∧
      ∀ ts, build ts = ns →
        (compile (build (ts.flatMap Token.detached))).isValid = (compile ns).isValid ∧
          (compile (build (ts.flatMap Token.detached))).tree? = (compile ns).tree? := by
  refine ⟨isValid_compile, fun hvalid hns => ?_, fun ms h => compile_congr h, fun ts hts => ?_⟩
  · obtain ⟨e, he⟩ := tree_of_isValid hvalid hns
    obtain ⟨hlevels, hreading⟩ := tree_eq_iff.1 he
    refine ⟨e, he, hreading, hlevels, fun t htreading htlevels => ?_⟩
    have ht := tree_eq_iff.2 ⟨htlevels, htreading⟩
    rw [he] at ht
    cases ht
    rfl
  · refine compile_congr ?_
    rw [spelled_build_detached, hts]

def conjunctionBeforeNegation : List Node :=
  [.field "a" true, .logical .and, .field "b" false, .comparison .lt, .field "c" false, .logical .or,
    .logical .not, .call "f" [.field "x"] false]

theorem compile_grammar_precedence :
    (compile conjunctionBeforeNegation).isValid ∧
      (compile conjunctionBeforeNegation).tree? =
        some (.or (.and (.not (.field "a")) (.compare .lt (.field "b") (.field "c")))
          (.not (.call "f" [.field "x"]))) := by
  have hvalid : (compile conjunctionBeforeNegation).isValid := by rfl
  obtain ⟨e, he, hreading, hlevels, hunique⟩ :=
    (compile_grammar conjunctionBeforeNegation).2.1 hvalid (List.cons_ne_nil _ _)
  refine ⟨hvalid, ?_⟩
  rw [Compiled.tree?, he, ← hunique (.or (.and (.not (.field "a"))
    (.compare .lt (.field "b") (.field "c"))) (.not (.call "f" [.field "x"]))) rfl
    (Expr.Leveled.keepsLevels (by simp [Expr.Leveled, Expr.level]))]
  rfl

end LiveMarkup.Expression
