import LiveMarkup.Expression.Compiled
import LiveMarkup.Proofs.Expression.Flat
import LiveMarkup.Proofs.Expression.Pieces
import LiveMarkup.Proofs.Text.Cutting

/-!
Call expressions beside expressions. What is read as a call with parentheses is, as an expression, that
one call, and invoking the one is evaluating the other.
-/

namespace LiveMarkup.Expression

open LiveMarkup.Text

variable {c : Char} {cs lead rest : List Char} {t : Token} {source text name arguments : String}

theorem not_isBlank_of_token? {p : Token × List Char} (h : token? (c :: cs) = some p) :
    isBlank c = false := by
  unfold token? at h
  split at h
  · next heq => cases heq
  · next heq =>
    cases heq
    rfl
  · next heq =>
    cases heq
    rfl
  · next heq =>
    cases heq
    rfl
  · next heq =>
    cases heq
    rfl
  · next heq =>
    cases heq
    split at h
    · next hword => exact not_isBlank_of_isWordChar hword
    · obtain ⟨q, hq, _⟩ := Option.map_eq_some_iff.1 h
      obtain ⟨op, _, htext, _⟩ := scanComparison?_longest hq
      cases op <;>
        · cases htext
          rfl

theorem tokensIn_blank (h : Blank lead) (cs : List Char) : tokensIn (lead ++ cs) = tokensIn cs := by
  induction lead with
  | nil => rfl
  | cons c lead ih =>
    obtain ⟨hc, hlead⟩ := List.forall_mem_cons.1 h
    rw [← ih hlead, List.cons_append]
    cases hspace : isSpace c with
    | true => rw [tokensIn, pieces_space hspace]; rfl
    | false =>
      have hnone : token? (c :: (lead ++ cs)) = none := by
        cases hscan : token? (c :: (lead ++ cs)) with
        | none => rfl
        | some p => rw [not_isBlank_of_token? hscan] at hc; cases hc
      rw [tokensIn, pieces_skipped hspace hnone]
      rfl

theorem tokensIn_token (h : t.Stands rest) : tokensIn (t.text ++ rest) = t :: tokensIn rest := by
  rw [tokensIn, pieces_token h]
  rfl

theorem blank_of_pieces (htokens : tokensIn cs = []) (hskips : skips cs = false) : Blank cs := by
  rw [tokensIn] at htokens
  rw [skips] at hskips
  fun_induction pieces cs with
  | case1 => exact List.forall_mem_nil _
  | case2 c cs hc ih => exact List.forall_mem_cons.2 ⟨isBlank_of_isSpace hc, ih htokens hskips⟩
  | case3 => cases htokens
  | case4 => cases hskips

structure IsCall (text name arguments : String) : Prop where
  tokens : (tokenize text).map Located.item = [⟨.call name arguments, false⟩]
  skipped : skipped text = []

theorem call_stands {negated : Bool} {after : List Char}
    (h : Token.Stands rest ⟨.call name arguments, negated⟩) :
    Token.Stands after ⟨.call name arguments, negated⟩ := by
  cases negated <;> exact h

theorem isCall_iff (htrimmed : Trimmed text.toList) :
    IsCall text name arguments ↔ token? text.toList = some (⟨.call name arguments, false⟩, []) := by
  constructor
  · rintro ⟨htokens, hskipped⟩
    rw [map_item_tokenize] at htokens
    rw [skipped_eq_nil] at hskipped
    cases hcs : text.toList with
    | nil =>
      rw [hcs, tokensIn, pieces] at htokens
      cases htokens
    | cons c cs =>
      rw [hcs] at htokens hskipped htrimmed
      have hspace : isSpace c = false := by
        rw [← Bool.not_eq_true]
        intro hspace
        exact absurd (isBlank_of_isSpace hspace) (by simp [htrimmed.head c rfl])
      cases hscan : token? (c :: cs) with
      | none =>
        rw [skips, pieces_skipped hspace hscan] at hskipped
        cases hskipped
      | some p =>
        obtain ⟨u, behind⟩ := p
        obtain ⟨htext, hstands⟩ := token?_eq_some.1 hscan
        rw [htext] at htokens hskipped htrimmed
        rw [tokensIn_token hstands] at htokens
        rw [skips, pieces_token hstands] at hskipped
        obtain ⟨rfl, hnone⟩ := List.cons.inj htokens
        have hblank : Blank behind := blank_of_pieces hnone hskipped
        -- the text ends in no blank, so nothing is left behind the call
        cases hlast : behind.getLast? with
        | none => rw [List.getLast?_eq_none_iff.1 hlast]
        | some d =>
          have hd := htrimmed.last d (by rw [List.getLast?_append, hlast]; rfl)
          rw [hblank d (List.mem_of_getLast? hlast)] at hd
          cases hd
  · intro h
    obtain ⟨htext, hstands⟩ := token?_eq_some.1 h
    rw [List.append_nil] at htext
    have hpieces : pieces text.toList = [.token ⟨.call name arguments, false⟩] := by
      rw [htext, ← List.append_nil (Token.text _), pieces_token hstands, pieces]
    refine ⟨?_, ?_⟩
    · rw [map_item_tokenize, tokensIn, hpieces]
      rfl
    · rw [skipped_eq_nil, skips, hpieces]
      rfl

theorem toList_trimmed (source : String) : source.trimmed.toList = trim source.toList :=
  String.toList_ofList

theorem trimmed_trimmed (source : String) : Trimmed source.trimmed.toList := by
  rw [toList_trimmed]
  exact trimmed_trim _

theorem IsCall.not_isWord (htrimmed : Trimmed text.toList) (h : IsCall text name arguments) :
    isWord text.toList = false := by
  rw [← Bool.not_eq_true]
  intro hword
  have htext := (token?_eq_some.1 ((isCall_iff htrimmed).1 h)).1
  have hmem : '(' ∈ text.toList := by
    rw [htext]
    simp [Token.text, Lexeme.raw]
  exact absurd (isWordChar_of_mem hword hmem) (by decide)

theorem parse_of_isCall (h : IsCall source.trimmed name text) :
    parse source = [.call name (Expression.arguments text) false] := by
  obtain ⟨lead, trail, hlead, htrail, hsource⟩ := exists_trim source.toList
  have hscan := (isCall_iff (trimmed_trimmed source)).1 h
  rw [toList_trimmed] at hscan
  obtain ⟨htext, hstands⟩ := token?_eq_some.1 hscan
  have htokens : tokensIn source.toList = [⟨.call name text, false⟩] := by
    rw [hsource, htext, List.append_nil, List.append_assoc, tokensIn_blank hlead,
      tokensIn_token (call_stands hstands), ← List.append_nil trail, tokensIn_blank htrail,
      tokensIn_nil]
  rw [parse_eq, htokens]
  rfl

namespace Call

variable {call : Call}

theorem read?_of_isWord (h : isWord source.trimmed.toList = true) :
    read? source = some ⟨source.trimmed, []⟩ := by
  rw [toList_trimmed] at h
  rw [read?]
  exact if_pos h

theorem read?_of_isCall (h : IsCall source.trimmed name text) :
    read? source = some ⟨name, Expression.arguments text⟩ := by
  have hword := h.not_isWord (trimmed_trimmed source)
  have hscan := (isCall_iff (trimmed_trimmed source)).1 h
  rw [toList_trimmed] at hword hscan
  simp only [read?, hword, hscan, Bool.false_eq_true, if_false]

theorem isCall_of_read? (h : read? source = some call) (hword : isWord source.trimmed.toList = false) :
    ∃ name text, IsCall source.trimmed name text ∧ call = ⟨name, Expression.arguments text⟩ := by
  rw [toList_trimmed] at hword
  simp only [read?, hword, Bool.false_eq_true, if_false] at h
  split at h
  · next name text hscan =>
    cases h
    refine ⟨name, text, (isCall_iff (trimmed_trimmed source)).2 ?_, rfl⟩
    rwa [toList_trimmed]
  · cases h

theorem read?_eq_some_iff : read? source = some call ↔
    isWord source.trimmed.toList = true ∧ call = ⟨source.trimmed, []⟩ ∨
      ∃ name text, IsCall source.trimmed name text ∧ call = ⟨name, Expression.arguments text⟩ := by
  constructor
  · intro h
    cases hword : isWord source.trimmed.toList with
    | true =>
      rw [read?_of_isWord hword] at h
      cases h
      exact .inl ⟨rfl, rfl⟩
    | false => exact .inr (isCall_of_read? h hword)
  · rintro (⟨hword, rfl⟩ | ⟨name, text, hcall, rfl⟩)
    · exact read?_of_isWord hword
    · exact read?_of_isCall hcall

/-- Exactly the words and the single calls are read, a word as a call without arguments. A single call
is the one node of the expression of the same text, and invoking it is evaluating that expression; over
a noting scope the reads and calls are among the effects. -/
theorem read?_agrees (source : String) :
    (∀ call, read? source = some call ↔
      isWord source.trimmed.toList = true ∧ call = ⟨source.trimmed, []⟩ ∨
        ∃ name text, IsCall source.trimmed name text ∧ call = ⟨name, Expression.arguments text⟩) ∧
    ∀ name text, IsCall source.trimmed name text →
      ∃ call, read? source = some call ∧ parse source = [.call call.name call.arguments false] ∧
        ∀ {m : Type → Type} [Monad m] (s : Scope m),
          call.invoke s = (compileSource source).evaluate s ∧
            call.invoke s.noting = (compileSource source).evaluate s.noting := by
  refine ⟨fun call => read?_eq_some_iff, fun name text hcall => ?_⟩
  have hparse := parse_of_isCall hcall
  refine ⟨_, read?_of_isCall hcall, hparse, fun {m} _ s => ?_⟩
  rw [compileSource, hparse]
  exact ⟨rfl, rfl⟩

def paddedGreeting : String := "\u00a0 greet('a b', who)\t"

theorem read?_agrees_padded :
    IsCall paddedGreeting.trimmed "greet" "'a b', who" ∧
      ∃ call, read? paddedGreeting = some call ∧
        parse paddedGreeting = [.call call.name call.arguments false] ∧
        ∀ {m : Type → Type} [Monad m] (s : Scope m),
          call.invoke s = (compileSource paddedGreeting).evaluate s ∧
            call.invoke s.noting = (compileSource paddedGreeting).evaluate s.noting := by
  have htext : paddedGreeting.trimmed = "greet('a b', who)" := by decide
  have hcall : IsCall paddedGreeting.trimmed "greet" "'a b', who" := by
    rw [htext]
    exact ⟨by decide +kernel, by decide +kernel⟩
  exact ⟨hcall, (read?_agrees paddedGreeting).2 "greet" "'a b', who" hcall⟩

end Call

end LiveMarkup.Expression
