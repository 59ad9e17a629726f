import LiveMarkup.Expression.Scan
import LiveMarkup.Proofs.Text.Cutting

/-!
Which token a text begins with, told by what the token is and what follows it; the scanner finds that
token and no other.
-/

namespace LiveMarkup.Expression

open LiveMarkup.Text

structure EndsWord (rest : List Char) : Prop where
  whole : startsWord rest = false
  uncalled : ∀ arguments after, rest ≠ '(' :: arguments ++ ')' :: after

def Lexeme.StandsAsWord (rest : List Char) : Lexeme → Prop
  | .call name arguments => isWord name.toList ∧ ')' ∉ arguments.toList
  | .number digits => isInteger digits.toList ∧ EndsWord rest
  | .word name => isWord name.toList ∧ ¬ isInteger name.toList ∧ EndsWord rest
  | _ => False

/-- The lexeme in front of `rest` is not part of another one. -/
def Lexeme.Stands (rest : List Char) : Lexeme → Prop
  | .logical .and => True
  | .logical .or => True
  | .logical .not => startsWord rest = false ∧ rest.head? ≠ some '='
  | .comparison op => ∀ other : ComparisonOp,
      other.text.toList <+: op.text.toList ++ rest → other.text.length ≤ op.text.length
  | .quoted content => '\x27' ∉ content.toList
  | l => l.StandsAsWord rest

def Token.Stands (rest : List Char) (t : Token) : Prop :=
  if t.negated then t.lexeme.StandsAsWord rest else t.lexeme.Stands rest

theorem argumentText?_iff {cs arguments rest : List Char} :
    argumentText? cs = some (arguments, rest) ↔
      cs = '(' :: arguments ++ ')' :: rest ∧ ')' ∉ arguments := by
  refine ⟨fun h => ⟨argumentText?_eq_some h, ?_⟩, fun ⟨hcs, harguments⟩ => ?_⟩
  · unfold argumentText? at h
    split at h
    · exact (splitFirst_eq_some h).2
    · cases h
  · rw [hcs, List.cons_append, argumentText?]
    exact splitFirst_append rest harguments

theorem uncalled_of_argumentText? {cs : List Char} (h : argumentText? cs = none)
    (arguments after : List Char) : cs ≠ '(' :: arguments ++ ')' :: after := by
  rintro rfl
  rw [List.cons_append, argumentText?, splitFirst_eq_none] at h
  exact h (List.mem_append_right _ (List.mem_cons_self ..))

theorem argumentText?_of_uncalled {cs : List Char}
    (h : ∀ arguments after, cs ≠ '(' :: arguments ++ ')' :: after) : argumentText? cs = none := by
  cases ha : argumentText? cs with
  | none => rfl
  | some p => exact absurd (argumentText?_eq_some ha) (h _ _)

theorem startsWord_dropWhile (cs : List Char) : startsWord (cs.dropWhile isWordChar) = false := by
  induction cs with
  | nil => rfl
  | cons c cs ih =>
    rw [List.dropWhile_cons]
    split
    · exact ih
    · next hc => simpa [startsWord] using hc

theorem word_takeWhile_dropWhile {name rest : List Char} (hname : isWord name)
    (hrest : startsWord rest = false) :
    (name ++ rest).takeWhile isWordChar = name ∧ (name ++ rest).dropWhile isWordChar = rest := by
  refine run_append (fun _ => isWordChar_of_mem hname) fun c hc => ?_
  obtain ⟨tail, rfl⟩ := List.head?_eq_some_iff.1 hc
  exact hrest

theorem scanWord_stands {cs : List Char} (h : startsWord cs) :
    (scanWord cs).1.StandsAsWord (scanWord cs).2 := by
  have hword : isWord (cs.takeWhile isWordChar) := by
    cases cs with
    | nil => cases h
    | cons c cs =>
      have hc : isWordChar c = true := h
      simp [isWord, hc]
  unfold scanWord
  dsimp only
  split
  · next ha => exact ⟨by rwa [String.toList_ofList], by
      rw [String.toList_ofList]
      exact (argumentText?_iff.1 ha).2⟩
  · next ha =>
    have hends : EndsWord (cs.dropWhile isWordChar) :=
      ⟨startsWord_dropWhile cs, uncalled_of_argumentText? ha⟩
    split
    · next hdigits => exact ⟨by rwa [String.toList_ofList], hends⟩
    · next hdigits =>
      refine ⟨?_, ?_, hends⟩
      · rwa [String.toList_ofList]
      · rwa [String.toList_ofList]

theorem scanWord_of_stands {l : Lexeme} {rest : List Char} (h : l.StandsAsWord rest) :
    scanWord (l.raw ++ rest) = (l, rest) := by
  cases l with
  | call name arguments =>
    obtain ⟨hname, harguments⟩ := h
    have hopen : startsWord ('(' :: (arguments.toList ++ ')' :: rest)) = false := rfl
    obtain ⟨htake, hdrop⟩ := word_takeWhile_dropWhile hname hopen
    have hraw : (Lexeme.call name arguments).raw ++ rest =
        name.toList ++ '(' :: (arguments.toList ++ ')' :: rest) := by
      simp [Lexeme.raw]
    have hcall : argumentText? ('(' :: (arguments.toList ++ ')' :: rest)) =
        some (arguments.toList, rest) := argumentText?_iff.2 ⟨rfl, harguments⟩
    rw [hraw, scanWord, htake, hdrop, hcall]
    simp only [String.ofList_toList]
  | number digits =>
    obtain ⟨hdigits, hends⟩ := h
    obtain ⟨htake, hdrop⟩ := word_takeWhile_dropWhile (isWord_of_isInteger hdigits) hends.whole
    simp [Lexeme.raw, scanWord, htake, hdrop, argumentText?_of_uncalled hends.uncalled, hdigits]
  | word name =>
    obtain ⟨hname, hdigits, hends⟩ := h
    obtain ⟨htake, hdrop⟩ := word_takeWhile_dropWhile hname hends.whole
    simp [Lexeme.raw, scanWord, htake, hdrop, argumentText?_of_uncalled hends.uncalled, hdigits]
  | _ => exact h.elim

theorem startsWord_of_stands {l : Lexeme} {rest : List Char} (h : l.StandsAsWord rest) :
    startsWord (l.raw ++ rest) := by
  have hstart {name : List Char} (hname : isWord name) (tail : List Char) :
      startsWord (name ++ tail) := by
    cases name with
    | nil => cases hname
    | cons c name =>
      simp only [isWord, List.all_cons, Bool.and_eq_true] at hname
      exact hname.2.1
  cases l with
  | call name arguments =>
    rw [Lexeme.raw, List.append_assoc, List.append_assoc]
    exact hstart h.1 _
  | number digits => exact hstart (isWord_of_isInteger h.1) rest
  | word name => exact hstart h.1 rest
  | _ => exact h.elim

theorem pairwise_longestFirst :
    ComparisonOp.longestFirst.Pairwise fun a b => b.text.length ≤ a.text.length := by
  decide

theorem mem_longestFirst (op : ComparisonOp) : op ∈ ComparisonOp.longestFirst := by
  cases op <;> decide

theorem ComparisonOp.text_injective {a b : ComparisonOp} (h : a.text.toList = b.text.toList) :
    a = b := by
  revert h
  cases a <;> cases b <;> decide

theorem scanComparison?_longest {cs rest : List Char} {l : Lexeme}
    (h : scanComparison? cs = some (l, rest)) :
    ∃ op : ComparisonOp, l = .comparison op ∧ cs = op.text.toList ++ rest ∧
      ∀ other : ComparisonOp, other.text.toList <+: cs → other.text.length ≤ op.text.length := by
  obtain ⟨before, op, after, hlist, hop, hbefore⟩ := List.findSome?_eq_some_iff.1 h
  obtain ⟨r, hr, hl⟩ := Option.map_eq_some_iff.1 hop
  cases hl
  refine ⟨op, rfl, behind?_eq_some.1 hr, fun other hother => ?_⟩
  have hsorted := pairwise_longestFirst
  rw [hlist] at hsorted
  have hmem := mem_longestFirst other
  rw [hlist] at hmem
  rcases List.mem_append.1 hmem with hmem | hmem
  · obtain ⟨tail, htail⟩ := hother
    have hnone := hbefore other hmem
    rw [Option.map_eq_none_iff] at hnone
    rw [behind?_eq_some.2 htail.symm] at hnone
    cases hnone
  · rcases List.mem_cons.1 hmem with rfl | hmem
    · exact Nat.le_refl _
    · exact (List.pairwise_cons.1 (List.pairwise_append.1 hsorted).2.1).1 other hmem

theorem eq_of_mem_tail_text (op : ComparisonOp) : ∀ c ∈ op.text.toList.tail, c = '=' := by
  cases op <;> simp [ComparisonOp.text]

theorem comparison_stands_of_head (op : ComparisonOp) {rest : List Char} (h : rest.head? ≠ some '=') :
    (Lexeme.comparison op).Stands rest := by
  intro other hother
  rw [← String.length_toList, ← String.length_toList]
  rcases List.prefix_or_prefix_of_prefix hother (List.prefix_append op.text.toList rest) with hle | hle
  · exact hle.length_le
  · obtain ⟨more, hmore⟩ := hle
    cases more with
    | nil => exact Nat.le_of_eq (by rw [← hmore, List.append_nil])
    | cons c more =>
      have hmem : c ∈ other.text.toList.tail := by
        rw [← hmore, List.tail_append_of_ne_nil (by cases op <;> decide)]
        exact List.mem_append_right _ (List.mem_cons_self ..)
      rw [← hmore, List.prefix_append_right_inj] at hother
      obtain ⟨behind, rfl⟩ := hother
      exact absurd (congrArg some (eq_of_mem_tail_text other c hmem)) h

theorem scanComparison?_of_stands {op : ComparisonOp} {rest : List Char}
    (h : (Lexeme.comparison op).Stands rest) :
    scanComparison? (op.text.toList ++ rest) = some (.comparison op, rest) := by
  cases hscan : scanComparison? (op.text.toList ++ rest) with
  | none =>
    have hnone := List.findSome?_eq_none_iff.1 hscan op (mem_longestFirst op)
    rw [Option.map_eq_none_iff, behind?_eq_some.2 rfl] at hnone
    cases hnone
  | some p =>
    obtain ⟨found, hl, hcs, hlongest⟩ := scanComparison?_longest hscan
    have hle : op.text.length ≤ found.text.length := hlongest op (List.prefix_append _ _)
    have hge : found.text.length ≤ op.text.length := h found (hcs ▸ List.prefix_append _ _)
    obtain ⟨htext, hrest⟩ := List.append_inj hcs (by
      rw [String.length_toList, String.length_toList]
      exact Nat.le_antisymm hle hge)
    cases ComparisonOp.text_injective htext
    rw [hrest, ← hl]

theorem Lexeme.StandsAsWord.stands {l : Lexeme} {rest : List Char} (h : l.StandsAsWord rest) :
    l.Stands rest := by
  cases l with
  | call name arguments => exact h
  | number digits => exact h
  | word name => exact h
  | _ => exact h.elim

theorem comparison_stands {cs rest : List Char} {p : Lexeme × List Char} {t : Token}
    (h : scanComparison? cs = some p) (ht : plainToken p = (t, rest)) : t.Stands rest := by
  obtain ⟨op, hl, hcs, hlongest⟩ := scanComparison?_longest h
  cases ht
  rw [Token.Stands, if_neg Bool.false_ne_true, hl, Lexeme.Stands, ← hcs]
  exact hlongest

theorem token?_stands {cs rest : List Char} {t : Token} (h : token? cs = some (t, rest)) :
    t.Stands rest := by
  unfold token? at h
  split at h
  · cases h
  · split at h
    · next hword =>
      cases h
      exact scanWord_stands hword
    · next hword =>
      split at h
      · obtain ⟨p, hp, ht⟩ := Option.map_eq_some_iff.1 h
        exact comparison_stands hp ht
      · next heq =>
        cases h
        exact ⟨by simpa using hword, heq⟩
  · cases h
    trivial
  · cases h
    trivial
  · obtain ⟨p, hp, ht⟩ := Option.map_eq_some_iff.1 h
    cases ht
    simpa [Token.Stands, Lexeme.Stands] using (splitFirst_eq_some hp).2
  · next c cs _ _ _ _ =>
    split at h
    · next hc =>
      cases h
      have hword : startsWord (c :: cs) := hc
      exact (scanWord_stands hword).stands
    · obtain ⟨p, hp, ht⟩ := Option.map_eq_some_iff.1 h
      exact comparison_stands hp ht

theorem token?_startsWord {cs : List Char} (h : startsWord cs) :
    token? cs = some (plainToken (scanWord cs)) := by
  cases cs with
  | nil => cases h
  | cons c cs =>
    have hc : isWordChar c = true := h
    unfold token?
    split
    · next heq => cases heq
    · next heq =>
      cases heq
      cases hc
    · next heq =>
      cases heq
      cases hc
    · next heq =>
      cases heq
      cases hc
    · next heq =>
      cases heq
      cases hc
    · next heq =>
      cases heq
      rw [if_pos hc]

theorem token?_comparison (op : ComparisonOp) (rest : List Char) :
    token? (op.text.toList ++ rest) = (scanComparison? (op.text.toList ++ rest)).map plainToken := by
  cases op <;> rfl

theorem token?_of_stands {t : Token} {rest : List Char} (h : t.Stands rest) :
    token? (t.text ++ rest) = some (t, rest) := by
  obtain ⟨l, negated⟩ := t
  cases negated with
  | true =>
    have hl : l.StandsAsWord rest := h
    have hword := startsWord_of_stands hl
    have htext : (⟨l, true⟩ : Token).text ++ rest = '!' :: (l.raw ++ rest) := rfl
    rw [htext, token?, if_pos hword, scanWord_of_stands hl]
  | false =>
    have htext : (⟨l, false⟩ : Token).text = l.raw := rfl
    have word (hl : l.StandsAsWord rest) :
        token? ((⟨l, false⟩ : Token).text ++ rest) = some (⟨l, false⟩, rest) := by
      rw [htext, token?_startsWord (startsWord_of_stands hl), scanWord_of_stands hl]
      rfl
    cases l with
    | call name arguments => exact word h
    | number digits => exact word h
    | word name => exact word h
    | logical op =>
      cases op with
      | and => rfl
      | or => rfl
      | not =>
        obtain ⟨hword, heq⟩ := h
        have hraw : (Lexeme.logical .not).raw ++ rest = '!' :: rest := rfl
        rw [htext, hraw, token?, hword, if_neg Bool.false_ne_true, if_neg heq]
        rfl
    | comparison op =>
      have hscan := scanComparison?_of_stands h
      rw [htext, Lexeme.raw, token?_comparison, hscan]
      rfl
    | quoted content =>
      have hcontent : '\x27' ∉ content.toList := h
      have hraw : (Lexeme.quoted content).raw ++ rest =
          '\x27' :: (content.toList ++ '\x27' :: rest) := by
        simp [Lexeme.raw]
      rw [htext, hraw, token?, splitFirst_append rest hcontent]
      simp [plainToken]

theorem token?_eq_some {cs rest : List Char} {t : Token} :
    token? cs = some (t, rest) ↔ cs = t.text ++ rest ∧ t.Stands rest := by
  refine ⟨fun h => ⟨(token?_text h).symm, token?_stands h⟩, fun ⟨hcs, h⟩ => ?_⟩
  rw [hcs]
  exact token?_of_stands h

end LiveMarkup.Expression
