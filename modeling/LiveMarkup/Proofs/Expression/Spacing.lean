import LiveMarkup.Proofs.Expression.Pieces
import LiveMarkup.Expression.Compiled

/-!
Tokens written out again with one space between any two. Whatever stood around them before, the
tokenizer finds the same tokens and skips nothing.
-/

namespace LiveMarkup.Expression

open LiveMarkup.Text

variable {rest after : List Char} {t : Token} {ts : List Token}

def EndsAtSpace (after : List Char) : Prop := ∀ c ∈ after.head?, c = ' '

theorem EndsAtSpace.endsWord (h : EndsAtSpace after) : EndsWord after where
  whole := by
    cases after with
    | nil => rfl
    | cons c after =>
      cases h c rfl
      rfl
  uncalled arguments behind heq := by
    rw [heq] at h
    cases h '(' rfl

theorem Lexeme.StandsAsWord.parted {l : Lexeme} (h : l.StandsAsWord rest) (hafter : EndsAtSpace after) :
    l.StandsAsWord after := by
  cases l with
  | call name arguments => exact h
  | number digits => exact ⟨h.1, hafter.endsWord⟩
  | word name => exact ⟨h.1, h.2.1, hafter.endsWord⟩
  | _ => exact h.elim

theorem Lexeme.Stands.parted {l : Lexeme} (h : l.Stands rest) (hafter : EndsAtSpace after) :
    l.Stands after := by
  cases l with
  | logical op =>
    cases op with
    | and => trivial
    | or => trivial
    | not => exact ⟨hafter.endsWord.whole, fun heq => nomatch hafter '=' heq⟩
  | comparison op => exact comparison_stands_of_head op fun heq => nomatch hafter '=' heq
  | quoted content => exact h
  | call name arguments => exact h
  | number digits => exact (show (Lexeme.number digits).StandsAsWord rest from h).parted hafter
  | word name => exact (show (Lexeme.word name).StandsAsWord rest from h).parted hafter

theorem Token.Stands.parted (h : t.Stands rest) (hafter : EndsAtSpace after) : t.Stands after := by
  obtain ⟨l, negated⟩ := t
  cases negated with
  | true => exact Lexeme.StandsAsWord.parted h hafter
  | false => exact Lexeme.Stands.parted h hafter

def spaced (ts : List Token) : List Char := [' '].intercalate (ts.map Token.text)

theorem spaced_cons_cons (t u : Token) (ts : List Token) :
    spaced (t :: u :: ts) = t.text ++ ' ' :: spaced (u :: ts) := by
  simp only [spaced, List.map_cons, List.intercalate_cons_cons, List.append_assoc,
    List.singleton_append]

theorem pieces_spaced (h : ∀ t ∈ ts, ∃ rest, t.Stands rest) :
    pieces (spaced ts) = (ts.map Piece.token).intersperse (.space ' ') := by
  induction ts with
  | nil => rw [spaced, List.map_nil, List.intercalate_nil, pieces]; rfl
  | cons t ts ih =>
    obtain ⟨rest, ht⟩ := h t (List.mem_cons_self ..)
    cases ts with
    | nil =>
      have hend : t.Stands [] := ht.parted fun c hc => by cases hc
      have htext : spaced [t] = t.text ++ [] := by simp [spaced]
      rw [htext, pieces_token hend, pieces]
      rfl
    | cons u ts =>
      have hspace : t.Stands (' ' :: spaced (u :: ts)) := ht.parted fun c hc => by
        cases hc
        rfl
      rw [spaced_cons_cons, pieces_token hspace, pieces_space rfl,
        ih fun v hv => h v (List.mem_cons_of_mem _ hv)]
      rfl

theorem tokens_of_intersperse (ts : List Token) :
    ((ts.map Piece.token).intersperse (.space ' ')).filterMap Piece.token? = ts := by
  induction ts with
  | nil => rfl
  | cons t ts ih =>
    cases ts with
    | nil => rfl
    | cons u ts => exact congrArg (t :: ·) ih

theorem none_skipped_of_intersperse (ts : List Token) :
    ((ts.map Piece.token).intersperse (.space ' ')).any Piece.isSkipped = false := by
  induction ts with
  | nil => rfl
  | cons t ts ih =>
    cases ts with
    | nil => rfl
    | cons u ts => exact ih

def respaced (source : String) : String :=
  " ".intercalate ((tokenize source).map fun t => String.ofList t.item.text)

theorem toList_respaced (source : String) :
    (respaced source).toList = spaced (tokensIn source.toList) := by
  rw [respaced, String.toList_intercalate, spaced, ← map_item_tokenize]
  simp [Function.comp_def]

/-- A token is its kind, with name and arguments, its text and its negation. -/
theorem tokenize_respaced (source : String) :
    (tokenize (respaced source)).map Located.item = (tokenize source).map Located.item ∧
      skipped (respaced source) = [] ∧ parse (respaced source) = parse source ∧
      compileSource (respaced source) = compileSource source := by
  have hstands : ∀ t ∈ tokensIn source.toList, ∃ rest, t.Stands rest := fun _ => stands_of_mem_tokensIn
  have hpieces := pieces_spaced hstands
  have htokens : tokensIn (respaced source).toList = tokensIn source.toList := by
    rw [toList_respaced, tokensIn, hpieces, tokens_of_intersperse]
  have hparse : parse (respaced source) = parse source := by rw [parse_eq, parse_eq, htokens]
  refine ⟨?_, ?_, hparse, congrArg compile hparse⟩
  · rw [map_item_tokenize, map_item_tokenize, htokens]
  · rw [skipped_eq_nil, skips, toList_respaced, hpieces, none_skipped_of_intersperse]

example : respaced "f (a)!b" = "f a !b" := by cbv

end LiveMarkup.Expression
