import LiveMarkup.Expression.Node
import LiveMarkup.Proofs.Expression.Tiling

/-!
The pieces of a source without their places: which tokens are among them, whether something was skipped,
and what a token or blanks in front of a text add to its pieces.
-/

namespace LiveMarkup.Expression

open LiveMarkup.Text

variable {c : Char} {cs rest : List Char} {t : Token} {ts : List Token} {ps : List Piece}

def Piece.token? : Piece → Option Token
  | .token t => some t
  | _ => none

def Piece.isSkipped : Piece → Bool
  | .skipped _ => true
  | _ => false

def tokensIn (cs : List Char) : List Token := (pieces cs).filterMap Piece.token?

def skips (cs : List Char) : Bool := (pieces cs).any Piece.isSkipped

theorem map_item_tokensOf (start : Nat) (ps : List Piece) :
    (tokensOf (locate start ps)).map Located.item = ps.filterMap Piece.token? := by
  induction ps generalizing start with
  | nil => rfl
  | cons p ps ih =>
    have ih := ih (start + byteLength p.text)
    cases p with
    | token t => exact congrArg (t :: ·) ih
    | space c => exact ih
    | skipped c => exact ih

theorem joinSkipped_ne_nil (span : Span) (c : Char) (fs : List (Located (List Char))) :
    joinSkipped span c fs ≠ [] := by
  unfold joinSkipped
  split
  · split <;> exact List.cons_ne_nil _ _
  · exact List.cons_ne_nil _ _

theorem skippedOf_eq_nil (start : Nat) (ps : List Piece) :
    skippedOf (locate start ps) = [] ↔ ps.any Piece.isSkipped = false := by
  induction ps generalizing start with
  | nil => simp [locate, skippedOf]
  | cons p ps ih =>
    have ih := ih (start + byteLength p.text)
    cases p with
    | token t => simpa [locate, skippedOf, Piece.isSkipped] using ih
    | space c => simpa [locate, skippedOf, Piece.isSkipped] using ih
    | skipped c => simp [locate, skippedOf, Piece.isSkipped, joinSkipped_ne_nil]

theorem map_item_tokenize (source : String) :
    (tokenize source).map Located.item = tokensIn source.toList :=
  map_item_tokensOf 0 _

theorem parse_eq (source : String) : parse source = build (tokensIn source.toList) :=
  congrArg build (map_item_tokenize source)

theorem skipped_eq_nil {source : String} : skipped source = [] ↔ skips source.toList = false :=
  skippedOf_eq_nil 0 _

theorem tokensIn_nil : tokensIn [] = [] := by
  rw [tokensIn, pieces]
  rfl

theorem pieces_space (h : isSpace c) (cs : List Char) : pieces (c :: cs) = .space c :: pieces cs := by
  rw [pieces, if_pos h]

theorem pieces_skipped (h : isSpace c = false) (hnone : token? (c :: cs) = none) :
    pieces (c :: cs) = .skipped c :: pieces cs := by
  rw [pieces, if_neg (by simp [h])]
  split
  · next hsome => cases hnone.symm.trans hsome
  · rfl

theorem pieces_token (h : t.Stands rest) : pieces (t.text ++ rest) = .token t :: pieces rest := by
  have hscan := token?_of_stands h
  cases htext : t.text with
  | nil => exact absurd htext (token?_text_ne_nil hscan)
  | cons c cs =>
    rw [htext, List.cons_append] at hscan
    have hspace : ¬isSpace c := fun hc => by
      rw [token?_of_isSpace hc] at hscan
      cases hscan
    rw [List.cons_append, pieces, if_neg hspace]
    split
    · next hsome =>
      cases hscan.symm.trans hsome
      rfl
    · next hnone => cases hscan.symm.trans hnone

theorem stands_of_mem_pieces (h : .token t ∈ pieces cs) : ∃ rest, t.Stands rest := by
  fun_induction pieces cs with
  | case1 => cases h
  | case2 c cs hc ih =>
    rcases List.mem_cons.1 h with h | h
    · cases h
    · exact ih h
  | case3 c cs hc u rest hscan ih =>
    rcases List.mem_cons.1 h with h | h
    · cases h
      exact ⟨rest, token?_stands hscan⟩
    · exact ih h
  | case4 c cs hc hscan ih =>
    rcases List.mem_cons.1 h with h | h
    · cases h
    · exact ih h

theorem stands_of_mem_tokensIn (h : t ∈ tokensIn cs) : ∃ rest, t.Stands rest := by
  obtain ⟨p, hp, ht⟩ := List.mem_filterMap.1 h
  cases p with
  | token u =>
    cases ht
    exact stands_of_mem_pieces hp
  | space c => cases ht
  | skipped c => cases ht

end LiveMarkup.Expression
