import LiveMarkup.Expression.Token

/-!
Cutting the source of an expression into pieces: spaces, tokens, and characters that no token begins
with.
-/

namespace LiveMarkup.Expression

open LiveMarkup.Text

inductive Piece where
  | space (c : Char)
  | token (t : Token)
  | skipped (c : Char)
  deriving DecidableEq, Repr

def Piece.text : Piece → List Char
  | .space c => [c]
  | .token t => t.text
  | .skipped c => [c]

def argumentText? : List Char → Option (List Char × List Char)
  | '(' :: rest => splitFirst ')' rest
  | _ => none

def scanWord (cs : List Char) : Lexeme × List Char :=
  let name := cs.takeWhile isWordChar
  let rest := cs.dropWhile isWordChar
  match argumentText? rest with
  | some (arguments, rest) => (.call (String.ofList name) (String.ofList arguments), rest)
  | none => (if isInteger name then .number (String.ofList name) else .word (String.ofList name), rest)

def scanComparison? (cs : List Char) : Option (Lexeme × List Char) :=
  ComparisonOp.longestFirst.findSome? fun op =>
    (behind? op.text.toList cs).map fun rest => (.comparison op, rest)

def plainToken (p : Lexeme × List Char) : Token × List Char := (⟨p.1, false⟩, p.2)

def startsWord : List Char → Bool
  | c :: _ => isWordChar c
  | [] => false

def token? : List Char → Option (Token × List Char)
  | [] => none
  | '!' :: cs =>
    if startsWord cs then
      let (l, rest) := scanWord cs
      some (⟨l, true⟩, rest)
    else if cs.head? = some '=' then (scanComparison? ('!' :: cs)).map plainToken
    else some (plainToken (.logical .not, cs))
  | '&' :: '&' :: cs => some (plainToken (.logical .and, cs))
  | '|' :: '|' :: cs => some (plainToken (.logical .or, cs))
  | '\x27' :: cs =>
    (splitFirst '\x27' cs).map fun p => plainToken (.quoted (String.ofList p.1), p.2)
  | c :: cs =>
    if isWordChar c then some (plainToken (scanWord (c :: cs)))
    else (scanComparison? (c :: cs)).map plainToken

theorem argumentText?_eq_some {cs arguments rest : List Char}
    (h : argumentText? cs = some (arguments, rest)) : cs = '(' :: arguments ++ ')' :: rest := by
  unfold argumentText? at h
  split at h
  · simp [(splitFirst_eq_some h).1]
  · simp at h

theorem scanWord_text (cs : List Char) : (scanWord cs).1.raw ++ (scanWord cs).2 = cs := by
  have hsplit := List.takeWhile_append_dropWhile (p := isWordChar) (l := cs)
  unfold scanWord
  dsimp only
  split
  · next arguments rest h =>
    have hrest := argumentText?_eq_some h
    simp only [Lexeme.raw, String.toList_ofList]
    rw [hrest] at hsplit
    simpa using hsplit
  · split <;> simp [Lexeme.raw, hsplit]

theorem scanComparison?_text {cs rest : List Char} {l : Lexeme}
    (h : scanComparison? cs = some (l, rest)) : l.raw ++ rest = cs := by
  obtain ⟨op, _, hop⟩ := List.exists_of_findSome?_eq_some h
  obtain ⟨r, hr, hl⟩ := Option.map_eq_some_iff.1 hop
  simp only [Prod.mk.injEq] at hl
  obtain ⟨rfl, rfl⟩ := hl
  exact (behind?_eq_some.1 hr).symm

theorem plainToken_text (p : Lexeme × List Char) :
    (plainToken p).1.text ++ (plainToken p).2 = p.1.raw ++ p.2 := by
  simp [plainToken, Token.text]

theorem token?_text {cs rest : List Char} {t : Token} (h : token? cs = some (t, rest)) :
    t.text ++ rest = cs := by
  unfold token? at h
  split at h
  · simp at h
  · next cs =>
    split at h
    · simp only [Option.some.injEq, Prod.mk.injEq] at h
      obtain ⟨rfl, rfl⟩ := h
      simp [Token.text, scanWord_text]
    · split at h
      · obtain ⟨p, hp, hq⟩ := Option.map_eq_some_iff.1 h
        have := plainToken_text p
        rw [hq] at this
        rw [this, scanComparison?_text hp]
      · simp only [Option.some.injEq] at h
        have := plainToken_text (.logical .not, cs)
        rw [h] at this
        rw [this]; rfl
  · next cs =>
    simp only [Option.some.injEq] at h
    have := plainToken_text (.logical .and, cs)
    rw [h] at this
    rw [this]; rfl
  · next cs =>
    simp only [Option.some.injEq] at h
    have := plainToken_text (.logical .or, cs)
    rw [h] at this
    rw [this]; rfl
  · next cs =>
    obtain ⟨p, hp, hq⟩ := Option.map_eq_some_iff.1 h
    have := plainToken_text (.quoted (String.ofList p.1), p.2)
    rw [hq] at this
    rw [this, (splitFirst_eq_some hp).1]
    simp [Lexeme.raw]
  · next c cs _ _ _ _ =>
    split at h
    · simp only [Option.some.injEq] at h
      have := plainToken_text (scanWord (c :: cs))
      rw [h] at this
      rw [this, scanWord_text]
    · obtain ⟨p, hp, hq⟩ := Option.map_eq_some_iff.1 h
      have := plainToken_text p
      rw [hq] at this
      rw [this, scanComparison?_text hp]

theorem scanWord_raw_ne_nil {cs : List Char} (h : startsWord cs = true) :
    (scanWord cs).1.raw ≠ [] := by
  cases cs with
  | nil => simp [startsWord] at h
  | cons c cs =>
    have hc : isWordChar c = true := h
    unfold scanWord
    dsimp only
    split
    · simp [Lexeme.raw]
    · split <;> simp [Lexeme.raw, hc]

theorem scanComparison?_raw_ne_nil {cs rest : List Char} {l : Lexeme}
    (h : scanComparison? cs = some (l, rest)) : l.raw ≠ [] := by
  obtain ⟨op, _, hop⟩ := List.exists_of_findSome?_eq_some h
  obtain ⟨r, hr, hl⟩ := Option.map_eq_some_iff.1 hop
  simp only [Prod.mk.injEq] at hl
  obtain ⟨rfl, rfl⟩ := hl
  cases op <;> simp [Lexeme.raw, ComparisonOp.text]

theorem token?_text_ne_nil {cs rest : List Char} {t : Token} (h : token? cs = some (t, rest)) :
    t.text ≠ [] := by
  have plain {p : Lexeme × List Char} (hp : p.1.raw ≠ []) (hq : plainToken p = (t, rest)) :
      t.text ≠ [] := by
    simp only [plainToken, Prod.mk.injEq] at hq
    rw [← hq.1]
    simpa [Token.text] using hp
  unfold token? at h
  split at h
  · simp at h
  · split at h
    · simp only [Option.some.injEq, Prod.mk.injEq] at h
      rw [← h.1]
      simp [Token.text]
    · split at h
      · obtain ⟨p, hp, hq⟩ := Option.map_eq_some_iff.1 h
        exact plain (scanComparison?_raw_ne_nil hp) hq
      · exact plain (by simp [Lexeme.raw, LogicalOp.text]) (Option.some.inj h)
  · exact plain (by simp [Lexeme.raw, LogicalOp.text]) (Option.some.inj h)
  · exact plain (by simp [Lexeme.raw, LogicalOp.text]) (Option.some.inj h)
  · obtain ⟨p, _, hq⟩ := Option.map_eq_some_iff.1 h
    exact plain (by simp [Lexeme.raw]) hq
  · next c cs _ _ _ _ =>
    split at h
    · next hc =>
      have hs : startsWord (c :: cs) = true := hc
      exact plain (scanWord_raw_ne_nil hs) (Option.some.inj h)
    · obtain ⟨p, hp, hq⟩ := Option.map_eq_some_iff.1 h
      exact plain (scanComparison?_raw_ne_nil hp) hq

theorem token?_length {cs rest : List Char} {t : Token} (h : token? cs = some (t, rest)) :
    rest.length < cs.length := by
  have hlen := congrArg List.length (token?_text h)
  have hpos := List.length_pos_iff.2 (token?_text_ne_nil h)
  simp only [List.length_append] at hlen
  omega

def pieces : List Char → List Piece
  | [] => []
  | c :: cs =>
    if isSpace c then .space c :: pieces cs
    else
      match _h : token? (c :: cs) with
      | some (t, rest) => .token t :: pieces rest
      | none => .skipped c :: pieces cs
termination_by cs => cs.length
decreasing_by
  · simp
  · exact token?_length ‹_›
  · simp

structure Span where
  start : Nat
  stop : Nat
  deriving DecidableEq, Repr

structure Located (α : Type) where
  span : Span
  item : α
  deriving DecidableEq, Repr

def locate (start : Nat) : List Piece → List (Located Piece)
  | [] => []
  | p :: ps =>
    let stop := start + byteLength p.text
    ⟨⟨start, stop⟩, p⟩ :: locate stop ps

def tokensOf (ps : List (Located Piece)) : List (Located Token) :=
  ps.filterMap fun p =>
    match p.item with
    | .token t => some ⟨p.span, t⟩
    | _ => none

def joinSkipped (span : Span) (c : Char) : List (Located (List Char)) → List (Located (List Char))
  | f :: fs =>
    if span.stop = f.span.start then ⟨⟨span.start, f.span.stop⟩, c :: f.item⟩ :: fs
    else ⟨span, [c]⟩ :: f :: fs
  | [] => [⟨span, [c]⟩]

def skippedOf : List (Located Piece) → List (Located (List Char))
  | [] => []
  | p :: ps =>
    match p.item with
    | .skipped c => joinSkipped p.span c (skippedOf ps)
    | _ => skippedOf ps

def located (source : String) : List (Located Piece) := locate 0 (pieces source.toList)

def tokenize (source : String) : List (Located Token) := tokensOf (located source)

def skipped (source : String) : List (Located (List Char)) := skippedOf (located source)

end LiveMarkup.Expression
