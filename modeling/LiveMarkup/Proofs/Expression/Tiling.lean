import Mathlib.Data.List.Chain
import LiveMarkup.Proofs.Expression.Lexing
import LiveMarkup.Proofs.Text.Bytes

/-!
Tilings of a source by spaces, tokens and fragments, each where it has to stand. There is one for every
source, and its tokens and fragments are those that the scanner finds.
-/

namespace LiveMarkup.Expression

open LiveMarkup.Text

inductive Tile where
  | space (c : Char)
  | token (t : Token)
  | fragment (cs : List Char)
  deriving DecidableEq, Repr

namespace Tile

def text : Tile → List Char
  | .space c => [c]
  | .token t => t.text
  | .fragment cs => cs

def isFragment : Tile → Bool
  | .fragment _ => true
  | _ => false

/-- No token stands at any character of a fragment, whatever is behind it. -/
def Stands (rest : List Char) : Tile → Prop
  | .space c => isSpace c
  | .token t => t.Stands rest
  | .fragment cs => cs ≠ [] ∧ ∀ c after, c :: after <:+ cs → isSpace c = false ∧
      ∀ (t : Token) behind, t.Stands behind → c :: after ++ rest ≠ t.text ++ behind

end Tile

structure Tiling (source : List Char) (tiles : List Tile) : Prop where
  text : tiles.flatMap Tile.text = source
  stands : ∀ before t after, tiles = before ++ t :: after → t.Stands (after.flatMap Tile.text)
  apart : tiles.IsChain fun t u => ¬(t.isFragment ∧ u.isFragment)

variable {source rest cs : List Char} {t u : Tile} {ts us tiles : List Tile}

theorem Tiling.nil : Tiling [] [] where
  text := rfl
  stands before t after h := by simp at h
  apart := .nil

theorem Tiling.cons (h : Tiling rest ts) (ht : t.Stands rest)
    (hapart : ∀ u ∈ ts.head?, ¬(t.isFragment ∧ u.isFragment)) : Tiling (t.text ++ rest) (t :: ts) where
  text := by rw [List.flatMap_cons, h.text]
  stands before u after heq := by
    rcases List.cons_eq_append_iff.1 heq with ⟨_, hu⟩ | ⟨before, _, hts⟩
    · cases hu
      rwa [h.text]
    · exact h.stands before u after hts
  apart := by
    cases ts with
    | nil => exact .singleton _
    | cons u us => exact h.apart.cons_cons (hapart u rfl)

theorem Tiling.tail (h : Tiling source (t :: ts)) :
    source = t.text ++ ts.flatMap Tile.text ∧ t.Stands (ts.flatMap Tile.text) ∧
      Tiling (ts.flatMap Tile.text) ts ∧ ∀ u ∈ ts.head?, ¬(t.isFragment ∧ u.isFragment) := by
  refine ⟨h.text.symm, h.stands [] t ts rfl, ⟨rfl, fun before u after hts => ?_, h.apart.tail⟩, ?_⟩
  · exact h.stands (t :: before) u after (by rw [hts, List.cons_append])
  · intro u hu
    obtain ⟨us, rfl⟩ := List.head?_eq_some_iff.1 hu
    exact (List.isChain_cons_cons.1 h.apart).1

theorem token?_of_isSpace {c : Char} (h : isSpace c) (cs : List Char) : token? (c :: cs) = none := by
  simp only [isSpace, Bool.or_eq_true, beq_iff_eq] at h
  rcases h with (((rfl | rfl) | rfl) | rfl) | rfl <;> rfl

theorem token?_eq_none : token? cs = none ↔ ∀ (t : Token) rest, t.Stands rest → cs ≠ t.text ++ rest := by
  refine ⟨fun h t rest ht hcs => ?_, fun h => ?_⟩
  · rw [hcs, token?_of_stands ht] at h
    cases h
  · cases hscan : token? cs with
    | none => rfl
    | some p =>
      obtain ⟨hcs, hstands⟩ := token?_eq_some.1 hscan
      exact absurd hcs (h p.1 p.2 hstands)

def Tile.Found (c : Char) (source rest : List Char) : Tile → Prop
  | .space d => isSpace c = true ∧ d = c
  | .token t => isSpace c = false ∧ token? source = some (t, rest)
  | .fragment _ => isSpace c = false ∧ token? source = none

theorem Tile.Stands.found (h : t.Stands rest) :
    t.text ≠ [] ∧ ∃ c ∈ (t.text ++ rest).head?, t.Found c (t.text ++ rest) rest := by
  cases t with
  | space c => exact ⟨List.cons_ne_nil _ _, c, rfl, h, rfl⟩
  | token t =>
    have hscan := token?_of_stands h
    rw [Tile.text]
    cases htext : t.text with
    | nil => exact absurd htext (token?_text_ne_nil hscan)
    | cons c cs =>
      rw [htext, List.cons_append] at hscan
      refine ⟨List.cons_ne_nil _ _, c, rfl, ?_, hscan⟩
      cases hc : isSpace c with
      | false => rfl
      | true =>
        rw [token?_of_isSpace hc] at hscan
        cases hscan
  | fragment cs =>
    obtain ⟨hne, hall⟩ := h
    cases cs with
    | nil => exact absurd rfl hne
    | cons c cs =>
      obtain ⟨hspace, hnone⟩ := hall c cs (List.suffix_refl _)
      exact ⟨List.cons_ne_nil _ _, c, rfl, hspace, token?_eq_none.2 hnone⟩

theorem Tiling.text_ne_nil (h : Tiling source tiles) (ht : t ∈ tiles) : t.text ≠ [] := by
  obtain ⟨before, after, hsplit⟩ := List.append_of_mem ht
  exact (h.stands before t after hsplit).found.1

theorem Tile.eq_of_stands {rest' : List Char} (ht : t.Stands rest) (hu : u.Stands rest')
    (h : t.text ++ rest = u.text ++ rest') : t = u ∨ t.isFragment ∧ u.isFragment := by
  obtain ⟨_, c, hc, hfound⟩ := ht.found
  obtain ⟨_, d, hd, hother⟩ := hu.found
  rw [← h] at hd hother
  cases Option.some.inj (hc.symm.trans hd)
  cases t with
  | space a =>
    cases u with
    | space b => exact .inl (by rw [hfound.2, hother.2])
    | token t => cases hfound.1.symm.trans hother.1
    | fragment as => cases hfound.1.symm.trans hother.1
  | token t =>
    cases u with
    | space b => cases hother.1.symm.trans hfound.1
    | token t' =>
      cases hfound.2.symm.trans hother.2
      exact .inl rfl
    | fragment as => cases hfound.2.symm.trans hother.2
  | fragment as =>
    cases u with
    | space b => cases hother.1.symm.trans hfound.1
    | token t => cases hfound.2.symm.trans hother.2
    | fragment bs => exact .inr ⟨rfl, rfl⟩

theorem Tiling.fragment_ends {as : List Char} (h : Tiling (as ++ rest) ts)
    (hapart : ∀ u ∈ ts.head?, ¬u.isFragment) (hstands : (Tile.fragment (cs ++ as)).Stands rest) :
    as = [] := by
  cases as with
  | nil => rfl
  | cons c as =>
    have htail : (Tile.fragment (c :: as)).Stands rest :=
      ⟨List.cons_ne_nil _ _, fun d after hsuffix =>
        hstands.2 d after (hsuffix.trans (List.suffix_append cs (c :: as)))⟩
    cases ts with
    | nil => cases h.text
    | cons u us =>
      obtain ⟨htext, hu, _, _⟩ := h.tail
      rcases Tile.eq_of_stands htail hu htext with rfl | ⟨_, hfragment⟩
      · exact absurd rfl (hapart _ rfl)
      · exact absurd hfragment (hapart u rfl)

theorem Tiling.head_eq (ht : Tiling source (t :: ts)) (hu : Tiling source (u :: us)) : t = u := by
  obtain ⟨htext, htstands, htrest, htapart⟩ := ht.tail
  obtain ⟨hutext, hustands, hurest, huapart⟩ := hu.tail
  have hsource := htext.symm.trans hutext
  rcases Tile.eq_of_stands htstands hustands hsource with heq | ⟨hft, hfu⟩
  · exact heq
  · have hends (v : Tile) (hv : v ∈ ts.head?) : ¬v.isFragment := fun hf => htapart v hv ⟨hft, hf⟩
    have hends' (v : Tile) (hv : v ∈ us.head?) : ¬v.isFragment := fun hf => huapart v hv ⟨hfu, hf⟩
    cases t with
    | fragment as =>
      cases u with
      | fragment bs =>
        rcases List.append_eq_append_iff.1 hsource with ⟨more, hmore, hrest⟩ | ⟨more, hmore, hrest⟩
        · rw [Tile.text, Tile.text] at hmore
          rw [hmore] at hustands ⊢
          rw [hrest] at htrest
          rw [htrest.fragment_ends hends hustands, List.append_nil]
        · rw [Tile.text, Tile.text] at hmore
          rw [hmore] at htstands ⊢
          rw [hrest] at hurest
          rw [hurest.fragment_ends hends' htstands, List.append_nil]
      | _ => cases hfu
    | _ => cases hft

theorem Tiling.unique (h : Tiling source tiles) (h' : Tiling source us) : us = tiles := by
  induction tiles generalizing source us with
  | nil =>
    cases us with
    | nil => rfl
    | cons u us =>
      have hempty := h'.text.trans h.text.symm
      exact absurd (List.append_eq_nil_iff.1 hempty).1 (h'.text_ne_nil (List.mem_cons_self ..))
  | cons t ts ih =>
    cases us with
    | nil =>
      have hempty := h.text.trans h'.text.symm
      exact absurd (List.append_eq_nil_iff.1 hempty).1 (h.text_ne_nil (List.mem_cons_self ..))
    | cons u us =>
      cases h.head_eq h'
      obtain ⟨htext, _, hrest, _⟩ := h.tail
      obtain ⟨hutext, _, hurest, _⟩ := h'.tail
      have hsame := List.append_cancel_left (htext.symm.trans hutext)
      rw [← hsame] at hurest
      rw [ih hrest hurest]

def joinTile (c : Char) : List Tile → List Tile
  | .fragment cs :: ts => .fragment (c :: cs) :: ts
  | ts => .fragment [c] :: ts

def tilesOf : List Piece → List Tile
  | [] => []
  | .space c :: ps => .space c :: tilesOf ps
  | .token t :: ps => .token t :: tilesOf ps
  | .skipped c :: ps => joinTile c (tilesOf ps)

theorem Tiling.join {c : Char} (h : Tiling rest ts) (hspace : isSpace c = false)
    (hnone : token? (c :: rest) = none) : Tiling (c :: rest) (joinTile c ts) := by
  have single (hfirst : ∀ u ∈ ts.head?, ¬u.isFragment) : Tiling (c :: rest) (.fragment [c] :: ts) := by
    refine h.cons (t := .fragment [c]) ⟨List.cons_ne_nil _ _, fun d after hsuffix => ?_⟩
      fun u hu hboth => hfirst u hu hboth.2
    cases List.suffix_cons_iff.1 hsuffix with
    | inl heq =>
      cases heq
      exact ⟨hspace, token?_eq_none.1 hnone⟩
    | inr hsuffix => cases List.suffix_nil.1 hsuffix
  cases ts with
  | nil => exact single nofun
  | cons u us =>
    cases u with
    | fragment cs =>
      obtain ⟨htext, ⟨_, hall⟩, hrest, hapart⟩ := h.tail
      rw [htext] at hnone ⊢
      refine hrest.cons (t := .fragment (c :: cs)) ⟨List.cons_ne_nil _ _, fun d after hsuffix => ?_⟩ hapart
      rcases List.suffix_cons_iff.1 hsuffix with heq | hsuffix
      · cases heq
        exact ⟨hspace, token?_eq_none.1 hnone⟩
      · exact hall d after hsuffix
    | space d => exact single fun u hu => by cases hu; nofun
    | token t => exact single fun u hu => by cases hu; nofun

theorem tiling_pieces (cs : List Char) : Tiling cs (tilesOf (pieces cs)) := by
  fun_induction pieces cs with
  | case1 => exact .nil
  | case2 c cs hc ih => exact ih.cons (t := .space c) hc fun _ _ h => Bool.false_ne_true h.1
  | case3 c cs hc t rest hscan ih =>
    obtain ⟨htext, hstands⟩ := token?_eq_some.1 hscan
    rw [htext]
    exact ih.cons (t := .token t) hstands fun _ _ h => Bool.false_ne_true h.1
  | case4 c cs hc hscan ih => exact ih.join (by simpa using hc) hscan

def placed (start : Nat) : List Tile → List (Located Tile)
  | [] => []
  | t :: ts =>
    ⟨⟨start, start + byteLength t.text⟩, t⟩ :: placed (start + byteLength t.text) ts

def tokensAmong (ts : List (Located Tile)) : List (Located Token) :=
  ts.filterMap fun t =>
    match t.item with
    | .token item => some ⟨t.span, item⟩
    | _ => none

def fragmentsAmong (ts : List (Located Tile)) : List (Located (List Char)) :=
  ts.filterMap fun t =>
    match t.item with
    | .fragment cs => some ⟨t.span, cs⟩
    | _ => none

theorem slice_of_placed {start : Nat} {p : Located Tile} (h : p ∈ placed start tiles) :
    ∃ before after, tiles = before ++ p.item :: after ∧
      p.span.start = start + byteLength (before.flatMap Tile.text) ∧
      p.span.stop = p.span.start + byteLength p.item.text := by
  induction tiles generalizing start with
  | nil => cases h
  | cons t ts ih =>
    rcases List.mem_cons.1 h with rfl | h
    · exact ⟨[], ts, rfl, rfl, rfl⟩
    · obtain ⟨before, after, hsplit, hstart, hstop⟩ := ih h
      refine ⟨t :: before, after, by rw [hsplit, List.cons_append], ?_, hstop⟩
      rw [hstart, List.flatMap_cons, byteLength_append, Nat.add_assoc]

theorem le_of_mem_fragmentsAmong {start : Nat} {f : Located (List Char)}
    (h : f ∈ fragmentsAmong (placed start tiles)) : start ≤ f.span.start := by
  obtain ⟨p, hp, hf⟩ := List.mem_filterMap.1 h
  obtain ⟨before, after, _, hstart, _⟩ := slice_of_placed hp
  split at hf
  · cases hf
    exact hstart ▸ Nat.le_add_right _ _
  · cases hf

theorem tokensAmong_joinTile (start : Nat) (c : Char) (ts : List Tile) :
    tokensAmong (placed start (joinTile c ts)) = tokensAmong (placed (start + c.utf8Size) ts) := by
  have single (ts : List Tile) : tokensAmong (placed start (.fragment [c] :: ts)) =
      tokensAmong (placed (start + c.utf8Size) ts) := rfl
  cases ts with
  | nil => exact single []
  | cons t ts =>
    cases t with
    | fragment cs =>
      rw [joinTile, placed, placed]
      simp only [tokensAmong, List.filterMap_cons_none, Tile.text, byteLength, Nat.add_assoc]
    | space d => exact single _
    | token t => exact single _

theorem joinSkipped_of_lt {span : Span} {fs : List (Located (List Char))} (c : Char)
    (h : ∀ f ∈ fs, span.stop < f.span.start) : joinSkipped span c fs = ⟨span, [c]⟩ :: fs := by
  cases fs with
  | nil => rfl
  | cons f fs =>
    rw [joinSkipped, if_neg (Nat.ne_of_lt (h f (List.mem_cons_self ..)))]

theorem fragmentsAmong_joinTile (start : Nat) (c : Char) (h : ∀ t ∈ ts, t.text ≠ []) :
    fragmentsAmong (placed start (joinTile c ts)) =
      joinSkipped ⟨start, start + c.utf8Size⟩ c (fragmentsAmong (placed (start + c.utf8Size) ts)) := by
  -- what stands first here keeps the next fragment from touching
  have single (hlt : ∀ f ∈ fragmentsAmong (placed (start + c.utf8Size) ts),
      start + c.utf8Size < f.span.start) :
      fragmentsAmong (placed start (.fragment [c] :: ts)) =
        joinSkipped ⟨start, start + c.utf8Size⟩ c
          (fragmentsAmong (placed (start + c.utf8Size) ts)) := by
    rw [joinSkipped_of_lt c hlt]
    rfl
  have behind {t : Tile} {us : List Tile} (hts : ts = t :: us) (ht : ¬t.isFragment) :
      ∀ f ∈ fragmentsAmong (placed (start + c.utf8Size) ts), start + c.utf8Size < f.span.start := by
    subst hts
    intro f hf
    have hpos := byteLength_pos (h t (List.mem_cons_self ..))
    have hmem : f ∈ fragmentsAmong (placed (start + c.utf8Size + byteLength t.text) us) := by
      cases t with
      | fragment cs => exact absurd rfl ht
      | space d => exact hf
      | token t => exact hf
    have hle := le_of_mem_fragmentsAmong hmem
    omega
  cases ts with
  | nil => exact single (List.forall_mem_nil _)
  | cons t us =>
    cases t with
    | fragment cs =>
      rw [joinTile, placed, placed]
      simp [fragmentsAmong, joinSkipped, Tile.text, byteLength, Nat.add_assoc]
    | space d => exact single (behind rfl Bool.false_ne_true)
    | token t => exact single (behind rfl Bool.false_ne_true)

theorem tokensOf_locate (start : Nat) (ps : List Piece) :
    tokensOf (locate start ps) = tokensAmong (placed start (tilesOf ps)) := by
  induction ps generalizing start with
  | nil => rfl
  | cons p ps ih =>
    cases p with
    | skipped c =>
      rw [tilesOf, tokensAmong_joinTile, ← ih]
      rfl
    | space c =>
      have hrest := ih (start + byteLength [c])
      simpa [tokensOf, tokensAmong, locate, placed, tilesOf, Tile.text, Piece.text] using hrest
    | token t =>
      have hrest := ih (start + byteLength t.text)
      simpa [tokensOf, tokensAmong, locate, placed, tilesOf, Tile.text, Piece.text] using hrest

theorem skippedOf_locate (start : Nat) (cs : List Char) :
    skippedOf (locate start (pieces cs)) = fragmentsAmong (placed start (tilesOf (pieces cs))) := by
  fun_induction pieces cs generalizing start with
  | case1 => rfl
  | case2 c cs hc ih => exact ih (start + byteLength [c])
  | case3 c cs hc t rest hscan ih => exact ih (start + byteLength t.text)
  | case4 c cs hc hscan ih =>
    have hne (t : Tile) (ht : t ∈ tilesOf (pieces cs)) := (tiling_pieces cs).text_ne_nil ht
    rw [tilesOf, fragmentsAmong_joinTile start c hne, ← ih]
    rfl

theorem Lexeme.last_of_stands {l : Lexeme} (h : l.Stands rest) (hrest : startsWord rest) :
    ∀ c ∈ l.raw.getLast?, isWordChar c = false := by
  intro c hc
  cases l with
  | call name arguments =>
    simp only [Lexeme.raw, List.getLast?_concat, Option.mem_some] at hc
    cases hc
    rfl
  | quoted content =>
    simp only [Lexeme.raw, List.getLast?_concat, Option.mem_some] at hc
    cases hc
    rfl
  | number digits =>
    rw [h.2.whole] at hrest
    cases hrest
  | word name =>
    rw [h.2.2.whole] at hrest
    cases hrest
  | logical op =>
    cases op <;>
      · cases hc
        rfl
  | comparison op =>
    cases op <;>
      · cases hc
        rfl

theorem Tile.Stands.last (h : t.Stands rest) (hrest : startsWord rest) :
    ∀ c ∈ t.text.getLast?, isWordChar c = false := by
  intro c hc
  cases t with
  | space d =>
    obtain rfl : d = c := Option.some.inj hc
    cases hword : isWordChar d with
    | false => rfl
    | true =>
      have hspace : isSpace d = true := h
      rw [not_isSpace_of_isWordChar hword] at hspace
      cases hspace
  | fragment cs =>
    obtain ⟨before, rfl⟩ := List.getLast?_eq_some_iff.1 hc
    have hnone := token?_eq_none.2 (h.2 c [] (List.suffix_append before [c])).2
    cases hword : isWordChar c with
    | false => rfl
    | true =>
      have hstart : startsWord ([c] ++ rest) := hword
      rw [token?_startsWord hstart] at hnone
      cases hnone
  | token t =>
    obtain ⟨l, negated⟩ := t
    cases negated with
    | false => exact Lexeme.last_of_stands h hrest c hc
    | true =>
      have hl : l.StandsAsWord rest := h
      have hlast : some (l.raw.getLast?.getD '!') = some c := List.getLast?_cons.symm.trans hc
      cases hraw : l.raw.getLast? with
      | none =>
        rw [hraw] at hlast
        cases hlast
        rfl
      | some d =>
        rw [hraw] at hlast
        cases hlast
        exact Lexeme.last_of_stands hl.stands hrest _ hraw

theorem Tiling.maximal {before after : List Tile} (h : Tiling source (before ++ t :: after))
    (hword : startsWord t.text) : ∀ c ∈ (before.flatMap Tile.text).getLast?, isWordChar c = false := by
  rcases List.eq_nil_or_concat before with rfl | ⟨front, u, rfl⟩
  · nofun
  · rw [List.concat_eq_append] at h ⊢
    have hsplit : front ++ [u] ++ t :: after = front ++ u :: (t :: after) := by simp
    have hu := h.stands front u (t :: after) hsplit
    have hrest : startsWord ((t :: after).flatMap Tile.text) := by
      rw [List.flatMap_cons]
      cases htext : t.text with
      | nil =>
        rw [htext] at hword
        cases hword
      | cons c cs =>
        rw [htext] at hword
        exact hword
    intro c hc
    refine hu.last hrest c ?_
    rwa [List.flatMap_append, List.flatMap_cons, List.flatMap_nil, List.append_nil,
      List.getLast?_append_of_ne_nil _ hu.found.1] at hc

/-- What the tokenizer gives are the tokens and the fragments of the one tiling, each with the bytes
that it takes up. -/
theorem tokenize_tiling (source : String) :
    ∃ tiles, Tiling source.toList tiles ∧ (∀ other, Tiling source.toList other → other = tiles) ∧
      tokenize source = tokensAmong (placed 0 tiles) ∧
      skipped source = fragmentsAmong (placed 0 tiles) ∧
      (∀ p ∈ placed 0 tiles, p.item.text ≠ [] ∧ ∃ before after,
        source.toList = before ++ p.item.text ++ after ∧ p.span.start = byteLength before ∧
          p.span.stop = byteLength (before ++ p.item.text) ∧
          p.span.stop ≤ byteLength source.toList) ∧
      ∀ before t after, tiles = before ++ t :: after → startsWord t.text →
        ∀ c ∈ (before.flatMap Tile.text).getLast?, isWordChar c = false := by
  have htiling := tiling_pieces source.toList
  refine ⟨tilesOf (pieces source.toList), htiling, fun other hother => htiling.unique hother,
    tokensOf_locate 0 _, skippedOf_locate 0 _, fun p hp => ?_, fun before t after hsplit hword => ?_⟩
  · obtain ⟨before, after, hsplit, hstart, hstop⟩ := slice_of_placed hp
    have hmem : p.item ∈ tilesOf (pieces source.toList) :=
      hsplit ▸ List.mem_append_right _ (List.mem_cons_self ..)
    have htext : source.toList =
        before.flatMap Tile.text ++ p.item.text ++ after.flatMap Tile.text := by
      rw [← htiling.text, hsplit, List.flatMap_append, List.flatMap_cons, List.append_assoc]
    have hbytes : p.span.stop = byteLength (before.flatMap Tile.text ++ p.item.text) := by
      rw [hstop, hstart, byteLength_append, Nat.zero_add]
    refine ⟨htiling.text_ne_nil hmem, _, _, htext, by rw [hstart, Nat.zero_add], hbytes, ?_⟩
    rw [hbytes, htext, byteLength_append (_ ++ _)]
    exact Nat.le_add_right _ _
  · rw [hsplit] at htiling
    exact htiling.maximal hword

end LiveMarkup.Expression
