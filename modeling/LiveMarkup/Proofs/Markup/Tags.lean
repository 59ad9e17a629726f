import LiveMarkup.Proofs.Markup.Offsets
import LiveMarkup.Proofs.Markup.Printed

/-!
Start tags by byte offsets. All that a search looks for is ASCII, so the bytes within a character never end
one, and tags and attributes are read as they are character by character.
-/

namespace LiveMarkup.Markup

open LiveMarkup.Text

variable {source pre cs : List Char} {c : Char}

theorem beq_of_wide {d : Char} (hc : 128 ≤ c.toNat) (hd : d.toNat < 128) : (c == d) = false := by
  refine beq_eq_false_iff_ne.2 ?_
  rintro rfl
  omega

theorem isSpace_of_wide (h : 128 ≤ c.toNat) : isSpace c = false := by
  simp (disch := decide) only [isSpace, beq_of_wide h, Bool.or_false]

theorem isNameChar_of_wide (h : 128 ≤ c.toNat) : isNameChar c = true := by
  simp (disch := decide) only [isNameChar, isSpace_of_wide h, beq_of_wide h, Bool.or_false, Bool.not_false]

theorem isAttributeNameChar_of_wide (h : 128 ≤ c.toNat) : isAttributeNameChar c = true := by
  simp (disch := decide) only [isAttributeNameChar, isNameChar_of_wide h, bne, beq_of_wide h,
    Bool.not_false, Bool.and_self]

theorem isAlpha_of_wide (h : 128 ≤ c.toNat) : c.isAlpha = false := by
  refine Bool.eq_false_iff.2 fun halpha => ?_
  rcases isAlpha_iff.1 halpha with hu | hl
  · have := isUpper_iff.1 hu
    omega
  · have := isLower_iff.1 hl
    omega

def isOpener (c : Char) : Bool := c == '!' || c == '?' || c == '/' || c.isAlpha

theorem opensMarkup_iff : opensMarkup cs = true ↔
    ∃ c rest, cs = '<' :: c :: rest ∧ isOpener c = true := by
  constructor
  · intro h
    unfold opensMarkup at h
    split at h
    · exact ⟨_, _, rfl, h⟩
    · cases h
  · rintro ⟨c, rest, rfl, h⟩
    exact h

theorem isOpener_of_wide (h : 128 ≤ c.toNat) : isOpener c = false := by
  simp (disch := decide) only [isOpener, beq_of_wide h, isAlpha_of_wide h, Bool.or_self]

theorem opensMarkup_of_wide (h : 128 ≤ c.toNat) (cs : List Char) : opensMarkup (c :: cs) = false :=
  opensMarkup_of_ne (by rintro rfl; exact absurd h (by decide)) cs

theorem bytewise_opensMarkup : Bytewise opensMarkup where
  ascii c cs hc := by
    by_cases h : c = '<'
    · subst h
      cases cs with
      | nil => rfl
      | cons d ds =>
        by_cases hd : d.toNat < 128
        · rw [units_cons_ascii hd]
          rfl
        · have hd := Nat.le_of_not_lt hd
          obtain ⟨e, es, hunits, he⟩ := units_cons_wide hd ds
          rw [hunits]
          exact (isOpener_of_wide he).trans (isOpener_of_wide hd).symm
    · rw [opensMarkup_of_ne h, opensMarkup_of_ne h]
  wide c cs d ds hc hd := (opensMarkup_of_wide hc cs).trans (opensMarkup_of_wide hd ds).symm

theorem bytewise_closesValue : Bytewise closesValue where
  ascii c cs _ := by
    have hhead : ((units cs).head? == some '>') = (cs.head? == some '>') := by
      rw [Bool.eq_iff_iff, beq_iff_eq, beq_iff_eq]
      exact head?_units (by decide)
    rw [closesValue, closesValue, hhead]
  wide c cs d ds hc hd := by
    simp (disch := decide) only [closesValue, isSpace_of_wide hc, isSpace_of_wide hd, beq_of_wide hc,
      beq_of_wide hd, Bool.false_and]

theorem runTo_opensMarkup (cs : List Char) : runTo opensMarkup cs = (splitMarkup cs).1 := by
  induction cs with
  | nil => rfl
  | cons c cs ih =>
    rw [runTo, splitMarkup, ih]
    split <;> rfl

theorem runTo_closesValue (cs : List Char) : runTo closesValue cs = (splitUnquoted cs).1 := by
  induction cs with
  | nil => rfl
  | cons c cs ih =>
    rw [runTo, splitUnquoted, ih, closesValue]
    split <;> rfl

theorem afterSpaces_eq (h : source = pre ++ cs) :
    afterSpaces source (byteLength pre) = byteLength (pre ++ cs.takeWhile isSpace) ∧
      source = pre ++ cs.takeWhile isSpace ++ cs.dropWhile isSpace := by
  have hb : Bytewise (leaves isSpace) :=
    bytewise_leaves fun c d hc hd => (isSpace_of_wide hc).trans (isSpace_of_wide hd).symm
  constructor
  · rw [afterSpaces, seek_eq hb h, runTo_leaves]
  · rw [List.append_assoc, List.takeWhile_append_dropWhile, h]

theorem splitText_singleton (c : Char) (cs : List Char) : splitText [c] cs = splitFirst c cs := by
  induction cs with
  | nil => rfl
  | cons d cs ih =>
    rw [splitText, splitFirst, ih, behind?]
    by_cases hd : d = c
    · rw [if_pos hd, if_pos hd]
      rfl
    · rw [if_neg hd, if_neg hd]

theorem findFrom?_eq (needle : List Char) (h : source = pre ++ cs) :
    findFrom? needle source (byteLength pre) =
      (splitText needle cs).map fun p => byteLength (pre ++ p.1) := by
  have hdrop : dropBytes? (byteLength pre) source = some cs := dropBytes?_eq_some.2 ⟨pre, h, rfl⟩
  rw [findFrom?, hdrop, Option.bind_some, find?, Option.map_map]
  exact Option.map_congr fun p _ => (byteLength_append pre p.1).symm

theorem quotedAt?_eq {quote : Char} (hq : quote.toNat < 128) (h : source = pre ++ quote :: cs) :
    ∃ s here, quotedAt? quote source (byteLength pre) = some (s, byteLength (pre ++ here)) ∧
      quote :: cs = here ++ (quotedValue quote cs).2 ∧ s.chars = (quotedValue quote cs).1 := by
  have hsource : source = pre ++ [quote] ++ cs := h.trans (List.append_cons ..)
  have hdrop : dropBytes? (byteLength (pre ++ [quote])) source = some cs :=
    dropBytes?_eq_some.2 ⟨_, hsource, rfl⟩
  rw [quotedAt?, byteLength_add_one hq, hdrop, Option.bind_eq_bind, Option.bind_some, find?,
    splitText_singleton, quotedValue]
  cases hsplit : splitFirst quote cs with
  | none =>
    have hend : source = pre ++ [quote] ++ (cs ++ []) := by rw [List.append_nil, ← hsource]
    obtain ⟨s, hs, hchars⟩ := exists_cut? hend rfl (congrArg byteLength hsource)
    refine ⟨s, quote :: cs, ?_, by simp, hchars⟩
    simp only [Option.map_none, hs, Option.map_some, ← h]
  | some p =>
    obtain ⟨before, after⟩ := p
    obtain ⟨rfl, -⟩ := splitFirst_eq_some hsplit
    obtain ⟨s, hs, hchars⟩ := exists_cut? hsource rfl (byteLength_append (pre ++ [quote]) before).symm
    have hend : byteLength (pre ++ [quote]) + byteLength before + 1 =
        byteLength (pre ++ ([quote] ++ before ++ [quote])) := by
      rw [← byteLength_append, byteLength_add_one hq]
      simp only [List.append_assoc]
    refine ⟨s, [quote] ++ before ++ [quote], ?_, by simp, hchars⟩
    simp only [Option.map_some, hs, hend]

theorem valueAt?_eq (h : source = pre ++ cs) :
    ∃ s here, valueAt? source (byteLength pre) = some (s, byteLength (pre ++ here)) ∧
      cs = here ++ (attributeValue cs).2 ∧ s.chars = (attributeValue cs).1 := by
  have hdouble := unit?_eq_some h (d := '"') (by decide)
  have hsingle := unit?_eq_some h (d := '\x27') (by decide)
  rw [valueAt?]
  fun_cases attributeValue cs with
  | case1 cs =>
    rw [if_pos (hdouble.2 rfl)]
    exact quotedAt?_eq (by decide) h
  | case2 cs =>
    rw [if_neg (mt hdouble.1 (by simp)), if_pos (hsingle.2 rfl)]
    exact quotedAt?_eq (by decide) h
  | case3 cs hnodouble hnosingle =>
    have hne (d : Char) (hd : ∀ rest, cs ≠ d :: rest) : cs.head? ≠ some d := by
      intro hhead
      obtain ⟨rest, rfl⟩ := List.head?_eq_some_iff.1 hhead
      exact hd rest rfl
    have hsplit := splitUnquoted_append cs
    obtain ⟨s, hs, hchars⟩ := exists_cut? (h.trans (congrArg (pre ++ ·) hsplit.symm)) rfl rfl
    rw [if_neg (mt hdouble.1 (hne _ hnodouble)), if_neg (mt hsingle.1 (hne _ hnosingle)),
      seek_eq bytewise_closesValue h, runTo_closesValue]
    exact ⟨s, _, congrArg (Option.map _) hs, hsplit.symm, hchars⟩

theorem attributeAt?_eq (h : source = pre ++ c :: cs) :
    ∃ a here, attributeAt? source (byteLength pre) = some (a, byteLength (pre ++ here)) ∧
      c :: cs = here ++ (readAttribute c cs).2 ∧ a.written = (readAttribute c cs).1 := by
  have hb : Bytewise (leaves isAttributeNameChar) := bytewise_leaves fun c d hc hd =>
    (isAttributeNameChar_of_wide hc).trans (isAttributeNameChar_of_wide hd).symm
  have hnameEnd : seek (leaves isAttributeNameChar) source (byteLength pre + 1) =
      byteLength (pre ++ c :: cs.takeWhile isAttributeNameChar) := by
    rw [seek_succ hb (fun d _ hd => by rw [leaves, isAttributeNameChar_of_wide hd]; rfl) h, runTo_leaves]
  have hname : c :: cs = c :: cs.takeWhile isAttributeNameChar ++ cs.dropWhile isAttributeNameChar :=
    congrArg (c :: ·) List.takeWhile_append_dropWhile.symm
  rw [attributeAt?, hnameEnd, readAttribute]
  -- from here on the name is just a part of the text
  generalize c :: cs.takeWhile isAttributeNameChar = name at hname ⊢
  generalize cs.dropWhile isAttributeNameChar = rest at hname ⊢
  rw [hname] at h ⊢
  obtain ⟨s, hs, hchars⟩ := exists_cut? h rfl rfl
  obtain ⟨hafter, hbehind⟩ := afterSpaces_eq (h.trans (List.append_assoc ..).symm)
  have hequals := unit?_eq_some hbehind (d := '=') (by decide)
  have hrest : rest = rest.takeWhile isSpace ++ rest.dropWhile isSpace :=
    List.takeWhile_append_dropWhile.symm
  simp only [hs, Option.bind_eq_bind, Option.bind_some, hafter]
  by_cases hhead : (rest.dropWhile isSpace).head? = some '='
  · obtain ⟨tail, htail⟩ := List.head?_eq_some_iff.1 hhead
    rw [htail, List.append_cons] at hbehind
    obtain ⟨hvalueAt, hvalue⟩ := afterSpaces_eq hbehind
    obtain ⟨v, here, hv, hsplit, hvchars⟩ := valueAt?_eq hvalue
    have hwhole : rest = rest.takeWhile isSpace ++ ['='] ++ tail.takeWhile isSpace ++ here ++
        (attributeValue (tail.dropWhile isSpace)).2 := by
      rw [List.append_assoc _ here, ← hsplit, List.append_assoc _ (tail.takeWhile isSpace),
        List.takeWhile_append_dropWhile, ← List.append_cons, ← htail]
      exact hrest
    rw [if_pos (hequals.2 hhead), byteLength_add_one (c := '=') (by decide), hvalueAt, hv, htail]
    refine ⟨⟨s, some v⟩, name ++ (rest.takeWhile isSpace ++ ['='] ++ tail.takeWhile isSpace ++ here),
      ?_, ?_, ?_⟩
    · simp only [Option.map_some, List.append_assoc]
    · rw [List.append_assoc]
      exact congrArg (name ++ ·) hwhole
    · simp only [CutAttribute.written, hchars, Option.map_some, hvchars]
  · rw [if_neg (mt hequals.1 hhead)]
    split
    · next tail htail => exact absurd (congrArg List.head? htail) hhead
    · refine ⟨⟨s, none⟩, name, rfl, rfl, ?_⟩
      simp only [CutAttribute.written, hchars, Option.map_none]

theorem tagBody_skip (h : isSpace c = true ∨ c = '/' ∧ cs.head? ≠ some '>') :
    tagBody (c :: cs) = tagBody cs := by
  have hskip : (isSpace c || c == '/') = true := by
    rcases h with h | ⟨h, -⟩ <;> simp [h]
  rw [tagBody]
  · rw [if_pos hskip]
  · rintro rfl
    rcases h with h | ⟨h, -⟩ <;> exact absurd h (by decide)
  · rintro tail rfl rfl
    rcases h with h | ⟨-, h⟩
    · exact absurd h (by decide)
    · exact h rfl

theorem tagBody_dropWhile (cs : List Char) : tagBody (cs.dropWhile isSpace) = tagBody cs := by
  induction cs with
  | nil => rfl
  | cons c cs ih =>
    rw [List.dropWhile_cons]
    split
    · next hspace => rw [ih, tagBody_skip (.inl hspace)]
    · rfl

theorem tagBody_attribute (hclose : c ≠ '>') (hslash : c ≠ '/') (hspace : isSpace c = false) :
    tagBody (c :: cs) =
      (⟨(readAttribute c cs).1 :: (tagBody (readAttribute c cs).2).1.attributes,
        (tagBody (readAttribute c cs).2).1.selfClosing⟩, (tagBody (readAttribute c cs).2).2) := by
  rw [tagBody]
  · have hattribute : ¬(isSpace c || c == '/') = true := by simp [hspace, hslash]
    rw [if_neg hattribute]
  · exact hclose
  · exact fun _ h => absurd h hslash

/-- The rest of a start tag behind `pre` and some spaces is read as the characters are that follow. -/
def BodyReads (source pre spaces cs : List Char) : Prop :=
  ∃ attributes here, tagBodyAt? source (byteLength pre) =
      some (attributes, (tagBody cs).1.selfClosing, byteLength (pre ++ spaces ++ here)) ∧
    cs = here ++ (tagBody cs).2 ∧
    attributes.map CutAttribute.written = (tagBody cs).1.attributes

theorem BodyReads.of_spaces (h : BodyReads source pre (cs.takeWhile isSpace) (cs.dropWhile isSpace)) :
    BodyReads source pre [] cs := by
  obtain ⟨attributes, here, hbody, hsplit, hwritten⟩ := h
  rw [tagBody_dropWhile] at hbody hsplit hwritten
  refine ⟨attributes, cs.takeWhile isSpace ++ here, ?_, ?_, hwritten⟩
  · rw [hbody, List.append_nil, List.append_assoc]
  · rw [List.append_assoc, ← hsplit, List.takeWhile_append_dropWhile]

section Body

variable {spaces rest : List Char}
  (hafter : afterSpaces source (byteLength pre) = byteLength (pre ++ spaces))

include hafter

theorem bodyReads_nil (h : source = pre ++ spaces) : BodyReads source pre spaces [] := by
  rw [BodyReads, tagBodyAt?, hafter, ← h, if_neg (Nat.lt_irrefl _), tagBody]
  exact ⟨[], [], by rw [List.append_nil], rfl, rfl⟩

variable (h : source = pre ++ spaces ++ c :: rest)

include h

theorem tagBodyAt?_cons :
    tagBodyAt? source (byteLength pre) =
      if c = '>' then some ([], false, byteLength (pre ++ spaces ++ [c]))
      else if c = '/' then
        if rest.head? = some '>' then some ([], true, byteLength (pre ++ spaces ++ [c]) + 1)
        else tagBodyAt? source (byteLength (pre ++ spaces ++ [c]))
      else (attributeAt? source (byteLength (pre ++ spaces))).bind fun p =>
        (tagBodyAt? source p.2).map fun q => (p.1 :: q.1, q.2) := by
  have hlt : byteLength (pre ++ spaces) < byteLength source := by
    rw [h]
    exact byteLength_lt_append _ (List.cons_ne_nil c rest)
  have hunit (d : Char) (hd : d.toNat < 128) :
      unit? source (byteLength (pre ++ spaces)) = some d ↔ c = d :=
    (unit?_eq_some h hd).trans Option.some_inj
  have hnext : source = pre ++ spaces ++ [c] ++ rest := h.trans (List.append_cons ..)
  rw [tagBodyAt?, hafter]
  simp only [if_pos hlt, hunit '>' (by decide), hunit '/' (by decide)]
  by_cases hclose : c = '>'
  · subst hclose
    rw [if_pos rfl, if_pos rfl, byteLength_add_one (c := '>') (by decide)]
  · rw [if_neg hclose, if_neg hclose]
    by_cases hslash : c = '/'
    · subst hslash
      have hone := byteLength_add_one (c := '/') (by decide) (pre ++ spaces)
      have htwo : byteLength (pre ++ spaces) + 2 = byteLength (pre ++ spaces ++ ['/']) + 1 := by
        rw [← hone]
      rw [if_pos rfl, if_pos rfl, htwo, hone]
      simp only [unit?_eq_some hnext (d := '>') (by decide)]
    · rw [if_neg hslash, if_neg hslash]
      cases attributeAt? source (byteLength (pre ++ spaces)) <;> rfl

theorem bodyReads_close (hc : c = '>') : BodyReads source pre spaces (c :: rest) := by
  subst hc
  rw [BodyReads, tagBodyAt?_cons hafter h, if_pos rfl, tagBody]
  exact ⟨[], ['>'], rfl, rfl, rfl⟩

theorem bodyReads_slash (hc : c = '/') (hrest : BodyReads source (pre ++ spaces ++ [c]) [] rest) :
    BodyReads source pre spaces (c :: rest) := by
  subst hc
  rw [BodyReads, tagBodyAt?_cons hafter h, if_neg (by decide), if_pos rfl]
  by_cases hhead : rest.head? = some '>'
  · obtain ⟨tail, rfl⟩ := List.head?_eq_some_iff.1 hhead
    rw [if_pos hhead, tagBody, byteLength_add_one (c := '>') (by decide), List.append_assoc _ ['/']]
    exact ⟨[], ['/', '>'], rfl, rfl, rfl⟩
  · obtain ⟨attributes, here, hbody, hsplit, hwritten⟩ := hrest
    rw [if_neg hhead, tagBody_skip (.inr ⟨rfl, hhead⟩), hbody, List.append_nil, List.append_assoc _ ['/']]
    exact ⟨attributes, '/' :: here, rfl, congrArg ('/' :: ·) hsplit, hwritten⟩

theorem bodyReads_attribute (hclose : c ≠ '>') (hslash : c ≠ '/') (hspace : isSpace c = false)
    (hrest : ∀ here, source = pre ++ spaces ++ here ++ (readAttribute c rest).2 →
      BodyReads source (pre ++ spaces ++ here) [] (readAttribute c rest).2) :
    BodyReads source pre spaces (c :: rest) := by
  obtain ⟨a, here, ha, hsplit, hwritten⟩ := attributeAt?_eq h
  have hsource : source = pre ++ spaces ++ here ++ (readAttribute c rest).2 := by
    rw [h, hsplit, List.append_assoc _ here]
  obtain ⟨attributes, there, hbody, hbehind, hattributes⟩ := hrest here hsource
  rw [BodyReads, tagBodyAt?_cons hafter h, if_neg hclose, if_neg hslash, ha, Option.bind_some, hbody,
    tagBody_attribute hclose hslash hspace]
  refine ⟨a :: attributes, here ++ there, ?_, ?_, ?_⟩
  · simp only [Option.map_some, List.append_nil, List.append_assoc]
  · rw [hsplit, List.append_assoc, ← hbehind]
  · rw [List.map_cons, hwritten, hattributes]

end Body

theorem bodyReads (h : source = pre ++ cs) : BodyReads source pre [] cs := by
  induction hn : cs.length using Nat.strongRecOn generalizing pre cs with
  | ind n ih =>
    obtain ⟨hafter, hsource⟩ := afterSpaces_eq h
    have hle := (List.dropWhile_sublist isSpace (l := cs)).length_le
    refine .of_spaces ?_
    cases hrest : cs.dropWhile isSpace with
    | nil =>
      rw [hrest, List.append_nil] at hsource
      exact bodyReads_nil hafter hsource
    | cons c rest =>
      have hspace : isSpace c = false := by
        have hhead := List.head?_dropWhile_not isSpace cs
        rwa [hrest] at hhead
      rw [hrest] at hsource hle
      rw [List.length_cons] at hle
      by_cases hclose : c = '>'
      · exact bodyReads_close hafter hsource hclose
      by_cases hslash : c = '/'
      · have hnext := hsource.trans (List.append_cons ..)
        exact bodyReads_slash hafter hsource hslash (ih rest.length (by omega) hnext rfl)
      · have hlength := readAttribute_length c rest
        exact bodyReads_attribute hafter hsource hclose hslash hspace fun here hhere =>
          ih (readAttribute c rest).2.length (by omega) hhere rfl

theorem startTagAt?_eq (h : source = pre ++ '<' :: cs) :
    ∃ name attributes here, startTagAt? source (byteLength pre) =
        some (.start name attributes (tagBody (cs.dropWhile isNameChar)).1.selfClosing,
          byteLength (pre ++ '<' :: (cs.takeWhile isNameChar ++ here))) ∧
      cs = cs.takeWhile isNameChar ++ here ++ (startTag cs).2 ∧
      name.chars = cs.takeWhile isNameChar ∧
      attributes.map CutAttribute.written = (tagBody (cs.dropWhile isNameChar)).1.attributes := by
  have hb : Bytewise (leaves isNameChar) := bytewise_leaves fun c d hc hd =>
    (isNameChar_of_wide hc).trans (isNameChar_of_wide hd).symm
  have hsource : source = pre ++ ['<'] ++ cs := h.trans (List.append_cons ..)
  have hsplit : cs = cs.takeWhile isNameChar ++ cs.dropWhile isNameChar :=
    List.takeWhile_append_dropWhile.symm
  have hbehind : source = pre ++ ['<'] ++ cs.takeWhile isNameChar ++ cs.dropWhile isNameChar := by
    rw [List.append_assoc, ← hsplit, hsource]
  obtain ⟨s, hs, hchars⟩ := exists_cut? (hbehind.trans (List.append_assoc ..)) rfl rfl
  obtain ⟨as, here, has, hbody, hwritten⟩ := bodyReads hbehind
  rw [startTagAt?, byteLength_add_one (c := '<') (by decide), seek_eq hb hsource, runTo_leaves, hs,
    Option.bind_eq_bind, Option.bind_some, has, startTag]
  refine ⟨s, as, here, ?_, ?_, hchars, hwritten⟩
  · simp only [Option.map_some, List.append_assoc, List.cons_append, List.nil_append]
  · rw [List.append_assoc, ← hbody, ← hsplit]

end LiveMarkup.Markup
