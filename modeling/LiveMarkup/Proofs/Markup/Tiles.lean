import LiveMarkup.Proofs.Markup.Tags

/-!
Markup is used up round by round. What each round of the scanner takes is not empty, the rounds make up the
whole text, and what is cut out of a round stands in it in order.
-/

namespace LiveMarkup.Markup

open LiveMarkup.Text

variable {source pre cs : List Char} {c : Char}

def Row.Stands (r : Row source) (here rest : List Char) : Prop :=
  match r.item? with
  | none => ['<', '!'] <+: here ∨ ['<', '?'] <+: here ∨ ['<', '/'] <+: here
  | some (.text s) =>
    s.start = r.start ∧ s.stop = r.stop ∧ s.chars = here ∧ EndsText rest ∧
      ∀ before tail, here = before ++ tail → tail ≠ [] → opensMarkup (tail ++ rest) = false
  | some (.start name attributes selfClosing) =>
    (∃ c tail, here = '<' :: c :: tail ∧ c.isAlpha = true) ∧
      InOrder r.start (CutItem.start name attributes selfClosing).slices r.stop
  | some (.stop name) => ['<', '/'] <+: here ∧ InOrder r.start [name] r.stop
  | some (.comment body) => commentStart <+: here ∧ InOrder r.start [body] r.stop

def RoundReads (source pre cs : List Char) (read : Option Item × List Char) : Prop :=
  ∃ item? here, roundAt? source (byteLength pre) = some (item?, byteLength (pre ++ here)) ∧
    cs = here ++ read.2 ∧ item?.map CutItem.item = read.1 ∧
    Row.Stands ⟨byteLength pre, byteLength (pre ++ here), item?⟩ here read.2

theorem endsText_splitMarkup (cs : List Char) : EndsText (splitMarkup cs).2 := by
  induction cs with
  | nil => exact .inl rfl
  | cons c cs ih =>
    rw [splitMarkup]
    split
    · next hopens => exact .inr hopens
    · exact ih

theorem not_opensMarkup_of_splitMarkup {before tail : List Char}
    (h : (splitMarkup cs).1 = before ++ tail) (hne : tail ≠ []) :
    opensMarkup (tail ++ (splitMarkup cs).2) = false := by
  induction cs generalizing before with
  | nil => exact absurd (List.append_eq_nil_iff.1 h.symm).2 hne
  | cons c cs ih =>
    rw [splitMarkup] at h ⊢
    split at h
    · exact absurd (List.append_eq_nil_iff.1 h.symm).2 hne
    · next hopens =>
      rw [if_neg hopens]
      cases before with
      | nil =>
        have htail : tail ++ (splitMarkup cs).2 = c :: cs := by
          rw [← List.nil_append tail, ← h]
          exact congrArg (c :: ·) (splitMarkup_append cs)
        exact htail ▸ Bool.eq_false_iff.2 hopens
      | cons d before => exact ih (List.cons.inj h).2

theorem opensMarkup_units (h : source = pre ++ c :: cs) :
    opensMarkup ((units source).drop (byteLength pre)) = opensMarkup (c :: cs) := by
  rw [drop_units h, bytewise_opensMarkup.units]

theorem roundReads_text (h : source = pre ++ c :: cs) (hopens : opensMarkup (c :: cs) = false) :
    RoundReads source pre (c :: cs)
      (some (.text (String.ofList (c :: (splitMarkup cs).1))), (splitMarkup cs).2) := by
  have hsplit : c :: cs = c :: (splitMarkup cs).1 ++ (splitMarkup cs).2 :=
    congrArg (c :: ·) (splitMarkup_append cs).symm
  have hstop : seek opensMarkup source (byteLength pre + 1) =
      byteLength (pre ++ c :: (splitMarkup cs).1) := by
    rw [seek_succ bytewise_opensMarkup (fun _ _ hd => opensMarkup_of_wide hd _) h, runTo_opensMarkup]
  obtain ⟨s, hs, hchars⟩ := exists_cut? (h.trans (congrArg (pre ++ ·) hsplit)) rfl rfl
  have hbounds := bounds_of_cut? hs
  refine ⟨some (.text s), c :: (splitMarkup cs).1, ?_, hsplit, ?_, hbounds.1, hbounds.2.1, hchars,
    endsText_splitMarkup cs, fun before tail heq hne => ?_⟩
  · rw [roundAt?, opensMarkup_units h, hopens, if_neg Bool.false_ne_true, textAt?, hstop, hs]
    rfl
  · simp only [Option.map_some, CutItem.item, hchars]
  · cases before with
    | nil =>
      have htail : tail ++ (splitMarkup cs).2 = c :: cs := by
        rw [← List.nil_append tail, ← heq, ← hsplit]
      rw [htail, hopens]
    | cons d before => exact not_opensMarkup_of_splitMarkup (List.cons.inj heq).2 hne

section Opened

variable (h : source = pre ++ '<' :: c :: cs)

include h

theorem unit?_opened {d : Char} (hd : d.toNat < 128) :
    unit? source (byteLength pre + 1) = some d ↔ c = d := by
  rw [byteLength_add_one (c := '<') (by decide),
    unit?_eq_some (h.trans (List.append_cons ..)) hd]
  exact Option.some_inj

theorem findClose_eq (hc : c ≠ '>') :
    findFrom? ['>'] source (byteLength pre) =
      (splitFirst '>' cs).map fun p => byteLength (pre ++ '<' :: c :: p.1) := by
  rw [findFrom?_eq _ h, splitText_singleton, splitFirst, if_neg (by decide), splitFirst, if_neg hc,
    Option.map_map, Option.map_map]
  rfl

theorem declarationEnd_eq (hc : c ≠ '>') :
    ∃ here, declarationEnd source (byteLength pre) = byteLength (pre ++ '<' :: c :: here) ∧
      cs = here ++ declaration cs := by
  rw [declarationEnd, findClose_eq h hc, declaration]
  cases hsplit : splitFirst '>' cs with
  | none => exact ⟨cs, congrArg byteLength h, (List.append_nil cs).symm⟩
  | some p =>
    obtain ⟨before, after⟩ := p
    obtain ⟨rfl, -⟩ := splitFirst_eq_some hsplit
    refine ⟨before ++ ['>'], ?_, List.append_cons ..⟩
    simp only [Option.map_some, Option.getD_some]
    rw [byteLength_add_one (c := '>') (by decide), List.append_assoc]
    rfl

theorem roundAt?_opened (hc : isOpener c = true) :
    roundAt? source (byteLength pre) =
      if c = '!' then
        if (behind? commentStart ('<' :: c :: cs)).isSome then
          (commentAt? source (byteLength pre)).map fun p => (some p.1, p.2)
        else some (none, declarationEnd source (byteLength pre))
      else if c = '?' then some (none, declarationEnd source (byteLength pre))
      else if c = '/' then endTagAt? source (byteLength pre)
      else (startTagAt? source (byteLength pre)).map fun p => (some p.1, p.2) := by
  have hopens : opensMarkup ('<' :: c :: cs) = true := hc
  have hdrop : dropBytes? (byteLength pre) source = some ('<' :: c :: cs) :=
    dropBytes?_eq_some.2 ⟨pre, h, rfl⟩
  simp only [roundAt?, opensMarkup_units h, hopens, if_true, unit?_opened h (d := '!') (by decide),
    unit?_opened h (d := '?') (by decide), unit?_opened h (d := '/') (by decide), hdrop,
    Option.bind_eq_bind, Option.bind_some]

theorem roundReads_declaration (hc : c = '?' ∨ c = '!' ∧ ∀ rest, cs ≠ '-' :: '-' :: rest) :
    RoundReads source pre ('<' :: c :: cs) (none, declaration cs) := by
  have hclose : c ≠ '>' := by rcases hc with rfl | ⟨rfl, -⟩ <;> decide
  have hopener : isOpener c = true := by rcases hc with rfl | ⟨rfl, -⟩ <;> rfl
  obtain ⟨here, hend, hsplit⟩ := declarationEnd_eq h hclose
  refine ⟨none, '<' :: c :: here, ?_, congrArg ('<' :: c :: ·) hsplit, rfl, ?_⟩
  · rw [roundAt?_opened h hopener, hend]
    rcases hc with rfl | ⟨rfl, hcomment⟩
    · rfl
    · have hnot : behind? commentStart ('<' :: '!' :: cs) = none := by
        refine Option.eq_none_iff_forall_ne_some.2 fun rest hrest => ?_
        have hstart := behind?_eq_some.1 hrest
        exact hcomment rest (List.cons.inj (List.cons.inj hstart).2).2
      rw [if_pos rfl, hnot]
      rfl
  · rcases hc with rfl | ⟨rfl, -⟩
    · exact .inr (.inl ⟨here, rfl⟩)
    · exact .inl ⟨here, rfl⟩

end Opened

theorem commentAt?_eq (h : source = pre ++ commentStart ++ cs) :
    ∃ s here, commentAt? source (byteLength pre) =
        some (.comment s, byteLength (pre ++ commentStart ++ here)) ∧
      cs = here ++ (comment cs).2 ∧ Item.comment (String.ofList s.chars) = (comment cs).1 := by
  rw [commentAt?, ← byteLength_append, findFrom?_eq _ h, comment]
  cases hsplit : splitText commentEnd cs with
  | none =>
    have hwhole : source = pre ++ commentStart ++ (cs ++ []) := by rw [List.append_nil, ← h]
    obtain ⟨s, hs, hchars⟩ := exists_cut? hwhole rfl (congrArg byteLength h)
    refine ⟨s, cs, ?_, by simp, by rw [hchars]; rfl⟩
    simp only [Option.map_none, hs, Option.map_some, ← h]
  | some p =>
    obtain ⟨body, rest⟩ := p
    obtain rfl := splitText_eq_some hsplit
    obtain ⟨s, hs, hchars⟩ := exists_cut? (h.trans (congrArg (_ ++ ·) (List.append_assoc ..))) rfl rfl
    refine ⟨s, body ++ commentEnd, ?_, by simp, by rw [hchars]; rfl⟩
    simp only [Option.map_some, hs]
    rw [← byteLength_append, List.append_assoc _ body]

theorem roundReads_comment (h : source = pre ++ (commentStart ++ cs)) :
    RoundReads source pre (commentStart ++ cs) (some (comment cs).1, (comment cs).2) := by
  obtain ⟨s, here, hcomment, hsplit, hitem⟩ := commentAt?_eq (h.trans (List.append_assoc ..).symm)
  have hstart : behind? commentStart (commentStart ++ cs) = some cs := behind?_eq_some.2 rfl
  have hlt : byteLength pre < byteLength source :=
    h ▸ byteLength_lt_append pre (List.cons_ne_nil '<' _)
  rw [List.append_assoc] at hcomment
  refine ⟨some (.comment s), commentStart ++ here, ?_, ?_, congrArg some hitem, ⟨here, rfl⟩,
    (commentAt?_inOrder hlt hcomment).2⟩
  · have hopened : source = pre ++ '<' :: '!' :: ('-' :: '-' :: cs) := h
    rw [roundAt?_opened hopened rfl, if_pos rfl, if_pos, hcomment]
    · rfl
    · exact Option.isSome_iff_exists.2 ⟨cs, hstart⟩
  · rw [List.append_assoc, ← hsplit]

section EndTag

theorem takeWhile_isSpace_inner (inner rest : List Char) :
    (inner ++ '>' :: rest).takeWhile isSpace = inner.takeWhile isSpace := by
  induction inner with
  | nil => rfl
  | cons c inner ih =>
    rw [List.cons_append, List.takeWhile_cons, List.takeWhile_cons, ih]

theorem dropWhile_isSpace_inner (inner rest : List Char) :
    (inner ++ '>' :: rest).dropWhile isSpace = inner.dropWhile isSpace ++ '>' :: rest := by
  induction inner with
  | nil => rfl
  | cons c inner ih =>
    rw [List.cons_append, List.dropWhile_cons, List.dropWhile_cons, ih]
    split <;> rfl

theorem takeWhile_name_inner {inner : List Char} (h : '>' ∉ inner) (rest : List Char) :
    (inner ++ '>' :: rest).takeWhile (fun c => c != '>' && !isSpace c) =
      inner.takeWhile (!isSpace ·) := by
  induction inner with
  | nil => rfl
  | cons c inner ih =>
    obtain ⟨hne, hmem⟩ := List.ne_and_not_mem_of_not_mem_cons h
    have hc : (c != '>') = true := bne_iff_ne.2 hne.symm
    rw [List.cons_append, List.takeWhile_cons, List.takeWhile_cons, ih hmem, hc, Bool.true_and]

theorem endName_eq {inner rest : List Char} (hinner : '>' ∉ inner)
    (h : source = pre ++ (inner ++ '>' :: rest)) :
    afterSpaces source (byteLength pre) = byteLength (pre ++ inner.takeWhile isSpace) ∧
      seek (leaves fun c => c != '>' && !isSpace c) source (byteLength (pre ++ inner.takeWhile isSpace)) =
        byteLength (pre ++ inner.takeWhile isSpace ++ (inner.dropWhile isSpace).takeWhile (!isSpace ·)) := by
  have hb : Bytewise (leaves fun c => c != '>' && !isSpace c) := bytewise_leaves fun c d hc hd => by
    simp (disch := decide) only [bne, beq_of_wide hc, beq_of_wide hd, isSpace_of_wide hc,
      isSpace_of_wide hd]
  have hmem : '>' ∉ inner.dropWhile isSpace := fun hmem =>
    hinner ((List.dropWhile_sublist isSpace).mem hmem)
  obtain ⟨hafter, hbehind⟩ := afterSpaces_eq h
  rw [takeWhile_isSpace_inner, dropWhile_isSpace_inner] at hbehind
  rw [takeWhile_isSpace_inner] at hafter
  refine ⟨hafter, ?_⟩
  rw [seek_eq hb hbehind, runTo_leaves, takeWhile_name_inner hmem]

theorem endTagAt?_closed {inner rest : List Char} (hinner : '>' ∉ inner)
    (h : source = pre ++ '<' :: '/' :: (inner ++ '>' :: rest)) :
    endTagAt? source (byteLength pre) =
      if (inner.dropWhile isSpace).takeWhile (!isSpace ·) = [] then
        some (none, byteLength (pre ++ '<' :: '/' :: (inner ++ ['>'])))
      else
        (cut? source (byteLength (pre ++ ['<', '/'] ++ inner.takeWhile isSpace))
          (byteLength (pre ++ ['<', '/'] ++ inner.takeWhile isSpace ++
            (inner.dropWhile isSpace).takeWhile (!isSpace ·)))).map fun s =>
          (some (.stop s), byteLength (pre ++ '<' :: '/' :: (inner ++ ['>']))) := by
  have hsource : source = pre ++ ['<', '/'] ++ (inner ++ '>' :: rest) := by
    rw [h, List.append_assoc]
    rfl
  have htwo : byteLength pre + 2 = byteLength (pre ++ ['<', '/']) := by
    rw [byteLength_append]
    rfl
  have hend : byteLength (pre ++ '<' :: '/' :: inner) + 1 =
      byteLength (pre ++ '<' :: '/' :: (inner ++ ['>'])) := by
    rw [byteLength_add_one (c := '>') (by decide), List.append_assoc]
    rfl
  obtain ⟨hstart, hstop⟩ := endName_eq hinner hsource
  rw [endTagAt?, findClose_eq h (by decide), splitFirst_append rest hinner]
  simp only [Option.map_some, htwo, hstart, hstop, hend]
  generalize (inner.dropWhile isSpace).takeWhile (!isSpace ·) = name
  by_cases hname : name = []
  · subst hname
    rw [List.append_nil, if_neg (Nat.lt_irrefl _), if_pos rfl]
  · rw [if_neg hname, if_pos]
    exact byteLength_lt_append _ hname

theorem roundReads_endTag (h : source = pre ++ '<' :: '/' :: cs) :
    RoundReads source pre ('<' :: '/' :: cs) (endTag cs) := by
  rw [RoundReads, roundAt?_opened h rfl, if_neg (by decide), if_neg (by decide), if_pos rfl, endTag]
  cases hclose : splitFirst '>' cs with
  | none =>
    rw [endTagAt?, findClose_eq h (by decide), hclose]
    refine ⟨none, '<' :: '/' :: cs, ?_, (List.append_nil _).symm, rfl, .inr (.inr ⟨cs, rfl⟩)⟩
    simp only [Option.map_none, ← h]
  | some p =>
    obtain ⟨inner, rest⟩ := p
    obtain ⟨rfl, hinner⟩ := splitFirst_eq_some hclose
    have hsplit : '<' :: '/' :: (inner ++ '>' :: rest) = '<' :: '/' :: (inner ++ ['>']) ++ rest := by
      simp
    have hbegin : ['<', '/'] <+: '<' :: '/' :: (inner ++ ['>']) := ⟨inner ++ ['>'], rfl⟩
    have hparts : inner = inner.takeWhile isSpace ++ ((inner.dropWhile isSpace).takeWhile (!isSpace ·) ++
        (inner.dropWhile isSpace).dropWhile (!isSpace ·)) := by
      rw [List.takeWhile_append_dropWhile, List.takeWhile_append_dropWhile]
    rw [endTagAt?_closed hinner h]
    dsimp only
    generalize inner.takeWhile isSpace = spaces at *
    generalize (inner.dropWhile isSpace).takeWhile (!isSpace ·) = name at *
    generalize (inner.dropWhile isSpace).dropWhile (!isSpace ·) = more at *
    by_cases hname : name = []
    · subst hname
      exact ⟨none, _, rfl, hsplit, rfl, .inr (.inr hbegin)⟩
    · have hcut : source = pre ++ ['<', '/'] ++ spaces ++ (name ++ (more ++ '>' :: rest)) := by
        rw [h, hparts]
        simp only [List.append_assoc, List.cons_append, List.nil_append]
      obtain ⟨s, hs, hchars⟩ := exists_cut? hcut rfl rfl
      have hbounds := bounds_of_cut? hs
      rw [if_neg hname, hs]
      refine ⟨some (.stop s), _, rfl, hsplit, ?_, hbegin, ?_⟩
      · simp only [Option.map_some, CutItem.item, hchars, List.isEmpty_iff, if_neg hname]
      · simp only [InOrder]
        rw [hbounds.1, hbounds.2.1, hparts]
        simp only [byteLength_append, byteLength]
        omega

end EndTag

theorem roundReads_startTag (h : source = pre ++ '<' :: c :: cs) (hc : c.isAlpha = true) :
    RoundReads source pre ('<' :: c :: cs) (some (startTag (c :: cs)).1, (startTag (c :: cs)).2) := by
  have hopener : isOpener c = true := by simp [isOpener, hc]
  have hne (d : Char) (hd : d.isAlpha = false) : c ≠ d := by
    rintro rfl
    rw [hc] at hd
    cases hd
  obtain ⟨name, attributes, here, htag, hsplit, hchars, hwritten⟩ := startTagAt?_eq h
  have hname : (c :: cs).takeWhile isNameChar = c :: cs.takeWhile isNameChar := by
    rw [List.takeWhile_cons, if_pos (isNameChar_of_isAlpha hc)]
  refine ⟨some (.start name attributes _), _, ?_, congrArg ('<' :: ·) hsplit, ?_,
    ⟨c, cs.takeWhile isNameChar ++ here, by rw [hname, List.cons_append], hc⟩,
    (startTagAt?_inOrder htag).2⟩
  · rw [roundAt?_opened h hopener, if_neg (hne '!' rfl), if_neg (hne '?' rfl), if_neg (hne '/' rfl), htag]
    rfl
  · simp only [Option.map_some, CutItem.item, hchars, hwritten, startTag]

theorem roundReads_next (h : source = pre ++ c :: cs) : RoundReads source pre (c :: cs) (next c cs) := by
  have hopening {cs : List Char} (hopens : opensMarkup (c :: cs) = true) :
      c = '<' ∧ ∃ d rest, cs = d :: rest ∧ isOpener d = true := by
    obtain ⟨d, rest, heq, hd⟩ := opensMarkup_iff.1 hopens
    cases heq
    exact ⟨rfl, d, rest, rfl, hd⟩
  fun_cases next c cs with
  | case1 rest item after hcomment hopens =>
    obtain ⟨rfl, -⟩ := hopening hopens
    have hreads := roundReads_comment h
    rwa [hcomment] at hreads
  | case2 rest hcomment hopens =>
    obtain ⟨rfl, -⟩ := hopening hopens
    exact roundReads_declaration h (.inr ⟨rfl, hcomment⟩)
  | case3 rest hopens =>
    obtain ⟨rfl, -⟩ := hopening hopens
    exact roundReads_declaration h (.inl rfl)
  | case4 rest hopens =>
    obtain ⟨rfl, -⟩ := hopening hopens
    exact roundReads_endTag h
  | case5 cs hcomment hbang hquestion hslash item after htag hopens =>
    obtain ⟨rfl, d, rest, rfl, hd⟩ := hopening hopens
    -- The patterns before this one leave only a letter.
    have halpha : d.isAlpha = true := by
      simp only [isOpener, Bool.or_eq_true, beq_iff_eq] at hd
      rcases hd with ((rfl | rfl) | rfl) | hd
      · exact absurd rfl (hbang rest)
      · exact absurd rfl (hquestion rest)
      · exact absurd rfl (hslash rest)
      · exact hd
    have hreads := roundReads_startTag h halpha
    rwa [htag] at hreads
  | case6 cs hopens before after hsplit =>
    have hreads := roundReads_text h (Bool.eq_false_iff.2 hopens)
    rwa [hsplit] at hreads

def Consecutive : Nat → List (Row source) → Nat → Prop
  | start, [], stop => start = stop
  | start, r :: rs, stop => r.start = start ∧ start < r.stop ∧ Consecutive r.stop rs stop

structure Tiles (source : List Char) (rows : List (Row source)) : Prop where
  consecutive : Consecutive 0 rows (byteLength source)
  stands : ∀ r ∈ rows, ∃ before here rest, source = before ++ here ++ rest ∧
    r.start = byteLength before ∧ r.stop = byteLength (before ++ here) ∧ r.Stands here rest

theorem rowsFrom?_round {item? : Option (CutItem source)} {n stop : Nat} (hn : n < byteLength source)
    (h : roundAt? source n = some (item?, stop)) :
    rowsFrom? source n = (rowsFrom? source stop).map (⟨n, stop, item?⟩ :: ·) := by
  rw [rowsFrom?, dif_pos hn]
  split
  · next hnone => cases h.symm.trans hnone
  · next hsome =>
    cases h.symm.trans hsome
    rfl

theorem rowsFrom?_eq (h : source = pre ++ cs) :
    ∃ rows, rowsFrom? source (byteLength pre) = some rows ∧
      Consecutive (byteLength pre) rows (byteLength source) ∧
      rows.filterMap (fun r => r.item?.map CutItem.item) = items cs ∧
      ∀ r ∈ rows, ∃ before here rest, source = before ++ here ++ rest ∧
        r.start = byteLength before ∧ r.stop = byteLength (before ++ here) ∧ r.Stands here rest := by
  -- A round takes any number of characters, so the induction is on how many are left.
  induction hn : cs.length using Nat.strongRecOn generalizing pre cs with
  | ind n ih =>
    cases cs with
    | nil =>
      have hend : byteLength source = byteLength pre := by rw [h, List.append_nil]
      rw [rowsFrom?, dif_neg (by omega), items]
      exact ⟨[], rfl, hend.symm, rfl, fun _ hr => absurd hr List.not_mem_nil⟩
    | cons c cs =>
      have hlt : byteLength pre < byteLength source :=
        h ▸ byteLength_lt_append pre (List.cons_ne_nil c cs)
      obtain ⟨item?, here, hround, hsplit, hitem, hstands⟩ := roundReads_next h
      have hsource : source = pre ++ here ++ (next c cs).2 := by rw [h, hsplit, List.append_assoc]
      have hlength := next_length c cs
      rw [List.length_cons] at hn
      obtain ⟨rows, hrows, hconsecutive, hitems, hall⟩ :=
        ih (next c cs).2.length (by omega) hsource rfl
      rw [rowsFrom?_round hlt hround, hrows]
      refine ⟨_, rfl, ⟨rfl, lt_of_roundAt? hlt hround, hconsecutive⟩, ?_, fun r hr => ?_⟩
      · rw [items_cons, ← hitems, ← hitem]
        cases item? <;> rfl
      · rcases List.mem_cons.1 hr with rfl | hr
        · exact ⟨pre, here, _, hsource, rfl, rfl, hstands⟩
        · exact hall r hr

/-- No cut of the scanner by byte offsets fails. Its rounds tile the text, and what they cut out are the
items. -/
theorem scan_tiles (source : String) :
    ∃ rows, rowsFrom? source.toList 0 = some rows ∧ Tiles source.toList rows ∧
      rows.filterMap (fun r => r.item?.map CutItem.item) = scan source := by
  have hstart : source.toList = [] ++ source.toList := rfl
  obtain ⟨rows, hrows, hconsecutive, hitems, hstands⟩ := rowsFrom?_eq hstart
  exact ⟨rows, hrows, ⟨hconsecutive, hstands⟩, hitems⟩

end LiveMarkup.Markup
