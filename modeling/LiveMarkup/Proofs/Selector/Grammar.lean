import LiveMarkup.Proofs.Selector.Conjunction

/-!
The grammar of selectors. A text is read exactly when it is a row of parts, what is read keeps the tag name
and all classes, and every selector made of names is read back from the way it is written.
-/

namespace LiveMarkup.Selector

open LiveMarkup.Text

variable {s : Selector} {p : Simple} {ps : List Simple}

theorem classes_ofSimple (ps : List Simple) : (ofSimple ps).classes = names .classed ps :=
  classes_foldl ps _

theorem id_ofSimple (ps : List Simple) : (ofSimple ps).id = (names .id ps).getLast? := by
  rw [ofSimple, id_foldl, Option.or_none]

theorem names_eq_nil {k : Kind} (h : ∀ p ∈ ps, p.kind ≠ k) : names k ps = [] := by
  rw [names, List.filter_eq_nil_iff.2 fun p hp hk => h p hp (beq_iff_eq.1 hk)]
  rfl

theorem tag_eq_head? (h : Row ps) :
    (ofSimple ps).tag = (names .tag ps).head?.map String.asciiLower := by
  cases ps with
  | nil => rfl
  | cons p ps =>
    have hm : ∀ q ∈ ps, q.kind ≠ .tag := h.marked
    have hrest := names_eq_nil hm
    obtain ⟨k, name⟩ := p
    rw [ofSimple, List.foldl_cons, tag_foldl hm]
    cases k with
    | tag => rfl
    | id =>
      have hnames : names .tag (⟨.id, name⟩ :: ps) = names .tag ps := rfl
      rw [hnames, hrest]
      rfl
    | classed =>
      have hnames : names .tag (⟨.classed, name⟩ :: ps) = names .tag ps := rfl
      rw [hnames, hrest]
      rfl

theorem ofSimple_eq (h : Row ps) :
    ofSimple ps = ⟨(names .tag ps).head?.map String.asciiLower, (names .id ps).getLast?,
      names .classed ps⟩ := by
  rw [← tag_eq_head? h, ← id_ofSimple, ← classes_ofSimple]

def simples (s : Selector) : List Simple :=
  s.tag.toList.map (Simple.mk .tag) ++ s.id.toList.map (Simple.mk .id) ++
    s.classes.map (Simple.mk .classed)

def print (s : Selector) : String :=
  s.tag.getD "" ++ (s.id.map ("#" ++ ·)).getD "" ++ String.join (s.classes.map ("." ++ ·))

structure Writable (s : Selector) : Prop where
  ne : s.simples ≠ []
  named : ∀ p ∈ s.simples, p.Named
  lower : ∀ tag ∈ s.tag, tag.asciiLower = tag

instance (s : Selector) : Decidable s.Writable :=
  decidable_of_iff (s.simples ≠ [] ∧ (∀ p ∈ s.simples, p.Named) ∧ ∀ tag ∈ s.tag, tag.asciiLower = tag)
    ⟨fun h => ⟨h.1, h.2.1, h.2.2⟩, fun h => ⟨h.ne, h.named, h.lower⟩⟩

theorem toList_join_classes (classes : List String) :
    (String.join (classes.map ("." ++ ·))).toList =
      (classes.map (Simple.mk .classed)).flatMap Simple.text := by
  induction classes with
  | nil => rfl
  | cons name classes ih =>
    rw [List.map_cons, String.join_cons, String.toList_append, String.toList_append, ih]
    rfl

theorem toList_print (s : Selector) : s.print.toList = s.simples.flatMap Simple.text := by
  obtain ⟨tag, id, classes⟩ := s
  rw [print, simples, String.toList_append, String.toList_append, List.flatMap_append,
    List.flatMap_append, toList_join_classes]
  congr 1
  congr 1
  · cases tag with
    | none => rfl
    | some tag => exact (List.append_nil _).symm
  · cases id with
    | none => rfl
    | some id => simp [Simple.text, Kind.marker]

theorem ofSimple_simples (h : ∀ tag ∈ s.tag, tag.asciiLower = tag) : ofSimple s.simples = s := by
  have collect (classes : List String) (s : Selector) :
      (classes.map (Simple.mk .classed)).foldl Simple.addTo s =
        { s with classes := s.classes ++ classes } := by
    induction classes generalizing s with
    | nil => simp
    | cons name classes ih =>
      rw [List.map_cons, List.foldl_cons, ih]
      simp [Simple.addTo]
  obtain ⟨tag, id, classes⟩ := s
  rw [ofSimple, simples, List.foldl_append, collect]
  cases tag with
  | none => cases id <;> rfl
  | some tag =>
    have htag : tag.asciiLower = tag := h tag rfl
    cases id <;> simp [Simple.addTo, htag]

theorem row_simples (h : ∀ p ∈ s.simples, p.Named) : Row s.simples := by
  refine ⟨h, fun p hp hk => ?_⟩
  obtain ⟨tag, id, classes⟩ := s
  have hmarked (tag : Option String) (hp : p ∈ id.toList.map (Simple.mk .id) ++
      classes.map (Simple.mk .classed)) : False := by
    rcases List.mem_append.1 hp with hp | hp
    · obtain ⟨_, _, rfl⟩ := List.mem_map.1 hp
      cases hk
    · obtain ⟨_, _, rfl⟩ := List.mem_map.1 hp
      cases hk
  cases tag with
  | none => exact hmarked none (List.mem_of_mem_tail hp)
  | some tag => exact hmarked (some tag) hp

theorem not_isBlank_of_isNameChar {c : Char} (h : isNameChar c = true) : isBlank c = false := by
  rw [isNameChar, Bool.or_eq_true] at h
  rcases h with h | h
  · exact not_isBlank_of_isWordChar h
  · rw [beq_iff_eq.1 h]
    decide

theorem Simple.Named.not_isBlank (h : p.Named) {c : Char} (hc : c ∈ p.text) : isBlank c = false := by
  obtain ⟨k, name⟩ := p
  rcases List.mem_append.1 hc with hc | hc
  · cases k with
    | tag => cases hc
    | id =>
      rw [List.mem_singleton.1 hc]
      decide
    | classed =>
      rw [List.mem_singleton.1 hc]
      decide
  · exact not_isBlank_of_isNameChar (h.chars c hc)

theorem trimmed_row (h : ∀ p ∈ ps, p.Named) : Trimmed (ps.flatMap Simple.text) := by
  have hblank (c : Char) (hc : c ∈ ps.flatMap Simple.text) : isBlank c = false := by
    obtain ⟨p, hp, hc⟩ := List.mem_flatMap.1 hc
    exact (h p hp).not_isBlank hc
  exact ⟨fun c hc => hblank c (List.mem_of_mem_head? hc), fun c hc => hblank c (List.mem_of_getLast? hc)⟩

theorem Writable.written (h : s.Writable) : Written s.print s.simples where
  text := by
    have htrim := trim_padded (List.forall_mem_nil (isBlank · = true)) (trimmed_row h.named)
      (List.forall_mem_nil (isBlank · = true))
    rw [List.nil_append, List.append_nil] at htrim
    rw [toList_print, htrim]
  ne := h.ne
  row := row_simples h.named

/-- The texts that are read are the rows of parts, one row for a text; the tag name is read in lower case and the
classes as they stand. What is written out of a selector is read as that selector. -/
theorem parse?_grammar :
    (∀ source, (parse? source).isSome ↔ ∃ ps, Written source ps) ∧
      (∀ source ps, Written source ps → ∀ qs, Written source qs → qs = ps) ∧
      (∀ source ps, Written source ps → parse? source =
        some ⟨(names .tag ps).head?.map String.asciiLower, (names .id ps).getLast?,
          names .classed ps⟩) ∧
      ∀ s : Selector, s.Writable → parse? s.print = some s := by
  refine ⟨fun source => ⟨fun h => ?_, ?_⟩, fun source ps h qs => h.unique, fun source ps h => ?_,
    fun s h => ?_⟩
  · obtain ⟨s, hs⟩ := Option.isSome_iff_exists.1 h
    obtain ⟨ps, hwritten, -⟩ := written_of_parse? hs
    exact ⟨ps, hwritten⟩
  · rintro ⟨ps, hwritten⟩
    rw [parse?_of_written hwritten]
    rfl
  · rw [parse?_of_written h, ofSimple_eq h.row]
  · rw [parse?_of_written h.written, ofSimple_simples h.lower]

theorem parse?_grammar_nav :
    Written " NAV.wide#a#top.wide " [⟨.tag, "NAV"⟩, ⟨.classed, "wide"⟩, ⟨.id, "a"⟩, ⟨.id, "top"⟩,
        ⟨.classed, "wide"⟩] ∧
      parse? " NAV.wide#a#top.wide " = some ⟨some "nav", some "top", ["wide", "wide"]⟩ ∧
      (Selector.mk (some "nav") (some "top") ["wide", "wide"]).Writable ∧
      parse? (Selector.mk (some "nav") (some "top") ["wide", "wide"]).print =
        some ⟨some "nav", some "top", ["wide", "wide"]⟩ := by
  obtain ⟨-, -, hread, hback⟩ := parse?_grammar
  have hwritten : Written " NAV.wide#a#top.wide " [⟨.tag, "NAV"⟩, ⟨.classed, "wide"⟩, ⟨.id, "a"⟩,
      ⟨.id, "top"⟩, ⟨.classed, "wide"⟩] := by decide +kernel
  have hwritable : (Selector.mk (some "nav") (some "top") ["wide", "wide"]).Writable := by
    decide +kernel
  refine ⟨hwritten, (hread _ _ hwritten).trans ?_, hwritable, hback _ hwritable⟩
  decide +kernel

example : (Selector.mk (some "nav") (some "top") ["wide", "wide"]).print = "nav#top.wide.wide" := by
  decide +kernel

end LiveMarkup.Selector
