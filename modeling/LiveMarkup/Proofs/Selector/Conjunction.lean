import LiveMarkup.Proofs.Selector.Written

/-!
Which elements a selector accepts. An element has to satisfy the tag name, each class and the last
identifier that are written; the selector is the conjunction of its parts exactly when all identifiers
in it are one.
-/

namespace LiveMarkup.Selector

open LiveMarkup.Text

section Words

variable {cs name : List Char}

def EndsWord (cs : List Char) : Prop := ∀ c ∈ cs.head?, isSpace c = true

def Lists (list name : List Char) : Prop :=
  ∃ before after, list = before ++ name ++ after ∧ (∀ c ∈ before.getLast?, isSpace c = true) ∧
    EndsWord after

def pieces (cs : List Char) : List (List Char) :=
  cs.foldr (fun c pieces => if isSpace c then [] :: pieces else
    match pieces with
    | [] => [[c]]
    | piece :: pieces => (c :: piece) :: pieces) [[]]

theorem pieces_space {c : Char} (hc : isSpace c = true) (cs : List Char) :
    pieces (c :: cs) = [] :: pieces cs := by
  rw [pieces, List.foldr_cons, if_pos hc]
  rfl

theorem pieces_eq_cons (cs : List Char) :
    pieces cs = cs.takeWhile (!isSpace ·) :: (pieces cs).tail := by
  induction cs with
  | nil => rfl
  | cons c cs ih =>
    cases hc : isSpace c with
    | true =>
      rw [pieces_space hc, List.takeWhile_cons, hc]
      rfl
    | false =>
      have hpieces : pieces (c :: cs) =
          match pieces cs with
          | [] => [[c]]
          | piece :: rest => (c :: piece) :: rest := by
        rw [pieces, List.foldr_cons, hc]
        rfl
      rw [hpieces, ih, List.takeWhile_cons, hc]
      rfl

theorem tail_pieces_cons (c : Char) (cs : List Char) :
    (pieces (c :: cs)).tail = if isSpace c then pieces cs else (pieces cs).tail := by
  cases hc : isSpace c with
  | true =>
    rw [pieces_space hc]
    rfl
  | false =>
    rw [pieces, List.foldr_cons, hc]
    change (match pieces cs with | [] => [[c]] | piece :: rest => (c :: piece) :: rest).tail = _
    rw [pieces_eq_cons cs]
    rfl

variable (hname : ∀ c ∈ name, isSpace c = false)

include hname

theorem eq_takeWhile_iff :
    name = cs.takeWhile (!isSpace ·) ↔ ∃ after, cs = name ++ after ∧ EndsWord after := by
  constructor
  · rintro rfl
    refine ⟨cs.dropWhile (!isSpace ·), List.takeWhile_append_dropWhile.symm, fun c hc => ?_⟩
    exact Bool.not_eq_eq_eq_not.1 (head_dropWhile (!isSpace ·) cs c hc)
  · rintro ⟨after, rfl, hafter⟩
    refine (run_append (fun c hc => ?_) fun c hc => ?_).1.symm
    · rw [hname c hc, Bool.not_false]
    · rw [hafter c hc, Bool.not_true]

theorem mem_tail_pieces :
    name ∈ (pieces cs).tail ↔ ∃ before c after, cs = before ++ c :: (name ++ after) ∧
      isSpace c = true ∧ EndsWord after := by
  induction cs with
  | nil => simp [pieces]
  | cons d cs ih =>
    rw [tail_pieces_cons]
    constructor
    · intro h
      have later (h : name ∈ (pieces cs).tail) : ∃ before c after,
          d :: cs = before ++ c :: (name ++ after) ∧ isSpace c = true ∧ EndsWord after := by
        obtain ⟨before, c, after, rfl, hc, hafter⟩ := ih.1 h
        exact ⟨d :: before, c, after, rfl, hc, hafter⟩
      split at h
      · next hd =>
        rw [pieces_eq_cons] at h
        rcases List.mem_cons.1 h with h | h
        · obtain ⟨after, rfl, hafter⟩ := (eq_takeWhile_iff hname).1 h
          exact ⟨[], d, after, rfl, hd, hafter⟩
        · exact later h
      · exact later h
    · rintro ⟨before, c, after, heq, hc, hafter⟩
      cases before with
      | nil =>
        cases heq
        rw [if_pos hc, pieces_eq_cons]
        exact List.mem_cons.2 (.inl ((eq_takeWhile_iff hname).2 ⟨after, rfl, hafter⟩))
      | cons b before =>
        cases heq
        have hmem := ih.2 ⟨before, c, after, rfl, hc, hafter⟩
        split
        · exact List.mem_of_mem_tail hmem
        · exact hmem

theorem mem_pieces : name ∈ pieces cs ↔ Lists cs name := by
  rw [pieces_eq_cons, List.mem_cons, eq_takeWhile_iff hname, mem_tail_pieces hname]
  constructor
  · rintro (⟨after, rfl, hafter⟩ | ⟨before, c, after, rfl, hc, hafter⟩)
    · exact ⟨[], after, rfl, nofun, hafter⟩
    · refine ⟨before ++ [c], after, by simp, fun d hd => ?_, hafter⟩
      rw [List.getLast?_concat] at hd
      cases hd
      exact hc
  · rintro ⟨before, after, rfl, hbefore, hafter⟩
    rcases List.eq_nil_or_concat before with rfl | ⟨front, c, rfl⟩
    · exact .inl ⟨after, rfl, hafter⟩
    · rw [List.concat_eq_append] at hbefore ⊢
      exact .inr ⟨front, c, after, by simp, hbefore c List.getLast?_concat, hafter⟩

end Words

theorem not_isSpace_of_isNameChar {c : Char} (h : isNameChar c = true) : isSpace c = false := by
  rw [isNameChar, Bool.or_eq_true] at h
  rcases h with h | h
  · exact not_isSpace_of_isWordChar h
  · rw [beq_iff_eq.1 h]
    rfl

theorem hasClass_iff {list name : String} (hne : name.toList ≠ [])
    (hname : ∀ c ∈ name.toList, isNameChar c = true) :
    hasClass list name = true ↔ Lists list.toList name.toList := by
  have hspace (c : Char) (hc : c ∈ name.toList) : isSpace c = false :=
    not_isSpace_of_isNameChar (hname c hc)
  have hpieces : spaceSeparated list.toList = (pieces list.toList).filter (!·.isEmpty) := rfl
  rw [hasClass, List.contains_iff_mem, hpieces, List.mem_filter, mem_pieces hspace]
  exact and_iff_left (by simpa using hne)

variable {source : String} {s : Selector} {ps : List Simple}

def names (k : Kind) (ps : List Simple) : List String :=
  (ps.filter (·.kind == k)).map Simple.name

theorem mem_names {k : Kind} {name : String} : name ∈ names k ps ↔ ⟨k, name⟩ ∈ ps := by
  simp only [names, List.mem_map, List.mem_filter, beq_iff_eq]
  constructor
  · rintro ⟨p, ⟨hp, rfl⟩, rfl⟩
    exact hp
  · exact fun hp => ⟨_, ⟨hp, rfl⟩, rfl⟩

theorem classes_foldl (ps : List Simple) (s : Selector) :
    (ps.foldl Simple.addTo s).classes = s.classes ++ names .classed ps := by
  induction ps generalizing s with
  | nil => exact (List.append_nil _).symm
  | cons p ps ih =>
    obtain ⟨k, name⟩ := p
    rw [List.foldl_cons, ih]
    cases k with
    | tag => rfl
    | id => rfl
    | classed => exact List.append_assoc ..

theorem id_foldl (ps : List Simple) (s : Selector) :
    (ps.foldl Simple.addTo s).id = (names .id ps).getLast?.or s.id := by
  induction ps generalizing s with
  | nil => rfl
  | cons p ps ih =>
    obtain ⟨k, name⟩ := p
    rw [List.foldl_cons, ih]
    cases k with
    | tag => rfl
    | id =>
      have hnames : names .id (⟨.id, name⟩ :: ps) = name :: names .id ps := rfl
      rw [hnames, List.getLast?_cons]
      cases (names .id ps).getLast? <;> rfl
    | classed => rfl

theorem tag_foldl (hm : ∀ p ∈ ps, p.kind ≠ .tag) (s : Selector) :
    (ps.foldl Simple.addTo s).tag = s.tag := by
  induction ps generalizing s with
  | nil => rfl
  | cons p ps ih =>
    have hp := hm p (List.mem_cons_self ..)
    obtain ⟨k, name⟩ := p
    rw [List.foldl_cons, ih fun q hq => hm q (List.mem_cons_of_mem _ hq)]
    cases k with
    | tag => exact absurd rfl hp
    | id => rfl
    | classed => rfl

theorem tag_ofSimple (h : Row ps) {name : String} :
    (ofSimple ps).tag = some name ↔ ∃ tag, ⟨.tag, tag⟩ ∈ ps ∧ tag.asciiLower = name := by
  cases ps with
  | nil => simp [ofSimple]
  | cons p ps =>
    have hm : ∀ q ∈ ps, q.kind ≠ .tag := h.marked
    have hrest (tag : String) : ⟨.tag, tag⟩ ∉ ps := fun htag => hm _ htag rfl
    obtain ⟨k, n⟩ := p
    rw [ofSimple, List.foldl_cons, tag_foldl hm]
    cases k <;> simp [Simple.addTo, hrest]

theorem asciiLower_asciiLower (s : String) : s.asciiLower.asciiLower = s.asciiLower := by
  refine String.toList_inj.1 ?_
  have hchar (c : Char) : c.toLower.toLower = c.toLower := by
    unfold Char.toLower
    grind
  simp [String.asciiLower, hchar]

def Simple.Holds (tag : String) (id list : Option String) (p : Simple) : Prop :=
  match p.kind with
  | .tag => tag.asciiLower = p.name.asciiLower
  | .id => id = some p.name
  | .classed => ∃ l ∈ list, Lists l.toList p.name.toList

variable {tag : String} {id list : Option String}

theorem matchesTag_iff (h : Row ps) : (ofSimple ps).matchesTag tag = true ↔
    ∀ p ∈ ps, p.kind = .tag → p.Holds tag id list := by
  have htag := @tag_ofSimple ps h
  rw [matchesTag]
  cases ht : (ofSimple ps).tag with
  | none =>
    refine iff_of_true rfl fun p hp hk => ?_
    obtain ⟨k, name⟩ := p
    cases hk
    rw [htag.2 ⟨name, hp, rfl⟩] at ht
    cases ht
  | some expected =>
    obtain ⟨name, hmem, rfl⟩ := htag.1 ht
    rw [beq_iff_eq, asciiLower_asciiLower]
    refine ⟨fun heq p hp hk => ?_, fun hall => hall _ hmem rfl⟩
    obtain ⟨k, other⟩ := p
    cases hk
    have hsame := htag.2 ⟨other, hp, rfl⟩
    rw [ht] at hsame
    exact heq.trans (Option.some.inj hsame)

theorem matchesId_iff : (ofSimple ps).matchesId id = true ↔
    ∀ name ∈ (names .id ps).getLast?, id = some name := by
  have hid : (ofSimple ps).id = (names .id ps).getLast? := by
    rw [ofSimple, id_foldl, Option.or_none]
  rw [matchesId, hid]
  cases (names .id ps).getLast? with
  | none => exact iff_of_true rfl nofun
  | some name => simp

theorem matchesClasses_eq_true : s.matchesClasses list = true ↔
    ∀ name ∈ s.classes, ∃ l ∈ list, hasClass l name = true := by
  rw [matchesClasses, List.all_eq_true]
  cases list <;> simp

theorem matchesClasses_iff (h : Row ps) : (ofSimple ps).matchesClasses list = true ↔
    ∀ p ∈ ps, p.kind = .classed → p.Holds tag id list := by
  have hclasses : (ofSimple ps).classes = names .classed ps := classes_foldl ps _
  have hone {name l : String} (hmem : ⟨.classed, name⟩ ∈ ps) :
      hasClass l name = true ↔ Lists l.toList name.toList :=
    hasClass_iff (h.named _ hmem).ne (h.named _ hmem).chars
  rw [matchesClasses_eq_true, hclasses]
  constructor
  · intro hall p hp hk
    obtain ⟨k, name⟩ := p
    cases hk
    obtain ⟨l, hl, hclass⟩ := hall name (mem_names.2 hp)
    exact ⟨l, hl, (hone hp).1 hclass⟩
  · intro hall name hname
    obtain ⟨l, hl, hlists⟩ := hall _ (mem_names.1 hname) rfl
    exact ⟨l, hl, (hone (mem_names.1 hname)).2 hlists⟩

theorem accepts_ofSimple (h : Row ps) : (ofSimple ps).accepts tag id list = true ↔
    (∀ p ∈ ps, p.kind ≠ .id → p.Holds tag id list) ∧
      ∀ name ∈ (names .id ps).getLast?, id = some name := by
  rw [accepts, Bool.and_eq_true, Bool.and_eq_true, matchesTag_iff h, matchesId_iff,
    matchesClasses_iff h]
  constructor
  · rintro ⟨⟨htag, hid⟩, hclasses⟩
    refine ⟨fun p hp hk => ?_, hid⟩
    cases hkind : p.kind with
    | tag => exact htag p hp hkind
    | id => exact absurd hkind hk
    | classed => exact hclasses p hp hkind
  · rintro ⟨hothers, hid⟩
    exact ⟨⟨fun p hp hk => hothers p hp (hk ▸ nofun), hid⟩, fun p hp hk => hothers p hp (hk ▸ nofun)⟩

def classList (classes : List String) : String :=
  String.ofList (classes.flatMap fun name => ' ' :: name.toList)

theorem lists_classList {classes : List String} {name : String} (h : name ∈ classes) :
    Lists (classList classes).toList name.toList := by
  obtain ⟨before, after, rfl⟩ := List.append_of_mem h
  refine ⟨before.flatMap (fun name => ' ' :: name.toList) ++ [' '],
    after.flatMap fun name => ' ' :: name.toList, by simp [classList], fun c hc => ?_, ?_⟩
  · rw [List.getLast?_concat] at hc
    cases hc
    rfl
  · cases after with
    | nil => nofun
    | cons next after =>
      intro c hc
      cases hc
      rfl

theorem exists_accepted (h : Row ps) :
    ∃ tag list, (ofSimple ps).accepts tag (names .id ps).getLast? list = true := by
  obtain ⟨tag, htag⟩ : ∃ tag : String, ∀ p ∈ ps, p.kind = .tag → tag.asciiLower = p.name.asciiLower := by
    cases ps with
    | nil => exact ⟨"", nofun⟩
    | cons p ps =>
      refine ⟨p.name, fun q hq hk => ?_⟩
      rcases List.mem_cons.1 hq with rfl | hq
      · rfl
      · exact absurd hk (h.marked q hq)
  refine ⟨tag, some (classList (names .classed ps)), (accepts_ofSimple h).2 ⟨fun p hp hk => ?_, ?_⟩⟩
  · have htag := htag p hp
    obtain ⟨k, name⟩ := p
    cases k with
    | tag => exact htag rfl
    | id => exact absurd rfl hk
    | classed => exact ⟨_, rfl, lists_classList (mem_names.2 hp)⟩
  · exact fun name hname => hname

theorem all_hold_iff (hsame : ∀ p ∈ ps, ∀ q ∈ ps, p.kind = .id → q.kind = .id → p.name = q.name) :
    ((∀ p ∈ ps, p.kind ≠ .id → p.Holds tag id list) ∧
      ∀ name ∈ (names .id ps).getLast?, id = some name) ↔ ∀ p ∈ ps, p.Holds tag id list := by
  constructor
  · rintro ⟨hothers, hid⟩ p hp
    by_cases hk : p.kind = .id
    · obtain ⟨k, name⟩ := p
      cases hk
      have hname : name ∈ names .id ps := mem_names.2 hp
      obtain ⟨last, hlast⟩ : ∃ last, (names .id ps).getLast? = some last :=
        ⟨_, List.getLast?_eq_some_getLast (List.ne_nil_of_mem hname)⟩
      have hmem := mem_names.1 (List.mem_of_getLast? hlast)
      have heq : name = last := hsame _ hp _ hmem rfl rfl
      exact hid name (heq ▸ hlast)
    · exact hothers p hp hk
  · intro hholds
    refine ⟨fun p hp _ => hholds p hp, fun name hname => ?_⟩
    exact hholds _ (mem_names.1 (List.mem_of_getLast? hname))

/-- What is written decides: of the identifiers the last, of the other parts each. All parts are asked
for exactly when no two different identifiers are written. -/
theorem accepts_iff_conjunction (h : parse? source = some s) :
    ∃ ps, Written source ps ∧ (∀ qs, Written source qs → qs = ps) ∧
      (∀ tag id list, s.accepts tag id list = true ↔
        (∀ p ∈ ps, p.kind ≠ .id → p.Holds tag id list) ∧
          ∀ name ∈ (names .id ps).getLast?, id = some name) ∧
      ((∀ tag id list, s.accepts tag id list = true ↔ ∀ p ∈ ps, p.Holds tag id list) ↔
        ∀ p ∈ ps, ∀ q ∈ ps, p.kind = .id → q.kind = .id → p.name = q.name) := by
  obtain ⟨ps, hwritten, rfl⟩ := written_of_parse? h
  refine ⟨ps, hwritten, fun qs => hwritten.unique, fun _ _ _ => accepts_ofSimple hwritten.row,
    fun hall p hp q hq hpk hqk => ?_, fun hsame tag id list => ?_⟩
  · obtain ⟨tag, list, haccepts⟩ := exists_accepted hwritten.row
    have hholds := (hall _ _ _).1 haccepts
    have hp := hholds p hp
    have hq := hholds q hq
    rw [Simple.Holds, hpk] at hp
    rw [Simple.Holds, hqk] at hq
    exact Option.some.inj (hp.symm.trans hq)
  · rw [accepts_ofSimple hwritten.row]
    exact all_hold_iff hsame

theorem accepts_iff_conjunction_button :
    parse? "BUTTON#go.primary#go" = some ⟨some "button", some "go", ["primary"]⟩ ∧
      ∀ tag id list, accepts ⟨some "button", some "go", ["primary"]⟩ tag id list = true ↔
        ∀ p ∈ [⟨.tag, "BUTTON"⟩, ⟨.id, "go"⟩, ⟨.classed, "primary"⟩, ⟨.id, "go"⟩],
          Simple.Holds tag id list p := by
  have h : parse? "BUTTON#go.primary#go" = some ⟨some "button", some "go", ["primary"]⟩ := by
    decide +kernel
  obtain ⟨ps, -, hunique, -, hconjunction⟩ := accepts_iff_conjunction h
  obtain rfl := hunique
    [⟨.tag, "BUTTON"⟩, ⟨.id, "go"⟩, ⟨.classed, "primary"⟩, ⟨.id, "go"⟩] (by decide +kernel)
  exact ⟨h, hconjunction.2 (by decide)⟩

theorem accepts_not_conjunction :
    parse? "#a#b" = some ⟨none, some "b", []⟩ ∧ Written "#a#b" [⟨.id, "a"⟩, ⟨.id, "b"⟩] ∧
      accepts ⟨none, some "b", []⟩ "p" (some "b") none = true ∧
      ¬ Simple.Holds "p" (some "b") none ⟨.id, "a"⟩ := by
  refine ⟨by decide +kernel, by decide +kernel, by decide +kernel, fun h => ?_⟩
  rw [Simple.Holds] at h
  exact absurd h (by decide)

end LiveMarkup.Selector
