import LiveMarkup.Selector
import LiveMarkup.Proofs.Text.Cutting

/-!
Compound selectors as they are written: a row of parts, each a marker and a name. There is one row for
every text that is read, and what is read of it is the last identifier and every class.
-/

namespace LiveMarkup.Selector

open LiveMarkup.Text

inductive Kind where
  | tag
  | id
  | classed
  deriving DecidableEq, Repr

def Kind.marker : Kind → List Char
  | .tag => []
  | .id => ['#']
  | .classed => ['.']

structure Simple where
  kind : Kind
  name : String
  deriving DecidableEq, Repr

namespace Simple

def text (p : Simple) : List Char := p.kind.marker ++ p.name.toList

structure Named (p : Simple) : Prop where
  ne : p.name.toList ≠ []
  chars : ∀ c ∈ p.name.toList, isNameChar c = true

instance (p : Simple) : Decidable p.Named :=
  decidable_of_iff (p.name.toList ≠ [] ∧ p.name.toList.all isNameChar = true)
    ⟨fun h => ⟨h.1, List.all_eq_true.1 h.2⟩, fun h => ⟨h.ne, List.all_eq_true.2 h.chars⟩⟩

def addTo (s : Selector) (p : Simple) : Selector :=
  match p.kind with
  | .tag => { s with tag := some p.name.asciiLower }
  | .id => { s with id := some p.name }
  | .classed => { s with classes := s.classes ++ [p.name] }

end Simple

/-- Parts in a row; only the first may be a tag name. -/
structure Row (ps : List Simple) : Prop where
  named : ∀ p ∈ ps, p.Named
  marked : ∀ p ∈ ps.tail, p.kind ≠ .tag

instance (ps : List Simple) : Decidable (Row ps) :=
  decidable_of_iff ((∀ p ∈ ps, p.Named) ∧ ∀ p ∈ ps.tail, p.kind ≠ .tag)
    ⟨fun h => ⟨h.1, h.2⟩, fun h => ⟨h.named, h.marked⟩⟩

structure Written (source : String) (ps : List Simple) : Prop where
  text : trim source.toList = ps.flatMap Simple.text
  ne : ps ≠ []
  row : Row ps

instance (source : String) (ps : List Simple) : Decidable (Written source ps) :=
  decidable_of_iff (trim source.toList = ps.flatMap Simple.text ∧ ps ≠ [] ∧ Row ps)
    ⟨fun h => ⟨h.1, h.2.1, h.2.2⟩, fun h => ⟨h.text, h.ne, h.row⟩⟩

def ofSimple (ps : List Simple) : Selector := ps.foldl Simple.addTo ⟨none, none, []⟩

variable {cs rest rest' : List Char} {p q : Simple} {ps qs : List Simple} {s s' : Selector}
  {source : String}

def EndsName (cs : List Char) : Prop := ∀ c ∈ cs.head?, isNameChar c = false

theorem takeWhile_name {name : List Char} (h : ∀ c ∈ name, isNameChar c = true)
    (hrest : EndsName rest) : (name ++ rest).takeWhile isNameChar = name ∧
      (name ++ rest).dropWhile isNameChar = rest :=
  run_append h hrest

theorem Simple.named_takeWhile {k : Kind} (h : cs.takeWhile isNameChar ≠ []) :
    (Simple.mk k (String.ofList (cs.takeWhile isNameChar))).Named := by
  refine ⟨?_, fun c hc => ?_⟩
  · rwa [String.toList_ofList]
  · rw [String.toList_ofList] at hc
    exact List.all_eq_true.1 List.all_takeWhile c hc

theorem Simple.Named.isEmpty (h : p.Named) : p.name.toList.isEmpty = false :=
  List.isEmpty_eq_false_iff.2 h.ne

theorem endsName_of_marked (h : ∀ p ∈ ps, p.kind ≠ .tag) : EndsName (ps.flatMap Simple.text) := by
  cases ps with
  | nil => nofun
  | cons p ps =>
    obtain ⟨k, name⟩ := p
    intro c hc
    cases k with
    | tag => exact absurd rfl (h _ (List.mem_cons_self ..))
    | id => cases hc; decide
    | classed => cases hc; decide

theorem Row.tail (h : Row (p :: ps)) : Row ps :=
  ⟨fun q hq => h.named q (List.mem_cons_of_mem _ hq),
    fun q hq => h.marked q (List.mem_of_mem_tail hq)⟩

theorem Row.endsName (h : Row (p :: ps)) : EndsName (ps.flatMap Simple.text) :=
  endsName_of_marked h.marked

theorem Row.cons (hp : p.Named) (h : Row ps) (hm : ∀ q ∈ ps, q.kind ≠ .tag) : Row (p :: ps) := by
  refine ⟨fun q hq => ?_, hm⟩
  rcases List.mem_cons.1 hq with rfl | hq
  · exact hp
  · exact h.named q hq

def kindAt : List Char → Kind
  | '#' :: _ => .id
  | '.' :: _ => .classed
  | _ => .tag

theorem kindAt_text (h : p.Named) (rest : List Char) : kindAt (p.text ++ rest) = p.kind := by
  obtain ⟨k, name⟩ := p
  cases k with
  | tag =>
    obtain ⟨c, cs, hcs⟩ := List.exists_cons_of_ne_nil h.ne
    have hc := h.chars c (hcs ▸ List.mem_cons_self ..)
    have htext : Simple.text ⟨.tag, name⟩ = c :: cs := hcs
    rw [htext, List.cons_append, kindAt]
    · rintro _ heq
      cases heq
      cases hc
    · rintro _ heq
      cases heq
      cases hc
  | id => rfl
  | classed => rfl

theorem simple_eq_of_append (hp : p.Named) (hq : q.Named) (hrest : EndsName rest)
    (hrest' : EndsName rest') (h : p.text ++ rest = q.text ++ rest') : p = q ∧ rest = rest' := by
  have hkind : p.kind = q.kind := by rw [← kindAt_text hp rest, h, kindAt_text hq]
  obtain ⟨htake, hdrop⟩ := takeWhile_name hp.chars hrest
  obtain ⟨htake', hdrop'⟩ := takeWhile_name hq.chars hrest'
  rw [Simple.text, Simple.text, hkind, List.append_assoc, List.append_assoc,
    List.append_cancel_left_eq] at h
  rw [h] at htake hdrop
  have hname := String.toList_inj.1 (htake.symm.trans htake')
  obtain ⟨k, name⟩ := p
  obtain ⟨k', name'⟩ := q
  cases hkind
  cases hname
  exact ⟨rfl, hdrop.symm.trans hdrop'⟩

theorem text_ne_nil (h : p.Named) : p.text ≠ [] := by
  rw [Simple.text]
  exact List.append_ne_nil_of_right_ne_nil _ h.ne

theorem Row.eq_of_text (h : Row ps) (h' : Row qs)
    (heq : ps.flatMap Simple.text = qs.flatMap Simple.text) : ps = qs := by
  induction ps generalizing qs with
  | nil =>
    cases qs with
    | nil => rfl
    | cons q qs =>
      have hnil := (List.append_eq_nil_iff.1 heq.symm).1
      exact absurd hnil (text_ne_nil (h'.named q (List.mem_cons_self ..)))
  | cons p ps ih =>
    cases qs with
    | nil =>
      have hnil := (List.append_eq_nil_iff.1 heq).1
      exact absurd hnil (text_ne_nil (h.named p (List.mem_cons_self ..)))
    | cons q qs =>
      obtain ⟨rfl, hrest⟩ := simple_eq_of_append (h.named p (List.mem_cons_self ..))
        (h'.named q (List.mem_cons_self ..)) h.endsName h'.endsName heq
      rw [ih h.tail h'.tail hrest]

theorem parts_text (h : Row ps) (hm : ∀ p ∈ ps, p.kind ≠ .tag) (s : Selector) :
    parts s (ps.flatMap Simple.text) = some (ps.foldl Simple.addTo s) := by
  induction ps generalizing s with
  | nil => rw [List.flatMap_nil, parts]; rfl
  | cons p ps ih =>
    have hp := h.named p (List.mem_cons_self ..)
    obtain ⟨htake, hdrop⟩ := takeWhile_name hp.chars h.endsName
    have hempty := hp.isEmpty
    have hrest := ih h.tail (fun q hq => hm q (List.mem_cons_of_mem _ hq))
    obtain ⟨k, name⟩ := p
    rw [List.flatMap_cons, Simple.text, List.append_assoc]
    cases k with
    | tag => exact absurd rfl (hm _ (List.mem_cons_self ..))
    | id =>
      rw [Kind.marker, List.singleton_append, parts]
      simp only [htake, hdrop, hempty, String.ofList_toList]
      exact hrest _
    | classed =>
      rw [Kind.marker, List.singleton_append, parts]
      simp only [htake, hdrop, hempty, String.ofList_toList]
      exact hrest _

theorem exists_parts (h : parts s cs = some s') : ∃ ps, Row ps ∧ (∀ p ∈ ps, p.kind ≠ .tag) ∧
    cs = ps.flatMap Simple.text ∧ s' = ps.foldl Simple.addTo s := by
  have marked {p : Simple} {ps : List Simple} (hp : p.kind ≠ .tag) (h : ∀ p ∈ ps, p.kind ≠ .tag) :
      ∀ q ∈ p :: ps, q.kind ≠ .tag := by
    intro q hq
    rcases List.mem_cons.1 hq with rfl | hq
    · exact hp
    · exact h q hq
  fun_induction parts s cs with
  | case1 s => exact ⟨[], ⟨nofun, nofun⟩, nofun, rfl, (Option.some.inj h).symm⟩
  | case2 => cases h
  | case3 s cs name hne ih =>
    obtain ⟨ps, hrow, hm, hcs, hs⟩ := ih h
    refine ⟨⟨.id, String.ofList name⟩ :: ps, .cons ?_ hrow hm, marked nofun hm, ?_, hs⟩
    · exact Simple.named_takeWhile fun h => hne (List.isEmpty_iff.2 h)
    · rw [List.flatMap_cons, Simple.text, String.toList_ofList, ← hcs, List.append_assoc,
        List.takeWhile_append_dropWhile]
      rfl
  | case4 s cs name hne _ ih =>
    obtain ⟨ps, hrow, hm, hcs, hs⟩ := ih h
    refine ⟨⟨.classed, String.ofList name⟩ :: ps, .cons ?_ hrow hm, marked nofun hm, ?_, hs⟩
    · exact Simple.named_takeWhile fun h => hne (List.isEmpty_iff.2 h)
    · rw [List.flatMap_cons, Simple.text, String.toList_ofList, ← hcs, List.append_assoc,
        List.takeWhile_append_dropWhile]
      rfl
  | case5 => cases h

theorem parse?_of_written (h : Written source ps) : parse? source = some (ofSimple ps) := by
  obtain ⟨htext, hne, hrow⟩ := h
  have hcs : (ps.flatMap Simple.text).isEmpty = false := by
    obtain ⟨p, ps, rfl⟩ := List.exists_cons_of_ne_nil hne
    refine List.isEmpty_eq_false_iff.2 ?_
    exact List.append_ne_nil_of_left_ne_nil (text_ne_nil (hrow.named p (List.mem_cons_self ..))) _
  simp only [parse?, htext, hcs, Bool.false_eq_true, if_false]
  by_cases hm : ∀ p ∈ ps, p.kind ≠ .tag
  · obtain ⟨htake, hdrop⟩ := takeWhile_name (List.forall_mem_nil (isNameChar · = true))
      (endsName_of_marked hm)
    rw [List.nil_append] at htake hdrop
    rw [htake, hdrop]
    exact parts_text hrow hm _
  · -- only the first part can be a tag name
    obtain ⟨p, ps, rfl⟩ := List.exists_cons_of_ne_nil hne
    have hkind : p.kind = .tag := by
      refine Decidable.byContradiction fun hp => hm fun q hq => ?_
      rcases List.mem_cons.1 hq with rfl | hq
      · exact hp
      · exact hrow.marked q hq
    have hp := hrow.named p (List.mem_cons_self ..)
    obtain ⟨k, name⟩ := p
    cases hkind
    obtain ⟨htake, hdrop⟩ := takeWhile_name hp.chars hrow.endsName
    have hempty := hp.isEmpty
    rw [List.flatMap_cons, Simple.text, Kind.marker, List.nil_append]
    simp only [htake, hdrop, hempty, String.ofList_toList, Bool.false_eq_true, if_false]
    exact parts_text hrow.tail hrow.marked _

theorem written_of_parse? (h : parse? source = some s) :
    ∃ ps, Written source ps ∧ s = ofSimple ps := by
  simp only [parse?] at h
  split at h
  · cases h
  · next hne =>
    obtain ⟨ps, hrow, hm, hcs, rfl⟩ := exists_parts h
    have hsource : (trim source.toList).takeWhile isNameChar ++
        (trim source.toList).dropWhile isNameChar = trim source.toList :=
      List.takeWhile_append_dropWhile
    rw [hcs] at hsource
    by_cases htag : (trim source.toList).takeWhile isNameChar = []
    · rw [htag, List.nil_append] at hsource
      refine ⟨ps, ⟨hsource.symm, fun hnil => hne ?_, hrow⟩, ?_⟩
      · rw [← hsource, hnil]
        rfl
      · rw [htag]
        rfl
    · refine ⟨⟨.tag, String.ofList ((trim source.toList).takeWhile isNameChar)⟩ :: ps,
        ⟨?_, List.cons_ne_nil _ _, .cons (Simple.named_takeWhile htag) hrow hm⟩, ?_⟩
      · rw [List.flatMap_cons, Simple.text, String.toList_ofList, Kind.marker, List.nil_append, hsource]
      · rw [if_neg fun h => htag (List.isEmpty_iff.1 h)]
        rfl

theorem Written.unique (h : Written source ps) (h' : Written source qs) : qs = ps :=
  h'.row.eq_of_text h.row (h'.text.symm.trans h.text)

end LiveMarkup.Selector
