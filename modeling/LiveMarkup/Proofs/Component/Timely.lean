import LiveMarkup.Proofs.Component.Entries
import LiveMarkup.Proofs.Component.Mounted
import LiveMarkup.Proofs.Component.Presence

/-!
Texts in time. An element comes back only after the texts inside it have been brought up to date, and
no entry of the journal is about a text that is inside an element which is away.
-/

namespace LiveMarkup

open LiveMarkup.Expression Document

variable {σ : Type} {methods : Methods σ} {ds : List Directive} {d d₀ : Document} {c : Conditional}
  {p : Presence} {w w' : World σ} {J ms pre post : List Mutation} {m : Mutation}

namespace Conditional

/-- Between these entries the element is there, or it is on its way back: next it is put in its place, and
before that only texts change. -/
def OpenAt (c : Conditional) (pre post : List Mutation) : Prop :=
  stands pre c.element = true ∨ ∃ texts rest,
    post = texts ++ .inserted c.anchor.parent c.element :: rest ∧ ∀ m ∈ texts, ∃ n, m = .textChanged n

theorem OpenAt.append (h : c.OpenAt pre post) (ms : List Mutation) : c.OpenAt pre (post ++ ms) := by
  refine h.imp_right fun ⟨texts, rest, hpost, htexts⟩ => ⟨texts, rest ++ ms, ?_, htexts⟩
  rw [hpost, List.append_assoc, List.cons_append]

theorem Told.stands_iff (h : c.Told d₀ d p) (hJ : d.journal = d₀.journal ++ J) :
    stands J c.element = true ↔ p = .attached := by
  obtain ⟨turns, hmoves, -, hlast⟩ := h
  have hturns : J.filter (Mutation.moves c.element) = turns.map c.entry := by
    rw [moves, moves, hJ, List.filter_append] at hmoves
    exact List.append_cancel_left hmoves
  rw [stands, hturns]
  rcases List.eq_nil_or_concat turns with rfl | ⟨front, last, rfl⟩
  · cases hlast
    exact iff_of_true rfl rfl
  · rw [List.concat_eq_append, ← List.cons_append, List.getLast?_concat] at hlast
    cases hlast
    rw [List.concat_eq_append, List.map_append, List.map_singleton, List.getLast?_concat]
    cases p with
    | attached => exact iff_of_true rfl rfl
    | detached => exact iff_of_false Bool.false_ne_true fun h => by cases h

end Conditional

/-- Each text that these entries speak of was open: the elements around it that can go were all there, or
on their way back. -/
def OpenTexts (ds : List Directive) (J : List Mutation) : Prop :=
  ∀ i c, .interpolation i ∈ ds → .conditional c ∈ ds → c.cell ∈ i.gates →
    ∀ pre post, J = pre ++ .textChanged i.node :: post → c.OpenAt pre post

theorem OpenTexts.append (h : OpenTexts ds J)
    (hms : ∀ i c, .interpolation i ∈ ds → .conditional c ∈ ds → c.cell ∈ i.gates →
      ∀ mid post, ms = mid ++ .textChanged i.node :: post → c.OpenAt (J ++ mid) post) :
    OpenTexts ds (J ++ ms) := by
  intro i c hi hc hg pre post hj
  rcases append_eq_mid hj with ⟨mid, hold, rfl⟩ | ⟨mid, rfl, hnew⟩
  · exact (h i c hi hc hg pre mid hold).append ms
  · exact hms i c hi hc hg mid post hnew

theorem stands_append_texts {n : NodeId} (h : ∀ m ∈ ms, ∃ t, m = .textChanged t) :
    stands (J ++ ms) n = stands J n := by
  refine stands_append_of_not_moves fun m hm => ?_
  obtain ⟨t, rfl⟩ := h m hm
  rfl

namespace World

variable {i : Interpolation}

section Steps

variable (hsep : Separate ds) (hw : w.Placed ds d₀) (hJ : w.document.journal = d₀.journal ++ J)
  (h : OpenTexts ds J)

include hsep hw hJ h

theorem opened_refreshed (hi : .interpolation i ∈ ds) :
    ∃ J', (w.refreshed i).document.journal = d₀.journal ++ J' ∧ OpenTexts ds J' := by
  obtain ⟨ms, hms, htexts, -⟩ := w.journal_refreshed i
  refine ⟨J ++ ms, by rw [hms, hJ, List.append_assoc], h.append ?_⟩
  intro j c hj hc hgate mid post hmid
  have hmem (m) (hm : m ∈ mid) : m ∈ ms := hmid ▸ List.mem_append_left _ hm
  obtain ⟨hnode, hgated⟩ := htexts (.textChanged j.node)
    (hmid ▸ List.mem_append_right _ (List.mem_cons_self ..))
  obtain rfl := hsep.node_inj hj hi (Mutation.textChanged.inj hnode)
  have hpresent := isGated_eq_false.1 hgated c.cell hgate
  refine .inl ?_
  rw [stands_append_texts fun m hm => ⟨_, (htexts m (hmem m hm)).1⟩]
  exact ((hw.told hc).stands_iff hJ).2 hpresent

omit hsep in
theorem opened_withdrawn (hc : .conditional c ∈ ds) (hp : w.presence c.cell = .attached) :
    ∃ J', (w.withdrawn c).document.journal = d₀.journal ++ J' ∧ OpenTexts ds J' := by
  have hparent : (w.document.node c.element).parent = some c.anchor.parent := by
    rw [hw.parent hc, hp]
    rfl
  have hchild := (hw.consistent.links _ _).2 hparent
  refine ⟨J ++ [.removed c.anchor.parent c.element], ?_, h.append ?_⟩
  · rw [journal_withdrawn hchild, hJ, List.append_assoc]
  · intro i c' _ _ _ mid post hmid
    have hmem : .textChanged i.node ∈ [Mutation.removed c.anchor.parent c.element] :=
      hmid ▸ List.mem_append_right _ (List.mem_cons_self ..)
    cases List.mem_singleton.1 hmem

theorem opened_restored (hc : .conditional c ∈ ds) (hp : w.presence c.cell = .detached) :
    ∃ J', (w.restored c).document.journal = d₀.journal ++ J' ∧ OpenTexts ds J' := by
  have hparent : (w.document.node c.element).parent = none := by
    rw [hw.parent hc, hp]
    rfl
  obtain ⟨ms, hms, htexts, -⟩ := w.journal_readied c
  refine ⟨J ++ (ms ++ [.inserted c.anchor.parent c.element]), ?_, h.append ?_⟩
  · rw [journal_restored (hw.fits hc) hparent, hms, hJ, List.append_assoc, List.append_assoc]
  · intro j c' hj hc' hgate mid post hmid
    rcases append_eq_mid hmid with ⟨rest, rfl, rfl⟩ | ⟨rest, -, hlast⟩
    · have hall (m) (hm : m ∈ mid ++ .textChanged j.node :: rest) : ∃ n, m = .textChanged n := by
        obtain ⟨i, -, -, rfl⟩ := htexts m hm
        exact ⟨_, rfl⟩
      by_cases heq : c' = c
      · subst heq
        refine .inr ⟨rest, [], rfl, fun m hm => hall m ?_⟩
        exact List.mem_append_right _ (List.mem_cons_of_mem _ hm)
      · obtain ⟨i, hi, hgated, hnode⟩ := htexts (.textChanged j.node)
          (List.mem_append_right _ (List.mem_cons_self ..))
        obtain rfl := hsep.node_inj hj (hsep.inside hc i hi) (Mutation.textChanged.inj hnode)
        have hpresent := isGated_eq_false.1 hgated c'.cell hgate
        rw [presence_setPresence, if_neg fun hcell => heq (hsep.cell_inj hc' hc hcell.1)] at hpresent
        refine .inl ?_
        rw [stands_append_texts fun m hm => hall m (List.mem_append_left _ hm)]
        exact ((hw.told hc').stands_iff hJ).2 hpresent
    · have hmem : .textChanged j.node ∈ [Mutation.inserted c.anchor.parent c.element] :=
        hlast ▸ List.mem_append_right _ (List.mem_cons_self ..)
      cases List.mem_singleton.1 hmem

end Steps

structure Unhidden (ds : List Directive) (d₀ : Document) (w : World σ) : Prop where
  placed : w.Placed ds d₀
  sized : Sized ds w.document w.presences
  opened : ∃ J, w.document.journal = d₀.journal ++ J ∧ OpenTexts ds J

end World

theorem upheld_unhidden (hsep : Separate ds) (hinj : Unshared ds) (d₀ : Document) :
    Upheld ds (World.Unhidden (σ := σ) ds d₀) := by
  have hplaced := upheld_placed (σ := σ) hsep hinj d₀
  have hsized {w w' : World σ} (hr : w.Reshapes w') (h : Sized ds w.document w.presences) :
      Sized ds w'.document w'.presences :=
    ⟨fun hi => hr.size ▸ h.node hi, fun hc => hr.presences ▸ h.cell hc⟩
  refine ⟨fun hd hp h => ⟨hplaced.shown hd hp h.placed, hd ▸ hp ▸ h.sized, hd ▸ h.opened⟩,
    fun w i hi h => ?_, fun w c visible hc h => ?_⟩
  · obtain ⟨J, hJ, hopen⟩ := h.opened
    exact ⟨hplaced.refreshed w i hi h.placed, hsized (w.reshapes_refreshed i) h.sized,
      World.opened_refreshed hsep h.placed hJ hopen hi⟩
  · obtain ⟨J, hJ, hopen⟩ := h.opened
    refine ⟨hplaced.settled w c visible hc h.placed, hsized (w.reshapes_settled c visible) h.sized, ?_⟩
    cases visible <;> cases hpres : w.presence c.cell <;> simp only [World.settled, hpres]
    · exact World.opened_withdrawn h.placed hJ hopen hc hpres
    · exact ⟨J, hJ, hopen⟩
    · exact ⟨J, hJ, hopen⟩
    · exact World.opened_restored hsep h.placed hJ hopen hc hpres

/-- What is so just before the element of `c` is put back, the update having evaluated its predicate in
`w`: it counts as attached, texts inside that nothing hides are what the store says, and the journal has
told of each text that changed for that. -/
structure Conditional.Readies (c : Conditional) (w v : World σ) : Prop where
  store : v.store = w.store
  presence : ∀ cell, v.presence cell = if cell = c.cell then .attached else w.presence cell
  shows : ∀ i ∈ c.inside, v.Shows i
  journal : ∃ texts, v.document.journal = w.document.journal ++ texts ∧
    (∀ m ∈ texts, ∃ i ∈ c.inside, v.isGated i = false ∧ m = .textChanged i.node) ∧
    ∀ n, (v.document.node n).data ≠ (w.document.node n).data → .textChanged n ∈ texts

/-- An update of `c` puts its element back as the last thing it does, when all is ready, or it puts nothing
back and changes no text. -/
def Conditional.Returns (c : Conditional) (emit : Emit σ) (methods : Methods σ) (w : World σ) : Prop :=
  ∀ w', Act.Ends (Run.update emit methods (.conditional c)) w (.ok ()) w' →
    ∃ value w₁, Act.Ends (c.predicate.evaluate (Run.scope emit methods)) w (.ok value) w₁ ∧
      if w₁.presence c.cell = .detached ∧ value.truthy = true then
        ∃ v, c.Readies w₁ v ∧ w' = v.edit (c.anchor.insert c.element) ∧
          w'.document.journal = v.document.journal ++ [.inserted c.anchor.parent c.element] ∧
          ∀ n, (w'.document.node n).data = (v.document.node n).data
      else
        w'.document.journal = w₁.document.journal ++ (if w₁.presence c.cell = .attached ∧
          value.truthy = false then [.removed c.anchor.parent c.element] else []) ∧
        ∀ n, (w'.document.node n).data = (w₁.document.node n).data

namespace World

theorem readies_readied (hsep : Separate ds) (hs : Sized ds w.document w.presences)
    (hc : .conditional c ∈ ds) : c.Readies w (w.readied c) := by
  have hin := hsep.inside hc
  let u := w.setPresence c.cell .attached
  have hpres : (w.readied c).presences = u.presences := u.presences_refreshAll c.inside
  obtain ⟨ms, hms, htexts, hdata⟩ := w.journal_readied c
  refine ⟨(u.reshapes_refreshAll c.inside).store, fun cell => ?_, fun i hi => ?_, ms, hms, fun m hm => ?_, hdata⟩
  · rw [presence_congr hpres, presence_setPresence]
    refine if_congr ⟨And.left, ?_⟩ rfl rfl
    rintro rfl
    exact ⟨rfl, hs.cell hc⟩
  · exact shows_refreshAll (fun j hj => hsep.node_inj (hin j hj) (hin i hi))
      (fun j hj => hs.node (hin j hj)) (.inr hi)
  · obtain ⟨i, hi, hg, rfl⟩ := htexts m hm
    exact ⟨i, hi, (isGated_congr fun cell _ => presence_congr hpres cell).trans hg, rfl⟩

end World

theorem returns_of_kept {P : World σ → Prop} {emit : Emit σ} (hP : Upheld ds P)
    (hsep : Separate ds) (hemit : Concur methods ds P emit emit)
    (hplaced : ∀ {w}, P w → w.Placed ds d₀ ∧ Sized ds w.document w.presences)
    (hw : w.Kept methods ds P) (hc : .conditional c ∈ ds) : c.Returns emit methods w := by
  intro w' h
  obtain ⟨e, -, hr⟩ | ⟨v, w₁, hv, hs⟩ := Act.ends_bind.1 h
  · cases hr
  obtain ⟨_, -, hs⟩ := Act.ends_ofRun.1 hs
  obtain rfl := Run.ends_settle.1 hs
  obtain ⟨hpl, hsized⟩ := hplaced (upholding_evaluate hP.shown hemit c.predicate _ _ _ hw hv).2.holds
  have hparent := hpl.parent hc
  refine ⟨v, w₁, hv, ?_⟩
  cases hvis : v.truthy <;> cases hpres : w₁.presence c.cell <;>
    simp only [World.settled, hpres, reduceCtorEq, and_self, and_true, and_false, if_true, if_false]
  · rw [hpres] at hparent
    exact ⟨World.journal_withdrawn ((hpl.consistent.links _ _).2 hparent),
      (rewires_removeChild ..).data⟩
  · exact ⟨(List.append_nil _).symm, fun _ => trivial⟩
  · exact ⟨(List.append_nil _).symm, fun _ => trivial⟩
  · rw [hpres] at hparent
    exact ⟨w₁.readied c, World.readies_readied hsep hsized hc, rfl,
      World.journal_restored (hpl.fits hc) hparent, (World.rewires_insert ..).data⟩

namespace Mirror

variable {o : DirectiveOptions} {root : Mirror}

theorem Follows.inside_of_under (hd : d.Consistent) (h : root.Follows o d)
    (hroot : d.Under Document.root root.part.element) (hc : c ∈ conditionalsOf [root]) {p : Part}
    (hp : p ∈ root.parts) (hunder : d.Under c.element p.element) {i : Interpolation}
    (hi : p.interpolation = some i) : i ∈ c.inside := by
  induction h with
  | mk q ms reads inner follows ih =>
    have hchild {m : Mirror} (hm : m ∈ ms) : m.part.element ∈ (d.node q.element).children :=
      inner.subset (List.mem_map_of_mem hm)
    rw [conditionalsOf_mk] at hc
    rcases List.mem_append.1 hc with hc | hc
    · rw [Option.mem_toList, conditionalOf] at hc
      obtain ⟨cond, -, rfl⟩ := Option.map_eq_some_iff.1 hc
      exact List.mem_filterMap.2 ⟨p, hp, hi⟩
    · obtain ⟨m, hm, hc⟩ := mem_conditionalsOf_iff.1 hc
      have hmroot : d.Under Document.root m.part.element := .child hroot (hchild hm)
      obtain ⟨r, inside, cond, -, hparts, -, rfl⟩ := (follows m hm).conditional hc
      have hbelow : d.Under m.part.element p.element :=
        ((follows m hm).under_self (hparts r (List.mem_cons_self ..))).trans hunder
      rcases mem_parts_mk.1 hp with rfl | ⟨m', hm', hp⟩
      · exact absurd hbelow (hd.not_under_child hroot (hchild hm))
      · have hbelow' := (follows m' hm').under_self hp
        by_cases heq : m.part.element = m'.part.element
        · obtain rfl := List.inj_on_of_nodup_map (inner.nodup (hd.nodup _)) hm hm' heq
          exact ih m hm hmroot hc hp
        · rcases hd.under_or_under hbelow hbelow' with hu | hu
          · exact absurd hu (hd.not_under_sibling hroot (hchild hm) (hchild hm') heq)
          · exact absurd hu (hd.not_under_sibling hroot (hchild hm') (hchild hm) (Ne.symm heq))

theorem Follows.mem_inside_iff (hd : d.Consistent) (h : root.Follows o d)
    (hroot : d.Under Document.root root.part.element) (hc : c ∈ conditionalsOf [root])
    (i : Interpolation) : i ∈ c.inside ↔
      ∃ p ∈ root.parts, p.interpolation = some i ∧ d.Under c.element p.element := by
  constructor
  · intro hi
    obtain ⟨q, inner, cond, hsub, hparts, -, rfl⟩ := h.conditional hc
    obtain ⟨p, hp, hpi⟩ := List.mem_filterMap.1 hi
    exact ⟨p, hparts p hp, hpi, hsub.under_self hp⟩
  · rintro ⟨p, hp, hpi, hunder⟩
    exact h.inside_of_under hd hroot hc hp hunder hpi

end Mirror

def Document.TellsNoText (d d' : Document) : Prop :=
  ∃ ms, d'.journal = d.journal ++ ms ∧ ∀ n, .textChanged n ∉ ms

namespace Document.TellsNoText

variable {d d' d'' : Document}

theorem refl (d : Document) : TellsNoText d d := ⟨[], (List.append_nil _).symm, fun _ => List.not_mem_nil⟩

theorem trans (h : TellsNoText d d') (h' : TellsNoText d' d'') : TellsNoText d d'' := by
  obtain ⟨ms, hms, hno⟩ := h
  obtain ⟨ns, hns, hno'⟩ := h'
  refine ⟨ms ++ ns, by rw [hns, hms, List.append_assoc], fun n hn => ?_⟩
  exact (List.mem_append.1 hn).elim (hno n) (hno' n)

theorem removeChild (d : Document) (parent child : NodeId) :
    TellsNoText d (d.removeChild parent child) := by
  unfold Document.removeChild
  split
  · exact ⟨[.removed parent child], rfl, fun _ hn => nomatch List.mem_singleton.1 hn⟩
  · exact refl d

theorem place (d : Document) (parent child : NodeId) (arrange : List NodeId → List NodeId) :
    TellsNoText d (d.place parent child arrange) :=
  ⟨[.inserted parent child], rfl, fun _ hn => nomatch List.mem_singleton.1 hn⟩

theorem prepare (o : DirectiveOptions) (p : Part) (d : Document) :
    TellsNoText d (p.prepare o d) := by
  cases hi : p.interpolation with
  | none =>
    rw [Part.prepare_of_none o d hi]
    exact refl _
  | some i =>
    rw [Part.prepare_of_some o d hi]
    obtain ⟨arrange, heq, -⟩ := p.inserted_eq_place (d.removeAttribute p.element o.onClick)
    have hinserted : TellsNoText d (p.inserted (d.removeAttribute p.element o.onClick)) := by
      rw [heq]
      exact place ..
    refine hinserted.trans ?_
    generalize p.inserted (d.removeAttribute p.element o.onClick) = d
    induction p.texts generalizing d with
    | nil => exact refl d
    | cons t ts ih => exact (removeChild d p.element t).trans (ih _)

theorem prepareAll (o : DirectiveOptions) (ps : List Part) (d : Document) :
    TellsNoText d (ps.foldl (fun d p => p.prepare o d) d) := by
  induction ps generalizing d with
  | nil => exact refl d
  | cons p ps ih => exact (prepare o p d).trans (ih _)

end Document.TellsNoText

/-- Whichever directive is updated from here puts its element back when all is ready, or refreshes a text
that nothing hides; and nothing hid any text that the journal speaks of since the document was `d₀`. -/
structure World.Timely (methods : Methods σ) (ds : List Directive) (d₀ : Document) (beyond : Emit σ)
    (w : World σ) : Prop where
  returns : ∀ c, .conditional c ∈ ds → ∀ depth, c.Returns (Run.broadcastOver beyond depth) methods w
  refreshes : ∀ i, .interpolation i ∈ ds → ∀ emit r w',
    Act.Ends (Run.update emit methods (.interpolation i)) w r w' →
      w' = w ∨ w.isGated i = false ∧
        w'.document.journal = w.document.journal ++ [.textChanged i.node]
  told : ∃ J, w.document.journal = d₀.journal ++ J ∧ OpenTexts ds J ∧
    ∀ c, .conditional c ∈ ds → (stands J c.element = true ↔ w.presence c.cell = .attached)

theorem timely_of_kept {beyond : Emit σ} (hb : Run.Idle beyond) (hsep : Separate ds)
    (hinj : Unshared ds) (hw : w.Kept methods ds (World.Unhidden ds d₀)) :
    w.Timely methods ds d₀ beyond where
  returns c hc depth := by
    have hP := upheld_unhidden (σ := σ) hsep hinj d₀
    have hemit : Concur methods ds (World.Unhidden ds d₀) (Run.broadcastOver beyond depth)
        (Run.broadcastChecked (fun _ => True) beyond depth) :=
      concur_broadcast hP (fun _ => trivial) hb.concur depth
    exact returns_of_kept hP hsep hemit.self (fun h => ⟨h.placed, h.sized⟩) hw hc
  refreshes i _ emit r w' h := by
    obtain ⟨_, -, h⟩ := Act.ends_ofRun.1 h
    rw [Run.ends_refreshUngated.1 h]
    exact w.refreshed_eq_or i
  told := by
    obtain ⟨J, hJ, hopen⟩ := hw.holds.opened
    exact ⟨J, hJ, hopen, fun c hc => (hw.holds.placed.told hc).stands_iff hJ⟩

namespace Component

theorem mounted_timely {beyond : Emit σ} (hb : Run.Idle beyond) {w₀ : World σ}
    (hd : w₀.document.Consistent)
    (hs : ∀ o ∈ w₀.store.observers, ∃ body, o.2 = .script body) {o : MountOptions σ} {depth : Nat}
    {c : Component σ} {w₁ w : World σ}
    (hmount : Act.Ends (mount (Run.broadcastOver beyond depth) o) w₀ (.ok (some c)) w₁)
    (h : Reaches (Run.broadcastOver beyond depth) c w₁ w) :
    (∀ cond, .conditional cond ∈ c.directives → ∀ i, i ∈ cond.inside ↔
      ∃ p ∈ c.root.parts, p.interpolation = some i ∧
        w₀.document.Under cond.element p.element) ∧
    (∀ i, .interpolation i ∈ c.directives → ∀ g, g ∈ i.gates ↔
      ∃ cond, .conditional cond ∈ c.directives ∧ cond.cell = g ∧ i ∈ cond.inside) ∧
    Throughout (World.Timely c.methods c.directives w₀.document beyond) o beyond depth c w₀ w₁ w := by
  obtain ⟨-, hds, element, hquery, hm⟩ := exists_planned hmount
  obtain ⟨s', hlaid⟩ := Mirror.laid_ofElement hm
  have hsep := Mirror.separate_of_laid hlaid
  obtain ⟨hplaced, hinj⟩ := placed_prepare hd hquery hm
  obtain ⟨hunder, parent, hparent⟩ := parent_of_query hd hquery
  have hdeep := hd.deep_children hunder (Consistent.lt_of_parent hparent)
  obtain ⟨hf, rfl⟩ := Mirror.follows_of_deep hdeep hm
  rw [hds]
  refine ⟨fun cond hcond i => ?_, fun i hi g => ⟨fun hg => ?_, ?_⟩,
    throughout hb hs hmount h (P := World.Unhidden c.directives w₀.document) ?_ ?_ fun hw => ?_⟩
  · rw [← Mirror.directivesOfAll_singleton, Mirror.mem_conditionalsOf] at hcond
    exact hf.mem_inside_iff hd hunder hcond i
  · obtain ⟨cond, hcond, rfl⟩ := Mirror.exists_of_mem_gates hlaid hi hg
    exact ⟨cond, hcond, rfl, (hsep.gated hi hcond).1 hg⟩
  · rintro ⟨cond, hcond, rfl, hin⟩
    exact (hsep.gated hi hcond).2 hin
  · rw [hds]
    exact upheld_unhidden hsep hinj _
  · obtain ⟨J, hJ, hno⟩ := Document.TellsNoText.prepareAll o.directives c.root.parts w₀.document
    rw [hds]
    refine ⟨hplaced, sized_prepare hm, J, hJ, fun i _ _ _ _ pre post hj => ?_⟩
    exact absurd (hj ▸ List.mem_append_right _ (List.mem_cons_self ..)) (hno i.node)
  · rw [hds] at hw
    exact timely_of_kept hb hsep hinj hw

def folded : World Unit where
  store := Store.ofFields
    [("open", .bool true), ("more", .bool true), ("name", .string "Ann")]
  document := Document.ofForest
    [.element () "div" [("show-if", "open")]
      [.element () "p" [("show-if", "more")] [.text () "Hi \x7b\x7bname\x7d\x7d"]]]
  presences := #[]
  memory := ()

def foldedOptions : MountOptions Unit where
  selector := "div"
  methods := []
  directives := .default
  tracked := true

def foldedCalls : List Call :=
  [.set "open" (.bool false), .set "more" (.bool false), .set "name" (.string "Bob"),
    .set "more" (.bool true), .set "name" (.string "Cid"), .set "open" (.bool true)]

/-- The inner element, node 2, comes back while the outer one is away. The text, node 4, waits for the
outer one. -/
theorem mounted_timely_folded :
    ∃ c w₁ w, Act.Ends (mount (Run.broadcastOver Run.endless 2) foldedOptions) folded
        (.ok (some c)) w₁ ∧
      Reaches (Run.broadcastOver Run.endless 2) c w₁ w ∧
      Throughout (World.Timely c.methods c.directives folded.document Run.endless) foldedOptions
        Run.endless 2 c folded w₁ w ∧
      w.document.toHtml = "<div show-if=\"open\"><p show-if=\"more\">Hi Cid</p></div>" ∧
      w.document.journal = [.inserted 2 4, .removed 2 3, .textChanged 4, .removed 0 1,
        .removed 1 2, .inserted 1 2, .textChanged 4, .inserted 0 1] := by
  have hrun : (Act.found? (session (Run.broadcastOver Run.endless 2) foldedOptions foldedCalls)
      folded).map (fun r => (r.2.document.toHtml, r.2.document.journal)) =
      some ("<div show-if=\"open\"><p show-if=\"more\">Hi Cid</p></div>",
        [.inserted 2 4, .removed 2 3, .textChanged 4, .removed 0 1, .removed 1 2, .inserted 1 2,
          .textChanged 4, .inserted 0 1]) := by
    decide +kernel
  obtain ⟨⟨⟨c, rs⟩, w⟩, hfound, hend⟩ := Option.map_eq_some_iff.1 hrun
  obtain ⟨w₁, hmount, hcalls⟩ := ends_session (Act.ends_of_found? hfound)
  have hreach := Reaches.mounted.performAll hcalls
  have hs : ∀ o ∈ folded.store.observers, ∃ body, o.2 = .script body := nofun
  obtain ⟨-, -, hthroughout⟩ :=
    mounted_timely Run.idle_endless (consistent_ofForest _) hs hmount hreach
  obtain ⟨hhtml, hjournal⟩ := Prod.mk.inj hend
  exact ⟨c, w₁, w, hmount, hreach, hthroughout, hhtml, hjournal⟩

end Component

end LiveMarkup
