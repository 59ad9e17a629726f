import LiveMarkup.Proofs.Component.Entries
import LiveMarkup.Proofs.Component.Hosted
import LiveMarkup.Proofs.Component.Mounted
import LiveMarkup.Proofs.Component.Presence

/-!
The order of siblings while a component is at work. Elements go and come back to anchors that were
noted when the component was mounted, and the journal tells whether they found their places.
-/

namespace LiveMarkup

open LiveMarkup.Expression Document

variable {σ : Type} {ds : List Directive} {d d₀ d₁ : Document} {c : Conditional} {w : World σ}

namespace World

theorem kind_refreshed (w : World σ) (i : Interpolation) (n : NodeId) :
    ((w.refreshed i).document.node n).kind = (w.document.node n).kind := by
  unfold refreshed
  split
  · rfl
  · exact kind_setText ..

theorem elementChildren_refreshed (w : World σ) (i : Interpolation) (n : NodeId) :
    (w.refreshed i).document.elementChildren n = w.document.elementChildren n := by
  unfold refreshed
  split
  · rfl
  · exact elementChildren_setText ..

theorem refreshAll_same (w : World σ) (is : List Interpolation) (n : NodeId) :
    ((is.foldl refreshed w).document.node n).kind = (w.document.node n).kind ∧
      (is.foldl refreshed w).document.elementChildren n = w.document.elementChildren n := by
  induction is generalizing w with
  | nil => exact ⟨rfl, rfl⟩
  | cons i is ih =>
    obtain ⟨hk, hc⟩ := ih (w.refreshed i)
    exact ⟨hk.trans (w.kind_refreshed i n), hc.trans (w.elementChildren_refreshed i n)⟩

theorem readied_same (w : World σ) (c : Conditional) (n : NodeId) :
    ((w.readied c).document.node n).kind = (w.document.node n).kind ∧
      (w.readied c).document.elementChildren n = w.document.elementChildren n :=
  (w.setPresence c.cell .attached).refreshAll_same c.inside n

/-- Elements are what they were in `d₀`, and so are siblings but for those that went and came back. -/
structure Arranged (d₀ : Document) (w : World σ) : Prop where
  kind : ∀ n, (w.document.node n).kind = (d₀.node n).kind
  siblings : ∃ J, w.document.journal = d₀.journal ++ J ∧
    ∀ parent, Siblings (d₀.elementChildren parent) parent J w.document

theorem arranged_start (h : w.document = d₀) : w.Arranged d₀ where
  kind n := by rw [h]
  siblings := ⟨[], by rw [h, List.append_nil], fun parent => .start (by rw [h])⟩

theorem Arranged.refreshed (h : w.Arranged d₀) (i : Interpolation) : (w.refreshed i).Arranged d₀ := by
  obtain ⟨J, hJ, hsib⟩ := h.siblings
  obtain ⟨ms, hms, htexts, -⟩ := w.journal_refreshed i
  refine ⟨fun n => (w.kind_refreshed i n).trans (h.kind n), J ++ ms, ?_, fun parent => ?_⟩
  · rw [hms, hJ, List.append_assoc]
  · refine ((hsib parent).texts fun m hm => ⟨_, (htexts m hm).1⟩).congr ?_
    exact w.elementChildren_refreshed i parent

section Settled

variable (h : w.Arranged d₀) (hd₀ : d₀.Consistent) (hmarks : c.anchor.Marks d₀ c.element)
  (hd : w.document.Consistent)

include h hd₀ hmarks hd

theorem Arranged.withdrawn (hp : (w.document.node c.element).parent = some c.anchor.parent) :
    (w.withdrawn c).Arranged d₀ := by
  obtain ⟨J, hJ, hsib⟩ := h.siblings
  have hchild := (hd.links _ _).2 hp
  have hdoc : (w.withdrawn c).document = w.document.removeChild c.anchor.parent c.element := rfl
  refine ⟨fun n => ((rewires_removeChild ..).kind n).trans (h.kind n),
    J ++ [.removed c.anchor.parent c.element], ?_, fun parent => ?_⟩
  · rw [journal_withdrawn hchild, hJ, List.append_assoc]
  · have hcs := elementChildren_removeChild w.document c.anchor.parent c.element parent
    by_cases hparent : parent = c.anchor.parent
    · subst hparent
      rw [if_pos rfl] at hcs
      refine (hsib _).removed ((hd.nodup _).filter _) ?_ hcs
      obtain ⟨before, after, hbetween, -⟩ := hmarks
      exact hbetween ▸ List.mem_append_right _ (List.mem_cons_self ..)
    · rw [if_neg hparent] at hcs
      refine ((hsib parent).other (fun n hn => beq_false_of_ne ?_) fun _ => Mutation.noConfusion).congr hcs
      rintro rfl
      exact hparent (hd₀.eq_of_mem (List.mem_filter.1 hn).1 hmarks.mem)

theorem Arranged.restored (hf : c.Fits w) (hp : (w.document.node c.element).parent = none) :
    (w.restored c).Arranged d₀ := by
  obtain ⟨J, hJ, hsib⟩ := h.siblings
  obtain ⟨ms, hms, htexts, -⟩ := w.journal_readied c
  have hkind (n : NodeId) : ((w.readied c).document.node n).kind = (d₀.node n).kind :=
    (w.readied_same c n).1.trans (h.kind n)
  have hdoc := restored_eq_place hf hp
  refine ⟨fun n => ?_, J ++ ms ++ [.inserted c.anchor.parent c.element], ?_, fun parent => ?_⟩
  · rw [hdoc, (rewires_place ..).kind, hkind]
  · rw [journal_restored hf hp, hms, hJ, List.append_assoc, List.append_assoc, List.append_assoc]
  · have hready : Siblings (d₀.elementChildren parent) parent (J ++ ms) (w.readied c).document := by
      refine ((hsib parent).texts fun m hm => ?_).congr (w.readied_same c parent).2
      obtain ⟨i, -, -, rfl⟩ := htexts m hm
      exact ⟨_, rfl⟩
    have hcs := elementChildren_place (w.readied c).document c.anchor.parent c.element
      (putBack c.anchor.prev c.anchor.next c.element) parent
    rw [← hdoc] at hcs
    by_cases hparent : parent = c.anchor.parent
    · subst hparent
      have hsize : c.anchor.parent < (w.readied c).document.nodes.size :=
        Nat.lt_of_lt_of_le hf.parent (w.spares_readied c fun _ => True).size
      rw [if_pos ⟨rfl, hsize⟩] at hcs
      obtain ⟨before, after, hbetween, hprev, hnext⟩ := hmarks
      have helement {n : NodeId} (hn : n ∈ before ++ c.element :: after) :
          (w.readied c).document.isElement n = true := by
        rw [← hbetween] at hn
        rw [isElement_congr hkind]
        exact (List.mem_filter.1 hn).2
      rw [filter_putBack, hprev, hnext] at hcs
      · refine hready.inserted hbetween ((hd₀.nodup _).filter _) (fun hmem => ?_) hcs
        rw [(w.readied_same c _).2] at hmem
        exact hd.not_mem_of_parent hp _ (List.mem_filter.1 hmem).1
      · exact helement (List.mem_append_right _ (List.mem_cons_self ..))
      · intro n hn
        rw [hprev] at hn
        exact helement (List.mem_append_left _ (List.mem_of_getLast? hn))
      · intro n hn
        rw [hnext] at hn
        exact helement (List.mem_append_right _ (List.mem_cons_of_mem _ (List.mem_of_mem_head? hn)))
    · rw [if_neg fun hn => hparent hn.1] at hcs
      refine (hready.other (fun n hn => beq_false_of_ne ?_) fun e he => ?_).congr hcs
      · rintro rfl
        exact hparent (hd₀.eq_of_mem (List.mem_filter.1 hn).1 hmarks.mem)
      · cases he
        exact hparent rfl

end Settled

end World

section Prepare

variable {p : Part} {o : DirectiveOptions}

theorem elementChildren_removeAll (d : Document) (parent : NodeId) {olds : List NodeId}
    (h : ∀ t ∈ olds, d.isElement t = false) (n : NodeId) :
    (olds.foldl (fun d old => d.removeChild parent old) d).elementChildren n =
      d.elementChildren n := by
  induction olds generalizing d with
  | nil => rfl
  | cons old olds ih =>
    have hkind := isElement_congr (rewires_removeChild d parent old).kind
    rw [List.foldl_cons, ih _ fun t ht => hkind ▸ h t (List.mem_cons_of_mem _ ht),
      elementChildren_removeChild]
    split
    · refine List.erase_of_not_mem fun hmem => ?_
      have hold := (List.mem_filter.1 hmem).2
      rw [h old (List.mem_cons_self ..)] at hold
      cases hold
    · rfl

theorem elementChildren_createText (hd : d.Consistent) (data : String) (n : NodeId) :
    (d.createText data).2.elementChildren n = d.elementChildren n := by
  rw [elementChildren, Part.children_createText]
  refine List.filter_congr fun m hm => ?_
  rw [isElement, node_createText, if_neg (Nat.ne_of_lt (hd.child_lt hm)), isElement]

theorem Part.elementChildren_inserted (hd : d.Consistent) (n : NodeId) :
    (p.inserted d).elementChildren n = d.elementChildren n := by
  have hnew : (d.createText p.text).2.isElement d.nodes.size = false := by
    rw [isElement, node_createText, if_pos rfl]
    rfl
  have hfree : ((d.createText p.text).2.node d.nodes.size).parent = none := by
    rw [node_createText, if_pos rfl]
    rfl
  rw [← elementChildren_createText hd p.text n]
  unfold inserted
  split
  · rw [insertBefore, detach_of_parent hfree, elementChildren_place]
    split
    · exact filter_beforeReference_of_not hnew _
    · rfl
  · rw [append, detach_of_parent hfree, elementChildren_place]
    split
    · rw [List.filter_append, List.filter_cons_of_neg (Bool.not_eq_true _ ▸ hnew), List.filter_nil,
        List.append_nil, elementChildren]
    · rfl

theorem Part.elementChildren_prepare (hd : d.Consistent)
    (htexts : ∀ t ∈ p.texts, t < d.nodes.size ∧ d.isElement t = false) (n : NodeId) :
    (p.prepare o d).elementChildren n = d.elementChildren n := by
  have hattribute (m : NodeId) :
      ((d.removeAttribute p.element o.onClick).node m).kind = (d.node m).kind := by
    rw [node_removeAttribute]
    split <;> rfl
  have hsame := elementChildren_congr hattribute (children_removeAttribute d p.element o.onClick n)
  cases hi : p.interpolation with
  | none => rw [prepare_of_none o d hi, hsame]
  | some i =>
    rw [prepare_of_some o d hi, elementChildren_removeAll,
      elementChildren_inserted (hd.removeAttribute ..), hsame]
    intro t ht
    obtain ⟨hlt, helement⟩ := htexts t ht
    have hgrows := (d.grows_removeAttribute p.element o.onClick).trans (p.grows_inserted _)
    rwa [isElement, hgrows.kind t hlt]

theorem elementChildren_prepareAll {ps : List Part} (hd : d.Consistent)
    (hps : ∀ p ∈ ps, p.element < d.nodes.size ∧
      ∀ t ∈ p.texts, t < d.nodes.size ∧ d.isElement t = false) (n : NodeId) :
    (ps.foldl (fun d p => p.prepare o d) d).elementChildren n = d.elementChildren n := by
  induction ps generalizing d with
  | nil => rfl
  | cons p ps ih =>
    obtain ⟨hp, htexts⟩ := hps p (List.mem_cons_self ..)
    have hs : d.Spares (fun _ => False) (p.prepare o d) := .prepare o hp fun _ _ => id
    have hgrows := p.grows_prepare o d
    rw [List.foldl_cons, ih (hs.consistent hd) fun q hq => ?_,
      Part.elementChildren_prepare hd htexts]
    obtain ⟨hlt, hq⟩ := hps q (List.mem_cons_of_mem _ hq)
    refine ⟨Nat.lt_of_lt_of_le hlt hs.size, fun t ht => ?_⟩
    obtain ⟨htlt, helement⟩ := hq t ht
    exact ⟨Nat.lt_of_lt_of_le htlt hs.size, by rwa [isElement, hgrows.kind t htlt]⟩

theorem Mirror.elementChildren_prepare (hd : d.Consistent) {m : Mirror} (hf : m.Follows o d)
    (hlt : ∀ p ∈ m.parts, p.element < d.nodes.size) (n : NodeId) :
    (m.prepare o d).elementChildren n = d.elementChildren n := by
  refine elementChildren_prepareAll hd (fun p hp => ⟨hlt p hp, fun t ht => ?_⟩) n
  obtain ⟨hmem, htext⟩ := (hf.reads p hp).texts t ht
  exact ⟨hd.child_lt hmem, Bool.not_eq_true _ ▸ not_isElement_of_isText htext⟩

end Prepare

theorem Mirror.Follows.marks {o : DirectiveOptions} {m : Mirror} (hf : m.Follows o d)
    (hc : .conditional c ∈ m.directives) : c.anchor.Marks d c.element := by
  rw [← directivesOfAll_singleton] at hc
  obtain ⟨p, inner, cond, -, hparts, hcond, rfl⟩ := hf.conditional ((mem_conditionalsOf _).1 hc)
  exact ((hf.reads p (hparts p (List.mem_cons_self ..))).condition cond hcond).1

theorem upheld_arranged (hsep : Separate ds) (hinj : Unshared ds) (hd₀ : d₀.Consistent)
    (hmarks : ∀ {c}, .conditional c ∈ ds → c.anchor.Marks d₀ c.element) :
    Upheld ds fun w : World σ => w.Placed ds d₁ ∧ w.Arranged d₀ := by
  have hplaced := upheld_placed (σ := σ) hsep hinj d₁
  refine ⟨fun hd hp h => ⟨hplaced.shown hd hp h.1, ?_⟩, fun w i hi h => ?_, fun w c visible hc h => ?_⟩
  · exact ⟨hd ▸ h.2.kind, hd ▸ h.2.siblings⟩
  · exact ⟨hplaced.refreshed w i hi h.1, h.2.refreshed i⟩
  · refine ⟨hplaced.settled w c visible hc h.1, ?_⟩
    have hparent := h.1.parent hc
    cases visible <;> cases hpres : w.presence c.cell <;> simp only [World.settled, hpres]
    · exact h.2.withdrawn hd₀ (hmarks hc) h.1.consistent (by rw [hparent, hpres]; rfl)
    · exact h.2
    · exact h.2
    · exact h.2.restored hd₀ (hmarks hc) h.1.consistent (h.1.fits hc) (by rw [hparent, hpres]; rfl)

/-- Among the element children of each node, the journal tells which ones have stayed away, and whether
all came back in order. If never more than one was away, all did. -/
def World.InOrder (d₀ : Document) (w : World σ) : Prop :=
  ∃ J, w.document.journal = d₀.journal ++ J ∧ ∀ parent,
    Siblings (d₀.elementChildren parent) parent J w.document ∧
      ((∀ pre, pre <+: J →
          ((d₀.elementChildren parent).filter fun n => !stands pre n).length ≤ 1) →
        w.document.elementChildren parent = (d₀.elementChildren parent).filter (stands J))

namespace Component

theorem mounted_in_order {beyond : Emit σ} (hb : Run.Idle beyond) {w₀ : World σ}
    (hd : w₀.document.Consistent)
    (hs : ∀ o ∈ w₀.store.observers, ∃ body, o.2 = .script body) {o : MountOptions σ} {depth : Nat}
    {c : Component σ} {w₁ w : World σ}
    (hmount : Act.Ends (mount (Run.broadcastOver beyond depth) o) w₀ (.ok (some c)) w₁)
    (h : Reaches (Run.broadcastOver beyond depth) c w₁ w) :
    (∀ parent, (prepare o.directives c.root w₀).document.elementChildren parent =
      w₀.document.elementChildren parent) ∧
    Throughout (World.InOrder (prepare o.directives c.root w₀).document) o beyond depth c w₀ w₁ w := by
  obtain ⟨-, hds, element, hquery, hm⟩ := exists_planned hmount
  obtain ⟨s', hlaid⟩ := Mirror.laid_ofElement hm
  have hsep := Mirror.separate_of_laid hlaid
  obtain ⟨hplaced, hinj⟩ := placed_prepare hd hquery hm
  obtain ⟨hunder, parent, hparent⟩ := parent_of_query hd hquery
  have hdeep := hd.deep_children hunder (Consistent.lt_of_parent hparent)
  obtain ⟨hf, -⟩ := Mirror.follows_of_deep hdeep hm
  have hparts : Mirror.partsOfAll [c.root] = c.root.parts := List.append_nil _
  have hsame := Mirror.elementChildren_prepare hd hf fun p hp =>
    Mirror.part_lt hd hparent hm (hparts ▸ hp)
  refine ⟨hsame, throughout hb hs hmount h (P := fun w => w.Placed c.directives w₀.document ∧
    w.Arranged (prepare o.directives c.root w₀).document) ?_ ?_ fun hw => ?_⟩
  · rw [hds]
    refine upheld_arranged hsep hinj hplaced.consistent fun {c'} hc' => ?_
    obtain ⟨before, after, hbetween, hprev, hnext⟩ := hf.marks hc'
    exact ⟨before, after, (hsame _).trans hbetween, hprev, hnext⟩
  · rw [hds]
    exact ⟨hplaced, World.arranged_start rfl⟩
  · obtain ⟨J, hJ, hsib⟩ := hw.holds.2.siblings
    exact ⟨J, hJ, fun parent => ⟨hsib parent, (hsib parent).ordered_of_one_absent⟩⟩

def rows : World Unit where
  store := Store.ofFields [("first", .bool true), ("second", .bool true)]
  document := Document.ofForest [.element () "ul" []
    [.element () "li" [("show-if", "first")] [.text () "A"],
      .element () "li" [("show-if", "second")] [.text () "B"], .element () "li" [] [.text () "C"]]]
  presences := #[]
  memory := ()

def rowsOptions : MountOptions Unit where
  selector := "ul"
  methods := []
  directives := .default
  tracked := true

def rowsCalls : List Call :=
  [.set "first" (.bool false), .set "second" (.bool false), .set "first" (.bool true),
    .set "second" (.bool true)]

/-- The first row comes back while the second is away, and ends up last. -/
theorem mounted_in_order_rows :
    ∃ c w₁ w, Act.Ends (mount (Run.broadcastOver Run.endless 2) rowsOptions) rows
        (.ok (some c)) w₁ ∧
      Reaches (Run.broadcastOver Run.endless 2) c w₁ w ∧
      Throughout (World.InOrder (prepare rowsOptions.directives c.root rows).document) rowsOptions
        Run.endless 2 c rows w₁ w ∧
      w.document.toHtml =
        "<ul><li show-if=\"second\">B</li><li>C</li><li show-if=\"first\">A</li></ul>" := by
  have hrun : (Act.found? (session (Run.broadcastOver Run.endless 2) rowsOptions rowsCalls)
      rows).map (fun r => r.2.document.toHtml) =
      some "<ul><li show-if=\"second\">B</li><li>C</li><li show-if=\"first\">A</li></ul>" := by
    decide +kernel
  obtain ⟨⟨⟨c, rs⟩, w⟩, hfound, hhtml⟩ := Option.map_eq_some_iff.1 hrun
  obtain ⟨w₁, hmount, hcalls⟩ := ends_session (Act.ends_of_found? hfound)
  have hreach := Reaches.mounted.performAll hcalls
  have hs : ∀ o ∈ rows.store.observers, ∃ body, o.2 = .script body := nofun
  obtain ⟨-, hthroughout⟩ :=
    mounted_in_order Run.idle_endless (consistent_ofForest _) hs hmount hreach
  exact ⟨c, w₁, w, hmount, hreach, hthroughout, hhtml⟩

end Component

end LiveMarkup
