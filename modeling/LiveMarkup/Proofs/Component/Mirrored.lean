import LiveMarkup.Proofs.Component.Rewritten

/-!
What mounting makes of a document. Part after part rewrites its own element; together they mirror the tree
under the selected element and leave everything else as it is.
-/

namespace LiveMarkup

namespace Part

open Document

variable {o : DirectiveOptions} {d d' : Document} {p : Part} {S : Set NodeId} {n : NodeId}

theorem ownTexts_ne_nil (h : d.Interpolates o n) : d.ownTexts n ≠ [] := by
  intro hnil
  have hempty : TemplatePart.hasPlaceholder o.opening o.closing "" = true := by
    rwa [Interpolates, ownText, hnil] at h
  rw [← Template.isSome_ofText?, Mirror.ofText?_empty] at hempty
  cases hempty

theorem exists_first_text (h : d.ownTexts n ≠ []) :
    ∃ before first after, (d.node n).children = before ++ first :: after ∧
      (∀ m ∈ before, d.isText m = false) ∧ d.isText first = true := by
  obtain ⟨first, rest, hcons⟩ := List.exists_cons_of_ne_nil h
  obtain ⟨before, after, hold, hbefore, hfirst, -⟩ := List.filter_eq_cons_iff.1 hcons
  exact ⟨before, first, after, hold, fun m hm => Bool.not_eq_true _ ▸ hbefore m hm, hfirst⟩

theorem diff_texts {q : NodeId → Bool} {before after : List NodeId} {first new : NodeId}
    (hbefore : ∀ m ∈ before, q m = false) (hfirst : q first = true)
    (hnodup : (before ++ new :: first :: after).Nodup) :
    (before ++ new :: first :: after).diff ((before ++ first :: after).filter q) =
      before ++ new :: after.filter fun m => !q m := by
  have hnew : new ∉ before ++ first :: after := by
    have hperm : (before ++ new :: first :: after).Perm (new :: (before ++ first :: after)) :=
      List.perm_middle
    exact (List.nodup_cons.1 (hperm.nodup_iff.1 hnodup)).1
  have hkeep {m : NodeId} (hm : m ∈ before ++ first :: after) :
      decide (m ∉ (before ++ first :: after).filter q) = !q m := by
    simp only [List.mem_filter, hm, true_and]
    cases q m <;> rfl
  have hstays : before.filter (fun m => decide (m ∉ (before ++ first :: after).filter q)) =
      before := by
    refine List.filter_eq_self.2 fun m hm => ?_
    rw [hkeep (List.mem_append_left _ hm), hbefore m hm]
    rfl
  rw [hnodup.sdiff_eq_filter, List.filter_append, hstays, List.filter_cons_of_pos,
    List.filter_cons_of_neg]
  · refine congrArg (before ++ new :: ·) (List.filter_congr fun m hm => ?_)
    exact hkeep (List.mem_append_right _ (List.mem_cons_of_mem _ hm))
  · rw [hkeep (List.mem_append_right _ (List.mem_cons_self ..)), hfirst]
    exact Bool.false_ne_true
  · exact decide_eq_true fun hm => hnew (List.mem_filter.1 hm).1

theorem children_foldl_removeChild (parent : NodeId) (olds : List NodeId) (d : Document) :
    ((olds.foldl (fun d old => d.removeChild parent old) d).node parent).children =
      (d.node parent).children.diff olds := by
  induction olds generalizing d with
  | nil => rfl
  | cons old olds ih => rw [List.foldl_cons, ih, children_removeChild, if_pos rfl, List.diff_cons]

theorem journal_foldl_removeChild (parent : NodeId) (olds : List NodeId) (d : Document) :
    ∃ ms, (olds.foldl (fun d old => d.removeChild parent old) d).journal = d.journal ++ ms ∧
      ∀ m ∈ ms, ∃ old ∈ olds, m = .removed parent old := by
  induction olds generalizing d with
  | nil => exact ⟨[], (List.append_nil _).symm, nofun⟩
  | cons old olds ih =>
    obtain ⟨ms, hms, hold⟩ := ih (d.removeChild parent old)
    have hlater {m : Mutation} (hm : m ∈ ms) : ∃ old' ∈ old :: olds, m = .removed parent old' := by
      obtain ⟨old', hmem, rfl⟩ := hold m hm
      exact ⟨old', List.mem_cons_of_mem _ hmem, rfl⟩
    rw [List.foldl_cons, hms, removeChild]
    split
    · refine ⟨.removed parent old :: ms, List.append_assoc .., fun m hm => ?_⟩
      rcases List.mem_cons.1 hm with rfl | hm
      · exact ⟨old, List.mem_cons_self .., rfl⟩
      · exact hlater hm
    · exact ⟨ms, rfl, fun m hm => hlater hm⟩

theorem bare_inserted (p : Part) (d : Document) (n : NodeId) : ((p.inserted d).node n).bare =
    (if n = d.nodes.size then Node.text p.text else d.node n).bare := by
  obtain ⟨arrange, heq, -⟩ := p.inserted_eq_place d
  rw [heq, (rewires_place ..).bare, node_createText]

theorem inserted_of_texts {first : NodeId} {rest : List NodeId} (h : p.texts = first :: rest) :
    p.inserted d = (d.createText p.text).2.place p.element d.nodes.size
      (beforeReference d.nodes.size first) := by
  have hfree : ((d.createText p.text).2.node d.nodes.size).parent = none := by
    rw [node_createText, if_pos rfl]
    rfl
  rw [inserted, h]
  simp only
  rw [insertBefore, detach_of_parent hfree]

theorem children_inserted {before after rest : List NodeId} {first : NodeId}
    (hlt : p.element < d.nodes.size) (htexts : p.texts = first :: rest)
    (hold : (d.node p.element).children = before ++ first :: after) (hapart : first ∉ before) :
    ((p.inserted d).node p.element).children = before ++ d.nodes.size :: first :: after := by
  have hbound : p.element < (d.createText p.text).2.nodes.size := by
    rw [size_createText]
    exact Nat.lt_succ_of_lt hlt
  rw [inserted_of_texts htexts, children_place, if_pos ⟨rfl, hbound⟩, children_createText, hold,
    beforeReference_append hapart]

theorem texts_eq_cons {before after : List NodeId} {first : NodeId}
    (hold : (d.node n).children = before ++ first :: after)
    (hbefore : ∀ m ∈ before, d.isText m = false) (hfirst : d.isText first = true) :
    d.ownTexts n = first :: after.filter d.isText ∧ first ∉ before := by
  have hnone : before.filter d.isText = [] :=
    List.filter_eq_nil_iff.2 fun m hm => Bool.not_eq_true _ ▸ hbefore m hm
  constructor
  · rw [ownTexts, hold, List.filter_append, hnone, List.filter_cons_of_pos hfirst]
    rfl
  · intro hm
    rw [hbefore first hm] at hfirst
    cases hfirst

theorem Copies.interpolates_iff (h : p.Copies o d) :
    d.Interpolates o p.element ↔ p.interpolation.isSome = true := by
  rw [Interpolates, ← Template.isSome_ofText?, ← h.template, Option.isSome_map]

theorem Copies.rewrites (hd : d.Consistent) (h : p.Copies o d) (hr : d.Rewrites o S d')
    (hlt : p.element < d.nodes.size) (hS : p.element ∉ S) : p.Copies o d' where
  element := (hr.isElement hlt).trans h.element
  tag := h.tag.trans (hr.content hlt).2.1.symm
  attributes := by rw [h.attributes, hr.attributes hlt hS]
  texts := h.texts.trans (hr.ownTexts hd hS).symm
  text := h.text.trans (hr.ownText hd hS).symm
  template := by rw [h.template, hr.ownText hd hS]

theorem rewrites_removeAttribute (hd : d.Consistent) (hn : n < d.nodes.size)
    (hi : ¬d.Interpolates o n) : d.Rewrites o {n} (d.removeAttribute n o.onClick) where
  consistent := hd.removeAttribute ..
  size := Nat.le_of_eq (size_removeAttribute ..).symm
  stripped m hm := by
    obtain rfl := hm
    rw [node_removeAttribute, if_pos ⟨rfl, hn⟩]
    rfl
  kept m _ hm := by rw [node_removeAttribute, if_neg fun h => hm h.1]
  merged m hm hm' := absurd (hm ▸ hm') hi
  children m _ := children_removeAttribute ..
  fresh m hle hlt := absurd (size_removeAttribute d n o.onClick ▸ hlt) (Nat.not_lt.2 hle)
  told := ⟨[], (List.append_nil _).symm, nofun⟩

section Some

variable {i : Interpolation}

theorem Copies.interpolates (h : p.Copies o d) (hi : p.interpolation = some i) :
    d.Interpolates o p.element := by
  rw [h.interpolates_iff, hi]
  rfl

theorem bare_prepare (hi : p.interpolation = some i) (n : NodeId) :
    ((p.prepare o d).node n).bare = (if n = d.nodes.size then Node.text p.text
      else (d.removeAttribute p.element o.onClick).node n).bare := by
  rw [prepare_of_some o d hi, (rewires_foldl_removeChild ..).bare, bare_inserted,
    size_removeAttribute]

theorem children_prepare (hd : d.Consistent) (hlt : p.element < d.nodes.size)
    (htexts : p.texts = d.ownTexts p.element) (hi : p.interpolation = some i)
    {before after : List NodeId} {first : NodeId}
    (hold : (d.node p.element).children = before ++ first :: after)
    (hbefore : ∀ m ∈ before, d.isText m = false) (hfirst : d.isText first = true) :
    ((p.prepare o d).node p.element).children =
      before ++ d.nodes.size :: after.filter fun m => !d.isText m := by
  have hs := size_removeAttribute d p.element o.onClick
  obtain ⟨hcons, hapart⟩ := texts_eq_cons hold hbefore hfirst
  have hspares : (d.removeAttribute p.element o.onClick).Spares (fun _ => False)
      (p.inserted (d.removeAttribute p.element o.onClick)) :=
    .inserted (hs ▸ hlt) (hs ▸ Nat.zero_lt_of_lt hlt)
  have hnodup := (hspares.consistent (hd.removeAttribute ..)).nodup p.element
  have hinserted := children_inserted (hs ▸ hlt) (htexts.trans hcons)
    ((children_removeAttribute d p.element o.onClick p.element).trans hold) hapart
  rw [hinserted, hs] at hnodup
  rw [prepare_of_some o d hi, children_foldl_removeChild, hinserted, hs, htexts, ownTexts, hold,
    diff_texts hbefore hfirst hnodup]

theorem journal_prepare (hi : p.interpolation = some i) :
    ∃ ms, (p.prepare o d).journal = d.journal ++ .inserted p.element d.nodes.size :: ms ∧
      ∀ m ∈ ms, ∃ t ∈ p.texts, m = .removed p.element t := by
  obtain ⟨arrange, heq, -⟩ := p.inserted_eq_place (d.removeAttribute p.element o.onClick)
  obtain ⟨ms, hms, hold⟩ := journal_foldl_removeChild p.element p.texts
    (p.inserted (d.removeAttribute p.element o.onClick))
  refine ⟨ms, ?_, hold⟩
  rw [prepare_of_some o d hi, hms, heq, ← List.singleton_append, ← List.append_assoc,
    ← size_removeAttribute d p.element o.onClick]
  rfl

theorem merges_prepare (hd : d.Consistent) (h : p.Copies o d) (hlt : p.element < d.nodes.size)
    (hi : p.interpolation = some i) : d.Merges (p.prepare o d) p.element d.nodes.size := by
  have hp := h.interpolates hi
  have hspares : d.Spares (fun _ => False) (p.prepare o d) := .prepare o hlt fun _ _ => id
  obtain ⟨before, first, after, hold, hbefore, hfirst⟩ := exists_first_text (ownTexts_ne_nil hp)
  have hnew := children_prepare (o := o) hd hlt h.texts hi hold hbefore hfirst
  have hmem : d.nodes.size ∈ ((p.prepare o d).node p.element).children :=
    hnew ▸ List.mem_append_right _ (List.mem_cons_self ..)
  refine ⟨Node.eq_of_bare ?_ (((hspares.consistent hd).links ..).1 hmem) ?_,
    before, first, after, hold, hbefore, hfirst, hnew⟩
  · rw [bare_prepare hi, if_pos rfl, h.text]
    rfl
  · rw [children_prepare_of_ne o fun _ => Nat.ne_of_lt hlt, node_of_le (Nat.le_refl _)]
    rfl

theorem rewrites_prepare (hd : d.Consistent) (h : p.Copies o d) (hlt : p.element < d.nodes.size)
    (hi : p.interpolation = some i) : d.Rewrites o {p.element} (p.prepare o d) where
  consistent := by
    have hspares : d.Spares (fun _ => False) (p.prepare o d) := .prepare o hlt fun _ _ => id
    exact hspares.consistent hd
  size := size_prepare o p d ▸ Nat.le_add_right ..
  stripped n hn := by
    obtain rfl := hn
    rw [bare_prepare hi, if_neg (Nat.ne_of_lt hlt), node_removeAttribute, if_pos ⟨rfl, hlt⟩]
    rfl
  kept n hlt hn := by
    rw [bare_prepare hi, if_neg (Nat.ne_of_lt hlt), node_removeAttribute, if_neg fun hm => hn hm.1]
  merged n hn _ := by
    obtain rfl := hn
    exact ⟨d.nodes.size, Nat.le_refl _, merges_prepare hd h hlt hi⟩
  children n hn := by
    refine children_prepare_of_ne o fun _ heq => ?_
    exact hn heq.symm (heq ▸ h.interpolates hi)
  fresh m hle hm := by
    rw [size_prepare, hi] at hm
    obtain rfl : m = d.nodes.size := Nat.le_antisymm (Nat.le_of_lt_succ hm) hle
    exact ⟨p.element, rfl, h.interpolates hi, (merges_prepare hd h hlt hi).mem_children⟩
  told := by
    obtain ⟨ms, hms, hold⟩ := journal_prepare (o := o) (d := d) hi
    refine ⟨_, hms, fun m hm => ⟨p.element, rfl, h.interpolates hi, ?_⟩⟩
    rcases List.mem_cons.1 hm with rfl | hm
    · exact .inl ⟨_, Nat.le_refl _, rfl⟩
    · obtain ⟨t, ht, rfl⟩ := hold m hm
      exact .inr ⟨t, h.texts ▸ ht, rfl⟩

end Some

theorem Copies.prepares (hd : d.Consistent) (h : p.Copies o d) (hlt : p.element < d.nodes.size) :
    d.Rewrites o {p.element} (p.prepare o d) := by
  cases hi : p.interpolation with
  | none =>
    rw [prepare_of_none o d hi]
    refine rewrites_removeAttribute hd hlt fun hp => ?_
    rw [h.interpolates_iff, hi] at hp
    cases hp
  | some i => exact rewrites_prepare hd h hlt hi

end Part

section All

open Document

variable {o : DirectiveOptions} {d : Document} {ps : List Part}

theorem rewrites_prepareAll (hd : d.Consistent)
    (hps : ∀ p ∈ ps, p.Copies o d ∧ p.element < d.nodes.size)
    (hnodup : (ps.map Part.element).Nodup) :
    d.Rewrites o {n | n ∈ ps.map Part.element} (ps.foldl (fun d p => p.prepare o d) d) := by
  induction ps generalizing d with
  | nil =>
    have hset : {n | n ∈ ([] : List Part).map Part.element} = ∅ :=
      Set.eq_empty_of_forall_notMem fun _ => List.not_mem_nil
    rw [hset]
    exact .refl hd
  | cons p ps ih =>
    obtain ⟨hcopies, hlt⟩ := hps p (List.mem_cons_self ..)
    obtain ⟨hnot, hnodup⟩ := List.nodup_cons.1 hnodup
    have hp := hcopies.prepares hd hlt
    have hlater {q : Part} (hq : q ∈ ps) : q.Copies o d ∧ q.element < d.nodes.size :=
      hps q (List.mem_cons_of_mem _ hq)
    have hrest := ih hp.consistent (fun q hq => ?_) hnodup
    · have hset : {n | n ∈ (p :: ps).map Part.element} =
          {p.element} ∪ {n | n ∈ ps.map Part.element} := Set.ext fun n => List.mem_cons
      rw [hset, List.foldl_cons]
      refine hp.trans hd (fun n hn => hn ▸ hlt) (fun n hn => ?_) ?_ hrest
      · obtain ⟨q, hq, rfl⟩ := List.mem_map.1 hn
        exact (hlater hq).2
      · rintro n rfl
        exact hnot
    · obtain ⟨hq', hltq⟩ := hlater hq
      refine ⟨hq'.rewrites hd hp hltq fun heq => hnot ?_, Nat.lt_of_lt_of_le hltq hp.size⟩
      exact heq ▸ List.mem_map_of_mem hq

theorem copies_prepareAll (hd : d.Consistent)
    (hps : ∀ p ∈ ps, p.Copies o d ∧ p.element < d.nodes.size)
    (hnodup : (ps.map Part.element).Nodup) {before after : List Part} {p : Part}
    (heq : ps = before ++ p :: after) :
    p.Copies o (before.foldl (fun d p => p.prepare o d) d) ∧
      (before.foldl (fun d p => p.prepare o d) d).elementChildren p.element =
        d.elementChildren p.element := by
  subst heq
  obtain ⟨hcopies, hlt⟩ := hps p (List.mem_append_right _ (List.mem_cons_self ..))
  rw [List.map_append, List.map_cons] at hnodup
  obtain ⟨hbefore, -, hapart⟩ := List.nodup_append.1 hnodup
  have hr := rewrites_prepareAll hd (fun q hq => hps q (List.mem_append_left _ hq)) hbefore
  have hnot : p.element ∉ before.map Part.element := fun hmem =>
    hapart _ hmem _ (List.mem_cons_self ..) rfl
  exact ⟨hcopies.rewrites hd hr hlt hnot, hr.elementChildren hd hnot⟩

end All

namespace Component

open Document

variable {σ : Type} {w : World σ} {target : NodeId}

/-- A mirror for each element of the tree under `target`, nested and ordered as they are, and the document
rewritten for them: click attributes are gone, and so are texts that hold a placeholder. -/
structure Mirrors (o : DirectiveOptions) (w : World σ) (target : NodeId) (root : Mirror) : Prop where
  element : root.part.element = target
  reflects : root.Reflects o w.document
  once : (root.parts.map Part.element).Nodup
  size : root.size = {n | w.document.ElementUnder target n}.ncard
  find : ∀ n, (∃ p, root.find? n = some p ∧ p.element = n) ↔ w.document.ElementUnder target n
  turn : ∀ before p after, root.parts = before ++ p :: after →
    p.Copies o (before.foldl (fun d p => p.prepare o d) w.document) ∧
      (before.foldl (fun d p => p.prepare o d) w.document).elementChildren p.element =
        w.document.elementChildren p.element
  rewrites : w.document.Rewrites o {n | w.document.ElementUnder target n} (prepare o root w).document
  attributes : ∀ n, w.document.ElementUnder target n →
    ((w.document.node n).attributes.map Prod.fst).Nodup → ∀ name,
      (prepare o root w).document.attribute? n name =
        if name = o.onClick then none else w.document.attribute? n name
  detached : ∀ n, w.document.ElementUnder target n → w.document.Interpolates o n →
    ∀ t ∈ w.document.ownTexts n, ((prepare o root w).document.node t).parent = none
  parent : ∀ m < w.document.nodes.size, (∀ n, w.document.ElementUnder target n →
    w.document.Interpolates o n → m ∉ w.document.ownTexts n) →
      ((prepare o root w).document.node m).parent = (w.document.node m).parent

theorem mirrors_of_reflects {o : DirectiveOptions} {root : Mirror} (hd : w.document.Consistent)
    (hroot : w.document.Under Document.root target) (hlt : target < w.document.nodes.size)
    (helement : root.part.element = target) (h : root.Reflects o w.document) :
    Mirrors o w target root := by
  subst helement
  have hnodup := h.nodup hd hroot
  have hps (p : Part) (hp : p ∈ root.parts) :
      p.Copies o w.document ∧ p.element < w.document.nodes.size :=
    ⟨h.copies p hp, (h.elementUnder p hp).lt hd hlt⟩
  have hset : {n | w.document.ElementUnder root.part.element n} =
      {n | n ∈ root.parts.map Part.element} :=
    Set.ext fun n => h.exists_part_iff.symm.trans List.mem_map.symm
  have hr : w.document.Rewrites o {n | w.document.ElementUnder root.part.element n}
      (prepare o root w).document := by
    rw [hset]
    exact rewrites_prepareAll hd hps hnodup
  exact ⟨rfl, h, hnodup, h.size hd hroot, fun n => h.find?_iff,
    fun before p after heq => copies_prepareAll hd hps hnodup heq, hr,
    fun n hn hnames => hr.attribute?_eq hn hnames, fun n hn hi t ht => hr.parent_eq_none hd hn hi ht,
    fun m hm hnot => hr.parent_eq hd hm hnot⟩

/-- Mounting mirrors the tree under the selected element, and before any directive runs the document is
changed only in what is mirrored. -/
theorem mount_mirrors {emit : Emit σ} {o : MountOptions σ} (hd : w.document.Consistent)
    (hquery : w.document.query o.selector = some target) :
    ∃ root, Mirrors o.directives w target root ∧
      (∀ r w', Act.Ends (mount emit o) w r w' ↔
        Act.Ends (start emit o.methods o.tracked root >>= fun c => pure (some c))
          (prepare o.directives root w) r w') ∧
      ∀ c w', Act.Ends (mount emit o) w (.ok (some c)) w' → c.root = root := by
  obtain ⟨hroot, parent, hparent⟩ := parent_of_query hd hquery
  have hlt := Consistent.lt_of_parent hparent
  obtain ⟨root, hm, helement, hreflects⟩ := Mirror.exists_ofElement
    (hd.deep_children hroot hlt) (isElement_of_query hd hquery) w.presences.size
  have hplan : planned o w = some root := Option.bind_eq_some_iff.2 ⟨target, hquery, hm⟩
  refine ⟨root, mirrors_of_reflects hd hroot hlt helement hreflects, fun r w' => ?_,
    fun c w' hc => ?_⟩
  · rw [ends_mount, hplan]
  · obtain ⟨root', hplan', hstart⟩ := ends_mount_some hc
    obtain ⟨ids, -, rfl⟩ := ends_start_ok.1 hstart
    exact Option.some.inj (hplan'.symm.trans hplan)

def panel : World Unit where
  store := Store.ofFields [("name", .string "Ann")]
  document := Document.ofForest [.element () "p" [] [.text () "\x7b\x7bname\x7d\x7d"],
    .element () "ul" [("on-click", "go")] [.comment () "rows", .text () "To \x7b\x7bname",
      .element () "li" [("on-click", "go"), ("id", "row")] [.text () "A"], .text () "\x7d\x7d."]]
  presences := #[]
  memory := ()

def panelOptions : MountOptions Unit where
  selector := "ul"
  methods := []
  directives := .default
  tracked := true

theorem mount_mirrors_panel :
    panel.document.query "ul" = some 3 ∧
    ∃ c w, Act.Ends (mount (Run.broadcast 1) panelOptions) panel (.ok (some c)) w ∧
      Mirrors .default panel 3 c.root ∧ w.document.toHtml =
        "<p>\x7b\x7bname\x7d\x7d</p><ul><!--rows-->To Ann.<li id=\"row\">A</li></ul>" := by
  have hquery : panel.document.query "ul" = some 3 := by decide +kernel
  have hrun : (Act.found? (mount (Run.broadcast 1) panelOptions) panel).map
      (fun r => r.2.document.toHtml) =
      some "<p>\x7b\x7bname\x7d\x7d</p><ul><!--rows-->To Ann.<li id=\"row\">A</li></ul>" := by
    decide +kernel
  obtain ⟨⟨c, w⟩, hfound, hhtml⟩ := Option.map_eq_some_iff.1 hrun
  have h := Act.ends_of_found? hfound
  have hd : panel.document.Consistent := Document.consistent_ofForest _
  obtain ⟨root, hmirrors, -, hroot⟩ := mount_mirrors (o := panelOptions) hd hquery
  exact ⟨hquery, c, w, h, hroot c w h ▸ hmirrors, hhtml⟩

end Component

end LiveMarkup
