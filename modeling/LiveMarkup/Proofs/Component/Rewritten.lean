import LiveMarkup.Proofs.Component.Reflected

/-!
Documents rewritten for some of their elements. Each of these loses its click attribute, and where its texts
hold a placeholder, one new text stands for them; all else stays as it is.
-/

namespace LiveMarkup

open LiveMarkup.Markup LiveMarkup.Expression

namespace Markup.Attributes

variable {as : Attributes} {name : String}

theorem find?_cons (a : String × String) (as : Attributes) (name : String) :
    find? name (a :: as) = if a.1 = name then some a.2 else find? name as := by
  rw [find?, List.find?_cons]
  by_cases h : a.1 = name
  · rw [if_pos h, beq_iff_eq.2 h]
    rfl
  · rw [if_neg h, beq_false_of_ne h]
    rfl

theorem remove_cons (name : String) (a : String × String) (as : Attributes) :
    remove name (a :: as) = if a.1 = name then as else a :: remove name as := by
  rw [remove, List.eraseP_cons]
  by_cases h : a.1 = name
  · rw [if_pos h, beq_iff_eq.2 h]
    rfl
  · rw [if_neg h, beq_false_of_ne h]
    rfl

theorem find?_eq_none (h : name ∉ as.map Prod.fst) : as.find? name = none := by
  induction as with
  | nil => rfl
  | cons a as ih =>
    obtain ⟨hne, h⟩ := List.ne_and_not_mem_of_not_mem_cons h
    rw [find?_cons, if_neg (Ne.symm hne), ih h]

theorem find?_remove (h : (as.map Prod.fst).Nodup) (name other : String) :
    (as.remove name).find? other = if other = name then none else as.find? other := by
  induction as with
  | nil => exact (ite_self none).symm
  | cons a as ih =>
    obtain ⟨hnot, h⟩ := List.nodup_cons.1 h
    rw [remove_cons]
    by_cases ha : a.1 = name
    · rw [if_pos ha, find?_cons]
      split
      · next heq => exact find?_eq_none (heq.trans ha.symm ▸ hnot)
      · next hne => rw [if_neg fun h => hne (h.symm.trans ha)]
    · rw [if_neg ha, find?_cons, find?_cons, ih h]
      by_cases hother : a.1 = other
      · rw [if_pos hother, if_pos hother, if_neg fun h => ha (hother.trans h)]
      · rw [if_neg hother, if_neg hother]

end Markup.Attributes

namespace Document

variable {o : DirectiveOptions} {d d' d'' : Document} {S T : Set NodeId} {n m : NodeId}

def Interpolates (o : DirectiveOptions) (d : Document) (n : NodeId) : Prop :=
  TemplatePart.hasPlaceholder o.opening o.closing (d.ownText n) = true

/-- One text with all they say stands where the first of the texts right below a node stood. The texts
are gone, and the others are in their order. -/
structure Merges (d d' : Document) (n new : NodeId) : Prop where
  node : d'.node new = { Node.text (d.ownText n) with parent := some n }
  children : ∃ before first after, (d.node n).children = before ++ first :: after ∧
    (∀ m ∈ before, d.isText m = false) ∧ d.isText first = true ∧
    (d'.node n).children = before ++ new :: after.filter fun m => !d.isText m

def Mutation.Merging (d : Document) (n : NodeId) (m : Mutation) : Prop :=
  (∃ new, d.nodes.size ≤ new ∧ m = .inserted n new) ∨ ∃ t ∈ d.ownTexts n, m = .removed n t

structure Rewrites (o : DirectiveOptions) (mounted : Set NodeId) (d d' : Document) : Prop where
  consistent : d'.Consistent
  size : d.nodes.size ≤ d'.nodes.size
  stripped : ∀ n ∈ mounted, (d'.node n).bare =
    { (d.node n).bare with attributes := (d.node n).attributes.remove o.onClick }
  kept : ∀ n < d.nodes.size, n ∉ mounted → (d'.node n).bare = (d.node n).bare
  merged : ∀ n ∈ mounted, d.Interpolates o n → ∃ new, d.nodes.size ≤ new ∧ d.Merges d' n new
  children : ∀ n, (n ∈ mounted → ¬d.Interpolates o n) → (d'.node n).children = (d.node n).children
  fresh : ∀ m, d.nodes.size ≤ m → m < d'.nodes.size →
    ∃ n ∈ mounted, d.Interpolates o n ∧ m ∈ (d'.node n).children
  told : ∃ ms, d'.journal = d.journal ++ ms ∧
    ∀ m ∈ ms, ∃ n ∈ mounted, d.Interpolates o n ∧ m.Merging d n

theorem Node.eq_of_bare {a b : Node} (hb : a.bare = b.bare) (hp : a.parent = b.parent)
    (hc : a.children = b.children) : a = b := by
  cases a
  cases b
  cases hp
  cases hc
  cases hb
  rfl

theorem Merges.mem_children {new : NodeId} (h : d.Merges d' n new) : new ∈ (d'.node n).children := by
  obtain ⟨before, first, after, -, -, -, hnew⟩ := h.children
  rw [hnew]
  exact List.mem_append_right _ (List.mem_cons_self ..)

namespace Rewrites

theorem content (h : d.Rewrites o S d') (hn : n < d.nodes.size) :
    (d'.node n).kind = (d.node n).kind ∧ (d'.node n).tag = (d.node n).tag ∧
      (d'.node n).data = (d.node n).data := by
  by_cases hS : n ∈ S
  · have hb := h.stripped n hS
    exact ⟨(congrArg Node.kind hb :), (congrArg Node.tag hb :), (congrArg Node.data hb :)⟩
  · have hb := h.kept n hn hS
    exact ⟨(congrArg Node.kind hb :), (congrArg Node.tag hb :), (congrArg Node.data hb :)⟩

theorem attributes (h : d.Rewrites o S d') (hn : n < d.nodes.size) (hS : n ∉ S) :
    (d'.node n).attributes = (d.node n).attributes :=
  (congrArg Node.attributes (h.kept n hn hS) :)

theorem isText (h : d.Rewrites o S d') (hn : n < d.nodes.size) : d'.isText n = d.isText n := by
  rw [Document.isText, Document.isText, (h.content hn).1]

theorem isElement (h : d.Rewrites o S d') (hn : n < d.nodes.size) :
    d'.isElement n = d.isElement n := by
  rw [Document.isElement, Document.isElement, (h.content hn).1]

theorem elementChildren (hd : d.Consistent) (h : d.Rewrites o S d') (hS : n ∉ S) :
    d'.elementChildren n = d.elementChildren n := by
  rw [Document.elementChildren, Document.elementChildren, h.children n fun hn => absurd hn hS]
  exact List.filter_congr fun m hm => h.isElement (hd.child_lt hm)

theorem ownTexts (hd : d.Consistent) (h : d.Rewrites o S d') (hS : n ∉ S) :
    d'.ownTexts n = d.ownTexts n := by
  rw [Document.ownTexts, Document.ownTexts, h.children n fun hn => absurd hn hS]
  exact List.filter_congr fun t ht => h.isText (hd.child_lt ht)

theorem ownText (hd : d.Consistent) (h : d.Rewrites o S d') (hS : n ∉ S) :
    d'.ownText n = d.ownText n := by
  rw [Document.ownText, Document.ownText, h.ownTexts hd hS]
  refine congrArg String.join (List.map_congr_left fun t ht => ?_)
  exact (h.content (hd.child_lt (mem_ownTexts.1 ht).1)).2.2

theorem interpolates_iff (hd : d.Consistent) (h : d.Rewrites o S d') (hS : n ∉ S) :
    d'.Interpolates o n ↔ d.Interpolates o n := by
  rw [Interpolates, h.ownText hd hS, Interpolates]

theorem refl (hd : d.Consistent) : d.Rewrites o ∅ d where
  consistent := hd
  size := Nat.le_refl _
  stripped _ hn := hn.elim
  kept _ _ _ := rfl
  merged _ hn := hn.elim
  children _ _ := rfl
  fresh _ hle hlt := absurd hlt (Nat.not_lt.2 hle)
  told := ⟨[], (List.append_nil _).symm, nofun⟩

theorem node_eq (h : d.Rewrites o S d') (hn : n < d.nodes.size) (hS : n ∉ S)
    (hp : (d'.node n).parent = (d.node n).parent) : d'.node n = d.node n :=
  Node.eq_of_bare (h.kept n hn hS) hp (h.children n fun hn => absurd hn hS)

theorem merges_later {new : NodeId} (hd : d'.Consistent) (h : d'.Rewrites o T d'') (hn : n ∉ T)
    (hnew : new ∉ T) (hm : d.Merges d' n new) : d.Merges d'' n new := by
  have hsame : (d''.node n).children = (d'.node n).children := h.children n fun hT => absurd hT hn
  have hparent : (d''.node new).parent = (d'.node new).parent := by
    rw [(h.consistent.links n new).1 (hsame ▸ hm.mem_children), hm.node]
  refine ⟨(h.node_eq (hd.child_lt hm.mem_children) hnew hparent).trans hm.node, ?_⟩
  rw [hsame]
  exact hm.children

theorem merges_earlier {new : NodeId} (hd : d.Consistent) (h : d.Rewrites o S d') (hn : n ∉ S)
    (hm : d'.Merges d'' n new) : d.Merges d'' n new := by
  have hsame : (d'.node n).children = (d.node n).children := h.children n fun hS => absurd hS hn
  refine ⟨h.ownText hd hn ▸ hm.node, ?_⟩
  obtain ⟨before, first, after, hold, hbefore, hfirst, hnew⟩ := hm.children
  rw [hsame] at hold
  have htext {m : NodeId} (hm : m ∈ before ++ first :: after) : d'.isText m = d.isText m :=
    h.isText (hd.child_lt (hold ▸ hm))
  refine ⟨before, first, after, hold, fun m hm => ?_, ?_, hnew.trans ?_⟩
  · rw [← htext (List.mem_append_left _ hm)]
    exact hbefore m hm
  · rw [← htext (List.mem_append_right _ (List.mem_cons_self ..))]
    exact hfirst
  · refine congrArg (before ++ new :: ·) (List.filter_congr fun m hm => ?_)
    rw [htext (List.mem_append_right _ (List.mem_cons_of_mem _ hm))]

theorem trans (hd : d.Consistent) (hS : ∀ n ∈ S, n < d.nodes.size) (hT : ∀ n ∈ T, n < d.nodes.size)
    (hST : ∀ n ∈ S, n ∉ T) (h : d.Rewrites o S d') (h' : d'.Rewrites o T d'') :
    d.Rewrites o (S ∪ T) d'' where
  consistent := h'.consistent
  size := Nat.le_trans h.size h'.size
  stripped n hn := by
    rcases hn with hn | hn
    · have hlt := Nat.lt_of_lt_of_le (hS n hn) h.size
      exact (h'.kept n hlt (hST n hn)).trans (h.stripped n hn)
    · have hnS : n ∉ S := fun hS => hST n hS hn
      rw [h'.stripped n hn, h.kept n (hT n hn) hnS, h.attributes (hT n hn) hnS]
  kept n hlt hn := by
    rw [Set.mem_union, not_or] at hn
    exact (h'.kept n (Nat.lt_of_lt_of_le hlt h.size) hn.2).trans (h.kept n hlt hn.1)
  merged n hn hi := by
    rcases hn with hn | hn
    · obtain ⟨new, hle, hm⟩ := h.merged n hn hi
      refine ⟨new, hle, h'.merges_later h.consistent (hST n hn) ?_ hm⟩
      exact fun hT' => Nat.not_lt.2 hle (hT new hT')
    · have hnS : n ∉ S := fun hS => hST n hS hn
      obtain ⟨new, hle, hm⟩ := h'.merged n hn ((h.interpolates_iff hd hnS).2 hi)
      exact ⟨new, Nat.le_trans h.size hle, h.merges_earlier hd hnS hm⟩
  children n hn := by
    rw [h'.children n fun hT hi => ?_, h.children n fun hS => hn (.inl hS)]
    exact hn (.inr hT) ((h.interpolates_iff hd fun hS => hST n hS hT).1 hi)
  fresh m hle hlt := by
    by_cases hm : m < d'.nodes.size
    · obtain ⟨n, hn, hi, hmem⟩ := h.fresh m hle hm
      refine ⟨n, .inl hn, hi, ?_⟩
      rwa [h'.children n fun hT => absurd hT (hST n hn)]
    · obtain ⟨n, hn, hi, hmem⟩ := h'.fresh m (Nat.le_of_not_lt hm) hlt
      exact ⟨n, .inr hn, (h.interpolates_iff hd fun hS => hST n hS hn).1 hi, hmem⟩
  told := by
    obtain ⟨ms, hms, hmerging⟩ := h.told
    obtain ⟨ms', hms', hmerging'⟩ := h'.told
    refine ⟨ms ++ ms', by rw [hms', hms, List.append_assoc], fun m hm => ?_⟩
    rcases List.mem_append.1 hm with hm | hm
    · obtain ⟨n, hn, hi, hm⟩ := hmerging m hm
      exact ⟨n, .inl hn, hi, hm⟩
    · obtain ⟨n, hn, hi, hm⟩ := hmerging' m hm
      have hnS : n ∉ S := fun hS => hST n hS hn
      refine ⟨n, .inr hn, (h.interpolates_iff hd hnS).1 hi, ?_⟩
      rw [Mutation.Merging, h.ownTexts hd hnS] at hm
      refine hm.imp_left ?_
      rintro ⟨new, hle, rfl⟩
      exact ⟨new, Nat.le_trans h.size hle, rfl⟩

theorem attribute?_eq (h : d.Rewrites o S d') (hn : n ∈ S)
    (hnames : ((d.node n).attributes.map Prod.fst).Nodup) (name : String) :
    d'.attribute? n name = if name = o.onClick then none else d.attribute? n name := by
  have hremove : (d'.node n).attributes = (d.node n).attributes.remove o.onClick :=
    (congrArg Node.attributes (h.stripped n hn) :)
  rw [attribute?, hremove, Attributes.find?_remove hnames, attribute?]

theorem mem_children_iff (h : d.Rewrites o S d') (hm : m < d.nodes.size) :
    m ∈ (d'.node n).children ↔ m ∈ (d.node n).children ∧
      ¬(n ∈ S ∧ d.Interpolates o n ∧ d.isText m = true) := by
  by_cases hn : n ∈ S ∧ d.Interpolates o n
  · obtain ⟨new, hle, hmerges⟩ := h.merged n hn.1 hn.2
    obtain ⟨before, first, after, hold, hbefore, hfirst, hnew⟩ := hmerges.children
    have hne : m ≠ new := fun heq => Nat.not_lt.2 hle (heq ▸ hm)
    rw [hold, hnew, ← and_assoc, and_iff_right hn]
    simp only [List.mem_append, List.mem_cons, List.mem_filter, Bool.not_eq_true']
    constructor
    · rintro (hmem | rfl | ⟨hmem, htext⟩)
      · exact ⟨.inl hmem, by rw [hbefore m hmem]; exact Bool.false_ne_true⟩
      · exact absurd rfl hne
      · exact ⟨.inr (.inr hmem), by rw [htext]; exact Bool.false_ne_true⟩
    · rintro ⟨hmem | rfl | hmem, htext⟩
      · exact .inl hmem
      · exact absurd hfirst htext
      · exact .inr (.inr ⟨hmem, Bool.not_eq_true _ ▸ htext⟩)
  · rw [h.children n fun hS hi => hn ⟨hS, hi⟩]
    exact (and_iff_left fun hS => hn ⟨hS.1, hS.2.1⟩).symm

theorem parent_eq_none (hd : d.Consistent) (h : d.Rewrites o S d') (hn : n ∈ S)
    (hi : d.Interpolates o n) (ht : m ∈ d.ownTexts n) : (d'.node m).parent = none := by
  obtain ⟨hmem, htext⟩ := mem_ownTexts.1 ht
  have hm := hd.child_lt hmem
  refine Option.eq_none_iff_forall_ne_some.2 fun n' hp => ?_
  obtain ⟨hmem', hnot⟩ := (h.mem_children_iff hm).1 ((h.consistent.links n' m).2 hp)
  obtain rfl := hd.eq_of_mem hmem hmem'
  exact hnot ⟨hn, hi, htext⟩

theorem parent_eq (hd : d.Consistent) (h : d.Rewrites o S d') (hm : m < d.nodes.size)
    (hnot : ∀ n ∈ S, d.Interpolates o n → m ∉ d.ownTexts n) :
    (d'.node m).parent = (d.node m).parent := by
  refine Option.ext fun n => ?_
  rw [← h.consistent.links, ← hd.links, h.mem_children_iff hm]
  refine and_iff_left_of_imp fun hmem => ?_
  rintro ⟨hS, hi, htext⟩
  exact hnot n hS hi (mem_ownTexts.2 ⟨hmem, htext⟩)

end Rewrites

end Document

end LiveMarkup
