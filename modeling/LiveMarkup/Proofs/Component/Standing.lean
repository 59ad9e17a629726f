import LiveMarkup.Proofs.Component.InStep
import LiveMarkup.Proofs.Document.Links
import LiveMarkup.Proofs.Document.Siblings

/-!
Where nodes stand while a component is at work. Elements go and come back to their old places, texts
change, and nothing else does; so the markup of a document is known from the one that was prepared,
from the presences, and from the texts that are not gated.
-/

namespace LiveMarkup

open LiveMarkup.Markup LiveMarkup.Expression Document

/-- A prepared document as the directives find it. No element is the parent of two conditionals. -/
structure Ground (ds : List Directive) (d : Document) : Prop where
  linked : d.Linked
  separate : Separate ds
  between : ∀ {c}, .conditional c ∈ ds → ∃ before after,
    (d.node c.anchor.parent).children = before ++ c.element :: after ∧
      c.anchor.prev = before.getLast? ∧ c.anchor.next = after.head?
  parent_inj : ∀ {c c'}, .conditional c ∈ ds → .conditional c' ∈ ds →
    c.anchor.parent = c'.anchor.parent → c = c'
  inside : ∀ {c i}, .conditional c ∈ ds → i ∈ c.inside → d.Under c.element i.node
  gates : ∀ {i}, .interpolation i ∈ ds → ∀ g ∈ i.gates, ∃ c, .conditional c ∈ ds ∧ c.cell = g

def Document.Node.shell (n : Node) : Node := { n with data := "", parent := none, children := [] }

structure Standing (ds : List Directive) (d₀ d : Document) (presences : Array Presence) : Prop where
  size : d.nodes.size = d₀.nodes.size
  sized : Sized ds d presences
  shell : ∀ n, (d.node n).shell = (d₀.node n).shell
  data : ∀ n, (∀ i, .interpolation i ∈ ds → i.node ≠ n) → (d.node n).data = (d₀.node n).data
  children : ∀ {c}, .conditional c ∈ ds → (d.node c.anchor.parent).children =
    if presences.getD c.cell .attached = .attached then (d₀.node c.anchor.parent).children
    else (d₀.node c.anchor.parent).children.erase c.element
  others : ∀ n, (∀ c, .conditional c ∈ ds → c.anchor.parent ≠ n) →
    (d.node n).children = (d₀.node n).children
  free : ∀ {c}, .conditional c ∈ ds → presences.getD c.cell .attached = .detached →
    (d.node c.element).parent = none

namespace Ground

variable {ds : List Directive} {d : Document} {c c' : Conditional} (h : Ground ds d)

include h

theorem mem_children (hc : .conditional c ∈ ds) :
    c.element ∈ (d.node c.anchor.parent).children := by
  obtain ⟨before, after, hb, -⟩ := h.between hc
  rw [hb]
  exact List.mem_append_right _ (List.mem_cons_self ..)

theorem element_inj (hc : .conditional c ∈ ds) (hc' : .conditional c' ∈ ds)
    (heq : c.element = c'.element) : c = c' := by
  have hm := h.mem_children hc
  have hm' := h.mem_children hc'
  rw [← heq] at hm'
  exact h.parent_inj hc hc' (h.linked.eq_of_mem hm hm')

end Ground

theorem insert_eq_place {a : Anchor} {element : NodeId} {d : Document} {before after : List NodeId}
    (hfree : (d.node element).parent = none)
    (hnodup : (before ++ element :: after).Nodup) (hp : a.prev = before.getLast?)
    (hn : a.next = after.head?) :
    ∃ arrange : List NodeId → List NodeId, a.insert element d = d.place a.parent element arrange ∧
      arrange (before ++ after) = before ++ element :: after := by
  have hdetach := detach_of_parent hfree
  cases after with
  | cons next after =>
    refine ⟨beforeReference element next, ?_, beforeReference_append fun hm => ?_⟩
    · rw [Anchor.insert, hn]
      simp only [List.head?_cons, insertBefore, hdetach]
    · exact (List.nodup_append.1 hnodup).2.2 next hm next
        (List.mem_cons_of_mem _ (List.mem_cons_self ..)) rfl
  | nil =>
    rcases List.eq_nil_or_concat before with rfl | ⟨front, prev, hb⟩
    · refine ⟨(element :: ·), ?_, rfl⟩
      rw [Anchor.insert, hn, hp]
      simp only [List.head?_nil, List.getLast?_nil, prepend, hdetach]
    · rw [List.concat_eq_append] at hb
      subst hb
      have hlast : (front ++ [prev]).getLast? = some prev := List.getLast?_concat
      refine ⟨afterReference element prev, ?_, ?_⟩
      · rw [Anchor.insert, hn, hp, hlast]
        simp only [List.head?_nil, insertAfter, hdetach]
      · rw [List.append_nil, afterReference_append, List.append_assoc]
        · rfl
        · intro hm
          have hfront := (List.nodup_append.1 hnodup).1
          exact (List.nodup_append.1 hfront).2.2 prev hm prev (List.mem_singleton_self _) rfl

structure Fills (ds : List Directive) (d d' : Document) : Prop where
  size : d'.nodes.size = d.nodes.size
  shell : ∀ n, (d'.node n).shell = (d.node n).shell
  data : ∀ n, (∀ i, .interpolation i ∈ ds → i.node ≠ n) → (d'.node n).data = (d.node n).data
  children : ∀ n, (d'.node n).children = (d.node n).children
  parent : ∀ n, (d'.node n).parent = (d.node n).parent

section Fills

variable {σ : Type} {ds : List Directive} {d d' d'' : Document}

theorem Fills.refl (ds : List Directive) (d : Document) : Fills ds d d :=
  ⟨rfl, fun _ => rfl, fun _ _ => rfl, fun _ => rfl, fun _ => rfl⟩

theorem Fills.trans (h : Fills ds d d') (h' : Fills ds d' d'') : Fills ds d d'' :=
  ⟨h'.size.trans h.size, fun n => (h'.shell n).trans (h.shell n),
    fun n hn => (h'.data n hn).trans (h.data n hn), fun n => (h'.children n).trans (h.children n),
    fun n => (h'.parent n).trans (h.parent n)⟩

theorem fills_refreshed {i : Interpolation} (hi : .interpolation i ∈ ds) (w : World σ) :
    Fills ds w.document (w.refreshed i).document := by
  have hnode (n) : ((w.refreshed i).document.node n).shell = (w.document.node n).shell ∧
      ((w.refreshed i).document.node n).children = (w.document.node n).children ∧
      ((w.refreshed i).document.node n).parent = (w.document.node n).parent := by
    unfold World.refreshed
    split
    · exact ⟨rfl, rfl, rfl⟩
    · rw [World.edit, node_setText]
      split <;> exact ⟨rfl, rfl, rfl⟩
  exact ⟨(w.reshapes_refreshed i).size, fun n => (hnode n).1,
    fun n hn => World.data_refreshed_of_ne (Ne.symm (hn i hi)), fun n => (hnode n).2.1,
    fun n => (hnode n).2.2⟩

theorem fills_refreshAll {is : List Interpolation} (his : ∀ i ∈ is, .interpolation i ∈ ds)
    (w : World σ) : Fills ds w.document (is.foldl World.refreshed w).document := by
  induction is generalizing w with
  | nil => exact .refl ds _
  | cons i is ih =>
    have hi := fills_refreshed (his i (List.mem_cons_self ..)) w
    exact hi.trans (ih (fun j hj => his j (List.mem_cons_of_mem _ hj)) _)

end Fills

namespace Standing

variable {σ : Type} {ds : List Directive} {d₀ d d' : Document} {ps ps' : Array Presence}
  {c : Conditional}

theorem fill (h : Standing ds d₀ d ps) (hf : Fills ds d d') : Standing ds d₀ d' ps where
  size := hf.size.trans h.size
  sized := ⟨fun hi => hf.size ▸ h.sized.node hi, h.sized.cell⟩
  shell n := (hf.shell n).trans (h.shell n)
  data n hn := (hf.data n hn).trans (h.data n hn)
  children hc := (hf.children _).trans (h.children hc)
  others n hn := (hf.children n).trans (h.others n hn)
  free hc hp := (hf.parent _).trans (h.free hc hp)

theorem move (hg : Ground ds d₀) (hc : .conditional c ∈ ds) (h : Standing ds d₀ d ps)
    (hre : d.Rewires d') (hsize : ps'.size = ps.size)
    (hps : ∀ cell, cell ≠ c.cell → ps'.getD cell .attached = ps.getD cell .attached)
    (hchildren : ∀ n, n ≠ c.anchor.parent → (d'.node n).children = (d.node n).children)
    (hself : (d'.node c.anchor.parent).children =
      if ps'.getD c.cell .attached = .attached then (d₀.node c.anchor.parent).children
      else (d₀.node c.anchor.parent).children.erase c.element)
    (hfree : ps'.getD c.cell .attached = .detached → (d'.node c.element).parent = none)
    (hparent : ∀ n, n ≠ c.element → (d'.node n).parent = (d.node n).parent) :
    Standing ds d₀ d' ps' := by
  have hcell {c'} (hc' : .conditional c' ∈ ds) (hne : c' ≠ c) : c'.cell ≠ c.cell :=
    fun heq => hne (hg.separate.cell_inj hc' hc heq)
  refine ⟨hre.size.trans h.size, ⟨fun hi => ?_, fun hc' => ?_⟩, fun n => ?_, fun n hn => ?_,
    fun {c'} hc' => ?_, fun n hn => ?_, fun {c'} hc' hp => ?_⟩
  · rw [hre.size]
    exact h.sized.node hi
  · rw [hsize]
    exact h.sized.cell hc'
  · have hshell : (d'.node n).shell = (d.node n).shell := by
      simp only [Node.shell, hre.kind, hre.tag, hre.attributes]
    exact hshell.trans (h.shell n)
  · exact (hre.data n).trans (h.data n hn)
  · by_cases hne : c' = c
    · rw [hne]
      exact hself
    · have hparent : c'.anchor.parent ≠ c.anchor.parent :=
        fun heq => hne (hg.parent_inj hc' hc heq)
      rw [hchildren _ hparent, hps _ (hcell hc' hne)]
      exact h.children hc'
  · rw [hchildren n (Ne.symm (hn c hc))]
    exact h.others n hn
  · by_cases hne : c' = c
    · rw [hne] at hp ⊢
      exact hfree hp
    · rw [hps _ (hcell hc' hne)] at hp
      rw [hparent _ fun heq => hne (hg.element_inj hc' hc heq)]
      exact h.free hc' hp

variable {w : World σ}

theorem withdrawn (hg : Ground ds d₀) (hc : .conditional c ∈ ds)
    (h : Standing ds d₀ w.document w.presences) (hp : w.presence c.cell = .attached) :
    Standing ds d₀ (w.withdrawn c).document (w.withdrawn c).presences := by
  have hbound := h.sized.cell hc
  have hself : (w.withdrawn c).presence c.cell = .detached := by
    rw [World.presence_withdrawn, if_pos ⟨rfl, hbound⟩]
  have hold : (w.document.node c.anchor.parent).children = (d₀.node c.anchor.parent).children := by
    rw [h.children hc]
    exact if_pos hp
  refine move hg hc h (rewires_removeChild ..) (w.reshapes_withdrawn c).presences
    (fun cell hne => ?_) (fun n hn => ?_) ?_ (fun _ => ?_) fun n hn => ?_
  · have hcell := w.presence_withdrawn c cell
    rw [if_neg fun h => hne h.1] at hcell
    exact hcell
  · exact (children_removeChild ..).trans (if_neg hn)
  · rw [if_neg]
    · rw [← hold]
      exact (children_removeChild ..).trans (if_pos rfl)
    · intro ha
      rw [World.presence, ha] at hself
      cases hself
  · refine (parent_removeChild ..).trans (if_pos ⟨rfl, ?_⟩)
    rw [hold]
    exact hg.mem_children hc
  · exact (parent_removeChild ..).trans (if_neg fun h => hn h.1)

theorem restored (hg : Ground ds d₀) (hc : .conditional c ∈ ds)
    (h : Standing ds d₀ w.document w.presences) (hp : w.presence c.cell = .detached) :
    Standing ds d₀ (w.restored c).document (w.restored c).presences := by
  obtain ⟨before, after, hbetween, hprev, hnext⟩ := hg.between hc
  have hnodup : (before ++ c.element :: after).Nodup := hbetween ▸ hg.linked.nodup _
  have hbound := h.sized.cell hc
  let d := (c.inside.foldl World.refreshed (w.setPresence c.cell .attached)).document
  have hw : Standing ds d₀ d w.presences :=
    h.fill (fills_refreshAll (hg.separate.inside hc) (w.setPresence c.cell .attached))
  obtain ⟨arrange, hplace, harrange⟩ := insert_eq_place (hw.free hc hp) hnodup hprev hnext
  have hplace : (w.restored c).document = d.place c.anchor.parent c.element arrange := hplace
  have hself : (w.restored c).presences.getD c.cell .attached = .attached := by
    refine (w.presence_restored c c.cell).trans ?_
    rw [if_pos ⟨rfl, hbound⟩]
  have hparent : c.anchor.parent < d.nodes.size := by
    rw [hw.size]
    exact lt_of_children (hg.mem_children hc)
  refine move hg hc hw (World.rewires_insert ..) (w.reshapes_restored c).presences
    (fun cell hne => ?_) (fun n hn => ?_) ?_ (fun hd => ?_) fun n hn => ?_
  · have hcell := w.presence_restored c cell
    rw [if_neg fun h => hne h.1] at hcell
    exact hcell
  · rw [hplace, children_place, if_neg fun h => hn h.1]
  · rw [if_pos hself, hplace, children_place, if_pos ⟨rfl, hparent⟩, hw.children hc, if_neg,
      hbetween, ← harrange]
    · congr 1
      have hnot : c.element ∉ before := fun hm =>
        (List.nodup_append.1 hnodup).2.2 _ hm _ (List.mem_cons_self ..) rfl
      rw [harrange, List.erase_append_right _ hnot, List.erase_cons_head]
    · intro ha
      rw [World.presence, ha] at hp
      cases hp
  · rw [hd] at hself
    cases hself
  · rw [hplace, parent_place, if_neg fun h => hn h.1]

theorem settled (hg : Ground ds d₀) (hc : .conditional c ∈ ds)
    (h : Standing ds d₀ w.document w.presences) (visible : Bool) :
    Standing ds d₀ (w.settled c visible).document (w.settled c visible).presences := by
  cases visible <;> cases hp : w.presence c.cell <;> simp only [World.settled, hp]
  · exact h.withdrawn hg hc hp
  · exact h
  · exact h
  · exact h.restored hg hc hp

theorem mem_children (h : Standing ds d₀ d ps) {n m : NodeId} (hm : m ∈ (d.node n).children) :
    m ∈ (d₀.node n).children := by
  by_cases hn : ∃ c, .conditional c ∈ ds ∧ c.anchor.parent = n
  · obtain ⟨c, hc, rfl⟩ := hn
    rw [h.children hc] at hm
    split at hm
    · exact hm
    · exact List.mem_of_mem_erase hm
  · rw [h.others n fun c hc heq => hn ⟨c, hc, heq⟩] at hm
    exact hm

theorem children_eq (h : Standing ds d₀ d ps) (h' : Standing ds d₀ d' ps')
    (hps : ∀ c, .conditional c ∈ ds → ps'.getD c.cell .attached = ps.getD c.cell .attached)
    (n : NodeId) : (d'.node n).children = (d.node n).children := by
  by_cases hn : ∃ c, .conditional c ∈ ds ∧ c.anchor.parent = n
  · obtain ⟨c, hc, rfl⟩ := hn
    rw [h.children hc, h'.children hc, hps c hc]
  · rw [h.others n fun c hc heq => hn ⟨c, hc, heq⟩, h'.others n fun c hc heq => hn ⟨c, hc, heq⟩]

theorem reached (hg : Ground ds d₀) (h : Standing ds d₀ d ps) {a n : NodeId}
    (hn : d.Under root n) (ha : d₀.Under a n) (hne : a ≠ root) :
    ∃ parent, a ∈ (d.node parent).children := by
  induction ha with
  | self =>
    cases hn with
    | self => exact absurd rfl hne
    | child _ hm => exact ⟨_, hm⟩
  | child _ hm ih =>
    cases hn with
    | self => exact absurd rfl (hg.linked.ne_root hm)
    | child hp hm' =>
      have heq := hg.linked.eq_of_mem hm (h.mem_children hm')
      exact ih (heq ▸ hp)

theorem attached_of_reached (hg : Ground ds d₀) (h : Standing ds d₀ d ps) {i : Interpolation}
    (hi : .interpolation i ∈ ds) (hn : d.Under root i.node) :
    ∀ g ∈ i.gates, ps.getD g .attached = .attached := by
  intro g hgate
  obtain ⟨c, hc, rfl⟩ := hg.gates hi g hgate
  have hunder : d₀.Under c.element i.node := hg.inside hc ((hg.separate.gated hi hc).1 hgate)
  have hmem := hg.mem_children hc
  obtain ⟨parent, hp⟩ := h.reached hg hn hunder (hg.linked.ne_root hmem)
  cases hg.linked.eq_of_mem hmem (h.mem_children hp)
  cases hcell : ps.getD c.cell .attached with
  | attached => rfl
  | detached =>
    rw [h.children hc, hcell, if_neg nofun] at hp
    exact absurd rfl ((hg.linked.nodup _).mem_erase_iff.1 hp).1

theorem toHtml_eq (hg : Ground ds d₀) (h : Standing ds d₀ d ps) (h' : Standing ds d₀ d' ps')
    (hps : ∀ c, .conditional c ∈ ds → ps'.getD c.cell .attached = ps.getD c.cell .attached)
    (htexts : ∀ i, .interpolation i ∈ ds → (∀ g ∈ i.gates, ps.getD g .attached = .attached) →
      (d'.node i.node).data = (d.node i.node).data) : d'.toHtml = d.toHtml := by
  refine toHtml_congr (h'.size.trans h.size.symm) fun n hn => ?_
  have hshell := (h'.shell n).trans (h.shell n).symm
  simp only [Node.shell, Node.mk.injEq, and_true] at hshell
  obtain ⟨hkind, htag, hattributes⟩ := hshell
  have hdata : (d'.node n).data = (d.node n).data := by
    by_cases hi : ∃ i, .interpolation i ∈ ds ∧ i.node = n
    · obtain ⟨i, hi, rfl⟩ := hi
      exact htexts i hi (h.attached_of_reached hg hi hn)
    · rw [h.data n fun i hi' heq => hi ⟨i, hi', heq⟩, h'.data n fun i hi' heq => hi ⟨i, hi', heq⟩]
  simp only [Node.seen, hkind, htag, hattributes, hdata, h.children_eq h' hps]

end Standing

end LiveMarkup
