import LiveMarkup.Proofs.Component.InStep
import LiveMarkup.Proofs.Component.Places
import LiveMarkup.Proofs.Reactive.Checked
import Mathlib.Data.List.Chain

/-!
Turns of conditional elements. Each time an element goes or comes back, its presence, its place in the
tree and the journal change together, and nothing that another conditional looks at does.
-/

namespace LiveMarkup

open LiveMarkup.Expression

variable {σ : Type} {ds : List Directive} {d₀ d d' : Document} {c : Conditional} {p p' : Presence}
  {w w' : World σ}

def Unshared (ds : List Directive) : Prop := ∀ {c c'}, .conditional c ∈ ds → .conditional c' ∈ ds →
  c.element = c'.element → c = c'

namespace Conditional

def parentAt (c : Conditional) : Presence → Option NodeId
  | .attached => some c.anchor.parent
  | .detached => none

def entry (c : Conditional) : Presence → Document.Mutation
  | .attached => .inserted c.anchor.parent c.element
  | .detached => .removed c.anchor.parent c.element

/-- Since the document was `d₀` and the element attached, the journal tells of each turn to another
presence, and of nothing else that happened to the element. -/
def Told (c : Conditional) (d₀ d : Document) (p : Presence) : Prop :=
  ∃ turns : List Presence, d.moves c.element = d₀.moves c.element ++ turns.map c.entry ∧
    (Presence.attached :: turns).IsChain (· ≠ ·) ∧ (Presence.attached :: turns).getLast? = some p

theorem Told.start (h : d.moves c.element = d₀.moves c.element) : c.Told d₀ d .attached :=
  ⟨[], h.trans (List.append_nil _).symm, List.isChain_singleton _, rfl⟩

theorem Told.turn (h : c.Told d₀ d p) (hne : p ≠ p')
    (hm : d'.moves c.element = d.moves c.element ++ [c.entry p']) : c.Told d₀ d' p' := by
  obtain ⟨turns, hmoves, hchain, hlast⟩ := h
  refine ⟨turns ++ [p'], ?_, ?_, ?_⟩
  · rw [hm, hmoves, List.append_assoc, List.map_append, List.map_singleton]
  · refine List.isChain_append.2 ⟨hchain, List.isChain_singleton _, fun x hx y hy => ?_⟩
    cases Option.some.inj (hlast.symm.trans hx)
    cases hy
    exact hne
  · rw [← List.cons_append, List.getLast?_concat]

theorem Told.congr (h : c.Told d₀ d p) (hm : d'.moves c.element = d.moves c.element) :
    c.Told d₀ d' p := by
  obtain ⟨turns, hmoves, h⟩ := h
  exact ⟨turns, hm.trans hmoves, h⟩

structure Fits (c : Conditional) (w : World σ) : Prop where
  cell : c.cell < w.presences.size
  parent : c.anchor.parent < w.document.nodes.size
  element : c.element < w.document.nodes.size
  ne_root : c.element ≠ Document.root

theorem Fits.reshape (h : c.Fits w) (hr : w.Reshapes w') : c.Fits w' :=
  ⟨hr.presences ▸ h.cell, hr.size ▸ h.parent, hr.size ▸ h.element, h.ne_root⟩

end Conditional

theorem Anchor.insert_eq_place {a : Anchor} {element : NodeId} (h : (d.node element).parent = none) :
    ∃ arrange : List NodeId → List NodeId, a.insert element d = d.place a.parent element arrange ∧
      ∀ ns, (arrange ns).Perm (element :: ns) := by
  have hdetach := Document.detach_of_parent h
  unfold Anchor.insert
  split
  · next _ next _ =>
    refine ⟨Document.beforeReference element next, ?_, Document.perm_beforeReference _ _⟩
    rw [Document.insertBefore, hdetach]
  · next prev _ _ =>
    refine ⟨Document.afterReference element prev, ?_, Document.perm_afterReference _ _⟩
    rw [Document.insertAfter, hdetach]
  · refine ⟨(element :: ·), ?_, fun ns => .refl _⟩
    rw [Document.prepend, hdetach]

namespace World

structure Placed (ds : List Directive) (d₀ : Document) (w : World σ) : Prop where
  consistent : w.document.Consistent
  fits : ∀ {c}, .conditional c ∈ ds → c.Fits w
  parent : ∀ {c}, .conditional c ∈ ds →
    (w.document.node c.element).parent = c.parentAt (w.presence c.cell)
  told : ∀ {c}, .conditional c ∈ ds → c.Told d₀ w.document (w.presence c.cell)

structure Turned (c : Conditional) (p : Presence) (w w' : World σ) : Prop where
  reshapes : w.Reshapes w'
  consistent : w'.document.Consistent
  presence : ∀ cell, w'.presence cell = if cell = c.cell then p else w.presence cell
  parent : ∀ n < w.document.nodes.size, (w'.document.node n).parent =
    if n = c.element then c.parentAt p else (w.document.node n).parent
  moves : ∀ n < w.document.nodes.size, w'.document.moves n =
    w.document.moves n ++ if c.element = n then [c.entry p] else []

theorem Placed.turned (h : w.Placed ds d₀) (hsep : Separate ds) (hinj : Unshared ds)
    (hc : .conditional c ∈ ds) (hne : w.presence c.cell ≠ p) (ht : Turned c p w w') :
    w'.Placed ds d₀ where
  consistent := ht.consistent
  fits hc' := (h.fits hc').reshape ht.reshapes
  parent := by
    intro c' hc'
    rw [ht.parent _ (h.fits hc').element, ht.presence]
    by_cases heq : c' = c
    · rw [heq, if_pos rfl, if_pos rfl]
    · rw [if_neg fun he => heq (hinj hc' hc he), if_neg fun he => heq (hsep.cell_inj hc' hc he)]
      exact h.parent hc'
  told := by
    intro c' hc'
    rw [ht.presence]
    -- another conditional has another cell and another element
    by_cases heq : c' = c
    · rw [heq, if_pos rfl]
      exact (h.told hc).turn hne (by rw [ht.moves _ (h.fits hc).element, if_pos rfl])
    · rw [if_neg fun he => heq (hsep.cell_inj hc' hc he)]
      refine (h.told hc').congr ?_
      rw [ht.moves _ (h.fits hc').element, if_neg fun he => heq (hinj hc' hc he.symm),
        List.append_nil]

theorem spares_refreshed (w : World σ) (i : Interpolation) (keep : NodeId → Prop) :
    w.document.Spares keep (w.refreshed i).document := by
  unfold refreshed
  split
  · exact .refl _
  · exact .setText ..

theorem spares_refreshAll (w : World σ) (is : List Interpolation) (keep : NodeId → Prop) :
    w.document.Spares keep (is.foldl refreshed w).document := by
  induction is generalizing w with
  | nil => exact .refl _
  | cons i is ih => exact (w.spares_refreshed i keep).trans (ih _)

theorem Placed.refreshed (h : w.Placed ds d₀) (i : Interpolation) : (w.refreshed i).Placed ds d₀ := by
  have hs := w.spares_refreshed i fun _ => True
  have hp := presence_congr (w.presences_refreshed i)
  refine ⟨hs.consistent h.consistent, fun hc => (h.fits hc).reshape (w.reshapes_refreshed i), ?_, ?_⟩
  · intro c hc
    rw [hs.parent c.element trivial (h.fits hc).element, hp]
    exact h.parent hc
  · intro c hc
    rw [hp]
    exact (h.told hc).congr (hs.moves c.element trivial (h.fits hc).element)

theorem turned_withdrawn (hd : w.document.Consistent) (hf : c.Fits w)
    (hp : (w.document.node c.element).parent = some c.anchor.parent) :
    Turned c .detached w (w.withdrawn c) := by
  have hmem := (hd.links _ _).2 hp
  refine ⟨w.reshapes_withdrawn c, hd.removeChild _ _, fun cell => ?_, fun n _ => ?_, fun n _ => ?_⟩
  · rw [presence_withdrawn]
    refine if_congr ⟨And.left, ?_⟩ rfl rfl
    rintro rfl
    exact ⟨rfl, hf.cell⟩
  · exact (Document.parent_removeChild ..).trans (if_congr (and_iff_left hmem) rfl rfl)
  · exact (Document.moves_removeChild ..).trans
      (congrArg (w.document.moves n ++ ·) (if_congr (and_iff_left hmem) rfl rfl))

theorem turned_restored (hd : w.document.Consistent) (hf : c.Fits w)
    (hp : (w.document.node c.element).parent = none) :
    Turned c .attached w (w.restored c) := by
  let w₁ := c.inside.foldl World.refreshed (w.setPresence c.cell .attached)
  -- the texts inside change while the element hangs nowhere
  have hr : w.Reshapes w₁ :=
    steady_reshapes.trans (reshapes_setPresence ..) (reshapes_refreshAll ..)
  have hs : w.document.Spares (fun _ => True) w₁.document :=
    (w.setPresence c.cell .attached).spares_refreshAll c.inside _
  have hfree : (w₁.document.node c.element).parent = none :=
    (hs.parent c.element trivial hf.element).trans hp
  obtain ⟨arrange, hplace, hperm⟩ := c.anchor.insert_eq_place hfree
  have hf₁ := hf.reshape hr
  have hdoc : (w.restored c).document = w₁.document.place c.anchor.parent c.element arrange := hplace
  refine ⟨w.reshapes_restored c, ?_, fun cell => ?_, fun n hn => ?_, fun n hn => ?_⟩
  · rw [hdoc]
    exact (hs.consistent hd).place hf₁.parent hf₁.element hf.ne_root hfree hperm
  · rw [presence_restored]
    refine if_congr ⟨And.left, ?_⟩ rfl rfl
    rintro rfl
    exact ⟨rfl, hf.cell⟩
  · rw [hdoc, Document.parent_place, hs.parent n trivial hn]
    exact if_congr (and_iff_left (hr.size ▸ hn)) rfl rfl
  · rw [hdoc, Document.moves_place, hs.moves n trivial hn]
    rfl

theorem Placed.settled_or_turned (h : w.Placed ds d₀) (hc : .conditional c ∈ ds) (visible : Bool) :
    w.settled c visible = w ∨ ∃ p, w.presence c.cell ≠ p ∧ Turned c p w (w.settled c visible) := by
  have hp := h.parent hc
  cases visible <;> cases hpres : w.presence c.cell <;> simp only [World.settled, hpres]
  · rw [hpres] at hp
    exact .inr ⟨.detached, by decide, turned_withdrawn h.consistent (h.fits hc) hp⟩
  · exact .inl trivial
  · exact .inl trivial
  · rw [hpres] at hp
    exact .inr ⟨.attached, by decide, turned_restored h.consistent (h.fits hc) hp⟩

end World

/-- An update fails as its predicate does, and changes nothing then. Where the predicate has a value, it
makes the presence what the value says: it leaves the world as the evaluation left it, or it makes one
change of presence, with one entry in the journal. -/
structure Conditional.Settles (c : Conditional) (emit : Emit σ) (methods : Methods σ)
    (w : World σ) : Prop where
  failed : ∀ {e w'}, Act.Ends (Run.update emit methods (.conditional c)) w (.error e) w' ↔
    Act.Ends (c.predicate.evaluate (Run.scope emit methods)) w (.error e) w'
  settled : ∀ {w'}, Act.Ends (Run.update emit methods (.conditional c)) w (.ok ()) w' →
    ∃ v w₁, Act.Ends (c.predicate.evaluate (Run.scope emit methods)) w (.ok v) w₁ ∧
      (w'.presence c.cell = .attached ↔ v.truthy = true) ∧
      (w'.presence c.cell = w₁.presence c.cell → w' = w₁) ∧
      (w'.presence c.cell ≠ w₁.presence c.cell → w'.document.moves c.element =
        w₁.document.moves c.element ++ [c.entry (w'.presence c.cell)])

section Upheld

variable {methods : Methods σ} {emit : Emit σ} (hsep : Separate ds) (hinj : Unshared ds)

include hsep hinj

theorem upheld_placed (d₀ : Document) : Upheld ds (World.Placed (σ := σ) ds d₀) where
  shown := by
    intro w w' hd hp h
    have hpres := World.presence_congr hp
    refine ⟨hd ▸ h.consistent, fun hc => ?_, fun hc => ?_, fun hc => ?_⟩
    · have hf := h.fits hc
      exact ⟨hp ▸ hf.cell, hd ▸ hf.parent, hd ▸ hf.element, hf.ne_root⟩
    · rw [hpres, hd]
      exact h.parent hc
    · rw [hpres, hd]
      exact h.told hc
  refreshed w i _ h := h.refreshed i
  settled w c visible hc h := by
    rcases h.settled_or_turned hc visible with heq | ⟨p, hne, ht⟩
    · rw [heq]
      exact h
    · exact h.turned hsep hinj hc hne ht

theorem settles_of_kept (hemit : Concur methods ds (World.Placed ds d₀) emit emit)
    (hw : w.Kept methods ds (World.Placed ds d₀)) (hc : .conditional c ∈ ds) :
    c.Settles emit methods w where
  failed := by
    intro e w'
    refine ⟨fun h => ?_, fun h => Act.ends_bind.2 (.inl ⟨e, h, rfl⟩)⟩
    rcases Act.ends_bind.1 h with ⟨e, he, hr⟩ | ⟨v, w₁, -, hs⟩
    · cases hr
      exact he
    · obtain ⟨_, hr, -⟩ := Act.ends_ofRun.1 hs
      cases hr
  settled h := by
    rcases Act.ends_bind.1 h with ⟨e, -, hr⟩ | ⟨v, w₁, hv, hs⟩
    · cases hr
    · obtain ⟨_, -, hs⟩ := Act.ends_ofRun.1 hs
      rw [Run.ends_settle.1 hs]
      have hP := upheld_placed hsep hinj (σ := σ) d₀
      have h₁ := (upholding_evaluate hP.shown hemit c.predicate _ _ _ hw hv).2.holds
      refine ⟨v, w₁, hv, World.presence_settled v.truthy (h₁.fits hc).cell, ?_⟩
      rcases h₁.settled_or_turned hc v.truthy with heq | ⟨p, hne, ht⟩
      · rw [heq]
        exact ⟨fun _ => rfl, fun h => (h rfl).elim⟩
      · have hp : (w₁.settled c v.truthy).presence c.cell = p := by rw [ht.presence, if_pos rfl]
        rw [hp]
        refine ⟨fun h => (hne h.symm).elim, fun _ => ?_⟩
        rw [ht.moves _ (h₁.fits hc).element, if_pos rfl]

end Upheld

end LiveMarkup
