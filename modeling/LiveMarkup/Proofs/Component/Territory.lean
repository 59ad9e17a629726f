import LiveMarkup.Proofs.Component.Renamed
import LiveMarkup.Proofs.Component.Turns
import LiveMarkup.Proofs.Reactive.Quiet

/-!
What a component has of its own: some nodes and some cells. Its directives work within that, and in two
worlds in which it has the same, under the names of each, they do the same.
-/

namespace LiveMarkup

open LiveMarkup.Expression Relation

structure Territory where
  nodes : Set NodeId
  cells : Set CellId

namespace Territory

def image (k : Shift) (t : Territory) : Territory := ⟨k.node '' t.nodes, k.cell '' t.cells⟩

structure HoldsText (t : Territory) (i : Interpolation) : Prop where
  node : i.node ∈ t.nodes
  gates : ∀ g ∈ i.gates, g ∈ t.cells

structure HoldsElement (t : Territory) (c : Conditional) : Prop where
  element : c.element ∈ t.nodes
  parent : c.anchor.parent ∈ t.nodes
  cell : c.cell ∈ t.cells
  inside : ∀ i ∈ c.inside, t.HoldsText i

def Holds (t : Territory) : Directive → Prop
  | .interpolation i => t.HoldsText i
  | .conditional c => t.HoldsElement c

end Territory

variable {σ : Type} {t : Territory} {k : Shift}

namespace World

structure ChangesIn (t : Territory) (w w' : World σ) : Prop where
  document : w.document.ChangesIn t.nodes w'.document
  presence : ∀ g ∉ t.cells, w'.presence g = w.presence g
  size : w.presences.size ≤ w'.presences.size
  fields : w'.store.fields = w.store.fields

/-- What the territory holds is the same in both, under the names of each; and so are all fields. -/
structure Tied (k : Shift) (t : Territory) (p w : World σ) : Prop where
  document : p.document.Tied k.node t.nodes w.document
  presence : ∀ g ∈ t.cells, w.presence (k.cell g) = p.presence g
  bound : ∀ g ∈ t.cells, (k.cell g < w.presences.size ↔ g < p.presences.size)
  fields : w.store.fields = p.store.fields

variable {p p' w w' w'' : World σ}

namespace ChangesIn

theorem refl (t : Territory) (w : World σ) : w.ChangesIn t w :=
  ⟨.refl _ _, fun _ _ => rfl, Nat.le_refl _, rfl⟩

theorem trans (h : w.ChangesIn t w') (h' : w'.ChangesIn t w'') : w.ChangesIn t w'' :=
  ⟨h.document.trans h'.document, fun g hg => (h'.presence g hg).trans (h.presence g hg),
    Nat.le_trans h.size h'.size, h'.fields.trans h.fields⟩

theorem of_shown (hd : w'.document = w.document) (hp : w'.presences = w.presences)
    (hf : w'.store.fields = w.store.fields) : w.ChangesIn t w' :=
  ⟨hd ▸ .refl _ _, fun g _ => presence_congr hp g, Nat.le_of_eq (hp ▸ rfl), hf⟩

theorem setPresence {g : CellId} (h : g ∈ t.cells) (w : World σ) (x : Presence) :
    w.ChangesIn t (w.setPresence g x) := by
  refine ⟨.refl _ _, fun g' hg' => ?_, Nat.le_of_eq (reshapes_setPresence w g x).presences.symm, rfl⟩
  rw [presence_setPresence, if_neg]
  rintro ⟨rfl, -⟩
  exact hg' h

end ChangesIn

theorem Tied.isGated (h : p.Tied k t w) {i : Interpolation} (hi : t.HoldsText i) :
    w.isGated (i.rename k) = p.isGated i := by
  rw [World.isGated, World.isGated, Interpolation.rename, List.any_map, Bool.eq_iff_iff,
    List.any_eq_true, List.any_eq_true]
  refine exists_congr fun g => and_congr_right fun hg => ?_
  rw [Function.comp_apply, h.presence g (hi.gates g hg)]

theorem Tied.get (h : p.Tied k t w) : w.store.get = p.store.get := by
  funext name
  rw [Store.get, Store.get, h.fields]

def Carries (k : Shift) (t : Territory) (x y : World σ × World σ) : Prop :=
  x.1.Tied k t x.2 → y.1.Tied k t y.2 ∧ x.1.ChangesIn t y.1 ∧ x.2.ChangesIn (t.image k) y.2

variable {x y z : World σ × World σ}

theorem Carries.refl (x : World σ × World σ) : Carries k t x x := fun h => ⟨h, .refl _ _, .refl _ _⟩

theorem Carries.trans (h : Carries k t x y) (h' : Carries k t y z) : Carries k t x z := by
  intro hx
  obtain ⟨hy, hleft, hright⟩ := h hx
  obtain ⟨hz, hleft', hright'⟩ := h' hy
  exact ⟨hz, hleft.trans hleft', hright.trans hright'⟩

theorem carries_edits {f g : Document → Document}
    (h : p.document.Tied k.node t.nodes w.document →
      ReflTransGen (Document.Edit.Both k.node t.nodes) (p.document, w.document)
        (f p.document, g w.document)) :
    Carries k t (p, w) (p.edit f, w.edit g) := by
  intro hx
  obtain ⟨hdocument, hleft, hright⟩ := hx.document.edits k.node_injective (h hx.document)
  exact ⟨⟨hdocument, hx.presence, hx.bound, hx.fields⟩, ⟨hleft, fun _ _ => rfl, Nat.le_refl _, rfl⟩,
    hright, fun _ _ => rfl, Nat.le_refl _, rfl⟩

theorem carries_edit (edit : Document.Edit) {f g : Document → Document}
    (h : edit.Within t.nodes p.document) (hf : f p.document = edit.run p.document)
    (hg : g w.document = (edit.rename k.node).run w.document) :
    Carries k t (p, w) (p.edit f, w.edit g) :=
  carries_edits fun _ => .single ⟨edit, h, Prod.ext hf hg⟩

theorem carries_setPresence {g : CellId} (hg : g ∈ t.cells) (q : Presence) :
    Carries k t (p, w) (p.setPresence g q, w.setPresence (k.cell g) q) := by
  intro h
  refine ⟨⟨h.document, fun g' hg' => ?_, fun g' hg' => ?_, h.fields⟩, .setPresence hg p q,
    .setPresence (Set.mem_image_of_mem _ hg) w q⟩
  · rw [presence_setPresence, presence_setPresence, h.presence g' hg']
    exact if_congr (and_congr k.cell_injective.eq_iff (h.bound g' hg')) rfl rfl
  · rw [(reshapes_setPresence ..).presences, (reshapes_setPresence ..).presences]
    exact h.bound g' hg'

theorem carries_refreshed {i : Interpolation} (hi : t.HoldsText i) (p w : World σ) :
    Carries k t (p, w) (p.refreshed i, w.refreshed (i.rename k)) := by
  intro h
  have hgated := h.isGated hi
  have htext : (i.rename k).template.filled w.store.get = i.template.filled p.store.get := by
    rw [h.get]
    rfl
  unfold refreshed
  rw [hgated, htext]
  split
  · exact Carries.refl (p, w) h
  · exact carries_edit (.setText i.node (i.template.filled p.store.get)) hi.node rfl rfl h

theorem carries_refreshAll {is : List Interpolation} (his : ∀ i ∈ is, t.HoldsText i)
    (p w : World σ) :
    Carries k t (p, w) (is.foldl refreshed p, (is.map (·.rename k)).foldl refreshed w) := by
  induction is generalizing p w with
  | nil => exact Carries.refl (p, w)
  | cons i is ih =>
    exact (carries_refreshed (his i (List.mem_cons_self ..)) p w).trans
      (ih (fun j hj => his j (List.mem_cons_of_mem _ hj)) _ _)

end World

namespace Anchor

def position (a : Anchor) : Document.Position :=
  match a.next, a.prev with
  | some next, _ => .before next
  | none, some prev => .after prev
  | none, none => .first

theorem insert_eq_run (a : Anchor) (element : NodeId) (d : Document) :
    a.insert element d = Document.Edit.run d (.insert a.position a.parent element) := by
  unfold insert position
  cases a.next with
  | some next => rfl
  | none => cases a.prev <;> rfl

theorem position_rename (a : Anchor) : (a.rename k).position = a.position.rename k.node := by
  unfold position rename
  cases a.next with
  | some next => rfl
  | none => cases a.prev <;> rfl

end Anchor

namespace World

variable {p w : World σ} {c : Conditional}

theorem carries_withdrawn (hc : t.HoldsElement c) (p w : World σ) :
    Carries k t (p, w) (p.withdrawn c, w.withdrawn (c.rename k)) :=
  (carries_edit (.removeChild c.anchor.parent c.element) ⟨hc.parent, hc.element⟩ rfl
    rfl).trans (carries_setPresence hc.cell .detached)

theorem carries_restored (hc : t.HoldsElement c) (hlt : c.element < p.document.nodes.size)
    (hfree : (p.document.node c.element).parent = none) (w : World σ) :
    Carries k t (p, w) (p.restored c, w.restored (c.rename k)) := by
  let p₁ := c.inside.foldl refreshed (p.setPresence c.cell .attached)
  -- the texts inside are refreshed before the element is put anywhere
  have hs : p.document.Spares (fun _ => True) p₁.document :=
    (p.setPresence c.cell .attached).spares_refreshAll c.inside _
  have hfree₁ : (p₁.document.node c.element).parent = none :=
    (hs.parent c.element trivial hlt).trans hfree
  refine (carries_setPresence hc.cell .attached).trans
    ((carries_refreshAll hc.inside _ _).trans (carries_edit
      (.insert c.anchor.position c.anchor.parent c.element)
      ⟨hc.parent, hc.element, hfree₁⟩ (c.anchor.insert_eq_run ..) ?_))
  rw [Document.Edit.rename, ← Anchor.position_rename]
  exact Anchor.insert_eq_run ..

theorem carries_settled (hc : t.HoldsElement c) (hlt : c.element < p.document.nodes.size)
    (hfree : p.presence c.cell = .detached → (p.document.node c.element).parent = none)
    (visible : Bool) (w : World σ) :
    Carries k t (p, w) (p.settled c visible, w.settled (c.rename k) visible) := by
  intro h
  have hpresence : w.presence (c.rename k).cell = p.presence c.cell := h.presence _ hc.cell
  unfold settled
  rw [hpresence]
  cases visible <;> cases hp : p.presence c.cell
  · exact carries_withdrawn hc p w h
  · exact Carries.refl (p, w) h
  · exact Carries.refl (p, w) h
  · exact carries_restored hc hlt (hfree hp) w h

end World

end LiveMarkup
