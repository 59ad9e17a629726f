import LiveMarkup.Proofs.Document.Edits
import LiveMarkup.Proofs.Expression.Within
import LiveMarkup.Proofs.Reactive.Ends

/-!
Refreshing texts and settling conditional elements never fail and call nothing: they are functions on
worlds, which change the document and the presences and nothing else.
-/

namespace LiveMarkup

open LiveMarkup.Expression

variable {σ : Type} {w w' : World σ}

namespace World

def edit (w : World σ) (f : Document → Document) : World σ := { w with document := f w.document }

def refreshed (w : World σ) (i : Interpolation) : World σ :=
  if w.isGated i then w else w.edit fun d => d.setText i.node (i.template.filled w.store.get)

def withdrawn (w : World σ) (c : Conditional) : World σ :=
  (w.edit fun d => d.removeChild c.anchor.parent c.element).setPresence c.cell .detached

/-- The texts inside are refreshed while the element still hangs nowhere. -/
def restored (w : World σ) (c : Conditional) : World σ :=
  (c.inside.foldl refreshed (w.setPresence c.cell .attached)).edit (c.anchor.insert c.element)

def settled (w : World σ) (c : Conditional) (visible : Bool) : World σ :=
  match visible, w.presence c.cell with
  | false, .attached => w.withdrawn c
  | true, .detached => w.restored c
  | _, _ => w

end World

namespace Run

theorem ends_renderParts {parts : List TemplatePart} {text : String} :
    Ends (Template.renderParts getField parts) w text w' ↔
      text = Template.filled ⟨parts⟩ w.store.get ∧ w' = w := by
  induction parts generalizing text w w' with
  | nil => exact ends_pure
  | cons p parts ih =>
    cases p with
    | text s =>
      simp only [Template.renderParts, ends_bind, ih, ends_pure]
      constructor
      · rintro ⟨_, _, ⟨rfl, rfl⟩, rfl, rfl⟩
        exact ⟨rfl, rfl⟩
      · rintro ⟨rfl, rfl⟩
        exact ⟨_, _, ⟨rfl, rfl⟩, rfl, rfl⟩
    | field name =>
      simp only [Template.renderParts, ends_bind, ends_getField, ih, ends_pure]
      constructor
      · rintro ⟨_, _, ⟨rfl, rfl⟩, _, _, ⟨rfl, rfl⟩, rfl, rfl⟩
        exact ⟨rfl, rfl⟩
      · rintro ⟨rfl, rfl⟩
        exact ⟨_, _, ⟨rfl, rfl⟩, _, _, ⟨rfl, rfl⟩, rfl, rfl⟩

theorem ends_render {t : Template} {text : String} :
    Ends (t.render getField) w text w' ↔ text = t.filled w.store.get ∧ w' = w := ends_renderParts

theorem ends_refreshUngated {i : Interpolation} {u : Unit} :
    Ends (refreshUngated i) w u w' ↔ w' = w.refreshed i := by
  have hget : Ends (refreshUngated i) w u w' ↔
      Ends (if w.isGated i then pure () else refresh i : Run σ Unit) w u w' := by
    simp only [refreshUngated, ends_bind, ends_get]
    exact ⟨fun ⟨_, _, ⟨rfl, rfl⟩, h⟩ => h, fun h => ⟨w, w, ⟨rfl, rfl⟩, h⟩⟩
  rw [hget, World.refreshed]
  split
  · exact ends_pure.trans ⟨And.right, fun h => ⟨rfl, h⟩⟩
  · simp only [refresh, ends_bind, ends_render, ends_editDocument]
    exact ⟨fun ⟨_, _, ⟨rfl, rfl⟩, h⟩ => h, fun h => ⟨_, _, ⟨rfl, rfl⟩, h⟩⟩

theorem ends_refreshAll {is : List Interpolation} {u : Unit} :
    Ends (refreshAll is) w u w' ↔ w' = is.foldl World.refreshed w := by
  induction is generalizing w with
  | nil => exact ends_pure.trans ⟨And.right, fun h => ⟨rfl, h⟩⟩
  | cons i is ih =>
    simp only [refreshAll, ends_bind, ends_refreshUngated, ih, List.foldl_cons]
    exact ⟨fun ⟨_, _, hi, h⟩ => hi ▸ h, fun h => ⟨(), _, rfl, h⟩⟩

theorem ends_detach {c : Conditional} {u : Unit} :
    Ends (detach c) w u w' ↔ w' = w.withdrawn c := by
  simp only [detach, ends_bind, ends_editDocument, ends_modify]
  constructor
  · rintro ⟨_, _, rfl, rfl⟩
    rfl
  · rintro rfl
    exact ⟨(), _, rfl, rfl⟩

theorem ends_attach {c : Conditional} {u : Unit} :
    Ends (attach c) w u w' ↔ w' = w.restored c := by
  simp only [attach, ends_bind, ends_modify, ends_refreshAll, ends_editDocument]
  exact ⟨fun ⟨_, _, hm, _, _, hr, h⟩ => by rw [h, hr, hm]; rfl,
    fun h => ⟨(), _, rfl, (), _, rfl, h⟩⟩

theorem ends_settle {c : Conditional} {visible : Bool} {u : Unit} :
    Ends (settle c visible) w u w' ↔ w' = w.settled c visible := by
  simp only [settle, ends_bind, ends_get]
  have hget {r : World σ → Run σ Unit} :
      (∃ x w₁, (x = w ∧ w₁ = w) ∧ Ends (r x) w₁ u w') ↔ Ends (r w) w u w' :=
    ⟨fun ⟨_, _, ⟨rfl, rfl⟩, h⟩ => h, fun h => ⟨w, w, ⟨rfl, rfl⟩, h⟩⟩
  have hpure : Ends (pure () : Run σ Unit) w u w' ↔ w' = w :=
    ends_pure.trans ⟨And.right, fun h => ⟨rfl, h⟩⟩
  rw [hget]
  cases visible <;> cases hp : w.presence c.cell <;> simp only [World.settled, hp]
  · exact ends_detach
  · exact hpure
  · exact hpure
  · exact ends_attach

end Run

namespace World

structure Reshapes (w w' : World σ) : Prop where
  store : w'.store = w.store
  memory : w'.memory = w.memory
  size : w'.document.nodes.size = w.document.nodes.size
  presences : w'.presences.size = w.presences.size

theorem steady_reshapes : Steady (Reshapes (σ := σ)) where
  refl _ := ⟨rfl, rfl, rfl, rfl⟩
  trans h h' := ⟨h'.store.trans h.store, h'.memory.trans h.memory, h'.size.trans h.size,
    h'.presences.trans h.presences⟩

theorem reshapes_edit {f : Document → Document}
    (hf : (f w.document).nodes.size = w.document.nodes.size) : w.Reshapes (w.edit f) :=
  ⟨rfl, rfl, hf, rfl⟩

theorem reshapes_setPresence (w : World σ) (cell : CellId) (p : Presence) :
    w.Reshapes (w.setPresence cell p) := ⟨rfl, rfl, rfl, Array.size_setIfInBounds⟩

theorem reshapes_refreshed (w : World σ) (i : Interpolation) : w.Reshapes (w.refreshed i) := by
  unfold refreshed
  split
  · exact steady_reshapes.refl w
  · exact reshapes_edit (Document.size_setText ..)

theorem reshapes_refreshAll (w : World σ) (is : List Interpolation) :
    w.Reshapes (is.foldl refreshed w) := by
  induction is generalizing w with
  | nil => exact steady_reshapes.refl w
  | cons i is ih => exact steady_reshapes.trans (w.reshapes_refreshed i) (ih _)

theorem rewires_insert (a : Anchor) (element : NodeId) (d : Document) :
    d.Rewires (a.insert element d) := by
  unfold Anchor.insert
  split
  all_goals exact (Document.rewires_detach ..).trans (Document.rewires_place ..)

theorem reshapes_withdrawn (w : World σ) (c : Conditional) : w.Reshapes (w.withdrawn c) :=
  steady_reshapes.trans (reshapes_edit (Document.rewires_removeChild ..).size)
    (reshapes_setPresence ..)

theorem reshapes_restored (w : World σ) (c : Conditional) : w.Reshapes (w.restored c) :=
  steady_reshapes.trans
    (steady_reshapes.trans (reshapes_setPresence ..) (reshapes_refreshAll ..))
    (reshapes_edit (rewires_insert ..).size)

theorem reshapes_settled (w : World σ) (c : Conditional) (visible : Bool) :
    w.Reshapes (w.settled c visible) := by
  unfold settled
  split
  · exact w.reshapes_withdrawn c
  · exact w.reshapes_restored c
  · exact steady_reshapes.refl w

theorem presence_setPresence (w : World σ) (cell : CellId) (p : Presence) (other : CellId) :
    (w.setPresence cell p).presence other =
      if other = cell ∧ other < w.presences.size then p else w.presence other := by
  simp only [presence, setPresence, Array.getD_eq_getD_getElem?, Array.getElem?_setIfInBounds]
  by_cases h : cell = other
  · subst h
    by_cases hs : cell < w.presences.size
    · simp [hs]
    · simp [hs]
  · simp [h, Ne.symm h]

theorem presences_refreshed (w : World σ) (i : Interpolation) :
    (w.refreshed i).presences = w.presences := by
  unfold refreshed
  split <;> rfl

theorem presences_refreshAll (w : World σ) (is : List Interpolation) :
    (is.foldl refreshed w).presences = w.presences := by
  induction is generalizing w with
  | nil => rfl
  | cons i is ih => exact (ih _).trans (w.presences_refreshed i)

theorem presence_congr (h : w'.presences = w.presences) (cell : CellId) :
    w'.presence cell = w.presence cell := by rw [presence, h, presence]

theorem isGated_congr {i : Interpolation}
    (h : ∀ cell ∈ i.gates, w'.presence cell = w.presence cell) : w'.isGated i = w.isGated i := by
  rw [isGated, isGated, Bool.eq_iff_iff, List.any_eq_true, List.any_eq_true]
  exact exists_congr fun cell => and_congr_right fun hc => by rw [h cell hc]

theorem presence_withdrawn (w : World σ) (c : Conditional) (other : CellId) :
    (w.withdrawn c).presence other =
      if other = c.cell ∧ other < w.presences.size then .detached else w.presence other :=
  presence_setPresence _ _ _ other

theorem presence_restored (w : World σ) (c : Conditional) (other : CellId) :
    (w.restored c).presence other =
      if other = c.cell ∧ other < w.presences.size then .attached else w.presence other := by
  rw [← presence_setPresence]
  exact presence_congr (presences_refreshAll ..) other

theorem presence_settled_of_ne {c : Conditional} {cell : CellId} (w : World σ) (visible : Bool)
    (h : cell ≠ c.cell) : (w.settled c visible).presence cell = w.presence cell := by
  unfold settled
  split
  · rw [presence_withdrawn, if_neg fun hc => h hc.1]
  · rw [presence_restored, if_neg fun hc => h hc.1]
  · rfl

theorem presence_settled {c : Conditional} (visible : Bool) (h : c.cell < w.presences.size) :
    (w.settled c visible).presence c.cell = .attached ↔ visible = true := by
  unfold settled
  cases visible <;> cases hp : w.presence c.cell
  · simp [presence_withdrawn, h]
  · simp [hp]
  · simp [hp]
  · simp [presence_restored, h]

theorem settled_of_presence {c : Conditional} {visible : Bool}
    (h : w.presence c.cell = .attached ↔ visible = true) : w.settled c visible = w := by
  unfold settled
  cases visible <;> cases hp : w.presence c.cell <;> simp [hp] at h ⊢

end World

end LiveMarkup
