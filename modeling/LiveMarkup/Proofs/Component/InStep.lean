import LiveMarkup.Proofs.Reactive.Outside
import LiveMarkup.Proofs.Reactive.ReadOnly
import LiveMarkup.Proofs.Reactive.Settling

/-!
Directives in step with the store: a text that is not gated is its template filled in, an element is
attached when its predicate is truthy. Directives of one component that are kept apart do not put each
other out of step, and writing a field puts out of step only those that depend on it.
-/

namespace LiveMarkup

open LiveMarkup.Expression

variable {σ : Type}

/-- Each text has its own node and each conditional its own cell, and what is inside a conditional is
gated by its cell. -/
structure Separate (ds : List Directive) : Prop where
  node_inj : ∀ {i j}, .interpolation i ∈ ds → .interpolation j ∈ ds → i.node = j.node → i = j
  cell_inj : ∀ {c c'}, .conditional c ∈ ds → .conditional c' ∈ ds → c.cell = c'.cell → c = c'
  gated : ∀ {i c}, .interpolation i ∈ ds → .conditional c ∈ ds → (c.cell ∈ i.gates ↔ i ∈ c.inside)
  inside : ∀ {c}, .conditional c ∈ ds → ∀ i ∈ c.inside, .interpolation i ∈ ds
  compiled : ∀ {c}, .conditional c ∈ ds → ∃ ns, c.predicate = compile ns

structure Sized (ds : List Directive) (d : Document) (presences : Array Presence) : Prop where
  node : ∀ {i}, .interpolation i ∈ ds → i.node < d.nodes.size
  cell : ∀ {c}, .conditional c ∈ ds → c.cell < presences.size

namespace World

def Shows (w : World σ) (i : Interpolation) : Prop :=
  w.isGated i = false → (w.document.node i.node).data = i.template.filled w.store.get

/-- Said of predicates that only read: wherever the fields are these, the value decides. -/
def Presents (methods : Methods σ) (w : World σ) (c : Conditional) : Prop :=
  c.predicate.ReadOnly methods → ∀ depth u v u', u.store.fields = w.store.fields →
    Act.Ends (c.predicate.evaluate (Run.scope (Run.broadcast depth) methods)) u (.ok v) u' →
    (w.presence c.cell = .attached ↔ v.truthy = true)

def InStep (methods : Methods σ) (w : World σ) : Directive → Prop
  | .interpolation i => w.Shows i
  | .conditional c => w.Presents methods c

variable {w w' : World σ} {i j : Interpolation} {c : Conditional}

theorem isGated_eq_false : w.isGated i = false ↔ ∀ cell ∈ i.gates, w.presence cell = .attached := by
  simp only [isGated, List.any_eq_false, beq_iff_eq]
  refine forall_congr' fun cell => imp_congr_right fun _ => ?_
  cases w.presence cell <;> simp

theorem isGated_refreshed (w : World σ) (i j : Interpolation) :
    (w.refreshed i).isGated j = w.isGated j :=
  isGated_congr fun cell _ => presence_congr (presences_refreshed w i) cell

theorem shows_refreshed_self (hs : i.node < w.document.nodes.size) : (w.refreshed i).Shows i := by
  intro hg
  rw [isGated_refreshed] at hg
  have hr : w.refreshed i = w.edit fun d => d.setText i.node (i.template.filled w.store.get) := by
    rw [refreshed, hg]
    rfl
  simp only [hr, edit]
  rw [Document.node_setText, if_pos ⟨rfl, hs⟩]

theorem data_refreshed_of_ne {n : NodeId} (h : n ≠ i.node) :
    ((w.refreshed i).document.node n).data = (w.document.node n).data := by
  unfold refreshed
  split
  · rfl
  · simp only [edit]
    rw [Document.node_setText, if_neg fun hn => h hn.1]

theorem shows_refreshed (hij : i.node = j.node → i = j) (hs : i.node < w.document.nodes.size)
    (h : w.Shows j) : (w.refreshed i).Shows j := by
  by_cases hn : i.node = j.node
  · cases hij hn
    exact shows_refreshed_self hs
  · intro hg
    rw [isGated_refreshed] at hg
    rw [data_refreshed_of_ne (Ne.symm hn), h hg, (w.reshapes_refreshed i).store]

theorem shows_refreshAll {is : List Interpolation} (hij : ∀ i ∈ is, i.node = j.node → i = j)
    (hs : ∀ i ∈ is, i.node < w.document.nodes.size) (h : w.Shows j ∨ j ∈ is) :
    (is.foldl refreshed w).Shows j := by
  induction is generalizing w with
  | nil => exact h.resolve_right List.not_mem_nil
  | cons i is ih =>
    have hi := hs i (List.mem_cons_self ..)
    refine ih (fun i' hi' => hij i' (List.mem_cons_of_mem _ hi')) (fun i' hi' => ?_) ?_
    · rw [(w.reshapes_refreshed i).size]
      exact hs i' (List.mem_cons_of_mem _ hi')
    · rcases h with h | h
      · exact .inl (shows_refreshed (hij i (List.mem_cons_self ..)) hi h)
      · rcases List.mem_cons.1 h with rfl | h
        · exact .inl (shows_refreshed_self hi)
        · exact .inr h

theorem shows_edit {f : Document → Document} (hf : w.document.Rewires (f w.document))
    (h : w.Shows j) : (w.edit f).Shows j := fun hg => (hf.data j.node).trans (h hg)

theorem shows_withdrawn (h : w.Shows j) : (w.withdrawn c).Shows j := by
  intro hg
  have hw : w.isGated j = false := by
    refine isGated_eq_false.2 fun cell hc => ?_
    have hp := isGated_eq_false.1 hg cell hc
    rw [presence_withdrawn] at hp
    split at hp
    · cases hp
    · exact hp
  exact ((Document.rewires_removeChild ..).data j.node).trans (h hw)

theorem shows_restored (hij : ∀ i ∈ c.inside, i.node = j.node → i = j)
    (hs : ∀ i ∈ c.inside, i.node < w.document.nodes.size) (hg : c.cell ∈ j.gates → j ∈ c.inside)
    (h : w.Shows j ∨ j ∈ c.inside) : (w.restored c).Shows j := by
  refine shows_edit (rewires_insert ..) (shows_refreshAll hij hs ?_)
  by_cases hj : j ∈ c.inside
  · exact .inr hj
  · have hcell : (w.setPresence c.cell .attached).isGated j = w.isGated j := by
      refine isGated_congr fun cell hc => ?_
      rw [presence_setPresence, if_neg]
      rintro ⟨rfl, -⟩
      exact hj (hg hc)
    exact .inl fun hw => h.resolve_right hj (hcell ▸ hw)

variable {methods : Methods σ}

theorem presents_congr (hf : w'.store.fields = w.store.fields)
    (hp : w'.presence c.cell = w.presence c.cell) (h : w.Presents methods c) :
    w'.Presents methods c := by
  intro hro depth u v u' hu hv
  rw [hp]
  exact h hro depth u v u' (hu.trans hf) hv

variable {ns : List Node} {depth : Nat} {v : Value}

theorem presents_settled (hc : c.predicate = compile ns)
    (hev : Act.Ends (c.predicate.evaluate (Run.scope (Run.broadcast depth) methods)) w (.ok v) w')
    (hs : c.cell < w'.presences.size) : (w'.settled c v.truthy).Presents methods c := by
  intro hro depth' u v' u' hu hv'
  rw [hc] at hro hev hv'
  have hfields : w'.store.fields = w.store.fields :=
    (hro.evaluate_agree w.store.fields depth depth ⟨rfl, rfl⟩ hev hev).2.1
  have hu : u.store.fields = w.store.fields := by
    rw [hu, (w'.reshapes_settled c v.truthy).store, hfields]
  cases (hro.evaluate_agree w.store.fields depth depth' ⟨rfl, hu⟩ hev hv').1
  exact presence_settled v.truthy hs

theorem presents_of_error {e : EvalError} (hc : c.predicate = compile ns)
    (hev : Act.Ends (c.predicate.evaluate (Run.scope (Run.broadcast depth) methods)) w
      (.error e) w') : w'.Presents methods c := by
  intro hro depth' u v' u' hu hv'
  rw [hc] at hro hev hv'
  have hfields : w'.store.fields = w.store.fields :=
    (hro.evaluate_agree w.store.fields depth depth ⟨rfl, rfl⟩ hev hev).2.1
  cases (hro.evaluate_agree w.store.fields depth depth' ⟨rfl, hu.trans hfields⟩ hev hv').1

variable {ds : List Directive} {d : Directive}

theorem inStep_alike (ha : w.Alike w') (h : w.InStep methods d) : w'.InStep methods d := by
  cases d with
  | interpolation i =>
    intro hg
    have hget : w'.store.get = w.store.get := by
      funext name
      rw [Store.get, Store.get, ha.fields]
    rw [ha.document, hget]
    exact h ((isGated_congr fun cell _ => presence_congr ha.presences cell) ▸ hg)
  | conditional c => exact presents_congr ha.fields (presence_congr ha.presences c.cell) h

theorem inStep_refreshed (hds : Separate ds) (hi : .interpolation i ∈ ds) (hd : d ∈ ds)
    (hs : Sized ds w.document w.presences) (h : w.InStep methods d) :
    (w.refreshed i).InStep methods d := by
  cases d with
  | interpolation j => exact shows_refreshed (hds.node_inj hi hd) (hs.node hi) h
  | conditional c =>
    exact presents_congr (congrArg Store.fields (w.reshapes_refreshed i).store)
      (presence_congr (w.presences_refreshed i) c.cell) h

theorem inStep_settled (hds : Separate ds) (hc : .conditional c ∈ ds) (hd : d ∈ ds)
    (hs : Sized ds w.document w.presences) (visible : Bool) (hne : d ≠ .conditional c)
    (h : w.InStep methods d) : (w.settled c visible).InStep methods d := by
  cases d with
  | interpolation j =>
    have hin := hds.inside hc
    unfold settled
    split
    · exact shows_withdrawn h
    · exact shows_restored (fun i hi => hds.node_inj (hin i hi) hd) (fun i hi => hs.node (hin i hi))
        (hds.gated hd hc).1 (.inl h)
    · exact h
  | conditional c' =>
    refine presents_congr (congrArg Store.fields (w.reshapes_settled c visible).store)
      (presence_settled_of_ne w visible fun hcell => ?_) h
    exact hne (congrArg Directive.conditional (hds.cell_inj hd hc hcell))

/-- Where a directive calls anything it depends on every field, so here it calls nothing. -/
theorem inStep_put {field : String} {value : Value} (hds : Separate ds) (hd : d ∈ ds)
    (hdep : d.dependsOn field = false) (h : w.InStep methods d) :
    World.InStep methods { w with store := w.store.put field value } d := by
  have hget (name : String) (hn : name ≠ field) :
      w.store.get name = (w.store.put field value).get name := by
    rw [Store.get, Store.get, Script.fieldOf, Script.fieldOf]
    exact congrArg (·.getD .undefined) (Table.find?_insert_of_ne value _ hn).symm
  cases d with
  | interpolation i =>
    intro hg
    refine (h hg).trans (Template.filled_congr fun name hn => hget name ?_)
    rintro rfl
    exact Bool.false_ne_true (hdep.symm.trans hn)
  | conditional c =>
    intro hro depth u v u' hu hv
    obtain ⟨ns, hc⟩ := hds.compiled hd
    simp only [Directive.dependsOn, Directive.reads, hc] at hdep
    rw [hc] at hv
    obtain ⟨v', hv'⟩ := (Compiled.callFree_of_not_includes hdep).ends (Run.broadcast depth) methods
      (Compiled.isValid_of_ends hv) w
    have hvv : v' = v := by
      refine Compiled.value_of_not_includes hdep (fun name hn => ?_) hv' hv
      rw [hget name hn, Store.get, Store.get, hu]
    rw [← hvv]
    exact h hro depth w v' w rfl (hc ▸ hv')

end World

end LiveMarkup
