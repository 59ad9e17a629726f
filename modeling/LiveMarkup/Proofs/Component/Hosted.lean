import LiveMarkup.Proofs.Component.Prepared
import LiveMarkup.Proofs.Document.Outline

/-!
Documents that have room for directives. What directives write is no comment there, and what they move
never comes to stand under a void element. A tidy document that is prepared for a mirror has room for
its directives.
-/

namespace LiveMarkup

open LiveMarkup.Markup LiveMarkup.Expression

variable {ds : List Directive} {d d' d'' : Document}

namespace Document

/-- What the directives write is no comment, and what they move hangs under no void element. -/
structure Hosts (ds : List Directive) (d : Document) : Prop where
  tidy : d.Tidy
  text : ∀ {i}, .interpolation i ∈ ds → (d.node i.node).kind ≠ .comment
  parent : ∀ {c}, .conditional c ∈ ds → isVoid (d.node c.anchor.parent).tag = false
  element : ∀ {c}, .conditional c ∈ ds → c.anchor.parent < c.element ∧ c.element < d.nodes.size

theorem Hosts.setText (h : d.Hosts ds) {i : Interpolation} (hi : .interpolation i ∈ ds)
    (data : String) : (d.setText i.node data).Hosts ds := by
  have hnode (n : NodeId) : ((d.setText i.node data).node n).kind = (d.node n).kind ∧
      ((d.setText i.node data).node n).tag = (d.node n).tag := by
    rw [node_setText]
    split <;> exact ⟨rfl, rfl⟩
  refine ⟨h.tidy.setText (h.text hi) data, fun hj => ?_, fun hc => ?_, fun hc => ?_⟩
  · rw [(hnode _).1]
    exact h.text hj
  · rw [(hnode _).2]
    exact h.parent hc
  · rw [size_setText]
    exact h.element hc

theorem Hosts.rewire (h : d.Hosts ds) (hr : d.Rewires d') (ht : d'.Tidy) : d'.Hosts ds where
  tidy := ht
  text hi := by
    rw [hr.kind]
    exact h.text hi
  parent hc := by
    rw [hr.tag]
    exact h.parent hc
  element hc := by
    rw [hr.size]
    exact h.element hc

theorem Tidy.insert (h : d.Tidy) {a : Anchor} {element : NodeId}
    (hvoid : isVoid (d.node a.parent).tag = false) (hlt : a.parent < element)
    (hbound : element < d.nodes.size) : (a.insert element d).Tidy := by
  have hr := rewires_detach d element
  have hplace {arrange : List NodeId → List NodeId} (hperm : ∀ ns, (arrange ns).Perm (element :: ns)) :
      ((d.detach element).place a.parent element arrange).Tidy := by
    refine (h.detach element).place hperm ?_ hlt ?_
    · rwa [hr.tag]
    · rwa [hr.size]
  unfold Anchor.insert
  split
  · exact hplace (perm_beforeReference _ _)
  · exact hplace (perm_afterReference _ _)
  · exact hplace fun ns => .refl _

theorem Matches.insert (h : d.Matches d') (a : Anchor) (element : NodeId) :
    (a.insert element d).Matches (a.insert element d') := by
  unfold Anchor.insert
  split
  all_goals exact (h.detach element).place ..

structure Grows (d d' : Document) : Prop where
  size : d.nodes.size ≤ d'.nodes.size
  kind : ∀ n < d.nodes.size, (d'.node n).kind = (d.node n).kind
  tag : ∀ n < d.nodes.size, (d'.node n).tag = (d.node n).tag
  fresh : ∀ n, d.nodes.size ≤ n → (d'.node n).kind ≠ .comment

theorem Grows.trans (h : d.Grows d') (h' : d'.Grows d'') : d.Grows d'' where
  size := Nat.le_trans h.size h'.size
  kind n hn := (h'.kind n (Nat.lt_of_lt_of_le hn h.size)).trans (h.kind n hn)
  tag n hn := (h'.tag n (Nat.lt_of_lt_of_le hn h.size)).trans (h.tag n hn)
  fresh n hn := by
    by_cases hn' : n < d'.nodes.size
    · rw [h'.kind n hn']
      exact h.fresh n hn
    · exact h'.fresh n (Nat.le_of_not_lt hn')

theorem Rewires.grows (h : d.Rewires d') : d.Grows d' where
  size := Nat.le_of_eq h.size.symm
  kind n _ := h.kind n
  tag n _ := h.tag n
  fresh n hn := by
    rw [h.kind, node_of_le hn]
    exact nofun

theorem grows_removeAttribute (d : Document) (id : NodeId) (name : String) :
    d.Grows (d.removeAttribute id name) := by
  have hnode (n : NodeId) : ((d.removeAttribute id name).node n).kind = (d.node n).kind ∧
      ((d.removeAttribute id name).node n).tag = (d.node n).tag := by
    rw [node_removeAttribute]
    split <;> exact ⟨rfl, rfl⟩
  refine ⟨Nat.le_of_eq (size_removeAttribute ..).symm, fun n _ => (hnode n).1, fun n _ => (hnode n).2, ?_⟩
  intro n hn
  rw [(hnode n).1, node_of_le hn]
  exact nofun

theorem grows_createText (d : Document) (data : String) : d.Grows (d.createText data).2 := by
  have hnode (n : NodeId) (hn : n < d.nodes.size) : (d.createText data).2.node n = d.node n := by
    rw [node_createText, if_neg (Nat.ne_of_lt hn)]
  refine ⟨d.size_createText data ▸ Nat.le_succ _, fun n hn => ?_, fun n hn => ?_, fun n hn => ?_⟩
  · rw [hnode n hn]
  · rw [hnode n hn]
  · rw [node_createText]
    split
    · exact nofun
    · rw [node_of_le hn]
      exact nofun

end Document

section Prepare

variable {o : DirectiveOptions} {p : Part}

theorem tidy_foldl_removeChild (parent : NodeId) (olds : List NodeId) (h : d.Tidy) :
    (olds.foldl (fun d old => d.removeChild parent old) d).Tidy := by
  induction olds generalizing d with
  | nil => exact h
  | cons old olds ih => exact ih (h.removeChild parent old)

theorem Part.grows_inserted (p : Part) (d : Document) : d.Grows (p.inserted d) := by
  obtain ⟨arrange, heq, -⟩ := p.inserted_eq_place d
  rw [heq]
  exact (Document.grows_createText d p.text).trans (Document.rewires_place ..).grows

theorem Part.grows_prepare (o : DirectiveOptions) (p : Part) (d : Document) :
    d.Grows (p.prepare o d) := by
  have hremove := d.grows_removeAttribute p.element o.onClick
  cases hi : p.interpolation with
  | none =>
    rw [prepare_of_none o d hi]
    exact hremove
  | some i =>
    rw [prepare_of_some o d hi]
    exact hremove.trans ((p.grows_inserted _).trans (rewires_foldl_removeChild ..).grows)

def Part.Fits (p : Part) (d : Document) : Prop :=
  p.interpolation ≠ none → isVoid (d.node p.element).tag = false ∧ p.element < d.nodes.size

theorem Part.Fits.grow (h : p.Fits d) (hg : d.Grows d') : p.Fits d' := by
  intro hi
  obtain ⟨hvoid, hbound⟩ := h hi
  exact ⟨hg.tag p.element hbound ▸ hvoid, Nat.lt_of_lt_of_le hbound hg.size⟩

theorem Part.tidy_prepare (h : d.Tidy) (hp : p.Fits d) : (p.prepare o d).Tidy := by
  have hremove := h.removeAttribute p.element o.onClick
  have hfits := hp.grow (d.grows_removeAttribute p.element o.onClick)
  cases hi : p.interpolation with
  | none =>
    rw [prepare_of_none o d hi]
    exact hremove
  | some i =>
    have hcreate := Document.grows_createText (d.removeAttribute p.element o.onClick) p.text
    obtain ⟨hvoid, -⟩ := hfits.grow hcreate (hi ▸ nofun)
    obtain ⟨arrange, heq, hperm⟩ := p.inserted_eq_place (d.removeAttribute p.element o.onClick)
    rw [prepare_of_some o d hi, heq]
    refine tidy_foldl_removeChild _ _ ((hremove.createText p.text).place hperm hvoid ?_ ?_)
    · exact (hfits (hi ▸ nofun)).2
    · exact Nat.lt_of_lt_of_eq (Nat.lt_succ_self _) (Document.size_createText ..).symm

theorem prepareAll_tidy {ps : List Part} (h : d.Tidy) (hps : ∀ p ∈ ps, p.Fits d) :
    (ps.foldl (fun d p => p.prepare o d) d).Tidy ∧
      d.Grows (ps.foldl (fun d p => p.prepare o d) d) := by
  induction ps generalizing d with
  | nil => exact ⟨h, (Document.Rewires.refl d).grows⟩
  | cons p ps ih =>
    have hg := p.grows_prepare o d
    obtain ⟨htidy, hgrows⟩ := ih (Part.tidy_prepare h (hps p (List.mem_cons_self ..)))
      fun q hq => (hps q (List.mem_cons_of_mem _ hq)).grow hg
    exact ⟨htidy, hg.trans hgrows⟩

theorem Mirror.Follows.part_of_conditional {m : Mirror} (hf : m.Follows o d) {c : Conditional}
    (hc : .conditional c ∈ m.directives) :
    c.element ∈ (d.node c.anchor.parent).children ∧ d.Under m.part.element c.element ∧
      ∃ source, d.showIf? o c.element = some source ∧ c.predicate = compileSource source := by
  rw [← directivesOfAll_singleton] at hc
  obtain ⟨p, inner, cond, -, hparts, hcond, rfl⟩ := hf.conditional ((mem_conditionalsOf _).1 hc)
  have hp := hparts p (List.mem_cons_self ..)
  obtain ⟨hmarks, hsource⟩ := (hf.reads p hp).condition cond hcond
  exact ⟨hmarks.mem, hf.under_self hp, hsource⟩

theorem Mirror.hosts_prepare (hd : d.Linked) (ht : d.Tidy) {firstCell : CellId} {element : NodeId}
    (hbound : element < d.nodes.size) {m : Mirror}
    (hm : Mirror.ofElement o d firstCell element = some m) :
    (m.prepare o d).Hosts m.directives := by
  obtain ⟨s', hlaid⟩ := laid_ofElement hm
  obtain ⟨hf, -⟩ := follows_ofElement hd hbound hm
  have hfits (p : Part) (hp : p ∈ m.parts) : p.Fits d := by
    intro hi
    have hr := hf.reads p hp
    obtain ⟨t, htext⟩ := List.exists_mem_of_ne_nil _ (hr.interpolation hi)
    have hmem := (hr.texts t htext).1
    exact ⟨ht.not_void hmem, Document.lt_of_children hmem⟩
  obtain ⟨htidy, hgrows⟩ := prepareAll_tidy ht hfits
  refine ⟨htidy, fun hi => ?_, fun hc => ?_, fun hc => ?_⟩
  · rw [← directivesOfAll_singleton, mem_interpolationsOf] at hi
    exact hgrows.fresh _ (hlaid.node_mem hi).1
  · obtain ⟨hmem, -⟩ := hf.part_of_conditional hc
    rw [prepare, hgrows.tag _ (Document.lt_of_children hmem)]
    exact ht.not_void hmem
  · obtain ⟨hmem, -⟩ := hf.part_of_conditional hc
    obtain ⟨hlt, hlast⟩ := ht.child hmem
    exact ⟨hlt, Nat.lt_of_lt_of_le hlast hgrows.size⟩

end Prepare

end LiveMarkup
