import LiveMarkup.Proofs.Document.Editing
import Mathlib.Data.Set.Image
import Mathlib.Logic.Relation

/-!
A part of one document seen in another, where its nodes go by other names. Edits of the part that are
made on both sides, each under its own names, keep the one an image of the other, and nothing outside
the part or its image changes.
-/

namespace LiveMarkup.Document

open LiveMarkup.Markup

def Mutation.Within (S : Set NodeId) : Mutation → Prop
  | .inserted parent node => parent ∈ S ∧ node ∈ S
  | .removed parent node => parent ∈ S ∧ node ∈ S
  | .textChanged node => node ∈ S

/-- All nodes that are not in the part are as they were; new ones are in it, and so is all that the
journal tells. -/
structure ChangesIn (S : Set NodeId) (d d' : Document) : Prop where
  size : d.nodes.size ≤ d'.nodes.size
  node : ∀ n ∉ S, d'.node n = d.node n
  fresh : ∀ n, d.nodes.size ≤ n → n < d'.nodes.size → n ∈ S
  told : ∃ ms, d'.journal = d.journal ++ ms ∧ ∀ m ∈ ms, m.Within S

def Closed (S : Set NodeId) (d : Document) : Prop := ∀ n ∈ S, ∀ m ∈ (d.node n).children, m ∈ S

variable {S T : Set NodeId} {d d' d'' e e' : Document} {edit : Edit}

theorem Mutation.Within.mono {m : Mutation} (hm : m.Within S) (hsub : S ⊆ T) : m.Within T := by
  cases m with
  | inserted parent node => exact ⟨hsub hm.1, hsub hm.2⟩
  | removed parent node => exact ⟨hsub hm.1, hsub hm.2⟩
  | textChanged node => exact hsub hm

namespace ChangesIn

theorem refl (S : Set NodeId) (d : Document) : d.ChangesIn S d :=
  ⟨Nat.le_refl _, fun _ _ => rfl, fun _ hle hlt => absurd hlt (Nat.not_lt.2 hle),
    [], (List.append_nil _).symm, nofun⟩

theorem trans (h : d.ChangesIn S d') (h' : d'.ChangesIn S d'') : d.ChangesIn S d'' := by
  refine ⟨Nat.le_trans h.size h'.size, fun n hn => (h'.node n hn).trans (h.node n hn),
    fun n hle hlt => ?_, ?_⟩
  · by_cases hn : n < d'.nodes.size
    · exact h.fresh n hle hn
    · exact h'.fresh n (Nat.le_of_not_lt hn) hlt
  · obtain ⟨ms, hms, hin⟩ := h.told
    obtain ⟨ms', hms', hin'⟩ := h'.told
    refine ⟨ms ++ ms', by rw [hms', hms, List.append_assoc], fun m hm => ?_⟩
    exact (List.mem_append.1 hm).elim (hin m) (hin' m)

theorem mono (h : d.ChangesIn S d') (hsub : S ⊆ T) : d.ChangesIn T d' := by
  obtain ⟨ms, hms, hin⟩ := h.told
  exact ⟨h.size, fun n hn => h.node n fun hs => hn (hsub hs),
    fun n hle hlt => hsub (h.fresh n hle hlt), ms, hms, fun m hm => (hin m hm).mono hsub⟩

theorem update {id : NodeId} (h : id ∈ S) (f : Node → Node) : d.ChangesIn S (d.update id f) := by
  refine ⟨Nat.le_of_eq (size_update ..).symm, fun n hn => ?_, fun n hle hlt => ?_,
    [], (List.append_nil _).symm, nofun⟩
  · rw [node_update, if_neg]
    rintro ⟨rfl, -⟩
    exact hn h
  · exact absurd (size_update d id f ▸ hlt) (Nat.not_lt.2 hle)

theorem record {m : Mutation} (h : m.Within S) : d.ChangesIn S (d.record m) :=
  ⟨Nat.le_refl _, fun _ _ => rfl, fun _ hle hlt => absurd hlt (Nat.not_lt.2 hle),
    [m], rfl, List.forall_mem_singleton.2 h⟩

theorem create (h : d.nodes.size ∈ S) (n : Node) : d.ChangesIn S (d.create n).2 := by
  have hsize : (d.create n).2.nodes.size = d.nodes.size + 1 := Array.size_push ..
  refine ⟨hsize ▸ Nat.le_succ _, fun m hm => ?_, fun m hle hlt => ?_,
    [], (List.append_nil _).symm, nofun⟩
  · rw [node_create, if_neg]
    rintro rfl
    exact hm h
  · rw [hsize] at hlt
    rwa [Nat.le_antisymm (Nat.le_of_lt_succ hlt) hle]

theorem setText {id : NodeId} (h : id ∈ S) (data : String) : d.ChangesIn S (d.setText id data) := by
  unfold Document.setText
  split
  · exact refl S d
  · exact (update h _).trans (record h)

theorem removeChild {parent child : NodeId} (hp : parent ∈ S) (hc : child ∈ S) :
    d.ChangesIn S (d.removeChild parent child) := by
  unfold Document.removeChild
  split
  · exact ((update hp _).trans (update hc _)).trans (record ⟨hp, hc⟩)
  · exact refl S d

theorem place {parent child : NodeId} (hp : parent ∈ S) (hc : child ∈ S)
    (arrange : List NodeId → List NodeId) : d.ChangesIn S (d.place parent child arrange) :=
  ((update hp _).trans (update hc _)).trans (record ⟨hp, hc⟩)

end ChangesIn

/-- The edit is about nodes of the part, and puts there only what hangs nowhere. -/
def Edit.Within (S : Set NodeId) (d : Document) : Edit → Prop
  | .createText _ => d.nodes.size ∈ S
  | .createElement _ => d.nodes.size ∈ S
  | .insert _ parent child => parent ∈ S ∧ child ∈ S ∧ (d.node child).parent = none
  | .removeChild parent child => parent ∈ S ∧ child ∈ S
  | .setText id _ => id ∈ S
  | .setAttribute id _ _ => id ∈ S
  | .removeAttribute id _ => id ∈ S

theorem insert_of_free {parent child : NodeId} (hfree : (d.node child).parent = none)
    (position : Position) :
    position.insert d parent child = d.place parent child (position.arrange child) := by
  rw [Position.insert_eq_place, detach_of_parent hfree]

theorem Edit.Within.changesIn (h : edit.Within S d) : d.ChangesIn S (edit.run d) := by
  cases edit with
  | createText data => exact .create h _
  | createElement tag => exact .create h _
  | insert position parent child =>
    obtain ⟨hp, hc, hfree⟩ := h
    rw [Edit.run, insert_of_free hfree]
    exact .place hp hc _
  | removeChild parent child => exact .removeChild h.1 h.2
  | setText id data => exact .setText h data
  | setAttribute id name value => exact .update h _
  | removeAttribute id name => exact .update h _

theorem Closed.run (hS : d.Closed S) (h : edit.Within S d) : (edit.run d).Closed S := by
  intro n hn m hm
  cases edit with
  | insert position parent child =>
    obtain ⟨hp, hc, hfree⟩ := h
    rw [Edit.run, insert_of_free hfree] at hm
    rcases mem_children_of_place (position.perm_arrange child) hm with hm | ⟨-, rfl⟩
    · exact hS n hn m hm
    · exact hc
  | removeChild parent child => exact hS n hn m (mem_children_of_removeChild hm)
  | _ =>
    rw [(Edit.links_run rfl n).2] at hm
    exact hS n hn m hm

section Rename

variable (f : NodeId → NodeId)

def Node.rename (n : Node) : Node :=
  { n with parent := n.parent.map f, children := n.children.map f }

def Position.rename : Position → Position
  | .last => .last
  | .first => .first
  | .before reference => .before (f reference)
  | .after reference => .after (f reference)

def Edit.rename : Edit → Edit
  | .createText data => .createText data
  | .createElement tag => .createElement tag
  | .insert position parent child => .insert (position.rename f) (f parent) (f child)
  | .removeChild parent child => .removeChild (f parent) (f child)
  | .setText id data => .setText (f id) data
  | .setAttribute id name value => .setAttribute (f id) name value
  | .removeAttribute id name => .removeAttribute (f id) name

end Rename

variable {f : NodeId → NodeId}

theorem Node.rename_of_fixed {n : Node} (hparent : ∀ p, n.parent = some p → f p = p)
    (hchildren : ∀ c ∈ n.children, f c = c) : n.rename f = n := by
  have hp : n.parent.map f = n.parent := by
    cases h : n.parent with
    | none => rfl
    | some p => rw [Option.map_some, hparent p h]
  have hc : n.children.map f = n.children :=
    (List.map_congr_left hchildren).trans (List.map_id _)
  rw [rename, hp, hc]

theorem arrange_rename (hf : f.Injective) (position : Position) (child : NodeId)
    (ns : List NodeId) :
    (position.rename f).arrange (f child) (ns.map f) = (position.arrange child ns).map f := by
  have hbefore (reference : NodeId) :
      beforeReference (f child) (f reference) (ns.map f) =
        (beforeReference child reference ns).map f := by
    induction ns with
    | nil => rfl
    | cons n ns ih =>
      rw [List.map_cons, beforeReference, beforeReference, ih, apply_ite (List.map f)]
      exact if_congr hf.eq_iff rfl rfl
  have hafter (reference : NodeId) :
      afterReference (f child) (f reference) (ns.map f) =
        (afterReference child reference ns).map f := by
    clear hbefore
    induction ns with
    | nil => rfl
    | cons n ns ih =>
      rw [List.map_cons, afterReference, afterReference, ih, apply_ite (List.map f)]
      exact if_congr hf.eq_iff rfl rfl
  cases position with
  | last =>
    rw [Position.rename, Position.arrange, Position.arrange, List.map_append]
    rfl
  | first => rfl
  | before reference => exact hbefore reference
  | after reference => exact hafter reference

/-- The part stands in the other document under the names that `f` gives. Nodes that are still to come
get the next numbers on both sides. -/
structure Image (f : NodeId → NodeId) (S : Set NodeId) (d e : Document) : Prop where
  node : ∀ n ∈ S, e.node (f n) = (d.node n).rename f
  bound : ∀ n ∈ S, n < d.nodes.size → f n < e.nodes.size
  fresh : ∀ n ∈ S, d.nodes.size ≤ n → f n = e.nodes.size + (n - d.nodes.size)

namespace Image

theorem lt_iff (h : d.Image f S e) {n : NodeId} (hn : n ∈ S) :
    f n < e.nodes.size ↔ n < d.nodes.size := by
  refine ⟨fun hlt => Nat.lt_of_not_le fun hle => ?_, h.bound n hn⟩
  rw [h.fresh n hn hle] at hlt
  exact Nat.not_lt.2 (Nat.le_add_right ..) hlt

theorem size_eq (h : d.Image f S e) (hn : d.nodes.size ∈ S) : f d.nodes.size = e.nodes.size := by
  rw [h.fresh _ hn (Nat.le_refl _), Nat.sub_self, Nat.add_zero]

theorem children (h : d.Image f S e) {n : NodeId} (hn : n ∈ S) :
    (e.node (f n)).children = (d.node n).children.map f := by
  rw [h.node n hn]
  rfl

theorem parent (h : d.Image f S e) {n : NodeId} (hn : n ∈ S) :
    (e.node (f n)).parent = (d.node n).parent.map f := by
  rw [h.node n hn]
  rfl

theorem of_node (h : d.Image f S e) (hd : d'.nodes.size = d.nodes.size)
    (he : e'.nodes.size = e.nodes.size) (hn : ∀ n ∈ S, e'.node (f n) = (d'.node n).rename f) :
    d'.Image f S e' := by
  refine ⟨hn, ?_, ?_⟩
  · rw [hd, he]
    exact h.bound
  · rw [hd, he]
    exact h.fresh

theorem record (h : d.Image f S e) (m m' : Mutation) : (d.record m).Image f S (e.record m') :=
  ⟨h.node, h.bound, h.fresh⟩

theorem other (h : d.Image f S e) (hc : e.ChangesIn T e') (hT : ∀ n ∈ S, f n ∉ T)
    (hS : ∀ n ∈ S, n < d.nodes.size) : d.Image f S e' where
  node n hn := (hc.node _ (hT n hn)).trans (h.node n hn)
  bound n hn hlt := Nat.lt_of_lt_of_le (h.bound n hn hlt) hc.size
  fresh n hn hle := absurd (hS n hn) (Nat.not_lt.2 hle)

variable (hf : f.Injective)

include hf

theorem update (h : d.Image f S e) (id : NodeId) {g k : Node → Node}
    (hg : ∀ n, k (n.rename f) = (g n).rename f) :
    (d.update id g).Image f S (e.update (f id) k) := by
  refine h.of_node (size_update ..) (size_update ..) fun n hn => ?_
  rw [node_update, node_update, h.node n hn, hg, apply_ite (Node.rename f)]
  exact if_congr (and_congr hf.eq_iff (h.lt_iff hn)) rfl rfl

theorem create (h : d.Image f S e) (hS : d.nodes.size ∈ S) {n : Node} (hn : n.rename f = n) :
    (d.create n).2.Image f S (e.create n).2 := by
  have hsize (d : Document) : (d.create n).2.nodes.size = d.nodes.size + 1 := Array.size_push ..
  refine ⟨fun m hm => ?_, fun m hm hlt => ?_, fun m hm hle => ?_⟩
  · rw [node_create, node_create, h.node m hm, apply_ite (Node.rename f), hn, ← h.size_eq hS]
    exact if_congr hf.eq_iff rfl rfl
  · rw [hsize] at hlt ⊢
    rcases Nat.lt_succ_iff_lt_or_eq.1 hlt with hlt | rfl
    · exact Nat.lt_succ_of_lt (h.bound m hm hlt)
    · exact h.size_eq hS ▸ Nat.lt_succ_self _
  · rw [hsize] at hle ⊢
    rw [hsize, h.fresh m hm (Nat.le_of_succ_le hle), Nat.add_assoc, Nat.one_add,
      ← Nat.succ_sub_succ_eq_sub m, Nat.succ_sub hle]

theorem setText (h : d.Image f S e) (id : NodeId) (data : String) :
    (d.setText id data).Image f S (e.setText (f id) data) := by
  refine h.of_node (size_setText ..) (size_setText ..) fun n hn => ?_
  rw [node_setText, node_setText, h.node n hn, apply_ite (Node.rename f)]
  exact if_congr (and_congr hf.eq_iff (h.lt_iff hn)) rfl rfl

theorem removeChild (h : d.Image f S e) {parent : NodeId} (hp : parent ∈ S) (child : NodeId) :
    (d.removeChild parent child).Image f S (e.removeChild (f parent) (f child)) := by
  have hmem : (e.node (f parent)).children.contains (f child) =
      (d.node parent).children.contains child := by
    rw [h.children hp, Bool.eq_iff_iff, List.contains_iff_mem, List.contains_iff_mem,
      List.mem_map_of_injective hf]
  unfold Document.removeChild
  rw [hmem]
  split
  · have hout := h.update hf parent (g := fun n => { n with children := n.children.erase child })
      (k := fun n => { n with children := n.children.erase (f child) }) fun n =>
        congrArg (fun ns => { n.rename f with children := ns }) (List.map_erase hf n.children).symm
    exact (hout.update hf child (g := fun n => { n with parent := none })
      (k := fun n => { n with parent := none }) fun _ => rfl).record _ _
  · exact h

theorem place (h : d.Image f S e) (parent child : NodeId) {arrange arrange' : List NodeId → List NodeId}
    (harrange : ∀ ns, arrange' (ns.map f) = (arrange ns).map f) :
    (d.place parent child arrange).Image f S (e.place (f parent) (f child) arrange') := by
  have hin := h.update hf parent (g := fun n => { n with children := arrange n.children })
    (k := fun n => { n with children := arrange' n.children }) fun n =>
      congrArg (fun ns => { n.rename f with children := ns }) (harrange n.children)
  exact (hin.update hf child (g := fun n => { n with parent := some parent })
    (k := fun n => { n with parent := some (f parent) }) fun _ => rfl).record _ _

theorem run (h : d.Image f S e) (hedit : edit.Within S d) :
    (edit.run d).Image f S ((edit.rename f).run e) := by
  cases edit with
  | createText data => exact h.create hf hedit rfl
  | createElement tag => exact h.create hf hedit rfl
  | insert position parent child =>
    obtain ⟨-, hc, hfree⟩ := hedit
    have hfree' : (e.node (f child)).parent = none := by
      rw [h.parent hc, hfree]
      rfl
    rw [Edit.rename, Edit.run, Edit.run, insert_of_free hfree, insert_of_free hfree']
    exact h.place hf parent child (arrange_rename hf position child)
  | removeChild parent child => exact h.removeChild hf hedit.1 child
  | setText id data => exact h.setText hf id data
  | setAttribute id name value => exact h.update hf id fun _ => rfl
  | removeAttribute id name => exact h.update hf id fun _ => rfl

end Image

theorem Edit.Within.rename (hedit : edit.Within S d) (h : d.Image f S e) :
    (edit.rename f).Within (f '' S) e := by
  cases edit with
  | createText data => exact ⟨_, hedit, h.size_eq hedit⟩
  | createElement tag => exact ⟨_, hedit, h.size_eq hedit⟩
  | insert position parent child =>
    obtain ⟨hp, hc, hfree⟩ := hedit
    refine ⟨Set.mem_image_of_mem f hp, Set.mem_image_of_mem f hc, ?_⟩
    rw [h.parent hc, hfree]
    rfl
  | removeChild parent child =>
    exact ⟨Set.mem_image_of_mem f hedit.1, Set.mem_image_of_mem f hedit.2⟩
  | setText id data => exact Set.mem_image_of_mem f hedit
  | setAttribute id name value => exact Set.mem_image_of_mem f hedit
  | removeAttribute id name => exact Set.mem_image_of_mem f hedit

def Edit.Both (f : NodeId → NodeId) (S : Set NodeId) (x y : Document × Document) : Prop :=
  ∃ edit : Edit, edit.Within S x.1 ∧ y = (edit.run x.1, (edit.rename f).run x.2)

structure Tied (f : NodeId → NodeId) (S : Set NodeId) (d e : Document) : Prop where
  image : d.Image f S e
  closed : d.Closed S

theorem Tied.edits (hf : f.Injective) {x y : Document × Document} (h : x.1.Tied f S x.2)
    (hxy : Relation.ReflTransGen (Edit.Both f S) x y) :
    y.1.Tied f S y.2 ∧ x.1.ChangesIn S y.1 ∧ x.2.ChangesIn (f '' S) y.2 := by
  induction hxy with
  | refl => exact ⟨h, .refl S _, .refl _ _⟩
  | tail _ hstep ih =>
    obtain ⟨⟨himage, hclosed⟩, hleft, hright⟩ := ih
    obtain ⟨edit, hedit, rfl⟩ := hstep
    exact ⟨⟨himage.run hf hedit, hclosed.run hedit⟩, hleft.trans hedit.changesIn,
      hright.trans (hedit.rename himage).changesIn⟩

end LiveMarkup.Document
