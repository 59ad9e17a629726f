import LiveMarkup.Proofs.Document.Renamed

/-!
Trees under other names. A part and its image have one tree up to the names of its nodes, and print the
same; so do any two trees whose nodes correspond.
-/

namespace LiveMarkup

open LiveMarkup.Markup

namespace Markup

variable {ι κ : Type} (g : ι → κ)

mutual

def Branch.relabel : Branch ι → Branch κ
  | .element label tag attributes children =>
    .element (g label) tag attributes (Forest.relabel children)
  | .text label data => .text (g label) data
  | .comment label data => .comment (g label) data

def Forest.relabel : Forest ι → Forest κ
  | [] => []
  | b :: bs => Branch.relabel b :: Forest.relabel bs

end

theorem Forest.relabel_eq_map (bs : Forest ι) : Forest.relabel g bs = bs.map (Branch.relabel g) := by
  induction bs with
  | nil => rfl
  | cons b bs ih => rw [Forest.relabel, ih, List.map_cons]

end Markup

namespace Document

variable {f : NodeId → NodeId} {S : Set NodeId} {d d' e : Document} {n m top : NodeId}

theorem Tied.branchWithin (h : d.Tied f S e) (depth : Nat) (hn : n ∈ S) :
    e.branchWithin depth (f n) = (d.branchWithin depth n).relabel f := by
  induction depth generalizing n with
  | zero =>
    rw [Document.branchWithin, h.image.node n hn]
    rfl
  | succ depth ih =>
    have hchildren : (e.node (f n)).children.map (e.branchWithin depth) =
        Forest.relabel f ((d.node n).children.map (d.branchWithin depth)) := by
      rw [h.image.children hn, Forest.relabel_eq_map, List.map_map, List.map_map]
      exact List.map_congr_left fun m hm => ih (h.closed n hn m hm)
    rw [branchWithin_succ, branchWithin_succ, hchildren, h.image.node n hn]
    simp only [branchOf, Node.rename]
    cases (d.node n).kind <;> rfl

def Corresponds (R : NodeId → NodeId → Prop) (d e : Document) : Prop :=
  ∀ n m, R n m → (d.node n).bare = (e.node m).bare ∧
    List.Forall₂ R (d.node n).children (e.node m).children

variable {R : NodeId → NodeId → Prop}

theorem Node.contents_eq {a b : Node} (h : a.bare = b.bare) :
    a.kind = b.kind ∧ a.tag = b.tag ∧ a.attributes = b.attributes ∧ a.data = b.data := by
  cases a
  cases b
  cases h
  exact ⟨rfl, rfl, rfl, rfl⟩

theorem print_map {b c : NodeId → Branch NodeId} {ns ms : List NodeId} (h : List.Forall₂ R ns ms)
    (hbc : ∀ n m, R n m → (b n).print = (c m).print) :
    Forest.print (ns.map b) = Forest.print (ms.map c) := by
  induction h with
  | nil => rfl
  | cons hr _ ih => rw [List.map_cons, List.map_cons, Forest.print, Forest.print, hbc _ _ hr, ih]

theorem Corresponds.print_branchWithin (hR : Corresponds R d e) (depth : Nat) (h : R n m) :
    (d.branchWithin depth n).print = (e.branchWithin depth m).print := by
  induction depth generalizing n m with
  | zero =>
    obtain ⟨-, htag, hattributes, -⟩ := Node.contents_eq (hR n m h).1
    rw [branchWithin, branchWithin, htag, hattributes]
    rfl
  | succ depth ih =>
    obtain ⟨hbare, hchildren⟩ := hR n m h
    obtain ⟨hkind, htag, hattributes, hdata⟩ := Node.contents_eq hbare
    rw [branchWithin_succ, branchWithin_succ, branchOf, branchOf, hkind, htag, hattributes, hdata]
    cases (e.node m).kind with
    | element => simp only [Branch.print, print_map hchildren fun _ _ => ih]
    | text => rfl
    | comment => rfl

theorem Corresponds.innerHtml (hR : Corresponds R d e) (hsize : d.nodes.size = e.nodes.size)
    (h : R n m) : d.innerHtml n = e.innerHtml m := by
  have hbranch (k l : NodeId) (hkl : R k l) : (d.branch k).print = (e.branch l).print := by
    rw [branch, branch, hsize]
    exact hR.print_branchWithin _ hkl
  rw [Document.innerHtml, Document.innerHtml, childForest, childForest,
    print_map (hR n m h).2 hbranch]

theorem Tied.corresponds (h : d.Tied f S e) : Corresponds (fun n m => n ∈ S ∧ m = f n) d e := by
  rintro n _ ⟨hn, rfl⟩
  refine ⟨?_, ?_⟩
  · rw [h.image.node n hn]
    rfl
  · rw [h.image.children hn, List.forall₂_map_right_iff, List.forall₂_same]
    exact fun m hm => ⟨h.closed n hn m hm, rfl⟩

theorem Tied.outerHtml (h : d.Tied f S e) (hn : n ∈ S) (hdeep : Deep d.IsChild d.nodes.size n)
    (hle : d.nodes.size ≤ e.nodes.size) : e.outerHtml (f n) = d.outerHtml n := by
  rw [Document.outerHtml, Document.outerHtml, branch, branch, ← hdeep.branchWithin_eq hle,
    h.corresponds.print_branchWithin _ ⟨hn, rfl⟩]

theorem Closed.under (h : d.Closed S) (hn : n ∈ S) (hm : d.Under n m) : m ∈ S := by
  induction hm with
  | self => exact hn
  | child _ hm ih => exact h _ ih _ hm

theorem Tied.under_iff (h : d.Tied f S e) (hn : n ∈ S) :
    e.Under (f n) m ↔ ∃ k, d.Under n k ∧ f k = m := by
  constructor
  · intro hm
    induction hm with
    | self => exact ⟨n, .self, rfl⟩
    | child _ hm ih =>
      obtain ⟨k, hk, rfl⟩ := ih
      rw [h.image.children (h.closed.under hn hk)] at hm
      obtain ⟨c, hc, rfl⟩ := List.mem_map.1 hm
      exact ⟨c, .child hk hc, rfl⟩
  · rintro ⟨k, hk, rfl⟩
    induction hk with
    | self => exact .self
    | child hk hc ih =>
      refine .child ih ?_
      rw [h.image.children (h.closed.under hn hk)]
      exact List.mem_map_of_mem hc

theorem ChangesIn.under_root (h : d.ChangesIn S d') (hd : d.Consistent)
    (hS : ∀ n ∈ S, n < d.nodes.size → d.Under top n) (hroot : d.Under Document.root top) :
    d'.Under Document.root top := by
  have hkept {n m : NodeId} (hm : m ∈ (d.node n).children) (hn : ¬d.Under top n) :
      m ∈ (d'.node n).children := by
    rwa [h.node n fun hs => hn (hS n hs (lt_of_children hm))]
  have habove {n : NodeId} (hn : d.Under Document.root n) (hout : ¬d.Under top n) :
      d'.Under Document.root n := by
    induction hn with
    | self => exact .self
    | child hn hm ih =>
      have hout : ¬d.Under top _ := fun hu => hout (.child hu hm)
      exact .child (ih hout) (hkept hm hout)
  cases hroot with
  | self => exact .self
  | child hn hm =>
    have hout := hd.not_under_child hn hm
    exact .child (habove hn hout) (hkept hm hout)

end Document

end LiveMarkup
