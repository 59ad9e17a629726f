import LiveMarkup.Proofs.Document.Forest
import LiveMarkup.Proofs.Document.Preorder

/-!
Search for an element. It finds the first one that a selector accepts on a walk through what hangs below
the root, each node before what is below it and that before its later siblings.
-/

namespace LiveMarkup.Document

open LiveMarkup.Markup

variable {d : Document} {s : Selector} {n m : NodeId} {ns walk walk' : List NodeId}

inductive Walk (d : Document) : List NodeId → List NodeId → Prop
  | nil : Walk d [] []
  | cons {c cs inner rest} : Walk d (d.node c).children inner → Walk d cs rest →
    Walk d (c :: cs) (c :: (inner ++ rest))

def fits (d : Document) (s : Selector) (n : NodeId) : Bool :=
  d.isElement n && acceptedBy s (d.node n).tag (d.node n).attributes

theorem under_iff : d.Under n m ↔ m = n ∨ ∃ c ∈ (d.node n).children, d.Under c m := by
  constructor
  · intro h
    induction h with
    | self => exact .inl rfl
    | child _ hm ih =>
      rcases ih with rfl | ⟨c, hc, hu⟩
      · exact .inr ⟨_, hm, .self⟩
      · exact .inr ⟨c, hc, .child hu hm⟩
  · rintro (rfl | ⟨c, hc, hu⟩)
    · exact .self
    · exact .trans (.child .self hc) hu

theorem Acyclic.under_root_iff (ha : d.Acyclic) (n : NodeId) :
    (n ≠ root ∧ d.Under root n) ↔ ∃ c ∈ (d.node root).children, d.Under c n := by
  rw [under_iff]
  constructor
  · rintro ⟨hn, hu⟩
    exact hu.resolve_left hn
  · rintro ⟨c, hc, hu⟩
    refine ⟨?_, .inr ⟨c, hc, hu⟩⟩
    rintro rfl
    exact ha root c hc hu

namespace Walk

theorem mem_iff (h : d.Walk ns walk) : m ∈ walk ↔ ∃ n ∈ ns, d.Under n m := by
  induction h with
  | nil => simp
  | cons _ _ ihinner ihrest =>
    simp only [List.mem_cons, List.mem_append, ihinner, ihrest, exists_eq_or_imp, ← or_assoc]
    rw [← under_iff]

theorem unique (h : d.Walk ns walk) (h' : d.Walk ns walk') : walk = walk' := by
  induction h generalizing walk' with
  | nil =>
    cases h'
    rfl
  | cons _ _ ihinner ihrest =>
    cases h' with
    | cons hinner hrest => rw [ihinner hinner, ihrest hrest]

end Walk

section Branches

variable (hb : ∀ n, d.branch n = branchOf n (d.node n) (d.childForest n))
  (hk : ∀ n m, m ∈ (d.node n).children → d.isElement n = true)

include hk

theorem children_of_not_isElement (he : d.isElement n = false) : (d.node n).children = [] := by
  refine List.eq_nil_iff_forall_not_mem.2 fun m hm => ?_
  simp [hk n m hm] at he

include hb

theorem labels_branch (n : NodeId) : (d.branch n).labels = n :: Forest.labels (d.childForest n) := by
  rw [hb, branchOf]
  cases h : (d.node n).kind with
  | element => rfl
  | text =>
    have hleaf := children_of_not_isElement hk (n := n) (by simp [isElement, h])
    simp [childForest, hleaf, Branch.labels, Forest.labels]
  | comment =>
    have hleaf := children_of_not_isElement hk (n := n) (by simp [isElement, h])
    simp [childForest, hleaf, Branch.labels, Forest.labels]

theorem walk_branches
    (h : ∀ c ∈ ns, d.Walk (d.node c).children (Forest.labels (d.childForest c))) :
    d.Walk ns (Forest.labels (ns.map d.branch)) := by
  induction ns with
  | nil => exact .nil
  | cons c cs ih =>
    rw [List.map_cons, Forest.labels, labels_branch hb hk]
    exact .cons (h c (List.mem_cons_self ..)) (ih fun c' hc' => h c' (List.mem_cons_of_mem _ hc'))

theorem Acyclic.walk_labels (ha : d.Acyclic)
    (hbound : ∀ n m, m ∈ (d.node n).children → m < d.nodes.size) (n : NodeId) :
    d.Walk (d.node n).children (Forest.labels (d.childForest n)) := by
  induction n using (ha.wellFounded_children hbound).induction with
  | _ n ih => exact walk_branches hb hk ih

theorem Walk.find_eq (h : d.Walk ns walk) :
    (ns.findSome? fun m =>
      if d.isElement m then
        if acceptedBy s (d.node m).tag (d.node m).attributes then some m else d.find s m
      else none) = walk.find? (d.fits s) := by
  induction h with
  | nil => rfl
  | @cons c cs inner rest hinner _ ihinner ihrest =>
    rw [List.findSome?_cons, ihrest, List.find?_cons, List.find?_append, ← ihinner,
      ← Document.find_eq hb, fits]
    cases he : d.isElement c with
    | true =>
      cases ha : acceptedBy s (d.node c).tag (d.node c).attributes with
      | true => rfl
      | false => cases d.find s c <;> rfl
    | false =>
      -- the search does not go below `c`, where the walk has nothing either
      rw [Document.find_eq hb, children_of_not_isElement hk he]
      rfl

end Branches

/-- Links make a forest in which only elements have children. What is found is the first in pre-order of
all that hangs below the root and fits. -/
theorem query_first (hm : d.Mutual) (ha : d.Acyclic)
    (hk : ∀ n m, m ∈ (d.node n).children → d.isElement n = true) (selector : String) :
    (Selector.parse? selector = none → d.query selector = none) ∧
    (∀ s, Selector.parse? selector = some s →
      (∀ n, d.query selector = some n ↔ ∃ before after,
        d.Walk (d.node root).children (before ++ n :: after) ∧
          d.fits s n = true ∧ ∀ m ∈ before, d.fits s m = false) ∧
      (d.query selector = none ↔ ∀ n, n ≠ root → d.Under root n → d.fits s n = false)) ∧
    ∀ n, d.query selector = some n → n ≠ root ∧ d.isElement n = true ∧ d.Under root n := by
  have hbound (n m) (h : m ∈ (d.node n).children) : m < d.nodes.size :=
    Consistent.lt_of_parent ((hm.links n m).1 h)
  have hb := ha.branch_eq hbound
  obtain ⟨walk, hwalk⟩ : ∃ walk, d.Walk (d.node root).children walk :=
    ⟨_, ha.walk_labels hb hk hbound root⟩
  have hbelow (n) : n ∈ walk ↔ n ≠ root ∧ d.Under root n := by
    rw [hwalk.mem_iff, ha.under_root_iff]
  have hquery (s) (h : Selector.parse? selector = some s) :
      d.query selector = walk.find? (d.fits s) := by
    rw [← hwalk.find_eq hb hk, ← find_eq hb, query, h]
    rfl
  refine ⟨fun h => ?_, fun s h => ⟨fun n => ?_, ?_⟩, fun n hn => ?_⟩
  · rw [query, h]
  · rw [hquery s h, List.find?_eq_some_iff_append]
    constructor
    · rintro ⟨hfits, before, after, rfl, hbefore⟩
      exact ⟨before, after, hwalk, hfits, by simpa using hbefore⟩
    · rintro ⟨before, after, hwalk', hfits, hbefore⟩
      exact ⟨hfits, before, after, hwalk.unique hwalk', by simpa using hbefore⟩
  · rw [hquery s h, List.find?_eq_none]
    simp [hbelow]
  · cases h : Selector.parse? selector with
    | none => simp [query, h] at hn
    | some s =>
      rw [hquery s h] at hn
      obtain ⟨hne, hunder⟩ := (hbelow n).1 (List.mem_of_find?_eq_some hn)
      have hfits := List.find?_some hn
      rw [fits, Bool.and_eq_true] at hfits
      exact ⟨hne, hfits.1, hunder⟩

theorem isElement_of_children_parse {source : String}
    (h : m ∈ ((parse source).node n).children) : (parse source).isElement n = true := by
  have hleaf := ((readInOrder_parse source).nodes n).leaf
  by_contra hk
  rw [hleaf (.inl fun he => hk (by simp [isElement, he]))] at h
  cases h

/-- The first card is taken out, with what is in it, and the second one is found. -/
theorem query_first_cards :
    let d := (parse ("<main><div class=\"card big\"><b id=\"x\">1</b></div>" ++
      "<div class=\"card\">2</div></main>")).removeChild 1 2
    d.Mutual ∧ d.Acyclic ∧ (∀ n m, m ∈ (d.node n).children → d.isElement n = true) ∧
      (∃ before after, d.Walk (d.node root).children (before ++ 5 :: after) ∧
        d.fits ⟨some "div", none, ["card"]⟩ 5 = true ∧
          ∀ m ∈ before, d.fits ⟨some "div", none, ["card"]⟩ m = false) ∧
      ∀ n, n ≠ root → d.Under root n → d.fits ⟨none, some "x", []⟩ n = false := by
  intro d
  have hm : d.Mutual := (consistent_parse _).toMutual.removeChild 1 2
  have ha : d.Acyclic := (acyclic_of_linked (linked_parse _)).of_children fun _ _ =>
    mem_children_of_removeChild
  have hk (n m) (h : m ∈ (d.node n).children) : d.isElement n = true := by
    rw [isElement, (rewires_removeChild ..).kind]
    exact isElement_of_children_parse (mem_children_of_removeChild h)
  have hcard : d.query "div.card" = some 5 := by decide +kernel
  have hgone : d.query "#x" = none := by decide +kernel
  have hread : Selector.parse? "div.card" = some ⟨some "div", none, ["card"]⟩ := by decide +kernel
  have hread' : Selector.parse? "#x" = some ⟨none, some "x", []⟩ := by decide +kernel
  exact ⟨hm, ha, hk, (((query_first hm ha hk "div.card").2.1 _ hread).1 5).1 hcard,
    ((query_first hm ha hk "#x").2.1 _ hread').2.1 hgone⟩

end LiveMarkup.Document
