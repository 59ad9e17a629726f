import LiveMarkup.Proofs.Document.Editing

/-!
The tree of a document. In every document that was made from nothing or from a text, links are mutual
and without cycles, so reading along them ends; what is attached is what the root reaches.
-/

namespace LiveMarkup.Document

open LiveMarkup.Markup

variable {d : Document}

structure IsForest (d : Document) : Prop where
  links : ∀ p n, n ∈ (d.node p).children ↔ (d.node n).parent = some p
  once : ∀ p n, n ∈ (d.node p).children → (d.node p).children.count n = 1
  alone : ∀ p q n, n ∈ (d.node p).children → n ∈ (d.node q).children → p = q
  acyclic : d.Acyclic
  upward : WellFounded fun p n => (d.node n).parent = some p
  downward : WellFounded fun m n => m ∈ (d.node n).children
  attached : ∀ n, d.isAttached n = true ↔ d.Under root n

def find (d : Document) (s : Selector) (n : NodeId) : Option NodeId :=
  firstInForest s (d.childForest n)

/-- What is read off a document is what the recursion along its links says. -/
structure Recurses (d : Document) : Prop where
  isAttached : ∀ n, d.isAttached n =
    match (d.node n).parent with
    | some p => d.isAttached p
    | none => n == root
  textContent : ∀ n, d.textContent n =
    match (d.node n).kind with
    | .element => String.join ((d.node n).children.map d.textContent)
    | .text => (d.node n).data
    | .comment => ""
  outerHtml : ∀ n, d.outerHtml n =
    match (d.node n).kind with
    | .element => String.ofList (printStart (d.node n).tag (d.node n).attributes) ++
        if isVoid (d.node n).tag then ""
        else d.innerHtml n ++ String.ofList (printEnd (d.node n).tag)
    | .text => String.ofList (escapeText (d.node n).data.toList)
    | .comment => "<!--" ++ (d.node n).data ++ "-->"
  innerHtml : ∀ n, d.innerHtml n = String.join ((d.node n).children.map d.outerHtml)
  toHtml : d.toHtml = d.innerHtml root
  find : ∀ s n, d.find s n = (d.node n).children.findSome? fun m =>
    if d.isElement m then
      if acceptedBy s (d.node m).tag (d.node m).attributes then some m else d.find s m
    else none
  query : ∀ selector, d.query selector = (Selector.parse? selector).bind fun s => d.find s root

theorem isAttached_eq (hd : d.Acyclic) (hc : d.Consistent) (n : NodeId) :
    d.isAttached n =
      match (d.node n).parent with
      | some p => d.isAttached p
      | none => n == root := by
  rw [isAttached, hd.topmost_eq hc]
  cases (d.node n).parent <;> rfl

theorem under_root_iff (hc : d.Consistent) {p n : NodeId} (hp : (d.node n).parent = some p) :
    d.Under root n ↔ d.Under root p := by
  constructor
  · intro hu
    cases hu with
    | self =>
      rw [hc.root] at hp
      cases hp
    | child hq hn =>
      cases hc.eq_of_mem hn ((hc.links p n).2 hp)
      exact hq
  · intro hu
    exact .child hu ((hc.links p n).2 hp)

theorem isAttached_iff (hd : d.Acyclic) (hc : d.Consistent) (n : NodeId) :
    d.isAttached n = true ↔ d.Under root n := by
  induction n using (hd.wellFounded_parents hc).induction with
  | _ n ih =>
    rw [isAttached_eq hd hc]
    cases hp : (d.node n).parent with
    | some p => exact (ih p hp).trans (under_root_iff hc hp).symm
    | none =>
      refine beq_iff_eq.trans ⟨fun hn => hn ▸ .self, fun hu => ?_⟩
      cases hu with
      | self => rfl
      | child _ hn => exact absurd hn (hc.not_mem_of_parent hp _)

theorem Made.isForest (h : d.Made) : d.IsForest := by
  have hc := h.consistent
  have hd := h.acyclic
  refine ⟨hc.links, fun p n hn => ?_, fun p q n => hc.eq_of_mem, hd, hd.wellFounded_parents hc,
    hd.wellFounded_children fun _ _ => hc.child_lt, isAttached_iff hd hc⟩
  rw [hc.count, if_pos ((hc.links p n).1 hn)]

theorem ofList_print_forest (f : Forest NodeId) :
    String.ofList (Forest.print f) = String.join (f.map fun b => String.ofList b.print) := by
  induction f with
  | nil => rfl
  | cons b bs ih => rw [Forest.print, String.ofList_append, ih, List.map_cons, String.join_cons]

theorem textContent_forest (f : Forest NodeId) :
    Forest.textContent f = String.join (f.map Branch.textContent) := by
  induction f with
  | nil => rfl
  | cons b bs ih => rw [Forest.textContent, ih, List.map_cons, String.join_cons]

theorem firstInForest_eq (s : Selector) (f : Forest NodeId) :
    firstInForest s f = f.findSome? (firstIn s) := by
  induction f with
  | nil => rfl
  | cons b bs ih =>
    rw [firstInForest, ih, List.findSome?_cons]
    cases firstIn s b <;> rfl

theorem innerHtml_eq (d : Document) (n : NodeId) :
    d.innerHtml n = String.join ((d.node n).children.map d.outerHtml) := by
  rw [innerHtml, ofList_print_forest, childForest, List.map_map]
  rfl

section Branch

variable (hb : ∀ n, d.branch n = branchOf n (d.node n) (d.childForest n))

include hb

theorem textContent_eq (n : NodeId) :
    d.textContent n =
      match (d.node n).kind with
      | .element => String.join ((d.node n).children.map d.textContent)
      | .text => (d.node n).data
      | .comment => "" := by
  rw [textContent, hb, branchOf]
  cases (d.node n).kind with
  | element =>
    simp only [Branch.textContent, textContent_forest, childForest, List.map_map]
    rfl
  | text => rfl
  | comment => rfl

theorem outerHtml_eq (n : NodeId) :
    d.outerHtml n =
      match (d.node n).kind with
      | .element => String.ofList (printStart (d.node n).tag (d.node n).attributes) ++
          if isVoid (d.node n).tag then ""
          else d.innerHtml n ++ String.ofList (printEnd (d.node n).tag)
      | .text => String.ofList (escapeText (d.node n).data.toList)
      | .comment => "<!--" ++ (d.node n).data ++ "-->" := by
  rw [outerHtml, hb, branchOf]
  cases (d.node n).kind with
  | element =>
    simp only [Branch.print, innerHtml]
    split
    · simp
    · simp
  | text => rfl
  | comment =>
    refine String.toList_inj.1 ?_
    simp [Branch.print, commentEnd]

theorem find_eq (s : Selector) (n : NodeId) :
    d.find s n = (d.node n).children.findSome? fun m =>
      if d.isElement m then
        if acceptedBy s (d.node m).tag (d.node m).attributes then some m else d.find s m
      else none := by
  rw [find, firstInForest_eq, childForest, List.findSome?_map]
  congr 1
  funext m
  rw [Function.comp_apply, hb, branchOf, isElement]
  cases (d.node m).kind <;> rfl

end Branch

theorem Made.recurses (h : d.Made) : d.Recurses where
  isAttached := isAttached_eq h.acyclic h.consistent
  textContent := textContent_eq (h.acyclic.branch_eq fun _ _ => h.consistent.child_lt)
  outerHtml := outerHtml_eq (h.acyclic.branch_eq fun _ _ => h.consistent.child_lt)
  innerHtml := d.innerHtml_eq
  toHtml := rfl
  find := find_eq (h.acyclic.branch_eq fun _ _ => h.consistent.child_lt)
  query selector := by
    rw [query]
    cases Selector.parse? selector <;> rfl

theorem Made.forest (h : d.Made) : d.IsForest ∧ d.Recurses := ⟨h.isForest, h.recurses⟩

theorem not_under_of_top {a n : NodeId} (hc : d.Consistent) (hn : (d.node n).parent = none)
    (hne : a ≠ n) : ¬d.Under a n := by
  intro hu
  cases hu with
  | self => exact hne rfl
  | child _ hm => exact hc.not_mem_of_parent hn _ hm

theorem Made.forest_moved :
    let d₀ := Document.parse "<ul><li>a</li><li>b</li></ul>"
    let d₁ := Edit.run d₀ (.createElement "OL")
    let d₂ := Edit.run d₁ (.insert .last 6 4)
    let d₃ := Edit.run d₂ (.insert (.before 1) root 6)
    let d := Edit.run d₃ (.removeChild root 1)
    d.Made ∧ (d.IsForest ∧ d.Recurses) := by
  intro d₀ d₁ d₂ d₃ d
  have h₁ : d₁.Made := .edit _ (.parse _) trivial
  have h₂ : d₂.Made := by
    refine .edit _ h₁ ⟨by decide +kernel, by decide +kernel, nofun, by decide, ?_⟩
    exact not_under_of_top h₁.consistent (by decide +kernel) (by decide)
  have h₃ : d₃.Made := by
    refine .edit _ h₂ ⟨by decide +kernel, by decide +kernel, by decide +kernel, by decide, ?_⟩
    exact not_under_of_top h₂.consistent (by decide +kernel) (by decide)
  have h : d.Made := .edit _ h₃ ⟨by decide +kernel, by decide +kernel⟩
  exact ⟨h, Made.forest h⟩

end LiveMarkup.Document
