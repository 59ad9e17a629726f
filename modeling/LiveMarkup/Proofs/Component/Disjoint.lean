import LiveMarkup.Proofs.Component.MountAmongOthers
import LiveMarkup.Proofs.Component.MountOrder

/-!
Components mounted on disjoint trees of one page. Each keeps to its own tree; the page is the same in
whichever order they were mounted, and each tree as if the other component were not there. Crossings show
what methods and other observers must not do for that.
-/

namespace LiveMarkup

open LiveMarkup.Expression Relation

variable {σ : Type}

namespace Component

/-- Two components of which the second is mounted after the first: each is mounted, and worked on from
then on, within its own tree. -/
structure KeepApart (oA oB : MountOptions σ) (cA cB : Component σ) (w₀ w₁ w₂ : World σ) : Prop where
  disjoint : ∀ n ∈ own oA.directives cA.root w₀, n ∉ own oB.directives cB.root w₁
  mountFirst : w₀.document.ChangesIn (own oA.directives cA.root w₀) w₁.document
  mountSecond : w₁.document.ChangesIn (own oB.directives cB.root w₁) w₂.document
  sent : ∀ depth ss w, Run.Ends (Signal.sendAll (Run.broadcast depth) ss) w₂ () w →
    ReflTransGen (Stirs [cA, cB]) w₂ w
  first : cA.KeepsTo (own oA.directives cA.root w₀) [cA, cB] w₂
  second : cB.KeepsTo (own oB.directives cB.root w₁) [cA, cB] w₂

namespace Plans

variable {oA oB : MountOptions σ} {mA mB : Mirror} {a b : NodeId} {cA cB : Component σ}
  {w₀ w₁ w₂ u₁ : World σ} {depth : Nat}

def early (hA : Plans oA w₀ a mA) : Party σ := hA.party (.idle (supply w₀)) rfl

def late (hB : Plans oB w₀ b mB) (w : World σ) : Party σ := hB.party (.upTo (supply w₀) (supply w)) rfl

theorem tied_idle (hA : Plans oA w₀ a mA) :
    w₀.Tied (.idle (supply w₀)) (territory w₀ a mA) w₀ :=
  hA.tied (t := ⟨∅, ∅⟩) rfl (Shift.supply_idle _) (.refl _ _) fun _ _ => id

theorem comes_early (hA : Plans oA w₀ a mA)
    (hmount : Act.Ends (mount (Run.broadcast depth) oA) w₀ (.ok (some cA)) w₁) :
    hA.Comes (k := .idle (supply w₀)) rfl cA w₀ w₁ w₁ := by
  obtain ⟨c', w', hmount', hcomes⟩ := hA.comes_of_alone (t := ⟨∅, ∅⟩) rfl (Shift.supply_idle _)
    (.refl _ _) (fun _ _ => id) hA.query hmount
  obtain ⟨hc, rfl⟩ := Run.ends_det hmount hmount'
  cases hc
  exact hcomes

theorem bound_early (hA : Plans oA w₀ a mA)
    (hfirst : hA.Comes (k := .idle (supply w₀)) rfl cA w₀ w₁ w₁) :
    (∀ n ∈ hA.early.image.nodes, n < w₁.document.nodes.size) ∧
      ∀ g ∈ hA.early.image.cells, g < w₁.presences.size := by
  constructor
  · rintro _ ⟨n, hn, rfl⟩
    exact (hfirst.joins.lives.tied.document.image.lt_iff hn).2 (hfirst.joins.lives.nodes n hn)
  · rintro _ ⟨g, hg, rfl⟩
    exact (hfirst.joins.lives.tied.bound g hg).2 (hfirst.joins.lives.cells g hg)

section Late

variable (hA : Plans oA w₀ a mA) (hB : Plans oB w₀ b mB)
  (hdisjoint : ∀ n, w₀.document.Under a n → ¬w₀.document.Under b n)

include hA hB hdisjoint in
theorem not_mem_early {n : NodeId} (hn : w₀.document.Under b n) : n ∉ hA.early.image.nodes := by
  refine hA.early.not_mem_image (hB.under_lt hn) ?_
  rintro (hn' | hn')
  · exact hdisjoint n hn' hn
  · exact Nat.not_lt.2 hn'.1 (hB.under_lt hn)

variable (hfirst : hA.Comes (k := .idle (supply w₀)) rfl cA w₀ w₁ w₁)

include hfirst in
theorem supply_late : (Shift.upTo (supply w₀) (supply w₁)).supply (supply w₀) = supply w₁ :=
  Shift.supply_upTo hfirst.joins.changes.document.size hfirst.joins.changes.size

include hdisjoint hfirst

theorem apart : hA.early.Apart (hB.late w₁) := by
  obtain ⟨hnodes, hcells⟩ := hA.bound_early hfirst
  refine ⟨rfl, ?_, ?_⟩
  · rintro _ hn ⟨j, hj | hj, rfl⟩
    · have hold : (hB.late w₁).shift.node j = j := (hB.late w₁).node_old (hB.under_lt hj)
      rw [hold] at hn
      exact not_mem_early hA hB hdisjoint hj hn
    · exact Nat.not_lt.2 (Shift.le_node_upTo hj.1) (hnodes _ hn)
  · rintro _ hg ⟨j, hj, rfl⟩
    exact Nat.not_lt.2 (Shift.le_cell_upTo hj.1) (hcells _ hg)

variable (hlate : hB.Comes (k := .upTo (supply w₀) (supply w₁)) rfl cB w₁ u₁ w₂)

include hlate

omit hdisjoint in
theorem observers_late : w₂.store.observers.map Prod.snd =
    w₀.store.observers.map Prod.snd ++ (hA.early.together ++ (hB.late w₁).together) := by
  rw [hlate.joins.right, hfirst.joins.right, List.append_assoc]
  rfl

omit hdisjoint in
theorem forall_observers_late {P : Observer σ → Prop} (h : ∀ o ∈ w₀.store.observers, P o.2)
    (hx : ∀ o ∈ hA.early.together, P o) (hy : ∀ o ∈ (hB.late w₁).together, P o) :
    ∀ o ∈ w₂.store.observers, P o.2 := by
  intro o ho
  have hmem : o.2 ∈ w₂.store.observers.map Prod.snd := List.mem_map_of_mem ho
  rw [observers_late hA hB hfirst hlate, List.mem_append, List.mem_append] at hmem
  rcases hmem with hmem | hmem | hmem
  · obtain ⟨e, he, heq⟩ := List.mem_map.1 hmem
    exact heq ▸ h e he
  · exact hx _ hmem
  · exact hy _ hmem

theorem meet (hos : ∀ o ∈ w₀.store.observers, o.2.Impartial) :
    hA.early.Meet (hB.late w₁) cA cB w₁ u₁ w₂ := by
  have hapart := apart hA hB hdisjoint hfirst
  have hdocument := hfirst.joins.changes.document
  have hx : hA.early.Lives w₁ w₂ := hapart.lives hfirst.joins.lives hlate.joins.changes
  have hy : (hB.late w₁).Lives u₁ w₂ := hlate.joins.lives
  have himpartial : ∀ o ∈ w₀.store.observers.map Prod.snd, o.Impartial := by
    intro o ho
    obtain ⟨e, he, rfl⟩ := List.mem_map.1 ho
    exact hos e he
  have hobservers := observers_late hA hB hfirst hlate
  have hearsA := Party.Hears.first (x := hA.early) (y := hB.late w₁) himpartial
  have hearsB := Party.Hears.second (x := hB.late w₁) (y := hA.early) himpartial
  refine ⟨hapart, hfirst.mounted, hlate.mounted, ⟨hx, ⟨u₁, hy⟩, ?_⟩, ⟨hy, ⟨w₁, hx⟩, ?_⟩, ?_,
    hlate.joins.size, ?_⟩
  · rw [hobservers, hfirst.joins.left]
    exact hearsA
  · rw [hobservers, hlate.joins.left]
    exact hearsB
  · exact (hdocument.mono Set.subset_union_left).trans
      (hlate.joins.changes.document.mono Set.subset_union_right)
  · refine forall_observers_late hA hB hfirst hlate (fun o ho => ?_)
      (hfirst.mounted.serves (List.mem_cons_self ..))
      (hlate.mounted.serves (List.mem_cons_of_mem _ (List.mem_cons_self ..)))
    exact (hos o ho).serves

theorem keepApart (hos : ∀ o ∈ w₀.store.observers, o.2.Impartial) :
    KeepApart oA oB cA cB w₀ w₁ w₂ := by
  have hmeet := meet hA hB hdisjoint hfirst hlate hos
  have hownA : own oA.directives cA.root w₀ = hA.early.image.nodes := by
    rw [hfirst.root]
    exact hA.own_rename rfl hA.tied_idle (Shift.supply_idle _)
  have hownB : own oB.directives cB.root w₁ = (hB.late w₁).image.nodes := by
    rw [hlate.root]
    have hsupply := supply_late hA hfirst
    exact hB.own_rename rfl (hB.tied rfl hsupply hfirst.joins.changes
      fun n => not_mem_early hA hB hdisjoint) hsupply
  refine ⟨?_, ?_, ?_, fun depth ss w hw => hmeet.stirs hw, fun u u' hu hupdate => ?_,
    fun u u' hu hupdate => ?_⟩
  · rw [hownA, hownB]
    exact hmeet.apart.nodes
  · rw [hownA]
    exact hfirst.joins.changes.document
  · rw [hownB]
    exact hlate.joins.changes.document
  · obtain ⟨p, hx⟩ := (hmeet.dwell hu).first
    rw [hownA]
    exact (hfirst.mounted.updates hx hupdate).2.1.document
  · obtain ⟨q, hy⟩ := (hmeet.dwell hu).second
    rw [hownB]
    exact (hlate.mounted.updates hy hupdate).2.1.document

end Late

theorem exists_plans {o : MountOptions σ} {target : NodeId} (hd : w₀.document.Consistent)
    (hquery : w₀.document.query o.selector = some target)
    (hplain : w₀.document.showIf? o.directives target = none)
    (hpredicates : ∀ root, planned o w₀ = some root →
      ∀ d ∈ root.directives, d.Calls o.methods.FunctionalAt) :
    ∃ m, Plans o w₀ target m := by
  obtain ⟨hroot, parent, hparent⟩ := parent_of_query hd hquery
  obtain ⟨m, hmirrored, -, -⟩ := Mirror.exists_ofElement
    (hd.deep_children hroot (Document.Consistent.lt_of_parent hparent))
    (Document.isElement_of_query hd hquery) w₀.presences.size
  have hplan : planned o w₀ = some m := by
    rw [planned, hquery]
    exact hmirrored
  exact ⟨m, hd, hquery, hmirrored, hplain, hpredicates m hplan⟩

end Plans

/-- A card with a line that may be hidden, and a list; both show the name. One observer gives another name
when the line is hidden or shown, and one only looks. -/
def board : World Unit where
  store := ⟨[("name", .string "Ann"), ("on", .bool true)], [
    (0, .script fun e => if e.field = "on" then .writeThen "name" (.string "Bob") .null
      else .give .null),
    (1, .script fun e => .read e.field .give)], 2⟩
  document := Document.ofForest [.element () "div" [] [.element () "p" [("show-if", "isOn()")]
    [.text () "\x7b\x7bname\x7d\x7d"]], .element () "ul" [] [.text () "\x7b\x7bname\x7d\x7d"]]
  presences := #[]
  memory := ()

def isOn : Script Unit := .read "on" fun v => .give (.bool v.truthy)

def boardOptions (selector : String) : MountOptions Unit where
  selector := selector
  methods := [("isOn", fun _ => isOn)]
  directives := .default
  tracked := true

theorem readOnly_isOn : isOn.ReadOnly where
  fields h := by
    obtain ⟨-, rfl⟩ := Act.ends_ofResult.1 (Act.ends_world_bind.1 h)
    rfl
  result hf h h' := by
    obtain ⟨rfl, -⟩ := Act.ends_ofResult.1 (Act.ends_world_bind.1 h)
    obtain ⟨rfl, -⟩ := Act.ends_ofResult.1 (Act.ends_world_bind.1 h')
    rw [hf]

theorem functional_isOn (selector name : String) :
    (boardOptions selector).methods.FunctionalAt name := by
  constructor
  · intro method hm vs
    cases List.mem_singleton.1 (Table.mem_of_find? hm)
    exact fun _ => trivial
  · intro method hm vs
    cases List.mem_singleton.1 (Table.mem_of_find? hm)
    exact readOnly_isOn

theorem impartial_board : ∀ o ∈ board.store.observers, o.2.Impartial := by
  intro o ho
  rcases List.mem_cons.1 ho with rfl | ho
  · intro e
    dsimp only
    split
    · refine .write fun r s => ?_
      cases r <;> cases s <;> exact .done _ _
    · exact .done _ _
  · cases List.mem_singleton.1 ho
    intro e
    have hquiet : Script.Quiet (.read e.field .give : Script Unit) := fun _ => trivial
    exact hquiet.alike hquiet

theorem not_under_of_closed {d : Document} {a b n : NodeId} {S T : List NodeId}
    (hS : ∀ n ∈ a :: S, ∀ m ∈ (d.node n).children, m ∈ a :: S)
    (hT : ∀ n ∈ b :: T, ∀ m ∈ (d.node n).children, m ∈ b :: T)
    (hapart : ∀ n ∈ a :: S, n ∉ b :: T) (ha : d.Under a n) : ¬d.Under b n := by
  intro hb
  have hn := Document.Closed.under (S := {n | n ∈ a :: S}) hS (List.mem_cons_self ..) ha
  have hn' := Document.Closed.under (S := {n | n ∈ b :: T}) hT (List.mem_cons_self ..) hb
  exact hapart n hn hn'

theorem disjoint_board (n : NodeId) (ha : board.document.Under 1 n) : ¬board.document.Under 4 n :=
  not_under_of_closed (S := [2, 3]) (T := [5]) (by decide +kernel) (by decide +kernel) (by decide) ha

theorem query_board (r : Except EvalError (Option (Component Unit))) (u : World Unit)
    (h : Act.Ends (mount (Run.broadcast 2) (boardOptions "ul")) board r u) :
    u.document.query "div" = some 1 := by
  have hrun : (StateT.run (ExceptT.run (mount (Run.broadcast 2) (boardOptions "ul"))) board).map
      (fun x => x.2.document.query "div") = some (some 1) := by
    decide +kernel
  obtain ⟨x, hx, hquery⟩ := Option.map_eq_some_iff.1 hrun
  cases hx.symm.trans h
  exact hquery

/-- What two components call, who hears the store before they are mounted, and what is sent to it after. -/
structure Crossing where
  observers : List (Observer String)
  left : Script String
  right : Script String
  signals : List Signal

namespace Crossing

def document : Document := Document.ofForest [
  .element () "div" [] [.text () "\x7b\x7bsaid\x7d\x7d",
    .element () "p" [("show-if", "on")] [], .element () "b" [("show-if", "on")] [],
    .element () "i" [("show-if", "on && left()")] []],
  .element () "ul" [] [.element () "li" [("show-if", "on && right()")] []],
  .element () "ol" [] [.element () "li" [("show-if", "!isLeft()")] []]]

variable (x : Crossing)

def page : World String where
  store := x.observers.foldl Store.subscribe (Store.ofFields [])
  document := document
  presences := #[.attached]
  memory := ""

def first : MountOptions String := ⟨"div", [("left", fun _ => x.left)], .default, true⟩

def second : MountOptions String := ⟨"ul", [("right", fun _ => x.right)], .default, true⟩

/-- Where these are mounted, one after the other, and the document once all is sent. -/
def shown : List (MountOptions String) → World String → Option (List NodeId × Document)
  | [], w => (StateT.run (Signal.sendAll (Run.broadcast 4) x.signals) w).map fun s =>
    ([], s.2.document)
  | o :: os, w => (Act.found? (mount (Run.broadcast 4) o) w).bind fun (c, w) =>
    (shown os w).map fun (roots, d) => (c.root.part.element :: roots, d)

/-- Whatever is mounted comes to its tree, but the page is not the same in both orders, or the tree of the
first is not what it is without the second. -/
def meddled : Bool :=
  match x.shown [x.first, x.second] x.page, x.shown [x.second, x.first] x.page,
    x.shown [x.first] x.page with
  | some ([1, 6], both), some ([6, 1], swapped), some ([1], alone) =>
    both.toHtml ≠ swapped.toHtml || both.outerHtml 1 ≠ alone.outerHtml 1
  | _, _, _ => false

def sayAtEnd (s : String) : Event → Script String := fun e =>
  if e.field = "end" then .writeThen "said" (.string s) .null else .give .null

/-- The second tells the first that it looks, while the other lines of the first are still to come. -/
def telling : Crossing where
  observers := []
  left := .give (.bool true)
  right := .recall fun memory =>
    -- asked again while it tells, it only answers
    if memory = "told" then .give (.bool true)
    else .remember "told" (.announce "told" fun _ => .remember "" (.give (.bool true)))
  signals := [.set "on" (.bool true)]

/-- The one who is asked last has the last word. -/
def leaving : Crossing where
  observers := []
  left := .subscribe (sayAtEnd "left") fun _ => .give (.bool true)
  right := .subscribe (sayAtEnd "right") fun _ => .give (.bool true)
  signals := [.set "on" (.bool true), .notify "end"]

/-- An observer tells who failed first. -/
def blaming : Crossing where
  observers := [.script fun e => if e.field = "go" then .write "on" (.bool true) fun
      | .ok _ => .give .null
      | .error e => .writeThen "said" (.string e.message) .null
    else .give .null]
  left := .fail (.method "left" "")
  right := .fail (.method "right" "")
  signals := [.notify "go"]

/-- An observer tells who was asked last. -/
def recalling : Crossing where
  observers := [.script fun e => .recall fun memory => sayAtEnd memory e]
  left := .remember "left" (.give (.bool true))
  right := .remember "right" (.give (.bool true))
  signals := [.set "on" (.bool true), .notify "end"]

/-- An observer tells how many have subscribed. -/
def counting : Crossing where
  observers := [.script fun e => if e.field = "end" then .subscribe (fun _ => .give .null) fun id =>
      .writeThen "said" (.string (toString id)) .null
    else .give .null]
  left := .give (.bool true)
  right := .give (.bool true)
  signals := [.notify "end"]

/-- An element of another component is there unless the first was asked last. -/
def watching : Crossing where
  observers := [.directive [("isLeft", fun _ => .recall fun memory => .give (.bool (memory = "left")))]
    false (.conditional ⟨compileSource "!isLeft()", 9, ⟨8, none, none⟩, 0, []⟩)]
  left := .remember "left" (.give (.bool true))
  right := .remember "right" (.give (.bool true))
  signals := [.set "on" (.bool true), .notify "end"]

def unheard : List Crossing := [telling, leaving]

def overheard : List Crossing := [blaming, recalling, counting, watching]

theorem neverWrites_unheard : ∀ x ∈ unheard, ∀ s ∈ [x.left, x.right], s.NeverWrites := by
  intro x hx s hs
  rcases List.mem_pair.1 hx with rfl | rfl
  · rcases List.mem_pair.1 hs with rfl | rfl
    · trivial
    · intro memory
      dsimp only
      split
      · trivial
      · exact ⟨nofun, fun _ => trivial⟩
  · rcases List.mem_pair.1 hs with rfl | rfl
    · exact ⟨nofun, fun _ => trivial⟩
    · exact ⟨nofun, fun _ => trivial⟩

theorem quiet_overheard : ∀ x ∈ overheard, ∀ s ∈ [x.left, x.right], s.Quiet := by
  simp only [overheard, List.forall_mem_cons]
  exact ⟨⟨trivial, trivial, nofun⟩, ⟨trivial, trivial, nofun⟩, ⟨trivial, trivial, nofun⟩,
    ⟨trivial, trivial, nofun⟩, nofun⟩

theorem gives_unheard : ∀ x ∈ unheard, ∀ s ∈ [x.left, x.right], s.Gives (.ok (.bool true)) := by
  intro x hx s hs
  rcases List.mem_pair.1 hx with rfl | rfl
  · rcases List.mem_pair.1 hs with rfl | rfl
    · rfl
    · intro memory
      dsimp only
      split
      · rfl
      · exact fun _ => rfl
  · rcases List.mem_pair.1 hs with rfl | rfl
    · exact fun _ => rfl
    · exact fun _ => rfl

theorem gives_overheard : ∀ x ∈ overheard, ∀ s ∈ [x.left, x.right], ∃ r, s.Gives r := by
  have htrue : (.give (.bool true) : Script String).Gives (.ok (.bool true)) := rfl
  simp only [overheard, List.forall_mem_cons]
  exact ⟨⟨⟨_, rfl⟩, ⟨_, rfl⟩, nofun⟩, ⟨⟨_, htrue⟩, ⟨_, htrue⟩, nofun⟩, ⟨⟨_, htrue⟩, ⟨_, htrue⟩, nofun⟩,
    ⟨⟨_, htrue⟩, ⟨_, htrue⟩, nofun⟩, nofun⟩

theorem disjoint (n : NodeId) (ha : document.Under 1 n) : ¬document.Under 6 n :=
  not_under_of_closed (S := [2, 3, 4, 5]) (T := [7]) (by decide +kernel) (by decide +kernel)
    (by decide) ha

end Crossing

end Component

end LiveMarkup
