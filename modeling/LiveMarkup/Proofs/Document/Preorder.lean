import LiveMarkup.Proofs.Document.Arena
import LiveMarkup.Proofs.Document.Forest
import LiveMarkup.Proofs.Document.Stack
import LiveMarkup.Proofs.Markup.Scanned
import Mathlib.Data.List.Induction

/-!
Documents read from text. They are trees, numbered in the order in which a reader comes upon the nodes. Every
node is what one item says, below the element that was innermost when it was read.
-/

namespace LiveMarkup

open LiveMarkup.Markup LiveMarkup.Text

namespace Markup

variable {ι : Type}

mutual

def Branch.labels : Branch ι → List ι
  | .element label _ _ children => label :: Forest.labels children
  | .text label _ => [label]
  | .comment label _ => [label]

def Forest.labels : Forest ι → List ι
  | [] => []
  | b :: bs => Branch.labels b ++ Forest.labels bs

end

def WrittenAttribute.read (w : WrittenAttribute) : String × String :=
  (w.1.asciiLower, String.ofList (unescape (w.2.getD "").toList))

/-- Of the attributes that are written, the first of each name; names are the same in capitals. -/
structure FirstKept (written : List WrittenAttribute) (as : Attributes) : Prop where
  names : (as.map Prod.fst).Nodup
  lower : ∀ a ∈ as, ∀ c ∈ a.1.toList, c.isUpper = false
  first : ∀ name, as.find? name = (written.find? (·.1.asciiLower == name)).map (·.read.2)
  order : as.Sublist (written.map WrittenAttribute.read)

theorem isUpper_toLower (c : Char) : c.toLower.isUpper = false := by
  cases hu : c.isUpper with
  | true =>
    exact not_isUpper_of_isLower (isLower_toLower_of_isAlpha (isAlpha_iff.2 (.inl hu)))
  | false => rw [toLower_of_not_isUpper hu, hu]

theorem isUpper_of_mem_asciiLower {s : String} {c : Char} (h : c ∈ s.asciiLower.toList) :
    c.isUpper = false := by
  rw [String.asciiLower, String.toList_map] at h
  obtain ⟨d, -, rfl⟩ := List.mem_map.1 h
  exact isUpper_toLower d

theorem attributes_concat (ws : List WrittenAttribute) (w : WrittenAttribute) :
    Unfinished.attributes (ws ++ [w]) =
      if (Unfinished.attributes ws).any (·.1 == w.1.asciiLower) then Unfinished.attributes ws
      else Unfinished.attributes ws ++ [w.read] := by
  rw [Unfinished.attributes, List.foldl_append]
  rfl

theorem Attributes.isSome_find? {name : String} {as : Attributes} :
    (as.find? name).isSome = as.any (·.1 == name) := by
  rw [Attributes.find?, Option.isSome_map, List.isSome_find?]

theorem Attributes.find?_concat (name : String) (as : Attributes) (w : WrittenAttribute) :
    Attributes.find? name (as ++ [w.read]) =
      (as.find? name).or (if w.1.asciiLower == name then some w.read.2 else none) := by
  rw [Attributes.find?, List.find?_append, Option.map_or, Attributes.find?]
  congr 1
  by_cases hw : w.1.asciiLower = name <;> simp [WrittenAttribute.read, hw]

theorem find?_written_concat (name : String) (ws : List WrittenAttribute) (w : WrittenAttribute) :
    ((ws ++ [w]).find? (·.1.asciiLower == name)).map (·.read.2) =
      ((ws.find? (·.1.asciiLower == name)).map (·.read.2)).or
        (if w.1.asciiLower == name then some w.read.2 else none) := by
  rw [List.find?_append, Option.map_or]
  congr 1
  by_cases hw : w.1.asciiLower = name <;> simp [hw]

namespace FirstKept

variable {ws : List WrittenAttribute} {w : WrittenAttribute} {as : Attributes}

theorem concat_of_mem (h : FirstKept ws as) (hw : as.any (·.1 == w.1.asciiLower) = true) :
    FirstKept (ws ++ [w]) as := by
  refine ⟨h.names, h.lower, fun name => ?_, ?_⟩
  · rw [find?_written_concat, ← h.first]
    cases hfind : as.find? name with
    | some value => rfl
    | none =>
      -- A name that is not found is not that of `w`, whose name is there already.
      have hother : ¬ (w.1.asciiLower == name) = true := fun heq => by
        rw [beq_iff_eq.1 heq, ← Attributes.isSome_find?, hfind] at hw
        cases hw
      rw [if_neg hother]
      rfl
  · rw [List.map_append]
    exact h.order.trans (List.sublist_append_left ..)

theorem concat_of_not_mem (h : FirstKept ws as) (hw : as.any (·.1 == w.1.asciiLower) = false) :
    FirstKept (ws ++ [w]) (as ++ [w.read]) := by
  have hnew : w.1.asciiLower ∉ as.map Prod.fst := by
    intro hmem
    obtain ⟨a, ha, heq⟩ := List.mem_map.1 hmem
    exact List.any_eq_false.1 hw a ha (beq_iff_eq.2 heq)
  refine ⟨?_, fun a ha => ?_, fun name => ?_, ?_⟩
  · rw [List.map_append, List.map_singleton]
    refine List.nodup_append.2 ⟨h.names, List.nodup_singleton _, fun x hx y hy hxy => hnew ?_⟩
    rw [hxy, List.mem_singleton.1 hy] at hx
    exact hx
  · rcases List.mem_append.1 ha with ha | ha
    · exact h.lower a ha
    · rw [List.mem_singleton.1 ha]
      exact fun c hc => isUpper_of_mem_asciiLower hc
  · rw [Attributes.find?_concat, find?_written_concat, h.first]
  · rw [List.map_append]
    exact h.order.append (.refl _)

end FirstKept

theorem firstKept_attributes (written : List WrittenAttribute) :
    FirstKept written (Unfinished.attributes written) := by
  induction written using List.reverseRecOn with
  | nil => exact ⟨List.nodup_nil, nofun, fun _ => rfl, .slnil⟩
  | append_singleton ws w ih =>
    rw [attributes_concat]
    split
    · next hany => exact ih.concat_of_mem hany
    · next hany => exact ih.concat_of_not_mem (Bool.eq_false_iff.2 hany)

end Markup

namespace Document

section Labels

variable {ι : Type} {d : Document}

mutual

theorem Holds.labels_branchWithin {parent start : NodeId} {b : Branch ι} {depth : Nat}
    (h : d.Holds start (nodesOf parent start b)) (hd : b.size ≤ depth) :
    (d.branchWithin depth start).labels = List.range' start b.size := by
  cases depth with
  | zero => exact absurd (size_pos b) (by omega)
  | succ depth =>
    match b with
    | .element _ tag attributes children =>
      rw [Branch.size] at hd ⊢
      rw [nodesOf] at h
      have hdepth : Forest.size children ≤ depth := by omega
      have hchildren := h.tail.labels_numbersFrom hdepth
      simp only [branchWithin, h.head, Branch.labels, hchildren]
      rw [Nat.add_comm 1 (Forest.size children), List.range'_succ]
    | .text _ data =>
      rw [nodesOf] at h
      simp only [branchWithin, h.head, Branch.labels, Branch.size]
      rfl
    | .comment _ data =>
      rw [nodesOf] at h
      simp only [branchWithin, h.head, Branch.labels, Branch.size]
      rfl

theorem Holds.labels_numbersFrom {parent start : NodeId} {f : Forest ι} {depth : Nat}
    (h : d.Holds start (nodesOfForest parent start f)) (hd : Forest.size f ≤ depth) :
    Forest.labels ((numbersFrom start f).map (d.branchWithin depth)) =
      List.range' start (Forest.size f) := by
  match f with
  | [] => rfl
  | b :: bs =>
    rw [nodesOfForest] at h
    rw [Forest.size] at hd
    have hrest := h.right
    rw [length_nodesOf] at hrest
    rw [numbersFrom, List.map_cons, Forest.labels, h.left.labels_branchWithin (by omega),
      hrest.labels_numbersFrom (by omega), Forest.size, List.range'_append_1]

end

theorem labels_ofForest (f : Forest ι) :
    ((ofForest f).branch root).labels = List.range (ofForest f).nodes.size := by
  have hsize : (ofForest f).nodes.size = Forest.size f + 1 := by
    simp [ofForest, length_nodesOfForest]
  have hholds := holds_ofForest f
  have hlabels := hholds.tail.labels_numbersFrom (Nat.le_refl (Forest.size f))
  have hroot : (ofForest f).node root = { Node.element "" with children := numbersFrom 1 f } :=
    hholds.head
  rw [branch, hsize, List.range_eq_range', List.range'_succ]
  simp only [branchWithin, hroot]
  exact congrArg (root :: ·) hlabels

theorem mem_forestLabels {l : ι} {f : Forest ι} (h : l ∈ Forest.labels f) : ∃ b ∈ f, l ∈ b.labels := by
  induction f with
  | nil => cases h
  | cons b bs ih =>
    rcases List.mem_append.1 h with h | h
    · exact ⟨b, List.mem_cons_self .., h⟩
    · obtain ⟨b', hb', hl⟩ := ih h
      exact ⟨b', List.mem_cons_of_mem _ hb', hl⟩

theorem Under.of_mem_labels {depth : Nat} {a n : NodeId} (h : n ∈ (d.branchWithin depth a).labels) :
    d.Under a n := by
  induction depth generalizing a with
  | zero =>
    cases List.mem_singleton.1 h
    exact .self
  | succ depth ih =>
    rw [branchWithin] at h
    cases hk : (d.node a).kind with
    | element =>
      rw [hk] at h
      rcases List.mem_cons.1 h with rfl | h
      · exact .self
      · obtain ⟨b, hb, hn⟩ := mem_forestLabels h
        obtain ⟨m, hm, rfl⟩ := List.mem_map.1 hb
        exact .trans (.child .self hm) (ih hn)
    | text =>
      rw [hk] at h
      cases List.mem_singleton.1 h
      exact .self
    | comment =>
      rw [hk] at h
      cases List.mem_singleton.1 h
      exact .self

end Labels

/-- Only elements that have an end have children; no attribute stands twice, and no name of one holds a
capital. -/
structure Node.WellRead (n : Node) : Prop where
  leaf : n.kind ≠ .element ∨ isVoid n.tag = true → n.children = []
  names : (n.attributes.map Prod.fst).Nodup
  lower : ∀ a ∈ n.attributes, ∀ c ∈ a.1.toList, c.isUpper = false

namespace Building

variable {b b' : Building}

/-- What an item makes of what was read before it: a node that is the next one of the whole document
below the innermost open element, and what is open afterwards. -/
def Entered (b : Building) (d : Document) : Item → Prop
  | .text s =>
    d.node b.document.nodes.size =
      { Node.text (String.ofList (unescape s.toList)) with parent := some b.current } ∧
    (b.add (.text s)).stack = b.stack
  | .comment body =>
    d.node b.document.nodes.size = ⟨.comment, "", [], body, some b.current, []⟩ ∧
    (b.add (.comment body)).stack = b.stack
  | .start name written selfClosing =>
    ∃ attributes children, FirstKept written attributes ∧
      d.node b.document.nodes.size =
        ⟨.element, name.asciiLower, attributes, "", some b.current, children⟩ ∧
      if selfClosing || isVoid name.asciiLower then
        children = [] ∧ (b.add (.start name written selfClosing)).stack = b.stack
      else (b.add (.start name written selfClosing)).stack = b.document.nodes.size :: b.stack
  | .stop name =>
    (b.add (.stop name)).document = b.document ∧
      if isVoid name.asciiLower then (b.add (.stop name)).stack = b.stack
      else b.Closes name.asciiLower (b.add (.stop name)).stack

theorem Sound.node_later_hang (h : b.Sound) {n : Node} (hlater : (b.hang n).Later b') :
    b'.document.node b.document.nodes.size = { n with parent := some b.current } := by
  have hsize : b.document.nodes.size < (b.hang n).document.nodes.size := by
    rw [size_hang]
    exact Nat.lt_succ_self _
  have hnot : b.document.nodes.size ∉ (b.hang n).stack :=
    fun hmem => Nat.lt_irrefl _ (h.bound _ hmem)
  rw [(hlater.closed _ hsize hnot).1, h.node_hang]

theorem Sound.node_later_enter (h : b.Sound) {n : Node} (hlater : (b.enter n).Later b') :
    ∃ children, b'.document.node b.document.nodes.size =
      { n with parent := some b.current, children := children } := by
  have hsize : b.document.nodes.size < (b.enter n).document.nodes.size := by
    rw [Building.enter, size_hang]
    exact Nat.lt_succ_self _
  have hkept := hlater.kept _ hsize
  rw [Building.enter, h.node_hang] at hkept
  exact ⟨_, Node.eq_of_childless hkept⟩

theorem Sound.entered (h : b.Sound) {i : Item} (hlater : (b.add i).Later b') :
    b.Entered b'.document i := by
  cases i with
  | text s => exact ⟨h.node_later_hang hlater, rfl⟩
  | comment body => exact ⟨h.node_later_hang hlater, rfl⟩
  | start name written selfClosing =>
    have hfirst := firstKept_attributes written
    rw [Entered]
    by_cases hempty : (selfClosing || isVoid name.asciiLower) = true
    · simp only [Building.add, if_pos hempty] at hlater ⊢
      exact ⟨_, [], hfirst, h.node_later_hang hlater, rfl, rfl⟩
    · simp only [Building.add, if_neg hempty] at hlater ⊢
      obtain ⟨children, hnode⟩ := h.node_later_enter hlater
      exact ⟨_, children, hfirst, hnode, rfl⟩
  | stop name =>
    rw [Entered]
    by_cases hvoid : isVoid name.asciiLower = true
    · rw [Building.add, if_pos hvoid, if_pos hvoid]
      exact ⟨rfl, rfl⟩
    · rw [Building.add, if_neg hvoid, if_neg hvoid]
      exact ⟨rfl, closes_closed ..⟩

theorem Entered.wellRead {d : Document} {i : Item} (h : b.Entered d i) (hi : i.isNode = true) :
    (d.node b.document.nodes.size).WellRead := by
  cases i with
  | text s =>
    rw [h.1]
    exact ⟨fun _ => rfl, List.nodup_nil, nofun⟩
  | comment body =>
    rw [h.1]
    exact ⟨fun _ => rfl, List.nodup_nil, nofun⟩
  | start name written selfClosing =>
    obtain ⟨attributes, children, hfirst, hnode, hstack⟩ := h
    rw [hnode]
    refine ⟨fun hleaf => ?_, hfirst.names, hfirst.lower⟩
    have hvoid := hleaf.resolve_left (not_not_intro rfl)
    rw [if_pos (Bool.or_eq_true_iff.2 (.inr hvoid))] at hstack
    exact hstack.1
  | stop name => cases hi

end Building

theorem entered_build (before : List Item) (i : Item) (after : List Item) :
    (build before).Entered (build (before ++ i :: after)).document i := by
  have hlater := later_build (before ++ [i]) after
  rw [build_concat, ← List.append_cons] at hlater
  exact (sound_build before).entered hlater

theorem exists_item {is : List Item} {n : NodeId} (hn : n < (build is).document.nodes.size)
    (hroot : n ≠ root) : ∃ before i after, is = before ++ i :: after ∧ i.isNode = true ∧
      n = (build before).document.nodes.size := by
  induction is using List.reverseRecOn with
  | nil => exact absurd (Nat.lt_one_iff.1 hn) hroot
  | append_singleton is i ih =>
    by_cases hlt : n < (build is).document.nodes.size
    · obtain ⟨before, j, after, rfl, hj, hsize⟩ := ih hlt
      exact ⟨before, j, after ++ [i], by simp, hj, hsize⟩
    · rw [build_concat, Building.size_add] at hn
      cases hi : i.isNode with
      | false =>
        rw [hi] at hn
        exact absurd hn hlt
      | true =>
        rw [hi] at hn
        exact ⟨is, i, [], rfl, hi, Nat.le_antisymm (Nat.le_of_lt_succ hn) (Nat.le_of_not_lt hlt)⟩

theorem wellRead_build (is : List Item) (n : NodeId) : ((build is).document.node n).WellRead := by
  have hblank (children : List NodeId) :
      Node.WellRead { Node.element "" with children := children } := by
    have hvoid : isVoid "" = false := by decide
    exact ⟨fun h => absurd h (by simp [Node.element, hvoid]), List.nodup_nil, nofun⟩
  by_cases hn : n < (build is).document.nodes.size
  · by_cases hroot : n = root
    · have hkept : ((build is).document.node root).childless = (Node.element "").childless :=
        (later_build [] is).kept root Nat.one_pos
      rw [hroot, Node.eq_of_childless hkept]
      exact hblank _
    · obtain ⟨before, i, after, rfl, hi, rfl⟩ := exists_item hn hroot
      exact (entered_build before i after).wellRead hi
  · rw [node_of_le (Nat.le_of_not_lt hn)]
    exact hblank []

/-- The document that the items make: one tree, which a walk in pre-order goes through number by number. -/
structure ReadInOrder (is : List Item) (d : Document) : Prop where
  built : d = (build is).document
  forest : d.IsForest
  top : (d.node root).parent = none
  preorder : (d.branch root).labels = List.range d.nodes.size
  reached : ∀ n < d.nodes.size, d.Under root n
  nodes : ∀ n, (d.node n).WellRead
  sound : ∀ before after, is = before ++ after → (build before).Sound
  numbered : ∀ before after, is = before ++ after →
    (build before).document.nodes.size = before.countP Item.isNode + 1
  entered : ∀ before i after, is = before ++ i :: after → (build before).Entered d i

theorem readInOrder_parse (source : String) : ReadInOrder (scan source) (parse source) where
  built := parse_eq_build source
  forest := (Made.parse source).isForest
  top := rfl
  preorder := labels_ofForest _
  reached n hn := by
    have hlabels : ((parse source).branch root).labels = List.range (parse source).nodes.size :=
      labels_ofForest _
    have hmem : n ∈ ((parse source).branch root).labels := hlabels ▸ List.mem_range.2 hn
    exact Under.of_mem_labels hmem
  nodes := by
    rw [parse_eq_build]
    exact wellRead_build (scan source)
  sound before _ _ := sound_build before
  numbered before _ _ := size_build before
  entered before i after his := by
    rw [parse_eq_build, his]
    exact entered_build before i after

/-- An end tag closes what is within its element, and is stray when it comes too late. -/
example : (parse "<p>a<b>b</p>c</b>").nodes.toList.map Node.parent =
    [none, some 0, some 1, some 1, some 3, some 0] := by decide +kernel

end Document

end LiveMarkup
