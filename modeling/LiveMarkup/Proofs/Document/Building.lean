import LiveMarkup.Proofs.Document.Numbering

/-!
A document is read node by node. Each text, comment and start tag makes the next node, the last child of
the innermost open element; start tags open elements and end tags close them. The tree that is put together
from finished branches is the same.
-/

namespace LiveMarkup.Document

open LiveMarkup.Markup LiveMarkup.Text

/-- A new node becomes the last child of a parent, and the journal is silent. -/
def hang (d : Document) (parent : NodeId) (n : Node) : Document :=
  (d.create { n with parent := some parent }).2.update parent fun m =>
    { m with children := m.children ++ [d.nodes.size] }

/-- What is open when an element of a name ends: all that was open before the innermost one of that name,
or everything if there is none. The root, last in the row, has no end. -/
def closed (d : Document) (tag : String) (stack : List NodeId) : List NodeId :=
  match stack.dropLast.findIdx? fun n => (d.node n).tag == tag with
  | some i => stack.drop (i + 1)
  | none => stack

structure Building where
  document : Document
  stack : List NodeId

namespace Building

def start : Building := ⟨.empty, [root]⟩

def current (b : Building) : NodeId := b.stack.headD root

def hang (b : Building) (n : Node) : Building := { b with document := b.document.hang b.current n }

def enter (b : Building) (n : Node) : Building :=
  ⟨(b.hang n).document, b.document.nodes.size :: b.stack⟩

def add (b : Building) : Item → Building
  | .text s => b.hang (Node.text (String.ofList (unescape s.toList)))
  | .comment body => b.hang ⟨.comment, "", [], body, none, []⟩
  | .start name written selfClosing =>
    let tag := name.asciiLower
    let element := { Node.element tag with attributes := Unfinished.attributes written }
    if selfClosing || isVoid tag then b.hang element else b.enter element
  | .stop name =>
    let tag := name.asciiLower
    if isVoid tag then b else ⟨b.document, closed b.document tag b.stack⟩

end Building

def build (is : List Item) : Building := is.foldl Building.add .start

theorem build_concat (is : List Item) (i : Item) : build (is ++ [i]) = (build is).add i := by
  simp [build]

section Rows

variable {ι : Type}

theorem numbersFrom_append (start : NodeId) (f g : Forest ι) :
    numbersFrom start (f ++ g) = numbersFrom start f ++ numbersFrom (start + Forest.size f) g := by
  induction f generalizing start with
  | nil => simp [numbersFrom, Forest.size]
  | cons b bs ih => simp [numbersFrom, Forest.size, ih, Nat.add_assoc]

theorem nodesOfForest_append (parent start : NodeId) (f g : Forest ι) :
    nodesOfForest parent start (f ++ g) =
      nodesOfForest parent start f ++ nodesOfForest parent (start + Forest.size f) g := by
  induction f generalizing start with
  | nil => simp [nodesOfForest, Forest.size]
  | cons b bs ih => simp [nodesOfForest, Forest.size, ih, Nat.add_assoc]

end Rows

def number : List Frame → NodeId
  | [] => root
  | f :: fs => number fs + 1 + Forest.size f.earlier.reverse

def numbers : List Frame → List NodeId
  | [] => [root]
  | f :: fs => number (f :: fs) :: numbers fs

def innermost (children : List NodeId) : List Frame → Node
  | [] => { Node.element "" with children := children }
  | f :: fs => ⟨.element, f.tag, f.attributes, "", some (number fs), children⟩

def outside : List Frame → List Node
  | [] => []
  | f :: fs =>
    outside fs ++
      innermost (numbersFrom (number fs + 1) f.earlier.reverse ++ [number (f :: fs)]) fs ::
        nodesOfForest (number fs) (number fs + 1) f.earlier.reverse

theorem length_outside (frames : List Frame) : (outside frames).length = number frames := by
  induction frames with
  | nil => rfl
  | cons f fs ih =>
    rw [outside, List.length_append, List.length_cons, length_nodesOfForest, ih, number]
    omega

theorem nodes_closeAll (finished : Forest Unit) (frames : List Frame) :
    (ofForest (Unfinished.closeAll finished frames)).nodes.toList =
      outside frames ++ innermost (numbersFrom (number frames + 1) finished.reverse) frames ::
        nodesOfForest (number frames) (number frames + 1) finished.reverse := by
  induction frames generalizing finished with
  | nil => rfl
  | cons f fs ih =>
    rw [Unfinished.closeAll, ih, Unfinished.closeFrame, List.reverse_cons, numbersFrom_append,
      nodesOfForest_append, outside]
    simp [numbersFrom, nodesOfForest, nodesOf, innermost, number]

theorem size_closeAll (finished : Forest Unit) (frames : List Frame) :
    (ofForest (Unfinished.closeAll finished frames)).nodes.size =
      number frames + 1 + Forest.size finished.reverse := by
  rw [← Array.length_toList, nodes_closeAll, List.length_append, List.length_cons, length_outside,
    length_nodesOfForest]
  omega

theorem hang_of_nodes {d d' : Document} {parent : NodeId} {n m : Node} {before after : List Node}
    (hd : d.nodes.toList = before ++ m :: after) (hparent : before.length = parent)
    (hjournal : d'.journal = d.journal)
    (hd' : d'.nodes.toList = before ++ { m with children := m.children ++ [d.nodes.size] } ::
      (after ++ [{ n with parent := some parent }])) : d' = d.hang parent n := by
  have hnodes : d'.nodes = (d.hang parent n).nodes := by
    refine Array.toList_inj.1 ?_
    rw [hd', hang, update, create, Array.toList_modify, Array.toList_push, hd, ← hparent]
    simp [List.modify_eq_take_drop]
  cases d'
  cases d
  exact congr (congrArg Document.mk hnodes) hjournal

theorem ofForest_push {b : Branch Unit} {n : Node} (finished : Forest Unit) (frames : List Frame)
    (hb : ∀ parent start, nodesOf parent start b = [{ n with parent := some parent }]) :
    ofForest (Unfinished.closeAll (b :: finished) frames) =
      (ofForest (Unfinished.closeAll finished frames)).hang (number frames) n := by
  refine hang_of_nodes (nodes_closeAll finished frames) (length_outside frames) rfl ?_
  rw [nodes_closeAll, List.reverse_cons, numbersFrom_append, nodesOfForest_append, size_closeAll]
  have hchildren (cs cs' : List NodeId) : innermost (cs ++ cs') frames =
      { innermost cs frames with children := (innermost cs frames).children ++ cs' } := by
    cases frames <;> rfl
  rw [hchildren]
  simp [numbersFrom, nodesOfForest, hb]

theorem tags_numbers (finished : Forest Unit) (frames : List Frame) :
    (numbers frames).dropLast.map
        (fun n => ((ofForest (Unfinished.closeAll finished frames)).node n).tag) =
      frames.map Frame.tag := by
  induction frames generalizing finished with
  | nil => rfl
  | cons f fs ih =>
    have hne : numbers fs ≠ [] := by cases fs <;> exact List.cons_ne_nil _ _
    have hrest := ih (Unfinished.closeFrame f finished)
    have hhead : ((ofForest (Unfinished.closeAll finished (f :: fs))).node (number (f :: fs))).tag =
        f.tag := by
      rw [node, Array.getD_eq_getD_getElem?, ← Array.getElem?_toList, nodes_closeAll,
        ← length_outside (f :: fs), List.getElem?_append_right (Nat.le_refl _)]
      simp [innermost]
    rw [numbers, List.dropLast_cons_of_ne_nil hne, List.map_cons, List.map_cons, hhead]
    exact congrArg (f.tag :: ·) hrest

theorem numbers_drop {frames : List Frame} {i : Nat} (h : i ≤ frames.length) :
    numbers (frames.drop i) = (numbers frames).drop i := by
  induction frames generalizing i with
  | nil =>
    cases Nat.le_zero.1 h
    rfl
  | cons f fs ih =>
    cases i with
    | zero => rfl
    | succ i => exact ih (Nat.le_of_succ_le_succ h)

theorem closed_numbers (tag : String) (finished : Forest Unit) (frames : List Frame) :
    closed (ofForest (Unfinished.closeAll finished frames)) tag (numbers frames) =
      match frames.findIdx? (·.tag == tag) with
      | some i => numbers (frames.drop (i + 1))
      | none => numbers frames := by
  have hfind : (numbers frames).dropLast.findIdx?
      (fun n => ((ofForest (Unfinished.closeAll finished frames)).node n).tag == tag) =
        frames.findIdx? (·.tag == tag) := by
    have hmap := congrArg (List.findIdx? (· == tag)) (tags_numbers finished frames)
    rwa [List.findIdx?_map, List.findIdx?_map] at hmap
  rw [closed, hfind]
  cases hi : frames.findIdx? (·.tag == tag) with
  | none => rfl
  | some i =>
    have hlt : i < frames.length := (List.findIdx?_eq_some_iff_getElem.1 hi).1
    exact (numbers_drop hlt).symm

theorem closeThrough?_eq (tag : String) (finished : Forest Unit) (frames : List Frame) :
    (frames.findIdx? (·.tag == tag) = none ∧
        Unfinished.closeThrough? tag finished frames = none) ∨
      ∃ i q, frames.findIdx? (·.tag == tag) = some i ∧
        Unfinished.closeThrough? tag finished frames = some q ∧ q.frames = frames.drop (i + 1) ∧
          q.finish = Unfinished.closeAll finished frames := by
  induction frames generalizing finished with
  | nil => exact .inl ⟨rfl, rfl⟩
  | cons f fs ih =>
    rw [List.findIdx?_cons, Unfinished.closeThrough?]
    by_cases hf : f.tag = tag
    · rw [if_pos hf, if_pos (beq_iff_eq.2 hf)]
      exact .inr ⟨0, _, rfl, rfl, rfl, rfl⟩
    · rw [if_neg hf, if_neg (mt beq_iff_eq.1 hf)]
      rcases ih (Unfinished.closeFrame f finished) with ⟨hnone, hq⟩ | ⟨i, q, hi, hq, hframes, hfinish⟩
      · exact .inl ⟨by rw [hnone]; rfl, hq⟩
      · exact .inr ⟨i + 1, q, by rw [hi]; rfl, hq, hframes, hfinish⟩

namespace Building

def ofUnfinished (p : Unfinished) : Building := ⟨ofForest p.finish, numbers p.frames⟩

theorem current_ofUnfinished (p : Unfinished) : (ofUnfinished p).current = number p.frames := by
  rw [current, ofUnfinished]
  cases p.frames <;> rfl

theorem ofUnfinished_push {b : Branch Unit} {n : Node} (p : Unfinished)
    (hb : ∀ parent start, nodesOf parent start b = [{ n with parent := some parent }]) :
    ofUnfinished (p.push b) = (ofUnfinished p).hang n := by
  have hdocument := ofForest_push p.finished p.frames hb
  rw [hang, current_ofUnfinished]
  exact congrArg (Building.mk · (numbers p.frames)) hdocument

theorem ofUnfinished_add (p : Unfinished) (i : Item) :
    ofUnfinished (p.add i) = (ofUnfinished p).add i := by
  cases i with
  | text s => exact ofUnfinished_push p fun _ _ => rfl
  | comment body => exact ofUnfinished_push p fun _ _ => rfl
  | start name written selfClosing =>
    have hpush := ofUnfinished_push (b := .element () name.asciiLower (Unfinished.attributes written) [])
      (n := { Node.element name.asciiLower with attributes := Unfinished.attributes written }) p
      fun _ _ => rfl
    rw [Unfinished.add, add]
    split
    · exact hpush
    · -- an element just opened looks like one without children
      have hnumber : number (⟨name.asciiLower, Unfinished.attributes written, p.finished⟩ :: p.frames) =
          (ofForest p.finish).nodes.size := (size_closeAll p.finished p.frames).symm
      exact congr (congrArg Building.mk (congrArg document hpush))
        (congrArg (· :: numbers p.frames) hnumber)
  | stop name =>
    rw [Unfinished.add, add]
    split
    · rfl
    · have hclosed := closed_numbers name.asciiLower p.finished p.frames
      rcases closeThrough?_eq name.asciiLower p.finished p.frames with
        ⟨hnone, hq⟩ | ⟨i, q, hi, hq, hframes, hfinish⟩
      · rw [hnone] at hclosed
        rw [hq]
        exact congrArg (Building.mk _) hclosed.symm
      · rw [hi] at hclosed
        rw [hq, Option.getD_some]
        exact congr (congrArg Building.mk (congrArg ofForest hfinish))
          ((congrArg numbers hframes).trans hclosed.symm)

end Building

theorem parse_eq_build (source : String) : parse source = (build (scan source)).document := by
  have hfold (is : List Item) (p : Unfinished) : Building.ofUnfinished (is.foldl Unfinished.add p) =
      is.foldl Building.add (Building.ofUnfinished p) := by
    induction is generalizing p with
    | nil => rfl
    | cons i is ih => rw [List.foldl_cons, List.foldl_cons, ih, Building.ofUnfinished_add]
  exact congrArg Building.document (hfold (scan source) ⟨[], []⟩)

end LiveMarkup.Document
