import LiveMarkup.Proofs.Document.Building
import LiveMarkup.Proofs.Document.Consistent
import Mathlib.Data.List.Chain

/-!
The open elements while a document is read. They are always the way from the innermost one up to the root, and
only their children can still change.
-/

namespace LiveMarkup

open LiveMarkup.Markup

def Markup.Item.isNode : Item → Bool
  | .stop _ => false
  | _ => true

namespace Document

def Node.childless (n : Node) : Node := { n with children := [] }

theorem Node.eq_of_childless {n m : Node} (h : n.childless = m.childless) :
    n = { m with children := n.children } := by
  cases n
  cases m
  cases h
  rfl

theorem size_hang (d : Document) (parent : NodeId) (n : Node) :
    (d.hang parent n).nodes.size = d.nodes.size + 1 := by
  rw [hang, size_update, create]
  exact Array.size_push ..

theorem node_hang {d : Document} {parent : NodeId} (hp : parent < d.nodes.size) (n : Node)
    (m : NodeId) : (d.hang parent n).node m =
      if m = d.nodes.size then { n with parent := some parent }
      else if m = parent then { d.node m with children := (d.node m).children ++ [d.nodes.size] }
      else d.node m := by
  have hsize : (d.create { n with parent := some parent }).2.nodes.size = d.nodes.size + 1 :=
    Array.size_push ..
  rw [hang, node_update, node_create, hsize]
  by_cases hm : m = d.nodes.size
  · have hother : d.nodes.size ≠ parent := (Nat.ne_of_lt hp).symm
    simp [hm, hother]
  · by_cases hmp : m = parent
    · have hnew : parent ≠ d.nodes.size := Nat.ne_of_lt hp
      simp [hmp, hnew, Nat.lt_succ_of_lt hp]
    · simp [hm, hmp]

namespace Building

structure Sound (b : Building) : Prop where
  bound : ∀ n ∈ b.stack, n < b.document.nodes.size
  bottom : b.stack.getLast? = some root
  path : b.stack.IsChain fun n p => (b.document.node n).parent = some p

/-- What was read before stays, but for the children of elements that were open. -/
structure Later (b b' : Building) : Prop where
  size : b.document.nodes.size ≤ b'.document.nodes.size
  kept : ∀ n < b.document.nodes.size,
    (b'.document.node n).childless = (b.document.node n).childless
  closed : ∀ n < b.document.nodes.size, n ∉ b.stack →
    b'.document.node n = b.document.node n ∧ n ∉ b'.stack

variable {b b' b'' : Building}

theorem Later.refl (b : Building) : b.Later b := ⟨Nat.le_refl _, fun _ _ => rfl, fun _ _ h => ⟨rfl, h⟩⟩

theorem Later.trans (h : b.Later b') (h' : b'.Later b'') : b.Later b'' := by
  refine ⟨Nat.le_trans h.size h'.size, fun n hn => ?_, fun n hn hnot => ?_⟩
  · exact (h'.kept n (Nat.lt_of_lt_of_le hn h.size)).trans (h.kept n hn)
  · obtain ⟨hnode, hnot'⟩ := h.closed n hn hnot
    obtain ⟨hnode', hnot''⟩ := h'.closed n (Nat.lt_of_lt_of_le hn h.size) hnot'
    exact ⟨hnode'.trans hnode, hnot''⟩

theorem Sound.current_mem (h : b.Sound) : b.current ∈ b.stack := by
  have hbottom := h.bottom
  rw [current]
  cases hstack : b.stack with
  | nil =>
    rw [hstack] at hbottom
    cases hbottom
  | cons n ns => exact List.mem_cons_self ..

theorem Sound.later_hang (h : b.Sound) (n : Node) : b.Later (b.hang n) := by
  have hnode {m : NodeId} (hm : m < b.document.nodes.size) :
      (b.hang n).document.node m = if m = b.current then { b.document.node m with
        children := (b.document.node m).children ++ [b.document.nodes.size] }
      else b.document.node m := by
    rw [Building.hang, node_hang (h.bound _ h.current_mem), if_neg (Nat.ne_of_lt hm)]
  refine ⟨?_, fun m hm => ?_, fun m hm hnot => ⟨?_, hnot⟩⟩
  · rw [Building.hang, size_hang]
    exact Nat.le_succ _
  · rw [hnode hm]
    split <;> rfl
  · rw [hnode hm, if_neg fun hc => hnot (by rw [hc]; exact h.current_mem)]

theorem Sound.hang (h : b.Sound) (n : Node) : (b.hang n).Sound := by
  have hlater := h.later_hang n
  refine ⟨fun m hm => Nat.lt_of_lt_of_le (h.bound m hm) hlater.size, h.bottom, ?_⟩
  refine h.path.imp_of_mem_imp fun m p hm _ hparent => ?_
  exact (congrArg Node.parent (hlater.kept m (h.bound m hm))).trans hparent

theorem Sound.node_hang (h : b.Sound) (n : Node) :
    (b.hang n).document.node b.document.nodes.size = { n with parent := some b.current } := by
  rw [Building.hang, Document.node_hang (h.bound _ h.current_mem), if_pos rfl]

theorem size_hang (b : Building) (n : Node) :
    (b.hang n).document.nodes.size = b.document.nodes.size + 1 := Document.size_hang ..

theorem Sound.enter (h : b.Sound) (n : Node) : (b.enter n).Sound := by
  obtain ⟨hbound, hbottom, hpath⟩ := h.hang n
  refine ⟨fun m hm => ?_, ?_, hpath.cons fun p hp => ?_⟩
  · rcases List.mem_cons.1 hm with rfl | hm
    · rw [Building.enter, size_hang]
      exact Nat.lt_succ_self _
    · exact hbound m hm
  · exact List.getLast?_cons.trans (by rw [h.bottom, Option.getD_some])
  · have hcurrent : b.current = p := by
      rw [current, List.headD_eq_head?_getD]
      exact congrArg (·.getD root) hp
    rw [h.node_hang, hcurrent]

theorem Sound.later_enter (h : b.Sound) (n : Node) : b.Later (b.enter n) := by
  have hlater := h.later_hang n
  refine ⟨hlater.size, hlater.kept, fun m hm hnot => ⟨(hlater.closed m hm hnot).1, fun hmem => ?_⟩⟩
  rcases List.mem_cons.1 hmem with rfl | hmem
  · exact Nat.lt_irrefl _ hm
  · exact hnot hmem

theorem exists_closed_eq_drop (d : Document) (tag : String) {stack : List NodeId} (h : stack ≠ []) :
    ∃ i < stack.length, closed d tag stack = stack.drop i := by
  rw [Document.closed]
  cases hi : stack.dropLast.findIdx? fun n => (d.node n).tag == tag with
  | none => exact ⟨0, List.length_pos_iff.2 h, rfl⟩
  | some i =>
    have hlt := (List.findIdx?_eq_some_iff_getElem.1 hi).1
    rw [List.length_dropLast] at hlt
    exact ⟨i + 1, by omega, rfl⟩

theorem Sound.closed (h : b.Sound) (tag : String) :
    Sound ⟨b.document, closed b.document tag b.stack⟩ ∧
      b.Later ⟨b.document, closed b.document tag b.stack⟩ := by
  have hne : b.stack ≠ [] := List.ne_nil_of_mem h.current_mem
  obtain ⟨i, hi, hclosed⟩ := exists_closed_eq_drop b.document tag hne
  rw [hclosed]
  refine ⟨⟨fun n hn => h.bound n (List.mem_of_mem_drop hn), ?_, h.path.drop i⟩, Nat.le_refl _,
    fun _ _ => rfl, fun _ _ hnot => ⟨rfl, fun hmem => hnot (List.mem_of_mem_drop hmem)⟩⟩
  rw [List.getLast?_drop, if_neg (Nat.not_le.2 hi)]
  exact h.bottom

/-- An end tag closes the innermost open element of its name and what is open within it; the root, below
all others, has no name. -/
structure Closes (b : Building) (tag : String) (stack : List NodeId) : Prop where
  innermost : ∀ inner n outer, b.stack = inner ++ n :: outer → outer ≠ [] →
    (b.document.node n).tag = tag → (∀ m ∈ inner, (b.document.node m).tag ≠ tag) → stack = outer
  stray : (∀ n ∈ b.stack.dropLast, (b.document.node n).tag ≠ tag) → stack = b.stack

theorem closes_closed (b : Building) (tag : String) :
    b.Closes tag (Document.closed b.document tag b.stack) := by
  refine ⟨fun inner n outer hstack houter hn hinner => ?_, fun hnone => ?_⟩
  · have hnone : inner.findIdx? (fun m => (b.document.node m).tag == tag) = none :=
      List.findIdx?_eq_none_iff.2 fun m hm => beq_eq_false_iff_ne.2 (hinner m hm)
    have hdrop : (inner ++ n :: outer).dropLast = inner ++ n :: outer.dropLast := by
      rw [List.dropLast_append_cons, List.dropLast_cons_of_ne_nil houter]
    rw [Document.closed, hstack, hdrop, List.findIdx?_append, hnone, List.findIdx?_cons, hn]
    simp
  · have hfind : b.stack.dropLast.findIdx? (fun m => (b.document.node m).tag == tag) = none :=
      List.findIdx?_eq_none_iff.2 fun m hm => beq_eq_false_iff_ne.2 (hnone m hm)
    rw [Document.closed, hfind]

theorem Sound.add (h : b.Sound) (i : Item) : (b.add i).Sound ∧ b.Later (b.add i) := by
  cases i with
  | text s => exact ⟨h.hang _, h.later_hang _⟩
  | comment body => exact ⟨h.hang _, h.later_hang _⟩
  | start name written selfClosing =>
    rw [Building.add]
    split
    · exact ⟨h.hang _, h.later_hang _⟩
    · exact ⟨h.enter _, h.later_enter _⟩
  | stop name =>
    rw [Building.add]
    split
    · exact ⟨h, .refl b⟩
    · exact h.closed _

theorem size_add (b : Building) (i : Item) :
    (b.add i).document.nodes.size = b.document.nodes.size + if i.isNode then 1 else 0 := by
  cases i with
  | text s => exact size_hang ..
  | comment body => exact size_hang ..
  | start name written selfClosing =>
    rw [Building.add]
    split <;> exact size_hang ..
  | stop name =>
    rw [Building.add]
    split <;> rfl

theorem Sound.foldl (h : b.Sound) (is : List Item) :
    (is.foldl Building.add b).Sound ∧ b.Later (is.foldl Building.add b) := by
  induction is generalizing b with
  | nil => exact ⟨h, .refl b⟩
  | cons i is ih =>
    obtain ⟨hi, hlater⟩ := h.add i
    obtain ⟨his, hlater'⟩ := ih hi
    exact ⟨his, hlater.trans hlater'⟩

end Building

theorem sound_start : Building.start.Sound := by
  refine ⟨fun n hn => ?_, rfl, .singleton _⟩
  rw [List.mem_singleton.1 hn]
  exact Nat.one_pos

theorem sound_build (is : List Item) : (build is).Sound := (sound_start.foldl is).1

theorem later_build (before after : List Item) : (build before).Later (build (before ++ after)) := by
  rw [build, build, List.foldl_append]
  exact ((sound_build before).foldl after).2

theorem size_build (is : List Item) :
    (build is).document.nodes.size = is.countP Item.isNode + 1 := by
  induction is using List.reverseRecOn with
  | nil => rfl
  | append_singleton is i ih =>
    rw [build_concat, Building.size_add, ih, List.countP_append, List.countP_singleton]
    omega

end Document

end LiveMarkup
