import LiveMarkup.Proofs.Document.Consistent
import Mathlib.Data.List.Chain
import Mathlib.Data.List.Perm.Subperm

/-!
Documents without cycles. Taking a node away makes none, and neither does hanging a free node under one
that is not below it. Every way along the links then ends within as many steps as there are nodes, so
what is read by following them is what the recursion over them says.
-/

namespace LiveMarkup.Document

open LiveMarkup.Markup

section Deep

variable {r : NodeId → NodeId → Prop} {k : Nat} {n m : NodeId}

/-- No way along `r` from a node has more than `k` nodes. -/
def Deep (r : NodeId → NodeId → Prop) (k : Nat) (n : NodeId) : Prop :=
  ∀ way, List.IsChain r (n :: way) → way.length < k

theorem Deep.pos (h : Deep r k n) : 0 < k := h [] (List.isChain_singleton n)

theorem Deep.step (h : Deep r (k + 1) n) (hr : r n m) : Deep r k m := by
  intro way hway
  have hlen := h (m :: way) (List.isChain_cons_cons.2 ⟨hr, hway⟩)
  exact Nat.lt_of_succ_lt_succ hlen

theorem Deep.acc (h : Deep r k n) : Acc (fun m n => r n m) n := by
  induction k generalizing n with
  | zero => exact absurd h.pos (Nat.lt_irrefl 0)
  | succ k ih => exact .intro n fun m hr => ih (h.step hr)

end Deep

def IsChild (d : Document) (n m : NodeId) : Prop := m ∈ (d.node n).children

def IsParent (d : Document) (n p : NodeId) : Prop := (d.node n).parent = some p

def Acyclic (d : Document) : Prop := ∀ n m, m ∈ (d.node n).children → ¬d.Under m n

variable {d d' : Document}

theorem Under.of_children (h : ∀ n m, m ∈ (d'.node n).children → m ∈ (d.node n).children)
    {a n : NodeId} (hu : d'.Under a n) : d.Under a n := by
  induction hu with
  | self => exact .self
  | child _ hm ih => exact .child ih (h _ _ hm)

theorem Acyclic.of_children (hd : d.Acyclic)
    (h : ∀ n m, m ∈ (d'.node n).children → m ∈ (d.node n).children) : d'.Acyclic :=
  fun n m hm hu => hd n m (h n m hm) (hu.of_children h)

theorem mem_children_of_removeChild {parent child n m : NodeId}
    (h : m ∈ ((d.removeChild parent child).node n).children) : m ∈ (d.node n).children := by
  rw [children_removeChild] at h
  split at h
  · exact List.mem_of_mem_erase h
  · exact h

theorem mem_children_of_detach {child n m : NodeId} (h : m ∈ ((d.detach child).node n).children) :
    m ∈ (d.node n).children := by
  unfold detach at h
  split at h
  · exact mem_children_of_removeChild h
  · exact h

section Place

variable {parent child : NodeId} {arrange : List NodeId → List NodeId}
  (hperm : ∀ ns, (arrange ns).Perm (child :: ns))

include hperm

theorem mem_children_of_place {n m : NodeId}
    (h : m ∈ ((d.place parent child arrange).node n).children) :
    m ∈ (d.node n).children ∨ (n = parent ∧ m = child) := by
  rw [children_place] at h
  split at h
  · next hn =>
    rcases List.mem_cons.1 ((hperm _).mem_iff.1 h) with hm | hm
    · exact .inr ⟨hn.1, hm⟩
    · exact .inl hm
  · exact .inl h

theorem Under.of_place {a n : NodeId} (h : (d.place parent child arrange).Under a n) :
    d.Under a n ∨ (d.Under a parent ∧ d.Under child n) := by
  induction h with
  | self => exact .inl .self
  | child _ hm ih =>
    rcases mem_children_of_place hperm hm with hm | ⟨rfl, rfl⟩
    · exact ih.imp (fun hu => .child hu hm) fun hu => ⟨hu.1, .child hu.2 hm⟩
    · rcases ih with hu | hu
      · exact .inr ⟨hu, .self⟩
      · exact .inr ⟨hu.1, .self⟩

theorem Acyclic.place (hd : d.Acyclic) (hu : ¬d.Under child parent) :
    (d.place parent child arrange).Acyclic := by
  intro n m hm hback
  have hback := Under.of_place hperm hback
  rcases mem_children_of_place hperm hm with hm | ⟨rfl, rfl⟩
  · rcases hback with hback | ⟨habove, hbelow⟩
    · exact hd n m hm hback
    · exact hu (Under.trans (.child hbelow hm) habove)
  · rcases hback with hback | ⟨hback, -⟩
    · exact hu hback
    · exact hu hback

end Place

theorem acyclic_of_linked (h : d.Linked) : d.Acyclic := by
  intro n m hm hu
  have hle : m ≤ n := by
    clear hm
    induction hu with
    | self => exact Nat.le_refl m
    | child _ hm ih => exact Nat.le_trans ih (Nat.le_of_lt (h.after hm))
  exact Nat.not_lt.2 hle (h.after hm)

theorem under_of_way {m x : NodeId} {way : List NodeId} (hway : List.IsChain d.IsChild (m :: way))
    (hx : x ∈ m :: way) : d.Under m x := by
  induction way generalizing m with
  | nil =>
    cases List.mem_singleton.1 hx
    exact .self
  | cons k way ih =>
    rcases List.mem_cons.1 hx with rfl | hx
    · exact .self
    · obtain ⟨hk, hrest⟩ := List.isChain_cons_cons.1 hway
      exact Under.trans (.child .self hk) (ih hrest hx)

theorem nodup_of_way {way : List NodeId}
    (hback : ∀ n ∈ way, ∀ m ∈ (d.node n).children, ¬d.Under m n)
    (hway : List.IsChain d.IsChild way) : way.Nodup := by
  induction way with
  | nil => exact List.nodup_nil
  | cons n way ih =>
    have hrest := ih (fun m hm => hback m (List.mem_cons_of_mem _ hm)) hway.tail
    refine List.nodup_cons.2 ⟨fun hn => ?_, hrest⟩
    cases way with
    | nil => cases hn
    | cons m way =>
      obtain ⟨hm, hrest⟩ := List.isChain_cons_cons.1 hway
      exact hback n (List.mem_cons_self ..) m hm (under_of_way hrest hn)

theorem length_le_of_nodup {k : Nat} {ns : List NodeId} (hn : ns.Nodup) (hlt : ∀ n ∈ ns, n < k) :
    ns.length ≤ k := by
  have hsub : ns ⊆ List.range k := fun n hmem => List.mem_range.2 (hlt n hmem)
  have hlen := (hn.subperm hsub).length_le
  rwa [List.length_range] at hlen

theorem deep_of_nodup (hbound : ∀ n m, m ∈ (d.node n).children → m < d.nodes.size) {n : NodeId}
    (hn : n < d.nodes.size) (hnodup : ∀ way, List.IsChain d.IsChild (n :: way) → (n :: way).Nodup) :
    Deep d.IsChild d.nodes.size n := by
  intro way hway
  refine length_le_of_nodup (hnodup way hway) ?_
  clear hnodup
  -- each node of the way but the first is a child of the one before it
  induction way generalizing n with
  | nil =>
    intro x hx
    cases List.mem_singleton.1 hx
    exact hn
  | cons m way ih =>
    obtain ⟨hm, hrest⟩ := List.isChain_cons_cons.1 hway
    intro x hx
    rcases List.mem_cons.1 hx with rfl | hx
    · exact hn
    · exact ih (hbound n m hm) hrest x hx

/-- Whatever stands elsewhere, what hangs below the root has no cycle. -/
theorem Consistent.deep_children (h : d.Consistent) {n : NodeId} (hroot : d.Under Document.root n)
    (hn : n < d.nodes.size) : Deep d.IsChild d.nodes.size n := by
  refine deep_of_nodup (fun _ _ => h.child_lt) hn fun way hway => nodup_of_way ?_ hway
  exact fun x hx m hm => h.not_under_child (hroot.trans (under_of_way hway hx)) hm

namespace Acyclic

variable (hd : d.Acyclic)

include hd

theorem deep_children (hbound : ∀ n m, m ∈ (d.node n).children → m < d.nodes.size) {n : NodeId}
    (hn : n < d.nodes.size) : Deep d.IsChild d.nodes.size n :=
  deep_of_nodup hbound hn fun _ hway => nodup_of_way (fun n _ m hm => hd n m hm) hway

theorem deep_parents (hc : d.Consistent) {n : NodeId} (hn : n < d.nodes.size) :
    Deep d.IsParent d.nodes.size n := by
  intro way hway
  have hback : List.IsChain d.IsChild (n :: way).reverse := by
    rw [List.isChain_reverse]
    exact hway.imp fun a b hp => (hc.links b a).2 hp
  have hnodup : (n :: way).Nodup :=
    List.nodup_reverse.1 (nodup_of_way (fun n _ m hm => hd n m hm) hback)
  refine length_le_of_nodup hnodup ?_
  clear hnodup hback
  induction way generalizing n with
  | nil =>
    intro x hx
    cases List.mem_singleton.1 hx
    exact hn
  | cons p way ih =>
    obtain ⟨hp, hrest⟩ := List.isChain_cons_cons.1 hway
    intro x hx
    rcases List.mem_cons.1 hx with rfl | hx
    · exact hn
    · exact ih (lt_of_children ((hc.links p n).2 hp)) hrest x hx

theorem wellFounded_children (hbound : ∀ n m, m ∈ (d.node n).children → m < d.nodes.size) :
    WellFounded fun m n => m ∈ (d.node n).children := by
  refine ⟨fun n => ?_⟩
  by_cases hn : n < d.nodes.size
  · exact (hd.deep_children hbound hn).acc
  · refine .intro n fun m hm => ?_
    exact absurd (lt_of_children hm) hn

theorem wellFounded_parents (hc : d.Consistent) :
    WellFounded fun p n => (d.node n).parent = some p := by
  refine ⟨fun n => ?_⟩
  by_cases hn : n < d.nodes.size
  · exact (hd.deep_parents hc hn).acc
  · refine .intro n fun p hp => ?_
    exact absurd (Consistent.lt_of_parent hp) hn

end Acyclic

theorem Deep.branchWithin_eq {k k' : Nat} {n : NodeId} (h : Deep d.IsChild k n) (hk : k ≤ k') :
    d.branchWithin k' n = d.branchWithin k n := by
  induction k generalizing n k' with
  | zero => exact absurd h.pos (Nat.lt_irrefl 0)
  | succ k ih =>
    obtain ⟨k', rfl⟩ : ∃ j, k' = j + 1 := ⟨k' - 1, by omega⟩
    have hmap : (d.node n).children.map (d.branchWithin k') =
        (d.node n).children.map (d.branchWithin k) :=
      List.map_congr_left fun m hm => ih (h.step hm) (Nat.le_of_succ_le_succ hk)
    rw [branchWithin, branchWithin, hmap]

theorem Deep.topmost_eq {k k' : Nat} {n : NodeId} (h : Deep d.IsParent k n) (hk : k ≤ k') :
    d.topmost k' n = d.topmost k n := by
  induction k generalizing n k' with
  | zero => exact absurd h.pos (Nat.lt_irrefl 0)
  | succ k ih =>
    obtain ⟨k', rfl⟩ : ∃ j, k' = j + 1 := ⟨k' - 1, by omega⟩
    rw [topmost, topmost]
    cases hp : (d.node n).parent with
    | none => rfl
    | some p => exact ih (h.step hp) (Nat.le_of_succ_le_succ hk)

def branchOf (n : NodeId) (content : Node) (children : Forest NodeId) : Branch NodeId :=
  match content.kind with
  | .element => .element n content.tag content.attributes children
  | .text => .text n content.data
  | .comment => .comment n content.data

theorem branchWithin_succ (k : Nat) (n : NodeId) :
    d.branchWithin (k + 1) n =
      branchOf n (d.node n) ((d.node n).children.map (d.branchWithin k)) := by
  rw [branchWithin]
  rfl

namespace Acyclic

variable (hd : d.Acyclic)

include hd

theorem branch_eq (hbound : ∀ n m, m ∈ (d.node n).children → m < d.nodes.size) (n : NodeId) :
    d.branch n = branchOf n (d.node n) (d.childForest n) := by
  rw [branch, childForest]
  by_cases hn : n < d.nodes.size
  · have hdeep := hd.deep_children hbound hn
    obtain ⟨k, hk⟩ := Nat.exists_eq_succ_of_ne_zero (Nat.ne_zero_of_lt hn)
    rw [hk] at hdeep
    have hmap : (d.node n).children.map (d.branchWithin k) = (d.node n).children.map d.branch := by
      refine List.map_congr_left fun m hm => ?_
      rw [branch, hk]
      exact ((hdeep.step hm).branchWithin_eq (Nat.le_succ k)).symm
    rw [hk, branchWithin_succ, hmap]
  · rw [node_of_le (Nat.le_of_not_lt hn)]
    cases hk : d.nodes.size with
    | zero => rw [branchWithin, node_of_le (Nat.le_of_not_lt hn)]; rfl
    | succ k => rw [branchWithin_succ, node_of_le (Nat.le_of_not_lt hn)]; rfl

theorem topmost_eq (hc : d.Consistent) (n : NodeId) :
    d.topmost d.nodes.size n =
      match (d.node n).parent with
      | some p => d.topmost d.nodes.size p
      | none => n := by
  by_cases hn : n < d.nodes.size
  · have hdeep := hd.deep_parents hc hn
    obtain ⟨k, hk⟩ := Nat.exists_eq_succ_of_ne_zero (Nat.ne_zero_of_lt hn)
    rw [hk] at hdeep ⊢
    rw [topmost]
    cases hp : (d.node n).parent with
    | none => rfl
    | some p => exact ((hdeep.step hp).topmost_eq (Nat.le_succ k)).symm
  · have hnode := node_of_le (Nat.le_of_not_lt hn)
    rw [hnode]
    cases d.nodes.size with
    | zero => rfl
    | succ k => rw [topmost, hnode]; rfl

end Acyclic

end LiveMarkup.Document
