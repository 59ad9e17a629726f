import LiveMarkup.Proofs.Document.Consistent
import LiveMarkup.Proofs.Document.Journal

/-!
Siblings that go and come back. An element that comes back is put before the one that followed it, if
that one is there, and else behind all others; so the order lasts as long as nothing that comes later
is behind an absent neighbour. The journal tells who is there.
-/

namespace LiveMarkup.Document

variable {d d' : Document} {parent child reference : NodeId}

theorem filter_beforeReference {p : NodeId → Bool} (hc : p child) (hr : p reference)
    (ns : List NodeId) : (beforeReference child reference ns).filter p =
      beforeReference child reference (ns.filter p) := by
  induction ns with
  | nil => rw [beforeReference, List.filter_cons_of_pos hc]; rfl
  | cons n ns ih =>
    rw [beforeReference]
    by_cases hn : n = reference
    · rw [if_pos hn, hn, List.filter_cons_of_pos hc, List.filter_cons_of_pos hr, beforeReference,
        if_pos rfl]
    · rw [if_neg hn, List.filter_cons, List.filter_cons, ih]
      split
      · rw [beforeReference, if_neg hn]
      · rfl

theorem filter_afterReference {p : NodeId → Bool} (hc : p child) (hr : p reference)
    (ns : List NodeId) : (afterReference child reference ns).filter p =
      afterReference child reference (ns.filter p) := by
  induction ns with
  | nil => rw [afterReference, List.filter_cons_of_pos hc]; rfl
  | cons n ns ih =>
    rw [afterReference]
    by_cases hn : n = reference
    · rw [if_pos hn, hn, List.filter_cons_of_pos hr, List.filter_cons_of_pos hc,
        List.filter_cons_of_pos hr, afterReference, if_pos rfl]
    · rw [if_neg hn, List.filter_cons, List.filter_cons, ih]
      split
      · rw [afterReference, if_neg hn]
      · rfl

theorem filter_beforeReference_of_not {p : NodeId → Bool} (hc : p child = false)
    (ns : List NodeId) : (beforeReference child reference ns).filter p = ns.filter p := by
  have hc : ¬p child := Bool.not_eq_true _ ▸ hc
  induction ns with
  | nil => exact List.filter_cons_of_neg hc
  | cons n ns ih =>
    rw [beforeReference]
    split
    · exact List.filter_cons_of_neg hc
    · rw [List.filter_cons, List.filter_cons, ih]

theorem beforeReference_append {x y : NodeId} {before after : List NodeId} (h : y ∉ before) :
    beforeReference x y (before ++ y :: after) = before ++ x :: y :: after := by
  induction before with
  | nil => rw [List.nil_append, beforeReference, if_pos rfl]; rfl
  | cons b bs ih =>
    obtain ⟨hne, hbs⟩ := List.ne_and_not_mem_of_not_mem_cons h
    rw [List.cons_append, beforeReference, if_neg (Ne.symm hne), ih hbs]
    rfl

theorem afterReference_append {x y : NodeId} {before after : List NodeId} (h : y ∉ before) :
    afterReference x y (before ++ y :: after) = before ++ y :: x :: after := by
  induction before with
  | nil => rw [List.nil_append, afterReference, if_pos rfl]; rfl
  | cons b bs ih =>
    obtain ⟨hne, hbs⟩ := List.ne_and_not_mem_of_not_mem_cons h
    rw [List.cons_append, afterReference, if_neg (Ne.symm hne), ih hbs]
    rfl

theorem beforeReference_of_not_mem {ns : List NodeId} (h : reference ∉ ns) :
    beforeReference child reference ns = ns ++ [child] := by
  induction ns with
  | nil => rfl
  | cons n ns ih =>
    obtain ⟨hne, hns⟩ := List.ne_and_not_mem_of_not_mem_cons h
    rw [beforeReference, if_neg (Ne.symm hne), ih hns, List.cons_append]

theorem afterReference_of_not_mem {ns : List NodeId} (h : reference ∉ ns) :
    afterReference child reference ns = ns ++ [child] := by
  induction ns with
  | nil => rfl
  | cons n ns ih =>
    obtain ⟨hne, hns⟩ := List.ne_and_not_mem_of_not_mem_cons h
    rw [afterReference, if_neg (Ne.symm hne), ih hns, List.cons_append]

theorem isElement_congr (h : ∀ n, (d'.node n).kind = (d.node n).kind) : d'.isElement = d.isElement := by
  funext n
  rw [isElement, isElement, h]

theorem elementChildren_congr (hk : ∀ n, (d'.node n).kind = (d.node n).kind) {n : NodeId}
    (hc : (d'.node n).children = (d.node n).children) :
    d'.elementChildren n = d.elementChildren n := by
  rw [elementChildren, elementChildren, isElement_congr hk, hc]

theorem kind_setText (d : Document) (id : NodeId) (data : String) (n : NodeId) :
    ((d.setText id data).node n).kind = (d.node n).kind := by
  rw [node_setText]
  split <;> rfl

theorem elementChildren_setText (d : Document) (id : NodeId) (data : String) (n : NodeId) :
    (d.setText id data).elementChildren n = d.elementChildren n := by
  refine elementChildren_congr (kind_setText d id data) ?_
  rw [node_setText]
  split <;> rfl

theorem elementChildren_removeChild (d : Document) (parent child n : NodeId) :
    (d.removeChild parent child).elementChildren n =
      if n = parent then (d.elementChildren n).erase child else d.elementChildren n := by
  rw [elementChildren, isElement_congr (rewires_removeChild ..).kind, children_removeChild]
  split
  · exact List.erase_filter.symm
  · rfl

theorem elementChildren_place (d : Document) (parent child : NodeId)
    (arrange : List NodeId → List NodeId) (n : NodeId) :
    (d.place parent child arrange).elementChildren n =
      if n = parent ∧ n < d.nodes.size then (arrange (d.node n).children).filter d.isElement
      else d.elementChildren n := by
  rw [elementChildren, isElement_congr (rewires_place ..).kind, children_place]
  split <;> rfl

/-- Before `next`, if there is one to name, else after `prev`, else first. -/
def putBack (prev next : Option NodeId) (child : NodeId) : List NodeId → List NodeId :=
  match next, prev with
  | some next, _ => beforeReference child next
  | none, some prev => afterReference child prev
  | none, none => (child :: ·)

theorem perm_putBack (prev next : Option NodeId) (child : NodeId) (ns : List NodeId) :
    (putBack prev next child ns).Perm (child :: ns) := by
  cases next with
  | some next => exact perm_beforeReference ..
  | none =>
    cases prev with
    | some prev => exact perm_afterReference ..
    | none => exact .refl _

theorem filter_putBack {prev next : Option NodeId} {p : NodeId → Bool} (hc : p child)
    (hprev : ∀ n ∈ prev, p n) (hnext : ∀ n ∈ next, p n) (ns : List NodeId) :
    (putBack prev next child ns).filter p = putBack prev next child (ns.filter p) := by
  cases next with
  | some next => exact filter_beforeReference hc (hnext next rfl) ns
  | none =>
    cases prev with
    | some prev => exact filter_afterReference hc (hprev prev rfl) ns
    | none => exact List.filter_cons_of_pos hc

variable {es : List NodeId} {J ms : List Mutation} {e : NodeId}

/-- Whether a node that was in its place before these entries is there after them. -/
def stands (J : List Mutation) (n : NodeId) : Bool :=
  match (J.filter (Mutation.moves n)).getLast? with
  | some (.removed _ _) => false
  | _ => true

theorem stands_append_of_not_moves {n : NodeId} (h : ∀ m ∈ ms, m.moves n = false) :
    stands (J ++ ms) n = stands J n := by
  have hnil : ms.filter (Mutation.moves n) = [] :=
    List.filter_eq_nil_iff.2 fun m hm => Bool.not_eq_true _ ▸ h m hm
  rw [stands, List.filter_append, hnil, List.append_nil, stands]

theorem stands_append_removed (J : List Mutation) (parent n : NodeId) :
    stands (J ++ [.removed parent n]) n = false := by
  simp [stands, List.filter_append, Mutation.moves]

theorem stands_append_inserted (J : List Mutation) (parent n : NodeId) :
    stands (J ++ [.inserted parent n]) n = true := by
  simp [stands, List.filter_append, Mutation.moves]

/-- Among siblings, the next one is there, or none of those that come later is. The last one has none
that come later. -/
def ReturnsInOrder (es : List NodeId) (there : NodeId → Bool) (e : NodeId) : Prop :=
  ∀ before after, es = before ++ e :: after →
    (∃ next ∈ after.head?, there next) ∨ ∀ n ∈ after, there n = false

/-- What has become of siblings under their parent, `J` being the journal since they all stood there. As
long as each that came back found the next one there, or none that comes later, they stand in their old
order; one that did not has gone behind a later one. -/
structure Siblings (es : List NodeId) (parent : NodeId) (J : List Mutation) (d : Document) : Prop where
  there : ∀ e, e ∈ d.elementChildren parent ↔ e ∈ es ∧ stands J e
  absent : ∀ pre e post, J = pre ++ .inserted parent e :: post → e ∈ es → stands pre e = false
  ordered : (∀ pre e post, J = pre ++ .inserted parent e :: post →
    ReturnsInOrder es (stands pre) e) → d.elementChildren parent = es.filter (stands J)
  disordered : ∀ pre e post, J = pre ++ .inserted parent e :: post →
    ¬ReturnsInOrder es (stands pre) e → (∀ m ∈ post, ∀ n ∈ es, m.moves n = false) →
    ∃ before later after, es = before ++ e :: after ∧ later ∈ after ∧
      [later, e].Sublist (d.elementChildren parent)

theorem eq_or_mid {pre post : List Mutation} {x m : Mutation} (h : J ++ [m] = pre ++ x :: post) :
    (post = [] ∧ pre = J ∧ x = m) ∨ ∃ mid, post = mid ++ [m] ∧ J = pre ++ x :: mid := by
  rcases append_eq_mid h with ⟨mid, hJ, hpost⟩ | ⟨mid, rfl, hm⟩
  · exact .inr ⟨mid, hpost, hJ⟩
  · obtain ⟨rfl, hm⟩ | ⟨-, hnil⟩ := List.singleton_eq_append_iff.1 hm
    · obtain ⟨rfl, rfl⟩ := List.cons.inj hm
      exact .inl ⟨rfl, List.append_nil _, rfl⟩
    · cases hnil

namespace Siblings

theorem start (h : d.elementChildren parent = es) : Siblings es parent [] d where
  there e := by
    rw [h]
    exact (and_iff_left rfl).symm
  absent pre e post hj := by simp at hj
  ordered _ := h.trans (List.filter_eq_self.2 fun _ _ => rfl).symm
  disordered pre e post hj := by simp at hj

theorem congr (h : Siblings es parent J d)
    (hd : d'.elementChildren parent = d.elementChildren parent) : Siblings es parent J d' where
  there e := hd ▸ h.there e
  absent := h.absent
  ordered hin := hd ▸ h.ordered hin
  disordered pre e post hj hout hpost := hd ▸ h.disordered pre e post hj hout hpost

theorem other {m : Mutation} (h : Siblings es parent J d) (hm : ∀ n ∈ es, m.moves n = false)
    (hins : ∀ e, m ≠ .inserted parent e) : Siblings es parent (J ++ [m]) d := by
  have hstands (n : NodeId) (hn : n ∈ es) : stands (J ++ [m]) n = stands J n :=
    stands_append_of_not_moves fun _ hm' => List.mem_singleton.1 hm' ▸ hm n hn
  refine ⟨fun e => ?_, fun pre e post hj => ?_, fun hin => ?_, fun pre e post hj hout hpost => ?_⟩
  · rw [h.there]
    exact and_congr_right fun he => by rw [hstands e he]
  · rcases eq_or_mid hj with ⟨-, -, rfl⟩ | ⟨mid, -, hj⟩
    · exact absurd rfl (hins e)
    · exact h.absent pre e mid hj
  · rw [List.filter_congr hstands]
    refine h.ordered fun pre e post hj => hin pre e (post ++ [m]) ?_
    rw [hj, List.append_assoc, List.cons_append]
  · rcases eq_or_mid hj with ⟨-, -, rfl⟩ | ⟨mid, rfl, hmid⟩
    · exact absurd rfl (hins e)
    · exact h.disordered pre e mid hmid hout fun m hm => hpost m (List.mem_append_left _ hm)

theorem texts (h : Siblings es parent J d) (hms : ∀ m ∈ ms, ∃ n, m = .textChanged n) :
    Siblings es parent (J ++ ms) d := by
  induction ms generalizing J with
  | nil => rwa [List.append_nil]
  | cons m ms ih =>
    obtain ⟨n, rfl⟩ := hms _ (List.mem_cons_self ..)
    rw [← List.singleton_append, ← List.append_assoc]
    exact ih (h.other (fun _ _ => rfl) nofun) fun m hm => hms m (List.mem_cons_of_mem _ hm)

theorem removed (h : Siblings es parent J d) (hnodup : (d.elementChildren parent).Nodup)
    (he : e ∈ es) (hd : d'.elementChildren parent = (d.elementChildren parent).erase e) :
    Siblings es parent (J ++ [.removed parent e]) d' := by
  have hstands (n : NodeId) : stands (J ++ [.removed parent e]) n = (stands J n && n != e) := by
    by_cases hn : n = e
    · rw [hn, stands_append_removed, bne_self_eq_false, Bool.and_false]
    · rw [stands_append_of_not_moves, bne_iff_ne.2 hn, Bool.and_true]
      intro m hm
      rw [List.mem_singleton.1 hm]
      exact beq_false_of_ne (Ne.symm hn)
  refine ⟨fun n => ?_, fun pre n post hj => ?_, fun hin => ?_, fun pre n post hj hout hpost => ?_⟩
  · rw [hd, hnodup.mem_erase_iff, h.there, hstands, Bool.and_eq_true, bne_iff_ne]
    exact ⟨fun hn => ⟨hn.2.1, hn.2.2, hn.1⟩, fun hn => ⟨hn.2.2, hn.1, hn.2.1⟩⟩
  · rcases eq_or_mid hj with ⟨-, -, hm⟩ | ⟨mid, -, hj⟩
    · cases hm
    · exact h.absent pre n mid hj
  · have hold : d.elementChildren parent = es.filter (stands J) := by
      refine h.ordered fun pre n post hj => hin pre n (post ++ [.removed parent e]) ?_
      rw [hj, List.append_assoc, List.cons_append]
    rw [hd, hnodup.erase_eq_filter, hold, List.filter_filter]
    exact List.filter_congr fun n _ => by rw [hstands, Bool.and_comm]
  · rcases eq_or_mid hj with ⟨-, -, hm⟩ | ⟨mid, rfl, -⟩
    · cases hm
    · have hmoves := hpost _ (List.mem_append_right _ (List.mem_singleton_self _)) e he
      rw [Mutation.moves, beq_self_eq_true] at hmoves
      cases hmoves

section Inserted

variable {before after : List NodeId} {there : NodeId → Bool}

theorem putBack_filter (hnodup : (before ++ e :: after).Nodup) (he : there e = false)
    (hin : (∃ next ∈ after.head?, there next) ∨ ∀ n ∈ after, there n = false) :
    putBack before.getLast? after.head? e ((before ++ e :: after).filter there) =
      before.filter there ++ e :: after.filter there := by
  obtain ⟨-, -, hapart⟩ := List.nodup_append.1 hnodup
  rw [List.filter_append, List.filter_cons_of_neg (Bool.not_eq_true _ ▸ he)]
  cases after with
  | nil =>
    rw [List.filter_nil, List.append_nil]
    rcases List.eq_nil_or_concat before with rfl | ⟨front, last, rfl⟩
    · rfl
    · rw [List.concat_eq_append, List.getLast?_concat]
      rw [List.concat_eq_append, List.append_assoc] at hnodup
      have hfront := (List.nodup_append.1 hnodup).2.2
      change afterReference e last _ = _
      cases hlast : there last with
      | true =>
        rw [List.filter_append, List.filter_cons_of_pos hlast, List.filter_nil,
          afterReference_append, List.append_assoc]
        · rfl
        · intro hmem
          exact hfront last (List.mem_filter.1 hmem).1 last (List.mem_cons_self ..) rfl
      | false =>
        refine afterReference_of_not_mem fun hmem => ?_
        exact Bool.false_ne_true (hlast.symm.trans (List.mem_filter.1 hmem).2)
  | cons next rest =>
    change beforeReference e next _ = _
    cases hnext : there next with
    | true =>
      rw [List.filter_cons_of_pos hnext, beforeReference_append]
      intro hmem
      exact hapart next (List.mem_filter.1 hmem).1 next
        (List.mem_cons_of_mem _ (List.mem_cons_self ..)) rfl
    | false =>
      have hnone : ∀ n ∈ next :: rest, there n = false := by
        refine hin.resolve_left ?_
        rintro ⟨_, hn, hthere⟩
        cases hn
        exact Bool.false_ne_true (hnext.symm.trans hthere)
      have hnil : (next :: rest).filter there = [] :=
        List.filter_eq_nil_iff.2 fun n hn => Bool.not_eq_true _ ▸ hnone n hn
      rw [hnil, List.append_nil]
      refine beforeReference_of_not_mem fun hmem => ?_
      exact Bool.false_ne_true (hnext.symm.trans (List.mem_filter.1 hmem).2)

theorem inserted (h : Siblings es parent J d) (hes : es = before ++ e :: after) (hnodup : es.Nodup)
    (he : e ∉ d.elementChildren parent) (hd : d'.elementChildren parent =
      putBack before.getLast? after.head? e (d.elementChildren parent)) :
    Siblings es parent (J ++ [.inserted parent e]) d' := by
  have hmem : e ∈ es := hes ▸ List.mem_append_right _ (List.mem_cons_self ..)
  have hbefore : e ∉ before := fun hn =>
    (List.nodup_append.1 (hes ▸ hnodup)).2.2 e hn e (List.mem_cons_self ..) rfl
  have hafter : e ∉ after := (List.nodup_cons.1 (List.nodup_append.1 (hes ▸ hnodup)).2.1).1
  have hgone : stands J e = false := by
    rw [h.there] at he
    cases hs : stands J e with
    | false => rfl
    | true => exact absurd ⟨hmem, hs⟩ he
  have hstands (n : NodeId) : stands (J ++ [.inserted parent e]) n = (stands J n || n == e) := by
    by_cases hn : n = e
    · rw [hn, stands_append_inserted, beq_self_eq_true, Bool.or_true]
    · rw [stands_append_of_not_moves, beq_false_of_ne hn, Bool.or_false]
      intro m hm
      rw [List.mem_singleton.1 hm]
      exact beq_false_of_ne (Ne.symm hn)
  refine ⟨fun n => ?_, fun pre n post hj => ?_, fun hin => ?_, fun pre n post hj hout hpost => ?_⟩
  · rw [hd, (perm_putBack ..).mem_iff, List.mem_cons, h.there, hstands, Bool.or_eq_true, beq_iff_eq]
    constructor
    · rintro (rfl | hn)
      · exact ⟨hmem, .inr rfl⟩
      · exact ⟨hn.1, .inl hn.2⟩
    · rintro ⟨hn, hs | rfl⟩
      · exact .inr ⟨hn, hs⟩
      · exact .inl rfl
  · rcases eq_or_mid hj with ⟨-, rfl, hm⟩ | ⟨mid, -, hj⟩
    · cases hm
      exact fun _ => hgone
    · exact h.absent pre n mid hj
  · have hold : d.elementChildren parent = es.filter (stands J) := by
      refine h.ordered fun pre n post hj => hin pre n (post ++ [.inserted parent e]) ?_
      rw [hj, List.append_assoc, List.cons_append]
    have hlast := hin J e [] rfl before after hes
    rw [hd, hold, hes, putBack_filter (hes ▸ hnodup) hgone hlast, List.filter_append,
      List.filter_cons_of_pos (by rw [hstands, beq_self_eq_true, Bool.or_true])]
    have hothers (ns : List NodeId) (hns : e ∉ ns) :
        ns.filter (stands J) = ns.filter (stands (J ++ [.inserted parent e])) := by
      refine List.filter_congr fun n hn => ?_
      rw [hstands, beq_false_of_ne (ne_of_mem_of_not_mem hn hns), Bool.or_false]
    rw [hothers before hbefore, hothers after hafter]
  · rcases eq_or_mid hj with ⟨rfl, rfl, hm⟩ | ⟨mid, rfl, -⟩
    · cases hm
      rw [ReturnsInOrder] at hout
      push Not at hout
      obtain ⟨before', after', hes', hnext, later, hlater, hthere⟩ := hout
      obtain ⟨rfl, -, rfl⟩ :=
        (List.append_cons_inj_of_notMem hbefore hafter).1 (hes.symm.trans hes')
      refine ⟨before, later, after, hes, hlater, ?_⟩
      have hin : later ∈ d.elementChildren parent := by
        refine (h.there later).2 ⟨?_, by simpa using hthere⟩
        exact hes ▸ List.mem_append_right _ (List.mem_cons_of_mem _ hlater)
      cases after with
      | nil => cases hlater
      | cons next rest =>
        have hnot : next ∉ d.elementChildren parent := fun hmem =>
          hnext next rfl ((h.there next).1 hmem).2
        have hend : d'.elementChildren parent = d.elementChildren parent ++ [e] :=
          hd.trans (beforeReference_of_not_mem hnot)
        rw [hend]
        exact (List.singleton_sublist.2 hin).append (List.Sublist.refl [e])
    · have hmoves := hpost _ (List.mem_append_right _ (List.mem_singleton_self _)) e hmem
      rw [Mutation.moves, beq_self_eq_true] at hmoves
      cases hmoves

end Inserted

theorem ordered_of_one_absent (h : Siblings es parent J d)
    (hone : ∀ pre, pre <+: J → (es.filter fun n => !stands pre n).length ≤ 1) :
    d.elementChildren parent = es.filter (stands J) := by
  refine h.ordered fun pre e post hj before after hes => ?_
  cases after with
  | nil => exact .inr nofun
  | cons next rest =>
    have habsent : stands pre e = false :=
      h.absent pre e post hj (hes ▸ List.mem_append_right _ (List.mem_cons_self ..))
    refine .inl ⟨next, rfl, ?_⟩
    by_contra hnext
    have hnext : stands pre next = false := Bool.not_eq_true _ ▸ hnext
    have htwo : [e, next].Sublist (before ++ e :: next :: rest) :=
      ((List.nil_sublist rest).cons_cons next |>.cons_cons e).trans (List.sublist_append_right ..)
    have hlen := (htwo.filter fun n => !stands pre n).length_le
    have htwo : [e, next].filter (fun n => !stands pre n) = [e, next] := by
      simp [habsent, hnext]
    rw [htwo, ← hes] at hlen
    exact Nat.not_succ_le_self 1 (Nat.le_trans hlen (hone pre (hj ▸ List.prefix_append ..)))

end Siblings

end LiveMarkup.Document
