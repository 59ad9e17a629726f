import LiveMarkup.Proofs.Component.Neighbours
import LiveMarkup.Proofs.Component.SignalEffects

/-!
Two parties that meet on a page. Whatever stirs the page, each keeps to what it has; and it makes no
difference which of them was there first.
-/

namespace LiveMarkup

open LiveMarkup.Expression Relation

variable {σ : Type}

namespace Party

open Component

variable {x y : Party σ} {c c' : Component σ} {p p' q q' w w' u : World σ}

theorem Mounted.updates (hc : x.Mounted c) (h : x.Lives p w) (hu : c.Updates w w') :
    (∃ p', x.Lives p' w') ∧ w.ChangesIn x.image w' ∧
      w'.document.nodes.size = w.document.nodes.size := by
  obtain ⟨d', hd', depth, r', hr'⟩ := hu
  rw [hc.directives] at hd'
  obtain ⟨d, hd, rfl⟩ := List.mem_map.1 hd'
  rw [hc.methods] at hr'
  obtain ⟨r, p', w'', -, hr, hadvances⟩ := h.update depth hd
  obtain ⟨-, rfl⟩ := Run.ends_det hr hr'
  exact ⟨⟨p', hadvances.lives⟩, hadvances.changes, hadvances.sizeRight⟩

theorem Mounted.quiet (hc : x.Mounted c) : ∀ d ∈ c.directives, d.Calls c.methods.QuietAt := by
  intro _ hmem
  rw [hc.directives] at hmem
  obtain ⟨d, hd, rfl⟩ := List.mem_map.1 hmem
  rw [hc.methods]
  exact (calls_rename.2 (x.functional d hd)).mono fun _ h => h.quiet

theorem Mounted.serves (hc : x.Mounted c) {cs : List (Component σ)} (hmem : c ∈ cs) :
    ∀ o ∈ x.together, o.Serves cs := by
  intro o ho
  obtain ⟨d, hd, rfl⟩ := List.mem_map.1 ho
  refine ⟨c, hmem, hc.methods, ?_⟩
  rw [hc.directives]
  exact List.mem_map_of_mem hd

theorem heeds_together (x : Party σ) (t : Target) : ∀ o ∈ x.together, o.Heeds t := by
  intro o ho
  obtain ⟨d, hd, rfl⟩ := List.mem_map.1 ho
  exact (calls_rename.2 (x.functional d hd)).mono fun _ h => h.quiet.heeds t

structure Dwell (x y : Party σ) (w w' : World σ) : Prop where
  first : ∃ p, x.Lives p w'
  second : ∃ q, y.Lives q w'
  changes : w.document.ChangesIn (x.image.nodes ∪ y.image.nodes) w'.document
  size : w'.document.nodes.size = w.document.nodes.size

theorem Dwell.stirs (hxy : x.Apart y) (hc : x.Mounted c) (hc' : y.Mounted c') (h : x.Dwell y w w')
    (hs : Stirs [c, c'] w' u) : x.Dwell y w u := by
  obtain ⟨p, hx⟩ := h.first
  obtain ⟨q, hy⟩ := h.second
  rcases hs with ⟨d, hd, hu⟩ | ⟨hd, hp⟩
  · rcases List.mem_pair.1 hd with rfl | rfl
    · obtain ⟨hlives, hchanges, hsize⟩ := hc.updates hx hu
      exact ⟨hlives, ⟨q, hxy.symm.lives hy hchanges⟩,
        h.changes.trans (hchanges.document.mono Set.subset_union_left), hsize.trans h.size⟩
    · obtain ⟨hlives, hchanges, hsize⟩ := hc'.updates hy hu
      exact ⟨⟨p, hxy.lives hx hchanges⟩, hlives,
        h.changes.trans (hchanges.document.mono Set.subset_union_right), hsize.trans h.size⟩
  · refine ⟨hx.stored hd hp, hy.stored hd hp, ?_, ?_⟩
    · rw [hd]
      exact h.changes
    · rw [hd]
      exact h.size

theorem Dwell.of_stirs (hxy : x.Apart y) (hc : x.Mounted c) (hc' : y.Mounted c') (hx : x.Lives p w)
    (hy : y.Lives q w) (hs : ReflTransGen (Stirs [c, c']) w w') : x.Dwell y w w' := by
  induction hs with
  | refl => exact ⟨⟨p, hx⟩, ⟨q, hy⟩, .refl _ _, rfl⟩
  | tail _ hstep ih => exact ih.stirs hxy hc hc' hstep

/-- In `p` the first component is alone, in `q` the second, and in `w` the second is mounted after the
first. -/
structure Meet (x y : Party σ) (c c' : Component σ) (p q w : World σ) : Prop where
  apart : x.Apart y
  mountedFirst : x.Mounted c
  mountedSecond : y.Mounted c'
  first : x.Beside y p w
  second : y.Beside x q w
  changes : x.base.ChangesIn (x.image.nodes ∪ y.image.nodes) w.document
  size : w.document.nodes.size + x.base.nodes.size = p.document.nodes.size + q.document.nodes.size
  served : Served [c, c'] w

namespace Meet

variable {depth : Nat} {ss : List Signal}

theorem stirs (h : x.Meet y c c' p q w)
    (hw : Run.Ends (Signal.sendAll (Run.broadcast depth) ss) w () w') :
    ReflTransGen (Stirs [c, c']) w w' := by
  refine stirs_sendAll (fun d hd => ?_) h.served hw
  rcases List.mem_pair.1 hd with rfl | rfl
  · exact h.mountedFirst.quiet
  · exact h.mountedSecond.quiet

theorem dwell (h : x.Meet y c c' p q w) (hs : ReflTransGen (Stirs [c, c']) w w') : x.Dwell y w w' :=
  .of_stirs h.apart h.mountedFirst h.mountedSecond h.first.lives h.second.lives hs

theorem ends_iff (h : x.Meet y c c' p q w) (depth : Nat) (ss : List Signal) :
    ((∃ r p', Run.Ends (Signal.sendAll (Run.broadcast depth) ss) p r p') ↔
      ∃ r w', Run.Ends (Signal.sendAll (Run.broadcast depth) ss) w r w') ∧
    ((∃ r q', Run.Ends (Signal.sendAll (Run.broadcast depth) ss) q r q') ↔
      ∃ r w', Run.Ends (Signal.sendAll (Run.broadcast depth) ss) w r w') :=
  ⟨(h.apart.abreast_sendAll depth ss h.first).ends_iff,
    (h.apart.symm.abreast_sendAll depth ss h.second).ends_iff⟩

theorem share (h : x.Meet y c c' p q w)
    (hp : Run.Ends (Signal.sendAll (Run.broadcast depth) ss) p () p')
    (hq : Run.Ends (Signal.sendAll (Run.broadcast depth) ss) q () q')
    (hw : Run.Ends (Signal.sendAll (Run.broadcast depth) ss) w () w') : x.Share y p' q' w' := by
  obtain ⟨_, _, hp', hfirst⟩ := (h.apart.abreast_sendAll depth ss h.first).back hw
  obtain ⟨_, _, hq', hsecond⟩ := (h.apart.symm.abreast_sendAll depth ss h.second).back hw
  obtain ⟨-, rfl⟩ := Run.ends_det hp hp'
  obtain ⟨-, rfl⟩ := Run.ends_det hq hq'
  exact ⟨hfirst.lives, hsecond.lives, h.changes.trans (h.dwell (h.stirs hw)).changes⟩

section Order

variable {d d' : Component σ} {v v' : World σ} {k l : Shift} {hk : k.first.node = x.base.nodes.size}
  {hl : l.first.node = y.base.nodes.size} (h : x.Meet y c c' p q w)
  (h' : (y.named l hl).Meet (x.named k hk) d d' q p v)

include h h'

theorem exists_ends {u' : World σ} (hu : u ∈ [p, q, w, v])
    (hends : Run.Ends (Signal.sendAll (Run.broadcast depth) ss) u () u') :
    ∃ p' q' w' v', Run.Ends (Signal.sendAll (Run.broadcast depth) ss) p () p' ∧
      Run.Ends (Signal.sendAll (Run.broadcast depth) ss) q () q' ∧
      Run.Ends (Signal.sendAll (Run.broadcast depth) ss) w () w' ∧
      Run.Ends (Signal.sendAll (Run.broadcast depth) ss) v () v' := by
  obtain ⟨hfirst, hsecond⟩ := h.ends_iff depth ss
  obtain ⟨hother, -⟩ := h'.ends_iff depth ss
  have hw : ∃ r w', Run.Ends (Signal.sendAll (Run.broadcast depth) ss) w r w' := by
    simp only [List.mem_cons, List.not_mem_nil, or_false] at hu
    rcases hu with rfl | rfl | rfl | rfl
    · exact hfirst.1 ⟨_, u', hends⟩
    · exact hsecond.1 ⟨_, u', hends⟩
    · exact ⟨_, u', hends⟩
    · exact hsecond.1 (hother.2 ⟨_, u', hends⟩)
  obtain ⟨⟨⟩, p', hp⟩ := hfirst.2 hw
  obtain ⟨⟨⟩, q', hq⟩ := hsecond.2 hw
  obtain ⟨⟨⟩, v', hv⟩ := hother.1 ⟨_, q', hq⟩
  obtain ⟨⟨⟩, w', hw⟩ := hw
  exact ⟨p', q', w', v', hp, hq, hw, hv⟩

variable (hp : Run.Ends (Signal.sendAll (Run.broadcast depth) ss) p () p')
  (hq : Run.Ends (Signal.sendAll (Run.broadcast depth) ss) q () q')
  (hw : Run.Ends (Signal.sendAll (Run.broadcast depth) ss) w () w')
  (hv : Run.Ends (Signal.sendAll (Run.broadcast depth) ss) v () v')

include hp hq hw hv

theorem toHtml_eq : w'.document.toHtml = v'.document.toHtml := by
  refine (h.share hp hq hw).toHtml_eq h.apart.base (h'.share hq hp hv) ?_
  have hsize := h.size
  have hsize' := h'.size
  simp only [named, h.apart.base] at hsize'
  rw [(h.dwell (h.stirs hw)).size, (h'.dwell (h'.stirs hv)).size]
  omega

theorem outerHtml_eq : ∀ z, z = w' ∨ z = v' →
    z.document.outerHtml x.top = p'.document.outerHtml x.top ∧
      z.document.outerHtml y.top = q'.document.outerHtml y.top := by
  have hbase := h.apart.base
  have hshare := h.share hp hq hw
  have hshare' := h'.share hq hp hv
  rintro z (rfl | rfl)
  · exact ⟨hshare.left.outerHtml hshare.changes.size,
      hshare.right.outerHtml (hbase ▸ hshare.changes.size)⟩
  · exact ⟨hshare'.right.outerHtml (hbase ▸ hshare'.changes.size),
      hshare'.left.outerHtml hshare'.changes.size⟩

end Order

end Meet

end Party

end LiveMarkup
