import LiveMarkup.Proofs.Component.AmongOthers
import LiveMarkup.Proofs.Reactive.Signals

/-!
Two components that share a page and have nothing in common. Whatever is sent to the store, each shows in
its own part of the page what it shows where it was mounted alone.
-/

namespace LiveMarkup

open LiveMarkup.Expression

variable {σ : Type}

namespace Party

variable {x y : Party σ} {p p' q w w' : World σ}

structure Apart (x y : Party σ) : Prop where
  base : y.base = x.base
  nodes : ∀ n ∈ x.image.nodes, n ∉ y.image.nodes
  cells : ∀ g ∈ x.image.cells, g ∉ y.image.cells

theorem Apart.symm (h : x.Apart y) : y.Apart x :=
  ⟨h.base.symm, fun n hn hn' => h.nodes n hn' hn, fun g hg hg' => h.cells g hg' hg⟩

theorem Apart.lives (h : x.Apart y) (hx : x.Lives p w) (hy : w.ChangesIn y.image w') :
    x.Lives p w' := hx.other hy h.nodes h.cells

theorem Lives.stored (h : x.Lives p w) (hd : w'.document = w.document)
    (hp : w'.presences = w.presences) : ∃ p', x.Lives p' w' :=
  ⟨{ p with store := w'.store }, h.of_shown rfl rfl hd hp rfl⟩

/-- Who observes where the first party is alone, and where the other one is there too. -/
inductive Hears (x y : Party σ) : List (Observer σ) → List (Observer σ) → Prop
  | nil : Hears x y [] []
  | script {o : Observer σ} {os os' : List (Observer σ)} (ho : o.Impartial) (h : Hears x y os os') :
    Hears x y (o :: os) (o :: os')
  | own {d : Directive} {os os' : List (Observer σ)} (hd : d ∈ x.directives) (h : Hears x y os os') :
    Hears x y (x.observer d :: os) (x.observer (d.rename x.shift) :: os')
  | other {d : Directive} {os os' : List (Observer σ)} (hd : d ∈ y.directives)
    (h : Hears x y os os') : Hears x y os (y.observer (d.rename y.shift) :: os')

namespace Hears

variable {os l l' : List (Observer σ)}

theorem scripts (hos : ∀ o ∈ os, o.Impartial) (h : Hears x y l l') :
    Hears x y (os ++ l) (os ++ l') := by
  induction os with
  | nil => exact h
  | cons o os ih =>
    exact .script (hos o (List.mem_cons_self ..)) (ih fun o ho => hos o (List.mem_cons_of_mem _ ho))

theorem owns {ds : List Directive} (hds : ∀ d ∈ ds, d ∈ x.directives) (h : Hears x y l l') :
    Hears x y (ds.map x.observer ++ l) (ds.map (fun d => x.observer (d.rename x.shift)) ++ l') := by
  induction ds with
  | nil => exact h
  | cons d ds ih =>
    exact .own (hds d (List.mem_cons_self ..)) (ih fun d hd => hds d (List.mem_cons_of_mem _ hd))

theorem others {ds : List Directive} (hds : ∀ d ∈ ds, d ∈ y.directives) (h : Hears x y l l') :
    Hears x y l (ds.map (fun d => y.observer (d.rename y.shift)) ++ l') := by
  induction ds with
  | nil => exact h
  | cons d ds ih =>
    exact .other (hds d (List.mem_cons_self ..)) (ih fun d hd => hds d (List.mem_cons_of_mem _ hd))

theorem first (hos : ∀ o ∈ os, o.Impartial) :
    Hears x y (os ++ x.alone) (os ++ (x.together ++ y.together)) := by
  have h := owns (y := y) (fun _ => id) (others (x := x) (fun _ => id) .nil)
  rw [List.append_nil, List.append_nil] at h
  exact scripts hos h

theorem second (hos : ∀ o ∈ os, o.Impartial) :
    Hears x y (os ++ x.alone) (os ++ (y.together ++ x.together)) := by
  have h := others (x := x) (y := y) (fun _ => id) (owns (fun _ => id) .nil)
  rw [List.append_nil, List.append_nil] at h
  exact scripts hos h

end Hears

structure Beside (x y : Party σ) (p w : World σ) : Prop where
  lives : x.Lives p w
  other : ∃ q, y.Lives q w
  hears : Hears x y (p.store.observers.map Prod.snd) (w.store.observers.map Prod.snd)

theorem Beside.of_advances (hxy : x.Apart y) (h : x.Beside y p w) (ha : x.Advances p w p' w') :
    x.Beside y p' w' := by
  obtain ⟨q, hy⟩ := h.other
  refine ⟨ha.lives, ⟨q, hxy.symm.lives hy ha.changes⟩, ?_⟩
  rw [ha.left, ha.right]
  exact h.hears

theorem bearing_beside (x y : Party σ) : Bearing (x.Beside y) where
  fields h := h.lives.tied.fields
  put {p w} field value h := by
    have hfields : w.store.fields = p.store.fields := h.lives.tied.fields
    obtain ⟨q, hy⟩ := h.other
    exact ⟨h.lives.of_shown rfl rfl rfl rfl (congrArg (Table.insert field value) hfields),
      hy.stored rfl rfl, h.hears⟩
  left memory h := ⟨h.lives.of_shown rfl rfl rfl rfl h.lives.tied.fields, h.other, h.hears⟩
  right memory h := by
    obtain ⟨q, hy⟩ := h.other
    exact ⟨h.lives.of_shown rfl rfl rfl rfl h.lives.tied.fields, hy.stored rfl rfl, h.hears⟩

section Deliver

variable (hxy : x.Apart y) (depth : Nat)

include hxy

theorem Beside.receive_own (h : x.Beside y p w) {d : Directive} (hd : d ∈ x.directives) (e : Event) :
    Act.Abreast (x.Beside y) (Run.receive (Run.broadcast depth) e (x.observer d))
      (Run.receive (Run.broadcast depth) e (x.observer (d.rename x.shift))) p w := by
  obtain ⟨r, p', w', hp, hw, hadvances⟩ := h.lives.receive depth hd e
  exact .of_ends hp hw (h.of_advances hxy hadvances)

theorem Beside.receive_other (h : x.Beside y p w) {d : Directive} (hd : d ∈ y.directives) (e : Event) :
    ∃ r w', Act.Ends (Run.receive (Run.broadcast depth) e (y.observer (d.rename y.shift))) w r w' ∧
      x.Beside y p w' := by
  obtain ⟨q, hy⟩ := h.other
  obtain ⟨r, q', w', -, hw, hadvances⟩ := hy.receive depth hd e
  refine ⟨r, w', hw, hxy.lives h.lives hadvances.changes, ⟨q', hadvances.lives⟩, ?_⟩
  rw [hadvances.right]
  exact h.hears

theorem Beside.deliver (hemit : ∀ e {p w}, x.Beside y p w →
      Act.Abreast (x.Beside y) (Run.broadcast depth e) (Run.broadcast depth e) p w) (e : Event)
    {os os' : List (Observer σ)} (hears : Hears x y os os') {ps ws : List (Nat × Observer σ)}
    (hps : ps.map Prod.snd = os) (hws : ws.map Prod.snd = os') (h : x.Beside y p w) :
    Act.Abreast (x.Beside y) (Run.deliver (Run.broadcast depth) e ps)
      (Run.deliver (Run.broadcast depth) e ws) p w := by
  induction hears generalizing p w ps ws with
  | nil =>
    rw [List.map_eq_nil_iff] at hps hws
    subst hps hws
    exact .of_ends (Act.ends_pure.2 ⟨rfl, rfl⟩) (Act.ends_pure.2 ⟨rfl, rfl⟩) h
  | script ho hears ih =>
    obtain ⟨o, ps, rfl, rfl, hrest⟩ := List.map_eq_cons_iff.1 hps
    obtain ⟨o', ws, rfl, ho', hrest'⟩ := List.map_eq_cons_iff.1 hws
    refine Run.abreast_deliver_cons ?_ fun h => ih hrest hrest' h
    rw [ho']
    exact (bearing_beside x y).receive hemit ho h e
  | own hd hears ih =>
    obtain ⟨o, ps, rfl, ho, hrest⟩ := List.map_eq_cons_iff.1 hps
    obtain ⟨o', ws, rfl, ho', hrest'⟩ := List.map_eq_cons_iff.1 hws
    refine Run.abreast_deliver_cons ?_ fun h => ih hrest hrest' h
    rw [ho, ho']
    exact h.receive_own hxy depth hd e
  | other hd hears ih =>
    obtain ⟨o', ws, rfl, ho', hrest'⟩ := List.map_eq_cons_iff.1 hws
    obtain ⟨r, w₁, hr, h₁⟩ := h.receive_other hxy depth hd e
    rw [← ho'] at hr
    exact Run.abreast_deliver_other hr (ih hps hrest' h₁)

end Deliver

theorem Apart.abreast_broadcast (hxy : x.Apart y) (depth : Nat) (e : Event) (h : x.Beside y p w) :
    Act.Abreast (x.Beside y) (Run.broadcast depth e) (Run.broadcast depth e) p w := by
  induction depth generalizing e p w with
  | zero =>
    have hnone (w : World σ) (r : Except EvalError Unit) (w' : World σ) :
        ¬Act.Ends (Run.broadcast 0 e) w r w' := by
      intro h
      obtain ⟨_, -, h⟩ := Act.ends_ofRun.1 h
      cases h
    exact Run.Abreast.of_endless (hnone p) (hnone w)
  | succ depth ih =>
    refine .left (Run.ends_get.2 ⟨rfl, rfl⟩) (.right (Run.ends_get.2 ⟨rfl, rfl⟩) ?_)
    exact h.deliver hxy depth (fun e {p w} h => ih e h) e h.hears rfl rfl

theorem Apart.abreast_sendAll (hxy : x.Apart y) (depth : Nat) (ss : List Signal)
    (h : x.Beside y p w) : Run.Abreast (x.Beside y) (Signal.sendAll (Run.broadcast depth) ss)
      (Signal.sendAll (Run.broadcast depth) ss) p w :=
  Signal.abreast_sendAll (bearing_beside x y) (fun e {_ _} h => hxy.abreast_broadcast depth e h) h ss

section Order

/-- The first party is alone in `p` and the second in `q`, and in `w` both are there. The rest of the page is
as it was. -/
structure Share (x y : Party σ) (p q w : World σ) : Prop where
  left : x.Lives p w
  right : y.Lives q w
  changes : x.base.ChangesIn (x.image.nodes ∪ y.image.nodes) w.document

variable {v : World σ} {k l : Shift} {hk : k.first.node = x.base.nodes.size}
  {hl : l.first.node = y.base.nodes.size}

/-- Where a node of the page stands when the parties were mounted the other way round. -/
inductive Counterpart (x y : Party σ) (k l : Shift) : NodeId → NodeId → Prop
  | outside {n : NodeId} (hlt : n < x.base.nodes.size) (hx : n ∉ x.territory.nodes)
    (hy : n ∉ y.territory.nodes) : Counterpart x y k l n n
  | first {n : NodeId} (hn : n ∈ x.territory.nodes) :
    Counterpart x y k l (x.shift.node n) (k.node n)
  | second {n : NodeId} (hn : n ∈ y.territory.nodes) :
    Counterpart x y k l (y.shift.node n) (l.node n)

theorem counterpart_self (hk : k.first.node = x.base.nodes.size)
    (hl : l.first.node = y.base.nodes.size) (hbase : y.base = x.base) {n : NodeId}
    (hlt : n < x.base.nodes.size) :
    Counterpart x y k l n n := by
  by_cases hx : n ∈ x.territory.nodes
  · have h := Counterpart.first (y := y) (k := k) (l := l) hx
    rwa [x.node_old hlt, Shift.node_old (hk ▸ hlt)] at h
  · by_cases hy : n ∈ y.territory.nodes
    · have hlt' : n < y.base.nodes.size := hbase ▸ hlt
      have h := Counterpart.second (x := x) (k := k) (l := l) hy
      rwa [y.node_old hlt', Shift.node_old (hl ▸ hlt')] at h
    · exact .outside hlt hx hy

theorem counterparts_correspond (hbase : y.base = x.base) (h : x.Share y p q w)
    (h' : (y.named l hl).Share (x.named k hk) q p v) :
    Document.Corresponds (Counterpart x y k l) w.document v.document := by
  have hmoved {f g : NodeId → NodeId} {S : Set NodeId} {d e e' : Document}
      (hf : d.Tied f S e) (hg : d.Tied g S e')
      (hR : ∀ n ∈ S, Counterpart x y k l (f n) (g n)) {n : NodeId} (hn : n ∈ S) :
      (e.node (f n)).bare = (e'.node (g n)).bare ∧
        List.Forall₂ (Counterpart x y k l) (e.node (f n)).children (e'.node (g n)).children := by
    rw [hf.image.node n hn, hg.image.node n hn]
    refine ⟨rfl, List.forall₂_map_left_iff.2 (List.forall₂_map_right_iff.2 ?_)⟩
    exact List.forall₂_same.2 fun m hm => hR m (hf.closed n hn m hm)
  intro n m hnm
  cases hnm with
  | outside hlt hx hy =>
    have hlt' : n < y.base.nodes.size := hbase ▸ hlt
    have hw : w.document.node n = x.base.node n := by
      refine h.changes.node n fun hmem => hmem.elim ?_ ?_
      · exact x.not_mem_image hlt hx
      · exact y.not_mem_image hlt' hy
    have hv : v.document.node n = x.base.node n := by
      rw [← hbase]
      refine h'.changes.node n fun hmem => hmem.elim ?_ ?_
      · exact (y.named l hl).not_mem_image hlt' hy
      · exact (x.named k hk).not_mem_image hlt hx
    rw [hw, hv]
    refine ⟨rfl, List.forall₂_same.2 fun m hm => ?_⟩
    exact counterpart_self hk hl hbase (x.consistent.child_lt hm)
  | first hn =>
    exact hmoved h.left.tied.document h'.right.tied.document (fun _ => .first) hn
  | second hn =>
    exact hmoved h.right.tied.document h'.left.tied.document (fun _ => .second) hn

theorem Share.toHtml_eq (hbase : y.base = x.base) (h : x.Share y p q w)
    (h' : (y.named l hl).Share (x.named k hk) q p v)
    (hsize : w.document.nodes.size = v.document.nodes.size) :
    w.document.toHtml = v.document.toHtml := by
  refine (counterparts_correspond hbase h h').innerHtml hsize ?_
  exact counterpart_self hk hl hbase (Nat.zero_lt_of_lt x.bound)

end Order

end Party

end LiveMarkup
