import LiveMarkup.Proofs.Component.Calls
import LiveMarkup.Proofs.Reactive.Quiet

/-!
Tracking cannot be observed: where the directives of one component are all that observe, its methods set no
field, and those that its predicates call announce nothing either, a directive that is not told of a field
would have done nothing. Two sessions, one with tracked directives and one without, go the same way; notes
taken of every call show it of calls.
-/

namespace LiveMarkup

open LiveMarkup.Expression

variable {σ α β : Type}

def Observer.untracked : Observer σ → Observer σ
  | .script body => .script body
  | .directive methods _ d => .directive methods false d

def Store.untracked (s : Store σ) : Store σ :=
  { s with observers := s.observers.map fun o => (o.1, o.2.untracked) }

namespace World

def untracked (w : World σ) : World σ := { w with store := w.store.untracked }

theorem untracked_refreshed (w : World σ) (i : Interpolation) :
    (w.refreshed i).untracked = w.untracked.refreshed i := by
  have hg : w.untracked.isGated i = w.isGated i := rfl
  unfold refreshed
  rw [hg]
  split <;> rfl

theorem untracked_refreshAll (w : World σ) (is : List Interpolation) :
    (is.foldl refreshed w).untracked = is.foldl refreshed w.untracked := by
  induction is generalizing w with
  | nil => rfl
  | cons i is ih => rw [List.foldl_cons, List.foldl_cons, ih, untracked_refreshed]

theorem untracked_settled (w : World σ) (c : Conditional) (visible : Bool) :
    (w.settled c visible).untracked = w.untracked.settled c visible := by
  have hp : w.untracked.presence c.cell = w.presence c.cell := rfl
  cases visible <;> cases h : w.presence c.cell <;> simp only [settled, h, hp]
  · rfl
  · have hr := untracked_refreshAll (w.setPresence c.cell .attached) c.inside
    have hset : (w.setPresence c.cell .attached).untracked =
        w.untracked.setPresence c.cell .attached := rfl
    rw [restored, restored, ← hset, ← hr]
    rfl

end World

namespace Act

/-- Tracked and not tracked, both acts end, in the same way and in worlds of which `Q` holds. -/
def Twin (a b : Act σ α) (w : World σ) (Q : World σ → Prop) : Prop :=
  ∃ r w', Ends a w r w' ∧ Ends b w.untracked r w'.untracked ∧ Q w'

variable {a b : Act σ α} {w : World σ} {Q Q' : World σ → Prop}

theorem Twin.mono (h : Twin a b w Q) (hQ : ∀ w', Q w' → Q' w') : Twin a b w Q' := by
  obtain ⟨r, w', ha, hb, hq⟩ := h
  exact ⟨r, w', ha, hb, hQ w' hq⟩

theorem twin_pure (x : α) (hQ : Q w) : Twin (pure x) (pure x) w Q :=
  ⟨.ok x, w, ends_pure.2 ⟨rfl, rfl⟩, ends_pure.2 ⟨rfl, rfl⟩, hQ⟩

theorem Twin.bind {f g : α → Act σ β} (h : Twin a b w Q)
    (hfg : ∀ x w₁, Q w₁ → Twin (f x) (g x) w₁ Q) : Twin (a >>= f) (b >>= g) w Q := by
  obtain ⟨e | x, w₁, ha, hb, hq⟩ := h
  · exact ⟨.error e, w₁, ends_bind.2 (.inl ⟨e, ha, rfl⟩), ends_bind.2 (.inl ⟨e, hb, rfl⟩), hq⟩
  · obtain ⟨r, w', hf, hg, hq'⟩ := hfg x w₁ hq
    exact ⟨r, w', ends_bind.2 (.inr ⟨x, w₁, ha, hf⟩), ends_bind.2 (.inr ⟨x, _, hb, hg⟩), hq'⟩

theorem Consults.twin {a : Act σ α} (h : Consults a) (w : World σ)
    (hQ : ∀ memory, Q { w with memory := memory }) : Twin a a w Q := by
  obtain ⟨q, hq⟩ := h
  exact ⟨_, _, (hq w _ _).2 ⟨rfl, rfl⟩, (hq w.untracked _ _).2 ⟨rfl, rfl⟩, hQ _⟩

end Act

theorem Run.twin_update (emit : Emit σ) {methods : Methods σ} {d : Directive}
    (hd : d.Calls methods.QuietAt) (w : World σ) :
    Act.Twin (update emit methods d) (update emit methods d) w fun w' => w'.store = w.store := by
  cases d with
  | interpolation i =>
    refine ⟨.ok (), w.refreshed i, ?_, ?_, (w.reshapes_refreshed i).store⟩
    · exact Act.ends_ofRun.2 ⟨(), rfl, ends_refreshUngated.2 rfl⟩
    · exact Act.ends_ofRun.2 ⟨(), rfl, ends_refreshUngated.2 (w.untracked_refreshed i)⟩
  | conditional c =>
    refine ((consults_evaluate emit hd).twin w fun _ => rfl).bind fun v w₁ hw₁ => ?_
    have hr := w₁.reshapes_settled c v.truthy
    refine ⟨.ok (), w₁.settled c v.truthy, ?_, ?_, hr.store.trans hw₁⟩
    · exact Act.ends_ofRun.2 ⟨(), rfl, ends_settle.2 rfl⟩
    · exact Act.ends_ofRun.2 ⟨(), rfl, ends_settle.2 (w₁.untracked_settled c v.truthy)⟩

theorem Run.update_in_step {emit : Emit σ} {methods : Methods σ} {ds : List Directive}
    {d : Directive} {field : String} {w : World σ} (hds : Separate ds) (hd : d ∈ ds)
    (hv : d.Valid) (hdep : d.dependsOn field = false) (hs : w.InStep methods d) :
    Act.Ends (update emit methods d) w (.ok ()) w := by
  cases d with
  | interpolation i =>
    refine Act.ends_ofRun.2 ⟨(), rfl, ends_refreshUngated.2 ?_⟩
    unfold World.refreshed
    split
    · rfl
    · next hg =>
      have hdata := hs (Bool.eq_false_iff.2 hg)
      rw [World.edit, Document.setText_of_data hdata]
  | conditional c =>
    obtain ⟨ns, hc⟩ := hds.compiled hd
    simp only [Directive.dependsOn, Directive.reads, hc] at hdep
    simp only [Directive.Valid, hc] at hv
    have hfree := Compiled.callFree_of_not_includes hdep
    have hev (emit : Emit σ) : ∃ v, Act.Ends (c.predicate.evaluate (scope emit methods)) w
        (.ok v) w := hc ▸ hfree.ends emit methods hv w
    obtain ⟨v, h⟩ := hev emit
    obtain ⟨v', h'⟩ := hev (broadcast 0)
    have hvv : v = v' := by
      rw [hc] at h h'
      exact Compiled.value_of_not_includes hdep (fun _ _ => rfl) h h'
    have hro : c.predicate.ReadOnly methods := hc ▸ hfree.readOnly methods
    have hp := hs hro 0 w v' w rfl h'
    refine Act.ends_bind.2 (.inr ⟨v, w, h, Act.ends_ofRun.2 ⟨(), rfl, ends_settle.2 ?_⟩⟩)
    rw [hvv]
    exact (World.settled_of_presence hp).symm

namespace Setting

variable {k : Setting σ} {w w' : World σ}

def Alone (k : Setting σ) (w : World σ) : Prop :=
  ∀ o ∈ w.store.observers, ∃ d ∈ k.directives, o.2 = .directive k.methods true d

structure Sparing (k : Setting σ) : Prop where
  apt : k.Apt
  keeps : ∀ memory id, ¬k.keeps memory id
  methods : ∀ name method, k.methods.find? name = some method → ∀ vs, (method vs).Sparing
  predicates : ∀ d ∈ k.directives, d.Calls k.methods.QuietAt
  valid : ∀ d ∈ k.directives, d.Valid

theorem twin_receive (hk : k.Sparing) (emit : Emit σ) (e : Event) {d : Directive}
    (hd : d ∈ k.directives) (h : d.dependsOn e.field = true ∨ w.InStep k.methods d) :
    Act.Twin (Run.receive emit e (.directive k.methods true d))
      (Run.receive emit e (.directive k.methods false d)) w fun w' => w'.store = w.store := by
  cases hdep : d.dependsOn e.field with
  | true =>
    simp only [Run.receive, hdep, Bool.not_true, Bool.and_false, Bool.false_eq_true, if_false]
    exact Run.twin_update emit (hk.predicates d hd) w
  | false =>
    simp only [Run.receive, hdep, Bool.not_false, Bool.and_true, Bool.false_eq_true, if_false,
      if_true]
    have hs : w.InStep k.methods d := h.resolve_left (Bool.eq_false_iff.1 hdep)
    have hs' : w.untracked.InStep k.methods d := by
      cases d with
      | interpolation i => exact hs
      | conditional c => exact hs
    refine ⟨.ok (), w, Act.ends_pure.2 ⟨rfl, rfl⟩, ?_, rfl⟩
    exact Run.update_in_step hk.apt.separate hd (hk.valid d hd) hdep hs'

theorem twin_deliver (hk : k.Sparing) (depth : Nat) {e : Event} {os : List (Nat × Observer σ)}
    (hw : k.Orderly w) (hos : ∀ o ∈ os, ∃ d ∈ k.directives, o.2 = .directive k.methods true d ∧
      w.Directs true d ∧ (d.dependsOn e.field = true ∨ w.InStep k.methods d)) :
    Act.Twin (Run.deliver (Run.broadcast depth) e os)
      (Run.deliver (Run.broadcast depth) e (os.map fun o => (o.1, o.2.untracked))) w
      fun w' => w'.store = w.store := by
  induction os generalizing w with
  | nil => exact Act.twin_pure () rfl
  | cons o os ih =>
    obtain ⟨id, o⟩ := o
    obtain ⟨d, hd, ho, -, hs⟩ := hos _ (List.mem_cons_self ..)
    cases ho
    obtain ⟨x, w₁, hx, hx', hstore⟩ := twin_receive hk (Run.broadcast depth) e hd hs
    have hadmits : k.Admits w (.directive k.methods true d) := ⟨rfl, hd⟩
    obtain ⟨hw₁, -, ht⟩ := receive_outward hk.apt (calm hk.apt depth)
      (o := (id, .directive k.methods true d)) hadmits hx hw
    obtain ⟨y, w', hy, hy', hstore'⟩ := ih hw₁ fun o' ho' => by
      obtain ⟨d', hd', heq, hdir, hs'⟩ := hos o' (List.mem_cons_of_mem _ ho')
      refine ⟨d', hd', heq, ht.directs true d' hdir, hs'.imp_right fun hs' => ?_⟩
      exact ht.inStep true d' hdir (.inr hs')
    exact ⟨_, w', Run.ends_deliver_cons.2 ⟨x, w₁, y, hx, hy, rfl⟩,
      Run.ends_deliver_cons.2 ⟨x, _, y, hx', hy', rfl⟩, hstore'.trans hstore⟩

theorem twin_broadcast (hk : k.Sparing) (depth : Nat) {e : Event} (hw : k.Orderly w)
    (ha : k.Alone w)
    (hs : ∀ d ∈ k.directives, d.dependsOn e.field = true ∨ w.InStep k.methods d) :
    Act.Twin (Run.broadcast (depth + 1) e) (Run.broadcast (depth + 1) e) w
      fun w' => w'.store = w.store := by
  have hdeliver := twin_deliver hk depth hw
    fun o ho => by
      obtain ⟨d, hd, heq⟩ := ha o ho
      exact ⟨d, hd, heq, ⟨o.1, k.methods, heq ▸ ho⟩, hs d hd⟩
  obtain ⟨r, w', h, h', hstore⟩ := hdeliver
  exact ⟨r, w', Act.ends_world_bind.2 h, Act.ends_world_bind.2 h', hstore⟩

structure Rests (k : Setting σ) (w : World σ) : Prop where
  orderly : k.Orderly w
  inStep : k.InStep w
  alone : k.Alone w

theorem Alone.of_store (ha : k.Alone w) {s : Store σ} (hs : s.observers = w.store.observers)
    (h : w'.store = s) : k.Alone w' := by
  rw [Alone, h, hs]
  exact ha

theorem Rests.remember (hk : k.Sparing) (hw : k.Rests w) (memory : σ) :
    k.Rests { w with memory := memory } where
  orderly := hw.orderly.remember fun id hid => (hk.keeps memory id hid).elim
  inStep d hd := by
    obtain ⟨hdirects, hs⟩ := hw.inStep d hd
    exact ⟨hdirects, World.inStep_alike (w.alike_remember memory) hs⟩
  alone := hw.alone

theorem Rests.twin {a b : Act σ α} (hw : k.Rests w)
    (ha : Act.Keeps (k.Outward (k.Tends NoneTold)) a) (h : Act.Twin a b w k.Alone) :
    Act.Twin a b w k.Rests := by
  obtain ⟨r, w', hr, hr', halone⟩ := h
  obtain ⟨ho, -, ht⟩ := ha w r w' hr hw.orderly
  exact ⟨r, w', hr, hr', ho, ht.inStep_all hw.inStep, halone⟩

section Perform

variable {depth : Nat} {c : Component σ} (hk : k.Sparing)

include hk

theorem twin_announce (hw : k.Rests w) (field : String) :
    Act.Twin (Run.announce (Run.broadcast (depth + 1)) field)
      (Run.announce (Run.broadcast (depth + 1)) field) w k.Rests := by
  refine hw.twin ((calm hk.apt (depth + 1)).announce field) ?_
  obtain ⟨r, w', h, h', hstore⟩ := twin_broadcast hk depth hw.orderly hw.alone
    fun d hd => .inr (hw.inStep d hd).2
  exact ⟨r, w', Act.ends_world_bind.2 h, Act.ends_world_bind.2 h', hw.alone.of_store rfl hstore⟩

theorem twin_setField (hw : k.Rests w) (field : String) (value : Value) :
    Act.Twin (Run.setField (Run.broadcast (depth + 1)) field value)
      (Run.setField (Run.broadcast (depth + 1)) field value) w k.Rests := by
  refine hw.twin ((calm hk.apt (depth + 1)).set field value) ?_
  cases hholds : w.store.holds field value with
  | true =>
    have hends (w : World σ) (hh : w.store.holds field value = true) :
        Act.Ends (Run.setField (Run.broadcast (depth + 1)) field value) w (.ok false) w :=
      Run.ends_setField.2 (by rw [if_pos hh]; exact ⟨rfl, rfl⟩)
    exact ⟨.ok false, w, hends w hholds, hends w.untracked hholds, hw.alone⟩
  | false =>
    have hput : Act.Twin (Run.broadcast (depth + 1) ⟨field, value⟩)
        (Run.broadcast (depth + 1) ⟨field, value⟩)
        { w with store := w.store.put field value } k.Alone := by
      refine (twin_broadcast hk depth (hw.orderly.write field value) hw.alone fun d hd => ?_).mono
        fun w' h => hw.alone.of_store (s := w.store.put field value) rfl h
      cases hdep : d.dependsOn field with
      | true => exact .inl rfl
      | false => exact .inr (World.inStep_put hk.apt.separate hd hdep (hw.inStep d hd).2)
    obtain ⟨r, w', h, h', ha⟩ := hput.bind
      fun _ w₁ h₁ => Act.twin_pure true h₁
    refine ⟨r, w', Run.ends_setField.2 ?_, Run.ends_setField.2 ?_, ha⟩
    · rwa [hholds]
    · have hh : w.untracked.store.holds field value = false := hholds
      rwa [hh]

theorem twin_updateAll {ds : List Directive} (hds : ∀ d ∈ ds, d ∈ k.directives) (ha : k.Alone w) :
    Act.Twin (Component.updateAll (Run.broadcast depth) k.methods ds)
      (Component.updateAll (Run.broadcast depth) k.methods ds) w k.Alone := by
  induction ds generalizing w with
  | nil => exact Act.twin_pure () ha
  | cons d ds ih =>
    have hd := hk.predicates d (hds d (List.mem_cons_self ..))
    have hupdate := (Run.twin_update (Run.broadcast depth) hd w).mono
      fun w' hstore => ha.of_store rfl hstore
    exact hupdate.bind fun _ w₁ ha₁ => ih (fun d hd => hds d (List.mem_cons_of_mem _ hd)) ha₁

theorem twin_script {s : Script σ} (hs : s.Sparing) (hw : k.Rests w) :
    Act.Twin (s.run (Run.broadcast (depth + 1))) (s.run (Run.broadcast (depth + 1))) w k.Rests := by
  induction s generalizing w with
  | done result =>
    exact ⟨result, w, Act.ends_ofResult.2 ⟨rfl, rfl⟩, Act.ends_ofResult.2 ⟨rfl, rfl⟩, hw⟩
  | look next ih =>
    obtain ⟨r, w', h, h', hw'⟩ := ih w.store.fields (hs _) hw
    exact ⟨r, w', Act.ends_world_bind.2 h, Act.ends_world_bind.2 h', hw'⟩
  | announce field next ih =>
    obtain ⟨x, w₁, hx, hx', hw₁⟩ := twin_announce hk hw field
    obtain ⟨r, w', h, h', hw'⟩ := ih x (hs.2 x) hw₁
    exact ⟨r, w', Act.ends_attempt_bind.2 ⟨x, w₁, hx, h⟩,
      Act.ends_attempt_bind.2 ⟨x, _, hx', h'⟩, hw'⟩
  | «recall» next ih =>
    obtain ⟨r, w', h, h', hw'⟩ := ih w.memory (hs _) hw
    exact ⟨r, w', Act.ends_world_bind.2 h, Act.ends_world_bind.2 h', hw'⟩
  | remember memory next ih =>
    obtain ⟨r, w', h, h', hw'⟩ := ih hs (hw.remember hk memory)
    exact ⟨r, w', Act.ends_ofRun_bind.2 ⟨(), _, Run.ends_modify.2 rfl, h⟩,
      Act.ends_ofRun_bind.2 ⟨(), _, Run.ends_modify.2 rfl, h'⟩, hw'⟩
  | write field value next ih => cases hs.1
  | subscribe body next ihb ihn => cases hs.1
  | unsubscribe id next ih => cases hs.1

theorem twin_invoke (call : Expression.Call) (hw : k.Rests w) :
    Act.Twin (call.invoke (Run.scope (Run.broadcast (depth + 1)) k.methods))
      (call.invoke (Run.scope (Run.broadcast (depth + 1)) k.methods)) w k.Rests := by
  have harguments := (consults_arguments (Run.broadcast (depth + 1)) k.methods call.arguments).twin w
    fun memory => hw.remember hk memory
  refine harguments.bind fun vs w₁ hw₁ => ?_
  simp only [Run.scope]
  cases hm : k.methods.find? call.name with
  | none => exact ⟨_, w₁, Act.ends_throw.2 ⟨rfl, rfl⟩, Act.ends_throw.2 ⟨rfl, rfl⟩, hw₁⟩
  | some method => exact twin_script hk (hk.methods _ _ hm vs) hw₁

theorem twin_perform (hm : c.methods = k.methods) (hd : c.directives = k.directives)
    (call : Component.Call) (hw : k.Rests w) :
    Act.Twin (c.perform (Run.broadcast (depth + 1)) call)
      (c.perform (Run.broadcast (depth + 1)) call) w k.Rests := by
  cases call with
  | set field value =>
    exact (twin_setField hk hw field value).bind fun x w₁ h₁ => Act.twin_pure _ h₁
  | notify field => exact (twin_announce hk hw field).bind fun _ w₁ h₁ => Act.twin_pure _ h₁
  | dispatch text =>
    simp only [Component.perform, Component.dispatch, hm]
    refine Act.Twin.bind (Act.Twin.bind ?_ fun call w₁ h₁ => twin_invoke hk call h₁)
      fun v w₁ h₁ => Act.twin_pure _ h₁
    exact ⟨_, w, Act.ends_ofResult.2 ⟨rfl, rfl⟩, Act.ends_ofResult.2 ⟨rfl, rfl⟩, hw⟩
  | click element =>
    simp only [Component.perform, Component.click, hm]
    split
    · exact Act.twin_pure _ hw
    · next call _ =>
      exact (twin_invoke hk call hw).bind fun v w₁ h₁ => Act.twin_pure _ h₁
  | render =>
    refine hw.twin (perform_outward hk.apt hm hd .render) ?_
    simp only [Component.perform, Component.render, hm, hd]
    exact (twin_updateAll hk (fun _ => id) hw.alone).bind fun _ w₁ h₁ => Act.twin_pure _ h₁

theorem twin_performAll (depth : Nat) (hm : c.methods = k.methods) (hd : c.directives = k.directives)
    (calls : List Component.Call) (hw : k.Rests w) :
    ∃ rs w', Run.Ends (c.performAll (Run.broadcast (depth + 1)) calls) w rs w' ∧
      Run.Ends (c.performAll (Run.broadcast (depth + 1)) calls) w.untracked rs w'.untracked := by
  induction calls generalizing w with
  | nil => exact ⟨[], w, Run.ends_pure.2 ⟨rfl, rfl⟩, Run.ends_pure.2 ⟨rfl, rfl⟩⟩
  | cons call calls ih =>
    obtain ⟨r, w₁, hr, hr', hw₁⟩ := twin_perform hk hm hd call hw
    obtain ⟨rs, w', hrs, hrs'⟩ := ih hw₁
    refine ⟨r :: rs, w', ?_, ?_⟩
    · exact Run.ends_bind.2 ⟨r, w₁, hr, Run.ends_bind.2 ⟨rs, w', hrs, Run.ends_pure.2 ⟨rfl, rfl⟩⟩⟩
    · exact Run.ends_bind.2 ⟨r, _, hr', Run.ends_bind.2 ⟨rs, _, hrs', Run.ends_pure.2 ⟨rfl, rfl⟩⟩⟩

end Perform

end Setting

namespace Component

variable {methods : Methods σ}

theorem twin_activate (emit : Emit σ) {ds : List Directive}
    (hds : ∀ d ∈ ds, d.Calls methods.QuietAt) (w : World σ) :
    ∃ ids r w', Run.Ends (activate emit methods true ds) w (ids, r) w' ∧
      Run.Ends (activate emit methods false ds) w.untracked (ids, r) w'.untracked ∧
      ∀ o ∈ w'.store.observers, o ∈ w.store.observers ∨
        ∃ d ∈ ds, o.2 = .directive methods true d := by
  induction ds generalizing w with
  | nil =>
    exact ⟨[], .ok (), w, Run.ends_pure.2 ⟨rfl, rfl⟩, Run.ends_pure.2 ⟨rfl, rfl⟩,
      fun _ => .inl⟩
  | cons d ds ih =>
    obtain ⟨r, w₁, hr, hr', hstore⟩ :=
      Run.twin_update emit (hds d (List.mem_cons_self ..)) w
    cases r with
    | error e =>
      refine ⟨[], .error e, w₁, ?_, ?_, fun o ho => .inl (hstore ▸ ho)⟩
      · exact Run.ends_bind.2 ⟨_, w₁, hr, Run.ends_pure.2 ⟨rfl, rfl⟩⟩
      · exact Run.ends_bind.2 ⟨_, _, hr', Run.ends_pure.2 ⟨rfl, rfl⟩⟩
    | ok u =>
      obtain ⟨ids, r, w', hrest, hrest', hobs⟩ :=
        ih (fun d hd => hds d (List.mem_cons_of_mem _ hd))
          { w₁ with store := w₁.store.subscribe (.directive methods true d) }
      have hsub : World.untracked
          { w₁ with store := w₁.store.subscribe (.directive methods true d) } =
          { w₁.untracked with
            store := w₁.untracked.store.subscribe (.directive methods false d) } := by
        simp only [World.untracked, Store.untracked, Store.subscribe, List.map_append,
          List.map_cons, List.map_nil, Observer.untracked]
      rw [hsub] at hrest'
      refine ⟨w₁.store.issued :: ids, r, w', ?_, ?_, fun o ho => ?_⟩
      · exact Run.ends_bind.2 ⟨_, w₁, hr, Run.ends_bind.2 ⟨_, _, Run.ends_subscribe.2 ⟨rfl, rfl⟩,
          Run.ends_bind.2 ⟨_, w', hrest, Run.ends_pure.2 ⟨rfl, rfl⟩⟩⟩⟩
      · exact Run.ends_bind.2 ⟨_, _, hr', Run.ends_bind.2 ⟨_, _, Run.ends_subscribe.2 ⟨rfl, rfl⟩,
          Run.ends_bind.2 ⟨_, _, hrest', Run.ends_pure.2 ⟨rfl, rfl⟩⟩⟩⟩
      · rcases hobs o ho with ho | ⟨d', hd', ho⟩
        · rcases List.mem_append.1 ho with ho | ho
          · exact .inl (hstore ▸ ho)
          · rw [List.mem_singleton.1 ho]
            exact .inr ⟨d, List.mem_cons_self .., rfl⟩
        · exact .inr ⟨d', List.mem_cons_of_mem _ hd', ho⟩

theorem untracked_without (w : World σ) (ids : List Nat) :
    (w.without ids).untracked = w.untracked.without ids := by
  simp [World.untracked, Store.untracked, World.without, List.filter_map, Function.comp_def]

theorem twin_start (emit : Emit σ) {root : Mirror}
    (hd : ∀ d ∈ root.directives, d.Calls methods.QuietAt) {w : World σ}
    (hw : w.store.observers = []) :
    ∃ r w', Act.Ends (start emit methods true root) w r w' ∧
      Act.Ends (start emit methods false root) w.untracked r w'.untracked ∧
      ∀ c, r = .ok c →
        ∀ o ∈ w'.store.observers, ∃ d ∈ root.directives, o.2 = .directive methods true d := by
  obtain ⟨ids, r, w₁, h, h', hobs⟩ := twin_activate emit hd w
  cases r with
  | ok u =>
    refine ⟨.ok ⟨root, methods, root.directives, ids⟩, w₁, ends_start_ok.2 ⟨ids, h, rfl⟩,
      ends_start_ok.2 ⟨ids, h', rfl⟩, fun c hc => ?_⟩
    refine fun o ho => (hobs o ho).resolve_left fun hmem => ?_
    rw [hw] at hmem
    cases hmem
  | error e =>
    have hu : Run.Ends (unsubscribeAll ids) w₁ () (w₁.without ids) := ends_unsubscribeAll.2 rfl
    have hu' : Run.Ends (unsubscribeAll ids) w₁.untracked () (w₁.without ids).untracked :=
      ends_unsubscribeAll.2 (untracked_without w₁ ids)
    refine ⟨.error e, w₁.without ids, ?_, ?_, nofun⟩
    · exact Act.ends_ofRun_bind.2 ⟨_, w₁, h,
        Act.ends_ofRun_bind.2 ⟨(), _, hu, Act.ends_throw.2 ⟨rfl, rfl⟩⟩⟩
    · exact Act.ends_ofRun_bind.2 ⟨_, _, h',
        Act.ends_ofRun_bind.2 ⟨(), _, hu', Act.ends_throw.2 ⟨rfl, rfl⟩⟩⟩

theorem outer_of_sparing
    (hm : ∀ name method, methods.find? name = some method → ∀ vs, (method vs).Sparing)
    {w : World σ} (hw : w.store.observers = []) : w.Outer (fun _ _ => False) methods where
  issued := by
    rw [hw]
    nofun
  kept := fun _ => False.elim
  scripts := by
    rw [hw]
    nofun
  methods := fun name method hfind vs => (hm name method hfind vs).honest _

section Session

variable (hm : ∀ name method, methods.find? name = some method → ∀ vs, (method vs).Sparing)
  {selector : String} {o : DirectiveOptions} {w : World σ}
  (hpredicates : ∀ root, planned ⟨selector, methods, o, true⟩ w = some root →
    ∀ d ∈ root.directives, d.Calls methods.QuietAt)
  (hw : w.store.observers = [])

include hm hpredicates hw

theorem twin_mount (depth : Nat) :
    ∃ r w', Act.Ends (mount (Run.broadcast depth) ⟨selector, methods, o, true⟩) w r w' ∧
      Act.Ends (mount (Run.broadcast depth) ⟨selector, methods, o, false⟩) w.untracked r
        w'.untracked ∧
      ∀ c, r = .ok (some c) → ∃ k : Setting σ, k.Sparing ∧ k.Rests w' ∧ c.methods = k.methods ∧
        c.directives = k.directives := by
  cases hplan : planned ⟨selector, methods, o, true⟩ w with
  | none =>
    have hplan' : planned ⟨selector, methods, o, false⟩ w.untracked = none := hplan
    refine ⟨.ok none, w, ends_mount.2 ?_, ends_mount.2 ?_, nofun⟩
    · rw [hplan]
      exact ⟨rfl, rfl⟩
    · rw [hplan']
      exact ⟨rfl, rfl⟩
  | some root =>
    have hplan' : planned ⟨selector, methods, o, false⟩ w.untracked = some root := hplan
    obtain ⟨element, -, hroot⟩ := ofElement_of_planned hplan
    obtain ⟨s', hlaid⟩ := Mirror.laid_ofElement hroot
    have hobs : (prepare o root w).store.observers = [] := hw
    obtain ⟨r, w₁, h, h', hc⟩ := twin_start (Run.broadcast depth) (hpredicates root hplan) hobs
    refine ⟨r.map some, w₁, ends_mount_of_start hplan h, ends_mount_of_start hplan' h', ?_⟩
    intro c hr
    cases r with
    | error e => cases hr
    | ok c' =>
      cases hr
      have halone := hc c rfl
      have hvalid := valid_of_start h
      have ho := outer_of_sparing hm hw
      have hapt := apt_sized ho (Mirror.separate_of_laid hlaid)
      have horderly : (setting _ methods root w (Sized root.directives)).Orderly (prepare o root w) :=
        orderly_setting ho rfl rfl (sized_prepare hroot)
      obtain ⟨-, hmethods, hd, hw₁, hs₁⟩ := Setting.start_in_step hapt rfl horderly h
      exact ⟨_, ⟨hapt, fun _ _ => id, hm, hpredicates root hplan, hvalid⟩, ⟨hw₁, hs₁, halone⟩,
        hmethods, hd⟩

theorem twin_session (depth : Nat) (calls : List Call) :
    ∃ r w', Act.Ends
        (session (Run.broadcast (depth + 1)) ⟨selector, methods, o, true⟩ calls) w r w' ∧
      Act.Ends (session (Run.broadcast (depth + 1)) ⟨selector, methods, o, false⟩ calls)
        w.untracked r w'.untracked := by
  obtain ⟨r, w₁, h, h', hc⟩ := twin_mount hm hpredicates hw (depth + 1)
  rcases r with e | _ | c
  · exact ⟨.error e, w₁, Act.ends_bind.2 (.inl ⟨e, h, rfl⟩), Act.ends_bind.2 (.inl ⟨e, h', rfl⟩)⟩
  · exact ⟨.ok none, w₁, Act.ends_bind.2 (.inr ⟨_, _, h, Act.ends_pure.2 ⟨rfl, rfl⟩⟩),
      Act.ends_bind.2 (.inr ⟨_, _, h', Act.ends_pure.2 ⟨rfl, rfl⟩⟩)⟩
  · obtain ⟨k, hk, hrests, hmethods, hd⟩ := hc c rfl
    obtain ⟨rs, w', hrs, hrs'⟩ := Setting.twin_performAll hk depth hmethods hd calls hrests
    refine ⟨.ok (some (c, rs)), w', ?_, ?_⟩
    · exact Act.ends_bind.2 (.inr ⟨_, w₁, h,
        Act.ends_ofRun_bind.2 ⟨rs, w', hrs, Act.ends_pure.2 ⟨rfl, rfl⟩⟩⟩)
    · exact Act.ends_bind.2 (.inr ⟨_, _, h',
        Act.ends_ofRun_bind.2 ⟨rs, _, hrs', Act.ends_pure.2 ⟨rfl, rfl⟩⟩⟩)

end Session

end Component

def Script.lift {τ : Type} : Script σ → Script (σ × τ)
  | .done result => .done result
  | .look next => .look fun fields => (next fields).lift
  | .write field value next => .write field value fun r => (next r).lift
  | .announce field next => .announce field fun r => (next r).lift
  | .subscribe body next => .subscribe (fun e => (body e).lift) fun id => (next id).lift
  | .unsubscribe id next => .unsubscribe id fun b => (next b).lift
  | .recall next => .recall fun memory => (next memory.1).lift
  | .remember memory next => .recall fun m => .remember (memory, m.2) next.lift

theorem Script.AsksOnly.lift {τ : Type} {allowed : Request → Prop} {s : Script σ}
    (h : s.AsksOnly allowed) : (s.lift : Script (σ × τ)).AsksOnly allowed := by
  induction s with
  | done r => trivial
  | look next ih =>
    intro fields
    exact ih fields (h fields)
  | «recall» next ih =>
    intro memory
    exact ih memory.1 (h memory.1)
  | remember memory next ih =>
    intro m
    exact ih h
  | write field value next ih => exact ⟨h.1, fun r => ih r (h.2 r)⟩
  | announce field next ih => exact ⟨h.1, fun r => ih r (h.2 r)⟩
  | subscribe body next ihb ihn => exact ⟨h.1, fun id => ihn id (h.2 id)⟩
  | unsubscribe id next ih => exact ⟨h.1, fun b => ih b (h.2 b)⟩

namespace Methods

def noted (methods : Methods σ) : Methods (σ × List (String × List Value)) :=
  methods.map fun m => (m.1, fun vs =>
    Script.note (fun memory => (memory.1, memory.2 ++ [(m.1, vs)])) (m.2 vs).lift)

variable {methods : Methods σ} {allowed : Request → Prop} {name : String}

theorem asksOnly_noted
    (h : ∀ method, methods.find? name = some method → ∀ vs, (method vs).AsksOnly allowed) :
    ∀ method, methods.noted.find? name = some method → ∀ vs, (method vs).AsksOnly allowed := by
  induction methods with
  | nil => nofun
  | cons m ms ih =>
    intro method hm vs
    rw [noted, List.map_cons, Table.find?] at hm
    rw [Table.find?] at h
    split at hm
    · next hname =>
      cases hm
      rw [if_pos hname] at h
      intro memory
      exact (h m.2 rfl vs).lift
    · next hname =>
      rw [if_neg hname] at h
      exact ih h method hm vs

end Methods

/-- Tracked or not, a session has the same result, and ends with the same fields, document, journal,
presences, memory and notes of calls. -/
theorem Component.session_untracked {methods : Methods σ} {selector : String} {o : DirectiveOptions}
    {w : World (σ × List (String × List Value))} (hw : w.store.observers = [])
    (hmethods : ∀ name method, methods.find? name = some method → ∀ vs, (method vs).Sparing)
    (hpredicates : ∀ root, planned ⟨selector, methods.noted, o, true⟩ w = some root →
      ∀ d ∈ root.directives, d.Calls methods.QuietAt) (depth : Nat) (calls : List Call) :
    ∃ r w', Act.Ends (session (Run.broadcast (depth + 1)) ⟨selector, methods.noted, o, true⟩ calls)
        w r w' ∧
      Act.Ends (session (Run.broadcast (depth + 1)) ⟨selector, methods.noted, o, false⟩ calls)
        w r w'.untracked := by
  have hself : w.untracked = w := by
    simp only [World.untracked, Store.untracked, hw, List.map_nil]
    rw [← hw]
  obtain ⟨r, w', h₁, h₂⟩ := twin_session (fun name => Methods.asksOnly_noted (hmethods name))
    (fun root hroot d hd => (hpredicates root hroot d hd).mono fun _ => Methods.asksOnly_noted)
    hw depth calls
  rw [hself] at h₂
  exact ⟨r, w', h₁, h₂⟩

def lampMethods : Methods Unit :=
  [("isLit", fun _ => .read "lit" fun v => .give (.bool v.truthy)),
    ("show", fun _ => .announce "lit" fun _ => .give .null)]

def lampPage : World (Unit × List (String × List Value)) where
  store := Store.ofFields []
  document := Document.parse "<div show-if=\"isLit()\">\x7b\x7bby\x7d\x7d</div>"
  presences := #[]
  memory := ((), [])

theorem Component.session_untracked_lamp :
    ∃ r w', Act.Ends (session (Run.broadcast 2) ⟨"div", lampMethods.noted, .default, true⟩
        [.set "lit" (.bool true), .dispatch "show()", .set "by" (.string "sun")]) lampPage r w' ∧
      Act.Ends (session (Run.broadcast 2) ⟨"div", lampMethods.noted, .default, false⟩
        [.set "lit" (.bool true), .dispatch "show()", .set "by" (.string "sun")]) lampPage r
        w'.untracked := by
  have hcalls : ∀ root ∈ planned ⟨"div", lampMethods.noted, .default, true⟩ lampPage,
      ∀ d ∈ root.directives, d.Calls (· = "isLit") := by decide +kernel
  refine Component.session_untracked rfl (fun name method hm vs => ?_) (fun root hroot d hd => ?_)
    1 _
  · rcases List.mem_pair.1 (Table.mem_of_find? hm) with hm | hm
    · cases hm
      exact fun _ => trivial
    · cases hm
      exact ⟨rfl, fun _ => trivial⟩
  · refine (hcalls root hroot d hd).mono ?_
    rintro _ rfl method hm vs
    cases hm
    exact fun _ => trivial

def isAlone : Script Bool := .read "in" fun v => .give (.bool !v.truthy)

/-- The method rings and says whether no one is in; while it rings it only says so. -/
def ringMethods : Methods Bool :=
  [("alone", fun _ => .recall fun ringing =>
    if ringing then isAlone
    else .remember true (.announce "ring" fun _ => .remember false isAlone))]

def ringPage : World Bool where
  store := Store.ofFields []
  document := Document.parse ("<div><p show-if=\"alone()\"></p><p>\x7b\x7bin\x7d\x7d</p>" ++
    "<p show-if=\"!in || ring\"></p></div>")
  presences := #[]
  memory := false

theorem answer_isAlone {emit : Emit Bool} {w w' : World Bool} {r : Except EvalError Value}
    (h : Act.Ends (isAlone.run emit) w r w') :
    r = .ok (.bool !(Script.fieldOf w'.store.fields "in").truthy) := by
  obtain ⟨rfl, rfl⟩ := Act.ends_ofResult.1 (Act.ends_world_bind.1 h)
  rfl

/-- Where a predicate's method announces, an element goes before a text is written, or after, as directives
are tracked or not. -/
theorem Component.session_told_apart :
    (∀ name method, ringMethods.find? name = some method →
      ∀ vs, (method vs).Sparing ∧ (method vs).Answers) ∧
    ringPage.store.observers = [] ∧
    ∃ r r' w w', Act.Ends (session (Run.broadcast 3) ⟨"div", ringMethods, .default, true⟩
        [.set "in" (.bool true)]) ringPage r w ∧
      Act.Ends (session (Run.broadcast 3) ⟨"div", ringMethods, .default, false⟩
        [.set "in" (.bool true)]) ringPage r' w' ∧
      w.document.journal ≠ w'.document.journal := by
  refine ⟨fun name method hm vs => ?_, rfl, ?_⟩
  · cases List.mem_singleton.1 (Table.mem_of_find? hm)
    constructor
    · intro ringing
      cases ringing
      · exact ⟨rfl, fun _ _ => trivial⟩
      · exact fun _ => trivial
    · refine ⟨fun fields => .ok (.bool !(Script.fieldOf fields "in").truthy), fun depth w r w' h => ?_⟩
      have h := Act.ends_world_bind.1 h
      dsimp only at h
      split at h
      · exact answer_isAlone h
      · obtain ⟨_, _, -, h⟩ := Act.ends_ofRun_bind.1 h
        obtain ⟨_, _, -, h⟩ := Act.ends_attempt_bind.1 h
        obtain ⟨_, _, -, h⟩ := Act.ends_ofRun_bind.1 h
        exact answer_isAlone h
  · let run (tracked : Bool) := StateT.run (ExceptT.run (session (Run.broadcast 3)
      ⟨"div", ringMethods, .default, tracked⟩ [.set "in" (.bool true)])) ringPage
    have htracked : (run true).map (fun x => x.2.document.journal.drop 3) =
        some [.removed 1 2, .removed 1 5, .textChanged 6] := by decide +kernel
    have huntracked : (run false).map (fun x => x.2.document.journal.drop 3) =
        some [.removed 1 2, .textChanged 6, .removed 1 5] := by decide +kernel
    obtain ⟨⟨r, w⟩, h, hw⟩ := Option.map_eq_some_iff.1 htracked
    obtain ⟨⟨r', w'⟩, h', hw'⟩ := Option.map_eq_some_iff.1 huntracked
    refine ⟨r, r', w, w', h, h', fun heq => ?_⟩
    rw [heq, hw'] at hw
    exact absurd hw (by decide)

end LiveMarkup
