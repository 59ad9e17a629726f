import LiveMarkup.Proofs.Reactive.Ends

/-!
Code outside a component: its methods and the other observers of its store. Outside code may do all
that a script can, but it unsubscribes only numbers that it was given; so it never hits a directive.
-/

namespace LiveMarkup

open LiveMarkup.Expression

variable {σ : Type}

namespace Store

def Foreign (s : Store σ) (id : Nat) : Prop :=
  id < s.issued ∧ ∀ o, (id, o) ∈ s.observers → ∃ body, o = .script body

theorem foreign_subscribe_script {s : Store σ} {body : Event → Script σ} {id : Nat}
    (h : s.Foreign id) : (s.subscribe (.script body)).Foreign id := by
  refine ⟨Nat.lt_succ_of_lt h.1, fun o ho => ?_⟩
  rcases List.mem_append.1 ho with ho | ho
  · exact h.2 o ho
  · exact ⟨body, congrArg Prod.snd (List.mem_singleton.1 ho)⟩

theorem foreign_subscribe_directive {s : Store σ} {o : Observer σ} {id : Nat} (h : s.Foreign id) :
    (s.subscribe o).Foreign id := by
  refine ⟨Nat.lt_succ_of_lt h.1, fun o' ho => ?_⟩
  rcases List.mem_append.1 ho with ho | ho
  · exact h.2 o' ho
  · exact absurd (congrArg Prod.fst (List.mem_singleton.1 ho)) (Nat.ne_of_lt h.1)

theorem foreign_unsubscribe {s : Store σ} {id other : Nat} (h : s.Foreign id) :
    (s.unsubscribe other).Foreign id :=
  ⟨h.1, fun o ho => h.2 o (List.mem_filter.1 ho).1⟩

theorem foreign_issued {s : Store σ} {body : Event → Script σ}
    (h : ∀ o ∈ s.observers, o.1 < s.issued) : (s.subscribe (.script body)).Foreign s.issued := by
  refine ⟨Nat.lt_succ_self _, fun o ho => ?_⟩
  rcases List.mem_append.1 ho with ho | ho
  · exact absurd (h _ ho) (Nat.lt_irrefl _)
  · exact ⟨body, congrArg Prod.snd (List.mem_singleton.1 ho)⟩

end Store

/-- `keeps memory id` says that a memory holds a number; `given` are the numbers at hand. -/
def Script.Honest (keeps : σ → Nat → Prop) : Script σ → (Nat → Prop) → Prop
  | .done _, _ => True
  | .look next, given => ∀ fields, (next fields).Honest keeps given
  | .write _ _ next, given => ∀ r, (next r).Honest keeps given
  | .announce _ next, given => ∀ r, (next r).Honest keeps given
  | .subscribe body next, given =>
    (∀ e, (body e).Honest keeps given) ∧ ∀ id, (next id).Honest keeps fun i => given i ∨ i = id
  | .unsubscribe id next, given => given id ∧ ∀ b, (next b).Honest keeps given
  | .recall next, given => ∀ memory, (next memory).Honest keeps fun i => given i ∨ keeps memory i
  | .remember memory next, given => (∀ i, keeps memory i → given i) ∧ next.Honest keeps given

theorem Script.Honest.mono {keeps : σ → Nat → Prop} {s : Script σ} {given more : Nat → Prop}
    (h : s.Honest keeps given) (hm : ∀ i, given i → more i) : s.Honest keeps more := by
  induction s generalizing given more with
  | done r => trivial
  | look next ih => exact fun fields => ih fields (h fields) hm
  | write field value next ih => exact fun r => ih r (h r) hm
  | announce field next ih => exact fun r => ih r (h r) hm
  | subscribe body next ihb ihn =>
    exact ⟨fun e => ihb e (h.1 e) hm, fun id => ihn id (h.2 id) fun i => Or.imp_left (hm i)⟩
  | unsubscribe id next ih => exact ⟨hm id h.1, fun b => ih b (h.2 b) hm⟩
  | «recall» next ih => exact fun memory => ih memory (h memory) fun i => Or.imp_left (hm i)
  | remember memory next ih => exact ⟨fun i hi => hm i (h.1 i hi), ih h.2 hm⟩

/-- A component as its store sees it, what outside code may hold (in a memory, and from before), and
what is said of the document and the presences. -/
structure Setting (σ : Type) where
  keeps : σ → Nat → Prop
  given : Nat → Prop
  methods : Methods σ
  directives : List Directive
  shape : Document → Array Presence → Prop

namespace Setting

def Honest (k : Setting σ) : Prop :=
  ∀ name method, k.methods.find? name = some method → ∀ vs, (method vs).Honest k.keeps k.given

structure Orderly (k : Setting σ) (w : World σ) : Prop where
  issued : ∀ o ∈ w.store.observers, o.1 < w.store.issued
  kept : ∀ id, k.keeps w.memory id → w.store.Foreign id
  given : ∀ id, k.given id → w.store.Foreign id
  scripts : ∀ id body, (id, Observer.script body) ∈ w.store.observers →
    ∀ e, (body e).Honest k.keeps w.store.Foreign
  own : ∀ id methods tracked d, (id, Observer.directive methods tracked d) ∈ w.store.observers →
    methods = k.methods ∧ d ∈ k.directives
  shaped : k.shape w.document w.presences

variable {k : Setting σ} {w : World σ}

theorem Orderly.write (h : k.Orderly w) (field : String) (value : Value) :
    k.Orderly { w with store := w.store.put field value } :=
  ⟨h.issued, h.kept, h.given, h.scripts, h.own, h.shaped⟩

theorem Orderly.remember (h : k.Orderly w) {memory : σ}
    (hm : ∀ id, k.keeps memory id → w.store.Foreign id) : k.Orderly { w with memory := memory } :=
  ⟨h.issued, hm, h.given, h.scripts, h.own, h.shaped⟩

theorem Orderly.subscribe (h : k.Orderly w) {body : Event → Script σ}
    (hb : ∀ e, (body e).Honest k.keeps w.store.Foreign) :
    k.Orderly { w with store := w.store.subscribe (.script body) } := by
  refine ⟨fun o ho => ?_, fun id hid => Store.foreign_subscribe_script (h.kept id hid),
    fun id hid => Store.foreign_subscribe_script (h.given id hid), fun id b ho e => ?_,
    fun id methods tracked d ho => ?_, h.shaped⟩
  · rcases List.mem_append.1 ho with ho | ho
    · exact Nat.lt_succ_of_lt (h.issued o ho)
    · rw [List.mem_singleton.1 ho]
      exact Nat.lt_succ_self _
  · refine Script.Honest.mono ?_ fun i => Store.foreign_subscribe_script
    rcases List.mem_append.1 ho with ho | ho
    · exact h.scripts id b ho e
    · cases List.mem_singleton.1 ho
      exact hb e
  · rcases List.mem_append.1 ho with ho | ho
    · exact h.own id methods tracked d ho
    · cases List.mem_singleton.1 ho

theorem Orderly.unsubscribe (h : k.Orderly w) (id : Nat) :
    k.Orderly { w with store := w.store.unsubscribe id } := by
  have hmem (o) (ho : o ∈ (w.store.unsubscribe id).observers) : o ∈ w.store.observers :=
    (List.mem_filter.1 ho).1
  refine ⟨fun o ho => h.issued o (hmem o ho), fun i hi => Store.foreign_unsubscribe (h.kept i hi),
    fun i hi => Store.foreign_unsubscribe (h.given i hi), fun i b ho e => ?_,
    fun i methods tracked d ho => h.own i methods tracked d (hmem _ ho), h.shaped⟩
  exact (h.scripts i b (hmem _ ho) e).mono fun j => Store.foreign_unsubscribe

theorem Orderly.activate (h : k.Orderly w) (tracked : Bool) {d : Directive}
    (hd : d ∈ k.directives) :
    k.Orderly { w with store := w.store.subscribe (.directive k.methods tracked d) } := by
  refine ⟨fun o ho => ?_, fun id hid => Store.foreign_subscribe_directive (h.kept id hid),
    fun id hid => Store.foreign_subscribe_directive (h.given id hid), fun id b ho e => ?_,
    fun id methods t d' ho => ?_, h.shaped⟩
  · rcases List.mem_append.1 ho with ho | ho
    · exact Nat.lt_succ_of_lt (h.issued o ho)
    · rw [List.mem_singleton.1 ho]
      exact Nat.lt_succ_self _
  · refine Script.Honest.mono ?_ fun i => Store.foreign_subscribe_directive
    rcases List.mem_append.1 ho with ho | ho
    · exact h.scripts id b ho e
    · cases List.mem_singleton.1 ho
  · rcases List.mem_append.1 ho with ho | ho
    · exact h.own id methods t d' ho
    · cases List.mem_singleton.1 ho
      exact ⟨rfl, hd⟩

end Setting

namespace World

def Directs (w : World σ) (tracked : Bool) (d : Directive) : Prop :=
  ∃ id methods, (id, Observer.directive methods tracked d) ∈ w.store.observers

structure Alike (w w' : World σ) : Prop where
  fields : w'.store.fields = w.store.fields
  document : w'.document = w.document
  presences : w'.presences = w.presences
  directs : ∀ tracked d, w.Directs tracked d → w'.Directs tracked d

theorem alike_remember (w : World σ) (memory : σ) : w.Alike { w with memory := memory } :=
  ⟨rfl, rfl, rfl, fun _ _ h => h⟩

theorem alike_subscribe (w : World σ) (o : Observer σ) :
    w.Alike { w with store := w.store.subscribe o } :=
  ⟨rfl, rfl, rfl, fun _ _ ⟨id, methods, h⟩ => ⟨id, methods, List.mem_append_left _ h⟩⟩

theorem alike_unsubscribe {w : World σ} {id : Nat} (h : w.store.Foreign id) :
    w.Alike { w with store := w.store.unsubscribe id } := by
  refine ⟨rfl, rfl, rfl, fun tracked d ⟨i, methods, hi⟩ => ⟨i, methods, ?_⟩⟩
  refine List.mem_filter.2 ⟨hi, ?_⟩
  have hne : i ≠ id := by
    rintro rfl
    obtain ⟨body, hb⟩ := h.2 _ hi
    cases hb
  simpa using hne

end World

structure Course (R : World σ → World σ → Prop) : Prop extends Steady R where
  alike : ∀ {w w'}, w.Alike w' → R w w'

namespace Setting

def Outward (k : Setting σ) (R : World σ → World σ → Prop) (w w' : World σ) : Prop :=
  k.Orderly w → k.Orderly w' ∧ (∀ id, w.store.Foreign id → w'.store.Foreign id) ∧ R w w'

variable {k : Setting σ} {R : World σ → World σ → Prop}

theorem steady_outward (hR : Steady R) : Steady (k.Outward R) where
  refl w h := ⟨h, fun _ hid => hid, hR.refl w⟩
  trans h h' hu := by
    obtain ⟨hv, hf, hr⟩ := h hu
    obtain ⟨hw, hf', hr'⟩ := h' hv
    exact ⟨hw, fun id hid => hf' id (hf id hid), hR.trans hr hr'⟩

theorem outward_mono {R' : World σ → World σ → Prop} (hR : ∀ w w', R w w' → R' w w')
    {w w' : World σ} (h : k.Outward R w w') : k.Outward R' w w' :=
  fun hw => ⟨(h hw).1, (h hw).2.1, hR _ _ (h hw).2.2⟩

end Setting

section Run

variable {k : Setting σ} {R : World σ → World σ → Prop} {emit : Emit σ}

theorem Script.run_outward (hR : Course R)
    (hset : ∀ field value, Act.Keeps (k.Outward R) (Run.setField emit field value))
    (hannounce : ∀ field, Act.Keeps (k.Outward R) (Run.announce emit field))
    {s : Script σ} {given : Nat → Prop} (hs : s.Honest k.keeps given) {w w' : World σ}
    {r : Except EvalError Value} (hw : k.Orderly w) (hg : ∀ id, given id → w.store.Foreign id)
    (h : Act.Ends (s.run emit) w r w') : k.Outward R w w' := by
  have hO : Steady (k.Outward R) := Setting.steady_outward hR.toSteady
  -- the numbers at hand stay foreign to the component on the way
  induction s generalizing given w with
  | done result =>
    obtain ⟨-, rfl⟩ := Act.ends_ofResult.1 h
    exact hO.refl w'
  | look next ih => exact ih _ (hs _) hw hg (Act.ends_world_bind.1 h)
  | write field value next ih =>
    obtain ⟨x, w₁, hx, hn⟩ := Act.ends_attempt_bind.1 h
    have h₁ := hset field value w x w₁ hx
    obtain ⟨hw₁, hf, -⟩ := h₁ hw
    exact hO.trans h₁ (ih x (hs x) hw₁ (fun id hid => hf id (hg id hid)) hn)
  | announce field next ih =>
    obtain ⟨x, w₁, hx, hn⟩ := Act.ends_attempt_bind.1 h
    have h₁ := hannounce field w x w₁ hx
    obtain ⟨hw₁, hf, -⟩ := h₁ hw
    exact hO.trans h₁ (ih x (hs x) hw₁ (fun id hid => hf id (hg id hid)) hn)
  | subscribe body next _ ih =>
    obtain ⟨id, w₁, hid, hn⟩ := Act.ends_ofRun_bind.1 h
    obtain ⟨rfl, rfl⟩ := Run.ends_subscribe.1 hid
    have hb (e) : (body e).Honest k.keeps w.store.Foreign := (hs.1 e).mono hg
    have hf (id) (hid : w.store.Foreign id) : (w.store.subscribe (.script body)).Foreign id :=
      Store.foreign_subscribe_script hid
    refine hO.trans (fun _ => ⟨hw.subscribe hb, hf, hR.alike (w.alike_subscribe _)⟩)
      (ih _ (hs.2 _) (hw.subscribe hb) ?_ hn)
    rintro i (hi | rfl)
    · exact hf i (hg i hi)
    · exact Store.foreign_issued hw.issued
  | unsubscribe id next ih =>
    obtain ⟨b, w₁, hid, hn⟩ := Act.ends_ofRun_bind.1 h
    obtain ⟨rfl, rfl⟩ := Run.ends_unsubscribe.1 hid
    have hf (i) (hi : w.store.Foreign i) : (w.store.unsubscribe id).Foreign i :=
      Store.foreign_unsubscribe hi
    exact hO.trans
      (fun _ => ⟨hw.unsubscribe id, hf, hR.alike (World.alike_unsubscribe (hg id hs.1))⟩)
      (ih _ (hs.2 _) (hw.unsubscribe id) (fun i hi => hf i (hg i hi)) hn)
  | «recall» next ih =>
    refine ih _ (hs _) hw ?_ (Act.ends_world_bind.1 h)
    rintro i (hi | hi)
    · exact hg i hi
    · exact hw.kept i hi
  | remember memory next ih =>
    obtain ⟨_, w₁, hm, hn⟩ := Act.ends_ofRun_bind.1 h
    rw [Run.ends_modify.1 hm] at hn
    have hw₁ := hw.remember fun i hi => hg i (hs.1 i hi)
    exact hO.trans (fun _ => ⟨hw₁, fun _ hid => hid, hR.alike (w.alike_remember memory)⟩)
      (ih hs.2 hw₁ hg hn)

theorem Run.scope_call_outward (hk : k.Honest) (hR : Course R)
    (hset : ∀ field value, Act.Keeps (k.Outward R) (Run.setField emit field value))
    (hannounce : ∀ field, Act.Keeps (k.Outward R) (Run.announce emit field))
    (name : String) (vs : List Value) :
    Act.Keeps (k.Outward R) ((Run.scope emit k.methods).call name vs) := by
  intro w r w' h hw
  simp only [Run.scope] at h
  cases hm : k.methods.find? name with
  | none =>
    rw [hm] at h
    obtain ⟨-, rfl⟩ := Act.ends_throw.1 h
    exact (Setting.steady_outward hR.toSteady).refl w' hw
  | some method =>
    rw [hm] at h
    exact Script.run_outward hR hset hannounce (hk name method hm vs) hw hw.given h hw

theorem Run.scope_field_keeps (hR : Steady R) (methods : Methods σ) (name : String) :
    Run.Keeps R ((Run.scope emit methods).field name) := by
  intro w v w' h
  obtain ⟨-, rfl⟩ := Run.ends_getField.1 h
  exact hR.refl w'

end Run

end LiveMarkup
